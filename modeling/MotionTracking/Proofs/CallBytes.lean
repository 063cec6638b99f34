import MotionTracking.Proofs.Guarded
import MotionTracking.Proofs.RangeChange
import MotionTracking.Proofs.Snapshot

/-!
# `MotionTracking.Proofs.CallBytes`: whose bytes are in `txbuf`

`mpu_acc_range` fills `txbuf` and only then takes `mpu.c`'s mutex. The MPU thread uses
`txbuf` with the mutex held. The buffer belongs to one thread at a time (`owns`) in the
runs in which the two keep apart (`Act.tidy`): to a change of range up to its transfer, or
to an update up to its last one.

`callGuard` is the guard of this: the scale factor and the range in the sensor are
protected by the mutex, and each thread knows its calls, and the buffer while it is its
own. There is one rule for each kind of action. `Transactions` is about the code.
-/

set_option autoImplicit false

namespace MotionTracking

open Threads (Machine Outline Reaches Config Move)
open Threads.Outline (Sat Triple)
open Threads.Prog (perform)
open Footprint (Within Effect)

variable {F α : Type}

/-- The byte strings that a call of `mpu_acc_range` or `mpu_read_acc_axis` transmits. -/
def Fn.sends : Fn → Option (List (List UInt8))
  | .mpuAccRange range => some [[ACCEL_CONFIG, range.code]]
  | .mpuReadAccAxis axis => some [[axis.code], [axis.code + 1]]
  | _ => none

namespace Obs

/-- Every call that has returned has transmitted its own bytes, and no others. -/
def Transmitted : List (Obs F) → Prop
  | [] => True
  | .returned f :: l => (∀ bytes ∈ f.sends, sentSince f l = bytes) ∧ Transmitted l
  | _ :: l => Transmitted l

/-- The call of a function that transmits which has not returned. These calls do not
nest. -/
def sender : List (Obs F) → Option Fn
  | [] => none
  | .began f :: l => if f.sends.isSome then some f else sender l
  | .returned f :: l => if f.sends.isSome then none else sender l
  | _ :: l => sender l

/-- Every transfer within a call has sent the next of the call's own bytes, and every call
that has returned has sent them all. -/
def Own : List (Obs F) → Prop
  | [] => True
  | .transfer bytes _ :: l =>
      (∀ f ∈ sender l, ∀ own ∈ f.sends, sentSince f l ++ [bytes] <+: own) ∧ Own l
  | .returned f :: l => (∀ own ∈ f.sends, sentSince f l = own) ∧ Own l
  | _ :: l => Own l

/-- `mpu_acc_range` has been called, and has not made its transfer. -/
def filling : List (Obs F) → Bool
  | [] => false
  | .began (.mpuAccRange _) :: _ => true
  | .transfer _ _ :: _ => false
  | _ :: l => filling l

/-- `mpu_acc_range` has made a transfer. -/
def ranged : List (Obs F) → Bool
  | [] => false
  | .transfer _ _ :: l => filling l || ranged l
  | _ :: l => ranged l

/-- An update has begun, and has a transfer still to make. Its last one is the second of
the z-axis. -/
def reading : List (Obs F) → Bool
  | [] => false
  | .began f :: l => f = .mpuAccUpdate || reading l
  | .returned f :: l => f ≠ .mpuAccUpdate && reading l
  | .transfer _ _ :: l => reading l && !(sender l = some (.mpuReadAccAxis .ACC_AXIS_Z) &&
      sentSince (.mpuReadAccAxis .ACC_AXIS_Z) l ≠ [])
  | _ :: l => reading l

/-- The calls that have returned are those of `Transmitted`. -/
theorem Own.transmitted {l : List (Obs F)} (h : Own l) : Transmitted l := by
  induction l with
  | nil => trivial
  | cons ev l ih =>
      cases ev with
      | returned f => exact ⟨h.1, ih h.2⟩
      | transfer bytes msg => exact ih h.2
      | _ => exact ih h

/-- The transfers of an update are made within it. -/
theorem inside_of_reading {l : List (Obs F)} (h : reading l = true) :
    inside .mpuAccUpdate l = true := by
  induction l with
  | nil => cases h
  | cons ev l ih =>
      cases ev with
      | began f =>
          simp only [reading, Bool.or_eq_true] at h
          simp only [inside, Bool.or_eq_true]
          exact h.imp_right ih
      | returned f =>
          simp only [reading, Bool.and_eq_true] at h
          simp only [inside, Bool.and_eq_true]
          exact h.imp_right ih
      | transfer bytes msg =>
          simp only [reading, Bool.and_eq_true] at h
          exact ih h.1
      | _ => exact ih h

/-- Outside an update no transfer of one is to be made. -/
theorem reading_eq_false {l : List (Obs F)} (h : inside .mpuAccUpdate l = false) :
    reading l = false := by
  rw [← Bool.not_eq_true]
  exact fun hr => Bool.false_ne_true (h.symm.trans (inside_of_reading hr))

end Obs

/-- The step does not let `mpu_acc_range` of the serial thread fill `txbuf` beside an
update. -/
def Act.orderly (t : Tid) (s : Sys F) : Act F → Bool
  | .note ev =>
      match ev s.mpu with
      | .began (.mpuAccRange _) => !(t = .serial && Obs.inside .mpuAccUpdate (s.log .mpu))
      | .began .mpuAccUpdate => !Obs.filling (s.log .serial)
      | _ => true
  | _ => true

/-- The firmware's machine, without the steps that break `Act.orderly`. -/
def orderlyMachine (F : Type) : Machine (sig F) Tid (Sys F) EnvMove :=
  (machine F).restrict (fun t a s => a.orderly t s = true) fun _ _ => True

/-- The step does not let `mpu_acc_range` of the serial thread fill `txbuf` while an
update has a transfer to make. -/
def Act.tidy (t : Tid) (s : Sys F) : Act F → Bool
  | .note ev =>
      match ev s.mpu with
      | .began (.mpuAccRange _) => !(t = .serial && Obs.reading (s.log .mpu))
      | .began .mpuAccUpdate => !Obs.filling (s.log .serial)
      | _ => true
  | _ => true

/-- The firmware's machine, without the steps that break `Act.tidy`. -/
def tidyMachine (F : Type) : Machine (sig F) Tid (Sys F) EnvMove :=
  (machine F).restrict (fun t a s => a.tidy t s = true) fun _ _ => True

/-- An orderly step is tidy. -/
theorem Act.tidy_of_orderly {t : Tid} {s : Sys F} {a : Act F} (h : a.orderly t s = true) :
    a.tidy t s = true := by
  cases a with
  | note ev =>
      cases hev : ev s.mpu with
      | began f =>
          simp only [Act.orderly, hev] at h
          simp only [Act.tidy, hev]
          cases f with
          | mpuAccRange range =>
              rw [Bool.not_eq_true', Bool.and_eq_false_iff] at h ⊢
              exact h.imp_right Obs.reading_eq_false
          | mpuAccUpdate => exact h
          | _ => rfl
      | _ => simp only [Act.tidy, hev]
  | _ => rfl

/-- What an orderly run reaches, a tidy one does. -/
theorem orderlyMachine_le : (orderlyMachine F).Le (tidyMachine F) where
  exec h := by
    obtain ⟨horderly, hexec⟩ := Machine.restrict_exec_eq_some.mp h
    exact Machine.restrict_exec_eq_some.mpr ⟨Act.tidy_of_orderly horderly, hexec⟩
  env h := h

/-! ### The guard -/

/-- What a thread's log says about its calls. -/
@[ext]
structure Calls where
  filling : Bool
  ranged : Bool
  updating : Bool
  reading : Bool
  sender : Option Fn
  range : AccelRange → List (List UInt8)
  read : AccAxis → List (List UInt8)

/-- What a log says about the calls. -/
def calls (l : List (Obs F)) : Calls where
  filling := Obs.filling l
  ranged := Obs.ranged l
  updating := Obs.inside .mpuAccUpdate l
  reading := Obs.reading l
  sender := Obs.sender l
  range r := Obs.sentSince (.mpuAccRange r) l
  read a := Obs.sentSince (.mpuReadAccAxis a) l

/-- What a call has sent. -/
def Calls.since (c : Calls) : Fn → List (List UInt8)
  | .mpuAccRange range => c.range range
  | .mpuReadAccAxis axis => c.read axis
  | _ => []

/-- `bytes` are the next ones of the call that is being made. -/
def Calls.Next (c : Calls) (bytes : List UInt8) : Prop :=
  ∀ f ∈ c.sender, ∀ own ∈ f.sends, c.since f ++ [bytes] <+: own

/-- After a transfer. -/
def Calls.sent (c : Calls) (bytes : List UInt8) : Calls where
  filling := false
  ranged := c.filling || c.ranged
  updating := c.updating
  reading := c.reading &&
    !(c.sender = some (.mpuReadAccAxis .ACC_AXIS_Z) && c.read .ACC_AXIS_Z ≠ [])
  sender := c.sender
  range r := c.range r ++ [bytes]
  read a := c.read a ++ [bytes]

/-- A call of `mpu_acc_range` begins. -/
theorem calls_beganRange (range : AccelRange) (l : List (Obs F)) :
    calls (.began (.mpuAccRange range) :: l) =
      { calls l with
        filling := true
        sender := some (.mpuAccRange range)
        range := Function.update (calls l).range range [] } := by
  ext1
  case range =>
    funext r
    by_cases hr : r = range
    · simp [calls, Obs.sentSince, hr]
    · simp [calls, Obs.sentSince, hr, Ne.symm hr]
  all_goals rfl

/-- A call of `mpu_read_acc_axis` begins. -/
theorem calls_beganRead (axis : AccAxis) (l : List (Obs F)) :
    calls (.began (.mpuReadAccAxis axis) :: l) =
      { calls l with
        sender := some (.mpuReadAccAxis axis)
        read := Function.update (calls l).read axis [] } := by
  ext1
  case read =>
    funext a
    by_cases ha : a = axis
    · simp [calls, Obs.sentSince, ha]
    · simp [calls, Obs.sentSince, ha, Ne.symm ha]
  all_goals rfl

/-- The bytes of a call that has not returned, as the log has them. -/
theorem own_transfer {bytes : List UInt8} {msg : Msg} {l : List (Obs F)}
    (hnext : (calls l).Next bytes) (h : Obs.Own l) : Obs.Own (.transfer bytes msg :: l) := by
  refine ⟨fun f hf own hown => ?_, h⟩
  have hprefix := hnext f hf own hown
  cases f with
  | mpuAccRange range => exact hprefix
  | mpuReadAccAxis axis => exact hprefix
  | _ => cases hown

/-- `txbuf` belongs to `main` until it starts the serial thread, then to a range change
of the serial thread up to its transfer, and to an update up to its last one. -/
def owns (t : Tid) (s : Sys F) : Bool :=
  match t with
  | .main => !s.started .serial
  | .serial => Obs.filling (s.log .serial)
  | .mpu => Obs.reading (s.log .mpu)

/-- What only one thread changes: its calls, and `txbuf` while it belongs to it. -/
structure CallView where
  calls : Calls
  txbuf : Option (Buf 5)

/-- The view of a thread in a state. -/
def callView (t : Tid) (s : Sys F) : CallView where
  calls := calls (s.log t)
  txbuf := if owns t s then some s.mpu.txbuf else none

/-- The scale factor, the range in the sensor, and whether `main` has set them. -/
structure Scale (F : Type) where
  factor : F
  config : UInt8
  ranged : Bool

/-- The scale in a state. -/
def scale (s : Sys F) : Scale F :=
  ⟨s.mpu.accScaleRef, s.regs ACCEL_CONFIG, Obs.ranged (s.log .main)⟩

/-- Once `main` has set the range, factor and sensor agree on one. -/
def Scale.InStep [CFloat F] (p : Scale F) : Prop :=
  p.ranged = true → ∃ range : AccelRange, p.config = range.code ∧ p.factor = accScale range

/-- The invariant, for owner `o` of the mutex. -/
structure CallInv [CFloat F] (o : Option Tid) (s : Sys F) : Prop where
  /-- All transfers succeed. -/
  results : ∀ t n, (s.results t n).msg = .MSG_OK
  msg : s.i2c.msg = .MSG_OK
  start : s.started .serial = false → s.started .mpu = false ∧
    Obs.filling (s.log .serial) = false ∧ Obs.inside .mpuAccUpdate (s.log .mpu) = false
  ranged : s.started .serial = true → Obs.ranged (s.log .main) = true
  apart : Obs.filling (s.log .serial) = true → Obs.reading (s.log .mpu) = false
  update : Obs.inside .mpuAccUpdate (s.log .mpu) = true → o = some .mpu ∧ (scale s).InStep
  transmitted : ∀ t, Obs.Own (s.log t)

/-- The scale is protected, and in step while the mutex is free. Each thread knows its
calls, and `txbuf` while it is its own. -/
def callData (F : Type) [CFloat F] : GuardData F where
  Priv _ := CallView
  Prot := Scale F
  priv t := callView t
  prot := scale
  free s := (scale s).InStep
  glob := CallInv
  safe _ _ _ := True

section
variable {s s' : Sys F} {t : Tid} {A : Footprint}

/-- What the data are read from. -/
theorem callData_same [CFloat F] (htx : s'.mpu.txbuf = s.mpu.txbuf)
    (hscale : s'.mpu.accScaleRef = s.mpu.accScaleRef)
    (hregs : s'.regs ACCEL_CONFIG = s.regs ACCEL_CONFIG) (hres : s'.results = s.results)
    (hmsg : s'.i2c.msg = s.i2c.msg) (hst : s'.started = s.started)
    (hcalls : ∀ t, calls (s'.log t) = calls (s.log t))
    (htr : ∀ t, Obs.Own (s.log t) → Obs.Own (s'.log t)) :
    (callData F).Same s s' := by
  have hfill : ∀ t, Obs.filling (s'.log t) = Obs.filling (s.log t) := fun t =>
    congrArg Calls.filling (hcalls t)
  have hranged : ∀ t, Obs.ranged (s'.log t) = Obs.ranged (s.log t) := fun t =>
    congrArg Calls.ranged (hcalls t)
  have hupd : ∀ t, Obs.inside .mpuAccUpdate (s'.log t) = Obs.inside .mpuAccUpdate (s.log t) :=
    fun t => congrArg Calls.updating (hcalls t)
  have hread : ∀ t, Obs.reading (s'.log t) = Obs.reading (s.log t) :=
    fun t => congrArg Calls.reading (hcalls t)
  have hprot : scale s' = scale s := by
    simp only [scale, hscale, hregs, hranged]
  -- Who owns the buffer is read from the logs and from who has started.
  have howns : ∀ t, owns t s' = owns t s := by
    intro t
    cases t with
    | main => simp only [owns, hst]
    | serial => exact hfill .serial
    | mpu => exact hread .mpu
  refine ⟨fun t => ?_, hprot, fun h => ?_, fun o h => ?_⟩
  · simp only [callData, callView, hcalls, howns, htx]
  · show (scale s').InStep
    rw [hprot]
    exact h
  · have h : CallInv o s := h
    refine ⟨?_, ?_, ?_, ?_, ?_, ?_, fun t => htr t (h.transmitted t)⟩
    · rw [hres]
      exact h.results
    · rw [hmsg]
      exact h.msg
    · rw [hst, hfill, hupd]
      exact h.start
    · rw [hst, hranged]
      exact h.ranged
    · rw [hfill, hread]
      exact h.apart
    · rw [hupd, hprot]
      exact h.update

/-- A log entry without a part in the calls. -/
theorem calls_entry {ev : Obs F} (hr : A.ranges = false) (hu : A.updates = false)
    (hi : .i2c ∉ A.locks) (hev : A.logs ev = true) (l : List (Obs F)) :
    calls (ev :: l) = calls l ∧ (Obs.Own l → Obs.Own (ev :: l)) := by
  cases ev with
  | began f =>
      refine ⟨?_, id⟩
      cases f <;> simp_all [Footprint.logs, Footprint.calls, calls, Obs.filling, Obs.ranged,
        Obs.inside, Obs.reading, Obs.sender, Obs.sentSince, Fn.sends]
  | returned f =>
      cases f <;> simp_all [Footprint.logs, Footprint.calls, calls, Obs.filling, Obs.ranged,
        Obs.inside, Obs.reading, Obs.sender, Obs.sentSince, Obs.Own, Fn.sends]
  | transfer bytes msg => exact absurd (of_decide_eq_true hev) hi
  | _ => exact ⟨rfl, id⟩

/-- Code that leaves `txbuf`, the scale factor and the sensor alone. -/
theorem call_same [CFloat F] (htx : A.txbuf = false) (hs : A.scale = false)
    (hr : A.ranges = false) (hu : A.updates = false) (hi : .i2c ∉ A.locks)
    (h : A.Effect t s s') : (callData F).Same s s' := by
  have hregs : s'.regs ACCEL_CONFIG = s.regs ACCEL_CONFIG := congrFun (h.regs hi) _
  have hmsg : s'.i2c.msg = s.i2c.msg := congrArg I2CDriver.msg (h.i2c hi)
  rcases h.log with hl | ⟨ev, hev, hl⟩
  · exact callData_same (h.mpu.txbuf htx) (h.mpu.scale hs) hregs (h.results hi) hmsg h.started
      (fun _ => by rw [hl]) fun _ => by rw [hl]; exact id
  · refine callData_same (h.mpu.txbuf htx) (h.mpu.scale hs) hregs (h.results hi) hmsg h.started
      (fun u => ?_) fun u => ?_
    · by_cases hu' : u = t
      · subst hu'
        rw [hl, Function.update_self]
        exact (calls_entry hr hu hi hev _).1
      · rw [hl, Function.update_of_ne hu']
    · by_cases hu' : u = t
      · subst hu'
        rw [hl, Function.update_self]
        exact (calls_entry hr hu hi hev _).2
      · rw [hl, Function.update_of_ne hu']
        exact id

/-- The guard: a step of the kernel changes none of the data. -/
def callGuard (F : Type) [CFloat F] : Guard F where
  toGuardData := callData F
  same_of_kern := by
    intro t s s' h
    refine callData_same (by rw [h.mpu]) (by rw [h.mpu]) (by rw [h.regs]) h.results (by rw [h.i2c])
      h.started (fun u => ?_) fun u => ?_
    · rcases h.log with hl | ⟨m, top, hl⟩
      · rw [hl]
      · by_cases hu : u = t
        · subst hu
          rw [hl, Function.update_self]
          rfl
        · rw [hl, Function.update_of_ne hu]
    · rcases h.log with hl | ⟨m, top, hl⟩
      · rw [hl]
        exact id
      · by_cases hu : u = t
        · subst hu
          rw [hl, Function.update_self]
          exact id
        · rw [hl, Function.update_of_ne hu]
          exact id

end

/-! ### The invariant -/

section
variable [CFloat F] {o o' : Option Tid} {s : Sys F} {t u : Tid} {ev : Obs F}

/-- Outside an update the owner of the mutex has no part in the invariant. -/
theorem CallInv.owner (h : CallInv o s)
    (ho : o = some .mpu → Obs.inside .mpuAccUpdate (s.log .mpu) = false) : CallInv o' s := by
  refine ⟨h.results, h.msg, h.start, h.ranged, h.apart, fun hupd => ?_, h.transmitted⟩
  exact absurd ((ho (h.update hupd).1).symm.trans hupd) Bool.false_ne_true

/-- `txbuf` belongs to one thread at a time. -/
theorem CallInv.owns_of_ne (h : CallInv o s) (ht : owns t s = true) (hu : u ≠ t) :
    owns u s = false := by
  have hstart : s.started .serial = false → u ≠ .main → owns u s = false := by
    intro hst hu
    cases u with
    | main => exact absurd rfl hu
    | serial => exact (h.start hst).2.1
    | mpu => exact Obs.reading_eq_false (h.start hst).2.2
  cases hst : s.started .serial with
  | false =>
      -- Until it starts the serial thread, `main` alone has calls.
      cases t with
      | main => exact hstart hst hu
      | serial => exact absurd ((h.start hst).2.1.symm.trans ht) Bool.false_ne_true
      | mpu =>
          have hout := Obs.reading_eq_false (h.start hst).2.2
          exact absurd (hout.symm.trans ht) Bool.false_ne_true
  | true =>
      -- From then on `main` has none, and the invariant keeps the two threads apart.
      cases u with
      | main => simp [owns, hst]
      | serial =>
          cases t with
          | main => simp [owns, hst] at ht
          | serial => exact absurd rfl hu
          | mpu =>
              rw [← Bool.not_eq_true]
              exact fun hfill => Bool.false_ne_true ((h.apart hfill).symm.trans ht)
      | mpu =>
          cases t with
          | main => simp [owns, hst] at ht
          | serial => exact h.apart ht
          | mpu => exact absurd rfl hu

omit [CFloat F] in
/-- A log entry that is no transfer of a range leaves the scale. -/
theorem scale_observe (hev : ∀ l, Obs.ranged (ev :: l) = Obs.ranged l) :
    scale (s.observe t ev) = scale s := by
  have hranged : Obs.ranged ((s.observe t ev).log .main) = Obs.ranged (s.log .main) := by
    by_cases ht : Tid.main = t
    · subst ht
      simpa [Sys.observe] using hev _
    · simp [Sys.observe, ht]
  show Scale.mk _ _ (Obs.ranged ((s.observe t ev).log .main)) = _
  rw [hranged]
  rfl

/-- A log entry that is not a transfer. -/
theorem CallInv.observe (h : CallInv o s) (hst : s.started t = true)
    (hev : ∀ l, Obs.ranged (ev :: l) = Obs.ranged l) (htr : Obs.Own (ev :: s.log t))
    (hfill : t = .serial → Obs.filling (ev :: s.log .serial) = true →
      Obs.reading (s.log .mpu) = false)
    (hread : t = .mpu → Obs.reading (ev :: s.log .mpu) = true →
      Obs.filling (s.log .serial) = false)
    (hupd : t = .mpu → Obs.inside .mpuAccUpdate (ev :: s.log .mpu) = true →
      o = some .mpu ∧ (scale s).InStep) :
    CallInv o (s.observe t ev) := by
  have hlog : ∀ u, u ≠ t → (s.observe t ev).log u = s.log u := fun u hu =>
    Function.update_of_ne hu _ _
  have hself : (s.observe t ev).log t = ev :: s.log t := Function.update_self t _ _
  have hscale : scale (s.observe t ev) = scale s := scale_observe hev
  refine ⟨h.results, h.msg, fun hser => ?_, fun hser => ?_, ?_, ?_, fun u => ?_⟩
  · -- Only `main` runs.
    obtain ⟨hmpu, hrest⟩ := h.start hser
    refine ⟨hmpu, ?_⟩
    rw [hlog .serial, hlog .mpu]
    · exact hrest
    · rintro rfl
      exact absurd (hmpu.symm.trans hst) Bool.false_ne_true
    · rintro rfl
      exact absurd (Eq.symm hser |>.trans hst) Bool.false_ne_true
  · exact (congrArg Scale.ranged hscale).trans (h.ranged hser)
  · -- If the entry is of one of the two threads, the other one is where it was.
    by_cases hser : Tid.serial = t
    · subst hser
      rw [hself, hlog .mpu (by decide)]
      exact hfill rfl
    · rw [hlog .serial hser]
      intro hf
      by_cases hmpu : Tid.mpu = t
      · subst hmpu
        rw [hself, ← Bool.not_eq_true]
        exact fun hin => Bool.false_ne_true ((hread rfl hin).symm.trans hf)
      · rw [hlog .mpu hmpu]
        exact h.apart hf
  · rw [hscale]
    by_cases hmpu : Tid.mpu = t
    · subst hmpu
      rw [hself]
      exact hupd rfl
    · rw [hlog .mpu hmpu]
      exact h.update
  · by_cases hu : u = t
    · subst hu
      rw [hself]
      exact htr
    · rw [hlog u hu]
      exact h.transmitted u

omit [CFloat F] in
/-- A transfer sends the bytes that are in the buffer. -/
theorem calls_log_transfer (n m : Nat) : calls ((s.transfer t n m).log t) =
    (calls (s.log t)).sent ((List.ofFn s.mpu.txbuf).take n) := by
  show calls (Function.update s.log t _ t) = _
  rw [Function.update_self]
  rfl

omit [CFloat F] in
/-- A transfer is in the log of its thread alone. -/
theorem log_transfer_of_ne (n m : Nat) (hu : u ≠ t) :
    (s.transfer t n m).log u = s.log u :=
  Function.update_of_ne hu _ _

/-- A transfer that leaves scale factor and range in step, or that is made outside an
update. -/
theorem CallInv.transfer {n m : Nat} (h : CallInv o s)
    (hnext : (calls (s.log t)).Next ((List.ofFn s.mpu.txbuf).take n))
    (hupd : Obs.inside .mpuAccUpdate (s.log .mpu) = true → (scale (s.transfer t n m)).InStep) :
    CallInv o (s.transfer t n m) := by
  have hcalls := calls_log_transfer (s := s) (t := t) n m
  -- A transfer begins no call, so it makes none of the three true.
  have hupdating : Obs.inside .mpuAccUpdate ((s.transfer t n m).log .mpu) =
      Obs.inside .mpuAccUpdate (s.log .mpu) := by
    by_cases hmpu : Tid.mpu = t
    · subst hmpu
      exact congrArg Calls.updating hcalls
    · rw [log_transfer_of_ne n m hmpu]
  have hreading : Obs.reading ((s.transfer t n m).log .mpu) = true →
      Obs.reading (s.log .mpu) = true := by
    by_cases hmpu : Tid.mpu = t
    · subst hmpu
      intro hr
      have hsent := (congrArg Calls.reading hcalls).symm.trans hr
      exact (Bool.and_eq_true_iff.mp hsent).1
    · rw [log_transfer_of_ne n m hmpu]
      exact id
  have hfilling : Obs.filling ((s.transfer t n m).log .serial) = true →
      Obs.filling (s.log .serial) = true := by
    by_cases hser : Tid.serial = t
    · subst hser
      exact fun hf => absurd ((congrArg Calls.filling hcalls).symm.trans hf) Bool.false_ne_true
    · rw [log_transfer_of_ne n m hser]
      exact id
  refine ⟨fun u k => ?_, h.results t 0, fun hser => ?_, fun hser => ?_, fun hf => ?_, ?_,
    fun u => ?_⟩
  · show (Function.update s.results t (fun k => s.results t (k + 1)) u k).msg = .MSG_OK
    by_cases hu : u = t
    · subst hu
      rw [Function.update_self]
      exact h.results u (k + 1)
    · rw [Function.update_of_ne hu]
      exact h.results u k
  · obtain ⟨hmpu, hf, hin⟩ := h.start hser
    refine ⟨hmpu, ?_, hupdating.trans hin⟩
    rw [← Bool.not_eq_true]
    exact fun hf' => Bool.false_ne_true (hf.symm.trans (hfilling hf'))
  · by_cases hmain : Tid.main = t
    · subst hmain
      refine (congrArg Calls.ranged hcalls).trans ?_
      exact Bool.or_eq_true_iff.mpr (.inr (h.ranged hser))
    · rw [log_transfer_of_ne n m hmain]
      exact h.ranged hser
  · rw [← Bool.not_eq_true]
    exact fun hr => Bool.false_ne_true ((h.apart (hfilling hf)).symm.trans (hreading hr))
  · rw [hupdating]
    exact fun hin => ⟨(h.update hin).1, hupd hin⟩
  · by_cases hu : u = t
    · subst hu
      show Obs.Own (Function.update s.log u _ u)
      rw [Function.update_self]
      exact own_transfer hnext (h.transmitted u)
    · rw [log_transfer_of_ne n m hu]
      exact h.transmitted u

omit [CFloat F] in
/-- A transfer of one thread takes the buffer from no other. -/
theorem owns_transfer_of_ne (n m : Nat) (hu : u ≠ t) : owns u (s.transfer t n m) = owns u s := by
  cases u with
  | main => rfl
  | serial => exact congrArg Obs.filling (log_transfer_of_ne n m hu)
  | mpu => exact congrArg Obs.reading (log_transfer_of_ne n m hu)

omit [CFloat F] in
/-- A transfer of one thread is invisible to the others. -/
theorem callView_transfer_of_ne (n m : Nat) (hu : u ≠ t) :
    callView u (s.transfer t n m) = callView u s := by
  simp only [callView, log_transfer_of_ne n m hu, owns_transfer_of_ne n m hu]
  rfl

end

/-! ### One action -/

/-- The firmware's machine with the rules of the mutexes, and with `Act.tidy`. -/
abbrev callMachine (F : Type) : Machine (sig F) Tid (Sys F) EnvMove := politely (tidyMachine F)

/-- What this machine reaches, the firmware reaches. -/
theorem tidyMachine_le : (tidyMachine F).Le (machine F) := Machine.restrict_le (machine F) _ _

/-- Its steps within the rules of the mutexes. -/
instance : Polite (callMachine F) := polite_of_le tidyMachine_le

/-- Whether `txbuf` belongs to a thread with calls `c`. `x` says whether it does so far. -/
def CallView.owns (t : Tid) (c : Calls) (x : Option (Buf 5)) : Bool :=
  match t with
  | .main => x.isSome
  | .serial => c.filling
  | .mpu => c.reading

section
variable [CFloat F] {t : Tid} {v : (callGuard F).View t} {c d : Calls} {x : Option (Buf 5)}
  {p : Scale F}

omit [CFloat F] in
/-- Whether the buffer is the thread's own can be read from its view. -/
theorem owns_of_view {s : Sys F} (h : callView t s = ⟨c, x⟩) : owns t s = CallView.owns t c x := by
  have hc : calls (s.log t) = c := congrArg CallView.calls h
  cases t with
  | main =>
      have hx : (if owns .main s then some s.mpu.txbuf else none) = x := congrArg CallView.txbuf h
      rw [← hx]
      cases owns .main s <;> rfl
  | serial => exact congrArg Calls.filling hc
  | mpu => exact congrArg Calls.reading hc

/-- A log entry that is not a transfer. -/
theorem call_note {ev : Obs F} {Q : Unit → (callGuard F).View t → Prop} (hv : v.priv = ⟨c, x⟩)
    (hev : ∀ l, calls l = c → calls (ev :: l) = d)
    (hranged : ∀ l : List (Obs F), Obs.ranged (ev :: l) = Obs.ranged l)
    (htr : ∀ l, calls l = c → Obs.Own l → Obs.Own (ev :: l))
    (hfill : ∀ s, (callGuard F).Inv s → (Act.note fun _ => ev).tidy t s = true → t = .serial →
      d.filling = true → Obs.reading (s.log .mpu) = false)
    (hread : ∀ s, (callGuard F).Inv s → (callGuard F).view t s = v →
      (Act.note fun _ => ev).tidy t s = true → t = .mpu → d.reading = true →
      Obs.filling (s.log .serial) = false)
    (hupd : ∀ s, (callGuard F).Inv s → (callGuard F).view t s = v → t = .mpu →
      d.updating = true → s.kern.owner .mpu = some .mpu ∧ (scale s).InStep)
    (hQ : ∀ y, (∀ z, x = some z → y = z) →
      Q () ⟨v.phase, ⟨d, if CallView.owns t d x then some y else none⟩⟩) :
    (guarded (callMachine F) (callGuard F)).Sat t (note fun _ => ev) Q v := by
  refine guarded_own rfl fun s hs hsv => ⟨trivial, fun r s' hrs he => ?_⟩
  have hview : callView t s = ⟨c, x⟩ := (congrArg Guard.View.priv hsv).trans hv
  have hc : calls (s.log t) = c := congrArg CallView.calls hview
  have htidy : (Act.note fun _ => ev).tidy t s = true :=
    (Machine.restrict_exec_eq_some.mp (Machine.restrict_exec_eq_some.mp hrs).2).1
  have hcalls : calls ((s.observe t ev).log t) = d := by
    simpa [Sys.observe] using hev _ hc
  -- The other threads' logs are not touched.
  have hothers : ∀ u, u ≠ t → callView u (s.observe t ev) = callView u s := by
    intro u hu
    have hlog : (s.observe t ev).log u = s.log u := Function.update_of_ne hu _ _
    have howns : owns u (s.observe t ev) = owns u s := by
      cases u with
      | main => rfl
      | serial => exact congrArg Obs.filling hlog
      | mpu => exact congrArg Obs.reading hlog
    simp only [callView, hlog, howns]
    rfl
  -- Its own log has one entry more, which may end its ownership of the buffer.
  have hself : callView t (s.observe t ev) =
      ⟨d, if CallView.owns t d x then some s.mpu.txbuf else none⟩ := by
    have howns : owns t (s.observe t ev) = CallView.owns t d x := by
      cases t with
      | main =>
          have howns : owns .main s = x.isSome := owns_of_view hview
          exact howns
      | serial => exact congrArg Calls.filling hcalls
      | mpu => exact congrArg Calls.reading hcalls
    simp only [callView, hcalls, howns]
    rfl
  rw [Sys.exec_note he]
  refine ⟨scale_observe hranged, fun h => ?_, hothers, ?_, ?_⟩
  · show (scale (s.observe t ev)).InStep
    rw [scale_observe hranged]
    exact h
  · refine hs.glob.observe (Sys.exec_started he) hranged (htr _ hc (hs.glob.transmitted t)) ?_ ?_ ?_
    · rintro rfl hf
      exact hfill s hs htidy rfl ((congrArg Calls.filling (hev _ hc)).symm.trans hf)
    · rintro rfl hr
      exact hread s hs hsv htidy rfl ((congrArg Calls.reading (hev _ hc)).symm.trans hr)
    · rintro rfl hin
      exact hupd s hs hsv rfl ((congrArg Calls.updating (hev _ hc)).symm.trans hin)
  · have hpriv : (callGuard F).priv t (s.observe t ev) = _ := hself
    rw [hpriv]
    refine hQ s.mpu.txbuf fun z hz => ?_
    have hx : (if owns t s then some s.mpu.txbuf else none) = x := congrArg CallView.txbuf hview
    rw [hz] at hx
    split at hx
    · exact Option.some.inj hx
    · cases hx

omit [CFloat F] in
/-- A transfer of the thread that owns `txbuf`. It owns it afterwards if there is more to
send. -/
theorem callView_transfer {s : Sys F} (n m : Nat) (howns : owns t s = true) :
    callView t (s.transfer t n m) =
      ⟨(calls (s.log t)).sent ((List.ofFn s.mpu.txbuf).take n),
        if CallView.owns t ((calls (s.log t)).sent ((List.ofFn s.mpu.txbuf).take n))
          (some s.mpu.txbuf) then some s.mpu.txbuf else none⟩ := by
  have hcalls := calls_log_transfer (s := s) (t := t) n m
  have howns' : owns t (s.transfer t n m) = CallView.owns t
      ((calls (s.log t)).sent ((List.ofFn s.mpu.txbuf).take n)) (some s.mpu.txbuf) := by
    cases t with
    | main => exact howns
    | serial => exact congrArg Calls.filling hcalls
    | mpu => exact congrArg Calls.reading hcalls
  simp only [callView, hcalls, howns']
  rfl

omit [CFloat F] in
/-- A thread that knows the contents of `txbuf` owns it. -/
theorem txbuf_of_view {s : Sys F} {b : Buf 5} (h : callView t s = ⟨c, some b⟩) :
    owns t s = true ∧ s.mpu.txbuf = b := by
  have hb : (if owns t s then some s.mpu.txbuf else none) = some b := congrArg CallView.txbuf h
  split at hb
  · exact ⟨‹_›, Option.some.inj hb⟩
  · cases hb

/-- An assignment to `txbuf`. -/
theorem call_setMpu {f : Buf 5 → Buf 5} {b : Buf 5} {Q : Unit → (callGuard F).View t → Prop}
    (hv : v.priv = ⟨c, some b⟩) (hQ : Q () ⟨v.phase, ⟨c, some (f b)⟩⟩) :
    (guarded (callMachine F) (callGuard F)).Sat t
      (setMpu fun c => { c with txbuf := f c.txbuf }) Q v := by
  refine guarded_own rfl fun s hs hsv => ⟨trivial, fun r s' _ he => ?_⟩
  have hview : callView t s = ⟨c, some b⟩ := (congrArg Guard.View.priv hsv).trans hv
  obtain ⟨howns, hb⟩ := txbuf_of_view hview
  have hc : calls (s.log t) = c := congrArg CallView.calls hview
  rw [Sys.exec_setMpu he]
  refine ⟨rfl, id, fun u hu => ?_, ?_, ?_⟩
  · show CallView.mk _ (if owns u s then _ else _) = CallView.mk _ (if owns u s then _ else _)
    rw [hs.glob.owns_of_ne howns hu]
    rfl
  · exact ⟨hs.glob.results, hs.glob.msg, hs.glob.start, hs.glob.ranged, hs.glob.apart,
      hs.glob.update, hs.glob.transmitted⟩
  · have hpriv : (callGuard F).priv t { s with mpu := { s.mpu with txbuf := f s.mpu.txbuf } } =
        ⟨c, some (f b)⟩ := by
      show CallView.mk (calls (s.log t)) (if owns t s then some (f s.mpu.txbuf) else none) = _
      rw [howns, hc, hb]
      rfl
    rw [hpriv]
    exact hQ

/-- The rule for an assignment to the thread's own buffer. -/
theorem call_setTxbuf {i : Fin 5} {a : UInt8} {b : Buf 5} {Q : Unit → (callGuard F).View t → Prop}
    (hv : v.priv = ⟨c, some b⟩) (hQ : Q () ⟨v.phase, ⟨c, some (Function.update b i a)⟩⟩) :
    (guarded (callMachine F) (callGuard F)).Sat t (setTxbuf i a) Q v :=
  call_setMpu (f := fun x => Function.update x i a) hv hQ

/-- The scale factor is assigned with the mutex held, and not by the MPU thread. -/
theorem call_setScale {k : F} {Q : Unit → (callGuard F).View t → Prop} (ht : t ≠ .mpu)
    (hp : v.phase = .holds p) (hQ : Q () ⟨.holds { p with factor := k }, v.priv⟩) :
    (guarded (callMachine F) (callGuard F)).Sat t
      (setMpu fun c => { c with accScaleRef := k }) Q v := by
  refine guarded_held rfl hp fun s hglob hprot hpriv => ⟨trivial, fun r s' _ he => ?_⟩
  rw [Sys.exec_setMpu he]
  have hidle : Obs.inside .mpuAccUpdate (s.log .mpu) = false := by
    rw [← Bool.not_eq_true]
    exact fun hin => ht (Option.some.inj (hglob.update hin).1)
  refine ⟨fun _ _ => rfl, ?_, ?_⟩
  · refine ⟨hglob.results, hglob.msg, hglob.start, hglob.ranged, hglob.apart, fun hin => ?_,
      hglob.transmitted⟩
    exact absurd (hidle.symm.trans hin) Bool.false_ne_true
  · have hprot' : (callGuard F).prot { s with mpu := { s.mpu with accScaleRef := k } } =
        { p with factor := k } := by
      rw [← hprot]
      rfl
    have hpriv' : (callGuard F).priv t { s with mpu := { s.mpu with accScaleRef := k } } =
        v.priv := hpriv
    rw [hprot', hpriv']
    exact hQ

/-- A transfer of a thread that is not in `mpu_acc_range` and does not write to
`ACCEL_CONFIG`. -/
theorem call_transfer {addr : UInt8} {n m : Nat} {b : Buf 5}
    {Q : Unit → (callGuard F).View t → Prop} (hv : v.priv = ⟨c, some b⟩) (hc : c.filling = false)
    (hreg : ∀ regs, sensorWrite ((List.ofFn b).take n) regs ACCEL_CONFIG = regs ACCEL_CONFIG)
    (hnext : c.Next ((List.ofFn b).take n))
    (hQ : Q () ⟨v.phase, ⟨c.sent ((List.ofFn b).take n),
      if CallView.owns t (c.sent ((List.ofFn b).take n)) (some b) then some b else none⟩⟩) :
    (guarded (callMachine F) (callGuard F)).Sat t (perform (S := sig F)
      (.i2cTransfer addr n m)) Q v := by
  refine guarded_own rfl fun s hs hsv => ⟨trivial, fun r s' _ he => ?_⟩
  have hview : callView t s = ⟨c, some b⟩ := (congrArg Guard.View.priv hsv).trans hv
  obtain ⟨howns, rfl⟩ := txbuf_of_view hview
  obtain rfl : calls (s.log t) = c := congrArg CallView.calls hview
  have hcalls := calls_log_transfer (s := s) (t := t) n m
  have hscale : scale (s.transfer t n m) = scale s := by
    have hranged : Obs.ranged ((s.transfer t n m).log .main) = Obs.ranged (s.log .main) := by
      by_cases hmain : Tid.main = t
      · subst hmain
        refine (congrArg Calls.ranged hcalls).trans ?_
        show (Obs.filling (s.log .main) || Obs.ranged (s.log .main)) = _
        rw [show Obs.filling (s.log .main) = false from hc, Bool.false_or]
      · rw [log_transfer_of_ne n m hmain]
    have hconfig : (s.transfer t n m).regs ACCEL_CONFIG = s.regs ACCEL_CONFIG := by
      simp only [Sys.transfer, hs.glob.results t 0, if_true, hreg]
    simp only [scale, hranged, hconfig]
    rfl
  have hself := callView_transfer (s := s) (t := t) n m howns
  rw [Sys.exec_i2cTransfer he]
  refine ⟨hscale, fun h => ?_, fun u hu => callView_transfer_of_ne n m hu, ?_, ?_⟩
  · show (scale (s.transfer t n m)).InStep
    rw [hscale]
    exact h
  · exact hs.glob.transfer hnext fun hin => hscale ▸ (hs.glob.update hin).2
  · have hpriv : (callGuard F).priv t (s.transfer t n m) = _ := hself
    rw [hpriv]
    exact hQ

/-- The transfer of `mpu_acc_range`, with the mutex held. -/
theorem call_transferRange {addr : UInt8} {n m : Nat} {b : Buf 5} {range : AccelRange}
    {Q : Unit → (callGuard F).View t → Prop} (ht : t ≠ .mpu) (hp : v.phase = .holds p)
    (hv : v.priv = ⟨c, some b⟩)
    (hreg : ∀ regs, sensorWrite ((List.ofFn b).take n) regs ACCEL_CONFIG = range.code)
    (hnext : c.Next ((List.ofFn b).take n)) (hfactor : p.factor = accScale range)
    (hQ : ∀ p' : Scale F, p'.InStep → Q () ⟨.holds p', ⟨c.sent ((List.ofFn b).take n),
      if CallView.owns t (c.sent ((List.ofFn b).take n)) (some b) then some b else none⟩⟩) :
    (guarded (callMachine F) (callGuard F)).Sat t (perform (S := sig F)
      (.i2cTransfer addr n m)) Q v := by
  refine guarded_held rfl hp fun s hglob hprot hpriv => ⟨trivial, fun r s' _ he => ?_⟩
  have hview : callView t s = ⟨c, some b⟩ := hpriv.trans hv
  obtain ⟨howns, rfl⟩ := txbuf_of_view hview
  obtain rfl : calls (s.log t) = c := congrArg CallView.calls hview
  have hcalls := calls_log_transfer (s := s) (t := t) n m
  have hconfig : (s.transfer t n m).regs ACCEL_CONFIG = range.code := by
    simp only [Sys.transfer, hglob.results t 0, if_true, hreg]
  have hidle : Obs.inside .mpuAccUpdate (s.log .mpu) = false := by
    rw [← Bool.not_eq_true]
    exact fun hin => ht (Option.some.inj (hglob.update hin).1)
  have hself := callView_transfer (s := s) (t := t) n m howns
  rw [Sys.exec_i2cTransfer he]
  refine ⟨fun u hu => callView_transfer_of_ne n m hu, ?_, ?_⟩
  · exact hglob.transfer hnext fun hin => absurd (hidle.symm.trans hin) Bool.false_ne_true
  · have hpriv' : (callGuard F).priv t (s.transfer t n m) = _ := hself
    rw [hpriv']
    refine hQ _ fun _ => ⟨range, hconfig, ?_⟩
    exact (congrArg Scale.factor hprot).trans hfactor

/-! ### Transfers, and code without a part in the calls -/

/-- Code without the buffer, the scale and the calls touches none of the data. -/
theorem call_untouched {A : Footprint} (hA : (A.txbuf || A.scale || A.ranges || A.updates) = false)
    (hi : .i2c ∉ A.locks) (R : (callGuard F).View t → Prop) : Untouched (callGuard F) t A R where
  safe _ _ _ _ _ := trivial
  same _ _ h _ _ _ := by
    simp only [Bool.or_eq_false_iff] at hA
    obtain ⟨⟨⟨htx, hs⟩, hr⟩, hu⟩ := hA
    exact call_same htx hs hr hu hi h

/-- Code without a part in the calls, of another thread than the MPU thread. -/
theorem call_within {A : Footprint} {p : Prog F α} {Q : α → (callGuard F).View t → Prop}
    (hA : (A.txbuf || A.scale || A.ranges || A.updates) = false) (hi : .i2c ∉ A.locks)
    (ht : t ≠ .mpu) (hp : p.All (Within A)) (hv : v.phase.Kept Scale.InStep)
    (hQ : ∀ x φ, φ.Kept Scale.InStep → Q x ⟨φ, v.priv⟩) :
    (guarded (callMachine F) (callGuard F)).Sat t p Q v :=
  guarded_within_mpu (R := fun _ => True)
    ⟨fun _ => Iff.rfl, fun _ _ h => h.owner fun h => (by cases h),
      fun _ _ _ _ h => h.owner fun h => absurd (Option.some.inj h) ht⟩
    hp hv (call_untouched hA hi _) (fun _ => trivial) hQ

/-- Code without a part in the calls that does not lock `mpu.c`'s mutex. -/
theorem call_quiet {A : Footprint} {p : Prog F α} {Q : α → (callGuard F).View t → Prop}
    (hA : (A.txbuf || A.scale || A.ranges || A.updates) = false) (hlocks : A.locks = [])
    (hp : p.All (Within A)) (hv : v.phase ≠ .waits) (hQ : ∀ x, Q x v) :
    (guarded (callMachine F) (callGuard F)).Sat t p Q v :=
  guarded_within hp (by simp [hlocks]) hv (call_untouched hA (by simp [hlocks]) _) hQ

/-- A transfer on the bus, from the rule for the transfer itself. -/
theorem call_i2c1Transmit {addr : UInt8} {n m timeout : Nat} {Q : Msg → (callGuard F).View t → Prop}
    (h : (guarded (callMachine F) (callGuard F)).Sat t
      (perform (S := sig F) (.i2cTransfer addr n m))
      (fun _ w => Q .MSG_OK w) v) :
    (guarded (callMachine F) (callGuard F)).Sat t (i2c1Transmit addr n m timeout) Q v := by
  refine guarded_bind (guarded_chMtxLock (by decide) fun _ => ?_)
  refine guarded_bind (guarded_bind ?_)
  refine guarded_same rfl (fun _ _ _ => trivial) fun s r s' _ _ he => ⟨?_, ?_⟩
  · rw [Sys.exec_i2cBegin he]
    exact callData_same rfl rfl rfl rfl rfl rfl (fun _ => rfl) fun _ => id
  refine guarded_bind (h.mono fun _ w hw => ?_)
  refine guarded_same rfl (fun _ _ _ => trivial) fun s r s' hs _ he => ?_
  obtain ⟨rfl, rfl⟩ := Sys.exec_i2cEnd he
  rw [hs.glob.msg]
  refine ⟨callData_same rfl rfl rfl rfl rfl rfl (fun _ => rfl) fun _ => id, ?_⟩
  exact guarded_bind (guarded_mtxUnlock (by decide) hw)

/-- A read of registers. -/
theorem call_read {addr : UInt8} {m timeout : Nat} {b : Buf 5}
    {Q : Msg → (callGuard F).View t → Prop} (hv : v.priv = ⟨c, some b⟩) (hc : c.filling = false)
    (hnext : c.Next [b 0]) (hQ : Q .MSG_OK ⟨v.phase, ⟨c.sent [b 0],
      if CallView.owns t (c.sent [b 0]) (some b) then some b else none⟩⟩) :
    (guarded (callMachine F) (callGuard F)).Sat t (i2c1Transmit addr 1 m timeout) Q v :=
  call_i2c1Transmit (call_transfer hv hc (fun _ => rfl) hnext hQ)

/-- A write to another register than `ACCEL_CONFIG`. -/
theorem call_write {addr : UInt8} {m timeout : Nat} {b : Buf 5}
    {Q : Msg → (callGuard F).View t → Prop} (hv : v.priv = ⟨c, some b⟩) (hc : c.filling = false)
    (hb : b 0 ≠ ACCEL_CONFIG) (hnext : c.Next [b 0, b 1])
    (hQ : Q .MSG_OK ⟨v.phase, ⟨c.sent [b 0, b 1],
      if CallView.owns t (c.sent [b 0, b 1]) (some b) then some b else none⟩⟩) :
    (guarded (callMachine F) (callGuard F)).Sat t (i2c1Transmit addr 2 m timeout) Q v :=
  call_i2c1Transmit (call_transfer hv hc (fun regs => Function.update_of_ne hb.symm _ regs)
    hnext hQ)

end

end MotionTracking
