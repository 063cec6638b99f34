import MotionTracking.Proofs.Guarded

/-!
# `MotionTracking.Proofs.Stopped`: what `cmdstp` stops

`cmdstp` clears two flags under two mutexes. The MPU thread reads one of them
under `mpu.c`'s mutex and keeps the mutex for the whole update, so when the
serial thread has cleared it no update is under way. `stopGuard` is the guard for
this: the flag is protected data, and while `stopped` holds of the serial
thread's log both flags are off (`glob`).

`stop_stops` follows for every run: from the return of `commad_check` from
`cmdstp` until the serial thread begins to handle `cmdstr`, the MPU thread makes
no transfer, the five values stay, and no line of a report is printed.
-/

set_option autoImplicit false

namespace MotionTracking

open Threads (Machine Outline Reaches Config Move)
open Threads.Outline (Sat Triple)
open Threads.Prog (perform ret_bind)
open Footprint (Within Effect)

variable {F α : Type}

namespace Obs

/-- `cmdstp` has been handled, and `cmdstr` not begun since. -/
def stopped : List (Obs F) → Bool
  | [] => false
  | .returned (.commadCheck str) :: l => commandOf str = some .stop || stopped l
  | .began (.commadCheck str) :: l => commandOf str ≠ some .start && stopped l
  | _ :: l => stopped l

/-- How often the thread has begun to handle `cmdstr`. -/
def starts : List (Obs F) → Nat
  | [] => 0
  | .began (.commadCheck str) :: l => (if commandOf str = some .start then 1 else 0) + starts l
  | _ :: l => starts l

/-- The byte strings of all transfers, newest first. -/
def transfers : List (Obs F) → List (List UInt8)
  | [] => []
  | .transfer bytes _ :: l => bytes :: transfers l
  | _ :: l => transfers l

/-- The entry is neither a transfer nor a line of a report. -/
def Silent (ev : Obs F) : Prop :=
  ∀ l, transfers (ev :: l) = transfers l ∧ lines (ev :: l) = lines l

end Obs

/-- The values in g's and the angles. -/
def MpuC.values (c : MpuC F) : Published F := ⟨c.axisX, c.axisY, c.axisZ, c.axisAngX, c.axisAngY⟩

/-! ### The guard -/

/-- What only the serial thread changes. -/
structure Flags where
  enable : Bool
  serEnable : Bool
  stopped : Bool

/-- The flags in a state. -/
def flags (s : Sys F) : Flags where
  enable := s.mpu.readEnable
  serEnable := s.ser.readEnable
  stopped := Obs.stopped (s.log .serial)

/-- The enable variable of `mpu.c` is protected. Once a stop is through both variables are
off, and transfers of the MPU thread and lines need theirs on. -/
def stopData (F : Type) : GuardData F where
  Priv _ := Option Flags
  Prot := Bool
  priv t s := if t = .serial then some (flags s) else none
  prot s := s.mpu.readEnable
  free _ := True
  glob _ s := Obs.stopped (s.log .serial) = true →
    s.mpu.readEnable = false ∧ s.ser.readEnable = false
  safe t a s := match a with
    | .i2cTransfer _ _ _ => t = .mpu → s.mpu.readEnable = true
    | .setMpu f => (f s.mpu).values = s.mpu.values ∨ s.mpu.readEnable = true
    | .sdOut (.axis _ _) => t = .serial → s.ser.readEnable = true
    | .note ev => (ev s.mpu).Silent
    | _ => True

/-- The data are read from the two variables and one log. -/
theorem stopData_same {s s' : Sys F} (he : s'.mpu.readEnable = s.mpu.readEnable)
    (hs : s'.ser.readEnable = s.ser.readEnable)
    (hl : Obs.stopped (s'.log .serial) = Obs.stopped (s.log .serial)) :
    (stopData F).Same s s' := by
  refine ⟨fun t => ?_, he, fun _ => trivial, fun _ h => ?_⟩
  · simp only [stopData, flags, he, hs, hl]
  · simpa only [stopData, he, hs, hl] using h

/-- A step of the kernel logs no command. -/
theorem stopped_kern {t : Tid} {s s' : Sys F} (h : KernStep t s s') :
    Obs.stopped (s'.log .serial) = Obs.stopped (s.log .serial) := by
  rcases h.log with hl | ⟨m, top, hl⟩
  · rw [hl]
  · rw [hl]
    by_cases ht : Tid.serial = t
    · subst ht
      simp [Obs.stopped]
    · simp [ht]

/-- The guard: a step of the kernel changes none of the data. -/
def stopGuard (F : Type) : Guard F where
  toGuardData := stopData F
  same_of_kern h := stopData_same (by rw [h.mpu]) (by rw [h.ser]) (stopped_kern h)

/-- Code that leaves both flags and the commands alone. -/
theorem stopped_same {A : Footprint} {t : Tid} {s s' : Sys F} (he : A.enable = false)
    (hs : A.serEnable = false) (hc : A.commands = false) (h : A.Effect t s s') :
    (stopData F).Same s s' := by
  refine stopData_same (h.mpu.enable he) (h.ser.serEnable hs) ?_
  rcases h.log with hl | ⟨ev, hev, hl⟩
  · rw [hl]
  · rw [hl]
    by_cases ht : Tid.serial = t
    · subst ht
      rw [Function.update_self]
      cases ev with
      | began f => cases f <;> simp_all [Obs.stopped, Footprint.logs, Footprint.calls]
      | returned f => cases f <;> simp_all [Obs.stopped, Footprint.logs, Footprint.calls]
      | _ => rfl
    · rw [Function.update_of_ne ht]

/-- Notes are neither transfers nor lines. -/
theorem note_silent {A : Footprint} {ev : Obs F} (h : A.notes ev = true) : ev.Silent := by
  cases ev with
  | began f => exact fun _ => ⟨rfl, rfl⟩
  | returned f => exact fun _ => ⟨rfl, rfl⟩
  | published p => exact fun _ => ⟨rfl, rfl⟩
  | _ => cases h

/-- Code without updates and reports is safe where it makes no transfer of the
MPU thread. -/
theorem stop_safe {A : Footprint} {t : Tid} {a : Act F} {s : Sys F} (hx : A.axes = false)
    (hang : A.angles = false) (hrep : A.reports = false) (ht : t ≠ .mpu) (ha : A.Within a) :
    (stopData F).safe t a s := by
  cases a with
  | i2cTransfer addr txbytes rxbytes => exact fun h => absurd h ht
  | setMpu f =>
      have hf := ha s.mpu
      obtain ⟨hX, hY, hZ⟩ := hf.axes hx
      obtain ⟨hAX, hAY⟩ := hf.angles hang
      exact .inl (by simp only [MpuC.values, hX, hY, hZ, hAX, hAY])
  | sdOut o =>
      cases o with
      | axis a v =>
          have : A.reports = true := ha
          simp [hrep] at this
      | _ => trivial
  | note ev => exact note_silent (ha s.mpu)
  | _ => trivial

/-- Code without the variables, the commands, the values and the reports touches none of
the data. -/
theorem stop_untouched {A : Footprint} {t : Tid} {R : (stopGuard F).View t → Prop}
    (he : A.enable = false) (hs : A.serEnable = false) (hc : A.commands = false)
    (hx : A.axes = false) (hang : A.angles = false) (hrep : A.reports = false) (ht : t ≠ .mpu) :
    Untouched (stopGuard F) t A R where
  safe _ _ ha _ _ := stop_safe hx hang hrep ht ha
  same _ _ h _ _ _ := stopped_same he hs hc h

/-! ### The threads -/

section
variable {M : Machine (sig F) Tid (Sys F) EnvMove} [Polite M]

/-- The mutex may be taken and given back at any time. -/
theorem stop_passes (t : Tid) (R : (stopGuard F).View t → Prop) :
    Passes (stopGuard F) t (fun _ => True) R where
  free _ := Iff.rfl
  lock _ _ h := h
  unlock _ _ _ _ h := h

/-- `main` has no part in the commands. -/
theorem stop_apart : Apart (stopGuard F) fun _ => True where
  passes := stop_passes .main _
  main := stop_untouched rfl rfl rfl rfl rfl rfl (by decide)
  drv _ _ := ⟨trivial, stopData_same rfl rfl rfl⟩
  thd _ _ _ := ⟨trivial, stopData_same rfl rfl rfl⟩

/-- The MPU thread updates only with the flag set, and keeps the mutex while it
does. -/
theorem stop_mpumThread [CFloat F] :
    (guarded M (stopGuard F)).Triple .mpu (fun _ => True) mpumThread fun _ _ => True := by
  intro v _
  have hend : ∀ w, (guarded M (stopGuard F)).Sat .mpu (do
      chMtxUnlock .mpu
      chThdSleepMilliseconds 500) (fun _ _ => True) w := fun w =>
    guarded_mtxUnlock_mpu (fun _ _ _ hg _ => ⟨trivial, fun _ _ => hg⟩) fun p _ =>
      guarded_same rfl (fun _ _ _ => trivial) fun s r s' _ _ hrs =>
        ⟨Sys.exec_sleep hrs ▸ stopData_same rfl rfl rfl, trivial⟩
  refine guarded_bind (guarded_chMtxLock_mpu (fun _ _ _ _ _ _ h => h) fun s _ _ _ _ => ?_)
  refine guarded_bind (guarded_getMpu (fun _ => trivial) fun s₁ _ hv₁ => ?_)
  obtain ⟨-, hflag⟩ := holds_of_phase (congrArg Guard.View.phase hv₁)
  by_cases hen : s₁.mpu.readEnable = true
  · rw [if_pos hen]
    refine guarded_bind (guarded_within within_mpuAccUpdate (by decide) (by simp) ?_ fun _ =>
      hend _)
    refine ⟨fun a s₃ ha _ hv₃ => ?_, fun s₃ s' h _ _ _ => stopped_same rfl rfl rfl h⟩
    obtain ⟨-, hflag₃⟩ := holds_of_phase (congrArg Guard.View.phase hv₃)
    have hen₃ : s₃.mpu.readEnable = true := hflag₃.trans (hflag.symm.trans hen)
    cases a with
    | i2cTransfer addr txbytes rxbytes => exact fun _ => hen₃
    | setMpu f => exact .inr hen₃
    | sdOut o =>
        cases o with
        | axis a v => exact fun h => by cases h
        | _ => trivial
    | note ev => exact note_silent (ha s₃.mpu)
    | _ => trivial
  · rw [if_neg hen]
    exact hend _

/-! The serial thread: where it sets a flag, and where it begins and ends a
command. -/

variable {v : (stopGuard F).View .serial} {fl : Flags}

/-- What the serial thread knows is so. -/
theorem flags_of_view {s : Sys F} (hs : (stopGuard F).view .serial s = v) (hv : v.priv = some fl) :
    flags s = fl :=
  Option.some.inj ((congrArg Guard.View.priv hs).trans hv)

/-- The rule for the assignment of the serial thread in `mpu.c`, which holds the mutex. -/
theorem stop_setMpu {b : Bool} {p : Bool} {Q : Unit → (stopGuard F).View .serial → Prop}
    (hp : v.phase = .holds p) (hv : v.priv = some fl) (hb : b = true → fl.stopped = false)
    (hQ : Q () ⟨.holds b, some { fl with enable := b }⟩) :
    (guarded M (stopGuard F)).Sat .serial (setMpu fun c => { c with readEnable := b }) Q v := by
  refine guarded_held rfl hp fun s hglob _ hpriv => ⟨.inl rfl, fun r s' _ hrs => ?_⟩
  obtain rfl : flags s = fl := Option.some.inj (hpriv.trans hv)
  rw [Sys.exec_setMpu hrs]
  refine ⟨fun u hu => ?_, fun hstop => ⟨?_, (hglob hstop).2⟩, hQ⟩
  · simp [stopGuard, stopData, hu]
  · cases b with
    | false => rfl
    | true => exact absurd hstop (by simp [show Obs.stopped (s.log .serial) = false from hb rfl])

/-- The rule for its assignment in `serialcomm.c`. -/
theorem stop_setSer {b : Bool} {Q : Unit → (stopGuard F).View .serial → Prop}
    (hv : v.priv = some fl) (hb : b = true → fl.stopped = false)
    (hQ : Q () ⟨v.phase, some { fl with serEnable := b }⟩) :
    (guarded M (stopGuard F)).Sat .serial (setSer fun _ c => { c with readEnable := b }) Q v := by
  refine guarded_own rfl fun s hs hsv => ⟨trivial, fun r s' _ hrs => ?_⟩
  obtain rfl := flags_of_view hsv hv
  rw [Sys.exec_setSer hrs]
  refine ⟨rfl, id, fun u hu => ?_, fun hstop => ⟨(hs.glob hstop).1, ?_⟩, hQ⟩
  · simp [stopGuard, stopData, hu]
  · cases b with
    | false => rfl
    | true => exact absurd hstop (by simp [show Obs.stopped (s.log .serial) = false from hb rfl])

/-- Code of the serial thread that leaves the flags alone. -/
theorem stop_within {A : Footprint} {p : Prog F α} {Q : α → (stopGuard F).View .serial → Prop}
    (hA : (A.enable || A.serEnable || A.commands || A.axes || A.angles || A.reports) = false)
    (hp : p.All (Within A)) (hQ : ∀ x φ, Q x ⟨φ, v.priv⟩) :
    (guarded M (stopGuard F)).Sat .serial p Q v := by
  simp only [Bool.or_eq_false_iff] at hA
  obtain ⟨⟨⟨⟨⟨he, hs⟩, hc⟩, hx⟩, hang⟩, hrep⟩ := hA
  exact guarded_within_mpu (R := fun _ => True) (stop_passes _ _) hp (fun _ _ => trivial)
    (stop_untouched he hs hc hx hang hrep (by decide)) (fun _ => trivial) fun x φ _ => hQ x φ

/-- `serial_set_control` assigns under the mutex. -/
theorem stop_serialSetControl {b : Bool} {Q : Unit → (stopGuard F).View .serial → Prop}
    (hv : v.priv = some fl) (hb : b = true → fl.stopped = false)
    (hQ : ∀ φ, Q () ⟨φ, some { fl with enable := b }⟩) :
    (guarded M (stopGuard F)).Sat .serial (serialSetControl b) Q v := by
  have hunlock : ∀ w : (stopGuard F).View .serial, w.priv = some { fl with enable := b } →
      (guarded M (stopGuard F)).Sat .serial (chMtxUnlock .mpu) Q w := fun w hw =>
    guarded_mtxUnlock_mpu (fun _ _ _ hg _ => ⟨trivial, fun _ _ => hg⟩) fun _ _ => hw ▸ hQ _
  refine guarded_bind (guarded_chMtxLock_mpu (fun _ _ _ _ _ _ h => h) fun s _ _ _ _ => ?_)
  cases b with
  | true => exact guarded_bind (stop_setMpu rfl hv hb (hunlock _ rfl))
  | false => exact guarded_bind (stop_setMpu rfl hv hb (hunlock _ rfl))

/-- `cmdstr` and `cmdstp`. -/
theorem stop_control {b : Bool} {msg : String} {Q : Unit → (stopGuard F).View .serial → Prop}
    (hv : v.priv = some fl) (hb : b = true → fl.stopped = false)
    (hQ : ∀ φ, Q () ⟨φ, some { fl with enable := b, serEnable := b }⟩) :
    (guarded M (stopGuard F)).Sat .serial (do
      serialPrint (.text msg)
      serialSetControl b
      chMtxLock .serialcomm
      setSer fun _ c => { c with readEnable := b }
      chMtxUnlock .serialcomm) Q v := by
  refine guarded_bind (stop_within rfl (within_serialPrint_text msg) fun _ φ => ?_)
  refine guarded_bind (stop_serialSetControl hv hb fun φ => ?_)
  refine guarded_bind (guarded_chMtxLock (by decide) fun _ => ?_)
  refine guarded_bind (stop_setSer rfl hb ?_)
  exact guarded_mtxUnlock (by decide) (hQ _)

/-- The rule for a note: where it completes a stop both variables must be off. -/
theorem stop_note {ev : Obs F} {b : Bool} {Q : Unit → (stopGuard F).View .serial → Prop}
    (hev : ev.Silent) (hv : v.priv = some fl)
    (hb : ∀ l, Obs.stopped l = fl.stopped → Obs.stopped (ev :: l) = b)
    (hglob : b = true → fl.stopped = true ∨ (fl.enable = false ∧ fl.serEnable = false))
    (hQ : Q () ⟨v.phase, some { fl with stopped := b }⟩) :
    (guarded M (stopGuard F)).Sat .serial (note fun _ => ev) Q v := by
  refine guarded_own rfl fun s hs hsv => ⟨hev, fun r s' _ hrs => ?_⟩
  obtain rfl := flags_of_view hsv hv
  have hlog : Obs.stopped ((s.observe .serial ev).log .serial) = b := by
    simpa [Sys.observe] using hb _ rfl
  rw [Sys.exec_note hrs]
  refine ⟨rfl, id, fun u hu => ?_, fun hstop => ?_, ?_⟩
  · simp [stopGuard, stopData, hu]
  · exact (hglob (hlog.symm.trans hstop)).elim hs.glob id
  · rw [← hlog] at hQ
    exact hQ

/-- `commad_check` of any string keeps the invariant, by cases on the command. -/
theorem stop_commadCheck [CFloat F] (mem : List UInt8)
    {Q : Unit → (stopGuard F).View .serial → Prop} (hv : v.priv = some fl)
    (hQ : ∀ φ fl', Q () ⟨φ, some fl'⟩) :
    (guarded M (stopGuard F)).Sat .serial (commadCheck mem) Q v := by
  -- A command that is neither `cmdstr` nor `cmdstp` leaves the flags alone.
  have hother : ∀ {A : Footprint} {p : Prog F Unit}, commandOf mem ≠ some .start →
      commandOf mem ≠ some .stop →
      (A.enable || A.serEnable || A.commands || A.axes || A.angles || A.reports) = false →
      p.All (Within A) →
      (guarded M (stopGuard F)).Sat .serial (call (.commadCheck mem) p) Q v := by
    intro A p hstart hstop hA hp
    refine guarded_bind (stop_note (b := fl.stopped) (fun _ => ⟨rfl, rfl⟩) hv
      (fun l hl => by simp [Obs.stopped, hstart, hl])
      .inl ?_)
    refine guarded_bind (stop_within hA hp fun _ φ => ?_)
    refine guarded_bind (stop_note (b := fl.stopped) (fun _ => ⟨rfl, rfl⟩) rfl (fun l hl => by
      simpa [Obs.stopped, hstop] using hl) .inl ?_)
    exact hQ _ _
  rw [commadCheck_eq]
  cases hc : commandOf mem with
  | none => exact hother (by simp [hc]) (by simp [hc]) rfl (within_unknownCommand mem)
  | some c =>
      cases c with
      | start =>
          refine guarded_bind (stop_note (b := false) (fun _ => ⟨rfl, rfl⟩) hv
            (fun l _ => by simp [Obs.stopped, hc])
            (fun h => by cases h) ?_)
          refine guarded_bind (stop_control rfl (fun _ => rfl) fun φ => ?_)
          refine guarded_bind (stop_note (b := false) (fun _ => ⟨rfl, rfl⟩) rfl (fun l hl => by
            simpa [Obs.stopped, hc] using hl) (fun h => by cases h) ?_)
          exact hQ _ _
      | stop =>
          refine guarded_bind (stop_note (b := fl.stopped) (fun _ => ⟨rfl, rfl⟩) hv (fun l hl => by
            simp [Obs.stopped, hc, hl]) .inl ?_)
          refine guarded_bind (stop_control rfl (fun h => by cases h) fun φ => ?_)
          refine guarded_bind (stop_note (b := true) (fun _ => ⟨rfl, rfl⟩) rfl
            (fun l _ => by simp [Obs.stopped, hc])
            (fun _ => .inr ⟨rfl, rfl⟩) ?_)
          exact hQ _ _
      | redg => exact hother (by simp [hc]) (by simp [hc]) rfl within_redg
      | regs => exact hother (by simp [hc]) (by simp [hc]) rfl within_regs
      | range r => exact hother (by simp [hc]) (by simp [hc]) rfl (within_range r)

/-- A report is printed only with the flag of `serialcomm.c` set. -/
theorem stop_outputSection {Q : Unit → (stopGuard F).View .serial → Prop}
    (hv : v.priv = some fl) (hQ : ∀ φ, Q () ⟨φ, some fl⟩) :
    (guarded M (stopGuard F)).Sat .serial outputSection Q v := by
  have hleave : ∀ φ, (guarded M (stopGuard F)).Sat .serial (chMtxUnlock .serialcomm) Q
      ⟨φ, v.priv⟩ := fun φ => guarded_mtxUnlock (by decide) (hv ▸ hQ φ)
  refine guarded_bind (guarded_chMtxLock (by decide) fun _ => ?_)
  refine guarded_bind (guarded_getSer (fun _ => trivial) fun s _ hsv => ?_)
  obtain rfl := flags_of_view hsv hv
  by_cases hen : (s.ser.readEnable && decide (s.ser.rdCount > SERIAL_COUNTER_LIMIT)) = true
  · rw [if_pos hen]
    refine guarded_bind (guarded_within_mpu (R := fun w => w.priv = v.priv) (stop_passes _ _)
      within_report (fun _ _ => trivial) ⟨fun a s₁ ha _ hv₁ => ?_, fun s₁ s' h _ _ _ => ?_⟩
      (fun _ => rfl) fun _ φ _ => hleave φ)
    · have hser : s₁.ser.readEnable = true :=
        (congrArg Flags.serEnable (flags_of_view rfl (hv₁.trans hv))).trans
          (Bool.and_eq_true_iff.mp hen).1
      cases a with
      | sdOut o =>
          cases o with
          | axis a v => exact fun _ => hser
          | _ => trivial
      | i2cTransfer addr txbytes rxbytes => exact fun h => by cases h
      | setMpu f =>
          have hf := ha s₁.mpu
          obtain ⟨hX, hY, hZ⟩ := hf.axes rfl
          obtain ⟨hAX, hAY⟩ := hf.angles rfl
          exact .inl (by simp only [MpuC.values, hX, hY, hZ, hAX, hAY])
      | note ev => exact note_silent (ha s₁.mpu)
      | _ => trivial
    · exact stopped_same rfl rfl rfl h
  · rw [if_neg hen]
    exact hleave _

/-- And so does an iteration of the serial thread. -/
theorem stop_serialcommThread [CFloat F] :
    (guarded M (stopGuard F)).Triple .serial (fun v => v.priv ≠ none) serialcommThread
      fun _ v => v.priv ≠ none := by
  intro v hv
  obtain ⟨fl, hv⟩ := Option.ne_none_iff_exists'.mp hv
  have hend : ∀ φ fl, (guarded M (stopGuard F)).Sat .serial (do
      iqResetI
      outputSection
      setSer fun _ c => { c with rdCount := wrap32 (c.rdCount + 1) }
      chThdSleepMilliseconds 100) (fun _ w => w.priv ≠ none) ⟨φ, some fl⟩ := by
    intro φ fl
    have hreset : (iqResetI (F := F)).All (Within { reads := true }) := by
      simp [iqResetI, perform, Within]
    have hcount : (do
        setSer (F := F) fun _ c => { c with rdCount := wrap32 (c.rdCount + 1) }
        chThdSleepMilliseconds 100).All (Within { rdCount := true }) := by
      simp [setSer, chThdSleepMilliseconds, perform, Within, Footprint.ser_iff]
    refine guarded_bind (stop_within rfl hreset fun _ φ => ?_)
    refine guarded_bind (stop_outputSection rfl fun φ => ?_)
    exact stop_within rfl hcount fun _ φ => Option.some_ne_none fl
  refine guarded_bind (stop_within rfl within_serialRead fun sdt φ => ?_)
  by_cases hsdt : sdt ≠ 0
  · rw [if_pos hsdt]
    refine guarded_bind (guarded_getSer (fun _ => trivial) fun s _ _ => ?_)
    exact guarded_bind (stop_commadCheck _ hv fun φ fl' => hend φ fl')
  · rw [if_neg hsdt, hv]
    exact hend _ _

end

/-! ### Runs -/

/-- What stays while motion tracking is stopped. -/
structure Still (s s' : Sys F) : Prop where
  transfers : Obs.transfers (s'.log .mpu) = Obs.transfers (s.log .mpu)
  values : s'.mpu.values = s.mpu.values
  lines : Obs.lines (s'.log .serial) = Obs.lines (s.log .serial)

/-- Nothing changes in no step. -/
theorem Still.refl (s : Sys F) : Still s s := ⟨rfl, rfl, rfl⟩

/-- What stays in two stretches stays in both together. -/
theorem Still.trans {s s' s'' : Sys F} (h : Still s s') (h' : Still s' s'') : Still s s'' :=
  ⟨h'.transfers.trans h.transfers, h'.values.trans h.values, h'.lines.trans h.lines⟩

/-- A new entry in the log of `t`. -/
theorem Still.entry {t : Tid} {s s' : Sys F} {ev : Obs F} (hv : s'.mpu.values = s.mpu.values)
    (hl : s'.log = Function.update s.log t (ev :: s.log t))
    (hev : (t = .mpu → Obs.transfers (ev :: s.log t) = Obs.transfers (s.log t)) ∧
      (t = .serial → Obs.lines (ev :: s.log t) = Obs.lines (s.log t))) : Still s s' := by
  refine ⟨?_, hv, ?_⟩
  · by_cases ht : Tid.mpu = t
    · subst ht
      rw [hl, Function.update_self, hev.1 rfl]
    · rw [hl, Function.update_of_ne ht]
  · by_cases ht : Tid.serial = t
    · subst ht
      rw [hl, Function.update_self, hev.2 rfl]
    · rw [hl, Function.update_of_ne ht]

/-- With both flags off, a safe action changes nothing of it. -/
theorem still_exec {t : Tid} {a : Act F} {s s' : Sys F} {r : a.Ans}
    (hsafe : a.isMutex = false → (stopData F).safe t a s) (he : s.mpu.readEnable = false)
    (hs : s.ser.readEnable = false) (h : s.exec t a = some (r, s')) : Still s s' := by
  cases hm : a.isMutex with
  | true =>
      have hk := kernStep_of_isMutex hm h
      have hv : s'.mpu.values = s.mpu.values := by rw [hk.mpu]
      rcases hk.log with hl | ⟨m, top, hl⟩
      · exact ⟨by rw [hl], hv, by rw [hl]⟩
      · exact .entry hv hl ⟨fun _ => rfl, fun _ => rfl⟩
  | false =>
      have hsafe := hsafe hm
      cases a with
      | setMpu f =>
          rw [Sys.exec_setMpu h]
          exact ⟨rfl, hsafe.resolve_right (by simp [he]), rfl⟩
      | note ev =>
          rw [Sys.exec_note h]
          exact .entry rfl rfl ⟨fun _ => (hsafe _).1, fun _ => (hsafe _).2⟩
      | i2cTransfer addr txbytes rxbytes =>
          rw [Sys.exec_i2cTransfer h]
          refine .entry rfl rfl ⟨fun ht => ?_, fun _ => rfl⟩
          exact absurd (hsafe ht) (by simp [he])
      | sdOut o =>
          rw [Sys.exec_sdOut h]
          refine .entry rfl rfl ⟨fun _ => rfl, fun ht => ?_⟩
          cases o with
          | axis a v => exact absurd (hsafe ht) (by simp [hs])
          | _ => rfl
      | iqRead off n timeout =>
          rcases Sys.exec_iqRead h with ⟨-, -, rfl⟩ | ⟨-, hrs⟩
          · exact ⟨rfl, rfl, rfl⟩
          · obtain ⟨-, rfl⟩ := Prod.mk.inj hrs
            exact .entry rfl rfl ⟨fun _ => rfl, fun _ => rfl⟩
      | iqWake off n =>
          rcases Sys.exec_iqWake h with ⟨-, hrs⟩ | ⟨_, -, -, -, rfl⟩
          · obtain ⟨-, rfl⟩ := Prod.mk.inj hrs
            exact .entry rfl rfl ⟨fun _ => rfl, fun _ => rfl⟩
          · exact .entry rfl rfl ⟨fun _ => rfl, fun _ => rfl⟩
      | iqReset =>
          rw [Sys.exec_iqReset h]
          exact .entry rfl rfl ⟨fun _ => rfl, fun _ => rfl⟩
      | getMpu =>
          rw [(Sys.exec_getMpu h).2]
          exact .refl s
      | getSer =>
          rw [(Sys.exec_getSer h).2]
          exact .refl s
      | setSer f =>
          rw [Sys.exec_setSer h]
          exact ⟨rfl, rfl, rfl⟩
      | thdCreate u =>
          rw [Sys.exec_thdCreate h]
          exact ⟨rfl, rfl, rfl⟩
      | sleep =>
          rw [Sys.exec_sleep h]
          exact .refl s
      | i2cStart =>
          rw [Sys.exec_i2cStart h]
          exact ⟨rfl, rfl, rfl⟩
      | i2cBegin =>
          rw [Sys.exec_i2cBegin h]
          exact ⟨rfl, rfl, rfl⟩
      | i2cEnd =>
          rw [(Sys.exec_i2cEnd h).2]
          exact ⟨rfl, rfl, rfl⟩
      | sdStart =>
          rw [Sys.exec_sdStart h]
          exact ⟨rfl, rfl, rfl⟩
      | mtxInit m => cases hm
      | mtxLock m => cases hm
      | mtxResume => cases hm
      | mtxUnlock m => cases hm

/-- The invariant holds in every state of a run. -/
theorem stop_ok [CFloat F] {results : Tid → Nat → I2CResult} {regs : UInt8 → UInt8}
    {pastStrbuf : List UInt8} {c : Config (sig F) Tid (Sys F)}
    (h : Reaches (machine F) loop (bootConfig results regs pastStrbuf) c) :
    (guarded (politely (machine F)) (stopGuard F)).Ok (fun t v => t = .serial → v.priv ≠ none)
      c := by
  have hboot : (guarded (politely (machine F)) (stopGuard F)).Ok
      (fun t v => t = .serial → v.priv ≠ none) (bootConfig results regs pastStrbuf) := by
    refine ⟨⟨boot_wf results regs pastStrbuf, fun _ => trivial, fun h => by cases h⟩, fun t => ?_⟩
    cases t with
    | main => exact stop_apart.setup.post (fun _ _ _ h => by cases h) _ fun _ _ => trivial
    | serial =>
        have hsleep : (chThdSleepMilliseconds (F := F) 100).All (Within {}) := by
          simp [chThdSleepMilliseconds, perform, Within]
        refine guarded_bind (guarded_chMtxObjectInit ?_)
        exact stop_within rfl hsleep fun _ φ _ => Option.some_ne_none _
    | mpu => exact fun h => by cases h
  refine hboot.reaches (fun t => ?_) (guarded_env ?_) (reaches_politely (.refl _) h)
  · cases t with
    | main =>
        exact stop_apart.loop.conseq (fun _ _ _ _ => trivial) fun _ _ _ h => by cases h
    | serial =>
        exact stop_serialcommThread.conseq (fun _ hv => hv rfl) fun _ _ hv _ => hv
    | mpu => exact stop_mpumThread.conseq (fun _ _ => trivial) fun _ _ _ h => by cases h
  · intro e s s' he
    cases e <;> cases he <;> exact stopData_same rfl rfl rfl

/-- An entry that ends a stop is a start. -/
theorem starts_entry (ev : Obs F) (l : List (Obs F)) (h : Obs.stopped l = true) :
    Obs.starts l < Obs.starts (ev :: l) ∨
      (Obs.starts (ev :: l) = Obs.starts l ∧ Obs.stopped (ev :: l) = true) := by
  cases ev with
  | began f =>
      cases f with
      | commadCheck str =>
          by_cases hstr : commandOf str = some .start
          · exact .inl (by simp [Obs.starts, hstr])
          · exact .inr ⟨by simp [Obs.starts, hstr], by simp [Obs.stopped, hstr, h]⟩
      | _ => exact .inr ⟨rfl, h⟩
  | returned f =>
      cases f with
      | commadCheck str => exact .inr ⟨rfl, by simp [Obs.stopped, h]⟩
      | _ => exact .inr ⟨rfl, h⟩
  | _ => exact .inr ⟨rfl, h⟩

/-- The starts are not taken back. -/
theorem starts_le_entry (ev : Obs F) (l : List (Obs F)) : Obs.starts l ≤ Obs.starts (ev :: l) := by
  cases ev with
  | began f => cases f <;> simp [Obs.starts]
  | _ => exact le_rfl

/-- One move, while motion tracking is stopped. -/
theorem stopped_step [CFloat F] {results : Tid → Nat → I2CResult} {regs : UInt8 → UInt8}
    {pastStrbuf : List UInt8} {c c' : Config (sig F) Tid (Sys F)} {m : Move Tid EnvMove}
    (h : Reaches (machine F) loop (bootConfig results regs pastStrbuf) c)
    (hm : Threads.step (machine F) loop m c = some c') :
    Obs.starts (c.st.log .serial) ≤ Obs.starts (c'.st.log .serial) ∧
      (Obs.stopped (c.st.log .serial) = true →
        Obs.starts (c'.st.log .serial) = Obs.starts (c.st.log .serial) →
        Obs.stopped (c'.st.log .serial) = true ∧ Still c.st c'.st) := by
  rcases Threads.step_cases hm with ⟨t, rfl, -, rfl⟩ | ⟨t, a, k, r, s', rfl, hc, he, rfl⟩ |
    ⟨e, s', rfl, he, rfl⟩
  · exact ⟨le_rfl, fun hs _ => ⟨hs, .refl _⟩⟩
  · have hok := stop_ok h
    have hgrow := Sys.exec_log he
    refine ⟨?_, fun hs heq => ?_⟩
    · rcases hgrow with hl | ⟨ev, -, hl⟩
      · rw [hl]
      · rw [hl]
        by_cases ht : Tid.serial = t
        · subst ht
          simpa using starts_le_entry ev _
        · rw [Function.update_of_ne ht]
    · obtain ⟨hen, hser⟩ := hok.inv.glob hs
      refine ⟨?_, still_exec (hok.safe hc) hen hser he⟩
      rcases hgrow with hl | ⟨ev, -, hl⟩
      · rwa [hl]
      · rw [hl] at heq ⊢
        by_cases ht : Tid.serial = t
        · subst ht
          rw [Function.update_self] at heq ⊢
          rcases starts_entry ev _ hs with hlt | ⟨-, hst⟩
          · exact absurd heq (ne_of_gt hlt)
          · exact hst
        · rwa [Function.update_of_ne ht]
  · have hsame : s'.log = c.st.log ∧ s'.mpu = c.st.mpu := by
      cases e <;> cases he <;> exact ⟨rfl, rfl⟩
    obtain ⟨hl, hv⟩ := hsame
    refine ⟨by rw [hl], fun hs _ => ⟨by rwa [hl], ⟨by rw [hl], by rw [hv], by rw [hl]⟩⟩⟩

/-- From the moment `commad_check` has returned from `cmdstp`, in every run in
which the serial thread has not begun to handle `cmdstr` since, the MPU thread
has made no transfer, the five values are what they were, and the serial thread
has printed no line of a report. -/
theorem stop_stops [CFloat F] {results : Tid → Nat → I2CResult} {regs : UInt8 → UInt8}
    {pastStrbuf : List UInt8} {c c' : Config (sig F) Tid (Sys F)}
    (h : Reaches (machine F) loop (bootConfig results regs pastStrbuf) c)
    (hstop : Obs.stopped (c.st.log .serial) = true) (h' : Reaches (machine F) loop c c')
    (hstart : Obs.starts (c'.st.log .serial) = Obs.starts (c.st.log .serial)) :
    Still c.st c'.st := by
  have hrun : Reaches (machine F) loop (bootConfig results regs pastStrbuf) c' ∧
      Obs.starts (c.st.log .serial) ≤ Obs.starts (c'.st.log .serial) ∧
      (Obs.starts (c'.st.log .serial) = Obs.starts (c.st.log .serial) →
        Obs.stopped (c'.st.log .serial) = true ∧ Still c.st c'.st) := by
    refine h'.induct (P := fun c' => Reaches (machine F) loop
      (bootConfig results regs pastStrbuf) c' ∧
      Obs.starts (c.st.log .serial) ≤ Obs.starts (c'.st.log .serial) ∧
      (Obs.starts (c'.st.log .serial) = Obs.starts (c.st.log .serial) →
        Obs.stopped (c'.st.log .serial) = true ∧ Still c.st c'.st))
      ⟨h, le_rfl, fun _ => ⟨hstop, .refl _⟩⟩ ?_
    rintro m c₁ c₂ ⟨hr, hle, hind⟩ hm
    obtain ⟨hle₂, hstep⟩ := stopped_step hr hm
    refine ⟨hr.trans ⟨[m], by simp [Threads.run, hm]⟩, hle.trans hle₂, fun heq => ?_⟩
    -- No start up to here means none up to the configuration before.
    have heq₁ : Obs.starts (c₁.st.log .serial) = Obs.starts (c.st.log .serial) :=
      le_antisymm (hle₂.trans_eq heq) hle
    obtain ⟨hs₁, hstill⟩ := hind heq₁
    obtain ⟨hs₂, hstill₂⟩ := hstep hs₁ (heq.trans heq₁.symm)
    exact ⟨hs₂, hstill.trans hstill₂⟩
  exact (hrun.2.2 hstart).2

/-- `main` sets the board up, `cmdstp` arrives, and the serial thread handles it
in one iteration. -/
def stopSchedule : List (Move Tid EnvMove) :=
  List.replicate 85 (.run .main) ++ SER_STOP.map (fun b => .env (.rx b)) ++
    List.replicate 31 (.run .serial)

set_option maxRecDepth 4000 in
/-- After `stopSchedule`, two iterations of the MPU thread change nothing. -/
theorem stop_stops_mpu :
    ∃ c c' : Config (sig Float32) Tid (Sys Float32),
      Reaches (machine Float32) loop (bootConfig (fun _ _ => ⟨.MSG_OK, []⟩) (fun _ => 0) []) c ∧
      Obs.stopped (c.st.log .serial) = true ∧ Reaches (machine Float32) loop c c' ∧
      Obs.misordered (c'.st.log .mpu) = 0 ∧ (c'.st.log .mpu).length = 2 ∧ Still c.st c'.st := by
  have hrun : (Threads.run (machine Float32) loop stopSchedule
      (bootConfig (fun _ _ => ⟨.MSG_OK, []⟩) (fun _ => 0) [])).any (fun c =>
        Obs.stopped (c.st.log .serial) &&
          (Threads.run (machine Float32) loop (List.replicate 12 (.run .mpu)) c).any fun c' =>
            Obs.starts (c'.st.log .serial) = Obs.starts (c.st.log .serial) &&
              decide (Obs.misordered (c'.st.log .mpu) = 0 ∧ (c'.st.log .mpu).length = 2)) =
      true := by
    decide
  obtain ⟨c, hc, hf⟩ := Reaches.of_run_any hrun
  obtain ⟨hstop, hrun'⟩ := Bool.and_eq_true_iff.mp hf
  obtain ⟨c', hc', hf'⟩ := Reaches.of_run_any hrun'
  obtain ⟨hstart, hlog⟩ := Bool.and_eq_true_iff.mp hf'
  obtain ⟨hmis, hlen⟩ := of_decide_eq_true hlog
  exact ⟨c, c', hc, hstop, hc', hmis, hlen, stop_stops hc hstop hc' (of_decide_eq_true hstart)⟩

end MotionTracking
