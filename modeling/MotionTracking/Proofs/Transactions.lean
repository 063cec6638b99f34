import MotionTracking.Proofs.CallBytes

/-!
# `MotionTracking.Proofs.Transactions`: the bytes of one call

The serial thread can overwrite the bytes of an update that waits in a transfer, and the
update the bytes of a range change that waits for the mutex.

`transactions_own`: in every run in which the serial thread does not begin
`mpu_acc_range` while an update has a transfer to make, and no update begins between a
call of `mpu_acc_range` and its transfer (`Act.tidy`), each call transmits its own bytes,
and `acc_scale_ref` belongs to the range in the sensor. An update begins with the mutex
held, so the second condition is about the time before `mpu_acc_range` has it.
`transactions_ok` is about the runs in which `mpu_acc_range` keeps clear of whole updates
(`Act.orderly`). `transactions_mixed` is a run without the conditions.
-/

set_option autoImplicit false

namespace MotionTracking

open Threads (Machine Outline Reaches Config Move)
open Threads.Outline (Sat Triple)
open Threads.Prog (perform)
open Footprint (Within Effect)

variable {F α : Type}

/-! ### The MPU thread -/

section
variable [CFloat F] {v : (callGuard F).View .mpu} {c d : Calls} {b : Buf 5}

/-- A log entry of the MPU thread within an update. -/
theorem call_updateNote {ev : Obs F} {x : Option (Buf 5)}
    {Q : Unit → (callGuard F).View .mpu → Prop} (hv : v.priv = ⟨c, x⟩) (hc : c.updating = true)
    (hd : d.reading = true → c.reading = true) (hev : ∀ l, calls l = c → calls (ev :: l) = d)
    (hranged : ∀ l : List (Obs F), Obs.ranged (ev :: l) = Obs.ranged l)
    (htr : ∀ l, calls l = c → Obs.Own l → Obs.Own (ev :: l))
    (hQ : ∀ y, (∀ z, x = some z → y = z) →
      Q () ⟨v.phase, ⟨d, if d.reading then some y else none⟩⟩) :
    (guarded (callMachine F) (callGuard F)).Sat .mpu (note fun _ => ev) Q v := by
  have hcalls : ∀ s, (callGuard F).view .mpu s = v → calls (s.log .mpu) = c := fun s hsv =>
    congrArg CallView.calls ((congrArg Guard.View.priv hsv).trans hv)
  refine call_note hv hev hranged htr (fun _ _ _ h => by cases h) (fun s hs hsv _ _ hr => ?_)
    (fun s hs hsv _ _ => ?_) hQ
  · -- While the update reads, the serial thread does not fill the buffer.
    have hreading : Obs.reading (s.log .mpu) = true :=
      (congrArg Calls.reading (hcalls s hsv)).trans (hd hr)
    rw [← Bool.not_eq_true]
    exact fun hf => Bool.false_ne_true ((hs.glob.apart hf).symm.trans hreading)
  · exact hs.glob.update ((congrArg Calls.updating (hcalls s hsv)).trans hc)

/-- The rule for the end of a read, which has sent its two bytes. -/
theorem call_returnedRead {axis : AccAxis} {x : Option (Buf 5)}
    {Q : Unit → (callGuard F).View .mpu → Prop} (hv : v.priv = ⟨c, x⟩) (hc : c.updating = true)
    (hsent : c.read axis = [[axis.code], [axis.code + 1]])
    (hQ : ∀ y, (∀ z, x = some z → y = z) →
      Q () ⟨v.phase, ⟨{ c with sender := none }, if c.reading then some y else none⟩⟩) :
    (guarded (callMachine F) (callGuard F)).Sat .mpu
      (note fun _ => .returned (.mpuReadAccAxis axis)) Q v := by
  refine call_updateNote (d := { c with sender := none }) hv hc id (fun l hl => ?_) (fun _ => rfl)
    (fun l hl htr => ⟨fun own hown => ?_, htr⟩) hQ
  · rw [← hl]
    rfl
  · obtain rfl := Option.mem_some.mp hown
    exact (congrFun (congrArg Calls.read hl) axis).trans hsent

omit [CFloat F] in
/-- The next bytes of a read. -/
theorem Calls.next_read {axis : AccAxis} {bytes : List UInt8} {sent : List (List UInt8)}
    (hsender : c.sender = some (.mpuReadAccAxis axis)) (hread : c.read axis = sent)
    (hnext : sent ++ [bytes] <+: [[axis.code], [axis.code + 1]]) : c.Next bytes := by
  intro f hf own hown
  rw [hsender, Option.mem_some] at hf
  obtain rfl := hf
  obtain rfl := Option.mem_some.mp hown
  show c.read axis ++ [bytes] <+: _
  rw [hread]
  exact hnext

/-- A transfer of a read. The MPU thread keeps the buffer if it is not the last one of the
update. -/
theorem call_readNext {addr : UInt8} {m timeout : Nat} {a : UInt8}
    {Q : Msg → (callGuard F).View .mpu → Prop} (hv : v.priv = ⟨c, some b⟩) (ha : b 0 = a)
    (hc : c.filling = false) (hnext : c.Next [a])
    (hQ : ∀ y, (y = if (c.sent [a]).reading then some b else none) →
      Q .MSG_OK ⟨v.phase, ⟨c.sent [a], y⟩⟩) :
    (guarded (callMachine F) (callGuard F)).Sat .mpu (i2c1Transmit addr 1 m timeout) Q v := by
  subst ha
  exact call_read hv hc hnext (hQ _ rfl)

/-- `mpu_read_acc_axis` transmits the address of the axis and the next one. It leaves
`txbuf` to the MPU thread unless it has read the last axis. -/
theorem call_mpuReadAccAxis {axis : AccAxis} {store : UInt16 → MpuC F → MpuC F}
    (hstore : ∀ v c, Footprint.Mpu { row := true } c (store v c))
    {Q : Msg → (callGuard F).View .mpu → Prop} (hv : v.priv = ⟨c, some b⟩)
    (hphase : v.phase ≠ .waits) (hf : c.filling = false) (hu : c.updating = true)
    (hr : c.reading = true)
    (hQ : ∀ d y, d.filling = false → d.updating = true →
      (axis ≠ .ACC_AXIS_Z → d.reading = true ∧ y.isSome = true) →
      Q .MSG_OK ⟨v.phase, ⟨d, y⟩⟩) :
    (guarded (callMachine F) (callGuard F)).Sat .mpu (mpuReadAccAxis axis store) Q v := by
  have hget : ∀ {Q : MpuC F → (callGuard F).View .mpu → Prop} {w}, (∀ m, Q m w) →
      (guarded (callMachine F) (callGuard F)).Sat .mpu getMpu Q w := fun hQ =>
    guarded_getMpu (fun _ => trivial) fun s _ _ => hQ s.mpu
  -- The call has begun, and nothing is sent for it yet.
  let c₀ : Calls := { c with
    sender := some (.mpuReadAccAxis axis), read := Function.update c.read axis [] }
  have hsent₀ : c₀.read axis = [] := Function.update_self ..
  have hr₁ : (c₀.sent [axis.code]).reading = true := by
    cases axis <;> simp [c₀, Calls.sent, hr]
  have hsent₁ : (c₀.sent [axis.code]).read axis = [[axis.code]] := by simp [c₀, Calls.sent]
  refine guarded_bind (call_updateNote (d := c₀) hv hu (fun _ => hr)
    (fun l hl => (calls_beganRead axis l).trans (by rw [hl])) (fun _ => rfl) (fun _ _ => id)
    fun y _ => ?_)
  rw [if_pos hr]
  -- First the address of the axis.
  refine guarded_bind (guarded_bind (call_setTxbuf rfl ?_))
  refine guarded_bind (call_readNext rfl (Function.update_self ..) hf
    (Calls.next_read rfl hsent₀ (by simp)) fun y₁ hy₁ => ?_)
  obtain rfl := hy₁.trans (if_pos hr₁)
  rw [if_neg (by decide)]
  refine guarded_bind (hget fun m₀ => ?_)
  -- Then the next one.
  refine guarded_bind (call_setMpu (f := fun x => Function.update x 0 (x 0 + 1)) rfl ?_)
  refine guarded_bind (call_readNext (a := axis.code + 1) rfl (by simp) rfl
    (Calls.next_read rfl hsent₁ (by simp)) fun y₂ hy₂ => ?_)
  rw [if_neg (by decide)]
  refine guarded_bind (hget fun m₁ => ?_)
  have hset : (setMpu (store (((m₀.rxbuf 0).toUInt16 <<< 8) ||| (m₁.rxbuf 1).toUInt16))).All
      (Within { row := true }) := ⟨hstore _, fun _ => trivial⟩
  refine guarded_bind (call_quiet rfl rfl hset hphase fun _ => ?_)
  refine guarded_bind (call_returnedRead rfl hu ?_ fun y _ => hQ _ _ rfl hu fun haxis => ?_)
  · simp [c₀, Calls.sent]
  · have hr₂ : ((c₀.sent [axis.code]).sent [axis.code + 1]).reading = true := by
      simp [c₀, Calls.sent, hr, haxis]
    exact ⟨hr₂, by rw [if_pos hr₂]; rfl⟩

/-- The rule for the beginning of an update: the buffer is the MPU thread's now. -/
theorem call_beganUpdate {x : Option (Buf 5)} {p : Scale F}
    {Q : Unit → (callGuard F).View .mpu → Prop} (hv : v.priv = ⟨c, x⟩) (hphase : v.phase = .holds p)
    (hp : p.InStep)
    (hQ : ∀ b, Q () ⟨v.phase, ⟨{ c with updating := true, reading := true }, some b⟩⟩) :
    (guarded (callMachine F) (callGuard F)).Sat .mpu (note fun _ => .began .mpuAccUpdate) Q v := by
  refine call_note (d := { c with updating := true, reading := true }) hv (fun l hl => ?_)
    (fun _ => rfl) (fun _ _ => id) (fun _ _ _ h => by cases h) (fun s _ _ htidy _ _ => ?_)
    (fun s hs hsv _ _ => ?_) fun y _ => hQ y
  · rw [← hl]
    rfl
  · simpa [Act.tidy] using htidy
  · obtain ⟨hh, hprot⟩ := holds_of_phase ((congrArg Guard.View.phase hsv).trans hphase)
    have hscale : scale s = p := hprot
    exact ⟨hh.1, hscale ▸ hp⟩

/-- The rule for the end of an update. -/
theorem call_returnedUpdate {x : Option (Buf 5)} {Q : Unit → (callGuard F).View .mpu → Prop}
    (hv : v.priv = ⟨c, x⟩)
    (hQ : Q () ⟨v.phase, ⟨{ c with updating := false, reading := false }, none⟩⟩) :
    (guarded (callMachine F) (callGuard F)).Sat .mpu (note fun _ =>
      .returned .mpuAccUpdate) Q v := by
  refine call_note (d := { c with updating := false, reading := false }) hv (fun l hl => ?_)
    (fun _ => rfl) (fun l hl htr => ⟨fun own hown => ?_, htr⟩) (fun _ _ _ h => by cases h)
    (fun _ _ _ _ _ h => by cases h) (fun _ _ _ _ h => by cases h) fun y _ => hQ
  · rw [← hl]
    rfl
  · cases hown

/-- An update keeps the scale factor and the range. -/
theorem call_mpuAccUpdate {x : Option (Buf 5)} {p : Scale F}
    {Q : Bool → (callGuard F).View .mpu → Prop} (hv : v.priv = ⟨c, x⟩) (hphase : v.phase = .holds p)
    (hp : p.InStep) (hc : c.filling = false)
    (hQ : ∀ r d y, d.filling = false → d.updating = false → Q r ⟨.holds p, ⟨d, y⟩⟩) :
    (guarded (callMachine F) (callGuard F)).Sat .mpu mpuAccUpdate Q v := by
  have hset : ∀ {f : MpuC F → MpuC F} {w : (callGuard F).View .mpu}
      {Q : Unit → (callGuard F).View .mpu → Prop},
      (∀ c, Footprint.Mpu { axes := true, angles := true } c (f c)) → w.phase = .holds p → Q () w →
      (guarded (callMachine F) (callGuard F)).Sat .mpu (setMpu f) Q w := by
    intro f w Q hf hw hQ
    have hall : (setMpu f).All (Within { axes := true, angles := true }) := ⟨hf, fun _ => trivial⟩
    exact call_quiet rfl rfl hall (by simp [hw]) fun _ => hQ
  -- The buffer stays the thread's own until the third axis has been read.
  refine guarded_bind (call_beganUpdate hv hphase hp fun b₀ => ?_)
  rw [hphase]
  refine guarded_bind ?_
  refine guarded_bind (call_mpuReadAccAxis (by simp [Footprint.mpu_iff]) rfl (by simp) hc rfl rfl
    fun c₁ y₁ hf₁ hu₁ hmore₁ => ?_)
  obtain ⟨hr₁, hy₁⟩ := hmore₁ (by decide)
  obtain ⟨b₁, rfl⟩ := Option.isSome_iff_exists.mp hy₁
  refine guarded_bind (call_mpuReadAccAxis (by simp [Footprint.mpu_iff]) rfl (by simp) hf₁ hu₁ hr₁
    fun c₂ y₂ hf₂ hu₂ hmore₂ => ?_)
  obtain ⟨hr₂, hy₂⟩ := hmore₂ (by decide)
  obtain ⟨b₂, rfl⟩ := Option.isSome_iff_exists.mp hy₂
  refine guarded_bind (call_mpuReadAccAxis (by simp [Footprint.mpu_iff]) rfl (by simp) hf₂ hu₂ hr₂
    fun c₃ y₃ hf₃ hu₃ _ => ?_)
  rw [if_neg (by decide)]
  -- The stores leave `txbuf` and the scale factor alone.
  refine guarded_bind (hset (by simp [Footprint.mpu_iff]) rfl ?_)
  refine guarded_bind (hset (by simp [Footprint.mpu_iff]) rfl ?_)
  refine guarded_bind (hset (by simp [Footprint.mpu_iff]) rfl ?_)
  refine guarded_bind (hset (by simp [Footprint.mpu_iff]) rfl ?_)
  refine guarded_bind (guarded_getMpu (fun _ => trivial) fun _ _ _ => ?_)
  refine guarded_bind (guarded_getMpu (fun _ => trivial) fun _ _ _ => ?_)
  refine guarded_bind (hset (by simp [Footprint.mpu_iff]) rfl ?_)
  refine guarded_bind (guarded_getMpu (fun _ => trivial) fun _ _ _ => ?_)
  refine guarded_bind (hset (by simp [Footprint.mpu_iff]) rfl ?_)
  refine guarded_bind (guarded_same rfl (fun _ _ _ => trivial) fun s r s' _ _ he => ⟨?_, ?_⟩)
  · -- What is published is not among the data.
    rw [Sys.exec_note he]
    refine callData_same rfl rfl rfl rfl rfl rfl (fun u => ?_) fun u => ?_
    · by_cases hu : u = .mpu
      · subst hu
        rfl
      · exact congrArg calls (Function.update_of_ne hu _ _)
    · by_cases hu : u = .mpu
      · subst hu
        exact id
      · exact fun h => (congrArg Obs.Own (Function.update_of_ne hu _ _)).mpr h
  · exact guarded_bind (call_returnedUpdate rfl (hQ true _ _ hf₃ rfl))

/-- The MPU thread goes round outside its calls. -/
theorem call_mpumThread : (guarded (callMachine F) (callGuard F)).Triple .mpu
    (fun v => v.priv.calls.filling = false ∧ v.priv.calls.updating = false) mpumThread
    fun _ v => v.priv.calls.filling = false ∧ v.priv.calls.updating = false := by
  rintro ⟨φ, c, x⟩ ⟨hf, hu⟩
  -- However the iteration went, it gives the mutex back with the scale in step.
  have hend : ∀ (p : Scale F) (c : Calls) (x : Option (Buf 5)), p.InStep → c.filling = false →
      c.updating = false → (guarded (callMachine F) (callGuard F)).Sat .mpu (do
        chMtxUnlock .mpu
        chThdSleepMilliseconds 500)
        (fun _ v => v.priv.calls.filling = false ∧ v.priv.calls.updating = false)
        ⟨.holds p, ⟨c, x⟩⟩ := by
    intro p c x hp hf hu
    refine guarded_mtxUnlock_mpu (fun s hs hpriv hg _ => ⟨?_, fun o _ => hg.owner fun _ => ?_⟩)
      fun _ _ => ?_
    · have hscale : p = scale s := Phase.holds.inj hs
      show (scale s).InStep
      rw [← hscale]
      exact hp
    · exact (congrArg (fun w : CallView => w.calls.updating) hpriv).trans hu
    · exact guarded_same rfl (fun _ _ _ => trivial) fun s r s' _ _ hrs =>
        ⟨Sys.exec_sleep hrs ▸ GuardData.Same.refl _ _, hf, hu⟩
  refine guarded_bind (guarded_chMtxLock_mpu (fun s rs _ _ _ _ h => h.owner fun h => (by cases h))
    fun s hfree _ _ _ => ?_)
  refine guarded_bind (guarded_getMpu (fun _ => trivial) fun _ _ _ => ?_)
  split
  · exact guarded_bind (call_mpuAccUpdate rfl rfl hfree hf fun _ d y hd hu' =>
      hend _ d y hfree hd hu')
  · exact hend _ c x hfree hf hu

end

/-! ### `mpu_acc_range` -/

section
variable [CFloat F] {t : Tid} {v : (callGuard F).View t} {c : Calls} {x : Option (Buf 5)}
  {range : AccelRange}

/-- `mpu_acc_range` begins outside an update, and `txbuf` is its own from here on. -/
theorem call_beganRange {Q : Unit → (callGuard F).View t → Prop} (ht : t ≠ .mpu)
    (hv : v.priv = ⟨c, x⟩) (hx : t = .main → x.isSome = true)
    (hQ : ∀ b, Q () ⟨v.phase, ⟨{ c with
      filling := true
      sender := some (.mpuAccRange range)
      range := Function.update c.range range [] }, some b⟩⟩) :
    (guarded (callMachine F) (callGuard F)).Sat t (note fun _ =>
      .began (.mpuAccRange range)) Q v := by
  let d : Calls := { c with
    filling := true
    sender := some (.mpuAccRange range)
    range := Function.update c.range range [] }
  refine call_note (d := d) hv (fun l hl => (calls_beganRange range l).trans (by rw [hl]))
    (fun _ => rfl) (fun _ _ => id) (fun s _ htidy hser _ => ?_) (fun _ _ _ _ h => absurd h ht)
    (fun _ _ _ h => absurd h ht) fun y _ => ?_
  · simpa [Act.tidy, hser] using htidy
  · have howns : CallView.owns t d x = true := by
      cases t with
      | main => exact hx rfl
      | serial => rfl
      | mpu => exact absurd rfl ht
    rw [howns]
    exact hQ y

/-- The rule for the end of a change of range, which has sent its two bytes. -/
theorem call_returnedRange {Q : Unit → (callGuard F).View t → Prop} (ht : t ≠ .mpu)
    (hv : v.priv = ⟨c, x⟩) (hx : t = .main → x.isSome = true) (hc : c.filling = false)
    (hsent : c.range range = [[ACCEL_CONFIG, range.code]])
    (hQ : ∀ y, (t = .main → y.isSome = true) →
      Q () ⟨v.phase, ⟨{ c with sender := none }, y⟩⟩) :
    (guarded (callMachine F) (callGuard F)).Sat t
      (note fun _ => .returned (.mpuAccRange range)) Q v := by
  refine call_note (d := { c with sender := none }) hv (fun l hl => ?_) (fun _ => rfl)
    (fun l hl htr => ⟨fun own hown => ?_, htr⟩) (fun _ _ _ _ h => ?_)
    (fun _ _ _ _ h => absurd h ht) (fun _ _ _ h => absurd h ht) fun y _ => hQ _ fun hmain => ?_
  · rw [← hl]
    rfl
  · obtain rfl := Option.mem_some.mp hown
    exact (congrFun (congrArg Calls.range hl) range).trans hsent
  · exact absurd (hc.symm.trans h) Bool.false_ne_true
  · subst hmain
    have howns : CallView.owns .main { c with sender := none } x = true := hx rfl
    rw [howns]
    rfl

/-- `mpu_acc_range` transmits its own bytes, and leaves factor and range in step. -/
theorem call_mpuAccRange {Q : Bool → (callGuard F).View t → Prop} (ht : t ≠ .mpu)
    (hv : v.priv = ⟨c, x⟩) (hx : t = .main → x.isSome = true)
    (hQ : ∀ d y, d.filling = false → d.ranged = true → d.sender = none →
      (t = .main → y.isSome = true) → Q true ⟨.out, ⟨d, y⟩⟩) :
    (guarded (callMachine F) (callGuard F)).Sat t (mpuAccRange range) Q v := by
  refine guarded_bind (call_beganRange ht hv hx fun b => ?_)
  refine guarded_bind (guarded_bind (call_setTxbuf rfl ?_))
  refine guarded_bind (call_setTxbuf rfl ?_)
  refine guarded_bind (guarded_chMtxLock_mpu
    (fun s rs _ _ _ _ h => h.owner fun h => (by cases h)) fun s _ _ _ _ => ?_)
  -- From here to the transfer the factor is ahead of the range, under the mutex.
  refine guarded_bind (call_setScale ht rfl ?_)
  refine guarded_bind (call_i2c1Transmit (call_transferRange ht rfl rfl (fun regs => ?_) ?_ rfl
    fun p hp => ?_))
  · show Function.update regs ACCEL_CONFIG range.code ACCEL_CONFIG = range.code
    exact Function.update_self ACCEL_CONFIG range.code regs
  · -- The two bytes are the first that this call sends.
    rintro f hf own hown
    obtain rfl := Option.mem_some.mp hf
    obtain rfl := Option.mem_some.mp hown
    show Function.update c.range range [] range ++ [[ACCEL_CONFIG, range.code]] <+: _
    rw [Function.update_self]
    exact List.prefix_rfl
  rw [if_neg (by decide)]
  refine guarded_bind (guarded_mtxUnlock_mpu
    (fun s hs _ hg _ => ⟨?_, fun o _ => hg.owner fun h => ?_⟩) fun _ _ => ?_)
  · have hscale : p = scale s := Phase.holds.inj hs
    show (scale s).InStep
    rw [← hscale]
    exact hp
  · exact absurd (Option.some.inj h) ht
  refine guarded_bind (call_returnedRange ht rfl (fun hmain => ?_) rfl ?_
    fun y hy => hQ _ y rfl rfl rfl hy)
  · subst hmain
    rfl
  · simp [Calls.sent]

end

/-! ### `main` -/

section
variable [CFloat F] {v : (callGuard F).View .main} {c : Calls} {b : Buf 5}

/-- Code of `main` that only prints. -/
theorem call_main {A : Footprint} {p : Prog F α} {Q : α → (callGuard F).View .main → Prop}
    (hA : A.Le { locks := [.mtprint], reads := true }) (hp : p.All (Within A))
    (hv : v.phase.Kept Scale.InStep) (hQ : ∀ x φ, φ.Kept Scale.InStep → Q x ⟨φ, v.priv⟩) :
    (guarded (callMachine F) (callGuard F)).Sat .main p Q v :=
  call_within rfl (by decide) (by decide) (within_le hA hp) hv hQ

/-- A line that `main` prints. -/
theorem call_print {s : String} {k : Unit → Prog F α} {φ : Phase (Scale F)} {w : CallView}
    {Q : α → (callGuard F).View .main → Prop} (hφ : φ.Kept Scale.InStep)
    (hk : ∀ φ, φ.Kept Scale.InStep →
      (guarded (callMachine F) (callGuard F)).Sat .main (k ()) Q ⟨φ, w⟩) :
    (guarded (callMachine F) (callGuard F)).Sat .main (serialPrint (.text s) >>= k) Q ⟨φ, w⟩ :=
  guarded_bind (call_main (by decide) (within_serialPrint_text _) hφ fun _ φ hφ => hk φ hφ)

omit [CFloat F] in
/-- Outside the calls any bytes may be sent. -/
theorem Calls.next_of_none {bytes : List UInt8} (h : c.sender = none) : c.Next bytes := by
  intro f hf
  rw [h] at hf
  cases hf

/-- One configuration register of the sensor. -/
theorem call_configure {reg val : UInt8} {k : Msg → Prog F α}
    {Q : α → (callGuard F).View .main → Prop} (hreg : reg ≠ ACCEL_CONFIG)
    (hv : v.priv = ⟨c, some b⟩) (hc : c.filling = false) (hsender : c.sender = none)
    (hk : ∀ d y, d.filling = false → d.sender = none →
      (guarded (callMachine F) (callGuard F)).Sat .main (k .MSG_OK) Q ⟨v.phase, ⟨d, some y⟩⟩) :
    (guarded (callMachine F) (callGuard F)).Sat .main (do
      setTxbuf 0 reg
      setTxbuf 1 val
      k (← i2c1Transmit MPU_ADDR 2 0 MPU_TIME_LIM)) Q v := by
  refine guarded_bind (call_setTxbuf hv ?_)
  refine guarded_bind (call_setTxbuf rfl ?_)
  refine guarded_bind (call_write rfl hc hreg (Calls.next_of_none hsender) ?_)
  exact hk _ _ rfl hsender

/-- `main` leaves the factor and the range in step. -/
theorem call_mpuInit {Q : Unit → (callGuard F).View .main → Prop} (hv : v.priv = ⟨c, some b⟩)
    (hφ : v.phase.Kept Scale.InStep) (hc : c.filling = false) (hsender : c.sender = none)
    (hQ : ∀ φ d y, φ.Kept Scale.InStep → d.ranged = true → Q () ⟨φ, ⟨d, y⟩⟩) :
    (guarded (callMachine F) (callGuard F)).Sat .main mpuInit Q v := by
  obtain ⟨φ, w⟩ := v
  obtain rfl : w = ⟨c, some b⟩ := hv
  refine guarded_bind (guarded_chMtxObjectInit (guarded_bind ?_))
  -- Three configuration registers, none of them the range's.
  refine call_configure (by decide) rfl hc hsender fun d y hd hsender => ?_
  refine call_configure (by decide) rfl hd hsender fun d y hd hsender => ?_
  rw [if_pos rfl]
  refine call_print hφ fun φ hφ => ?_
  refine call_configure (by decide) rfl hd hsender fun d y hd _ => ?_
  rw [if_pos rfl]
  refine call_print hφ fun φ hφ => ?_
  -- The range. From here on factor and range are in step.
  refine guarded_bind (call_mpuAccRange (by decide) rfl (fun _ => rfl)
    fun d y hd hranged hsender hy => ?_)
  obtain ⟨y, rfl⟩ := Option.isSome_iff_exists.mp (hy rfl)
  rw [if_pos rfl]
  refine call_print (fun p hp => by cases hp) fun φ hφ => ?_
  -- WHO_AM_I.
  refine guarded_bind (call_setTxbuf rfl
    (guarded_bind (call_read rfl hd (Calls.next_of_none hsender) ?_)))
  rw [if_pos rfl]
  refine guarded_bind (guarded_getMpu (fun _ => trivial) fun s _ _ => ?_)
  have hwai : (chprintf (F := F) (.wai (s.mpu.rxbuf 0))).All (Within {}) := by
    simp [chprintf, perform, Within, Footprint.prints]
  refine call_main (by decide) hwai hφ fun _ φ hφ => hQ φ _ _ hφ ?_
  exact Bool.or_eq_true_iff.mpr (.inr hranged)

/-- With the serial thread, `main` gives `txbuf` away. -/
theorem call_createSerial {x : Option (Buf 5)} {Q : Unit → (callGuard F).View .main → Prop}
    (hv : v.priv = ⟨c, x⟩) (hc : c.ranged = true) (hQ : Q () ⟨v.phase, ⟨c, none⟩⟩) :
    (guarded (callMachine F) (callGuard F)).Sat .main (chThdCreateStatic .serial) Q v := by
  refine guarded_own rfl fun s hs hsv => ⟨trivial, fun r s' _ he => ?_⟩
  have hview : callView .main s = ⟨c, x⟩ := (congrArg Guard.View.priv hsv).trans hv
  obtain rfl : calls (s.log .main) = c := congrArg CallView.calls hview
  rw [Sys.exec_thdCreate he]
  refine ⟨rfl, id, fun u hu => ?_, ?_, hQ⟩
  · cases u with
    | main => exact absurd rfl hu
    | _ => rfl
  · -- `started` has changed, and with it what the invariant says about the start.
    refine ⟨hs.glob.results, hs.glob.msg, fun hser => ?_, fun _ => hc, hs.glob.apart,
      hs.glob.update, hs.glob.transmitted⟩
    exact Bool.noConfusion (hser : true = false)

/-- `main` starts the MPU thread. -/
theorem call_createMpu {Q : Unit → (callGuard F).View .main → Prop} (hv : v.priv = ⟨c, none⟩)
    (hQ : Q () v) :
    (guarded (callMachine F) (callGuard F)).Sat .main (chThdCreateStatic .mpu) Q v := by
  refine guarded_own rfl fun s hs hsv => ⟨trivial, fun r s' _ he => ?_⟩
  have hview : callView .main s = ⟨c, none⟩ := (congrArg Guard.View.priv hsv).trans hv
  have hser : s.started .serial = true := by
    have howns : owns .main s = CallView.owns .main c none := owns_of_view hview
    simpa [owns, CallView.owns] using howns
  rw [Sys.exec_thdCreate he]
  refine ⟨rfl, id, fun u hu => ?_, ?_, ?_⟩
  · cases u with
    | main => exact absurd rfl hu
    | _ => rfl
  · refine ⟨hs.glob.results, hs.glob.msg, fun h => ?_, hs.glob.ranged, hs.glob.apart,
      hs.glob.update, hs.glob.transmitted⟩
    exact absurd (hser.symm.trans h) (by decide)
  · have hpriv : (callGuard F).priv .main
        { s with started := Function.update s.started .mpu true } = v.priv :=
      congrArg Guard.View.priv hsv
    rw [hpriv]
    exact hQ

/-- The setup of `main`, from its parts: it owns the buffer until the serial thread
starts. -/
theorem call_setup {Q : Unit → (callGuard F).View .main → Prop} (hv : v.priv = ⟨c, some b⟩)
    (hφ : v.phase.Kept Scale.InStep) (hc : c.filling = false) (hsender : c.sender = none)
    (hQ : ∀ w, Q () w) :
    (guarded (callMachine F) (callGuard F)).Sat .main (setup .main) Q v := by
  have hsd : (perform (S := sig F) .sdStart).All (Within { reads := true }) := by
    simp [perform, Within]
  obtain ⟨φ, w⟩ := v
  obtain rfl : w = ⟨c, some b⟩ := hv
  refine guarded_bind (guarded_bind (guarded_chMtxObjectInit ?_))
  refine call_main (by decide) hsd hφ fun _ φ hφ => ?_
  refine call_print hφ fun φ hφ => call_print hφ fun φ hφ => call_print hφ fun φ hφ => ?_
  refine guarded_bind (guarded_same rfl (fun _ _ _ => trivial) fun s r s' hs _ he => ⟨?_, ?_⟩)
  · rw [Sys.exec_i2cStart he]
    exact callData_same rfl rfl rfl rfl hs.glob.msg.symm rfl (fun _ => rfl) fun _ => id
  refine guarded_bind (call_mpuInit rfl hφ hc hsender fun φ d y hφ hd => ?_)
  refine guarded_bind (call_createSerial rfl hd (call_print hφ fun φ hφ => ?_))
  refine guarded_bind (call_createMpu rfl ?_)
  exact call_main (by decide) (within_serialPrint_text _) hφ fun _ _ _ => hQ _

end

/-! ### The serial thread -/

section
variable [CFloat F]

/-- The serial thread is not between a call of `mpu_acc_range` and its transfer. -/
structure NotFilling (v : (callGuard F).View .serial) : Prop where
  kept : v.phase.Kept Scale.InStep
  filling : v.priv.calls.filling = false

/-- Code of the serial thread that has no part in a change of range. -/
theorem call_serial {A : Footprint} {p : Prog F α}
    (hA : (A.txbuf || A.scale || A.ranges || A.updates) = false) (hi : .i2c ∉ A.locks)
    (hp : p.All (Within A)) :
    (guarded (callMachine F) (callGuard F)).Triple .serial NotFilling p fun _ v => NotFilling v :=
  fun _ hv => call_within hA hi (by decide) hp hv.kept fun _ _ hφ => ⟨hφ, hv.filling⟩

/-- `commad_check` of any string, by cases on the command. -/
theorem call_commadCheck (mem : List UInt8) :
    (guarded (callMachine F) (callGuard F)).Triple .serial NotFilling (commadCheck mem)
      fun _ v => NotFilling v := by
  have hnote : ∀ {f : Fn}, f = .commadCheck mem →
      (guarded (callMachine F) (callGuard F)).Triple .serial NotFilling (note fun _ => .began f)
        (fun _ v => NotFilling v) ∧
      (guarded (callMachine F) (callGuard F)).Triple .serial NotFilling (note fun _ => .returned f)
        (fun _ v => NotFilling v) := by
    rintro f rfl
    exact ⟨call_serial (A := { commands := true }) rfl (by decide) ⟨fun _ => rfl, fun _ => trivial⟩,
      call_serial (A := { commands := true }) rfl (by decide) ⟨fun _ => rfl, fun _ => trivial⟩⟩
  have hcall : ∀ {p : Prog F Unit},
      (guarded (callMachine F) (callGuard F)).Triple .serial NotFilling p
        (fun _ v => NotFilling v) →
      (guarded (callMachine F) (callGuard F)).Triple .serial NotFilling
        (call (.commadCheck mem) p) fun _ v => NotFilling v := fun hp =>
    (hnote rfl).1.bind fun _ => hp.bind fun _ => (hnote rfl).2.bind fun _ =>
      Triple.pure fun _ hv => hv
  have hlock : ∀ m, m ≠ .i2c → (chMtxLock (F := F) m).All (Within { locks := [m] }) := by
    intro m _
    simp [chMtxLock, perform, Within]
  have hunlock : (chMtxUnlock (F := F) .serialcomm).All (Within { locks := [.serialcomm] }) := by
    simp [chMtxUnlock, perform, Within]
  -- Only the ranges have a transfer of their own.
  rw [commadCheck_eq]
  cases commandOf mem with
  | none => exact hcall (call_serial rfl (by decide) (within_unknownCommand mem))
  | some command =>
      cases command with
      | start => exact hcall (call_serial rfl (by decide) within_start)
      | stop => exact hcall (call_serial rfl (by decide) within_stop)
      | redg => exact hcall (call_serial rfl (by decide) within_redg)
      | regs => exact hcall (call_serial rfl (by decide) within_regs)
      | range r =>
          have hrange : (guarded (callMachine F) (callGuard F)).Triple .serial NotFilling
              (mpuAccRange r) fun _ v => NotFilling v := by
            intro v hv
            exact call_mpuAccRange (by decide) rfl (fun h => by cases h)
              fun d y hd _ _ _ => ⟨fun p hp => (by cases hp), hd⟩
          exact hcall ((call_serial rfl (by decide) (hlock .serialcomm (by decide))).bind fun _ =>
            hrange.bind fun _ => call_serial rfl (by decide) hunlock)

/-- An iteration of the serial thread. -/
theorem call_serialcommThread :
    (guarded (callMachine F) (callGuard F)).Triple .serial NotFilling serialcommThread
      fun _ v => NotFilling v := by
  have hend : (do
      iqResetI (F := F)
      outputSection
      setSer fun _ c => { c with rdCount := wrap32 (c.rdCount + 1) }
      chThdSleepMilliseconds 100).All (Within { Footprint.output with reads := true }) := by
    refine .bind (by simp [iqResetI, perform, Within]) fun _ => ?_
    refine .bind (within_le (by decide) within_outputSection) fun _ => ?_
    simp [setSer, chThdSleepMilliseconds, perform, Within, Footprint.output, Footprint.ser_iff]
  have hrest := call_serial (F := F) rfl (by decide) hend
  refine (call_serial rfl (by decide) within_serialRead).bind fun sdt => ?_
  split
  · have hget : (guarded (callMachine F) (callGuard F)).Triple .serial NotFilling getSer
        fun _ v => NotFilling v := fun v hv => guarded_getSer (fun _ => trivial) fun _ _ _ => hv
    exact hget.bind fun c => (call_commadCheck _).bind fun _ => hrest
  · exact hrest

end

/-! ### Runs -/

section
variable [CFloat F] {results : Tid → Nat → I2CResult} {regs : UInt8 → UInt8}
  {pastStrbuf : List UInt8} {c : Config (sig F) Tid (Sys F)}

/-- What holds of a thread each time it starts its loop body. -/
def callLoop (F : Type) [CFloat F] : ∀ t, (callGuard F).View t → Prop
  | .main => fun _ => True
  | .serial => NotFilling
  | .mpu => fun v => v.priv.calls.filling = false ∧ v.priv.calls.updating = false

/-- The invariant holds in every state of a run of this machine with successful transfers.
-/
theorem call_ok (hres : ∀ t n, (results t n).msg = .MSG_OK)
    (h : Reaches (tidyMachine F) loop (bootConfig results regs pastStrbuf) c) :
    (guarded (callMachine F) (callGuard F)).Ok (callLoop F) c := by
  have hinv : (callGuard F).Inv (boot results regs pastStrbuf) := by
    refine ⟨boot_wf results regs pastStrbuf, fun _ h => Bool.noConfusion h, ?_⟩
    exact ⟨hres, rfl, fun _ => ⟨rfl, rfl, rfl⟩, fun h => Bool.noConfusion h,
      fun h => Bool.noConfusion h, fun h => Bool.noConfusion h, fun _ => trivial⟩
  have hboot : (guarded (callMachine F) (callGuard F)).Ok (callLoop F)
      (bootConfig results regs pastStrbuf) := by
    refine ⟨hinv, fun t => ?_⟩
    cases t with
    | main => exact call_setup rfl (fun p hp => by cases hp) rfl rfl fun _ => trivial
    | serial =>
        have hsleep : (chThdSleepMilliseconds (F := F) 100).All (Within {}) := by
          simp [chThdSleepMilliseconds, perform, Within]
        exact guarded_bind (guarded_chMtxObjectInit
          (call_serial rfl (by decide) hsleep _ ⟨fun p hp => (by cases hp), rfl⟩))
    | mpu => exact ⟨rfl, rfl⟩
  refine hboot.reaches (fun t => ?_) (guarded_env ?_) (reaches_politely tidyMachine_le h)
  · cases t with
    | main =>
        exact fun v _ => guarded_same rfl (fun _ _ _ => trivial) fun s r s' _ _ hrs =>
          ⟨Sys.exec_sleep hrs ▸ GuardData.Same.refl _ _, trivial⟩
    | serial => exact call_serialcommThread
    | mpu => exact call_mpumThread
  · -- A new sample fills data registers, and the range is in none of them.
    intro e s s' he
    cases e with
    | sample data =>
        cases he
        have hconfig : isDataReg ACCEL_CONFIG = false := by decide
        refine callData_same rfl rfl ?_ rfl rfl rfl (fun _ => rfl) fun _ => id
        show (if isDataReg ACCEL_CONFIG then data ACCEL_CONFIG else s.regs ACCEL_CONFIG) = _
        rw [hconfig]
        rfl
    | rx b =>
        cases he
        exact callData_same rfl rfl rfl rfl rfl rfl (fun _ => rfl) fun _ => id
    | elapse n =>
        cases he
        exact callData_same rfl rfl rfl rfl rfl rfl (fun _ => rfl) fun _ => id

/-- While the mutex is free, and throughout an update, factor and range are in step. -/
theorem inStep_of_callOk (hok : (guarded (callMachine F) (callGuard F)).Ok (callLoop F) c)
    (hser : c.st.started .serial = true)
    (hor : c.st.kern.owner .mpu = none ∨ Obs.inside .mpuAccUpdate (c.st.log .mpu) = true) :
    InStep c.st := by
  have hranged : (scale c.st).ranged = true := hok.inv.glob.ranged hser
  have hscale : (scale c.st).InStep := by
    rcases hor with hfree | hin
    · refine hok.inv.free ?_
      rintro ⟨u, hu, -⟩
      rw [hfree] at hu
      cases hu
    · exact (hok.inv.glob.update hin).2
  exact hscale hranged

/-- With transfers that succeed and no overlap of `mpu_acc_range`, up to its transfer,
with an update of the other thread: every call transmits its own bytes, and while
`mpu.c`'s mutex is free and throughout an update, the scale factor is that of the range in
the sensor. -/
theorem transactions_ok (hres : ∀ t n, (results t n).msg = .MSG_OK)
    (h : Reaches (orderlyMachine F) loop (bootConfig results regs pastStrbuf) c) :
    (∀ t, Obs.Transmitted (c.st.log t)) ∧ (c.st.started .serial = true →
      (c.st.kern.owner .mpu = none ∨ Obs.inside .mpuAccUpdate (c.st.log .mpu) = true) →
      InStep c.st) := by
  have hok := call_ok hres (h.mono orderlyMachine_le)
  exact ⟨fun t => (hok.inv.glob.transmitted t).transmitted, inStep_of_callOk hok⟩

/-- In every run in which `mpu_acc_range` of the serial thread keeps its bytes apart from the
transfers of an update, each transfer within a call is the next of its own, and scale factor
and range are in step. -/
theorem transactions_own (hres : ∀ t n, (results t n).msg = .MSG_OK)
    (h : Reaches (tidyMachine F) loop (bootConfig results regs pastStrbuf) c) :
    (∀ t, Obs.Own (c.st.log t)) ∧ (c.st.started .serial = true →
      (c.st.kern.owner .mpu = none ∨ Obs.inside .mpuAccUpdate (c.st.log .mpu) = true) →
      InStep c.st) := by
  have hok := call_ok hres h
  exact ⟨hok.inv.glob.transmitted, inStep_of_callOk hok⟩

end

/-- The property can be tested entry by entry. -/
def decTransmitted : (l : List (Obs F)) → Decidable (Obs.Transmitted l)
  | [] => isTrue trivial
  | .returned f :: l =>
      have := decTransmitted l
      inferInstanceAs (Decidable ((∀ bytes ∈ f.sends, Obs.sentSince f l = bytes) ∧
        Obs.Transmitted l))
  | .began _ :: l => decTransmitted l
  | .transfer _ _ :: l => decTransmitted l
  | .published _ :: l => decTransmitted l
  | .received _ :: l => decTransmitted l
  | .flushed :: l => decTransmitted l
  | .printed _ :: l => decTransmitted l
  | .unlocked _ _ :: l => decTransmitted l

/-- So it can be decided. -/
instance (l : List (Obs F)) : Decidable (Obs.Transmitted l) := decTransmitted l

/-- An update, and then `cmdr02`, each on its own. -/
theorem transactions_ok_range : ∃ c : Config (sig ℚ) Tid (Sys ℚ),
    Obs.ranged (c.st.log .serial) = true ∧ (∀ t, Obs.Transmitted (c.st.log t)) ∧ InStep c.st := by
  have hrun : (Threads.run (orderlyMachine ℚ) loop
      (List.replicate 85 (.run .main) ++ List.replicate 2 (.run .serial) ++
        List.replicate 75 (.run .mpu) ++ SER_R02.map (fun b => .env (.rx b)) ++
        List.replicate 26 (.run .serial))
      (bootConfig (fun _ _ => ⟨.MSG_OK, []⟩) (fun _ => 1) [])).any (fun c =>
        Obs.ranged (c.st.log .serial) && c.st.started .serial && c.st.kern.owner .mpu = none) =
      true := by
    decide +kernel
  obtain ⟨c, hc, hf⟩ := Reaches.of_run_any hrun
  simp only [Bool.and_eq_true, decide_eq_true_eq] at hf
  obtain ⟨⟨hranged, hser⟩, hfree⟩ := hf
  obtain ⟨htr, hscale⟩ := transactions_ok (fun _ _ => rfl) hc
  exact ⟨c, hranged, htr, hscale hser (.inl hfree)⟩

/-- `cmdr02` is handled while an update that has made its last transfer holds the mutex. -/
theorem transactions_own_late : ∃ c : Config (sig ℚ) Tid (Sys ℚ),
    Obs.ranged (c.st.log .serial) = true ∧ (∀ t, Obs.Own (c.st.log t)) ∧ InStep c.st := by
  have hrun : (Threads.run (tidyMachine ℚ) loop
      (List.replicate 85 (.run .main) ++ List.replicate 2 (.run .serial) ++
        List.replicate 57 (.run .mpu) ++ SER_R02.map (fun b => .env (.rx b)) ++
        List.replicate 15 (.run .serial) ++ List.replicate 18 (.run .mpu) ++
        List.replicate 10 (.run .serial))
      (bootConfig (fun _ _ => ⟨.MSG_OK, []⟩) (fun _ => 1) [])).any (fun c =>
        Obs.ranged (c.st.log .serial) && c.st.started .serial && c.st.kern.owner .mpu = none) =
      true := by
    decide +kernel
  obtain ⟨c, hc, hf⟩ := Reaches.of_run_any hrun
  simp only [Bool.and_eq_true, decide_eq_true_eq] at hf
  obtain ⟨⟨hranged, hser⟩, hfree⟩ := hf
  obtain ⟨hown, hscale⟩ := transactions_own (fun _ _ => rfl) hc
  exact ⟨c, hranged, hown, hscale hser (.inl hfree)⟩

/-- `cmdr02` arrives, the update waits in its first transfer, the serial thread fills
`txbuf` and waits for the mutex, the update ends, and `mpu_acc_range` goes on. -/
def mixedSchedule : List (Move Tid EnvMove) :=
  List.replicate 85 (.run .main) ++ List.replicate 2 (.run .serial) ++
    List.replicate 11 (.run .mpu) ++ SER_R02.map (fun b => .env (.rx b)) ++
    List.replicate 15 (.run .serial) ++ List.replicate 64 (.run .mpu) ++
    List.replicate 10 (.run .serial)

/-- The threads are switched only where one waits, every transfer succeeds, and both calls
transmit foreign bytes. The range in the sensor is not that of the scale factor. -/
theorem transactions_mixed : ∃ c : Config (sig ℚ) Tid (Sys ℚ),
    Reaches (machine ℚ) loop (bootConfig (fun _ _ => ⟨.MSG_OK, []⟩) (fun _ => 1) []) c ∧
    ¬Obs.Transmitted (c.st.log .mpu) ∧ ¬Obs.Transmitted (c.st.log .serial) ∧
    c.st.started .serial = true ∧ c.st.kern.owner .mpu = none ∧ ¬InStep c.st := by
  have hrun : (Threads.run (machine ℚ) loop mixedSchedule
      (bootConfig (fun _ _ => ⟨.MSG_OK, []⟩) (fun _ => 1) [])).any (fun c =>
        decide (¬Obs.Transmitted (c.st.log .mpu)) && decide (¬Obs.Transmitted (c.st.log .serial)) &&
        c.st.started .serial && decide (c.st.kern.owner .mpu = none) &&
        [AccelRange.ACCEL_RANGE_2G, .ACCEL_RANGE_4G, .ACCEL_RANGE_8G, .ACCEL_RANGE_16G].all
          fun range => decide (¬(c.st.regs ACCEL_CONFIG = range.code ∧
            c.st.mpu.accScaleRef = accScale range))) = true := by
    decide +kernel
  obtain ⟨c, hc, hf⟩ := Reaches.of_run_any hrun
  simp only [Bool.and_eq_true, decide_eq_true_eq] at hf
  obtain ⟨⟨⟨⟨hmpu, hserial⟩, hser⟩, hfree⟩, hscale⟩ := hf
  refine ⟨c, hc, hmpu, hserial, hser, hfree, ?_⟩
  rintro ⟨range, hrange⟩
  have hmem : range ∈ [AccelRange.ACCEL_RANGE_2G, .ACCEL_RANGE_4G, .ACCEL_RANGE_8G,
      .ACCEL_RANGE_16G] := by
    cases range <;> decide
  exact of_decide_eq_true (List.all_eq_true.mp hscale range hmem) hrange

end MotionTracking
