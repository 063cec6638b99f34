import MotionTracking.Firmware.Footprint

/-!
# `MotionTracking.Firmware.Effect`: what an action within a footprint changes

`Footprint.Within` is about the text of a program. `Effect A t s s'` is what
follows for a step of thread `t` from `s` to `s'`: everything that `A` does not
list is as it was, and the log has at most one new entry, of a kind that `A`
lists. The kernel's mutexes are left open.
-/

set_option autoImplicit false

namespace MotionTracking

variable {F : Type}

namespace Footprint

/-- The log entries an action of the footprint can make. -/
def logs (A : Footprint) : Obs F → Bool
  | .began f => A.calls f
  | .returned f => A.calls f
  | .transfer _ _ => .i2c ∈ A.locks
  | .published _ => A.updates
  | .received _ => A.reads
  | .flushed => A.reads
  | .printed o => A.prints o
  | .unlocked m _ => m ∈ A.locks

/-- What a `note` writes is among the entries of the footprint. -/
theorem logs_of_notes {A : Footprint} {ev : Obs F} (h : A.notes ev = true) : A.logs ev = true := by
  cases ev with
  | began f => exact h
  | returned f => exact h
  | published p => exact h
  | _ => cases h

/-- The effect of one action of the footprint, by thread `t`. -/
structure Effect (A : Footprint) (t : Tid) (s s' : Sys F) : Prop where
  mpu : A.Mpu s.mpu { s'.mpu with rxbuf := s.mpu.rxbuf }
  ser : A.Ser s.ser { s'.ser with strbuf := s.ser.strbuf }
  strbuf : A.reads = false → s'.ser.strbuf = s.ser.strbuf
  sd2 : A.reads = false → s'.sd2 = s.sd2
  rxbuf : .i2c ∉ A.locks → s'.mpu.rxbuf = s.mpu.rxbuf
  i2c : .i2c ∉ A.locks → s'.i2c = s.i2c
  regs : .i2c ∉ A.locks → s'.regs = s.regs
  results : .i2c ∉ A.locks → s'.results = s.results
  started : s'.started = s.started
  log : s'.log = s.log ∨
    ∃ ev, A.logs ev = true ∧ s'.log = Function.update s.log t (ev :: s.log t)

variable {A : Footprint} {t : Tid} {s s' : Sys F}

/-- No assignment at all is within every footprint. -/
theorem Mpu.refl (c : MpuC F) : A.Mpu c c :=
  ⟨rfl, fun _ => rfl, fun _ => ⟨rfl, rfl, rfl⟩, fun _ => ⟨rfl, rfl, rfl⟩, fun _ => ⟨rfl, rfl⟩,
    fun _ => rfl, fun _ => rfl⟩

/-- No assignment at all is within every footprint. -/
theorem Ser.refl (c : SerC F) : A.Ser c c :=
  ⟨rfl, rfl, fun _ => rfl, fun _ => rfl, fun _ => ⟨rfl, rfl, rfl⟩, fun _ => rfl⟩

/-- A step of the kernel alone. -/
theorem Effect.kern (k : ChibiOS.Kernel Tid Mtx) : A.Effect t s { s with kern := k } :=
  ⟨.refl _, .refl _, fun _ => rfl, fun _ => rfl, fun _ => rfl, fun _ => rfl, fun _ => rfl,
    fun _ => rfl, rfl, .inl rfl⟩

/-- A step that changes nothing is within every footprint. -/
theorem Effect.refl : A.Effect t s s := Effect.kern s.kern

/-- A step that only writes a log entry of the footprint. -/
theorem Effect.observe {ev : Obs F} (h : A.logs ev = true) : A.Effect t s (s.observe t ev) :=
  ⟨.refl _, .refl _, fun _ => rfl, fun _ => rfl, fun _ => rfl, fun _ => rfl, fun _ => rfl,
    fun _ => rfl, rfl, .inr ⟨ev, h, rfl⟩⟩

/-- A read from the input queue, for a footprint that reads. -/
theorem Effect.iqTake (h : A.reads = true) (off n : Nat) : A.Effect t s (s.iqTake t off n).2 := by
  have hreads : A.reads ≠ false := by simp [h]
  exact ⟨.refl _, .refl _, fun hA => absurd hA hreads, fun hA => absurd hA hreads, fun _ => rfl,
    fun _ => rfl, fun _ => rfl, fun _ => rfl, rfl, .inr ⟨.received _, h, rfl⟩⟩

/-- A change of the input queue alone. -/
theorem Effect.queue (h : A.reads = true) (sd : SerialDriver) :
    A.Effect t s { s with sd2 := sd } := by
  have hreads : A.reads ≠ false := by simp [h]
  exact ⟨.refl _, .refl _, fun _ => rfl, fun hA => absurd hA hreads, fun _ => rfl, fun _ => rfl,
    fun _ => rfl, fun _ => rfl, rfl, .inl rfl⟩

/-- A change of the input queue, with a log entry. -/
theorem Effect.drained (h : A.reads = true) (ev : Obs F) (hev : A.logs ev = true)
    (sd : SerialDriver) : A.Effect t s { s.observe t ev with sd2 := sd } := by
  have hreads : A.reads ≠ false := by simp [h]
  exact ⟨.refl _, .refl _, fun _ => rfl, fun hA => absurd hA hreads, fun _ => rfl, fun _ => rfl,
    fun _ => rfl, fun _ => rfl, rfl, .inr ⟨ev, hev, rfl⟩⟩

/-- A change of the I2C driver alone. -/
theorem Effect.driver (h : .i2c ∈ A.locks) (i : I2CDriver) :
    A.Effect t s { s with i2c := i } :=
  ⟨.refl _, .refl _, fun _ => rfl, fun _ => rfl, fun _ => rfl, fun hA => absurd h hA, fun _ => rfl,
    fun _ => rfl, rfl, .inl rfl⟩

/-- The step of an action within the footprint has an effect within it, by cases on the
action. -/
theorem effect_step {a : Act F} {r : a.Ans} (ha : A.Within a) (h : s.exec t a = some (r, s')) :
    A.Effect t s s' := by
  cases a with
  | getMpu =>
      rw [(Sys.exec_getMpu h).2]
      exact .refl
  | getSer =>
      rw [(Sys.exec_getSer h).2]
      exact .refl
  | setMpu f =>
      rw [Sys.exec_setMpu h]
      have hf := ha s.mpu
      refine ⟨?_, .refl _, fun _ => rfl, fun _ => rfl, fun _ => hf.rxbuf, fun _ => rfl,
        fun _ => rfl, fun _ => rfl, rfl, .inl rfl⟩
      exact ⟨rfl, hf.txbuf, hf.row, hf.axes, hf.angles, hf.scale, hf.enable⟩
  | setSer f =>
      rw [Sys.exec_setSer h]
      have hf := ha s.mpu s.ser
      refine ⟨.refl _, ?_, fun _ => hf.strbuf, fun _ => rfl, fun _ => rfl, fun _ => rfl,
        fun _ => rfl, fun _ => rfl, rfl, .inl rfl⟩
      exact ⟨rfl, hf.pastStrbuf, hf.serEnable, hf.option, hf.serAxes, hf.rdCount⟩
  | note ev =>
      rw [Sys.exec_note h]
      exact .observe (logs_of_notes (ha s.mpu))
  | mtxLock m =>
      rw [Sys.exec_mtxLock h]
      exact .kern _
  | mtxResume =>
      obtain ⟨k, -, rfl⟩ := Sys.exec_mtxResume h
      exact .kern k
  | mtxUnlock m =>
      rw [Sys.exec_mtxUnlock h]
      have hobs : A.Effect t s (s.observe t (.unlocked m (s.kern.mtxlist t).head?)) :=
        .observe (decide_eq_true ha)
      exact ⟨.refl _, .refl _, fun _ => rfl, fun _ => rfl, fun _ => rfl, fun _ => rfl,
        fun _ => rfl, fun _ => rfl, rfl, hobs.log⟩
  | sleep =>
      rw [Sys.exec_sleep h]
      exact .refl
  | i2cBegin =>
      rw [Sys.exec_i2cBegin h]
      exact .driver ha _
  | i2cTransfer addr txbytes rxbytes =>
      rw [Sys.exec_i2cTransfer h]
      refine ⟨.refl _, .refl _, fun _ => rfl, fun _ => rfl, fun hA => absurd ha hA,
        fun hA => absurd ha hA, fun hA => absurd ha hA, fun hA => absurd ha hA, rfl, .inr ?_⟩
      exact ⟨.transfer _ _, decide_eq_true ha, rfl⟩
  | i2cEnd =>
      obtain ⟨-, rfl⟩ := Sys.exec_i2cEnd h
      exact .driver ha _
  | sdStart =>
      rw [Sys.exec_sdStart h]
      exact .queue ha _
  | sdOut o =>
      rw [Sys.exec_sdOut h]
      exact .observe ha
  | iqRead off n timeout =>
      rcases Sys.exec_iqRead h with ⟨-, -, rfl⟩ | ⟨-, hrs⟩
      · exact .queue ha _
      · obtain ⟨-, rfl⟩ := Prod.mk.inj hrs
        exact .iqTake ha off n
  | iqWake off n =>
      rcases Sys.exec_iqWake h with ⟨-, hrs⟩ | ⟨_, -, -, -, rfl⟩
      · obtain ⟨-, rfl⟩ := Prod.mk.inj hrs
        exact .iqTake ha off n
      · exact .drained ha (.received []) ha _
  | iqReset =>
      rw [Sys.exec_iqReset h]
      exact .drained ha .flushed ha _
  | mtxInit m => exact ha.elim
  | thdCreate u => exact ha.elim
  | i2cStart => exact ha.elim

end Footprint

end MotionTracking
