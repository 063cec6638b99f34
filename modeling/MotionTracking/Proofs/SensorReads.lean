import MotionTracking.Firmware.MpuRun
import MotionTracking.Firmware.Serialcomm

/-!
# `MotionTracking.Proofs.SensorReads`: which bytes an update uses

Two statements about `mpu_acc_update` and the reads it makes, for a call by any
thread from any state, with any results of its transfers, beside other threads
that leave its variables alone (`Aside`).

* `all_or_nothing_iff`: the update should publish when all three reads succeeded,
  and only then. It combines the results with a bitwise AND, and `MSG_OK` is zero,
  so it publishes as soon as one read succeeded. For the updates of a whole run see
  `published_whole_iff`.
* `own_registers_iff`: an axis should be decoded from its own two registers. The
  low byte is taken from the second byte of a read that starts at the low
  register, which is the register after it.
-/

set_option autoImplicit false

namespace MotionTracking

open Threads (Machine Exec runAlone)

variable {F : Type}

/-! ### All or nothing -/

/-- The published variables. -/
def MpuC.published (c : MpuC F) : Published F :=
  ⟨c.axisX, c.axisY, c.axisZ, c.axisAngX, c.axisAngY⟩

/-- What a call of `mpu_acc_update` that returns `b` should do. -/
structure AllOrNothing (t : Tid) (s s' : Sys F) (b : Bool) : Prop where
  result : b = true ↔ ∀ axis, readMsg (s.results t) axis = .MSG_OK
  kept : b = false → s'.mpu.published = s.mpu.published

/-- It does so exactly when all reads succeed or none does. -/
theorem all_or_nothing_iff [CFloat F] {t : Tid} {s s' : Sys F} {b : Bool}
    (he : Exec (machine F) t (Aside t) mpuAccUpdate s b s') :
    AllOrNothing t s s' b ↔ ((∃ axis, readMsg (s.results t) axis = .MSG_OK) →
      ∀ axis, readMsg (s.results t) axis = .MSG_OK) := by
  obtain ⟨rfl, tx, rx, hmpu⟩ := exec_mpuAccUpdate he
  rw [← anyRead_iff]
  constructor
  · intro h hany
    exact h.result.mp (decide_eq_true hany)
  · intro h
    refine ⟨⟨fun hb => h (of_decide_eq_true hb), fun hall => ?_⟩, fun hb => ?_⟩
    · exact decide_eq_true ((anyRead_iff _).mpr ⟨.ACC_AXIS_X, hall .ACC_AXIS_X⟩)
    · rw [hmpu, if_neg (of_decide_eq_false hb)]
      rfl

/-- All threads have started, no mutex is owned. -/
def idle [CFloat F] (results : Tid → Nat → I2CResult) (regs : UInt8 → UInt8) : Sys F :=
  { boot results regs [] with started := fun _ => true }

/-- The results of the transfers, `MSG_OK` from the end of the list on. -/
def resultsOf (msgs : List Msg) : Tid → Nat → I2CResult :=
  fun _ n => ⟨msgs.getD n .MSG_OK, []⟩

/-- The reads of `y` and `z` fail, and the update publishes. -/
theorem partial_update_publishes :
    ¬∀ (t : Tid) (s s' : Sys Float32) (b : Bool),
      Exec (machine Float32) t (Aside t) mpuAccUpdate s b s' → AllOrNothing t s s' b := by
  intro h
  have hsome : (runAlone (machine Float32) .mpu mpuAccUpdate (idle (resultsOf
      [.MSG_OK, .MSG_OK, .MSG_TIMEOUT, .MSG_RESET]) fun _ => 0)).any (fun r => r.1) = true := by
    decide
  obtain ⟨⟨b, s'⟩, hrun, hb⟩ := (Option.any_eq_true _ _).mp hsome
  have hall := (h .mpu _ s' b (.of_runAlone hrun)).result.mp hb
  exact absurd (hall .ACC_AXIS_Y) (by decide)

/-- On a healthy board the update publishes. -/
theorem all_or_nothing_iff_healthy : ∃ (s' : Sys Float32) (b : Bool),
    AllOrNothing .mpu (idle (resultsOf []) fun _ => 0) s' b := by
  have hsome : (runAlone (machine Float32) .mpu mpuAccUpdate
      (idle (resultsOf []) fun _ => 0)).any (fun r => r.1) = true := by
    decide
  obtain ⟨⟨b, s'⟩, hrun, -⟩ := (Option.any_eq_true _ _).mp hsome
  refine ⟨s', b, (all_or_nothing_iff (.of_runAlone hrun)).mpr fun _ axis => ?_⟩
  cases axis <;> decide

/-! ### Own registers -/

/-- The value of a word. -/
theorem word_toNat (high low : UInt8) : (word high low).toNat = 256 * high.toNat + low.toNat := by
  have hhigh := high.toNat_lt
  have hlow := low.toNat_lt
  have hshift : (high.toUInt16 <<< 8).toNat = high.toNat <<< 8 := by
    rw [UInt16.toNat_shiftLeft]
    show high.toNat <<< 8 % 2 ^ 16 = _
    rw [Nat.shiftLeft_eq]
    omega
  rw [word, UInt16.toNat_or, hshift, UInt8.toNat_toUInt16, ← Nat.shiftLeft_add_eq_or_of_lt hlow,
    Nat.shiftLeft_eq]
  omega

/-- A `uint16_t` variable that is no buffer, as the target of `axis_val`. -/
structure OutParam (F : Type) where
  get : MpuC F → UInt16
  store : UInt16 → MpuC F → MpuC F
  get_store : ∀ w c, get (store w c) = w
  get_buffers : ∀ (c : MpuC F) tx rx, get { c with txbuf := tx, rxbuf := rx } = get c

/-- The two registers of the axis, as one value. -/
def ownValue (regs : UInt8 → UInt8) (axis : AccAxis) : Nat :=
  256 * (regs axis.code).toNat + (regs (axis.code + 1)).toNat

/-- The variable holds the value of the axis if its read returned `MSG_OK`, else
its old value. -/
structure OwnRegisters (regs : UInt8 → UInt8) (axis : AccAxis) (msg : Msg) (old new : UInt16) :
    Prop where
  decoded : msg = .MSG_OK → new.toNat = ownValue regs axis
  kept : msg ≠ .MSG_OK → new = old

/-- The row variable of an axis. -/
def MpuC.rowOf (c : MpuC F) : AccAxis → UInt16
  | .ACC_AXIS_X => c.axisRowX
  | .ACC_AXIS_Y => c.axisRowY
  | .ACC_AXIS_Z => c.axisRowZ

/-- The value made of the wrong low byte is right when the two bytes agree. -/
theorem word_eq_ownValue_iff (regs : UInt8 → UInt8) (axis : AccAxis) :
    (word (regs axis.code) (regs (axis.code + 2))).toNat = ownValue regs axis ↔
      regs (axis.code + 2) = regs (axis.code + 1) := by
  rw [word_toNat, ownValue, ← UInt8.toNat_inj]
  omega

/-- A read that stores the upper byte with the one two registers on has the axis's own
word exactly when that register agrees with the lower byte's. -/
theorem ownRegisters_iff {regs : UInt8 → UInt8} {axis : AccAxis} {msg : Msg} {old new : UInt16}
    (hok : msg = .MSG_OK → new = word (regs axis.code) (regs (axis.code + 2)))
    (hfail : msg ≠ .MSG_OK → new = old) : OwnRegisters regs axis msg old new ↔
      (msg = .MSG_OK → regs (axis.code + 2) = regs (axis.code + 1)) := by
  constructor
  · intro h hmsg
    rw [← word_eq_ownValue_iff, ← hok hmsg]
    exact h.decoded hmsg
  · intro h
    refine ⟨fun hmsg => ?_, hfail⟩
    rw [hok hmsg]
    exact (word_eq_ownValue_iff regs axis).mpr (h hmsg)

/-- Without a sample the bytes of a word are those of the registers. -/
theorem wordOf_none (t : Tid) (s : Sys F) (axis : AccAxis) :
    (mpuView t (s, .none)).wordOf axis = word (s.regs axis.code) (s.regs (axis.code + 2)) := by
  rw [MpuView.wordOf, MpuView.regsAfter_none rfl, MpuView.regsAfter_none rfl]
  rfl

/-- The row variables after a run of `mpu_acc_update`. -/
theorem rowOf_update [CFloat F] {v v' : MpuView F} {b : Bool}
    (h : runAlone (mpuMachine F) () mpuAccUpdate v = some (b, v')) (axis : AccAxis) :
    v'.mpu.rowOf axis = v.row axis (v.mpu.rowOf axis) := by
  obtain ⟨-, tx, rx, hmpu⟩ := update_of_run h
  rw [hmpu]
  split
  · cases axis <;> rfl
  · cases axis <;> rfl

/-- A read stores the value of its own two registers exactly when it fails or the
register after the two holds what the low one holds. The same goes for the row
variables of an update. -/
theorem own_registers_iff [CFloat F] {t : Tid} {s s' : Sys F} :
    (∀ (axis : AccAxis) (out : OutParam F) (msg : Msg),
      Exec (machine F) t (Aside t) (mpuReadAccAxis axis out.store) s msg s' →
        (OwnRegisters s.regs axis msg (out.get s.mpu) (out.get s'.mpu) ↔
          ((s.results t 0).msg = .MSG_OK ∧ (s.results t 1).msg = .MSG_OK →
            s.regs (axis.code + 2) = s.regs (axis.code + 1)))) ∧
    (∀ b, Exec (machine F) t (Aside t) mpuAccUpdate s b s' →
      ((∀ axis, OwnRegisters s.regs axis (readMsg (s.results t) axis) (s.mpu.rowOf axis)
        (s'.mpu.rowOf axis)) ↔
          ∀ axis, readMsg (s.results t) axis = .MSG_OK →
            s.regs (axis.code + 2) = s.regs (axis.code + 1))) := by
  constructor
  · intro axis out msg he
    obtain ⟨tx, rx, m, hread⟩ := readAxis_eq axis out.store (mpuView t (s, .none))
    have hrun := run_of_exec (ofMpu_mpuReadAccAxis axis out.store) he
    rw [run_mpuReadAccAxis, hread] at hrun
    obtain ⟨rfl, hview⟩ := Prod.mk.inj (Option.some.inj hrun)
    have hmpu : s'.mpu = if axisMsg (s.results t) = .MSG_OK then
        out.store ((mpuView t (s, .none)).axisWord axis) { s.mpu with txbuf := tx, rxbuf := rx }
        else { s.mpu with txbuf := tx, rxbuf := rx } := (congrArg MpuView.mpu hview).symm
    have hword : (mpuView t (s, .none)).axisWord axis =
        word (s.regs axis.code) (s.regs (axis.code + 2)) := by
      rw [MpuView.axisWord, MpuView.regsAfter_none rfl, MpuView.regsAfter_none rfl]
      rfl
    rw [← axisMsg_eq_ok_iff]
    show OwnRegisters s.regs axis (axisMsg (s.results t)) _ _ ↔ _
    refine ownRegisters_iff (fun hok => ?_) fun hfail => ?_
    · rw [hmpu, if_pos hok, out.get_store, hword]
    · rw [hmpu, if_neg hfail, out.get_buffers]
  · intro b he
    have hrows := rowOf_update (run_of_exec ofMpu_mpuAccUpdate he)
    refine forall_congr' fun axis => ownRegisters_iff (fun hmsg => ?_) fun hmsg => ?_
    · rw [← wordOf_none t s axis]
      exact (hrows axis).trans (if_pos hmsg)
    · exact (hrows axis).trans (if_neg hmsg)

/-- The row variable of the x axis, as the target of `axis_val`. -/
def rowX : OutParam F where
  get := MpuC.axisRowX
  store := storeX
  get_store _ _ := rfl
  get_buffers _ _ _ := rfl

/-- With every register holding its own address, the low byte of the x axis is the
high byte of the y axis. -/
theorem reads_next_register :
    ¬∀ (t : Tid) (s s' : Sys Float32) (axis : AccAxis) (out : OutParam Float32) (msg : Msg),
      Exec (machine Float32) t (Aside t) (mpuReadAccAxis axis out.store) s msg s' →
        OwnRegisters s.regs axis msg (out.get s.mpu) (out.get s'.mpu) := by
  intro h
  have hsome : (runAlone (machine Float32) .mpu (mpuReadAccAxis .ACC_AXIS_X storeX)
      (idle (resultsOf []) id)).any
        (fun r => decide (r.1 = .MSG_OK ∧ r.2.mpu.axisRowX = 0x3B3D)) = true := by
    decide +kernel
  obtain ⟨⟨msg, s'⟩, hrun, hr⟩ := (Option.any_eq_true _ _).mp hsome
  obtain ⟨hmsg, hrow⟩ := of_decide_eq_true hr
  have hdecoded := (h .mpu _ s' .ACC_AXIS_X rowX msg (.of_runAlone hrun)).decoded hmsg
  have hvalue : rowX.get s'.mpu = 0x3B3D := hrow
  rw [hvalue] at hdecoded
  exact absurd hdecoded (by decide)

/-- Every register holds its own address, but for `0x3D`, which holds what the one before it
does. -/
def repeatedRegs (reg : UInt8) : UInt8 := if reg = 0x3D then 0x3C else reg

/-- Then the x axis is read as its own two registers. -/
theorem own_registers_iff_repeated : ∃ (s' : Sys Float32) (msg : Msg),
    rowX.get s'.mpu = 0x3B3C ∧ OwnRegisters repeatedRegs .ACC_AXIS_X msg 0 (rowX.get s'.mpu) := by
  have hsome : (runAlone (machine Float32) .mpu (mpuReadAccAxis .ACC_AXIS_X rowX.store)
      (idle (resultsOf []) repeatedRegs)).any (fun r => r.2.mpu.axisRowX = 0x3B3C) = true := by
    decide +kernel
  obtain ⟨⟨msg, s'⟩, hrun, hrow⟩ := (Option.any_eq_true _ _).mp hsome
  exact ⟨s', msg, of_decide_eq_true hrow,
    (own_registers_iff.1 .ACC_AXIS_X rowX msg (.of_runAlone hrun)).mpr fun _ => rfl⟩

end MotionTracking
