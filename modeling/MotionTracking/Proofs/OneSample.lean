import MotionTracking.Proofs.SensorReads

/-!
# `MotionTracking.Proofs.OneSample`: an update and the sensor's samples

The sensor replaces its six data registers, a sample, at times of its own. An
update reads them in six transfers, so the sensor can take a new sample between
any two of its bytes.

A schedule says before which transfers of the update the sensor takes a new
sample. `OneSample` asks for one schedule, and for every contents of the
registers and of the samples, that the three row values of an update that
publishes are those of one sample: the one in the registers at the call, or one
taken since.

`one_sample_iff`: this is so exactly when all transfers succeed and no sample is
taken before the second to the fifth. A sample before the first is the one that
is read. The sixth transfer reads a register that is no part of a sample
(`own_registers_iff`). An update that publishes although a read failed keeps a
row value of an earlier sample.
-/

set_option autoImplicit false

namespace MotionTracking

open Threads (Exec runAlone)

variable {F : Type}

/-- The samples `data`, taken before the transfers that `taken` marks. -/
def schedule (taken : Nat → Bool) (data : Nat → UInt8 → UInt8) : Samples :=
  fun n => if taken n then some (data n) else none

/-- The row values are those that one update without samples reads. -/
def RowsOf (regs : UInt8 → UInt8) (c : MpuC F) : Prop :=
  ∀ axis, c.rowOf axis = word (regs axis.code) (regs (axis.code + 2))

/-- Whatever the registers and the samples hold, an update that publishes has the
row values of one sample. -/
def OneSample [CFloat F] (t : Tid) (s : Sys F) (taken : Nat → Bool) : Prop :=
  ∀ (regs : UInt8 → UInt8) (data : Nat → UInt8 → UInt8) (s' : Sys F × Samples),
    Exec (sampledMachine F) t (AsideSampled t) mpuAccUpdate
      ({ s with regs := regs }, schedule taken data) true s' →
    ∃ sample, (sample = regs ∨ ∃ n, taken n = true ∧ sample = resample (some (data n)) regs) ∧
      RowsOf sample s'.1.mpu

/-! ### The rows of a scheduled update -/

/-- A word has one upper and one lower byte. -/
theorem word_inj {h l h' l' : UInt8} (heq : word h l = word h' l') : h = h' ∧ l = l' := by
  have hnat := congrArg UInt16.toNat heq
  rw [word_toNat, word_toNat] at hnat
  have hl := l.toNat_lt
  have hl' := l'.toNat_lt
  constructor
  · exact UInt8.toNat_inj.mp (by omega)
  · exact UInt8.toNat_inj.mp (by omega)

/-- With all reads successful, every axis takes two transfers. -/
theorem readStart_of_all {results : Nat → I2CResult}
    (h : ∀ axis, readMsg results axis = .MSG_OK) (axis : AccAxis) :
    readStart results axis =
      match axis with
      | .ACC_AXIS_X => 0
      | .ACC_AXIS_Y => 2
      | .ACC_AXIS_Z => 4 := by
  have htwo : ∀ res : Nat → I2CResult, axisMsg res = .MSG_OK → axisTransfers res = 2 := by
    intro res hres
    exact if_neg (not_not_intro ((axisMsg_eq_ok_iff res).mp hres).1)
  have hx : axisTransfers results = 2 := by
    refine htwo results ?_
    have hX := h .ACC_AXIS_X
    rw [axisMsg_eq_ok_iff]
    exact (axisMsg_eq_ok_iff _).mp hX
  cases axis with
  | ACC_AXIS_X => rfl
  | ACC_AXIS_Y => exact hx
  | ACC_AXIS_Z =>
      have hy : axisTransfers (fun k => results (axisTransfers results + k)) = 2 :=
        htwo _ (h .ACC_AXIS_Y)
      show axisTransfers results + axisTransfers (fun k => results (axisTransfers results + k)) = 4
      rw [hy, hx]

/-- The registers after transfers before which no sample came. -/
theorem regsAfter_succ_of_none {v : MpuView F} {n : Nat} (h : v.samples n = none) :
    v.regsAfter (n + 1) = v.regsAfter n := by
  show resample (v.samples n) (v.regsAfter n) = v.regsAfter n
  rw [h]
  rfl

/-- A data register holds `b` from a sample of `b`s on, when the later samples are
of `b`s too. -/
theorem regsAfter_of_const {v : MpuView F} {b reg : UInt8} {n : Nat} (hreg : isDataReg reg = true)
    (hn : v.samples n = some fun _ => b)
    (hlater : ∀ k, n < k → v.samples k = none ∨ v.samples k = some fun _ => b) (k : Nat) :
    v.regsAfter (n + 1 + k) reg = b := by
  induction k with
  | zero =>
      show resample (v.samples n) (v.regsAfter n) reg = b
      rw [hn]
      exact if_pos hreg
  | succ k ih =>
      show resample (v.samples (n + 1 + k)) (v.regsAfter (n + 1 + k)) reg = b
      rcases hlater (n + 1 + k) (by omega) with h | h
      · rw [h]
        exact ih
      · rw [h]
        exact if_pos hreg

/-! ### The condition -/

section
variable [CFloat F] {t : Tid} {s : Sys F} {taken : Nat → Bool}

/-- An update under a schedule, and what it leaves in the row variables. -/
theorem exists_update (taken : Nat → Bool) (regs : UInt8 → UInt8) (data : Nat → UInt8 → UInt8)
    (hany : ∃ axis, readMsg (s.results t) axis = .MSG_OK) : ∃ s' : Sys F × Samples,
      Exec (sampledMachine F) t (AsideSampled t) mpuAccUpdate
        ({ s with regs := regs }, schedule taken data) true s' ∧
      ∀ axis, s'.1.mpu.rowOf axis =
        (mpuView t ({ s with regs := regs }, schedule taken data)).row axis (s.mpu.rowOf axis) := by
  obtain ⟨b, s', he⟩ := exists_exec t ofMpu_mpuAccUpdate
    ({ s with regs := regs }, schedule taken data)
  have hrun := run_of_exec_sampled ofMpu_mpuAccUpdate he
  have hb : b = true := by
    rw [(update_of_run hrun).1]
    exact decide_eq_true ((anyRead_iff _).mpr hany)
  subst hb
  exact ⟨s', he, rowOf_update hrun⟩

/-- A read that failed leaves a row value that need not be in the sensor. -/
theorem OneSample.all_read (h : OneSample t s taken)
    (hany : ∃ axis, readMsg (s.results t) axis = .MSG_OK) (axis : AccAxis) :
    readMsg (s.results t) axis = .MSG_OK := by
  by_contra hfail
  -- A sensor full of `b`s, whose row values differ from the old one.
  obtain ⟨b, hb⟩ : ∃ b : UInt8, word b b ≠ s.mpu.rowOf axis := by
    by_cases hzero : s.mpu.rowOf axis = 0
    · exact ⟨1, by rw [hzero]; decide⟩
    · exact ⟨0, fun h0 => hzero h0.symm⟩
  obtain ⟨s', he, hrows⟩ := exists_update taken (fun _ => b) (fun _ _ => b) hany
  obtain ⟨sample, hsample, hof⟩ := h _ _ s' he
  have hconst : sample = fun _ => b := by
    rcases hsample with rfl | ⟨n, -, rfl⟩
    · rfl
    · funext reg
      show (if isDataReg reg then b else b) = b
      split <;> rfl
  have hold : s'.1.mpu.rowOf axis = s.mpu.rowOf axis := (hrows axis).trans (if_neg hfail)
  refine hb ?_
  rw [← hold, hof axis, hconst]

/-- A sample taken after the first transfer and before the fifth is in the low byte
of the last row value at the latest, and not in the first byte. -/
theorem OneSample.none_between (h : OneSample t s taken)
    (hall : ∀ axis, readMsg (s.results t) axis = .MSG_OK) {n : Nat} (h1 : 1 ≤ n) (h4 : n ≤ 4) :
    taken n = false := by
  by_contra hn
  have hn : taken n = true := by simpa using hn
  -- Zeros at first, and in a sample before the first transfer. Later samples are of ones.
  let data : Nat → UInt8 → UInt8 := fun k _ => if k = 0 then 0 else 1
  obtain ⟨s', he, hrows⟩ := exists_update taken (fun _ => 0) data ⟨.ACC_AXIS_X, hall _⟩
  obtain ⟨sample, hsample, hof⟩ := h _ _ s' he
  generalize hv : mpuView t ({ s with regs := fun _ => 0 }, schedule taken data) = v at hrows
  have hregs : v.regs = fun _ => 0 := by rw [← hv]; rfl
  have hsamples : v.samples = schedule taken data := by rw [← hv]; rfl
  have hresults : v.results = s.results t := by rw [← hv]; rfl
  have hword : ∀ axis, s'.1.mpu.rowOf axis = v.wordOf axis := by
    intro axis
    rw [hrows axis, MpuView.row, hresults, if_pos (hall axis)]
  have hx : v.regsAfter 1 0x3B = 0 := by
    show resample (v.samples 0) v.regs 0x3B = 0
    rw [hsamples, hregs]
    unfold schedule
    split <;> rfl
  have hone : ∀ k, 1 ≤ k → data k = fun _ => 1 := by
    intro k hk
    funext _
    exact if_neg (by omega)
  have hz : v.regsAfter 5 0x3F = 1 := by
    have hlater : ∀ k, n < k → v.samples k = none ∨ v.samples k = some fun _ => 1 := by
      intro k hk
      rw [hsamples, schedule, hone k (by omega)]
      split
      · exact .inr rfl
      · exact .inl rfl
    have hfirst : v.samples n = some fun _ => 1 := by
      rw [hsamples, schedule, if_pos hn, hone n h1]
    have hdata : isDataReg 0x3F = true := rfl
    have hconst := regsAfter_of_const hdata hfirst hlater (4 - n)
    rwa [show n + 1 + (4 - n) = 5 by omega] at hconst
  have hstart : readStart v.results .ACC_AXIS_Z = 4 := by
    rw [hresults]
    exact readStart_of_all hall .ACC_AXIS_Z
  have hsx : sample 0x3B = 0 := by
    have hxw := (hof .ACC_AXIS_X).symm.trans (hword .ACC_AXIS_X)
    exact (word_inj hxw).1.trans hx
  have hsz : sample 0x3F = 1 := by
    have hzw := (hof .ACC_AXIS_Z).symm.trans (hword .ACC_AXIS_Z)
    rw [MpuView.wordOf, hstart] at hzw
    exact (word_inj hzw).1.trans hz
  have hsame : sample 0x3B = sample 0x3F := by
    rcases hsample with rfl | ⟨m, -, rfl⟩
    · rfl
    · rfl
  rw [hsx, hsz] at hsame
  exact absurd hsame (by decide)

/-- The rows of an update come from one sample exactly when, if the update
publishes, all its reads succeed and no sample is taken before the second to the
fifth transfer. -/
theorem one_sample_iff : OneSample t s taken ↔
    ((∃ axis, readMsg (s.results t) axis = .MSG_OK) →
      (∀ axis, readMsg (s.results t) axis = .MSG_OK) ∧
        ∀ n, 1 ≤ n → n ≤ 4 → taken n = false) := by
  constructor
  · intro h hany
    have hall := h.all_read hany
    exact ⟨hall, fun n h1 h4 => h.none_between hall h1 h4⟩
  · intro h regs data s' he
    have hrun := run_of_exec_sampled ofMpu_mpuAccUpdate he
    have hrows := rowOf_update hrun
    have hany : AnyRead (s.results t) := of_decide_eq_true (update_of_run hrun).1.symm
    obtain ⟨hall, hnone⟩ := h ((anyRead_iff _).mp hany)
    generalize hv : mpuView t ({ s with regs := regs }, schedule taken data) = v at hrows
    have hsamples : v.samples = schedule taken data := by rw [← hv]; rfl
    have hresults : v.results = s.results t := by rw [← hv]; rfl
    -- The sample that the first transfer meets is the one the others meet.
    have hsame : ∀ k, k ≤ 4 → v.regsAfter (1 + k) = v.regsAfter 1 := by
      intro k hk
      induction k with
      | zero => rfl
      | succ k ih =>
          have hno : v.samples (1 + k) = none := by
            rw [hsamples, schedule, hnone (1 + k) (by omega) (by omega)]
            rfl
          rw [← ih (by omega)]
          exact regsAfter_succ_of_none hno
    have hlast : v.regsAfter 6 0x41 = v.regsAfter 1 0x41 := by
      rw [← hsame 4 le_rfl]
      show resample (v.samples 5) (v.regsAfter 5) 0x41 = v.regsAfter 5 0x41
      cases v.samples 5 <;> rfl
    refine ⟨v.regsAfter 1, ?_, fun axis => ?_⟩
    · have hfirst : v.regsAfter 1 = resample (schedule taken data 0) regs := by
        rw [← hsamples, ← hv]
        rfl
      rw [hfirst, schedule]
      by_cases htaken : taken 0 = true
      · rw [if_pos htaken]
        exact .inr ⟨0, htaken, rfl⟩
      · rw [if_neg htaken]
        exact .inl rfl
    · refine (hrows axis).trans ?_
      rw [MpuView.row, hresults, if_pos (hall axis), MpuView.wordOf, hresults,
        readStart_of_all hall]
      cases axis with
      | ACC_AXIS_X => exact congrArg _ (congrFun (hsame 1 (by omega)) _)
      | ACC_AXIS_Y =>
          exact congrArg₂ _ (congrFun (hsame 2 (by omega)) _) (congrFun (hsame 3 (by omega)) _)
      | ACC_AXIS_Z => exact congrArg₂ _ (congrFun (hsame 4 (by omega)) _) hlast

end

/-- On a healthy board, with a sample between the two transfers of the x axis. -/
theorem samples_mixed :
    ¬∀ (t : Tid) (s : Sys Float32) (taken : Nat → Bool), OneSample t s taken := by
  intro h
  have hone := h .mpu (idle (resultsOf []) fun _ => 0) fun n => n = 1
  have hall : ∀ axis, readMsg ((idle (resultsOf []) fun _ => 0 : Sys Float32).results .mpu) axis =
      .MSG_OK := by
    intro axis
    cases axis <;> decide
  have hnone : decide ((1 : Nat) = 1) = false := hone.none_between hall (by decide) (by decide)
  exact absurd hnone (by decide)

end MotionTracking
