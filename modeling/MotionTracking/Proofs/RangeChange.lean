import MotionTracking.Proofs.LockDiscipline
import MotionTracking.Proofs.Scaling

/-!
# `MotionTracking.Proofs.RangeChange`: `acc_scale_ref` and the sensor's range

`mpu_acc_range` assigns `acc_scale_ref` before its transfer, and does not restore it
when the transfer fails. The sensor takes the range only when the transfer
succeeds.

`range_in_step_iff` is about a sequence of calls, with any results and beside other
threads that leave the variables alone. After each of them `acc_scale_ref` is the
factor of the range in `ACCEL_CONFIG` exactly when every call that fails asked for
the range that the sensor has. Whether the thread gets out of a call at all is not
its subject: a call that fails keeps `mpu.c`'s mutex (`lock_discipline_iff`).
-/

set_option autoImplicit false

namespace MotionTracking

open Threads (Exec runAlone)

variable {F : Type}

/-- Calls of `mpu_acc_range` by thread `t`, one after the other, and the state after
each of them. -/
inductive RangeCalls [CFloat F] (t : Tid) : Sys F → List AccelRange → List (Sys F) → Prop where
  | nil (s : Sys F) : RangeCalls t s [] []
  | cons {s s' : Sys F} {range : AccelRange} {b : Bool} {ranges : List AccelRange}
      {ss : List (Sys F)} : Exec (machine F) t (Aside t) (mpuAccRange range) s b s' →
      RangeCalls t s' ranges ss → RangeCalls t s (range :: ranges) (s' :: ss)

/-- `acc_scale_ref` is the factor of the range that the sensor has accepted. -/
def InStep [CFloat F] (s : Sys F) : Prop :=
  ∃ range : AccelRange, s.regs ACCEL_CONFIG = range.code ∧ s.mpu.accScaleRef = accScale range

/-- With `config` in `ACCEL_CONFIG`, every call that fails asks for the factor that
belongs to the register. -/
def FailuresHarmless (F : Type) [CFloat F] (config : UInt8) (results : Nat → I2CResult) :
    List AccelRange → Prop
  | [] => True
  | range :: ranges =>
      if (results 0).msg = .MSG_OK then
        FailuresHarmless F range.code (fun n => results (n + 1)) ranges
      else
        (∃ r : AccelRange, config = r.code ∧ (accScale range : F) = accScale r) ∧
          FailuresHarmless F config (fun n => results (n + 1)) ranges

section
variable [CFloat F] {t : Tid} {s s' : Sys F} {range : AccelRange} {b : Bool}

/-- A successful call leaves the two in step. -/
theorem inStep_of_ok (he : Exec (machine F) t (Aside t) (mpuAccRange range) s b s')
    (hok : (s.results t 0).msg = .MSG_OK) : s'.regs ACCEL_CONFIG = range.code ∧ InStep s' := by
  obtain ⟨-, hscale, hregs, -⟩ := exec_mpuAccRange he
  have hconfig : s'.regs ACCEL_CONFIG = range.code := by
    rw [hregs, if_pos hok, Function.update_self]
  exact ⟨hconfig, range, hconfig, hscale⟩

/-- A failed call leaves the register, and the factor it asked for. -/
theorem inStep_of_failed (he : Exec (machine F) t (Aside t) (mpuAccRange range) s b s')
    (hfail : (s.results t 0).msg ≠ .MSG_OK) :
    s'.regs ACCEL_CONFIG = s.regs ACCEL_CONFIG ∧ (InStep s' ↔
      ∃ r : AccelRange, s.regs ACCEL_CONFIG = r.code ∧ (accScale range : F) = accScale r) := by
  obtain ⟨-, hscale, hregs, -⟩ := exec_mpuAccRange he
  have hconfig : s'.regs ACCEL_CONFIG = s.regs ACCEL_CONFIG := by
    rw [hregs, if_neg hfail]
  refine ⟨hconfig, ?_⟩
  rw [InStep, hconfig, hscale]

/-- After every call the factor is that of the range in the register exactly when
the failures are harmless. -/
theorem range_in_step_iff {ranges : List AccelRange} {ss : List (Sys F)}
    (h : RangeCalls t s ranges ss) :
    (∀ s' ∈ ss, InStep s') ↔ FailuresHarmless F (s.regs ACCEL_CONFIG) (s.results t) ranges := by
  induction h with
  | nil s => simp [FailuresHarmless]
  | @cons s s' range b ranges ss he _ ih =>
      obtain ⟨-, -, -, hresults⟩ := exec_mpuAccRange he
      rw [List.forall_mem_cons, ih, hresults, FailuresHarmless]
      by_cases hok : (s.results t 0).msg = .MSG_OK
      · obtain ⟨hconfig, hstep⟩ := inStep_of_ok he hok
        rw [if_pos hok, hconfig]
        exact and_iff_right hstep
      · obtain ⟨hconfig, hstep⟩ := inStep_of_failed he hok
        rw [if_neg hok, hconfig, hstep]

end

/-- The range of `mpu_init` is accepted, the next one fails. -/
theorem failed_range_kept :
    ¬∀ (t : Tid) (s₀ s : Sys Exact) (ranges : List AccelRange) (ss : List (Sys Exact)),
      Exec (machine Exact) t (Aside t) mpuInit s₀ () s → RangeCalls t s ranges ss →
        ∀ s' ∈ ss, InStep s' := by
  intro h
  have hsome : (runAlone (machine Exact) .main mpuInit (atMpuInit (failsAt 5))).any (fun r =>
      decide (r.2.regs ACCEL_CONFIG = 0x18 ∧ (r.2.results .main 0).msg ≠ .MSG_OK) &&
        (runAlone (machine Exact) .main (mpuAccRange .ACCEL_RANGE_2G) r.2).any
          fun _ => true) = true := by
    decide +kernel
  obtain ⟨⟨_, s⟩, hinit, hs⟩ := (Option.any_eq_true _ _).mp hsome
  rw [Bool.and_eq_true] at hs
  obtain ⟨hconfig, hfail⟩ := of_decide_eq_true hs.1
  obtain ⟨⟨b, s'⟩, hrun, -⟩ := (Option.any_eq_true _ _).mp hs.2
  have he : Exec (machine Exact) .main (Aside .main) (mpuAccRange .ACCEL_RANGE_2G) s b s' :=
    .of_runAlone hrun
  have hstep := h .main _ s [.ACCEL_RANGE_2G] [s'] (.of_runAlone hinit) (.cons he (.nil s')) s'
    List.mem_cons_self
  -- The register holds the code of 16 g, the factor is that of 2 g.
  obtain ⟨range, hcode, hscale⟩ := (inStep_of_failed he hfail).2.mp hstep
  have hrange : range = .ACCEL_RANGE_16G := by
    rw [hconfig] at hcode
    cases range with
    | ACCEL_RANGE_16G => rfl
    | _ => exact absurd hcode (by decide)
  rw [hrange, accScale_exact, accScale_exact] at hscale
  have hreal := Option.some.inj hscale
  norm_num [AccelRange.magnitude] at hreal

/-- Two ranges are accepted, and a call that asks for the second one again fails. The failure
leaves the two in step. -/
theorem range_in_step_iff_harmless : ∃ s₁ s₂ s₃ : Sys Exact,
    (s₂.results .main 0).msg = .MSG_RESET ∧ ∀ s' ∈ [s₁, s₂, s₃], InStep s' := by
  have hsome : (runAlone (machine Exact) .main (mpuAccRange .ACCEL_RANGE_4G)
      (idle (failsAt 2) fun _ => 0)).any (fun r₁ =>
        (runAlone (machine Exact) .main (mpuAccRange .ACCEL_RANGE_8G) r₁.2).any fun r₂ =>
          (r₂.2.results .main 0).msg = .MSG_RESET &&
            (runAlone (machine Exact) .main (mpuAccRange .ACCEL_RANGE_8G) r₂.2).any
              fun _ => true) = true := by
    decide +kernel
  obtain ⟨⟨b₁, s₁⟩, hrun₁, hs₁⟩ := (Option.any_eq_true _ _).mp hsome
  obtain ⟨⟨b₂, s₂⟩, hrun₂, hs₂⟩ := (Option.any_eq_true _ _).mp hs₁
  obtain ⟨hreset, hnext⟩ := Bool.and_eq_true_iff.mp hs₂
  obtain ⟨⟨b₃, s₃⟩, hrun₃, -⟩ := (Option.any_eq_true _ _).mp hnext
  have hcalls := RangeCalls.cons (.of_runAlone hrun₁)
    (.cons (.of_runAlone hrun₂) (.cons (.of_runAlone hrun₃) (.nil s₃)))
  refine ⟨s₁, s₂, s₃, of_decide_eq_true hreset, (range_in_step_iff hcalls).mpr ?_⟩
  -- The third call fails, and asks for the range of the second.
  exact ⟨⟨.ACCEL_RANGE_8G, rfl, rfl⟩, trivial⟩

end MotionTracking
