import Mathlib.Algebra.Order.Floor.Ring
import Mathlib.Data.Int.Log
import Mathlib.Data.Rat.Floor
import Mathlib.Tactic.FieldSimp
import Mathlib.Tactic.Linarith
import Mathlib.Tactic.Positivity
import Mathlib.Tactic.Ring

/-!
# `MotionTracking.Arith.Rounding`: binary numbers of a fixed precision

`Representable p emin x` says that `x` is an integer of at most `p` bits times a
power of two that is at least `2 ^ emin`. A `Rounding` is any monotone function
to these numbers that leaves them alone, whatever it does with ties. Proofs about
code that computes with such numbers then hold for every rounding mode.

`Rounding.towardZero` is one of them, so the type has an element that computes.
-/

set_option autoImplicit false

namespace Arith

/-- `x` has at most `p` significant bits, none of them below `2 ^ emin`. -/
def Representable (p : ℕ) (emin : ℤ) (x : ℚ) : Prop :=
  ∃ m e : ℤ, |m| < 2 ^ p ∧ emin ≤ e ∧ x = m * 2 ^ e

namespace Representable

variable {p q : ℕ} {emin emin' : ℤ} {x y : ℚ}

/-- Zero is a number of every format. -/
theorem zero (p : ℕ) (emin : ℤ) : Representable p emin 0 :=
  ⟨0, emin, by simp, le_rfl, by simp⟩

/-- The formats are symmetric, they have a sign bit. -/
theorem neg (h : Representable p emin x) : Representable p emin (-x) := by
  obtain ⟨m, e, hm, he, rfl⟩ := h
  exact ⟨-m, e, by rwa [abs_neg], he, by push_cast; ring⟩

/-- More digits and a lower least exponent lose no number. -/
theorem mono (h : Representable p emin x) (hp : p ≤ q) (he : emin' ≤ emin) :
    Representable q emin' x := by
  obtain ⟨m, e, hm, hemin, hx⟩ := h
  exact ⟨m, e, hm.trans_le (pow_le_pow_right₀ one_le_two hp), he.trans hemin, hx⟩

/-- The fraction of a number has no more bits than the number. -/
theorem fract (h : Representable p emin x) (h0 : 0 ≤ x) : Representable p emin (Int.fract x) := by
  obtain ⟨m, e, hm, he, rfl⟩ := h
  have hpow : (0 : ℚ) < 2 ^ e := zpow_pos two_pos e
  have hm0 : 0 ≤ m := by
    have hq : (0 : ℚ) ≤ m := nonneg_of_mul_nonneg_left h0 hpow
    exact_mod_cast hq
  rcases le_or_gt 0 e with hpos | hneg
  · -- An integer: no fraction.
    obtain ⟨j, rfl⟩ := Int.eq_ofNat_of_zero_le hpos
    have hint : ((m : ℚ) * 2 ^ ((j : ℕ) : ℤ)) = ((m * 2 ^ j : ℤ) : ℚ) := by push_cast; simp
    rw [hint, Int.fract_intCast]
    exact zero p emin
  · -- The low `-e` bits of `m`.
    obtain ⟨j, hj⟩ := Int.eq_ofNat_of_zero_le (by omega : 0 ≤ -e)
    have hexp : e = -((j : ℕ) : ℤ) := by omega
    have hmod : m % 2 ^ j ≤ m := by
      have hdiv : 0 ≤ m / 2 ^ j := Int.ediv_nonneg hm0 (by positivity)
      have hsplit := Int.emod_add_mul_ediv m (2 ^ j)
      have hprod : 0 ≤ 2 ^ j * (m / 2 ^ j) := mul_nonneg (by positivity) hdiv
      omega
    have hmod0 : 0 ≤ m % 2 ^ j := Int.emod_nonneg m (by positivity)
    have hvalue : Int.fract ((m : ℚ) * 2 ^ e) = ((m % 2 ^ j : ℤ) : ℚ) * 2 ^ e := by
      have hdiv : (m : ℚ) * 2 ^ e = (m : ℚ) / ((2 ^ j : ℕ) : ℚ) := by
        rw [hexp, zpow_neg, zpow_natCast]
        push_cast
        rw [div_eq_mul_inv]
      rw [hdiv, Int.fract_div_intCast_eq_div_intCast_mod, hexp, zpow_neg, zpow_natCast]
      push_cast
      rw [div_eq_mul_inv]
    rw [hvalue]
    refine ⟨m % 2 ^ j, e, ?_, he, rfl⟩
    rw [abs_of_nonneg hmod0]
    exact lt_of_le_of_lt hmod (by rwa [abs_of_nonneg hm0] at hm)

/-- Times a natural number of `q` bits, not counting trailing zeros. -/
theorem mul_natCast (h : Representable p emin x) {a j : ℕ} (ha : a < 2 ^ q) :
    Representable (p + q) emin (x * ((a * 2 ^ j : ℕ) : ℚ)) := by
  obtain ⟨m, e, hm, he, rfl⟩ := h
  have habs : |m * (a : ℤ)| < 2 ^ (p + q) := by
    rw [abs_mul, pow_add, Nat.abs_cast]
    have haq : (a : ℤ) < 2 ^ q := by exact_mod_cast ha
    have h0 : (0 : ℤ) ≤ a := Int.natCast_nonneg a
    exact mul_lt_mul'' hm haq (abs_nonneg m) h0
  refine ⟨m * a, e + j, habs, by omega, ?_⟩
  rw [zpow_add₀ two_ne_zero, zpow_natCast]
  push_cast
  ring

end Representable

/-! ### Rounding -/

/-- A rounding to the numbers of precision `p`. -/
structure Rounding (p : ℕ) (emin : ℤ) where
  round : ℚ → ℚ
  representable (x : ℚ) : Representable p emin (round x)
  fixes (x : ℚ) (h : Representable p emin x) : round x = x
  mono : Monotone round

namespace Rounding

variable {p : ℕ} {emin : ℤ} (R : Rounding p emin) {x y : ℚ}

/-- A bound that is representable survives the rounding. -/
theorem round_le (hy : Representable p emin y) (h : x ≤ y) : R.round x ≤ y := by
  rw [← R.fixes y hy]
  exact R.mono h

/-- A number of the format below `y` stays below the rounded `y`. -/
theorem le_round (hx : Representable p emin x) (h : x ≤ y) : x ≤ R.round y := by
  rw [← R.fixes x hx]
  exact R.mono h

end Rounding

/-! ### Chopping -/

/-- The weight of the last of the `p` bits of a positive number. -/
def lastBit (p : ℕ) (emin : ℤ) (x : ℚ) : ℤ := max emin (Int.log 2 x - p + 1)

/-- The first `p` bits of a number that is not negative. -/
def chop (p : ℕ) (emin : ℤ) (x : ℚ) : ℚ :=
  ⌊x / 2 ^ lastBit p emin x⌋ * 2 ^ lastBit p emin x

section
variable {p : ℕ} {emin : ℤ} {x y : ℚ}

/-- Chopping goes down. -/
theorem chop_le (p : ℕ) (emin : ℤ) (x : ℚ) : chop p emin x ≤ x := by
  have hpow : (0 : ℚ) < 2 ^ lastBit p emin x := zpow_pos two_pos _
  have hfloor := Int.floor_le (x / 2 ^ lastBit p emin x)
  rwa [le_div_iff₀ hpow] at hfloor

/-- Chopping does not go below zero. -/
theorem chop_nonneg (h0 : 0 ≤ x) : 0 ≤ chop p emin x := by
  have hpow : (0 : ℚ) < 2 ^ lastBit p emin x := zpow_pos two_pos _
  have hfloor : 0 ≤ ⌊x / 2 ^ lastBit p emin x⌋ := Int.floor_nonneg.mpr (div_nonneg h0 hpow.le)
  exact mul_nonneg (Int.cast_nonneg hfloor) hpow.le

/-- What is left after chopping is a number of the format. -/
theorem chop_representable (h0 : 0 ≤ x) : Representable p emin (chop p emin x) := by
  have hpow : (0 : ℚ) < 2 ^ lastBit p emin x := zpow_pos two_pos _
  have hfloor : 0 ≤ ⌊x / 2 ^ lastBit p emin x⌋ := Int.floor_nonneg.mpr (div_nonneg h0 hpow.le)
  refine ⟨_, lastBit p emin x, ?_, le_max_left _ _, rfl⟩
  rw [abs_of_nonneg hfloor, Int.floor_lt, div_lt_iff₀ hpow]
  -- `x` is below the power of two after its leading bit.
  have hlog : x < 2 ^ (Int.log 2 x + 1) := Int.lt_zpow_succ_log_self one_lt_two x
  have hle : Int.log 2 x + 1 ≤ (p : ℤ) + lastBit p emin x := by
    have hmax : Int.log 2 x - p + 1 ≤ lastBit p emin x := le_max_right _ _
    omega
  calc x < 2 ^ (Int.log 2 x + 1) := hlog
    _ ≤ 2 ^ ((p : ℤ) + lastBit p emin x) := zpow_le_zpow_right₀ one_le_two hle
    _ = ((2 ^ p : ℤ) : ℚ) * 2 ^ lastBit p emin x := by
        rw [zpow_add₀ two_ne_zero, zpow_natCast]
        push_cast
        rfl

/-- An integer multiple of the last bit below `x` is below the chopped `x`. -/
theorem le_chop_of_multiple {n : ℤ} (h : n * 2 ^ lastBit p emin x ≤ x) :
    n * 2 ^ lastBit p emin x ≤ chop p emin x := by
  have hpow : (0 : ℚ) < 2 ^ lastBit p emin x := zpow_pos two_pos _
  have hfloor : n ≤ ⌊x / 2 ^ lastBit p emin x⌋ := by
    rw [Int.le_floor, le_div_iff₀ hpow]
    exact h
  exact mul_le_mul_of_nonneg_right (Int.cast_le.mpr hfloor) hpow.le

/-- No representable number lies between the chopped `x` and `x`. -/
theorem le_chop (hp : 0 < p) (hy : Representable p emin y) (hx : 0 < x) (hle : y ≤ x) :
    y ≤ chop p emin x := by
  obtain ⟨m, e, hm, he, rfl⟩ := hy
  rcases le_or_gt (lastBit p emin x) e with hbit | hbit
  · -- All bits of `y` are in place.
    obtain ⟨j, hj⟩ := Int.eq_ofNat_of_zero_le (by omega : 0 ≤ e - lastBit p emin x)
    have hy : (m : ℚ) * 2 ^ e = ((m * 2 ^ j : ℤ) : ℚ) * 2 ^ lastBit p emin x := by
      have hexp : e = (j : ℤ) + lastBit p emin x := by omega
      rw [hexp, zpow_add₀ two_ne_zero, zpow_natCast]
      push_cast
      ring
    rw [hy] at hle ⊢
    exact le_chop_of_multiple hle
  · -- `y` is below the leading bit of `x`.
    have hlast : lastBit p emin x = Int.log 2 x - p + 1 := by
      have hcases : lastBit p emin x = emin ∨ lastBit p emin x = Int.log 2 x - p + 1 :=
        max_choice _ _
      omega
    have hlead : (2 : ℚ) ^ Int.log 2 x = ((2 ^ (p - 1) : ℤ) : ℚ) * 2 ^ lastBit p emin x := by
      have hexp : Int.log 2 x = ((p - 1 : ℕ) : ℤ) + lastBit p emin x := by omega
      conv_lhs => rw [hexp]
      rw [zpow_add₀ two_ne_zero, zpow_natCast]
      push_cast
      rfl
    have hlow : (m : ℚ) * 2 ^ e ≤ 2 ^ Int.log 2 x := by
      have hmq : (m : ℚ) ≤ 2 ^ p := by
        have hmi : m ≤ 2 ^ p := (le_abs_self m).trans hm.le
        exact_mod_cast hmi
      calc (m : ℚ) * 2 ^ e ≤ 2 ^ p * 2 ^ e :=
            mul_le_mul_of_nonneg_right hmq (zpow_pos two_pos e).le
        _ = 2 ^ ((p : ℤ) + e) := by rw [zpow_add₀ two_ne_zero, zpow_natCast]
        _ ≤ 2 ^ Int.log 2 x := zpow_le_zpow_right₀ one_le_two (by omega)
    have hmul : ((2 ^ (p - 1) : ℤ) : ℚ) * 2 ^ lastBit p emin x ≤ x := by
      rw [← hlead]
      exact Int.zpow_log_le_self one_lt_two hx
    calc (m : ℚ) * 2 ^ e ≤ 2 ^ Int.log 2 x := hlow
      _ = ((2 ^ (p - 1) : ℤ) : ℚ) * 2 ^ lastBit p emin x := hlead
      _ ≤ chop p emin x := le_chop_of_multiple hmul

/-- Chopping leaves the numbers of the format as they are. -/
theorem chop_of_representable (hp : 0 < p) (h : Representable p emin x) (h0 : 0 < x) :
    chop p emin x = x :=
  le_antisymm (chop_le p emin x) (le_chop hp h h0 le_rfl)

/-- Zero is chopped to zero. -/
@[simp] theorem chop_zero (p : ℕ) (emin : ℤ) : chop p emin 0 = 0 := by
  rw [chop, zero_div, Int.floor_zero, Int.cast_zero, zero_mul]

/-- Chopping keeps the order. The two numbers may have different last bits, so the larger
one's lattice is the coarser of the two. -/
theorem chop_mono (hp : 0 < p) (h0 : 0 ≤ x) (h : x ≤ y) : chop p emin x ≤ chop p emin y := by
  rcases (h0.trans h).eq_or_lt with hy | hy
  · have hx : x = 0 := le_antisymm (hy ▸ h) h0
    rw [hx, ← hy]
  · exact le_chop hp (chop_representable h0) hy ((chop_le p emin x).trans h)

end

/-- Rounding toward zero. -/
def Rounding.towardZero (p : ℕ) (emin : ℤ) (hp : 0 < p) : Rounding p emin where
  round x := if 0 ≤ x then chop p emin x else -chop p emin (-x)
  representable x := by
    split
    · rename_i h
      exact chop_representable h
    · rename_i h
      exact (chop_representable (by linarith)).neg
  fixes x h := by
    rcases lt_trichotomy x 0 with hx | rfl | hx
    · rw [if_neg (by linarith), chop_of_representable hp h.neg (by linarith), neg_neg]
    · rw [if_pos le_rfl, chop_zero]
    · rw [if_pos hx.le, chop_of_representable hp h hx]
  mono x y h := by
    show (if 0 ≤ x then _ else _) ≤ (if 0 ≤ y then _ else _)
    split <;> rename_i hx <;> split <;> rename_i hy
    · exact chop_mono hp hx h
    · exact absurd (hx.trans h) hy
    · exact (neg_nonpos.mpr (chop_nonneg (by linarith))).trans (chop_nonneg hy)
    · exact neg_le_neg (chop_mono hp (by linarith) (neg_le_neg h))

end Arith
