import MotionTracking.ChibiOS.Printf
import MotionTracking.Firmware.Mpu

/-!
# `MotionTracking.Firmware.SoftFloat`: rounded arithmetic

The processor has no floating-point unit, so `float` arithmetic is library code.
`Soft` is the instance of `CFloat` for any such library: every result is rounded,
in whatever mode, and what is too large or has no value is `none`. The square
root and the arctangent may be anything.
-/

set_option autoImplicit false

namespace MotionTracking

open Arith (Representable Rounding)
open ChibiOS.Printf (Floats)

/-- A finite `float`. -/
structure Single where
  val : ℚ
  representable : Representable 24 (-149) val
  lt : |val| < 2 ^ 128

/-- A library for floating-point arithmetic. -/
structure FloatLib extends Floats where
  sqrt : UInt32 → Option Single
  atan : Option Single → Option Single

/-- A `float` of the library, `none` when it is not finite. -/
structure Soft (L : FloatLib) where
  float : Option Single

namespace Soft

variable {L : FloatLib}

/-- The number, for a finite `float`. -/
def value (x : Soft L) : Option ℚ := x.float.map Single.val

/-- The rounded result of an operation. -/
def round (L : FloatLib) (q : ℚ) : Soft L :=
  ⟨if h : |L.single.round q| < 2 ^ 128 then some ⟨L.single.round q, L.single.representable q, h⟩
    else none⟩

/-- An operation on finite numbers. -/
def lift (f : ℚ → ℚ → Soft L) (x y : Soft L) : Soft L :=
  ⟨x.float.bind fun a => y.float.bind fun b => (f a.val b.val).float⟩

/-- Every operation is the exact one, rounded. A division by 0 has no number for a result.
-/
instance : CFloat (Soft L) where
  lit q := round L q
  ofUInt16 n := round L n.toNat
  toUInt32 x := UInt32.ofNat ⌊x.value.getD 0⌋₊
  mul := lift fun a b => round L (a * b)
  div := lift fun a b => if b = 0 then ⟨none⟩ else round L (a / b)
  sub := lift fun a b => round L (a - b)
  sqrt n := ⟨L.sqrt n⟩
  atan x := ⟨L.atan x.float⟩

/-- `x` is a number from `lo` to `hi`. -/
def Between (lo hi : ℚ) (x : Soft L) : Prop := ∃ q, x.value = some q ∧ lo ≤ q ∧ q ≤ hi

variable {lo hi a b c d : ℚ} {x y : Soft L}

/-- Wider bounds. -/
theorem Between.mono (h : Between lo hi x) (hlo : a ≤ lo) (hhi : hi ≤ b) : Between a b x := by
  obtain ⟨q, hq, h1, h2⟩ := h
  exact ⟨q, hq, hlo.trans h1, h2.trans hhi⟩

/-- Rounding stays between representable bounds. -/
theorem between_round (hlo : Representable 24 (-149) lo) (hhi : Representable 24 (-149) hi)
    (hlarge : -2 ^ 128 < lo) (hhuge : hi < 2 ^ 128) {q : ℚ} (h1 : lo ≤ q) (h2 : q ≤ hi) :
    Between lo hi (round L q) := by
  have hl := L.single.le_round hlo h1
  have hu := L.single.round_le hhi h2
  have habs : |L.single.round q| < 2 ^ 128 := abs_lt.mpr ⟨by linarith, by linarith⟩
  refine ⟨L.single.round q, ?_, hl, hu⟩
  rw [round, value, dif_pos habs]
  rfl

/-- A `float` with a value is finite. -/
theorem value_eq_some {q : ℚ} (h : x.value = some q) :
    ∃ s : Single, x = ⟨some s⟩ ∧ s.val = q := by
  obtain ⟨s, hs, hq⟩ := Option.map_eq_some_iff.mp h
  exact ⟨s, congrArg Soft.mk hs, hq⟩

/-- An operation stays between bounds when its exact result does for all operands between
theirs. -/
theorem between_lift {f : ℚ → ℚ → Soft L} (hx : Between a b x) (hy : Between c d y)
    (h : ∀ p q, a ≤ p → p ≤ b → c ≤ q → q ≤ d → Between lo hi (f p q)) :
    Between lo hi (lift f x y) := by
  obtain ⟨p, hp, h1, h2⟩ := hx
  obtain ⟨q, hq, h3, h4⟩ := hy
  obtain ⟨s, rfl, rfl⟩ := value_eq_some hp
  obtain ⟨t, rfl, rfl⟩ := value_eq_some hq
  exact h _ _ h1 h2 h3 h4

end Soft

/-! ### The values of an update -/

section
variable {L : FloatLib}

/-- A natural number of up to 24 bits, divided by a power of two. -/
theorem representable_div {n j : ℕ} (hn : n < 2 ^ 24) (hj : j ≤ 149) :
    Representable 24 (-149) ((n : ℚ) / 2 ^ j) := by
  refine ⟨n, -(j : ℤ), ?_, by omega, ?_⟩
  · rw [Nat.abs_cast]
    exact_mod_cast hn
  · rw [zpow_neg, zpow_natCast, div_eq_mul_inv]
    push_cast
    rfl

/-- A literal that needs no rounding. -/
theorem between_lit {n j : ℕ} (hn : n < 2 ^ 24) (hj : j ≤ 149) :
    Soft.Between ((n : ℚ) / 2 ^ j) (n / 2 ^ j) (CFloat.lit ((n : ℚ) / 2 ^ j) : Soft L) := by
  have hrep := representable_div hn hj
  have hpow : (1 : ℚ) ≤ 2 ^ j := one_le_pow₀ one_le_two
  have hnq : (n : ℚ) < 2 ^ 24 := by exact_mod_cast hn
  have h0 : 0 ≤ (n : ℚ) / 2 ^ j := by positivity
  have hle : (n : ℚ) / 2 ^ j ≤ n := div_le_self (Nat.cast_nonneg n) hpow
  exact Soft.between_round hrep hrep (by linarith [show (0 : ℚ) < 2 ^ 128 by positivity])
    (by linarith [show (2 : ℚ) ^ 24 < 2 ^ 128 by norm_num]) le_rfl le_rfl

/-- The largest scale factor, with room for any rounding. -/
def SCALE_MAX : ℚ := 32769 / 2 ^ 26

/-- The largest value of an axis. -/
def AXIS_MAX : ℚ := 33

/-- Up to 24 bits a natural number is a `float`. -/
theorem representable_natCast {n : ℕ} (hn : n < 2 ^ 24) : Representable 24 (-149) (n : ℚ) := by
  have hdiv := representable_div (j := 0) hn (by decide)
  rwa [pow_zero, div_one] at hdiv

/-- The bound on the axes is a `float`, so rounding does not pass it. -/
theorem representable_axisMax : Representable 24 (-149) AXIS_MAX :=
  representable_natCast (n := 33) (by decide)

/-- No scale factor is above that of the largest range. -/
theorem between_accScale (range : AccelRange) :
    Soft.Between 0 SCALE_MAX (accScale range : Soft L) := by
  have hden := between_lit (L := L) (n := 65535) (j := 1) (by decide) (by decide)
  have hlit : ((65535 : ℕ) : ℚ) / 2 ^ 1 = 32767.5 := by norm_num
  rw [hlit] at hden
  have hkey : ∀ n : ℕ, n ≤ 16 →
      Soft.Between 0 SCALE_MAX (CFloat.div (CFloat.lit (n : ℚ)) (CFloat.lit 32767.5) : Soft L) := by
    intro n hn
    have hnum := between_lit (L := L) (n := n) (j := 0) (by omega) (by decide)
    rw [pow_zero, div_one] at hnum
    refine Soft.between_lift hnum hden ?_
    intro p q hp hp' hq hq'
    have hpn : p = n := le_antisymm hp' hp
    have hqd : q = 32767.5 := le_antisymm hq' hq
    have hn16 : (n : ℚ) ≤ 16 := by exact_mod_cast hn
    rw [hpn, hqd, if_neg (by norm_num)]
    refine Soft.between_round (.zero 24 (-149)) (representable_div (by decide) (by decide))
      (by norm_num) (by norm_num) (by positivity) ?_
    have hscale : (16 : ℚ) / 32767.5 ≤ (32769 : ℕ) / 2 ^ 26 := by norm_num
    exact (div_le_div_of_nonneg_right hn16 (by norm_num)).trans hscale
  cases range with
  | ACCEL_RANGE_2G => exact hkey 2 (by decide)
  | ACCEL_RANGE_4G => exact hkey 4 (by decide)
  | ACCEL_RANGE_8G => exact hkey 8 (by decide)
  | ACCEL_RANGE_16G => exact hkey 16 (by decide)

/-- A raw word is exact as a `float`. -/
theorem between_ofUInt16 (n : UInt16) :
    Soft.Between 0 65535 (CFloat.ofUInt16 n : Soft L) := by
  have hn : n.toNat ≤ 65535 := Nat.le_of_lt_succ n.toNat_lt
  have hq : (n.toNat : ℚ) ≤ 65535 := by exact_mod_cast hn
  have hmax := representable_natCast (n := 65535) (by decide)
  exact Soft.between_round (.zero 24 (-149)) hmax (by norm_num) (by norm_num)
    (Nat.cast_nonneg _) hq

/-- A raw word times the scale factor. -/
theorem between_scaled (n : UInt16) {k : Soft L} (hk : Soft.Between 0 SCALE_MAX k) :
    Soft.Between 0 AXIS_MAX (CFloat.mul (CFloat.ofUInt16 n) k) := by
  refine Soft.between_lift (between_ofUInt16 n) hk ?_
  intro p q hp hp' hq hq'
  refine Soft.between_round (.zero 24 (-149)) representable_axisMax (by norm_num)
    (by norm_num [AXIS_MAX])
    (mul_nonneg hp hq) ?_
  calc p * q ≤ 65535 * SCALE_MAX := mul_le_mul hp' hq' hq (by norm_num)
    _ ≤ AXIS_MAX := by norm_num [SCALE_MAX, AXIS_MAX]

/-- The correction of the z-axis. -/
theorem between_centered {z : Soft L} (hz : Soft.Between 0 AXIS_MAX z) :
    Soft.Between (-1) AXIS_MAX (CFloat.sub z ACC_Z_CENTER) := by
  have hone := between_lit (L := L) (n := 1) (j := 0) (by decide) (by decide)
  rw [pow_zero, div_one, Nat.cast_one] at hone
  refine Soft.between_lift hz hone ?_
  intro p q hp hp' hq hq'
  have hmin := (representable_natCast (n := 1) (by decide)).neg
  rw [Nat.cast_one] at hmin
  exact Soft.between_round hmin representable_axisMax (by norm_num) (by norm_num [AXIS_MAX])
    (by linarith) (by linarith)

end

end MotionTracking
