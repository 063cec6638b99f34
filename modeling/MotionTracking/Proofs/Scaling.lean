import Mathlib.Analysis.SpecialFunctions.Trigonometric.Arctan
import Mathlib.Tactic.Linarith
import Mathlib.Tactic.FieldSimp
import Mathlib.Tactic.Positivity
import MotionTracking.Proofs.SensorReads

/-!
# `MotionTracking.Proofs.Scaling`: an update in exact arithmetic

`Exact` is the instance of `CFloat` that computes with real numbers and without
rounding. A division by zero has no value, and neither has what is computed from
one.

A range `R` scales the raw words by `R / 32767.5`, a factor for words from
`-32768` to `32767`. The row variables are unsigned.

* `signed_scaling_iff`: the published values are those of the signed words exactly
  when no word has its top bit set.
* `tilt_defined_iff`: the angles have values exactly when neither pair of squares
  is truncated to zeros.
-/

set_option autoImplicit false

namespace MotionTracking

open Threads (Exec runAlone)

/-! ### Exact arithmetic -/

/-- A real number, or no value. -/
abbrev Exact : Type := Option ℝ

/-- Exact arithmetic, where a division by 0 has no result and a conversion to `uint32_t`
cuts off. -/
noncomputable instance : CFloat Exact where
  lit q := some q
  ofUInt16 n := some n.toNat
  toUInt32 x := UInt32.ofNat ⌊x.getD 0⌋₊
  mul x y := x.bind fun a => y.bind fun b => some (a * b)
  div x y := x.bind fun a => y.bind fun b => if b = 0 then none else some (a / b)
  sub x y := x.bind fun a => y.bind fun b => some (a - b)
  sqrt n := some (√n.toNat)
  atan x := x.map Real.arctan

/-- The magnitude of a range, in g. -/
def AccelRange.magnitude : AccelRange → ℝ
  | .ACCEL_RANGE_2G => 2
  | .ACCEL_RANGE_4G => 4
  | .ACCEL_RANGE_8G => 8
  | .ACCEL_RANGE_16G => 16

/-- Every range has a positive magnitude. -/
theorem magnitude_pos (range : AccelRange) : 0 < range.magnitude := by
  cases range <;> norm_num [AccelRange.magnitude]

/-- The largest magnitude is 16. -/
theorem magnitude_le (range : AccelRange) : range.magnitude ≤ 16 := by
  cases range <;> norm_num [AccelRange.magnitude]

/-- The scale of a range in exact arithmetic. -/
theorem accScale_exact (range : AccelRange) :
    (accScale range : Exact) = some (range.magnitude / 32767.5) := by
  have hdiv : ∀ q : ℚ, CFloat.div (CFloat.lit q) (CFloat.lit 32767.5) =
      (some ((q : ℝ) / 32767.5) : Exact) := by
    intro q
    have hcast : ((32767.5 : ℚ) : ℝ) = 32767.5 := by norm_num
    show (if ((32767.5 : ℚ) : ℝ) = 0 then none else some ((q : ℝ) / ((32767.5 : ℚ) : ℝ))) = _
    rw [hcast, if_neg (by norm_num)]
  cases range with
  | ACCEL_RANGE_2G => exact (hdiv 2).trans (by norm_num [AccelRange.magnitude])
  | ACCEL_RANGE_4G => exact (hdiv 4).trans (by norm_num [AccelRange.magnitude])
  | ACCEL_RANGE_8G => exact (hdiv 8).trans (by norm_num [AccelRange.magnitude])
  | ACCEL_RANGE_16G => exact (hdiv 16).trans (by norm_num [AccelRange.magnitude])

/-! ### The published values -/

/-- The raw word of an axis that an update by thread `t` works with: what its read
delivers, or the word of an earlier update when the read fails. -/
def rawReading {F : Type} (t : Tid) (s : Sys F) (axis : AccAxis) : UInt16 :=
  if readMsg (s.results t) axis = .MSG_OK then word (s.regs axis.code) (s.regs (axis.code + 2))
  else s.mpu.rowOf axis

/-- The unsigned word, in g. -/
noncomputable def gValue (range : AccelRange) (raw : UInt16) : ℝ :=
  raw.toNat * (range.magnitude / 32767.5)

/-- What a successful read stores is the raw reading of its axis. -/
theorem row_eq_rawReading {F : Type} (t : Tid) (s : Sys F) (axis : AccAxis) :
    (mpuView t (s, .none)).row axis (s.mpu.rowOf axis) = rawReading t s axis := by
  rw [MpuView.row, wordOf_none]
  rfl

/-- What is published, for unsigned values `x`, `y` and `z` in g. -/
noncomputable def exactTriple (x y z : ℝ) : Published Exact :=
  let x2 : UInt32 := .ofNat ⌊x * x⌋₊
  let y2 : UInt32 := .ofNat ⌊y * y⌋₊
  let z2 : UInt32 := .ofNat ⌊(z - 1) * (z - 1)⌋₊
  ⟨some x, some y, some (z - 1), CFloat.atan (CFloat.div (some x : Exact) (CFloat.sqrt (y2 + z2))),
    CFloat.atan (CFloat.div (some y : Exact) (CFloat.sqrt (x2 + z2)))⟩

/-- What an update publishes, in exact arithmetic. -/
theorem publish_exact {c : MpuC Exact} {k : ℝ} (h : c.accScaleRef = some k) :
    c.publish.published = exactTriple (c.axisRowX.toNat * k) (c.axisRowY.toNat * k)
      (c.axisRowZ.toNat * k) := by
  have hone : (ACC_Z_CENTER : Exact) = some 1 := congrArg some Rat.cast_one
  unfold MpuC.publish MpuC.published
  rw [h, hone]
  rfl

section
variable {t : Tid} {range : AccelRange} {s₀ s₁ s₂ : Sys Exact}

/-- What a successful update publishes in a successfully selected range. -/
theorem published_exact (hrange : Exec (machine Exact) t (Aside t) (mpuAccRange range) s₀ true s₁)
    (hupdate : Exec (machine Exact) t (Aside t) mpuAccUpdate s₁ true s₂) :
    s₂.mpu.published = exactTriple (gValue range (rawReading t s₁ .ACC_AXIS_X))
      (gValue range (rawReading t s₁ .ACC_AXIS_Y))
        (gValue range (rawReading t s₁ .ACC_AXIS_Z)) := by
  obtain ⟨-, hscale, -, -⟩ := exec_mpuAccRange hrange
  obtain ⟨hany, tx, rx, hmpu⟩ := exec_mpuAccUpdate hupdate
  rw [if_pos (of_decide_eq_true hany.symm)] at hmpu
  rw [accScale_exact] at hscale
  rw [hmpu, publish_exact (c := (mpuView t (s₁, .none)).read tx rx) hscale, gValue, gValue, gValue,
    ← row_eq_rawReading, ← row_eq_rawReading, ← row_eq_rawReading]
  rfl

/-! ### Signed values -/

/-- The two's-complement value of a word. -/
def signed (raw : UInt16) : ℤ := raw.toBitVec.toInt

/-- The published triple is that of the signed words. -/
structure SignedScaling (range : AccelRange) (raw : AccAxis → UInt16) (c : MpuC Exact) : Prop where
  x : c.axisX = some (range.magnitude * signed (raw .ACC_AXIS_X) / 32767.5)
  y : c.axisY = some (range.magnitude * signed (raw .ACC_AXIS_Y) / 32767.5)
  z : c.axisZ = some (range.magnitude * signed (raw .ACC_AXIS_Z) / 32767.5 - 1)

/-- A word means the same signed and unsigned when its top bit is clear. -/
theorem gValue_eq_signed_iff (range : AccelRange) (raw : UInt16) :
    gValue range raw = range.magnitude * signed raw / 32767.5 ↔ raw.toNat < 0x8000 := by
  have hpos := magnitude_pos range
  have hkey : gValue range raw = range.magnitude * signed raw / 32767.5 ↔
      (raw.toNat : ℤ) = signed raw := by
    rw [gValue, mul_div_assoc', div_left_inj' (by norm_num), mul_comm,
      mul_right_inj' hpos.ne']
    exact_mod_cast Iff.rfl
  rw [hkey, signed, BitVec.toInt_eq_toNat_cond]
  show (raw.toNat : ℤ) =
    (if 2 * raw.toNat < 2 ^ 16 then (raw.toNat : ℤ) else raw.toNat - 2 ^ 16) ↔ _
  split <;> omega

/-- No published word has its top bit set if the values are the signed ones. -/
theorem SignedScaling.lt (hrange : Exec (machine Exact) t (Aside t) (mpuAccRange range) s₀ true s₁)
    (hupdate : Exec (machine Exact) t (Aside t) mpuAccUpdate s₁ true s₂)
    (h : SignedScaling range (rawReading t s₁) s₂.mpu) (axis : AccAxis) :
    (rawReading t s₁ axis).toNat < 0x8000 := by
  have hpub := published_exact hrange hupdate
  rw [← gValue_eq_signed_iff range]
  cases axis with
  | ACC_AXIS_X => exact Option.some.inj ((congrArg Published.axisX hpub).symm.trans h.x)
  | ACC_AXIS_Y => exact Option.some.inj ((congrArg Published.axisY hpub).symm.trans h.y)
  | ACC_AXIS_Z =>
      exact sub_left_injective (Option.some.inj ((congrArg Published.axisZ hpub).symm.trans h.z))

/-- The published values are the signed ones exactly when no word has its top bit
set. -/
theorem signed_scaling_iff
    (hrange : Exec (machine Exact) t (Aside t) (mpuAccRange range) s₀ true s₁)
    (hupdate : Exec (machine Exact) t (Aside t) mpuAccUpdate s₁ true s₂) :
    SignedScaling range (rawReading t s₁) s₂.mpu ↔
      ∀ axis, (rawReading t s₁ axis).toNat < 0x8000 := by
  constructor
  · intro h
    exact h.lt hrange hupdate
  · intro h
    have hpub := published_exact hrange hupdate
    have heq := fun axis => (gValue_eq_signed_iff range _).mpr (h axis)
    refine ⟨?_, ?_, ?_⟩
    · rw [← heq]
      exact congrArg Published.axisX hpub
    · rw [← heq]
      exact congrArg Published.axisY hpub
    · rw [← heq]
      exact congrArg Published.axisZ hpub

end

/-- A range change and an update that succeed on a healthy board. -/
theorem exists_scaled (regs : UInt8 → UInt8) (range : AccelRange) (f : Sys Exact → Bool)
    (h : (runAlone (machine Exact) .mpu (mpuAccRange range) (idle (resultsOf []) regs)).any
      (fun r => r.1 && f r.2 && (runAlone (machine Exact) .mpu mpuAccUpdate r.2).any
        fun r => r.1) = true) :
    ∃ s₁ s₂ : Sys Exact, f s₁ = true ∧
      Exec (machine Exact) .mpu (Aside .mpu) (mpuAccRange range) (idle (resultsOf []) regs)
        true s₁ ∧
      Exec (machine Exact) .mpu (Aside .mpu) mpuAccUpdate s₁ true s₂ := by
  obtain ⟨⟨b, s₁⟩, hrange, hf⟩ := (Option.any_eq_true _ _).mp h
  simp only [Bool.and_eq_true] at hf
  obtain ⟨⟨rfl, hf₁⟩, hupdate⟩ := hf
  obtain ⟨⟨b, s₂⟩, hupdate, rfl⟩ := (Option.any_eq_true _ _).mp hupdate
  exact ⟨s₁, s₂, hf₁, .of_runAlone hrange, .of_runAlone hupdate⟩

/-- With all data bytes `0xFF`, `-1` in every axis, the update publishes almost twice
the range. -/
theorem signed_scaling_fails :
    ¬∀ (t : Tid) (range : AccelRange) (s₀ s₁ s₂ : Sys Exact),
      Exec (machine Exact) t (Aside t) (mpuAccRange range) s₀ true s₁ →
      Exec (machine Exact) t (Aside t) mpuAccUpdate s₁ true s₂ →
        SignedScaling range (rawReading t s₁) s₂.mpu := by
  intro h
  obtain ⟨s₁, s₂, hraw, hrange, hupdate⟩ := exists_scaled (fun _ => 0xFF) .ACCEL_RANGE_2G
    (fun s => rawReading .mpu s .ACC_AXIS_X = 0xFFFF) (by decide +kernel)
  have hlt := (h .mpu _ _ s₁ s₂ hrange hupdate).lt hrange hupdate .ACC_AXIS_X
  rw [of_decide_eq_true hraw] at hlt
  exact absurd hlt (by decide)

/-- A board that reads `0x4040` in every axis. -/
theorem signed_scaling_iff_half : ∃ s₁ s₂ : Sys Exact,
    SignedScaling .ACCEL_RANGE_4G (rawReading .mpu s₁) s₂.mpu := by
  obtain ⟨s₁, s₂, hraw, hrange, hupdate⟩ := exists_scaled (fun _ => 0x40) .ACCEL_RANGE_4G
    (fun s => rawReading .mpu s .ACC_AXIS_X = 0x4040 ∧ rawReading .mpu s .ACC_AXIS_Y = 0x4040 ∧
      rawReading .mpu s .ACC_AXIS_Z = 0x4040) (by decide +kernel)
  obtain ⟨hx, hy, hz⟩ := of_decide_eq_true hraw
  refine ⟨s₁, s₂, (signed_scaling_iff hrange hupdate).mpr fun axis => ?_⟩
  cases axis with
  | ACC_AXIS_X => rw [hx]; decide
  | ACC_AXIS_Y => rw [hy]; decide
  | ACC_AXIS_Z => rw [hz]; decide

/-! ### The divisors of the tilt -/

/-- An angle has a value when its divisor is not zero. -/
theorem atan_div_ne_none (x : ℝ) (n : UInt32) :
    CFloat.atan (CFloat.div (some x : Exact) (CFloat.sqrt n)) ≠ none ↔ n ≠ 0 := by
  have hsqrt : √(n.toNat : ℝ) = 0 ↔ n = 0 := by
    rw [Real.sqrt_eq_zero (Nat.cast_nonneg _), Nat.cast_eq_zero, ← UInt32.toNat_inj]
    rfl
  show Option.map Real.arctan (if √(n.toNat : ℝ) = 0 then none else some (x / √(n.toNat : ℝ))) ≠
    none ↔ _
  rw [ne_eq, Option.map_eq_none_iff]
  by_cases hn : n = 0
  · rw [if_pos (hsqrt.mpr hn)]
    simp [hn]
  · rw [if_neg (fun h => hn (hsqrt.mp h))]
    simp [hn]

/-- The sum of two truncated squares is zero when both squares are below one. -/
theorem trunc_add_eq_zero_iff {a b : ℝ} (ha : a ≤ 1024) (hb : b ≤ 1024) :
    UInt32.ofNat ⌊a⌋₊ + UInt32.ofNat ⌊b⌋₊ = 0 ↔ a < 1 ∧ b < 1 := by
  have hfa : ⌊a⌋₊ ≤ 1024 := Nat.floor_le_of_le (by exact_mod_cast ha)
  have hfb : ⌊b⌋₊ ≤ 1024 := Nat.floor_le_of_le (by exact_mod_cast hb)
  rw [← Nat.floor_eq_zero, ← Nat.floor_eq_zero, ← UInt32.toNat_inj, UInt32.toNat_add,
    UInt32.toNat_ofNat_of_lt' (by rw [UInt32.size]; omega),
    UInt32.toNat_ofNat_of_lt' (by rw [UInt32.size]; omega)]
  show (⌊a⌋₊ + ⌊b⌋₊) % 2 ^ 32 = 0 ↔ _
  omega

/-- The value of a raw word is not negative: the word is taken as unsigned. -/
theorem gValue_nonneg (range : AccelRange) (raw : UInt16) : 0 ≤ gValue range raw := by
  have hpos := magnitude_pos range
  unfold gValue
  positivity

/-- Nor is it above 32 g. -/
theorem gValue_le (range : AccelRange) (raw : UInt16) : gValue range raw ≤ 32 := by
  have hpos := magnitude_pos range
  have hle := magnitude_le range
  have hraw : (raw.toNat : ℝ) ≤ 65535 := by
    have hlt := raw.toNat_lt
    exact_mod_cast (by omega : raw.toNat ≤ 65535)
  calc gValue range raw = raw.toNat * (range.magnitude / 32767.5) := rfl
    _ ≤ 65535 * (16 / 32767.5) := by gcongr
    _ = 32 := by norm_num

/-- The divisor made of the axis value `u` and the centred `z` is not zero. -/
theorem divisor_ne_zero_iff {u z : ℝ} (hu₀ : 0 ≤ u) (hu : u ≤ 32) (hz₀ : 0 ≤ z) (hz : z ≤ 32) :
    UInt32.ofNat ⌊u * u⌋₊ + UInt32.ofNat ⌊(z - 1) * (z - 1)⌋₊ ≠ 0 ↔ 1 ≤ u ∨ z = 0 ∨ 2 ≤ z := by
  have huu : u * u < 1 ↔ u < 1 := by
    constructor <;> intro h <;> nlinarith
  have hzz : (z - 1) * (z - 1) < 1 ↔ z ≠ 0 ∧ z < 2 := by
    constructor
    · intro h
      refine ⟨fun h0 => ?_, by nlinarith⟩
      rw [h0] at h
      norm_num at h
    · rintro ⟨h0, h2⟩
      have hpos : 0 < z := lt_of_le_of_ne hz₀ (Ne.symm h0)
      nlinarith
  rw [ne_eq, trunc_add_eq_zero_iff (by nlinarith) (by nlinarith), huu, hzz]
  by_cases h0 : z = 0
  · simp [h0]
  · simp only [h0, not_false_eq_true, ne_eq, true_and, not_and_or, not_lt, false_or]

section
variable {t : Tid} {range : AccelRange} {s₀ s₁ s₂ : Sys Exact}

/-- The angle of the x-axis is a number unless the sum it is divided by is 0, which is so
when both squares are cut off to 0. -/
theorem angX_ne_none_iff (hrange : Exec (machine Exact) t (Aside t) (mpuAccRange range) s₀ true s₁)
    (hupdate : Exec (machine Exact) t (Aside t) mpuAccUpdate s₁ true s₂) :
    s₂.mpu.axisAngX ≠ none ↔ 1 ≤ gValue range (rawReading t s₁ .ACC_AXIS_Y) ∨
      gValue range (rawReading t s₁ .ACC_AXIS_Z) = 0 ∨
      2 ≤ gValue range (rawReading t s₁ .ACC_AXIS_Z) := by
  have hx := congrArg Published.axisAngX (published_exact hrange hupdate)
  rw [show s₂.mpu.axisAngX = _ from hx, exactTriple]
  dsimp only
  rw [atan_div_ne_none]
  exact divisor_ne_zero_iff (gValue_nonneg _ _) (gValue_le _ _) (gValue_nonneg _ _) (gValue_le _ _)

/-- The same for the y-axis. -/
theorem angY_ne_none_iff (hrange : Exec (machine Exact) t (Aside t) (mpuAccRange range) s₀ true s₁)
    (hupdate : Exec (machine Exact) t (Aside t) mpuAccUpdate s₁ true s₂) :
    s₂.mpu.axisAngY ≠ none ↔ 1 ≤ gValue range (rawReading t s₁ .ACC_AXIS_X) ∨
      gValue range (rawReading t s₁ .ACC_AXIS_Z) = 0 ∨
      2 ≤ gValue range (rawReading t s₁ .ACC_AXIS_Z) := by
  have hy := congrArg Published.axisAngY (published_exact hrange hupdate)
  rw [show s₂.mpu.axisAngY = _ from hy, exactTriple]
  dsimp only
  rw [atan_div_ne_none]
  exact divisor_ne_zero_iff (gValue_nonneg _ _) (gValue_le _ _) (gValue_nonneg _ _) (gValue_le _ _)

/-- After a successful update in a successfully selected range the angles have
values exactly when, with the unsigned readings in g, `z` is zero or at least two,
or both `x` and `y` are at least one. -/
theorem tilt_defined_iff
    (hrange : Exec (machine Exact) t (Aside t) (mpuAccRange range) s₀ true s₁)
    (hupdate : Exec (machine Exact) t (Aside t) mpuAccUpdate s₁ true s₂) :
    s₂.mpu.axisAngX ≠ none ∧ s₂.mpu.axisAngY ≠ none ↔
      (1 ≤ gValue range (rawReading t s₁ .ACC_AXIS_X) ∧
        1 ≤ gValue range (rawReading t s₁ .ACC_AXIS_Y)) ∨
      gValue range (rawReading t s₁ .ACC_AXIS_Z) = 0 ∨
      2 ≤ gValue range (rawReading t s₁ .ACC_AXIS_Z) := by
  rw [angX_ne_none_iff hrange hupdate, angY_ne_none_iff hrange hupdate]
  tauto

end

/-- A board that lies flat and at rest in the range of 2 g. The readings are `0` g, `0.004` g (the
low byte of `y` is the high byte of `z`) and `1` g. -/
theorem tilt_undefined :
    ¬∀ (t : Tid) (range : AccelRange) (s₀ s₁ s₂ : Sys Exact),
      Exec (machine Exact) t (Aside t) (mpuAccRange range) s₀ true s₁ →
      Exec (machine Exact) t (Aside t) mpuAccUpdate s₁ true s₂ →
        s₂.mpu.axisAngX ≠ none ∧ s₂.mpu.axisAngY ≠ none := by
  intro h
  obtain ⟨s₁, s₂, hraw, hrange, hupdate⟩ := exists_scaled
    (fun reg => if reg = 0x3F then 0x40 else 0) .ACCEL_RANGE_2G
    (fun s => rawReading .mpu s .ACC_AXIS_Y = 0x40 ∧ rawReading .mpu s .ACC_AXIS_Z = 0x4000)
    (by decide +kernel)
  obtain ⟨hy, hz⟩ := of_decide_eq_true hraw
  have hdefined := (angX_ne_none_iff hrange hupdate).mp (h .mpu _ _ s₁ s₂ hrange hupdate).1
  have hy' : (UInt16.toNat 0x40 : ℝ) = 64 := rfl
  have hz' : (UInt16.toNat 0x4000 : ℝ) = 16384 := rfl
  rw [hy, hz, gValue, gValue, hy', hz'] at hdefined
  norm_num [AccelRange.magnitude] at hdefined

/-- A board whose readings are a little above `1` g on every axis, in the range of 2 g. -/
theorem tilt_defined_iff_diagonal : ∃ s₂ : Sys Exact,
    s₂.mpu.axisAngX ≠ none ∧ s₂.mpu.axisAngY ≠ none := by
  obtain ⟨s₁, s₂, hraw, hrange, hupdate⟩ := exists_scaled (fun _ => 0x40) .ACCEL_RANGE_2G
    (fun s => rawReading .mpu s .ACC_AXIS_X = 0x4040 ∧ rawReading .mpu s .ACC_AXIS_Y = 0x4040)
    (by decide +kernel)
  obtain ⟨hx, hy⟩ := of_decide_eq_true hraw
  have hone : 1 ≤ gValue .ACCEL_RANGE_2G 0x4040 := by
    have hvalue : (UInt16.toNat 0x4040 : ℝ) = 16448 := rfl
    rw [gValue, hvalue]
    norm_num [AccelRange.magnitude]
  refine ⟨s₂, (tilt_defined_iff hrange hupdate).mpr (.inl ⟨?_, ?_⟩)⟩
  · rw [hx]
    exact hone
  · rw [hy]
    exact hone

end MotionTracking
