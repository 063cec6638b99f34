import MotionTracking.ChibiOS.Printf

/-!
# `MotionTracking.ChibiOS.NumberText`: the numbers that `chprintf` prints

What the loops of `chprintf.c` put into `tmpbuf` for a number.

A `float` has 24 significant bits. Its fraction times a power of ten up to
`10 ^ 9` has at most 45, so neither operation of `ftoa` rounds, in whatever mode
the arithmetic is. What `%f` writes is the number without the decimal places
that do not fit (`ftoa_eq`). The scratch buffer is filled to its last character by
a sign, ten digits, the point and the eleven characters that the second number may
use.
-/

set_option autoImplicit false

namespace ChibiOS.Printf

open Arith

/-! ### Integers -/

/-- The code's digits are the usual ones, up to hexadecimal. -/
theorem digit_eq_digitChar {i : Nat} (hi : i < 16) : digit i = digitChar i := by
  have hall : ∀ i < 16, digit i = digitChar i := by decide
  exact hall i hi

/-- The loop writes as many digits as `ll` has. -/
theorem digitLoop_eq {radix room l ll : Nat} {q : List Char} (hr : 1 < radix) (h16 : radix ≤ 16)
    (hroom : width radix ll ≤ room) :
    digitLoop radix room l ll q = some (showNat radix (width radix ll) l ++ q) := by
  induction room generalizing l ll q with
  | zero =>
      have hpos := width_pos radix ll
      omega
  | succ room ih =>
      have hdigit : digit (l % radix) = digitChar (l % radix) :=
        digit_eq_digitChar ((Nat.mod_lt l (by omega)).trans_le h16)
      have hlast : ∀ w, showNat radix (w + 1) l = showNat radix w (l / radix) ++
          [digitChar (l % radix)] := by
        intro w
        rw [showNat, numeral, List.map_append]
        rfl
      rcases Nat.lt_or_ge ll radix with hlt | hge
      · show (if ll / radix ≠ 0 then _ else _) = _
        rw [if_neg (not_not.mpr (Nat.div_eq_of_lt hlt)), width_of_lt hlt, hlast, hdigit]
        rfl
      · have hdiv : ll / radix ≠ 0 := (Nat.div_pos hge (by omega)).ne'
        have hw := width_div hr hge
        show (if ll / radix ≠ 0 then _ else _) = _
        rw [if_pos hdiv, ih (by omega), hw, hlast, hdigit, List.append_assoc]
        rfl

/-- The number in the radix, with as many digits as the divisor, or as it needs
itself. -/
theorem longToStringWithDivisor_eq {p : List Char} {num divisor : Long} {radix : Nat}
    (hr : 1 < radix) (h16 : radix ≤ 16) (hp : p.length + MAX_FILLER ≤ TMPBUF_SIZE)
    (hw : width radix (if divisor = 0 then num else divisor).toNat ≤ MAX_FILLER) :
    longToStringWithDivisor p num radix divisor =
      some (p ++ showNat radix (width radix (if divisor = 0 then num else divisor).toNat)
        num.toNat) := by
  simp only [longToStringWithDivisor, if_pos hp, digitLoop_eq hr h16 hw, Option.map_some,
    List.append_nil]

/-- A `long` has at most eleven digits, even in base eight. -/
theorem width_long {radix : Nat} (hr : 8 ≤ radix) (num : Long) :
    width radix num.toNat ≤ MAX_FILLER := by
  have hlt : num.toNat < radix ^ 11 := by
    calc num.toNat < 2 ^ 32 := num.isLt
      _ ≤ 8 ^ 11 := by decide
      _ ≤ radix ^ 11 := Nat.pow_le_pow_left hr 11
  exact width_le (by decide) hlt

/-- In a base from 8 on, the digits of a `long` fit in the buffer behind a prefix that
leaves `MAX_FILLER` places, and are its numeral. -/
theorem chLtoa_eq {p : List Char} {num : Long} {radix : Nat} (hr : 8 ≤ radix) (h16 : radix ≤ 16)
    (hp : p.length + MAX_FILLER ≤ TMPBUF_SIZE) :
    chLtoa p num radix = some (p ++ showNat radix (width radix num.toNat) num.toNat) := by
  rw [chLtoa, longToStringWithDivisor_eq (by omega) h16 hp, if_pos rfl]
  rw [if_pos rfl]
  exact width_long hr num

/-! ### Fractions -/

/-- The number of decimal places for a precision. -/
def places (precision : Nat) : Nat :=
  if precision = 0 ∨ precision > FLOAT_PRECISION then FLOAT_PRECISION else precision

/-- `ftoa` prints between one and nine places. -/
theorem places_bounds (precision : Nat) : 0 < places precision ∧ places precision ≤ 9 := by
  unfold places FLOAT_PRECISION
  split <;> omega

/-- The table of powers, where `ftoa` reads it. -/
theorem pow10_eq {k : Nat} (h0 : 0 < k) (h9 : k ≤ 9) : pow10.getD (k - 1) 0 = 10 ^ k := by
  have hall : ∀ k ≤ 9, 0 < k → pow10.getD (k - 1) 0 = 10 ^ k := by decide
  exact hall k h9 h0

/-- `(long)x` of a number that is not negative. -/
theorem toLong_eq {x : ℚ} (h0 : 0 ≤ x) (hx : x < 2 ^ 31) :
    toLong x = some (BitVec.ofNat 32 ⌊x⌋₊) ∧ ⌊x⌋₊ < 2 ^ 31 := by
  have hfloor : ⌊x⌋₊ < 2 ^ 31 := (Nat.floor_lt h0).mpr (by exact_mod_cast hx)
  have hint : integerPart x = (⌊x⌋₊ : ℤ) := by
    rw [integerPart, if_pos h0, Int.natCast_floor_eq_floor h0]
  refine ⟨?_, hfloor⟩
  rw [toLong, hint, if_pos ⟨by omega, by omega⟩, BitVec.ofInt_natCast]

/-- A number with `k` decimal places and no sign. -/
def decimalText (k : Nat) (x : ℚ) : List Char :=
  showNat 10 (width 10 ⌊x⌋₊) ⌊x⌋₊ ++ '.' :: showNat 10 k ⌊Int.fract x * 10 ^ k⌋₊

/-- The fraction of a `float` times a power of ten is a `double`. -/
theorem scaled_fract {x : ℚ} (hx : Representable 24 (-149) x) (h0 : 0 ≤ x) {k : Nat}
    (hk : k ≤ 9) : Representable 53 (-1074) (Int.fract x * ((10 ^ k : ℕ) : ℚ)) := by
  have hfive : 5 ^ k < 2 ^ 29 := by
    calc 5 ^ k ≤ 5 ^ 9 := Nat.pow_le_pow_right (by decide) hk
      _ < 2 ^ 29 := by decide
  have hten : 10 ^ k = 5 ^ k * 2 ^ k := by rw [← Nat.mul_pow]
  have hmul := (hx.fract h0).mul_natCast (j := k) hfive
  rw [← hten] at hmul
  exact hmul.mono (by decide) (by decide)

/-- Neither operation on the fraction rounds. -/
theorem round_scaled_fract (fl : Floats) {x : ℚ} (hx : Representable 24 (-149) x) (h0 : 0 ≤ x)
    {k : Nat} (hk : k ≤ 9) :
    fl.double.round (fl.double.round (x - ((⌊x⌋₊ : ℤ) : ℚ)) * ((10 ^ k : ℕ) : ℚ)) =
      Int.fract x * 10 ^ k := by
  have hfract : x - ((⌊x⌋₊ : ℤ) : ℚ) = Int.fract x := by
    rw [Int.natCast_floor_eq_floor h0]
    rfl
  have hinner : fl.double.round (Int.fract x) = Int.fract x :=
    fl.double.fixes _ ((hx.fract h0).mono (by decide) (by decide))
  rw [hfract, hinner, fl.double.fixes _ (scaled_fract hx h0 hk)]
  push_cast
  rfl

/-- A number below `2 ^ 31` is a `long`. -/
theorem toNat_ofNat_of_lt {n : Nat} (hn : n < 2 ^ 31) : (BitVec.ofNat 32 n).toNat = n := by
  rw [BitVec.toNat_ofNat, Nat.mod_eq_of_lt (by omega)]

/-- The divisor that `ftoa` passes makes for `k` digits. -/
theorem decimals_eq {p : List Char} {n k : Nat} (hn : n < 2 ^ 31) (hk0 : 0 < k) (hk9 : k ≤ 9)
    (hp : p.length + MAX_FILLER ≤ TMPBUF_SIZE) :
    longToStringWithDivisor p (BitVec.ofNat 32 n) 10 (BitVec.ofNat 32 (10 ^ k / 10)) =
      some (p ++ showNat 10 k n) := by
  have hdiv : 10 ^ k / 10 = 10 ^ (k - 1) := by
    conv_lhs => rw [← Nat.succ_pred_eq_of_pos hk0, pow_succ]
    exact Nat.mul_div_cancel _ (by decide)
  have hle : 10 ^ (k - 1) ≤ 10 ^ 8 := Nat.pow_le_pow_right (by decide) (by omega)
  have hdivisor : (BitVec.ofNat 32 (10 ^ k / 10)).toNat = 10 ^ (k - 1) := by
    rw [hdiv, toNat_ofNat_of_lt (by omega)]
  have hne : BitVec.ofNat 32 (10 ^ k / 10) ≠ 0 := by
    intro h
    rw [h] at hdivisor
    exact absurd hdivisor.symm (Nat.pow_pos (by decide)).ne'
  have hwidth : width 10 (10 ^ (k - 1)) = k := by
    rw [width_pow (by decide)]
    omega
  have hfit : width 10 (10 ^ (k - 1)) ≤ MAX_FILLER := by
    show _ ≤ 11
    omega
  have hkey := @longToStringWithDivisor_eq p (BitVec.ofNat 32 n) (BitVec.ofNat 32 (10 ^ k / 10)) 10
    (by decide) (by decide) hp
  rw [if_neg hne, hdivisor, toNat_ofNat_of_lt hn] at hkey
  rw [hkey hfit, hwidth]

/-- `ftoa` on a `float` that is not negative and fits into a `long`. -/
theorem ftoa_eq (fl : Floats) {p : List Char} {x : ℚ} (precision : Nat)
    (hx : Representable 24 (-149) x) (h0 : 0 ≤ x) (hlt : x < 2 ^ 31) (hp : p.length ≤ 1) :
    ftoa fl p x precision = some (p ++ decimalText (places precision) x) := by
  obtain ⟨hk0, hk9⟩ := places_bounds precision
  have hplaces : (if precision = 0 ∨ precision > FLOAT_PRECISION then FLOAT_PRECISION
      else precision) = places precision := rfl
  generalize places precision = k at hk0 hk9 hplaces ⊢
  -- The integer part, ten digits at most.
  obtain ⟨hlong, hfloor⟩ := toLong_eq h0 hlt
  have hint : (BitVec.ofNat 32 ⌊x⌋₊).toInt = (⌊x⌋₊ : ℤ) := by
    rw [BitVec.toInt_eq_toNat_of_lt, toNat_ofNat_of_lt hfloor]
    rw [toNat_ofNat_of_lt hfloor]
    omega
  have hw : width 10 ⌊x⌋₊ ≤ 10 := width_le (by decide) (by omega)
  have hfill : p.length + MAX_FILLER ≤ TMPBUF_SIZE := by
    show p.length + 11 ≤ 23
    omega
  have hfirst := @chLtoa_eq p (BitVec.ofNat 32 ⌊x⌋₊) 10 (by decide) (by decide) hfill
  rw [chLtoa, toNat_ofNat_of_lt hfloor] at hfirst
  -- The point, at index eleven at most.
  have hlen : (p ++ showNat 10 (width 10 ⌊x⌋₊) ⌊x⌋₊).length ≤ 11 := by
    rw [List.length_append, length_showNat]
    omega
  have hstore : store (p ++ showNat 10 (width 10 ⌊x⌋₊) ⌊x⌋₊) '.' =
      some (p ++ showNat 10 (width 10 ⌊x⌋₊) ⌊x⌋₊ ++ ['.']) := by
    refine if_pos ?_
    show _ < 23
    omega
  -- The fraction, from index twelve on.
  have hlow : 0 ≤ Int.fract x * 10 ^ k := mul_nonneg (Int.fract_nonneg x) (by positivity)
  have hhigh : Int.fract x * 10 ^ k < 2 ^ 31 := by
    have hpow : (10 : ℚ) ^ k ≤ 10 ^ 9 := pow_le_pow_right₀ (by norm_num) hk9
    calc Int.fract x * 10 ^ k < 10 ^ k :=
          (mul_lt_iff_lt_one_left (by positivity)).mpr (Int.fract_lt_one x)
      _ ≤ 10 ^ 9 := hpow
      _ < 2 ^ 31 := by norm_num
  obtain ⟨hlong2, hfloor2⟩ := toLong_eq hlow hhigh
  have hfill2 : (p ++ showNat 10 (width 10 ⌊x⌋₊) ⌊x⌋₊ ++ ['.']).length + MAX_FILLER ≤
      TMPBUF_SIZE := by
    rw [List.length_append]
    show _ + 1 + 11 ≤ 23
    omega
  have hsecond := decimals_eq hfloor2 hk0 hk9 hfill2
  simp only [ftoa, hplaces, pow10_eq hk0 hk9, hlong, hint, hfirst, hstore,
    round_scaled_fract fl hx h0 hk9, hlong2, hsecond, Option.bind_eq_bind, Option.bind_some]
  rw [decimalText, List.append_assoc, List.append_assoc]
  rfl

/-- A number that a `long` cannot hold makes `ftoa` undefined. -/
theorem ftoa_eq_none (fl : Floats) (p : List Char) {x : ℚ} (precision : Nat) (hx : 2 ^ 31 ≤ x) :
    ftoa fl p x precision = none := by
  have hfloor : (2 ^ 31 : ℤ) ≤ ⌊x⌋ := Int.le_floor.mpr (by exact_mod_cast hx)
  have hlong : toLong x = none := by
    have hpos : 0 ≤ x := le_trans (by norm_num) hx
    rw [toLong, integerPart, if_pos hpos, if_neg (by omega)]
  rw [ftoa, hlong]
  rfl

/-! ### The numeric conversions -/

/-- The sign that a signed conversion writes. -/
def signText (doSign negative : Bool) : List Char :=
  if negative then ['-'] else if doSign then ['+'] else []

/-- There is no sign, or one of two. -/
theorem signText_cases (doSign negative : Bool) :
    signText doSign negative = [] ∨ signText doSign negative = ['-'] ∨
      signText doSign negative = ['+'] := by
  cases doSign <;> cases negative <;> decide

/-- A number without leading zeros. -/
def digits (radix n : Nat) : List Char := showNat radix (width radix n) n

/-- `%f` writes the sign and the decimals of the `float`, if a `long` can hold its
integer part. -/
theorem convert_float (fl : Floats) {spec : Spec} (x : ℚ) (ap : List Arg) (hc : spec.c = 'f') :
    convert fl spec (.double (some x) :: ap) =
      if |fl.single.round x| < 2 ^ 31 then
        some (signText spec.doSign (fl.single.round x < 0) ++
          decimalText (places (BitVec.ofInt 32 spec.precision).toNat) |fl.single.round x|,
          spec.filler, ap)
      else none := by
  have hx : Representable 24 (-149) (fl.single.round x) := fl.single.representable x
  simp only [convert, hc]
  generalize fl.single.round x = f at hx ⊢
  by_cases hneg : f < 0
  · rw [if_pos hneg, abs_of_neg hneg, decide_eq_true hneg]
    by_cases hlt : -f < 2 ^ 31
    · rw [if_pos hlt, ftoa_eq fl (p := ['-']) _ hx.neg (by linarith) hlt le_rfl]
      rfl
    · rw [if_neg hlt, ftoa_eq_none fl _ _ (not_lt.mp hlt)]
      rfl
  · rw [if_neg hneg, abs_of_nonneg (not_lt.mp hneg), decide_eq_false hneg]
    by_cases hlt : f < 2 ^ 31
    · have htext := ftoa_eq fl (p := if spec.doSign then ['+'] else [])
        (BitVec.ofInt 32 spec.precision).toNat hx (not_lt.mp hneg) hlt
        (by cases spec.doSign <;> decide)
      rw [if_pos hlt, htext]
      rfl
    · rw [if_neg hlt, ftoa_eq_none fl _ _ (not_lt.mp hlt)]
      rfl

/-- A signed conversion writes the sign and the digits, but for the least `long`. -/
theorem convert_signed (fl : Floats) {spec : Spec} (l : Long) (ap : List Arg)
    (hc : spec.c = 'D' ∨ spec.c = 'd' ∨ spec.c = 'I' ∨ spec.c = 'i') :
    convert fl spec (.int l :: ap) =
      if l = BitVec.intMin 32 then none
      else some (signText spec.doSign (l.toInt < 0) ++ digits 10 l.toInt.natAbs,
        spec.filler, ap) := by
  have hconv : convert fl spec (.int l :: ap) = (do
      let p ←
        if l.toInt < 0 then
          if l = BitVec.intMin 32 then none else chLtoa ['-'] (-l) 10
        else chLtoa (if spec.doSign then ['+'] else []) l 10
      some (p, spec.filler, ap)) := by
    rcases hc with h | h | h | h <;> simp only [convert, h] <;> rfl
  rw [hconv, digits]
  by_cases hneg : l.toInt < 0
  · rw [if_pos hneg, decide_eq_true hneg]
    by_cases hl : l = BitVec.intMin 32
    · rw [if_pos hl, if_pos hl]
      rfl
    · have habs : (-l).toNat = l.toInt.natAbs := by
        have hlt := l.isLt
        rw [BitVec.toInt_eq_toNat_cond] at hneg ⊢
        rw [BitVec.toNat_neg]
        split at hneg <;> omega
      rw [if_neg hl, if_neg hl, chLtoa_eq (by decide) (by decide) (by decide), habs]
      rfl
  · have hl : l ≠ BitVec.intMin 32 := by
      rintro rfl
      exact hneg (by decide)
    have habs : l.toNat = l.toInt.natAbs := by
      have hlt := l.isLt
      rw [BitVec.toInt_eq_toNat_cond] at hneg ⊢
      split at hneg <;> omega
    have hfill : (if spec.doSign then ['+'] else []).length + MAX_FILLER ≤ TMPBUF_SIZE := by
      cases spec.doSign <;> decide
    rw [if_neg hneg, if_neg hl, chLtoa_eq (by decide) (by decide) hfill, ← habs,
      decide_eq_false hneg]
    rfl

/-- What the conversions that jump to `unsigned_common` do. -/
theorem chLtoa_unsigned (spec : Spec) {radix : Nat} (l : Long) (ap : List Arg) (h8 : 8 ≤ radix)
    (h16 : radix ≤ 16) :
    ((do
      let p ← chLtoa [] l radix
      some (p, spec.filler, ap)) : Option (List Char × Char × List Arg)) =
      some (digits radix l.toNat, spec.filler, ap) := by
  rw [chLtoa_eq h8 h16 (by decide)]
  rfl

/-- A hexadecimal conversion. -/
theorem convert_hex (fl : Floats) {spec : Spec} (l : Long) (ap : List Arg)
    (hc : spec.c = 'X' ∨ spec.c = 'x' ∨ spec.c = 'P' ∨ spec.c = 'p') :
    convert fl spec (.int l :: ap) = some (digits 16 l.toNat, spec.filler, ap) := by
  rw [← chLtoa_unsigned spec l ap (by decide) le_rfl]
  rcases hc with h | h | h | h <;> simp only [convert, h] <;> rfl

/-- An unsigned decimal conversion. -/
theorem convert_decimal (fl : Floats) {spec : Spec} (l : Long) (ap : List Arg)
    (hc : spec.c = 'U' ∨ spec.c = 'u') :
    convert fl spec (.int l :: ap) = some (digits 10 l.toNat, spec.filler, ap) := by
  rw [← chLtoa_unsigned spec l ap (by decide) (by decide)]
  rcases hc with h | h <;> simp only [convert, h] <;> rfl

/-- An octal conversion. -/
theorem convert_octal (fl : Floats) {spec : Spec} (l : Long) (ap : List Arg)
    (hc : spec.c = 'O' ∨ spec.c = 'o') :
    convert fl spec (.int l :: ap) = some (digits 8 l.toNat, spec.filler, ap) := by
  rw [← chLtoa_unsigned spec l ap le_rfl (by decide)]
  rcases hc with h | h <;> simp only [convert, h] <;> rfl

/-! ### Strings -/

/-- The characters of a string: up to its NUL, at most `precision` of them, where 0
stands for 32767 and a negative number for none. They must be there, with the one
that the string or the count ends before. Only the least `precision` has no meaning,
but for an empty string. -/
def cString (precision : Int) (s : List Char) : Option (List Char) :=
  let n := (if precision = 0 then 32767 else precision).toNat
  if (n < s.length ∨ NUL ∈ s) ∧ (precision = INT_MIN → s.head? = some NUL) then
    some ((s.takeWhile (· ≠ NUL)).take n)
  else none

/-- The loop takes as many characters as a count that is not negative says. -/
theorem strChars_natCast (n : Nat) (s : List Char) :
    strChars n s =
      if n < s.length ∨ NUL ∈ s then some ((s.takeWhile (· ≠ NUL)).take n) else none := by
  induction s generalizing n with
  | nil => rfl
  | cons c s ih =>
      rw [strChars]
      by_cases hc : c = NUL
      · rw [if_pos hc, if_pos (.inr (hc ▸ List.mem_cons_self)),
          List.takeWhile_cons_of_neg (by simpa using hc), List.take_nil]
      · have hmin : ((n : Nat) : Int) ≠ INT_MIN := by
          unfold INT_MIN
          omega
        have htake : (c :: s).takeWhile (· ≠ NUL) = c :: s.takeWhile (· ≠ NUL) :=
          List.takeWhile_cons_of_pos (by simpa using hc)
        have hmem : NUL ∈ c :: s ↔ NUL ∈ s := by
          rw [List.mem_cons]
          exact or_iff_right fun h => hc h.symm
        simp only [if_neg hc, if_neg hmin, htake, hmem, List.length_cons]
        cases n with
        | zero =>
            rw [if_neg (by omega), if_pos (.inl (Nat.succ_pos _))]
            rfl
        | succ n =>
            have hpred : ((n + 1 : Nat) : Int) - 1 = (n : Nat) := by omega
            simp only [if_pos (show ((n : Nat) : Int) ≥ 0 by omega), hpred, ih,
              Nat.add_lt_add_iff_right]
            split <;> rfl

/-- The loop of `%s` finds the characters of the string. -/
theorem strChars_eq (precision : Int) (s : List Char) :
    strChars (if precision = 0 then 32767 else precision) s = cString precision s := by
  rw [cString]
  rcases lt_or_ge precision 0 with hneg | hpos
  · -- One look at the string decides.
    have hn : (if precision = 0 then 32767 else precision).toNat = 0 := by
      rw [if_neg hneg.ne]
      omega
    rw [hn, if_neg hneg.ne]
    cases s with
    | nil => rfl
    | cons c s =>
        rw [strChars, List.take_zero, List.head?_cons]
        by_cases hc : c = NUL
        · rw [if_pos hc, if_pos ⟨.inl (Nat.succ_pos _), fun _ => congrArg some hc⟩]
        · rw [if_neg hc]
          by_cases hmin : precision = INT_MIN
          · rw [if_pos hmin, if_neg fun h => hc (Option.some.inj (h.2 hmin))]
          · rw [if_neg hmin, if_neg (by omega),
              if_pos ⟨.inl (Nat.succ_pos _), fun h => absurd h hmin⟩]
  · have hmin : precision ≠ INT_MIN := by
      unfold INT_MIN
      omega
    have hcast : (if precision = 0 then 32767 else precision) =
        ((if precision = 0 then 32767 else precision).toNat : Int) := by
      split <;> omega
    generalize (if precision = 0 then 32767 else precision) = n at hcast ⊢
    rw [hcast, strChars_natCast, Int.toNat_natCast]
    refine if_congr ?_ rfl rfl
    exact ⟨fun h => ⟨h, fun h' => absurd h' hmin⟩, And.left⟩

end ChibiOS.Printf
