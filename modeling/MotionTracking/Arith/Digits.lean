import Mathlib.Data.Nat.Digits.Lemmas
import Mathlib.Data.Nat.Log
import Mathlib.Data.Rat.Floor
import Mathlib.Tactic.FieldSimp
import Mathlib.Tactic.Linarith

/-!
# `MotionTracking.Arith.Digits`: numbers as strings of digits

`numeral b w n` is the number `n` in base `b` with exactly `w` digits, the most
significant one first, and `value` reads such a list back. Mathlib's `Nat.digits`
starts with the least significant digit and never has a leading zero; a printer
has both the other way round.

`showNat` and `readNat` do the same with characters, the digits above nine being
capital letters. `readDecimal` also reads a sign and a fraction.
-/

set_option autoImplicit false

namespace Arith

/-! ### Lists of digits -/

/-- The `w` lowest digits of `n` in base `b`, most significant first. -/
def numeral (b : ℕ) : ℕ → ℕ → List ℕ
  | 0, _ => []
  | w + 1, n => numeral b w (n / b) ++ [n % b]

/-- The number that a list of digits stands for. -/
def value (b : ℕ) (ds : List ℕ) : ℕ := Nat.ofDigits b ds.reverse

/-- The number of digits that `n` needs: one for zero. -/
def width (b n : ℕ) : ℕ := Nat.log b n + 1

/-- A numeral has the width it is written with. -/
@[simp] theorem length_numeral (b w n : ℕ) : (numeral b w n).length = w := by
  induction w generalizing n with
  | zero => rfl
  | succ w ih => rw [numeral, List.length_append, ih]; rfl

/-- Each digit of a numeral is below the base. -/
theorem numeral_lt {b : ℕ} (hb : 0 < b) {w n d : ℕ} (h : d ∈ numeral b w n) : d < b := by
  induction w generalizing n with
  | zero => exact absurd h List.not_mem_nil
  | succ w ih =>
      rw [numeral, List.mem_append, List.mem_singleton] at h
      cases h with
      | inl h => exact ih h
      | inr h => rw [h]; exact Nat.mod_lt n hb

/-- One more digit behind shifts the others by a place, as when a text is read from its
start. -/
theorem value_append_singleton (b : ℕ) (ds : List ℕ) (d : ℕ) :
    value b (ds ++ [d]) = value b ds * b + d := by
  rw [value, value, List.reverse_append, List.reverse_singleton, List.singleton_append,
    Nat.ofDigits_cons]
  ring

/-- Reading back `w` digits gives the number, as far as `w` digits hold it. -/
theorem value_numeral (b w n : ℕ) : value b (numeral b w n) = n % b ^ w := by
  induction w generalizing n with
  | zero => rw [pow_zero, Nat.mod_one]; rfl
  | succ w ih =>
      rw [numeral, value_append_singleton, ih, pow_succ', Nat.mod_mul]
      ring

/-- Every number takes at least one digit, 0 included. -/
theorem width_pos (b n : ℕ) : 0 < width b n := Nat.succ_pos _

/-- A number fits in its width. -/
theorem lt_pow_width {b : ℕ} (hb : 1 < b) (n : ℕ) : n < b ^ width b n :=
  Nat.lt_pow_succ_log_self hb n

/-- One digit less for each division by the base. -/
theorem width_div {b n : ℕ} (hb : 1 < b) (hn : b ≤ n) : width b n = width b (n / b) + 1 := by
  rw [width, width, Nat.log_div_base, Nat.sub_add_cancel (Nat.log_pos hb hn)]

/-- What is below the base is one digit wide. -/
theorem width_of_lt {b n : ℕ} (hn : n < b) : width b n = 1 := by
  rw [width, Nat.log_of_lt hn]

/-- A number that fits in `w` places is at most `w` digits wide. -/
theorem width_le {b n w : ℕ} (hw : 0 < w) (hn : n < b ^ w) : width b n ≤ w := by
  have hlog : Nat.log b n < w := Nat.log_lt_of_lt_pow' (by omega) hn
  show Nat.log b n + 1 ≤ w
  omega

/-- Written with as many digits as it needs, a number has no leading zero. -/
theorem numeral_width_head {b n : ℕ} (hb : 1 < b) (hn : 0 < n) :
    ∃ d ds, numeral b (width b n) n = d :: ds ∧ 0 < d := by
  induction n using Nat.strong_induction_on with
  | _ n ih =>
      rcases Nat.lt_or_ge n b with hlt | hge
      · refine ⟨n, [], ?_, hn⟩
        rw [width_of_lt hlt]
        show [] ++ [n % b] = [n]
        rw [Nat.mod_eq_of_lt hlt, List.nil_append]
      · have hdiv : n / b < n := Nat.div_lt_self hn hb
        have hpos : 0 < n / b := Nat.div_pos hge (by omega)
        obtain ⟨d, ds, hnum, hd⟩ := ih (n / b) hdiv hpos
        refine ⟨d, ds ++ [n % b], ?_, hd⟩
        rw [width_div hb hge, numeral, hnum, List.cons_append]

/-- The `w`-th power of the base is a one with `w` zeros behind it. -/
@[simp] theorem width_pow {b : ℕ} (hb : 1 < b) (w : ℕ) : width b (b ^ w) = w + 1 := by
  rw [width, Nat.log_pow hb]

/-! ### Zeros at the ends -/

/-- Zero is written with zeros only, whatever the width. -/
theorem numeral_zero (b w : ℕ) : numeral b w 0 = List.replicate w 0 := by
  induction w with
  | zero => rfl
  | succ w ih => rw [numeral, Nat.zero_div, Nat.zero_mod, ih, List.replicate_succ']

/-- Zeros in front do not change the number. -/
theorem numeral_add {b w n : ℕ} (a : ℕ) (hn : n < b ^ w) :
    numeral b (a + w) n = List.replicate a 0 ++ numeral b w n := by
  induction w generalizing n with
  | zero =>
      have h0 : n = 0 := by rwa [pow_zero, Nat.lt_one_iff] at hn
      rw [h0, numeral_zero]
      exact (List.append_nil _).symm
  | succ w ih =>
      have hdiv : n / b < b ^ w := Nat.div_lt_of_lt_mul (by rwa [pow_succ'] at hn)
      rw [← Nat.add_assoc, numeral, numeral, ih hdiv, List.append_assoc]

/-- A zero at the end multiplies by the base. -/
theorem numeral_mul {b : ℕ} (hb : 0 < b) (k c f : ℕ) :
    numeral b (k + c) (f * b ^ c) = numeral b k f ++ List.replicate c 0 := by
  induction c with
  | zero => rw [pow_zero, Nat.mul_one, List.replicate_zero, List.append_nil]; rfl
  | succ c ih =>
      have hprod : f * b ^ (c + 1) = f * b ^ c * b := by rw [pow_succ, Nat.mul_assoc]
      rw [← Nat.add_assoc, numeral, hprod, Nat.mul_div_cancel _ hb, Nat.mul_mod_left, ih,
        List.append_assoc, List.replicate_succ']

/-! ### Digits as characters -/

/-- The character of a digit. -/
def digitChar (d : ℕ) : Char :=
  if d ≤ 9 then Char.ofNat ('0'.toNat + d) else Char.ofNat ('A'.toNat + (d - 10))

/-- The digit of a character, in base `b`. -/
def charDigit (b : ℕ) (c : Char) : Option ℕ :=
  let d :=
    if '0' ≤ c ∧ c ≤ '9' then some (c.toNat - '0'.toNat)
    else if 'A' ≤ c ∧ c ≤ 'Z' then some (c.toNat - 'A'.toNat + 10)
    else none
  d.filter (· < b)

/-- A digit's character is read back as the digit, in any base up to 16. -/
theorem charDigit_digitChar {b d : ℕ} (hd : d < b) (hb : b ≤ 16) :
    charDigit b (digitChar d) = some d := by
  have hall : ∀ d < 16, charDigit 16 (digitChar d) = some d := by decide
  have hkey : charDigit 16 (digitChar d) = some d := hall d (by omega)
  simp only [charDigit, Option.filter_eq_some_iff] at hkey ⊢
  exact ⟨hkey.1, by simpa using hd⟩

/-- The text of `n` in base `b`, with `w` digits. -/
def showNat (b w n : ℕ) : List Char := (numeral b w n).map digitChar

/-- The number that a text stands for, if it is one. -/
def readNat (b : ℕ) (cs : List Char) : Option ℕ :=
  if cs = [] then none else (cs.mapM (charDigit b)).map (value b)

/-- The text of a number has the width it was written with. -/
@[simp] theorem length_showNat (b w n : ℕ) : (showNat b w n).length = w := by
  rw [showNat, List.length_map, length_numeral]

/-- The characters of a list of digits are read back as the list: `charDigit_digitChar` at
each place. -/
theorem mapM_charDigit {b : ℕ} (hb : b ≤ 16) {ds : List ℕ} (hds : ∀ d ∈ ds, d < b) :
    (ds.map digitChar).mapM (charDigit b) = some ds := by
  induction ds with
  | nil => rfl
  | cons d ds ih =>
      have hd : charDigit b (digitChar d) = some d :=
        charDigit_digitChar (hds d List.mem_cons_self) hb
      have hrest := ih fun e he => hds e (List.mem_cons_of_mem d he)
      simp only [List.map_cons, List.mapM_cons, hd, hrest]
      rfl

/-- What is shown with enough digits is read back. -/
theorem readNat_showNat {b w n : ℕ} (h0 : 0 < b) (hb : b ≤ 16) (hw : 0 < w) (hn : n < b ^ w) :
    readNat b (showNat b w n) = some n := by
  have hne : showNat b w n ≠ [] := by
    intro h
    have hlen : (showNat b w n).length = 0 := congrArg List.length h
    rw [length_showNat] at hlen
    omega
  rw [readNat, if_neg hne, showNat, mapM_charDigit hb fun d hd => numeral_lt h0 hd,
    Option.map_some, value_numeral, Nat.mod_eq_of_lt hn]

/-- Zeros in front of a number do not change it, and widen it. -/
theorem replicate_append_showNat {b w n : ℕ} (a : ℕ) (hn : n < b ^ w) :
    List.replicate a '0' ++ showNat b w n = showNat b (a + w) n := by
  rw [showNat, showNat, numeral_add a hn, List.map_append, List.map_replicate]
  rfl

/-- Zeros behind a number multiply it by a power of the base. -/
theorem showNat_append_replicate {b : ℕ} (hb : 0 < b) (k c f : ℕ) :
    showNat b k f ++ List.replicate c '0' = showNat b (k + c) (f * b ^ c) := by
  rw [showNat, showNat, numeral_mul hb, List.map_append, List.map_replicate]
  rfl

/-- Decimal digits are not before `0` in the order of the characters. -/
theorem zero_le_digitChar {d : ℕ} (hd : d < 10) : '0' ≤ digitChar d := by
  have hall : ∀ d < 10, '0' ≤ digitChar d := by decide
  exact hall d hd

/-- Decimal digits come after the characters of punctuation. -/
theorem zero_le_of_mem_showNat {w n : ℕ} {c : Char} (hc : c ∈ showNat 10 w n) : '0' ≤ c := by
  rw [showNat, List.mem_map] at hc
  obtain ⟨d, hd, rfl⟩ := hc
  exact zero_le_digitChar (numeral_lt (by omega) hd)

/-- A character before `0`, such as a sign, a point or a space, is in no decimal number.
-/
theorem ne_of_mem_showNat {w n : ℕ} {c d : Char} (hc : c ∈ showNat 10 w n) (hd : d < '0') :
    c ≠ d := by
  intro h
  exact absurd (zero_le_of_mem_showNat hc) (by rw [h]; exact Char.not_le.mpr hd)

/-! ### Decimal fractions -/

/-- The number that the text of a fraction without a sign stands for. -/
def readFraction (cs : List Char) : Option ℚ :=
  match cs.dropWhile (· ≠ '.') with
  | [] => (readNat 10 cs).map Nat.cast
  | _ :: frac => do
      let i ← readNat 10 (cs.takeWhile (· ≠ '.'))
      let f ← readNat 10 frac
      some (i + f / 10 ^ frac.length)

/-- The number that a decimal text stands for. -/
def readDecimal : List Char → Option ℚ
  | '-' :: cs => (readFraction cs).map (- ·)
  | '+' :: cs => readFraction cs
  | cs => readFraction cs

/-- The text of a fraction: `w` digits, a point and `k` digits. -/
theorem readFraction_append {w k i f : ℕ} (hw : 0 < w) (hk : 0 < k) (hi : i < 10 ^ w)
    (hf : f < 10 ^ k) :
    readFraction (showNat 10 w i ++ '.' :: showNat 10 k f) = some ((i : ℚ) + f / 10 ^ k) := by
  have hint : ∀ c ∈ showNat 10 w i, decide (c ≠ '.') = true := by
    intro c hc
    exact decide_eq_true (ne_of_mem_showNat hc (by decide))
  have hdrop : (showNat 10 w i ++ '.' :: showNat 10 k f).dropWhile (· ≠ '.') =
      '.' :: showNat 10 k f := by
    rw [List.dropWhile_append_of_pos hint]
    rfl
  have htake : (showNat 10 w i ++ '.' :: showNat 10 k f).takeWhile (· ≠ '.') =
      showNat 10 w i := by
    rw [List.takeWhile_append_of_pos hint]
    show showNat 10 w i ++ [] = _
    rw [List.append_nil]
  rw [readFraction, hdrop, htake]
  simp only [readNat_showNat (by decide) (by decide) hw hi,
    readNat_showNat (by decide) (by decide) hk hf, length_showNat]
  rfl

/-- A text that starts with a digit has no sign to be read. -/
theorem readDecimal_of_digit {c : Char} {cs : List Char} (hc : '0' ≤ c) :
    readDecimal (c :: cs) = readFraction (c :: cs) := by
  have hminus : c ≠ '-' := by rintro rfl; exact absurd hc (by decide)
  have hplus : c ≠ '+' := by rintro rfl; exact absurd hc (by decide)
  unfold readDecimal
  split
  · rename_i h
    exact absurd (List.cons.inj h).1 hminus
  · rename_i h
    exact absurd (List.cons.inj h).1 hplus
  · rfl

/-- `x` without what comes after its `k`-th decimal place. -/
def truncate (k : ℕ) (x : ℚ) : ℚ :=
  if 0 ≤ x then ⌊x * 10 ^ k⌋ / 10 ^ k else ⌈x * 10 ^ k⌉ / 10 ^ k

/-- Truncation goes towards zero, so a sign passes through it. -/
theorem truncate_neg (k : ℕ) {x : ℚ} (hx : x < 0) : truncate k x = -truncate k (-x) := by
  rw [truncate, truncate, if_neg hx.not_ge, if_pos (by linarith), neg_mul, Int.floor_neg]
  push_cast
  ring

/-- A number that is not negative, cut off after `k` places: its integer part and
the first `k` digits of its fraction. -/
theorem truncate_eq {k : ℕ} {x : ℚ} (hx : 0 ≤ x) :
    truncate k x = (⌊x⌋₊ : ℚ) + (⌊Int.fract x * 10 ^ k⌋₊ : ℚ) / 10 ^ k := by
  have hpow : (0 : ℚ) < 10 ^ k := by positivity
  have hfract : 0 ≤ Int.fract x * 10 ^ k := mul_nonneg (Int.fract_nonneg x) hpow.le
  have hsplit : x * 10 ^ k = ((⌊x⌋ * 10 ^ k : ℤ) : ℚ) + Int.fract x * 10 ^ k := by
    push_cast
    rw [← add_mul, Int.floor_add_fract]
  have hfloor : ⌊x * 10 ^ k⌋ = ⌊x⌋ * 10 ^ k + ⌊Int.fract x * 10 ^ k⌋ := by
    rw [hsplit, Int.floor_intCast_add]
  rw [truncate, if_pos hx, hfloor]
  push_cast [natCast_floor_eq_intCast_floor hx, natCast_floor_eq_intCast_floor hfract]
  field_simp

end Arith
