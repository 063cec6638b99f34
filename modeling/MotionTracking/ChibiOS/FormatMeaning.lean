import MotionTracking.ChibiOS.NumberText

/-!
# `MotionTracking.ChibiOS.FormatMeaning`: what a format means

The meaning of a directive `%[-][+][0][width|*][.precision|*][l]c`, said without
buffers, loops or counters: its conversion character gives the kind of argument it
takes (`kindOf`), the argument a text with a sign or without one (`field`), and the
width and the flags the place of the text among the filling characters (`pad`). A
format means one piece after the other (`render`).

`chvprintf_spell` compares the interpreter with that. It also says exactly where the
interpreter is undefined: for an argument of another kind, the least `long` of a signed
conversion, a `float` too large for a `long`, the least precision of a string, a width
from which the length of the text cannot be subtracted, and more output than an `int`
counts.

The second half reads printed numbers back.
-/

set_option autoImplicit false

namespace ChibiOS.Printf

open Arith

/-! ### The meaning of a directive -/

/-- What a conversion takes and writes. -/
inductive Kind where
  | char
  | string
  | signed
  | unsigned (radix : Nat)
  | float
  /-- Any other character stands for itself. -/
  | literal
  deriving DecidableEq

/-- The table of the conversion characters. -/
def kindOf (c : Char) : Kind :=
  if c = 'c' then .char
  else if c = 's' then .string
  else if c = 'D' ∨ c = 'd' ∨ c = 'I' ∨ c = 'i' then .signed
  else if c = 'X' ∨ c = 'x' ∨ c = 'P' ∨ c = 'p' then .unsigned 16
  else if c = 'U' ∨ c = 'u' then .unsigned 10
  else if c = 'O' ∨ c = 'o' then .unsigned 8
  else if c = 'f' then .float
  else .literal

/-- The text of an argument: its sign, and the rest. -/
structure Converted where
  sign : List Char
  body : List Char

namespace Converted

/-- Sign and body as they are printed, before padding. -/
def text (f : Converted) : List Char := f.sign ++ f.body

/-- The text in a field of `width` characters, or more if it is longer. The filling
characters stand behind it or in front of it; zeros in front of it stand behind its
sign. -/
def pad (f : Converted) (leftAlign zeros : Bool) (width : Int) : List Char :=
  let n := (width - f.text.length).toNat
  if leftAlign then f.text ++ List.replicate n (if zeros then '0' else ' ')
  else if zeros then f.sign ++ (List.replicate n '0' ++ f.body)
  else List.replicate n ' ' ++ f.text

end Converted

/-- The decimal places for a precision: nine, where there is no other number of them. -/
def decimals (precision : Int) : Nat :=
  if 1 ≤ precision ∧ precision ≤ 9 then precision.toNat else 9

namespace Directive

/-- The text of the argument, and the arguments left. -/
def field (d : Directive) (fl : Floats) (precision : Int) (ap : List Arg) :
    Option (Converted × List Arg) :=
  match kindOf d.c, ap with
  | .char, .int v :: ap => some (⟨[], [Char.ofNat (v.toNat % 256)]⟩, ap)
  | .string, .str s :: ap =>
      (cString precision (s.getD ['(', 'n', 'u', 'l', 'l', ')', NUL])).map fun s => (⟨[], s⟩, ap)
  | .signed, .int v :: ap =>
      if v = BitVec.intMin 32 then none
      else some (⟨signText d.doSign (v.toInt < 0), digits 10 v.toInt.natAbs⟩, ap)
  | .unsigned radix, .int v :: ap => some (⟨[], digits radix v.toNat⟩, ap)
  | .float, .double (some x) :: ap =>
      let f := fl.single.round x
      if |f| < 2 ^ 31 then
        some (⟨signText d.doSign (f < 0), decimalText (decimals precision) |f|⟩, ap)
      else none
  | .literal, ap => some (⟨[], [d.c]⟩, ap)
  | _, _ => none

/-- Characters and strings are filled with blanks only. -/
def zeros (d : Directive) : Bool :=
  d.zero && decide (kindOf d.c ≠ .char) && decide (kindOf d.c ≠ .string)

/-- What the directive puts, and the arguments left. -/
def meaning (d : Directive) (fl : Floats) (ap : List Arg) : Option (List Char × List Arg) := do
  let (width, ap) ← d.width.take ap
  let (precision, ap) ← d.precision.take ap
  let (f, ap) ← d.field fl precision ap
  if width - f.text.length < INT_MIN then none
  else some (f.pad d.leftAlign d.zeros width, ap)

end Directive

/-- What the pieces put, one after the other. -/
def render (fl : Floats) : List Piece → List Arg → Option (List Char)
  | [], _ => some []
  | .lit c _ :: ps, ap => (render fl ps ap).map (c :: ·)
  | .conv d :: ps, ap => do
      let (out, ap) ← d.meaning fl ap
      let rest ← render fl ps ap
      some (out ++ rest)

/-! ### The conversions -/

/-- A width or a precision is an `int`. -/
theorem take_bounds {n : Count} {ap ap' : List Arg} {v : Int} (h : n.take ap = some (v, ap')) :
    INT_MIN ≤ v ∧ v < 2 ^ 31 := by
  unfold INT_MIN
  cases n with
  | fixed n hn =>
      cases h
      omega
  | star =>
      rw [Count.take, Option.map_eq_some_iff] at h
      obtain ⟨⟨l, ap''⟩, -, hv⟩ := h
      cases hv
      exact ⟨BitVec.le_toInt l, BitVec.toInt_lt⟩

/-- A negative precision is a large `unsigned long`. -/
theorem places_ofInt {p : Int} (hlow : INT_MIN ≤ p) (hhigh : p < 2 ^ 31) :
    places (BitVec.ofInt 32 p).toNat = decimals p := by
  unfold INT_MIN at hlow
  have hnat : ((BitVec.ofInt 32 p).toNat : Int) = p % 2 ^ 32 := by
    rw [BitVec.toNat_ofInt, Int.toNat_of_nonneg (Int.emod_nonneg _ (by decide))]
    rfl
  unfold places decimals FLOAT_PRECISION
  rcases lt_or_ge p 0 with hneg | hpos
  · have hmod : p % 2 ^ 32 = p + 2 ^ 32 := by omega
    rw [if_pos (.inr (by omega)), if_neg (by omega)]
  · have hmod : p % 2 ^ 32 = p := by omega
    split <;> split <;> omega

section

variable (fl : Floats) (d : Directive) (w p : Int)

/-- A character that is in no row of the table but the last. -/
theorem convert_literal (ap : List Arg) (hk : kindOf d.c = .literal) :
    convert fl (d.spec w p) ap = some ([d.c], if d.zero then '0' else ' ', ap) := by
  have hc : (d.spec w p).c = d.c := rfl
  unfold convert
  split <;>
    first | rfl | (rename_i heq; rw [hc] at heq; rw [heq] at hk; exact absurd hk (by decide))

/-- The zero flag counts for a number, and for a character that stands for itself. -/
theorem zeros_eq (h : kindOf d.c ≠ .char) (h' : kindOf d.c ≠ .string) : d.zeros = d.zero := by
  rw [Directive.zeros, decide_eq_true h, decide_eq_true h', Bool.and_true, Bool.and_true]

variable {w p}

/-! ### Kind by kind -/

/-- The character of the kind `char`. -/
theorem eq_of_kindOf_char {c : Char} (h : kindOf c = .char) : c = 'c' := by
  unfold kindOf at h
  grind

/-- `%c` takes an `int`, and no zero flag. -/
theorem convert_kind_char (hk : kindOf d.c = .char) (ap : List Arg) :
    convert fl (d.spec w p) ap =
      (d.field fl p ap).map fun (f, ap) => (f.text, if d.zeros then '0' else ' ', ap) := by
  have hspec : (d.spec w p).c = d.c := rfl
  have hzeros : d.zeros = false := by
    rw [Directive.zeros, hk, Bool.and_assoc]
    exact Bool.and_false _
  unfold Directive.field
  simp only [hk]
  simp only [convert, hspec, eq_of_kindOf_char hk, hzeros]
  cases ap with
  | nil => rfl
  | cons a ap => cases a <;> rfl

/-- The character of the kind `string`. -/
theorem eq_of_kindOf_string {c : Char} (h : kindOf c = .string) : c = 's' := by
  unfold kindOf at h
  grind

/-- `%s` takes a string, and no zero flag. -/
theorem convert_kind_string (hk : kindOf d.c = .string) (ap : List Arg) :
    convert fl (d.spec w p) ap =
      (d.field fl p ap).map fun (f, ap) => (f.text, if d.zeros then '0' else ' ', ap) := by
  have hspec : (d.spec w p).c = d.c := rfl
  have hzeros : d.zeros = false := by
    rw [Directive.zeros, hk]
    exact Bool.and_false _
  unfold Directive.field
  simp only [hk]
  simp only [convert, hspec, eq_of_kindOf_string hk, hzeros]
  cases ap with
  | nil => rfl
  | cons a ap =>
      cases a with
      | str s =>
          have hstr := strChars_eq p (s.getD ['(', 'n', 'u', 'l', 'l', ')', NUL])
          have hprec : (d.spec w p).precision = p := rfl
          simp only [hprec, Option.bind_eq_bind]
          rw [hstr]
          cases cString p (s.getD ['(', 'n', 'u', 'l', 'l', ')', NUL]) <;> rfl
      | _ => rfl

/-- The characters of the kind `signed`. -/
theorem eq_of_kindOf_signed {c : Char} (h : kindOf c = .signed) :
    c = 'D' ∨ c = 'd' ∨ c = 'I' ∨ c = 'i' := by
  unfold kindOf at h
  grind

/-- `%d` and its kin take an integer. -/
theorem convert_kind_signed (hk : kindOf d.c = .signed) (ap : List Arg) :
    convert fl (d.spec w p) ap =
      (d.field fl p ap).map fun (f, ap) => (f.text, if d.zeros then '0' else ' ', ap) := by
  have hspec : (d.spec w p).c = d.c := rfl
  have hc := eq_of_kindOf_signed hk
  rw [zeros_eq d (by simp [hk]) (by simp [hk])]
  unfold Directive.field
  simp only [hk]
  cases ap with
  | nil => rcases hc with h | h | h | h <;> simp only [convert, hspec, h] <;> rfl
  | cons a ap =>
      cases a with
      | int l =>
          rw [convert_signed fl l ap hc]
          simp only
          split <;> rfl
      | _ => rcases hc with h | h | h | h <;> simp only [convert, hspec, h] <;> rfl

/-- The characters of the kind `unsigned`, by their radix. -/
theorem eq_of_kindOf_unsigned {c : Char} {radix : Nat} (h : kindOf c = .unsigned radix) :
    (radix = 16 ∧ (c = 'X' ∨ c = 'x' ∨ c = 'P' ∨ c = 'p')) ∨
      (radix = 10 ∧ (c = 'U' ∨ c = 'u')) ∨ (radix = 8 ∧ (c = 'O' ∨ c = 'o')) := by
  unfold kindOf at h
  grind

/-- `%x`, `%u`, `%o` and their kin take an integer. -/
theorem convert_kind_unsigned {radix : Nat} (hk : kindOf d.c = .unsigned radix) (ap : List Arg) :
    convert fl (d.spec w p) ap =
      (d.field fl p ap).map fun (f, ap) => (f.text, if d.zeros then '0' else ' ', ap) := by
  have hspec : (d.spec w p).c = d.c := rfl
  have hc := eq_of_kindOf_unsigned hk
  rw [zeros_eq d (by simp [hk]) (by simp [hk])]
  unfold Directive.field
  simp only [hk]
  cases ap with
  | nil =>
      rcases hc with ⟨-, h | h | h | h⟩ | ⟨-, h | h⟩ | ⟨-, h | h⟩ <;>
        simp only [convert, hspec, h] <;> rfl
  | cons a ap =>
      cases a with
      | int l =>
          rcases hc with ⟨rfl, h⟩ | ⟨rfl, h⟩ | ⟨rfl, h⟩
          · exact convert_hex fl l ap h
          · exact convert_decimal fl l ap h
          · exact convert_octal fl l ap h
      | _ =>
          rcases hc with ⟨-, h | h | h | h⟩ | ⟨-, h | h⟩ | ⟨-, h | h⟩ <;>
            simp only [convert, hspec, h] <;> rfl

/-- The character of the kind `float`. -/
theorem eq_of_kindOf_float {c : Char} (h : kindOf c = .float) : c = 'f' := by
  unfold kindOf at h
  grind

/-- `%f` takes a `double`, and reads a negative precision as a large one. -/
theorem convert_kind_float (hlow : INT_MIN ≤ p) (hhigh : p < 2 ^ 31) (hk : kindOf d.c = .float)
    (ap : List Arg) : convert fl (d.spec w p) ap =
      (d.field fl p ap).map fun (f, ap) => (f.text, if d.zeros then '0' else ' ', ap) := by
  have hspec : (d.spec w p).c = d.c := rfl
  have hc := eq_of_kindOf_float hk
  rw [zeros_eq d (by simp [hk]) (by simp [hk])]
  unfold Directive.field
  simp only [hk]
  cases ap with
  | nil => simp only [convert, hspec, hc]; rfl
  | cons a ap =>
      cases a with
      | double x =>
          cases x with
          | none => simp only [convert, hspec, hc]; rfl
          | some x =>
              have hprec : (d.spec w p).precision = p := rfl
              rw [convert_float fl x ap hc, hprec, places_ofInt hlow hhigh]
              simp only
              split <;> rfl
      | _ => simp only [convert, hspec, hc]; rfl

/-- The decoding of a conversion character does what its kind says. -/
theorem convert_eq_field (hlow : INT_MIN ≤ p) (hhigh : p < 2 ^ 31) (ap : List Arg) :
    convert fl (d.spec w p) ap =
      (d.field fl p ap).map fun (f, ap) => (f.text, if d.zeros then '0' else ' ', ap) := by
  cases hk : kindOf d.c with
  | char => exact convert_kind_char fl d hk ap
  | string => exact convert_kind_string fl d hk ap
  | signed => exact convert_kind_signed fl d hk ap
  | unsigned radix => exact convert_kind_unsigned fl d hk ap
  | float => exact convert_kind_float fl d hlow hhigh hk ap
  | literal =>
      rw [zeros_eq d (by simp [hk]) (by simp [hk]), convert_literal fl d w p ap hk]
      unfold Directive.field
      rw [hk]
      rfl

end

/-! ### The field -/

/-- A text that is filled with zeros has no sign but its own. -/
def Converted.Clear (f : Converted) : Prop :=
  (f.sign = [] ∨ f.sign = ['-'] ∨ f.sign = ['+']) ∧ ∀ c ∈ f.body.head?, c ≠ '-' ∧ c ≠ '+'

/-- The counting at the end of a round puts the text where the field says. -/
theorem output_eq_pad {f : Converted} {zeros : Bool} (hf : zeros = true → f.Clear)
    (leftAlign : Bool)
    (width : Int) :
    output leftAlign width (if zeros then '0' else ' ') f.text =
      if width - f.text.length < INT_MIN then none else some (f.pad leftAlign zeros width) := by
  rw [output, Converted.pad]
  by_cases hmin : width - f.text.length < INT_MIN
  · rw [if_pos hmin, if_pos hmin]
  rw [if_neg hmin, if_neg hmin]
  have hn : (if width - f.text.length < 0 then 0 else width - f.text.length) =
      ((width - f.text.length).toNat : Int) := by
    split <;> omega
  simp only [hn]
  generalize (width - f.text.length).toNat = n
  cases leftAlign with
  | true =>
      simp only [if_true]
      rw [if_neg (by omega), Int.toNat_natCast]
  | false =>
      simp only [Bool.false_eq_true, if_false, neg_neg, Int.toNat_natCast]
      rcases Nat.eq_zero_or_pos n with rfl | hpos
      · rw [if_neg (by decide)]
        cases zeros <;> exact congrArg some (List.append_nil _)
      · rw [if_pos (by omega)]
        cases zeros with
        | false =>
            simp only [Bool.false_eq_true, if_false]
            cases f.text with
            | nil => exact congrArg some (List.append_nil _).symm
            | cons c rest => exact congrArg some (if_neg fun h => absurd h.2 (by decide))
        | true =>
            -- The first character is a sign exactly when the field has one.
            obtain ⟨hsign, hbody⟩ := hf rfl
            simp only [if_true]
            rw [Converted.text]
            rcases hsign with hsign | hsign | hsign <;> rw [hsign]
            · cases hb : f.body with
              | nil => exact congrArg some (List.append_nil _).symm
              | cons c rest =>
                  have hc := hbody c (by rw [hb]; rfl)
                  exact congrArg some (if_neg fun h => h.1.elim hc.1 hc.2)
            · rfl
            · rfl

/-! ### Numbers as fields -/

/-- A number: a sign and then a text without blanks that begins with a digit. -/
structure Converted.Number (f : Converted) : Prop where
  isSign : f.sign = [] ∨ f.sign = ['-'] ∨ f.sign = ['+']
  head : ∃ c rest, f.body = c :: rest ∧ '0' ≤ c
  noBlank : ∀ c ∈ f.body, c ≠ ' '

/-- No digit is a sign. -/
theorem Converted.Number.clear {f : Converted} (h : f.Number) : f.Clear := by
  refine ⟨h.isSign, ?_⟩
  obtain ⟨d, rest, hbody, hd⟩ := h.head
  intro c hc
  rw [hbody, List.head?_cons, Option.mem_some_iff] at hc
  subst hc
  constructor
  · rintro rfl
    exact absurd hd (by decide)
  · rintro rfl
    exact absurd hd (by decide)

/-- A text with a digit begins with one. -/
theorem showNat_head {b w n : Nat} (hb : 0 < b) (hb16 : b ≤ 16) (hw : 0 < w) :
    ∃ c rest, showNat b w n = c :: rest ∧ '0' ≤ c := by
  have hall : ∀ d < 16, '0' ≤ digitChar d := by decide
  cases h : numeral b w n with
  | nil =>
      have hlen := length_numeral b w n
      rw [h] at hlen
      exact absurd hlen.symm hw.ne'
  | cons d ds =>
      have hd : d < b := numeral_lt hb (h ▸ List.mem_cons_self)
      exact ⟨digitChar d, ds.map digitChar, by rw [showNat, h]; rfl, hall d (by omega)⟩

/-- A digit is no blank. -/
theorem ne_blank_of_mem_showNat {b w n : Nat} (hb : 0 < b) (hb16 : b ≤ 16) {c : Char}
    (hc : c ∈ showNat b w n) : c ≠ ' ' := by
  have hall : ∀ d < 16, digitChar d ≠ ' ' := by decide
  rw [showNat, List.mem_map] at hc
  obtain ⟨d, hd, rfl⟩ := hc
  exact hall d ((numeral_lt hb hd).trans_le hb16)

/-- The digits of an integer, behind a sign. -/
theorem number_digits_field {sign : List Char} {radix : Nat} (n : Nat)
    (hsign : sign = [] ∨ sign = ['-'] ∨ sign = ['+']) (h0 : 0 < radix) (h16 : radix ≤ 16) :
    Converted.Number ⟨sign, digits radix n⟩ where
  isSign := hsign
  head := showNat_head h0 h16 (width_pos radix n)
  noBlank _ hc := ne_blank_of_mem_showNat h0 h16 hc

/-- A decimal fraction, behind a sign. -/
theorem number_decimalText {sign : List Char} (k : Nat) (y : ℚ)
    (hsign : sign = [] ∨ sign = ['-'] ∨ sign = ['+']) :
    Converted.Number ⟨sign, decimalText k y⟩ where
  isSign := hsign
  head := by
    obtain ⟨c, rest, htext, hc⟩ := showNat_head (b := 10) (n := ⌊y⌋₊) (by decide) (by decide)
      (width_pos 10 ⌊y⌋₊)
    exact ⟨c, rest ++ '.' :: showNat 10 k ⌊Int.fract y * 10 ^ k⌋₊, by
      rw [decimalText, htext, List.cons_append], hc⟩
  noBlank c hc := by
    rw [decimalText, List.mem_append, List.mem_cons] at hc
    rcases hc with hc | rfl | hc
    · exact ne_blank_of_mem_showNat (by decide) (by decide) hc
    · decide
    · exact ne_blank_of_mem_showNat (by decide) (by decide) hc

/-- The radix of an unsigned conversion. -/
theorem radix_bounds {c : Char} {radix : Nat} (hk : kindOf c = .unsigned radix) :
    0 < radix ∧ 8 ≤ radix ∧ radix ≤ 16 := by
  unfold kindOf at hk
  grind

/-- What is filled with zeros begins with a sign only if that is the sign of a number. -/
theorem field_clear {fl : Floats} {d : Directive} {p : Int} {ap ap' : List Arg} {f : Converted}
    (h : d.field fl p ap = some (f, ap')) (hz : d.zeros = true) : f.Clear := by
  unfold Directive.field at h
  split at h
  · -- `%c` has no zero flag.
    rename_i hk
    rw [Directive.zeros, hk] at hz
    simp at hz
  · -- `%s` has none either.
    rename_i hk
    rw [Directive.zeros, hk] at hz
    simp at hz
  · -- A sign, and digits.
    split at h
    · -- Any other character stands for itself, and a sign is a flag before it gets here.
      cases h
    · cases h
      exact (number_digits_field _ (signText_cases ..) (by decide) (by decide)).clear
  · -- Digits alone.
    rename_i hk
    cases h
    obtain ⟨h0, -, h16⟩ := radix_bounds hk
    exact (number_digits_field _ (.inl rfl) h0 h16).clear
  · -- A sign, and a decimal fraction.
    simp only at h
    split at h
    · cases h
      exact (number_decimalText _ _ (signText_cases ..)).clear
    · cases h
  · cases h
    refine ⟨.inl rfl, ?_⟩
    intro c hc
    rw [List.head?_cons, Option.mem_some_iff] at hc
    subst hc
    have hconv := d.isConversion
    constructor
    · intro hminus
      rw [hminus] at hconv
      exact absurd hconv (by decide)
    · intro hplus
      rw [hplus] at hconv
      exact absurd hconv (by decide)
  · cases h

/-! ### The interpreter -/

/-- What the interpreter does for a directive is what the directive means. -/
theorem interpret_eq_meaning (fl : Floats) (d : Directive) (ap : List Arg) :
    d.interpret fl ap = d.meaning fl ap := by
  rw [Directive.interpret, Directive.meaning]
  cases d.width.take ap with
  | none => rfl
  | some wa =>
      simp only [Option.bind_eq_bind, Option.bind_some]
      cases hp : d.precision.take wa.2 with
      | none => rfl
      | some pa =>
          obtain ⟨hlow, hhigh⟩ := take_bounds hp
          simp only [Option.bind_some]
          rw [convert_eq_field fl d hlow hhigh]
          cases hf : d.field fl pa.1 pa.2 with
          | none => rfl
          | some fa =>
              simp only [Option.map_some, Option.bind_some]
              rw [output_eq_pad (field_clear hf)]
              split <;> rfl

/-- What it does for pieces is what they mean. -/
theorem interpret_eq_render (fl : Floats) (ps : List Piece) (ap : List Arg) :
    interpret fl ps ap = render fl ps ap := by
  induction ps generalizing ap with
  | nil => rfl
  | cons p ps ih =>
      cases p with
      | lit c h => rw [interpret, render, ih]
      | conv d =>
          rw [interpret, render, interpret_eq_meaning]
          cases d.meaning fl ap with
          | none => rfl
          | some oa => simp only [Option.bind_eq_bind, Option.bind_some, ih]

/-- `chvprintf` does to a format what the pieces it is made of mean. -/
theorem chvprintf_spell (fl : Floats) (ps : List Piece) (past : List Char) (ap : List Arg) :
    chvprintf fl (spell ps (NUL :: past)) ap =
      (render fl ps ap).filter fun out => out.length < 2 ^ 31 := by
  rw [chvprintf_pieces, interpret_eq_render]

/-! ### Reading a field back -/

/-- The number in a field of the output: the blanks around it do not count. -/
def readField (cs : List Char) : Option ℚ := readDecimal (cs.filter (· ≠ ' '))

/-- The characters that bring a text to the width. -/
def padding (width : Int) (s : List Char) : Nat := (width - s.length).toNat

/-- A field is as wide as its text, and as the directive asks. -/
theorem length_pad (f : Converted) (leftAlign zeros : Bool) (width : Int) :
    (f.pad leftAlign zeros width).length = max f.text.length width.toNat := by
  have hpad : f.text.length + (width - f.text.length).toNat = max f.text.length width.toNat := by
    omega
  have htext : f.text.length = f.sign.length + f.body.length := List.length_append
  unfold Converted.pad
  cases leftAlign with
  | true =>
      simp only [if_true, List.length_append, List.length_replicate]
      exact hpad
  | false =>
      cases zeros <;> simp only [Bool.false_eq_true, if_true, if_false, List.length_append,
        List.length_replicate] <;> omega

/-- A field that is wide enough is the text itself. -/
theorem pad_of_le {f : Converted} {width : Int} (h : width ≤ f.text.length)
    (leftAlign zeros : Bool) :
    f.pad leftAlign zeros width = f.text := by
  have h0 : (width - f.text.length).toNat = 0 := by omega
  rw [Converted.pad, h0]
  cases leftAlign <;> cases zeros
  · rfl
  · rfl
  · exact List.append_nil _
  · exact List.append_nil _

/-- Blanks are all that the reader leaves out. -/
theorem filter_of_noBlank {cs : List Char} (h : ∀ c ∈ cs, c ≠ ' ') :
    cs.filter (· ≠ ' ') = cs :=
  List.filter_eq_self.mpr fun c hc => decide_eq_true (h c hc)

/-- The reader leaves out all blanks. -/
theorem filter_blanks (n : Nat) : (List.replicate n ' ').filter (· ≠ ' ') = [] :=
  List.filter_eq_nil_iff.mpr fun c hc => by
    rw [List.eq_of_mem_replicate hc]
    decide

/-- What a reader sees of a number in its field: zeros behind the sign or at the end. -/
theorem filter_pad {f : Converted} (h : f.Number) (leftAlign zeros : Bool) (width : Int) :
    (f.pad leftAlign zeros width).filter (· ≠ ' ') =
      f.sign ++ (List.replicate (if zeros && !leftAlign then padding width f.text else 0) '0' ++
        (f.body ++
          List.replicate (if zeros && leftAlign then padding width f.text else 0) '0')) := by
  have hsign : f.sign.filter (· ≠ ' ') = f.sign := by
    refine filter_of_noBlank ?_
    rcases h.isSign with hs | hs | hs <;> simp [hs]
  have hbody := filter_of_noBlank h.noBlank
  have hzeros : ∀ n, (List.replicate n '0').filter (· ≠ ' ') = List.replicate n '0' := by
    intro n
    refine filter_of_noBlank fun c hc => ?_
    rw [List.eq_of_mem_replicate hc]
    decide
  rw [Converted.pad, padding]
  generalize (width - f.text.length).toNat = n
  unfold Converted.text
  cases leftAlign <;> cases zeros <;>
    simp only [Bool.false_eq_true, if_true, if_false, Bool.and_true, Bool.and_false, Bool.not_true,
      Bool.not_false, List.filter_append, hsign, hbody, hzeros, filter_blanks,
      List.replicate_zero, List.nil_append, List.append_nil, List.append_assoc]

/-- A decimal number with its sign, as the reader of fractions gets it. -/
theorem readDecimal_signText {c : Char} {rest : List Char} (doSign negative : Bool)
    (hc : '0' ≤ c) :
    readDecimal (signText doSign negative ++ c :: rest) =
      (readFraction (c :: rest)).map fun x => if negative then -x else x := by
  have hid : (fun x : ℚ => if false then -x else x) = id := rfl
  cases negative with
  | true => rfl
  | false =>
      rw [hid, Option.map_id_fun, id]
      cases doSign with
      | true => rfl
      | false => exact readDecimal_of_digit hc

/-- A reader gets the printed places of a fraction. Zeros in front of the number do
not matter, and zeros behind it neither. -/
theorem readField_float {k : Nat} {y : ℚ} (hk : 0 < k) (hy : 0 ≤ y)
    (doSign negative leftAlign zeros : Bool) (w : Int) :
    readField (Converted.pad ⟨signText doSign negative, decimalText k y⟩ leftAlign zeros w) =
      some (if negative then -truncate k y else truncate k y) := by
  have hnumber := number_decimalText k y (signText_cases doSign negative)
  rw [readField, filter_pad hnumber]
  generalize (if zeros && !leftAlign then _ else 0) = a
  generalize (if zeros && leftAlign then _ else 0) = b
  have hint : ⌊y⌋₊ < 10 ^ width 10 ⌊y⌋₊ := lt_pow_width (by decide) _
  have hfrac : ⌊Int.fract y * 10 ^ k⌋₊ < 10 ^ k := by
    have hnonneg : 0 ≤ Int.fract y * 10 ^ k := mul_nonneg (Int.fract_nonneg y) (by positivity)
    rw [Nat.floor_lt hnonneg]
    push_cast
    exact (mul_lt_iff_lt_one_left (by positivity)).mpr (Int.fract_lt_one y)
  have hzeros : List.replicate a '0' ++ (decimalText k y ++ List.replicate b '0') =
      showNat 10 (a + width 10 ⌊y⌋₊) ⌊y⌋₊ ++
        '.' :: showNat 10 (k + b) (⌊Int.fract y * 10 ^ k⌋₊ * 10 ^ b) := by
    rw [decimalText, List.append_assoc, List.cons_append, showNat_append_replicate (by decide),
      ← List.append_assoc, replicate_append_showNat a hint]
  have hpos := width_pos 10 ⌊y⌋₊
  obtain ⟨c, rest, hhead, hc⟩ := showNat_head (b := 10) (w := a + width 10 ⌊y⌋₊) (n := ⌊y⌋₊)
    (by decide) (by decide) (by omega)
  have hread := readFraction_append (w := a + width 10 ⌊y⌋₊) (k := k + b) (i := ⌊y⌋₊)
    (f := ⌊Int.fract y * 10 ^ k⌋₊ * 10 ^ b) (by omega) (by omega)
    (hint.trans_le (Nat.pow_le_pow_right (by decide) (by omega)))
    (by rw [pow_add]; exact Nat.mul_lt_mul_of_pos_right hfrac (by positivity))
  have hvalue : (⌊y⌋₊ : ℚ) + ((⌊Int.fract y * 10 ^ k⌋₊ * 10 ^ b : ℕ) : ℚ) / 10 ^ (k + b) =
      truncate k y := by
    rw [truncate_eq hy, pow_add]
    push_cast
    rw [mul_div_mul_right _ _ (by positivity)]
  show readDecimal (signText doSign negative ++
    (List.replicate a '0' ++ (decimalText k y ++ List.replicate b '0'))) = _
  rw [hzeros, hhead, List.cons_append, readDecimal_signText doSign negative hc, ← List.cons_append,
    ← hhead, hread, Option.map_some, hvalue]

/-! ### Single directives -/

section

variable {fl : Floats} {d : Directive} {ap ap₁ ap₂ ap₃ : List Arg} {w p : Int} {f : Converted}

/-- A single directive whose text fits into `tmpbuf`, with any width from which the
length of such a text can be subtracted. -/
theorem chvprintf_directive (past : List Char) (hw : d.width.take ap = some (w, ap₁))
    (hp : d.precision.take ap₁ = some (p, ap₂)) (hf : d.field fl p ap₂ = some (f, ap₃))
    (hfit : f.text.length ≤ TMPBUF_SIZE) (hwidth : INT_MIN + TMPBUF_SIZE ≤ w) :
    chvprintf fl ('%' :: d.text (NUL :: past)) ap = some (f.pad d.leftAlign d.zeros w) := by
  have hmin : ¬w - f.text.length < INT_MIN := by omega
  have hmeaning : d.meaning fl ap = some (f.pad d.leftAlign d.zeros w, ap₃) := by
    simp only [Directive.meaning, hw, hp, hf, Option.bind_eq_bind, Option.bind_some, if_neg hmin]
  have hrender : render fl [.conv d] ap = some (f.pad d.leftAlign d.zeros w) := by
    simp only [render, hmeaning, Option.bind_eq_bind, Option.bind_some, List.append_nil]
  have hspell : '%' :: d.text (NUL :: past) = spell [.conv d] (NUL :: past) := rfl
  rw [hspell, chvprintf_pieces, interpret_eq_render, hrender]
  -- Neither the text nor the width needs more than an `int` counts.
  refine Option.filter_some_pos (decide_eq_true ?_)
  have hbuf : TMPBUF_SIZE = 23 := rfl
  have hmax := (take_bounds hw).2
  rw [length_pad]
  omega

end

/-- The digits of a 32-bit number, behind a sign, fit into `tmpbuf`. -/
theorem length_digits {sign : List Char} {radix n : Nat}
    (hsign : sign = [] ∨ sign = ['-'] ∨ sign = ['+']) (h8 : 8 ≤ radix) (hn : n < 2 ^ 32) :
    (Converted.text ⟨sign, digits radix n⟩).length ≤ TMPBUF_SIZE := by
  have hlt : n < radix ^ 11 := by
    calc n < 2 ^ 32 := hn
      _ ≤ 8 ^ 11 := by decide
      _ ≤ radix ^ 11 := Nat.pow_le_pow_left h8 11
  have hw : width radix n ≤ 11 := width_le (by decide) hlt
  show (sign ++ showNat radix (width radix n) n).length ≤ 23
  rw [List.length_append, length_showNat]
  rcases hsign with rfl | rfl | rfl <;> simp only [List.length_nil, List.length_singleton] <;> omega

/-- The decimals of a `float` that fits into a `long`, behind a sign, fit too. -/
theorem length_decimalText {sign : List Char} {k : Nat} {y : ℚ}
    (hsign : sign = [] ∨ sign = ['-'] ∨ sign = ['+']) (hk : k ≤ 9) (hy : 0 ≤ y)
    (hlt : y < 2 ^ 31) : (Converted.text ⟨sign, decimalText k y⟩).length ≤ TMPBUF_SIZE := by
  have hfloor : ⌊y⌋₊ < 2 ^ 31 := (Nat.floor_lt hy).mpr (by exact_mod_cast hlt)
  have hw : width 10 ⌊y⌋₊ ≤ 10 := width_le (by decide) (by omega)
  show (sign ++ (showNat 10 (width 10 ⌊y⌋₊) ⌊y⌋₊ ++ '.' :: showNat 10 k _)).length ≤ 23
  rw [List.length_append, List.length_append, List.length_cons, length_showNat, length_showNat]
  rcases hsign with rfl | rfl | rfl <;> simp only [List.length_nil, List.length_singleton] <;> omega

/-- There are one to nine decimal places. -/
theorem decimals_bounds (p : Int) : 0 < decimals p ∧ decimals p ≤ 9 := by
  unfold decimals
  split <;> omega

/-- The field of `%f`. -/
theorem field_float (fl : Floats) {d : Directive} {p : Int} {x : ℚ} (ap : List Arg)
    (hc : d.c = 'f') (hx : Representable 24 (-149) x) (hlt : |x| < 2 ^ 31) :
    d.field fl p (.double (some x) :: ap) =
      some (⟨signText d.doSign (x < 0), decimalText (decimals p) |x|⟩, ap) := by
  have hk : kindOf d.c = .float := by rw [hc]; rfl
  unfold Directive.field
  simp only [hk, fl.single.fixes x hx, if_pos hlt]

/-- `%f` prints a `float` up to the last decimal place there is room for, whatever
the flags, the width and the rounding mode. -/
theorem float_round_trip (fl : Floats) {d : Directive} {ap ap₁ ap₂ : List Arg} {w p : Int}
    {x : ℚ} (past : List Char) (hc : d.c = 'f') (hw : d.width.take ap = some (w, ap₁))
    (hp : d.precision.take ap₁ = some (p, .double (some x) :: ap₂))
    (hwidth : INT_MIN + TMPBUF_SIZE ≤ w) (hx : Representable 24 (-149) x) (hlt : |x| < 2 ^ 31) :
    ∃ text, chvprintf fl ('%' :: d.text (NUL :: past)) ap = some text ∧ w ≤ text.length ∧
      readField text = some (truncate (decimals p) x) := by
  obtain ⟨hk0, hk9⟩ := decimals_bounds p
  have hfield := field_float fl (p := p) ap₂ hc hx hlt
  have hfit := length_decimalText (signText_cases d.doSign (x < 0)) hk9 (abs_nonneg x) hlt
  refine ⟨_, chvprintf_directive past hw hp hfield hfit hwidth, ?_, ?_⟩
  · rw [length_pad]
    omega
  · rw [readField_float hk0 (abs_nonneg x)]
    by_cases hneg : x < 0
    · rw [decide_eq_true hneg, if_pos rfl, abs_of_neg hneg, truncate_neg _ hneg]
    · rw [decide_eq_false hneg, if_neg (by decide), abs_of_nonneg (not_lt.mp hneg)]

/-- Arithmetic that rounds toward zero. -/
def Floats.towardZero : Floats where
  single := Rounding.towardZero 24 (-149) (by decide)
  double := Rounding.towardZero 53 (-1074) (by decide)

/-- `%8.3f`. -/
def eightThree : Directive where
  leftAlign := false
  doSign := false
  zero := false
  width := .fixed 8 (by decide)
  precision := .fixed 3 (by decide)
  long := false
  c := 'f'
  isConversion := by decide

/-- `%8.3f` prints a negative fraction. -/
theorem float_round_trip_eight : ∃ text,
    chvprintf .towardZero ('%' :: eightThree.text [NUL]) [.double (some (-5 / 4))] = some text ∧
      8 ≤ text.length ∧ readField text = some (truncate 3 (-5 / 4)) := by
  have hx : Representable 24 (-149) (-5 / 4) := by
    refine ⟨-5, -2, by decide, by decide, ?_⟩
    norm_num
  obtain ⟨text, htext, hlen, hread⟩ := @float_round_trip .towardZero eightThree
    [.double (some (-5 / 4))] _ _ _ _ _ [] rfl rfl rfl (by decide) hx (by norm_num [abs_lt])
  exact ⟨text, htext, by exact_mod_cast hlen, hread⟩

/-- The integer that a text stands for. -/
def readInteger (radix : Nat) : List Char → Option ℤ
  | '-' :: cs => (readNat radix cs).map fun n : Nat => -(n : ℤ)
  | '+' :: cs => (readNat radix cs).map Nat.cast
  | cs => (readNat radix cs).map Nat.cast

/-- Digits with their sign, as the reader of integers gets them. -/
theorem readInteger_signText {radix : Nat} {c : Char} {rest : List Char} (doSign negative : Bool)
    (hc : '0' ≤ c) :
    readInteger radix (signText doSign negative ++ c :: rest) =
      (readNat radix (c :: rest)).map fun n : Nat => if negative then -(n : ℤ) else (n : ℤ) := by
  cases negative with
  | true => rfl
  | false =>
      cases doSign with
      | true => rfl
      | false =>
          have hminus : c ≠ '-' := by rintro rfl; exact absurd hc (by decide)
          have hplus : c ≠ '+' := by rintro rfl; exact absurd hc (by decide)
          show readInteger radix (c :: rest) = _
          unfold readInteger
          split
          · rename_i h
            exact absurd (List.cons.inj h).1 hminus
          · rename_i h
            exact absurd (List.cons.inj h).1 hplus
          · rfl

/-- The radix and the number that an integer conversion prints, if it is defined. -/
def integerOf (c : Char) (l : Long) : Option (Nat × ℤ) :=
  match kindOf c with
  | .signed => if l = BitVec.intMin 32 then none else some (10, l.toInt)
  | .unsigned radix => some (radix, (l.toNat : ℤ))
  | _ => none

/-- A number in a radix, as an integer conversion writes it. -/
def integerField (doSign : Bool) (radix : Nat) (v : ℤ) : Converted :=
  ⟨signText doSign (v < 0), digits radix v.natAbs⟩

/-- The field of an integer conversion, and the bounds of its radix. -/
theorem field_integer (fl : Floats) {d : Directive} {p : Int} {radix : Nat} {l : Long} {v : ℤ}
    (ap : List Arg) (h : integerOf d.c l = some (radix, v)) :
    d.field fl p (.int l :: ap) =
        some (integerField (d.doSign && decide (kindOf d.c = .signed)) radix v, ap) ∧
      8 ≤ radix ∧ radix ≤ 16 ∧ v.natAbs < 2 ^ 32 := by
  unfold integerOf at h
  unfold Directive.field
  split at h
  · rename_i hk
    split at h
    · cases h
    · rename_i hl
      cases h
      have hlow := BitVec.le_toInt l
      have hhigh := BitVec.toInt_lt (x := l)
      refine ⟨?_, by decide, by decide, by omega⟩
      simp only [hk, if_neg hl, integerField, decide_true, Bool.and_true]
  · rename_i hk
    cases h
    obtain ⟨-, h8, h16⟩ := radix_bounds hk
    refine ⟨?_, h8, h16, by have hlt := l.isLt; omega⟩
    have hneg : decide (((l.toNat : ℕ) : ℤ) < 0) = false := decide_eq_false (by omega)
    simp only [hk, integerField, reduceCtorEq, decide_false, Bool.and_false, hneg,
      Int.natAbs_natCast]
    rfl
  · cases h

/-- The zeros that a left-aligned number gets behind it. -/
def Directive.zerosBehind (d : Directive) (w : Int) (s : List Char) : Nat :=
  if d.zeros && d.leftAlign then padding w s else 0

/-- An integer conversion prints its number, whatever the flags and the width; but a
number that is left-aligned and filled with zeros gets them as further digits. -/
theorem integer_round_trip (fl : Floats) {d : Directive} {ap ap₁ ap₂ : List Arg} {w p : Int}
    {l : Long} {radix : Nat} {v : ℤ} (past : List Char) (hw : d.width.take ap = some (w, ap₁))
    (hp : d.precision.take ap₁ = some (p, .int l :: ap₂))
    (hwidth : INT_MIN + TMPBUF_SIZE ≤ w) (hv : integerOf d.c l = some (radix, v)) :
    ∃ text, chvprintf fl ('%' :: d.text (NUL :: past)) ap = some text ∧ w ≤ text.length ∧
      readInteger radix (text.filter (· ≠ ' ')) =
        some (v * radix ^ d.zerosBehind w
          (integerField (d.doSign && decide (kindOf d.c = .signed)) radix v).text) := by
  obtain ⟨hfield, h8, h16, hsmall⟩ := field_integer fl (p := p) ap₂ hv
  generalize (d.doSign && decide (kindOf d.c = .signed)) = doSign at hfield ⊢
  have hfit := length_digits (signText_cases doSign (v < 0)) h8 hsmall
  refine ⟨_, chvprintf_directive past hw hp hfield hfit hwidth, ?_, ?_⟩
  · rw [length_pad]
    omega
  · have hnumber : Converted.Number ⟨signText doSign (v < 0), digits radix v.natAbs⟩ :=
      number_digits_field v.natAbs (signText_cases doSign (v < 0)) (by omega) h16
    have hpos := width_pos radix v.natAbs
    have hlt : v.natAbs < radix ^ width radix v.natAbs := lt_pow_width (by omega) _
    rw [integerField, filter_pad hnumber]
    generalize (if d.zeros && !d.leftAlign then _ else 0) = a
    show readInteger radix (_ ++ (_ ++ (showNat radix (width radix v.natAbs) v.natAbs ++
      List.replicate (d.zerosBehind w _) '0'))) = _
    generalize d.zerosBehind w _ = b
    have hbig : v.natAbs * radix ^ b < radix ^ (width radix v.natAbs + b) := by
      rw [pow_add]
      exact Nat.mul_lt_mul_of_pos_right hlt (Nat.pow_pos (by omega))
    obtain ⟨c, rest, hhead, hc⟩ := showNat_head (b := radix) (w := a + (width radix v.natAbs + b))
      (n := v.natAbs * radix ^ b) (by omega) h16 (by omega)
    rw [showNat_append_replicate (by omega), replicate_append_showNat a hbig, hhead,
      readInteger_signText doSign _ hc, ← hhead, readNat_showNat (by omega) h16 (by omega)
        (hbig.trans_le (Nat.pow_le_pow_right (by omega) (by omega))), Option.map_some]
    congr 1
    push_cast
    split
    · rename_i hneg
      rw [abs_of_neg (of_decide_eq_true hneg)]
      ring
    · rename_i hneg
      rw [abs_of_nonneg (not_lt.mp fun h => hneg (decide_eq_true h))]

/-- `%-05d`. -/
def leftZeros : Directive where
  leftAlign := true
  doSign := false
  zero := true
  width := .fixed 5 (by decide)
  precision := .absent
  long := false
  c := 'd'
  isConversion := by decide

/-- `%-05d` prints 42 as 42000. -/
theorem integer_round_trip_left : ∃ text,
    chvprintf .towardZero ('%' :: leftZeros.text [NUL]) [.int 42] = some text ∧
      5 ≤ text.length ∧ readInteger 10 (text.filter (· ≠ ' ')) = some 42000 := by
  obtain ⟨text, htext, hlen, hread⟩ := @integer_round_trip .towardZero leftZeros [.int 42] _ _ _ _
    _ 10 42 [] rfl rfl (by decide) rfl
  exact ⟨text, htext, by exact_mod_cast hlen, hread⟩

end ChibiOS.Printf
