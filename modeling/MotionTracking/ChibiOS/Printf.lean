import MotionTracking.Arith.Digits
import MotionTracking.Arith.Rounding

/-!
# `MotionTracking.ChibiOS.Printf`: formatted output

`os/hal/lib/streams/chprintf.c`, with `CHPRINTF_USE_FLOAT` at its default
`TRUE`. A format is the memory from `fmt` on, its terminating NUL included. The
result of `chvprintf` is what it puts to the stream; its return value is the
length of that. There is no result when the C code reads or writes outside its
memory, takes an argument that is not there, converts a number to a `long` that
cannot hold it, or overflows an `int`.

`long` and `int` have 32 bits. A `double` is a rational number, or `none` when it
is not finite. The operations on it round; the rounding is a parameter.

The second half reads a format as a list of pieces, and takes the interpreter
through the spelling of the pieces one by one (`chvprintf_pieces`). What a piece
means is not said here, but in `FormatMeaning`.
-/

set_option autoImplicit false

namespace ChibiOS.Printf

open Arith

/-- The places `chLtoa`'s digits are worked out in. -/
def MAX_FILLER : Nat := 11
/-- The places after the point unless the directive says fewer. -/
def FLOAT_PRECISION : Nat := 9

/-- The size of `tmpbuf`. -/
def TMPBUF_SIZE : Nat := 2 * MAX_FILLER + 1

/-- The end of a string in C. -/
def NUL : Char := Char.ofNat 0

/-- A `long`, and an `int`. -/
abbrev Long : Type := BitVec 32

/-! ### Numbers -/

/-- `i + '0'`, or the letter for a digit above nine. -/
def digit (i : Nat) : Char :=
  let i := i + '0'.toNat
  Char.ofNat (if i > '9'.toNat then i + ('A'.toNat - '0'.toNat - 10) else i)

/-- The first loop of `long_to_string_with_divisor`. `q` is what stands from `q`
on, and `room` the number of characters between `p` and `q`. -/
def digitLoop (radix : Nat) : Nat → Nat → Nat → List Char → Option (List Char)
  | 0, _, _, _ => none
  | room + 1, l, ll, q =>
      let q := digit (l % radix) :: q
      let l := l / radix
      let ll := ll / radix
      if ll ≠ 0 then digitLoop radix room l ll q else some q

/-- `p` is what `tmpbuf` holds before `p`. The radix is `unsigned`, so `%` and `/`
are unsigned too. -/
def longToStringWithDivisor (p : List Char) (num : Long) (radix : Nat) (divisor : Long) :
    Option (List Char) :=
  let ll := if divisor = 0 then num else divisor
  if p.length + MAX_FILLER ≤ TMPBUF_SIZE then
    (digitLoop radix MAX_FILLER num.toNat ll.toNat []).map (p ++ ·)
  else none

/-- `long_to_string_with_divisor` with the divisor 0: all the digits. -/
def chLtoa (p : List Char) (num : Long) (radix : Nat) : Option (List Char) :=
  longToStringWithDivisor p num radix 0

/-- The table `pow10`. -/
def pow10 : List Nat :=
  [10, 100, 1000, 10000, 100000, 1000000, 10000000, 100000000, 1000000000]

/-- `*p++ = c`. -/
def store (p : List Char) (c : Char) : Option (List Char) :=
  if p.length < TMPBUF_SIZE then some (p ++ [c]) else none

/-- The integer part of a number. -/
def integerPart (x : ℚ) : ℤ := if 0 ≤ x then ⌊x⌋ else ⌈x⌉

/-- `(long)x`. -/
def toLong (x : ℚ) : Option Long :=
  if -2 ^ 31 ≤ integerPart x ∧ integerPart x < 2 ^ 31 then some (BitVec.ofInt 32 (integerPart x))
  else none

/-- The floating-point arithmetic: how results round to `float` and `double`. -/
structure Floats where
  single : Rounding 24 (-149)
  double : Rounding 53 (-1074)

/-- The integral part, the point, and the fraction's digits. -/
def ftoa (fl : Floats) (p : List Char) (num : ℚ) (precision : Nat) : Option (List Char) := do
  let precision :=
    if precision = 0 ∨ precision > FLOAT_PRECISION then FLOAT_PRECISION else precision
  let precision := pow10.getD (precision - 1) 0
  let l ← toLong num
  let p ← longToStringWithDivisor p l 10 0
  let p ← store p '.'
  let l ← toLong (fl.double.round (fl.double.round (num - l.toInt) * precision))
  longToStringWithDivisor p l 10 (BitVec.ofNat 32 (precision / 10))

/-! ### Directives -/

/-- Why `chvprintf` stops inside a directive. -/
inductive Stop where
  /-- `return n`, at the end of the format. -/
  | ended
  | undefined

/-- A variable argument. -/
inductive Arg where
  | int (v : Long)
  /-- A `char *`: the memory from there on, or `NULL`. -/
  | str (s : Option (List Char))
  | double (x : Option ℚ)

/-- What a directive says before its conversion takes place. -/
structure Spec where
  leftAlign : Bool
  doSign : Bool
  filler : Char
  width : Int
  precision : Int
  isLong : Bool
  c : Char

/-- `c = *fmt++`. -/
def getc : List Char → Except Stop (Char × List Char)
  | [] => .error .undefined
  | c :: fmt => .ok (c, fmt)

/-- `if (*fmt == c) { fmt++; .. }`: whether it was there. -/
def flag (c : Char) : List Char → Except Stop (Bool × List Char)
  | [] => .error .undefined
  | d :: fmt => if d = c then .ok (true, fmt) else .ok (false, d :: fmt)

/-- `va_arg(ap, int)`, also for `unsigned`, `long` and `unsigned long`. -/
def vaInt : List Arg → Option (Long × List Arg)
  | .int v :: ap => some (v, ap)
  | _ => none

/-- The loop that reads the digits of a width or a precision. `c` is the first
character that is not one. -/
def number : List Char → Nat → Except Stop (Int × Char × List Char)
  | [], _ => .error .undefined
  | c :: fmt, n =>
      if c = NUL then .error .ended
      else if '0' ≤ c ∧ c ≤ '9' then
        let n := n * 10 + (c.toNat - '0'.toNat)
        if n < 2 ^ 31 then number fmt n else .error .undefined
      else .ok (n, c, fmt)

/-- A width, or a precision after its point. -/
def field (fmt : List Char) (ap : List Arg) : Except Stop (Int × Char × List Char × List Arg) :=
  match fmt with
  | '*' :: fmt =>
      match vaInt ap with
      | none => .error .undefined
      | some (v, ap) => do
          -- No test for the end of the format here.
          let (c, fmt) ← getc fmt
          .ok (v.toInt, c, fmt, ap)
  | fmt => do
      let (n, c, fmt) ← number fmt 0
      .ok (n, c, fmt, ap)

/-- `precision` when `c` is a point, else 0. -/
def precisionField (c : Char) (fmt : List Char) (ap : List Arg) :
    Except Stop (Int × Char × List Char × List Arg) :=
  if c = '.' then field fmt ap else .ok (0, c, fmt, ap)

/-- `is_long`. -/
def longModifier (c : Char) (fmt : List Char) : Except Stop (Bool × Char × List Char) :=
  if c = 'l' ∨ c = 'L' then do
    let (c, fmt) ← getc fmt
    if c = NUL then .error .ended else .ok (true, c, fmt)
  else .ok (decide ('A' ≤ c ∧ c ≤ 'Z'), c, fmt)

/-- A directive, from behind its `%` up to its conversion character. -/
def parse (fmt : List Char) (ap : List Arg) : Except Stop (Spec × List Char × List Arg) := do
  let (leftAlign, fmt) ← flag '-' fmt
  let (doSign, fmt) ← flag '+' fmt
  let (zero, fmt) ← flag '0' fmt
  let (width, c, fmt, ap) ← field fmt ap
  let (precision, c, fmt, ap) ← precisionField c fmt ap
  let (isLong, c, fmt) ← longModifier c fmt
  .ok ({ leftAlign, doSign, filler := if zero then '0' else ' ', width, precision, isLong, c },
    fmt, ap)

/-- The least `int`. -/
def INT_MIN : Int := -2 ^ 31

/-- The loop of `%s`: the characters from `s` to `p`. It looks at a character before
it counts. -/
def strChars : Int → List Char → Option (List Char)
  | _, [] => none
  | precision, c :: s =>
      if c = NUL then some []
      -- `--precision` overflows.
      else if precision = INT_MIN then none
      else if precision - 1 ≥ 0 then (strChars (precision - 1) s).map (c :: ·)
      else some []

/-- The conversions: the text from `s` to `p`, the filler and the arguments left.
An `int` is as long as a `long`, so `is_long` makes no difference. -/
def convert (fl : Floats) (spec : Spec) (ap : List Arg) :
    Option (List Char × Char × List Arg) :=
  match spec.c with
  | 'c' => do
      let (v, ap) ← vaInt ap
      some ([Char.ofNat (v.toNat % 256)], ' ', ap)
  | 's' =>
      match ap with
      | .str s :: ap => do
          let s := s.getD ['(', 'n', 'u', 'l', 'l', ')', NUL]
          let precision := if spec.precision = 0 then 32767 else spec.precision
          let p ← strChars precision s
          some (p, ' ', ap)
      | _ => none
  | 'D' | 'd' | 'I' | 'i' => do
      let (l, ap) ← vaInt ap
      let p ←
        if l.toInt < 0 then
          -- `l = -l` overflows for the least `long`.
          if l = BitVec.intMin 32 then none else chLtoa ['-'] (-l) 10
        else chLtoa (if spec.doSign then ['+'] else []) l 10
      some (p, spec.filler, ap)
  | 'f' =>
      match ap with
      | .double (some x) :: ap => do
          let f := fl.single.round x
          let precision := (BitVec.ofInt 32 spec.precision).toNat
          let p ←
            if f < 0 then ftoa fl ['-'] (-f) precision
            else ftoa fl (if spec.doSign then ['+'] else []) f precision
          some (p, spec.filler, ap)
      | _ => none
  | 'X' | 'x' | 'P' | 'p' => do
      let (l, ap) ← vaInt ap
      let p ← chLtoa [] l 16
      some (p, spec.filler, ap)
  | 'U' | 'u' => do
      let (l, ap) ← vaInt ap
      let p ← chLtoa [] l 10
      some (p, spec.filler, ap)
  | 'O' | 'o' => do
      let (l, ap) ← vaInt ap
      let p ← chLtoa [] l 8
      some (p, spec.filler, ap)
  | c => some ([c], spec.filler, ap)

/-- What is put for the text `s` of a conversion. -/
def output (leftAlign : Bool) (width : Int) (filler : Char) (s : List Char) :
    Option (List Char) :=
  let width := width - s.length
  -- `width -= i` overflows.
  if width < INT_MIN then none
  else
    let width := if width < 0 then 0 else width
    let width := if leftAlign then width else -width
    if width < 0 then
      let fill := List.replicate (-width).toNat filler
      match s with
      | c :: rest =>
          some (if (c = '-' ∨ c = '+') ∧ filler = '0' then c :: fill ++ rest else fill ++ s)
      | [] => some fill
    else some (s ++ List.replicate width.toNat filler)

/-- A directive from behind its `%`: what is put, and where the format and the
arguments go on. -/
def directive (fl : Floats) (fmt : List Char) (ap : List Arg) :
    Except Stop (List Char × List Char × List Arg) :=
  match parse fmt ap with
  | .error stop => .error stop
  | .ok (spec, fmt, ap) =>
      match convert fl spec ap with
      | none => .error .undefined
      | some (s, filler, ap) =>
          match output spec.leftAlign spec.width filler s with
          | none => .error .undefined
          | some out => .ok (out, fmt, ap)

/-- The loop of `chvprintf`. Every round takes a character of the format. -/
def chvprintfLoop (fl : Floats) : Nat → List Char → List Arg → Option (List Char)
  | 0, _, _ => none
  | _ + 1, [], _ => none
  | rounds + 1, c :: fmt, ap =>
      if c = NUL then some []
      else if c ≠ '%' then (chvprintfLoop fl rounds fmt ap).map (c :: ·)
      else
        match directive fl fmt ap with
        | .error .ended => some []
        | .error .undefined => none
        | .ok (s, fmt, ap) => (chvprintfLoop fl rounds fmt ap).map (s ++ ·)

/-- `n` counts what is put, and overflows when an `int` is too short for that. -/
def chvprintf (fl : Floats) (fmt : List Char) (ap : List Arg) : Option (List Char) :=
  (chvprintfLoop fl fmt.length fmt ap).filter fun out => out.length < 2 ^ 31

/-! ### Formats as pieces -/

/-- A width or a precision as a format gives it. Zero is not written. -/
inductive Count where
  | fixed (n : Nat) (h : n < 2 ^ 31)
  | star

namespace Count

/-- No width or precision. -/
def absent : Count := fixed 0 (by decide)

/-- The count as it stands in the format. -/
def text : Count → List Char
  | fixed n _ => if n = 0 then [] else showNat 10 (width 10 n) n
  | star => ['*']

/-- Its value, and the arguments left. -/
def take : Count → List Arg → Option (Int × List Arg)
  | fixed n _, ap => some (n, ap)
  | star, ap => (vaInt ap).map fun (v, ap) => (v.toInt, ap)

end Count

/-- A conversion character: a letter other than the long modifiers, or a percent
sign. -/
def IsConversion (c : Char) : Prop :=
  (('A' ≤ c ∧ c ≤ 'Z') ∨ ('a' ≤ c ∧ c ≤ 'z') ∨ c = '%') ∧ c ≠ 'l' ∧ c ≠ 'L'

/-- The letters are tested one after the other. -/
instance (c : Char) : Decidable (IsConversion c) := inferInstanceAs (Decidable (_ ∧ _))

/-- `%[-][+][0][width|*][.precision|*][l]c`. -/
structure Directive where
  leftAlign : Bool
  doSign : Bool
  zero : Bool
  width : Count
  precision : Count
  long : Bool
  c : Char
  isConversion : IsConversion c

namespace Directive

/-- From the long modifier on. -/
def convText (d : Directive) (fmt : List Char) : List Char :=
  (if d.long then ['l'] else []) ++ d.c :: fmt

/-- From the precision on. -/
def precisionText (d : Directive) (fmt : List Char) : List Char :=
  if d.precision.text = [] then d.convText fmt else '.' :: (d.precision.text ++ d.convText fmt)

/-- From behind the percent sign on. -/
def text (d : Directive) (fmt : List Char) : List Char :=
  (if d.leftAlign then ['-'] else []) ++ ((if d.doSign then ['+'] else []) ++
    ((if d.zero then ['0'] else []) ++ (d.width.text ++ d.precisionText fmt)))

/-- What the directive says, with the values of its width and precision. -/
def spec (d : Directive) (width precision : Int) : Spec where
  leftAlign := d.leftAlign
  doSign := d.doSign
  filler := if d.zero then '0' else ' '
  width := width
  precision := precision
  isLong := d.long || decide ('A' ≤ d.c ∧ d.c ≤ 'Z')
  c := d.c

end Directive

/-- A piece of a format. -/
inductive Piece where
  | lit (c : Char) (h : c ≠ NUL ∧ c ≠ '%')
  | conv (d : Directive)

/-- The format that the pieces are written as, before its NUL. -/
def spell : List Piece → List Char → List Char
  | [], fmt => fmt
  | .lit c _ :: ps, fmt => c :: spell ps fmt
  | .conv d :: ps, fmt => '%' :: d.text (spell ps fmt)

/-- What the interpreter does for a directive, once it has read it. -/
def Directive.interpret (d : Directive) (fl : Floats) (ap : List Arg) :
    Option (List Char × List Arg) := do
  let (width, ap) ← d.width.take ap
  let (precision, ap) ← d.precision.take ap
  let (s, filler, ap) ← convert fl (d.spec width precision) ap
  let out ← output d.leftAlign width filler s
  some (out, ap)

/-- What it does for pieces, one after the other. -/
def interpret (fl : Floats) : List Piece → List Arg → Option (List Char)
  | [], _ => some []
  | .lit c _ :: ps, ap => (interpret fl ps ap).map (c :: ·)
  | .conv d :: ps, ap => do
      let (out, ap) ← d.interpret fl ap
      let rest ← interpret fl ps ap
      some (out ++ rest)

/-! ### The interpreter on a spelled format -/

section
variable {fmt : List Char} {ap : List Arg}

/-- A character other than the flag is not read. -/
theorem flag_of_ne {c x : Char} (h : x ≠ c) : flag c (x :: fmt) = .ok (false, x :: fmt) :=
  if_neg h

/-- An optional character in front of a text that starts with another one. -/
theorem flag_ite {c x : Char} {text : List Char} (b : Bool) (h : x ≠ c) :
    flag c ((if b then [c] else []) ++ x :: text) = .ok (b, x :: text) := by
  cases b with
  | true => exact if_pos rfl
  | false => exact flag_of_ne h

/-- What `chvprintf` asks of a character of a count: it is not the end, it is between `0`
and `9`, and its distance from `0` is the digit. -/
theorem digit_bounds {d : Nat} (hd : d < 10) :
    digitChar d ≠ NUL ∧ '0' ≤ digitChar d ∧ digitChar d ≤ '9' ∧
      (digitChar d).toNat - '0'.toNat = d := by
  have hall : ∀ d < 10, digitChar d ≠ NUL ∧ '0' ≤ digitChar d ∧ digitChar d ≤ '9' ∧
      (digitChar d).toNat - '0'.toNat = d := by decide
  exact hall d hd

/-- The value that `number` has reached behind the digits `ds`. -/
def horner (n : Nat) (ds : List Nat) : Nat := ds.foldl (fun n d => n * 10 + d) n

/-- Reading on does not make a count smaller. -/
theorem le_horner (ds : List Nat) (n : Nat) : n ≤ horner n ds := by
  induction ds generalizing n with
  | nil => exact le_rfl
  | cons d ds ih =>
      have hstep : n ≤ n * 10 + d := by omega
      exact hstep.trans (ih (n * 10 + d))

/-- The code's Horner loop computes the value of the digits. -/
theorem horner_eq_value (ds : List Nat) : horner 0 ds = value 10 ds := by
  induction ds using List.reverseRecOn with
  | nil => rfl
  | append_singleton ds d ih =>
      rw [value_append_singleton, ← ih]
      exact List.foldl_append

/-- `number` reads digits up to the first character that is not one. -/
theorem number_digits (fmt : List Char) {c : Char} (ds : List Nat) (n : Nat)
    (hds : ∀ d ∈ ds, d < 10) (hn : horner n ds < 2 ^ 31) (hnul : c ≠ NUL)
    (hc : ¬('0' ≤ c ∧ c ≤ '9')) :
    number (ds.map digitChar ++ c :: fmt) n = .ok (horner n ds, c, fmt) := by
  induction ds generalizing n with
  | nil =>
      show (if c = NUL then _ else if '0' ≤ c ∧ c ≤ '9' then _ else _) = _
      rw [if_neg hnul, if_neg hc]
      rfl
  | cons d ds ih =>
      obtain ⟨hne, h0, h9, hd⟩ := digit_bounds (hds d List.mem_cons_self)
      have hstep : n * 10 + d < 2 ^ 31 := (le_horner ds _).trans_lt hn
      show (if digitChar d = NUL then _ else if '0' ≤ digitChar d ∧ digitChar d ≤ '9' then
        (if n * 10 + ((digitChar d).toNat - '0'.toNat) < 2 ^ 31 then
          number (ds.map digitChar ++ c :: fmt) (n * 10 + ((digitChar d).toNat - '0'.toNat))
        else _) else _) = _
      rw [if_neg hne, if_pos ⟨h0, h9⟩, hd, if_pos hstep]
      exact ih _ (fun e he => hds e (List.mem_cons_of_mem d he)) hn

/-- A character that can follow a width or a precision. -/
structure Follows (c : Char) : Prop where
  ne_nul : c ≠ NUL
  ne_star : c ≠ '*'
  not_digit : ¬('0' ≤ c ∧ c ≤ '9')

/-- The first character of a count, in front of what follows it. -/
theorem count_head (n : Count) (c : Char) (fmt : List Char) :
    ∃ x rest, n.text ++ c :: fmt = x :: rest ∧
      (x = c ∨ n.text = ['*'] ∧ x = '*' ∨ '1' ≤ x ∧ x ≤ '9') := by
  cases n with
  | star => exact ⟨'*', c :: fmt, rfl, .inr (.inl ⟨rfl, rfl⟩)⟩
  | fixed n h =>
      rcases Nat.eq_zero_or_pos n with rfl | hpos
      · exact ⟨c, fmt, rfl, .inl rfl⟩
      · obtain ⟨d, ds, hnum, hd⟩ := numeral_width_head (b := 10) (by decide) hpos
        have hlt : d < 10 := numeral_lt (b := 10) (by decide) (hnum ▸ List.mem_cons_self)
        have hall : ∀ d < 10, 0 < d → '1' ≤ digitChar d ∧ digitChar d ≤ '9' := by decide
        refine ⟨digitChar d, ds.map digitChar ++ c :: fmt, ?_, .inr (.inr (hall d hlt hd))⟩
        rw [Count.text, if_neg hpos.ne', showNat, hnum]
        rfl

/-- A field that is not `*` is a number. -/
theorem field_of_ne {x : Char} (h : x ≠ '*') :
    field (x :: fmt) ap = (number (x :: fmt) 0).map fun (n, c, fmt) => (n, c, fmt, ap) := by
  unfold field
  split
  · rename_i heq
    exact absurd (List.cons.inj heq).1 h
  · cases number (x :: fmt) 0 <;> rfl

/-- `field` reads a count up to what follows it. -/
theorem field_count (fmt : List Char) (ap : List Arg) (n : Count) {c : Char} (hc : Follows c) :
    field (n.text ++ c :: fmt) ap =
      match n.take ap with
      | none => .error .undefined
      | some (v, ap) => .ok (v, c, fmt, ap) := by
  cases n with
  | star =>
      show (match vaInt ap with
        | none => _
        | some (v, ap) => _) = _
      cases hv : vaInt ap with
      | none => simp only [Count.take, hv, Option.map_none]
      | some va => simp only [Count.take, hv, Option.map_some]; rfl
  | fixed n h =>
      have hread : number ((Count.fixed n h).text ++ c :: fmt) 0 = .ok (n, c, fmt) := by
        rcases Nat.eq_zero_or_pos n with rfl | hpos
        · exact number_digits fmt [] 0 (by simp) (by decide) hc.ne_nul hc.not_digit
        · have hval : horner 0 (numeral 10 (width 10 n) n) = n := by
            rw [horner_eq_value, value_numeral, Nat.mod_eq_of_lt (lt_pow_width (by decide) n)]
          have hnum := number_digits fmt _ 0
            (fun d hd => numeral_lt (by decide) hd) (hval.symm ▸ h) hc.ne_nul hc.not_digit
          rw [hval] at hnum
          rw [Count.text, if_neg hpos.ne']
          exact hnum
      obtain ⟨x, rest, htext, hx⟩ := count_head (.fixed n h) c fmt
      have hstar : x ≠ '*' := by
        rcases hx with rfl | ⟨hstar, -⟩ | ⟨h1, -⟩
        · exact hc.ne_star
        · rw [Count.text] at hstar
          split at hstar
          · cases hstar
          · exact absurd (ne_of_mem_showNat (c := '*') (hstar ▸ List.mem_singleton_self _)
              (by decide) rfl) id
        · rintro rfl
          exact absurd h1 (by decide)
      rw [htext, field_of_ne hstar, ← htext, hread]
      rfl

namespace Directive

variable (d : Directive)

/-- The first character from the long modifier on. -/
theorem convText_head (fmt : List Char) : ∃ x rest, d.convText fmt = x :: rest ∧ Follows x ∧
    x ≠ '.' ∧ x ≠ '+' ∧ x ≠ '-' := by
  have hconv : Follows d.c ∧ d.c ≠ '.' ∧ d.c ≠ '+' ∧ d.c ≠ '-' := by
    have hc := d.isConversion.1
    have hne : ∀ x, ¬(('A' ≤ x ∧ x ≤ 'Z') ∨ ('a' ≤ x ∧ x ≤ 'z') ∨ x = '%') → d.c ≠ x :=
      fun x hnot h => hnot (h ▸ hc)
    have hdigit : ¬('0' ≤ d.c ∧ d.c ≤ '9') := by
      rintro ⟨h0, h9⟩
      rcases hc with ⟨hA, -⟩ | ⟨ha, -⟩ | hp
      · exact absurd (Char.le_trans hA h9) (by decide)
      · exact absurd (Char.le_trans ha h9) (by decide)
      · rw [hp] at h0
        exact absurd h0 (by decide)
    exact ⟨⟨hne NUL (by decide), hne '*' (by decide), hdigit⟩, hne '.' (by decide),
      hne '+' (by decide), hne '-' (by decide)⟩
  cases h : d.long with
  | true => exact ⟨'l', d.c :: fmt, by simp [convText, h], ⟨by decide, by decide, by decide⟩,
      by decide, by decide, by decide⟩
  | false => exact ⟨d.c, fmt, by simp [convText, h], hconv⟩

/-- The first character from the precision on. -/
theorem precisionText_head (fmt : List Char) : ∃ x rest, d.precisionText fmt = x :: rest ∧
    Follows x ∧ x ≠ '+' ∧ x ≠ '-' := by
  rw [precisionText]
  split
  · obtain ⟨x, rest, htext, hx, -, hplus, hminus⟩ := d.convText_head fmt
    exact ⟨x, rest, htext, hx, hplus, hminus⟩
  · exact ⟨'.', _, rfl, ⟨by decide, by decide, by decide⟩, by decide, by decide⟩

/-- The first character from the width on is no flag. -/
theorem widthText_head (fmt : List Char) : ∃ x rest,
    d.width.text ++ d.precisionText fmt = x :: rest ∧ x ≠ '0' ∧ x ≠ '+' ∧ x ≠ '-' := by
  obtain ⟨c, rest, htext, hc, hplus, hminus⟩ := d.precisionText_head fmt
  obtain ⟨x, rest, hwidth, hx⟩ := count_head d.width c rest
  refine ⟨x, rest, by rw [htext, hwidth], ?_⟩
  rcases hx with rfl | ⟨-, rfl⟩ | ⟨h1, -⟩
  · refine ⟨?_, hplus, hminus⟩
    intro h
    exact hc.not_digit (by rw [h]; decide)
  · decide
  · refine ⟨?_, ?_, ?_⟩ <;> rintro rfl <;> exact absurd h1 (by decide)

/-- `longModifier` reads what comes after the precision. -/
theorem longModifier_convText {x : Char} {rest : List Char} (h : d.convText fmt = x :: rest) :
    longModifier x rest = .ok (d.long || decide ('A' ≤ d.c ∧ d.c ≤ 'Z'), d.c, fmt) := by
  cases hl : d.long with
  | true =>
      have hparts : 'l' :: d.c :: fmt = x :: rest := by rw [← h, convText, hl]; rfl
      obtain ⟨rfl, rfl⟩ := List.cons.inj hparts
      have hnul : d.c ≠ NUL := by
        intro hc
        have hconv := d.isConversion
        rw [hc] at hconv
        exact absurd hconv (by decide)
      rw [longModifier, if_pos (.inl rfl)]
      show (if d.c = NUL then _ else _) = _
      rw [if_neg hnul, Bool.true_or]
  | false =>
      have hparts : d.c :: fmt = x :: rest := by rw [← h, convText, hl]; rfl
      obtain ⟨rfl, rfl⟩ := List.cons.inj hparts
      have hplain : ¬(d.c = 'l' ∨ d.c = 'L') := not_or.mpr d.isConversion.2
      rw [longModifier, if_neg hplain, Bool.false_or]

/-- Only the count 0 is written with no text. -/
theorem text_eq_nil {n : Count} (h : n.text = []) : n.take ap = some (0, ap) := by
  cases n with
  | star => cases h
  | fixed n hn =>
      rw [Count.text] at h
      split at h
      · rename_i h0
        subst h0
        rfl
      · have hlen := congrArg List.length h
        rw [length_showNat] at hlen
        exact absurd hlen (Nat.succ_ne_zero _)

/-- `precisionField` reads the precision. -/
theorem precisionField_text (ap : List Arg) {x c : Char} {rest past : List Char}
    (h : d.precisionText fmt = x :: rest) (hconv : d.convText fmt = c :: past) :
    precisionField x rest ap =
      match d.precision.take ap with
      | none => .error .undefined
      | some (v, ap) => .ok (v, c, past, ap) := by
  obtain ⟨y, tail, htext, hy, hdot, -⟩ := d.convText_head fmt
  rw [hconv] at htext
  obtain ⟨rfl, rfl⟩ := List.cons.inj htext
  rw [precisionText] at h
  split at h
  · rename_i hnil
    rw [hconv] at h
    obtain ⟨rfl, rfl⟩ := List.cons.inj h
    rw [precisionField, if_neg hdot, text_eq_nil hnil]
  · obtain ⟨rfl, rfl⟩ := List.cons.inj h
    rw [precisionField, if_pos rfl, hconv, field_count _ ap d.precision hy]

/-- The interpreter reads a directive back from its text. -/
theorem parse_text :
    parse (d.text fmt) ap =
      match d.width.take ap with
      | none => .error .undefined
      | some (w, ap) =>
          match d.precision.take ap with
          | none => .error .undefined
          | some (p, ap) => .ok (d.spec w p, fmt, ap) := by
  obtain ⟨c, past, hconv, -⟩ := d.convText_head fmt
  obtain ⟨y, tail, hprec, hy, -⟩ := d.precisionText_head fmt
  obtain ⟨x, rest, hwidth, h0, hplus, hminus⟩ := d.widthText_head fmt
  -- The three flags, each in front of a text that starts with another character.
  have hzero : flag '0' ((if d.zero then ['0'] else []) ++ x :: rest) = .ok (d.zero, x :: rest) :=
    flag_ite d.zero h0
  have hsign : flag '+' ((if d.doSign then ['+'] else []) ++
      ((if d.zero then ['0'] else []) ++ x :: rest)) =
      .ok (d.doSign, (if d.zero then ['0'] else []) ++ x :: rest) := by
    cases d.zero with
    | true => exact flag_ite d.doSign (by decide)
    | false => exact flag_ite d.doSign hplus
  have hleft : flag '-' (d.text fmt) = .ok (d.leftAlign, (if d.doSign then ['+'] else []) ++
      ((if d.zero then ['0'] else []) ++ x :: rest)) := by
    rw [text, hwidth]
    cases d.doSign with
    | true => exact flag_ite d.leftAlign (by decide)
    | false =>
        cases d.zero with
        | true => exact flag_ite d.leftAlign (by decide)
        | false => exact flag_ite d.leftAlign hminus
  have hfield := field_count tail ap d.width hy
  rw [← hprec, hwidth] at hfield
  simp only [parse, hleft, hsign, hzero, hfield, bind, Except.bind]
  cases d.width.take ap with
  | none => rfl
  | some wa =>
      have hprecision := d.precisionField_text wa.2 hprec hconv
      simp only [hprecision]
      cases d.precision.take wa.2 with
      | none => rfl
      | some pa =>
          simp only [d.longModifier_convText hconv]
          rfl

end Directive

/-- One directive of a spelled format. -/
theorem directive_text (fl : Floats) (d : Directive) :
    directive fl (d.text fmt) ap =
      match d.interpret fl ap with
      | none => .error .undefined
      | some (out, ap) => .ok (out, fmt, ap) := by
  rw [directive, d.parse_text, Directive.interpret]
  cases d.width.take ap with
  | none => rfl
  | some wa =>
      simp only [Option.bind_eq_bind, Option.bind_some]
      cases d.precision.take wa.2 with
      | none => rfl
      | some pa =>
          simp only [Option.bind_some]
          cases convert fl (d.spec wa.1 pa.1) pa.2 with
          | none => rfl
          | some sa =>
              show (match output d.leftAlign wa.1 sa.2.1 sa.1 with
                | none => _
                | some out => _) = _
              simp only [Option.bind_some]
              cases output d.leftAlign wa.1 sa.2.1 sa.1 <;> rfl

/-- A format is at least as long as it has pieces. Its rounds are enough for them. -/
theorem length_le_spell (ps : List Piece) (past : List Char) :
    ps.length + past.length ≤ (spell ps past).length := by
  induction ps with
  | nil => exact (Nat.zero_add _).le
  | cons p ps ih =>
      cases p with
      | lit c h =>
          rw [spell, List.length_cons, List.length_cons]
          omega
      | conv d =>
          have htext : (spell ps past).length ≤ (d.text (spell ps past)).length := by
            have hconv : (spell ps past).length ≤ (d.convText (spell ps past)).length := by
              rw [Directive.convText, List.length_append, List.length_cons]
              omega
            have hprec : (d.convText (spell ps past)).length ≤
                (d.precisionText (spell ps past)).length := by
              rw [Directive.precisionText]
              split
              · exact le_rfl
              · rw [List.length_cons, List.length_append]
                omega
            simp only [Directive.text, List.length_append]
            omega
          rw [spell, List.length_cons, List.length_cons]
          omega

/-- The loop does the pieces of a spelled format, and stops at its NUL. -/
theorem chvprintfLoop_spell (fl : Floats) (past : List Char) {ps : List Piece} {rounds : Nat}
    (hrounds : ps.length < rounds) :
    chvprintfLoop fl rounds (spell ps (NUL :: past)) ap = interpret fl ps ap := by
  induction ps generalizing rounds ap with
  | nil =>
      obtain ⟨r, rfl⟩ := Nat.exists_eq_add_of_lt hrounds
      rfl
  | cons p ps ih =>
      cases rounds with
      | zero => cases hrounds
      | succ rounds =>
          have hps : ps.length < rounds := Nat.lt_of_succ_lt_succ hrounds
          cases p with
          | lit c h =>
              show (if c = NUL then _ else if c ≠ '%' then _ else _) = _
              rw [if_neg h.1, if_pos h.2, ih hps]
              rfl
          | conv d =>
              show (if '%' = NUL then _ else if '%' ≠ '%' then _ else
                match directive fl (d.text (spell ps (NUL :: past))) ap with
                | .error .ended => some []
                | .error .undefined => none
                | .ok (s, fmt, ap) => (chvprintfLoop fl rounds fmt ap).map (s ++ ·)) = _
              rw [if_neg (by decide), if_neg (by decide), directive_text, interpret]
              cases d.interpret fl ap with
              | none => rfl
              | some oa =>
                  simp only [Option.bind_eq_bind, Option.bind_some, ih hps]
                  cases interpret fl ps oa.2 <;> rfl

/-- `chvprintf` does the pieces of a spelled format, if `n` does not overflow. -/
theorem chvprintf_pieces (fl : Floats) (ps : List Piece) (past : List Char) :
    chvprintf fl (spell ps (NUL :: past)) ap =
      (interpret fl ps ap).filter fun out => out.length < 2 ^ 31 := by
  have hlen := length_le_spell ps (NUL :: past)
  rw [List.length_cons] at hlen
  rw [chvprintf, chvprintfLoop_spell fl past (by omega)]

end

end ChibiOS.Printf
