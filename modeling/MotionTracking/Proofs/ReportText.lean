import MotionTracking.ChibiOS.FormatMeaning
import MotionTracking.Proofs.Printed
import MotionTracking.Proofs.Snapshot

/-!
# `MotionTracking.Proofs.ReportText`: the text of the reports

The lines of a report as `serialcomm.c` formats them, and a reader for a stream of
such lines: it splits at line feeds, skips the empty lines between reports, and
takes the label and the number of each line.

In every run the lines printed so far are text without undefined behaviour of
`chprintf`, and the reader gets from it the labels and the numbers, in order, each
cut off after three decimal places.
-/

set_option autoImplicit false

namespace MotionTracking

open Arith
open ChibiOS.Printf
open Threads (Config Reaches)

variable {L : FloatLib}

/-! ### Formats -/

/-- The letter in front of the number. -/
def Axis.label : Axis → Char
  | .x => 'x'
  | .y => 'y'
  | .z => 'z'

/-- The format of a line. The last line of a report has another line feed. -/
def axisFormat (a : Axis) (last : Bool) : List Char :=
  a.label :: ':' :: ' ' :: '%' :: '.' :: '3' :: 'f' :: '\r' :: '\n' ::
    if last then ['\n'] else []

/-- The report that is being printed uses the format that `cmdred` selects. -/
def inDegrees : List (Obs (Soft L)) → Bool
  | [] => false
  | .began .serialReadAccaxisD :: _ => true
  | .began .serialReadAccaxisG :: _ => false
  | _ :: l => inDegrees l

/-- The line is the last one of its report. -/
def isLast (past : List (Obs (Soft L))) : Axis → Bool
  | .x => false
  | .y => inDegrees past
  | .z => true

/-- `chprintf` of one line. -/
def lineText (past : List (Obs (Soft L))) (a : Axis) (v : Soft L) : Option (List Char) :=
  chvprintf L.toFloats (axisFormat a (isLast past a) ++ [NUL]) [.double v.value]

/-- The text of all lines of a log. -/
def stream : List (Obs (Soft L)) → Option (List Char)
  | [] => some []
  | .printed (.axis a v) :: l => do
      let s ← stream l
      let line ← lineText l a v
      some (s ++ line)
  | _ :: l => stream l

/-! ### Reading -/

/-- The axis of a letter. -/
def Axis.ofLabel (c : Char) : Option Axis :=
  if c = 'x' then some .x else if c = 'y' then some .y else if c = 'z' then some .z else none

/-- A line without its line feed. -/
def readLine : List Char → Option (Axis × ℚ)
  | c :: ':' :: ' ' :: rest => do
      let a ← Axis.ofLabel c
      let v ← readField (rest.filter (· ≠ '\r'))
      some (a, v)
  | _ => none

/-- The lines of a stream. -/
def readStream (cs : List Char) : Option (List (Axis × ℚ)) :=
  ((cs.splitOn '\n').filter (· ≠ [])).mapM readLine

/-! ### One line -/

/-- `%.3f`. -/
def threePlaces : Directive := { eightThree with width := .absent }

/-- The number of a line. -/
def axisText (q : ℚ) : List Char := (Converted.mk (signText false (q < 0)) (decimalText 3 |q|)).text

/-- The letters of the axes are printed as they stand. -/
theorem literal_ok (a : Axis) : a.label ≠ NUL ∧ a.label ≠ '%' := by
  cases a <;> decide

/-- The pieces of a line's format. -/
def linePieces (a : Axis) (last : Bool) : List Piece :=
  .lit a.label (literal_ok a) :: .lit ':' (by decide) :: .lit ' ' (by decide) ::
    .conv threePlaces :: .lit '\r' (by decide) :: .lit '\n' (by decide) ::
      if last then [.lit '\n' (by decide)] else []

/-- The pieces spell the format string of the source. -/
theorem spell_linePieces (a : Axis) (last : Bool) :
    spell (linePieces a last) [NUL] = axisFormat a last ++ [NUL] := by
  cases a <;> cases last <;> rfl

/-- The conversion of a line puts its number, without filling. -/
theorem meaning_threePlaces {q : ℚ} (hq : Representable 24 (-149) q) (hlt : |q| < 2 ^ 31) :
    threePlaces.meaning L.toFloats [.double (some q)] = some (axisText q, []) := by
  have hw : threePlaces.width.take [.double (some q)] =
    some (((0 : ℕ) : ℤ), [.double (some q)]) := rfl
  have hp : threePlaces.precision.take [.double (some q)] =
    some (((3 : ℕ) : ℤ), [.double (some q)]) := rfl
  have hfield := field_float L.toFloats (d := threePlaces) (p := ((3 : ℕ) : ℤ)) [] rfl hq hlt
  have hmin : ¬((0 : ℕ) : ℤ) - (axisText q).length < INT_MIN := by
    have hlen : (axisText q).length ≤ TMPBUF_SIZE :=
      length_decimalText (signText_cases false (q < 0)) (by decide) (abs_nonneg q) hlt
    have hbuf : TMPBUF_SIZE = 23 := rfl
    unfold INT_MIN
    omega
  rw [Directive.meaning, hw]
  simp only [hp, hfield, Option.bind_eq_bind, Option.bind_some]
  rw [show threePlaces.doSign = false from rfl, show decimals ((3 : ℕ) : ℤ) = 3 from rfl]
  rw [axisText] at hmin ⊢
  rw [if_neg hmin, pad_of_le (by omega)]

/-- A line is its label, its number and the line feeds of its format. -/
theorem lineText_eq (past : List (Obs (Soft L))) (a : Axis) {v : Soft L} (hv : InRange v) :
    ∃ q, v.value = some q ∧ lineText past a v =
      some (a.label :: ':' :: ' ' :: axisText q ++ '\r' :: '\n' ::
        if isLast past a then ['\n'] else []) := by
  obtain ⟨q, hq, hlow, hhigh⟩ := hv
  obtain ⟨s, -, hs⟩ := Soft.value_eq_some hq
  have hlt : |q| < 2 ^ 31 := by
    rw [abs_lt]
    have hmax : AXIS_MAX < 2 ^ 31 := by norm_num [AXIS_MAX]
    exact ⟨by linarith, by linarith⟩
  have hmeaning := meaning_threePlaces (L := L) (hs ▸ s.representable) hlt
  refine ⟨q, hq, ?_⟩
  have htext : render L.toFloats (linePieces a (isLast past a)) [.double (some q)] =
      some (a.label :: ':' :: ' ' :: axisText q ++ '\r' :: '\n' ::
        if isLast past a then ['\n'] else []) := by
    have htail : ∀ ap, render L.toFloats (.lit '\r' (by decide) :: .lit '\n' (by decide) ::
        if isLast past a then [Piece.lit '\n' (by decide)] else []) ap =
        some ('\r' :: '\n' :: if isLast past a then ['\n'] else []) := by
      intro ap
      cases isLast past a <;> rfl
    show (((render L.toFloats (.conv threePlaces :: .lit '\r' (by decide) ::
      .lit '\n' (by decide) :: if isLast past a then [Piece.lit '\n' (by decide)] else [])
      [.double (some q)]).map (' ' :: ·)).map (':' :: ·)).map (a.label :: ·) = _
    rw [render, hmeaning]
    simp only [Option.bind_eq_bind, Option.bind_some, htail]
    rfl
  -- A line is far too short for `n` to overflow.
  have hshort : (a.label :: ':' :: ' ' :: axisText q ++ '\r' :: '\n' ::
      if isLast past a then ['\n'] else []).length < 2 ^ 31 := by
    have hlen : (axisText q).length ≤ 23 :=
      length_decimalText (signText_cases false (q < 0)) (by decide) (abs_nonneg q) hlt
    have hend : (if isLast past a then ['\n'] else []).length ≤ 1 := by
      cases isLast past a <;> decide
    simp only [List.length_append, List.length_cons]
    omega
  rw [lineText, hq, ← spell_linePieces, chvprintf_pieces, interpret_eq_render, htext]
  exact Option.filter_some_pos (decide_eq_true hshort)

/-! ### Reading a line back -/

/-- Besides the digits, a number has a sign and a point. -/
theorem mem_axisText {q : ℚ} {c : Char} (hc : c ∈ axisText q) : c = '-' ∨ c = '.' ∨ '0' ≤ c := by
  rw [axisText, Converted.text, List.mem_append] at hc
  rcases hc with hc | hc
  · unfold signText at hc
    split at hc
    · exact .inl (List.mem_singleton.mp hc)
    · exact absurd hc List.not_mem_nil
  · rw [decimalText, List.mem_append, List.mem_cons] at hc
    rcases hc with hc | hc | hc
    · exact .inr (.inr (zero_le_of_mem_showNat hc))
    · exact .inr (.inl hc)
    · exact .inr (.inr (zero_le_of_mem_showNat hc))

/-- No space and no line break is in the text of a number. -/
theorem ne_of_mem_axisText {q : ℚ} {c d : Char} (hc : c ∈ axisText q) (hd : d < ' ') : c ≠ d := by
  rintro rfl
  rcases mem_axisText hc with rfl | rfl | h0
  · exact absurd hd (by decide)
  · exact absurd hd (by decide)
  · have hblank : ' ' ≤ '0' := by decide
    exact absurd (Char.le_trans hblank h0) (Char.not_le.mpr hd)

/-- The reader gets the number, cut off after three places. -/
theorem readField_axisText (q : ℚ) : readField (axisText q) = some (truncate 3 q) := by
  have hread := readField_float (k := 3) (by decide) (abs_nonneg q) false (q < 0) false false 0
  rw [pad_of_le (by omega)] at hread
  rw [axisText, hread]
  by_cases hneg : q < 0
  · rw [decide_eq_true hneg, if_pos rfl, abs_of_neg hneg, truncate_neg 3 hneg]
  · rw [decide_eq_false hneg, if_neg (by decide), abs_of_nonneg (not_lt.mp hneg)]

/-- A line before its line feed. -/
def lineBody (a : Axis) (q : ℚ) : List Char := a.label :: ':' :: ' ' :: axisText q ++ ['\r']

/-- A line is read back as its axis and the number, cut off after three places. -/
theorem readLine_lineBody (a : Axis) (q : ℚ) :
    readLine (lineBody a q) = some (a, truncate 3 q) := by
  have hlabel : Axis.ofLabel a.label = some a := by cases a <;> rfl
  have hfilter : (axisText q ++ ['\r']).filter (· ≠ '\r') = axisText q := by
    rw [List.filter_append]
    have hself : (axisText q).filter (· ≠ '\r') = axisText q :=
      List.filter_eq_self.mpr fun c hc => decide_eq_true (ne_of_mem_axisText hc (by decide))
    rw [hself]
    exact List.append_nil _
  show (do
    let a ← Axis.ofLabel a.label
    let v ← readField ((axisText q ++ ['\r']).filter (· ≠ '\r'))
    some (a, v)) = _
  rw [hlabel, hfilter, readField_axisText]
  rfl

/-- A line has no line break in it. -/
theorem splitOn_lineBody (a : Axis) (q : ℚ) : (lineBody a q).splitOn '\n' = [lineBody a q] := by
  refine List.splitOn_eq_singleton fun hmem => ?_
  rw [lineBody, List.mem_append] at hmem
  rcases hmem with hmem | hmem
  · simp only [List.mem_cons] at hmem
    rcases hmem with h | h | h | h
    · cases a <;> exact absurd h (by decide)
    · exact absurd h (by decide)
    · exact absurd h (by decide)
    · exact ne_of_mem_axisText h (by decide) rfl
  · exact absurd hmem (by decide)

/-- The nonempty lines of a text that goes on behind a line feed. -/
theorem splitLines_append (s t : List Char) :
    ((s ++ '\n' :: t).splitOn '\n').filter (· ≠ []) =
      (s.splitOn '\n').filter (· ≠ []) ++ (t.splitOn '\n').filter (· ≠ []) := by
  rw [List.splitOn_append_cons_self, List.filter_append]

/-- A text that ends with a line feed, or is empty. -/
def Complete (s : List Char) : Prop := s = [] ∨ ∃ r, s = r ++ ['\n']

/-- Reading on behind a complete text. -/
theorem splitLines_append_line {s : List Char} (hs : Complete s) (a : Axis) (q : ℚ) (last : Bool) :
    ((s ++ (lineBody a q ++ '\n' :: if last then ['\n'] else [])).splitOn '\n').filter (· ≠ []) =
      (s.splitOn '\n').filter (· ≠ []) ++ [lineBody a q] := by
  have hne : lineBody a q ≠ [] := List.cons_ne_nil _ _
  have hrest : ((if last then ['\n'] else [] : List Char).splitOn '\n').filter (· ≠ []) = [] := by
    cases last <;> rfl
  have hline : ((lineBody a q ++ '\n' :: if last then ['\n'] else []).splitOn '\n').filter
      (· ≠ []) = [lineBody a q] := by
    rw [splitLines_append, hrest, splitOn_lineBody, List.append_nil]
    exact List.filter_cons_of_pos (decide_eq_true hne)
  rcases hs with rfl | ⟨r, rfl⟩
  · rw [List.nil_append, hline]
    rfl
  · rw [List.append_assoc, List.singleton_append, splitLines_append, hline, splitLines_append]
    show _ = (_ ++ []) ++ _
    rw [List.append_nil]

/-! ### The stream of a run -/

/-- What a reader gets from a line. -/
def shown (l : Axis × Soft L) : Axis × ℚ := (l.1, truncate 3 (l.2.value.getD 0))

/-- The text of a log's lines is defined and complete, and its lines are those of
the log. -/
theorem stream_lines {l : List (Obs (Soft L))} (hl : ∀ e ∈ Obs.lines l, InRange e.2) :
    ∃ s, stream l = some s ∧ Complete s ∧
      ((s.splitOn '\n').filter (· ≠ [])).mapM readLine =
        some ((Obs.lines l).reverse.map shown) := by
  induction l with
  | nil => exact ⟨[], rfl, .inl rfl, rfl⟩
  | cons ev l ih =>
      rw [lines_entry] at hl
      obtain ⟨s, hs, hcomplete, hread⟩ := ih fun e he => hl e (List.mem_append_right _ he)
      cases ev with
      | printed o =>
          cases o with
          | axis a v =>
              have hv : InRange v := hl (a, v) (List.mem_append_left _ (List.mem_singleton_self _))
              obtain ⟨q, hq, htext⟩ := lineText_eq l a hv
              have hline : lineText l a v = some (lineBody a q ++
                  '\n' :: if isLast l a then ['\n'] else []) := by
                rw [htext, lineBody, List.append_assoc]
                rfl
              refine ⟨s ++ (lineBody a q ++ '\n' :: if isLast l a then ['\n'] else []), ?_, ?_, ?_⟩
              · simp only [stream, hs, hline, Option.bind_eq_bind, Option.bind_some]
              · refine .inr ?_
                cases isLast l a with
                | true =>
                    refine ⟨s ++ lineBody a q ++ ['\n'], ?_⟩
                    simp only [List.append_assoc, List.singleton_append, if_true]
                | false =>
                    refine ⟨s ++ lineBody a q, ?_⟩
                    simp only [List.append_assoc, Bool.false_eq_true, if_false]
              · have hshown : shown (a, v) = (a, truncate 3 q) := by
                  rw [shown, hq, Option.getD_some]
                rw [splitLines_append_line hcomplete, List.mapM_append, hread]
                show (do
                  let ys ← [lineBody a q].mapM readLine
                  pure ((Obs.lines l).reverse.map shown ++ ys)) = _
                rw [Obs.lines, List.reverse_cons, List.map_append, List.map_singleton, hshown]
                simp only [List.mapM_cons, List.mapM_nil, readLine_lineBody]
                rfl
          | _ => exact ⟨s, hs, hcomplete, hread⟩
      | _ => exact ⟨s, hs, hcomplete, hread⟩

/-- In every run, printing the lines of the reports is defined, and from their text
a reader gets the labels and the numbers in order, each cut off after three places.
All numbers lie between `-1` and `AXIS_MAX`. -/
theorem reports_read_back {results : Tid → Nat → I2CResult} {regs : UInt8 → UInt8}
    {pastStrbuf : List UInt8} {c : Config (sig (Soft L)) Tid (Sys (Soft L))}
    (h : Reaches (machine (Soft L)) loop (bootConfig results regs pastStrbuf) c) (t : Tid) :
    (∀ l ∈ Obs.lines (c.st.log t), InRange l.2) ∧
      ∃ text, stream (c.st.log t) = some text ∧
        readStream text = some ((Obs.lines (c.st.log t)).reverse.map shown) := by
  have hlines := (ranged_of_reaches h).lines t
  obtain ⟨text, htext, -, hread⟩ := stream_lines hlines
  exact ⟨hlines, text, htext, hread⟩

/-- Arithmetic that rounds toward zero, and gives no roots and angles. -/
def chopping : FloatLib where
  toFloats := .towardZero
  sqrt _ := none
  atan _ := none

/-- The seventh iteration prints the first report, of three lines. -/
theorem reports_read_back_first : ∃ c : Config (sig (Soft chopping)) Tid (Sys (Soft chopping)),
    (Obs.lines (c.st.log .serial)).length = 3 ∧ ∃ text, stream (c.st.log .serial) = some text ∧
      readStream text = some ((Obs.lines (c.st.log .serial)).reverse.map shown) := by
  have hrun : (Threads.run (machine (Soft chopping)) loop (sixIdle ++
      List.replicate 5 (.run .serial) ++ [.env (.elapse 500)] ++ List.replicate 19 (.run .serial))
      (bootConfig (fun _ _ => ⟨.MSG_OK, []⟩) (fun _ => 1) [])).any (fun c =>
        (Obs.lines (c.st.log .serial)).length = 3) = true := by
    decide +kernel
  obtain ⟨c, hc, hf⟩ := Reaches.of_run_any hrun
  exact ⟨c, of_decide_eq_true hf, (reports_read_back hc .serial).2⟩

end MotionTracking
