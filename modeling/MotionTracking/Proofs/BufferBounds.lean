import Mathlib.Algebra.GroupWithZero.Nat
import Mathlib.Data.List.TakeWhile
import MotionTracking.Firmware.Command

/-!
# `MotionTracking.Proofs.BufferBounds`: what `commad_check` reads of `strbuf`

In the system model `commad_check` gets all the memory from `strbuf` on. Here it
gets the buffer alone, as a list with partial indexing: `strcmpIn` and
`strlenIn` are the loops of `strcmp` and `strlen`, with the result `none` when
the loop would read behind the last byte of the list. `commadCheckIn` makes the
comparisons in the order of the source, and returns the command it found and the
sizes it passes to `sdWrite`.

`commadCheckIn_commandOf` connects the two models: a `commad_check` that stays
inside finds what it finds in the memory as a whole, whatever lies behind.

`handled_inside_iff`: the handling of a buffer stays inside, and writes no empty
string, exactly when the buffer starts with a byte other than NUL and has a NUL
at a later place. So no command is ever handled inside
(`not_inside_of_command`), and `command_reads_past` is the shortest such run.
-/

set_option autoImplicit false

namespace MotionTracking

/-! ### The loops -/

/-- `strcmp` of a memory area with a string constant, `none` when it reads behind
the area. The constant ends with a NUL. -/
def strcmpIn : List UInt8 → List UInt8 → Option Int
  | [], _ => none
  | a :: _, [] => some a.toNat
  | a :: as, b :: bs =>
      if a = b then (if a = 0 then some 0 else strcmpIn as bs) else some (a.toNat - b.toNat)

/-- `strlen` of a memory area, `none` when it reads behind the area. -/
def strlenIn : List UInt8 → Option Nat
  | [] => none
  | a :: as => if a = 0 then some 0 else (strlenIn as).map (· + 1)

/-- The commands, in the order of `commad_check`'s comparisons. -/
def commands : List Command :=
  [.start, .stop, .redg, .regs, .range .ACCEL_RANGE_2G, .range .ACCEL_RANGE_4G,
    .range .ACCEL_RANGE_8G, .range .ACCEL_RANGE_16G]

/-- The sizes of the texts a command prints. -/
def Command.writes : Command → List Nat
  | .start => ["cmd: mt start\n\r".length]
  | .stop => ["cmd: mt stop\n\r".length]
  | _ => []

/-- The comparisons with `cs`, then the echo of an unknown command. -/
def compareIn (mem : List UInt8) : List Command → Option (Option Command × List Nat)
  | [] => do
      let n ← strlenIn mem
      return (none, ["cmd: unknown command: ".length, n, "\n\r".length])
  | c :: cs => do
      let r ← strcmpIn mem c.text
      if r = 0 then return (some c, c.writes) else compareIn mem cs

/-- `commad_check` on a memory area, `none` when it reads behind the area: the
command it finds, and the sizes of its `sdWrite` calls. -/
def commadCheckIn (mem : List UInt8) : Option (Option Command × List Nat) :=
  compareIn mem commands

/-! ### `strcmp` and `strlen` -/

/-- A comparison that stays inside has the result of `strcmp`, whatever follows
the area. -/
theorem strcmp_of_strcmpIn {mem text : List UInt8} {r : Int} (h : strcmpIn mem text = some r)
    (past : List UInt8) : strcmp (mem ++ past) text = r := by
  induction mem generalizing text with
  | nil => cases h
  | cons a as ih =>
      cases text with
      | nil => exact Option.some.inj h
      | cons b bs =>
          rw [strcmpIn] at h
          rw [List.cons_append, strcmp]
          split at h
          · rename_i hab
            rw [if_pos hab]
            split at h
            · rename_i ha
              rw [if_pos ha]
              exact Option.some.inj h
            · rename_i ha
              rw [if_neg ha]
              exact ih h
          · rename_i hab
            rw [if_neg hab]
            exact Option.some.inj h

/-- A comparison with a text leaves the area exactly when all of the area agrees
with the text. -/
theorem strcmpIn_eq_none_iff {mem text : List UInt8} (h : 0 ∉ text) :
    strcmpIn mem text = none ↔ mem <+: text := by
  induction mem generalizing text with
  | nil => simp [strcmpIn]
  | cons a as ih =>
      cases text with
      | nil => simp [strcmpIn]
      | cons b bs =>
          rw [strcmpIn, List.cons_prefix_cons]
          have hb : b ≠ 0 := fun hb => h (hb ▸ List.mem_cons_self)
          have hbs : 0 ∉ bs := fun hbs => h (List.mem_cons_of_mem b hbs)
          by_cases hab : a = b
          · rw [if_pos hab, if_neg (by rwa [hab]), ih hbs]
            exact ⟨fun hp => ⟨hab, hp⟩, fun hp => hp.2⟩
          · rw [if_neg hab]
            simp [hab]

/-- `strlen` stays inside an area with a NUL, and leaves one without. -/
theorem strlenIn_eq (mem : List UInt8) :
    strlenIn mem = if 0 ∈ mem then some (cstr mem).length else none := by
  induction mem with
  | nil => rfl
  | cons a as ih =>
      rw [strlenIn, cstr_cons]
      by_cases ha : a = 0
      · simp [ha]
      · rw [if_neg ha, if_neg ha, ih]
        by_cases has : 0 ∈ as
        · simp [has]
        · simp [has, Ne.symm ha]

/-- No command has a NUL byte in it. -/
theorem nul_notMem_text (c : Command) : (0 : UInt8) ∉ c.text := by
  cases c with
  | range r => cases r <;> decide
  | _ => decide

/-- Every command fills the buffer, which leaves no place for a NUL. -/
theorem length_text (c : Command) : c.text.length = SERIAL_BUFFER_SIZE := by
  cases c with
  | range r => cases r <;> rfl
  | _ => rfl

/-- A comparison that stays inside and finds the command. -/
theorem cstr_of_strcmpIn {mem : List UInt8} {c : Command} {r : Int}
    (h : strcmpIn mem c.text = some r) (past : List UInt8) :
    r = 0 ↔ cstr (mem ++ past) = c.text := by
  rw [← strcmp_of_strcmpIn h past, strcmp_eq_zero, cstr_text]

/-! ### `commad_check` -/

/-- A NUL ends the string inside the memory. -/
theorem length_cstr_lt {mem : List UInt8} (h : 0 ∈ mem) : (cstr mem).length < mem.length := by
  induction mem with
  | nil => cases h
  | cons a as ih =>
      rw [cstr_cons]
      split
      · simp
      · rename_i ha
        have hlt := ih ((List.mem_cons.mp h).resolve_left (Ne.symm ha))
        simp only [List.length_cons]
        omega

/-- An area with a NUL, and no longer than the commands, is no command. -/
theorem compareIn_of_nul {mem : List UInt8} (h : 0 ∈ mem) (hlen : mem.length ≤ SERIAL_BUFFER_SIZE)
    (cs : List Command) : compareIn mem cs = some (none,
      ["cmd: unknown command: ".length, (cstr mem).length, "\n\r".length]) := by
  induction cs with
  | nil =>
      rw [compareIn, strlenIn_eq, if_pos h]
      rfl
  | cons c cs ih =>
      rw [compareIn]
      cases hr : strcmpIn mem c.text with
      | none =>
          -- The text of a command has no NUL, so the area is no part of it.
          have hpre := (strcmpIn_eq_none_iff (nul_notMem_text c)).mp hr
          exact absurd (hpre.subset h) (nul_notMem_text c)
      | some r =>
          have hne : r ≠ 0 := by
            intro hr0
            have hcstr := (cstr_of_strcmpIn hr []).mp hr0
            rw [List.append_nil] at hcstr
            have hlt := length_cstr_lt h
            rw [hcstr, length_text] at hlt
            omega
          show (if r = 0 then _ else compareIn mem cs) = _
          rw [if_neg hne, ih]

/-- In an area without a NUL, as long as the commands, some loop reads on behind
the area. -/
theorem compareIn_of_no_nul {mem : List UInt8} (h : 0 ∉ mem)
    (hlen : mem.length = SERIAL_BUFFER_SIZE) (cs : List Command) : compareIn mem cs = none := by
  induction cs with
  | nil =>
      rw [compareIn, strlenIn_eq, if_neg h]
      rfl
  | cons c cs ih =>
      rw [compareIn]
      cases hr : strcmpIn mem c.text with
      | none => rfl
      | some r =>
          have hne : r ≠ 0 := by
            intro hr0
            -- With one more byte behind the area the string is too long.
            have hcstr := (cstr_of_strcmpIn hr [1]).mp hr0
            have hall : cstr (mem ++ [1]) = mem ++ [1] := by
              refine List.takeWhile_eq_self_iff.mpr fun a ha => ?_
              rcases List.mem_append.mp ha with ha | ha
              · exact decide_eq_true fun ha0 => h (ha0 ▸ ha)
              · rw [List.mem_singleton.mp ha]
                rfl
            have hlen' := congrArg List.length (hall.symm.trans hcstr)
            rw [List.length_append, hlen, length_text] at hlen'
            exact absurd hlen' (by decide)
          show (if r = 0 then _ else compareIn mem cs) = _
          rw [if_neg hne, ih]

/-- Comparisons that stay inside the buffer find the command that `commandOf` finds with
whatever follows, by induction on the commands still to be compared. -/
theorem compareIn_commandOf {mem : List UInt8} {found : Option Command} {sizes : List Nat}
    (past : List UInt8) (cs : List Command) (h : compareIn mem cs = some (found, sizes))
    (hcs : ∀ c, c ∉ cs → cstr (mem ++ past) ≠ c.text) : commandOf (mem ++ past) = found := by
  induction cs with
  | nil =>
      rw [compareIn] at h
      obtain ⟨n, -, hfound⟩ := Option.bind_eq_some_iff.mp h
      rw [← (Prod.mk.inj (Option.some.inj hfound)).1]
      exact commandOf_eq_none.mpr fun c => hcs c List.not_mem_nil
  | cons c cs ih =>
      rw [compareIn] at h
      obtain ⟨r, hr, hrest⟩ := Option.bind_eq_some_iff.mp h
      split at hrest
      · rename_i hr0
        rw [← (Prod.mk.inj (Option.some.inj hrest)).1]
        exact commandOf_eq_some.mpr ((cstr_of_strcmpIn hr past).mp hr0)
      · rename_i hr0
        refine ih hrest fun d hd => ?_
        by_cases hdc : d = c
        · rw [hdc]
          exact fun hcstr => hr0 ((cstr_of_strcmpIn hr past).mpr hcstr)
        · exact hcs d fun hmem => hd ((List.mem_cons.mp hmem).resolve_left hdc)

/-- A `commad_check` that stays inside finds what it finds in the whole memory. -/
theorem commadCheckIn_commandOf {mem : List UInt8} {found : Option Command} {sizes : List Nat}
    (h : commadCheckIn mem = some (found, sizes)) (past : List UInt8) :
    commandOf (mem ++ past) = found := by
  refine compareIn_commandOf past commands h fun c hc => ?_
  cases c with
  | range r => cases r <;> exact absurd (by decide) hc
  | _ => exact absurd (by decide) hc

/-! ### The receive buffer -/

/-- The handling of a buffer reads the buffer only, and writes no empty string. -/
def HandledInside (buf : Buf SERIAL_BUFFER_SIZE) : Prop :=
  ∃ found sizes, commadCheckIn (List.ofFn buf) = some (found, sizes) ∧ ∀ n ∈ sizes, 0 < n

/-- What the reads leave in `strbuf`, each of them at most the buffer's size. -/
def leftBy (reads : List (List UInt8)) : Buf SERIAL_BUFFER_SIZE :=
  reads.foldl (fun buf bytes => buf.write 0 (bytes.take SERIAL_BUFFER_SIZE)) fun _ => 0

/-- The buffer has a first byte. -/
instance : NeZero SERIAL_BUFFER_SIZE := ⟨by decide⟩

/-- The string in the buffer is empty when its first byte is NUL. -/
theorem cstr_ofFn_ne_nil (buf : Buf SERIAL_BUFFER_SIZE) :
    cstr (List.ofFn buf) ≠ [] ↔ buf 0 ≠ 0 := by
  have hfirst : List.ofFn buf = buf 0 :: (List.ofFn buf).tail := rfl
  rw [hfirst, cstr_cons]
  by_cases h : buf 0 = 0
  · simp [h]
  · simp [h]

/-- A buffer is handled inside exactly when it holds a string, not empty and with
its NUL. -/
theorem handled_inside_iff (buf : Buf SERIAL_BUFFER_SIZE) :
    HandledInside buf ↔ buf 0 ≠ 0 ∧ ∃ i, buf i = 0 := by
  have hlen : (List.ofFn buf).length = SERIAL_BUFFER_SIZE := List.length_ofFn
  rw [← List.mem_ofFn, HandledInside, commadCheckIn, ← cstr_ofFn_ne_nil]
  by_cases hnul : 0 ∈ List.ofFn buf
  · rw [compareIn_of_nul hnul hlen.le]
    constructor
    · intro ⟨found, sizes, heq, hpos⟩
      obtain ⟨-, rfl⟩ := Prod.mk.inj (Option.some.inj heq)
      refine ⟨fun hnil => ?_, hnul⟩
      exact absurd (hpos (cstr (List.ofFn buf)).length (by simp)) (by simp [hnil])
    · intro ⟨hne, _⟩
      refine ⟨_, _, rfl, fun n hn => ?_⟩
      simp only [List.mem_cons, List.not_mem_nil, or_false] at hn
      rcases hn with rfl | rfl | rfl
      · decide
      · exact List.length_pos_iff.mpr hne
      · decide
  · rw [compareIn_of_no_nul hnul hlen]
    constructor
    · intro ⟨_, _, heq, _⟩
      cases heq
    · intro ⟨_, hmem⟩
      exact absurd hmem hnul

/-- Every command is read past the end of the buffer. -/
theorem not_inside_of_command (c : Command) (buf : Buf SERIAL_BUFFER_SIZE)
    (h : List.ofFn buf = c.text) : ¬HandledInside buf := by
  have hnul : 0 ∉ List.ofFn buf := h ▸ nul_notMem_text c
  intro ⟨_, _, heq, _⟩
  rw [commadCheckIn, compareIn_of_no_nul hnul List.length_ofFn] at heq
  cases heq

/-- The first read delivers `cmdstr`. -/
theorem command_reads_past : ¬∀ reads : List (List UInt8), HandledInside (leftBy reads) := by
  intro h
  obtain ⟨found, sizes, heq, -⟩ := h [SER_START]
  have hnone : commadCheckIn (List.ofFn (leftBy [SER_START])) = none := by decide
  rw [hnone] at heq
  cases heq

end MotionTracking
