import MotionTracking.Firmware.Command

/-!
# `MotionTracking.Firmware.Rounds`: the serial loop, one iteration at a time

A `Round` is what one iteration of `serialcomm_thread`'s loop takes in and what
it does about it: the bytes that its `serial_read` delivers, the string that
`commad_check` gets, whether reporting is enabled when the iteration comes to its
output section, and whether it prints a report. `progress` reads the rounds off
the thread's log. A round is over when the output section unlocks the mutex.

`Follows` says how a round depends on the earlier ones: through `strbuf`, which
keeps what earlier reads left behind the delivered bytes (`bufferAfter`), through
`rd_count` (`countAfter`), and through the start and stop commands (`switchedBy`).
`Proofs.Rounds` shows that the rounds of every run of the firmware are like this.
What is here is about lists of rounds only.
-/

set_option autoImplicit false

namespace MotionTracking

variable {F : Type}

/-! ### The rounds of a log -/

/-- One iteration of the loop. -/
structure Round where
  /-- What the iteration's own `serial_read` delivers. -/
  delivered : List UInt8
  /-- The memory from `strbuf` on, when `commad_check` is called. -/
  handled : Option (List UInt8)
  /-- `read_enable` in the output section, by the commands so far. -/
  enabled : Bool
  reported : Bool
  deriving DecidableEq

/-- The command that the iteration acts on. -/
def Round.acted (r : Round) : Option Command := r.handled.bind commandOf

/-- What a command does to `read_enable`. -/
def switchedBy (c : Option Command) (enabled : Bool) : Bool :=
  match c with
  | some .start => true
  | some .stop => false
  | _ => enabled

/-- The finished rounds, newest first, and the latest one, which may be `going` on.
`output` is set from the flush to the end of the output section. -/
structure Progress where
  rounds : List Round
  now : Round
  going : Bool
  output : Bool

/-- Before the first round. -/
def Progress.start : Progress where
  rounds := []
  now := ⟨[], none, true, false⟩
  going := false
  output := false

/-- One entry of the log. -/
def Progress.entry (p : Progress) : Obs F → Progress
  | .began .serialRead => { p with now := ⟨[], none, p.now.enabled, false⟩, going := true }
  | .received bytes => { p with now := { p.now with delivered := p.now.delivered ++ bytes } }
  | .began (.commadCheck str) => { p with now := { p.now with
      handled := some str, enabled := switchedBy (commandOf str) p.now.enabled } }
  | .flushed => { p with output := true }
  | .printed (.axis _ _) => { p with now := { p.now with reported := true } }
  | .unlocked .serialcomm _ =>
      if p.output then { p with rounds := p.now :: p.rounds, going := false, output := false }
      else p
  | _ => p

/-- The rounds of a log. -/
def progress : List (Obs F) → Progress
  | [] => .start
  | ev :: l => (progress l).entry ev

/-- All rounds that have begun, newest first. -/
def Progress.begun (p : Progress) : List Round := if p.going then p.now :: p.rounds else p.rounds

/-! ### How a round depends on the earlier ones -/

/-- `strbuf` after the rounds. -/
def bufferAfter : List Round → Buf SERIAL_BUFFER_SIZE
  | [] => fun _ => 0
  | r :: rs => (bufferAfter rs).write 0 r.delivered

/-- The memory from `strbuf` on after the rounds. -/
def memoryAfter (pastStrbuf : List UInt8) (rs : List Round) : List UInt8 :=
  List.ofFn (bufferAfter rs) ++ pastStrbuf

/-- The count, when the round leaves its output section. -/
def countOut (r : Round) (count : Int) : Int := if r.reported then 0 else count

/-- `rd_count` after the rounds. -/
def countAfter : List Round → Int
  | [] => 0
  | r :: rs => wrap32 (countOut r (countAfter rs) + 1)

/-- Whether reporting is enabled after the rounds. -/
def enabledAfter : List Round → Bool
  | [] => true
  | r :: _ => r.enabled

/-- The input of the round `r` after the rounds `rs`, also before it is over. -/
structure TakesIn (pastStrbuf : List UInt8) (r : Round) (rs : List Round) : Prop where
  length : r.delivered.length ≤ SERIAL_BUFFER_SIZE
  handled : ∀ mem, r.handled = some mem →
    r.delivered ≠ [] ∧ mem = memoryAfter pastStrbuf (r :: rs)

/-- The round `r` after the rounds `rs`. -/
structure Follows (pastStrbuf : List UInt8) (r : Round) (rs : List Round) : Prop where
  length : r.delivered.length ≤ SERIAL_BUFFER_SIZE
  handled : r.handled =
    if r.delivered = [] then none else some (memoryAfter pastStrbuf (r :: rs))
  enabled : r.enabled = switchedBy r.acted (enabledAfter rs)
  reported : r.reported = (r.enabled && decide (countAfter rs > SERIAL_COUNTER_LIMIT))

/-- Every round follows those before it. -/
def Chained (pastStrbuf : List UInt8) : List Round → Prop
  | [] => True
  | r :: rs => Follows pastStrbuf r rs ∧ Chained pastStrbuf rs

variable {pastStrbuf : List UInt8} {r : Round} {rs : List Round}

/-- The earlier rounds of a chain are a chain. -/
theorem Chained.of_append {later : List Round} (h : Chained pastStrbuf (later ++ rs)) :
    Chained pastStrbuf rs := by
  induction later with
  | nil => exact h
  | cons _ later ih => exact ih h.2

/-- A round that follows takes in what its read delivered. -/
theorem Follows.takesIn (h : Follows pastStrbuf r rs) : TakesIn pastStrbuf r rs := by
  refine ⟨h.length, ?_⟩
  intro mem hmem
  rw [h.handled] at hmem
  by_cases hempty : r.delivered = []
  · rw [if_pos hempty] at hmem
    cases hmem
  · rw [if_neg hempty] at hmem
    exact ⟨hempty, (Option.some.inj hmem).symm⟩

/-- A round somewhere in a chain. -/
theorem Chained.follows {later : List Round} (h : Chained pastStrbuf (later ++ r :: rs)) :
    Follows pastStrbuf r rs :=
  h.of_append.1

/-! ### The buffer -/

/-- Two writes, one behind the other, are one. -/
theorem Buf.write_append {n : Nat} (b : Buf n) (bs bs' : List UInt8) :
    (b.write 0 bs).write bs.length bs' = b.write 0 (bs ++ bs') := by
  funext i
  show (if bs.length ≤ i.val then bs'[i.val - bs.length]?.getD (bs[i.val - 0]?.getD (b i))
    else bs[i.val - 0]?.getD (b i)) = (bs ++ bs')[i.val - 0]?.getD (b i)
  rw [Nat.sub_zero, List.getElem?_append]
  by_cases hi : bs.length ≤ i.val
  · have hnone : bs[i.val]? = none := List.getElem?_eq_none hi
    rw [if_pos hi, if_neg (by omega), hnone]
    rfl
  · rw [if_neg hi, if_pos (by omega)]

/-- A write of at most the whole buffer is a prefix of it. -/
theorem Buf.ofFn_write {n : Nat} (b : Buf n) {bs : List UInt8} (h : bs.length ≤ n) :
    List.ofFn (b.write 0 bs) = bs ++ (List.ofFn b).drop bs.length := by
  refine List.ext_getElem ?_ fun i hi hi' => ?_
  · simp only [List.length_ofFn, List.length_append, List.length_drop]
    omega
  · rw [List.length_ofFn] at hi
    rw [List.getElem_ofFn, List.getElem_append]
    show (if 0 ≤ i then bs[i - 0]?.getD (b ⟨i, hi⟩) else b ⟨i, hi⟩) = _
    rw [if_pos (Nat.zero_le i), Nat.sub_zero]
    by_cases hlt : i < bs.length
    · rw [dif_pos hlt, List.getElem?_eq_getElem hlt]
      rfl
    · have hnone : bs[i]? = none := List.getElem?_eq_none (by omega)
      rw [dif_neg hlt, hnone, List.getElem_drop, List.getElem_ofFn]
      have hindex : i = bs.length + (i - bs.length) := by omega
      show b ⟨i, hi⟩ = b ⟨bs.length + (i - bs.length), _⟩
      exact congrArg b (Fin.ext hindex)

/-- The memory after a round: the delivered bytes, and behind them what was
there before. -/
theorem memoryAfter_cons (h : r.delivered.length ≤ SERIAL_BUFFER_SIZE) :
    memoryAfter pastStrbuf (r :: rs) =
      r.delivered ++ (memoryAfter pastStrbuf rs).drop r.delivered.length := by
  have hlen : (List.ofFn (bufferAfter rs)).length = SERIAL_BUFFER_SIZE := List.length_ofFn
  rw [memoryAfter, bufferAfter, Buf.ofFn_write _ h, memoryAfter, List.append_assoc,
    List.drop_append_of_le_length (by omega)]

end MotionTracking
