import Mathlib.Logic.Function.Basic
import Mathlib.Data.Nat.ModEq

/-!
# `MotionTracking.ChibiOS.InputQueue`: the input queues of the HAL

The input queues of `os/hal/src/hal_queues.c`: a buffer of `N` elements, a read
and a write pointer that wrap at its end, and a counter of the elements inside.
The pointers are offsets from `q_buffer`, and the memory behind the buffer is
part of the model, since nothing but their own assignments keeps the pointers
inside.

`Wf` ties the three together: the write pointer stands `counter` elements after
the read pointer, modulo `N`. The elements from the read pointer on are then
`contents`, and the operations are those of a bounded list (`contents_iqPutI`,
`iqRead_eq`, `contents_iqResetI`).

`iqResetI` is an I-class function, to be called under the kernel lock.
`resetUnlocked` is what it does without: interrupts put elements between its
three assignments. `resetUnlocked_wf_iff` says when that is harmless. The proof
follows the distance of the pointers through the four stretches (`Skewed`).
-/

set_option autoImplicit false

namespace ChibiOS

variable {N : Nat} {β : Type}

/-- An input queue over a buffer of `N` elements. -/
@[ext]
structure InputQueue (N : Nat) (β : Type) where
  /-- The memory from `q_buffer` on. -/
  buffer : Nat → β
  rdptr : Nat
  wrptr : Nat
  counter : Nat

namespace InputQueue

/-! ### The operations -/

/-- An empty queue over the given memory. -/
def iqObjectInit (mem : Nat → β) : InputQueue N β where
  buffer := mem
  rdptr := 0
  wrptr := 0
  counter := 0

/-- The pointers meet and there are elements: the queue is full. -/
def iqIsFullI (q : InputQueue N β) : Bool := q.wrptr = q.rdptr ∧ q.counter ≠ 0

/-- `iqPutI`, which drops the element when the queue is full. -/
def iqPutI (b : β) (q : InputQueue N β) : InputQueue N β :=
  if q.iqIsFullI then q
  else
    { q with
      counter := q.counter + 1
      buffer := Function.update q.buffer q.wrptr b
      wrptr := if q.wrptr + 1 ≥ N then 0 else q.wrptr + 1 }

/-- `memcpy` of `n` elements from offset `off`. -/
def copy (q : InputQueue N β) (off n : Nat) : List β :=
  (List.range n).map fun i => q.buffer (off + i)

/-- `iq_read`: the elements it copies, and the queue it leaves. -/
def iqRead (n : Nat) (q : InputQueue N β) : List β × InputQueue N β :=
  let n := if n > q.counter then q.counter else n
  let s1 := N - q.rdptr
  if n < s1 then
    (q.copy q.rdptr n, { q with rdptr := q.rdptr + n, counter := q.counter - n })
  else if n > s1 then
    let s2 := n - s1
    (q.copy q.rdptr s1 ++ q.copy 0 s2, { q with rdptr := s2, counter := q.counter - n })
  else
    (q.copy q.rdptr n, { q with rdptr := 0, counter := q.counter - n })

/-- The counter alone tells an empty queue. -/
def iqIsEmptyI (q : InputQueue N β) : Bool := q.counter = 0

/-- `iqGetI`: the element, none when the queue is empty, and the queue it leaves. -/
def iqGetI (q : InputQueue N β) : Option β × InputQueue N β :=
  if q.iqIsEmptyI then (none, q)
  else
    (some (q.buffer q.rdptr),
      { q with
        counter := q.counter - 1
        rdptr := if q.rdptr + 1 ≥ N then 0 else q.rdptr + 1 })

/-- `n` times `iqGetI`. -/
def gets : Nat → InputQueue N β → List β × InputQueue N β
  | 0, q => ([], q)
  | n + 1, q =>
      match q.iqGetI with
      | (none, q) => ([], q)
      | (some b, q) => (b :: (gets n q).1, (gets n q).2)

/-- The three assignments of `iqResetI`. -/
def resetRdptr (q : InputQueue N β) : InputQueue N β := { q with rdptr := 0 }

@[inherit_doc resetRdptr]
def resetWrptr (q : InputQueue N β) : InputQueue N β := { q with wrptr := 0 }

@[inherit_doc resetRdptr]
def resetCounter (q : InputQueue N β) : InputQueue N β := { q with counter := 0 }

/-- `iqResetI` under the kernel lock. -/
def iqResetI (q : InputQueue N β) : InputQueue N β := q.resetRdptr.resetWrptr.resetCounter

/-- Interrupts that put `bs`, one element each. -/
def puts (bs : List β) (q : InputQueue N β) : InputQueue N β :=
  bs.foldl (fun q b => q.iqPutI b) q

/-- `iqResetI` without the lock. The interrupts put `is₀` before the first
assignment, `is₁` and `is₂` in the two gaps, and `is₃` after the last. -/
def resetUnlocked (is₀ is₁ is₂ is₃ : List β) (q : InputQueue N β) : InputQueue N β :=
  ((((q.puts is₀).resetRdptr.puts is₁).resetWrptr.puts is₂).resetCounter).puts is₃

/-! ### Well-formed queues -/

/-- The pointers are in the buffer, and the write pointer is `k + counter`
elements after the read pointer. -/
structure Skewed (k : Nat) (q : InputQueue N β) : Prop where
  rdptr : q.rdptr < N
  wrptr : q.wrptr < N
  distance : q.wrptr = (q.rdptr + k + q.counter) % N

/-- The distance from the read to the write pointer is the counter. -/
structure Wf (q : InputQueue N β) : Prop where
  skewed : q.Skewed 0
  counter : q.counter ≤ N

/-- The elements in the queue, oldest first. -/
def contents (q : InputQueue N β) : List β :=
  (List.range q.counter).map fun i => q.buffer ((q.rdptr + i) % N)

variable {q : InputQueue N β}

/-- As many elements as the counter says. -/
@[simp] theorem length_contents : q.contents.length = q.counter := by
  simp [contents]

/-- The queue holds nothing exactly when its counter is 0. -/
theorem contents_eq_nil_iff : q.contents = [] ↔ q.counter = 0 := by
  rw [← List.length_eq_zero_iff, length_contents]

/-- A new queue is well formed. -/
theorem iqObjectInit_wf (hN : 0 < N) (mem : Nat → β) :
    (iqObjectInit mem : InputQueue N β).Wf :=
  ⟨⟨hN, hN, (Nat.zero_mod N).symm⟩, Nat.zero_le N⟩

/-- A pointer that wraps at the end of the buffer is a sum modulo its size. -/
theorem succ_wrap {i : Nat} (hi : i < N) : (if i + 1 ≥ N then 0 else i + 1) = (i + 1) % N := by
  split
  · have hN : i + 1 = N := by omega
    rw [hN, Nat.mod_self]
  · exact (Nat.mod_eq_of_lt (by omega)).symm

/-- In a well-formed queue the test for fullness compares the counter with the size. -/
theorem Wf.iqIsFullI (h : q.Wf) : q.iqIsFullI = true ↔ q.counter = N := by
  obtain ⟨⟨hrd, -, hdist⟩, hcount⟩ := h
  rw [Nat.add_zero] at hdist
  simp only [InputQueue.iqIsFullI, decide_eq_true_eq]
  constructor
  · intro ⟨hptr, hne⟩
    by_contra hlt
    -- With fewer than `N` elements the pointers differ.
    rw [hdist] at hptr
    by_cases hwrap : q.rdptr + q.counter < N
    · rw [Nat.mod_eq_of_lt hwrap] at hptr
      omega
    · rw [Nat.mod_eq_sub_mod (by omega), Nat.mod_eq_of_lt (by omega)] at hptr
      omega
  · intro hfull
    refine ⟨?_, by omega⟩
    rw [hdist, hfull, Nat.add_mod_right, Nat.mod_eq_of_lt hrd]

/-! ### `iqPutI` -/

/-- A full queue drops the element. -/
theorem iqPutI_of_full (h : q.iqIsFullI = true) (b : β) : q.iqPutI b = q := by
  rw [iqPutI, if_pos h]

/-- An interrupt keeps the skew, whether it stores its element or drops it. -/
theorem Skewed.iqPutI {k : Nat} (h : q.Skewed k) (b : β) : (q.iqPutI b).Skewed k := by
  unfold InputQueue.iqPutI
  split
  · exact h
  · have hw := h.wrptr
    refine ⟨h.rdptr, ?_, ?_⟩
    · show (if q.wrptr + 1 ≥ N then 0 else q.wrptr + 1) < N
      split <;> omega
    · show (if q.wrptr + 1 ≥ N then 0 else q.wrptr + 1) = (q.rdptr + k + (q.counter + 1)) % N
      rw [succ_wrap hw, h.distance, Nat.mod_add_mod, Nat.add_assoc]

/-- Putting an element in keeps the pointers a counter apart, also around the end of the
buffer. -/
theorem Wf.iqPutI (h : q.Wf) (b : β) : (q.iqPutI b).Wf := by
  refine ⟨h.skewed.iqPutI b, ?_⟩
  by_cases hfull : q.iqIsFullI = true
  · rw [iqPutI_of_full hfull]
    exact h.counter
  · have hne : q.counter ≠ N := fun hc => hfull (h.iqIsFullI.mpr hc)
    have hle := h.counter
    rw [InputQueue.iqPutI, if_neg hfull]
    show q.counter + 1 ≤ N
    omega

/-- The element goes behind the others, or is dropped when there is no place. -/
theorem contents_iqPutI (h : q.Wf) (b : β) :
    (q.iqPutI b).contents = if q.counter < N then q.contents ++ [b] else q.contents := by
  have hle := h.counter
  by_cases hfull : q.iqIsFullI = true
  · have hN := h.iqIsFullI.mp hfull
    rw [iqPutI_of_full hfull, if_neg (by omega)]
  · have hlt : q.counter < N := by
      have hne : q.counter ≠ N := fun hc => hfull (h.iqIsFullI.mpr hc)
      omega
    have hdist := h.skewed.distance
    rw [Nat.add_zero] at hdist
    rw [if_pos hlt, iqPutI, if_neg hfull]
    simp only [contents, List.range_succ, List.map_append, List.map_cons, List.map_nil]
    rw [← hdist, Function.update_self]
    congr 1
    refine List.map_congr_left fun i hi => Function.update_of_ne ?_ _ _
    -- The older elements are in other places of the buffer.
    have hi' := List.mem_range.mp hi
    have hrd := h.skewed.rdptr
    rw [hdist]
    intro heq
    have hmod : i ≡ q.counter [MOD N] := Nat.ModEq.add_left_cancel' q.rdptr heq
    unfold Nat.ModEq at hmod
    rw [Nat.mod_eq_of_lt (by omega), Nat.mod_eq_of_lt hlt] at hmod
    omega

/-! ### Several interrupts -/

/-- Nothing to put in. -/
@[simp] theorem puts_nil (q : InputQueue N β) : q.puts [] = q := rfl

/-- The first element goes in first. -/
theorem puts_cons (b : β) (bs : List β) (q : InputQueue N β) :
    q.puts (b :: bs) = (q.iqPutI b).puts bs := rfl

/-- No number of interrupts repairs a queue whose pointers are skewed. -/
theorem Skewed.puts {k : Nat} (h : q.Skewed k) (bs : List β) : (q.puts bs).Skewed k := by
  induction bs generalizing q with
  | nil => exact h
  | cons b bs ih => exact ih (h.iqPutI b)

/-- A burst of interrupts keeps the queue well formed. -/
theorem Wf.puts (h : q.Wf) (bs : List β) : (q.puts bs).Wf := by
  induction bs generalizing q with
  | nil => exact h
  | cons b bs ih => exact ih (h.iqPutI b)

/-- The receive interrupt does not move the read pointer. -/
theorem rdptr_puts (q : InputQueue N β) (bs : List β) : (q.puts bs).rdptr = q.rdptr := by
  induction bs generalizing q with
  | nil => rfl
  | cons b bs ih =>
      rw [puts_cons, ih]
      unfold InputQueue.iqPutI
      split <;> rfl

/-- The queue takes what fits, in order of arrival. -/
theorem contents_puts (h : q.Wf) (bs : List β) :
    (q.puts bs).contents = (q.contents ++ bs).take N := by
  induction bs generalizing q with
  | nil =>
      have hle : q.contents.length ≤ N := by
        rw [length_contents]
        exact h.counter
      rw [puts_nil, List.append_nil, List.take_of_length_le hle]
  | cons b bs ih =>
      rw [puts_cons, ih (h.iqPutI b), contents_iqPutI h]
      split
      · rw [List.append_assoc, List.singleton_append]
      · have hlen : q.contents.length = N := by
          have hle := h.counter
          rw [length_contents]
          omega
        rw [List.take_left' hlen, List.take_left' hlen]

/-- The counter goes up to the size of the queue and stays there. -/
theorem counter_puts (h : q.Wf) (bs : List β) :
    (q.puts bs).counter = min N (q.counter + bs.length) := by
  rw [← length_contents, contents_puts h, List.length_take, List.length_append, length_contents]

/-- Interrupts do not empty a queue, whatever its pointers are. -/
theorem counter_puts_eq_zero (q : InputQueue N β) (bs : List β) :
    (q.puts bs).counter = 0 ↔ q.counter = 0 ∧ bs = [] := by
  induction bs generalizing q with
  | nil => simp
  | cons b bs ih =>
      rw [puts_cons, ih]
      by_cases hfull : q.iqIsFullI = true
      · have hne : q.counter ≠ 0 := (of_decide_eq_true hfull).2
        simp [iqPutI_of_full hfull, hne]
      · simp [iqPutI, hfull]

/-- A full queue drops a whole burst. -/
theorem puts_of_full (h : q.iqIsFullI = true) (bs : List β) : q.puts bs = q := by
  induction bs with
  | nil => rfl
  | cons b bs ih => rw [puts_cons, iqPutI_of_full h, ih]

/-! ### `iq_read` -/

/-- Up to the end of the buffer, a block copy reads the oldest elements. -/
theorem copy_eq_take {n : Nat} (hn : n ≤ q.counter) (hfit : q.rdptr + n ≤ N) :
    q.copy q.rdptr n = q.contents.take n := by
  rw [copy, contents, ← List.map_take, List.take_range, Nat.min_eq_left hn]
  refine List.map_congr_left fun i hi => ?_
  have hi' := List.mem_range.mp hi
  rw [Nat.mod_eq_of_lt (by omega)]

/-- A read in two parts, up to the end of the buffer and from its start. -/
theorem copy_append_eq_take (h : q.Wf) {n : Nat} (hn : n ≤ q.counter) (hwrap : N - q.rdptr < n) :
    q.copy q.rdptr (N - q.rdptr) ++ q.copy 0 (n - (N - q.rdptr)) = q.contents.take n := by
  have hrd := h.skewed.rdptr
  have hcount := h.counter
  rw [copy_eq_take (by omega) (by omega)]
  have hrest : q.copy 0 (n - (N - q.rdptr)) = (q.contents.drop (N - q.rdptr)).take
      (n - (N - q.rdptr)) := by
    refine List.ext_getElem ?_ fun i hi hi' => ?_
    · simp [copy]
      omega
    · simp only [copy, List.length_map, List.length_range] at hi
      simp only [copy, contents, List.getElem_map, List.getElem_range, List.getElem_take,
        List.getElem_drop]
      congr 1
      rw [show q.rdptr + (N - q.rdptr + i) = N + i by omega, Nat.add_mod_left,
        Nat.mod_eq_of_lt (by omega), Nat.zero_add]
  rw [hrest, ← List.take_add, Nat.add_sub_cancel' (by omega)]

/-- What is left once `n` elements are off the front: the read pointer has moved by `n`.
-/
theorem drop_contents (n : Nat) : q.contents.drop n =
    (List.range (q.counter - n)).map fun i => q.buffer ((q.rdptr + n + i) % N) := by
  refine List.ext_getElem (by simp) fun i hi hi' => ?_
  simp only [contents, List.getElem_drop, List.getElem_map, List.getElem_range]
  rw [Nat.add_assoc]

/-- The queue after a read of `n` elements. -/
theorem Wf.advance (h : q.Wf) {n rd : Nat} (hn : n ≤ q.counter) (hrd : rd = (q.rdptr + n) % N) :
    ({ q with rdptr := rd, counter := q.counter - n } : InputQueue N β).Wf ∧
      ({ q with rdptr := rd, counter := q.counter - n } : InputQueue N β).contents =
        q.contents.drop n := by
  have hpos : 0 < N := by
    have hw := h.skewed.wrptr
    omega
  have hcount := h.counter
  refine ⟨⟨⟨?_, h.skewed.wrptr, ?_⟩, ?_⟩, ?_⟩
  · rw [hrd]
    exact Nat.mod_lt _ hpos
  · show q.wrptr = (rd + 0 + (q.counter - n)) % N
    rw [h.skewed.distance, hrd, Nat.add_zero, Nat.add_zero, Nat.mod_add_mod,
      show q.rdptr + n + (q.counter - n) = q.rdptr + q.counter by omega]
  · show q.counter - n ≤ N
    omega
  · rw [drop_contents]
    refine List.map_congr_left fun i _ => ?_
    show q.buffer ((rd + i) % N) = _
    rw [hrd, Nat.mod_add_mod]

/-- `iq_read` takes the oldest `n` elements, or all. -/
theorem iqRead_eq (h : q.Wf) (n : Nat) :
    (q.iqRead n).1 = q.contents.take n ∧ (q.iqRead n).2.Wf ∧
      (q.iqRead n).2.contents = q.contents.drop n := by
  have hrd := h.skewed.rdptr
  have hcount := h.counter
  -- `k` is what is read: `n`, or all there is.
  obtain ⟨k, hk, htake, hdrop, hkn⟩ : ∃ k, k ≤ q.counter ∧ q.contents.take n = q.contents.take k ∧
      q.contents.drop n = q.contents.drop k ∧ (if n > q.counter then q.counter else n) = k := by
    by_cases hn : n > q.counter
    · have hlen : q.contents.length ≤ n := by
        rw [length_contents]
        omega
      refine ⟨q.counter, le_rfl, ?_, ?_, if_pos hn⟩
      · rw [List.take_of_length_le hlen, List.take_of_length_le length_contents.le]
      · rw [List.drop_eq_nil_of_le hlen, List.drop_eq_nil_of_le length_contents.le]
    · exact ⟨n, by omega, rfl, rfl, if_neg hn⟩
  rw [htake, hdrop, iqRead, hkn]
  by_cases hlt : k < N - q.rdptr
  · rw [if_pos hlt]
    have hmod : q.rdptr + k = (q.rdptr + k) % N := by
      rw [Nat.mod_eq_of_lt (by omega)]
    exact ⟨copy_eq_take hk (by omega), h.advance hk hmod⟩
  rw [if_neg hlt]
  by_cases hgt : k > N - q.rdptr
  · rw [if_pos hgt]
    have hmod : k - (N - q.rdptr) = (q.rdptr + k) % N := by
      rw [Nat.mod_eq_sub_mod (by omega), Nat.mod_eq_of_lt (by omega)]
      omega
    exact ⟨copy_append_eq_take h hk hgt, h.advance hk hmod⟩
  · rw [if_neg hgt]
    have hmod : 0 = (q.rdptr + k) % N := by
      rw [show q.rdptr + k = N by omega, Nat.mod_self]
    exact ⟨copy_eq_take hk (by omega), h.advance hk hmod⟩

/-! ### `iqGetI` -/

/-- One element is taken off the front, and the read pointer goes around at the end. -/
theorem iqGetI_of_pos (h : q.Wf) (hpos : 0 < q.counter) :
    q.iqGetI = (q.contents.head?,
      { q with rdptr := (q.rdptr + 1) % N, counter := q.counter - 1 }) := by
  have hne : ¬q.iqIsEmptyI = true := fun he => hpos.ne' (of_decide_eq_true he)
  have hhead : q.contents.head? = some (q.buffer q.rdptr) := by
    obtain ⟨k, hk⟩ := Nat.exists_eq_add_one_of_ne_zero hpos.ne'
    rw [contents, hk, List.range_succ_eq_map, List.map_cons, List.head?_cons, Nat.add_zero,
      Nat.mod_eq_of_lt h.skewed.rdptr]
  rw [iqGetI, if_neg hne, hhead, succ_wrap h.skewed.rdptr]

/-- Getting one by one moves the read pointer as far as one read does. -/
theorem gets_eq (h : q.Wf) {n : Nat} (hn : n ≤ q.counter) :
    q.gets n = (q.contents.take n,
      { q with rdptr := (q.rdptr + n) % N, counter := q.counter - n }) := by
  induction n generalizing q with
  | zero =>
      rw [Nat.add_zero, Nat.mod_eq_of_lt h.skewed.rdptr]
      rfl
  | succ n ih =>
      have hstep := iqGetI_of_pos h (by omega)
      obtain ⟨hwf, hrest⟩ := h.advance (n := 1) (by omega) rfl
      obtain ⟨b, bs, hcontents⟩ : ∃ b bs, q.contents = b :: bs := by
        cases hc : q.contents with
        | nil =>
            have hzero := contents_eq_nil_iff.mp hc
            omega
        | cons b bs => exact ⟨b, bs, rfl⟩
      rw [hcontents, List.drop_one, List.tail_cons] at hrest
      have hind := ih hwf (show n ≤ q.counter - 1 by omega)
      rw [hrest] at hind
      rw [hcontents, List.head?_cons] at hstep
      rw [gets, hstep]
      show (b :: (gets n _).1, (gets n _).2) = _
      rw [hind, hcontents, List.take_succ_cons]
      simp only [Nat.mod_add_mod]
      rw [Nat.add_assoc, Nat.add_comm 1 n, Nat.sub_sub, Nat.add_comm 1 n]

/-- The bulk read of `iq_read` is getting the elements one by one. -/
theorem iqRead_eq_gets (h : q.Wf) (n : Nat) : q.iqRead n = q.gets (min n q.counter) := by
  have hrd := h.skewed.rdptr
  have hcount := h.counter
  rw [gets_eq h (Nat.min_le_right n _), iqRead]
  have hmin : (if n > q.counter then q.counter else n) = min n q.counter := by
    split <;> omega
  rw [hmin]
  generalize hk : min n q.counter = k
  have hkc : k ≤ q.counter := by omega
  by_cases hlt : k < N - q.rdptr
  · rw [if_pos hlt, copy_eq_take hkc (by omega), Nat.mod_eq_of_lt (by omega)]
  rw [if_neg hlt]
  by_cases hgt : k > N - q.rdptr
  · rw [if_pos hgt, Nat.mod_eq_sub_mod (by omega), Nat.mod_eq_of_lt (by omega),
      ← copy_append_eq_take h hkc hgt, show q.rdptr + k - N = k - (N - q.rdptr) by omega]
  · rw [if_neg hgt, copy_eq_take hkc (by omega), show q.rdptr + k = N by omega, Nat.mod_self]

/-! ### `iqResetI` -/

/-- A flush that is not interrupted leaves a well-formed queue, whatever it was before. -/
theorem iqResetI_wf (hN : 0 < N) (q : InputQueue N β) : q.iqResetI.Wf :=
  ⟨⟨hN, hN, (Nat.zero_mod N).symm⟩, Nat.zero_le N⟩

/-- And an empty one. -/
theorem contents_iqResetI (q : InputQueue N β) : q.iqResetI.contents = [] :=
  contents_eq_nil_iff.mpr rfl

/-- A skew of less than the whole buffer is no well-formed queue. -/
theorem Skewed.not_wf {k : Nat} (h : q.Skewed k) (hk : 0 < k) (hkN : k < N) : ¬q.Wf := by
  intro hwf
  have hdist : q.rdptr + q.counter + k ≡ q.rdptr + q.counter [MOD N] := by
    have h₀ := hwf.skewed.distance
    rw [h.distance, Nat.add_zero, Nat.add_right_comm] at h₀
    exact h₀
  have hmod : k ≡ 0 [MOD N] := Nat.ModEq.add_left_cancel' (q.rdptr + q.counter) hdist
  unfold Nat.ModEq at hmod
  rw [Nat.mod_eq_of_lt hkN, Nat.zero_mod] at hmod
  omega

/-- The write pointer at the end of the second gap. The pointers were together at
its start, so a queue with elements is full and takes nothing. -/
theorem wrptr_gap (hN : 0 < N) (hrd : q.rdptr = 0) (bs : List β) :
    (q.resetWrptr.puts bs).wrptr = if q.counter = 0 then min N bs.length % N else 0 := by
  split
  · rename_i hzero
    have hempty : q.resetWrptr.Wf := by
      refine ⟨⟨?_, hN, ?_⟩, ?_⟩
      · show q.rdptr < N
        omega
      · show 0 = (q.rdptr + 0 + q.counter) % N
        rw [hrd, hzero, Nat.zero_mod]
      · show q.counter ≤ N
        omega
    rw [(hempty.puts bs).skewed.distance, rdptr_puts, counter_puts hempty]
    show (q.rdptr + 0 + min N (q.counter + bs.length)) % N = _
    rw [hrd, hzero, Nat.zero_add, Nat.zero_add]
  · rename_i hne
    have hfull : q.resetWrptr.iqIsFullI = true := decide_eq_true ⟨hrd.symm, hne⟩
    rw [puts_of_full hfull]
    rfl

/-- The elements that came in the second gap and are lost from the counter, but
not from the write pointer. -/
def lost (is₀ is₁ is₂ : List β) (q : InputQueue N β) : Nat :=
  if q.counter = 0 ∧ is₀ = [] ∧ is₁ = [] then min N is₂.length % N else 0

/-- The queue after the third assignment. -/
theorem reset_skewed (hN : 0 < N) (is₀ is₁ is₂ : List β) (q : InputQueue N β) :
    ((((q.puts is₀).resetRdptr.puts is₁).resetWrptr.puts is₂).resetCounter).Skewed
      (q.lost is₀ is₁ is₂) := by
  have hrd : ((q.puts is₀).resetRdptr.puts is₁).rdptr = 0 := rdptr_puts _ is₁
  have hcounter : ((q.puts is₀).resetRdptr.puts is₁).counter = 0 ↔
      q.counter = 0 ∧ is₀ = [] ∧ is₁ = [] := by
    rw [counter_puts_eq_zero]
    show (q.puts is₀).counter = 0 ∧ is₁ = [] ↔ _
    rw [counter_puts_eq_zero, and_assoc]
  have hwr := wrptr_gap hN hrd is₂
  simp only [hcounter] at hwr
  refine ⟨?_, ?_, ?_⟩
  · show (puts is₂ _).rdptr < N
    rw [rdptr_puts]
    exact hrd.trans_lt hN
  · show (puts is₂ _).wrptr < N
    rw [hwr]
    split
    · exact Nat.mod_lt _ hN
    · exact hN
  · show (puts is₂ _).wrptr = ((puts is₂ _).rdptr + _ + 0) % N
    rw [hwr, rdptr_puts]
    show _ = (((q.puts is₀).resetRdptr.puts is₁).rdptr + lost is₀ is₁ is₂ q + 0) % N
    rw [hrd, Nat.zero_add, Nat.add_zero, lost]
    split
    · rw [Nat.mod_mod]
    · rw [Nat.zero_mod]

/-- Bytes are lost unless the queue was empty, none came in the first two gaps, and those
of the last gap fit. -/
theorem lost_eq_zero_iff (is₀ is₁ is₂ : List β) (q : InputQueue N β) :
    q.lost is₀ is₁ is₂ = 0 ↔
      ¬(q.counter = 0 ∧ is₀ = [] ∧ is₁ = [] ∧ is₂ ≠ [] ∧ is₂.length < N) := by
  unfold lost
  by_cases hempty : q.counter = 0 ∧ is₀ = [] ∧ is₁ = []
  · rw [if_pos hempty]
    by_cases hlt : is₂.length < N
    · rw [Nat.min_eq_right hlt.le, Nat.mod_eq_of_lt hlt, List.length_eq_zero_iff]
      constructor
      · intro h₂ h
        exact h.2.2.2.1 h₂
      · intro h
        by_contra h₂
        exact h ⟨hempty.1, hempty.2.1, hempty.2.2, h₂, hlt⟩
    · rw [Nat.min_eq_left (by omega), Nat.mod_self]
      exact iff_of_true rfl fun h => hlt h.2.2.2.2
  · rw [if_neg hempty]
    exact iff_of_true rfl fun h => hempty ⟨h.1, h.2.1, h.2.2.1⟩

/-- Without the lock, `iqResetI` leaves a well-formed queue unless some, but fewer
than `N`, elements came in the second gap to an empty queue. -/
theorem resetUnlocked_wf_iff (hN : 0 < N) (is₀ is₁ is₂ is₃ : List β) (q : InputQueue N β) :
    (q.resetUnlocked is₀ is₁ is₂ is₃).Wf ↔
      ¬(q.counter = 0 ∧ is₀ = [] ∧ is₁ = [] ∧ is₂ ≠ [] ∧ is₂.length < N) := by
  have hskew := reset_skewed hN is₀ is₁ is₂ q
  rw [← lost_eq_zero_iff]
  constructor
  · intro hwf
    by_contra hlost
    have hlt : q.lost is₀ is₁ is₂ < N := by
      unfold lost
      split
      · exact Nat.mod_lt _ hN
      · exact hN
    exact (hskew.puts is₃).not_wf (Nat.pos_of_ne_zero hlost) hlt hwf
  · intro hlost
    rw [hlost] at hskew
    exact Wf.puts ⟨hskew, Nat.zero_le N⟩ is₃

/-- What a well-formed queue holds after `iqResetI`: what came since the counter
was set, as far as it fits. -/
theorem contents_resetUnlocked (hN : 0 < N) {is₀ is₁ is₂ is₃ : List β} {q : InputQueue N β}
    (h : ¬(q.counter = 0 ∧ is₀ = [] ∧ is₁ = [] ∧ is₂ ≠ [] ∧ is₂.length < N)) :
    (q.resetUnlocked is₀ is₁ is₂ is₃).contents = is₃.take N := by
  have hskew := reset_skewed hN is₀ is₁ is₂ q
  rw [(lost_eq_zero_iff is₀ is₁ is₂ q).mpr h] at hskew
  have hcontents := contents_puts ⟨hskew, Nat.zero_le N⟩ is₃
  have hnil : ((((q.puts is₀).resetRdptr.puts is₁).resetWrptr.puts is₂).resetCounter).contents =
      [] := contents_eq_nil_iff.mpr rfl
  rw [hnil, List.nil_append] at hcontents
  exact hcontents

end InputQueue

end ChibiOS
