import MotionTracking.ChibiOS.InputQueue

/-!
# `MotionTracking.ChibiOS.OutputQueue`: the output queues of the HAL

The output queues of `os/hal/src/hal_queues.c`. The buffer and the pointers are
those of an input queue, but the counter counts the free places.

`ring` is the same queue seen as an input queue, with the elements counted. A put
on the one is a put on the other (`ring_put`), and so is a get (`ring_oqGetI`).
What the input queues keep and hold is thereby known of the output queues.

`oq_write` copies in one or two blocks. `oqWrite_eq_puts` says that the queue is
then the same, place by place, as after putting the elements one by one.
-/

set_option autoImplicit false

namespace ChibiOS

variable {N : Nat} {β : Type}

/-- An output queue over a buffer of `N` elements. -/
@[ext]
structure OutputQueue (N : Nat) (β : Type) where
  /-- The memory from `q_buffer` on. -/
  buffer : Nat → β
  rdptr : Nat
  wrptr : Nat
  /-- The free places. -/
  counter : Nat

/-- The memory after a `memcpy` of `bs` to offset `dst`. -/
def memcpy (dst : Nat) (bs : List β) (mem : Nat → β) : Nat → β :=
  fun i => if dst ≤ i then bs.getD (i - dst) (mem i) else mem i

namespace OutputQueue

/-! ### The operations -/

/-- An empty queue over the given memory: all its places are free. -/
def oqObjectInit (mem : Nat → β) : OutputQueue N β where
  buffer := mem
  rdptr := 0
  wrptr := 0
  counter := N

/-- The pointers meet and there is place: the queue is empty. -/
def oqIsEmptyI (q : OutputQueue N β) : Bool := q.wrptr = q.rdptr ∧ q.counter ≠ 0

/-- The counter, which counts the free places, alone tells a full queue. -/
def oqIsFullI (q : OutputQueue N β) : Bool := q.counter = 0

/-- The body of `oqPutI` and `oqPutTimeout`, once there is a free place. -/
def put (b : β) (q : OutputQueue N β) : OutputQueue N β :=
  { q with
    counter := q.counter - 1
    buffer := Function.update q.buffer q.wrptr b
    wrptr := if q.wrptr + 1 ≥ N then 0 else q.wrptr + 1 }

/-- `oqPutI`: whether it returns `MSG_OK`, and the queue it leaves. -/
def oqPutI (b : β) (q : OutputQueue N β) : Bool × OutputQueue N β :=
  if q.oqIsFullI then (false, q) else (true, q.put b)

/-- Putting elements one by one. -/
def puts (bs : List β) (q : OutputQueue N β) : OutputQueue N β :=
  bs.foldl (fun q b => q.put b) q

/-- `oq_write`: the number of elements it takes, and the queue it leaves. -/
def oqWrite (bp : List β) (q : OutputQueue N β) : Nat × OutputQueue N β :=
  let n := if bp.length > q.counter then q.counter else bp.length
  let s1 := N - q.wrptr
  if n < s1 then
    (n, { q with
      buffer := memcpy q.wrptr (bp.take n) q.buffer
      wrptr := q.wrptr + n
      counter := q.counter - n })
  else if n > s1 then
    let s2 := n - s1
    (n, { q with
      buffer := memcpy 0 ((bp.drop s1).take s2) (memcpy q.wrptr (bp.take s1) q.buffer)
      wrptr := s2
      counter := q.counter - n })
  else
    (n, { q with
      buffer := memcpy q.wrptr (bp.take n) q.buffer
      wrptr := 0
      counter := q.counter - n })

/-- `oqGetI`: the element, none when the queue is empty, and the queue it leaves. -/
def oqGetI (q : OutputQueue N β) : Option β × OutputQueue N β :=
  if q.oqIsEmptyI then (none, q)
  else
    (some (q.buffer q.rdptr),
      { q with
        counter := q.counter + 1
        rdptr := if q.rdptr + 1 ≥ N then 0 else q.rdptr + 1 })

/-! ### As an input queue -/

/-- The queue with its elements counted. -/
def ring (q : OutputQueue N β) : InputQueue N β where
  buffer := q.buffer
  rdptr := q.rdptr
  wrptr := q.wrptr
  counter := N - q.counter

/-- The counter of free places is in range, and the ring of its elements is well formed.
-/
structure Wf (q : OutputQueue N β) : Prop where
  counter : q.counter ≤ N
  ring : q.ring.Wf

/-- The elements in the queue, oldest first. -/
def contents (q : OutputQueue N β) : List β := q.ring.contents

variable {q : OutputQueue N β}

/-- The ring has the queue's read pointer. -/
@[simp] theorem ring_rdptr : q.ring.rdptr = q.rdptr := rfl

/-- The ring has the queue's write pointer. -/
@[simp] theorem ring_wrptr : q.ring.wrptr = q.wrptr := rfl

/-- The ring counts the elements where the queue counts the free places. -/
@[simp] theorem ring_counter : q.ring.counter = N - q.counter := rfl

/-- The elements and the free places make up the whole buffer. -/
theorem length_contents (h : q.Wf) : q.contents.length + q.counter = N := by
  have hle := h.counter
  have hlen : q.contents.length = N - q.counter := InputQueue.length_contents
  omega

/-- A new queue is well formed. -/
theorem oqObjectInit_wf (hN : 0 < N) (mem : Nat → β) :
    (oqObjectInit mem : OutputQueue N β).Wf := by
  have hring : (oqObjectInit mem : OutputQueue N β).ring = InputQueue.iqObjectInit mem := by
    simp only [ring, oqObjectInit, InputQueue.iqObjectInit, Nat.sub_self]
  refine ⟨le_rfl, ?_⟩
  rw [hring]
  exact InputQueue.iqObjectInit_wf hN mem

/-- A new queue holds nothing. -/
theorem contents_oqObjectInit (mem : Nat → β) :
    (oqObjectInit mem : OutputQueue N β).contents = [] :=
  InputQueue.contents_eq_nil_iff.mpr (Nat.sub_self N)

/-- In a well-formed queue the test for emptiness tells whether it holds anything. -/
theorem Wf.oqIsEmptyI (h : q.Wf) : q.oqIsEmptyI = true ↔ q.contents = [] := by
  have hle := h.counter
  have hfull := h.ring.iqIsFullI
  simp only [InputQueue.iqIsFullI, decide_eq_true_eq] at hfull
  rw [ring_rdptr, ring_wrptr, ring_counter] at hfull
  rw [contents, InputQueue.contents_eq_nil_iff, OutputQueue.oqIsEmptyI, decide_eq_true_eq]
  show _ ↔ N - q.counter = 0
  constructor
  · rintro ⟨hptr, hne⟩
    -- Equal pointers of a queue with elements mean a full one.
    by_contra hpos
    have hall := hfull.mp ⟨hptr, hpos⟩
    omega
  · intro h0
    have hdist := h.ring.skewed.distance
    rw [ring_counter, h0, Nat.add_zero, Nat.mod_eq_of_lt h.ring.skewed.rdptr]
      at hdist
    have hwr := h.ring.skewed.wrptr
    rw [ring_wrptr] at hwr
    exact ⟨hdist, by omega⟩

/-! ### Puts -/

/-- Where there is place, an output queue is written as an input queue is. -/
theorem ring_put (h : q.Wf) (hfree : 0 < q.counter) (b : β) :
    (q.put b).ring = q.ring.iqPutI b := by
  have hle := h.counter
  have hfull : ¬q.ring.iqIsFullI = true := by
    intro hf
    have hall : N - q.counter = N := h.ring.iqIsFullI.mp hf
    omega
  rw [InputQueue.iqPutI, if_neg hfull]
  have hcount : N - (q.counter - 1) = N - q.counter + 1 := by omega
  simp only [ring, put, hcount]
  rfl

/-- Writing to a free place keeps the queue well formed. -/
theorem Wf.put (h : q.Wf) (hfree : 0 < q.counter) (b : β) : (q.put b).Wf := by
  refine ⟨?_, ?_⟩
  · have hle := h.counter
    show q.counter - 1 ≤ N
    omega
  · rw [ring_put h hfree]
    exact h.ring.iqPutI b

/-- The element goes behind the others. -/
theorem contents_put (h : q.Wf) (hfree : 0 < q.counter) (b : β) :
    (q.put b).contents = q.contents ++ [b] := by
  have hle := h.counter
  have hlt : q.ring.counter < N := by
    show N - q.counter < N
    omega
  rw [contents, ring_put h hfree, InputQueue.contents_iqPutI h.ring, if_pos hlt, contents]

/-- Nothing to write. -/
@[simp] theorem puts_nil (q : OutputQueue N β) : q.puts [] = q := rfl

/-- The first element is written first. -/
@[simp] theorem puts_cons (b : β) (bs : List β) (q : OutputQueue N β) :
    q.puts (b :: bs) = (q.put b).puts bs := rfl

/-- Two blocks are written one after the other. -/
theorem puts_append (bs bs' : List β) (q : OutputQueue N β) :
    q.puts (bs ++ bs') = (q.puts bs).puts bs' := List.foldl_append

/-- Each element takes a free place. -/
theorem counter_puts (bs : List β) (q : OutputQueue N β) :
    (q.puts bs).counter = q.counter - bs.length := by
  induction bs generalizing q with
  | nil => rfl
  | cons b bs ih =>
      rw [puts_cons, ih, List.length_cons]
      show q.counter - 1 - bs.length = _
      omega

/-- Elements that find room go to the end of the queue. -/
theorem contents_puts (h : q.Wf) {bs : List β} (hfit : bs.length ≤ q.counter) :
    (q.puts bs).Wf ∧ (q.puts bs).contents = q.contents ++ bs := by
  induction bs generalizing q with
  | nil => exact ⟨h, (List.append_nil _).symm⟩
  | cons b bs ih =>
      rw [List.length_cons] at hfit
      have hfree : 0 < q.counter := by omega
      have hrest : bs.length ≤ (q.put b).counter := by
        show _ ≤ q.counter - 1
        omega
      obtain ⟨hwf, hcontents⟩ := ih (h.put hfree b) hrest
      refine ⟨hwf, ?_⟩
      rw [puts_cons, hcontents, contents_put h hfree, List.append_assoc, List.singleton_append]

/-! ### `oq_write` -/

/-- Copying nothing. -/
theorem memcpy_nil (dst : Nat) (mem : Nat → β) : memcpy dst [] mem = mem := by
  funext i
  unfold memcpy
  split <;> rfl

/-- A block copy is its first element and the rest a place further. -/
theorem memcpy_cons (dst : Nat) (b : β) (bs : List β) (mem : Nat → β) :
    memcpy (dst + 1) bs (Function.update mem dst b) = memcpy dst (b :: bs) mem := by
  funext i
  unfold memcpy
  rcases Nat.lt_trichotomy i dst with hlt | rfl | hgt
  · rw [if_neg (by omega), if_neg (by omega), Function.update_of_ne (by omega)]
  · rw [if_neg (by omega), if_pos le_rfl, Function.update_self, Nat.sub_self]
    rfl
  · rw [if_pos (by omega), if_pos (by omega), Function.update_of_ne (by omega),
      show i - dst = i - (dst + 1) + 1 by omega, List.getD_cons_succ]

/-- Puts that do not pass the end of the buffer are one block. -/
theorem puts_eq_memcpy {bs : List β} (hw : q.wrptr < N) (hfit : q.wrptr + bs.length ≤ N) :
    q.puts bs =
      { q with
        buffer := memcpy q.wrptr bs q.buffer
        wrptr := if q.wrptr + bs.length = N then 0 else q.wrptr + bs.length
        counter := q.counter - bs.length } := by
  induction bs generalizing q with
  | nil =>
      rw [puts_nil, memcpy_nil, List.length_nil, Nat.add_zero, if_neg (by omega), Nat.sub_zero]
  | cons b bs ih =>
      rw [List.length_cons] at hfit
      rcases Nat.eq_zero_or_pos bs.length with h0 | hpos
      · obtain rfl := List.length_eq_zero_iff.mp h0
        rw [puts_cons, puts_nil, ← memcpy_cons, memcpy_nil]
        simp only [put, List.length_cons, List.length_nil, Nat.zero_add]
        congr 1
        split <;> split <;> omega
      · have hwr : (q.put b).wrptr = q.wrptr + 1 := if_neg (by omega)
        rw [puts_cons, ih (by omega) (by omega), hwr]
        show OutputQueue.mk (memcpy (q.wrptr + 1) bs (Function.update q.buffer q.wrptr b)) q.rdptr _
          (q.counter - 1 - bs.length) = _
        rw [memcpy_cons, List.length_cons, show q.wrptr + 1 + bs.length =
          q.wrptr + (bs.length + 1) by omega, Nat.sub_sub, Nat.add_comm 1]

/-- `oq_write` leaves the queue as putting the elements one by one does. -/
theorem oqWrite_eq_puts (h : q.Wf) (bp : List β) :
    q.oqWrite bp = (min bp.length q.counter, q.puts (bp.take q.counter)) := by
  have hw : q.wrptr < N := h.ring.skewed.wrptr
  have hle := h.counter
  have hmin : (if bp.length > q.counter then q.counter else bp.length) =
      min bp.length q.counter := by
    split <;> omega
  have htake : bp.take q.counter = bp.take (min bp.length q.counter) := by
    rw [Nat.min_comm, ← List.take_take, List.take_length]
  rw [oqWrite, hmin, htake]
  generalize hn : min bp.length q.counter = n
  have hlen : (bp.take n).length = n := by
    rw [List.length_take]
    omega
  by_cases hlt : n < N - q.wrptr
  · rw [if_pos hlt, puts_eq_memcpy hw (by omega), hlen, if_neg (by omega)]
  rw [if_neg hlt]
  by_cases hgt : n > N - q.wrptr
  · rw [if_pos hgt]
    -- The first block ends at the end of the buffer, the second begins at its start.
    have hsplit : bp.take n = bp.take (N - q.wrptr) ++
        (bp.drop (N - q.wrptr)).take (n - (N - q.wrptr)) := by
      rw [← List.take_add, Nat.add_sub_cancel' (by omega)]
    have hlen₁ : (bp.take (N - q.wrptr)).length = N - q.wrptr := by
      rw [List.length_take]
      omega
    have hlen₂ : ((bp.drop (N - q.wrptr)).take (n - (N - q.wrptr))).length =
        n - (N - q.wrptr) := by
      rw [List.length_take, List.length_drop]
      omega
    rw [hsplit, puts_append, puts_eq_memcpy hw (by omega), hlen₁, if_pos (by omega)]
    rw [puts_eq_memcpy (by show 0 < N; omega) (by show 0 + _ ≤ N; omega), hlen₂]
    have hend : ¬n - (N - q.wrptr) = N := by omega
    simp only [Nat.zero_add]
    rw [if_neg hend, Nat.sub_sub, Nat.add_sub_cancel' (by omega)]
  · rw [if_neg hgt, puts_eq_memcpy hw (by omega), hlen, if_pos (by omega)]

/-- Of several `oqPutI`, the first ones find room. -/
theorem foldl_oqPutI (bs : List β) (q : OutputQueue N β) :
    bs.foldl (fun q b => (q.oqPutI b).2) q = q.puts (bs.take q.counter) := by
  induction bs generalizing q with
  | nil => rw [List.take_nil, List.foldl_nil, puts_nil]
  | cons b bs ih =>
      rw [List.foldl_cons, ih, oqPutI]
      rcases Nat.eq_zero_or_pos q.counter with h0 | hpos
      · have hfull : q.oqIsFullI = true := decide_eq_true h0
        rw [if_pos hfull]
        show q.puts (bs.take q.counter) = _
        rw [h0, List.take_zero, List.take_zero]
      · obtain ⟨k, hk⟩ := Nat.exists_eq_add_one_of_ne_zero hpos.ne'
        have hfree : ¬q.oqIsFullI = true := fun hfull => hpos.ne' (of_decide_eq_true hfull)
        rw [if_neg hfree, hk, List.take_succ_cons, puts_cons]
        show (q.put b).puts (bs.take (q.counter - 1)) = _
        rw [hk, Nat.add_sub_cancel]

/-- The block copies of `iq_read` and `oq_write` leave the queue, and return, what
`iqGetI` and `oqPutI` do for one element after the other. -/
theorem bulk_eq_single {p : InputQueue N β} (hp : p.Wf) (h : q.Wf) (n : Nat) (bp : List β) :
    p.iqRead n = p.gets (min n p.counter) ∧
      q.oqWrite bp = (min bp.length q.counter, bp.foldl (fun q b => (q.oqPutI b).2) q) := by
  refine ⟨InputQueue.iqRead_eq_gets hp n, ?_⟩
  rw [oqWrite_eq_puts h, foldl_oqPutI]

/-- Around the end of a buffer of three. -/
theorem bulk_eq_single_three :
    (⟨id, 2, 1, 2⟩ : InputQueue 3 Nat).iqRead 2 = (⟨id, 2, 1, 2⟩ : InputQueue 3 Nat).gets 2 ∧
      ((⟨id, 2, 2, 3⟩ : OutputQueue 3 Nat).oqWrite [7, 8, 9]).2 =
        [7, 8, 9].foldl (fun q b => (q.oqPutI b).2) ⟨id, 2, 2, 3⟩ := by
  have hp : (⟨id, 2, 1, 2⟩ : InputQueue 3 Nat).Wf := ⟨⟨by decide, by decide, rfl⟩, by decide⟩
  have hq : (⟨id, 2, 2, 3⟩ : OutputQueue 3 Nat).Wf :=
    ⟨by decide, ⟨by decide, by decide, rfl⟩, by decide⟩
  have hkey := bulk_eq_single hp hq 2 [7, 8, 9]
  exact ⟨hkey.1, congrArg Prod.snd hkey.2⟩

/-- `oq_write` appends what there is room for. -/
theorem oqWrite_spec (h : q.Wf) (bp : List β) :
    (q.oqWrite bp).1 = min bp.length q.counter ∧ (q.oqWrite bp).2.Wf ∧
      (q.oqWrite bp).2.contents = q.contents ++ bp.take q.counter ∧
      (q.oqWrite bp).2.counter = q.counter - bp.length := by
  rw [oqWrite_eq_puts h]
  have hfit : (bp.take q.counter).length ≤ q.counter := by
    rw [List.length_take]
    omega
  obtain ⟨hwf, hcontents⟩ := contents_puts h hfit
  refine ⟨rfl, hwf, hcontents, ?_⟩
  rw [counter_puts, List.length_take]
  omega

/-! ### `oqGetI` -/

/-- There is nothing to take from an empty queue. -/
theorem oqGetI_of_nil (h : q.Wf) (hnil : q.contents = []) : q.oqGetI = (none, q) := by
  rw [oqGetI, if_pos (h.oqIsEmptyI.mpr hnil)]

/-- `oqGetI` takes the oldest element. -/
theorem oqGetI_of_cons (h : q.Wf) {b : β} {bs : List β} (hcons : q.contents = b :: bs) :
    q.oqGetI.1 = some b ∧ q.oqGetI.2.Wf ∧ q.oqGetI.2.contents = bs ∧
      q.oqGetI.2.counter = q.counter + 1 := by
  have hlen := length_contents h
  rw [hcons, List.length_cons] at hlen
  have hpos : 0 < q.ring.counter := by
    show 0 < N - q.counter
    omega
  have hne : ¬q.oqIsEmptyI = true := by
    rw [h.oqIsEmptyI, hcons]
    exact List.cons_ne_nil b bs
  have hget := InputQueue.iqGetI_of_pos h.ring hpos
  have hne' : ¬q.ring.iqIsEmptyI = true := fun he => hpos.ne' (of_decide_eq_true he)
  rw [InputQueue.iqGetI, if_neg hne'] at hget
  -- The ring after the get is the ring of the queue after it.
  have hring : q.oqGetI.2.ring =
      { q.ring with rdptr := (q.rdptr + 1) % N, counter := q.ring.counter - 1 } := by
    rw [oqGetI, if_neg hne]
    have hcount : N - (q.counter + 1) = N - q.counter - 1 := by omega
    simp only [ring]
    rw [InputQueue.succ_wrap (show q.rdptr < N from h.ring.skewed.rdptr), hcount]
  obtain ⟨hwf, hrest⟩ := h.ring.advance (n := 1) hpos rfl
  rw [oqGetI, if_neg hne] at hring ⊢
  refine ⟨?_, ⟨?_, ?_⟩, ?_, rfl⟩
  · have hhead := congrArg Prod.fst hget
    have hcontents : q.ring.contents.head? = some b := by
      show q.contents.head? = _
      rw [hcons, List.head?_cons]
    rw [hcontents] at hhead
    exact hhead
  · show q.counter + 1 ≤ N
    omega
  · rw [hring]
    exact hwf
  · rw [contents, hring]
    refine hrest.trans ?_
    show q.contents.drop 1 = bs
    rw [hcons, List.drop_one, List.tail_cons]

end OutputQueue

end ChibiOS
