import Mathlib.Data.Fintype.Card
import Mathlib.Data.List.Sort
import Mathlib.Logic.Relation
import Mathlib.Order.Bounds.Defs

/-!
# `MotionTracking.Threads.Inheritance`: priorities, queues and inheritance

Threads `T` with priorities `P`, the greater the more urgent.

* Queues sorted by priority (`Falling`). A thread is inserted behind the threads
  of its own priority, or ahead of them.
* A thread waits for at most one other, `waitsFor`. With inheritance (`Inherited`)
  the priority of a thread is its own or that of a thread that waits for it,
  whichever is the greatest. Without cycles this is the greatest own priority
  among the threads behind it (`Inherited.isGreatest`).
* `boost` is what a thread that is going to wait has to do: raise the thread it
  waits for, the one that thread waits for, and so on, up to a thread that is
  urgent enough (`Inherited.boost`). The other operations are letting the waiting
  threads go (`Inherited.handOver`) and a new own priority (`Inherited.setReal`).
-/

set_option autoImplicit false

namespace Threads

variable {T P : Type} [LinearOrder P]

/-! ### Queues -/

/-- Sorted by priority, the highest first. -/
def Falling (prio : T → P) (q : List T) : Prop := q.Pairwise fun t u => prio u ≤ prio t

/-- Into a queue, before the first thread of a lower priority. -/
def insertBehind (prio : T → P) (t : T) (q : List T) : List T :=
  q.orderedInsert (fun t u => prio u < prio t) t

/-- Into a queue, before the first thread of the same or a lower priority. -/
def insertAhead (prio : T → P) (t : T) (q : List T) : List T :=
  q.orderedInsert (fun t u => prio u ≤ prio t) t

section
variable {prio prio' : T → P} {t u : T} {q : List T}

/-- Inserting adds the thread and nothing else. -/
@[simp] theorem mem_insertBehind : u ∈ insertBehind prio t q ↔ u = t ∨ u ∈ q :=
  List.mem_orderedInsert _

/-- Inserting adds the thread and nothing else. -/
@[simp] theorem mem_insertAhead : u ∈ insertAhead prio t q ↔ u = t ∨ u ∈ q :=
  List.mem_orderedInsert _

/-- The queue with the thread inserted, in another order. -/
theorem perm_insertBehind : (insertBehind prio t q).Perm (t :: q) := List.perm_orderedInsert _ t q

/-- The queue with the thread inserted, in another order. -/
theorem perm_insertAhead : (insertAhead prio t q).Perm (t :: q) := List.perm_orderedInsert _ t q

/-- A thread that was not in the queue is in it once. -/
theorem nodup_insertBehind (hq : q.Nodup) (ht : t ∉ q) : (insertBehind prio t q).Nodup :=
  perm_insertBehind.nodup_iff.mpr (List.nodup_cons.mpr ⟨ht, hq⟩)

/-- A thread that was not in the queue is in it once. -/
theorem nodup_insertAhead (hq : q.Nodup) (ht : t ∉ q) : (insertAhead prio t q).Nodup :=
  perm_insertAhead.nodup_iff.mpr (List.nodup_cons.mpr ⟨ht, hq⟩)

/-- Both insertions keep the order: they differ in the place among equals only, which `r`
decides. -/
theorem falling_orderedInsert {r : T → T → Prop} [DecidableRel r] (hq : Falling prio q)
    (hr : ∀ u, r t u → prio u ≤ prio t) (hnot : ∀ u, ¬r t u → prio t ≤ prio u) :
    Falling prio (q.orderedInsert r t) := by
  induction q with
  | nil => exact List.pairwise_singleton _ t
  | cons u q ih =>
      obtain ⟨hu, hq⟩ := List.pairwise_cons.mp hq
      rw [List.orderedInsert_cons]
      split
      · rename_i h
        refine List.pairwise_cons.mpr ⟨fun v hv => ?_, List.pairwise_cons.mpr ⟨hu, hq⟩⟩
        cases List.mem_cons.mp hv with
        | inl hvu => exact hvu ▸ hr u h
        | inr hv => exact (hu v hv).trans (hr u h)
      · rename_i h
        refine List.pairwise_cons.mpr ⟨fun v hv => ?_, ih hq⟩
        cases (List.mem_orderedInsert r).mp hv with
        | inl hvt => exact hvt ▸ hnot u h
        | inr hv => exact hu v hv

/-- A queue sorted by priority stays sorted. -/
theorem falling_insertBehind (hq : Falling prio q) (t : T) : Falling prio (insertBehind prio t q) :=
  falling_orderedInsert hq (fun _ h => le_of_lt h) fun _ h => not_lt.mp h

/-- A queue sorted by priority stays sorted. -/
theorem falling_insertAhead (hq : Falling prio q) (t : T) : Falling prio (insertAhead prio t q) :=
  falling_orderedInsert hq (fun _ h => h) fun _ h => (not_le.mp h).le

/-- Only the priorities of the threads in the queue matter. -/
theorem Falling.congr (hq : Falling prio q) (h : ∀ u ∈ q, prio' u = prio u) : Falling prio' q := by
  refine List.Pairwise.imp_of_mem (fun {a b} ha hb hab => ?_) hq
  rw [h a ha, h b hb]
  exact hab

/-- Taking a thread out of a sorted queue leaves it sorted. -/
theorem Falling.erase [DecidableEq T] (hq : Falling prio q) (t : T) : Falling prio (q.erase t) :=
  List.Pairwise.sublist List.erase_sublist hq

/-- Taking the first thread off a sorted queue leaves it sorted. -/
theorem Falling.tail (hq : Falling prio (t :: q)) : Falling prio q := (List.pairwise_cons.mp hq).2

/-- No thread of a sorted queue is above the first one. -/
theorem Falling.le_head (hq : Falling prio (t :: q)) (hu : u ∈ t :: q) : prio u ≤ prio t := by
  cases List.mem_cons.mp hu with
  | inl hut => exact hut ▸ le_rfl
  | inr hu => exact (List.pairwise_cons.mp hq).1 u hu

/-- In a queue of at most one thread there is nothing to sort. -/
theorem insertBehind_nil : insertBehind prio t [] = [t] := rfl

end

/-! ### Inheritance -/

/-- `u` is `t`, or waits for it, through others or not. -/
def Behind (waitsFor : T → Option T) (u t : T) : Prop :=
  Relation.ReflTransGen (fun u t => waitsFor u = some t) u t

/-- Every priority is the least one that is not below the thread's own one and
those of the threads that wait for it. -/
structure Inherited (real prio : T → P) (waitsFor : T → Option T) : Prop where
  floor : ∀ t, real t ≤ prio t
  covers : ∀ u t, waitsFor u = some t → prio u ≤ prio t
  reached : ∀ t, prio t = real t ∨ ∃ u, waitsFor u = some t ∧ prio u = prio t

section
variable {real prio : T → P} {waitsFor : T → Option T} {t u : T}

/-- Who waits for a thread is not more urgent. -/
theorem Inherited.le (h : Inherited real prio waitsFor) (hut : Behind waitsFor u t) :
    prio u ≤ prio t := by
  induction hut with
  | refl => exact le_rfl
  | tail _ hstep ih => exact ih.trans (h.covers _ _ hstep)

/-- A thread on a cycle stays on it. -/
theorem behind_cycle (hut : Behind waitsFor u t)
    (hu : Relation.TransGen (fun u t => waitsFor u = some t) u u) :
    Relation.TransGen (fun u t => waitsFor u = some t) t t := by
  induction hut with
  | refl => exact hu
  | tail _ hstep ih =>
      -- The only way out of a thread is the first step of its cycle.
      obtain ⟨v, hv, hback⟩ := Relation.TransGen.head'_iff.mp ih
      cases Option.some.inj (hstep.symm.trans hv)
      exact Relation.TransGen.tail' hback hstep

/-- Behind a thread that waits for nobody there is no endless chain. -/
theorem acc_of_behind [Finite T] (ht : waitsFor t = none) (hut : Behind waitsFor u t) :
    Acc (fun u t => waitsFor u = some t) u := by
  let later : T → T → Prop := fun u v =>
    Relation.TransGen (fun u t => waitsFor u = some t) u v ∧ Behind waitsFor v t
  have htrans : IsTrans T later := ⟨fun _ _ _ h h' => ⟨h.1.trans h'.1, h'.2⟩⟩
  have hirrefl : Std.Irrefl later := by
    refine ⟨fun v hv => ?_⟩
    obtain ⟨w, hw, -⟩ := Relation.TransGen.head'_iff.mp (behind_cycle hv.2 hv.1)
    rw [ht] at hw
    cases hw
  have hwf := Finite.wellFounded_of_trans_of_irrefl later
  induction u using hwf.induction with
  | h u ih =>
      refine ⟨u, fun v hv => ?_⟩
      exact ih v ⟨.single hv, hut⟩ (.head hv hut)

/-- An inherited priority is some thread's own. -/
theorem Inherited.source (h : Inherited real prio waitsFor)
    (ht : Acc (fun u t => waitsFor u = some t) t) :
    ∃ u, Behind waitsFor u t ∧ real u = prio t := by
  induction ht with
  | intro t _ ih =>
      cases h.reached t with
      | inl hown => exact ⟨t, .refl, hown.symm⟩
      | inr hwaiting =>
          obtain ⟨v, hv, hprio⟩ := hwaiting
          obtain ⟨u, hu, hreal⟩ := ih v hv
          exact ⟨u, .tail hu hv, hreal.trans hprio⟩

/-- Unless it is caught in a cycle, a thread has the greatest own priority among the
threads behind it. -/
theorem Inherited.isGreatest [Finite T] {r : T} (h : Inherited real prio waitsFor)
    (hr : waitsFor r = none) (htr : Behind waitsFor t r) :
    IsGreatest {p | ∃ u, Behind waitsFor u t ∧ real u = p} (prio t) := by
  refine ⟨h.source (acc_of_behind hr htr), ?_⟩
  rintro p ⟨u, hu, rfl⟩
  exact (h.floor u).trans (h.le hu)

end

/-! ### Going to wait -/

section
variable [DecidableEq T]

/-- Raise to `p` the thread `t`, the one it waits for, and so on, up to one that has
`p` already. -/
def boost (waitsFor : T → Option T) (p : P) : Nat → T → (T → P) → T → P
  | 0, _, prio => prio
  | n + 1, t, prio =>
      if prio t < p then
        match waitsFor t with
        | none => Function.update prio t p
        | some u => boost waitsFor p n u (Function.update prio t p)
      else prio

variable {real prio : T → P} {waitsFor : T → Option T} {p : P} {first t : T}

/-- The priorities when `boost` has come to `t`. The first thread it raised has no
reason for its priority yet, and `t` may be too low. -/
structure Boosting (real prio : T → P) (waitsFor : T → Option T) (p : P) (first t : T) :
    Prop where
  floor : ∀ x, real x ≤ prio x
  covers : ∀ u x, waitsFor u = some x → prio u ≤ prio x ∨ x = t ∧ prio u ≤ p
  reached : ∀ x, prio x = real x ∨ (∃ u, waitsFor u = some x ∧ prio u = prio x) ∨
    (x = first ∧ prio x = p) ∨ (x = t ∧ prio x < p)
  source : t = first ∨ ∃ u, waitsFor u = some t ∧ prio u = p
  started : t = first ∨ p ≤ prio first

/-- The priorities after `boost`. -/
structure Boosted (real prio : T → P) (waitsFor : T → Option T) (p : P) (first : T) : Prop where
  floor : ∀ x, real x ≤ prio x
  covers : ∀ u x, waitsFor u = some x → prio u ≤ prio x
  reached : ∀ x, prio x = real x ∨ (∃ u, waitsFor u = some x ∧ prio u = prio x) ∨
    (x = first ∧ prio x = p)
  started : p ≤ prio first

omit [DecidableEq T] in
/-- At the start of the loop nobody has been raised, and the first thread is next. -/
theorem Inherited.boosting (h : Inherited real prio waitsFor) (p : P) (t : T) :
    Boosting real prio waitsFor p t t where
  floor := h.floor
  covers u x hux := .inl (h.covers u x hux)
  reached x := (h.reached x).imp_right .inl
  source := .inl rfl
  started := .inl rfl

omit [DecidableEq T] in
/-- The loop stops at a thread that has the priority already. -/
theorem Boosting.finish (h : Boosting real prio waitsFor p first t) (ht : p ≤ prio t) :
    Boosted real prio waitsFor p first where
  floor := h.floor
  covers u x hux := by
    cases h.covers u x hux with
    | inl hle => exact hle
    | inr hlast =>
        obtain ⟨rfl, hle⟩ := hlast
        exact hle.trans ht
  reached x := by
    rcases h.reached x with hown | hwait | hfirst | ⟨rfl, hlt⟩
    · exact .inl hown
    · exact .inr (.inl hwait)
    · exact .inr (.inr hfirst)
    · exact absurd ht (not_le.mpr hlt)
  started := by
    cases h.started with
    | inl hfirst => exact hfirst ▸ ht
    | inr hle => exact hle

/-- Raising `t`, when it waits for nobody or for `u`. -/
theorem Boosting.raise (h : Boosting real prio waitsFor p first t) (ht : prio t < p) {u : T}
    (hu : ∀ x, waitsFor t = some x → x = u) (hnone : waitsFor t = none → u = t) :
    Boosting real (Function.update prio t p) waitsFor p first u := by
  have hself : Function.update prio t p t = p := Function.update_self ..
  have hother : ∀ x, x ≠ t → Function.update prio t p x = prio x :=
    fun x hx => Function.update_of_ne hx ..
  have hup : ∀ x, prio x ≤ Function.update prio t p x := by
    intro x
    by_cases hx : x = t
    · rw [hx, hself]
      exact ht.le
    · exact (hother x hx).ge
  refine ⟨fun x => (h.floor x).trans (hup x), fun v x hvx => ?_, fun x => ?_, ?_, ?_⟩
  · by_cases hvt : v = t
    · -- `t` itself is one that waits. What it waits for comes next.
      rw [hvt, hself]
      exact .inr ⟨hu x (hvt ▸ hvx), le_rfl⟩
    · rw [hother v hvt]
      rcases h.covers v x hvx with hle | ⟨rfl, hle⟩
      · exact .inl (hle.trans (hup x))
      · exact .inl (hself.symm ▸ hle)
  · by_cases hxt : x = t
    · subst hxt
      rw [hself]
      cases h.source with
      | inl hfirst => exact .inr (.inr (.inl ⟨hfirst, rfl⟩))
      | inr hwait =>
          obtain ⟨v, hv, hvp⟩ := hwait
          refine .inr (.inl ⟨v, hv, ?_⟩)
          rw [hother v fun hvx => ?_, hvp]
          exact absurd (hvx ▸ hvp) ht.ne
    · rw [hother x hxt]
      rcases h.reached x with hown | ⟨v, hv, hvx⟩ | hfirst | ⟨hx, -⟩
      · exact .inl hown
      · by_cases hvt : v = t
        · -- What justified `x` has been raised, and `x` comes next.
          have hxu := hu x (hvt ▸ hv)
          exact .inr (.inr (.inr ⟨hxu, hvx ▸ hvt ▸ ht⟩))
        · exact .inr (.inl ⟨v, hv, by rw [hother v hvt, hvx]⟩)
      · exact .inr (.inr (.inl hfirst))
      · exact absurd hx hxt
  · cases hw : waitsFor t with
    | none =>
        rw [hnone hw]
        cases h.source with
        | inl hfirst => exact .inl hfirst
        | inr hwait =>
            obtain ⟨v, hv, hvp⟩ := hwait
            refine .inr ⟨v, hv, ?_⟩
            rw [hother v fun hvx => ?_, hvp]
            exact absurd (hvx ▸ hvp) ht.ne
    | some x => exact .inr ⟨t, hu x hw ▸ hw, hself⟩
  · right
    cases h.started with
    | inl hfirst => exact hfirst ▸ hself.ge
    | inr hle => exact hle.trans (hup first)

/-- Raising a thread to `p` leaves fewer threads below `p`, which is the measure of the
loop. -/
theorem card_lt_of_raise [Fintype T] (ht : prio t < p) :
    (Finset.univ.filter fun x => Function.update prio t p x < p).card <
      (Finset.univ.filter fun x => prio x < p).card := by
  refine Finset.card_lt_card ⟨fun x hx => ?_, fun hsub => ?_⟩
  · have hx := (Finset.mem_filter.mp hx).2
    by_cases hxt : x = t
    · rw [hxt, Function.update_self] at hx
      exact absurd hx (lt_irrefl p)
    · rw [Function.update_of_ne hxt] at hx
      exact Finset.mem_filter.mpr ⟨Finset.mem_univ x, hx⟩
  · have ht' := (Finset.mem_filter.mp (hsub (Finset.mem_filter.mpr ⟨Finset.mem_univ t, ht⟩))).2
    rw [Function.update_self] at ht'
    exact lt_irrefl p ht'

/-- The loop ends with the chain raised, by induction on its fuel. As many turns as there
are threads below `p` are enough, so it ends on a circle as well. -/
theorem Boosting.boost [Fintype T] {n : Nat} (h : Boosting real prio waitsFor p first t)
    (hn : (Finset.univ.filter fun x => prio x < p).card ≤ n) :
    Boosted real (boost waitsFor p n t prio) waitsFor p first := by
  induction n generalizing t prio with
  | zero =>
      refine h.finish (not_lt.mp fun ht => ?_)
      have hmem : t ∈ Finset.univ.filter fun x => prio x < p :=
        Finset.mem_filter.mpr ⟨Finset.mem_univ t, ht⟩
      have hpos := Finset.card_pos.mpr ⟨t, hmem⟩
      omega
  | succ n ih =>
      rw [Threads.boost]
      split
      · rename_i ht
        have hcard := card_lt_of_raise ht
        split
        · rename_i hw
          have hself : Function.update prio t p t = p := Function.update_self ..
          refine (h.raise ht (fun x hx => ?_) fun _ => rfl).finish hself.ge
          rw [hw] at hx
          cases hx
        · rename_i u hw
          refine ih (h.raise ht (fun x hx => ?_) fun hnone => ?_) (by omega)
          · exact Option.some.inj (hx.symm.trans hw)
          · rw [hw] at hnone
            cases hnone
      · rename_i ht
        exact h.finish (not_lt.mp ht)

/-- `boost` raises priorities that are below `p` to `p`. -/
theorem boost_apply (waitsFor : T → Option T) (p : P) (t : T) (prio : T → P) (n : Nat) (x : T) :
    boost waitsFor p n t prio x = prio x ∨ prio x < p ∧ boost waitsFor p n t prio x = p := by
  induction n generalizing t prio with
  | zero => exact .inl rfl
  | succ n ih =>
      have hupdate : prio t < p → Function.update prio t p x = prio x ∨
          prio x < p ∧ Function.update prio t p x = p := by
        intro ht
        by_cases hx : x = t
        · exact .inr ⟨hx ▸ ht, by rw [hx, Function.update_self]⟩
        · exact .inl (Function.update_of_ne hx ..)
      rw [Threads.boost]
      split
      · rename_i ht
        cases waitsFor t with
        | none => exact hupdate ht
        | some u =>
            simp only
            rcases ih u (Function.update prio t p) with heq | ⟨hlt, heq⟩
            · rw [heq]
              exact hupdate ht
            · refine .inr ⟨?_, heq⟩
              rcases hupdate ht with hsame | ⟨hlt', -⟩
              · exact hsame ▸ hlt
              · exact hlt'
      · exact .inl rfl

/-- A thread of priority `p` goes to wait for the one that has been raised first. -/
theorem Boosted.wait {c : T} (h : Boosted real prio waitsFor p first) (hc : waitsFor c = none)
    (hp : prio c = p) : Inherited real prio (Function.update waitsFor c (some first)) where
  floor := h.floor
  covers u x hux := by
    by_cases hu : u = c
    · rw [hu, Function.update_self] at hux
      cases hux
      rw [hu, hp]
      exact h.started
    · rw [Function.update_of_ne hu] at hux
      exact h.covers u x hux
  reached x := by
    rcases h.reached x with hown | ⟨u, hu, hux⟩ | ⟨rfl, hx⟩
    · exact .inl hown
    · refine .inr ⟨u, ?_, hux⟩
      rw [Function.update_of_ne fun huc => ?_]
      · exact hu
      · rw [huc, hc] at hu
        cases hu
    · exact .inr ⟨c, Function.update_self .., hp.trans hx.symm⟩

/-- Priority inheritance when `c` goes to wait for `t`. As many rounds as there are
threads are enough. -/
theorem Inherited.boost [Fintype T] {c : T} (h : Inherited real prio waitsFor)
    (hc : waitsFor c = none) (t : T) :
    Inherited real (Threads.boost waitsFor (prio c) (Fintype.card T) t prio)
      (Function.update waitsFor c (some t)) := by
  refine ((h.boosting (prio c) t).boost (Finset.card_le_univ _)).wait hc ?_
  cases boost_apply waitsFor (prio c) t prio (Fintype.card T) c with
  | inl heq => exact heq
  | inr hlt => exact absurd hlt.1 (lt_irrefl _)

/-! ### The other operations -/

/-- `t` hands to `u` what `u` waited for, and some of those who waited for `t` wait
for `u` from now on. The new priority of `t` is `newprio`. -/
theorem Inherited.handOver {u : T} {newprio : P} (h : Inherited real prio waitsFor)
    (waitsFor' : T → Option T) (ht : waitsFor t = none) (hu : waitsFor u = some t)
    (hfree : waitsFor' u = none)
    (hmove : ∀ w, w ≠ u → waitsFor' w = waitsFor w ∨
      waitsFor w = some t ∧ waitsFor' w = some u ∧ prio w ≤ prio u)
    (hfloor : real t ≤ newprio) (hcovers : ∀ w, waitsFor' w = some t → prio w ≤ newprio)
    (hreached : newprio = real t ∨ ∃ w, waitsFor' w = some t ∧ prio w = newprio) :
    Inherited real (Function.update prio t newprio) waitsFor' := by
  have hut : u ≠ t := by
    rintro rfl
    rw [ht] at hu
    cases hu
  have hother : ∀ x, x ≠ t → Function.update prio t newprio x = prio x :=
    fun x hx => Function.update_of_ne hx ..
  -- Nobody waits for another thread than before, unless for `u`.
  have hwaits : ∀ w x, waitsFor' w = some x → w ≠ t ∧ w ≠ u ∧
      (waitsFor w = some x ∨ x = u ∧ prio w ≤ prio u) := by
    intro w x hwx
    have hwu : w ≠ u := by
      rintro rfl
      rw [hfree] at hwx
      cases hwx
    rcases hmove w hwu with hsame | ⟨hwt, hwu', hle⟩
    · refine ⟨?_, hwu, .inl (hsame ▸ hwx)⟩
      rintro rfl
      rw [hsame, ht] at hwx
      cases hwx
    · refine ⟨?_, hwu, .inr ⟨Option.some.inj (hwx.symm.trans hwu'), hle⟩⟩
      rintro rfl
      rw [ht] at hwt
      cases hwt
  refine ⟨fun x => ?_, fun w x hwx => ?_, fun x => ?_⟩
  · by_cases hx : x = t
    · rw [hx, Function.update_self]
      exact hfloor
    · rw [hother x hx]
      exact h.floor x
  · obtain ⟨hwt, -, hwait⟩ := hwaits w x hwx
    rw [hother w hwt]
    by_cases hx : x = t
    · rw [hx, Function.update_self]
      exact hcovers w (hx ▸ hwx)
    · rw [hother x hx]
      rcases hwait with hwait | ⟨rfl, hle⟩
      · exact h.covers w x hwait
      · exact hle
  · by_cases hx : x = t
    · subst hx
      rw [Function.update_self]
      rcases hreached with hown | ⟨w, hw, hprio⟩
      · exact .inl hown
      · refine .inr ⟨w, hw, ?_⟩
        rw [hother w (hwaits w _ hw).1]
        exact hprio
    · rw [hother x hx]
      rcases h.reached x with hown | ⟨w, hw, hprio⟩
      · exact .inl hown
      · have hwt : w ≠ t := by
          rintro rfl
          rw [ht] at hw
          cases hw
        refine .inr ⟨w, ?_, by rw [hother w hwt, hprio]⟩
        have hwu : w ≠ u := by
          rintro rfl
          exact hx (Option.some.inj (hw.symm.trans hu))
        rcases hmove w hwu with hsame | ⟨hwt', -, -⟩
        · rw [hsame]
          exact hw
        · exact absurd (Option.some.inj (hw.symm.trans hwt')) hx

/-- `t`, which does not wait, gets the own priority `own` and the priority `new`. -/
theorem Inherited.setReal {own new : P} (h : Inherited real prio waitsFor)
    (ht : waitsFor t = none) (hfloor : own ≤ new)
    (hcovers : ∀ w, waitsFor w = some t → prio w ≤ new)
    (hreached : new = own ∨ ∃ w, waitsFor w = some t ∧ prio w = new) :
    Inherited (Function.update real t own) (Function.update prio t new) waitsFor := by
  have hwt : ∀ w x, waitsFor w = some x → w ≠ t := by
    rintro w x hw rfl
    rw [ht] at hw
    cases hw
  refine ⟨fun x => ?_, fun w x hw => ?_, fun x => ?_⟩
  · by_cases hx : x = t
    · rw [hx, Function.update_self, Function.update_self]
      exact hfloor
    · rw [Function.update_of_ne hx, Function.update_of_ne hx]
      exact h.floor x
  · rw [Function.update_of_ne (hwt w x hw)]
    by_cases hx : x = t
    · rw [hx, Function.update_self]
      exact hcovers w (hx ▸ hw)
    · rw [Function.update_of_ne hx]
      exact h.covers w x hw
  · by_cases hx : x = t
    · subst hx
      rw [Function.update_self, Function.update_self]
      rcases hreached with hown | ⟨w, hw, hprio⟩
      · exact .inl hown
      · exact .inr ⟨w, hw, by rw [Function.update_of_ne (hwt w _ hw), hprio]⟩
    · rw [Function.update_of_ne hx, Function.update_of_ne hx]
      rcases h.reached x with hown | ⟨w, hw, hprio⟩
      · exact .inl hown
      · exact .inr ⟨w, hw, by rw [Function.update_of_ne (hwt w x hw), hprio]⟩

end

end Threads
