import Mathlib.Logic.Relation
import MotionTracking.ChibiOS.Mutex

/-!
# `MotionTracking.ChibiOS.Deadlock`: lock orders and wait cycles

A thread waits for another when it is queued at a mutex that the other owns. A
cycle of such threads never moves again. `Ordered rank` is the condition that
rules cycles out: a queued thread owns only mutexes of smaller rank than the one
it is queued at. Along a chain of waiting threads the rank then grows
(`rank_lt_of_waitsFor`), so the chain does not close (`Ordered.no_cycle`).

`Served` says that nobody sleeps unattended: a sleeping thread is queued or has been
handed its mutex, and a mutex with a queue has an owner. When locks are ordered and
ranks bounded, each chain of waiting threads then ends at an owner that is awake or
can wake up (`Served.exists_awake`).
-/

set_option autoImplicit false

namespace ChibiOS.Kernel

variable {T M : Type}

section

/-- `t` is queued at a mutex that `u` owns. -/
def WaitsFor (k : Kernel T M) (t u : T) : Prop := ∃ m, t ∈ k.queue m ∧ k.owner m = some u

/-- A queued thread owns only mutexes of smaller rank. -/
def Ordered (rank : M → Nat) (k : Kernel T M) : Prop :=
  ∀ t m, t ∈ k.queue m → ∀ m', k.owner m' = some t → rank m' < rank m

/-- The rank of the mutex a thread sleeps at. -/
def waitRank (rank : M → Nat) (k : Kernel T M) (t : T) : Nat := (k.wtmtx t).elim 0 rank

/-- A queued thread waits at the rank of the mutex it is queued at. -/
theorem waitRank_of_queued {rank : M → Nat} {k : Kernel T M} (hwf : k.Wf) {t : T} {m : M}
    (ht : t ∈ k.queue m) : k.waitRank rank t = rank m := by
  rw [waitRank, hwf.queued m t ht]
  rfl

/-- Along a chain of two waits the rank goes up: the thread in the middle owns the first
mutex and is queued at one of a higher rank. -/
theorem rank_lt_of_waitsFor {rank : M → Nat} {k : Kernel T M} (hwf : k.Wf)
    (hord : k.Ordered rank) {t u w : T} (htu : k.WaitsFor t u) (huw : k.WaitsFor u w) :
    k.waitRank rank t < k.waitRank rank u := by
  obtain ⟨m, ht, hu⟩ := htu
  obtain ⟨m', hu', -⟩ := huw
  rw [waitRank_of_queued hwf ht, waitRank_of_queued hwf hu']
  exact hord u m' hu' m hu

/-- The start of a chain waits at a mutex of smaller rank than its end, when the
end waits too. -/
theorem rank_lt_of_transGen {rank : M → Nat} {k : Kernel T M} (hwf : k.Wf)
    (hord : k.Ordered rank) {t u : T} (htu : Relation.TransGen k.WaitsFor t u) {w : T}
    (huw : k.WaitsFor u w) : k.waitRank rank t < k.waitRank rank u := by
  induction htu generalizing w with
  | single h => exact rank_lt_of_waitsFor hwf hord h huw
  | tail _ h ih => exact Nat.lt_trans (ih h) (rank_lt_of_waitsFor hwf hord h huw)

/-- Threads that take mutexes in order never wait in a cycle. -/
theorem Ordered.no_cycle {rank : M → Nat} {k : Kernel T M} (hord : k.Ordered rank)
    (hwf : k.Wf) (t : T) : ¬Relation.TransGen k.WaitsFor t t := by
  intro hcycle
  obtain ⟨u, htu, -⟩ := Relation.TransGen.head'_iff.mp hcycle
  exact Nat.lt_irrefl _ (rank_lt_of_transGen hwf hord hcycle htu)

end

/-! ### Nobody sleeps unattended -/

/-- Every sleeping thread is queued at its mutex or owns it already, and no queue is left
without an owner. -/
structure Served (k : Kernel T M) : Prop where
  waiting : ∀ t m, k.wtmtx t = some m → t ∈ k.queue m ∨ k.owner m = some t
  owned : ∀ m, k.queue m ≠ [] → k.owner m ≠ none

/-- The thread owns the mutex or is queued at it. -/
def InvolvedIn (t : T) (m : M) (k : Kernel T M) : Prop := k.owner m = some t ∨ t ∈ k.queue m

/-- The thread owns a mutex or is queued at one. -/
def Involved (t : T) (k : Kernel T M) : Prop := ∃ m, k.InvolvedIn t m

variable [DecidableEq T] [DecidableEq M] {k k' : Kernel T M} {t u : T} {m m' : M}

omit [DecidableEq T] in
/-- A mutex nobody uses may be initialised. -/
theorem Served.chMtxObjectInit (h : k.Served) (hm : ¬k.Used m) :
    (k.chMtxObjectInit m).Served := by
  obtain ⟨ho, hq⟩ := not_used.mp hm
  constructor
  · intro u m' hw
    have hor := h.waiting u m' hw
    by_cases hm' : m' = m
    · subst hm'
      simp [ho, hq] at hor
    · simpa [Kernel.chMtxObjectInit, hm'] using hor
  · intro m' hq'
    by_cases hm' : m' = m
    · subst hm'
      simp [Kernel.chMtxObjectInit] at hq'
    · simpa [Kernel.chMtxObjectInit, hm'] using h.owned m' (by
        simpa [Kernel.chMtxObjectInit, hm'] using hq')

/-- A thread that has to wait is queued, and the mutex it waits for has an owner. -/
theorem Served.chMtxLockS (h : k.Served) (hrun : k.wtmtx t = none) (m : M) :
    (k.chMtxLockS t m).Served := by
  unfold Kernel.chMtxLockS
  by_cases ho : k.owner m = none
  · rw [if_pos ho]
    constructor
    · intro u m' hw
      have hor := h.waiting u m' hw
      by_cases hm' : m' = m
      · subst hm'
        exact .inl (hor.resolve_right (by simp [ho]))
      · simpa [hm'] using hor
    · intro m' hq
      by_cases hm' : m' = m
      · subst hm'
        simp
      · simpa [hm'] using h.owned m' hq
  · rw [if_neg ho]
    constructor
    · intro u m' hw
      by_cases hu : u = t
      · subst hu
        have hm' : m = m' := by simpa using hw
        subst hm'
        simp
      · have hor := h.waiting u m' (by simpa [hu] using hw)
        by_cases hm' : m' = m
        · subst hm'
          simpa [hu] using hor
        · simpa [hm'] using hor
    · intro m' hq
      by_cases hm' : m' = m
      · subst hm'
        exact ho
      · exact h.owned m' (by simpa [hm'] using hq)

omit [DecidableEq M] in
/-- A thread that runs again leaves no one behind. -/
theorem Served.chMtxResume (h : k.Served) (hk : k.chMtxResume t = some k') : k'.Served := by
  unfold Kernel.chMtxResume at hk
  split at hk
  · cases hk
    exact h
  · split at hk
    · cases hk
      refine ⟨fun u m' hw => h.waiting u m' ?_, h.owned⟩
      by_cases hu : u = t
      · subst hu
        simp at hw
      · simpa [hu] using hw
    · cases hk

/-- The first thread in the queue is handed the mutex, so no queue loses its owner. -/
theorem Served.chMtxUnlock (h : k.Served) (ht : k.Holds t m) : (k.chMtxUnlock t m).Served := by
  unfold Kernel.chMtxUnlock
  cases hq : k.queue m with
  | nil =>
      simp only [hq]
      constructor
      · intro u m' hw
        have hor := h.waiting u m' hw
        by_cases hm' : m' = m
        · subst hm'
          -- Its owner does not sleep at it.
          rcases hor with hin | ho
          · simp [hq] at hin
          · have hut : u = t := Option.some.inj (ho.symm.trans ht.1)
            subst hut
            exact absurd hw ht.2
        · simpa [hm'] using hor
      · intro m' hq'
        by_cases hm' : m' = m
        · subst hm'
          exact absurd hq hq'
        · simpa [hm'] using h.owned m' hq'
  | cons w q =>
      simp only [hq]
      constructor
      · intro u m' hw
        have hor := h.waiting u m' hw
        by_cases hm' : m' = m
        · subst hm'
          rcases hor with hin | ho
          · rw [hq] at hin
            rcases List.mem_cons.mp hin with rfl | hin
            · simp
            · simp [hin]
          · have hut : u = t := Option.some.inj (ho.symm.trans ht.1)
            subst hut
            exact absurd hw ht.2
        · simpa [hm'] using hor
      · intro m' hq'
        by_cases hm' : m' = m
        · subst hm'
          simp
        · simpa [hm'] using h.owned m' (by simpa [hm'] using hq')

/-! A thread gets involved in a mutex only by its own `chMtxLock`. -/

omit [DecidableEq T] in
/-- An initialisation involves nobody. -/
theorem involvedIn_chMtxObjectInit (h : (k.chMtxObjectInit m).InvolvedIn u m') :
    k.InvolvedIn u m' := by
  by_cases hm' : m' = m
  · subst hm'
    simp [InvolvedIn, Kernel.chMtxObjectInit] at h
  · simpa [InvolvedIn, Kernel.chMtxObjectInit, hm'] using h

/-- A lock involves its thread in its mutex, and nobody else. -/
theorem involvedIn_chMtxLockS (h : (k.chMtxLockS t m).InvolvedIn u m') :
    k.InvolvedIn u m' ∨ (u = t ∧ m' = m) := by
  unfold Kernel.chMtxLockS at h
  by_cases hm' : m' = m
  · subst hm'
    by_cases hu : u = t
    · exact .inr ⟨hu, rfl⟩
    · left
      split at h
      · exact .inr (by simpa [InvolvedIn, Ne.symm hu] using h)
      · simpa [InvolvedIn, hu] using h
  · left
    split at h <;> simpa [InvolvedIn, hm'] using h

omit [DecidableEq M] in
/-- The return from a lock involves nobody anew. -/
theorem involvedIn_chMtxResume (hk : k.chMtxResume t = some k') (h : k'.InvolvedIn u m) :
    k.InvolvedIn u m := by
  unfold Kernel.chMtxResume at hk
  split at hk
  · cases hk
    exact h
  · split at hk
    · cases hk
      exact h
    · cases hk

/-- The mutex is handed to a thread that was queued at it. -/
theorem involvedIn_chMtxUnlock (h : (k.chMtxUnlock t m).InvolvedIn u m') : k.InvolvedIn u m' := by
  unfold Kernel.chMtxUnlock at h
  cases hq : k.queue m with
  | nil =>
      simp only [InvolvedIn, hq] at h
      by_cases hm' : m' = m
      · subst hm'
        simp [hq] at h
      · simpa [InvolvedIn, hm'] using h
  | cons w q =>
      simp only [InvolvedIn, hq] at h
      by_cases hm' : m' = m
      · subst hm'
        refine .inr ?_
        rw [hq]
        rcases h with ho | hin
        · simp only [Function.update_self, Option.some.injEq] at ho
          subst ho
          exact List.mem_cons_self
        · exact List.mem_cons_of_mem w (by simpa using hin)
      · simpa [InvolvedIn, hm'] using h

omit [DecidableEq M] in
/-- A sleeping thread waits, over others, for an owner that is awake or can wake
up. -/
theorem Served.exists_awake {rank : M → Nat} {bound : Nat} (h : k.Served)
    (hord : k.Ordered rank) (hbound : ∀ m, rank m ≤ bound) (hw : k.wtmtx t = some m) :
    ∃ u m', k.owner m' = some u ∧ (k.chMtxResume u).isSome = true := by
  have key : ∀ n t m, rank m + n = bound → k.wtmtx t = some m →
      ∃ u m', k.owner m' = some u ∧ (k.chMtxResume u).isSome = true := by
    intro n
    induction n using Nat.strongRecOn with
    | ind n ih =>
        intro t m hn hw
        by_cases hq : t ∈ k.queue m
        · cases ho : k.owner m with
          | none => exact absurd ho (h.owned m (List.ne_nil_of_mem hq))
          | some u =>
              cases hu : k.wtmtx u with
              | none => exact ⟨u, m, ho, by simp [Kernel.chMtxResume, hu]⟩
              | some m' =>
                  by_cases hq' : u ∈ k.queue m'
                  · -- The owner is queued itself, at a mutex of greater rank.
                    have hlt := hord u m' hq' m ho
                    have hle := hbound m'
                    exact ih (bound - rank m') (by omega) u m' (by omega) hu
                  · have ho' := (h.waiting u m' hu).resolve_left hq'
                    exact ⟨u, m, ho, by simp [Kernel.chMtxResume, hu, ho', hq']⟩
        · have ho := (h.waiting t m hw).resolve_left hq
          exact ⟨t, m, ho, by simp [Kernel.chMtxResume, hw, ho, hq]⟩
  have hle := hbound m
  exact key (bound - rank m) t m (by omega) hw

end ChibiOS.Kernel
