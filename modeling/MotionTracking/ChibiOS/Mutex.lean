import Mathlib.Logic.Function.Basic
import Mathlib.Data.List.Nodup

/-!
# `MotionTracking.ChibiOS.Mutex`: the kernel's mutexes

The mutexes of `os/rt/src/chmtx.c`, built without
`CH_CFG_USE_MUTEXES_RECURSIVE` and with the debug assertions off, as
`cfg/chconf.h` has them. Threads `T` and mutexes `M` stay parameters.

* A free mutex is taken at once. A thread that asks for an owned one, also for
  one it owns itself, sleeps in the mutex's queue (`wtmtx`).
* `chMtxUnlock` hands the mutex over: the first thread of the queue becomes the
  owner, and the mutex goes on top of that thread's stack, before that thread
  runs again. `chMtxResume` is the point where it does.
* `chMtxUnlock` checks nothing. It sets the caller's stack to what lay below the
  mutex when it was taken, `mp->next`, whatever is on top of the stack now.

The queue is first in, first out. `ch_sch_prio_insert` orders waiters by
priority first, a difference that needs two waiters at one mutex.

`Kernel.view` is what one thread knows of the kernel whatever the others do:
whether it runs, its stack, and, for each mutex it holds, what lies below. The
`view_*_other` lemmas say that no operation of another thread changes it, the
`view_*_self` lemmas how an operation of its own does.
-/

set_option autoImplicit false

namespace ChibiOS

variable {T M : Type} [DecidableEq T] [DecidableEq M]

/-- The mutexes and the threads' mutex fields. -/
structure Kernel (T M : Type) where
  /-- `chMtxObjectInit` has run. -/
  inited : M → Bool
  owner : M → Option T
  queue : M → List T
  /-- `mp->next`: the owner's stack below the mutex. -/
  next : M → List M
  mtxlist : T → List M
  /-- `u.wtmtxp`: the mutex the thread sleeps at. -/
  wtmtx : T → Option M

namespace Kernel

/-- No owner and an empty queue. The owner's stack is not touched. -/
def chMtxObjectInit (m : M) (k : Kernel T M) : Kernel T M :=
  { k with
    inited := Function.update k.inited m true
    owner := Function.update k.owner m none
    queue := Function.update k.queue m [] }

/-- `chMtxLockS`, up to the point where the thread owns the mutex or sleeps. -/
def chMtxLockS (t : T) (m : M) (k : Kernel T M) : Kernel T M :=
  if k.owner m = none then
    { k with
      owner := Function.update k.owner m (some t)
      next := Function.update k.next m (k.mtxlist t)
      mtxlist := Function.update k.mtxlist t (m :: k.mtxlist t) }
  else
    { k with
      queue := Function.update k.queue m (k.queue m ++ [t])
      wtmtx := Function.update k.wtmtx t (some m) }

/-- The return from `chMtxLockS`: at once when the mutex was free, else when it
has been handed over. -/
def chMtxResume (t : T) (k : Kernel T M) : Option (Kernel T M) :=
  match k.wtmtx t with
  | none => some k
  | some m =>
      if k.owner m = some t ∧ t ∉ k.queue m then
        some { k with wtmtx := Function.update k.wtmtx t none }
      else none

/-- The mutex leaves the stack, and goes to the first thread in its queue or becomes free.
-/
def chMtxUnlock (t : T) (m : M) (k : Kernel T M) : Kernel T M :=
  let k := { k with mtxlist := Function.update k.mtxlist t (k.next m) }
  match k.queue m with
  | [] => { k with owner := Function.update k.owner m none }
  | u :: q =>
      { k with
        owner := Function.update k.owner m (some u)
        queue := Function.update k.queue m q
        next := Function.update k.next m (k.mtxlist u)
        mtxlist := Function.update k.mtxlist u (m :: k.mtxlist u) }

/-- What the mutex operations rely on and keep: a queued thread sleeps at that
mutex, once, and a mutex handed over is on top of its new owner's stack. -/
structure Wf (k : Kernel T M) : Prop where
  queued : ∀ m, ∀ t ∈ k.queue m, k.wtmtx t = some m
  nodup : ∀ m, (k.queue m).Nodup
  granted : ∀ t m, k.wtmtx t = some m → k.owner m = some t → t ∉ k.queue m →
    k.mtxlist t = m :: k.next m

/-! ### One thread's view -/

/-- Whether a thread runs, sleeps at a mutex, or sleeps at a mutex it owns. -/
inductive RunState (M : Type) where
  | running
  | waits (m : M)
  | stuck (m : M)

/-- A thread's view of the kernel. A mutex that was handed to the thread counts
from the moment the thread runs again. -/
@[ext]
structure View (M : Type) where
  run : RunState M
  stack : List M
  /-- For a held mutex, the stack below it. -/
  held : M → Option (List M)

/-- `t` owns `m` and does not sleep at it. -/
def Holds (t : T) (m : M) (k : Kernel T M) : Prop :=
  k.owner m = some t ∧ k.wtmtx t ≠ some m

/-- A thread holds a mutex or does not, as the two fields say. -/
instance (t : T) (m : M) (k : Kernel T M) : Decidable (k.Holds t m) :=
  inferInstanceAs (Decidable (_ ∧ _))

/-- `m` is neither free nor on its way to a thread that has not run since. -/
def Taken (m : M) (k : Kernel T M) : Prop :=
  ∃ t, k.owner m = some t ∧ (k.wtmtx t = some m → t ∈ k.queue m)

/-- The kernel as the thread sees it. A mutex that was handed over is not yet on the stack
it sees. -/
def view (t : T) (k : Kernel T M) : View M where
  run := match k.wtmtx t with
    | none => .running
    | some m => if k.owner m = some t ∧ t ∈ k.queue m then .stuck m else .waits m
  stack := match k.wtmtx t with
    | none => k.mtxlist t
    | some m => if k.owner m = some t ∧ t ∉ k.queue m then (k.mtxlist t).tail else k.mtxlist t
  held m := if k.owner m = some t ∧ k.wtmtx t ≠ some m then some (k.next m) else none

omit [DecidableEq T] [DecidableEq M] in
/-- At most one thread holds a mutex. -/
theorem Holds.unique {t u : T} {m : M} {k : Kernel T M} (ht : k.Holds t m)
    (hu : k.Holds u m) : t = u :=
  Option.some.inj (ht.1.symm.trans hu.1)

omit [DecidableEq T] [DecidableEq M] in
/-- A held mutex is taken. -/
theorem Holds.taken {t : T} {m : M} {k : Kernel T M} (h : k.Holds t m) : k.Taken m :=
  ⟨t, h.1, fun hw => absurd hw h.2⟩

/-- A thread runs when it sleeps at no mutex. -/
theorem view_run_eq_running {t : T} {k : Kernel T M} :
    (k.view t).run = .running ↔ k.wtmtx t = none := by
  cases h : k.wtmtx t with
  | none => simp [view, h]
  | some m =>
      simp only [view, h, reduceCtorEq, iff_false]
      split <;> simp

/-- The mutexes a thread sees as held are the ones it holds. -/
theorem view_held_isSome {t : T} {m : M} {k : Kernel T M} :
    ((k.view t).held m).isSome = true ↔ k.Holds t m := by
  simp [view, Holds]

/-- The view of a thread that has just taken `m`. -/
def View.lock (m : M) (v : View M) : View M where
  run := .running
  stack := m :: v.stack
  held := Function.update v.held m (some v.stack)

/-- The view of a thread that has just released `m`, with `L` below it. -/
def View.unlock (m : M) (L : List M) (v : View M) : View M where
  run := .running
  stack := L
  held := Function.update v.held m none

/-! ### `chMtxObjectInit` -/

omit [DecidableEq T] in
/-- An initialisation empties a queue, which queues nobody. -/
theorem Wf.chMtxObjectInit {k : Kernel T M} (h : k.Wf) (m : M) :
    (k.chMtxObjectInit m).Wf where
  queued m' t ht := by
    by_cases hm : m' = m
    · subst hm
      simp [Kernel.chMtxObjectInit] at ht
    · exact h.queued m' t (by simpa [Kernel.chMtxObjectInit, hm] using ht)
  nodup m' := by
    by_cases hm : m' = m
    · subst hm
      simp [Kernel.chMtxObjectInit]
    · simpa [Kernel.chMtxObjectInit, hm] using h.nodup m'
  granted t m' hw ho hq := by
    by_cases hm : m' = m
    · subst hm
      simp [Kernel.chMtxObjectInit] at ho
    · simp only [Kernel.chMtxObjectInit, Function.update_of_ne hm] at hw ho hq ⊢
      exact h.granted t m' hw ho hq

/-- Initialising a free mutex nobody waits for changes no view. -/
theorem view_chMtxObjectInit {k : Kernel T M} {m : M} (ho : k.owner m = none)
    (hq : k.queue m = []) (t : T) : (k.chMtxObjectInit m).view t = k.view t := by
  have hko : (k.chMtxObjectInit m).owner = k.owner := by
    simp [Kernel.chMtxObjectInit, ← ho]
  have hkq : (k.chMtxObjectInit m).queue = k.queue := by
    simp [Kernel.chMtxObjectInit, ← hq]
  simp only [view, hko, hkq]
  rfl

/-- Whatever its state, initialising a mutex takes it from a running thread. -/
theorem view_chMtxObjectInit_self {k : Kernel T M} {t : T} (hrun : k.wtmtx t = none)
    (m : M) : (k.chMtxObjectInit m).view t =
      { k.view t with held := Function.update (k.view t).held m none } := by
  ext1
  · simp [view, hrun, Kernel.chMtxObjectInit]
  · simp [view, hrun, Kernel.chMtxObjectInit]
  · funext m'
    by_cases hm : m' = m
    · subst hm
      simp [view, Kernel.chMtxObjectInit]
    · simp [view, Kernel.chMtxObjectInit, hm]

/-! ### `chMtxLock` -/

/-- A running thread takes the mutex or joins its queue, where it was not before. -/
theorem Wf.chMtxLockS {k : Kernel T M} (h : k.Wf) {t : T} (hrun : k.wtmtx t = none)
    (m : M) : (k.chMtxLockS t m).Wf := by
  have hnq : ∀ m', t ∉ k.queue m' := fun m' hm' => by simp [h.queued m' t hm'] at hrun
  by_cases hfree : k.owner m = none
  · simp only [Kernel.chMtxLockS, hfree, if_true]
    refine ⟨h.queued, h.nodup, fun u m' hw ho hq => ?_⟩
    have hut : u ≠ t := by
      rintro rfl
      exact absurd hw (by simp [hrun])
    have hm' : m' ≠ m := by
      rintro rfl
      simp [Ne.symm hut] at ho
    simp only [Function.update_of_ne hut, Function.update_of_ne hm'] at ho ⊢
    exact h.granted u m' hw ho hq
  · simp only [Kernel.chMtxLockS, hfree, if_false]
    refine ⟨fun m' u hu => ?_, fun m' => ?_, fun u m' hw ho hq => ?_⟩
    · dsimp only at hu ⊢
      by_cases hut : u = t
      · subst hut
        by_cases hm : m' = m
        · simp [hm]
        · exact absurd hu (by simpa [hm] using hnq m')
      · rw [Function.update_of_ne hut]
        by_cases hm : m' = m
        · subst hm
          exact h.queued m' u (by simpa [hut] using hu)
        · exact h.queued m' u (by simpa [hm] using hu)
    · by_cases hm : m' = m
      · subst hm
        simpa [List.nodup_append, h.nodup m'] using fun u hu => ne_of_mem_of_not_mem hu (hnq m')
      · simpa [hm] using h.nodup m'
    · dsimp only at hw ho hq ⊢
      by_cases hut : u = t
      · subst hut
        simp only [Function.update_self, Option.some.injEq] at hw
        subst hw
        simp at hq
      · rw [Function.update_of_ne hut] at hw
        refine h.granted u m' hw ho fun hq' => hq ?_
        by_cases hm : m' = m
        · subst hm
          simp [hq']
        · simpa [hm] using hq'

/-- A thread that asks for a mutex gets a free one. An owned one it waits for,
and it waits for its own for ever. -/
theorem view_chMtxLockS_self {k : Kernel T M} {t : T} (hrun : k.wtmtx t = none) (m : M) :
    (k.owner m = none ∧ (k.view t).held m = none ∧
      (k.chMtxLockS t m).view t = (k.view t).lock m) ∨
    ((k.view t).held m = none ∧
      (k.chMtxLockS t m).view t = { k.view t with run := .waits m }) ∨
    (k.owner m = some t ∧ (k.chMtxLockS t m).view t =
      { k.view t with run := .stuck m, held := Function.update (k.view t).held m none }) := by
  by_cases hfree : k.owner m = none
  · refine .inl ⟨hfree, by simp [view, hfree], ?_⟩
    simp only [Kernel.chMtxLockS, hfree, if_true]
    ext1
    · simp [view, View.lock, hrun]
    · simp [view, View.lock, hrun]
    · funext m'
      by_cases hm : m' = m
      · subst hm
        simp [view, View.lock, hrun]
      · simp [view, View.lock, hm]
  · simp only [Kernel.chMtxLockS, hfree, if_false]
    by_cases hown : k.owner m = some t
    · refine .inr (.inr ⟨hown, ?_⟩)
      ext1
      · simp [view, hown]
      · simp [view, hrun, hown]
      · funext m'
        by_cases hm : m' = m
        · subst hm
          simp [view]
        · simp [view, hrun, hm, Ne.symm hm]
    · refine .inr (.inl ⟨by simp [view, hown], ?_⟩)
      ext1
      · simp [view, hown]
      · simp [view, hrun, hown]
      · funext m'
        by_cases hm : m' = m
        · subst hm
          simp [view, hown]
        · simp [view, hrun, Ne.symm hm]

/-- A lock is invisible to the other threads. -/
theorem view_chMtxLockS_other {k : Kernel T M} {t u : T} (hut : u ≠ t) (m : M) :
    (k.chMtxLockS t m).view u = k.view u := by
  by_cases hfree : k.owner m = none
  · simp only [Kernel.chMtxLockS, hfree, if_true]
    have hown : ∀ m', Function.update k.owner m (some t) m' = some u ↔ k.owner m' = some u := by
      intro m'
      by_cases hm : m' = m
      · subst hm
        simp [hfree, Ne.symm hut]
      · simp [hm]
    ext1
    · simp [view, hown]
    · simp [view, hown, hut]
    · funext m'
      simp only [view, hown]
      by_cases hm : m' = m
      · subst hm
        simp [hfree]
      · simp [hm]
  · simp only [Kernel.chMtxLockS, hfree, if_false]
    have hmem : ∀ m', u ∈ Function.update k.queue m (k.queue m ++ [t]) m' ↔ u ∈ k.queue m' := by
      intro m'
      by_cases hm : m' = m
      · subst hm
        simp [hut]
      · simp [hm]
    simp only [view, hmem, Function.update_of_ne hut]

/-! ### The return from `chMtxLock` -/

omit [DecidableEq M] in
/-- A thread that runs again sleeps nowhere, and is in no queue. -/
theorem Wf.chMtxResume {k k' : Kernel T M} (h : k.Wf) {t : T}
    (hk : k.chMtxResume t = some k') : k'.Wf := by
  unfold Kernel.chMtxResume at hk
  split at hk
  · cases hk
    exact h
  · rename_i m hm
    split at hk
    · rename_i hgr
      cases hk
      refine ⟨fun m' u hu => ?_, h.nodup, fun u m' hw ho hq => ?_⟩
      · have hut : u ≠ t := by
          rintro rfl
          have := h.queued m' u hu
          rw [hm] at this
          cases this
          exact hgr.2 hu
        simpa [hut] using h.queued m' u hu
      · by_cases hut : u = t
        · subst hut
          simp at hw
        · exact h.granted u m' (by simpa [hut] using hw) ho hq
    · exact absurd hk (by simp)

/-- A thread that runs on has not slept, or has been handed the mutex. -/
theorem view_chMtxResume_self {k k' : Kernel T M} (h : k.Wf) {t : T}
    (hk : k.chMtxResume t = some k') :
    (k.wtmtx t = none ∧ k' = k) ∨
    ∃ m, (k.view t).run = .waits m ∧ k'.view t = (k.view t).lock m := by
  unfold Kernel.chMtxResume at hk
  split at hk
  · rename_i hw
    cases hk
    exact .inl ⟨hw, rfl⟩
  · rename_i m hw
    split at hk
    · rename_i hgr
      cases hk
      have hlist := h.granted t m hw hgr.1 hgr.2
      refine .inr ⟨m, by simp [view, hw, hgr.2], ?_⟩
      ext1
      · simp [view, View.lock]
      · simp [view, View.lock, hw, hgr, hlist]
      · funext m'
        by_cases hm : m' = m
        · subst hm
          simp [view, View.lock, hw, hgr, hlist]
        · simp [view, View.lock, hw, hm, Ne.symm hm]
    · exact absurd hk (by simp)

/-- The return from a lock is invisible to the other threads. -/
theorem view_chMtxResume_other {k k' : Kernel T M} {t u : T} (hut : u ≠ t)
    (hk : k.chMtxResume t = some k') : k'.view u = k.view u := by
  unfold Kernel.chMtxResume at hk
  split at hk
  · cases hk
    rfl
  · split at hk
    · cases hk
      simp [view, hut]
    · exact absurd hk (by simp)

/-! ### `chMtxUnlock` -/

/-- The thread that is handed the mutex is out of its queue, and has the mutex on top of
its stack. -/
theorem Wf.chMtxUnlock {k : Kernel T M} (h : k.Wf) {t : T} (hrun : k.wtmtx t = none)
    (m : M) : (k.chMtxUnlock t m).Wf := by
  have hwt : ∀ u m', k.wtmtx u = some m' → u ≠ t := by
    rintro u m' hu rfl
    simp [hrun] at hu
  cases hq : k.queue m with
  | nil =>
      simp only [Kernel.chMtxUnlock, hq]
      refine ⟨h.queued, h.nodup, fun u m' hw ho hnq => ?_⟩
      have hm' : m' ≠ m := by
        rintro rfl
        simp at ho
      simp only [Function.update_of_ne hm', Function.update_of_ne (hwt u m' hw)] at ho ⊢
      exact h.granted u m' hw ho hnq
  | cons w q =>
      have hw : k.wtmtx w = some m := h.queued m w (by simp [hq])
      have hnd : w ∉ q ∧ q.Nodup := by simpa [hq] using h.nodup m
      simp only [Kernel.chMtxUnlock, hq]
      refine ⟨fun m' u hu => ?_, fun m' => ?_, fun u m' hwu ho hnq => ?_⟩
      · by_cases hm : m' = m
        · subst hm
          exact h.queued m' u (by rw [hq]; exact List.mem_cons_of_mem _ (by simpa using hu))
        · exact h.queued m' u (by simpa [hm] using hu)
      · by_cases hm : m' = m
        · subst hm
          simpa using hnd.2
        · simpa [hm] using h.nodup m'
      · by_cases hm : m' = m
        · subst hm
          have huw : u = w := by simpa [eq_comm] using ho
          subst huw
          simp [Function.update_of_ne (hwt u m' hwu)]
        · have huw : u ≠ w := by
            rintro rfl
            exact hm (Option.some.inj (hwu.symm.trans hw))
          simp only [Function.update_of_ne hm, Function.update_of_ne huw,
            Function.update_of_ne (hwt u m' hwu)] at ho hnq ⊢
          exact h.granted u m' hwu ho hnq

/-- The thread that unlocks gets the stack recorded below the mutex, and holds the mutex
no more. -/
theorem view_chMtxUnlock_self {k : Kernel T M} (h : k.Wf) {t : T} {m : M} {L : List M}
    (hrun : k.wtmtx t = none) (hheld : (k.view t).held m = some L) :
    (k.chMtxUnlock t m).view t = (k.view t).unlock m L := by
  have hL : k.next m = L := by
    simp only [view] at hheld
    split at hheld
    · exact Option.some.inj hheld
    · cases hheld
  cases hq : k.queue m with
  | nil =>
      simp only [Kernel.chMtxUnlock, hq]
      ext1
      · simp [view, View.unlock, hrun]
      · simp [view, View.unlock, hrun, hL]
      · funext m'
        by_cases hm : m' = m
        · subst hm
          simp [view, View.unlock]
        · simp [view, View.unlock, hm]
  | cons w q =>
      have hwt : t ≠ w := by
        rintro rfl
        have := h.queued m t (by simp [hq])
        simp [hrun] at this
      simp only [Kernel.chMtxUnlock, hq]
      ext1
      · simp [view, View.unlock, hrun]
      · simp [view, View.unlock, hrun, hL, hwt]
      · funext m'
        by_cases hm : m' = m
        · subst hm
          simp [view, View.unlock, Ne.symm hwt]
        · simp [view, View.unlock, hm]

/-- An unlock by its owner is invisible to the other threads: the one that is handed the
mutex sees it when it runs. -/
theorem view_chMtxUnlock_other {k : Kernel T M} (h : k.Wf) {t u : T} {m : M}
    (hut : u ≠ t) (ht : k.Holds t m) : (k.chMtxUnlock t m).view u = k.view u := by
  have hown : k.owner m ≠ some u := by
    rw [ht.1]
    simpa using Ne.symm hut
  cases hq : k.queue m with
  | nil =>
      simp only [Kernel.chMtxUnlock, hq]
      have ho : ∀ m', Function.update k.owner m none m' = some u ↔ k.owner m' = some u := by
        intro m'
        by_cases hm : m' = m
        · subst hm
          simp [hown]
        · simp [hm]
      simp only [view, ho, Function.update_of_ne hut]
  | cons w q =>
      have hw : k.wtmtx w = some m := h.queued m w (by simp [hq])
      have hnd : w ∉ q := by
        have := h.nodup m
        rw [hq] at this
        exact (List.nodup_cons.mp this).1
      simp only [Kernel.chMtxUnlock, hq]
      by_cases huw : u = w
      · -- The mutex is handed to `u`, which sleeps on until it runs.
        subst huw
        ext1
        · simp [view, hw, hnd, hown]
        · simp [view, hw, hnd, hown, hut]
        · funext m'
          by_cases hm : m' = m
          · subst hm
            simp [view, hw]
          · simp [view, hm]
      · have ho : ∀ m', Function.update k.owner m (some w) m' = some u ↔ k.owner m' = some u := by
          intro m'
          by_cases hm : m' = m
          · subst hm
            simp [hown, Ne.symm huw]
          · simp [hm]
        have hmem : ∀ m', u ∈ Function.update k.queue m q m' ↔ u ∈ k.queue m' := by
          intro m'
          by_cases hm : m' = m
          · subst hm
            simp [hq, huw]
          · simp [hm]
        ext1
        · simp only [view, ho, hmem]
        · simp only [view, ho, hmem, Function.update_of_ne huw, Function.update_of_ne hut]
        · funext m'
          simp only [view, ho]
          by_cases hm : m' = m
          · subst hm
            simp [hown]
          · simp [hm]

/-! ### What keeps a mutex taken -/

omit [DecidableEq T] in
/-- Initialising another mutex leaves it taken. -/
theorem Taken.chMtxObjectInit {m m' : M} {k : Kernel T M} (h : k.Taken m) (hm : m ≠ m') :
    (k.chMtxObjectInit m').Taken m := by
  obtain ⟨u, ho, hq⟩ := h
  refine ⟨u, ?_, ?_⟩
  · simpa [Kernel.chMtxObjectInit, hm] using ho
  · simpa [Kernel.chMtxObjectInit, hm] using hq

/-- A lock of any mutex leaves it taken. -/
theorem Taken.chMtxLockS {m : M} {k : Kernel T M} (h : k.Taken m) {t : T}
    (hrun : k.wtmtx t = none) (m' : M) : (k.chMtxLockS t m').Taken m := by
  obtain ⟨u, ho, hq⟩ := h
  refine ⟨u, ?_⟩
  by_cases hfree : k.owner m' = none
  · have hm : m ≠ m' := by
      rintro rfl
      simp [ho] at hfree
    simpa [Kernel.chMtxLockS, hfree, hm] using ⟨ho, hq⟩
  · simp only [Kernel.chMtxLockS, hfree, if_false]
    refine ⟨ho, fun hw => ?_⟩
    by_cases hm : m = m'
    · subst hm
      by_cases hut : u = t
      · simp [hut]
      · simp [hq (by simpa [hut] using hw)]
    · have hut : u ≠ t := by
        rintro rfl
        simp [Ne.symm hm] at hw
      simpa [hm] using hq (by simpa [hut] using hw)

/-- The thread that locks a free mutex has it. -/
theorem taken_chMtxLockS {m : M} {k : Kernel T M} {t : T} (hfree : k.owner m = none)
    (hrun : k.wtmtx t = none) : (k.chMtxLockS t m).Taken m :=
  ⟨t, by simp [Kernel.chMtxLockS, hfree, hrun]⟩

omit [DecidableEq M] in
/-- The return from a lock leaves it taken. -/
theorem Taken.chMtxResume {m : M} {k k' : Kernel T M} (h : k.Taken m) {t : T}
    (hk : k.chMtxResume t = some k') : k'.Taken m := by
  unfold Kernel.chMtxResume at hk
  split at hk
  · cases hk
    exact h
  · split at hk
    · cases hk
      obtain ⟨u, ho, hq⟩ := h
      refine ⟨u, ho, fun hw => hq ?_⟩
      by_cases hut : u = t
      · simp [hut] at hw
      · simpa [hut] using hw
    · exact absurd hk (by simp)

/-- Unlocking another mutex leaves it taken. -/
theorem Taken.chMtxUnlock {m m' : M} {k : Kernel T M} (h : k.Taken m) (hm : m ≠ m') (t : T) :
    (k.chMtxUnlock t m').Taken m := by
  obtain ⟨u, ho, hq⟩ := h
  refine ⟨u, ?_⟩
  cases hqueue : k.queue m' with
  | nil => simpa [Kernel.chMtxUnlock, hqueue, hm] using ⟨ho, hq⟩
  | cons w q => simpa [Kernel.chMtxUnlock, hqueue, hm] using ⟨ho, hq⟩

/-- A mutex that a waiting thread can run on with is on its way to it. -/
theorem not_taken_of_chMtxResume {k k' : Kernel T M} {t : T} {m : M}
    (hk : k.chMtxResume t = some k') (hw : (k.view t).run = .waits m) :
    ¬k.Taken m ∧ k.owner m ≠ none := by
  unfold Kernel.chMtxResume at hk
  split at hk
  · rename_i hrun
    simp [view, hrun] at hw
  · rename_i m' hrun
    split at hk
    · rename_i hgr
      obtain rfl : m' = m := by simpa [view, hrun, hgr.2] using hw
      refine ⟨fun ⟨u, ho, hq⟩ => ?_, by simp [hgr.1]⟩
      obtain rfl : t = u := by simpa [hgr.1] using ho
      exact hgr.2 (hq hrun)
    · exact absurd hk (by simp)

/-- The owner of a mutex changes only where it is initialised, locked or
unlocked. -/
theorem owner_chMtxLockS_of_ne {m m' : M} (hm : m ≠ m') (t : T) (k : Kernel T M) :
    (k.chMtxLockS t m').owner m = k.owner m := by
  unfold Kernel.chMtxLockS
  split
  · simp [hm]
  · rfl

omit [DecidableEq M] in
/-- The return from a lock changes no owner. -/
theorem owner_chMtxResume {k k' : Kernel T M} {t : T} (hk : k.chMtxResume t = some k') :
    k'.owner = k.owner := by
  unfold Kernel.chMtxResume at hk
  split at hk
  · cases hk
    rfl
  · split at hk
    · cases hk
      rfl
    · exact absurd hk (by simp)

/-- An unlock changes the owner of its own mutex only. -/
theorem owner_chMtxUnlock_of_ne {m m' : M} (hm : m ≠ m') (t : T) (k : Kernel T M) :
    (k.chMtxUnlock t m').owner m = k.owner m := by
  unfold Kernel.chMtxUnlock
  simp only
  split <;> simp [hm]

/-! ### Which mutexes are in use, and which initialised -/

/-- The mutex is owned or waited for. -/
def Used (m : M) (k : Kernel T M) : Prop := k.owner m ≠ none ∨ k.queue m ≠ []

omit [DecidableEq T] [DecidableEq M] in
/-- A mutex is unused when it is free and nobody is queued at it. -/
theorem not_used {m : M} {k : Kernel T M} :
    ¬k.Used m ↔ k.owner m = none ∧ k.queue m = [] := by
  simp [Used]

/-- A lock brings its own mutex into use, and no other. -/
theorem used_chMtxLockS {m m' : M} {t : T} {k : Kernel T M}
    (h : (k.chMtxLockS t m').Used m) : k.Used m ∨ m = m' := by
  by_cases hm : m = m'
  · exact .inr hm
  · refine .inl ?_
    unfold Kernel.chMtxLockS at h
    split at h
    · simpa [Used, hm] using h
    · simpa [Used, hm] using h

omit [DecidableEq M] in
/-- The return from a lock brings none into use and takes none out of it. -/
theorem used_chMtxResume {m : M} {t : T} {k k' : Kernel T M}
    (hk : k.chMtxResume t = some k') : k'.Used m ↔ k.Used m := by
  unfold Kernel.chMtxResume at hk
  split at hk
  · cases hk
    exact Iff.rfl
  · split at hk
    · cases hk
      exact Iff.rfl
    · cases hk

/-- An unlock brings none into use. -/
theorem used_chMtxUnlock {m m' : M} {t : T} {k : Kernel T M}
    (h : (k.chMtxUnlock t m').Used m) : k.Used m := by
  by_cases hm : m = m'
  · subst hm
    cases hq : k.queue m with
    | nil => simp [Used, Kernel.chMtxUnlock, hq] at h
    | cons u q => exact .inr (by simp [hq])
  · unfold Kernel.chMtxUnlock at h
    simp only at h
    split at h
    · simpa [Used, hm] using h
    · simpa [Used, hm] using h

omit [DecidableEq T] in
/-- An initialisation brings none into use. -/
theorem used_chMtxObjectInit {m m' : M} {k : Kernel T M}
    (h : (k.chMtxObjectInit m').Used m) : k.Used m := by
  by_cases hm : m = m'
  · subst hm
    simp [Used, Kernel.chMtxObjectInit] at h
  · simpa [Used, Kernel.chMtxObjectInit, hm] using h

/-- A lock initialises nothing. -/
theorem inited_chMtxLockS (t : T) (m : M) (k : Kernel T M) :
    (k.chMtxLockS t m).inited = k.inited := by
  unfold Kernel.chMtxLockS
  split <;> rfl

omit [DecidableEq M] in
/-- The return from a lock initialises nothing. -/
theorem inited_chMtxResume {t : T} {k k' : Kernel T M}
    (hk : k.chMtxResume t = some k') : k'.inited = k.inited := by
  unfold Kernel.chMtxResume at hk
  split at hk
  · cases hk
    rfl
  · split at hk
    · cases hk
      rfl
    · cases hk

/-- An unlock initialises nothing. -/
theorem inited_chMtxUnlock (t : T) (m : M) (k : Kernel T M) :
    (k.chMtxUnlock t m).inited = k.inited := by
  unfold Kernel.chMtxUnlock
  simp only
  split <;> rfl

end Kernel

end ChibiOS
