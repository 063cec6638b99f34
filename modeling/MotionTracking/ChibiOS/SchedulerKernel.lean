import Mathlib.Data.Fintype.Basic
import MotionTracking.ChibiOS.Mutex
import MotionTracking.ChibiOS.PriorityInheritance

/-!
# `MotionTracking.ChibiOS.SchedulerKernel`: the scheduler does what the kernel says

`Kernel` has the mutexes without priorities, and lets any thread act at any time. A move
of the scheduler is a short sequence of its operations: those of the running thread
(`ops`), then the return from `chMtxLock` of the thread that runs next, in case it has
been handed a mutex. `traced_refines` says so of whole runs. The states agree in the
owners, the queues and the stacks, and in who waits for what (`Refines`).

A queue of `Kernel` is first in, first out. The scheduler's is so as long as it holds one
thread, so the runs are those in which no two threads wait for the same mutex.
-/

set_option autoImplicit false

namespace ChibiOS

open Threads (insertBehind insertBehind_nil perm_insertBehind)

variable {T M : Type} [DecidableEq T] [DecidableEq M]

namespace Kernel

/-- What a thread does to a mutex. -/
inductive Op (T M : Type) where
  | chMtxLock (t : T) (m : M)
  | chMtxResume (t : T)
  | chMtxUnlock (t : T) (m : M)

/-- One operation of the FIFO kernel. -/
def exec : Op T M → Kernel T M → Option (Kernel T M)
  | .chMtxLock t m, k => some (k.chMtxLockS t m)
  | .chMtxResume t, k => k.chMtxResume t
  | .chMtxUnlock t m, k => some (k.chMtxUnlock t m)

/-- The operations one after the other. -/
def execAll : List (Op T M) → Kernel T M → Option (Kernel T M)
  | [], k => some k
  | o :: os, k => (exec o k).bind (execAll os)

/-- All mutexes initialised and free. -/
def fresh : Kernel T M where
  inited _ := true
  owner _ := none
  queue _ := []
  next _ := []
  mtxlist _ := []
  wtmtx _ := none

/-- Operations can be cut at any point. -/
theorem execAll_append (os os' : List (Op T M)) (k : Kernel T M) :
    execAll (os ++ os') k = (execAll os k).bind (execAll os') := by
  induction os generalizing k with
  | nil => rfl
  | cons o os ih =>
      simp only [List.cons_append, execAll]
      cases exec o k with
      | none => rfl
      | some k' => exact ih k'

end Kernel

namespace Scheduler

/-- The operations of the running thread in a move. -/
def ops (s : Scheduler T M) : SchMove T M → List (Kernel.Op T M)
  | .chMtxLock mp => [.chMtxLock s.current mp]
  | .chMtxTryLock mp => if s.owner mp = none then [.chMtxLock s.current mp] else []
  | .chMtxUnlock mp => [.chMtxUnlock s.current mp]
  | .chMtxUnlockAll => (s.mtxlist s.current).map (.chMtxUnlock s.current)
  | _ => []

/-- No two threads wait for the same mutex. -/
def Narrow (s : Scheduler T M) : Prop := ∀ mp, (s.queue mp).length ≤ 1

/-- Over finitely many mutexes the queues can be looked through. -/
instance [Fintype M] (s : Scheduler T M) : Decidable s.Narrow :=
  inferInstanceAs (Decidable (∀ mp, (s.queue mp).length ≤ 1))

/-- A run of proper moves through narrow states, and its mutex operations. -/
inductive Traced [Fintype T] (s : Scheduler T M) : List (Kernel.Op T M) → Scheduler T M → Prop where
  | refl : Traced s [] s
  | step {s' s'' : Scheduler T M} {os : List (Kernel.Op T M)} (h : Traced s os s')
      (mv : SchMove T M) (proper : s'.Proper mv) (hstep : s'.step mv = some s'')
      (narrow : s''.Narrow) : Traced s (os ++ (s'.ops mv ++ [.chMtxResume s''.current])) s''

/-- The mutexes agree. A thread that the kernel has at a mutex waits for it, or has been
handed it and has not gone on since. -/
structure Agrees (s : Scheduler T M) (k : Kernel T M) : Prop where
  owner : k.owner = s.owner
  queue : k.queue = s.queue
  next : k.next = s.next
  mtxlist : k.mtxlist = s.mtxlist
  waiting : ∀ t mp, s.state t = .CH_STATE_WTMTX mp → k.wtmtx t = some mp
  wtmtx : ∀ t mp, k.wtmtx t = some mp → s.state t = .CH_STATE_WTMTX mp ∨
    (s.state t = .CH_STATE_READY ∨ s.state t = .CH_STATE_CURRENT) ∧
      s.owner mp = some t ∧ t ∉ s.queue mp

/-- The running thread has gone on. -/
structure Refines (s : Scheduler T M) (k : Kernel T M) : Prop extends Agrees s k where
  running : k.wtmtx s.current = none

variable {s s' : Scheduler T M} {k : Kernel T M} {mp : M} {t : T}

/-! ### Switching threads -/

omit [DecidableEq M] in
/-- The thread that runs next returns from `chMtxLock`, if it was in there. -/
theorem Agrees.resume (h : Agrees s k) (hcurrent : s.state s.current = .CH_STATE_CURRENT) :
    ∃ k', k.chMtxResume s.current = some k' ∧ Refines s k' := by
  unfold Kernel.chMtxResume
  cases hw : k.wtmtx s.current with
  | none => exact ⟨k, rfl, h, hw⟩
  | some mp =>
      -- A running thread waits no more, so the mutex is its own by now.
      have hgranted : s.owner mp = some s.current ∧ s.current ∉ s.queue mp := by
        rcases h.wtmtx _ mp hw with hwait | ⟨-, hgranted⟩
        · rw [hcurrent] at hwait
          cases hwait
        · exact hgranted
      simp only [h.owner, h.queue, if_pos hgranted]
      refine ⟨_, rfl, ⟨rfl, rfl, h.next, h.mtxlist, fun t m ht => ?_, fun t m ht => ?_⟩,
        Function.update_self ..⟩
      · -- The other threads' waits are as they were.
        have hne : t ≠ s.current := by
          rintro rfl
          rw [hcurrent] at ht
          cases ht
        exact (Function.update_of_ne hne ..).trans (h.waiting t m ht)
      · have hne : t ≠ s.current := by
          rintro rfl
          simp at ht
        exact h.wtmtx t m ((Function.update_of_ne hne ..).symm.trans ht)

omit [DecidableEq T] [DecidableEq M] in
/-- A move that does nothing to the mutexes. Nobody goes to wait, and a thread that goes
to sleep has returned from `chMtxLock`. -/
theorem Agrees.congr (h : Agrees s k) (howner : s'.owner = s.owner) (hqueue : s'.queue = s.queue)
    (hnext : s'.next = s.next) (hmtxlist : s'.mtxlist = s.mtxlist)
    (hstate : ∀ t, s'.state t = s.state t ∨ (∀ mp, s.state t ≠ .CH_STATE_WTMTX mp) ∧
      (s'.state t = .CH_STATE_READY ∨ s'.state t = .CH_STATE_CURRENT ∨
        s'.state t = .asleep ∧ k.wtmtx t = none)) : Agrees s' k := by
  refine ⟨h.owner.trans howner.symm, h.queue.trans hqueue.symm, h.next.trans hnext.symm,
    h.mtxlist.trans hmtxlist.symm, fun t mp ht => ?_, fun t mp ht => ?_⟩
  · -- A thread that waits now has waited before: the other new states are no waits.
    rcases hstate t with hsame | ⟨-, hready | hcurrent | ⟨hasleep, -⟩⟩
    · exact h.waiting t mp (hsame ▸ ht)
    · rw [hready] at ht
      cases ht
    · rw [hcurrent] at ht
      cases ht
    · rw [hasleep] at ht
      cases ht
  · rw [howner, hqueue]
    rcases hstate t with hsame | ⟨hnot, hnew⟩
    · rw [hsame]
      exact h.wtmtx t mp ht
    · rcases h.wtmtx t mp ht with hwait | ⟨-, hgranted⟩
      · exact absurd hwait (hnot mp)
      · rcases hnew with hready | hcurrent | ⟨-, hnone⟩
        · exact .inr ⟨.inl hready, hgranted⟩
        · exact .inr ⟨.inr hcurrent, hgranted⟩
        · rw [hnone] at ht
          cases ht

omit [DecidableEq M] in
/-- Switching threads touches no mutex. -/
theorem Agrees.chSchRescheduleS (h : Agrees s k) (hshape : s.Shape) :
    Agrees s.chSchRescheduleS k := by
  unfold Scheduler.chSchRescheduleS rescheduleAhead
  split
  · split
    · exact h
    · rename_i t l hl
      have ht : s.state t = .CH_STATE_READY := (hshape.ready t).mp (hl ▸ List.mem_cons_self ..)
      refine h.congr rfl rfl rfl rfl fun u => ?_
      by_cases huc : u = s.current
      · exact .inr ⟨by simp [huc, hshape.state_current], .inl (by simp [readyAhead, huc])⟩
      · by_cases hut : u = t
        · exact .inr ⟨by simp [hut, ht],
            .inr (.inl (by simp [readyAhead, switchTo, hut, (hshape.first_ne hl).symm]))⟩
        · exact .inl (by simp [readyAhead, switchTo, huc, hut])
  · exact h

omit [DecidableEq M] in
/-- Switching threads touches no mutex. -/
theorem Agrees.rescheduleBehind (h : Agrees s k) (hshape : s.Shape) :
    Agrees s.rescheduleBehind k := by
  unfold Scheduler.rescheduleBehind
  split
  · exact h
  · rename_i t l hl
    have ht : s.state t = .CH_STATE_READY := (hshape.ready t).mp (hl ▸ List.mem_cons_self ..)
    refine h.congr rfl rfl rfl rfl fun u => ?_
    by_cases huc : u = s.current
    · exact .inr ⟨by simp [huc, hshape.state_current], .inl (by simp [readyBehind, huc])⟩
    · by_cases hut : u = t
      · exact .inr ⟨by simp [hut, ht],
          .inr (.inl (by simp [readyBehind, switchTo, hut, (hshape.first_ne hl).symm]))⟩
      · exact .inl (by simp [readyBehind, switchTo, huc, hut])

omit [DecidableEq M] in
/-- The running thread sleeps, at no mutex, and another runs. -/
theorem Refines.chSchGoSleepS (h : Refines s k) (hshape : s.Shape)
    (hsleep : s.chSchGoSleepS .asleep = some s') : Agrees s' k := by
  obtain ⟨t, l, hl, rfl⟩ := chSchGoSleepS_eq_some hsleep
  have ht : s.state t = .CH_STATE_READY := (hshape.ready t).mp (hl ▸ List.mem_cons_self ..)
  refine h.toAgrees.congr rfl rfl rfl rfl fun u => ?_
  by_cases hut : u = t
  · exact .inr ⟨by simp [hut, ht], .inr (.inl (by simp [switchTo, hut]))⟩
  · by_cases huc : u = s.current
    · refine .inr ⟨by simp [huc, hshape.state_current], .inr (.inr ⟨?_, huc ▸ h.running⟩)⟩
      simp [switchTo, setState, huc, huc ▸ hut]
    · exact .inl (by simp [switchTo, setState, hut, huc])

omit [DecidableEq M] in
/-- A thread that wakes up slept at no mutex. -/
theorem Agrees.readyBehind (h : Agrees s k) (ht : s.state t = .asleep) :
    Agrees (s.readyBehind t) k := by
  refine h.congr rfl rfl rfl rfl fun u => ?_
  by_cases hut : u = t
  · exact .inr ⟨by simp [hut, ht], .inl (by simp [Scheduler.readyBehind, hut])⟩
  · exact .inl (by simp [Scheduler.readyBehind, hut])

omit [DecidableEq M] in
/-- The same when the woken thread runs at once. -/
theorem Agrees.chSchWakeupS (h : Agrees s k) (hshape : s.Shape) (ht : s.state t = .asleep) :
    Agrees (s.chSchWakeupS t) k := by
  unfold Scheduler.chSchWakeupS
  split
  · exact h.readyBehind ht
  · refine h.congr rfl rfl rfl rfl fun u => ?_
    by_cases hut : u = t
    · exact .inr ⟨by simp [hut, ht], .inr (.inl (by simp [switchTo, hut]))⟩
    · by_cases huc : u = s.current
      · refine .inr ⟨by simp [huc, hshape.state_current], .inl ?_⟩
        simp [switchTo, readyAhead, huc, huc ▸ hut]
      · exact .inl (by simp [switchTo, readyAhead, hut, huc])

/-- The threads an interrupt wakes slept at no mutex, by induction on their list. -/
theorem Agrees.interrupt (h : Agrees s k) (hshape : s.Shape) (tps : List T) :
    Agrees (s.interrupt tps) k := by
  unfold Scheduler.interrupt
  induction tps generalizing s with
  | nil => exact h.chSchRescheduleS hshape
  | cons t tps ih =>
      rw [List.foldl_cons]
      by_cases ht : s.state t = .asleep
      · rw [if_pos ht]
        exact ih (h.readyBehind ht) (hshape.readyBehind ht)
      · rw [if_neg ht]
        exact ih h hshape

/-! ### The mutexes -/

/-- A free mutex is taken the same way on both sides. -/
theorem Agrees.take (h : Agrees s k) (hfree : s.owner mp = none) :
    Agrees (s.take mp) (k.chMtxLockS s.current mp) := by
  have hk : k.owner mp = none := by rw [h.owner, hfree]
  unfold Kernel.chMtxLockS
  rw [if_pos hk]
  refine ⟨?_, h.queue, ?_, ?_, h.waiting, fun t m ht => ?_⟩
  · simp [Scheduler.take, h.owner]
  · simp [Scheduler.take, h.next, h.mtxlist]
  · simp [Scheduler.take, h.mtxlist]
  · -- A mutex granted to somebody is not the free one.
    rcases h.wtmtx t m ht with hwait | ⟨hstate, howner, hout⟩
    · exact .inl hwait
    · have hne : m ≠ mp := by
        rintro rfl
        rw [hfree] at howner
        cases howner
      exact .inr ⟨hstate, (Function.update_of_ne hne ..).trans howner, hout⟩

/-- In a queue of one thread there is nothing to reorder. -/
theorem Lists.queue_boost (h : s.Lists) (hnarrow : s.Narrow) (p : TPrio) (n : Nat) (t : T) :
    (s.boost p n t).queue = s.queue := by
  induction n generalizing s t with
  | zero => rfl
  | succ n ih =>
      rw [Scheduler.boost]
      by_cases hlow : s.prio t < p
      · simp only [if_pos hlow]
        cases hstate : s.state t with
        | CH_STATE_WTMTX mp =>
            have hmem : t ∈ s.queue mp := (h.waiting t mp).mpr hstate
            -- `t` is in this queue, which holds one thread at most.
            have hone : s.queue mp = [t] := by
              obtain ⟨u, hu⟩ := List.length_eq_one_iff.mp
                (le_antisymm (hnarrow mp) (List.length_pos_of_mem hmem))
              rw [hu, List.mem_singleton] at hmem
              rw [hu, hmem]
            -- So taking it out and putting it back by its priority leaves the queue.
            have hsame : Function.update s.queue mp
                (insertBehind (Function.update s.prio t p) t ((s.queue mp).erase t)) = s.queue := by
              rw [hone, List.erase_cons_head, insertBehind_nil, ← hone, Function.update_eq_self]
            have hlists := h.requeue hstate p
            cases howner : s.owner mp with
            | none =>
                simp only [howner]
                exact hsame
            | some u =>
                simp only [howner]
                refine (ih hlists (fun m => ?_) u).trans hsame
                simp only [hsame]
                exact hnarrow m
        | CH_STATE_READY => rfl
        | CH_STATE_CURRENT => rfl
        | asleep => rfl
      · rw [if_neg hlow]

/-- In a narrow state the queue was empty, so sorted and FIFO queues agree on the one
thread that joins it. -/
theorem Refines.waitOn [Fintype T] (h : Refines s k) (hranked : s.Ranked) (hnarrow : s.Narrow)
    (hnarrow' : s'.Narrow) {u : T} (howner : s.owner mp = some u)
    (hlock : s.chMtxLockS mp = some s') : Agrees s' (k.chMtxLockS s.current mp) := by
  unfold Scheduler.chMtxLockS at hlock
  simp only [howner] at hlock
  obtain ⟨hlists, hsame, -⟩ := hranked.toLists.boost (s.prio s.current) (Fintype.card T) u
  have hqueue := hranked.toLists.queue_boost hnarrow (s.prio s.current) (Fintype.card T) u
  generalize s.boost (s.prio s.current) (Fintype.card T) u = s₁ at hlock hlists hsame hqueue
  obtain ⟨t, l, hl, rfl⟩ := chSchGoSleepS_eq_some hlock
  have hl : s₁.rlist = t :: l := hl
  have ht : s.state t = .CH_STATE_READY := by
    rw [← hsame.state]
    exact (hlists.ready t).mp (hl ▸ List.mem_cons_self ..)
  have hne : t ≠ s.current := by
    rintro rfl
    rw [hranked.state_current] at ht
    cases ht
  -- The mutex had no waiting thread.
  have hempty : s.queue mp = [] := by
    have hlen := hnarrow' mp
    have hins : (insertBehind s₁.prio s₁.current (s₁.queue mp)).length =
        (s₁.queue mp).length + 1 := perm_insertBehind.length_eq
    simp only [switchTo, setState, Function.update_self] at hlen
    rw [hins, hqueue] at hlen
    exact List.length_eq_zero_iff.mp (by omega)
  have hins : insertBehind s₁.prio s₁.current (s₁.queue mp) = [s.current] := by
    rw [hqueue, hempty, insertBehind_nil, hsame.current]
  unfold Kernel.chMtxLockS
  rw [if_neg (by simp [h.owner, howner])]
  refine ⟨?_, ?_, ?_, ?_, fun v m hv => ?_, fun v m hv => ?_⟩
  · exact h.owner.trans hsame.owner.symm
  · show Function.update k.queue mp (k.queue mp ++ [s.current]) = Function.update s₁.queue mp
      (insertBehind s₁.prio s₁.current (s₁.queue mp))
    rw [hins, h.queue, hempty, hqueue]
    rfl
  · exact h.next.trans hsame.next.symm
  · exact h.mtxlist.trans hsame.mtxlist.symm
  · -- Who waits in the new state: the caller, and those who did.
    have hv : Function.update (Function.update s₁.state s₁.current _) t _ v = _ := hv
    rw [hsame.state, hsame.current] at hv
    show Function.update k.wtmtx s.current (some mp) v = some m
    by_cases hvt : v = t
    · simp [hvt] at hv
    · by_cases hvc : v = s.current
      · rw [Function.update_of_ne hvt, hvc, Function.update_self] at hv
        rw [hvc, Function.update_self, TState.CH_STATE_WTMTX.inj hv]
      · rw [Function.update_of_ne hvt, Function.update_of_ne hvc] at hv
        rw [Function.update_of_ne hvc]
        exact h.waiting v m hv
  · -- Who is inside `chMtxLock`: the caller, which waits, and those who were.
    have hv : Function.update k.wtmtx s.current (some mp) v = some m := hv
    show Function.update (Function.update s₁.state s₁.current _) t _ v = _ ∨
      (Function.update (Function.update s₁.state s₁.current _) t _ v = _ ∨
        Function.update (Function.update s₁.state s₁.current _) t _ v = _) ∧
      s₁.owner m = some v ∧ v ∉ Function.update s₁.queue mp
        (insertBehind s₁.prio s₁.current (s₁.queue mp)) m
    rw [hins, hsame.state, hsame.current, hsame.owner]
    by_cases hvc : v = s.current
    · rw [hvc, Function.update_self] at hv
      cases hv
      exact .inl (by rw [hvc, Function.update_of_ne hne.symm, Function.update_self])
    · rw [Function.update_of_ne hvc] at hv
      rcases h.wtmtx v m hv with hwait | ⟨hstate, hgranted, hout⟩
      · have hvt : v ≠ t := by
          rintro rfl
          rw [ht] at hwait
          cases hwait
        exact .inl (by rw [Function.update_of_ne hvt, Function.update_of_ne hvc, hwait])
      · refine .inr ⟨?_, hgranted, ?_⟩
        · by_cases hvt : v = t
          · exact .inr (by rw [hvt, Function.update_self])
          · rw [Function.update_of_ne hvt, Function.update_of_ne hvc]
            exact hstate
        · by_cases hm : m = mp
          · simp [hm, hvc]
          · rw [Function.update_of_ne hm, hqueue]
            exact hout

/-- The first thread in the queue is the only one there, so both sides hand the mutex to
the same thread. -/
theorem Refines.release (h : Refines s k) (hshape : s.Shape) {l : List M}
    (hstack : s.mtxlist s.current = mp :: l) :
    Refines (s.release mp) (k.chMtxUnlock s.current mp) := by
  have hnext : k.next mp = l := by rw [h.next, hshape.toLists.next_top hstack]
  have hown : s.owner mp = some s.current :=
    (hshape.owned _ mp).mpr (hstack ▸ List.mem_cons_self ..)
  -- Another thread's mutex is not the one that changes hands.
  have hother : ∀ t m, k.wtmtx t = some m → s.owner m = some t → m ≠ mp := by
    rintro t m ht howner rfl
    cases hown.symm.trans howner
    rw [h.running] at ht
    cases ht
  unfold Kernel.chMtxUnlock
  cases hqueue : s.queue mp with
  | nil =>
      rw [release_of_nil hshape.toLists hstack hqueue]
      simp only [h.queue, hqueue, hnext]
      refine ⟨⟨by rw [h.owner], rfl, h.next, by rw [h.mtxlist], h.waiting, fun t m ht => ?_⟩,
        h.running⟩
      refine (h.wtmtx t m ht).imp_right fun ⟨hstate, howner, hout⟩ => ⟨hstate, ?_, hout⟩
      exact (Function.update_of_ne (hother t m ht howner) ..).trans howner
  | cons u q =>
      have hu : s.state u = .CH_STATE_WTMTX mp :=
        (hshape.waiting u mp).mp (hqueue ▸ List.mem_cons_self ..)
      have hout : u ∉ q := (List.nodup_cons.mp (hqueue ▸ hshape.nodupQueue mp)).1
      rw [release_of_cons hshape.toLists hstack hqueue]
      simp only [h.queue, hqueue, hnext, h.mtxlist]
      refine ⟨⟨by rw [h.owner]; rfl, rfl, by rw [h.next]; rfl, rfl, fun t m ht => ?_,
        fun t m ht => ?_⟩, h.running⟩
      · have ht : Function.update s.state u _ t = _ := ht
        by_cases htu : t = u
        · simp [htu] at ht
        · exact h.waiting t m ((Function.update_of_ne htu ..).symm.trans ht)
      · show Function.update s.state u _ t = _ ∨ (Function.update s.state u _ t = _ ∨
          Function.update s.state u _ t = _) ∧ Function.update s.owner mp (some u) m = some t ∧
          t ∉ Function.update s.queue mp q m
        by_cases htu : t = u
        · -- The thread that has been handed the mutex.
          subst htu
          have hm : mp = m := Option.some.inj ((h.waiting t mp hu).symm.trans ht)
          subst hm
          rw [Function.update_self, Function.update_self, Function.update_self]
          exact .inr ⟨.inl rfl, rfl, hout⟩
        · rw [Function.update_of_ne htu]
          refine (h.wtmtx t m ht).imp_right fun ⟨hstate, howner, hnot⟩ => ⟨hstate, ?_, ?_⟩
          · rw [Function.update_of_ne (hother t m ht howner), howner]
          · rwa [Function.update_of_ne (hother t m ht howner)]

/-- The loop of `chMtxUnlockAllS` is one unlock for each mutex of the stack, by induction
on its fuel. -/
theorem Refines.releaseAll (n : Nat) (h : Refines s k) (hshape : s.Shape)
    (hn : (s.mtxlist s.current).length ≤ n) :
    ∃ k', Kernel.execAll ((s.mtxlist s.current).map (.chMtxUnlock s.current)) k = some k' ∧
      Refines (s.releaseAll n) k' := by
  induction n generalizing s k with
  | zero =>
      rw [List.length_eq_zero_iff.mp (Nat.le_zero.mp hn)]
      exact ⟨k, rfl, h⟩
  | succ n ih =>
      rw [Scheduler.releaseAll]
      cases hstack : s.mtxlist s.current with
      | nil => exact ⟨k, rfl, h⟩
      | cons mp l =>
          obtain ⟨hshape', hcurrent, hmtxlist⟩ := hshape.release hstack
          have hl : ((s.release mp).mtxlist (s.release mp).current).length ≤ n := by
            rw [hcurrent, hmtxlist]
            rw [hstack, List.length_cons] at hn
            omega
          obtain ⟨k', hk', hrefines⟩ := ih (h.release hshape hstack) hshape' hl
          rw [hcurrent, hmtxlist] at hk'
          exact ⟨k', hk', hrefines⟩

omit [DecidableEq T] [DecidableEq M] in
/-- The priorities do not matter to the kernel. -/
theorem Agrees.setPrio (h : Agrees s k) (prio realprio : T → TPrio) :
    Agrees { s with prio := prio, realprio := realprio } k :=
  h.congr rfl rfl rfl rfl fun _ => .inl rfl

/-! ### Runs -/

variable [Fintype T]

/-- The operations of the running thread. -/
theorem Refines.ops (h : Refines s k) (hranked : s.Ranked) (hnarrow : s.Narrow)
    {mv : SchMove T M} (hproper : s.Proper mv) (hstep : s.step mv = some s')
    (hnarrow' : s'.Narrow) :
    ∃ k', Kernel.execAll (s.ops mv) k = some k' ∧ Agrees s' k' := by
  cases mv with
  | chMtxLock mp =>
      refine ⟨_, rfl, ?_⟩
      cases howner : s.owner mp with
      | none =>
          simp only [Scheduler.step, chMtxLockS, howner] at hstep
          cases hstep
          exact h.toAgrees.take howner
      | some u => exact h.waitOn hranked hnarrow hnarrow' howner hstep
  | chMtxTryLock mp =>
      cases hstep
      cases howner : s.owner mp with
      | none =>
          simp only [Scheduler.ops, chMtxTryLockS, howner, if_pos]
          exact ⟨_, rfl, h.toAgrees.take howner⟩
      | some u =>
          simp only [Scheduler.ops, chMtxTryLockS, howner, reduceCtorEq, if_false]
          exact ⟨k, rfl, h.toAgrees⟩
  | chMtxUnlock mp =>
      cases hstep
      -- Properly, the mutex on top of the stack is the one to unlock.
      obtain ⟨l, hstack⟩ := hproper
      refine ⟨_, rfl, ?_⟩
      unfold Scheduler.chMtxUnlock
      cases hqueue : s.queue mp with
      | nil => exact (h.release hranked.toShape hstack).toAgrees
      | cons u q =>
          have hshape : Shape { s with
              prio := Function.update s.prio s.current (s.newprio s.current (s.next mp)) } :=
            ⟨hranked.toLists.setPrio hranked.unlisted_current _, hranked.current⟩
          -- The new priority is written first, and the kernel does not see it.
          have hprio : Refines { s with
              prio := Function.update s.prio s.current (s.newprio s.current (s.next mp)) } k :=
            ⟨h.toAgrees.setPrio _ _, h.running⟩
          exact (hprio.release hshape hstack).toAgrees.chSchRescheduleS (hshape.release hstack).1
  | chMtxUnlockAll =>
      cases hstep
      obtain ⟨k', hk', hrefines⟩ := h.releaseAll _ hranked.toShape le_rfl
      refine ⟨k', hk', ?_⟩
      obtain ⟨hshape, -, -⟩ := hranked.toShape.releaseAll _ ⟨_, hranked.inherited_self⟩ le_rfl
      unfold chMtxUnlockAllS
      split
      · rename_i hempty
        rw [hempty] at hk'
        cases hk'
        exact h.toAgrees
      · exact (hrefines.toAgrees.setPrio _ _).chSchRescheduleS
          ⟨hshape.toLists.setPrio hshape.unlisted_current _, hshape.current⟩
  | chThdSetPriority newprio =>
      cases hstep
      refine ⟨k, rfl, ?_⟩
      unfold Scheduler.chThdSetPriority
      by_cases hset : s.prio s.current = s.realprio s.current ∨ newprio > s.prio s.current
      · simp only [if_pos hset]
        exact (h.toAgrees.setPrio _ _).chSchRescheduleS (hranked.toShape.setPriority _ _)
      · simp only [if_neg hset]
        exact (h.toAgrees.setPrio _ _).chSchRescheduleS ⟨{ hranked.toLists with }, hranked.current⟩
  | chThdYield =>
      cases hstep
      refine ⟨k, rfl, ?_⟩
      unfold Scheduler.chSchDoYieldS
      split
      · exact h.toAgrees.rescheduleBehind hranked.toShape
      · exact h.toAgrees
  | sleep => exact ⟨k, rfl, h.chSchGoSleepS hranked.toShape hstep⟩
  | wakeup tp =>
      simp only [Scheduler.step] at hstep
      split at hstep
      · rename_i hasleep
        cases hstep
        exact ⟨k, rfl, h.toAgrees.chSchWakeupS hranked.toShape hasleep⟩
      · cases hstep
  | interrupt tps =>
      cases hstep
      exact ⟨k, rfl, h.toAgrees.interrupt hranked.toShape tps⟩

/-- One move. -/
theorem Refines.step (h : Refines s k) (hranked : s.Ranked) (hnarrow : s.Narrow)
    {mv : SchMove T M} (hproper : s.Proper mv) (hstep : s.step mv = some s')
    (hnarrow' : s'.Narrow) :
    ∃ k', Kernel.execAll (s.ops mv ++ [.chMtxResume s'.current]) k = some k' ∧ Refines s' k' := by
  obtain ⟨k₁, hk₁, hagrees⟩ := h.ops hranked hnarrow hproper hstep hnarrow'
  obtain ⟨k', hk', hrefines⟩ := hagrees.resume (hranked.step hproper hstep).state_current
  refine ⟨k', ?_, hrefines⟩
  rw [Kernel.execAll_append, hk₁]
  simp [Kernel.execAll, Kernel.exec, hk']

omit [DecidableEq M] [Fintype T] in
/-- At the start both sides have all mutexes free. -/
theorem refines_init (c : T) (prio : T → TPrio) :
    Refines (init c prio : Scheduler T M) Kernel.fresh := by
  refine ⟨⟨rfl, rfl, rfl, rfl, fun t mp ht => ?_, fun t mp ht => by cases ht⟩, rfl⟩
  by_cases htc : t = c
  · simp [init, htc] at ht
  · simp [init, htc] at ht

/-- In every run in which no two threads wait for one mutex, the kernel can follow: its
operations are all possible, one after the other, and lead to the same owners, queues and
stacks. -/
theorem traced_refines {c : T} {prio : T → TPrio} {os : List (Kernel.Op T M)}
    (h : Traced (init c prio) os s) :
    ∃ k, Kernel.execAll os Kernel.fresh = some k ∧ Refines s k := by
  -- The invariant of the scheduler goes through the induction with the simulation.
  have hall : s.Ranked ∧ s.Narrow ∧
      ∃ k, Kernel.execAll os Kernel.fresh = some k ∧ Refines s k := by
    induction h with
    | refl => exact ⟨ranked_init c prio, fun _ => Nat.zero_le _, _, rfl, refines_init c prio⟩
    | step _ mv hproper hstep hnarrow' ih =>
        obtain ⟨hranked, hnarrow, k, hk, hrefines⟩ := ih
        obtain ⟨k', hk', hrefines'⟩ := hrefines.step hranked hnarrow hproper hstep hnarrow'
        refine ⟨hranked.step hproper hstep, hnarrow', k', ?_, hrefines'⟩
        rw [Kernel.execAll_append, hk]
        exact hk'
  exact hall.2.2

/-- A thread waits for the mutex of another one and gets it. -/
theorem traced_refines_handOver : ∃ (s : Scheduler (Fin 3) Unit) (k : Kernel (Fin 3) Unit),
    Kernel.execAll [.chMtxResume 1, .chMtxLock 1 (), .chMtxResume 1, .chMtxResume 2,
      .chMtxLock 2 (), .chMtxResume 1, .chMtxUnlock 1 (), .chMtxResume 2] Kernel.fresh = some k ∧
    Refines s k ∧ s.current = 2 ∧ s.owner () = some 2 := by
  have hidle : Traced (init 1 fun t : Fin 3 => t.val + 1) _ _ :=
    .step (M := Unit) .refl (.interrupt [0]) trivial rfl (by decide)
  have hlow := hidle.step (.chMtxLock ()) trivial rfl (by decide)
  have hhigh := hlow.step (.interrupt [2]) trivial rfl (by decide)
  have hwait := hhigh.step (.chMtxLock ()) trivial rfl (by decide)
  have hunlock := hwait.step (.chMtxUnlock ()) ⟨_, rfl⟩ rfl (by decide)
  obtain ⟨k, hk, hrefines⟩ := traced_refines hunlock
  exact ⟨_, k, hk, hrefines, rfl, rfl⟩

end Scheduler

end ChibiOS
