import Mathlib.Data.Fintype.EquivFin
import MotionTracking.ChibiOS.Scheduler

/-!
# `MotionTracking.ChibiOS.PriorityInheritance`: who runs, and for whom

`Shape` is the bookkeeping of the scheduler: the lists hold the threads that are in
the states they are for, sorted by priority, and the mutexes a thread owns are the
ones on its stack. `Ranked` adds what the priorities are: inherited (`Inherited`), and
the running thread's is the highest of those that can run.

There is one lemma for each operation, and `ranked_of_runs` for the runs. The loop of
`chMtxLockS` is `Threads.boost` (`prio_boost`), the scan of `chMtxUnlock` computes what
`Inherited.handOver` asks for (`newprio_spec`).

`runs_for_urgent` is what the mechanism is good for, and names no inherited priority:
nothing that can run, or is held up only by threads that can, is more urgent than what
the running thread runs for.
-/

set_option autoImplicit false

namespace ChibiOS

open Threads (Falling Inherited Behind insertBehind insertAhead mem_insertBehind mem_insertAhead
  nodup_insertBehind nodup_insertAhead falling_insertBehind falling_insertAhead)

variable {T M : Type}

/-- `next` leads from each mutex of the stack to the rest of it. -/
def Linked (next : M → List M) : List M → Prop
  | [] => True
  | mp :: l => next mp = l ∧ Linked next l

/-- A stack is linked as before when its own mutexes' links are. -/
theorem Linked.congr {next next' : M → List M} {l : List M} (h : Linked next l)
    (hsame : ∀ mp ∈ l, next' mp = next mp) : Linked next' l := by
  induction l with
  | nil => trivial
  | cons mp l ih =>
      refine ⟨(hsame mp (List.mem_cons_self ..)).trans h.1, ih h.2 fun m hm => ?_⟩
      exact hsame m (List.mem_cons_of_mem mp hm)

namespace Scheduler

/-- The lists agree with the states. -/
structure Lists (s : Scheduler T M) : Prop where
  ready : ∀ t, t ∈ s.rlist ↔ s.state t = .CH_STATE_READY
  waiting : ∀ t mp, t ∈ s.queue mp ↔ s.state t = .CH_STATE_WTMTX mp
  nodupReady : s.rlist.Nodup
  nodupQueue : ∀ mp, (s.queue mp).Nodup
  fallingReady : Falling s.prio s.rlist
  fallingQueue : ∀ mp, Falling s.prio (s.queue mp)
  owned : ∀ t mp, s.owner mp = some t ↔ mp ∈ s.mtxlist t
  nodupStack : ∀ t, (s.mtxlist t).Nodup
  linked : ∀ t, Linked s.next (s.mtxlist t)
  held : ∀ mp, s.owner mp = none → s.queue mp = []

/-- The lists agree with the states, and the current thread is the only one that runs. -/
structure Shape (s : Scheduler T M) : Prop extends Lists s where
  current : ∀ t, s.state t = .CH_STATE_CURRENT ↔ t = s.current

/-- The invariant. -/
structure Ranked (s : Scheduler T M) : Prop extends Shape s where
  inherited : Inherited s.realprio s.prio s.waitsFor
  highest : ∀ t ∈ s.rlist, s.prio t ≤ s.prio s.current

variable {s : Scheduler T M} {t u : T} {mp : M}

/-! ### The bookkeeping -/

/-- A thread waits for the owner of the mutex it is in the queue of. -/
theorem waitsFor_eq_some : s.waitsFor u = some t ↔
    ∃ mp, s.state u = .CH_STATE_WTMTX mp ∧ s.owner mp = some t := by
  unfold waitsFor
  cases hstate : s.state u with
  | CH_STATE_WTMTX mp => simp
  | CH_STATE_READY => simp
  | CH_STATE_CURRENT => simp
  | asleep => simp

/-- A thread in no queue waits for nobody. -/
theorem waitsFor_of_state (h : ∀ mp, s.state t ≠ .CH_STATE_WTMTX mp) : s.waitsFor t = none := by
  cases hw : s.waitsFor t with
  | none => rfl
  | some u =>
      obtain ⟨mp, hstate, -⟩ := waitsFor_eq_some.mp hw
      exact absurd hstate (h mp)

/-- The thread is in no list. -/
def Unlisted (s : Scheduler T M) (t : T) : Prop :=
  s.state t ≠ .CH_STATE_READY ∧ ∀ mp, s.state t ≠ .CH_STATE_WTMTX mp

namespace Lists

/-- An unlisted thread is not in the ready list. -/
theorem not_ready (h : s.Lists) (ht : s.Unlisted t) : t ∉ s.rlist :=
  fun hmem => ht.1 ((h.ready t).mp hmem)

/-- An unlisted thread is in no queue. -/
theorem not_queued (h : s.Lists) (ht : s.Unlisted t) (mp : M) : t ∉ s.queue mp :=
  fun hmem => ht.2 mp ((h.waiting t mp).mp hmem)

/-- A thread is in one queue at most. -/
theorem queue_unique (h : s.Lists) {mp mp' : M} (hu : u ∈ s.queue mp) (hu' : u ∈ s.queue mp') :
    mp = mp' := by
  have hstate := (h.waiting u mp).mp hu
  rw [(h.waiting u mp').mp hu'] at hstate
  exact (TState.CH_STATE_WTMTX.inj hstate).symm

/-- Who waits for `t` is in the queue of a mutex on its stack. -/
theorem waitsFor_iff (h : s.Lists) :
    s.waitsFor u = some t ↔ ∃ mp ∈ s.mtxlist t, u ∈ s.queue mp := by
  rw [waitsFor_eq_some]
  constructor
  · rintro ⟨mp, hstate, howner⟩
    exact ⟨mp, (h.owned t mp).mp howner, (h.waiting u mp).mpr hstate⟩
  · rintro ⟨mp, hmp, hu⟩
    exact ⟨mp, (h.waiting u mp).mp hu, (h.owned t mp).mpr hmp⟩

/-- `next` of a mutex on top of a stack is the rest of it. -/
theorem next_top (h : s.Lists) {l : List M} (hstack : s.mtxlist t = mp :: l) :
    s.next mp = l := by
  have hlinked := h.linked t
  rw [hstack] at hlinked
  exact hlinked.1

/-- The threads of the ready list are not above its first one. -/
theorem le_first (h : s.Lists) {l : List T} (hl : s.rlist = t :: l) (hu : u ∈ l) :
    s.prio u ≤ s.prio t :=
  (hl ▸ h.fallingReady).le_head (List.mem_cons_of_mem t hu)

/-- The scan of `chMtxUnlock`: the greatest of the thread's own priority and those of
the threads that wait for one of the mutexes. -/
theorem newprio_spec (h : s.Lists) (t : T) (l : List M) :
    s.realprio t ≤ s.newprio t l ∧ (∀ mp ∈ l, ∀ u ∈ s.queue mp, s.prio u ≤ s.newprio t l) ∧
      (s.newprio t l = s.realprio t ∨ ∃ mp ∈ l, ∃ u ∈ s.queue mp, s.prio u = s.newprio t l) := by
  unfold newprio
  generalize s.realprio t = p
  induction l generalizing p with
  | nil => exact ⟨le_rfl, by simp, .inl rfl⟩
  | cons mp l ih =>
      rw [List.foldl_cons]
      cases hqueue : s.queue mp with
      | nil =>
          obtain ⟨hfloor, hcovers, hreached⟩ := ih p
          simp only
          refine ⟨hfloor, fun m hm u hu => ?_, hreached.imp_right fun ⟨m, hm, hex⟩ =>
            ⟨m, List.mem_cons_of_mem mp hm, hex⟩⟩
          cases List.mem_cons.mp hm with
          | inl hmp =>
              rw [hmp, hqueue] at hu
              cases hu
          | inr hm => exact hcovers m hm u hu
      | cons v q =>
          have hle : ∀ u ∈ s.queue mp, s.prio u ≤ s.prio v := fun u hu =>
            (hqueue ▸ h.fallingQueue mp).le_head (hqueue ▸ hu)
          simp only
          obtain ⟨hfloor, hcovers, hreached⟩ := ih (if s.prio v > p then s.prio v else p)
          have hboth : p ≤ (if s.prio v > p then s.prio v else p) ∧
              s.prio v ≤ (if s.prio v > p then s.prio v else p) := by
            split
            · rename_i hlt
              exact ⟨hlt.le, le_rfl⟩
            · rename_i hle
              exact ⟨le_rfl, not_lt.mp hle⟩
          refine ⟨hboth.1.trans hfloor, fun m hm u hu => ?_, ?_⟩
          · cases List.mem_cons.mp hm with
            | inl hmp => exact (hle u (hmp ▸ hu)).trans (hboth.2.trans hfloor)
            | inr hm => exact hcovers m hm u hu
          · rcases hreached with hown | ⟨m, hm, hex⟩
            · rw [hown]
              split
              · exact .inr ⟨mp, List.mem_cons_self .., v, hqueue ▸ List.mem_cons_self .., rfl⟩
              · exact .inl rfl
            · exact .inr ⟨m, List.mem_cons_of_mem mp hm, hex⟩

variable [DecidableEq T]

/-- The stacks once `mp` is off the one it was on top of. -/
theorem pop (h : s.Lists) {l : List M} (hstack : s.mtxlist t = mp :: l) :
    (∀ u, mp ∉ Function.update s.mtxlist t l u) ∧
    (∀ u m, m ≠ mp → (s.owner m = some u ↔ m ∈ Function.update s.mtxlist t l u)) ∧
    (∀ u, (Function.update s.mtxlist t l u).Nodup) ∧
    ∀ u, Linked s.next (Function.update s.mtxlist t l u) := by
  have hnodup := h.nodupStack t
  have hlinked := h.linked t
  rw [hstack] at hnodup hlinked
  refine ⟨fun u => ?_, fun u m hm => ?_, fun u => ?_, fun u => ?_⟩
  · by_cases hu : u = t
    · rw [hu, Function.update_self]
      exact (List.nodup_cons.mp hnodup).1
    · rw [Function.update_of_ne hu]
      intro hmem
      have hut := (h.owned u mp).mpr hmem
      rw [(h.owned t mp).mpr (hstack ▸ List.mem_cons_self ..)] at hut
      exact hu (Option.some.inj hut).symm
  · by_cases hu : u = t
    · rw [hu, Function.update_self, h.owned, hstack, List.mem_cons]
      exact or_iff_right hm
    · rw [Function.update_of_ne hu]
      exact h.owned u m
  · by_cases hu : u = t
    · rw [hu, Function.update_self]
      exact hnodup.of_cons
    · rw [Function.update_of_ne hu]
      exact h.nodupStack u
  · by_cases hu : u = t
    · rw [hu, Function.update_self]
      exact hlinked.2
    · rw [Function.update_of_ne hu]
      exact h.linked u

/-- A new priority for a thread that is in no list. -/
theorem setPrio (h : s.Lists) (ht : s.Unlisted t) (p : TPrio) :
    Lists { s with prio := Function.update s.prio t p } := by
  have hother : ∀ u, u ≠ t → Function.update s.prio t p u = s.prio u :=
    fun u hu => Function.update_of_ne hu ..
  exact { h with
    fallingReady := h.fallingReady.congr fun u hu =>
      hother u (ne_of_mem_of_not_mem hu (h.not_ready ht))
    fallingQueue := fun mp => (h.fallingQueue mp).congr fun u hu =>
      hother u (ne_of_mem_of_not_mem hu (h.not_queued ht mp)) }

/-- A thread that is in no list goes from one such state to another. -/
theorem setState (h : s.Lists) (ht : s.Unlisted t) {x : TState M} (hready : x ≠ .CH_STATE_READY)
    (hwait : ∀ mp, x ≠ .CH_STATE_WTMTX mp) :
    (s.setState t x).Lists := by
  refine { h with ready := fun u => ?_, waiting := fun u mp => ?_ }
  · show u ∈ s.rlist ↔ Function.update s.state t x u = _
    by_cases hu : u = t
    · rw [hu, Function.update_self]
      exact iff_of_false (h.not_ready ht) hready
    · rw [Function.update_of_ne hu]
      exact h.ready u
  · show u ∈ s.queue mp ↔ Function.update s.state t x u = _
    by_cases hu : u = t
    · rw [hu, Function.update_self]
      exact iff_of_false (h.not_queued ht mp) (hwait mp)
    · rw [Function.update_of_ne hu]
      exact h.waiting u mp

/-- A thread that is in no list goes to the ready list, wherever it fits. -/
theorem toReady (h : s.Lists) (ht : s.Unlisted t) {l : List T}
    (hmem : ∀ u, u ∈ l ↔ u = t ∨ u ∈ s.rlist)
    (hnodup : l.Nodup) (hfalling : Falling s.prio l) :
    Lists { s with state := Function.update s.state t .CH_STATE_READY, rlist := l } := by
  refine { h with ready := fun u => ?_, waiting := fun u mp => ?_, nodupReady := hnodup
                  fallingReady := hfalling }
  · show u ∈ l ↔ Function.update s.state t _ u = _
    rw [hmem u]
    by_cases hu : u = t
    · rw [hu, Function.update_self]
      exact iff_of_true (.inl rfl) rfl
    · rw [Function.update_of_ne hu, ← h.ready u]
      exact or_iff_right hu
  · show u ∈ s.queue mp ↔ Function.update s.state t _ u = _
    by_cases hu : u = t
    · rw [hu, Function.update_self]
      exact iff_of_false (h.not_queued ht mp) (by simp)
    · rw [Function.update_of_ne hu]
      exact h.waiting u mp

/-- An unlisted thread goes to the ready list, behind its equals. -/
theorem readyBehind (h : s.Lists) (ht : s.Unlisted t) : (s.readyBehind t).Lists :=
  h.toReady ht (fun _ => mem_insertBehind) (nodup_insertBehind h.nodupReady (h.not_ready ht))
    (falling_insertBehind h.fallingReady t)

/-- An unlisted thread goes to the ready list, ahead of its equals. -/
theorem readyAhead (h : s.Lists) (ht : s.Unlisted t) : (s.readyAhead t).Lists :=
  h.toReady ht (fun _ => mem_insertAhead) (nodup_insertAhead h.nodupReady (h.not_ready ht))
    (falling_insertAhead h.fallingReady t)

/-- The first thread of the ready list goes on. -/
theorem switchTo (h : s.Lists) {l : List T} (hl : s.rlist = t :: l) : (s.switchTo t l).Lists := by
  have hnodup := hl ▸ h.nodupReady
  have ht : s.state t = .CH_STATE_READY := (h.ready t).mp (hl ▸ List.mem_cons_self ..)
  refine { h with
    ready := fun u => ?_, waiting := fun u mp => ?_, nodupReady := hnodup.of_cons
    fallingReady := (hl ▸ h.fallingReady).tail }
  · show u ∈ l ↔ Function.update s.state t _ u = _
    by_cases hu : u = t
    · rw [hu, Function.update_self]
      exact iff_of_false (List.nodup_cons.mp hnodup).1 (by simp)
    · rw [Function.update_of_ne hu, ← h.ready u, hl, List.mem_cons]
      exact (or_iff_right hu).symm
  · show u ∈ s.queue mp ↔ Function.update s.state t _ u = _
    by_cases hu : u = t
    · rw [hu, Function.update_self, h.waiting, ht]
      exact iff_of_false (by simp) (by simp)
    · rw [Function.update_of_ne hu]
      exact h.waiting u mp

/-- A thread of the ready list gets the priority `p`, and its place in the list. -/
theorem requeueReady (h : s.Lists) (ht : s.state t = .CH_STATE_READY) (p : TPrio) :
    Lists (({ s with
      prio := Function.update s.prio t p, rlist := s.rlist.erase t }).readyBehind t) := by
  have hmem : t ∈ s.rlist := (h.ready t).mpr ht
  have hgone : t ∉ s.rlist.erase t := h.nodupReady.not_mem_erase
  have hother : ∀ u, u ≠ t → Function.update s.prio t p u = s.prio u :=
    fun u hu => Function.update_of_ne hu ..
  have hstate : Function.update s.state t .CH_STATE_READY = s.state := by
    rw [← ht, Function.update_eq_self]
  have hqueue : ∀ mp, t ∉ s.queue mp := by
    intro mp hq
    have hwait := (h.waiting t mp).mp hq
    rw [ht] at hwait
    cases hwait
  have hsorted : Falling (Function.update s.prio t p) (s.rlist.erase t) :=
    (h.fallingReady.erase t).congr fun u hu => hother u (ne_of_mem_of_not_mem hu hgone)
  refine { h with
    ready := fun u => ?_, waiting := fun u mp => ?_
    nodupReady := nodup_insertBehind (h.nodupReady.erase t) hgone
    fallingReady := falling_insertBehind hsorted t
    fallingQueue := fun mp => (h.fallingQueue mp).congr fun u hu =>
      hother u (ne_of_mem_of_not_mem hu (hqueue mp)) }
  · show u ∈ insertBehind _ t (s.rlist.erase t) ↔ Function.update s.state t _ u = _
    rw [hstate, ← h.ready u, mem_insertBehind]
    by_cases hu : u = t
    · simp [hu, hmem]
    · simp [hu, List.mem_erase_of_ne hu]
  · show _ ↔ Function.update s.state t _ u = _
    rw [hstate]
    exact h.waiting u mp

/-- The same for a thread that waits for a mutex. -/
theorem requeue [DecidableEq M] (h : s.Lists) (ht : s.state t = .CH_STATE_WTMTX mp) (p : TPrio) :
    Lists { s with
      prio := Function.update s.prio t p
      queue := Function.update s.queue mp
        (insertBehind (Function.update s.prio t p) t ((s.queue mp).erase t)) } := by
  have hmem : t ∈ s.queue mp := (h.waiting t mp).mpr ht
  have hgone : t ∉ (s.queue mp).erase t := (h.nodupQueue mp).not_mem_erase
  have hother : ∀ u, u ≠ t → Function.update s.prio t p u = s.prio u :=
    fun u hu => Function.update_of_ne hu ..
  have hready : t ∉ s.rlist := by
    intro hr
    have hr := (h.ready t).mp hr
    rw [ht] at hr
    cases hr
  have hsorted : Falling (Function.update s.prio t p) ((s.queue mp).erase t) :=
    ((h.fallingQueue mp).erase t).congr fun u hu => hother u (ne_of_mem_of_not_mem hu hgone)
  refine { h with
    waiting := fun u mp' => ?_, nodupQueue := fun mp' => ?_
    fallingReady := h.fallingReady.congr fun u hu => hother u (ne_of_mem_of_not_mem hu hready)
    fallingQueue := fun mp' => ?_, held := fun mp' hmp' => ?_ }
  · by_cases hmp : mp' = mp
    · subst hmp
      simp only [Function.update_self, mem_insertBehind]
      rw [← h.waiting u mp']
      by_cases hu : u = t
      · simp [hu, hmem]
      · simp [hu, List.mem_erase_of_ne hu]
    · simp only [Function.update_of_ne hmp]
      exact h.waiting u mp'
  · by_cases hmp : mp' = mp
    · subst hmp
      simp only [Function.update_self]
      exact nodup_insertBehind ((h.nodupQueue mp').erase t) hgone
    · simp only [Function.update_of_ne hmp]
      exact h.nodupQueue mp'
  · by_cases hmp : mp' = mp
    · subst hmp
      simp only [Function.update_self]
      exact falling_insertBehind hsorted t
    · simp only [Function.update_of_ne hmp]
      exact (h.fallingQueue mp').congr fun u hu => hother u fun hut =>
        hmp (h.queue_unique (hut ▸ hu) hmem)
  · have hmp : mp' ≠ mp := by
      rintro rfl
      rw [h.held mp' hmp'] at hmem
      cases hmem
    simp only [Function.update_of_ne hmp]
    exact h.held mp' hmp'

end Lists

namespace Shape

/-- The running thread is in the state it should be in. -/
theorem state_current (h : s.Shape) : s.state s.current = .CH_STATE_CURRENT :=
  (h.current s.current).mpr rfl

/-- The running thread waits for nobody. -/
theorem waitsFor_current (h : s.Shape) : s.waitsFor s.current = none := by
  refine waitsFor_of_state fun mp hstate => ?_
  rw [h.state_current] at hstate
  cases hstate

/-- The running thread is in no list. -/
theorem unlisted_current (h : s.Shape) : s.Unlisted s.current := by
  refine ⟨fun hstate => ?_, fun mp hstate => ?_⟩
  · rw [h.state_current] at hstate
    cases hstate
  · rw [h.state_current] at hstate
    cases hstate

/-- The first thread of the ready list is not the running one. -/
theorem first_ne (h : s.Shape) {l : List T} (hl : s.rlist = t :: l) : s.current ≠ t := by
  rintro rfl
  have ht := (h.ready s.current).mp (hl ▸ List.mem_cons_self ..)
  rw [h.state_current] at ht
  cases ht

end Shape

/-! ### `chMtxLockS` -/

/-- The loop of `chMtxLockS` leaves the threads where they are, but for their places
in the lists. -/
structure Reordered (s s' : Scheduler T M) : Prop where
  current : s'.current = s.current
  state : s'.state = s.state
  realprio : s'.realprio = s.realprio
  owner : s'.owner = s.owner
  next : s'.next = s.next
  mtxlist : s'.mtxlist = s.mtxlist

/-- Who waits for whom is read from states and owners, which stay. -/
theorem Reordered.waitsFor {s' : Scheduler T M} (h : Reordered s s') :
    s'.waitsFor = s.waitsFor := by
  funext t
  simp only [Scheduler.waitsFor, h.state, h.owner]

/-- The loop, which computes `Threads.boost`. -/
theorem Lists.boost [DecidableEq T] [DecidableEq M] (h : s.Lists) (p : TPrio) (n : Nat) (t : T) :
    (s.boost p n t).Lists ∧ Reordered s (s.boost p n t) ∧
      (s.boost p n t).prio = Threads.boost s.waitsFor p n t s.prio := by
  induction n generalizing s t with
  | zero => exact ⟨h, ⟨rfl, rfl, rfl, rfl, rfl, rfl⟩, rfl⟩
  | succ n ih =>
      rw [Scheduler.boost, Threads.boost]
      by_cases hlow : s.prio t < p
      · simp only [if_pos hlow]
        cases hstate : s.state t with
        | CH_STATE_WTMTX mp =>
            have hqueue : t ∈ s.queue mp := (h.waiting t mp).mpr hstate
            cases howner : s.owner mp with
            | none =>
                rw [h.held mp howner] at hqueue
                cases hqueue
            | some u =>
                have hwaits : s.waitsFor t = some u := waitsFor_eq_some.mpr ⟨mp, hstate, howner⟩
                obtain ⟨hlists, hsame, hprio⟩ := ih (h.requeue hstate p) u
                simp only [howner, hwaits]
                exact ⟨hlists, ⟨hsame.current, hsame.state, hsame.realprio, hsame.owner, hsame.next,
                  hsame.mtxlist⟩, hprio⟩
        | CH_STATE_READY =>
            have hwaits : s.waitsFor t = none := waitsFor_of_state (by simp [hstate])
            have hkeep : Function.update s.state t .CH_STATE_READY = s.state := by
              rw [← hstate, Function.update_eq_self]
            rw [hwaits]
            exact ⟨h.requeueReady hstate p, ⟨rfl, hkeep, rfl, rfl, rfl, rfl⟩, rfl⟩
        | CH_STATE_CURRENT =>
            have hwaits : s.waitsFor t = none := waitsFor_of_state (by simp [hstate])
            have ht : s.Unlisted t := ⟨by simp [hstate], by simp [hstate]⟩
            rw [hwaits]
            exact ⟨h.setPrio ht p, ⟨rfl, rfl, rfl, rfl, rfl, rfl⟩, rfl⟩
        | asleep =>
            have hwaits : s.waitsFor t = none := waitsFor_of_state (by simp [hstate])
            have ht : s.Unlisted t := ⟨by simp [hstate], by simp [hstate]⟩
            rw [hwaits]
            exact ⟨h.setPrio ht p, ⟨rfl, rfl, rfl, rfl, rfl, rfl⟩, rfl⟩
      · rw [if_neg hlow, if_neg hlow]
        exact ⟨h, ⟨rfl, rfl, rfl, rfl, rfl, rfl⟩, rfl⟩

/-! ### Switching -/

/-- The threads that wait, and for whom, have not changed. -/
theorem waitsFor_congr {s' : Scheduler T M} (howner : s'.owner = s.owner)
    (h : ∀ t, s'.state t = s.state t ∨
      (∀ mp, s.state t ≠ .CH_STATE_WTMTX mp) ∧ ∀ mp, s'.state t ≠ .CH_STATE_WTMTX mp) :
    s'.waitsFor = s.waitsFor := by
  funext t
  rcases h t with hsame | ⟨hnot, hnot'⟩
  · simp only [waitsFor, hsame, howner]
  · rw [waitsFor_of_state hnot, waitsFor_of_state hnot']

variable [DecidableEq T]

/-- `n` takes over from `c`. -/
theorem current_switch {st : T → TState M} {c n : T} {x : TState M}
    (h : ∀ t, st t = .CH_STATE_CURRENT ↔ t = c) (hx : x ≠ .CH_STATE_CURRENT) (t : T) :
    Function.update (Function.update st c x) n .CH_STATE_CURRENT t = .CH_STATE_CURRENT ↔
      t = n := by
  by_cases htn : t = n
  · simp [htn]
  · rw [Function.update_of_ne htn]
    by_cases htc : t = c
    · rw [htc, Function.update_self]
      exact iff_of_false hx (htc ▸ htn)
    · rw [Function.update_of_ne htc, h t]
      exact iff_of_false htc htn

/-- The running thread goes to the state `x`, which is in no list. -/
theorem Shape.sleep (h : s.Shape) {x : TState M} {l : List T} (hl : s.rlist = t :: l)
    (hready : x ≠ .CH_STATE_READY) (hcurrent : x ≠ .CH_STATE_CURRENT)
    (hwait : ∀ mp, x ≠ .CH_STATE_WTMTX mp) :
    ((s.setState s.current x).switchTo t l).Shape where
  toLists := (h.toLists.setState h.unlisted_current hready hwait).switchTo hl
  current := current_switch h.current hcurrent

/-- The running thread can sleep when there is another to run, which then does. -/
theorem chSchGoSleepS_eq_some {s' : Scheduler T M} {x : TState M}
    (h : s.chSchGoSleepS x = some s') :
    ∃ t l, s.rlist = t :: l ∧ s' = (s.setState s.current x).switchTo t l := by
  unfold chSchGoSleepS at h
  split at h
  · cases h
  · rename_i t l hl
    exact ⟨t, l, hl, (Option.some.inj h).symm⟩

/-- A running thread that sleeps hands over to the most urgent ready thread. It waits for
no mutex, so inheritance is as it was. -/
theorem Ranked.chSchGoSleepS {s' : Scheduler T M} (h : s.Ranked)
    (hsleep : s.chSchGoSleepS .asleep = some s') : s'.Ranked := by
  obtain ⟨t, l, hl, rfl⟩ := chSchGoSleepS_eq_some hsleep
  have ht : s.state t = .CH_STATE_READY := (h.ready t).mp (hl ▸ List.mem_cons_self ..)
  have hwaits : ((s.setState s.current .asleep).switchTo t l).waitsFor = s.waitsFor := by
    refine waitsFor_congr rfl fun u => ?_
    by_cases hut : u = t
    · exact .inr ⟨by simp [hut, ht], by simp [switchTo, hut]⟩
    · by_cases huc : u = s.current
      · exact .inr ⟨by simp [huc, h.state_current], by simp [switchTo, setState, huc, huc ▸ hut]⟩
      · exact .inl (by simp [switchTo, setState, hut, huc])
  refine ⟨h.toShape.sleep hl (by simp) (by simp) (by simp), ?_, fun u hu => ?_⟩
  · rw [hwaits]
    exact h.inherited
  · exact h.toLists.le_first hl hu

/-- The threads `t` and `c` of the ready list change places with no effect on who
waits. -/
theorem Shape.waitsFor_swap (h : s.Shape) {l L : List T} (hl : s.rlist = t :: l) :
    waitsFor { s.switchTo t l with
      state := Function.update (s.switchTo t l).state s.current .CH_STATE_READY, rlist := L } =
      s.waitsFor := by
  have ht : s.state t = .CH_STATE_READY := (h.ready t).mp (hl ▸ List.mem_cons_self ..)
  have hne := h.first_ne hl
  refine waitsFor_congr rfl fun u => ?_
  by_cases huc : u = s.current
  · exact .inr ⟨by simp [huc, h.state_current], by simp [huc]⟩
  · by_cases hut : u = t
    · exact .inr ⟨by simp [hut, ht], by simp [switchTo, hut, hne.symm]⟩
    · exact .inl (by simp [switchTo, hut, huc])

/-- The first thread `t` of the ready list runs, and the running thread goes to its
place in the list. -/
theorem Shape.swap (h : s.Shape) (hinh : Inherited s.realprio s.prio s.waitsFor) {l L : List T}
    (hl : s.rlist = t :: l) (hle : s.prio s.current ≤ s.prio t)
    (hmem : ∀ u, u ∈ L ↔ u = s.current ∨ u ∈ l) (hnodup : s.current ∉ l → l.Nodup → L.Nodup)
    (hfalling : Falling s.prio l → Falling s.prio L) :
    Ranked { s.switchTo t l with
      state := Function.update (s.switchTo t l).state s.current .CH_STATE_READY, rlist := L } := by
  have hne := h.first_ne hl
  have hlists := h.toLists.switchTo hl
  have hstate : (s.switchTo t l).state s.current = .CH_STATE_CURRENT := by
    show Function.update s.state t _ s.current = _
    rw [Function.update_of_ne hne, h.state_current]
  -- In between it runs no more and is in no list, so it may be put in one.
  have hunlisted : (s.switchTo t l).Unlisted s.current := ⟨by simp [hstate], by simp [hstate]⟩
  have hshape : Shape { s.switchTo t l with
      state := Function.update (s.switchTo t l).state s.current .CH_STATE_READY, rlist := L } := by
    refine ⟨hlists.toReady hunlisted hmem ?_ (hfalling hlists.fallingReady), fun u => ?_⟩
    · exact hnodup (hlists.not_ready hunlisted) hlists.nodupReady
    · show Function.update (Function.update s.state t _) s.current _ u = _ ↔ u = t
      rw [Function.update_comm hne.symm]
      exact current_switch h.current (by simp) u
  refine ⟨hshape, ?_, fun u hu => ?_⟩
  · -- Neither thread waits for a mutex, before or after.
    rw [h.waitsFor_swap hl]
    exact hinh
  · show s.prio u ≤ s.prio t
    cases (hmem u).mp hu with
    | inl hcur => exact hcur ▸ hle
    | inr hul => exact h.toLists.le_first hl hul

/-- The first ready thread runs, and the running one goes ahead of its equals. -/
theorem Shape.rescheduleAhead (h : s.Shape) (hinh : Inherited s.realprio s.prio s.waitsFor)
    {l : List T} (hl : s.rlist = t :: l) (hle : s.prio s.current ≤ s.prio t) :
    s.rescheduleAhead.Ranked := by
  have hswap := h.swap hinh hl hle (L := insertAhead s.prio s.current l) (fun _ => mem_insertAhead)
    (fun hout hnodup => nodup_insertAhead hnodup hout) fun hsorted => falling_insertAhead hsorted _
  unfold Scheduler.rescheduleAhead
  rw [hl]
  exact hswap

/-- The first ready thread runs, and the running one goes behind its equals. -/
theorem Shape.rescheduleBehind (h : s.Shape) (hinh : Inherited s.realprio s.prio s.waitsFor)
    {l : List T} (hl : s.rlist = t :: l) (hle : s.prio s.current ≤ s.prio t) :
    s.rescheduleBehind.Ranked := by
  have hswap := h.swap hinh hl hle (L := insertBehind s.prio s.current l)
    (fun _ => mem_insertBehind) (fun hout hnodup => nodup_insertBehind hnodup hout)
    fun hsorted => falling_insertBehind hsorted _
  unfold Scheduler.rescheduleBehind
  rw [hl]
  exact hswap

/-- After a rescheduling the running thread is on top again. -/
theorem Shape.chSchRescheduleS (h : s.Shape) (hinh : Inherited s.realprio s.prio s.waitsFor) :
    s.chSchRescheduleS.Ranked := by
  unfold Scheduler.chSchRescheduleS firstprio
  cases hl : s.rlist with
  | nil =>
      rw [if_neg (Nat.not_lt_zero _)]
      exact ⟨h, hinh, by simp [hl]⟩
  | cons t l =>
      by_cases hlt : s.prio t > s.prio s.current
      · rw [if_pos hlt]
        exact h.rescheduleAhead hinh hl hlt.le
      · rw [if_neg hlt]
        refine ⟨h, hinh, fun u hu => ?_⟩
        rw [hl] at hu
        exact ((hl ▸ h.fallingReady).le_head hu).trans (not_lt.mp hlt)

/-- Rescheduling changes no priority. -/
theorem prio_chSchRescheduleS : s.chSchRescheduleS.prio = s.prio := by
  unfold Scheduler.chSchRescheduleS Scheduler.rescheduleAhead
  split
  · split
    · rfl
    · rfl
  · rfl

/-- Rescheduling changes nothing in who waits for whom. -/
theorem Shape.waitsFor_chSchRescheduleS (h : s.Shape) :
    s.chSchRescheduleS.waitsFor = s.waitsFor := by
  unfold Scheduler.chSchRescheduleS Scheduler.rescheduleAhead
  split
  · split
    · rfl
    · rename_i hl
      exact h.waitsFor_swap hl
  · rfl

/-- A yield goes to a thread that is at least as urgent. -/
theorem Ranked.chSchDoYieldS (h : s.Ranked) : s.chSchDoYieldS.Ranked := by
  unfold Scheduler.chSchDoYieldS firstprio
  cases hl : s.rlist with
  | nil =>
      -- `rescheduleBehind` of an empty ready list changes nothing.
      have hnothing : s.rescheduleBehind = s := by
        unfold Scheduler.rescheduleBehind
        rw [hl]
      rw [hnothing, ite_self]
      exact h
  | cons t l =>
      by_cases hle : s.prio t ≥ s.prio s.current
      · rw [if_pos hle]
        exact h.toShape.rescheduleBehind h.inherited hl hle
      · rw [if_neg hle]
        exact h

/-- A sleeping thread becomes ready. -/
theorem Shape.readyBehind (h : s.Shape) (ht : s.state t = .asleep) : (s.readyBehind t).Shape := by
  refine ⟨h.toLists.readyBehind ⟨by simp [ht], by simp [ht]⟩, fun u => ?_⟩
  show Function.update s.state t _ u = _ ↔ u = s.current
  by_cases hut : u = t
  · rw [hut, Function.update_self, ← h.current t, ht]
    simp
  · rw [Function.update_of_ne hut]
    exact h.current u

/-- A thread that wakes up waits for nobody, as before. -/
theorem waitsFor_readyBehind (ht : s.state t = .asleep) :
    (s.readyBehind t).waitsFor = s.waitsFor := by
  refine waitsFor_congr rfl fun u => ?_
  by_cases hut : u = t
  · exact .inr ⟨by simp [hut, ht], by simp [Scheduler.readyBehind, hut]⟩
  · exact .inl (by simp [Scheduler.readyBehind, hut])

/-- A thread that is woken runs at once if it is more urgent, else it is put in its place
in the ready list. -/
theorem Ranked.chSchWakeupS (h : s.Ranked) (ht : s.state t = .asleep) :
    (s.chSchWakeupS t).Ranked := by
  unfold Scheduler.chSchWakeupS
  by_cases hle : s.prio t ≤ s.prio s.current
  · -- The running thread goes on.
    rw [if_pos hle]
    refine ⟨h.toShape.readyBehind ht, ?_, fun u hu => ?_⟩
    · rw [waitsFor_readyBehind ht]
      exact h.inherited
    · cases mem_insertBehind.mp hu with
      | inl hut => exact hut ▸ hle
      | inr hu => exact h.highest u hu
  · -- It is put back ahead of its equals, and the woken thread runs.
    rw [if_neg hle]
    have hne : t ≠ s.current := by
      rintro rfl
      exact hle le_rfl
    have hstate : (s.readyAhead s.current).state t = .asleep := by
      simp [Scheduler.readyAhead, hne, ht]
    have hlists : ((s.readyAhead s.current).setState t .CH_STATE_CURRENT).Lists :=
      (h.toLists.readyAhead h.unlisted_current).setState ⟨by simp [hstate], by simp [hstate]⟩
        (by simp) (by simp)
    -- Only the states of these two change, and neither waits for a mutex.
    have hwaits : ((s.readyAhead s.current).switchTo t (s.readyAhead s.current).rlist).waitsFor =
        s.waitsFor := by
      refine waitsFor_congr rfl fun u => ?_
      by_cases hut : u = t
      · exact .inr ⟨by simp [hut, ht], by simp [switchTo, hut]⟩
      · by_cases huc : u = s.current
        · exact .inr ⟨by simp [huc, h.state_current],
            by simp [switchTo, Scheduler.readyAhead, huc, hne.symm]⟩
        · exact .inl (by simp [switchTo, Scheduler.readyAhead, hut, huc])
    refine ⟨⟨{ hlists with }, current_switch h.current (by simp)⟩, ?_, fun u hu => ?_⟩
    · rw [hwaits]
      exact h.inherited
    · show s.prio u ≤ s.prio t
      cases mem_insertAhead.mp hu with
      | inl hcur => exact hcur ▸ (not_le.mp hle).le
      | inr hu => exact (h.highest u hu).trans (not_le.mp hle).le

/-- An interrupt makes its threads ready one by one, by induction on the list, and
reschedules at its end. -/
theorem Ranked.interrupt [DecidableEq M] (h : s.Ranked) (tps : List T) :
    (s.interrupt tps).Ranked := by
  -- The priorities must be right again only behind the reschedule, so this is about the list.
  have hfold : ∀ s : Scheduler T M, s.Shape → Inherited s.realprio s.prio s.waitsFor →
      (tps.foldl (fun s tp => if s.state tp = .asleep then s.readyBehind tp else s)
        s).chSchRescheduleS.Ranked := by
    induction tps with
    | nil => exact fun s hshape hinh => hshape.chSchRescheduleS hinh
    | cons t tps ih =>
        intro s hshape hinh
        rw [List.foldl_cons]
        by_cases ht : s.state t = .asleep
        · rw [if_pos ht]
          refine ih _ (hshape.readyBehind ht) ?_
          rw [waitsFor_readyBehind ht]
          exact hinh
        · rw [if_neg ht]
          exact ih s hshape hinh
  exact hfold s h.toShape h.inherited

/-! ### `chThdSetPriority` -/

/-- The state of `chThdSetPriority` before it reschedules. -/
theorem Shape.setPriority (h : s.Shape) (new newprio : TPrio) : Shape { s with
    prio := Function.update s.prio s.current new
    realprio := Function.update s.realprio s.current newprio } where
  toLists := { h.toLists.setPrio h.unlisted_current new with }
  current := h.current

/-- A proper change of priority keeps the invariant: either the thread's priority is its
own and no waiter is above the new one, or what it inherits is above both. -/
theorem Ranked.chThdSetPriority {newprio : TPrio} (h : s.Ranked)
    (hproper : s.Proper (.chThdSetPriority newprio)) : (s.chThdSetPriority newprio).2.Ranked := by
  unfold Scheduler.chThdSetPriority
  by_cases hset : s.prio s.current = s.realprio s.current ∨ newprio > s.prio s.current
  · simp only [if_pos hset]
    refine (h.toShape.setPriority newprio newprio).chSchRescheduleS
      (h.inherited.setReal h.waitsFor_current le_rfl (fun w hw => ?_) (.inl rfl))
    cases hset with
    | inl hreal => exact hproper hreal w hw
    | inr hgt => exact (h.inherited.covers w _ hw).trans hgt.le
  · -- The priority is inherited, and stays.
    have hshape := h.toShape.setPriority (s.prio s.current) newprio
    obtain ⟨hne, hle⟩ := not_or.mp hset
    have hinh := h.inherited.setReal h.waitsFor_current (not_lt.mp hle)
      (fun w hw => h.inherited.covers w _ hw)
      (.inr ((h.inherited.reached s.current).resolve_left hne))
    simp only [Function.update_eq_self] at hshape hinh
    rw [if_neg hset]
    exact hshape.chSchRescheduleS hinh

/-! ### The start -/

/-- At the start one thread runs and the others are asleep, each at its own priority. -/
theorem ranked_init (c : T) (prio : T → TPrio) : (init c prio : Scheduler T M).Ranked := by
  have hwaits : ∀ t, (init c prio : Scheduler T M).waitsFor t = none := by
    intro t
    refine waitsFor_of_state fun mp => ?_
    by_cases ht : t = c
    · simp [init, ht]
    · simp [init, ht]
  refine ⟨⟨⟨fun t => ?_, fun t mp => ?_, .nil, fun _ => .nil, .nil, fun _ => .nil, by simp [init],
    fun _ => .nil, fun _ => trivial, fun _ _ => rfl⟩, fun t => ?_⟩, ⟨fun _ => le_rfl,
    fun u t hut => ?_, fun _ => .inl rfl⟩, by simp [init]⟩
  · by_cases ht : t = c
    · simp [init, ht]
    · simp [init, ht]
  · by_cases ht : t = c
    · simp [init, ht]
    · simp [init, ht]
  · by_cases ht : t = c
    · simp [init, ht]
    · simp [init, ht]
  · rw [hwaits u] at hut
    cases hut

/-! ### Taking a mutex -/

variable [DecidableEq M]

/-- The mutex is put on top of the running thread's stack. -/
theorem Shape.take (h : s.Shape) (hfree : s.owner mp = none) : (s.take mp).Shape := by
  -- A free mutex is on no stack.
  have hstack : ∀ t, mp ∉ s.mtxlist t := by
    intro t hmem
    rw [(h.owned t mp).mpr hmem] at hfree
    cases hfree
  refine ⟨{ h.toLists with
    owned := fun t m => ?_, nodupStack := fun t => ?_, linked := fun t => ?_
    held := fun m hm => ?_ }, h.current⟩
  · -- The owner's stack, and only that one, has the mutex now.
    show Function.update s.owner mp _ m = _ ↔ m ∈ Function.update s.mtxlist _ _ t
    by_cases hm : m = mp
    · subst hm
      rw [Function.update_self]
      by_cases ht : t = s.current
      · simp [ht]
      · rw [Function.update_of_ne ht]
        exact iff_of_false (fun heq => ht (Option.some.inj heq).symm) (hstack t)
    · rw [Function.update_of_ne hm, h.owned]
      by_cases ht : t = s.current
      · simp [ht, hm]
      · rw [Function.update_of_ne ht]
  · show (Function.update s.mtxlist _ _ t).Nodup
    by_cases ht : t = s.current
    · rw [ht, Function.update_self]
      exact List.nodup_cons.mpr ⟨hstack _, h.nodupStack _⟩
    · rw [Function.update_of_ne ht]
      exact h.nodupStack t
  · -- The stack below it is the one that `next` records.
    have hkeep : ∀ u, Linked (Function.update s.next mp (s.mtxlist s.current)) (s.mtxlist u) :=
      fun u => (h.linked u).congr fun m hm =>
        Function.update_of_ne (ne_of_mem_of_not_mem hm (hstack u)) ..
    show Linked _ (Function.update s.mtxlist _ _ t)
    by_cases ht : t = s.current
    · rw [ht, Function.update_self]
      exact ⟨Function.update_self .., hkeep s.current⟩
    · rw [Function.update_of_ne ht]
      exact hkeep t
  · -- Other free mutexes have empty queues as before.
    have hne : m ≠ mp := by
      rintro rfl
      simp [Scheduler.take] at hm
    refine h.held m ?_
    simpa [Scheduler.take, hne] using hm

/-- Nobody waits for a free mutex. -/
theorem Ranked.take (h : s.Ranked) (hfree : s.owner mp = none) : (s.take mp).Ranked := by
  have hwaits : (s.take mp).waitsFor = s.waitsFor := by
    funext t
    cases hstate : s.state t with
    | CH_STATE_WTMTX m =>
        -- Nobody is in the queue of `mp`, so this thread waits for another mutex.
        have hne : m ≠ mp := by
          rintro rfl
          have hmem := (h.waiting t m).mpr hstate
          rw [h.held m hfree] at hmem
          cases hmem
        simp [waitsFor, Scheduler.take, hstate, hne]
    | _ => simp [waitsFor, Scheduler.take, hstate]
  refine ⟨h.toShape.take hfree, ?_, h.highest⟩
  rw [hwaits]
  exact h.inherited

/-- A thread that is in no list goes to the queue of an owned mutex. -/
theorem Lists.enqueue (h : s.Lists) (ht : s.Unlisted t) (howned : s.owner mp ≠ none) :
    Lists (({ s with queue := Function.update s.queue mp (insertBehind s.prio t (s.queue mp)) })
      |>.setState t (.CH_STATE_WTMTX mp)) := by
  refine { h with
    ready := fun u => ?_, waiting := fun u m => ?_, nodupQueue := fun m => ?_
    fallingQueue := fun m => ?_, held := fun m hm => ?_ }
  · -- It was not ready, and it is not now.
    show u ∈ s.rlist ↔ Function.update s.state t _ u = _
    by_cases hu : u = t
    · rw [hu, Function.update_self]
      exact iff_of_false (h.not_ready ht) (by simp)
    · rw [Function.update_of_ne hu]
      exact h.ready u
  · -- It is in this queue and in no other.
    show u ∈ Function.update s.queue mp _ m ↔ Function.update s.state t _ u = _
    by_cases hm : m = mp
    · subst hm
      rw [Function.update_self, mem_insertBehind, h.waiting]
      by_cases hu : u = t
      · simp [hu]
      · simp [hu]
    · rw [Function.update_of_ne hm, h.waiting]
      by_cases hu : u = t
      · rw [hu, Function.update_self]
        exact iff_of_false (ht.2 m) fun heq => hm (TState.CH_STATE_WTMTX.inj heq).symm
      · rw [Function.update_of_ne hu]
  · -- It was in no queue before.
    show (Function.update s.queue mp _ m).Nodup
    by_cases hm : m = mp
    · subst hm
      rw [Function.update_self]
      exact nodup_insertBehind (h.nodupQueue m) (h.not_queued ht m)
    · rw [Function.update_of_ne hm]
      exact h.nodupQueue m
  · -- Its place is behind its equals.
    show Falling s.prio (Function.update s.queue mp _ m)
    by_cases hm : m = mp
    · subst hm
      rw [Function.update_self]
      exact falling_insertBehind (h.fallingQueue m) t
    · rw [Function.update_of_ne hm]
      exact h.fallingQueue m
  · show Function.update s.queue mp _ m = []
    have hne : m ≠ mp := by
      rintro rfl
      exact howned hm
    rw [Function.update_of_ne hne]
    exact h.held m hm

/-- The running thread goes to wait for the owner `u` of a mutex. -/
theorem Ranked.chMtxLockS [Fintype T] {s' : Scheduler T M} (h : s.Ranked)
    (hlock : s.chMtxLockS mp = some s') : s'.Ranked := by
  unfold Scheduler.chMtxLockS at hlock
  cases howner : s.owner mp with
  | none =>
      -- The mutex is free.
      rw [howner] at hlock
      exact Option.some.inj hlock ▸ h.take howner
  | some u =>
      simp only [howner] at hlock
      -- The boost reorders lists and raises priorities, and changes nothing else.
      obtain ⟨hlists, hsame, hprio⟩ := h.toLists.boost (s.prio s.current) (Fintype.card T) u
      generalize s.boost (s.prio s.current) (Fintype.card T) u = s₁ at hlock hlists hsame hprio
      have hcurrent : ∀ v, s₁.state v = .CH_STATE_CURRENT ↔ v = s₁.current := by
        rw [hsame.state, hsame.current]
        exact h.current
      have hstate : s₁.state s₁.current = .CH_STATE_CURRENT := (hcurrent _).mpr rfl
      have howned : s₁.owner mp = some u := hsame.owner ▸ howner
      obtain ⟨t, l, hl, rfl⟩ := chSchGoSleepS_eq_some hlock
      have hl : s₁.rlist = t :: l := hl
      have ht : s₁.state t = .CH_STATE_READY := (hlists.ready t).mp (hl ▸ List.mem_cons_self ..)
      have hne : t ≠ s₁.current := by
        rintro rfl
        rw [hstate] at ht
        cases ht
      -- Along the chain behind `u` everyone is as urgent as the running thread now.
      have hinh := h.inherited.boost h.waitsFor_current u
      rw [← hprio, ← hsame.realprio, ← hsame.waitsFor, ← hsame.current] at hinh
      refine ⟨⟨(hlists.enqueue ⟨by simp [hstate], by simp [hstate]⟩ ?_).switchTo hl,
        current_switch hcurrent (by simp)⟩, ?_, fun v hv => hlists.le_first hl hv⟩
      · simp [howned]
      · -- The running thread waits for `u`, which is what the boost has prepared.
        refine Eq.mp (congrArg (Inherited s₁.realprio s₁.prio) (funext fun v => ?_)) hinh
        by_cases hvt : v = t
        · simp [waitsFor, switchTo, hvt, hne, ht]
        · by_cases hvc : v = s₁.current
          · simp [waitsFor, switchTo, setState, hvc, hne.symm, howned]
          · simp [waitsFor, switchTo, setState, hvt, hvc]

/-! ### Giving a mutex back -/

/-- Nobody waits for the mutex. -/
theorem Lists.letGo (h : s.Lists) {l : List M} (hstack : s.mtxlist t = mp :: l)
    (hqueue : s.queue mp = []) :
    Lists { s with
      mtxlist := Function.update s.mtxlist t l, owner := Function.update s.owner mp none } := by
  obtain ⟨hnot, howned, hnodup, hlinked⟩ := h.pop hstack
  refine { h with
    owned := fun u m => ?_, nodupStack := hnodup, linked := hlinked, held := fun m hm => ?_ }
  · show Function.update s.owner mp none m = _ ↔ _
    by_cases hm : m = mp
    · subst hm
      rw [Function.update_self]
      exact iff_of_false (by simp) (hnot u)
    · rw [Function.update_of_ne hm]
      exact howned u m hm
  · by_cases hmp : m = mp
    · exact hmp ▸ hqueue
    · exact h.held m ((Function.update_of_ne hmp ..).symm.trans hm)

/-- The mutex goes from `t` to `u`. -/
theorem Lists.transfer (h : s.Lists) {l : List M} (hstack : s.mtxlist t = mp :: l) (u : T) :
    Lists { s with
      owner := Function.update s.owner mp (some u)
      next := Function.update s.next mp (Function.update s.mtxlist t l u)
      mtxlist := Function.update (Function.update s.mtxlist t l) u
        (mp :: Function.update s.mtxlist t l u) } := by
  obtain ⟨hnot, howned, hnodup, hlinked⟩ := h.pop hstack
  generalize Function.update s.mtxlist t l = stack at hnot howned hnodup hlinked ⊢
  -- No stack has the mutex in between, so a change of its `next` breaks no stack.
  have hkeep : ∀ v, Linked (Function.update s.next mp (stack u)) (stack v) :=
    fun v => (hlinked v).congr fun m hm =>
      Function.update_of_ne (ne_of_mem_of_not_mem hm (hnot v)) ..
  refine { h with
    owned := fun v m => ?_, nodupStack := fun v => ?_, linked := fun v => ?_,
    held := fun m hm => ?_ }
  · show Function.update s.owner mp _ m = _ ↔ m ∈ Function.update stack u _ v
    by_cases hm : m = mp
    · subst hm
      rw [Function.update_self]
      by_cases hv : v = u
      · simp [hv]
      · rw [Function.update_of_ne hv]
        exact iff_of_false (fun heq => hv (Option.some.inj heq).symm) (hnot v)
    · rw [Function.update_of_ne hm, howned v m hm]
      by_cases hv : v = u
      · rw [hv, Function.update_self, List.mem_cons]
        exact (or_iff_right hm).symm
      · rw [Function.update_of_ne hv]
  · show (Function.update stack u _ v).Nodup
    by_cases hv : v = u
    · rw [hv, Function.update_self]
      exact List.nodup_cons.mpr ⟨hnot u, hnodup u⟩
    · rw [Function.update_of_ne hv]
      exact hnodup v
  · show Linked _ (Function.update stack u _ v)
    by_cases hv : v = u
    · rw [hv, Function.update_self]
      exact ⟨Function.update_self .., hkeep u⟩
    · rw [Function.update_of_ne hv]
      exact hkeep v
  · -- The mutex is not free: `u` has it.
    by_cases hmp : m = mp
    · subst hmp
      simp at hm
    · exact h.held m ((Function.update_of_ne hmp ..).symm.trans hm)

/-- The first thread leaves a queue. -/
theorem Lists.dequeue (h : s.Lists) {q : List T} (hqueue : s.queue mp = t :: q) :
    Lists (({ s with queue := Function.update s.queue mp q }).setState t .asleep) := by
  -- The head of a queue waits for that mutex.
  have ht : s.state t = .CH_STATE_WTMTX mp :=
    (h.waiting t mp).mp (hqueue ▸ List.mem_cons_self ..)
  have hnodup := hqueue ▸ h.nodupQueue mp
  refine { h with
    ready := fun u => ?_, waiting := fun u m => ?_, nodupQueue := fun m => ?_
    fallingQueue := fun m => ?_, held := fun m hm => ?_ }
  · show u ∈ s.rlist ↔ Function.update s.state t _ u = _
    rw [h.ready]
    by_cases hu : u = t
    · simp [hu, ht]
    · rw [Function.update_of_ne hu]
  · -- The head is gone from this queue, and was in no other.
    show u ∈ Function.update s.queue mp q m ↔ Function.update s.state t _ u = _
    by_cases hm : m = mp
    · subst hm
      rw [Function.update_self]
      by_cases hu : u = t
      · rw [hu, Function.update_self]
        exact iff_of_false (List.nodup_cons.mp hnodup).1 (by simp)
      · rw [Function.update_of_ne hu, ← h.waiting, hqueue, List.mem_cons]
        exact (or_iff_right hu).symm
    · rw [Function.update_of_ne hm, h.waiting]
      by_cases hu : u = t
      · rw [hu, Function.update_self, ht]
        exact iff_of_false (fun heq => hm (TState.CH_STATE_WTMTX.inj heq).symm) (by simp)
      · rw [Function.update_of_ne hu]
  · show (Function.update s.queue mp q m).Nodup
    by_cases hm : m = mp
    · rw [hm, Function.update_self]
      exact hnodup.of_cons
    · rw [Function.update_of_ne hm]
      exact h.nodupQueue m
  · show Falling s.prio (Function.update s.queue mp q m)
    by_cases hm : m = mp
    · rw [hm, Function.update_self]
      exact (hqueue ▸ h.fallingQueue mp).tail
    · rw [Function.update_of_ne hm]
      exact h.fallingQueue m
  · -- A free mutex has no queue, and this one has one.
    show Function.update s.queue mp q m = []
    have hm : s.owner m = none := hm
    have hne : m ≠ mp := by
      rintro rfl
      rw [h.held m hm] at hqueue
      cases hqueue
    rw [Function.update_of_ne hne]
    exact h.held m hm

/-- What `release` leaves when nobody waits for the mutex. -/
theorem release_of_nil (h : s.Lists) {l : List M} (hstack : s.mtxlist s.current = mp :: l)
    (hqueue : s.queue mp = []) : s.release mp = { s with
      mtxlist := Function.update s.mtxlist s.current l
      owner := Function.update s.owner mp none } := by
  rw [release]
  simp only [hqueue, h.next_top hstack]

/-- What it leaves when `t` is the first in the queue. -/
theorem release_of_cons (h : s.Lists) {l : List M} {q : List T}
    (hstack : s.mtxlist s.current = mp :: l) (hqueue : s.queue mp = t :: q) :
    s.release mp = ({ s with
      queue := Function.update s.queue mp q
      owner := Function.update s.owner mp (some t)
      next := Function.update s.next mp (Function.update s.mtxlist s.current l t)
      mtxlist := Function.update (Function.update s.mtxlist s.current l) t
        (mp :: Function.update s.mtxlist s.current l t) }).readyBehind t := by
  rw [release]
  simp only [hqueue, h.next_top hstack]

/-- The mutex goes from the running thread to the first one in its queue, if any, and the
rest of the stack is left. -/
theorem Shape.release (h : s.Shape) {l : List M} (hstack : s.mtxlist s.current = mp :: l) :
    (s.release mp).Shape ∧ (s.release mp).current = s.current ∧
      (s.release mp).mtxlist s.current = l := by
  cases hqueue : s.queue mp with
  | nil =>
      rw [release_of_nil h.toLists hstack hqueue]
      exact ⟨⟨h.toLists.letGo hstack hqueue, h.current⟩, rfl, Function.update_self ..⟩
  | cons t q =>
      have ht : s.state t = .CH_STATE_WTMTX mp :=
        (h.waiting t mp).mp (hqueue ▸ List.mem_cons_self ..)
      have hne : t ≠ s.current := by
        rintro rfl
        rw [h.state_current] at ht
        cases ht
      -- First the queue loses its head, then the mutex changes hands, then `t` is ready.
      have hout := (h.toLists.dequeue hqueue).transfer hstack t
      have hlists := hout.readyBehind (t := t) ⟨by simp [setState], by simp [setState]⟩
      rw [release_of_cons h.toLists hstack hqueue]
      refine ⟨⟨?_, fun u => ?_⟩, rfl, ?_⟩
      · simpa [Scheduler.readyBehind, setState] using hlists
      · show Function.update s.state t _ u = _ ↔ u = s.current
        by_cases hu : u = t
        · rw [hu, Function.update_self]
          exact iff_of_false (by simp) hne
        · rw [Function.update_of_ne hu]
          exact h.current u
      · show Function.update (Function.update s.mtxlist s.current l) t _ s.current = l
        rw [Function.update_of_ne hne.symm, Function.update_self]

/-- Inheritance when `mp` goes to the first thread that waits for it. The priority of
the thread that lets go does not matter, the scan finds the new one. -/
theorem Shape.inherited_release (h : s.Shape) {p : TPrio} {l : List M} {q : List T}
    (hinh : Inherited s.realprio (Function.update s.prio s.current p) s.waitsFor)
    (hstack : s.mtxlist s.current = mp :: l) (hqueue : s.queue mp = t :: q) :
    Inherited s.realprio (Function.update s.prio s.current (s.newprio s.current l))
      (s.release mp).waitsFor := by
  have hown : s.owner mp = some s.current :=
    (h.owned _ mp).mpr (hstack ▸ List.mem_cons_self ..)
  have hmem : t ∈ s.queue mp := hqueue ▸ List.mem_cons_self ..
  have ht : s.state t = .CH_STATE_WTMTX mp := (h.waiting t mp).mp hmem
  have hne : ∀ u m, u ∈ s.queue m → u ≠ s.current := by
    rintro u m hu rfl
    exact h.toLists.not_queued h.unlisted_current m hu
  have hother : ∀ u m, u ∈ s.queue m → Function.update s.prio s.current p u = s.prio u :=
    fun u m hu => Function.update_of_ne (hne u m hu) ..
  -- Who waits, and for whom, afterwards.
  have hstate : (s.release mp).state = Function.update s.state t .CH_STATE_READY := by
    rw [release_of_cons h.toLists hstack hqueue]
    rfl
  have howner : (s.release mp).owner = Function.update s.owner mp (some t) := by
    rw [release_of_cons h.toLists hstack hqueue]
    rfl
  have hwaits : ∀ u m, u ≠ t → s.state u = .CH_STATE_WTMTX m → (s.release mp).waitsFor u =
      if m = mp then some t else s.waitsFor u := by
    intro u m hut hu
    by_cases hm : m = mp
    · simp [waitsFor, hstate, howner, hut, hu, hm]
    · simp [waitsFor, hstate, howner, hut, hu, hm]
  have hnew : ∀ u, (s.release mp).waitsFor u = some s.current ↔ ∃ m ∈ l, u ∈ s.queue m := by
    intro u
    obtain ⟨hshape, hcurrent, hmtxlist⟩ := h.release hstack
    rw [hshape.toLists.waitsFor_iff, hmtxlist]
    have hqueues : ∀ m ∈ l, (s.release mp).queue m = s.queue m := by
      intro m hm
      have hmp : m ≠ mp := by
        rintro rfl
        have hnodup := h.nodupStack s.current
        rw [hstack] at hnodup
        exact (List.nodup_cons.mp hnodup).1 hm
      rw [release_of_cons h.toLists hstack hqueue]
      exact Function.update_of_ne hmp ..
    constructor
    · rintro ⟨m, hm, hu⟩
      exact ⟨m, hm, hqueues m hm ▸ hu⟩
    · rintro ⟨m, hm, hu⟩
      exact ⟨m, hm, (hqueues m hm).symm ▸ hu⟩
  obtain ⟨hfloor, hcovers, hreached⟩ := h.toLists.newprio_spec s.current l
  have hhand := hinh.handOver (s.release mp).waitsFor h.waitsFor_current
    (waitsFor_eq_some.mpr ⟨mp, ht, hown⟩) ?_ (fun w hwt => ?_) hfloor (fun w hw => ?_) ?_
  · rw [Function.update_idem] at hhand
    exact hhand
  · exact waitsFor_of_state (by simp [hstate])
  · cases hw : s.state w with
    | CH_STATE_WTMTX m =>
        rw [hwaits w m hwt hw]
        by_cases hm : m = mp
        · subst hm
          have hwq : w ∈ s.queue m := (h.waiting w m).mpr hw
          refine .inr ⟨waitsFor_eq_some.mpr ⟨m, hw, hown⟩, if_pos rfl, ?_⟩
          rw [hother w m hwq, hother t m hmem]
          exact (hqueue ▸ h.fallingQueue m).le_head (hqueue ▸ hwq)
        · exact .inl (if_neg hm)
    | _ => exact .inl (by simp [waitsFor, hstate, hwt, hw])
  · obtain ⟨m, hm, hwq⟩ := (hnew w).mp hw
    rw [hother w m hwq]
    exact hcovers m hm w hwq
  · rcases hreached with hown' | ⟨m, hm, u, hu, hprio⟩
    · exact .inl hown'
    · exact .inr ⟨u, (hnew u).mpr ⟨m, hm, hu⟩, by rw [hother u m hu, hprio]⟩

/-- Nobody waits for a mutex with an empty queue. -/
theorem Shape.waitsFor_release_of_nil (h : s.Shape) {l : List M}
    (hstack : s.mtxlist s.current = mp :: l) (hqueue : s.queue mp = []) :
    (s.release mp).waitsFor = s.waitsFor := by
  rw [release_of_nil h.toLists hstack hqueue]
  funext t
  cases hstate : s.state t with
  | CH_STATE_WTMTX m =>
      have hne : m ≠ mp := by
        rintro rfl
        have hmem := (h.waiting t m).mpr hstate
        rw [hqueue] at hmem
        cases hmem
      simp [waitsFor, hstate, hne]
  | _ => simp [waitsFor, hstate]

omit [DecidableEq M] in
/-- Inheritance for the priority that the running thread has. -/
theorem Ranked.inherited_self (h : s.Ranked) :
    Inherited s.realprio (Function.update s.prio s.current (s.prio s.current)) s.waitsFor := by
  rw [Function.update_eq_self]
  exact h.inherited

/-- What the running thread inherits after an unlock is what the scan finds; the rest is a
hand-over and a rescheduling. -/
theorem Ranked.chMtxUnlock (h : s.Ranked) {l : List M} (hstack : s.mtxlist s.current = mp :: l) :
    (s.chMtxUnlock mp).Ranked := by
  unfold Scheduler.chMtxUnlock
  cases hqueue : s.queue mp with
  | nil =>
      -- Nobody waited, so nobody was inherited from and no priority changes.
      obtain ⟨hshape, -, -⟩ := h.toShape.release hstack
      have hwaits := h.toShape.waitsFor_release_of_nil hstack hqueue
      simp only
      refine ⟨hshape, ?_, ?_⟩
      · rw [hwaits, release_of_nil h.toLists hstack hqueue]
        exact h.inherited
      · rw [release_of_nil h.toLists hstack hqueue]
        exact h.highest
  | cons t q =>
      simp only [h.toLists.next_top hstack]
      have hshape : Shape { s with
          prio := Function.update s.prio s.current (s.newprio s.current l) } :=
        ⟨h.toLists.setPrio h.unlisted_current _, h.current⟩
      -- The scan does not look at the priority the thread had, so any will do, also this one.
      have hinh := h.toShape.inherited_release h.inherited_self hstack hqueue
      refine (hshape.release hstack).1.chSchRescheduleS ?_
      rw [release_of_cons h.toLists hstack hqueue] at hinh
      rw [release_of_cons hshape.toLists hstack hqueue]
      exact hinh

/-- The loop of `chMtxUnlockAllS`. -/
theorem Shape.releaseAll (n : Nat) (h : s.Shape)
    (hinh : ∃ p, Inherited s.realprio (Function.update s.prio s.current p) s.waitsFor)
    (hn : (s.mtxlist s.current).length ≤ n) :
    (s.releaseAll n).Shape ∧ (s.releaseAll n).mtxlist (s.releaseAll n).current = [] ∧
      ∃ p, Inherited (s.releaseAll n).realprio
        (Function.update (s.releaseAll n).prio (s.releaseAll n).current p)
        (s.releaseAll n).waitsFor := by
  induction n generalizing s with
  | zero => exact ⟨h, List.length_eq_zero_iff.mp (Nat.le_zero.mp hn), hinh⟩
  | succ n ih =>
      cases hstack : s.mtxlist s.current with
      | nil =>
          simp only [Scheduler.releaseAll, hstack]
          exact ⟨h, trivial, hinh⟩
      | cons mp l =>
          -- The priority `p` for which inheritance holds is not written until the loop is done.
          obtain ⟨p, hinh⟩ := hinh
          obtain ⟨hshape, hcurrent, hmtxlist⟩ := h.release hstack
          simp only [Scheduler.releaseAll, hstack]
          refine ih hshape ?_ ?_
          · rw [hcurrent]
            cases hqueue : s.queue mp with
            | nil =>
                refine ⟨p, ?_⟩
                rw [h.waitsFor_release_of_nil hstack hqueue,
                  release_of_nil h.toLists hstack hqueue]
                exact hinh
            | cons t q =>
                have hnew := h.inherited_release hinh hstack hqueue
                refine ⟨s.newprio s.current l, ?_⟩
                rw [release_of_cons h.toLists hstack hqueue] at hnew ⊢
                exact hnew
          · rw [hcurrent, hmtxlist]
            rw [hstack, List.length_cons] at hn
            omega

/-- Without mutexes a thread has its own priority. -/
theorem Ranked.chMtxUnlockAllS (h : s.Ranked) : s.chMtxUnlockAllS.Ranked := by
  unfold Scheduler.chMtxUnlockAllS
  by_cases hnone : s.mtxlist s.current = []
  · rw [if_pos hnone]
    exact h
  · rw [if_neg hnone]
    obtain ⟨hshape, hempty, p, hinh⟩ := h.toShape.releaseAll _ ⟨_, h.inherited_self⟩ le_rfl
    generalize s.releaseAll (s.mtxlist s.current).length = s₁ at hshape hempty hinh ⊢
    -- Nobody waits for a thread without mutexes, so only its own priority is left.
    have hp : p = s₁.realprio s₁.current := by
      rcases hinh.reached s₁.current with hreal | ⟨u, hu, -⟩
      · rwa [Function.update_self] at hreal
      · obtain ⟨mp, hmp, -⟩ := hshape.toLists.waitsFor_iff.mp hu
        rw [hempty] at hmp
        cases hmp
    have hshape' : Shape { s₁ with
        prio := Function.update s₁.prio s₁.current (s₁.realprio s₁.current) } :=
      ⟨hshape.toLists.setPrio hshape.unlisted_current _, hshape.current⟩
    exact hshape'.chSchRescheduleS (hp ▸ hinh)

/-! ### Runs -/

variable [Fintype T]

/-- Every proper move keeps the invariant, by cases on the move. -/
theorem Ranked.step {s' : Scheduler T M} {mv : SchMove T M} (h : s.Ranked) (hproper : s.Proper mv)
    (hstep : s.step mv = some s') : s'.Ranked := by
  cases mv with
  | chMtxLock mp => exact h.chMtxLockS hstep
  | chMtxTryLock mp =>
      cases hstep
      unfold chMtxTryLockS
      split
      · rename_i hfree
        exact h.take hfree
      · exact h
  | chMtxUnlock mp =>
      cases hstep
      obtain ⟨l, hstack⟩ := hproper
      exact h.chMtxUnlock hstack
  | chMtxUnlockAll =>
      cases hstep
      exact h.chMtxUnlockAllS
  | chThdSetPriority newprio =>
      cases hstep
      exact h.chThdSetPriority hproper
  | chThdYield =>
      cases hstep
      exact h.chSchDoYieldS
  | sleep => exact h.chSchGoSleepS hstep
  | wakeup tp =>
      simp only [Scheduler.step] at hstep
      split at hstep
      · rename_i hasleep
        cases hstep
        exact h.chSchWakeupS hasleep
      · cases hstep
  | interrupt tps =>
      cases hstep
      exact h.interrupt tps

/-- The invariant holds in every state of a run of proper moves. -/
theorem ranked_of_runs {c : T} {prio : T → TPrio} (h : Runs (init c prio) s) : s.Ranked := by
  induction h with
  | refl => exact ranked_init c prio
  | step _ mv hproper hstep ih => exact ih.step hproper hstep

/-- In every run a thread that is not caught in a deadlock has the greatest own priority
among itself and the threads it holds up, directly or not. The first thread in a queue
is a most urgent one of it. -/
theorem priority_inherited {c : T} {prio : T → TPrio} (h : Runs (init c prio) s) :
    (∀ t r, s.waitsFor r = none → Behind s.waitsFor t r →
      IsGreatest {p | ∃ u, Behind s.waitsFor u t ∧ s.realprio u = p} (s.prio t)) ∧
    ∀ mp t q, s.queue mp = t :: q → ∀ u ∈ q, s.prio u ≤ s.prio t := by
  have hranked := ranked_of_runs h
  refine ⟨fun t r hr htr => hranked.inherited.isGreatest hr htr, fun mp t q hqueue u hu => ?_⟩
  exact (hqueue ▸ hranked.fallingQueue mp).le_head (List.mem_cons_of_mem t hu)

/-- Thread 3 waits for the mutex of thread 1, which thread 2 does not keep from running. -/
theorem priority_inherited_boosted : ∃ s : Scheduler (Fin 4) Unit,
    Runs (init 1 fun t => t.val + 1) s ∧ s.current = 1 ∧ s.rlist = [2, 0] ∧
      IsGreatest {p | ∃ u, Behind s.waitsFor u 1 ∧ s.realprio u = p} 4 := by
  have hidle : Runs (init 1 fun t : Fin 4 => t.val + 1) _ :=
    .step (M := Unit) .refl (.interrupt [0]) trivial rfl
  have hlow := hidle.step (.chMtxLock ()) trivial rfl
  have hhigh := hlow.step (.interrupt [3]) trivial rfl
  have hwait := hhigh.step (.chMtxLock ()) trivial rfl
  have hmid := hwait.step (.interrupt [2]) trivial rfl
  exact ⟨_, hmid, rfl, rfl, (priority_inherited hmid).1 1 1 rfl .refl⟩

/-- Nothing that can run, or is held up by something that can, is more urgent than what
the running thread runs for. -/
theorem runs_for_urgent {c : T} {prio : T → TPrio} (h : Runs (init c prio) s) {u r : T}
    (hur : Behind s.waitsFor u r) (hr : r = s.current ∨ r ∈ s.rlist) :
    ∃ w, Behind s.waitsFor w s.current ∧ s.realprio u ≤ s.realprio w := by
  have hranked := ranked_of_runs h
  obtain ⟨w, hw, hreal⟩ :=
    (hranked.inherited.isGreatest hranked.waitsFor_current .refl).1
  refine ⟨w, hw, ?_⟩
  -- Along the chain priorities only grow, and whoever is ready is below the running thread.
  have hru : s.realprio u ≤ s.prio r := (hranked.inherited.floor u).trans (hranked.inherited.le hur)
  have hrc : s.prio r ≤ s.prio s.current := by
    cases hr with
    | inl hcur => exact hcur ▸ le_rfl
    | inr hready => exact hranked.highest r hready
  rw [hreal]
  exact hru.trans hrc

/-- Thread 3 waits for thread 2, which waits for thread 1. -/
theorem runs_for_urgent_chain : ∃ s : Scheduler (Fin 4) Bool,
    Runs (init 1 fun t => t.val + 1) s ∧ s.current = 1 ∧
      ∃ w, Behind s.waitsFor w 1 ∧ s.realprio 3 ≤ s.realprio w := by
  have hidle : Runs (init 1 fun t : Fin 4 => t.val + 1) _ :=
    .step (M := Bool) .refl (.interrupt [0]) trivial rfl
  have hlow := hidle.step (.chMtxLock true) trivial rfl
  have hmid := hlow.step (.interrupt [2]) trivial rfl
  have hmid' := hmid.step (.chMtxLock false) trivial rfl
  have hwait := hmid'.step (.chMtxLock true) trivial rfl
  have hhigh := hwait.step (.interrupt [3]) trivial rfl
  have hwait' := hhigh.step (.chMtxLock false) trivial rfl
  exact ⟨_, hwait', rfl, runs_for_urgent hwait' (.head (b := 2) rfl (.single rfl)) (.inl rfl)⟩

/-- `chThdSetPriority` keeps the priorities inherited exactly when the calling thread's
priority is inherited already, or the new one is not below that of a thread it holds
up. A thread of the caller's own priority may wait for it without having raised it. -/
theorem chThdSetPriority_inherited_iff {c : T} {prio : T → TPrio} (h : Runs (init c prio) s)
    (newprio : TPrio) :
    Inherited (s.chThdSetPriority newprio).2.realprio (s.chThdSetPriority newprio).2.prio
        (s.chThdSetPriority newprio).2.waitsFor ↔
      (s.prio s.current = s.realprio s.current →
        ∀ u, s.waitsFor u = some s.current → s.prio u ≤ newprio) := by
  have hranked := ranked_of_runs h
  refine ⟨fun hinh hreal u hu => ?_, fun hproper => (hranked.chThdSetPriority hproper).inherited⟩
  -- In the state after the call `u` waits as before, so its priority has to be covered.
  have hcovers := hinh.covers u s.current
  have hne : u ≠ s.current := by
    rintro rfl
    rw [hranked.waitsFor_current] at hu
    cases hu
  have hshape := hranked.toShape.setPriority newprio newprio
  unfold Scheduler.chThdSetPriority at hcovers
  simp only [if_pos (Or.inl hreal)] at hcovers
  rw [hshape.waitsFor_chSchRescheduleS, prio_chSchRescheduleS] at hcovers
  simpa [hne] using hcovers hu

/-- Threads 1 and 2 have the same priority. Thread 2 waits for thread 1, which lowers
its priority. -/
theorem chThdSetPriority_inherited_iff_lowered : ∃ s : Scheduler (Fin 3) Unit,
    Runs (init 1 fun t => min (t.val + 1) 2) s ∧
      ¬Inherited (s.chThdSetPriority 1).2.realprio (s.chThdSetPriority 1).2.prio
        (s.chThdSetPriority 1).2.waitsFor := by
  have hidle : Runs (init 1 fun t : Fin 3 => min (t.val + 1) 2) _ :=
    .step (M := Unit) .refl (.interrupt [0, 2]) trivial rfl
  have hlock := hidle.step (.chMtxLock ()) trivial rfl
  have hyield := hlock.step .chThdYield trivial rfl
  have hwait := hyield.step (.chMtxLock ()) trivial rfl
  refine ⟨_, hwait, fun hinh => ?_⟩
  have hle := (chThdSetPriority_inherited_iff hwait 1).mp hinh rfl 2 rfl
  exact absurd hle (by decide)

end Scheduler

end ChibiOS
