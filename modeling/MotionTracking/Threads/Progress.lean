import Mathlib.Data.DFinsupp.WellFounded
import Mathlib.Order.WellFounded
import MotionTracking.Threads.Machine

/-!
# `MotionTracking.Threads.Progress`: getting a program to its end

A program is a tree without infinite branches, so a thread that never starts its
loop over performs finitely many actions, and so does a finite family of them.
`Reaches.finish` concludes: if some thread can always perform an action as long as
thread `u` has not returned, then from every reachable configuration a schedule
leads to one where `u` has returned.
-/

set_option autoImplicit false

namespace Threads

variable {S : Sig} {T σ E α : Type}

namespace Prog

/-- `p` is what is left of `q` after one action. -/
def Rest (p q : Prog S α) : Prop := ∃ a k r, q = .act a k ∧ p = k r

/-- A program cannot go on for ever: its tree has no infinite branch, whatever the answers
are. -/
theorem rest_wellFounded : WellFounded (Rest (S := S) (α := α)) := by
  refine ⟨fun p => ?_⟩
  induction p with
  | ret x =>
      refine ⟨_, ?_⟩
      rintro p ⟨a, k, r, hq, -⟩
      cases hq
  | act a k ih =>
      refine ⟨_, ?_⟩
      rintro p ⟨b, l, r, hq, rfl⟩
      cases hq
      exact ih r

end Prog

/-- One thread of the family has performed an action. -/
def Advance (f g : T → Prog S α) : Prop :=
  ∃ t, (f t).Rest (g t) ∧ ∀ u, u ≠ t → f u = g u

/-- Finitely many threads cannot go on for ever together, unless one starts anew. -/
theorem advance_wellFounded [Finite T] : WellFounded (Advance (S := S) (T := T) (α := α)) := by
  -- Whatever the order of the threads, the first that differs has advanced.
  refine Subrelation.wf ?_
    (Pi.Lex.wellFounded (WellOrderingRel (α := T)) fun _ => Prog.rest_wellFounded)
  rintro f g ⟨t, hrest, hsame⟩
  refine ⟨t, fun u hu => hsame u ?_, hrest⟩
  rintro rfl
  exact irrefl_of WellOrderingRel u hu

variable [DecidableEq T] {M : Machine S T σ E} {loop : T → Prog S Unit}

/-- Some thread can perform its next action. -/
def Active (M : Machine S T σ E) (c : Config S T σ) : Prop :=
  ∃ t a k r s', c.code t = .act a k ∧ M.exec t a c.st = some (r, s')

/-- An active configuration has a move that advances a thread. -/
theorem Active.advance {c : Config S T σ} (h : Active M c) :
    ∃ c', Reaches M loop c c' ∧ Advance c'.code c.code := by
  obtain ⟨t, a, k, r, s', hc, he⟩ := h
  refine ⟨⟨s', Function.update c.code t (k r)⟩, ⟨[.run t], ?_⟩, t, ?_, fun u hu => ?_⟩
  · simp [run, step, hc, he]
  · exact ⟨a, k, r, hc, Function.update_self t _ _⟩
  · exact Function.update_of_ne hu _ _

/-- From every reachable configuration, `u` can be brought to its end. -/
theorem Reaches.finish [Finite T] {c₀ c : Config S T σ} {u : T} (h : Reaches M loop c₀ c)
    (hactive : ∀ c, Reaches M loop c₀ c → c.code u ≠ .ret () → Active M c) :
    ∃ c', Reaches M loop c c' ∧ c'.code u = .ret () := by
  have key : ∀ f : T → Prog S Unit, ∀ c : Config S T σ, c.code = f → Reaches M loop c₀ c →
      ∃ c', Reaches M loop c c' ∧ c'.code u = .ret () := by
    intro f
    induction advance_wellFounded.apply f with
    | intro f _ ih =>
        rintro c rfl h
        by_cases hdone : c.code u = .ret ()
        · exact ⟨c, .refl c, hdone⟩
        · obtain ⟨c₁, hstep, hadvance⟩ : ∃ c', Reaches M loop c c' ∧ Advance c'.code c.code :=
            (hactive c h hdone).advance
          obtain ⟨c', hrest, hend⟩ := ih c₁.code hadvance c₁ rfl (h.trans hstep)
          exact ⟨c', hstep.trans hrest, hend⟩
  exact key c.code c rfl h

end Threads
