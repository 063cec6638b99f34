import Mathlib.Logic.Relation
import MotionTracking.Threads.Machine

/-!
# `MotionTracking.Threads.Sequential`: a program as a function on what it uses

`Exec` runs a program on the whole state, with interference. Often a program uses
only a part of the state, its *view*, which the interference leaves alone. Then
the view evolves as if the program ran by itself on a smaller machine, the view's
machine, and a run of that one is a function: `runAlone`.

* `Exec.runAlone_view`: every execution is the run on the view.
* `runAlone_bind` and the equations beside it compute such a run.

`Possible P p Q` is about what can happen: from every state with `P` there is an
execution of `p` that ends with `Q`. When the interference is the surroundings
alone, such an execution is a schedule (`Reaches.of_exec`).
-/

set_option autoImplicit false

namespace Threads

variable {S : Sig} {T U σ V E E' α β : Type}

/-! ### Computing a run -/

section
variable (M : Machine S T σ E) (t : T)

/-- A program that is over leaves the state alone. -/
@[simp] theorem runAlone_ret (x : α) (s : σ) : runAlone M t (.ret x) s = some (x, s) := rfl

/-- A program that is over leaves the state alone. -/
@[simp] theorem runAlone_pure (x : α) (s : σ) :
    runAlone M t (pure x : Prog S α) s = some (x, s) := rfl

/-- A program alone performs its first action and goes on from the answer. -/
theorem runAlone_act (a : S.Act) (k : S.Ans a → Prog S α) (s : σ) :
    runAlone M t (.act a k) s = (M.exec t a s).bind fun r => runAlone M t (k r.1) r.2 := rfl

/-- The two parts of a sequence run one after the other, by induction on the first. -/
theorem runAlone_bind (p : Prog S α) (f : α → Prog S β) (s : σ) :
    runAlone M t (p >>= f) s = (runAlone M t p s).bind fun r => runAlone M t (f r.1) r.2 := by
  induction p generalizing s with
  | ret x => rfl
  | act a k ih =>
      rw [Prog.act_bind, runAlone_act, runAlone_act, Option.bind_assoc]
      congr 1
      funext r
      exact ih r.1 r.2

/-- The run of a sequence whose first part has run. -/
theorem runAlone_seq {p : Prog S α} {f : α → Prog S β} {s s' : σ} {x : α}
    (h : runAlone M t p s = some (x, s')) :
    runAlone M t (p >>= f) s = runAlone M t (f x) s' := by
  rw [runAlone_bind, h]
  rfl

/-- The second part of a sequence, once the run of the first is known. -/
theorem runAlone_seq' {p : Prog S α} {f : α → Prog S β} {s : σ} {r : α × σ}
    (h : runAlone M t p s = some r) :
    runAlone M t (p >>= f) s = runAlone M t (f r.1) r.2 :=
  runAlone_seq M t h

/-- Only the side that is taken runs. -/
theorem runAlone_ite {c : Prop} [Decidable c] (p q : Prog S α) (s : σ) :
    runAlone M t (if c then p else q) s = if c then runAlone M t p s else runAlone M t q s := by
  split <;> rfl

end

/-! ### Runs on a view -/

/-- On the actions with `D`, the machine `M` moves the view as `N` does. -/
def Simulates (M : Machine S T σ E) (N : Machine S U V E') (t : T) (u : U) (view : σ → V)
    (D : S.Act → Prop) : Prop :=
  ∀ a s r s', D a → M.exec t a s = some (r, s') → N.exec u a (view s) = some (r, view s')

variable {M : Machine S T σ E} {N : Machine S U V E'} {t : T} {u : U} {view : σ → V}
  {D : S.Act → Prop} {rely : σ → σ → Prop}

/-- An execution under interference that leaves the view alone is the run of the
view's machine. -/
theorem Exec.runAlone_view {p : Prog S α} {s s' : σ} {x : α} (hsim : Simulates M N t u view D)
    (hrely : ∀ s s', rely s s' → view s' = view s) (hp : p.All D)
    (he : Exec M t rely p s x s') : runAlone N u p (view s) = some (x, view s') := by
  induction he with
  | ret x s => rfl
  | intf hr _ ih =>
      have hview := ih hp
      rwa [hrely _ _ hr] at hview
  | act hstep _ ih =>
      rw [runAlone_act, hsim _ _ _ _ hp.1 hstep]
      exact ih (hp.2 _)

/-! ### Executions taken apart -/

section
variable {M : Machine S T σ E} {t : T} {rely : σ → σ → Prop}

/-- An execution of a sequence is one of the first part and one of the second. -/
theorem Exec.of_bind {p : Prog S α} {f : α → Prog S β} {s s'' : σ} {y : β}
    (h : Exec M t rely (p >>= f) s y s'') :
    ∃ x s', Exec M t rely p s x s' ∧ Exec M t rely (f x) s' y s'' := by
  generalize hq : p >>= f = q at h
  induction h generalizing p with
  | ret y s =>
      cases p with
      | ret x =>
          have hf : f x = .ret y := hq
          exact ⟨x, s, .ret x s, by rw [hf]; exact .ret y s⟩
      | act a k => cases hq
  | intf hr _ ih =>
      obtain ⟨x, s', he, he'⟩ := ih hq
      exact ⟨x, s', .intf hr he, he'⟩
  | @act a k s s₁ s₂ r y hact hrest ih =>
      cases p with
      | ret x =>
          have hf : f x = .act a k := hq
          exact ⟨x, s, .ret x s, by rw [hf]; exact .act hact hrest⟩
      | act b l =>
          cases hq
          obtain ⟨x, s', he, he'⟩ := ih rfl
          exact ⟨x, s', .act hact he, he'⟩

/-- A program that returns at once does nothing. -/
theorem Exec.of_pure {x y : α} {s s' : σ} (h : Exec M t rely (pure x : Prog S α) s y s') :
    y = x ∧ Relation.ReflTransGen rely s s' := by
  generalize hq : (pure x : Prog S α) = q at h
  induction h with
  | ret y s =>
      cases hq
      exact ⟨rfl, .refl⟩
  | intf hr _ ih =>
      obtain ⟨heq, hrefl⟩ := ih hq
      exact ⟨heq, .head hr hrefl⟩
  | act _ _ _ => cases hq

/-- Around one action there is interference only. -/
theorem Exec.of_perform {a : S.Act} {s s' : σ} {r : S.Ans a}
    (h : Exec M t rely (Prog.perform a) s r s') : ∃ s₁ s₂, Relation.ReflTransGen rely s s₁ ∧
      M.exec t a s₁ = some (r, s₂) ∧ Relation.ReflTransGen rely s₂ s' := by
  generalize hq : (Prog.perform a : Prog S (S.Ans a)) = q at h
  induction h with
  | ret y s => cases hq
  | intf hr _ ih =>
      obtain ⟨s₁, s₂, hpre, hact, hpost⟩ := ih hq
      exact ⟨s₁, s₂, .head hr hpre, hact, hpost⟩
  | act hact hrest _ =>
      cases hq
      obtain ⟨rfl, hpost⟩ := Exec.of_pure hrest
      exact ⟨_, _, .refl, hact, hpost⟩

end

/-! ### Executions that exist -/

section
variable {M : Machine S T σ E} {t : T} {rely : σ → σ → Prop}

/-- An execution of a sequence. -/
theorem Exec.bind {p : Prog S α} {f : α → Prog S β} {s s' s'' : σ} {x : α} {y : β}
    (hp : Exec M t rely p s x s') (hf : Exec M t rely (f x) s' y s'') :
    Exec M t rely (p >>= f) s y s'' := by
  induction hp with
  | ret x s => exact hf
  | intf hr _ ih => exact .intf hr (ih hf)
  | act hstep _ ih => exact .act hstep (ih hf)

variable (M t rely) in
/-- From every state with `P`, the program can end with `Q`. -/
def Possible (P : σ → Prop) (p : Prog S α) (Q : α → σ → Prop) : Prop :=
  ∀ s, P s → ∃ x s', Exec M t rely p s x s' ∧ Q x s'

/-- The rule for a sequence. -/
theorem Possible.bind {P : σ → Prop} {p : Prog S α} {Q : α → σ → Prop} {f : α → Prog S β}
    {R : β → σ → Prop} (hp : Possible M t rely P p Q)
    (hf : ∀ x, Possible M t rely (Q x) (f x) R) : Possible M t rely P (p >>= f) R := by
  intro s hs
  obtain ⟨x, s', he, hQ⟩ := hp s hs
  obtain ⟨y, s'', he', hR⟩ := hf x s' hQ
  exact ⟨y, s'', he.bind he', hR⟩

/-- A computation that performs nothing is always possible. -/
theorem Possible.pure {P : σ → Prop} {x : α} {Q : α → σ → Prop} (h : ∀ s, P s → Q x s) :
    Possible M t rely P (Pure.pure x : Prog S α) Q :=
  fun s hs => ⟨x, s, .ret x s, h s hs⟩

/-- One action is possible where the machine has a step for it. -/
theorem Possible.perform {P : σ → Prop} {a : S.Act} {Q : S.Ans a → σ → Prop}
    (h : ∀ s, P s → ∃ r s', M.exec t a s = some (r, s') ∧ Q r s') :
    Possible M t rely P (Prog.perform a) Q := by
  intro s hs
  obtain ⟨r, s', hstep, hQ⟩ := h s hs
  exact ⟨r, s', .act hstep (.ret r s'), hQ⟩

/-- The interference may come first. -/
theorem Possible.intf {P P' : σ → Prop} {p : Prog S α} {Q : α → σ → Prop}
    (hp : Possible M t rely P' p Q) (h : ∀ s, P s → ∃ s', rely s s' ∧ P' s') :
    Possible M t rely P p Q := by
  intro s hs
  obtain ⟨s₁, hr, hs₁⟩ := h s hs
  obtain ⟨x, s', he, hQ⟩ := hp s₁ hs₁
  exact ⟨x, s', .intf hr he, hQ⟩

end

section
variable [DecidableEq T] {M : Machine S T σ E} {loop : T → Prog S Unit} {t : T}

/-- The surroundings make a move. -/
def EnvStep (M : Machine S T σ E) (s s' : σ) : Prop := ∃ e, M.env e s = some s'

/-- An execution of the first part of what a thread has still to run is a
schedule. -/
theorem Reaches.of_exec_bind {p : Prog S α} {f : α → Prog S Unit} {c : Config S T σ} {s s' : σ}
    {x : α} (he : Exec M t (EnvStep M) p s x s') (hs : c.st = s) (hc : c.code t = p >>= f) :
    Reaches M loop c { st := s', code := Function.update c.code t (f x) } := by
  induction he generalizing c with
  | ret x s =>
      have hsame : ({ st := s, code := Function.update c.code t (f x) } : Config S T σ) = c := by
        have hf : f x = c.code t := hc.symm
        rw [← hs, hf, Function.update_eq_self]
      rw [hsame]
      exact .refl c
  | @intf p s s₁ s₂ x hr _ ih =>
      obtain ⟨e, he⟩ := hr
      subst hs
      have hstep : step M loop (.env e) c = some { c with st := s₁ } := by
        simp only [step, he, Option.map_some]
      have hrest := ih (c := { c with st := s₁ }) rfl hc
      exact Reaches.trans ⟨[.env e], by simp [run, hstep]⟩ hrest
  | @act a k s s₁ s₂ r x hact _ ih =>
      subst hs
      have hnext : c.code t = .act a fun r => k r >>= f := hc
      have hstep : step M loop (.run t) c =
          some { st := s₁, code := Function.update c.code t (k r >>= f) } := by
        simp only [step, hnext, hact, Option.map_some]
      have hrest := ih (c := { st := s₁, code := Function.update c.code t (k r >>= f) }) rfl
        (Function.update_self t _ _)
      rw [Function.update_idem] at hrest
      exact Reaches.trans ⟨[.run t], by simp [run, hstep]⟩ hrest

/-- An execution of what a thread has still to run is a schedule. -/
theorem Reaches.of_exec {p : Prog S Unit} {c : Config S T σ} {s s' : σ} {x : Unit}
    (he : Exec M t (EnvStep M) p s x s') (hs : c.st = s) (hc : c.code t = p) :
    Reaches M loop c { st := s', code := Function.update c.code t (.ret ()) } :=
  .of_exec_bind (f := .ret) he hs (hc.trans (Prog.bind_ret p).symm)

/-- A thread whose loop body can be executed can go round once. -/
theorem Reaches.round {c : Config S T σ} {s' : σ} (hc : c.code t = .ret ())
    (he : Exec M t (EnvStep M) (loop t) c.st () s') :
    Reaches M loop c { st := s', code := Function.update c.code t (.ret ()) } := by
  have hstep : step M loop (.run t) c =
      some { c with code := Function.update c.code t (loop t) } := by
    simp only [step, hc]
  have hrest : Reaches M loop { c with code := Function.update c.code t (loop t) } _ :=
    .of_exec he rfl (Function.update_self t _ _)
  rw [Function.update_idem] at hrest
  exact Reaches.trans ⟨[.run t], by simp [run, hstep]⟩ hrest

end

end Threads
