import MotionTracking.Threads.Machine

/-!
# `MotionTracking.Threads.Outline`: one thread at a time

A proof about all interleavings, done thread by thread. An `Outline` fixes

* `view t s`: what thread `t` knows of the state `s`. The outline obliges every
  other thread, and the surroundings, to leave it alone. Variables only `t`
  writes belong in it, and variables a mutex protects belong in it while `t`
  holds that mutex.
* `inv`: an invariant of the shared state, kept by every step.
* `safe t a s`: what must hold whenever `t` is about to perform `a`, also while
  `t` is blocked there.
* `guar t a s r s'`: what must hold of a performed step.

`Sat p Q v` says that `p`, run by `t` when its view is `v`, does all of this and
returns with `Q` of its view. It is a recursion over the program: the view is
unchanged by the others, so the state before each action is any state with the
invariant and that view. `Triple P p Q` is `Sat` from every view with `P`, with
the usual rules (`Triple.bind`, `Triple.conseq`, `Triple.perform`). A stretch of
code whose actions all keep one assertion needs no walk (`Triple.of_all`).

`Outline.prod` puts two outlines of one machine together: what each of them knows of
a stretch of code holds of both (`Sat.prod`).

`Sat.exec` makes it a theorem about `Exec`, and `Ok.step` / `Ok.reaches` a
theorem about every schedule of a family of threads.
-/

set_option autoImplicit false

namespace Threads

variable {S : Sig} {T σ E α β : Type}

/-- A proof outline for the machine `M` (module doc). -/
structure Outline (M : Machine S T σ E) where
  View : T → Type
  view : ∀ t, σ → View t
  inv : σ → Prop
  safe : T → S.Act → σ → Prop
  guar : T → (a : S.Act) → σ → S.Ans a → σ → Prop

namespace Outline

variable {M : Machine S T σ E} (O : Outline M)

/-- What every performed step owes to the rest of the system. -/
structure Good (t : T) (a : S.Act) (s : σ) (r : S.Ans a) (s' : σ) : Prop where
  inv : O.inv s'
  guar : O.guar t a s r s'
  frame : ∀ u, u ≠ t → O.view u s' = O.view u s

/-- The program, run by `t` from a state where its view is `v`, keeps the
outline, and `Q` holds of its result and its view when it returns. -/
def Sat (t : T) : Prog S α → (α → O.View t → Prop) → O.View t → Prop
  | .ret x, Q, v => Q x v
  | .act a k, Q, v => ∀ s, O.inv s → O.view t s = v → O.safe t a s ∧
      ∀ r s', M.exec t a s = some (r, s') →
        O.Good t a s r s' ∧ Sat t (k r) Q (O.view t s')

/-- From every view with `P`, the program keeps the outline and returns with
`Q`. -/
def Triple (t : T) (P : O.View t → Prop) (p : Prog S α) (Q : α → O.View t → Prop) : Prop :=
  ∀ v, P v → O.Sat t p Q v

/-- The obligation of a single action, from `P` to `Q`. -/
def Keeps (t : T) (a : S.Act) (P : O.View t → Prop) (Q : S.Ans a → O.View t → Prop) : Prop :=
  ∀ s, O.inv s → P (O.view t s) → O.safe t a s ∧
    ∀ r s', M.exec t a s = some (r, s') → O.Good t a s r s' ∧ Q r (O.view t s')

variable {O} {t : T} {P P' : O.View t → Prop} {Q Q' : α → O.View t → Prop}

/-! ### The rules -/

/-- What holds at the end of a walk may be weakened. -/
theorem Sat.mono {p : Prog S α} {v : O.View t} (h : O.Sat t p Q v)
    (hQ : ∀ x v, Q x v → Q' x v) : O.Sat t p Q' v := by
  induction p generalizing v with
  | ret x => exact hQ x v h
  | act a k ih =>
      intro s hs hv
      obtain ⟨hsafe, hstep⟩ := h s hs hv
      exact ⟨hsafe, fun r s' hrs => ⟨(hstep r s' hrs).1, ih r (hstep r s' hrs).2⟩⟩

/-- A sequence is walked through in two parts. -/
theorem Sat.bind {p : Prog S α} {f : α → Prog S β} {R : β → O.View t → Prop}
    {v : O.View t} (h : O.Sat t p (fun x => O.Sat t (f x) R) v) :
    O.Sat t (p >>= f) R v := by
  induction p generalizing v with
  | ret x => exact h
  | act a k ih =>
      intro s hs hv
      obtain ⟨hsafe, hstep⟩ := h s hs hv
      exact ⟨hsafe, fun r s' hrs => ⟨(hstep r s' hrs).1, ih r (hstep r s' hrs).2⟩⟩

/-- The rule for a sequence. -/
theorem Triple.bind {p : Prog S α} {f : α → Prog S β} {R : β → O.View t → Prop}
    (hp : O.Triple t P p Q) (hf : ∀ x, O.Triple t (Q x) (f x) R) :
    O.Triple t P (p >>= f) R :=
  fun v hv => Sat.bind ((hp v hv).mono hf)

/-- After a program that leads from one view to another. -/
theorem Triple.seq {p : Prog S Unit} {f : Unit → Prog S β} {R : β → O.View t → Prop}
    {v w : O.View t} (hp : O.Triple t (· = v) p fun _ w' => w' = w) (h : O.Sat t (f ()) R w) :
    O.Sat t (p >>= f) R v :=
  Sat.bind ((hp v rfl).mono fun _ w' (hw' : w' = w) => hw' ▸ h)

/-- The rule of consequence. -/
theorem Triple.conseq {p : Prog S α} (h : O.Triple t P p Q) (hP : ∀ v, P' v → P v)
    (hQ : ∀ x v, Q x v → Q' x v) : O.Triple t P' p Q' :=
  fun v hv => (h v (hP v hv)).mono hQ

/-- The rule of consequence on the right side. -/
theorem Triple.post {p : Prog S α} (h : O.Triple t P p Q) (hQ : ∀ x v, Q x v → Q' x v) :
    O.Triple t P p Q' :=
  fun v hv => (h v hv).mono hQ

/-- A computation that performs nothing keeps the view. -/
theorem Triple.pure {x : α} (h : ∀ v, P v → Q x v) :
    O.Triple t P (Pure.pure x : Prog S α) Q :=
  h

/-- The rule for one action: it must keep the invariant and lead to `Q`. -/
theorem Triple.perform {a : S.Act} {Q : S.Ans a → O.View t → Prop}
    (h : O.Keeps t a P Q) : O.Triple t P (Prog.perform a) Q := by
  intro v hv s hs hsv
  obtain ⟨hsafe, hstep⟩ := h s hs (hsv ▸ hv)
  exact ⟨hsafe, hstep⟩

/-- The rule for a branch, each side with the test it was taken on. -/
theorem Triple.ite {c : Prop} [Decidable c] {p q : Prog S α}
    (hp : c → O.Triple t P p Q) (hq : ¬c → O.Triple t P q Q) :
    O.Triple t P (if c then p else q) Q := by
  split
  · exact hp ‹_›
  · exact hq ‹_›

/-- Every action of `p` keeps `P`, so `p` does. -/
theorem Triple.of_all {p : Prog S α} {φ : S.Act → Prop} (hp : p.All φ)
    (h : ∀ a, φ a → O.Keeps t a P fun _ => P) : O.Triple t P p fun _ => P := by
  induction p with
  | ret x => exact fun v hv => hv
  | act a k ih =>
      intro v hv s hs hsv
      obtain ⟨hsafe, hstep⟩ := h a hp.1 s hs (hsv ▸ hv)
      exact ⟨hsafe, fun r s' hrs =>
        ⟨(hstep r s' hrs).1, ih r (hp.2 r) _ (hstep r s' hrs).2⟩⟩

/-! ### Two outlines -/

/-- Both outlines at once. -/
def prod (O O' : Outline M) : Outline M where
  View t := O.View t × O'.View t
  view t s := (O.view t s, O'.view t s)
  inv s := O.inv s ∧ O'.inv s
  safe t a s := O.safe t a s ∧ O'.safe t a s
  guar t a s r s' := O.guar t a s r s' ∧ O'.guar t a s r s'

/-- What keeps each outline keeps both. -/
theorem Sat.prod {O' : Outline M} {p : Prog S α} {R : α → O'.View t → Prop} {v : O.View t}
    {w : O'.View t} (h : O.Sat t p Q v) (h' : O'.Sat t p R w) :
    (O.prod O').Sat t p (fun x u => Q x u.1 ∧ R x u.2) (v, w) := by
  induction p generalizing v w with
  | ret x => exact ⟨h, h'⟩
  | act a k ih =>
      intro s hs hview
      obtain ⟨hv, hw⟩ := Prod.mk.inj hview
      obtain ⟨hsafe, hstep⟩ := h s hs.1 hv
      obtain ⟨hsafe', hstep'⟩ := h' s hs.2 hw
      refine ⟨⟨hsafe, hsafe'⟩, fun r s' hrs => ?_⟩
      obtain ⟨hgood, hrest⟩ := hstep r s' hrs
      obtain ⟨hgood', hrest'⟩ := hstep' r s' hrs
      exact ⟨⟨⟨hgood.inv, hgood'.inv⟩, ⟨hgood.guar, hgood'.guar⟩,
        fun u hu => congrArg₂ Prod.mk (hgood.frame u hu) (hgood'.frame u hu)⟩, ih r hrest hrest'⟩

/-! ### One thread under interference -/

/-- A program that keeps the outline reaches its postcondition in every
execution, under any interference that keeps the invariant and the thread's
view. -/
theorem Sat.exec {rely : σ → σ → Prop} {p : Prog S α} {s s' : σ} {x : α}
    (h : O.Sat t p Q (O.view t s)) (hs : O.inv s)
    (hrely : ∀ s s', O.inv s → rely s s' → O.inv s' ∧ O.view t s' = O.view t s)
    (he : Exec M t rely p s x s') : O.inv s' ∧ Q x (O.view t s') := by
  induction he with
  | ret x s => exact ⟨hs, h⟩
  | intf hr _ ih =>
      obtain ⟨hs', hv⟩ := hrely _ _ hs hr
      exact ih (hv ▸ h) hs'
  | act hstep _ ih =>
      obtain ⟨hgood, hrest⟩ := (h _ hs rfl).2 _ _ hstep
      exact ih hrest hgood.inv

/-! ### A family of threads -/

section
variable {loop : T → Prog S Unit} {J : ∀ t, O.View t → Prop}

variable (O J) in
/-- The configuration is at a point of the outline: the invariant holds, and
every thread's remaining program keeps the outline up to its loop assertion. -/
structure Ok (c : Config S T σ) : Prop where
  inv : O.inv c.st
  sat : ∀ t, O.Sat t (c.code t) (fun _ => J t) (O.view t c.st)

/-- The surroundings keep the invariant and every view. -/
def EnvOk (O : Outline M) : Prop :=
  ∀ e s s', O.inv s → M.env e s = some s' → O.inv s' ∧ ∀ t, O.view t s' = O.view t s

/-- In a configuration that agrees with the outline, a thread's next action is safe. -/
theorem Ok.safe {c : Config S T σ} (h : O.Ok J c) {t : T} {a : S.Act}
    {k : S.Ans a → Prog S Unit} (hc : c.code t = .act a k) : O.safe t a c.st := by
  have hsat := h.sat t
  rw [hc] at hsat
  exact (hsat c.st h.inv rfl).1

variable [DecidableEq T]

/-- Every move stays on the outline. -/
theorem Ok.step {c c' : Config S T σ} {m : Move T E} (h : O.Ok J c)
    (hloop : ∀ t, O.Triple t (J t) (loop t) fun _ => J t) (henv : O.EnvOk)
    (hm : step M loop m c = some c') : O.Ok J c' := by
  rcases step_cases hm with ⟨t, rfl, hc, rfl⟩ | ⟨t, a, k, r, s', rfl, hc, he, rfl⟩ |
    ⟨e, s', rfl, he, rfl⟩
  · -- The loop body starts over: the program that returned left `J t`.
    refine ⟨h.inv, fun u => ?_⟩
    by_cases hu : u = t
    · subst hu
      have hsat := h.sat u
      rw [hc] at hsat
      simpa using hloop u _ hsat
    · simpa [Function.update_of_ne hu] using h.sat u
  · -- An action of `t`: its own view moves on, the other views stay.
    have hsat := h.sat t
    rw [hc] at hsat
    obtain ⟨hgood, hrest⟩ := (hsat c.st h.inv rfl).2 r s' he
    refine ⟨hgood.inv, fun u => ?_⟩
    by_cases hu : u = t
    · subst hu
      simpa using hrest
    · simpa [Function.update_of_ne hu, hgood.frame u hu] using h.sat u
  · obtain ⟨hinv, hview⟩ := henv e _ _ h.inv he
    exact ⟨hinv, fun u => by simpa [hview u] using h.sat u⟩

/-- Every reachable configuration is on the outline. -/
theorem Ok.reaches {c c' : Config S T σ} (h : O.Ok J c)
    (hloop : ∀ t, O.Triple t (J t) (loop t) fun _ => J t) (henv : O.EnvOk)
    (hr : Reaches M loop c c') : O.Ok J c' :=
  hr.induct h fun _ _ _ hc hm => hc.step hloop henv hm

end

end Outline

end Threads
