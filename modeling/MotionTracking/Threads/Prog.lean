import Mathlib.Init

/-!
# `MotionTracking.Threads.Prog`: programs as trees of atomic actions

A signature `Sig` lists the atomic actions of a program and the type of the
answer each one returns. `Prog S α` is the free monad over `S`: a program
returns a value, or performs one action and goes on with its answer. A program
carries no meaning of its own. `MotionTracking.Threads.Machine` runs it against
a state, and what the program text does between two actions is pure Lean.

Because every action is a node of the tree, the points between two actions are
exactly the points at which another thread may run.

`Prog.All φ` says that every action of the tree, whatever the answers, satisfies
`φ`. It is the tool for facts that do not depend on where in the program an
action stands, such as "this thread never writes that variable". `Prog.AllAfter`
is the same for the actions behind a mark.
-/

set_option autoImplicit false

namespace Threads

/-- The atomic actions of a program, and the type of each action's answer. -/
structure Sig where
  Act : Type
  Ans : Act → Type

/-- A program over the signature `S`: return a value, or perform an action and
continue with its answer. -/
inductive Prog (S : Sig) (α : Type) : Type where
  | ret (x : α)
  | act (a : S.Act) (k : S.Ans a → Prog S α)

namespace Prog

variable {S : Sig} {α β γ : Type}

/-- Run `p`, then `f` on its result. -/
def bind : Prog S α → (α → Prog S β) → Prog S β
  | .ret x, f => f x
  | .act a k, f => .act a fun r => (k r).bind f

/-- The program that performs the one action `a` and returns its answer. -/
def perform (a : S.Act) : Prog S (S.Ans a) := .act a .ret

/-- Sequencing goes to the ends of the first program and continues there. -/
instance : Monad (Prog S) where
  pure := .ret
  bind := bind

/-- The first action of a sequence is that of its first part. -/
@[simp] theorem act_bind (a : S.Act) (k : S.Ans a → Prog S α) (f : α → Prog S β) :
    (.act a k : Prog S α) >>= f = .act a fun r => k r >>= f := rfl

/-- A program that is over hands its result on. -/
@[simp] theorem ret_bind (x : α) (f : α → Prog S β) : (.ret x : Prog S α) >>= f = f x := rfl

/-- The right unit law, by induction on the tree. -/
theorem bind_ret (p : Prog S α) : p >>= .ret = p := by
  induction p with
  | ret x => rfl
  | act a k ih =>
      rw [act_bind]
      exact congrArg _ (funext ih)

/-- Sequences may be regrouped, by induction on the first program. -/
theorem bind_assoc (p : Prog S α) (f : α → Prog S β) (g : β → Prog S γ) :
    p >>= f >>= g = p >>= fun x => f x >>= g := by
  induction p with
  | ret x => rfl
  | act a k ih =>
      rw [act_bind, act_bind, act_bind]
      exact congrArg _ (funext ih)

/-- The laws of a monad, from `bind_ret` and `bind_assoc`. -/
instance : LawfulMonad (Prog S) :=
  LawfulMonad.mk' (Prog S) bind_ret (fun _ _ => rfl) bind_assoc

/-- Mapping over a program leaves its first action alone. -/
@[simp] theorem act_map (f : α → β) (a : S.Act) (k : S.Ans a → Prog S α) :
    f <$> (.act a k : Prog S α) = .act a fun r => f <$> k r := rfl

/-- Mapping over a program that is over changes its result. -/
@[simp] theorem ret_map (f : α → β) (x : α) : f <$> (.ret x : Prog S α) = .ret (f x) := rfl

/-- The program's next action passes the test. -/
def next (f : S.Act → Bool) : Prog S α → Bool
  | .ret _ => false
  | .act a _ => f a

/-- Where `next` is true there is a next action, and the test holds of it. -/
theorem exists_of_next {f : S.Act → Bool} {p : Prog S α} (h : p.next f = true) :
    ∃ a k, p = .act a k ∧ f a = true := by
  cases p with
  | ret x => cases h
  | act a k => exact ⟨a, k, rfl, h⟩

/-! ### Facts about every action of a program -/

/-- Every action of the program satisfies `φ`, whatever the answers are. -/
def All (φ : S.Act → Prop) : Prog S α → Prop
  | .ret _ => True
  | .act a k => φ a ∧ ∀ r, (k r).All φ

variable {φ ψ : S.Act → Prop}

/-- A program without actions. -/
@[simp] theorem all_pure (x : α) : (pure x : Prog S α).All φ := trivial

/-- A program without actions. -/
@[simp] theorem all_ret (x : α) : (.ret x : Prog S α).All φ := trivial

/-- The first action and those of every way on. -/
@[simp] theorem all_act (a : S.Act) (k : S.Ans a → Prog S α) :
    (.act a k : Prog S α).All φ ↔ φ a ∧ ∀ r, (k r).All φ := Iff.rfl

/-- A program of one action. -/
theorem all_perform {a : S.Act} (h : φ a) : (perform a).All φ := ⟨h, fun _ => trivial⟩

/-- A sequence performs the actions of its parts. -/
theorem All.bind {p : Prog S α} {f : α → Prog S β} (hp : p.All φ)
    (hf : ∀ x, (f x).All φ) : (p >>= f).All φ := by
  induction p with
  | ret x => exact hf x
  | act a k ih => exact ⟨hp.1, fun r => ih r (hp.2 r)⟩

/-- A weaker condition on the actions, by induction on the tree. -/
theorem All.mono {p : Prog S α} (hp : p.All φ) (h : ∀ a, φ a → ψ a) : p.All ψ := by
  induction p with
  | ret x => trivial
  | act a k ih => exact ⟨h a hp.1, fun r => ih r (hp.2 r)⟩

/-- A condition all actions meet is met by those of any program. -/
theorem All.of_forall {p : Prog S α} (h : ∀ a, φ a) : p.All φ := by
  induction p with
  | ret x => trivial
  | act a k ih => exact ⟨h a, ih⟩

/-- Either side of a branch. -/
theorem All.ite {c : Prop} [Decidable c] {p q : Prog S α} (hp : p.All φ) (hq : q.All φ) :
    (if c then p else q).All φ := by
  split
  · exact hp
  · exact hq

/-- Every action behind the first one that `mark` picks satisfies `φ`. -/
def AllAfter (mark φ : S.Act → Prop) : Prog S α → Prop
  | .ret _ => True
  | .act a k => ∀ r, (mark a → (k r).All φ) ∧ (¬mark a → (k r).AllAfter mark φ)

/-- Without a mark in `p`, the mark is in what follows. -/
theorem AllAfter.bind {mark : S.Act → Prop} {p : Prog S α} {f : α → Prog S β}
    (hp : p.All fun a => ¬mark a) (hf : ∀ x, (f x).AllAfter mark φ) :
    (p >>= f).AllAfter mark φ := by
  induction p with
  | ret x => exact hf x
  | act a k ih =>
      intro r
      exact ⟨fun hmark => absurd hmark hp.1, fun _ => ih r (hp.2 r)⟩

/-- A branch that is decided performs one side only. -/
@[simp] theorem all_ite {c : Prop} [Decidable c] {p q : Prog S α} :
    (if c then p else q).All φ ↔ (c → p.All φ) ∧ (¬c → q.All φ) := by
  by_cases hc : c <;> simp [hc]

end Prog

end Threads
