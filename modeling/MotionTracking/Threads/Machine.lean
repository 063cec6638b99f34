import Mathlib.Logic.Function.Basic
import MotionTracking.Threads.Prog

/-!
# `MotionTracking.Threads.Machine`: running programs, alone and interleaved

A `Machine` gives the actions of a signature their meaning on a state. `exec t
a s` is what happens when thread `t` performs `a` in state `s`: the answer and
the next state, or `none` while `t` has to wait. `env e s` is a move of the
surroundings (an interrupt, a clock, a device), in which no thread takes part.

The two ways of running a program:

* `Exec`: one program on one thread, from its first action to its return value.
  Before each action a relation `rely` may change the state any number of
  times. With the empty relation this is a plain sequential run.
* `Config`, `step`, `run`: a family of threads, each with a current program and
  a loop body that starts over when the current program returns. A `Move` picks
  the thread that performs its next action, or a move of the surroundings, so a
  list of moves is a schedule and `Reaches` quantifies over all schedules.
  `step_cases` says once what a move can do.

`Machine.restrict` keeps only the steps that meet a condition: its schedules are
the schedules whose steps all meet it. `Reaches.map` compares machines on different
states.
-/

set_option autoImplicit false

namespace Threads

/-- The meaning of the actions of `S`, for threads `T`, on states `σ`, with
moves `E` of the surroundings. -/
structure Machine (S : Sig) (T σ E : Type) where
  exec : T → (a : S.Act) → σ → Option (S.Ans a × σ)
  env : E → σ → Option σ

variable {S : Sig} {T σ E α β : Type}

namespace Machine

/-- The machine that refuses every step that breaks `ok` or `envOk`. -/
def restrict (M : Machine S T σ E) (ok : T → S.Act → σ → Prop) (envOk : E → σ → Prop)
    [∀ t a s, Decidable (ok t a s)] [∀ e s, Decidable (envOk e s)] : Machine S T σ E where
  exec t a s := if ok t a s then M.exec t a s else none
  env e s := if envOk e s then M.env e s else none

/-- The machine as the one thread `t` sees it. -/
def focus (M : Machine S T σ E) (t : T) : Machine S Unit σ E where
  exec _ a s := M.exec t a s
  env := M.env

/-- An action of the restricted machine is an allowed action of the machine. -/
theorem restrict_exec_eq_some {M : Machine S T σ E} {ok : T → S.Act → σ → Prop}
    {envOk : E → σ → Prop} [∀ t a s, Decidable (ok t a s)] [∀ e s, Decidable (envOk e s)]
    {t : T} {a : S.Act} {s : σ} {rs : S.Ans a × σ} :
    (M.restrict ok envOk).exec t a s = some rs ↔ ok t a s ∧ M.exec t a s = some rs := by
  simp [restrict]

/-- A move of the restricted environment is an allowed one of the environment. -/
theorem restrict_env_eq_some {M : Machine S T σ E} {ok : T → S.Act → σ → Prop}
    {envOk : E → σ → Prop} [∀ t a s, Decidable (ok t a s)] [∀ e s, Decidable (envOk e s)]
    {e : E} {s s' : σ} :
    (M.restrict ok envOk).env e s = some s' ↔ envOk e s ∧ M.env e s = some s' := by
  simp [restrict]

/-- Every step of `M` is one of `M'`. -/
structure Le (M M' : Machine S T σ E) : Prop where
  exec : ∀ {t a s rs}, M.exec t a s = some rs → M'.exec t a s = some rs
  env : ∀ {e s s'}, M.env e s = some s' → M'.env e s = some s'

/-- A machine can do what it can do. -/
theorem Le.refl (M : Machine S T σ E) : M.Le M := ⟨id, id⟩

/-- A restriction takes moves away and adds none. -/
theorem restrict_le (M : Machine S T σ E) (ok : T → S.Act → σ → Prop) (envOk : E → σ → Prop)
    [∀ t a s, Decidable (ok t a s)] [∀ e s, Decidable (envOk e s)] :
    (M.restrict ok envOk).Le M :=
  ⟨fun h => (restrict_exec_eq_some.mp h).2, fun h => (restrict_env_eq_some.mp h).2⟩

end Machine

/-! ### One program on one thread -/

/-- `Exec M t rely p s x s'`: thread `t` runs `p` from `s` to its end, where it
returns `x` in state `s'`. Between two actions the state may change as `rely`
allows. -/
inductive Exec (M : Machine S T σ E) (t : T) (rely : σ → σ → Prop) :
    Prog S α → σ → α → σ → Prop where
  | ret (x : α) (s : σ) : Exec M t rely (.ret x) s x s
  | intf {p : Prog S α} {s s' s'' : σ} {x : α} :
      rely s s' → Exec M t rely p s' x s'' → Exec M t rely p s x s''
  | act {a : S.Act} {k : S.Ans a → Prog S α} {s s' s'' : σ} {r : S.Ans a} {x : α} :
      M.exec t a s = some (r, s') → Exec M t rely (k r) s' x s'' →
      Exec M t rely (.act a k) s x s''

/-- The machine of the one thread runs its programs alike. -/
theorem Exec.focus {M : Machine S T σ E} {t : T} {rely : σ → σ → Prop} {p : Prog S α}
    {s s' : σ} {x : α} (h : Exec M t rely p s x s') : Exec (M.focus t) () rely p s x s' := by
  induction h with
  | ret x s => exact .ret x s
  | intf hr _ ih => exact .intf hr ih
  | act hstep _ ih => exact .act hstep ih

/-- The uninterrupted run of `p` on thread `t`, when no action has to wait. -/
def runAlone (M : Machine S T σ E) (t : T) : Prog S α → σ → Option (α × σ)
  | .ret x, s => some (x, s)
  | .act a k, s => (M.exec t a s).bind fun rs => runAlone M t (k rs.1) rs.2

/-- An uninterrupted run is an execution, whatever the interference may do. -/
theorem Exec.of_runAlone {M : Machine S T σ E} {t : T} {rely : σ → σ → Prop}
    {p : Prog S α} {s s' : σ} {x : α} (h : runAlone M t p s = some (x, s')) :
    Exec M t rely p s x s' := by
  induction p generalizing s with
  | ret y =>
      simp only [runAlone, Option.some.injEq, Prod.mk.injEq] at h
      obtain ⟨rfl, rfl⟩ := h
      exact .ret y s
  | act a k ih =>
      obtain ⟨⟨r, s₁⟩, hstep, hrest⟩ := Option.bind_eq_some_iff.mp h
      exact .act hstep (ih r hrest)

/-- An uninterrupted run ends in a state with a decidable property. -/
theorem Exec.of_runAlone_any {M : Machine S T σ E} {t : T} {rely : σ → σ → Prop}
    {p : Prog S Unit} {s : σ} {f : σ → Bool}
    (h : (runAlone M t p s).any (fun r => f r.2) = true) :
    ∃ s', Exec M t rely p s () s' ∧ f s' = true := by
  obtain ⟨r, hr, hf⟩ := (Option.any_eq_true _ _).mp h
  exact ⟨r.2, .of_runAlone hr, hf⟩

/-! ### A family of threads -/

/-- The shared state and the program that each thread has still to run. -/
structure Config (S : Sig) (T σ : Type) where
  st : σ
  code : T → Prog S Unit

/-- One move of a schedule. -/
inductive Move (T E : Type) where
  | run (t : T)
  | env (e : E)
  deriving DecidableEq

variable [DecidableEq T]

/-- One move: the chosen thread performs its next action, or starts its loop
body over, or the surroundings act. `none` when the move is not possible. -/
def step (M : Machine S T σ E) (loop : T → Prog S Unit) :
    Move T E → Config S T σ → Option (Config S T σ)
  | .run t, c =>
      match c.code t with
      | .ret _ => some { c with code := Function.update c.code t (loop t) }
      | .act a k => (M.exec t a c.st).map fun rs =>
          { st := rs.2, code := Function.update c.code t (k rs.1) }
  | .env e, c => (M.env e c.st).map fun s => { c with st := s }

/-- A whole schedule. -/
def run (M : Machine S T σ E) (loop : T → Prog S Unit) :
    List (Move T E) → Config S T σ → Option (Config S T σ)
  | [], c => some c
  | m :: ms, c => (step M loop m c).bind (run M loop ms)

/-- Some schedule leads from `c` to `c'`. -/
def Reaches (M : Machine S T σ E) (loop : T → Prog S Unit) (c c' : Config S T σ) : Prop :=
  ∃ ms, run M loop ms c = some c'

variable {M : Machine S T σ E} {loop : T → Prog S Unit}

/-- A run can be cut at any point. -/
theorem run_append (ms ms' : List (Move T E)) (c : Config S T σ) :
    run M loop (ms ++ ms') c = (run M loop ms c).bind (run M loop ms') := by
  induction ms generalizing c with
  | nil => rfl
  | cons m ms ih =>
      show (step M loop m c).bind (run M loop (ms ++ ms')) = _
      rw [funext ih, ← Option.bind_assoc]
      rfl

/-- The run of no moves. -/
theorem Reaches.refl (c : Config S T σ) : Reaches M loop c c := ⟨[], rfl⟩

/-- Runs can be put one after the other. -/
theorem Reaches.trans {c c' c'' : Config S T σ} (h : Reaches M loop c c')
    (h' : Reaches M loop c' c'') : Reaches M loop c c'' := by
  obtain ⟨ms, hms⟩ := h
  obtain ⟨ms', hms'⟩ := h'
  exact ⟨ms ++ ms', by rw [run_append, hms]; exact hms'⟩

/-- A schedule leads to a configuration with a decidable property. -/
theorem Reaches.of_run_any {ms : List (Move T E)} {c : Config S T σ} {f : Config S T σ → Bool}
    (h : (run M loop ms c).any f = true) : ∃ c', Reaches M loop c c' ∧ f c' = true := by
  obtain ⟨c', hc', hf⟩ := (Option.any_eq_true _ _).mp h
  exact ⟨c', ⟨ms, hc'⟩, hf⟩

/-- The induction rule over schedules: what every possible move preserves holds
of every reachable configuration. -/
theorem Reaches.induct {P : Config S T σ → Prop} {c c' : Config S T σ}
    (h : Reaches M loop c c') (h0 : P c)
    (hstep : ∀ m c c', P c → step M loop m c = some c' → P c') : P c' := by
  obtain ⟨ms, hms⟩ := h
  induction ms generalizing c with
  | nil =>
      cases hms
      exact h0
  | cons m ms ih =>
      obtain ⟨c₁, hc₁, hrest⟩ := Option.bind_eq_some_iff.mp hms
      exact ih (hstep m c c₁ h0 hc₁) hrest

/-- A machine that can do more still does what the other one did. -/
theorem step_mono {M' : Machine S T σ E} (hM : M.Le M') {m : Move T E} {c c' : Config S T σ}
    (h : step M loop m c = some c') : step M' loop m c = some c' := by
  cases m with
  | run t =>
      cases hc : c.code t with
      | ret x => simpa only [step, hc] using h
      | act a k =>
          simp only [step, hc] at h ⊢
          obtain ⟨rs, hrs, rfl⟩ := Option.map_eq_some_iff.mp h
          rw [hM.exec hrs]
          rfl
  | env e =>
      obtain ⟨s', hs', rfl⟩ := Option.map_eq_some_iff.mp h
      simp only [step, hM.env hs', Option.map_some]

/-- What a machine reaches, a machine that can do more reaches. -/
theorem Reaches.mono {M' : Machine S T σ E} (hM : M.Le M') {c c' : Config S T σ}
    (h : Reaches M loop c c') : Reaches M' loop c c' :=
  h.induct (P := Reaches M' loop c) (.refl c) fun m _ _ hr hm =>
    hr.trans ⟨[m], by simp [run, step_mono hM hm]⟩

/-- A machine all of whose reachable steps meet a condition can as well be run
with the others refused. -/
theorem Reaches.restrict {ok : T → S.Act → σ → Prop} {envOk : E → σ → Prop}
    [∀ t a s, Decidable (ok t a s)] [∀ e s, Decidable (envOk e s)] {c c' : Config S T σ}
    (h : Reaches M loop c c')
    (hok : ∀ c', Reaches M loop c c' → ∀ t a k, c'.code t = .act a k →
      ∀ rs, M.exec t a c'.st = some rs → ok t a c'.st)
    (henv : ∀ c', Reaches M loop c c' → ∀ e s', M.env e c'.st = some s' → envOk e c'.st) :
    Reaches (M.restrict ok envOk) loop c c' := by
  have hboth : Reaches M loop c c' ∧ Reaches (M.restrict ok envOk) loop c c' := by
    refine h.induct (P := fun c' => Reaches M loop c c' ∧ Reaches (M.restrict ok envOk) loop c c')
      ⟨.refl c, .refl c⟩ ?_
    rintro m c₁ c₂ ⟨hM, hR⟩ hstep
    refine ⟨hM.trans ⟨[m], by simp [run, hstep]⟩, hR.trans ⟨[m], ?_⟩⟩
    have hsame : step (M.restrict ok envOk) loop m c₁ = some c₂ := by
      rw [← hstep]
      cases m with
      | run t =>
          cases hc : c₁.code t with
          | ret x => simp only [step, hc]
          | act a k =>
              simp only [step, hc] at hstep ⊢
              obtain ⟨rs, hrs, -⟩ := Option.map_eq_some_iff.mp hstep
              rw [hrs, Machine.restrict_exec_eq_some.mpr ⟨hok c₁ hM t a k hc rs hrs, hrs⟩]
      | env e =>
          obtain ⟨s', hs', -⟩ := Option.map_eq_some_iff.mp hstep
          simp only [step]
          rw [hs', Machine.restrict_env_eq_some.mpr ⟨henv c₁ hM e s' hs', hs'⟩]
    simp [run, hsame]
  exact hboth.2

/-- Everything one move can do. -/
theorem step_cases {m : Move T E} {c c' : Config S T σ} (h : step M loop m c = some c') :
    (∃ t, m = .run t ∧ c.code t = .ret () ∧
      c' = { c with code := Function.update c.code t (loop t) }) ∨
    (∃ t a k r s', m = .run t ∧ c.code t = .act a k ∧ M.exec t a c.st = some (r, s') ∧
      c' = { st := s', code := Function.update c.code t (k r) }) ∨
    (∃ e s', m = .env e ∧ M.env e c.st = some s' ∧ c' = { c with st := s' }) := by
  cases m with
  | run t =>
      cases hc : c.code t with
      | ret x =>
          simp only [step, hc, Option.some.injEq] at h
          exact .inl ⟨t, rfl, hc, h.symm⟩
      | act a k =>
          simp only [step, hc] at h
          obtain ⟨⟨r, s'⟩, hrs, rfl⟩ := Option.map_eq_some_iff.mp h
          exact .inr (.inl ⟨t, a, k, r, s', rfl, hc, hrs, rfl⟩)
  | env e =>
      obtain ⟨s', hs, rfl⟩ := Option.map_eq_some_iff.mp h
      exact .inr (.inr ⟨e, s', rfl, hs, rfl⟩)

/-- The configuration as `f` shows it. -/
def Config.map {σ' : Type} (f : σ → σ') (c : Config S T σ) : Config S T σ' := ⟨f c.st, c.code⟩

/-- If every step of a machine is one of another, as `f` shows the states, then so are its
runs. -/
theorem Reaches.map {σ' : Type} {M' : Machine S T σ' E} (f : σ → σ')
    (hexec : ∀ {t a s r s'}, M.exec t a s = some (r, s') → M'.exec t a (f s) = some (r, f s'))
    (henv : ∀ {e s s'}, M.env e s = some s' → M'.env e (f s) = some (f s'))
    {c c' : Config S T σ} (h : Reaches M loop c c') : Reaches M' loop (c.map f) (c'.map f) := by
  refine h.induct (P := fun c' => Reaches M' loop (c.map f) (c'.map f)) (.refl _) ?_
  intro m c₁ c₂ hr hm
  have hsame : step M' loop m (c₁.map f) = some (c₂.map f) := by
    rcases step_cases hm with ⟨t, rfl, hc, rfl⟩ | ⟨t, a, k, r, s', rfl, hc, he, rfl⟩ |
      ⟨e, s', rfl, he, rfl⟩
    · simp only [step, Config.map, hc]
    · simp only [step, Config.map, hc, hexec he]
      rfl
    · simp only [step, Config.map, henv he]
      rfl
  exact hr.trans ⟨[m], by simp [run, hsame]⟩

/-- What every action of the threads' code and of their loop bodies satisfies, every
action satisfies that is ever to come. -/
theorem Reaches.all {c c' : Config S T σ} (h : Reaches M loop c c') (φ : T → S.Act → Prop)
    (h0 : ∀ t, (c.code t).All (φ t)) (hloop : ∀ t, (loop t).All (φ t)) :
    ∀ t, (c'.code t).All (φ t) := by
  refine h.induct (P := fun c => ∀ t, (c.code t).All (φ t)) h0 fun m c₁ c₂ h₁ hm u => ?_
  rcases step_cases hm with ⟨t, -, -, rfl⟩ | ⟨t, a, k, r, s', -, hc, -, rfl⟩ | ⟨e, s', -, -, rfl⟩
  · by_cases hu : u = t
    · subst hu
      simpa using hloop u
    · simpa [Function.update_of_ne hu] using h₁ u
  · by_cases hu : u = t
    · subst hu
      have hall := h₁ u
      rw [hc] at hall
      simpa using hall.2 r
    · simpa [Function.update_of_ne hu] using h₁ u
  · exact h₁ u

end Threads
