import MotionTracking.Firmware.Effect
import MotionTracking.Proofs.Discipline

/-!
# `MotionTracking.Proofs.Guarded`: variables under `mpu.c`'s mutex

A `Guard` names two kinds of data: `priv t`, which only thread `t` changes, and
`prot`, which nobody changes while another thread holds `mpu.c`'s mutex. While
nobody has the mutex, `free` holds. A thread that takes the mutex can rely on
`free`, and has to restore it before it gives the mutex back. `glob o` holds
always, where `o` is the owner of the mutex.

`guarded M G` is the outline of this, for a machine `M` that keeps the rules of
the mutexes. The rules for the mutex actions are here, once. Of the other
actions a proof has to say what they do to its data (`guarded_act`), for whole
stretches of code by their footprint (`guarded_within`).
-/

set_option autoImplicit false

namespace MotionTracking

open ChibiOS (Kernel)
open Threads (Machine Outline)
open Threads.Outline (Sat Triple)
open Threads.Prog (perform)
open Footprint (Within Effect)

variable {F α β : Type}

/-- An action on a mutex. -/
def Act.isMutex : Act F → Bool
  | .mtxInit _ => true
  | .mtxLock _ => true
  | .mtxResume => true
  | .mtxUnlock _ => true
  | _ => false

/-- A step of the kernel, and its log entry. -/
structure KernStep (t : Tid) (s s' : Sys F) : Prop where
  mpu : s'.mpu = s.mpu
  ser : s'.ser = s.ser
  i2c : s'.i2c = s.i2c
  results : s'.results = s.results
  regs : s'.regs = s.regs
  sd2 : s'.sd2 = s.sd2
  started : s'.started = s.started
  log : s'.log = s.log ∨
    ∃ m top, s'.log = Function.update s.log t (.unlocked m top :: s.log t)

/-- An action on a mutex is a step of the kernel. -/
theorem kernStep_of_isMutex {t : Tid} {a : Act F} {s s' : Sys F} {r : a.Ans}
    (ha : a.isMutex = true) (h : s.exec t a = some (r, s')) : KernStep t s s' := by
  cases a with
  | mtxInit m =>
      rw [Sys.exec_mtxInit h]
      exact ⟨rfl, rfl, rfl, rfl, rfl, rfl, rfl, .inl rfl⟩
  | mtxLock m =>
      rw [Sys.exec_mtxLock h]
      exact ⟨rfl, rfl, rfl, rfl, rfl, rfl, rfl, .inl rfl⟩
  | mtxResume =>
      obtain ⟨k, -, rfl⟩ := Sys.exec_mtxResume h
      exact ⟨rfl, rfl, rfl, rfl, rfl, rfl, rfl, .inl rfl⟩
  | mtxUnlock m =>
      rw [Sys.exec_mtxUnlock h]
      exact ⟨rfl, rfl, rfl, rfl, rfl, rfl, rfl, .inr ⟨m, _, rfl⟩⟩
  | _ => cases ha

/-- The owner of a mutex after an action on mutexes: the one before, or the
thread that locks a free mutex, or after `chMtxUnlock` anybody else. -/
theorem owner_step {t : Tid} {a : Act F} {s s' : Sys F} {r : a.Ans} {m : Mtx} (hs : s.kern.Wf)
    (hd : Disciplined t s a) (hi : InitOk s a) (ha : a.isMutex = true)
    (h : s.exec t a = some (r, s')) :
    s'.kern.owner m = s.kern.owner m ∨
    (a = .mtxLock m ∧ s.kern.owner m = none ∧ s'.kern.owner m = some t) ∨
    (a = .mtxUnlock m ∧ s'.kern.owner m ≠ some t) := by
  cases a with
  | mtxInit m' =>
      rw [Sys.exec_mtxInit h]
      by_cases hm : m = m'
      · subst hm
        simp [Kernel.chMtxObjectInit, (Kernel.not_used.mp hi).1]
      · simp [Kernel.chMtxObjectInit, hm]
  | mtxLock m' =>
      rw [Sys.exec_mtxLock h]
      by_cases hm : m = m'
      · subst hm
        by_cases hfree : s.kern.owner m = none
        · exact .inr (.inl ⟨rfl, hfree, by simp [Kernel.chMtxLockS, hfree]⟩)
        · exact .inl (by simp [Kernel.chMtxLockS, hfree])
      · exact .inl (Kernel.owner_chMtxLockS_of_ne hm t s.kern)
  | mtxResume =>
      obtain ⟨k, hk, rfl⟩ := Sys.exec_mtxResume h
      exact .inl (congrFun (Kernel.owner_chMtxResume hk) m)
  | mtxUnlock m' =>
      rw [Sys.exec_mtxUnlock h]
      by_cases hm : m = m'
      · subst hm
        refine .inr (.inr ⟨rfl, fun ho => ?_⟩)
        cases hq : s.kern.queue m with
        | nil => simp [Kernel.chMtxUnlock, hq] at ho
        | cons u q =>
            have hu := hs.queued m u (by simp [hq])
            have hut : u = t := by simpa [Kernel.chMtxUnlock, hq] using ho
            simp [hut, hd.1] at hu
      · exact .inl (Kernel.owner_chMtxUnlock_of_ne hm t s.kern)
  | _ => cases ha

/-- The other actions leave the kernel alone. -/
theorem kern_of_not_isMutex {t : Tid} {a : Act F} {s s' : Sys F} {r : a.Ans}
    (ha : a.isMutex = false) (h : s.exec t a = some (r, s')) : s'.kern = s.kern := by
  by_cases hp : a.plain = true
  · exact (Sys.exec_plain hp h).kern
  cases a with
  | thdCreate u => rw [Sys.exec_thdCreate h]
  | i2cStart => rw [Sys.exec_i2cStart h]
  | i2cBegin => rw [Sys.exec_i2cBegin h]
  | i2cTransfer addr txbytes rxbytes =>
      rw [Sys.exec_i2cTransfer h]
      rfl
  | i2cEnd => rw [(Sys.exec_i2cEnd h).2]
  | mtxInit m => cases ha
  | mtxLock m => cases ha
  | mtxResume => cases ha
  | mtxUnlock m => cases ha
  | _ => exact absurd rfl hp

/-- Only `chMtxUnlock` lets go of a mutex. -/
theorem taken_step {t : Tid} {a : Act F} {s s' : Sys F} {r : a.Ans} {m : Mtx}
    (hd : Disciplined t s a) (hi : InitOk s a) (ha : a ≠ .mtxUnlock m)
    (h : s.exec t a = some (r, s')) (hm : s.kern.Taken m) : s'.kern.Taken m := by
  cases hmtx : a.isMutex with
  | false => rwa [kern_of_not_isMutex hmtx h]
  | true =>
      cases a with
      | mtxInit m' =>
          rw [Sys.exec_mtxInit h]
          refine hm.chMtxObjectInit ?_
          rintro rfl
          obtain ⟨u, hu, -⟩ := hm
          exact hi (.inl (by simp [hu]))
      | mtxLock m' =>
          rw [Sys.exec_mtxLock h]
          exact hm.chMtxLockS hd m'
      | mtxResume =>
          obtain ⟨k, hk, rfl⟩ := Sys.exec_mtxResume h
          exact hm.chMtxResume hk
      | mtxUnlock m' =>
          rw [Sys.exec_mtxUnlock h]
          refine hm.chMtxUnlock ?_ t
          rintro rfl
          exact ha rfl
      | _ => cases hmtx

/-! ### Guards -/

/-- Data and invariants for an outline (module doc). `safe` is what must hold
when a thread is about to perform an action. -/
structure GuardData (F : Type) where
  Priv : Tid → Type
  Prot : Type
  priv : ∀ t, Sys F → Priv t
  prot : Sys F → Prot
  free : Sys F → Prop
  glob : Option Tid → Sys F → Prop
  safe : Tid → Act F → Sys F → Prop

/-- A step that changes none of the data and breaks no invariant. -/
structure GuardData.Same (G : GuardData F) (s s' : Sys F) : Prop where
  priv : ∀ t, G.priv t s' = G.priv t s
  prot : G.prot s' = G.prot s
  free : G.free s → G.free s'
  glob : ∀ o, G.glob o s → G.glob o s'

/-- The data of a guard has nothing to do with the mutexes themselves. -/
structure Guard (F : Type) extends GuardData F where
  same_of_kern : ∀ {t s s'}, KernStep t s s' → toGuardData.Same s s'

/-- A thread's place with respect to the mutex: outside, asked for it and not on
again yet, or holding it over protected data `p`. -/
inductive Phase (P : Type) where
  | out
  | waits
  | holds (p : P)

/-- The phase of a thread with this view of the kernel. -/
def Phase.of {P : Type} (k : Kernel.View Mtx) (p : P) : Phase P :=
  if (k.held .mpu).isSome then .holds p
  else match k.run with
    | .waits .mpu => .waits
    | .stuck .mpu => .waits
    | _ => .out

namespace Guard

variable (G : Guard F)

/-- A thread's phase and its private data. -/
structure View (t : Tid) where
  phase : Phase G.Prot
  priv : G.Priv t

/-- The view of a thread in a state. -/
def view (t : Tid) (s : Sys F) : G.View t :=
  ⟨.of (s.kern.view t) (G.prot s), G.priv t s⟩

/-- The kernel is well formed, the protected data are in order while the mutex is free,
and the global invariant holds for the owner. -/
structure Inv (s : Sys F) : Prop where
  wf : s.kern.Wf
  free : ¬s.kern.Taken .mpu → G.free s
  glob : G.glob (s.kern.owner .mpu) s

end Guard

/-- The outline of a guard. An action that is not on a mutex must be safe. -/
def guarded (M : Machine (sig F) Tid (Sys F) EnvMove) (G : Guard F) : Outline M where
  View t := G.View t
  view t s := G.view t s
  inv := G.Inv
  safe t a s := a.isMutex = false → G.safe t a s
  guar _ _ _ _ _ := True

section
variable {G : Guard F} {t : Tid} {s : Sys F}

/-- A thread whose phase says so holds the mutex, over the data as they are. -/
theorem holds_of_phase {p : G.Prot} (h : (G.view t s).phase = .holds p) :
    s.kern.Holds t .mpu ∧ G.prot s = p := by
  simp only [Guard.view, Phase.of] at h
  split at h
  · cases h
    exact ⟨Kernel.view_held_isSome.mp ‹_›, rfl⟩
  · split at h <;> cases h

/-- And the other way round. -/
theorem phase_of_holds (h : s.kern.Holds t .mpu) : (G.view t s).phase = .holds (G.prot s) :=
  if_pos (Kernel.view_held_isSome.mpr h)

/-- A running thread is not waiting. -/
theorem phase_of_running (h : s.kern.wtmtx t = none) : (G.view t s).phase ≠ .waits := by
  have hrun := Kernel.view_run_eq_running.mpr h
  simp only [Guard.view, Phase.of, hrun]
  split <;> simp

/-- A mutex that was handed over belongs to a thread that waits for it. -/
theorem owner_of_out (h : (G.view t s).phase = .out) : s.kern.owner .mpu ≠ some t := by
  intro ho
  by_cases hw : s.kern.wtmtx t = some .mpu
  · have hnone : ((s.kern.view t).held .mpu).isSome = false := by
      simp [Kernel.view, hw]
    have hrun : (s.kern.view t).run = .waits .mpu ∨ (s.kern.view t).run = .stuck .mpu := by
      simp only [Kernel.view, hw]
      split
      · exact .inr rfl
      · exact .inl rfl
    rcases hrun with hrun | hrun <;> simp [Guard.view, Phase.of, hnone, hrun] at h
  · rw [phase_of_holds ⟨ho, hw⟩] at h
    cases h

/-- A thread that sleeps at the mutex waits for it. -/
theorem phase_of_waits {P : Type} {k : Kernel.View Mtx} {p : P} (hk : k.run = .waits .mpu)
    (hheld : k.held .mpu = none) : Phase.of k p = .waits := by
  simp [Phase.of, hk, hheld]

/-- A thread that has taken the mutex holds it. -/
theorem phase_lock {P : Type} (k : Kernel.View Mtx) (p : P) :
    Phase.of (k.lock .mpu) p = .holds p := by
  simp [Phase.of, Kernel.View.lock]

/-- Taking another mutex, after waiting for it or not, keeps the phase. -/
theorem phase_lock_of_ne {P : Type} {k : Kernel.View Mtx} {p : P} {m : Mtx} (hm : m ≠ .mpu)
    (hk : k.run = .running ∨ k.run = .waits m) : Phase.of (k.lock m) p = Phase.of k p := by
  cases hheld : (k.held .mpu).isSome with
  | true => simp [Phase.of, Kernel.View.lock, Ne.symm hm, hheld]
  | false =>
      rcases hk with hk | hk
      · simp [Phase.of, Kernel.View.lock, Ne.symm hm, hheld, hk]
      · cases m with
        | mpu => exact absurd rfl hm
        | _ => simp [Phase.of, Kernel.View.lock, hheld, hk]

end

section
variable {M : Machine (sig F) Tid (Sys F) EnvMove} [hM : Polite M] {G : Guard F} {t : Tid}
  {v : G.View t}

/-! ### One action -/

omit hM in
/-- The rule for a sequence. -/
theorem guarded_bind {p : Prog F α} {f : α → Prog F β} {Q : β → G.View t → Prop}
    (h : (guarded M G).Sat t p (fun x => (guarded M G).Sat t (f x) Q) v) :
    (guarded M G).Sat t (p >>= f) Q v :=
  Sat.bind h

/-- Another thread's view stays, when its own data does, and the protected data
does if it holds the mutex. -/
theorem view_frame {u : Tid} {a : Act F} {s s' : Sys F} {r : a.Ans}
    (hs : s.kern.Wf) (h : M.exec t a s = some (r, s')) (hu : u ≠ t)
    (hpriv : G.priv u s' = G.priv u s) (hprot : s.kern.Holds u .mpu → G.prot s' = G.prot s) :
    G.view u s' = G.view u s := by
  obtain ⟨hd, hi, hexec⟩ := polite_exec h
  simp only [Guard.view, kern_frame hs hd hi hexec hu, hpriv, Guard.View.mk.injEq, and_true]
  by_cases hh : s.kern.Holds u .mpu
  · rw [hprot hh]
  · have hnone : ¬((s.kern.view u).held .mpu).isSome = true :=
      fun h => hh (Kernel.view_held_isSome.mp h)
    simp only [Phase.of, if_neg hnone]

/-- What an action that is not on a mutex owes. -/
structure Guard.Step (G : Guard F) (t : Tid) (s s' : Sys F) : Prop where
  glob : G.glob (s.kern.owner .mpu) s'
  free : ¬s.kern.Taken .mpu → G.free s'
  priv : ∀ u, u ≠ t → G.priv u s' = G.priv u s
  prot : ∀ u, u ≠ t → s.kern.Holds u .mpu → G.prot s' = G.prot s

/-- A step that changes none of the data owes nothing. -/
theorem GuardData.Same.step {s s' : Sys F} (h : G.Same s s') (hs : G.Inv s) : G.Step t s s' :=
  ⟨h.glob _ hs.glob, fun hn => h.free (hs.free hn), fun u _ => h.priv u, fun _ _ _ => h.prot⟩

/-- The obligations of an action that is not on a mutex. -/
theorem guarded_act {a : Act F} {k : a.Ans → Prog F α} {Q : α → G.View t → Prop}
    (ha : a.isMutex = false)
    (h : ∀ s, G.Inv s → G.view t s = v → G.safe t a s ∧
      ∀ r s', M.exec t a s = some (r, s') → s.exec t a = some (r, s') →
        G.Step t s s' ∧ (guarded M G).Sat t (k r) Q (G.view t s')) :
    (guarded M G).Sat t (.act a k) Q v := by
  intro s hs hv
  obtain ⟨hsafe, hstep⟩ := h s hs hv
  refine ⟨fun _ => hsafe, fun r s' hrs => ?_⟩
  obtain ⟨hd, -, hexec⟩ := polite_exec hrs
  obtain ⟨hst, hrest⟩ := hstep r s' hrs hexec
  have hkern := kern_of_not_isMutex ha hexec
  refine ⟨⟨⟨wf_step hs.wf hd hexec, fun h => hst.free (hkern ▸ h), hkern ▸ hst.glob⟩, trivial,
    fun u hu => ?_⟩, hrest⟩
  exact view_frame hs.wf hrs hu (hst.priv u hu) (hst.prot u hu)

/-- An action on the thread's private data. -/
theorem guarded_own {a : Act F} {k : a.Ans → Prog F α} {Q : α → G.View t → Prop}
    (ha : a.isMutex = false)
    (h : ∀ s, G.Inv s → G.view t s = v → G.safe t a s ∧
      ∀ r s', M.exec t a s = some (r, s') → s.exec t a = some (r, s') →
        G.prot s' = G.prot s ∧ (G.free s → G.free s') ∧ (∀ u, u ≠ t → G.priv u s' = G.priv u s) ∧
        G.glob (s.kern.owner .mpu) s' ∧ (guarded M G).Sat t (k r) Q ⟨v.phase, G.priv t s'⟩) :
    (guarded M G).Sat t (.act a k) Q v := by
  refine guarded_act ha fun s hs hv => ⟨(h s hs hv).1, fun r s' hrs hexec => ?_⟩
  obtain ⟨hprot, hfree, hpriv, hglob, hrest⟩ := (h s hs hv).2 r s' hrs hexec
  refine ⟨⟨hglob, fun hn => hfree (hs.free hn), hpriv, fun _ _ _ => hprot⟩, ?_⟩
  have hview : G.view t s' = ⟨v.phase, G.priv t s'⟩ := by
    subst hv
    simp only [Guard.view, kern_of_not_isMutex ha hexec, hprot]
  rwa [hview]

/-- An action of the thread that holds the mutex. -/
theorem guarded_held {a : Act F} {k : a.Ans → Prog F α} {Q : α → G.View t → Prop} {p : G.Prot}
    (ha : a.isMutex = false) (hp : v.phase = .holds p)
    (h : ∀ s, G.glob (some t) s → G.prot s = p → G.priv t s = v.priv → G.safe t a s ∧
      ∀ r s', M.exec t a s = some (r, s') → s.exec t a = some (r, s') →
        (∀ u, u ≠ t → G.priv u s' = G.priv u s) ∧ G.glob (some t) s' ∧
        (guarded M G).Sat t (k r) Q ⟨.holds (G.prot s'), G.priv t s'⟩) :
    (guarded M G).Sat t (.act a k) Q v := by
  refine guarded_act ha fun s hs hv => ?_
  obtain ⟨hh, hprot⟩ := holds_of_phase ((congrArg Guard.View.phase hv).trans hp)
  obtain ⟨hsafe, hstep⟩ := h s (hh.1 ▸ hs.glob) hprot (congrArg Guard.View.priv hv)
  refine ⟨hsafe, fun r s' hrs hexec => ?_⟩
  obtain ⟨hpriv, hglob, hrest⟩ := hstep r s' hrs hexec
  refine ⟨⟨hh.1 ▸ hglob, fun hn => absurd hh.taken hn, hpriv,
    fun _ hu hu' => absurd (hu'.unique hh) hu⟩, ?_⟩
  have hview : G.view t s' = ⟨.holds (G.prot s'), G.priv t s'⟩ :=
    congrArg₂ Guard.View.mk
      (phase_of_holds (s := s') ((kern_of_not_isMutex ha hexec).symm ▸ hh)) rfl
  rwa [hview]

/-- An action that changes none of the data. -/
theorem guarded_same {a : Act F} {k : a.Ans → Prog F α} {Q : α → G.View t → Prop}
    (ha : a.isMutex = false) (hsafe : ∀ s, G.Inv s → G.view t s = v → G.safe t a s)
    (hsame : ∀ s r s', G.Inv s → G.view t s = v → s.exec t a = some (r, s') →
      G.Same s s' ∧ (guarded M G).Sat t (k r) Q v) :
    (guarded M G).Sat t (.act a k) Q v := by
  refine guarded_act ha fun s hs hv => ⟨hsafe s hs hv, fun r s' _ hrs => ?_⟩
  obtain ⟨hsm, hrest⟩ := hsame s r s' hs hv hrs
  refine ⟨hsm.step hs, ?_⟩
  have hview : G.view t s' = v := by
    rw [← hv]
    simp only [Guard.view, kern_of_not_isMutex ha hrs, hsm.priv, hsm.prot]
  rwa [hview]

/-- No step at all changes none of the data. -/
theorem GuardData.Same.refl (G : GuardData F) (s : Sys F) : G.Same s s :=
  ⟨fun _ => rfl, rfl, id, fun _ => id⟩

/-- The rule for reading the variables of `mpu.c`. -/
theorem guarded_getMpu {Q : MpuC F → G.View t → Prop} (hsafe : ∀ s, G.safe t .getMpu s)
    (h : ∀ s, G.Inv s → G.view t s = v → Q s.mpu v) : (guarded M G).Sat t getMpu Q v := by
  refine guarded_same rfl (fun s _ _ => hsafe s) fun s r s' hs hv hrs => ?_
  obtain ⟨rfl, rfl⟩ := Sys.exec_getMpu hrs
  exact ⟨.refl _ _, h _ hs hv⟩

/-- The rule for reading the variables of `serialcomm.c`. -/
theorem guarded_getSer {Q : SerC F → G.View t → Prop} (hsafe : ∀ s, G.safe t .getSer s)
    (h : ∀ s, G.Inv s → G.view t s = v → Q s.ser v) : (guarded M G).Sat t getSer Q v := by
  refine guarded_same rfl (fun s _ _ => hsafe s) fun s r s' hs hv hrs => ?_
  obtain ⟨rfl, rfl⟩ := Sys.exec_getSer hrs
  exact ⟨.refl _ _, h _ hs hv⟩

/-- The obligations of a mutex action. To give `mpu.c`'s mutex back, the thread
needs `free`. -/
theorem guarded_mutex {a : Act F} {k : a.Ans → Prog F α} {Q : α → G.View t → Prop}
    (ha : a.isMutex = true)
    (h : ∀ s, G.Inv s → G.view t s = v → ∀ r s', M.exec t a s = some (r, s') →
      (a = .mtxUnlock .mpu → G.free s) ∧
      (s'.kern.owner .mpu ≠ s.kern.owner .mpu → G.glob (s'.kern.owner .mpu) s) ∧
        (guarded M G).Sat t (k r) Q ⟨.of (s'.kern.view t) (G.prot s), v.priv⟩) :
    (guarded M G).Sat t (.act a k) Q v := by
  refine fun s hs hv => ⟨fun hno => absurd ha (by simp [hno]), fun r s' hrs => ?_⟩
  obtain ⟨hfree, howner, hrest⟩ := h s hs hv r s' hrs
  obtain ⟨hd, hi, hexec⟩ := polite_exec hrs
  have hsame := G.same_of_kern (kernStep_of_isMutex ha hexec)
  refine ⟨⟨⟨wf_step hs.wf hd hexec, fun hnot => hsame.free ?_, hsame.glob _ ?_⟩, trivial,
    fun u hu => view_frame hs.wf hrs hu (hsame.priv u) fun _ => hsame.prot⟩, ?_⟩
  · by_cases hun : a = .mtxUnlock .mpu
    · exact hfree hun
    · exact hs.free fun ht => hnot (taken_step hd hi hun hexec ht)
  · by_cases ho : s'.kern.owner .mpu = s.kern.owner .mpu
    · exact ho ▸ hs.glob
    · exact howner ho
  · rw [← hv] at hrest
    simp only [guarded, Guard.view, hsame.priv, hsame.prot] at hrest ⊢
    exact hrest

/-- The obligations of an action on mutexes that leaves the owner of `mpu.c`'s
mutex. -/
theorem guarded_elsewhere {a : Act F} {k : a.Ans → Prog F α} {Q : α → G.View t → Prop}
    (ha : a.isMutex = true) (hlock : a ≠ .mtxLock .mpu) (hunlock : a ≠ .mtxUnlock .mpu)
    (h : ∀ s, G.Inv s → G.view t s = v → ∀ r s', M.exec t a s = some (r, s') →
      (guarded M G).Sat t (k r) Q ⟨.of (s'.kern.view t) (G.prot s), v.priv⟩) :
    (guarded M G).Sat t (.act a k) Q v := by
  refine guarded_mutex ha fun s hs hv r s' hrs => ⟨fun h => absurd h hunlock, fun ho => ?_,
    h s hs hv r s' hrs⟩
  obtain ⟨hd, hi, hexec⟩ := polite_exec hrs
  rcases owner_step hs.wf hd hi ha hexec with heq | ⟨h, -⟩ | ⟨h, -⟩
  · exact absurd heq ho
  · exact absurd h hlock
  · exact absurd h hunlock

/-! ### Mutexes -/

/-- What a thread learns when it gets `mpu.c`'s mutex. -/
def Gets (G : Guard F) (t : Tid) (w : G.Priv t) (R : G.View t → Prop) : Prop :=
  ∀ s, G.free s → G.glob (some t) s → s.started t = true → G.priv t s = w →
    R ⟨.holds (G.prot s), w⟩

/-- The thread runs on. Where it has waited for `mpu.c`'s mutex, it holds it
now. -/
theorem guarded_mtxResume {k : Unit → Prog F α} {Q : α → G.View t → Prop}
    (hkeep : v.phase ≠ .waits → (guarded M G).Sat t (k ()) Q v)
    (htake : v.phase = .waits → Gets G t v.priv ((guarded M G).Sat t (k ()) Q)) :
    (guarded M G).Sat t (.act .mtxResume k) Q v := by
  refine guarded_elsewhere rfl (by simp) (by simp) fun s hs hv r s' hrs => ?_
  subst hv
  obtain ⟨-, -, hexec⟩ := polite_exec hrs
  obtain ⟨k', hk, rfl⟩ := Sys.exec_mtxResume hexec
  rcases Kernel.view_chMtxResume_self hs.wf hk with ⟨hw, rfl⟩ | ⟨m, hw, hview⟩
  · exact hkeep (phase_of_running hw)
  · obtain ⟨hnot, hne⟩ := Kernel.not_taken_of_chMtxResume hk hw
    simp only [hview]
    by_cases hm : m = .mpu
    · subst hm
      have hnone : (s.kern.view t).held .mpu = none := by
        by_contra hne
        exact hnot (Kernel.view_held_isSome.mp (Option.isSome_iff_ne_none.mpr hne)).taken
      have hheld : k'.Holds t .mpu := by
        rw [← Kernel.view_held_isSome, hview]
        simp [Kernel.View.lock]
      have howner : s.kern.owner .mpu = some t := by
        rw [← Kernel.owner_chMtxResume hk]
        exact hheld.1
      rw [phase_lock]
      exact htake (phase_of_waits hw hnone) s (hs.free hnot) (howner ▸ hs.glob)
        (Sys.exec_started hexec) rfl
    · have hphase : (G.view t s).phase ≠ .waits := by
        simp only [Guard.view, Phase.of, hw]
        split
        · simp
        · cases m <;> simp_all
      rw [phase_lock_of_ne hm (.inr hw)]
      exact hkeep hphase

/-- The first half of `chMtxLock` of `mpu.c`'s mutex. -/
theorem guarded_mtxLock_mpu {k : Unit → Prog F α} {Q : α → G.View t → Prop}
    (hglob : ∀ s rs, G.Inv s → G.view t s = v → M.exec t (.mtxLock .mpu) s = some rs →
      s.kern.owner .mpu = none → G.glob none s → G.glob (some t) s)
    (htake : Gets G t v.priv ((guarded M G).Sat t (k ()) Q))
    (hwait : (guarded M G).Sat t (k ()) Q ⟨.waits, v.priv⟩) :
    (guarded M G).Sat t (.act (.mtxLock .mpu) k) Q v := by
  refine guarded_mutex rfl fun s hs hv r s' hrs => ⟨fun h => (by cases h), fun ho => ?_, ?_⟩
  · obtain ⟨hd, hi, hexec⟩ := polite_exec hrs
    rcases owner_step hs.wf hd hi rfl hexec with heq | ⟨-, hnone, hsome⟩ | ⟨h, -⟩
    · exact absurd heq ho
    · exact hsome ▸ hglob s _ hs hv hrs hnone (hnone ▸ hs.glob)
    · cases h
  · have henter := hglob s (r, s') hs hv hrs
    subst hv
    obtain ⟨hrun, -, hexec⟩ := polite_exec hrs
    rw [Sys.exec_mtxLock hexec]
    rcases Kernel.view_chMtxLockS_self hrun .mpu with ⟨hfree, -, hview⟩ | ⟨hheld, hview⟩ |
      ⟨-, hview⟩
    · -- The mutex was free.
      have hnot : ¬s.kern.Taken .mpu := fun ⟨u, hu, _⟩ => by simp [hfree] at hu
      simp only [hview, phase_lock]
      exact htake s (hs.free hnot) (henter hfree (hfree ▸ hs.glob)) (Sys.exec_started hexec) rfl
    · -- The thread waits for it.
      have hphase : Phase.of { s.kern.view t with run := .waits .mpu } (G.prot s) = .waits :=
        phase_of_waits rfl hheld
      simp only [hview, hphase]
      exact hwait
    · -- The thread holds it, and waits for ever. The rule for waiting covers this.
      have hphase : Phase.of { s.kern.view t with
          run := .stuck .mpu, held := Function.update (s.kern.view t).held .mpu none }
          (G.prot s) = .waits := by
        simp [Phase.of]
      simp only [hview, hphase]
      exact hwait

/-- The first half of `chMtxLock` of another mutex. -/
theorem guarded_mtxLock {m : Mtx} (hm : m ≠ .mpu) {k : Unit → Prog F α}
    {Q : α → G.View t → Prop} (h : v.phase ≠ .waits → (guarded M G).Sat t (k ()) Q v) :
    (guarded M G).Sat t (.act (.mtxLock m) k) Q v := by
  refine guarded_elsewhere rfl (fun h => hm (Act.mtxLock.inj h)) (by simp)
    fun s hs hv r s' hrs => ?_
  subst hv
  obtain ⟨hrun, -, hexec⟩ := polite_exec hrs
  rw [Sys.exec_mtxLock hexec]
  have hrunning := Kernel.view_run_eq_running.mpr hrun
  have hkeep : Phase.of ((s.kern.chMtxLockS t m).view t) (G.prot s) = (G.view t s).phase := by
    rcases Kernel.view_chMtxLockS_self hrun m with ⟨-, -, hview⟩ | ⟨-, hview⟩ | ⟨-, hview⟩
    · rw [hview]
      exact phase_lock_of_ne hm (.inl hrunning)
    · rw [hview]
      cases m with
      | mpu => exact absurd rfl hm
      | _ => simp only [Guard.view, Phase.of, hrunning]
    · rw [hview]
      cases m with
      | mpu => exact absurd rfl hm
      | _ => simp [Guard.view, Phase.of, hrunning]
  simp only [hkeep]
  exact h (phase_of_running hrun)

/-- `chMtxUnlock` of `mpu.c`'s mutex. -/
theorem guarded_mtxUnlock_mpu {k : Unit → Prog F α} {Q : α → G.View t → Prop}
    (hfree : ∀ s, v.phase = .holds (G.prot s) → G.priv t s = v.priv → G.glob (some t) s →
      s.started t = true → G.free s ∧ ∀ o, o ≠ some t → G.glob o s)
    (h : ∀ p, v.phase = .holds p → (guarded M G).Sat t (k ()) Q ⟨.out, v.priv⟩) :
    (guarded M G).Sat t (.act (.mtxUnlock .mpu) k) Q v := by
  refine guarded_mutex rfl fun s hs hv r s' hrs => ?_
  subst hv
  obtain ⟨hd, hi, hexec⟩ := polite_exec hrs
  obtain ⟨hrun, hholds⟩ := id hd
  have hphase := phase_of_holds (G := G) hholds
  obtain ⟨hfree, hglob⟩ := hfree s hphase rfl (hholds.1 ▸ hs.glob) (Sys.exec_started hexec)
  refine ⟨fun _ => hfree, fun ho => ?_, ?_⟩
  · rcases owner_step hs.wf hd hi rfl hexec with heq | ⟨h, -⟩ | ⟨-, hne⟩
    · exact absurd heq ho
    · cases h
    · exact hglob _ hne
  · obtain ⟨L, hL⟩ := Option.isSome_iff_exists.mp (Kernel.view_held_isSome.mpr hholds)
    rw [Sys.exec_mtxUnlock hexec]
    simp only [Kernel.view_chMtxUnlock_self hs.wf hrun hL]
    have hout : Phase.of ((s.kern.view t).unlock .mpu L) (G.prot s) = .out := by
      simp [Phase.of, Kernel.View.unlock]
    rw [hout]
    exact h _ hphase

/-- `chMtxUnlock` of another mutex. -/
theorem guarded_mtxUnlock {m : Mtx} (hm : m ≠ .mpu) {k : Unit → Prog F α}
    {Q : α → G.View t → Prop} (h : (guarded M G).Sat t (k ()) Q v) :
    (guarded M G).Sat t (.act (.mtxUnlock m) k) Q v := by
  refine guarded_elsewhere rfl (by simp) (fun h => hm (Act.mtxUnlock.inj h))
    fun s hs hv r s' hrs => ?_
  subst hv
  obtain ⟨⟨hrun, hholds⟩, -, hexec⟩ := polite_exec hrs
  obtain ⟨L, hL⟩ := Option.isSome_iff_exists.mp (Kernel.view_held_isSome.mpr hholds)
  rw [Sys.exec_mtxUnlock hexec]
  simp only [Kernel.view_chMtxUnlock_self hs.wf hrun hL]
  have hrunning := Kernel.view_run_eq_running.mpr hrun
  have hkeep : Phase.of ((s.kern.view t).unlock m L) (G.prot s) = (G.view t s).phase := by
    simp [Guard.view, Phase.of, Kernel.View.unlock, Ne.symm hm, hrunning]
  rw [hkeep]
  exact h

/-- `chMtxLock` of `mpu.c`'s mutex. A thread that holds it already never
returns. -/
theorem guarded_chMtxLock_mpu {Q : Unit → G.View t → Prop}
    (hglob : ∀ s rs, G.Inv s → G.view t s = v → M.exec t (.mtxLock .mpu) s = some rs →
      s.kern.owner .mpu = none → G.glob none s → G.glob (some t) s)
    (h : Gets G t v.priv (Q ())) : (guarded M G).Sat t (chMtxLock (F := F) .mpu) Q v := by
  refine guarded_mtxLock_mpu hglob (fun s hfree hglob hst hpriv => ?_) ?_
  · exact guarded_mtxResume (fun _ => h s hfree hglob hst hpriv) fun hw => (by cases hw)
  · exact guarded_mtxResume (fun hw => absurd rfl hw) fun _ => h

/-- The rule for taking another mutex. -/
theorem guarded_chMtxLock {m : Mtx} (hm : m ≠ .mpu) {Q : Unit → G.View t → Prop}
    (h : v.phase ≠ .waits → Q () v) : (guarded M G).Sat t (chMtxLock (F := F) m) Q v := by
  refine guarded_mtxLock hm fun hv => ?_
  exact guarded_mtxResume (fun _ => h hv) fun hw => absurd hw hv

/-- The rule for initialising a mutex. -/
theorem guarded_chMtxObjectInit {m : Mtx} {Q : Unit → G.View t → Prop} (h : Q () v) :
    (guarded M G).Sat t (chMtxObjectInit (F := F) m) Q v := by
  refine guarded_elsewhere rfl (by simp) (by simp) fun s hs hv r s' hrs => ?_
  subst hv
  obtain ⟨-, hi, hexec⟩ := polite_exec hrs
  obtain ⟨ho, hq⟩ := Kernel.not_used.mp hi
  rw [Sys.exec_mtxInit hexec]
  simp only [Kernel.view_chMtxObjectInit ho hq]
  exact h

/-! ### Whole stretches of code -/

/-- Code with footprint `A`, run by `t` while its view meets `R`, leaves all the
data alone. -/
structure Untouched (G : Guard F) (t : Tid) (A : Footprint) (R : G.View t → Prop) : Prop where
  safe : ∀ a s, A.Within a → G.Inv s → R (G.view t s) → G.safe t a s
  same : ∀ s s', A.Effect t s s' → G.Inv s → R (G.view t s) → s.started t = true → G.Same s s'

/-- The rule for an action that touches none of the data. -/
theorem guarded_untouched {A : Footprint} {R : G.View t → Prop} {a : Act F}
    {k : a.Ans → Prog F α} {Q : α → G.View t → Prop} (ha : a.isMutex = false) (hA : A.Within a)
    (h : Untouched G t A R) (hv : R v) (hk : ∀ r, (guarded M G).Sat t (k r) Q v) :
    (guarded M G).Sat t (.act a k) Q v := by
  refine guarded_same ha (fun s hs hsv => ?_) fun s r s' hs hsv hrs => ?_
  · exact h.safe a s hA hs (hsv ▸ hv)
  · exact ⟨h.same s s' (Footprint.effect_step hA hrs) hs (hsv ▸ hv) (Sys.exec_started hrs), hk r⟩

/-- Code that does not lock `mpu.c`'s mutex. -/
theorem guarded_within {A : Footprint} {p : Prog F α} {Q : α → G.View t → Prop}
    (hp : p.All (Within A)) (hA : .mpu ∉ A.locks) (hv : v.phase ≠ .waits)
    (h : Untouched G t A (· = v)) (hQ : ∀ x, Q x v) : (guarded M G).Sat t p Q v := by
  induction p with
  | ret x => exact hQ x
  | act a k ih =>
      have hne : ∀ m ∈ A.locks, m ≠ .mpu := fun m hm hmpu => hA (hmpu ▸ hm)
      cases a with
      | mtxLock m => exact guarded_mtxLock (hne m hp.1) fun _ => ih () (hp.2 ())
      | mtxResume => exact guarded_mtxResume (fun _ => ih () (hp.2 ())) fun hw => absurd hw hv
      | mtxUnlock m => exact guarded_mtxUnlock (hne m hp.1) (ih () (hp.2 ()))
      | mtxInit m => exact hp.1.elim
      | _ => exact guarded_untouched rfl hp.1 h rfl fun r => ih r (hp.2 r)

/-- Code run by `t` while its view meets `R` may take `mpu.c`'s mutex and give it
back as it is. `P` is `free` as a property of the protected data. -/
structure Passes (G : Guard F) (t : Tid) (P : G.Prot → Prop) (R : G.View t → Prop) : Prop where
  free : ∀ s, G.free s ↔ P (G.prot s)
  lock : ∀ s, R (G.view t s) → G.glob none s → G.glob (some t) s
  unlock : ∀ s o, R (G.view t s) → o ≠ some t → G.glob (some t) s → G.glob o s

/-- If the thread holds `mpu.c`'s mutex, then over protected data with `P`. -/
def Phase.Kept {D : Type} (P : D → Prop) (φ : Phase D) : Prop := ∀ p, φ = .holds p → P p

/-- Code that may lock `mpu.c`'s mutex. It may return with the mutex or
without. -/
theorem guarded_within_mpu {A : Footprint} {p : Prog F α} {Q : α → G.View t → Prop}
    {P : G.Prot → Prop} {R : G.View t → Prop} (hP : Passes G t P R) (hp : p.All (Within A))
    (hv : v.phase.Kept P) (h : Untouched G t A R) (hR : ∀ φ, R ⟨φ, v.priv⟩)
    (hQ : ∀ x φ, φ.Kept P → Q x ⟨φ, v.priv⟩) : (guarded M G).Sat t p Q v := by
  induction p generalizing v with
  | ret x => exact hQ x v.phase hv
  | act a k ih =>
      have hget : ∀ q : Prog F α, (∀ φ, φ.Kept P → (guarded M G).Sat t q Q ⟨φ, v.priv⟩) →
          Gets G t v.priv ((guarded M G).Sat t q Q) := by
        rintro q hq s hfree - - -
        refine hq _ ?_
        rintro p ⟨⟩
        exact (hP.free s).mp hfree
      have hnext : ∀ r φ, φ.Kept P → (guarded M G).Sat t (k r) Q ⟨φ, v.priv⟩ :=
        fun r φ hφ => ih r (hp.2 r) hφ hR hQ
      have hnone : ∀ φ : Phase G.Prot, (∀ p, φ ≠ .holds p) → φ.Kept P :=
        fun φ hφ p hp => absurd hp (hφ p)
      cases a with
      | mtxLock m =>
          by_cases hm : m = .mpu
          · subst hm
            refine guarded_mtxLock_mpu (fun s _ _ hsv _ _ hg => ?_) (hget _ (hnext ()))
              (hnext () _ (hnone _ (by simp)))
            exact hP.lock s (hsv ▸ hR v.phase) hg
          · exact guarded_mtxLock hm fun _ => hnext () _ hv
      | mtxResume => exact guarded_mtxResume (fun _ => hnext () _ hv) fun _ => hget _ (hnext ())
      | mtxUnlock m =>
          by_cases hm : m = .mpu
          · subst hm
            refine guarded_mtxUnlock_mpu (fun s hw hpriv hg _ =>
              ⟨(hP.free s).mpr (hv _ hw), fun o ho => hP.unlock s o ?_ ho hg⟩)
              fun p _ => hnext () _ (hnone _ (by simp))
            have hview : G.view t s = ⟨(G.view t s).phase, v.priv⟩ :=
              congrArg (Guard.View.mk (G.view t s).phase) hpriv
            rw [hview]
            exact hR _
          · exact guarded_mtxUnlock hm (hnext () _ hv)
      | mtxInit m => exact hp.1.elim
      | _ => exact guarded_untouched rfl hp.1 h (hR v.phase) fun r => hnext r _ hv

end

/-! ### `main` -/

section
variable {M : Machine (sig F) Tid (Sys F) EnvMove} [hM : Polite M] {G : Guard F}

/-- The footprint of `main` but for the actions that only `main` performs. -/
def Footprint.main : Footprint := { Footprint.init with reads := true }

/-- A guard with which `main` has nothing to do, its mutexes apart. -/
structure Apart (G : Guard F) (P : G.Prot → Prop) : Prop where
  passes : Passes G .main P fun _ => True
  main : Untouched G .main Footprint.main fun _ => True
  drv : ∀ s i, G.safe .main .i2cStart s ∧ G.Same s { s with i2c := i }
  thd : ∀ s u st, G.safe .main (.thdCreate u) s ∧ G.Same s { s with started := st }

variable {P : G.Prot → Prop}

/-- Code of `main` within its footprint. -/
theorem Apart.within (h : Apart G P) {A : Footprint} {p : Prog F α} (hA : A.Le Footprint.main)
    (hp : p.All (Within A)) : (guarded M G).Triple .main (fun v => v.phase.Kept P) p
      fun _ v => v.phase.Kept P := fun _ hv =>
  guarded_within_mpu h.passes (within_le hA hp) hv h.main (fun _ => trivial) fun _ _ hφ => hφ

/-- Code of `main` that initialises a mutex. -/
theorem Apart.init (m : Mtx) :
    (guarded M G).Triple .main (fun v => v.phase.Kept P) (chMtxObjectInit m) fun _ v =>
      v.phase.Kept P :=
  fun _ hv => guarded_chMtxObjectInit hv

/-- Code of `main` that starts the driver. -/
theorem Apart.driver (h : Apart G P) :
    (guarded M G).Triple .main (fun v => v.phase.Kept P) i2cStart fun _ v => v.phase.Kept P := by
  refine fun v hv => guarded_same rfl (fun s _ _ => (h.drv s s.i2c).1) fun s r s' _ _ hrs => ?_
  rw [Sys.exec_i2cStart hrs]
  exact ⟨(h.drv s _).2, hv⟩

/-- Code of `main` that creates a thread. -/
theorem Apart.create (h : Apart G P) (u : Tid) :
    (guarded M G).Triple .main (fun v => v.phase.Kept P) (chThdCreateStatic u) fun _ v =>
      v.phase.Kept P := by
  refine fun v hv => guarded_same rfl (fun s _ _ => (h.thd s u s.started).1)
    fun s r s' _ _ hrs => ?_
  rw [Sys.exec_thdCreate hrs]
  exact ⟨(h.thd s u _).2, hv⟩

/-- The whole setup, from its parts. -/
theorem Apart.setup [CFloat F] (h : Apart G P) :
    (guarded M G).Triple .main (fun v => v.phase.Kept P) (setup .main) fun _ v =>
      v.phase.Kept P := by
  obtain ⟨tail, hmpuInit, htail⟩ := within_mpuInit (F := F)
  have hprint : ∀ s, (guarded M G).Triple .main (fun v => v.phase.Kept P) (serialPrint (.text s))
      fun _ v => v.phase.Kept P := fun s => h.within (by decide) (within_serialPrint_text s)
  have hend : (guarded M G).Triple .main (fun v => v.phase.Kept P) (do
      chThdCreateStatic .serial
      serialPrint (.text "Serial thread: running\n\r")
      chThdCreateStatic .mpu
      serialPrint (.text "MPU thread: running\n\r")) fun _ v => v.phase.Kept P :=
    (h.create .serial).bind fun _ => (hprint _).bind fun _ =>
      (h.create .mpu).bind fun _ => hprint _
  have hsd : (perform (S := sig F) .sdStart).All (Within { reads := true }) := by
    simp [perform, Within]
  refine ((Apart.init .mtprint).bind fun _ => h.within (by decide) hsd).bind fun _ => ?_
  refine (hprint _).bind fun _ => (hprint _).bind fun _ => (hprint _).bind fun _ => ?_
  refine h.driver.bind fun _ => ?_
  rw [hmpuInit]
  exact ((Apart.init .mpu).bind fun _ => h.within (by decide) htail).bind fun _ => hend

/-- The loop of `main`, which only sleeps. -/
theorem Apart.loop [CFloat F] (h : Apart G P) :
    (guarded M G).Triple .main (fun v => v.phase.Kept P) (loop .main) fun _ v => v.phase.Kept P :=
  h.within (A := {}) (by decide) (by simp [MotionTracking.loop, chThdSleepMilliseconds, perform,
    Within])

end

/-! ### Runs of the firmware -/

/-- The surroundings disturb nobody, if they leave the data alone. -/
theorem guarded_env {M : Machine (sig F) Tid (Sys F) EnvMove} [Polite M] {G : Guard F}
    (h : ∀ e s s', s.env e = some s' → G.Same s s') : (guarded M G).EnvOk := by
  intro e s s' hs he
  have he := polite_env he
  have hsame := h e s s' he
  have hkern : s'.kern = s.kern := by
    cases e <;> cases he <;> rfl
  refine ⟨⟨hkern ▸ hs.wf, fun hnot => hsame.free (hs.free (hkern ▸ hnot)),
    hkern ▸ hsame.glob _ hs.glob⟩,
    fun t => ?_⟩
  simp only [guarded, Guard.view, hkern, hsame.priv, hsame.prot]

end MotionTracking
