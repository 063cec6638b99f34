import MotionTracking.Firmware.Serialcomm
import MotionTracking.Threads.Outline

/-!
# `MotionTracking.Proofs.LockView`: what one thread knows while it locks and unlocks

`LockView` is the part of the state that only thread `t` can change as long as
everybody keeps the rules of the mutexes (`Disciplined`): its view of the kernel,
the results the driver still has for it, the driver itself while it holds the
bus, and two counts over its log.

`locking M t d` is the outline of one thread over this view. `d` says what it
demands beyond the rules: that mutexes are taken in the order of `Mtx.rank` and none
is kept over a sleep, and that a transfer starts with the driver as the latest
transfer left it. The rules
below are in continuation form: `Q` holds after the action if it holds of the
view the action leaves. `Quiet` actions leave all of it alone.
-/

set_option autoImplicit false

namespace MotionTracking

open ChibiOS (Kernel)
open Threads (Machine Outline)
open Threads.Outline (Sat)
open Threads.Prog (perform)

variable {F α β : Type}

/-- The order in which nested mutexes are taken. -/
def Mtx.rank : Mtx → Nat
  | .serialcomm => 0
  | .mpu => 1
  | .i2c => 2
  | .mtprint => 3

/-- Every held mutex comes before `m`. -/
def Below (m : Mtx) (k : Kernel.View Mtx) : Prop :=
  ∀ m', k.held m' ≠ none → m'.rank < m.rank

/-- A thread that holds nothing may take any mutex. -/
theorem Below.of_free {k : Kernel.View Mtx} (h : ∀ m, k.held m = none) (m : Mtx) : Below m k :=
  fun m' hm' => absurd (h m') hm'

/-- A mutex of a higher rank may be taken on top. -/
theorem Below.lock {m m' : Mtx} {k : Kernel.View Mtx} (h : Below m k)
    (hr : m.rank < m'.rank) : Below m' (k.lock m) := by
  intro m₁ hm₁
  by_cases hm : m₁ = m
  · subst hm
    exact hr
  · exact (h m₁ (by simpa [Kernel.View.lock, hm] using hm₁)).trans hr

/-- What is below a mutex is below those of a higher rank. -/
theorem Below.mono {m m' : Mtx} {k : Kernel.View Mtx} (h : Below m k)
    (hr : m.rank ≤ m'.rank) : Below m' k :=
  fun m₁ hm₁ => (h m₁ hm₁).trans_le hr

/-- The view after `m` has been initialised. -/
def forget (m : Mtx) (k : Kernel.View Mtx) : Kernel.View Mtx :=
  { k with held := Function.update k.held m none }

/-- An initialisation takes nothing. -/
theorem Below.forget {m : Mtx} {k : Kernel.View Mtx} (h : Below m k) (m' : Mtx) :
    Below m (MotionTracking.forget m' k) := by
  intro m₁ hm₁
  refine h m₁ ?_
  by_cases hm : m₁ = m'
  · subst hm
    simp [MotionTracking.forget] at hm₁
  · simpa [MotionTracking.forget, hm] using hm₁

/-! ### The rules of the mutexes -/

/-- Thread `t` performs the action while it runs, unlocks only a mutex it holds,
and uses the I2C driver only while it holds the bus. -/
def Disciplined (t : Tid) (s : Sys F) : Act F → Prop
  | .mtxResume => True
  | .mtxUnlock m => s.kern.wtmtx t = none ∧ s.kern.Holds t m
  | .i2cBegin => s.kern.wtmtx t = none ∧ s.kern.Holds t .i2c
  | .i2cTransfer _ _ _ => s.kern.wtmtx t = none ∧ s.kern.Holds t .i2c
  | .i2cEnd => s.kern.wtmtx t = none ∧ s.kern.Holds t .i2c
  | _ => s.kern.wtmtx t = none

/-- The thread takes mutexes in the order of their ranks, does not wait for its
own, and has none when it sleeps or starts another thread. -/
def InOrder (k : Kernel.View Mtx) : Act F → Prop
  | .mtxLock m => Below m k
  | .sleep => ∀ m, k.held m = none
  | .thdCreate _ => ∀ m, k.held m = none
  | .mtxResume => match k.run with
    | .running => True
    | .waits m => Below m k
    | .stuck _ => False
  | _ => True

/-- The driver's state is the one its latest message leads to. -/
def Settled (i : I2CDriver) : Prop :=
  i.state = if i.msg = .MSG_TIMEOUT then .I2C_LOCKED else .I2C_READY

/-- Unless a thread has the bus, the driver is settled, or not started yet and
the bus untouched. -/
def BusOk (s : Sys F) : Prop :=
  s.kern.Taken .i2c ∨ (s.i2c.state = .I2C_STOP ∧ s.kern.owner .i2c = none) ∨ Settled s.i2c

/-! ### The view -/

/-- What a thread knows of the mutexes, of its transfers, and of its log. -/
@[ext]
structure LockView where
  kern : Kernel.View Mtx
  results : Nat → I2CResult
  /-- `I2CD1`, while the thread holds the bus. -/
  driver : Option I2CDriver
  handled : List (List UInt8)
  misordered : Nat

/-- The view of a thread in a state. -/
def lockView (t : Tid) (s : Sys F) : LockView where
  kern := s.kern.view t
  results := s.results t
  driver := if s.kern.Holds t .i2c then some s.i2c else none
  handled := Obs.handled (s.log t)
  misordered := Obs.misordered (s.log t)

namespace LockView

/-- The thread sleeps at no mutex. -/
def Running (v : LockView) : Prop := v.kern.run = .running

/-- The view after `n` more transfers. -/
def drop (n : Nat) (v : LockView) : LockView :=
  { v with results := fun k => v.results (k + n) }

/-- The view with `m` taken. -/
def lock (m : Mtx) (v : LockView) : LockView := { v with kern := v.kern.lock m }

/-- The view with `m` released, with `L` below it. -/
def unlock (m : Mtx) (L : List Mtx) (v : LockView) : LockView :=
  { v with
    kern := v.kern.unlock m L
    misordered := (if v.kern.stack.head? = some m then 0 else 1) + v.misordered }

/-- The view after a mutex has been initialised. -/
def forget (m : Mtx) (v : LockView) : LockView := { v with kern := MotionTracking.forget m v.kern }

/-- A thread that has taken a mutex runs. -/
theorem running_lock (m : Mtx) (v : LockView) : (v.lock m).Running := rfl

/-- Results are used up one after the other. -/
theorem drop_drop (m n : Nat) (v : LockView) : (v.drop m).drop n = v.drop (n + m) := by
  simp only [drop, Nat.add_assoc]

/-- A mutex that has been taken is held over the stack there was. -/
theorem held_lock (m : Mtx) (v : LockView) : (v.lock m).kern.held m = some v.kern.stack := by
  simp [lock, Kernel.View.lock]

/-- A mutex that has been initialised is not held. -/
theorem held_forget (m : Mtx) (v : LockView) : (v.forget m).kern.held m = none := by
  simp [forget, MotionTracking.forget]

/-- Taking a mutex leaves the others. -/
theorem held_lock_of_ne {m m' : Mtx} (hm : m' ≠ m) (v : LockView) :
    (v.lock m).kern.held m' = v.kern.held m' := by
  simp [lock, Kernel.View.lock, hm]

/-- A critical section leaves the view as it was. -/
theorem unlock_lock {m : Mtx} {v : LockView} (hv : v.Running) (hm : v.kern.held m = none) :
    (v.lock m).unlock m v.kern.stack = v := by
  have hk : (v.kern.lock m).unlock m v.kern.stack = v.kern := by
    ext1
    · exact hv.symm
    · rfl
    · simp [Kernel.View.lock, Kernel.View.unlock, ← hm]
  have hmis : ((v.lock m).unlock m v.kern.stack).misordered = v.misordered := by
    simp [unlock, lock, Kernel.View.lock]
  ext1
  · exact hk
  · rfl
  · rfl
  · rfl
  · exact hmis

end LockView

/-- The view tells whether the thread runs. -/
theorem lockView_running {t : Tid} {s : Sys F} :
    (lockView t s).Running ↔ s.kern.wtmtx t = none :=
  Kernel.view_run_eq_running

/-- The view tells which mutexes the thread holds. -/
theorem lockView_holds {t : Tid} {s : Sys F} {m : Mtx} :
    (lockView t s).kern.held m ≠ none ↔ s.kern.Holds t m := by
  rw [← Kernel.view_held_isSome, Option.isSome_iff_ne_none]
  rfl

/-! ### Actions that change no view -/

/-- The action leaves mutexes, results and the counted log entries alone, and is
no sleep. -/
def Quiet : Act F → Prop
  | .note ev => ∀ c l, Obs.handled (ev c :: l) = Obs.handled l ∧
      Obs.misordered (ev c :: l) = Obs.misordered l
  | .mtxInit _ => False
  | .mtxLock _ => False
  | .mtxResume => False
  | .mtxUnlock _ => False
  | .i2cBegin => False
  | .i2cTransfer _ _ _ => False
  | .i2cEnd => False
  | .i2cStart => False
  | .thdCreate _ => False
  | .sleep => False
  | _ => True

/-- The view is read from the kernel, the driver, the results, and two parts of the log.
-/
theorem lockView_congr {t : Tid} {s s' : Sys F} (hk : s'.kern = s.kern)
    (hr : s'.results = s.results) (hm : s'.i2c = s.i2c)
    (hl : Obs.handled (s'.log t) = Obs.handled (s.log t) ∧
      Obs.misordered (s'.log t) = Obs.misordered (s.log t)) :
    lockView t s' = lockView t s := by
  simp [lockView, hk, hr, hm, hl]

/-- Quiet actions are plain. -/
theorem Quiet.plain {a : Act F} (ha : Quiet a) : a.plain = true := by
  cases a <;> first | rfl | exact ha.elim

/-- The entries of a quiet action do not count. -/
theorem Quiet.entry {a : Act F} {ev : Obs F} (ha : Quiet a) (hev : a.Entry ev)
    (l : List (Obs F)) : Obs.handled (ev :: l) = Obs.handled l ∧
      Obs.misordered (ev :: l) = Obs.misordered l := by
  cases a with
  | note f =>
      obtain ⟨c, rfl⟩ := hev
      exact ha c l
  | sdOut o =>
      obtain rfl : ev = .printed o := hev
      exact ⟨rfl, rfl⟩
  | iqRead off n timeout =>
      obtain ⟨bytes, rfl⟩ := hev
      exact ⟨rfl, rfl⟩
  | iqWake off n =>
      obtain ⟨bytes, rfl⟩ := hev
      exact ⟨rfl, rfl⟩
  | iqReset =>
      obtain rfl : ev = .flushed := hev
      exact ⟨rfl, rfl⟩
  | mtxUnlock m => exact ha.elim
  | i2cTransfer addr txbytes rxbytes => exact ha.elim
  | _ => exact hev.elim

/-- A quiet action changes no thread's view. -/
theorem quiet_step {t : Tid} {a : Act F} {s s' : Sys F} {r : a.Ans} (ha : Quiet a)
    (h : s.exec t a = some (r, s')) (u : Tid) : lockView u s' = lockView u s := by
  have hp := Sys.exec_plain ha.plain h
  refine lockView_congr hp.kern hp.results hp.i2c ?_
  by_cases hu : u = t
  · subst hu
    rcases Sys.exec_log h with hlog | ⟨ev, hev, hlog⟩
    · rw [hlog]
      exact ⟨rfl, rfl⟩
    · rw [hlog, Function.update_self]
      exact ha.entry hev _
  · rw [hp.log u hu]
    exact ⟨rfl, rfl⟩

/-! ### The outline -/

/-- What an outline over `LockView` demands beyond the rules of the mutexes. -/
structure Demands where
  /-- Mutexes are taken in the order of their ranks, and none is kept over a sleep. -/
  ordered : Prop
  /-- A transfer starts with a settled driver. -/
  settled : Prop

/-- `M` is the firmware's machine, or leaves some of its steps out. When settled
drivers are demanded, `M` does not let the bus be locked before `i2cStart`. -/
class Runs (M : Machine (sig F) Tid (Sys F) EnvMove) (d : Demands) : Prop where
  exec : ∀ {t a s rs}, M.exec t a s = some rs → s.exec t a = some rs
  started : d.settled → ∀ {t s rs}, M.exec t (.mtxLock .i2c) s = some rs →
    s.i2c.state ≠ .I2C_STOP

/-- The kernel is well formed, and where the outline asks for it the driver is settled
while nobody has the bus. -/
structure LockInv (d : Demands) (s : Sys F) : Prop where
  wf : s.kern.Wf
  bus : d.settled → BusOk s

/-- The outline of thread `t` over its `LockView`. -/
def locking (M : Machine (sig F) Tid (Sys F) EnvMove) (t : Tid) (d : Demands) :
    Outline (M.focus t) where
  View _ := LockView
  view _ s := lockView t s
  inv s := LockInv d s
  safe _ a s := Disciplined t s a ∧ (d.ordered → InOrder (s.kern.view t) a) ∧
    (d.settled → a = .i2cBegin → Settled s.i2c)
  guar _ _ _ _ _ := True

/-- `p`, run by `t` when its view is `v`, keeps the rules of the mutexes and
returns with `Q`. -/
abbrev Locks (M : Machine (sig F) Tid (Sys F) EnvMove) (t : Tid) (d : Demands)
    (p : Prog F α) (Q : α → LockView → Prop) (v : LockView) : Prop :=
  (locking M t d).Sat () p Q v

section
variable {M : Machine (sig F) Tid (Sys F) EnvMove} {t : Tid} {d : Demands} {v : LockView}

/-- The rule for a sequence. -/
theorem locks_bind {p : Prog F α} {f : α → Prog F β} {Q : β → LockView → Prop}
    (h : Locks M t d p (fun x => Locks M t d (f x) Q) v) : Locks M t d (p >>= f) Q v :=
  Sat.bind h

/-- The rule for a computation that performs nothing. -/
theorem locks_pure {x : α} {Q : α → LockView → Prop} (h : Q x v) :
    Locks M t d (pure x : Prog F α) Q v :=
  h

/-- The obligations of one action of the focused machine. The other threads
have no part in it. -/
theorem locks_act [hM : Runs M d] {a : Act F} {k : a.Ans → Prog F α} {Q : α → LockView → Prop}
    (h : ∀ s, LockInv d s → lockView t s = v →
      Disciplined t s a ∧ (d.ordered → InOrder v.kern a) ∧
      (d.settled → a = .i2cBegin → Settled s.i2c) ∧
      ∀ r s', s.exec t a = some (r, s') →
        (d.settled → a = .mtxLock .i2c → s.i2c.state ≠ .I2C_STOP) →
        LockInv d s' ∧ Locks M t d (k r) Q (lockView t s')) :
    Locks M t d (.act a k) Q v := by
  intro s hs hv
  obtain ⟨hdis, ho, hset, hstep⟩ := h s hs hv
  refine ⟨⟨hdis, fun h => ?_, hset⟩, fun r s' hrs => ?_⟩
  · rw [show s.kern.view t = v.kern from congrArg LockView.kern hv]
    exact ho h
  · have hbus : d.settled → a = .mtxLock .i2c → s.i2c.state ≠ .I2C_STOP := by
      rintro hd rfl
      exact hM.started hd hrs
    obtain ⟨hinv, hrest⟩ := hstep r s' (hM.exec hrs) hbus
    exact ⟨⟨hinv, trivial, fun u hu => absurd rfl hu⟩, hrest⟩

/-- A quiet action is within the rules for a running thread. -/
theorem Quiet.disciplined {a : Act F} (ha : Quiet a) {s : Sys F} (hs : s.kern.wtmtx t = none) :
    Disciplined t s a := by
  cases a <;> first | exact hs | exact ha.elim

/-- A quiet action takes no mutex. -/
theorem Quiet.inOrder {a : Act F} (ha : Quiet a) (k : Kernel.View Mtx) : InOrder k a := by
  cases a <;> trivial

/-- The rule for quiet code. -/
theorem locks_quiet [Runs M d] {p : Prog F α} {Q : α → LockView → Prop} (hp : p.All Quiet)
    (hv : v.Running) (hQ : ∀ x, Q x v) : Locks M t d p Q v := by
  induction p with
  | ret x => exact hQ x
  | act a k ih =>
      refine locks_act fun s hs hsv => ?_
      subst hsv
      refine ⟨hp.1.disciplined (lockView_running.mp hv), fun _ => hp.1.inOrder _, ?_, ?_⟩
      · rintro - rfl
        exact hp.1.elim
      · intro r s' hrs _
        have hplain := Sys.exec_plain hp.1.plain hrs
        rw [quiet_step hp.1 hrs t]
        refine ⟨⟨hplain.kern ▸ hs.wf, fun h => ?_⟩, ih r (hp.2 r)⟩
        unfold BusOk
        rw [hplain.kern, hplain.i2c]
        exact hs.bus h

/-! ### Mutexes -/

/-- A view comes from a state. -/
theorem locks_view {a : Act F} {k : a.Ans → Prog F α} {Q : α → LockView → Prop}
    (h : ∀ s : Sys F, lockView t s = v → Locks M t d (.act a k) Q v) :
    Locks M t d (.act a k) Q v :=
  fun s hs hv => h s hv s hs hv

/-- The driver shows to the thread that has the bus. -/
theorem lockView_driver (t : Tid) (s : Sys F) :
    (lockView t s).driver =
      if ((lockView t s).kern.held .i2c).isSome then some s.i2c else none := by
  simp only [lockView, Kernel.view_held_isSome]

/-- A change of the kernel alone. -/
theorem lockView_kern (t : Tid) (s : Sys F) (k : Kernel Tid Mtx) :
    lockView t { s with kern := k } =
      { lockView t s with
        kern := k.view t
        driver := if ((k.view t).held .i2c).isSome then some s.i2c else none } := by
  simp only [lockView, Kernel.view_held_isSome]

/-- A change of the kernel that leaves the bus mutex out. -/
theorem lockView_kern_of_held {t : Tid} {s : Sys F} {k : Kernel Tid Mtx}
    (h : (k.view t).held .i2c = (lockView t s).kern.held .i2c) :
    lockView t { s with kern := k } = { lockView t s with kern := k.view t } := by
  rw [lockView_kern, h, ← lockView_driver]

/-- The driver in the view of a thread that has just taken `m`. -/
def Takes (d : Demands) (m : Mtx) (v : LockView) (i : Option I2CDriver) : Prop :=
  (m ≠ .i2c → i = v.driver) ∧ (m = .i2c → ∃ i', i = some i' ∧ (d.settled → Settled i'))

/-- The thread has just taken `m`. -/
theorem lockView_taken {t : Tid} {s : Sys F} {k : Kernel Tid Mtx} {m : Mtx}
    (h : k.view t = (s.kern.view t).lock m) (hset : d.settled → m = .i2c → Settled s.i2c) :
    ∃ i, Takes d m (lockView t s) i ∧
      lockView t { s with kern := k } = { (lockView t s).lock m with driver := i } := by
  by_cases hm : m = .i2c
  · subst hm
    refine ⟨some s.i2c, ⟨fun hne => absurd rfl hne, fun _ => ⟨_, rfl, fun hd => hset hd rfl⟩⟩, ?_⟩
    rw [lockView_kern, h, if_pos (by simp [Kernel.View.lock])]
    rfl
  · have hheld : (k.view t).held .i2c = (lockView t s).kern.held .i2c := by
      rw [h]
      exact LockView.held_lock_of_ne (v := lockView t s) (Ne.symm hm)
    refine ⟨_, ⟨fun _ => rfl, fun h => absurd h hm⟩, ?_⟩
    rw [lockView_kern_of_held hheld, h]
    rfl

/-- A bus that nobody has, and that somebody may lock, is settled. -/
theorem BusOk.settled {s : Sys F} (h : BusOk s) (hfree : ¬s.kern.Taken .i2c)
    (hstop : s.i2c.state ≠ .I2C_STOP ∨ s.kern.owner .i2c ≠ none) : Settled s.i2c := by
  rcases h with h | ⟨hst, hown⟩ | h
  · exact absurd h hfree
  · exact (hstop.elim (fun h => h hst) fun h => h hown).elim
  · exact h

/-- A step of the kernel that keeps the bus taken and its owner. -/
theorem LockInv.kern {s : Sys F} (h : LockInv d s) {k : Kernel Tid Mtx} (hwf : k.Wf)
    (htaken : s.kern.Taken .i2c → k.Taken .i2c)
    (howner : s.kern.owner .i2c = none → k.Taken .i2c ∨ k.owner .i2c = none) :
    LockInv d { s with kern := k } where
  wf := hwf
  bus hd := by
    rcases h.bus hd with h | ⟨hst, hown⟩ | h
    · exact .inl (htaken h)
    · exact (howner hown).elim .inl fun h => .inr (.inl ⟨hst, h⟩)
    · exact .inr (.inr h)

/-- The thread runs on with the mutex it has waited for. -/
theorem locks_resume [Runs M d] {Q : Unit → LockView → Prop}
    (hord : d.ordered → InOrder v.kern (.mtxResume : Act F)) (hrun : v.Running → Q () v)
    (hwait : ∀ m, v.kern.run = .waits m → ∀ i, Takes d m v i →
      Q () { v.lock m with driver := i }) :
    Locks M t d (F := F) (.act .mtxResume .ret) Q v := by
  refine locks_act fun s hs hsv => ⟨trivial, hord, by simp, fun r s' hrs _ => ?_⟩
  subst hsv
  obtain ⟨k, hk, rfl⟩ := Sys.exec_mtxResume hrs
  refine ⟨hs.kern (hs.wf.chMtxResume hk) (fun h => h.chMtxResume hk) fun h => .inr ?_, ?_⟩
  · rw [Kernel.owner_chMtxResume hk, h]
  rcases Kernel.view_chMtxResume_self hs.wf hk with ⟨hw, rfl⟩ | ⟨m, hw, hview⟩
  · exact hrun (lockView_running.mpr hw)
  · have hset : d.settled → m = .i2c → Settled s.i2c := by
      rintro hd rfl
      obtain ⟨hnot, hown⟩ := Kernel.not_taken_of_chMtxResume hk hw
      exact (hs.bus hd).settled hnot (.inr hown)
    obtain ⟨i, hi, hv⟩ := lockView_taken hview hset
    rw [hv]
    exact hwait m hw i hi

/-- `chMtxLock`. A thread that holds the mutex already never returns. Only the
bus mutex brings the driver into the view. -/
theorem locks_chMtxLock [Runs M d] {m : Mtx} {Q : Unit → LockView → Prop} (hv : v.Running)
    (hord : d.ordered → Below m v.kern)
    (hQ : v.kern.held m = none → ∀ i, Takes d m v i → Q () { v.lock m with driver := i }) :
    Locks M t d (chMtxLock (F := F) m) Q v := by
  refine locks_act fun s hs hsv => ?_
  subst hsv
  have hrun := lockView_running.mp hv
  refine ⟨hrun, hord, by simp, fun r s' hrs hbus => ?_⟩
  rw [Sys.exec_mtxLock hrs]
  refine ⟨hs.kern (hs.wf.chMtxLockS hrun m) (fun h => h.chMtxLockS hrun m) fun hfree => ?_, ?_⟩
  · by_cases hm : m = .i2c
    · subst hm
      exact .inl (Kernel.taken_chMtxLockS hfree hrun)
    · exact .inr ((Kernel.owner_chMtxLockS_of_ne (Ne.symm hm) t s.kern).trans hfree)
  rcases Kernel.view_chMtxLockS_self hrun m with ⟨hfree, hheld, hview⟩ | ⟨hheld, hview⟩ |
    ⟨hown, hview⟩
  · -- The mutex was free.
    have hset : d.settled → m = .i2c → Settled s.i2c := by
      rintro hd rfl
      have hnot : ¬s.kern.Taken .i2c := fun ⟨u, hu, _⟩ => by simp [hfree] at hu
      exact (hs.bus hd).settled hnot (.inl (hbus hd rfl))
    obtain ⟨i, hi, hsv⟩ := lockView_taken hview hset
    rw [hsv]
    refine locks_resume (fun _ => trivial) (fun _ => hQ hheld i hi) fun m' hw => ?_
    cases hw
  · -- The thread waits, and takes the mutex when it is handed over.
    have hkeep := lockView_kern_of_held (s := s) (k := s.kern.chMtxLockS t m) (t := t)
      (by rw [hview]; rfl)
    rw [hkeep, hview]
    refine locks_resume hord (fun hw => by cases hw) fun m' hw i hi => ?_
    cases hw
    exact hQ hheld i hi
  · -- The thread has the mutex already, and sleeps for ever.
    have hholds : (lockView t s).kern.held m ≠ none :=
      lockView_holds.mpr ⟨hown, by simp [hrun]⟩
    rw [lockView_kern, hview]
    refine locks_resume (fun ho => ?_) (fun hw => by cases hw) fun m' hw => by cases hw
    exact absurd (hord ho m hholds) (lt_irrefl _)

/-- What an unlock does to the view of the thread that holds the mutex. -/
theorem lockView_unlocked {t : Tid} {s : Sys F} {m : Mtx} {L : List Mtx} (hs : s.kern.Wf)
    (hv : (lockView t s).Running) (hm : (lockView t s).kern.held m = some L) :
    lockView t { s.observe t (.unlocked m (s.kern.mtxlist t).head?) with
        kern := s.kern.chMtxUnlock t m } =
      { (lockView t s).unlock m L with
        driver := if m = .i2c then none else (lockView t s).driver } := by
  have hrun := lockView_running.mp hv
  have hview := Kernel.view_chMtxUnlock_self hs hrun hm
  have hstack : (lockView t s).kern.stack = s.kern.mtxlist t := by
    simp [lockView, Kernel.view, hrun]
  ext1
  · exact hview
  · rfl
  · rw [lockView_driver]
    show (if ((((s.kern.chMtxUnlock t m)).view t).held .i2c).isSome then _ else _) = _
    rw [hview]
    by_cases hi : m = .i2c
    · simp [hi, Kernel.View.unlock]
    · rw [if_neg hi, lockView_driver]
      simp [Kernel.View.unlock, Ne.symm hi]
      rfl
  · simp [lockView, LockView.unlock, Sys.observe, Obs.handled]
  · simp [LockView.unlock, hstack]
    simp [lockView, Sys.observe, Obs.misordered]

/-- `chMtxUnlock` of a held mutex, of the bus mutex only with a settled driver. -/
theorem locks_chMtxUnlock [Runs M d] {m : Mtx} {L : List Mtx} {Q : Unit → LockView → Prop}
    (hv : v.Running) (hm : v.kern.held m = some L)
    (hset : d.settled → m = .i2c → ∃ i, v.driver = some i ∧ Settled i)
    (hQ : Q () { v.unlock m L with driver := if m = .i2c then none else v.driver }) :
    Locks M t d (chMtxUnlock (F := F) m) Q v := by
  refine locks_act fun s hs hsv => ?_
  subst hsv
  have hrun := lockView_running.mp hv
  have hholds : s.kern.Holds t m := lockView_holds.mp (by rw [hm]; exact Option.some_ne_none L)
  refine ⟨⟨hrun, hholds⟩, fun _ => trivial, by simp, fun r s' hrs _ => ?_⟩
  rw [Sys.exec_mtxUnlock hrs, lockView_unlocked hs.wf hv hm]
  refine ⟨?_, hQ⟩
  by_cases hi : m = .i2c
  · subst hi
    refine ⟨hs.wf.chMtxUnlock hrun _, fun hd => .inr (.inr ?_)⟩
    obtain ⟨i, hdrv, hi⟩ := hset hd rfl
    rw [lockView_driver, hm] at hdrv
    exact Option.some.inj hdrv ▸ hi
  · refine LockInv.kern (s := s.observe t _) ⟨hs.wf, hs.bus⟩ (hs.wf.chMtxUnlock hrun m)
      (fun h => h.chMtxUnlock (Ne.symm hi) t) fun h => .inr ?_
    rw [Kernel.owner_chMtxUnlock_of_ne (Ne.symm hi)]
    exact h

/-- Into a critical section. -/
theorem locks_enter [Runs M d] {m : Mtx} {Q : Unit → LockView → Prop} (hm : m ≠ .i2c)
    (hv : v.Running) (hord : d.ordered → Below m v.kern)
    (hQ : v.kern.held m = none → Q () (v.lock m)) :
    Locks M t d (chMtxLock (F := F) m) Q v := by
  refine locks_chMtxLock hv hord fun hheld i hi => ?_
  rw [hi.1 hm]
  exact hQ hheld

/-- Out of a critical section. -/
theorem locks_leave [Runs M d] {m : Mtx} {Q : Unit → LockView → Prop} (hm : m ≠ .i2c)
    (hv : v.Running) (hheld : v.kern.held m = none) (hQ : Q () v) :
    Locks M t d (chMtxUnlock (F := F) m) Q (v.lock m) := by
  refine locks_chMtxUnlock (v.running_lock m) (v.held_lock m) (fun _ h => absurd h hm) ?_
  rw [if_neg hm, LockView.unlock_lock hv hheld]
  exact hQ

/-- Initialising a mutex takes it from the thread that holds it. -/
theorem locks_chMtxObjectInit [Runs M d] {m : Mtx} {Q : Unit → LockView → Prop} (hm : m ≠ .i2c)
    (hv : v.Running) (hQ : Q () (v.forget m)) :
    Locks M t d (chMtxObjectInit (F := F) m) Q v := by
  refine locks_act fun s hs hsv => ?_
  subst hsv
  have hrun := lockView_running.mp hv
  refine ⟨hrun, fun _ => trivial, by simp, fun r s' hrs _ => ?_⟩
  have hview := Kernel.view_chMtxObjectInit_self hrun m
  have hinv : LockInv d { s with kern := s.kern.chMtxObjectInit m } :=
    hs.kern (hs.wf.chMtxObjectInit m) (fun h => h.chMtxObjectInit (Ne.symm hm)) fun h => .inr (by
      simpa [Kernel.chMtxObjectInit, Ne.symm hm] using h)
  rw [Sys.exec_mtxInit hrs, lockView_kern_of_held, hview]
  · exact ⟨hinv, hQ⟩
  · rw [hview]
    exact Function.update_of_ne (Ne.symm hm) _ _

/-! ### Transfers -/

/-- What the I2C actions change besides the driver is in no view but the
thread's own. -/
theorem LockInv.holder {s s' : Sys F} (h : LockInv d s) (hk : s'.kern = s.kern)
    (hheld : (lockView t s).kern.held .i2c ≠ none) : LockInv d s' where
  wf := hk ▸ h.wf
  bus _ := .inl (hk ▸ (lockView_holds.mp hheld).taken)

/-- The thread that has the bus sees the driver as it is. -/
theorem lockView_driver_of_held {t : Tid} {s : Sys F}
    (hheld : (lockView t s).kern.held .i2c ≠ none) : (lockView t s).driver = some s.i2c := by
  rw [lockView_driver, if_pos (Option.isSome_iff_ne_none.mpr hheld)]

/-- The rule for the start of a transfer, which asks for a settled driver where the
outline does. -/
theorem locks_i2cBegin [Runs M d] {i : I2CDriver} {Q : Unit → LockView → Prop}
    (hv : v.Running) (hheld : v.kern.held .i2c ≠ none) (hi : v.driver = some i)
    (hset : d.settled → Settled i)
    (hQ : Q () { v with driver := some { i with state := .I2C_ACTIVE_TX } }) :
    Locks M t d (perform (S := sig F) .i2cBegin) Q v := by
  refine locks_act fun s hs hsv => ?_
  subst hsv
  obtain rfl : s.i2c = i := Option.some.inj ((lockView_driver_of_held hheld).symm.trans hi)
  refine ⟨⟨lockView_running.mp hv, lockView_holds.mp hheld⟩, fun _ => trivial,
    fun hd _ => hset hd, fun r s' hrs _ => ?_⟩
  rw [Sys.exec_i2cBegin hrs]
  refine ⟨hs.holder rfl hheld, ?_⟩
  have hview : lockView t { s with i2c := { s.i2c with state := .I2C_ACTIVE_TX } } =
      { lockView t s with driver := some { s.i2c with state := .I2C_ACTIVE_TX } } := by
    ext1
    · rfl
    · rfl
    · exact lockView_driver_of_held hheld
    · rfl
    · rfl
  rw [hview]
  exact hQ

/-- The rule for the transfer, which uses up a result. -/
theorem locks_i2cTransfer [Runs M d] {i : I2CDriver} {addr : UInt8} {txbytes rxbytes : Nat}
    {Q : Unit → LockView → Prop} (hv : v.Running) (hheld : v.kern.held .i2c ≠ none)
    (hi : v.driver = some i)
    (hQ : Q () { v.drop 1 with driver := some { i with msg := (v.results 0).msg } }) :
    Locks M t d (perform (S := sig F) (.i2cTransfer addr txbytes rxbytes)) Q v := by
  refine locks_act fun s hs hsv => ?_
  subst hsv
  obtain rfl : s.i2c = i := Option.some.inj ((lockView_driver_of_held hheld).symm.trans hi)
  refine ⟨⟨lockView_running.mp hv, lockView_holds.mp hheld⟩, fun _ => trivial, by simp,
    fun r s' hrs _ => ?_⟩
  rw [Sys.exec_i2cTransfer hrs]
  refine ⟨hs.holder rfl hheld, ?_⟩
  have hview : lockView t (s.transfer t txbytes rxbytes) =
      { (lockView t s).drop 1 with
        driver := some { s.i2c with msg := (s.results t 0).msg } } := by
    ext1
    · rfl
    · simp [lockView, LockView.drop, Sys.transfer]
    · exact lockView_driver_of_held (s := s.transfer t txbytes rxbytes) hheld
    · simp [lockView, LockView.drop, Sys.transfer, Obs.handled]
    · simp [lockView, LockView.drop, Sys.transfer, Obs.misordered]
  rw [hview]
  exact hQ

/-- The rule for the end of a transfer, which settles the driver. -/
theorem locks_i2cEnd [Runs M d] {i : I2CDriver} {Q : Msg → LockView → Prop} (hv : v.Running)
    (hheld : v.kern.held .i2c ≠ none) (hi : v.driver = some i)
    (hQ : ∀ i', i'.msg = i.msg → Settled i' → Q i.msg { v with driver := some i' }) :
    Locks M t d (perform (S := sig F) .i2cEnd) Q v := by
  refine locks_act fun s hs hsv => ?_
  subst hsv
  obtain rfl : s.i2c = i := Option.some.inj ((lockView_driver_of_held hheld).symm.trans hi)
  refine ⟨⟨lockView_running.mp hv, lockView_holds.mp hheld⟩, fun _ => trivial, by simp,
    fun r s' hrs _ => ?_⟩
  obtain ⟨rfl, rfl⟩ := Sys.exec_i2cEnd hrs
  refine ⟨hs.holder rfl hheld, ?_⟩
  have hview : ∀ i' : I2CDriver, lockView t { s with i2c := i' } =
      { lockView t s with driver := some i' } := by
    intro i'
    ext1
    · rfl
    · rfl
    · exact lockView_driver_of_held (s := { s with i2c := i' }) hheld
    · rfl
    · rfl
  rw [hview]
  exact hQ _ rfl rfl

/-- A transfer, with the bus taken and released around it. -/
theorem locks_i2c1Transmit [Runs M d] {addr : UInt8} {txsize rxsize timeout : Nat}
    {Q : Msg → LockView → Prop} (hv : v.Running) (hord : d.ordered → Below .i2c v.kern)
    (hQ : Q (v.results 0).msg (v.drop 1)) :
    Locks M t d (i2c1Transmit (F := F) addr txsize rxsize timeout) Q v := by
  refine locks_view (a := .mtxLock .i2c) fun s hsv => ?_
  refine locks_bind (locks_chMtxLock hv hord fun hheld i hi => ?_)
  have hdrv : v.driver = none := by
    subst hsv
    rw [lockView_driver, hheld]
    rfl
  obtain ⟨i, rfl, hset⟩ := hi.2 rfl
  have hbus : (v.lock .i2c).kern.held .i2c ≠ none := by
    rw [v.held_lock .i2c]
    exact Option.some_ne_none _
  have hlock := v.running_lock .i2c
  refine locks_bind (locks_bind (locks_i2cBegin hlock hbus rfl hset ?_))
  refine locks_bind (locks_i2cTransfer hlock hbus rfl ?_)
  refine locks_i2cEnd hlock hbus rfl fun i' _ hi' => ?_
  refine locks_bind (locks_chMtxUnlock hlock (v.held_lock .i2c) (fun _ _ => ⟨i', rfl, hi'⟩)
    (locks_pure ?_))
  have hdone : { (v.lock .i2c).unlock .i2c v.kern.stack with driver := none } = v := by
    rw [LockView.unlock_lock hv hheld, ← hdrv]
  rw [← hdone] at hQ
  exact hQ

/-! ### Threads -/

/-- A new thread, while the creator has no mutex. -/
theorem locks_chThdCreateStatic [Runs M d] {u : Tid} {Q : Unit → LockView → Prop}
    (hv : v.Running) (hfree : d.ordered → ∀ m, v.kern.held m = none) (hQ : Q () v) :
    Locks M t d (chThdCreateStatic (F := F) u) Q v := by
  refine locks_act fun s hs hsv => ?_
  subst hsv
  refine ⟨lockView_running.mp hv, hfree, by simp, fun r s' hrs _ => ?_⟩
  rw [Sys.exec_thdCreate hrs]
  exact ⟨⟨hs.wf, hs.bus⟩, hQ⟩

/-- A sleep, in which the thread has no mutex. -/
theorem locks_chThdSleepMilliseconds [Runs M d] {n : Nat} {Q : Unit → LockView → Prop}
    (hv : v.Running) (hfree : d.ordered → ∀ m, v.kern.held m = none) (hQ : Q () v) :
    Locks M t d (chThdSleepMilliseconds (F := F) n) Q v := by
  refine locks_act fun s hs hsv => ?_
  subst hsv
  refine ⟨lockView_running.mp hv, hfree, by simp, fun r s' hrs _ => ?_⟩
  rw [Sys.exec_sleep hrs]
  exact ⟨hs, hQ⟩

/-- `i2cStart`, while the thread does not hold the bus. -/
theorem locks_i2cStart [Runs M d] {Q : Unit → LockView → Prop} (hv : v.Running)
    (hheld : v.kern.held .i2c = none) (hQ : Q () v) : Locks M t d (i2cStart (F := F)) Q v := by
  refine locks_act fun s hs hsv => ?_
  subst hsv
  refine ⟨lockView_running.mp hv, fun _ => trivial, by simp, fun r s' hrs _ => ?_⟩
  rw [Sys.exec_i2cStart hrs]
  refine ⟨⟨hs.wf, fun _ => .inr (.inr rfl)⟩, ?_⟩
  have hview : ∀ i' : I2CDriver, lockView t { s with i2c := i' } = lockView t s := by
    intro i'
    ext1
    · rfl
    · rfl
    · have hnone : ∀ s₁ : Sys F, (lockView t s₁).kern.held .i2c = none →
          (lockView t s₁).driver = none := fun s₁ h => by
        rw [lockView_driver, h]
        rfl
      rw [hnone _ hheld]
      exact hnone { s with i2c := i' } hheld
    · rfl
    · rfl
  rw [hview]
  exact hQ

end

end MotionTracking
