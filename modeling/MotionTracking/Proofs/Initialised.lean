import MotionTracking.Firmware.Footprint
import MotionTracking.Threads.Outline

/-!
# `MotionTracking.Proofs.Initialised`: initialised before use

Every mutex is initialised by one thread (`Mtx.initBy`), `serialcomm.c`'s by the
serial thread, the others by `main`, before the two threads that use them exist.
The bus counts as ready from `i2cStart` on.

`initialising` is the outline for this. A thread's view is which of its own
mutexes are ready, and the invariant says that only ready mutexes are in use and
that `main`'s are ready once another thread runs. So a mutex is free when it is
initialised (`InitOk`), and ready when it is locked.
-/

set_option autoImplicit false

namespace MotionTracking

open ChibiOS (Kernel)
open Threads (Outline)
open Threads.Outline (Sat Triple)
open Threads.Prog (perform)
open Footprint (Within)

variable {F α : Type}

/-- The thread that initialises a mutex. -/
def Mtx.initBy : Mtx → Tid
  | .serialcomm => .serial
  | _ => .main

/-- The mutex is initialised, and for the bus the driver is started. -/
def Ready (m : Mtx) (s : Sys F) : Bool :=
  s.kern.inited m && (m ≠ .i2c || s.i2c.state ≠ .I2C_STOP)

/-- An initialisation finds its mutex free, and a lock finds it initialised. -/
def InitOk (s : Sys F) : Act F → Prop
  | .mtxInit m => ¬s.kern.Used m
  | .mtxLock m => Ready m s = true
  | .i2cStart => ¬s.kern.Used .i2c
  | _ => True

/-- A mutex in use is ready, the threads start once `main`'s mutexes are ready, and the
bus mutex is initialised all along. -/
structure InitInv (s : Sys F) : Prop where
  used : ∀ m, s.kern.Used m → Ready m s = true
  threads : ∀ t, t ≠ .main → s.started t = true → ∀ m, m.initBy = .main → Ready m s = true
  bus : s.kern.inited .i2c = true

/-- Each thread knows which of its own mutexes are ready, and locks no other before it is.
-/
def initialising : Outline (machine F) where
  View _ := Mtx → Bool
  view t s m := m.initBy = t && Ready m s
  inv := InitInv
  safe t a s := s.started t = true → InitOk s a
  guar _ _ _ _ _ := True

/-! ### One step -/

/-- What an action of a footprint can change: it uses what was in use or what it
locks, and nothing becomes ready or stops being so. -/
structure Calm (A : Footprint) (s s' : Sys F) : Prop where
  used : ∀ m, s'.kern.Used m → s.kern.Used m ∨ m ∈ A.locks
  inited : s'.kern.inited = s.kern.inited
  ready : ∀ m, Ready m s' = Ready m s
  started : s'.started = s.started

/-- Readiness is read from two fields. -/
theorem ready_congr {m : Mtx} {s s' : Sys F} (hi : s'.kern.inited = s.kern.inited)
    (hs : s'.i2c.state = .I2C_STOP ↔ s.i2c.state = .I2C_STOP) : Ready m s' = Ready m s := by
  simp only [Ready, hi, ne_eq, hs]

/-- An action within a footprint is calm, by cases on the action. -/
theorem calm_step {A : Footprint} {t : Tid} {a : Act F} {s s' : Sys F} {r : a.Ans}
    (ha : A.Within a) (hbus : .i2c ∈ A.locks → Ready .i2c s = true)
    (h : s.exec t a = some (r, s')) : Calm A s s' := by
  have hstop : .i2c ∈ A.locks → s.i2c.state ≠ .I2C_STOP := fun hA => by
    simpa [Ready] using (Bool.and_eq_true_iff.mp (hbus hA)).2
  by_cases hp : a.plain = true
  · have hp := Sys.exec_plain hp h
    refine ⟨fun m hm => .inl (hp.kern ▸ hm), by rw [hp.kern], fun m => ?_, hp.started⟩
    exact ready_congr (by rw [hp.kern]) (by rw [hp.i2c])
  cases a with
  | mtxLock m =>
      rw [Sys.exec_mtxLock h]
      have hi := Kernel.inited_chMtxLockS t m s.kern
      refine ⟨fun m' hm' => ?_, hi, fun m' => ready_congr hi Iff.rfl, rfl⟩
      refine (Kernel.used_chMtxLockS hm').imp_right ?_
      rintro rfl
      exact ha
  | mtxResume =>
      obtain ⟨k, hk, rfl⟩ := Sys.exec_mtxResume h
      have hi := Kernel.inited_chMtxResume hk
      exact ⟨fun m hm => .inl ((Kernel.used_chMtxResume hk).mp hm), hi,
        fun m => ready_congr hi Iff.rfl, rfl⟩
  | mtxUnlock m =>
      rw [Sys.exec_mtxUnlock h]
      have hi := Kernel.inited_chMtxUnlock t m s.kern
      exact ⟨fun m' hm' => .inl (Kernel.used_chMtxUnlock hm'), hi,
        fun m' => ready_congr hi Iff.rfl, rfl⟩
  | i2cBegin =>
      rw [Sys.exec_i2cBegin h]
      exact ⟨fun m hm => .inl hm, rfl, fun m => ready_congr rfl (by simp [hstop ha]), rfl⟩
  | i2cTransfer addr txbytes rxbytes =>
      rw [Sys.exec_i2cTransfer h]
      exact ⟨fun m hm => .inl hm, rfl, fun m => ready_congr rfl Iff.rfl, rfl⟩
  | i2cEnd =>
      obtain ⟨-, rfl⟩ := Sys.exec_i2cEnd h
      refine ⟨fun m hm => .inl hm, rfl, fun m => ready_congr rfl ?_, rfl⟩
      simp only [hstop ha, iff_false]
      split <;> simp
  | mtxInit m => exact ha.elim
  | thdCreate u => exact ha.elim
  | i2cStart => exact ha.elim
  | _ => exact absurd rfl hp

/-! ### The rules -/

section
variable {t : Tid} {V : Mtx → Bool}

/-- Code with a footprint keeps the view, when its mutexes are ready: its own by
the view, `main`'s because the thread runs. -/
theorem init_within {A : Footprint} {p : Prog F α} (hp : p.All (Within A))
    (hA : ∀ m ∈ A.locks, (m.initBy = t ∧ V m = true) ∨ (t ≠ .main ∧ m.initBy = .main)) :
    (initialising (F := F)).Triple t (· = V) p fun _ v => v = V := by
  refine Triple.of_all hp fun a ha s hs hv => ?_
  have hready : s.started t = true → ∀ m ∈ A.locks, Ready m s = true := by
    intro hst m hm
    rcases hA m hm with ⟨-, hV⟩ | ⟨ht, hm⟩
    · have hvm := congrFun hv m
      rw [hV] at hvm
      exact (Bool.and_eq_true_iff.mp hvm).2
    · exact hs.threads t ht hst m hm
  refine ⟨fun hst => ?_, fun r s' hrs => ?_⟩
  · cases a with
    | mtxLock m => exact hready hst m ha
    | mtxInit m => exact ha.elim
    | i2cStart => exact ha.elim
    | _ => trivial
  · have hready := hready (Sys.exec_started hrs)
    have hc := calm_step ha (hready .i2c) hrs
    have hview : ∀ u, (initialising (F := F)).view u s' = (initialising (F := F)).view u s := by
      intro u
      funext m
      simp only [initialising, hc.ready]
    refine ⟨⟨⟨fun m hm => ?_, fun u hu hst m hm => ?_, ?_⟩, trivial, fun u _ => hview u⟩, ?_⟩
    · rw [hc.ready]
      exact (hc.used m hm).elim (hs.used m) (hready m)
    · rw [hc.ready]
      exact hs.threads u hu (hc.started ▸ hst) m hm
    · rw [hc.inited]
      exact hs.bus
    · rw [hview, hv]

/-- A thread initialises a mutex of its own that is not ready yet. -/
theorem init_chMtxObjectInit {m : Mtx} (hm : m ≠ .i2c) (hby : m.initBy = t) (hV : V m = false) :
    (initialising (F := F)).Triple t (· = V) (chMtxObjectInit m)
      fun _ v => v = Function.update V m true := by
  refine Triple.perform fun s hs hv => ?_
  have hnot : Ready m s = false := by
    have hvm := congrFun hv m
    simpa [initialising, hby, hV] using hvm
  have hfree : ¬s.kern.Used m := fun hu => by
    rw [hs.used m hu] at hnot
    cases hnot
  refine ⟨fun _ => hfree, fun r s' hrs => ?_⟩
  rw [Sys.exec_mtxInit hrs]
  have hready : ∀ m', Ready m' { s with kern := s.kern.chMtxObjectInit m } =
      Function.update (fun m' => Ready m' s) m true m' := by
    intro m'
    by_cases hm' : m' = m
    · subst hm'
      simp [Ready, Kernel.chMtxObjectInit, hm]
    · simp [Ready, Kernel.chMtxObjectInit, hm']
  have hmono : ∀ m', Ready m' s = true → Ready m' { s with kern := s.kern.chMtxObjectInit m } := by
    intro m' hm'
    rw [hready]
    by_cases h : m' = m
    · simp [h]
    · simpa [h] using hm'
  refine ⟨⟨⟨fun m' hm' => ?_, fun u hu hst m' hm' => ?_, ?_⟩, trivial, fun u hu => ?_⟩, ?_⟩
  · exact hmono m' (hs.used m' (Kernel.used_chMtxObjectInit hm'))
  · exact hmono m' (hs.threads u hu hst m' hm')
  · simpa [Kernel.chMtxObjectInit, Ne.symm hm] using hs.bus
  · funext m'
    show ((m'.initBy = u : Bool) && Ready m' _) = ((m'.initBy = u : Bool) && Ready m' s)
    by_cases h : m' = m
    · subst h
      simp [hby, Ne.symm hu]
    · rw [hready, Function.update_of_ne h]
  · funext m'
    show ((m'.initBy = t : Bool) && Ready m' _) = _
    rw [hready]
    by_cases h : m' = m
    · subst h
      simp [hby]
    · rw [Function.update_of_ne h, Function.update_of_ne h]
      exact congrFun hv m'

/-- `main` starts the driver once. -/
theorem init_i2cStart (hV : V .i2c = false) :
    (initialising (F := F)).Triple .main (· = V) i2cStart
      fun _ v => v = Function.update V .i2c true := by
  refine Triple.perform fun s hs hv => ?_
  have hnot : Ready .i2c s = false := by
    have hvm := congrFun hv .i2c
    simpa [initialising, Mtx.initBy, hV] using hvm
  have hfree : ¬s.kern.Used .i2c := fun hu => by
    rw [hs.used _ hu] at hnot
    cases hnot
  refine ⟨fun _ => hfree, fun r s' hrs => ?_⟩
  rw [Sys.exec_i2cStart hrs]
  have hready : ∀ m', Ready m' { s with i2c := { state := .I2C_READY, msg := .MSG_OK } } =
      Function.update (fun m' => Ready m' s) .i2c true m' := by
    intro m'
    by_cases hm' : m' = .i2c
    · subst hm'
      simp [Ready, hs.bus]
    · simp [Ready, hm']
  have hmono : ∀ m', Ready m' s = true →
      Ready m' { s with i2c := { state := .I2C_READY, msg := .MSG_OK } } := by
    intro m' hm'
    rw [hready]
    by_cases h : m' = .i2c
    · simp [h]
    · simpa [h] using hm'
  refine ⟨⟨⟨fun m' hm' => hmono m' (hs.used m' hm'), fun u hu hst m' hm' =>
    hmono m' (hs.threads u hu hst m' hm'), hs.bus⟩, trivial, fun u hu => ?_⟩, ?_⟩
  · funext m'
    show ((m'.initBy = u : Bool) && Ready m' _) = ((m'.initBy = u : Bool) && Ready m' s)
    by_cases h : m' = .i2c
    · subst h
      simp [Mtx.initBy, Ne.symm hu]
    · rw [hready, Function.update_of_ne h]
  · funext m'
    show ((m'.initBy = .main : Bool) && Ready m' _) = _
    rw [hready]
    by_cases h : m' = .i2c
    · subst h
      simp [Mtx.initBy]
    · rw [Function.update_of_ne h, Function.update_of_ne h]
      exact congrFun hv m'

/-- `main` creates a thread when all its mutexes are ready. -/
theorem init_chThdCreateStatic (u : Tid) (hV : ∀ m, m.initBy = .main → V m = true) :
    (initialising (F := F)).Triple .main (· = V) (chThdCreateStatic u) fun _ v => v = V := by
  refine Triple.perform fun s hs hv => ⟨fun _ => trivial, fun r s' hrs => ?_⟩
  rw [Sys.exec_thdCreate hrs]
  refine ⟨⟨⟨hs.used, fun u _ _ m hm => ?_, hs.bus⟩, trivial, fun u _ => rfl⟩, hv⟩
  have hvm := congrFun hv m
  rw [hV m hm] at hvm
  exact (Bool.and_eq_true_iff.mp hvm).2

end

/-! ### The three threads -/

/-- The view of a thread all of whose mutexes are ready. -/
def allReady (t : Tid) : Mtx → Bool := fun m => m.initBy = t

/-- The loops initialise nothing. -/
theorem init_loop [CFloat F] (t : Tid) :
    (initialising (F := F)).Triple t (· = allReady t) (loop t) fun _ v => v = allReady t := by
  cases t with
  | main =>
      exact init_within (A := {}) (by simp [loop, chThdSleepMilliseconds, perform, Within])
        (by decide)
  | serial => exact init_within within_serialcommThread (by decide)
  | mpu => exact init_within within_mpumThread (by decide)

/-- The setups make each thread's mutexes ready. -/
theorem init_setup [CFloat F] (t : Tid) :
    (initialising (F := F)).Triple t (· = fun _ => false) (setup t) fun _ v => v = allReady t := by
  rintro v rfl
  cases t with
  | main =>
      obtain ⟨tail, hmpuInit, htail⟩ := within_mpuInit (F := F)
      have hprint : ∀ {V : Mtx → Bool} (s : String), V .mtprint = true →
          (initialising (F := F)).Triple .main (· = V) (serialPrint (.text s))
            fun _ v => v = V := fun s hV =>
        init_within (within_serialPrint_text s) (by simpa [Mtx.initBy] using hV)
      have hdone : Function.update (Function.update (Function.update (fun _ => false)
          Mtx.mtprint true) Mtx.i2c true) Mtx.mpu true = allReady .main := by
        funext m
        cases m <;> rfl
      refine Sat.bind (Triple.seq (init_chMtxObjectInit (by decide) rfl rfl) ?_)
      refine Sat.mono (init_within (A := { reads := true }) (by simp [perform, Within])
        (by decide) _ rfl) fun _ v hv => ?_
      subst hv
      refine Triple.seq (hprint _ rfl) (Triple.seq (hprint _ rfl) (Triple.seq (hprint _ rfl) ?_))
      refine Triple.seq (init_i2cStart rfl) ?_
      rw [hmpuInit]
      refine Sat.bind (Triple.seq (init_chMtxObjectInit (by decide) rfl rfl) ?_)
      rw [hdone]
      refine Sat.mono (init_within htail (by decide) _ rfl) fun _ v hv => ?_
      subst hv
      refine Triple.seq (init_chThdCreateStatic .serial fun m hm => decide_eq_true hm) ?_
      refine Triple.seq (hprint _ rfl) ?_
      refine Triple.seq (init_chThdCreateStatic .mpu fun m hm => decide_eq_true hm) ?_
      exact hprint _ rfl _ rfl
  | serial =>
      have hdone : Function.update (fun _ => false) Mtx.serialcomm true = allReady .serial := by
        funext m
        cases m <;> rfl
      refine Triple.seq (init_chMtxObjectInit (by decide) rfl rfl) ?_
      rw [hdone]
      exact init_within (A := {}) (by simp [chThdSleepMilliseconds, perform, Within])
        (by decide) _ rfl
  | mpu =>
      funext m
      cases m <;> rfl

/-- The surroundings initialise nothing. -/
theorem init_env : (initialising (F := F)).EnvOk := by
  intro e s s' hs he
  cases e with
  | rx b =>
      cases he
      exact ⟨⟨hs.used, hs.threads, hs.bus⟩, fun _ => rfl⟩
  | elapse n =>
      cases he
      exact ⟨⟨hs.used, hs.threads, hs.bus⟩, fun _ => rfl⟩
  | sample data =>
      cases he
      exact ⟨⟨hs.used, hs.threads, hs.bus⟩, fun _ => rfl⟩

section
variable [CFloat F] {results : Tid → Nat → I2CResult} {regs : UInt8 → UInt8}
  {pastStrbuf : List UInt8}

/-- The invariant holds at the start. -/
theorem initInv_boot : InitInv (boot results regs pastStrbuf : Sys F) := by
  refine ⟨fun m hm => ?_, fun t ht hst => ?_, rfl⟩
  · simp [boot, Kernel.Used] at hm
  · simp [boot, ht] at hst

/-- At the start no mutex but that of the bus is initialised, and its driver is not
started. -/
theorem init_view_boot (t : Tid) :
    (initialising (F := F)).view t (boot results regs pastStrbuf) = fun _ => false := by
  funext m
  cases m <;> simp [initialising, Ready, boot]

end

/-- Every run of the firmware is on the outline. -/
theorem init_of_reaches [CFloat F] {results : Tid → Nat → I2CResult} {regs : UInt8 → UInt8}
    {pastStrbuf : List UInt8} {c : Threads.Config (sig F) Tid (Sys F)}
    (h : Threads.Reaches (machine F) loop (bootConfig results regs pastStrbuf) c) :
    (initialising (F := F)).Ok (fun t v => v = allReady t) c := by
  have hboot : (initialising (F := F)).Ok (fun t v => v = allReady t)
      (bootConfig results regs pastStrbuf) :=
    ⟨initInv_boot, fun t => init_setup t _ (init_view_boot t)⟩
  exact hboot.reaches init_loop init_env h

/-- In every run of the firmware, a mutex is free when it is initialised and
initialised when it is locked. -/
theorem initOk_of_reaches [CFloat F] {results : Tid → Nat → I2CResult} {regs : UInt8 → UInt8}
    {pastStrbuf : List UInt8} {c : Threads.Config (sig F) Tid (Sys F)}
    (h : Threads.Reaches (machine F) loop (bootConfig results regs pastStrbuf) c) {t : Tid}
    {a : Act F} {k : a.Ans → Prog F Unit} (hc : c.code t = .act a k)
    (hst : c.st.started t = true) : InitOk c.st a :=
  (init_of_reaches h).safe hc hst

end MotionTracking
