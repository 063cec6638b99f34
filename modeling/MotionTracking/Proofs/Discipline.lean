import MotionTracking.Proofs.Initialised
import MotionTracking.Proofs.LockCalls

/-!
# `MotionTracking.Proofs.Discipline`: no thread disturbs another's mutexes

The rules of `LockCalls` are about one thread. Here they are about all three at
once: a disciplined step of one thread changes no other thread's `LockView`
(`lockView_frame`), so the outline of each thread is one of the whole machine
(`disciplined`).

`politely M` is the machine `M` without the steps that break the rules of the
mutexes. Every run of the firmware is one of it (`reaches_politely`), so the
proofs that follow may take the rules for granted.
-/

set_option autoImplicit false

namespace MotionTracking

open ChibiOS (Kernel)
open Threads (Machine Outline Reaches Config)
open Threads.Outline (Sat Triple)
open Threads.Prog (perform)

variable {F α : Type}

/-! ### One step, seen from another thread -/

/-- A mutex is used or not, as its two fields say. -/
instance (m : Mtx) (k : Kernel Tid Mtx) : Decidable (k.Used m) :=
  inferInstanceAs (Decidable (_ ∨ _))

/-- Whether an action comes in time can be read from the state before it. -/
instance (s : Sys F) (a : Act F) : Decidable (InitOk s a) := by
  cases a <;> unfold InitOk <;> infer_instance

/-- Whether a step is within the rules can be read from the state before it. -/
instance (t : Tid) (s : Sys F) (a : Act F) : Decidable (Disciplined t s a) := by
  cases a <;> unfold Disciplined <;> infer_instance

/-- A step within the rules keeps the kernel well formed, by cases on the action. -/
theorem wf_step {t : Tid} {a : Act F} {s s' : Sys F} {r : a.Ans} (hs : s.kern.Wf)
    (hd : Disciplined t s a) (h : s.exec t a = some (r, s')) : s'.kern.Wf := by
  by_cases hp : a.plain = true
  · exact (Sys.exec_plain hp h).kern ▸ hs
  cases a with
  | mtxInit m =>
      rw [Sys.exec_mtxInit h]
      exact hs.chMtxObjectInit m
  | mtxLock m =>
      rw [Sys.exec_mtxLock h]
      exact hs.chMtxLockS hd m
  | mtxResume =>
      obtain ⟨k, hk, rfl⟩ := Sys.exec_mtxResume h
      exact hs.chMtxResume hk
  | mtxUnlock m =>
      rw [Sys.exec_mtxUnlock h]
      exact hs.chMtxUnlock hd.1 m
  | thdCreate u =>
      rw [Sys.exec_thdCreate h]
      exact hs
  | i2cStart =>
      rw [Sys.exec_i2cStart h]
      exact hs
  | i2cBegin =>
      rw [Sys.exec_i2cBegin h]
      exact hs
  | i2cTransfer addr txbytes rxbytes =>
      rw [Sys.exec_i2cTransfer h]
      exact hs
  | i2cEnd =>
      obtain ⟨-, rfl⟩ := Sys.exec_i2cEnd h
      exact hs
  | _ => exact absurd rfl hp

/-- A disciplined step changes no other thread's view of the kernel. -/
theorem kern_frame {t u : Tid} {a : Act F} {s s' : Sys F} {r : a.Ans} (hs : s.kern.Wf)
    (hd : Disciplined t s a) (hi : InitOk s a) (h : s.exec t a = some (r, s')) (hu : u ≠ t) :
    s'.kern.view u = s.kern.view u := by
  by_cases hp : a.plain = true
  · rw [(Sys.exec_plain hp h).kern]
  cases a with
  | mtxInit m =>
      rw [Sys.exec_mtxInit h]
      obtain ⟨ho, hq⟩ := Kernel.not_used.mp hi
      exact Kernel.view_chMtxObjectInit ho hq u
  | mtxLock m =>
      rw [Sys.exec_mtxLock h]
      exact Kernel.view_chMtxLockS_other hu m
  | mtxResume =>
      obtain ⟨k, hk, rfl⟩ := Sys.exec_mtxResume h
      exact Kernel.view_chMtxResume_other hu hk
  | mtxUnlock m =>
      rw [Sys.exec_mtxUnlock h]
      exact Kernel.view_chMtxUnlock_other hs hu hd.2
  | thdCreate w =>
      rw [Sys.exec_thdCreate h]
  | i2cStart =>
      rw [Sys.exec_i2cStart h]
  | i2cBegin =>
      rw [Sys.exec_i2cBegin h]
  | i2cTransfer addr txbytes rxbytes =>
      rw [Sys.exec_i2cTransfer h]
      rfl
  | i2cEnd =>
      obtain ⟨-, rfl⟩ := Sys.exec_i2cEnd h
      rfl
  | _ => exact absurd rfl hp

/-- Only the thread that holds the bus changes the driver. -/
theorem i2c_frame {t : Tid} {a : Act F} {s s' : Sys F} {r : a.Ans} (hd : Disciplined t s a)
    (hi : InitOk s a) (h : s.exec t a = some (r, s')) (ht : ¬s.kern.Holds t .i2c) {u : Tid}
    (hu : s.kern.Holds u .i2c) : s'.i2c = s.i2c := by
  by_cases hp : a.plain = true
  · rw [(Sys.exec_plain hp h).i2c]
  cases a with
  | mtxInit m => rw [Sys.exec_mtxInit h]
  | mtxLock m => rw [Sys.exec_mtxLock h]
  | mtxResume =>
      obtain ⟨k, hk, rfl⟩ := Sys.exec_mtxResume h
      rfl
  | mtxUnlock m =>
      rw [Sys.exec_mtxUnlock h]
      rfl
  | thdCreate w => rw [Sys.exec_thdCreate h]
  | i2cStart => exact absurd (.inl (by simp [hu.1])) hi
  | i2cBegin => exact absurd hd.2 ht
  | i2cTransfer addr txbytes rxbytes => exact absurd hd.2 ht
  | i2cEnd => exact absurd hd.2 ht
  | _ => exact absurd rfl hp

/-- A step of one thread leaves the logs and results of the others. -/
theorem log_frame {t u : Tid} {a : Act F} {s s' : Sys F} {r : a.Ans}
    (h : s.exec t a = some (r, s')) (hu : u ≠ t) :
    s'.log u = s.log u ∧ s'.results u = s.results u := by
  constructor
  · rcases Sys.exec_log h with hlog | ⟨ev, -, hlog⟩
    · rw [hlog]
    · rw [hlog, Function.update_of_ne hu]
  · rcases Sys.exec_results h with hresults | ⟨-, hresults⟩
    · rw [hresults]
    · rw [hresults, Function.update_of_ne hu]

/-- A step within the rules is invisible to the other threads, as far as mutexes go. -/
theorem lockView_frame {t u : Tid} {a : Act F} {s s' : Sys F} {r : a.Ans} (hs : s.kern.Wf)
    (hd : Disciplined t s a) (hi : InitOk s a) (h : s.exec t a = some (r, s')) (hu : u ≠ t) :
    lockView u s' = lockView u s := by
  have hkern := kern_frame hs hd hi h hu
  obtain ⟨hlog, hresults⟩ := log_frame h hu
  have hholds : s'.kern.Holds u .i2c ↔ s.kern.Holds u .i2c := by
    rw [← Kernel.view_held_isSome, hkern, Kernel.view_held_isSome]
  ext1
  · exact hkern
  · exact hresults
  · by_cases hh : s.kern.Holds u .i2c
    · have ht : ¬s.kern.Holds t .i2c := fun ht => hu (hh.unique ht)
      simp [lockView, hholds, hh, i2c_frame hd hi h ht hh]
    · simp [lockView, hholds, hh]
  · simp [lockView, hlog]
  · simp [lockView, hlog]

/-! ### The machine that initialises before use -/

/-- The firmware's machine, without the steps that break `InitOk`. -/
def initMachine (F : Type) : Machine (sig F) Tid (Sys F) EnvMove :=
  (machine F).restrict (fun _ a s => InitOk s a) fun _ _ => True

/-- A step of this machine is one that the initialisation allows. -/
theorem initMachine_exec {t : Tid} {a : Act F} {s : Sys F} {rs : a.Ans × Sys F} :
    (initMachine F).exec t a s = some rs ↔ InitOk s a ∧ s.exec t a = some rs :=
  Machine.restrict_exec_eq_some

/-- What the rules ask for, on this machine. -/
instance (d : Demands) : Runs (initMachine F) d where
  exec h := (initMachine_exec.mp h).2
  started _ t s rs h := by
    have hready : Ready .i2c s = true := (initMachine_exec.mp h).1
    simpa [Ready] using (Bool.and_eq_true_iff.mp hready).2

/-- A run on the outline of the initialisations keeps its rules. -/
theorem reaches_initMachine_of_ok {loop : Tid → Prog F Unit} {J : Tid → (Mtx → Bool) → Prop}
    {c₀ c : Config (sig F) Tid (Sys F)} (h : Reaches (machine F) loop c₀ c)
    (hok : ∀ c, Reaches (machine F) loop c₀ c → (initialising (F := F)).Ok J c) :
    Reaches (initMachine F) loop c₀ c := by
  refine h.restrict (fun c hc t a k hcode rs hrs => ?_) fun _ _ _ _ _ => trivial
  exact (hok c hc).safe hcode (Sys.exec_started hrs)

/-- The firmware initialises its mutexes in time, so all its runs are runs of this
machine. -/
theorem reaches_initMachine [CFloat F] {results : Tid → Nat → I2CResult} {regs : UInt8 → UInt8}
    {pastStrbuf : List UInt8} {c : Config (sig F) Tid (Sys F)}
    (h : Reaches (machine F) loop (bootConfig results regs pastStrbuf) c) :
    Reaches (initMachine F) loop (bootConfig results regs pastStrbuf) c :=
  reaches_initMachine_of_ok h fun _ hc => init_of_reaches hc

/-! ### All threads -/

/-- The outline of all threads over their `LockView`s. -/
def disciplined (F : Type) (d : Demands) : Outline (initMachine F) where
  View _ := LockView
  view t s := lockView t s
  inv s := LockInv d s
  safe t a s := Disciplined t s a ∧ (d.ordered → InOrder (s.kern.view t) a) ∧
    (d.settled → a = .i2cBegin → Settled s.i2c)
  guar _ _ _ _ _ := True

/-- What a thread does for itself it does without disturbing the others. -/
theorem locks_disciplined {d : Demands} {t : Tid} {p : Prog F α}
    {Q : α → LockView → Prop} {v : LockView} (h : Locks (initMachine F) t d p Q v) :
    (disciplined F d).Sat t p Q v := by
  induction p generalizing v with
  | ret x => exact h
  | act a k ih =>
      intro s hs hv
      obtain ⟨hsafe, hstep⟩ := h s hs hv
      refine ⟨hsafe, fun r s' hrs => ?_⟩
      obtain ⟨hgood, hrest⟩ := hstep r s' hrs
      obtain ⟨hinit, hexec⟩ := initMachine_exec.mp hrs
      exact ⟨⟨hgood.inv, trivial, fun u hu => lockView_frame hs.wf hsafe.1 hinit hexec hu⟩,
        ih r hrest⟩

/-- What a thread knows at the head of its loop. With ordered locking, it holds
no mutex, and no transfer of the serial thread is going to fail. -/
def AtLoop (d : Demands) (t : Tid) (v : LockView) : Prop :=
  v.Running ∧
    (d.ordered → (∀ m, v.kern.held m = none) ∧ (t = .serial → ∀ n, (v.results n).msg = .MSG_OK))

section
variable {d : Demands} {t : Tid} {v w : LockView}

/-- At the head of a loop no mutex is held. -/
theorem AtLoop.free (h : AtLoop d t v) (ho : d.ordered) : ∀ m, v.kern.held m = none := (h.2 ho).1

/-- So any mutex may be taken. -/
theorem AtLoop.below (h : AtLoop d t v) (m : Mtx) (ho : d.ordered) : Below m v.kern :=
  .of_free (h.free ho) m

/-- Results that are used up do no harm. -/
theorem AtLoop.drop (h : AtLoop d t v) (n : Nat) : AtLoop d t (v.drop n) :=
  ⟨h.1, fun ho => ⟨h.free ho, fun ht k => (h.2 ho).2 ht (k + n)⟩⟩

/-- A command leaves its thread at the head of the loop. -/
theorem AtLoop.afterCommand {str : List UInt8} (h : AtLoop d .serial v)
    (hw : AfterCommand str v w) : AtLoop d .serial w := by
  cases hw with
  | other hstr => exact h
  | rangeOk r hstr hres => exact h.drop 1
  | rangeErr r hstr hres hser hmpu => exact ⟨rfl, fun ho => absurd ((h.2 ho).2 rfl 0) hres⟩

/-- An iteration of each loop leads back to the head of the loop. -/
theorem locks_loop [CFloat F] (h : AtLoop d t v) :
    Locks (initMachine F) t d (loop t) (fun _ => AtLoop d t) v := by
  cases t with
  | main => exact locks_chThdSleepMilliseconds (n := 1000) h.1 h.free h
  | serial =>
      exact locks_serialcommThread h.1 h.free (fun ho => (h.2 ho).2 rfl 0) h
        fun _ _ hw => h.afterCommand hw
  | mpu => exact locks_mpumThread h.1 h.free h.drop

/-- What a view says of a mutex that is being initialised does not matter. -/
theorem AtLoop.forget (h : AtLoop d t v) (m : Mtx) : AtLoop d t (v.forget m) := by
  refine ⟨h.1, fun ho => ⟨fun m' => ?_, (h.2 ho).2⟩⟩
  by_cases hm : m' = m
  · subst hm
    exact v.held_forget m'
  · simpa [LockView.forget, MotionTracking.forget, hm] using (h.2 ho).1 m'

/-- The setup of a thread. The fourth transfer of `main` is that of `mpu_acc_range`. -/
theorem locks_setup [CFloat F] (h : AtLoop d t v) (hheld : v.kern.held .i2c = none)
    (hrange : d.ordered → t = .main → (v.results 3).msg = .MSG_OK) :
    Locks (initMachine F) t d (setup t) (fun _ => AtLoop d t) v := by
  cases t with
  | main =>
      have hend : ∀ w, AtLoop d .main w → Locks (initMachine F) .main d (do
          chThdCreateStatic .serial
          serialPrint (.text "Serial thread: running\n\r")
          chThdCreateStatic .mpu
          serialPrint (.text "MPU thread: running\n\r")) (fun _ => AtLoop d .main) w := by
        intro w hw
        refine locks_bind (locks_chThdCreateStatic hw.1 hw.free ?_)
        refine locks_bind (locks_serialPrint hw.1 (hw.below _) ?_)
        refine locks_bind (locks_chThdCreateStatic hw.1 hw.free ?_)
        exact locks_serialPrint hw.1 (hw.below _) hw
      refine locks_bind (locks_bind (locks_chMtxObjectInit (by decide) h.1 ?_))
      have hw := h.forget .mtprint
      refine locks_quiet (by simp [perform, Quiet]) hw.1 fun _ => ?_
      refine locks_bind (locks_serialPrint hw.1 (hw.below _) ?_)
      refine locks_bind (locks_serialPrint hw.1 (hw.below _) ?_)
      refine locks_bind (locks_serialPrint hw.1 (hw.below _) ?_)
      refine locks_bind (locks_i2cStart hw.1 ?_ ?_)
      · simpa [LockView.forget, MotionTracking.forget] using hheld
      refine locks_bind (locks_mpuInit hw.1 (hw.below _) (fun _ => ?_) fun hres => ?_)
      · exact hend _ ((hw.forget .mpu).drop 5)
      · exact hend _ ⟨rfl, fun ho => absurd (hrange ho rfl) hres⟩
  | serial =>
      refine locks_bind (locks_chMtxObjectInit (by decide) h.1 ?_)
      have hw := h.forget .serialcomm
      exact locks_chThdSleepMilliseconds hw.1 hw.free hw
  | mpu => exact h

end

/-- The surroundings touch no mutex. -/
theorem disciplined_env (d : Demands) : (disciplined F d).EnvOk := by
  intro e s s' hs he
  cases e with
  | rx b =>
      cases he
      exact ⟨⟨hs.wf, hs.bus⟩, fun _ => rfl⟩
  | elapse n =>
      cases he
      exact ⟨⟨hs.wf, hs.bus⟩, fun _ => rfl⟩
  | sample data =>
      cases he
      exact ⟨⟨hs.wf, hs.bus⟩, fun _ => rfl⟩

/-- At the start no mutex is taken and nobody waits. -/
theorem boot_wf [CFloat F] (results : Tid → Nat → I2CResult) (regs : UInt8 → UInt8)
    (pastStrbuf : List UInt8) : (boot results regs pastStrbuf : Sys F).kern.Wf := by
  refine ⟨?_, ?_, ?_⟩ <;> simp [boot]

/-- The invariant holds at the start. -/
theorem lockInv_boot [CFloat F] (d : Demands) (results : Tid → Nat → I2CResult)
    (regs : UInt8 → UInt8) (pastStrbuf : List UInt8) :
    LockInv d (boot results regs pastStrbuf : Sys F) :=
  ⟨boot_wf results regs pastStrbuf, fun _ => .inr (.inl ⟨rfl, rfl⟩)⟩

/-- The transfers of `mpu_acc_range` succeed: the fourth of `main`, and all those of
the serial thread. -/
def RangesOk (results : Tid → Nat → I2CResult) : Prop :=
  (results .main 3).msg = .MSG_OK ∧ ∀ n, (results .serial n).msg = .MSG_OK

/-- A thread at the start is as at the head of its loop. -/
theorem atLoop_boot [CFloat F] {d : Demands} {results : Tid → Nat → I2CResult}
    {regs : UInt8 → UInt8} {pastStrbuf : List UInt8} (hres : d.ordered → RangesOk results)
    (t : Tid) : AtLoop d t (lockView t (boot results regs pastStrbuf : Sys F)) := by
  refine ⟨rfl, fun ho => ⟨fun m => rfl, ?_⟩⟩
  rintro rfl
  exact (hres ho).2

/-- The setup leads from the start to the head of the loop. -/
theorem locks_setup_boot [CFloat F] {d : Demands} {results : Tid → Nat → I2CResult}
    {regs : UInt8 → UInt8} {pastStrbuf : List UInt8} (hres : d.ordered → RangesOk results)
    (t : Tid) : Locks (initMachine F) t d (setup t) (fun _ => AtLoop d t)
      (lockView t (boot results regs pastStrbuf : Sys F)) := by
  refine locks_setup (atLoop_boot hres t) rfl ?_
  rintro ho rfl
  exact (hres ho).1

/-- Every state of every run of the firmware is on the outline. With ordered
locking this needs a driver whose range transfers succeed. -/
theorem disciplined_of_reaches [CFloat F] (d : Demands) {results : Tid → Nat → I2CResult}
    {regs : UInt8 → UInt8} {pastStrbuf : List UInt8}
    (hres : d.ordered → RangesOk results) {c : Config (sig F) Tid (Sys F)}
    (h : Reaches (machine F) loop (bootConfig results regs pastStrbuf) c) :
    (disciplined F d).Ok (AtLoop d) c := by
  have hboot : (disciplined F d).Ok (AtLoop d) (bootConfig results regs pastStrbuf) := by
    refine ⟨lockInv_boot d results regs pastStrbuf, fun t => ?_⟩
    exact locks_disciplined (locks_setup_boot hres t)
  exact hboot.reaches (fun t v hv => locks_disciplined (locks_loop hv)) (disciplined_env d)
    (reaches_initMachine h)

/-! ### The machines that keep the rules -/

/-- `M` without the steps that break the rules of the mutexes. -/
def politely (M : Machine (sig F) Tid (Sys F) EnvMove) : Machine (sig F) Tid (Sys F) EnvMove :=
  M.restrict (fun t a s => Disciplined t s a ∧ InitOk s a) fun _ _ => True

/-- A machine of the firmware that keeps the rules of the mutexes. -/
class Polite (M : Machine (sig F) Tid (Sys F) EnvMove) : Prop where
  le : M.Le (politely (machine F))

/-- A part of the firmware's machine is polite once the steps against the rules are taken
out. -/
theorem polite_of_le {M : Machine (sig F) Tid (Sys F) EnvMove} (h : M.Le (machine F)) :
    Polite (politely M) where
  le :=
    { exec := fun he => Machine.restrict_exec_eq_some.mpr
        ((Machine.restrict_exec_eq_some.mp he).imp_right h.exec)
      env := fun he => Machine.restrict_env_eq_some.mpr
        ((Machine.restrict_env_eq_some.mp he).imp_right h.env) }

/-- The firmware's machine without the steps against the rules. -/
instance : Polite (politely (machine F)) := polite_of_le (.refl _)

/-- Restrictions of it. -/
instance (ok : Tid → Act F → Sys F → Prop) (envOk : EnvMove → Sys F → Prop)
    [∀ t a s, Decidable (ok t a s)] [∀ e s, Decidable (envOk e s)] :
    Polite (politely ((machine F).restrict ok envOk)) :=
  polite_of_le (Machine.restrict_le (machine F) ok envOk)

/-- A step of a polite machine is a step of the firmware within the rules. -/
theorem polite_exec {M : Machine (sig F) Tid (Sys F) EnvMove} [hM : Polite M] {t : Tid}
    {a : Act F} {s : Sys F} {rs : a.Ans × Sys F} (h : M.exec t a s = some rs) :
    Disciplined t s a ∧ InitOk s a ∧ s.exec t a = some rs := by
  obtain ⟨⟨hd, hi⟩, he⟩ := Machine.restrict_exec_eq_some.mp (hM.le.exec h)
  exact ⟨hd, hi, he⟩

/-- Its surroundings are those of the firmware. -/
theorem polite_env {M : Machine (sig F) Tid (Sys F) EnvMove} [hM : Polite M] {e : EnvMove}
    {s s' : Sys F} (h : M.env e s = some s') : s.env e = some s' :=
  (Machine.restrict_env_eq_some.mp (hM.le.env h)).2

/-- Every run of the firmware keeps the rules of the mutexes. -/
theorem reaches_politely [CFloat F] {M : Machine (sig F) Tid (Sys F) EnvMove}
    (hM : M.Le (machine F)) {results : Tid → Nat → I2CResult} {regs : UInt8 → UInt8}
    {pastStrbuf : List UInt8} {c : Config (sig F) Tid (Sys F)}
    (h : Reaches M loop (bootConfig results regs pastStrbuf) c) :
    Reaches (politely M) loop (bootConfig results regs pastStrbuf) c := by
  refine h.restrict (fun c hc t a k hcode rs hrs => ?_) fun _ _ _ _ _ => trivial
  have hc := hc.mono hM
  have hok := disciplined_of_reaches ⟨False, False⟩ False.elim hc
  exact ⟨(hok.safe hcode).1, initOk_of_reaches hc hcode (Sys.exec_started (hM.exec hrs))⟩

end MotionTracking
