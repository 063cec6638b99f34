import MotionTracking.Firmware.CommandRun
import MotionTracking.Proofs.Deadlock
import MotionTracking.Proofs.Guarded
import MotionTracking.Threads.Progress

/-!
# `MotionTracking.Proofs.Completion`: every string is handled

With a driver whose transfers succeed, a serial thread that passes strings to
`commad_check` can be brought to its end from every state of every run
(`commands_finish`).

The rules of the mutexes are those of the firmware itself: `commad_check` keeps them
for any string. `launching` adds what a sleeping thread relies on: it is queued at a
mutex with an owner, or the mutex has been handed to it, and every owner has
started.
-/

set_option autoImplicit false

namespace MotionTracking

open ChibiOS (Kernel)
open Threads (Outline Reaches Config Active)
open Threads.Outline (Sat Triple)
open Threads.Prog (perform)
open Footprint (Within)

variable {F α : Type}

/-! ### The rules of the mutexes -/

section
variable [CFloat F] {results : Tid → Nat → I2CResult} {regs : UInt8 → UInt8}
  {pastStrbuf : List UInt8} {strs : List (List UInt8)} {c : Config (sig F) Tid (Sys F)}

/-- The strings initialise no mutex. -/
theorem init_runCommands (strs : List (List UInt8)) :
    (initialising (F := F)).Triple .serial (· = allReady .serial) (runCommands strs)
      fun _ v => v = allReady .serial := by
  induction strs with
  | nil => exact Triple.pure fun _ hv => hv
  | cons str strs ih =>
      have hcheck : (initialising (F := F)).Triple .serial (· = allReady .serial)
          (commadCheck str) fun _ v => v = allReady .serial :=
        init_within (within_commadCheck str) (by decide)
      exact hcheck.bind fun _ => ih

/-- In the run with commands, too, a mutex is locked only once it is initialised. -/
theorem init_commands
    (h : Reaches (machine F) commandLoop (bootCommands results regs pastStrbuf strs) c) :
    (initialising (F := F)).Ok (fun t v => v = allReady t) c := by
  have hboot : (initialising (F := F)).Ok (fun t v => v = allReady t)
      (bootCommands results regs pastStrbuf strs) := by
    refine ⟨initInv_boot, fun t => ?_⟩
    cases t with
    | main => exact init_setup .main _ (init_view_boot .main)
    | serial =>
        exact Sat.bind ((init_setup .serial _ (init_view_boot .serial)).mono
          fun _ v hv => init_runCommands strs v hv)
    | mpu => exact init_setup .mpu _ (init_view_boot .mpu)
  refine hboot.reaches (fun t => ?_) init_env h
  cases t with
  | main => exact init_loop .main
  | serial => exact Triple.pure fun _ hv => hv
  | mpu => exact init_loop .mpu

/-- The strings one after the other: each leaves the serial thread as at the head of its
loop, by induction on their list. -/
theorem locks_runCommands {d : Demands} {v : LockView} (hv : AtLoop d .serial v)
    (strs : List (List UInt8)) :
    Locks (initMachine F) .serial d (runCommands strs) (fun _ => AtLoop d .serial) v := by
  induction strs generalizing v with
  | nil => exact locks_pure hv
  | cons str strs ih =>
      exact locks_bind (locks_commadCheck hv.1 (hv.below _) fun w hw => ih (hv.afterCommand hw))

/-- Mutexes are taken in order. -/
def inOrder : Demands := ⟨True, False⟩

/-- The threads of the run with commands keep to the rules of the mutexes. -/
theorem disciplined_commands (hres : ∀ t n, (results t n).msg = .MSG_OK)
    (h : Reaches (machine F) commandLoop (bootCommands results regs pastStrbuf strs) c) :
    (disciplined F inOrder).Ok (AtLoop inOrder) c := by
  have hranges : inOrder.ordered → RangesOk results := fun _ => ⟨hres .main 3, hres .serial⟩
  have hboot : (disciplined F inOrder).Ok (AtLoop inOrder)
      (bootCommands results regs pastStrbuf strs) := by
    refine ⟨lockInv_boot inOrder results regs pastStrbuf, fun t => ?_⟩
    cases t with
    | main => exact locks_disciplined (locks_setup_boot hranges .main)
    | serial =>
        exact locks_disciplined (locks_bind ((locks_setup_boot hranges .serial).mono
          fun _ w hw => locks_runCommands hw strs))
    | mpu => exact locks_disciplined (locks_setup_boot hranges .mpu)
  refine hboot.reaches (fun t v hv => ?_) (disciplined_env inOrder)
    (reaches_initMachine_of_ok h fun _ hc => init_commands hc)
  cases t with
  | main => exact locks_disciplined (locks_loop hv)
  | serial => exact hv
  | mpu => exact locks_disciplined (locks_loop hv)

/-- So its runs are runs of the machine that has only the steps within the rules. -/
theorem reaches_politely_commands (hres : ∀ t n, (results t n).msg = .MSG_OK)
    (h : Reaches (machine F) commandLoop (bootCommands results regs pastStrbuf strs) c) :
    Reaches (politely (machine F)) commandLoop (bootCommands results regs pastStrbuf strs) c := by
  refine h.restrict (fun c hc t a k hcode rs hrs => ?_) fun _ _ _ _ _ => trivial
  exact ⟨((disciplined_commands hres hc).safe hcode).1,
    (init_commands hc).safe hcode (Sys.exec_started hrs)⟩

end

/-! ### Nobody sleeps unattended -/

/-- Nobody sleeps unattended, only threads that have started are involved with a mutex,
and `main` has started. -/
structure Attended (s : Sys F) : Prop where
  served : s.kern.Served
  involved : ∀ t, s.kern.Involved t → s.started t = true
  main : s.started .main = true

/-- `main` knows who has started. No thread reads from the input queue. -/
def launching (F : Type) : Outline (politely (machine F)) where
  View _ := Option (Tid → Bool)
  view t s := if t = .main then some s.started else none
  inv := Attended
  safe _ a _ := ∀ off n, a ≠ .iqWake off n
  guar _ _ _ _ _ := True

section
variable {t : Tid} {a : Act F} {s s' : Sys F} {r : a.Ans}

/-- Only its own `chMtxLock` involves a thread in a mutex. -/
theorem involvedIn_step {u : Tid} {m : Mtx} (h : s.exec t a = some (r, s'))
    (hu : s'.kern.InvolvedIn u m) :
    s.kern.InvolvedIn u m ∨ (u = t ∧ a = .mtxLock m) := by
  by_cases ha : a.isMutex = true
  · cases a with
    | mtxInit m' =>
        rw [Sys.exec_mtxInit h] at hu
        exact .inl (Kernel.involvedIn_chMtxObjectInit hu)
    | mtxLock m' =>
        rw [Sys.exec_mtxLock h] at hu
        refine (Kernel.involvedIn_chMtxLockS hu).imp_right ?_
        rintro ⟨rfl, rfl⟩
        exact ⟨rfl, rfl⟩
    | mtxResume =>
        obtain ⟨k, hk, rfl⟩ := Sys.exec_mtxResume h
        exact .inl (Kernel.involvedIn_chMtxResume hk hu)
    | mtxUnlock m' =>
        rw [Sys.exec_mtxUnlock h] at hu
        exact .inl (Kernel.involvedIn_chMtxUnlock hu)
    | _ => cases ha
  · rw [kern_of_not_isMutex (Bool.eq_false_iff.mpr ha) h] at hu
    exact .inl hu

/-- Only the creation of a thread changes who has started. -/
theorem started_step (ha : ∀ u, a ≠ .thdCreate u) (h : s.exec t a = some (r, s')) :
    s'.started = s.started := by
  by_cases hp : a.plain = true
  · exact (Sys.exec_plain hp h).started
  by_cases hm : a.isMutex = true
  · exact (kernStep_of_isMutex hm h).started
  cases a with
  | thdCreate u => exact absurd rfl (ha u)
  | i2cStart => rw [Sys.exec_i2cStart h]
  | i2cBegin => rw [Sys.exec_i2cBegin h]
  | i2cTransfer addr txbytes rxbytes =>
      rw [Sys.exec_i2cTransfer h]
      rfl
  | i2cEnd => rw [(Sys.exec_i2cEnd h).2]
  | mtxInit m => exact absurd rfl hm
  | mtxLock m => exact absurd rfl hm
  | mtxResume => exact absurd rfl hm
  | mtxUnlock m => exact absurd rfl hm
  | _ => exact absurd rfl hp

/-- Who has started stays so. -/
theorem started_mono (h : s.exec t a = some (r, s')) {u : Tid} (hu : s.started u = true) :
    s'.started u = true := by
  by_cases ha : ∃ w, a = .thdCreate w
  · obtain ⟨w, rfl⟩ := ha
    rw [Sys.exec_thdCreate h]
    by_cases hw : u = w
    · simp [hw]
    · simpa [hw] using hu
  · rw [started_step (fun w hw => ha ⟨w, hw⟩) h]
    exact hu

/-- A step that keeps the rules of the mutexes leaves nobody unattended. -/
theorem Attended.step (hs : Attended s) (hd : Disciplined t s a) (hi : InitOk s a)
    (h : s.exec t a = some (r, s')) : Attended s' := by
  have hserved : s'.kern.Served := by
    by_cases hm : a.isMutex = true
    · cases a with
      | mtxInit m =>
          rw [Sys.exec_mtxInit h]
          exact hs.served.chMtxObjectInit hi
      | mtxLock m =>
          rw [Sys.exec_mtxLock h]
          exact hs.served.chMtxLockS hd m
      | mtxResume =>
          obtain ⟨k, hk, rfl⟩ := Sys.exec_mtxResume h
          exact hs.served.chMtxResume hk
      | mtxUnlock m =>
          rw [Sys.exec_mtxUnlock h]
          exact hs.served.chMtxUnlock hd.2
      | _ => cases hm
    · rw [kern_of_not_isMutex (Bool.eq_false_iff.mpr hm) h]
      exact hs.served
  refine ⟨hserved, fun u hu => ?_, started_mono h hs.main⟩
  obtain ⟨m, hm⟩ := hu
  rcases involvedIn_step h hm with hbefore | ⟨rfl, -⟩
  · exact started_mono h (hs.involved u ⟨m, hbefore⟩)
  · exact started_mono h (Sys.exec_started h)

end

section
variable {t : Tid} {v : Option (Tid → Bool)}

/-- The action neither creates a thread nor reads from the input queue. -/
def Act.Steady (A : Footprint) (a : Act F) : Prop := A.Allows a ∧ ∀ u, a ≠ .thdCreate u

/-- A steady action keeps what `main` knows. -/
theorem launching_keeps {A : Footprint} (hA : A.reads = false) {a : Act F}
    (ha : a.Steady A) : (launching F).Keeps t a (· = v) fun _ w => w = v := by
  intro s hs hv
  refine ⟨?_, fun r s' hrs => ?_⟩
  · rintro off n rfl
    rcases ha.1 with hstart | hwithin
    · cases hstart
    · exact absurd (hA.symm.trans hwithin) Bool.false_ne_true
  · obtain ⟨hd, hi, hexec⟩ := polite_exec hrs
    have hview : ∀ u, (launching F).view u s' = (launching F).view u s := by
      intro u
      simp only [launching, started_step ha.2 hexec]
    exact ⟨⟨hs.step hd hi hexec, trivial, fun u _ => hview u⟩, (hview t).trans hv⟩

/-- Code of steady actions keeps what `main` knows. -/
theorem launching_all {A : Footprint} (hA : A.reads = false) {p : Prog F α}
    (hp : p.All (Act.Steady A)) : (launching F).Triple t (· = v) p fun _ w => w = v :=
  Triple.of_all hp fun _ ha => launching_keeps hA ha

/-- Code within a footprint creates no thread. -/
theorem steady_of_within {A : Footprint} {p : Prog F α} (hp : p.All (Within A)) :
    p.All (Act.Steady A) := by
  refine hp.mono fun a ha => ⟨.inr ha, ?_⟩
  rintro u rfl
  exact ha

/-- Code within a footprint that does not read keeps what `main` knows. -/
theorem launching_within {A : Footprint} (hA : A.reads = false) {p : Prog F α}
    (hp : p.All (Within A)) : (launching F).Triple t (· = v) p fun _ w => w = v :=
  launching_all hA (steady_of_within hp)

/-- `main` knows whom it has created. -/
theorem launching_chThdCreateStatic {f : Tid → Bool} (u : Tid) :
    (launching F).Triple .main (· = some f) (chThdCreateStatic u)
      fun _ w => w = some (Function.update f u true) := by
  refine Triple.perform fun s hs hv => ⟨fun _ _ h => (by cases h), fun r s' hrs => ?_⟩
  obtain ⟨hd, hi, hexec⟩ := polite_exec hrs
  refine ⟨⟨hs.step hd hi hexec, trivial, fun u hu => ?_⟩, ?_⟩
  · simp only [launching, if_neg hu]
  · rw [Sys.exec_thdCreate hexec]
    simp only [launching, if_true, Option.some.injEq] at hv ⊢
    rw [hv]

end

section
variable [CFloat F] {results : Tid → Nat → I2CResult} {regs : UInt8 → UInt8}
  {pastStrbuf : List UInt8} {strs : List (List UInt8)} {c : Config (sig F) Tid (Sys F)}

/-- The start-up creates no thread. -/
theorem steady_startUp : (startUp (F := F)).All (Act.Steady Footprint.init) := by
  have hprint : ∀ s, (serialPrint (F := F) (.text s)).All (Act.Steady Footprint.init) :=
    fun s => steady_of_within (within_le (by decide) (within_serialPrint_text s))
  have hact : ∀ {a : Act F}, a.startup = true → (∀ u, a ≠ .thdCreate u) →
      (perform (S := sig F) a).All (Act.Steady Footprint.init) :=
    fun ha hno => Threads.Prog.all_perform ⟨.inl ha, hno⟩
  obtain ⟨tail, hmpuInit, htail⟩ := within_mpuInit (F := F)
  refine .bind (.bind (hact rfl (by simp)) fun _ => hact rfl (by simp)) fun _ => ?_
  refine .bind (hprint _) fun _ => .bind (hprint _) fun _ => .bind (hprint _) fun _ => ?_
  refine .bind (hact rfl (by simp)) fun _ => ?_
  rw [hmpuInit]
  exact .bind (hact rfl (by simp)) fun _ => steady_of_within htail

/-- When `main` is through its setup, all threads have started. -/
theorem launching_setup {f : Tid → Bool} (hf : f .main = true) :
    (launching F).Triple .main (· = some f) (setup .main) fun _ w => w = some fun _ => true := by
  have hprint : ∀ g text, (launching F).Triple .main (· = some g) (serialPrint (.text text))
      fun _ w => w = some g :=
    fun g text => launching_within rfl (within_serialPrint_text text)
  have hall : Function.update (Function.update f .serial true) .mpu true = fun _ => true := by
    funext t
    cases t with
    | main => exact hf
    | serial => rfl
    | mpu => rfl
  rw [setup_main]
  rintro _ rfl
  refine Triple.seq (launching_all rfl steady_startUp) ?_
  refine Triple.seq (launching_chThdCreateStatic .serial) (Triple.seq (hprint _ _) ?_)
  refine Triple.seq (launching_chThdCreateStatic .mpu) ?_
  rw [hall]
  exact hprint _ _ _ rfl

/-- The strings stay in the footprint of the commands. -/
theorem within_runCommands (strs : List (List UInt8)) :
    (runCommands (F := F) strs).All (Within Footprint.command) := by
  induction strs with
  | nil => exact Threads.Prog.all_pure _
  | cons str strs ih => exact .bind (within_commadCheck str) fun _ => ih

/-- What the threads know when they are through. -/
def launched (t : Tid) (v : Option (Tid → Bool)) : Prop :=
  v = if t = .main then some fun _ => true else none

/-- In every state of the run with commands nobody is unattended, and `main` knows who has
started. -/
theorem launching_ok (hres : ∀ t n, (results t n).msg = .MSG_OK)
    (h : Reaches (machine F) commandLoop (bootCommands results regs pastStrbuf strs) c) :
    (launching F).Ok launched c := by
  have hboot : (launching F).Ok launched (bootCommands results regs pastStrbuf strs) := by
    refine ⟨⟨⟨?_, ?_⟩, ?_, rfl⟩, fun t => ?_⟩
    · intro t m hw
      cases hw
    · intro m hq
      exact absurd rfl hq
    · rintro t ⟨m, ho | hq⟩
      · cases ho
      · cases hq
    · cases t with
      | main => exact launching_setup rfl _ rfl
      | serial =>
          have hinit : (setup (F := F) .serial).All (Act.Steady {}) :=
            ⟨⟨.inl rfl, by simp⟩, fun _ => ⟨⟨.inr trivial, by simp⟩, fun _ => trivial⟩⟩
          refine Triple.seq (launching_all rfl hinit) ?_
          exact launching_within rfl (within_runCommands strs) _ rfl
      | mpu => exact rfl
  have henv : (launching F).EnvOk := by
    intro e s s' hs he
    have he := polite_env he
    cases e <;> cases he <;> exact ⟨⟨hs.served, hs.involved, hs.main⟩, fun _ => rfl⟩
  refine hboot.reaches (fun t => ?_) henv (reaches_politely_commands hres h)
  cases t with
  | main => exact launching_within (A := {}) rfl ⟨trivial, fun _ => trivial⟩
  | serial => exact Triple.pure fun _ hv => hv
  | mpu => exact launching_within rfl within_mpumThread

/-! ### Some thread can go on -/

omit [CFloat F] in
/-- Of the actions, only the return from `chMtxLock` and a read wait. -/
theorem exec_isSome {t : Tid} {a : Act F} {s : Sys F} (hst : s.started t = true)
    (hwake : ∀ off n, a ≠ .iqWake off n)
    (hresume : a = .mtxResume → (s.kern.chMtxResume t).isSome = true) :
    (s.exec t a).isSome = true := by
  cases a with
  | mtxResume =>
      obtain ⟨k, hk⟩ := Option.isSome_iff_exists.mp (hresume rfl)
      simp [Sys.exec, hst, hk]
  | iqRead off n timeout => by_cases hq : s.sd2.iqueue = [] <;> simp [Sys.exec, hst, hq]
  | iqWake off n => exact absurd rfl (hwake off n)
  | _ => simp [Sys.exec, hst]

/-- There are four ranks. -/
theorem Mtx.rank_le (m : Mtx) : m.rank ≤ 3 := by
  cases m <;> decide

/-- As long as the serial thread is not through, some thread can go on. -/
theorem commands_active (hres : ∀ t n, (results t n).msg = .MSG_OK)
    (h : Reaches (machine F) commandLoop (bootCommands results regs pastStrbuf strs) c)
    (hserial : c.code .serial ≠ .ret ()) : Active (machine F) c := by
  have hlocks := disciplined_commands hres h
  have hok := launching_ok hres h
  have hact : ∀ t a k, c.code t = .act a k → c.st.started t = true →
      (a = .mtxResume → (c.st.kern.chMtxResume t).isSome = true) → Active (machine F) c := by
    intro t a k hc hst hresume
    obtain ⟨⟨r, s'⟩, hexec⟩ := Option.isSome_iff_exists.mp (exec_isSome hst (hok.safe hc) hresume)
    exact ⟨t, a, k, r, s', hc, hexec⟩
  -- A thread that is through owns nothing, so an owner that is awake goes on.
  have howner : ∀ u m, c.st.kern.owner m = some u → (c.st.kern.chMtxResume u).isSome = true →
      Active (machine F) c := by
    intro u m ho hresume
    cases hc : c.code u with
    | ret x =>
        have hsat := hlocks.sat u
        rw [hc] at hsat
        have hrun := lockView_running.mp hsat.1
        have hholds : c.st.kern.Holds u m := ⟨ho, by simp [hrun]⟩
        exact absurd ((hsat.2 trivial).1 m) (lockView_holds.mpr hholds)
    | act a k => exact hact u a k hc (hok.inv.involved u ⟨m, .inl ho⟩) fun _ => hresume
  have hgoes : ∀ t, c.st.started t = true → c.code t ≠ .ret () → Active (machine F) c := by
    intro t hst hcode
    cases hc : c.code t with
    | ret x => exact absurd hc hcode
    | act a k =>
        cases hw : c.st.kern.wtmtx t with
        | none => exact hact t a k hc hst fun _ => by simp [Kernel.chMtxResume, hw]
        | some m =>
            have hord := ordered_of_ok trivial hlocks
            obtain ⟨u, m', ho, hresume⟩ := hok.inv.served.exists_awake hord Mtx.rank_le hw
            exact howner u m' ho hresume
  by_cases hst : c.st.started .serial = true
  · exact hgoes .serial hst hserial
  · -- `main` has still to create the serial thread.
    refine hgoes .main hok.inv.main fun hmain => hst ?_
    have hsat := hok.sat .main
    rw [hmain] at hsat
    have hstarted : c.st.started = fun _ => true := Option.some.inj hsat
    rw [hstarted]

/-- There are three threads. -/
instance : Finite Tid := by
  refine Finite.of_surjective (fun n : Fin 3 => [Tid.main, .serial, .mpu].get n) fun t => ?_
  cases t with
  | main => exact ⟨0, rfl⟩
  | serial => exact ⟨1, rfl⟩
  | mpu => exact ⟨2, rfl⟩

/-- The serial thread can be brought to its end from every state of every run. -/
theorem commands_finish (hres : ∀ t n, (results t n).msg = .MSG_OK)
    (h : Reaches (machine F) commandLoop (bootCommands results regs pastStrbuf strs) c) :
    ∃ c', Reaches (machine F) commandLoop c c' ∧ c'.code .serial = .ret () :=
  h.finish fun _ hc hserial => commands_active hres hc hserial

end

end MotionTracking
