import MotionTracking.Proofs.LockCalls

/-!
# `MotionTracking.Proofs.LockDiscipline`: what each function leaves locked

A call of a function of the firmware should leave its thread with the mutexes it
had, and every `chMtxUnlock` on the way should unlock the mutex taken last.
`lock_discipline_iff` says exactly when that is so, for a call from any state
and for every sequence of I2C results, with the other threads acting in between
(`Interference`): a range transfer that fails is the one thing that breaks it.
`mpu_acc_range` then returns without its `chMtxUnlock`, and so do the calls that
reach it. `mpu_init` also initialises `mpu.c`'s mutex, so it must not be called
by the owner. What follows for whole runs is `rests_without_qmtx`.

`mpuInit_leaves_qmtx` is such a run, at the place where `main` calls `mpu_init`.
-/

set_option autoImplicit false

namespace MotionTracking

open ChibiOS (Kernel)
open Threads (Exec runAlone)
open Threads.Outline (Sat)

variable {F : Type}

/-- The calls and loop rounds in question. `x`, `y` and `z` are the stores
through the getters' out-parameters. -/
inductive Call (F : Type) where
  | mpuInit
  | mpuAccRange (range : AccelRange)
  | serialSetControl (set : Bool)
  | serialReadAccaxisDeg (x y : F → SerC F → SerC F)
  | serialReadAccaxisD (x y : F → SerC F → SerC F)
  | serialReadAccaxisG (x y z : F → SerC F → SerC F)
  | commadCheck (str : List UInt8)
  | mpumThread
  | serialcommThread

/-- The code of the call. -/
def Call.prog [CFloat F] : Call F → Prog F Unit
  | .mpuInit => MotionTracking.mpuInit
  | .mpuAccRange range => do let _ ← MotionTracking.mpuAccRange range
  | .serialSetControl set => MotionTracking.serialSetControl set
  | .serialReadAccaxisDeg x y => MotionTracking.serialReadAccaxisDeg x y
  | .serialReadAccaxisD x y => MotionTracking.serialReadAccaxisD x y
  | .serialReadAccaxisG x y z => MotionTracking.serialReadAccaxisG x y z
  | .commadCheck str => MotionTracking.commadCheck str
  | .mpumThread => MotionTracking.mpumThread
  | .serialcommThread => MotionTracking.serialcommThread

/-- What the other threads and the hardware may do between two actions of `t`:
anything that keeps the mutex queues in order and leaves `t` its own mutexes, its
own results and log, and the driver while `t` holds the bus. -/
structure Interference (t : Tid) (s s' : Sys F) : Prop where
  wf : s.kern.Wf → s'.kern.Wf
  kern : s'.kern.view t = s.kern.view t
  results : s'.results t = s.results t
  log : s'.log t = s.log t
  driver : s.kern.Holds t .i2c → s'.i2c = s.i2c

/-- Thread `t` owns the same mutexes, with the same stack. -/
structure Balanced (t : Tid) (s s' : Sys F) : Prop where
  stack : s'.kern.mtxlist t = s.kern.mtxlist t
  owner : ∀ m, s'.kern.owner m = some t ↔ s.kern.owner m = some t

/-- Every mutex `t` unlocked between the two states was the one on top of its
stack. -/
def Nested (t : Tid) (s s' : Sys F) : Prop :=
  Obs.misordered (s'.log t) = Obs.misordered (s.log t)

/-- The text is one of the four range commands. -/
def IsRangeCommand (str : List UInt8) : Prop := ∃ r, commandOf str = some (.range r)

/-- No range transfer of the call fails, and `mpu_init` is not called by the owner
of the mutex it initialises. For a round of the serial thread `str` is the string
that `commad_check` gets in it, if it gets one. -/
def Call.RangeOk (t : Tid) (s s' : Sys F) : Call F → Prop
  | .mpuInit => s.kern.owner .mpu ≠ some t ∧ (s.results t 3).msg = .MSG_OK
  | .mpuAccRange _ => (s.results t 0).msg = .MSG_OK
  | .commadCheck str => IsRangeCommand str → (s.results t 0).msg = .MSG_OK
  | .serialcommThread => ∀ str, Obs.handled (s'.log t) = str :: Obs.handled (s.log t) →
      IsRangeCommand str → (s.results t 0).msg = .MSG_OK
  | _ => True

/-- The rules ask for nothing that the machine has not. -/
instance : Runs (machine F) ⟨False, False⟩ where
  exec h := h
  started := False.elim

/-! ### From views to states -/

/-- Interference is invisible to the thread. -/
theorem Interference.lockView_eq {t : Tid} {s s' : Sys F} (h : Interference t s s') :
    lockView t s' = lockView t s := by
  have hholds : s'.kern.Holds t .i2c ↔ s.kern.Holds t .i2c := by
    rw [← Kernel.view_held_isSome, h.kern, Kernel.view_held_isSome]
  ext1
  · exact h.kern
  · exact h.results
  · by_cases hi : s.kern.Holds t .i2c
    · simp [lockView, hholds, hi, h.driver hi]
    · simp [lockView, hholds, hi]
  · simp [lockView, h.log]
  · simp [lockView, h.log]

/-- `Balanced` and `Nested`, on views. -/
structure Kept (v w : LockView) : Prop where
  stack : w.kern.stack = v.kern.stack
  held : ∀ m, w.kern.held m = none ↔ v.kern.held m = none
  misordered : w.misordered = v.misordered

/-- A running thread sees its own stack. -/
theorem lockView_stack {t : Tid} {s : Sys F} (hs : s.kern.wtmtx t = none) :
    (lockView t s).kern.stack = s.kern.mtxlist t := by
  simp [lockView, Kernel.view, hs]

/-- What a running thread does not hold it does not own. -/
theorem lockView_held_eq_none {t : Tid} {s : Sys F} (hs : s.kern.wtmtx t = none) {m : Mtx} :
    (lockView t s).kern.held m = none ↔ s.kern.owner m ≠ some t := by
  rw [← not_iff_not, ← ne_eq, lockView_holds, Kernel.Holds, hs]
  simp

/-- Between two states in which the thread runs, the properties are those of its views. -/
theorem kept_iff {t : Tid} {s s' : Sys F} (hs : s.kern.wtmtx t = none)
    (hs' : s'.kern.wtmtx t = none) :
    Balanced t s s' ∧ Nested t s s' ↔ Kept (lockView t s) (lockView t s') := by
  constructor
  · rintro ⟨⟨hstack, howner⟩, hnested⟩
    refine ⟨?_, fun m => ?_, hnested⟩
    · rw [lockView_stack hs, lockView_stack hs', hstack]
    · rw [lockView_held_eq_none hs, lockView_held_eq_none hs', ne_eq, ne_eq, howner]
  · rintro ⟨hstack, hheld, hmis⟩
    refine ⟨⟨?_, fun m => ?_⟩, hmis⟩
    · rwa [lockView_stack hs, lockView_stack hs'] at hstack
    · have h := hheld m
      rwa [lockView_held_eq_none hs, lockView_held_eq_none hs', not_iff_not] at h

/-- Using up results keeps the view. -/
theorem Kept.refl_drop (n : Nat) (v : LockView) : Kept v (v.drop n) :=
  ⟨rfl, fun _ => Iff.rfl, rfl⟩

/-- A view in which `mpu.c`'s mutex is taken and was not before. -/
theorem not_kept_of_held {v w : LockView} (hw : w.kern.held .mpu ≠ none)
    (hv : v.kern.held .mpu = none) : ¬Kept v w :=
  fun h => hw ((h.held .mpu).mpr hv)

/-- Of the three ways a command can end, the leak alone keeps less than it found. -/
theorem kept_afterCommand {str : List UInt8} {v w : LockView} (hv : v.Running)
    (h : AfterCommand str v w) :
    w.Running ∧ w.handled = str :: v.handled ∧
      (Kept v w ↔ (IsRangeCommand str → (v.results 0).msg = .MSG_OK)) := by
  cases h with
  | other hstr =>
      have hno : ¬IsRangeCommand str := fun ⟨r, hr⟩ => hstr r hr
      exact ⟨hv, rfl, iff_of_true ⟨rfl, fun _ => Iff.rfl, rfl⟩ fun h => absurd h hno⟩
  | rangeOk r hstr hres =>
      exact ⟨hv, rfl, iff_of_true ⟨rfl, fun _ => Iff.rfl, rfl⟩ fun _ => hres⟩
  | rangeErr r hstr hres hser hmpu =>
      refine ⟨rfl, rfl, iff_of_false (not_kept_of_held ?_ hmpu) fun h => hres (h ⟨r, hstr⟩)⟩
      rw [LockView.leak_held_mpu]
      exact Option.some_ne_none _

/-! ### Every call -/

/-- The condition under which a call keeps the view. -/
def Call.RangeOkView (v w : LockView) : Call F → Prop
  | .mpuInit => v.kern.held .mpu = none ∧ (v.results 3).msg = .MSG_OK
  | .mpuAccRange _ => (v.results 0).msg = .MSG_OK
  | .commadCheck str => IsRangeCommand str → (v.results 0).msg = .MSG_OK
  | .serialcommThread => ∀ str, w.handled = str :: v.handled →
      IsRangeCommand str → (v.results 0).msg = .MSG_OK
  | _ => True

/-- Each call keeps the view exactly when no range transfer fails, by cases on the call.
-/
theorem Call.locks [CFloat F] (c : Call F) {t : Tid} {v : LockView} (hv : v.Running) :
    Locks (machine F) t ⟨False, False⟩ c.prog (fun _ w => w.Running ∧
      (Kept v w ↔ c.RangeOkView v w)) v := by
  cases c with
  | mpuInit =>
      refine locks_mpuInit hv False.elim (fun hres => ?_) fun hres => ?_
      · refine ⟨hv, ⟨fun h => ⟨?_, hres⟩, fun h => ⟨rfl, fun m => ?_, rfl⟩⟩⟩
        · exact (h.held .mpu).mp (v.held_forget .mpu)
        · rw [show ((v.forget .mpu).drop 5).kern.held = v.kern.held from
            Function.update_eq_self_iff.mpr h.1.symm]
      · refine ⟨rfl, iff_of_false (fun h => ?_) fun h => hres h.2⟩
        exact List.cons_ne_self _ _ h.stack
  | mpuAccRange range =>
      refine Threads.Outline.Sat.bind (locks_mpuAccRange hv False.elim (fun hres => ?_)
        fun hres hmpu => ?_)
      · exact ⟨hv, iff_of_true (.refl_drop 1 v) hres⟩
      · refine ⟨rfl, iff_of_false (not_kept_of_held ?_ hmpu) hres⟩
        rw [LockView.held_lock]
        exact Option.some_ne_none _
  | serialSetControl set =>
      exact locks_serialSetControl hv False.elim ⟨hv, iff_of_true (.refl_drop 0 v) trivial⟩
  | serialReadAccaxisDeg x y =>
      exact locks_serialReadAccaxisDeg hv False.elim ⟨hv, iff_of_true (.refl_drop 0 v) trivial⟩
  | serialReadAccaxisD x y =>
      exact locks_serialReadAccaxisD hv False.elim ⟨hv, iff_of_true (.refl_drop 0 v) trivial⟩
  | serialReadAccaxisG x y z =>
      exact locks_serialReadAccaxisG hv ⟨hv, iff_of_true (.refl_drop 0 v) trivial⟩
  | commadCheck str =>
      refine locks_commadCheck hv False.elim fun w hw => ?_
      obtain ⟨hrun, -, hkept⟩ := kept_afterCommand hv hw
      exact ⟨hrun, hkept⟩
  | mpumThread =>
      exact locks_mpumThread hv False.elim fun n => ⟨hv, iff_of_true (.refl_drop n v) trivial⟩
  | serialcommThread =>
      refine locks_serialcommThread hv False.elim False.elim ?_ fun str w hw => ?_
      · refine ⟨hv, iff_of_true (.refl_drop 0 v) fun str hstr => ?_⟩
        exact absurd hstr.symm (List.cons_ne_self _ _)
      · obtain ⟨hrun, hhandled, hkept⟩ := kept_afterCommand hv hw
        refine ⟨hrun, hkept.trans ⟨fun h str' hstr' => ?_, fun h => h str hhandled⟩⟩
        rw [hhandled] at hstr'
        obtain rfl := (List.cons.inj hstr').1
        exact h

/-- A call leaves its thread with the mutexes it had, and unlocks only what it
took last, exactly when none of its range transfers fails. -/
theorem lock_discipline_iff [CFloat F] {t : Tid} (c : Call F) {s s' : Sys F} (hwf : s.kern.Wf)
    (hrun : s.kern.wtmtx t = none)
    (he : Exec (machine F) t (Interference t) c.prog s () s') :
    Balanced t s s' ∧ Nested t s s' ↔ c.RangeOk t s s' := by
  have hrely : ∀ s s' : Sys F, LockInv ⟨False, False⟩ s → Interference t s s' →
      LockInv ⟨False, False⟩ s' ∧ lockView t s' = lockView t s :=
    fun s s' hs h => ⟨⟨h.wf hs.wf, False.elim⟩, h.lockView_eq⟩
  obtain ⟨-, hrun', hkept⟩ := Sat.exec (c.locks (lockView_running.mpr hrun))
    ⟨hwf, False.elim⟩ hrely he.focus
  refine (kept_iff hrun (lockView_running.mp hrun')).trans (hkept.trans ?_)
  cases c with
  | mpuInit => exact and_congr_left' (lockView_held_eq_none hrun)
  | _ => exact Iff.rfl

/-! ### The failing call -/

/-- The state in which `main` calls `mpu_init`. -/
def atMpuInit [CFloat F] (results : Tid → Nat → I2CResult) : Sys F :=
  let s := boot results (fun _ => 0) []
  { s with
    kern := s.kern.chMtxObjectInit Mtx.mtprint
    i2c := { s.i2c with state := .I2C_READY }
    sd2 := { s.sd2 with started := true } }

/-- In that state no mutex is taken. -/
theorem atMpuInit_wf [CFloat F] (results : Tid → Nat → I2CResult) :
    (atMpuInit results : Sys F).kern.Wf := by
  refine Kernel.Wf.chMtxObjectInit ⟨?_, ?_, ?_⟩ Mtx.mtprint <;> simp [boot]

/-- Every transfer succeeds but the `n`-th. -/
def failsAt (n : Nat) : Tid → Nat → I2CResult :=
  fun _ k => ⟨if k = n then .MSG_RESET else .MSG_OK, []⟩

/-- `main` can leave `mpu_init` as the owner of `mpu.c`'s mutex, which was free. -/
theorem mpuInit_leaves_qmtx :
    ¬∀ (t : Tid) (c : Call Float32) (s s' : Sys Float32), s.kern.Wf → s.kern.wtmtx t = none →
      Exec (machine Float32) t (Interference t) c.prog s () s' →
      Balanced t s s' ∧ Nested t s s' := by
  intro h
  obtain ⟨s', he, howner⟩ := Exec.of_runAlone_any (M := machine Float32) (t := .main)
    (p := Call.prog .mpuInit) (s := atMpuInit (failsAt 3))
    (f := fun s' => s'.kern.owner .mpu = some .main) (by decide)
  have hbal := (h .main .mpuInit _ s' (atMpuInit_wf _) rfl he).1
  have hfree := (hbal.owner .mpu).mp (of_decide_eq_true howner)
  exact absurd hfree (by decide)

/-- On a healthy board `mpu_init` gives the mutex back. -/
theorem lock_discipline_iff_mpuInit :
    ∃ s' : Sys Float32, Exec (machine Float32) .main (Interference .main)
      (Call.prog .mpuInit) (atMpuInit (failsAt 5)) () s' ∧
      Balanced .main (atMpuInit (failsAt 5)) s' ∧ Nested .main (atMpuInit (failsAt 5)) s' := by
  obtain ⟨s', he, -⟩ := Exec.of_runAlone_any (M := machine Float32) (t := .main)
    (p := Call.prog .mpuInit) (s := atMpuInit (failsAt 5)) (f := fun _ => true) (by decide)
  exact ⟨s', he, (lock_discipline_iff .mpuInit (atMpuInit_wf _) rfl he).mpr ⟨by decide, by decide⟩⟩

end MotionTracking
