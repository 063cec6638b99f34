import MotionTracking.Firmware.Command
import MotionTracking.Proofs.LockView

/-!
# `MotionTracking.Proofs.LockCalls`: the functions of the firmware as lock users

One rule per function for the outline `locking`: what the function leaves of the
`LockView` it starts from. Every function leaves it as it was, less the results
of its transfers, with one exception. `mpu_acc_range` returns with `mpu.c`'s
mutex taken when its transfer fails (`locks_mpuAccRange`), and its caller
`commad_check` then unlocks a mutex that is not on top of the stack
(`locks_rangeCommand`).
-/

set_option autoImplicit false

namespace MotionTracking

open ChibiOS (Kernel)
open Threads (Machine Outline)
open Threads.Prog (perform)

variable {F α β : Type} {M : Machine (sig F) Tid (Sys F) EnvMove} {t : Tid} {d : Demands}
  [Runs M d] {v : LockView}

/-! ### Helpers -/

/-- Notes are quiet, but for those of `commad_check`. -/
theorem quiet_note {f : Fn} (hf : ∀ str, f ≠ .commadCheck str) :
    Quiet (F := F) (.note fun _ => .began f) := by
  intro c l
  cases f with
  | commadCheck str => exact absurd rfl (hf str)
  | _ => exact ⟨rfl, rfl⟩

/-- Of the recorded calls only those of `commad_check` show in the view. -/
theorem locks_call {f : Fn} {p : Prog F α} {Q : α → LockView → Prop}
    (hf : ∀ str, f ≠ .commadCheck str) (hv : v.Running)
    (h : Locks M t d p (fun x w => w.Running ∧ Q x w) v) :
    Locks M t d (call f p) Q v := by
  refine locks_bind (locks_quiet (Threads.Prog.all_perform (quiet_note hf)) hv fun _ => ?_)
  refine locks_bind (h.mono fun x w hw => ?_)
  exact locks_bind (locks_quiet (Threads.Prog.all_perform fun _ _ => ⟨rfl, rfl⟩) hw.1
    fun _ => hw.2)

/-! ### `mtprint.c` -/

/-- A string is printed under `mtprint.c`'s mutex, which is given back. -/
theorem locks_serialPrint {o : Out F} {Q : Unit → LockView → Prop} (hv : v.Running)
    (hord : d.ordered → Below .mtprint v.kern) (hQ : Q () v) :
    Locks M t d (serialPrint o) Q v := by
  refine locks_bind (locks_enter (by decide) hv hord fun hheld => ?_)
  refine locks_bind (locks_quiet (by simp [sdWrite, perform, Quiet]) (v.running_lock _) fun _ => ?_)
  exact locks_leave (by decide) hv hheld hQ

/-- Reading is quiet, by induction on the rounds. -/
theorem quiet_iqReadRounds (timeout rounds off n : Nat) :
    (iqReadRounds (F := F) timeout rounds off n).All Quiet := by
  induction rounds generalizing off n with
  | zero => exact Threads.Prog.all_pure off
  | succ rounds ih =>
      unfold iqReadRounds
      refine .ite (Threads.Prog.all_pure _) ⟨trivial, fun done =>
        .ite ⟨trivial, fun d => ?_⟩ (ih _ _)⟩
      cases d with
      | none => exact Threads.Prog.all_pure off
      | some done => exact ih _ _

/-- A read takes `mtprint.c`'s mutex and gives it back, whatever it returns. -/
theorem locks_serialRead {Q : Nat → LockView → Prop} (hv : v.Running)
    (hord : d.ordered → Below .mtprint v.kern) (hQ : ∀ n, Q n v) :
    Locks M t d (serialRead (F := F)) Q v := by
  refine locks_call (by simp) hv ?_
  refine locks_bind (locks_enter (by decide) hv hord fun hheld => ?_)
  refine locks_bind (locks_quiet (quiet_iqReadRounds _ _ _ _) (v.running_lock _) fun n => ?_)
  exact locks_bind (locks_leave (by decide) hv hheld ⟨hv, hQ n⟩)

/-! ### `mpu.c` -/

/-- An assignment takes no mutex. -/
theorem locks_setTxbuf {i : Fin 5} {b : UInt8} {Q : Unit → LockView → Prop} (hv : v.Running)
    (hQ : Q () v) : Locks M t d (setTxbuf (F := F) i b) Q v :=
  locks_quiet (by simp [setTxbuf, setMpu, perform, Quiet]) hv fun _ => hQ

/-- The reset uses up one result. -/
theorem locks_mpuReset {Q : Unit → LockView → Prop} (hv : v.Running)
    (hord : d.ordered → Below .i2c v.kern) (hQ : Q () (v.drop 1)) :
    Locks M t d (mpuReset (F := F)) Q v := by
  refine locks_bind (locks_setTxbuf hv ?_)
  refine locks_bind (locks_setTxbuf hv ?_)
  exact locks_bind (locks_i2c1Transmit hv hord hQ)

/-- The request for the identity uses up one result. -/
theorem locks_mpuWhoAmI {Q : Unit → LockView → Prop} (hv : v.Running)
    (hord : d.ordered → Below .i2c v.kern) (hQ : Q () (v.drop 1)) :
    Locks M t d (mpuWhoAmI (F := F)) Q v := by
  refine locks_bind (locks_setTxbuf hv ?_)
  refine locks_bind (locks_i2c1Transmit hv hord ?_)
  split
  · exact locks_quiet (by simp [getMpu, chprintf, perform, Quiet]) hv fun _ => hQ
  · exact locks_serialPrint hv (fun ho => (hord ho).mono (by decide)) hQ

/-- Two transfers, one when the first fails. -/
theorem locks_mpuReadAccAxis {axis : AccAxis} {store : UInt16 → MpuC F → MpuC F}
    {Q : Msg → LockView → Prop} (hv : v.Running) (hord : d.ordered → Below .i2c v.kern)
    (hQ : ∀ res n, Q res (v.drop n)) :
    Locks M t d (mpuReadAccAxis axis store) Q v := by
  refine locks_call (by simp) hv ?_
  refine locks_bind (locks_setTxbuf hv ?_)
  refine locks_bind (locks_i2c1Transmit hv hord ?_)
  split
  · exact locks_pure ⟨hv, hQ _ 1⟩
  · refine locks_bind (locks_quiet (by simp [getMpu, perform, Quiet]) hv fun _ => ?_)
    refine locks_bind (locks_quiet (by simp [setMpu, perform, Quiet]) hv fun _ => ?_)
    refine locks_bind (locks_i2c1Transmit hv hord ?_)
    rw [LockView.drop_drop]
    split
    · exact locks_pure ⟨hv, hQ _ _⟩
    · exact locks_quiet (by simp [getMpu, setMpu, perform, Quiet]) hv fun _ => ⟨hv, hQ _ _⟩

/-- An update uses up some results and takes no mutex but that of the bus. -/
theorem locks_mpuAccUpdate [CFloat F] {Q : Bool → LockView → Prop} (hv : v.Running)
    (hord : d.ordered → Below .i2c v.kern) (hQ : ∀ b n, Q b (v.drop n)) :
    Locks M t d (mpuAccUpdate (F := F)) Q v := by
  refine locks_call (by simp) hv ?_
  refine locks_bind (locks_mpuReadAccAxis hv hord fun res₀ n₀ => ?_)
  refine locks_bind (locks_mpuReadAccAxis hv hord fun res₁ n₁ => ?_)
  refine locks_bind (locks_mpuReadAccAxis hv hord fun res₂ n₂ => ?_)
  rw [LockView.drop_drop, LockView.drop_drop]
  split
  · exact locks_pure ⟨hv, hQ _ _⟩
  · refine locks_quiet ?_ hv fun _ => ⟨hv, hQ _ _⟩
    simp [getMpu, setMpu, note, perform, Quiet, Obs.handled, Obs.misordered]

/-- `mpu_acc_range` gives `mpu.c`'s mutex back exactly when its transfer ends
with `MSG_OK`. -/
theorem locks_mpuAccRange [CFloat F] {range : AccelRange} {Q : Bool → LockView → Prop}
    (hv : v.Running) (hord : d.ordered → Below .mpu v.kern)
    (hok : (v.results 0).msg = .MSG_OK → Q true (v.drop 1))
    (herr : (v.results 0).msg ≠ .MSG_OK → v.kern.held .mpu = none →
      Q false ((v.drop 1).lock .mpu)) :
    Locks M t d (mpuAccRange (F := F) range) Q v := by
  refine locks_call (by simp) hv ?_
  refine locks_bind (locks_setTxbuf hv ?_)
  refine locks_bind (locks_setTxbuf hv ?_)
  refine locks_bind (locks_enter (by decide) hv hord fun hheld => ?_)
  have hlock := v.running_lock .mpu
  refine locks_bind (locks_quiet (by simp [setMpu, perform, Quiet]) hlock fun _ => ?_)
  refine locks_bind (locks_i2c1Transmit hlock (fun ho => (hord ho).lock (by decide)) ?_)
  show Locks M t d (if (v.results 0).msg ≠ .MSG_OK then _ else _) _ _
  by_cases hres : (v.results 0).msg = .MSG_OK
  · rw [if_neg (not_not.mpr hres)]
    exact locks_bind (locks_leave (v := v.drop 1) (by decide) hv hheld ⟨hv, hok hres⟩)
  · rw [if_pos hres]
    exact locks_pure ⟨LockView.running_lock .mpu _, herr hres hheld⟩

/-- An iteration of the MPU thread gives back what it takes. -/
theorem locks_mpumThread [CFloat F] {Q : Unit → LockView → Prop} (hv : v.Running)
    (hfree : d.ordered → ∀ m, v.kern.held m = none) (hQ : ∀ n, Q () (v.drop n)) :
    Locks M t d (mpumThread (F := F)) Q v := by
  have hord : d.ordered → Below .mpu v.kern := fun ho => .of_free (hfree ho) .mpu
  refine locks_bind (locks_enter (by decide) hv hord fun hheld => ?_)
  have hlock := v.running_lock .mpu
  have hend : ∀ n, Locks (F := F) M t d (do chMtxUnlock .mpu; chThdSleepMilliseconds 500) Q
      ((v.lock .mpu).drop n) := fun n =>
    locks_bind (locks_leave (v := v.drop n) (by decide) hv hheld
      (locks_chThdSleepMilliseconds hv hfree (hQ n)))
  refine locks_bind (locks_quiet (by simp [getMpu, perform, Quiet]) hlock fun c => ?_)
  split
  · exact locks_bind (locks_mpuAccUpdate hlock (fun ho => (hord ho).lock (by decide))
      fun _ n => hend n)
  · exact hend 0

/-- `serial_set_control` gives back what it takes. -/
theorem locks_serialSetControl {set : Bool} {Q : Unit → LockView → Prop} (hv : v.Running)
    (hord : d.ordered → Below .mpu v.kern) (hQ : Q () v) :
    Locks M t d (serialSetControl (F := F) set) Q v := by
  refine locks_bind (locks_enter (by decide) hv hord fun hheld => ?_)
  have hleave := locks_leave (F := F) (M := M) (t := t) (d := d) (Q := Q) (by decide) hv hheld hQ
  cases set with
  | true =>
      exact locks_bind (locks_quiet (by simp [setMpu, perform, Quiet])
        (v.running_lock _) fun _ => hleave)
  | false =>
      exact locks_bind (locks_quiet (by simp [setMpu, perform, Quiet])
        (v.running_lock _) fun _ => hleave)

/-- The two getters that lock, for any stores. -/
theorem locks_getter {f : Fn} {x y : MpuC F → SerC F → SerC F} {Q : Unit → LockView → Prop}
    (hf : ∀ str, f ≠ .commadCheck str) (hv : v.Running) (hord : d.ordered → Below .mpu v.kern)
    (hQ : Q () v) :
    Locks M t d (call f do chMtxLock .mpu; setSer x; setSer y; chMtxUnlock .mpu) Q v := by
  refine locks_call hf hv ?_
  refine locks_bind (locks_enter (by decide) hv hord fun hheld => ?_)
  have hlock := v.running_lock .mpu
  refine locks_bind (locks_quiet (by simp [setSer, perform, Quiet]) hlock fun _ => ?_)
  refine locks_bind (locks_quiet (by simp [setSer, perform, Quiet]) hlock fun _ => ?_)
  exact locks_leave (by decide) hv hheld ⟨hv, hQ⟩

/-- The getter of the angles gives back what it takes. -/
theorem locks_serialReadAccaxisDeg {x y : F → SerC F → SerC F} {Q : Unit → LockView → Prop}
    (hv : v.Running) (hord : d.ordered → Below .mpu v.kern) (hQ : Q () v) :
    Locks M t d (serialReadAccaxisDeg x y) Q v :=
  locks_getter (by simp) hv hord hQ

/-- The getter for degrees gives back what it takes. -/
theorem locks_serialReadAccaxisD {x y : F → SerC F → SerC F} {Q : Unit → LockView → Prop}
    (hv : v.Running) (hord : d.ordered → Below .mpu v.kern) (hQ : Q () v) :
    Locks M t d (serialReadAccaxisD x y) Q v :=
  locks_getter (by simp) hv hord hQ

/-- The getter for g takes nothing. -/
theorem locks_serialReadAccaxisG {x y z : F → SerC F → SerC F} {Q : Unit → LockView → Prop}
    (hv : v.Running) (hQ : Q () v) : Locks M t d (serialReadAccaxisG x y z) Q v :=
  locks_call (by simp) hv (locks_quiet (by simp [setSer, perform, Quiet]) hv fun _ => ⟨hv, hQ⟩)

/-- One of two lines, whichever the condition picks, and what follows. -/
theorem locks_serialPrint_ite {c : Prop} [Decidable c] {a b : Out F} {f : Unit → Prog F α}
    {Q : α → LockView → Prop} (hv : v.Running) (hord : d.ordered → Below .mtprint v.kern)
    (h : Locks M t d (f ()) Q v) :
    Locks M t d (if c then serialPrint a >>= f else serialPrint b >>= f) Q v := by
  split
  · exact locks_bind (locks_serialPrint hv hord h)
  · exact locks_bind (locks_serialPrint hv hord h)

/-- `mpu_init` makes five transfers, the fourth in `mpu_acc_range`. -/
theorem locks_mpuInit [CFloat F] {Q : Unit → LockView → Prop} (hv : v.Running)
    (hord : d.ordered → Below .mpu v.kern)
    (hok : (v.results 3).msg = .MSG_OK → Q () ((v.forget .mpu).drop 5))
    (herr : (v.results 3).msg ≠ .MSG_OK → Q () (((v.forget .mpu).drop 5).lock .mpu)) :
    Locks M t d (mpuInit (F := F)) Q v := by
  refine locks_bind (locks_chMtxObjectInit (by decide) hv ?_)
  have hw : (v.forget .mpu).Running := hv
  have hmpu : d.ordered → Below .mpu (v.forget .mpu).kern := fun ho => (hord ho).forget .mpu
  have hi2c : d.ordered → Below .i2c (v.forget .mpu).kern := fun ho => (hmpu ho).mono (by decide)
  have hprint : d.ordered → Below .mtprint (v.forget .mpu).kern := fun ho =>
      (hmpu ho).mono (by decide)
  refine locks_bind (locks_mpuReset hw hi2c ?_)
  refine locks_bind (locks_setTxbuf hw ?_)
  refine locks_bind (locks_setTxbuf hw ?_)
  refine locks_bind (locks_i2c1Transmit hw hi2c ?_)
  refine locks_serialPrint_ite hw hprint ?_
  refine locks_bind (locks_setTxbuf hw ?_)
  refine locks_bind (locks_setTxbuf hw ?_)
  refine locks_bind (locks_i2c1Transmit hw hi2c ?_)
  refine locks_serialPrint_ite hw hprint ?_
  simp only [LockView.drop_drop]
  refine locks_bind (locks_mpuAccRange hw hmpu (fun hres => ?_) fun hres _ => ?_)
  · refine locks_serialPrint_ite hw hprint ?_
    exact locks_mpuWhoAmI hw hi2c (hok hres)
  · -- From here on `mpu.c`'s mutex stays taken.
    refine locks_serialPrint_ite rfl (fun ho => (hmpu ho).lock (by decide)) ?_
    exact locks_mpuWhoAmI rfl (fun ho => (hmpu ho).lock (by decide)) (herr hres)

/-! ### `serialcomm.c` -/

namespace LockView

/-- The view after one more string for `commad_check`. -/
def handle (str : List UInt8) (v : LockView) : LockView :=
  { v with handled := str :: v.handled }

/-- The view after a range command whose transfer has failed: `mpu.c`'s mutex is
still taken, and `serialcomm.c`'s was unlocked from below it. -/
def leak (v : LockView) : LockView :=
  ((v.lock .serialcomm).lock .mpu).unlock .serialcomm v.kern.stack

/-- After a leak `mpu.c`'s mutex is held, above that of `serialcomm.c`. -/
theorem leak_held_mpu (v : LockView) :
    v.leak.kern.held .mpu = some (.serialcomm :: v.kern.stack) := by
  simp [leak, lock, unlock, Kernel.View.lock, Kernel.View.unlock]

end LockView

/-- How `commad_check` of `str` can leave its thread. -/
inductive AfterCommand (str : List UInt8) (v : LockView) : LockView → Prop where
  | other (hstr : ∀ r, commandOf str ≠ some (.range r)) : AfterCommand str v (v.handle str)
  | rangeOk (r : AccelRange) (hstr : commandOf str = some (.range r))
      (hres : (v.results 0).msg = .MSG_OK) : AfterCommand str v ((v.handle str).drop 1)
  | rangeErr (r : AccelRange) (hstr : commandOf str = some (.range r))
      (hres : (v.results 0).msg ≠ .MSG_OK) (hserialcomm : v.kern.held .serialcomm = none)
      (hmpu : v.kern.held .mpu = none) : AfterCommand str v ((v.handle str).drop 1).leak

/-- A `commad_check` shows in the view. -/
theorem locks_call_commadCheck {str : List UInt8} {p : Prog F α} {Q : α → LockView → Prop}
    (hv : v.Running) (h : Locks M t d p (fun x w => w.Running ∧ Q x w) (v.handle str)) :
    Locks M t d (call (.commadCheck str) p) Q v := by
  refine locks_bind (locks_act (a := .note fun _ => .began (.commadCheck str)) fun s hs hsv => ?_)
  subst hsv
  refine ⟨lockView_running.mp hv, fun _ => trivial, by simp, fun r s' hrs _ => ?_⟩
  have hview : lockView t (s.observe t (.began (.commadCheck str))) =
      (lockView t s).handle str := by
    ext1
    · rfl
    · rfl
    · rfl
    · simp [lockView, LockView.handle, Sys.observe, Obs.handled]
    · simp [lockView, LockView.handle, Sys.observe, Obs.misordered]
  rw [Sys.exec_note hrs, hview]
  refine ⟨⟨hs.wf, hs.bus⟩, locks_bind (h.mono fun x w hw => ?_)⟩
  exact locks_bind (locks_quiet (Threads.Prog.all_perform fun _ _ => ⟨rfl, rfl⟩) hw.1
    fun _ => hw.2)

/-- One assignment in a critical section of `serialcomm.c`. -/
theorem locks_assign {f : MpuC F → SerC F → SerC F} {Q : Unit → LockView → Prop}
    (hv : v.Running) (hord : d.ordered → Below .serialcomm v.kern) (hQ : Q () v) :
    Locks M t d (do chMtxLock .serialcomm; setSer f; chMtxUnlock .serialcomm) Q v := by
  refine locks_bind (locks_enter (by decide) hv hord fun hheld => ?_)
  refine locks_bind (locks_quiet (by simp [setSer, perform, Quiet]) (v.running_lock _) fun _ => ?_)
  exact locks_leave (by decide) hv hheld hQ

/-- A range command whose transfer fails leaves `mpu.c`'s mutex taken. -/
theorem locks_rangeCommand [CFloat F] {r : AccelRange} {Q : Unit → LockView → Prop}
    (hv : v.Running) (hord : d.ordered → Below .serialcomm v.kern)
    (hok : (v.results 0).msg = .MSG_OK → Q () (v.drop 1))
    (herr : (v.results 0).msg ≠ .MSG_OK → v.kern.held .serialcomm = none →
      v.kern.held .mpu = none → Q () (v.drop 1).leak) :
    Locks M t d (Command.exec (F := F) (.range r)) Q v := by
  refine locks_bind (locks_enter (by decide) hv hord fun hheld => ?_)
  refine locks_bind (locks_mpuAccRange (v.running_lock _) (fun ho => (hord ho).lock (by decide))
    (fun hres => ?_) fun hres hmpu => ?_)
  · exact locks_leave (v := v.drop 1) (by decide) hv hheld (hok hres)
  · rw [LockView.held_lock_of_ne (by decide)] at hmpu
    refine locks_chMtxUnlock (LockView.running_lock _ _) (L := v.kern.stack) ?_
      (fun _ h => absurd h (by decide)) (herr hres hheld hmpu)
    simp [LockView.lock, LockView.drop, Kernel.View.lock]

/-- `commad_check` leaves its thread in one of the three ways, by cases on the command. -/
theorem locks_commadCheck [CFloat F] {str : List UInt8} {Q : Unit → LockView → Prop}
    (hv : v.Running) (hord : d.ordered → Below .serialcomm v.kern)
    (hQ : ∀ w, AfterCommand str v w → Q () w) :
    Locks M t d (commadCheck (F := F) str) Q v := by
  rw [commadCheck_eq]
  refine locks_call_commadCheck hv ?_
  have hw : (v.handle str).Running := hv
  have hmpu : d.ordered → Below .mpu v.kern := fun ho => (hord ho).mono (by decide)
  have hprint : d.ordered → Below .mtprint v.kern := fun ho => (hord ho).mono (by decide)
  cases hstr : commandOf str with
  | none =>
      have hdone := hQ _ (.other (v := v) fun r hr => by rw [hstr] at hr; cases hr)
      refine locks_bind (locks_serialPrint hw hprint ?_)
      refine locks_bind (locks_serialPrint hw hprint ?_)
      exact locks_serialPrint hw hprint ⟨hw, hdone⟩
  | some c =>
      cases c with
      | range r =>
          refine locks_rangeCommand hw hord (fun hres => ?_) fun hres hser hmpu => ?_
          · exact ⟨hw, hQ _ (.rangeOk r hstr hres)⟩
          · exact ⟨rfl, hQ _ (.rangeErr r hstr hres hser hmpu)⟩
      | start =>
          have hdone := hQ _ (.other (v := v) fun r hr => by rw [hstr] at hr; cases hr)
          refine locks_bind (locks_serialPrint hw hprint ?_)
          refine locks_bind (locks_serialSetControl hw hmpu ?_)
          exact locks_assign hw hord ⟨hw, hdone⟩
      | stop =>
          have hdone := hQ _ (.other (v := v) fun r hr => by rw [hstr] at hr; cases hr)
          refine locks_bind (locks_serialPrint hw hprint ?_)
          refine locks_bind (locks_serialSetControl hw hmpu ?_)
          exact locks_assign hw hord ⟨hw, hdone⟩
      | redg =>
          have hdone := hQ _ (.other (v := v) fun r hr => by rw [hstr] at hr; cases hr)
          exact locks_assign hw hord ⟨hw, hdone⟩
      | regs =>
          have hdone := hQ _ (.other (v := v) fun r hr => by rw [hstr] at hr; cases hr)
          exact locks_assign hw hord ⟨hw, hdone⟩

/-- A report gives back what its getter takes. -/
theorem locks_report {Q : Unit → LockView → Prop} (hv : v.Running)
    (hord : d.ordered → Below .mpu v.kern) (hQ : Q () v) :
    Locks M t d (report (F := F)) Q v := by
  refine locks_bind (locks_quiet (by simp [getSer, perform, Quiet]) hv fun c => ?_)
  split
  · refine locks_bind (locks_serialReadAccaxisD hv hord ?_)
    exact locks_quiet (by simp [getSer, setSer, chprintf, perform, Quiet]) hv fun _ => hQ
  · refine locks_bind (locks_serialReadAccaxisG hv ?_)
    exact locks_quiet (by simp [getSer, setSer, chprintf, perform, Quiet]) hv fun _ => hQ

/-- The output section gives back what it takes. -/
theorem locks_outputSection {Q : Unit → LockView → Prop} (hv : v.Running)
    (hord : d.ordered → Below .serialcomm v.kern) (hQ : Q () v) :
    Locks M t d (outputSection (F := F)) Q v := by
  refine locks_bind (locks_enter (by decide) hv hord fun hheld => ?_)
  have hlock := v.running_lock .serialcomm
  have hleave := locks_leave (F := F) (M := M) (t := t) (d := d) (Q := Q) (by decide) hv hheld hQ
  refine locks_bind (locks_quiet (by simp [getSer, perform, Quiet]) hlock fun c => ?_)
  split
  · exact locks_bind (locks_report hlock (fun ho => (hord ho).lock (by decide)) hleave)
  · exact hleave

/-- One round of the serial thread's loop handles no string or one. -/
theorem locks_serialcommThread [CFloat F] {Q : Unit → LockView → Prop} (hv : v.Running)
    (hfree : d.ordered → ∀ m, v.kern.held m = none)
    (hres : d.ordered → (v.results 0).msg = .MSG_OK)
    (hQ : Q () v) (hcmd : ∀ str w, AfterCommand str v w → Q () w) :
    Locks M t d (serialcommThread (F := F)) Q v := by
  -- What follows the command leaves the view alone.
  have hrest : ∀ w : LockView, w.Running → (d.ordered → ∀ m, w.kern.held m = none) → Q () w →
      Locks (F := F) M t d (do
        iqResetI
        outputSection
        setSer fun _ c => { c with rdCount := wrap32 (c.rdCount + 1) }
        chThdSleepMilliseconds 100) Q w := by
    intro w hw hwfree hQw
    refine locks_bind (locks_quiet (by simp [iqResetI, perform, Quiet]) hw fun _ => ?_)
    refine locks_bind (locks_outputSection hw (fun ho => .of_free (hwfree ho) _) ?_)
    refine locks_bind (locks_quiet (by simp [setSer, perform, Quiet]) hw fun _ => ?_)
    exact locks_chThdSleepMilliseconds hw hwfree hQw
  have hord : ∀ m, d.ordered → Below m v.kern := fun m ho => .of_free (hfree ho) m
  refine locks_bind (locks_serialRead hv (hord _) fun n => ?_)
  split
  · refine locks_bind (locks_quiet (by simp [getSer, perform, Quiet]) hv fun c => ?_)
    refine locks_bind (locks_commadCheck hv (hord _) fun w hw => ?_)
    have hQw := hcmd _ _ hw
    cases hw with
    | other hstr => exact hrest _ hv hfree hQw
    | rangeOk r hstr hok => exact hrest _ hv hfree hQw
    | rangeErr r hstr herr hser hmpu => exact hrest _ rfl (fun ho => absurd (hres ho) herr) hQw
  · exact hrest _ hv hfree hQ

end MotionTracking
