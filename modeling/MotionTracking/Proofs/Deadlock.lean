import MotionTracking.ChibiOS.Deadlock
import MotionTracking.Proofs.Discipline

/-!
# `MotionTracking.Proofs.Deadlock`: the firmware does not deadlock

With a driver whose transfers succeed, every function takes its mutexes in the
order `serialcomm.c`, `mpu.c`, the bus, `mtprint.c` (`Mtx.rank`), and gives them
back. `no_deadlock` concludes that no reachable state has a cycle of waiting
threads. It also says that every mutex is initialised before it is locked and
free whenever it is initialised.
-/

set_option autoImplicit false

namespace MotionTracking

open ChibiOS (Kernel)
open Threads (Reaches Config Move)

variable {F : Type}

/-- A thread whose next action is no return from `chMtxLock` is not asleep. -/
theorem Disciplined.awake {t : Tid} {s : Sys F} {a : Act F} (h : Disciplined t s a)
    (ha : a ≠ .mtxResume) : s.kern.wtmtx t = none := by
  cases a with
  | mtxResume => exact absurd rfl ha
  | mtxUnlock m => exact h.1
  | i2cBegin => exact h.1
  | i2cTransfer addr txbytes rxbytes => exact h.1
  | i2cEnd => exact h.1
  | _ => exact h

/-- What a queued thread can see. -/
theorem view_run_of_queued {t : Tid} {m : Mtx} {k : Kernel Tid Mtx} (hwf : k.Wf)
    (ht : t ∈ k.queue m) :
    (k.owner m = some t ∧ (k.view t).run = .stuck m) ∨
    (k.owner m ≠ some t ∧ (k.view t).run = .waits m) := by
  have hw := hwf.queued m t ht
  by_cases ho : k.owner m = some t
  · exact .inl ⟨ho, by simp [Kernel.view, hw, ho, ht]⟩
  · exact .inr ⟨ho, by simp [Kernel.view, hw, ho]⟩

/-- On the ordered outline, a queued thread owns only mutexes of smaller rank. -/
theorem ordered_of_ok {d : Demands} (hd : d.ordered) {c : Config (sig F) Tid (Sys F)}
    (h : (disciplined F d).Ok (AtLoop d) c) : c.st.kern.Ordered Mtx.rank := by
  intro t m ht m' ho
  have hwf := h.inv.wf
  have hw := hwf.queued m t ht
  -- The thread is at the return from `chMtxLock`: anywhere else it is awake.
  have hcode : InOrder (c.st.kern.view t) (.mtxResume : Act F) := by
    cases hc : c.code t with
    | ret x =>
        have hsat := h.sat t
        rw [hc] at hsat
        have hrun := lockView_running.mp hsat.1
        rw [hw] at hrun
        cases hrun
    | act a k =>
        have hsafe := h.safe hc
        by_cases ha : a = .mtxResume
        · subst ha
          exact hsafe.2.1 hd
        · have hrun := hsafe.1.awake ha
          rw [hw] at hrun
          cases hrun
  rcases view_run_of_queued hwf ht with ⟨-, hrun⟩ | ⟨hno, hrun⟩
  · rw [InOrder, hrun] at hcode
    exact hcode.elim
  · rw [InOrder, hrun] at hcode
    have hm : m ≠ m' := by
      rintro rfl
      exact hno ho
    refine hcode m' (lockView_holds.mpr ⟨ho, ?_⟩)
    rw [hw]
    simpa using hm

/-- When transfers succeed, in every reachable state: a mutex about to be locked
is initialised, a mutex about to be initialised is free, and no threads wait for
each other in a cycle. -/
theorem no_deadlock [CFloat F] {results : Tid → Nat → I2CResult} {regs : UInt8 → UInt8}
    {pastStrbuf : List UInt8} (hres : ∀ t n, (results t n).msg = .MSG_OK)
    {c : Config (sig F) Tid (Sys F)}
    (h : Reaches (machine F) loop (bootConfig results regs pastStrbuf) c) :
    (∀ t, c.st.started t = true → ∀ m k, c.code t = .act (.mtxLock m) k →
      c.st.kern.inited m = true) ∧
    (∀ t, c.st.started t = true → ∀ m k, c.code t = .act (.mtxInit m) k →
      c.st.kern.owner m = none) ∧
    ∀ t, ¬Relation.TransGen c.st.kern.WaitsFor t t := by
  refine ⟨fun t hst m k hc => ?_, fun t hst m k hc => ?_, fun t => ?_⟩
  · have hready : Ready m c.st = true := initOk_of_reaches h hc hst
    exact (Bool.and_eq_true_iff.mp hready).1
  · exact (Kernel.not_used.mp (initOk_of_reaches h hc hst)).1
  · have hok := disciplined_of_reaches ⟨True, False⟩ (fun _ => ⟨hres .main 3, hres .serial⟩) h
    exact (ordered_of_ok trivial hok).no_cycle hok.inv.wf t

/-- `main` sets the board up, the MPU thread waits for the sensor in the middle of an update,
and the serial thread goes for `mpu.c`'s mutex with its own one locked. -/
def contendedSchedule : List (Move Tid EnvMove) :=
  List.replicate 85 (.run .main) ++ List.replicate 2 (.run .serial) ++
    List.replicate 11 (.run .mpu) ++ SER_R02.map (fun b => .env (.rx b)) ++
    List.replicate 15 (.run .serial)

/-- A healthy board can come to a state in which three mutexes are owned and one thread waits
for the other. There is no cycle in it. -/
theorem no_deadlock_contended :
    ∃ c : Config (sig Float32) Tid (Sys Float32),
      Reaches (machine Float32) loop (bootConfig (fun _ _ => ⟨.MSG_OK, []⟩) (fun _ => 0) []) c ∧
      c.st.kern.owner .serialcomm = some .serial ∧ c.st.kern.owner .i2c = some .mpu ∧
      c.st.kern.WaitsFor .serial .mpu ∧ ∀ t, ¬Relation.TransGen c.st.kern.WaitsFor t t := by
  have hrun : (Threads.run (machine Float32) loop contendedSchedule
      (bootConfig (fun _ _ => ⟨.MSG_OK, []⟩) (fun _ => 0) [])).any (fun c =>
        c.st.kern.owner .serialcomm = some .serial && c.st.kern.owner .i2c = some .mpu &&
          c.st.kern.queue .mpu = [.serial] && c.st.kern.owner .mpu = some .mpu) = true := by
    decide
  obtain ⟨c, hc, hf⟩ := Reaches.of_run_any hrun
  simp only [Bool.and_eq_true, decide_eq_true_eq] at hf
  obtain ⟨⟨⟨hserialcomm, hi2c⟩, hqueue⟩, howner⟩ := hf
  have hwaits : c.st.kern.WaitsFor .serial .mpu := by
    refine ⟨.mpu, ?_, howner⟩
    rw [hqueue]
    exact List.mem_singleton_self _
  exact ⟨c, hc, hserialcomm, hi2c, hwaits, (no_deadlock (fun _ _ => rfl) hc).2.2⟩

end MotionTracking
