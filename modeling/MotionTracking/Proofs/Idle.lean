import MotionTracking.Firmware.Serialcomm
import MotionTracking.Threads.Sequential

/-!
# `MotionTracking.Proofs.Idle`: a stopped board that nobody talks to

When reporting is stopped, no byte arrives and no mutex is taken, the serial
thread's loop goes round and round: the read times out, the queue is flushed, and
`rd_count` is incremented. `idle_rounds` is the schedule of any number of such
iterations. `IdleAt` is the state between two of their statements.
-/

set_option autoImplicit false

namespace MotionTracking

open Threads (Reaches Config Exec Possible EnvStep)
open Threads.Prog (perform)

variable {F α : Type}

/-- A stopped board between two statements of the serial thread, with the mutex
`held` taken and the count `n`. -/
structure IdleAt (held : Option Mtx) (n : Int) (s : Sys F) : Prop where
  started : s.started .serial = true
  owner : ∀ m, s.kern.owner m = if held = some m then some .serial else none
  queue : ∀ m, s.kern.queue m = []
  awake : s.kern.wtmtx .serial = none
  iqueue : s.sd2.iqueue = []
  disabled : s.ser.readEnable = false
  count : s.ser.rdCount = n

/-- From a state with `P`, the serial thread can run the program to its end. -/
abbrev Idles (P : Sys F → Prop) (p : Prog F α) (Q : α → Sys F → Prop) : Prop :=
  Possible (machine F) .serial (EnvStep (machine F)) P p Q

section
variable {held : Option Mtx} {n : Int} {m : Mtx}

/-- One action. -/
theorem idles_act {a : Act F} {P : Sys F → Prop} {Q : a.Ans → Sys F → Prop}
    (h : ∀ s, P s → ∃ r s', s.exec .serial a = some (r, s') ∧ Q r s') :
    Idles P (perform (S := sig F) a) Q :=
  Possible.perform h

/-- A note changes the log, which an idle state says nothing about. -/
theorem idles_note (ev : MpuC F → Obs F) :
    Idles (IdleAt held n) (note ev) fun _ => IdleAt held n := by
  refine idles_act fun s hs => ⟨(), s.observe .serial (ev s.mpu), ?_, ?_⟩
  · simp [Sys.exec, hs.started]
  · exact ⟨hs.started, hs.owner, hs.queue, hs.awake, hs.iqueue, hs.disabled, hs.count⟩

/-- An idle thread takes a free mutex at once. -/
theorem idles_chMtxLock :
    Idles (IdleAt (F := F) none n) (chMtxLock m) fun _ => IdleAt (some m) n := by
  refine Possible.bind (Q := fun _ => IdleAt (some m) n) ?_ fun _ => ?_
  · refine idles_act fun s hs => ⟨(), { s with kern := s.kern.chMtxLockS .serial m }, ?_, ?_⟩
    · simp [Sys.exec, hs.started]
    · have hkern : s.kern.chMtxLockS .serial m = { s.kern with
          owner := Function.update s.kern.owner m (some .serial)
          next := Function.update s.kern.next m (s.kern.mtxlist .serial)
          mtxlist := Function.update s.kern.mtxlist .serial (m :: s.kern.mtxlist .serial) } :=
        if_pos (hs.owner m)
      rw [hkern]
      refine ⟨hs.started, ?_, hs.queue, hs.awake, hs.iqueue, hs.disabled, hs.count⟩
      intro m'
      by_cases hm : m' = m
      · simp [hm]
      · have hfree : s.kern.owner m' = none := hs.owner m'
        simp [hm, hfree, Ne.symm hm]
  · refine idles_act fun s hs => ⟨(), s, ?_, hs⟩
    have hresume : s.kern.chMtxResume .serial = some s.kern := by
      simp [ChibiOS.Kernel.chMtxResume, hs.awake]
    simp [Sys.exec, hs.started, hresume]

/-- And gives it back to nobody. -/
theorem idles_chMtxUnlock :
    Idles (IdleAt (F := F) (some m) n) (chMtxUnlock m) fun _ => IdleAt none n := by
  refine idles_act fun s hs => ⟨(), { s.observe .serial (.unlocked m (s.kern.mtxlist .serial).head?)
    with kern := s.kern.chMtxUnlock .serial m }, ?_, ?_⟩
  · simp [Sys.exec, hs.started]
  · have hkern : s.kern.chMtxUnlock .serial m = { s.kern with
        mtxlist := Function.update s.kern.mtxlist .serial (s.kern.next m)
        owner := Function.update s.kern.owner m none } := by
      simp [ChibiOS.Kernel.chMtxUnlock, hs.queue m]
    rw [hkern]
    refine ⟨hs.started, ?_, hs.queue, hs.awake, hs.iqueue, hs.disabled, hs.count⟩
    intro m'
    by_cases hm : m' = m
    · simp [hm]
    · have hother := hs.owner m'
      simpa [hm, Ne.symm hm] using hother

/-- The read finds the queue empty and times out. -/
theorem idles_iqReadTimeout : Idles (IdleAt (F := F) held n)
    (iqReadTimeout SERIAL_BUFFER_SIZE (TIME_MS2I 50)) fun r s => r = 0 ∧ IdleAt held n s := by
  -- The thread waits until the deadline.
  have hread : Idles (IdleAt (F := F) held n) (iqRead 0 SERIAL_BUFFER_SIZE (TIME_MS2I 50))
      fun r s => r = 0 ∧ IdleAt held n s ∧
        s.sd2.qWaiting = .waiting (s.sd2.now + TIME_MS2I 50) := by
    refine idles_act fun s hs => ⟨(0 : Nat), { s with
      sd2 := { s.sd2 with qWaiting := .waiting (s.sd2.now + TIME_MS2I 50) } }, ?_, rfl, ?_, rfl⟩
    · simp [Sys.exec, hs.started, hs.iqueue]
    · exact ⟨hs.started, hs.owner, hs.queue, hs.awake, hs.iqueue, hs.disabled, hs.count⟩
  have hwake : Idles (fun s : Sys F => IdleAt held n s ∧ s.sd2.qWaiting = .woken .MSG_TIMEOUT)
      (iqWake 0 SERIAL_BUFFER_SIZE) fun r s => r = none ∧ IdleAt held n s := by
    refine idles_act fun s hs => ⟨(none : Option Nat), { s.observe .serial (.received []) with
      sd2 := { s.sd2 with qWaiting := .idle } }, ?_, rfl, ?_⟩
    · simp [Sys.exec, hs.1.started, hs.2]
    · exact ⟨hs.1.started, hs.1.owner, hs.1.queue, hs.1.awake, hs.1.iqueue, hs.1.disabled,
        hs.1.count⟩
  -- Fifty milliseconds pass.
  have htimeout : Idles (fun s : Sys F => IdleAt held n s ∧
      s.sd2.qWaiting = .waiting (s.sd2.now + TIME_MS2I 50)) (iqWake 0 SERIAL_BUFFER_SIZE)
      fun r s => r = none ∧ IdleAt held n s := by
    refine hwake.intf fun s hs => ⟨{ s with sd2 := s.sd2.elapse (TIME_MS2I 50) }, ?_, ?_, ?_⟩
    · exact ⟨.elapse (TIME_MS2I 50), rfl⟩
    · have hidle := hs.1
      exact ⟨hidle.started, hidle.owner, hidle.queue, hidle.awake, hidle.iqueue, hidle.disabled,
        hidle.count⟩
    · simp [SerialDriver.elapse, hs.2]
  refine Possible.bind hread fun r s hs => ?_
  obtain ⟨rfl, hs⟩ := hs
  refine Possible.bind htimeout (fun r s hs => ?_) s hs
  obtain ⟨rfl, hs⟩ := hs
  exact ⟨0, s, .ret 0 s, rfl, hs⟩

/-- With no byte to come the read times out, and returns 0. -/
theorem idles_serialRead :
    Idles (IdleAt (F := F) none n) serialRead fun r s => r = 0 ∧ IdleAt none n s := by
  refine Possible.bind (idles_note _) fun _ => ?_
  refine Possible.bind (Q := fun r s => r = 0 ∧ IdleAt none n s) ?_ fun r s hs => ?_
  · refine Possible.bind idles_chMtxLock fun _ => Possible.bind idles_iqReadTimeout fun r s hs => ?_
    obtain ⟨rfl, hs⟩ := hs
    refine Possible.bind idles_chMtxUnlock (fun _ => ?_) s hs
    exact Possible.pure fun s hs => ⟨rfl, hs⟩
  · obtain ⟨rfl, hs⟩ := hs
    exact Possible.bind (idles_note _) (fun _ => Possible.pure fun s hs => ⟨rfl, hs⟩) s hs

/-- There is nothing to flush. -/
theorem idles_iqResetI : Idles (IdleAt (F := F) held n) iqResetI fun _ => IdleAt held n := by
  refine idles_act fun s hs => ⟨(), { s.observe .serial .flushed with
    sd2 := { s.sd2 with iqueue := [] } }, ?_, ?_⟩
  · simp [Sys.exec, hs.started]
  · exact ⟨hs.started, hs.owner, hs.queue, hs.awake, rfl, hs.disabled, hs.count⟩

/-- Stopped, the output section prints nothing and leaves the count. -/
theorem idles_outputSection :
    Idles (IdleAt (F := F) none n) outputSection fun _ => IdleAt none n := by
  have hget : Idles (IdleAt (F := F) (some .serialcomm) n) getSer
      fun c s => c.readEnable = false ∧ IdleAt (some .serialcomm) n s := by
    refine idles_act fun s hs => ⟨s.ser, s, ?_, hs.disabled, hs⟩
    simp [Sys.exec, hs.started]
  refine Possible.bind idles_chMtxLock fun _ => Possible.bind hget fun c s hs => ?_
  obtain ⟨hc, hs⟩ := hs
  rw [hc, Bool.false_and, if_neg Bool.false_ne_true]
  exact idles_chMtxUnlock s hs

/-- One iteration of the loop. -/
theorem idles_serialcommThread [CFloat F] : Idles (IdleAt (F := F) none n) serialcommThread
    fun _ => IdleAt none (wrap32 (n + 1)) := by
  have hcount : Idles (IdleAt (F := F) none n)
      (setSer fun _ c => { c with rdCount := wrap32 (c.rdCount + 1) })
      fun _ => IdleAt none (wrap32 (n + 1)) := by
    refine idles_act fun s hs => ⟨(), { s with
      ser := { s.ser with rdCount := wrap32 (s.ser.rdCount + 1) } }, ?_, ?_⟩
    · simp [Sys.exec, hs.started]
    · exact ⟨hs.started, hs.owner, hs.queue, hs.awake, hs.iqueue, hs.disabled,
        congrArg (fun k => wrap32 (k + 1)) hs.count⟩
  have hsleep : Idles (IdleAt (F := F) none (wrap32 (n + 1))) (chThdSleepMilliseconds 100)
      fun _ => IdleAt none (wrap32 (n + 1)) := by
    refine idles_act fun s hs => ⟨(), s, ?_, hs⟩
    simp [Sys.exec, hs.started]
  refine Possible.bind idles_serialRead fun r s hs => ?_
  obtain ⟨rfl, hs⟩ := hs
  rw [if_neg (by decide)]
  exact Possible.bind idles_iqResetI (fun _ => Possible.bind idles_outputSection fun _ =>
    Possible.bind hcount fun _ => hsleep) s hs

/-- Any number of iterations. -/
theorem idle_rounds [CFloat F] {c : Config (sig F) Tid (Sys F)} (hcode : c.code .serial = .ret ())
    (h : IdleAt none n c.st) (hn : wrap32 n = n) (k : Nat) : ∃ c', Reaches (machine F) loop c c' ∧
      c'.code .serial = .ret () ∧ IdleAt none (wrap32 (n + k)) c'.st := by
  induction k with
  | zero =>
      refine ⟨c, .refl c, hcode, ?_⟩
      rw [Int.natCast_zero, Int.add_zero, hn]
      exact h
  | succ k ih =>
      obtain ⟨c₁, hreach, hcode₁, hidle⟩ := ih
      obtain ⟨⟨⟩, s', he, hidle'⟩ := idles_serialcommThread c₁.st hidle
      refine ⟨_, hreach.trans (.round hcode₁ he), ?_, ?_⟩
      · show Function.update c₁.code .serial (.ret ()) .serial = .ret ()
        rw [Function.update_self]
      rw [wrap32_wrap32_add, Int.add_assoc] at hidle'
      exact hidle'

end

end MotionTracking
