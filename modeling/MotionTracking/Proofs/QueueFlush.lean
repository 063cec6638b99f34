import MotionTracking.ChibiOS.InputQueue
import MotionTracking.Firmware.System

/-!
# `MotionTracking.Proofs.QueueFlush`: the flush of `SD2`'s input queue

`serialcomm_thread` calls `iqResetI(&SD2.iqueue)` from thread context, without
the kernel lock. The system model has the flush as one step (`Act.iqReset`) and
the queue as a list. Here the queue is the buffer with its pointers and its
counter, and the receive interrupt can come between the three assignments of the
flush.

`flush_ok_iff` says which placements of interrupts leave the queue in order: all
but those that put some bytes, fewer than the buffer holds, in the gap between
the second and the third assignment while the queue is empty. `flush_skews` is
one of these.

The `represents_*` lemmas connect the two models: on well-formed queues the
operations on the buffer are the operations on the list.
-/

set_option autoImplicit false

namespace MotionTracking

open ChibiOS (InputQueue)

variable {F : Type}

/-- `SD2.iqueue`. -/
abbrev SdQueue : Type := InputQueue SERIAL_BUFFERS_SIZE UInt8

/-! ### The list model -/

/-- The list in the driver's state is what the queue holds. -/
structure Represents (q : SdQueue) (sd : SerialDriver) : Prop where
  wf : q.Wf
  contents : q.contents = sd.iqueue

variable {q : SdQueue} {sd : SerialDriver}

/-- The receive interrupt. -/
theorem represents_incoming (h : Represents q sd) (hsd : sd.started = true) (b : UInt8) :
    Represents (q.iqPutI b) (sd.incoming b) := by
  refine ⟨h.wf.iqPutI b, ?_⟩
  have hlen : sd.iqueue.length = q.counter := by
    rw [← h.contents, InputQueue.length_contents]
  rw [InputQueue.contents_iqPutI h.wf, SerialDriver.incoming, hsd, hlen, h.contents]
  by_cases hlt : q.counter < SERIAL_BUFFERS_SIZE
  · simp [hlt]
  · simp [hlt]

/-- `iq_read`. -/
theorem represents_iqTake {s : Sys F} (h : Represents q s.sd2) (t : Tid) (off n : Nat) :
    (q.iqRead n).1.length = (s.iqTake t off n).1 ∧
      Represents (q.iqRead n).2 (s.iqTake t off n).2.sd2 ∧
      (s.iqTake t off n).2.log t = .received (q.iqRead n).1 :: s.log t := by
  obtain ⟨hread, hwf, hrest⟩ := InputQueue.iqRead_eq h.wf n
  rw [h.contents] at hread hrest
  refine ⟨by rw [hread]; rfl, ⟨hwf, hrest⟩, ?_⟩
  rw [hread]
  exact Function.update_self t _ s.log

/-- The flush, when no interrupt comes between its assignments. -/
theorem represents_iqReset {s s' : Sys F} {t : Tid} {r : Unit}
    (h : s.exec t .iqReset = some (r, s')) : Represents q.iqResetI s'.sd2 := by
  rw [Sys.exec_iqReset h]
  exact ⟨InputQueue.iqResetI_wf (by decide) q, InputQueue.contents_iqResetI q⟩

/-! ### The flush with interrupts -/

/-- What the flush should leave, when `after` came since its last assignment: a
well-formed queue that holds of `after` what fits, so that a read returns these
bytes in order. -/
structure FlushOk (after : List UInt8) (q : SdQueue) : Prop where
  wf : q.Wf
  reads : ∀ n, (q.iqRead n).1 = (after.take SERIAL_BUFFERS_SIZE).take n

/-- The flush leaves the queue in order exactly when it was not empty up to the
second gap, or nothing came in that gap, or a whole buffer did. -/
theorem flush_ok_iff (q : SdQueue) (is₀ is₁ is₂ is₃ : List UInt8) :
    FlushOk is₃ (q.resetUnlocked is₀ is₁ is₂ is₃) ↔
      ¬(q.counter = 0 ∧ is₀ = [] ∧ is₁ = [] ∧ is₂ ≠ [] ∧ is₂.length < SERIAL_BUFFERS_SIZE) := by
  have hpos : 0 < SERIAL_BUFFERS_SIZE := by decide
  rw [← InputQueue.resetUnlocked_wf_iff hpos is₀ is₁ is₂ is₃ q]
  constructor
  · intro h
    exact h.wf
  · intro hwf
    refine ⟨hwf, fun n => ?_⟩
    have hno := (InputQueue.resetUnlocked_wf_iff hpos is₀ is₁ is₂ is₃ q).mp hwf
    rw [(InputQueue.iqRead_eq hwf n).1, InputQueue.contents_resetUnlocked hpos hno]

/-- One byte in the second gap of the flush of an empty queue. -/
theorem flush_skews :
    ¬∀ q : SdQueue, q.Wf → ∀ is₀ is₁ is₂ is₃ : List UInt8,
      FlushOk is₃ (q.resetUnlocked is₀ is₁ is₂ is₃) := by
  intro h
  have hok := h (InputQueue.iqObjectInit fun _ => 0) (InputQueue.iqObjectInit_wf (by decide) _)
    [] [] [0x63] []
  have hdist := hok.wf.skewed.distance
  exact absurd hdist (by decide)

end MotionTracking
