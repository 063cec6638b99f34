import MotionTracking.Firmware.State
import MotionTracking.Threads.Machine

/-!
# `MotionTracking.Firmware.System`: the atomic actions and what they do

One action is what no other thread can interrupt: one C statement on the static
variables, one kernel or driver operation under the kernel lock, or one stretch
of a driver operation between two points where the calling thread sleeps.

* A mutex is taken in two actions (`mtxLock`, `mtxResume`), since the thread may
  sleep in between.
* An I2C transfer is three: `i2cBegin`, then at some moment `i2cTransfer`, in
  which the DMA fetches the bytes from `txbuf` and stores the received ones to
  `rxbuf`, then `i2cEnd`, where the thread runs again with the result. The
  sensor is a register file whose address advances by one per byte. It takes
  part in a transfer exactly when the transfer ends with `MSG_OK`.
* A read from `SD2` is `iqRead`, and when the queue is empty `iqWake`, which
  waits for a byte or for the timeout. The log records a timeout as the arrival
  of no bytes.

`exec` is this, per thread. `EnvMove` is what goes on beside the threads: a byte
arrives at the UART, time passes, the sensor takes a new sample.
-/

set_option autoImplicit false

namespace MotionTracking

open ChibiOS

/-- The actions. -/
inductive Act (F : Type) where
  | getMpu
  | getSer
  | setMpu (f : MpuC F → MpuC F)
  | setSer (f : MpuC F → SerC F → SerC F)
  /-- Write to the log only. -/
  | note (ev : MpuC F → Obs F)
  | mtxInit (m : Mtx)
  | mtxLock (m : Mtx)
  | mtxResume
  | mtxUnlock (m : Mtx)
  | thdCreate (t : Tid)
  | sleep
  | i2cStart
  | i2cBegin
  | i2cTransfer (addr : UInt8) (txbytes rxbytes : Nat)
  | i2cEnd
  | sdStart
  | sdOut (o : Out F)
  | iqRead (off n timeout : Nat)
  | iqWake (off n : Nat)
  | iqReset

/-- What the thread gets back. -/
abbrev Act.Ans {F : Type} : Act F → Type
  | .getMpu => MpuC F
  | .getSer => SerC F
  | .i2cEnd => Msg
  | .iqRead _ _ _ => Nat
  | .iqWake _ _ => Option Nat
  | _ => Unit

/-- The signature of the firmware's programs. -/
abbrev sig (F : Type) : Threads.Sig := ⟨Act F, Act.Ans⟩

/-- A piece of the firmware's code. -/
abbrev Prog (F : Type) (α : Type) : Type := Threads.Prog (sig F) α

/-! ### The sensor -/

/-- A write of `vals` to the registers from `reg` on. -/
def writeRegs (reg : UInt8) : List UInt8 → (UInt8 → UInt8) → UInt8 → UInt8
  | [], regs => regs
  | v :: vals, regs => writeRegs (reg + 1) vals (Function.update regs reg v)

/-- A read of `n` registers from `reg` on. -/
def readRegs (reg : UInt8) (regs : UInt8 → UInt8) : Nat → List UInt8
  | 0 => []
  | n + 1 => regs reg :: readRegs (reg + 1) regs n

/-- The registers after the sensor has received `bytes`, register address
first. -/
def sensorWrite : List UInt8 → (UInt8 → UInt8) → UInt8 → UInt8
  | [], regs => regs
  | reg :: vals, regs => writeRegs reg vals regs

/-- What the sensor answers to `bytes`. -/
def sensorRead (bytes : List UInt8) (regs : UInt8 → UInt8) (n : Nat) : List UInt8 :=
  readRegs (bytes.headD 0) regs n

/-! ### The actions -/

namespace Sys

variable {F : Type}

/-- Append to the log of thread `t`. -/
def observe (t : Tid) (ev : Obs F) (s : Sys F) : Sys F :=
  { s with log := Function.update s.log t (ev :: s.log t) }

/-- One transfer, from the moment the bus is free to the wake-up message. -/
def transfer (t : Tid) (txbytes rxbytes : Nat) (s : Sys F) : Sys F :=
  let res := s.results t 0
  let bytes := (List.ofFn s.mpu.txbuf).take txbytes
  let rx := if res.msg = .MSG_OK then sensorRead bytes s.regs rxbytes else res.rx.take rxbytes
  { s with
    results := Function.update s.results t fun n => s.results t (n + 1)
    regs := if res.msg = .MSG_OK then sensorWrite bytes s.regs else s.regs
    mpu := { s.mpu with rxbuf := s.mpu.rxbuf.write 0 rx }
    i2c := { s.i2c with msg := res.msg }
    log := Function.update s.log t (.transfer bytes res.msg :: s.log t) }

/-- `iq_read`: move up to `n` bytes from the queue to `strbuf + off`. -/
def iqTake (t : Tid) (off n : Nat) (s : Sys F) : Nat × Sys F :=
  let bytes := s.sd2.iqueue.take n
  (bytes.length,
    { s with
      sd2 := { s.sd2 with iqueue := s.sd2.iqueue.drop n, qWaiting := .idle }
      ser := { s.ser with strbuf := s.ser.strbuf.write off bytes }
      log := Function.update s.log t (.received bytes :: s.log t) })

/-- What happens when thread `t` performs an action, `none` while it waits. -/
def exec (t : Tid) (a : Act F) (s : Sys F) : Option (a.Ans × Sys F) :=
  if s.started t then
    match a with
    | .getMpu => some (s.mpu, s)
    | .getSer => some (s.ser, s)
    | .setMpu f => some ((), { s with mpu := f s.mpu })
    | .setSer f => some ((), { s with ser := f s.mpu s.ser })
    | .note ev => some ((), s.observe t (ev s.mpu))
    | .mtxInit m => some ((), { s with kern := s.kern.chMtxObjectInit m })
    | .mtxLock m => some ((), { s with kern := s.kern.chMtxLockS t m })
    | .mtxResume => (s.kern.chMtxResume t).map fun k => ((), { s with kern := k })
    | .mtxUnlock m => some ((), { s.observe t (.unlocked m (s.kern.mtxlist t).head?) with
        kern := s.kern.chMtxUnlock t m })
    | .thdCreate u => some ((), { s with started := Function.update s.started u true })
    | .sleep => some ((), s)
    | .i2cStart => some ((), { s with i2c := { state := .I2C_READY, msg := .MSG_OK } })
    | .i2cBegin => some ((), { s with i2c := { s.i2c with state := .I2C_ACTIVE_TX } })
    | .i2cTransfer _ txbytes rxbytes => some ((), s.transfer t txbytes rxbytes)
    | .i2cEnd => some (s.i2c.msg, { s with i2c := { s.i2c with
        state := if s.i2c.msg = .MSG_TIMEOUT then .I2C_LOCKED else .I2C_READY } })
    | .sdStart => some ((), { s with sd2 := { s.sd2 with started := true } })
    | .sdOut o => some ((), s.observe t (.printed o))
    | .iqRead off n timeout =>
        if s.sd2.iqueue = [] then
          some ((0 : Nat), { s with
            sd2 := { s.sd2 with qWaiting := .waiting (s.sd2.now + timeout) } })
        else some (s.iqTake t off n)
    | .iqWake off n =>
        match s.sd2.qWaiting with
        | .woken .MSG_OK => some ((s.iqTake t off n).map some id)
        | .woken _ => some ((none : Option Nat), { s.observe t (.received []) with
            sd2 := { s.sd2 with qWaiting := .idle } })
        | _ => none
    | .iqReset => some ((), { s.observe t .flushed with sd2 := { s.sd2 with iqueue := [] } })
  else none

/-! What each action can do, read backwards from a performed step. -/

section
variable {t : Tid} {s s' : Sys F}

/-- Only a thread that has been created performs actions. -/
theorem exec_started {a : Act F} {rs : a.Ans × Sys F} (h : s.exec t a = some rs) :
    s.started t = true := by
  unfold exec at h
  split at h
  · assumption
  · cases h

/-- Reading the variables of `mpu.c` changes nothing. -/
theorem exec_getMpu {r : MpuC F} (h : s.exec t .getMpu = some (r, s')) :
    r = s.mpu ∧ s' = s := by
  have hst := exec_started h
  simp only [exec, hst, if_true] at h
  cases h
  exact ⟨rfl, rfl⟩

/-- Reading the variables of `serialcomm.c` changes nothing. -/
theorem exec_getSer {r : SerC F} (h : s.exec t .getSer = some (r, s')) :
    r = s.ser ∧ s' = s := by
  have hst := exec_started h
  simp only [exec, hst, if_true] at h
  cases h
  exact ⟨rfl, rfl⟩

/-- An assignment changes the variables of `mpu.c` alone. -/
theorem exec_setMpu {f : MpuC F → MpuC F} {r : Unit}
    (h : s.exec t (.setMpu f) = some (r, s')) : s' = { s with mpu := f s.mpu } := by
  have hst := exec_started h
  simp only [exec, hst, if_true] at h
  cases h
  rfl

/-- An assignment changes the variables of `serialcomm.c` alone. -/
theorem exec_setSer {f : MpuC F → SerC F → SerC F} {r : Unit}
    (h : s.exec t (.setSer f) = some (r, s')) : s' = { s with ser := f s.mpu s.ser } := by
  have hst := exec_started h
  simp only [exec, hst, if_true] at h
  cases h
  rfl

/-- A note changes the log alone. -/
theorem exec_note {ev : MpuC F → Obs F} {r : Unit}
    (h : s.exec t (.note ev) = some (r, s')) : s' = s.observe t (ev s.mpu) := by
  have hst := exec_started h
  simp only [exec, hst, if_true] at h
  cases h
  rfl

/-- The kernel's step, and nothing else. -/
theorem exec_mtxInit {m : Mtx} {r : Unit} (h : s.exec t (.mtxInit m) = some (r, s')) :
    s' = { s with kern := s.kern.chMtxObjectInit m } := by
  have hst := exec_started h
  simp only [exec, hst, if_true] at h
  cases h
  rfl

/-- The kernel's step, and nothing else. -/
theorem exec_mtxLock {m : Mtx} {r : Unit} (h : s.exec t (.mtxLock m) = some (r, s')) :
    s' = { s with kern := s.kern.chMtxLockS t m } := by
  have hst := exec_started h
  simp only [exec, hst, if_true] at h
  cases h
  rfl

/-- The kernel's step, once the thread may go on. -/
theorem exec_mtxResume {r : Unit} (h : s.exec t .mtxResume = some (r, s')) :
    ∃ k, s.kern.chMtxResume t = some k ∧ s' = { s with kern := k } := by
  have hst := exec_started h
  simp only [exec, hst, if_true] at h
  obtain ⟨k, hk, hrs⟩ := Option.map_eq_some_iff.mp h
  cases hrs
  exact ⟨k, hk, rfl⟩

/-- The kernel's step, with a record of what was on top of the stack. -/
theorem exec_mtxUnlock {m : Mtx} {r : Unit} (h : s.exec t (.mtxUnlock m) = some (r, s')) :
    s' = { s.observe t (.unlocked m (s.kern.mtxlist t).head?) with
      kern := s.kern.chMtxUnlock t m } := by
  have hst := exec_started h
  simp only [exec, hst, if_true] at h
  cases h
  rfl

/-- The created thread may perform actions from now on. -/
theorem exec_thdCreate {u : Tid} {r : Unit} (h : s.exec t (.thdCreate u) = some (r, s')) :
    s' = { s with started := Function.update s.started u true } := by
  have hst := exec_started h
  simp only [exec, hst, if_true] at h
  cases h
  rfl

/-- A sleep changes nothing. -/
theorem exec_sleep {r : Unit} (h : s.exec t .sleep = some (r, s')) : s' = s := by
  have hst := exec_started h
  simp only [exec, hst, if_true] at h
  cases h
  rfl

/-- Starting the driver makes it ready. -/
theorem exec_i2cStart {r : Unit} (h : s.exec t .i2cStart = some (r, s')) :
    s' = { s with i2c := { state := .I2C_READY, msg := .MSG_OK } } := by
  have hst := exec_started h
  simp only [exec, hst, if_true] at h
  cases h
  rfl

/-- The driver is active from here to the end of the transfer. -/
theorem exec_i2cBegin {r : Unit} (h : s.exec t .i2cBegin = some (r, s')) :
    s' = { s with i2c := { s.i2c with state := .I2C_ACTIVE_TX } } := by
  have hst := exec_started h
  simp only [exec, hst, if_true] at h
  cases h
  rfl

/-- The transfer itself is one step. -/
theorem exec_i2cTransfer {addr : UInt8} {txbytes rxbytes : Nat} {r : Unit}
    (h : s.exec t (.i2cTransfer addr txbytes rxbytes) = some (r, s')) :
    s' = s.transfer t txbytes rxbytes := by
  have hst := exec_started h
  simp only [exec, hst, if_true] at h
  cases h
  rfl

/-- The result of the transfer, and the state the driver is left in: locked after a
timeout. -/
theorem exec_i2cEnd {r : Msg} (h : s.exec t .i2cEnd = some (r, s')) :
    r = s.i2c.msg ∧ s' = { s with i2c := { s.i2c with
      state := if s.i2c.msg = .MSG_TIMEOUT then .I2C_LOCKED else .I2C_READY } } := by
  have hst := exec_started h
  simp only [exec, hst, if_true] at h
  cases h
  exact ⟨rfl, rfl⟩

/-- Starting the serial driver. -/
theorem exec_sdStart {r : Unit} (h : s.exec t .sdStart = some (r, s')) :
    s' = { s with sd2 := { s.sd2 with started := true } } := by
  have hst := exec_started h
  simp only [exec, hst, if_true] at h
  cases h
  rfl

/-- Output changes the log alone. -/
theorem exec_sdOut {o : Out F} {r : Unit} (h : s.exec t (.sdOut o) = some (r, s')) :
    s' = s.observe t (.printed o) := by
  have hst := exec_started h
  simp only [exec, hst, if_true] at h
  cases h
  rfl

/-- The queue is empty, and the thread waits at it from now on, or it takes what there is.
-/
theorem exec_iqRead {off n timeout r : Nat}
    (h : s.exec t (.iqRead off n timeout) = some (r, s')) :
    (s.sd2.iqueue = [] ∧ r = 0 ∧
      s' = { s with sd2 := { s.sd2 with qWaiting := .waiting (s.sd2.now + timeout) } }) ∨
    (s.sd2.iqueue ≠ [] ∧ (r, s') = s.iqTake t off n) := by
  have hst := exec_started h
  simp only [exec, hst, if_true] at h
  split at h
  · rename_i hq
    cases h
    exact .inl ⟨hq, rfl, rfl⟩
  · rename_i hq
    exact .inr ⟨hq, (Option.some.inj h).symm⟩

/-- The thread was woken for a byte, which it takes, or by the timeout. -/
theorem exec_iqWake {off n : Nat} {r : Option Nat}
    (h : s.exec t (.iqWake off n) = some (r, s')) :
    (s.sd2.qWaiting = .woken .MSG_OK ∧
      (r, s') = (some (s.iqTake t off n).1, (s.iqTake t off n).2)) ∨
    (∃ msg, msg ≠ .MSG_OK ∧ s.sd2.qWaiting = .woken msg ∧ r = none ∧
      s' = { s.observe t (.received []) with sd2 := { s.sd2 with qWaiting := .idle } }) := by
  have hst := exec_started h
  simp only [exec, hst, if_true] at h
  split at h
  · rename_i hw
    exact .inl ⟨hw, (Option.some.inj h).symm⟩
  · rename_i hnot hw
    cases h
    exact .inr ⟨_, hnot, hw, rfl, rfl⟩
  · cases h

/-- The queue is empty, and the flush is recorded. -/
theorem exec_iqReset {r : Unit} (h : s.exec t .iqReset = some (r, s')) :
    s' = { s.observe t .flushed with sd2 := { s.sd2 with iqueue := [] } } := by
  have hst := exec_started h
  simp only [exec, hst, if_true] at h
  cases h
  rfl

/-- What an action that concerns no mutex, no other thread and not the I2C driver
leaves alone. -/
structure Plain (t : Tid) (s s' : Sys F) : Prop where
  kern : s'.kern = s.kern
  started : s'.started = s.started
  i2c : s'.i2c = s.i2c
  results : s'.results = s.results
  regs : s'.regs = s.regs
  log : ∀ u, u ≠ t → s'.log u = s.log u

/-- A log entry is plain. -/
theorem Plain.of_observe (t : Tid) (s : Sys F) (ev : Obs F) : Plain t s (s.observe t ev) :=
  ⟨rfl, rfl, rfl, rfl, rfl, fun _ hu => Function.update_of_ne hu _ _⟩

/-- A read from the queue is plain. -/
theorem Plain.of_iqTake (t : Tid) (off n : Nat) (s : Sys F) : Plain t s (s.iqTake t off n).2 :=
  ⟨rfl, rfl, rfl, rfl, rfl, fun _ hu => Function.update_of_ne hu _ _⟩

end

end Sys

/-- The action concerns no mutex, no other thread and not the I2C driver. -/
def Act.plain {F : Type} : Act F → Bool
  | .mtxInit _ => false
  | .mtxLock _ => false
  | .mtxResume => false
  | .mtxUnlock _ => false
  | .i2cStart => false
  | .i2cBegin => false
  | .i2cTransfer _ _ _ => false
  | .i2cEnd => false
  | .thdCreate _ => false
  | _ => true

/-- The plain actions have plain steps, by cases on the action. -/
theorem Sys.exec_plain {F : Type} {t : Tid} {a : Act F} {s s' : Sys F} {r : a.Ans}
    (ha : a.plain = true) (h : s.exec t a = some (r, s')) : Plain t s s' := by
  cases a with
  | getMpu =>
      obtain ⟨-, rfl⟩ := exec_getMpu h
      exact ⟨rfl, rfl, rfl, rfl, rfl, fun _ _ => rfl⟩
  | getSer =>
      obtain ⟨-, rfl⟩ := exec_getSer h
      exact ⟨rfl, rfl, rfl, rfl, rfl, fun _ _ => rfl⟩
  | setMpu f =>
      rw [exec_setMpu h]
      exact ⟨rfl, rfl, rfl, rfl, rfl, fun _ _ => rfl⟩
  | setSer f =>
      rw [exec_setSer h]
      exact ⟨rfl, rfl, rfl, rfl, rfl, fun _ _ => rfl⟩
  | note ev =>
      rw [exec_note h]
      exact .of_observe t s _
  | sleep =>
      rw [exec_sleep h]
      exact ⟨rfl, rfl, rfl, rfl, rfl, fun _ _ => rfl⟩
  | sdStart =>
      rw [exec_sdStart h]
      exact ⟨rfl, rfl, rfl, rfl, rfl, fun _ _ => rfl⟩
  | sdOut o =>
      rw [exec_sdOut h]
      exact .of_observe t s _
  | iqRead off n timeout =>
      rcases exec_iqRead h with ⟨-, -, rfl⟩ | ⟨-, hrs⟩
      · exact ⟨rfl, rfl, rfl, rfl, rfl, fun _ _ => rfl⟩
      · obtain ⟨-, rfl⟩ := Prod.mk.inj hrs
        exact .of_iqTake t off n s
  | iqWake off n =>
      rcases exec_iqWake h with ⟨-, hrs⟩ | ⟨_, -, -, -, rfl⟩
      · obtain ⟨-, rfl⟩ := Prod.mk.inj hrs
        exact .of_iqTake t off n s
      · have hobs := Plain.of_observe t s (.received [])
        exact ⟨rfl, rfl, rfl, rfl, rfl, hobs.log⟩
  | iqReset =>
      rw [exec_iqReset h]
      have hobs := Plain.of_observe t s .flushed
      exact ⟨rfl, rfl, rfl, rfl, rfl, hobs.log⟩
  | mtxInit m => cases ha
  | mtxLock m => cases ha
  | mtxResume => cases ha
  | mtxUnlock m => cases ha
  | thdCreate u => cases ha
  | i2cStart => cases ha
  | i2cBegin => cases ha
  | i2cTransfer addr txbytes rxbytes => cases ha
  | i2cEnd => cases ha

/-- The entries that an action may make in the log of its thread. -/
def Act.Entry {F : Type} : Act F → Obs F → Prop
  | .note f, ev => ∃ c, ev = f c
  | .mtxUnlock m, ev => ∃ top, ev = .unlocked m top
  | .i2cTransfer _ _ _, ev => ∃ bytes msg, ev = .transfer bytes msg
  | .sdOut o, ev => ev = .printed o
  | .iqRead _ _ _, ev => ∃ bytes, ev = .received bytes
  | .iqWake _ _, ev => ∃ bytes, ev = .received bytes
  | .iqReset, ev => ev = .flushed
  | _, _ => False

/-- An action makes at most one entry in the log of its thread, and one of its own. -/
theorem Sys.exec_log {F : Type} {t : Tid} {a : Act F} {s s' : Sys F} {r : a.Ans}
    (h : s.exec t a = some (r, s')) :
    s'.log = s.log ∨ ∃ ev, a.Entry ev ∧ s'.log = Function.update s.log t (ev :: s.log t) := by
  cases a with
  | getMpu => exact .inl (by rw [(exec_getMpu h).2])
  | getSer => exact .inl (by rw [(exec_getSer h).2])
  | setMpu f => exact .inl (by rw [exec_setMpu h])
  | setSer f => exact .inl (by rw [exec_setSer h])
  | note ev => exact .inr ⟨_, ⟨s.mpu, rfl⟩, by rw [exec_note h]; rfl⟩
  | mtxInit m => exact .inl (by rw [exec_mtxInit h])
  | mtxLock m => exact .inl (by rw [exec_mtxLock h])
  | mtxResume =>
      obtain ⟨k, -, rfl⟩ := exec_mtxResume h
      exact .inl rfl
  | mtxUnlock m => exact .inr ⟨_, ⟨_, rfl⟩, by rw [exec_mtxUnlock h]; rfl⟩
  | thdCreate u => exact .inl (by rw [exec_thdCreate h])
  | sleep => exact .inl (by rw [exec_sleep h])
  | i2cStart => exact .inl (by rw [exec_i2cStart h])
  | i2cBegin => exact .inl (by rw [exec_i2cBegin h])
  | i2cTransfer addr txbytes rxbytes =>
      exact .inr ⟨_, ⟨_, _, rfl⟩, by rw [exec_i2cTransfer h]; rfl⟩
  | i2cEnd => exact .inl (by rw [(exec_i2cEnd h).2])
  | sdStart => exact .inl (by rw [exec_sdStart h])
  | sdOut o => exact .inr ⟨_, rfl, by rw [exec_sdOut h]; rfl⟩
  | iqRead off n timeout =>
      rcases exec_iqRead h with ⟨-, -, rfl⟩ | ⟨-, hrs⟩
      · exact .inl rfl
      · obtain ⟨-, rfl⟩ := Prod.mk.inj hrs
        exact .inr ⟨_, ⟨_, rfl⟩, rfl⟩
  | iqWake off n =>
      rcases exec_iqWake h with ⟨-, hrs⟩ | ⟨_, -, -, -, rfl⟩
      · obtain ⟨-, rfl⟩ := Prod.mk.inj hrs
        exact .inr ⟨_, ⟨_, rfl⟩, rfl⟩
      · exact .inr ⟨_, ⟨[], rfl⟩, rfl⟩
  | iqReset => exact .inr ⟨_, rfl, by rw [exec_iqReset h]; rfl⟩

/-- An action leaves the results to come, but for a transfer, which uses up one. -/
theorem Sys.exec_results {F : Type} {t : Tid} {a : Act F} {s s' : Sys F} {r : a.Ans}
    (h : s.exec t a = some (r, s')) :
    s'.results = s.results ∨ (∃ addr n m, a = .i2cTransfer addr n m) ∧
      s'.results = Function.update s.results t fun k => s.results t (k + 1) := by
  by_cases hp : a.plain = true
  · exact .inl (exec_plain hp h).results
  cases a with
  | mtxInit m => exact .inl (by rw [exec_mtxInit h])
  | mtxLock m => exact .inl (by rw [exec_mtxLock h])
  | mtxResume =>
      obtain ⟨k, -, rfl⟩ := exec_mtxResume h
      exact .inl rfl
  | mtxUnlock m => exact .inl (by rw [exec_mtxUnlock h]; rfl)
  | thdCreate u => exact .inl (by rw [exec_thdCreate h])
  | i2cStart => exact .inl (by rw [exec_i2cStart h])
  | i2cBegin => exact .inl (by rw [exec_i2cBegin h])
  | i2cTransfer addr n m => exact .inr ⟨⟨addr, n, m, rfl⟩, by rw [exec_i2cTransfer h]; rfl⟩
  | i2cEnd => exact .inl (by rw [(exec_i2cEnd h).2])
  | _ => exact absurd rfl hp

/-! ### The surroundings -/

/-- What goes on beside the threads. -/
inductive EnvMove where
  /-- The receive interrupt of `SD2` with one byte. -/
  | rx (b : UInt8)
  /-- `n` ticks pass. -/
  | elapse (n : Nat)
  /-- The sensor's accelerometer data registers take new values. -/
  | sample (data : UInt8 → UInt8)

/-- The accelerometer data registers, `ACCEL_XOUT_H` to `ACCEL_ZOUT_L`. -/
def isDataReg (reg : UInt8) : Bool := 0x3B ≤ reg && reg ≤ 0x40

namespace SerialDriver

/-- `sdIncomingDataI`: a full queue drops the byte, a waiting thread is woken. -/
def incoming (b : UInt8) (sd : SerialDriver) : SerialDriver :=
  if sd.started && sd.iqueue.length < SERIAL_BUFFERS_SIZE then
    { sd with
      iqueue := sd.iqueue ++ [b]
      qWaiting := match sd.qWaiting with
        | .waiting _ => .woken .MSG_OK
        | w => w }
  else sd

/-- `n` ticks pass, and the waiting thread's timeout may fire. -/
def elapse (n : Nat) (sd : SerialDriver) : SerialDriver :=
  { sd with
    now := sd.now + n
    qWaiting := match sd.qWaiting with
      | .waiting deadline =>
          if deadline ≤ sd.now + n then .woken .MSG_TIMEOUT else .waiting deadline
      | w => w }

end SerialDriver

/-- The effect of such a move, where it is possible. -/
def Sys.env {F : Type} (e : EnvMove) (s : Sys F) : Option (Sys F) :=
  match e with
  | .rx b => some { s with sd2 := s.sd2.incoming b }
  | .elapse n => some { s with sd2 := s.sd2.elapse n }
  | .sample data => some { s with
      regs := fun reg => if isDataReg reg then data reg else s.regs reg }

/-- The firmware's machine. -/
def machine (F : Type) : Threads.Machine (sig F) Tid (Sys F) EnvMove where
  exec t a s := s.exec t a
  env e s := s.env e

end MotionTracking
