import MotionTracking.Firmware.System

/-!
# `MotionTracking.Firmware.Drivers`: kernel and driver calls, `mtprint.c`, `mti2c1.c`

The calls of ChibiOS that the firmware makes, as programs over the atomic
actions, and the two small files that wrap the drivers.

Pointers to `txbuf` and `rxbuf` are not passed on: every transfer of the
firmware uses these two buffers of `mpu.c`, and `Sys.transfer` does too. In the
same way `serial_read` is only ever given `strbuf`.
-/

set_option autoImplicit false

namespace MotionTracking

variable {F α : Type}

open Threads.Prog (perform)

/-! ### Statements -/

/-- Reads the variables of `mpu.c`. -/
def getMpu : Prog F (MpuC F) := perform (S := sig F) .getMpu
/-- Reads the variables of `serialcomm.c`. -/
def getSer : Prog F (SerC F) := perform (S := sig F) .getSer
/-- Assigns to variables of `mpu.c`. -/
def setMpu (f : MpuC F → MpuC F) : Prog F Unit := perform (S := sig F) (.setMpu f)
/-- Assigns to variables of `serialcomm.c`, which may depend on those of `mpu.c`. -/
def setSer (f : MpuC F → SerC F → SerC F) : Prog F Unit := perform (S := sig F) (.setSer f)
/-- A log entry, which changes nothing else. -/
def note (ev : MpuC F → Obs F) : Prog F Unit := perform (S := sig F) (.note ev)

/-- A call of `f` with body `p`, recorded in the log. -/
def call (f : Fn) (p : Prog F α) : Prog F α := do
  note fun _ => .began f
  let x ← p
  note fun _ => .returned f
  return x

/-! ### Kernel -/

/-- One step of the kernel. -/
def chMtxObjectInit (m : Mtx) : Prog F Unit := perform (S := sig F) (.mtxInit m)

/-- Two steps: between them other threads run while this one waits for the mutex. -/
def chMtxLock (m : Mtx) : Prog F Unit := do
  perform (S := sig F) (.mtxLock m)
  perform (S := sig F) .mtxResume

/-- One step of the kernel. -/
def chMtxUnlock (m : Mtx) : Prog F Unit := perform (S := sig F) (.mtxUnlock m)

/-- The thread may run from here on. -/
def chThdCreateStatic (t : Tid) : Prog F Unit := perform (S := sig F) (.thdCreate t)

/-- The model lets a sleep end at any moment. -/
def chThdSleepMilliseconds (_ms : Nat) : Prog F Unit := perform (S := sig F) .sleep

/-! ### `hal_i2c.c` -/

/-- The driver is ready afterwards. -/
def i2cStart : Prog F Unit := perform (S := sig F) .i2cStart

/-- The bus has a mutex of its own. -/
def i2cAcquireBus : Prog F Unit := chMtxLock .i2c

/-- The bus mutex is given back. -/
def i2cReleaseBus : Prog F Unit := chMtxUnlock .i2c

/-- Three steps: the driver is made active, the transfer takes place, and its message is
returned. -/
def i2cMasterTransmitTimeout (addr : UInt8) (txbytes rxbytes : Nat) (_timeout : Nat) :
    Prog F Msg := do
  perform (S := sig F) .i2cBegin
  perform (S := sig F) (.i2cTransfer addr txbytes rxbytes)
  perform (S := sig F) .i2cEnd

/-! ### `hal_queues.c` on `SD2` -/

/-- One `iq_read` under the kernel lock, or the thread goes to sleep at the empty queue.
-/
def iqRead (off n timeout : Nat) : Prog F Nat := perform (S := sig F) (.iqRead off n timeout)

/-- The sleep at the queue ends, with the number of bytes read, or nothing after a
timeout. -/
def iqWake (off n : Nat) : Prog F (Option Nat) := perform (S := sig F) (.iqWake off n)

/-- The loop of `iqReadTimeout`, with `off` bytes read and `n` to go. Every
round reads at least one byte or is the last, so `n` rounds are enough. -/
def iqReadRounds (timeout : Nat) : Nat → Nat → Nat → Prog F Nat
  | 0, off, _ => return off
  | rounds + 1, off, n => do
      if n = 0 then return off
      let done ← iqRead off n timeout
      if done = 0 then
        match ← iqWake off n with
        | none => return off
        | some done => iqReadRounds timeout rounds (off + done) (n - done)
      else
        iqReadRounds timeout rounds (off + done) (n - done)

/-- The whole read. -/
def iqReadTimeout (n timeout : Nat) : Prog F Nat := iqReadRounds timeout n 0 n

/-- The queue is emptied. -/
def iqResetI : Prog F Unit := perform (S := sig F) .iqReset

/-- Output on `SD2`, as an entry of the log. -/
def sdWrite (o : Out F) : Prog F Unit := perform (S := sig F) (.sdOut o)

/-- Formatted output on `SD2`, as an entry of the log. -/
def chprintf (o : Out F) : Prog F Unit := perform (S := sig F) (.sdOut o)

/-! ### `mtprint.c` -/

/-- The mutex of the module and its driver. -/
def serialInit : Prog F Unit := do
  chMtxObjectInit .mtprint
  perform (S := sig F) .sdStart

/-- A string is written under the mutex. -/
def serialPrint (o : Out F) : Prog F Unit := do
  chMtxLock .mtprint
  sdWrite o
  chMtxUnlock .mtprint

/-- The number of bytes read into `strbuf`. -/
def serialRead : Prog F Nat :=
  call .serialRead do
    chMtxLock .mtprint
    let t ← iqReadTimeout SERIAL_BUFFER_SIZE (TIME_MS2I 50)
    chMtxUnlock .mtprint
    return t

/-! ### `mti2c1.c` -/

/-- The I2C driver is started. -/
def mti2cInit : Prog F Unit := i2cStart

/-- A transfer on the acquired bus, with the driver's message. -/
def i2c1Transmit (addr : UInt8) (txsize rxsize timeout : Nat) : Prog F Msg := do
  i2cAcquireBus
  let res ← i2cMasterTransmitTimeout addr txsize rxsize timeout
  i2cReleaseBus
  return res

end MotionTracking
