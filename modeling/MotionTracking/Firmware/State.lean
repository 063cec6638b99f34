import Mathlib.Data.Rat.Defs
import MotionTracking.ChibiOS.Mutex

/-!
# `MotionTracking.Firmware.State`: the variables of the firmware

The static variables of `mpu.c` and `serialcomm.c`, the state of the drivers
they use (`I2CD1`, `SD2`), the sensor's registers, and the kernel's mutexes.

Three parts are not variables of the firmware:

* `Sys.results`: for each thread, the results the I2C driver will return to it,
  first one first. A statement about every state is thereby a statement about
  every sequence of results.
* `Sys.log`: for each thread, what it has done, newest first. Nothing in the
  firmware reads it.
* `SerC.pastStrbuf`: the memory behind `strbuf`, which nothing writes.

The C type `float` is a parameter `F` with the operations of `CFloat`, none of
them with any law: what holds for every `F` holds for single-precision floats
and for exact arithmetic alike.
-/

set_option autoImplicit false

namespace MotionTracking

open ChibiOS (Kernel)

/-! ### Threads, mutexes, messages -/

/-- The three threads. -/
inductive Tid where
  | main
  | serial
  | mpu
  deriving DecidableEq, Repr

/-- The three static `qmtx`, by file, and the mutex of the I2C bus. -/
inductive Mtx where
  | mtprint
  | mpu
  | serialcomm
  | i2c
  deriving DecidableEq, Repr

/-- The messages with which a thread is woken. -/
inductive Msg where
  | MSG_OK
  | MSG_TIMEOUT
  | MSG_RESET
  deriving DecidableEq, Repr

/-- The value of a message as a 32-bit `msg_t`. -/
def Msg.code : Msg → BitVec 32
  | .MSG_OK => 0
  | .MSG_TIMEOUT => -1
  | .MSG_RESET => -2

/-! ### `mpu.h` -/

/-- The ranges of the accelerometer. -/
inductive AccelRange where
  | ACCEL_RANGE_2G
  | ACCEL_RANGE_4G
  | ACCEL_RANGE_8G
  | ACCEL_RANGE_16G
  deriving DecidableEq, Repr

/-- The value of the enumeration, which goes to `ACCEL_CONFIG`. -/
def AccelRange.code : AccelRange → UInt8
  | .ACCEL_RANGE_2G => 0x00
  | .ACCEL_RANGE_4G => 0x08
  | .ACCEL_RANGE_8G => 0x10
  | .ACCEL_RANGE_16G => 0x18

/-- The axes of the accelerometer. -/
inductive AccAxis where
  | ACC_AXIS_X
  | ACC_AXIS_Y
  | ACC_AXIS_Z
  deriving DecidableEq, Repr

/-- The value of the enumeration: the register of the axis's upper byte. -/
def AccAxis.code : AccAxis → UInt8
  | .ACC_AXIS_X => 0x3B
  | .ACC_AXIS_Y => 0x3D
  | .ACC_AXIS_Z => 0x3F

/-- The timeout of a transfer. -/
def MPU_TIME_LIM : Nat := 100
/-- The sensor's address on the bus. -/
def MPU_ADDR : UInt8 := 0x68

/-- Register: power management 1. -/
def PWR_MGMT_1 : UInt8 := 0x6B
/-- Register: power management 2. -/
def PWR_MGMT_2 : UInt8 := 0x6C
/-- Register: the range. -/
def ACCEL_CONFIG : UInt8 := 0x1C
/-- Register: the bandwidth. -/
def ACCEL_CONFIG_2 : UInt8 := 0x1D
/-- Register: the identity. -/
def WHO_AM_I : UInt8 := 0x75

/-- Bit of `PWR_MGMT_1`: reset the device. -/
def PWR_MGMT_RESET : UInt8 := (1 : UInt8) <<< 7
/-- Bit of `PWR_MGMT_1`: sleep between two samples. -/
def PWR_MGMT_CYCLE : UInt8 := (1 : UInt8) <<< 5
/-- What the reset writes. -/
def CONFIG_PWR_MGMT_1 : UInt8 := PWR_MGMT_RESET ||| PWR_MGMT_CYCLE
/-- All axes on. -/
def CONFIG_PWR_MGMT_2 : UInt8 := 0x00
/-- Bit of `ACCEL_CONFIG_2`: the filter's choice. -/
def ACC_FCHOICE_B : UInt8 := (1 : UInt8) <<< 3
/-- Value in `ACCEL_CONFIG_2`: the filter. -/
def ACC_DLPF : UInt8 := 0x02
/-- What `mpu_init` writes to `ACCEL_CONFIG_2`. -/
def CONFIG_ACCEL_2 : UInt8 := ACC_FCHOICE_B ||| ACC_DLPF

/-! ### Floats and buffers -/

/-- The operations of C's `float` that the firmware uses. `lit` is a decimal
literal, the conversions are the C casts, and `sqrt` and `atan` include the way
to `double` and back. -/
class CFloat (F : Type) where
  lit : ℚ → F
  ofUInt16 : UInt16 → F
  toUInt32 : F → UInt32
  mul : F → F → F
  div : F → F → F
  sub : F → F → F
  sqrt : UInt32 → F
  atan : F → F

/-- Single precision. -/
instance : CFloat Float32 where
  lit q := Float32.ofInt q.num / Float32.ofNat q.den
  ofUInt16 n := n.toFloat32
  toUInt32 x := x.toUInt32
  mul x y := x * y
  div x y := x / y
  sub x y := x - y
  sqrt n := n.toFloat.sqrt.toFloat32
  atan x := x.toFloat.atan.toFloat32

/-- A byte buffer of `n` bytes. -/
abbrev Buf (n : Nat) : Type := Fin n → UInt8

/-- `memcpy` of `bs` to offset `off`. -/
def Buf.write {n : Nat} (b : Buf n) (off : Nat) (bs : List UInt8) : Buf n :=
  fun i => if off ≤ i then bs[i.val - off]?.getD (b i) else b i

/-! ### The variables, file by file -/

/-- The variables of `mpu.c`. -/
structure MpuC (F : Type) where
  txbuf : Buf 5
  rxbuf : Buf 5
  readEnable : Bool
  accScaleRef : F
  axisRowX : UInt16
  axisRowY : UInt16
  axisRowZ : UInt16
  axisX : F
  axisY : F
  axisZ : F
  axisAngX : F
  axisAngY : F

/-- The size of `strbuf`. -/
def SERIAL_BUFFER_SIZE : Nat := 6

/-- The variables of `serialcomm.c`, and the memory behind `strbuf`. -/
structure SerC (F : Type) where
  readEnable : Bool
  readOption : UInt32
  strbuf : Buf SERIAL_BUFFER_SIZE
  pastStrbuf : List UInt8
  rdCount : Int
  axisX : F
  axisY : F
  axisZ : F

/-! ### The drivers and the sensor -/

/-- The states of the I2C driver that the firmware can see. -/
inductive I2CState where
  | I2C_STOP
  | I2C_READY
  | I2C_ACTIVE_TX
  | I2C_LOCKED
  deriving DecidableEq, Repr

/-- `I2CD1`: its state, and the message of the latest transfer, with which the
waiting thread is woken. -/
structure I2CDriver where
  state : I2CState
  msg : Msg

/-- How one I2C transfer ends. After a failed one the receive buffer starts with
the bytes that had arrived, `rx`. -/
structure I2CResult where
  msg : Msg
  rx : List UInt8

/-- The thread waiting at `SD2`'s input queue: until `deadline`, or woken with a
message and not yet running again. -/
inductive QWait where
  | idle
  | waiting (deadline : Nat)
  | woken (msg : Msg)
  deriving DecidableEq, Repr

/-- `SD2` and the system time in ticks. -/
structure SerialDriver where
  started : Bool
  iqueue : List UInt8
  qWaiting : QWait
  now : Nat

/-- `cfg/halconf.h`: the size of `SD2`'s queues. -/
def SERIAL_BUFFERS_SIZE : Nat := 16

/-- `cfg/chconf.h`: system ticks per second. -/
def CH_CFG_ST_FREQUENCY : Nat := 10000

/-- Milliseconds in system ticks. -/
def TIME_MS2I (ms : Nat) : Nat := ms * CH_CFG_ST_FREQUENCY / 1000

/-! ### What a thread has done -/

/-- The functions whose calls the log records, with their arguments. -/
inductive Fn where
  | mpuAccRange (range : AccelRange)
  | mpuReadAccAxis (axis : AccAxis)
  | mpuAccUpdate
  | serialReadAccaxisDeg
  | serialReadAccaxisD
  | serialReadAccaxisG
  | serialRead
  | commadCheck (str : List UInt8)
  deriving DecidableEq

/-- The axis of a printed line. -/
inductive Axis where
  | x
  | y
  | z
  deriving DecidableEq, Repr

/-- Serial output: a fixed text, an echoed string, the "WAI" line, or one line
of a report. -/
inductive Out (F : Type) where
  | text (s : String)
  | echo (str : List UInt8)
  | wai (id : UInt8)
  | axis (a : Axis) (v : F)

/-- What one complete `mpu_acc_update` has stored. -/
structure Published (F : Type) where
  axisX : F
  axisY : F
  axisZ : F
  axisAngX : F
  axisAngY : F

/-- One entry of a thread's log. -/
inductive Obs (F : Type) where
  | began (f : Fn)
  | returned (f : Fn)
  | transfer (bytes : List UInt8) (msg : Msg)
  | published (p : Published F)
  | received (bytes : List UInt8)
  | flushed
  | printed (o : Out F)
  /-- `chMtxUnlock(m)`, when `top` was on top of the thread's stack. -/
  | unlocked (m : Mtx) (top : Option Mtx)

/-! ### The whole state -/

/-- Everything a step can change. -/
structure Sys (F : Type) where
  kern : Kernel Tid Mtx
  started : Tid → Bool
  mpu : MpuC F
  ser : SerC F
  i2c : I2CDriver
  results : Tid → Nat → I2CResult
  regs : UInt8 → UInt8
  sd2 : SerialDriver
  log : Tid → List (Obs F)

/-- The C string in a memory area: what comes before the first NUL. -/
def cstr (mem : List UInt8) : List UInt8 := mem.takeWhile (· ≠ 0)

/-- The memory from `strbuf` on. -/
def SerC.strMem {F : Type} (c : SerC F) : List UInt8 := List.ofFn c.strbuf ++ c.pastStrbuf

/-! ### Reading a log -/

namespace Obs

variable {F : Type}

/-- `f` has been called and has not returned. -/
def inside (f : Fn) : List (Obs F) → Bool
  | [] => false
  | .began g :: l => g = f || inside f l
  | .returned g :: l => g ≠ f && inside f l
  | _ :: l => inside f l

/-- The byte strings transmitted since `f` was last called, oldest first. -/
def sentSince (f : Fn) : List (Obs F) → List (List UInt8)
  | [] => []
  | .began g :: l => if g = f then [] else sentSince f l
  | .transfer bytes _ :: l => sentSince f l ++ [bytes]
  | _ :: l => sentSince f l

/-- The messages with which the transfers ended, newest first. -/
def results : List (Obs F) → List Msg
  | [] => []
  | .transfer _ msg :: l => msg :: results l
  | _ :: l => results l

/-- The strings `commad_check` was called with, newest first. -/
def handled : List (Obs F) → List (List UInt8)
  | [] => []
  | .began (.commadCheck str) :: l => str :: handled l
  | _ :: l => handled l

/-- The printed lines of reports, newest first. -/
def lines : List (Obs F) → List (Axis × F)
  | [] => []
  | .printed (.axis a v) :: l => (a, v) :: lines l
  | _ :: l => lines l

/-- How many unlocked mutexes were not on top of the thread's stack. -/
def misordered : List (Obs F) → Nat
  | [] => 0
  | .unlocked m top :: l => (if top = some m then 0 else 1) + misordered l
  | _ :: l => misordered l

end Obs

end MotionTracking
