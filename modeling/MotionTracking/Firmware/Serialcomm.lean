import MotionTracking.Firmware.Mpu

/-!
# `MotionTracking.Firmware.Serialcomm`: `serialcomm.c` and `main.c`

The command language of `serialcomm.h`, `commad_check`, the serial thread, and
`main`. `loop` and `setup` are the three threads: what each runs once, and the
body of its `while (true)`.
-/

set_option autoImplicit false

namespace MotionTracking

variable {F : Type}

/-- A report is due once `rd_count` is above it. -/
def SERIAL_COUNTER_LIMIT : Int := 5

/-- The bytes of an ASCII text. -/
def ascii (cs : List Char) : List UInt8 := cs.map fun c => c.toNat.toUInt8

/-- Start reading. -/
def SER_START : List UInt8 := ascii ['c', 'm', 'd', 's', 't', 'r']
/-- Stop reading. -/
def SER_STOP : List UInt8 := ascii ['c', 'm', 'd', 's', 't', 'p']
/-- Report degrees. -/
def SER_REDG : List UInt8 := ascii ['c', 'm', 'd', 'r', 'e', 'd']
/-- Report g. -/
def SER_REGS : List UInt8 := ascii ['c', 'm', 'd', 'r', 'e', 'g']
/-- The range of 2 g. -/
def SER_R02 : List UInt8 := ascii ['c', 'm', 'd', 'r', '0', '2']
/-- The range of 4 g. -/
def SER_R04 : List UInt8 := ascii ['c', 'm', 'd', 'r', '0', '4']
/-- The range of 8 g. -/
def SER_R08 : List UInt8 := ascii ['c', 'm', 'd', 'r', '0', '8']
/-- The range of 16 g. -/
def SER_R16 : List UInt8 := ascii ['c', 'm', 'd', 'r', '1', '6']

/-- `strcmp` on two memory areas. The end of a list counts as a NUL. -/
def strcmp : List UInt8 → List UInt8 → Int
  | [], [] => 0
  | [], b :: _ => -b.toNat
  | a :: _, [] => a.toNat
  | a :: as, b :: bs => if a = b then (if a = 0 then 0 else strcmp as bs) else a.toNat - b.toNat

/-- `commandStrl` is the memory from the argument on. -/
def commadCheck [CFloat F] (commandStrl : List UInt8) : Prog F Unit :=
  call (.commadCheck commandStrl) do
    -- Start motion tracking
    if strcmp commandStrl SER_START = 0 then
      serialPrint (.text "cmd: mt start\n\r")
      serialSetControl true
      chMtxLock .serialcomm
      setSer fun _ c => { c with readEnable := true }
      chMtxUnlock .serialcomm
    -- Stop motion tracking
    else if strcmp commandStrl SER_STOP = 0 then
      serialPrint (.text "cmd: mt stop\n\r")
      serialSetControl false
      chMtxLock .serialcomm
      setSer fun _ c => { c with readEnable := false }
      chMtxUnlock .serialcomm
    -- Set accelerometer reading format to degrees
    else if strcmp commandStrl SER_REDG = 0 then
      chMtxLock .serialcomm
      setSer fun _ c => { c with readOption := 1 }
      chMtxUnlock .serialcomm
    -- Set accelerometer reading format to g's
    else if strcmp commandStrl SER_REGS = 0 then
      chMtxLock .serialcomm
      setSer fun _ c => { c with readOption := 0 }
      chMtxUnlock .serialcomm
    -- Set accelerometer range to 2g
    else if strcmp commandStrl SER_R02 = 0 then
      chMtxLock .serialcomm
      let _ ← mpuAccRange .ACCEL_RANGE_2G
      chMtxUnlock .serialcomm
    -- Set accelerometer range to 4g
    else if strcmp commandStrl SER_R04 = 0 then
      chMtxLock .serialcomm
      let _ ← mpuAccRange .ACCEL_RANGE_4G
      chMtxUnlock .serialcomm
    -- Set accelerometer range to 8g
    else if strcmp commandStrl SER_R08 = 0 then
      chMtxLock .serialcomm
      let _ ← mpuAccRange .ACCEL_RANGE_8G
      chMtxUnlock .serialcomm
    -- Set accelerometer range to 16g
    else if strcmp commandStrl SER_R16 = 0 then
      chMtxLock .serialcomm
      let _ ← mpuAccRange .ACCEL_RANGE_16G
      chMtxUnlock .serialcomm
    -- Default, unknown command
    else
      serialPrint (.text "cmd: unknown command: ")
      serialPrint (.echo (cstr commandStrl))
      serialPrint (.text "\n\r")

/-- The body of the `if` in the output section: one report. -/
def report : Prog F Unit := do
  if (← getSer).readOption = 1 then
    serialReadAccaxisD (fun v c => { c with axisX := v }) (fun v c => { c with axisY := v })
    chprintf (.axis .x (← getSer).axisX)
    chprintf (.axis .y (← getSer).axisY)
  else
    serialReadAccaxisG (fun v c => { c with axisX := v }) (fun v c => { c with axisY := v })
      (fun v c => { c with axisZ := v })
    chprintf (.axis .x (← getSer).axisX)
    chprintf (.axis .y (← getSer).axisY)
    chprintf (.axis .z (← getSer).axisZ)
  setSer fun _ c => { c with rdCount := 0 }

/-- The output section of the loop. -/
def outputSection : Prog F Unit := do
  chMtxLock .serialcomm
  let c ← getSer
  if c.readEnable && decide (c.rdCount > SERIAL_COUNTER_LIMIT) then
    report
  chMtxUnlock .serialcomm

/-- A 32-bit signed sum, as the processor computes it. -/
def wrap32 (n : Int) : Int := n.bmod 0x100000000

/-- The largest `int32_t`. -/
def INT32_MAX : Int := 2147483647

/-- A count that fits is not wrapped. -/
theorem wrap32_of_le {n : Int} (h0 : 0 ≤ n) (h1 : n ≤ INT32_MAX) : wrap32 n = n := by
  have hmax : n ≤ 2147483647 := h1
  unfold wrap32
  rw [Int.bmod_def]
  omega

/-- Only a negative number can be wrapped upwards. -/
theorem wrap32_le {n : Int} (h : -(INT32_MAX + 1) ≤ n) : wrap32 n ≤ n := by
  have hmax : INT32_MAX = 2147483647 := rfl
  rw [wrap32, Int.bmod_def]
  omega

/-- A wrapped number fits. -/
theorem wrap32_wrap32 (n : Int) : wrap32 (wrap32 n) = wrap32 n := Int.bmod_bmod

/-- Wrapping once at the end is enough. -/
theorem wrap32_wrap32_add (m n : Int) : wrap32 (wrap32 m + n) = wrap32 (m + n) :=
  Int.bmod_add_bmod

/-- The loop body of `serialcomm_thread`. -/
def serialcommThread [CFloat F] : Prog F Unit := do
  -- Process input data, only check command if read finished without error
  let sdt ← serialRead
  if sdt ≠ 0 then
    commadCheck (← getSer).strMem
  -- Flush (reset) input queu
  iqResetI
  outputSection
  setSer fun _ c => { c with rdCount := wrap32 (c.rdCount + 1) }
  chThdSleepMilliseconds 100

/-! ### The threads -/

/-- What a thread runs before its loop. For `main`, what comes after
`chSysInit`. -/
def setup [CFloat F] : Tid → Prog F Unit
  | .main => do
      serialInit
      serialPrint (.text "\n--------------------------------------\n\r")
      serialPrint (.text "\n--- Starting MotionTracking: V:0.1 ---\n\r")
      serialPrint (.text "\n--------------------------------------\n\r")
      mti2cInit
      mpuInit
      chThdCreateStatic .serial
      serialPrint (.text "Serial thread: running\n\r")
      chThdCreateStatic .mpu
      serialPrint (.text "MPU thread: running\n\r")
  | .serial => do
      chMtxObjectInit .serialcomm
      chThdSleepMilliseconds 100
  | .mpu => return

/-- The body of a thread's `while (true)`. -/
def loop [CFloat F] : Tid → Prog F Unit
  | .main => chThdSleepMilliseconds 1000
  | .serial => serialcommThread
  | .mpu => mpumThread

/-- The state after `halInit` and `chSysInit`, when `main` calls `serial_init`:
only `main` runs, the C variables have their initial values, and the bus mutex
is initialised. The driver's results, the sensor's registers and the memory
behind `strbuf` may be anything. -/
def boot [CFloat F] (results : Tid → Nat → I2CResult) (regs : UInt8 → UInt8)
    (pastStrbuf : List UInt8) : Sys F where
  kern :=
    { inited := fun m => m = .i2c
      owner := fun _ => none
      queue := fun _ => []
      next := fun _ => []
      mtxlist := fun _ => []
      wtmtx := fun _ => none }
  started t := t = .main
  mpu :=
    { txbuf := fun _ => 0, rxbuf := fun _ => 0, readEnable := true
      accScaleRef := CFloat.lit 0
      axisRowX := 0, axisRowY := 0, axisRowZ := 0
      axisX := CFloat.lit 0, axisY := CFloat.lit 0, axisZ := CFloat.lit 0
      axisAngX := CFloat.lit 0, axisAngY := CFloat.lit 0 }
  ser :=
    { readEnable := true, readOption := 0, strbuf := fun _ => 0, pastStrbuf := pastStrbuf
      rdCount := 0
      axisX := CFloat.lit 0, axisY := CFloat.lit 0, axisZ := CFloat.lit 0 }
  i2c := { state := .I2C_STOP, msg := .MSG_OK }
  results := results
  regs := regs
  sd2 := { started := false, iqueue := [], qWaiting := .idle, now := 0 }
  log _ := []

/-- The firmware at the call of `serial_init`. -/
def bootConfig [CFloat F] (results : Tid → Nat → I2CResult) (regs : UInt8 → UInt8)
    (pastStrbuf : List UInt8) : Threads.Config (sig F) Tid (Sys F) where
  st := boot results regs pastStrbuf
  code := setup

end MotionTracking
