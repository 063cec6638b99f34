import MotionTracking.Firmware.Drivers

/-!
# `MotionTracking.Firmware.Mpu`: `mpu.c`

The functions of `mpu.c`, in the order in which they call each other. One
action is one C statement that touches a static variable. Local variables are
Lean's. An out-parameter is the function that stores to it.
-/

set_option autoImplicit false

namespace MotionTracking

variable {F : Type}

/-- `ACC_Z_CENTER`. -/
def ACC_Z_CENTER [CFloat F] : F := CFloat.lit 1

/-- The scale factor of a range: its magnitude over `32767.5`. -/
def accScale [CFloat F] : AccelRange → F
  | .ACCEL_RANGE_2G => CFloat.div (CFloat.lit 2) (CFloat.lit 32767.5)
  | .ACCEL_RANGE_4G => CFloat.div (CFloat.lit 4) (CFloat.lit 32767.5)
  | .ACCEL_RANGE_8G => CFloat.div (CFloat.lit 8) (CFloat.lit 32767.5)
  | .ACCEL_RANGE_16G => CFloat.div (CFloat.lit 16) (CFloat.lit 32767.5)

/-- `static AccelRange accRange`, which nothing assigns. -/
def accRange : AccelRange := .ACCEL_RANGE_16G

/-- One byte of the transmit buffer. -/
def setTxbuf (i : Fin 5) (b : UInt8) : Prog F Unit :=
  setMpu fun c => { c with txbuf := Function.update c.txbuf i b }

/-- The device is reset through the power management register. -/
def mpuReset : Prog F Unit := do
  setTxbuf 0 PWR_MGMT_1
  setTxbuf 1 CONFIG_PWR_MGMT_1
  let _ ← i2c1Transmit MPU_ADDR 2 0 MPU_TIME_LIM

/-- The identity register is read, and printed. -/
def mpuWhoAmI : Prog F Unit := do
  setTxbuf 0 WHO_AM_I
  let res ← i2c1Transmit MPU_ADDR 1 1 MPU_TIME_LIM
  if res = .MSG_OK then
    let c ← getMpu
    chprintf (.wai (c.rxbuf 0))
  else
    serialPrint (.text "WAI: Error: I2C\n\r")

/-- `store` is the assignment `*axis_val = …`. -/
def mpuReadAccAxis (axisSelect : AccAxis) (store : UInt16 → MpuC F → MpuC F) : Prog F Msg :=
  call (.mpuReadAccAxis axisSelect) do
    -- Read top byte
    setTxbuf 0 axisSelect.code
    let res ← i2c1Transmit MPU_ADDR 1 1 MPU_TIME_LIM
    if res ≠ .MSG_OK then
      return res
    let valH := (← getMpu).rxbuf 0
    -- Read lower byte
    setMpu fun c => { c with txbuf := Function.update c.txbuf 0 (c.txbuf 0 + 1) }
    let res ← i2c1Transmit MPU_ADDR 1 2 MPU_TIME_LIM
    if res ≠ .MSG_OK then
      return res
    let valL := (← getMpu).rxbuf 1
    -- Combine upper and lower bytes
    setMpu (store ((valH.toUInt16 <<< 8) ||| valL.toUInt16))
    return .MSG_OK

/-- All three axes are read, and what depends on them is computed. The three messages are
joined by a bitwise and. -/
def mpuAccUpdate [CFloat F] : Prog F Bool :=
  call .mpuAccUpdate do
    -- Read row axis data
    let res0 ← mpuReadAccAxis .ACC_AXIS_X fun v c => { c with axisRowX := v }
    let res1 ← mpuReadAccAxis .ACC_AXIS_Y fun v c => { c with axisRowY := v }
    let res2 ← mpuReadAccAxis .ACC_AXIS_Z fun v c => { c with axisRowZ := v }
    if res0.code &&& res1.code &&& res2.code ≠ Msg.MSG_OK.code then
      return false
    -- Convert row to g's
    setMpu fun c => { c with axisX := CFloat.mul (CFloat.ofUInt16 c.axisRowX) c.accScaleRef }
    setMpu fun c => { c with axisY := CFloat.mul (CFloat.ofUInt16 c.axisRowY) c.accScaleRef }
    setMpu fun c => { c with axisZ := CFloat.mul (CFloat.ofUInt16 c.axisRowZ) c.accScaleRef }
    setMpu fun c => { c with axisZ := CFloat.sub c.axisZ ACC_Z_CENTER }
    -- calculate square
    let c ← getMpu
    let x2 := CFloat.toUInt32 (CFloat.mul c.axisX c.axisX)
    let y2 := CFloat.toUInt32 (CFloat.mul c.axisY c.axisY)
    let z2 := CFloat.toUInt32 (CFloat.mul c.axisZ c.axisZ)
    -- x-axis
    let results := CFloat.sqrt (y2 + z2)
    let results := CFloat.div (← getMpu).axisX results
    setMpu fun c => { c with axisAngX := CFloat.atan results }
    -- Y-axis
    let results := CFloat.sqrt (x2 + z2)
    let results := CFloat.div (← getMpu).axisY results
    setMpu fun c => { c with axisAngY := CFloat.atan results }
    note fun c => .published ⟨c.axisX, c.axisY, c.axisZ, c.axisAngX, c.axisAngY⟩
    return true

/-- The scale is assigned before the transfer. A failed transfer returns with the mutex
locked. -/
def mpuAccRange [CFloat F] (range : AccelRange) : Prog F Bool :=
  call (.mpuAccRange range) do
    setTxbuf 0 ACCEL_CONFIG
    setTxbuf 1 range.code
    chMtxLock .mpu
    setMpu fun c => { c with accScaleRef := accScale range }
    let res ← i2c1Transmit MPU_ADDR 2 0 MPU_TIME_LIM
    -- This return leaves `qmtx` locked.
    if res ≠ .MSG_OK then
      return false
    chMtxUnlock .mpu
    return true

/-- The mutex of `mpu.c`, the reset, the power management, the bandwidth, the range, and
the identity. -/
def mpuInit [CFloat F] : Prog F Unit := do
  chMtxObjectInit .mpu
  -- reset sensor
  mpuReset
  -- activate accelerometer and gyro
  setTxbuf 0 PWR_MGMT_2
  setTxbuf 1 CONFIG_PWR_MGMT_2
  let res ← i2c1Transmit MPU_ADDR 2 0 MPU_TIME_LIM
  if res = .MSG_OK then
    serialPrint (.text "Activate acc and gyro: OK\n\r")
  else
    serialPrint (.text "Activate acc and gyro: Failed\n\r")
  -- set accelerometer bandwidth
  setTxbuf 0 ACCEL_CONFIG_2
  setTxbuf 1 CONFIG_ACCEL_2
  let res ← i2c1Transmit MPU_ADDR 2 0 MPU_TIME_LIM
  if res = .MSG_OK then
    serialPrint (.text "Acc frequency set: OK\n\r")
  else
    serialPrint (.text "Acc frequency set: Failed\n\r")
  -- Set accelerometr range
  if ← mpuAccRange accRange then
    serialPrint (.text "Acc renge set: OK\n\r")
  else
    serialPrint (.text "Acc renge set: FailedS\n\r")
  mpuWhoAmI

/-- The loop body of `mpum_thread`. -/
def mpumThread [CFloat F] : Prog F Unit := do
  chMtxLock .mpu
  if (← getMpu).readEnable then
    let _ ← mpuAccUpdate
  chMtxUnlock .mpu
  chThdSleepMilliseconds 500

/-! ### Serial commands -/

/-- The control variable is assigned under the mutex. -/
def serialSetControl (set : Bool) : Prog F Unit := do
  chMtxLock .mpu
  if set then
    setMpu fun c => { c with readEnable := true }
  else
    setMpu fun c => { c with readEnable := false }
  chMtxUnlock .mpu

/-- `x` and `y` store to `*x` and `*y`. -/
def serialReadAccaxisDeg (x y : F → SerC F → SerC F) : Prog F Unit :=
  call .serialReadAccaxisDeg do
    chMtxLock .mpu
    setSer fun c => x c.axisAngX
    setSer fun c => y c.axisAngY
    chMtxUnlock .mpu

/-- The axes are copied under the mutex. -/
def serialReadAccaxisD (x y : F → SerC F → SerC F) : Prog F Unit :=
  call .serialReadAccaxisD do
    chMtxLock .mpu
    setSer fun c => x c.axisX
    setSer fun c => y c.axisY
    chMtxUnlock .mpu

/-- The axes are copied without the mutex. -/
def serialReadAccaxisG (x y z : F → SerC F → SerC F) : Prog F Unit :=
  call .serialReadAccaxisG do
    setSer fun c => x c.axisX
    setSer fun c => y c.axisY
    setSer fun c => z c.axisZ

end MotionTracking
