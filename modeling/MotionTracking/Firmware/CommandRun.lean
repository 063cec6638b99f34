import MotionTracking.Firmware.Command
import MotionTracking.Threads.Sequential

/-!
# `MotionTracking.Firmware.CommandRun`: the command interpreter as a thread

The firmware from the return of `mpu_init` on, with one change: the serial thread
passes given strings to `commad_check`, one after the other, where the real one
passes on what it reads. `bootCommands` is the same from the start of `main`, and
`reaches_commandConfig` gets from there to `commandConfig`.
-/

set_option autoImplicit false

namespace MotionTracking

open Threads (Config Exec EnvStep Reaches)

variable {F : Type}

/-- `main` up to the return from `mpu_init`. -/
def startUp [CFloat F] : Prog F Unit := do
  serialInit
  serialPrint (.text "\n--------------------------------------\n\r")
  serialPrint (.text "\n--- Starting MotionTracking: V:0.1 ---\n\r")
  serialPrint (.text "\n--------------------------------------\n\r")
  mti2cInit
  mpuInit

/-- What `main` does then. -/
def launch : Prog F Unit := do
  chThdCreateStatic .serial
  serialPrint (.text "Serial thread: running\n\r")
  chThdCreateStatic .mpu
  serialPrint (.text "MPU thread: running\n\r")

/-- The setup of `main` up to the threads, and then the threads. -/
theorem setup_main [CFloat F] : setup (F := F) .main = (startUp >>= fun _ => launch) := by
  unfold startUp
  simp only [bind_assoc]
  rfl

/-- The strings, one after the other. -/
def runCommands [CFloat F] : List (List UInt8) → Prog F Unit
  | [] => return
  | str :: strs => do
      commadCheck str
      runCommands strs

/-- The firmware from `mpu_init` on, with the strings in place of what the serial
thread reads. -/
def commandConfig [CFloat F] (s : Sys F) (strs : List (List UInt8)) :
    Config (sig F) Tid (Sys F) where
  st := s
  code
    | .main => launch
    | .serial => setup .serial >>= fun _ => runCommands strs
    | .mpu => setup .mpu

/-- The loops of the other threads. The serial thread has none: it is done. -/
def commandLoop [CFloat F] : Tid → Prog F Unit
  | .serial => return
  | t => loop t

/-- The firmware from `serial_init` on, with the strings. -/
def bootCommands [CFloat F] (results : Tid → Nat → I2CResult) (regs : UInt8 → UInt8)
    (pastStrbuf : List UInt8) (strs : List (List UInt8)) : Config (sig F) Tid (Sys F) where
  st := boot results regs pastStrbuf
  code
    | .main => setup .main
    | .serial => setup .serial >>= fun _ => runCommands strs
    | .mpu => setup .mpu

/-- What `main` reaches by its start-up, the run with commands reaches. -/
theorem reaches_commandConfig [CFloat F] {results : Tid → Nat → I2CResult} {regs : UInt8 → UInt8}
    {pastStrbuf : List UInt8} {s : Sys F} {strs : List (List UInt8)}
    (hstart : Exec (machine F) .main (EnvStep (machine F)) startUp
      (boot results regs pastStrbuf) () s) :
    Reaches (machine F) commandLoop (bootCommands results regs pastStrbuf strs)
      (commandConfig s strs) := by
  have hreach : Reaches (machine F) commandLoop (bootCommands results regs pastStrbuf strs) _ :=
    Reaches.of_exec_bind hstart rfl setup_main
  have hcode : Function.update (bootCommands results regs pastStrbuf strs).code .main launch =
      (commandConfig s strs).code := by
    funext t
    cases t <;> rfl
  rwa [hcode] at hreach

end MotionTracking
