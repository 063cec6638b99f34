import MotionTracking.Firmware.Command

/-!
# `MotionTracking.Firmware.Host`: the host at the other end of the line

The machine leaves it open which bytes arrive, and when. A host that keeps to a
protocol sends the commands of `serialcomm.h` and nothing else, one byte after the
other in less than the 50 ms for which `serial_read` waits, and begins a command when
the one before has been acted on and the loop has gone round since (`Link.May`).

`Link` is what the two ends have to do with each other: the serial driver, how far the
serial thread is with its input (`stage`), what `commad_check` has acted on, and what
the host has sent. `hostedMachine` is the firmware's machine beside such a host.
The host takes no part in what the threads do, so its runs are runs of the firmware.

`serialcomm_thread` flushes the queue after every read, also after one that has timed
out with nothing. What arrives between that timeout and the flush is lost. In
`clearMachine` nothing does.
-/

set_option autoImplicit false

namespace MotionTracking

open Threads (Machine Config)

variable {F : Type}

/-! ### How far an iteration is with its input -/

/-- The stages of an iteration's input. -/
inductive Stage where
  | idle
  | reading (d : List UInt8)
  /-- The wait for a byte has timed out, when `d` was read. -/
  | ended (d : List UInt8)
  | acted
  deriving DecidableEq

/-- Bytes, or none after a timeout, on the way from the queue to `strbuf`. -/
def Stage.receive (bytes : List UInt8) : Stage → Stage
  | .reading d => if bytes = [] then .ended d else .reading (d ++ bytes)
  | st => st

/-- One entry of the log. -/
def Stage.entry (st : Stage) : Obs F → Stage
  | .began .serialRead => .reading []
  | .received bytes => st.receive bytes
  | .began (.commadCheck _) => .acted
  | .flushed => .idle
  | _ => st

/-- The stage after the entries of a log. -/
def stage : List (Obs F) → Stage
  | [] => .idle
  | ev :: l => (stage l).entry ev

namespace Obs

/-- What each call of `commad_check` has acted on, oldest first: a command, or nothing. -/
def acted (l : List (Obs F)) : List (Option Command) := (handled l).reverse.map commandOf

/-- A read has begun since the last call of `commad_check`. -/
def again : List (Obs F) → Bool
  | [] => true
  | .began .serialRead :: _ => true
  | .began (.commadCheck _) :: _ => false
  | _ :: l => again l

/-- How often the queue has been flushed. -/
def flushes : List (Obs F) → Nat
  | [] => 0
  | .flushed :: l => flushes l + 1
  | _ :: l => flushes l

end Obs

/-! ### The host -/

/-- What the host has sent. -/
structure Host where
  /-- The commands that it has sent whole, oldest first. -/
  sent : List Command
  /-- The beginning of the next one. -/
  part : List UInt8
  /-- When its last byte arrived. -/
  lastAt : Nat
  /-- How often the queue had been flushed then. -/
  flushes : Nat
  deriving DecidableEq

/-- A host that has not sent anything. -/
def Host.silent : Host := ⟨[], [], 0, 0⟩

/-- One more byte, which may be the last one of its command. -/
def Host.send (b : UInt8) (now flushes : Nat) (h : Host) : Host :=
  let bytes := h.part ++ [b]
  match commandOf bytes with
  | some c => { sent := h.sent ++ [c], part := [], lastAt := now, flushes := flushes }
  | none => { h with part := bytes, lastAt := now, flushes := flushes }

/-- Each command sent has been acted on, once and in order, and nothing else has been. The
last one may still be to come, as long as the queue has not been flushed since its last
byte. -/
def Host.Served (acted : List (Option Command)) (flushes : Nat) (h : Host) : Prop :=
  acted = h.sent.map some ∨ acted = h.sent.dropLast.map some ∧ flushes = h.flushes

/-- Both are equations. -/
instance (acted : List (Option Command)) (flushes : Nat) (h : Host) :
    Decidable (h.Served acted flushes) := inferInstanceAs (Decidable (_ ∨ _))

/-- The two ends of the line. -/
structure Link where
  sd2 : SerialDriver
  stage : Stage
  acted : List (Option Command)
  again : Bool
  flushes : Nat
  host : Host

/-- All commands. -/
def Command.all : List Command :=
  [.start, .stop, .redg, .regs, .range .ACCEL_RANGE_2G, .range .ACCEL_RANGE_4G,
    .range .ACCEL_RANGE_8G, .range .ACCEL_RANGE_16G]

/-- The protocol, once the driver is started. A byte goes on with a command, or begins one
when as many commands have been acted on as were sent and the loop has gone round. In the
middle of a command no 50 ms pass without a byte. -/
def Link.May (l : Link) : EnvMove → Prop
  | .rx b => l.sd2.started = true ∧ (∃ c ∈ Command.all, l.host.part ++ [b] <+: c.text) ∧
      (l.host.part = [] →
        l.host.sent.length ≤ (l.acted.filterMap id).length ∧ l.again = true)
  | .elapse n => l.host.part ≠ [] → l.sd2.now + n < l.host.lastAt + TIME_MS2I 50
  | .sample _ => True

/-- All of it can be tested. -/
instance (l : Link) : (e : EnvMove) → Decidable (l.May e)
  | .rx _ => inferInstanceAs (Decidable (_ ∧ _ ∧ _))
  | .elapse _ => inferInstanceAs (Decidable (_ → _))
  | .sample _ => inferInstanceAs (Decidable True)

/-- What the host has sent after a move. -/
def Link.next (l : Link) : EnvMove → Host
  | .rx b => l.host.send b l.sd2.now l.flushes
  | _ => l.host

/-- The wait of a read has timed out, and the flush behind the read is still to come. -/
def Link.Window (l : Link) : Prop := l.sd2.qWaiting = .woken .MSG_TIMEOUT ∨ l.stage = .ended []

/-- Both are equations. -/
instance (l : Link) : Decidable l.Window := inferInstanceAs (Decidable (_ ∨ _))

/-! ### The firmware beside a host -/

/-- No byte arrives between a timeout and the flush that follows it. -/
def Link.Clear (l : Link) : EnvMove → Prop
  | .rx _ => ¬l.Window
  | _ => True

/-- The window can be tested. -/
instance (l : Link) : (e : EnvMove) → Decidable (l.Clear e)
  | .rx _ => inferInstanceAs (Decidable (¬_))
  | .elapse _ => inferInstanceAs (Decidable True)
  | .sample _ => inferInstanceAs (Decidable True)

end MotionTracking
