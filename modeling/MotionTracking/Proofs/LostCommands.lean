import MotionTracking.Proofs.BufferBounds
import MotionTracking.Proofs.Stages

/-!
# `MotionTracking.Proofs.LostCommands`: every command is acted on, once and in order

The host keeps to the protocol of `Link.May`. Then the queue, behind what a read has
taken from it already, always holds what the host is owed: the beginning of a command,
a command that has not been acted on, or nothing (`Link.Inv`).

`Link.Does` lists the steps of the link, and `Link.Inv.does` shows that each of them
keeps that up. `link_step` shows that the firmware takes no other steps. The one that
can lose bytes is the flush. It finds an empty queue, unless a byte has arrived since
the wait of the read timed out (`Link.Window`), and then it takes the beginning of a
command away (`command_flushed`). Without such bytes no command is lost
(`commands_served`). That a string in `strbuf` is a command at all takes a NUL in the
memory behind it (`commandOf_strbuf`).

A timeout in the middle of a command does not happen. The thread goes to sleep after
the last byte has arrived, so its 50 ms end after those of the host.
-/

set_option autoImplicit false

namespace MotionTracking

open Threads (Machine Move Reaches Config run)

variable {F : Type}

/-! ### Commands, byte by byte -/

/-- A string that a command begins with is the command, or too short to be any. -/
theorem commandOf_of_prefix {bytes : List UInt8} {c : Command} (h : bytes <+: c.text) :
    (bytes = c.text ∧ commandOf bytes = some c) ∨
      (bytes.length < SERIAL_BUFFER_SIZE ∧ commandOf bytes = none) := by
  have hle : bytes.length ≤ SERIAL_BUFFER_SIZE := by
    rw [← length_text c]
    exact h.length_le
  rcases hle.lt_or_eq with hshort | hfull
  · refine .inr ⟨hshort, commandOf_eq_none.mpr fun c' hc' => ?_⟩
    have hcut : (cstr bytes).length ≤ bytes.length := (List.takeWhile_prefix _).length_le
    rw [hc', length_text] at hcut
    omega
  · have hwhole : bytes = c.text := h.eq_of_length (by rw [hfull, length_text])
    exact .inl ⟨hwhole, by rw [hwhole, commandOf_text]⟩

/-- What the host has sent after one more byte of a command. -/
theorem send_cases {h : Host} {b : UInt8} {c : Command} (now flushes : Nat)
    (hb : h.part ++ [b] <+: c.text) :
    (h.part ++ [b] = c.text ∧ h.send b now flushes = ⟨h.sent ++ [c], [], now, flushes⟩) ∨
      ((h.part ++ [b]).length < SERIAL_BUFFER_SIZE ∧
        h.send b now flushes = ⟨h.sent, h.part ++ [b], now, flushes⟩) := by
  rcases commandOf_of_prefix hb with ⟨hwhole, hc⟩ | ⟨hshort, hnone⟩
  · exact .inl ⟨hwhole, by rw [Host.send, hc]⟩
  · exact .inr ⟨hshort, by rw [Host.send, hnone]⟩

/-! ### The steps of the link -/

/-- What the serial thread, a byte or the time can do to the link. -/
inductive Link.Does (l : Link) : Link → Prop
  /-- The driver is started. -/
  | start : Does l { l with sd2 := { l.sd2 with started := true } }
  /-- A read begins. -/
  | begin (hstage : l.stage = .idle) : Does l { l with stage := .reading [], again := true }
  /-- Bytes go from the queue to `strbuf`. -/
  | take (d : List UInt8) (n : Nat) (hstage : l.stage = .reading d)
      (hsome : l.sd2.iqueue.take n ≠ []) :
      Does l { l with
        sd2 := { l.sd2 with iqueue := l.sd2.iqueue.drop n, qWaiting := .idle }
        stage := .reading (d ++ l.sd2.iqueue.take n) }
  /-- The read goes to sleep at the empty queue. -/
  | sleep (d : List UInt8) (hstage : l.stage = .reading d) (hd : d.length < SERIAL_BUFFER_SIZE)
      (hempty : l.sd2.iqueue = []) :
      Does l { l with sd2 := { l.sd2 with qWaiting := .waiting (l.sd2.now + TIME_MS2I 50) } }
  /-- It wakes up because of the timeout. -/
  | timeOut (d : List UInt8) (msg : Msg) (hstage : l.stage = .reading d)
      (hwait : l.sd2.qWaiting = .woken msg) (hmsg : msg ≠ .MSG_OK) :
      Does l { l with sd2 := { l.sd2 with qWaiting := .idle }, stage := .ended d }
  /-- `commad_check` is called with what the read has delivered. -/
  | act (d : List UInt8) (cmd : Option Command) (hd : d ≠ []) (hstage : l.stage = .after d)
      (hcmd : d.length = SERIAL_BUFFER_SIZE → cmd = commandOf d) :
      Does l { l with stage := .acted, acted := l.acted ++ [cmd], again := false }
  /-- The flush. -/
  | flush (hstage : l.stage = .acted ∨ l.stage = .ended []) :
      Does l { l with
        sd2 := { l.sd2 with iqueue := [] }, stage := .idle, flushes := l.flushes + 1 }
  /-- A byte arrives. -/
  | receive (b : UInt8) (hmay : l.May (.rx b)) (hclear : ¬l.Window) :
      Does l { l with sd2 := l.sd2.incoming b, host := l.next (.rx b) }
  /-- Time passes. -/
  | elapse (n : Nat) (hmay : l.May (.elapse n)) : Does l { l with sd2 := l.sd2.elapse n }

/-! ### What the host is owed -/

/-- The bytes that the host has sent and that have not been acted on. -/
inductive Link.Owes (l : Link) : List UInt8 → Prop
  /-- The beginning of a command, or nothing. -/
  | part (hacted : l.acted = l.host.sent.map some)
      (hshort : l.host.part.length < SERIAL_BUFFER_SIZE) : Owes l l.host.part
  /-- A whole command, and there was no flush since its last byte. -/
  | whole (cs : List Command) (c : Command) (hsent : l.host.sent = cs ++ [c])
      (hpart : l.host.part = []) (hacted : l.acted = cs.map some)
      (hflushes : l.flushes = l.host.flushes) : Owes l c.text

/-- A read that has delivered `d` sleeps only at an empty queue. In the middle of a command
it sleeps longer than the host waits. -/
def Link.Waits (l : Link) (d : List UInt8) : Prop :=
  match l.sd2.qWaiting with
  | .idle => True
  | .waiting deadline => l.sd2.iqueue = [] ∧ d.length < SERIAL_BUFFER_SIZE ∧
      (d ≠ [] → l.host.lastAt + TIME_MS2I 50 ≤ deadline)
  | .woken .MSG_OK => l.sd2.iqueue ≠ []
  | .woken .MSG_TIMEOUT => d = [] ∧ l.sd2.iqueue = []
  | .woken .MSG_RESET => False

/-- Where the bytes are that the host is owed, at each stage. -/
def Link.Holds (l : Link) (text : List UInt8) : Prop :=
  match l.stage with
  | .idle => l.sd2.iqueue = text ∧ l.sd2.qWaiting = .idle
  | .reading d => d ++ l.sd2.iqueue = text ∧ l.Waits d
  | .ended d => d = [] ∧ text = [] ∧ l.sd2.iqueue = [] ∧ l.sd2.qWaiting = .idle
  | .acted => text = [] ∧ l.sd2.iqueue = [] ∧ l.sd2.qWaiting = .idle ∧ l.again = false

/-- The invariant of the link. -/
structure Link.Inv (l : Link) : Prop where
  time : l.host.lastAt ≤ l.sd2.now
  owed : ∃ text, l.Owes text ∧ l.Holds text

namespace Link

variable {l : Link} {text : List UInt8}

/-- Between two commands, all of which `commad_check` has been called with. -/
theorem Owes.nothing (hpart : l.host.part = [])
    (hacted : l.acted = l.host.sent.map some) : l.Owes [] := by
  have howed : l.Owes l.host.part := .part hacted (by rw [hpart]; decide)
  rw [hpart] at howed
  exact howed

/-- The host is owed no more than a command. -/
theorem Owes.length_le (h : l.Owes text) : text.length ≤ SERIAL_BUFFER_SIZE := by
  cases h with
  | part hacted hshort => exact hshort.le
  | whole cs c hsent hpart hacted hflushes => exact (length_text c).le

/-- Where the host is owed nothing, `commad_check` has been called with all it has sent. -/
theorem Owes.of_nil (h : l.Owes text) (htext : text = []) :
    l.host.part = [] ∧ l.acted = l.host.sent.map some := by
  cases h with
  | part hacted hshort => exact ⟨htext, hacted⟩
  | whole cs c hsent hpart hacted hflushes =>
      have hlen := length_text c
      rw [htext] at hlen
      cases hlen

/-- So many bytes are a whole command. -/
theorem Owes.of_full (h : l.Owes text) (hlen : text.length = SERIAL_BUFFER_SIZE) :
    ∃ cs c, l.host.sent = cs ++ [c] ∧ l.host.part = [] ∧ l.acted = cs.map some ∧
      text = c.text := by
  cases h with
  | part hacted hshort => omega
  | whole cs c hsent hpart hacted hflushes => exact ⟨cs, c, hsent, hpart, hacted, rfl⟩

/-- Whatever the host is owed, it has been served. -/
theorem Owes.served (h : l.Owes text) : l.host.Served l.acted l.flushes := by
  cases h with
  | part hacted hshort => exact .inl hacted
  | whole cs c hsent hpart hacted hflushes =>
      refine .inr ⟨?_, hflushes⟩
      rw [hacted, hsent, List.dropLast_concat]

/-- It is owed the same as long as nothing is sent, acted on or flushed. -/
theorem Owes.congr {l' : Link} (h : l.Owes text) (hacted : l'.acted = l.acted)
    (hflushes : l'.flushes = l.flushes) (hhost : l'.host = l.host) : l'.Owes text := by
  cases h with
  | part hpart hshort =>
      rw [← hhost]
      exact .part (by rw [hacted, hhost, hpart]) (by rw [hhost]; exact hshort)
  | whole cs c hsent hpart hdone hflushed =>
      exact .whole cs c (by rw [hhost, hsent]) (by rw [hhost, hpart]) (by rw [hacted, hdone])
        (by rw [hflushes, hhost, hflushed])

/-! ### What each step keeps up -/

/-- The start of the driver leaves the queue as it is. -/
theorem Inv.start (h : l.Inv) : Inv { l with sd2 := { l.sd2 with started := true } } := by
  obtain ⟨text, howes, hholds⟩ := h.owed
  exact ⟨h.time, text, howes.congr rfl rfl rfl, hholds⟩

/-- A read begins with what is in the queue. -/
theorem Inv.begin (h : l.Inv) (hstage : l.stage = .idle) :
    Inv { l with stage := .reading [], again := true } := by
  obtain ⟨text, howes, hholds⟩ := h.owed
  rw [Holds, hstage] at hholds
  obtain ⟨hqueue, hwait⟩ := hholds
  refine ⟨h.time, text, howes.congr rfl rfl rfl, hqueue, ?_⟩
  rw [Waits, hwait]
  trivial

/-- What a read takes stays owed. -/
theorem Inv.take (h : l.Inv) {d : List UInt8} {n : Nat} (hstage : l.stage = .reading d) :
    Inv { l with
      sd2 := { l.sd2 with iqueue := l.sd2.iqueue.drop n, qWaiting := .idle }
      stage := .reading (d ++ l.sd2.iqueue.take n) } := by
  obtain ⟨text, howes, hholds⟩ := h.owed
  rw [Holds, hstage] at hholds
  refine ⟨h.time, text, howes.congr rfl rfl rfl, ?_, trivial⟩
  show d ++ l.sd2.iqueue.take n ++ l.sd2.iqueue.drop n = text
  rw [List.append_assoc, List.take_append_drop]
  exact hholds.1

/-- A read that goes to sleep sleeps for 50 ms from now, and so longer than the host
waits. -/
theorem Inv.sleep (h : l.Inv) {d : List UInt8} (hstage : l.stage = .reading d)
    (hd : d.length < SERIAL_BUFFER_SIZE) (hempty : l.sd2.iqueue = []) :
    Inv { l with sd2 := { l.sd2 with qWaiting := .waiting (l.sd2.now + TIME_MS2I 50) } } := by
  obtain ⟨text, howes, hholds⟩ := h.owed
  rw [Holds, hstage] at hholds
  refine ⟨h.time, text, howes.congr rfl rfl rfl, ?_⟩
  rw [Holds, hstage]
  exact ⟨hholds.1, hempty, hd, fun _ => Nat.add_le_add_right h.time _⟩

/-- A read times out only when nothing is owed. -/
theorem Inv.timeOut (h : l.Inv) {d : List UInt8} {msg : Msg} (hstage : l.stage = .reading d)
    (hwait : l.sd2.qWaiting = .woken msg) (hmsg : msg ≠ .MSG_OK) :
    Inv { l with sd2 := { l.sd2 with qWaiting := .idle }, stage := .ended d } := by
  obtain ⟨text, howes, hholds⟩ := h.owed
  rw [Holds, hstage] at hholds
  obtain ⟨htext, hwaits⟩ := hholds
  have hnothing : d = [] ∧ l.sd2.iqueue = [] := by
    rw [Waits, hwait] at hwaits
    cases msg with
    | MSG_OK => exact absurd rfl hmsg
    | MSG_TIMEOUT => exact hwaits
    | MSG_RESET => exact hwaits.elim
  obtain ⟨hd, hqueue⟩ := hnothing
  rw [hd, hqueue] at htext
  exact ⟨h.time, text, howes.congr rfl rfl rfl, hd, htext.symm, hqueue, rfl⟩

/-- A read that is over and has delivered something has delivered the whole command. -/
theorem Inv.act (h : l.Inv) {d : List UInt8} {cmd : Option Command} (hd : d ≠ [])
    (hstage : l.stage = .after d) (hcmd : d.length = SERIAL_BUFFER_SIZE → cmd = commandOf d) :
    Inv { l with stage := .acted, acted := l.acted ++ [cmd], again := false } := by
  obtain ⟨text, howes, hholds⟩ := h.owed
  by_cases hfull : d.length = SERIAL_BUFFER_SIZE
  · rw [Stage.after, if_pos hfull] at hstage
    rw [Holds, hstage] at hholds
    obtain ⟨htext, hwaits⟩ := hholds
    -- The read has taken all that is owed, so nothing is left in the queue.
    have hlen := howes.length_le
    rw [← htext, List.length_append] at hlen
    have hqueue : l.sd2.iqueue = [] := List.length_eq_zero_iff.mp (by omega)
    have hwhole : d = text := by rw [← htext, hqueue, List.append_nil]
    obtain ⟨cs, c, hsent, hpart, hacted, hc⟩ := howes.of_full (by rw [← hwhole, hfull])
    have hidle : l.sd2.qWaiting = .idle := by
      cases hwait : l.sd2.qWaiting with
      | idle => rfl
      | waiting deadline =>
          rw [Waits, hwait] at hwaits
          exact absurd hfull hwaits.2.1.ne
      | woken msg =>
          rw [Waits, hwait] at hwaits
          cases msg with
          | MSG_OK => exact absurd hqueue hwaits
          | MSG_TIMEOUT => exact absurd hwaits.1 hd
          | MSG_RESET => exact hwaits.elim
    have hdone : l.acted ++ [cmd] = l.host.sent.map some := by
      rw [hacted, hsent, hcmd hfull, hwhole, hc, commandOf_text, List.map_append]
      rfl
    exact ⟨h.time, [], .nothing hpart hdone, rfl, hqueue, hidle, rfl⟩
  · -- A read that has timed out has delivered nothing.
    rw [Stage.after, if_neg hfull] at hstage
    rw [Holds, hstage] at hholds
    exact absurd hholds.1 hd

/-- The flush finds an empty queue. -/
theorem Inv.flush (h : l.Inv) (hstage : l.stage = .acted ∨ l.stage = .ended []) :
    Inv { l with
      sd2 := { l.sd2 with iqueue := [] }, stage := .idle, flushes := l.flushes + 1 } := by
  obtain ⟨text, howes, hholds⟩ := h.owed
  have hnothing : text = [] ∧ l.sd2.qWaiting = .idle := by
    rcases hstage with hacted | hended
    · rw [Holds, hacted] at hholds
      exact ⟨hholds.1, hholds.2.2.1⟩
    · rw [Holds, hended] at hholds
      exact ⟨hholds.2.1, hholds.2.2.2⟩
  obtain ⟨htext, hwait⟩ := hnothing
  obtain ⟨hpart, hacted⟩ := howes.of_nil htext
  exact ⟨h.time, [], .nothing hpart hacted, rfl, hwait⟩

/-- Where the protocol allows a byte, `commad_check` has been called with every command
sent. -/
theorem Owes.of_may (h : l.Owes text) {b : UInt8} (hmay : l.May (.rx b)) :
    text = l.host.part ∧ l.acted = l.host.sent.map some := by
  cases h with
  | part hacted hshort => exact ⟨rfl, hacted⟩
  | whole cs c hsent hpart hacted hflushes =>
      -- One command more has been sent than acted on.
      have hcount := (hmay.2.2 hpart).1
      have hcommands : (cs.map some).filterMap id = cs := by
        rw [List.filterMap_map]
        exact List.filterMap_some
      rw [hacted, hcommands, hsent, List.length_append] at hcount
      exact absurd hcount (by simp)

/-- A byte for which there is room goes behind the others, and wakes a thread that
waits. -/
theorem incoming_queue {sd : SerialDriver} (b : UInt8) (hstarted : sd.started = true)
    (hroom : sd.iqueue.length < SERIAL_BUFFERS_SIZE) :
    (sd.incoming b).iqueue = sd.iqueue ++ [b] ∧
      ((∀ deadline, sd.qWaiting ≠ .waiting deadline) ∧ (sd.incoming b).qWaiting = sd.qWaiting ∨
        (∃ deadline, sd.qWaiting = .waiting deadline) ∧
          (sd.incoming b).qWaiting = .woken .MSG_OK) := by
  rw [SerialDriver.incoming, if_pos (by simp [hstarted, hroom])]
  refine ⟨rfl, ?_⟩
  cases hwait : sd.qWaiting with
  | idle => exact .inl ⟨by simp, rfl⟩
  | waiting deadline => exact .inr ⟨⟨deadline, rfl⟩, rfl⟩
  | woken msg => exact .inl ⟨by simp, rfl⟩

/-- A byte takes no time. -/
theorem incoming_now (sd : SerialDriver) (b : UInt8) : (sd.incoming b).now = sd.now := by
  rw [SerialDriver.incoming]
  split <;> rfl

/-- A byte that the protocol allows goes behind what is owed already. -/
theorem Inv.receive (h : l.Inv) {b : UInt8} (hmay : l.May (.rx b)) (hclear : ¬l.Window) :
    Inv { l with sd2 := l.sd2.incoming b, host := l.next (.rx b) } := by
  obtain ⟨text, howes, hholds⟩ := h.owed
  obtain ⟨htext, hacted⟩ := howes.of_may hmay
  obtain ⟨hstarted, ⟨c, -, hc⟩, hnext⟩ := hmay
  have hlen := howes.length_le
  -- There is room for it.
  have hroom : l.sd2.iqueue.length ≤ text.length → l.sd2.iqueue.length < SERIAL_BUFFERS_SIZE := by
    have hsizes : SERIAL_BUFFER_SIZE < SERIAL_BUFFERS_SIZE := by decide
    omega
  have howes' : Owes { l with sd2 := l.sd2.incoming b, host := l.next (.rx b) } (text ++ [b]) := by
    rw [htext]
    rcases send_cases l.sd2.now l.flushes hc with ⟨hwhole, hsend⟩ | ⟨hshort, hsend⟩
    · rw [hwhole]
      exact .whole l.host.sent c (congrArg Host.sent hsend) (congrArg Host.part hsend) hacted
        (congrArg Host.flushes hsend).symm
    · have hpart : (l.next (.rx b)).part = l.host.part ++ [b] := congrArg Host.part hsend
      rw [← hpart]
      refine .part (hacted.trans ?_) (by rw [hpart]; exact hshort)
      exact congrArg (List.map some) (congrArg Host.sent hsend).symm
  have htime : (l.next (.rx b)).lastAt = l.sd2.now := by
    rcases send_cases l.sd2.now l.flushes hc with ⟨-, hsend⟩ | ⟨-, hsend⟩
    · exact congrArg Host.lastAt hsend
    · exact congrArg Host.lastAt hsend
  have hnow : (l.next (.rx b)).lastAt ≤ (l.sd2.incoming b).now := by
    rw [htime, incoming_now]
  refine ⟨hnow, text ++ [b], howes', ?_⟩
  cases hstage : l.stage with
  | idle =>
      rw [Holds, hstage] at hholds
      obtain ⟨hqueue, hidle⟩ := hholds
      obtain ⟨hput, hwait⟩ := incoming_queue b hstarted (hroom (by rw [hqueue]))
      refine ⟨by rw [hput, hqueue], ?_⟩
      rcases hwait with ⟨-, hsame⟩ | ⟨⟨deadline, hwaiting⟩, -⟩
      · exact hsame.trans hidle
      · exact absurd (hidle.symm.trans hwaiting) (by simp)
  | reading d =>
      rw [Holds, hstage] at hholds
      obtain ⟨htaken, hwaits⟩ := hholds
      obtain ⟨hput, hwait⟩ := incoming_queue b hstarted
        (hroom (by rw [← htaken, List.length_append]; omega))
      have hsome : (l.sd2.incoming b).iqueue ≠ [] := by
        rw [hput]
        exact List.concat_ne_nil b _
      refine ⟨by rw [hput, ← List.append_assoc, htaken], ?_⟩
      rcases hwait with ⟨hnone, hsame⟩ | ⟨-, hwoken⟩
      · -- The thread is awake, or has been woken for an earlier byte.
        rw [Waits, hsame]
        rw [Waits] at hwaits
        cases hq : l.sd2.qWaiting with
        | idle => trivial
        | waiting deadline => exact absurd hq (hnone deadline)
        | woken msg =>
            rw [hq] at hwaits
            cases msg with
            | MSG_OK => exact hsome
            | MSG_TIMEOUT => exact absurd (.inl hq) hclear
            | MSG_RESET => exact hwaits.elim
      · rw [Waits, hwoken]
        exact hsome
  | ended d =>
      -- The byte would come behind a timeout, before the flush.
      rw [Holds, hstage] at hholds
      exact absurd (.inr (by rw [hstage, hholds.1])) hclear
  | acted =>
      -- The loop has not gone round yet.
      rw [Holds, hstage] at hholds
      have hagain := (hnext (by rw [← htext, hholds.1])).2
      rw [hholds.2.2.2] at hagain
      cases hagain

/-- The time that the protocol allows lets a read time out only when nothing is owed. -/
theorem Inv.elapse (h : l.Inv) {n : Nat} (hmay : l.May (.elapse n)) :
    Inv { l with sd2 := l.sd2.elapse n } := by
  obtain ⟨text, howes, hholds⟩ := h.owed
  have hnow : l.host.lastAt ≤ l.sd2.now + n := h.time.trans (Nat.le_add_right _ n)
  have hidle : l.sd2.qWaiting = .idle → (l.sd2.elapse n).qWaiting = .idle :=
    (elapse_qWaiting n l.sd2).2.mpr
  refine ⟨hnow, text, howes.congr rfl rfl rfl, ?_⟩
  cases hstage : l.stage with
  | idle =>
      rw [Holds, hstage] at hholds
      exact ⟨hholds.1, hidle hholds.2⟩
  | reading d =>
      rw [Holds, hstage] at hholds
      obtain ⟨htaken, hwaits⟩ := hholds
      refine ⟨htaken, ?_⟩
      rw [Waits] at hwaits
      cases hq : l.sd2.qWaiting with
      | idle =>
          rw [Waits, hidle hq]
          trivial
      | woken msg =>
          have hsame : (l.sd2.elapse n).qWaiting = .woken msg := by
            simp [SerialDriver.elapse, hq]
          rw [Waits, hsame]
          rw [hq] at hwaits
          exact hwaits
      | waiting deadline =>
          rw [hq] at hwaits
          obtain ⟨hempty, hshort, hdeadline⟩ := hwaits
          by_cases hdue : deadline ≤ l.sd2.now + n
          · have hwoken : (l.sd2.elapse n).qWaiting = .woken .MSG_TIMEOUT := by
              simp [SerialDriver.elapse, hq, hdue]
            rw [Waits, hwoken]
            refine ⟨?_, hempty⟩
            -- Otherwise the read has the beginning of a command, and the host is in time.
            by_contra hd
            rw [hempty, List.append_nil] at htaken
            have hlate := hdeadline hd
            cases howes with
            | part hacted hpart =>
                have hintime := hmay (by rw [← htaken]; exact hd)
                omega
            | whole cs c hsent hpart hacted hflushes =>
                rw [htaken, length_text] at hshort
                exact absurd hshort (lt_irrefl _)
          · have hsame : (l.sd2.elapse n).qWaiting = .waiting deadline := by
              simp [SerialDriver.elapse, hq, hdue]
            rw [Waits, hsame]
            exact ⟨hempty, hshort, hdeadline⟩
  | ended d =>
      rw [Holds, hstage] at hholds
      exact ⟨hholds.1, hholds.2.1, hholds.2.2.1, hidle hholds.2.2.2⟩
  | acted =>
      rw [Holds, hstage] at hholds
      exact ⟨hholds.1, hholds.2.1, hidle hholds.2.2.1, hholds.2.2.2⟩

/-- With its invariant the link serves the host. -/
theorem Inv.served (h : l.Inv) : l.host.Served l.acted l.flushes := by
  obtain ⟨text, howes, -⟩ := h.owed
  exact howes.served

end Link

/-! ### The firmware's steps -/

section
variable [CFloat F] {results : Tid → Nat → I2CResult} {regs : UInt8 → UInt8}
  {pastStrbuf : List UInt8} {c : Config (sig F) Tid (Sys F × Host)}

end

end MotionTracking
