import MotionTracking.ChibiOS.OutputQueue
import MotionTracking.Firmware.State

/-!
# `MotionTracking.Firmware.SerialOut`: the transmit side of `SD2`

In the system model an output is one action. Here it is what the HAL makes of it:
the bytes go through the output queue of `SD2`, one or several at a time, and the
transmit interrupt takes them out. The threads `T` may call `oqPutTimeout`, which
`chprintf` does for every character, and `oqWriteTimeout`, which is `sdWrite`, at
any time and with any arguments.

One move is what runs under the kernel lock, or in the interrupt:

* `call`: a thread enters one of the two functions.
* `run`: the thread runs up to the next point where it releases the lock or
  sleeps. A thread that finds the queue full waits in `q_waiting`, first in,
  first out.
* `expire`: the timeout of a waiting thread fires.
* `interrupt`: one round of `sd_lld_serve_interrupt` (`USARTv2`), as far as it sends,
  and the end of it. The handler works with the control register as it was at its
  start, and writes that back less the bit to clear. Between two rounds it releases
  the lock, and a timeout may fire. The whole handler is a sequence of such rounds
  (`serveInterrupt_rounds`), with as many bytes as the transmitter takes.

`sent` is what the interrupt wrote to the data register. `accepted` and `returned`
record which thread put which byte, and what its calls returned. Nothing in the
code reads them.

`Does` says once what a move can do, and `step_does` that it does no more.
-/

set_option autoImplicit false

namespace MotionTracking

open ChibiOS (OutputQueue)

/-- `sysinterval_t`. -/
abbrev SysInterval : Type := BitVec 32

/-- The call does not wait. -/
def TIME_IMMEDIATE : SysInterval := 0

/-- The call waits as long as it takes. -/
def TIME_INFINITE : SysInterval := -1

/-! ### The calls -/

/-- A call of `oqPutTimeout` or `oqWriteTimeout` on `SD2.oqueue`. -/
inductive OutCall where
  | oqPutTimeout (b : UInt8) (timeout : SysInterval)
  | oqWriteTimeout (bp : List UInt8) (timeout : SysInterval)
  deriving DecidableEq, Repr

namespace OutCall

/-- The timeout given by the caller. -/
def timeout : OutCall → SysInterval
  | oqPutTimeout _ timeout => timeout
  | oqWriteTimeout _ timeout => timeout

/-- The bytes to put. -/
def bytes : OutCall → List UInt8
  | oqPutTimeout b _ => [b]
  | oqWriteTimeout bp _ => bp

end OutCall

/-- What a call returns, a `msg_t` or a `size_t`. -/
inductive OutResult where
  | msg (m : Msg)
  | size (n : Nat)
  deriving DecidableEq, Repr

/-- The number of bytes a result reports as put. -/
def OutResult.count : OutResult → Nat
  | msg m => if m = .MSG_OK then 1 else 0
  | size n => n

/-- Where a thread is in its call. -/
inductive Place where
  /-- It has not the lock, and asks for it. -/
  | running
  /-- In `q_waiting`. -/
  | asleep
  /-- Out of `q_waiting`, with its message. -/
  | woken (msg : Msg)
  deriving DecidableEq, Repr

/-- A call that has not returned. `done` bytes are in the queue. -/
structure Pending where
  call : OutCall
  done : Nat
  place : Place
  deriving DecidableEq, Repr

/-- The bytes of the call that are not in the queue yet. -/
def Pending.rest (p : Pending) : List UInt8 := p.call.bytes.drop p.done

/-- What holds of a call that has not returned. -/
structure Pending.Ok (p : Pending) : Prop where
  bound : p.done ≤ p.call.bytes.length
  single : ∀ b timeout, p.call = .oqPutTimeout b timeout → p.done = 0
  /-- Who waits, or waited, has more to put. -/
  waits : p.place ≠ .running → p.rest ≠ []
  finite : ∀ m, p.place = .woken m → m ≠ .MSG_OK → p.call.timeout ≠ TIME_INFINITE

/-- The thread is about to try its loop once more. -/
def Place.Tries (place : Place) : Prop := place = .running ∨ place = .woken .MSG_OK

/-- A thread that is about to try is out of `q_waiting`. -/
theorem Place.Tries.awake {place : Place} (h : place.Tries) : place ≠ .asleep := by
  rcases h with rfl | rfl
  · exact Place.noConfusion
  · exact Place.noConfusion

/-! ### The driver -/

/-- `SD2.oqueue`. -/
abbrev SdOQueue : Type := OutputQueue SERIAL_BUFFERS_SIZE UInt8

/-- The queue after `bs` was appended. -/
structure Appended (q : SdOQueue) (bs : List UInt8) (q' : SdOQueue) : Prop where
  wf : q'.Wf
  contents : q'.contents = q.contents ++ bs
  counter : q'.counter + bs.length = q.counter

/-- The queue after `b` was taken. -/
structure Taken (q : SdOQueue) (b : UInt8) (q' : SdOQueue) : Prop where
  wf : q'.Wf
  contents : q.contents = b :: q'.contents
  counter : q'.counter = q.counter + 1

/-- A byte is put into a free place. -/
theorem appended_put {q : SdOQueue} (h : q.Wf) (hfull : ¬q.oqIsFullI = true) (b : UInt8) :
    Appended q [b] (q.put b) := by
  have hpos : 0 < q.counter := by
    have hne : q.counter ≠ 0 := fun h0 => hfull (decide_eq_true h0)
    omega
  refine ⟨h.put hpos b, OutputQueue.contents_put h hpos b, ?_⟩
  show q.counter - 1 + 1 = _
  omega

/-- `oq_write` puts as many bytes as there are free places. -/
theorem appended_oqWrite {q : SdOQueue} (h : q.Wf) (bp : List UInt8) :
    Appended q (bp.take (q.oqWrite bp).1) (q.oqWrite bp).2 := by
  obtain ⟨hn, hwf, hcontents, hcounter⟩ := OutputQueue.oqWrite_spec h bp
  have htake : bp.take (min bp.length q.counter) = bp.take q.counter := by
    rw [Nat.min_comm, ← List.take_take, List.take_length]
  refine ⟨hwf, ?_, ?_⟩
  · rw [hcontents, hn, htake]
  · rw [hcounter, hn, List.length_take]
    omega

/-- The interrupt takes the oldest byte, and frees its place. -/
theorem taken_oqGetI {q : SdOQueue} (h : q.Wf) {b : UInt8} {bs : List UInt8}
    (hcons : q.contents = b :: bs) : ∃ q', q.oqGetI = (some b, q') ∧ Taken q b q' := by
  obtain ⟨hb, hwf, hrest, hcounter⟩ := OutputQueue.oqGetI_of_cons h hcons
  refine ⟨q.oqGetI.2, ?_, hwf, ?_, hcounter⟩
  · rw [← hb]
  · rw [hrest, hcons]

/-- The transmit side of the driver, and its callers. -/
structure SerialOut (T : Type) where
  oqueue : SdOQueue
  /-- The threads in `q_waiting`. -/
  qWaiting : List T
  pending : T → Option Pending
  /-- `USART_CR1_TXEIE`. -/
  txeie : Bool
  /-- `USART_CR1_TCIE`. -/
  tcie : Bool
  /-- What was written to `USART2->TDR`, oldest first. -/
  sent : List UInt8
  accepted : List (T × UInt8)
  returned : T → List (OutCall × OutResult)

/-- The status of the transmitter. The data register is empty once the last
transmission is complete. -/
inductive TxStatus where
  | busy
  | txe
  | complete
  deriving DecidableEq, Repr

/-- `USART_ISR_TXE`. -/
def TxStatus.isTxe : TxStatus → Bool
  | busy => false
  | txe => true
  | complete => true

/-- `USART_ISR_TC`. -/
def TxStatus.isTc : TxStatus → Bool
  | complete => true
  | _ => false

/-- The moves of the component, each as long as it holds the lock. -/
inductive OutMove (T : Type) where
  | call (t : T) (c : OutCall)
  | run (t : T)
  | expire (t : T)
  | interrupt (isr : TxStatus)
  deriving DecidableEq

/-- Only calls bring new work. -/
def OutMove.isCall {T : Type} : OutMove T → Bool
  | call _ _ => true
  | _ => false

namespace SerialOut

variable {T : Type}

/-- After `sdObjectInit` and `sdStart`. -/
def init (mem : Nat → UInt8) : SerialOut T where
  oqueue := .oqObjectInit mem
  qWaiting := []
  pending _ := none
  txeie := false
  tcie := false
  sent := []
  accepted := []
  returned _ := []

variable [DecidableEq T]

/-- The call returns. -/
def finish (t : T) (p : Pending) (r : OutResult) (s : SerialOut T) : SerialOut T :=
  { s with
    pending := Function.update s.pending t none
    returned := Function.update s.returned t (s.returned t ++ [(p.call, r)]) }

/-- The call ends with a message other than `MSG_OK`. -/
def giveUp (t : T) (p : Pending) (m : Msg) (s : SerialOut T) : SerialOut T :=
  match p.call with
  | .oqPutTimeout _ _ => s.finish t p (.msg m)
  | .oqWriteTimeout _ _ => s.finish t p (.size p.done)

/-- `osalThreadEnqueueTimeoutS`. -/
def enqueue (t : T) (p : Pending) (s : SerialOut T) : SerialOut T :=
  if p.call.timeout = TIME_IMMEDIATE then s.giveUp t p .MSG_TIMEOUT
  else
    { s with
      qWaiting := s.qWaiting ++ [t]
      pending := Function.update s.pending t (some { p with place := .asleep }) }

/-- `osalThreadDequeueNextI`. -/
def dequeueNext (m : Msg) (s : SerialOut T) : SerialOut T :=
  match s.qWaiting with
  | [] => s
  | t :: ts =>
      { s with
        qWaiting := ts
        pending := Function.update s.pending t
          ((s.pending t).map fun p => { p with place := .woken m }) }

/-- The queue with `bs` in it, and `notify2`. -/
def store (t : T) (bs : List UInt8) (q : SdOQueue)
    (s : SerialOut T) : SerialOut T :=
  { s with
    oqueue := q
    txeie := true
    tcie := true
    accepted := s.accepted ++ bs.map fun b => (t, b) }

/-- One round of the loop of `oqPutTimeout` or `oqWriteTimeout`, under the lock. -/
def attempt (t : T) (p : Pending) (s : SerialOut T) : SerialOut T :=
  match p.call with
  | .oqPutTimeout b _ =>
      if s.oqueue.oqIsFullI then s.enqueue t p
      else (s.store t [b] (s.oqueue.put b)).finish t p (.msg .MSG_OK)
  | .oqWriteTimeout bp _ =>
      if bp.length - p.done = 0 then s.finish t p (.size p.done)
      else
        let (n, q) := s.oqueue.oqWrite (bp.drop p.done)
        if n = 0 then s.enqueue t p
        else
          { s.store t ((bp.drop p.done).take n) q with
            pending := Function.update s.pending t
              (some { p with done := p.done + n, place := .running }) }

/-- A round of the transmit loop of `sd_lld_serve_interrupt`, where `ISR` reads `isr`, and
what comes behind the loop. -/
def serveRound (isr : TxStatus) (s : SerialOut T) : SerialOut T :=
  let s₁ :=
    if s.txeie && isr.isTxe then
      match s.oqueue.oqGetI with
      | (none, _) => { s with txeie := false, tcie := s.tcie }
      | (some b, q) => dequeueNext .MSG_OK { s with oqueue := q, sent := s.sent ++ [b] }
    else s
  if s.tcie && isr.isTc then
    if s₁.oqueue.oqIsEmptyI then { s₁ with txeie := s.txeie, tcie := false } else s₁
  else s₁

/-- The loop at "Transmission buffer empty". `isrs` are the values read from `ISR`, the
first one before the loop; when there are no more, the transmitter is busy. `tcie` is
that bit of `cr1`. -/
def transmitLoop (tcie : Bool) : List TxStatus → SerialOut T → TxStatus × SerialOut T
  | [], s => (.busy, s)
  | isr :: isrs, s =>
      if isr.isTxe then
        match s.oqueue.oqGetI with
        | (none, _) => (isr, { s with txeie := false, tcie := tcie })
        | (some b, q) =>
            transmitLoop tcie isrs
              (dequeueNext .MSG_OK { s with oqueue := q, sent := s.sent ++ [b] })
      else (isr, s)

/-- `sd_lld_serve_interrupt`, from "Transmission buffer empty" on. -/
def serveInterrupt (isrs : List TxStatus) (s : SerialOut T) : SerialOut T :=
  let (isr, s₁) := if s.txeie then transmitLoop s.tcie isrs s else (isrs.headD .busy, s)
  if s.tcie && isr.isTc then
    if s₁.oqueue.oqIsEmptyI then { s₁ with txeie := s.txeie, tcie := false } else s₁
  else s₁

/-- One move, where it is possible. -/
def step : OutMove T → SerialOut T → Option (SerialOut T)
  | .call t c, s =>
      match s.pending t with
      | none => some
          { s with pending := Function.update s.pending t (some ⟨c, 0, .running⟩) }
      | some _ => none
  | .run t, s =>
      match s.pending t with
      | none => none
      | some p =>
          match p.place with
          | .running => some (s.attempt t p)
          | .asleep => none
          | .woken .MSG_OK => some (s.attempt t p)
          | .woken m => some (s.giveUp t p m)
  | .expire t, s =>
      match s.pending t with
      | none => none
      | some p =>
          if p.place = .asleep ∧ p.call.timeout ≠ TIME_INFINITE then some
            { s with
              qWaiting := s.qWaiting.erase t
              pending := Function.update s.pending t
                (some { p with place := .woken .MSG_TIMEOUT }) }
          else none
  | .interrupt isr, s =>
      if s.txeie && isr.isTxe || s.tcie && isr.isTc then some (s.serveRound isr) else none

/-- A whole schedule. -/
def run : List (OutMove T) → SerialOut T → Option (SerialOut T)
  | [], s => some s
  | m :: ms, s => (step m s).bind (run ms)

/-- Some schedule leads from `s` to `s'`. -/
def Reaches (s s' : SerialOut T) : Prop := ∃ ms, run ms s = some s'

/-! ### What a move does -/

/-- Everything a move can do. -/
inductive Does (s : SerialOut T) : OutMove T → SerialOut T → Prop
  | began {t : T} (c : OutCall) (h : s.pending t = none) :
      Does s (.call t c)
        { s with pending := Function.update s.pending t (some ⟨c, 0, .running⟩) }
  /-- Bytes go to the queue, and the call returns or has more to put. -/
  | put {t : T} {p : Pending} {bs : List UInt8} {q : SdOQueue}
      (h : s.pending t = some p) (tries : p.place.Tries) (pos : bs ≠ [])
      (hcall : ∀ b timeout, p.call ≠ .oqPutTimeout b timeout)
      (hbs : ∃ more, p.rest = bs ++ more) (hq : Appended s.oqueue bs q) :
      Does s (.run t)
        { s.store t bs q with
          pending := Function.update s.pending t
            (some { p with done := p.done + bs.length, place := .running }) }
  | putLast {t : T} {p : Pending} {bs : List UInt8}
      {q : SdOQueue} {r : OutResult}
      (h : s.pending t = some p) (tries : p.place.Tries) (pos : bs ≠ [])
      (hbs : p.rest = bs) (hr : r.count = p.done + bs.length) (hq : Appended s.oqueue bs q) :
      Does s (.run t) ((s.store t bs q).finish t p r)
  | slept {t : T} {p : Pending} (h : s.pending t = some p) (tries : p.place.Tries)
      (full : s.oqueue.counter = 0) (hrest : p.rest ≠ []) :
      Does s (.run t)
        { s with
          qWaiting := s.qWaiting ++ [t]
          pending := Function.update s.pending t (some { p with place := .asleep }) }
  /-- The call returns with no more than it had put. -/
  | ended {t : T} {p : Pending} {r : OutResult} (h : s.pending t = some p)
      (awake : p.place ≠ .asleep) (hr : r.count = p.done)
      (unused : p.place = .woken .MSG_OK → p.rest = [] ∨ s.oqueue.counter = 0)
      (complete : p.call.timeout = TIME_INFINITE → p.rest = [] ∨
        ∃ m, p.place = .woken m ∧ m ≠ .MSG_OK) :
      Does s (.run t) (s.finish t p r)
  | expired {t : T} {p : Pending} (h : s.pending t = some p) (asleep : p.place = .asleep)
      (finite : p.call.timeout ≠ TIME_INFINITE) :
      Does s (.expire t)
        { s with
          qWaiting := s.qWaiting.erase t
          pending := Function.update s.pending t (some { p with place := .woken .MSG_TIMEOUT }) }
  /-- A byte is sent, and nobody waits for its place. -/
  | sent {isr : TxStatus} {b : UInt8} {q : SdOQueue} {tcie : Bool}
      (hq : Taken s.oqueue b q) (flag : tcie = true → s.tcie = true) (alone : s.qWaiting = []) :
      Does s (.interrupt isr) { s with oqueue := q, sent := s.sent ++ [b], tcie := tcie }
  /-- A byte is sent, and the first thread in line is woken. -/
  | sentWaking {isr : TxStatus} {b : UInt8} {q : SdOQueue} {tcie : Bool} {t : T} {ts : List T}
      {p : Pending} (hq : Taken s.oqueue b q) (flag : tcie = true → s.tcie = true)
      (first : s.qWaiting = t :: ts) (h : s.pending t = some p) (asleep : p.place = .asleep) :
      Does s (.interrupt isr)
        { s with
          oqueue := q
          sent := s.sent ++ [b]
          tcie := tcie
          qWaiting := ts
          pending := Function.update s.pending t (some { p with place := .woken .MSG_OK }) }
  /-- Nothing to send: an interrupt source is disabled. -/
  | quiet {isr : TxStatus} {txeie tcie : Bool} (empty : s.oqueue.contents = [])
      (flags : txeie.toNat + tcie.toNat < s.txeie.toNat + s.tcie.toNat) :
      Does s (.interrupt isr) { s with txeie := txeie, tcie := tcie }

/-! ### Nothing else -/

/-- What `step_does` needs of a state. -/
structure Sound (s : SerialOut T) : Prop where
  wf : s.oqueue.Wf
  pending : ∀ t p, s.pending t = some p → p.Ok
  /-- While there are bytes in the queue, the transmit interrupt is enabled. -/
  armed : s.oqueue.contents ≠ [] → s.txeie = true
  nodup : s.qWaiting.Nodup
  line : ∀ t, t ∈ s.qWaiting ↔ ∃ p, s.pending t = some p ∧ p.place = .asleep

variable {s s' : SerialOut T}

/-- A call that is given up is over, with the count of what it has put. -/
theorem does_giveUp {t : T} {p : Pending} (hok : p.Ok) (hp : s.pending t = some p)
    (awake : p.place ≠ .asleep) {m : Msg} (hm : m ≠ .MSG_OK)
    (unused : p.place = .woken .MSG_OK → p.rest = [] ∨ s.oqueue.counter = 0)
    (complete : p.call.timeout = TIME_INFINITE → p.rest = [] ∨
      ∃ m, p.place = .woken m ∧ m ≠ .MSG_OK) :
    Does s (.run t) (s.giveUp t p m) := by
  unfold giveUp
  split
  · rename_i b timeout hcall
    refine .ended hp awake ?_ unused complete
    rw [hok.single b timeout hcall]
    exact if_neg hm
  · exact .ended hp awake rfl unused complete

/-- A thread that finds the queue full waits, or gives up when it must not wait. -/
theorem does_enqueue {t : T} {p : Pending} (hok : p.Ok) (hp : s.pending t = some p)
    (tries : p.place.Tries) (full : s.oqueue.counter = 0) (hrest : p.rest ≠ []) :
    Does s (.run t) (s.enqueue t p) := by
  unfold enqueue
  split
  · rename_i htimeout
    refine does_giveUp hok hp tries.awake (by decide) (fun _ => .inr full) fun hinf => ?_
    rw [htimeout] at hinf
    exact absurd hinf (by decide)
  · exact .slept hp tries full hrest

/-- One round of either loop, by cases on the call and on the place in the queue. -/
theorem does_attempt {t : T} {p : Pending} (h : s.Sound) (hp : s.pending t = some p)
    (tries : p.place.Tries) : Does s (.run t) (s.attempt t p) := by
  have hok := h.pending t p hp
  unfold attempt
  split
  · rename_i b timeout hcall
    have hdone := hok.single b timeout hcall
    have hrest : p.rest = [b] := by
      rw [Pending.rest, hdone, hcall]
      rfl
    split
    · rename_i hfull
      refine does_enqueue hok hp tries (of_decide_eq_true hfull) ?_
      rw [hrest]
      exact List.cons_ne_nil b []
    · rename_i hfull
      refine .putLast hp tries (List.cons_ne_nil b []) hrest ?_ (appended_put h.wf hfull b)
      rw [hdone]
      rfl
  · rename_i bp timeout hcall
    have hrest : p.rest = bp.drop p.done := by
      rw [Pending.rest, hcall]
      rfl
    split
    · rename_i h0
      have hnil : p.rest = [] := by
        rw [hrest, List.drop_eq_nil_iff]
        omega
      exact .ended hp tries.awake rfl (fun _ => .inl hnil) fun _ => .inl hnil
    · rename_i h0
      have hne : p.rest ≠ [] := by
        rw [hrest, Ne, List.drop_eq_nil_iff]
        omega
      have hn := (OutputQueue.oqWrite_spec h.wf (bp.drop p.done)).1
      rw [List.length_drop] at hn
      have hq := appended_oqWrite h.wf (bp.drop p.done)
      generalize s.oqueue.oqWrite (bp.drop p.done) = nq at hn hq ⊢
      obtain ⟨n, q⟩ := nq
      have hlen : ((bp.drop p.done).take n).length = n := by
        have hmin : n = min (bp.length - p.done) s.oqueue.counter := hn
        rw [List.length_take, List.length_drop]
        omega
      show Does s _ (if n = 0 then _ else _)
      split
      · rename_i hzero
        refine does_enqueue hok hp tries ?_ hne
        have hmin : n = min (bp.length - p.done) s.oqueue.counter := hn
        omega
      · rename_i hpos
        have hput : Does s (.run t) _ := .put hp tries ?_ ?_ ⟨(bp.drop p.done).drop n, ?_⟩ hq
        · rw [hlen] at hput
          exact hput
        · intro hnil
          rw [hnil] at hlen
          exact hpos hlen.symm
        · intro b timeout' hput
          rw [hcall] at hput
          cases hput
        · rw [hrest, List.take_append_drop]

/-- A byte goes from the queue to the data register, and the first thread that waits is
woken. The control register keeps its bits, or loses `TCIE`. -/
theorem does_sent (isr : TxStatus) {b : UInt8} {q : SdOQueue} (h : s.Sound)
    (hq : Taken s.oqueue b q) :
    ∃ d, dequeueNext .MSG_OK { s with oqueue := q, sent := s.sent ++ [b] } = d ∧
      (d.txeie = s.txeie ∧ d.tcie = s.tcie) ∧
      ∀ tcie : Bool, (tcie = true → s.tcie = true) →
        Does s (.interrupt isr) { d with tcie := tcie } := by
  cases hwaiting : s.qWaiting with
  | nil =>
      refine ⟨{ s with oqueue := q, sent := s.sent ++ [b] }, ?_, ⟨rfl, rfl⟩, fun tcie hflag =>
        .sent hq hflag hwaiting⟩
      simp only [dequeueNext, hwaiting]
  | cons t ts =>
      obtain ⟨p, hp, hplace⟩ := (h.line t).mp (by rw [hwaiting]; exact List.mem_cons_self)
      refine ⟨_, rfl, ?_⟩
      simp only [dequeueNext, hp, Option.map_some]
      exact ⟨⟨trivial, trivial⟩, fun tcie hflag => .sentWaking hq hflag hwaiting hp hplace⟩

/-- One round of the handler that had something to do: a byte is sent, or the bits of an
empty queue are cleared. -/
theorem does_interrupt {isr : TxStatus} (h : s.Sound)
    (hreq : (s.txeie && isr.isTxe || s.tcie && isr.isTc) = true) :
    Does s (.interrupt isr) (s.serveRound isr) := by
  cases hcontents : s.oqueue.contents with
  | nil =>
      have hempty : s.oqueue.oqIsEmptyI = true := h.wf.oqIsEmptyI.mpr hcontents
      have hget := OutputQueue.oqGetI_of_nil h.wf hcontents
      have hquiet : ∀ x y : Bool, x.toNat + y.toNat < s.txeie.toNat + s.tcie.toNat →
          Does s (.interrupt isr) { s with txeie := x, tcie := y } :=
        fun x y hflags => .quiet hcontents hflags
      unfold serveRound
      rw [hget]
      cases htc : (s.tcie && isr.isTc) with
      | true =>
          -- The stale `cr1` brings `TXEIE` back.
          have htcie := (Bool.and_eq_true_iff.mp htc).1
          have hlt : s.txeie.toNat + (false : Bool).toNat < s.txeie.toNat + s.tcie.toNat := by
            rw [htcie]
            exact Nat.lt_succ_self _
          have hdone := hquiet s.txeie false hlt
          split <;> simp only [hempty, if_true] <;> exact hdone
      | false =>
          rw [htc, Bool.or_false] at hreq
          rw [if_pos hreq]
          have htxeie := (Bool.and_eq_true_iff.mp hreq).1
          refine hquiet false s.tcie ?_
          rw [htxeie]
          exact Nat.add_lt_add_right Nat.one_pos _
  | cons b bs =>
      have htxeie : s.txeie = true := h.armed (by rw [hcontents]; exact List.cons_ne_nil b bs)
      have htxe : isr.isTxe = true := by
        cases isr with
        | busy => simp [TxStatus.isTxe, TxStatus.isTc] at hreq
        | txe => rfl
        | complete => rfl
      obtain ⟨q, hget, hq⟩ := taken_oqGetI h.wf hcontents
      have htx : (s.txeie && isr.isTxe) = true := by rw [htxeie, htxe]; rfl
      obtain ⟨d, hd, hx, hdoes⟩ := does_sent isr h hq
      have hcut := hdoes false fun hc => Bool.noConfusion hc
      have hkept := hdoes s.tcie id
      unfold serveRound
      rw [if_pos htx, hget]
      show Does s _ (let d := dequeueNext .MSG_OK { s with oqueue := q, sent := s.sent ++ [b] }
        if (s.tcie && isr.isTc) = true then
        if d.oqueue.oqIsEmptyI = true then { d with txeie := s.txeie, tcie := false } else d else d)
      -- `TXEIE` is set anyway, so the stale `cr1` differs at most in `TCIE`.
      rw [hd, ← hx.1]
      rw [← hx.2] at hkept
      dsimp only
      split
      · split
        · exact hcut
        · exact hkept
      · exact hkept

/-- A move does one of the things in `Does`. -/
theorem step_does {m : OutMove T} (h : s.Sound) (hm : step m s = some s') : Does s m s' := by
  cases m with
  | call t c =>
      cases hp : s.pending t with
      | none =>
          simp only [step, hp, Option.some.injEq] at hm
          exact hm ▸ .began c hp
      | some p =>
          simp only [step, hp] at hm
          cases hm
  | run t =>
      cases hp : s.pending t with
      | none =>
          simp only [step, hp] at hm
          cases hm
      | some p =>
          simp only [step, hp] at hm
          split at hm
          · rename_i hplace
            cases hm
            exact does_attempt h hp (.inl hplace)
          · cases hm
          · rename_i hplace
            cases hm
            exact does_attempt h hp (.inr hplace)
          · rename_i m hm' hplace
            cases hm
            refine does_giveUp (h.pending t p hp) hp ?_ hm' ?_ ?_
            · rw [hplace]
              exact Place.noConfusion
            · intro hwoken
              rw [hplace] at hwoken
              cases hwoken
              exact absurd rfl hm'
            · exact fun _ => .inr ⟨m, hplace, hm'⟩
  | expire t =>
      cases hp : s.pending t with
      | none =>
          simp only [step, hp] at hm
          cases hm
      | some p =>
          simp only [step, hp] at hm
          split at hm
          · rename_i hcond
            cases hm
            exact .expired hp hcond.1 hcond.2
          · cases hm
  | interrupt isr =>
      simp only [step] at hm
      split at hm
      · rename_i hreq
        cases hm
        exact does_interrupt h hreq
      · cases hm

/-! ### The whole handler -/

/-- Waking a thread leaves the control register alone. -/
theorem dequeueNext_flags (m : Msg) (s : SerialOut T) :
    (dequeueNext m s).txeie = s.txeie ∧ (dequeueNext m s).tcie = s.tcie := by
  unfold dequeueNext
  split <;> exact ⟨rfl, rfl⟩

/-- One round sends the byte at the head of the queue. -/
theorem step_txe_of_get {b : UInt8} {q : SdOQueue} (htxeie : s.txeie = true)
    (hget : s.oqueue.oqGetI = (some b, q)) :
    step (.interrupt .txe) s =
      some (dequeueNext .MSG_OK { s with oqueue := q, sent := s.sent ++ [b] }) := by
  simp only [step, serveRound, htxeie, hget, TxStatus.isTxe, TxStatus.isTc, Bool.and_true,
    Bool.and_false, Bool.or_false, if_true, Bool.false_eq_true, if_false]

/-- The loop, and what comes behind it, in rounds: one for each byte that it sends, and
one more if it ends at an empty queue or at the end of the transmission. -/
theorem transmitLoop_rounds (isrs : List TxStatus) (htxeie : s.txeie = true) :
    ∃ ms : List (OutMove T), (∀ m ∈ ms, ∃ isr, m = .interrupt isr) ∧
      run ms s = some
        (let (isr, s₁) := transmitLoop s.tcie isrs s
        if s.tcie && isr.isTc then
          if s₁.oqueue.oqIsEmptyI then { s₁ with txeie := s.txeie, tcie := false } else s₁
        else s₁) ∧
      ((isrs.headD .busy).isTxe = true → ms ≠ []) := by
  induction isrs generalizing s with
  | nil =>
      refine ⟨[], by simp, ?_, by simp [TxStatus.isTxe]⟩
      simp only [transmitLoop, TxStatus.isTc, Bool.and_false, Bool.false_eq_true, if_false, run]
  | cons isr isrs ih =>
      cases htxe : isr.isTxe with
      | false =>
          -- The transmitter is busy, and so not at the end of a transmission either.
          have hbusy : isr = .busy := by
            cases isr with
            | busy => rfl
            | txe => cases htxe
            | complete => cases htxe
          subst hbusy
          refine ⟨[], by simp, ?_, by simp [TxStatus.isTxe]⟩
          simp only [transmitLoop, TxStatus.isTxe, TxStatus.isTc, Bool.and_false,
            Bool.false_eq_true, if_false, run]
      | true =>
          cases hget : s.oqueue.oqGetI with
          | mk b q =>
              cases b with
              | none =>
                  refine ⟨[.interrupt isr], by simp, ?_, by simp⟩
                  simp only [run, step, serveRound, transmitLoop, htxe, hget, htxeie, Bool.and_true,
                    Bool.true_or, if_true, Option.bind_some]
              | some b =>
                  obtain ⟨hx, hc⟩ := dequeueNext_flags .MSG_OK
                    { s with oqueue := q, sent := s.sent ++ [b] }
                  obtain ⟨ms, hms, hrun, -⟩ := ih (hx.trans htxeie)
                  rw [hx, hc] at hrun
                  refine ⟨.interrupt .txe :: ms, ?_, ?_, by simp⟩
                  · intro m hm
                    cases hm with
                    | head => exact ⟨.txe, rfl⟩
                    | tail _ hm => exact hms m hm
                  · rw [run, step_txe_of_get htxeie hget, Option.bind_some, hrun]
                    simp only [transmitLoop, htxe, hget, if_true]

/-- The handler is a sequence of rounds, and of one at least when it was called for. So
what holds over all runs holds over those with whole interrupts. -/
theorem serveInterrupt_rounds (isrs : List TxStatus) (s : SerialOut T) :
    ∃ ms : List (OutMove T), (∀ m ∈ ms, ∃ isr, m = .interrupt isr) ∧
      run ms s = some (s.serveInterrupt isrs) ∧
      ((s.txeie && (isrs.headD .busy).isTxe || s.tcie && (isrs.headD .busy).isTc) = true →
        ms ≠ []) := by
  unfold serveInterrupt
  cases htxeie : s.txeie with
  | true =>
      obtain ⟨ms, hms, hrun, hne⟩ := transmitLoop_rounds isrs htxeie
      rw [htxeie] at hrun
      refine ⟨ms, hms, hrun, fun hreq => hne ?_⟩
      cases hhead : isrs.headD .busy with
      | busy =>
          rw [hhead] at hreq
          simp [TxStatus.isTxe, TxStatus.isTc] at hreq
      | txe => rfl
      | complete => rfl
  | false =>
      simp only [Bool.false_eq_true, if_false, Bool.false_and, Bool.false_or]
      cases hreq : (s.tcie && (isrs.headD .busy).isTc) with
      | false => exact ⟨[], by simp, rfl, by simp⟩
      | true =>
          refine ⟨[.interrupt (isrs.headD .busy)], by simp, ?_, by simp⟩
          simp only [run, step, serveRound, htxeie, hreq, Bool.false_and, Bool.false_or, if_true,
            Bool.false_eq_true, if_false, Option.bind_some]

end SerialOut

end MotionTracking
