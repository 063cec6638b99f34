import MotionTracking.Threads.Inheritance

/-!
# `MotionTracking.ChibiOS.Scheduler`: the scheduler, and the mutexes with their priorities

`os/rt/src/chschd.c` on one core and without round robin (`CH_CFG_TIME_QUANTUM` is
0), and `os/rt/src/chmtx.c` with the priority inheritance, which `Kernel` leaves out.

A thread runs, is in the ready list, waits for a mutex, or sleeps for another reason.
The lists are those of the source, the first thread first. A list's header has
priority 0, below every thread's, so `firstprio` of an empty ready list is 0. There
is always a thread that can run, the idle thread, and a sleep with an empty ready
list is no step here.

One move is one call of the kernel by the running thread, or an interrupt. An
interrupt makes sleeping threads ready and reschedules when it ends.
-/

set_option autoImplicit false

namespace ChibiOS

open Threads (insertBehind insertAhead)

variable {T M : Type} [DecidableEq T] [DecidableEq M]

/-- `tprio_t`. -/
abbrev TPrio : Type := Nat

/-- `tp->state`, with `tp->u.wtmtxp`. -/
inductive TState (M : Type) where
  | CH_STATE_READY
  | CH_STATE_CURRENT
  | CH_STATE_WTMTX (wtmtxp : M)
  /-- All the others: asleep for another reason, or not created yet. -/
  | asleep
  deriving DecidableEq, Repr

/-- The threads, the ready list and the mutexes. -/
structure Scheduler (T M : Type) where
  current : T
  /-- The ready list. -/
  rlist : List T
  state : T → TState M
  /-- `hdr.pqueue.prio`. -/
  prio : T → TPrio
  realprio : T → TPrio
  owner : M → Option T
  queue : M → List T
  /-- `mp->next`: the owner's stack below the mutex. -/
  next : M → List M
  mtxlist : T → List M

namespace Scheduler

/-- One running thread, and all the others still to be created. -/
def init (current : T) (prio : T → TPrio) : Scheduler T M where
  current := current
  rlist := []
  state t := if t = current then .CH_STATE_CURRENT else .asleep
  prio := prio
  realprio := prio
  owner _ := none
  queue _ := []
  next _ := []
  mtxlist _ := []

/-! ### `chschd.c` -/

/-- A thread goes to a state, and to no list. -/
def setState (tp : T) (newstate : TState M) (s : Scheduler T M) : Scheduler T M :=
  { s with state := Function.update s.state tp newstate }

/-- `__sch_ready_behind`, which is `chSchReadyI`. -/
def readyBehind (tp : T) (s : Scheduler T M) : Scheduler T M :=
  { s with
    state := Function.update s.state tp .CH_STATE_READY
    rlist := insertBehind s.prio tp s.rlist }

/-- `__sch_ready_ahead`. -/
def readyAhead (tp : T) (s : Scheduler T M) : Scheduler T M :=
  { s with
    state := Function.update s.state tp .CH_STATE_READY
    rlist := insertAhead s.prio tp s.rlist }

/-- The priority of the first thread of the ready list. Below all others when the list is
empty, as that of its header is. -/
def firstprio (s : Scheduler T M) : TPrio :=
  match s.rlist with
  | [] => 0
  | tp :: _ => s.prio tp

/-- The first thread `ntp` of the ready list runs, and `l` is left of it. -/
def switchTo (ntp : T) (l : List T) (s : Scheduler T M) : Scheduler T M :=
  { s with
    rlist := l
    state := Function.update s.state ntp .CH_STATE_CURRENT
    current := ntp }

/-- `__sch_reschedule_behind`. -/
def rescheduleBehind (s : Scheduler T M) : Scheduler T M :=
  match s.rlist with
  | [] => s
  | ntp :: l => (s.switchTo ntp l).readyBehind s.current

/-- `__sch_reschedule_ahead`. -/
def rescheduleAhead (s : Scheduler T M) : Scheduler T M :=
  match s.rlist with
  | [] => s
  | ntp :: l => (s.switchTo ntp l).readyAhead s.current

/-- `chSchRescheduleS`, and `chSchPreemption` at the end of an interrupt. -/
def chSchRescheduleS (s : Scheduler T M) : Scheduler T M :=
  if s.firstprio > s.prio s.current then s.rescheduleAhead else s

/-- The running thread goes to a state, and the first ready one runs. No step when the
ready list is empty. -/
def chSchGoSleepS (newstate : TState M) (s : Scheduler T M) : Option (Scheduler T M) :=
  match s.rlist with
  | [] => none
  | ntp :: l => some ((s.setState s.current newstate).switchTo ntp l)

/-- The thread is made ready, or runs at once when it is more urgent than the running one.
-/
def chSchWakeupS (ntp : T) (s : Scheduler T M) : Scheduler T M :=
  if s.prio ntp ≤ s.prio s.current then s.readyBehind ntp
  else
    let s := s.readyAhead s.current
    s.switchTo ntp s.rlist

/-- The running thread gives way to the first ready one that is at least as urgent. -/
def chSchDoYieldS (s : Scheduler T M) : Scheduler T M :=
  if s.firstprio ≥ s.prio s.current then s.rescheduleBehind else s

/-! ### `chmtx.c` -/

/-- The loop of `chMtxLockS` from thread `tp` on, for a thread of priority `p`. -/
def boost (p : TPrio) : Nat → T → Scheduler T M → Scheduler T M
  | 0, _, s => s
  | n + 1, tp, s =>
      if s.prio tp < p then
        let s := { s with prio := Function.update s.prio tp p }
        match s.state tp with
        | .CH_STATE_WTMTX wtmtxp =>
            let s := { s with
              queue := Function.update s.queue wtmtxp
                (insertBehind s.prio tp ((s.queue wtmtxp).erase tp)) }
            match s.owner wtmtxp with
            | some tp => boost p n tp s
            | none => s
        | .CH_STATE_READY => ({ s with rlist := s.rlist.erase tp }).readyBehind tp
        | _ => s
      else s

/-- A free mutex is taken. -/
def take (mp : M) (s : Scheduler T M) : Scheduler T M :=
  { s with
    owner := Function.update s.owner mp (some s.current)
    next := Function.update s.next mp (s.mtxlist s.current)
    mtxlist := Function.update s.mtxlist s.current (mp :: s.mtxlist s.current) }

/-- The running thread goes to sleep in the queue of `mp`. -/
def waitOn (mp : M) (s : Scheduler T M) : Option (Scheduler T M) :=
  let s := { s with
    queue := Function.update s.queue mp (insertBehind s.prio s.current (s.queue mp)) }
  s.chSchGoSleepS (.CH_STATE_WTMTX mp)

/-- `chMtxLockS`, up to the point where the thread owns the mutex or sleeps. -/
def chMtxLockS [Fintype T] (mp : M) (s : Scheduler T M) : Option (Scheduler T M) :=
  match s.owner mp with
  | none => some (s.take mp)
  | some tp => (s.boost (s.prio s.current) (Fintype.card T) tp).waitOn mp

/-- Takes the mutex if it is free, and tells whether it was. -/
def chMtxTryLockS (mp : M) (s : Scheduler T M) : Bool × Scheduler T M :=
  match s.owner mp with
  | none => (true, s.take mp)
  | some _ => (false, s)

/-- The priority a thread is left with while it owns the mutexes from `lmp` on. -/
def newprio (t : T) (lmp : List M) (s : Scheduler T M) : TPrio :=
  lmp.foldl
    (fun newprio mp =>
      match s.queue mp with
      | [] => newprio
      | tp :: _ => if s.prio tp > newprio then s.prio tp else newprio)
    (s.realprio t)

/-- The running thread lets go of `mp`, and the first thread in its queue gets it. -/
def release (mp : M) (s : Scheduler T M) : Scheduler T M :=
  let s := { s with mtxlist := Function.update s.mtxlist s.current (s.next mp) }
  match s.queue mp with
  | [] => { s with owner := Function.update s.owner mp none }
  | tp :: q =>
      ({ s with
        queue := Function.update s.queue mp q
        owner := Function.update s.owner mp (some tp)
        next := Function.update s.next mp (s.mtxlist tp)
        mtxlist := Function.update s.mtxlist tp (mp :: s.mtxlist tp) }).readyBehind tp

/-- If threads wait for the mutex, the running thread's priority is worked out anew from
those it still owns. -/
def chMtxUnlock (mp : M) (s : Scheduler T M) : Scheduler T M :=
  match s.queue mp with
  | [] => s.release mp
  | _ :: _ =>
      let s := { s with
        prio := Function.update s.prio s.current (s.newprio s.current (s.next mp)) }
      (s.release mp).chSchRescheduleS

/-- The loop of `chMtxUnlockAllS`. -/
def releaseAll : Nat → Scheduler T M → Scheduler T M
  | 0, s => s
  | n + 1, s =>
      match s.mtxlist s.current with
      | [] => s
      | mp :: _ => releaseAll n (s.release mp)

/-- All mutexes of the running thread are let go of, and its own priority is all it is
left with. -/
def chMtxUnlockAllS (s : Scheduler T M) : Scheduler T M :=
  if s.mtxlist s.current = [] then s
  else
    let s := s.releaseAll (s.mtxlist s.current).length
    let s := { s with prio := Function.update s.prio s.current (s.realprio s.current) }
    s.chSchRescheduleS

/-- `chThdSetPriority`, with the old priority it returns. -/
def chThdSetPriority (newprio : TPrio) (s : Scheduler T M) : TPrio × Scheduler T M :=
  let oldprio := s.realprio s.current
  let s :=
    if s.prio s.current = s.realprio s.current ∨ newprio > s.prio s.current then
      { s with prio := Function.update s.prio s.current newprio }
    else s
  (oldprio,
    ({ s with realprio := Function.update s.realprio s.current newprio }).chSchRescheduleS)

/-! ### Runs -/

/-- An interrupt that wakes the threads `tps`. One that is awake stays as it is. -/
def interrupt (tps : List T) (s : Scheduler T M) : Scheduler T M :=
  (tps.foldl (fun s tp => if s.state tp = .asleep then s.readyBehind tp else s) s).chSchRescheduleS

end Scheduler

/-- What the running thread calls, or an interrupt. -/
inductive SchMove (T M : Type) where
  | chMtxLock (mp : M)
  | chMtxTryLock (mp : M)
  | chMtxUnlock (mp : M)
  | chMtxUnlockAll
  | chThdSetPriority (newprio : TPrio)
  | chThdYield
  /-- A sleep for another reason. -/
  | sleep
  /-- `chSchWakeupS`. -/
  | wakeup (tp : T)
  | interrupt (tps : List T)

namespace Scheduler

variable [Fintype T]

/-- One move, where it is possible. -/
def step : SchMove T M → Scheduler T M → Option (Scheduler T M)
  | .chMtxLock mp, s => s.chMtxLockS mp
  | .chMtxTryLock mp, s => some (s.chMtxTryLockS mp).2
  | .chMtxUnlock mp, s => some (s.chMtxUnlock mp)
  | .chMtxUnlockAll, s => some s.chMtxUnlockAllS
  | .chThdSetPriority newprio, s => some (s.chThdSetPriority newprio).2
  | .chThdYield, s => some s.chSchDoYieldS
  | .sleep, s => s.chSchGoSleepS .asleep
  | .wakeup tp, s => if s.state tp = .asleep then some (s.chSchWakeupS tp) else none
  | .interrupt tps, s => some (s.interrupt tps)

/-- The thread that has to act before `t` can go on. -/
def waitsFor (s : Scheduler T M) (t : T) : Option T :=
  match s.state t with
  | .CH_STATE_WTMTX mp => s.owner mp
  | _ => none

/-- What the callers have to see to: mutexes are given back in reverse order, and a
thread that runs with its own priority does not lower it below that of a thread it
holds up. -/
def Proper (s : Scheduler T M) : SchMove T M → Prop
  | .chMtxUnlock mp => ∃ l, s.mtxlist s.current = mp :: l
  | .chThdSetPriority newprio => s.prio s.current = s.realprio s.current →
      ∀ u, s.waitsFor u = some s.current → s.prio u ≤ newprio
  | _ => True

/-- `s'` comes after `s` in a run of proper moves. -/
inductive Runs (s : Scheduler T M) : Scheduler T M → Prop where
  | refl : Runs s s
  | step {s' s'' : Scheduler T M} (h : Runs s s') (mv : SchMove T M) (proper : s'.Proper mv)
      (hstep : s'.step mv = some s'') : Runs s s''

end Scheduler

end ChibiOS
