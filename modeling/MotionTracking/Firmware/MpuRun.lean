import MotionTracking.Firmware.Mpu
import MotionTracking.Threads.Sequential
import Mathlib.Algebra.GroupWithZero.Nat

/-!
# `MotionTracking.Firmware.MpuRun`: the functions of `mpu.c` as functions

What `mpu_read_acc_axis`, `mpu_acc_update` and `mpu_acc_range` compute depends on
the variables of `mpu.c`, the sensor's registers, and the results of the
transfers (`MpuView`). While other threads leave these alone (`Aside`), a call is
a function on them: `readAxis`, `accUpdate`, `accRange`.

The sensor may take a new sample before any transfer. `sampledMachine` is the
firmware's machine beside a schedule of samples, one entry for each transfer to
come. The firmware's machine itself is the case in which no sample comes
(`sim_machine`).
-/

set_option autoImplicit false

namespace MotionTracking

open Threads (Machine Exec runAlone Simulates runAlone_bind)
open Threads.Prog (perform)

variable {F α : Type}

/-! ### Samples -/

/-- What the sensor samples before each of the transfers to come, if it does. -/
abbrev Samples : Type := Nat → Option (UInt8 → UInt8)

/-- The sensor never samples. -/
def Samples.none : Samples := fun _ => Option.none

/-- The registers after the sensor took the sample, if there was one. -/
def resample (sample : Option (UInt8 → UInt8)) (regs : UInt8 → UInt8) : UInt8 → UInt8 :=
  match sample with
  | none => regs
  | some data => fun reg => if isDataReg reg then data reg else regs reg

/-- The action is a transfer. -/
def Act.isTransfer : Act F → Bool
  | .i2cTransfer _ _ _ => true
  | _ => false

/-- The firmware's machine, with a schedule of the sensor's samples. -/
def sampledMachine (F : Type) : Machine (sig F) Tid (Sys F × Samples) EnvMove where
  exec t a s :=
    let regs := if a.isTransfer then resample (s.2 0) s.1.regs else s.1.regs
    (Sys.exec t a { s.1 with regs := regs }).map fun r =>
      (r.1, (r.2, if a.isTransfer then fun n => s.2 (n + 1) else s.2))
  env e s := (s.1.env e).map fun s' => (s', s.2)

/-! ### The view -/

/-- What the functions of `mpu.c` compute with. -/
@[ext]
structure MpuView (F : Type) where
  mpu : MpuC F
  regs : UInt8 → UInt8
  results : Nat → I2CResult
  samples : Samples
  msg : Msg

/-- What one thread's code sees of the state. -/
def mpuView (t : Tid) (s : Sys F × Samples) : MpuView F where
  mpu := s.1.mpu
  regs := s.1.regs
  results := s.1.results t
  samples := s.2
  msg := s.1.i2c.msg

namespace MpuView

/-- The registers that the next transfer meets. -/
def sensed (v : MpuView F) : UInt8 → UInt8 := resample (v.samples 0) v.regs

/-- One transfer, as this view sees it. -/
def transfer (txbytes rxbytes : Nat) (v : MpuView F) : MpuView F :=
  let res := v.results 0
  let bytes := (List.ofFn v.mpu.txbuf).take txbytes
  let rx := if res.msg = .MSG_OK then sensorRead bytes v.sensed rxbytes else res.rx.take rxbytes
  { mpu := { v.mpu with rxbuf := v.mpu.rxbuf.write 0 rx }
    regs := if res.msg = .MSG_OK then sensorWrite bytes v.sensed else v.sensed
    results := fun n => v.results (n + 1)
    samples := fun n => v.samples (n + 1)
    msg := res.msg }

/-- An assignment to the variables of `mpu.c`. -/
def set (f : MpuC F → MpuC F) (v : MpuView F) : MpuView F := { v with mpu := f v.mpu }

end MpuView

/-- The actions that concern the view, or nothing that `mpu.c` computes with. -/
def Act.ofMpu : Act F → Bool
  | .getSer => false
  | .setSer _ => false
  | .thdCreate _ => false
  | .i2cStart => false
  | .sdStart => false
  | .iqRead _ _ _ => false
  | .iqWake _ _ => false
  | .iqReset => false
  | _ => true

/-- The machine of the view. -/
def mpuMachine (F : Type) : Machine (sig F) Unit (MpuView F) Empty where
  exec _ a v :=
    match a with
    | .getMpu => some (v.mpu, v)
    | .setMpu f => some ((), v.set f)
    | .i2cTransfer _ txbytes rxbytes => some ((), v.transfer txbytes rxbytes)
    | .i2cEnd => some (v.msg, v)
    | .note _ => some ((), v)
    | .mtxInit _ => some ((), v)
    | .mtxLock _ => some ((), v)
    | .mtxResume => some ((), v)
    | .mtxUnlock _ => some ((), v)
    | .sleep => some ((), v)
    | .i2cBegin => some ((), v)
    | .sdOut _ => some ((), v)
    | _ => none
  env e _ := e.elim

/-! ### Executions are runs on the view -/

/-- The actions of the MPU code do to the view what they do to the state. -/
theorem sim_sampled (t : Tid) : Simulates (sampledMachine F) (mpuMachine F) t () (mpuView t)
    fun a => a.ofMpu = true := by
  intro a s r s' ha hstep
  obtain ⟨⟨r₁, s₁⟩, hexec, hrs⟩ := Option.map_eq_some_iff.mp hstep
  obtain ⟨rfl, rfl⟩ := Prod.mk.inj hrs
  cases a with
  | getMpu =>
      obtain ⟨rfl, rfl⟩ := Sys.exec_getMpu hexec
      rfl
  | setMpu f =>
      rw [Sys.exec_setMpu hexec]
      rfl
  | note ev =>
      rw [Sys.exec_note hexec]
      rfl
  | mtxInit m =>
      rw [Sys.exec_mtxInit hexec]
      rfl
  | mtxLock m =>
      rw [Sys.exec_mtxLock hexec]
      rfl
  | mtxResume =>
      obtain ⟨k, -, rfl⟩ := Sys.exec_mtxResume hexec
      rfl
  | mtxUnlock m =>
      rw [Sys.exec_mtxUnlock hexec]
      rfl
  | sleep =>
      rw [Sys.exec_sleep hexec]
      rfl
  | i2cBegin =>
      rw [Sys.exec_i2cBegin hexec]
      rfl
  | i2cTransfer addr txbytes rxbytes =>
      rw [Sys.exec_i2cTransfer hexec]
      refine congrArg some (Prod.ext rfl (MpuView.ext rfl rfl ?_ rfl rfl))
      exact (Function.update_self t _ s.1.results).symm
  | i2cEnd =>
      obtain ⟨rfl, rfl⟩ := Sys.exec_i2cEnd hexec
      rfl
  | sdOut o =>
      rw [Sys.exec_sdOut hexec]
      rfl
  | getSer => cases ha
  | setSer f => cases ha
  | thdCreate u => cases ha
  | i2cStart => cases ha
  | sdStart => cases ha
  | iqRead off n timeout => cases ha
  | iqWake off n => cases ha
  | iqReset => cases ha

/-- Without samples. -/
theorem sim_machine (t : Tid) : Simulates (machine F) (mpuMachine F) t ()
    (fun s => mpuView t (s, Samples.none)) fun a => a.ofMpu = true := by
  intro a s r s' ha hstep
  refine sim_sampled t a (s, Samples.none) r (s', Samples.none) ha ?_
  have hsame : (if a.isTransfer then resample (Samples.none 0) s.regs else s.regs) = s.regs := by
    split <;> rfl
  have hshift : (if a.isTransfer then fun n => Samples.none (n + 1) else Samples.none) =
      Samples.none := by
    split <;> rfl
  show (Sys.exec t a { s with regs := _ }).map _ = _
  simp only [hsame, hshift]
  exact congrArg (Option.map fun r => (r.1, (r.2, Samples.none))) hstep

/-- What the other threads may do beside a call of `mpu.c` by thread `t`: anything
but change the variables, the registers, the driver, and the results of `t`. -/
structure Aside (t : Tid) (s s' : Sys F) : Prop where
  mpu : s'.mpu = s.mpu
  regs : s'.regs = s.regs
  results : s'.results t = s.results t
  i2c : s'.i2c = s.i2c

/-- What the other threads do meanwhile is invisible in the view. -/
theorem Aside.view {t : Tid} {s s' : Sys F} (h : Aside t s s') (sched : Samples) :
    mpuView t (s', sched) = mpuView t (s, sched) := by
  ext1
  · exact h.mpu
  · exact h.regs
  · exact h.results
  · rfl
  · exact congrArg I2CDriver.msg h.i2c

/-- A recorded call performs what its body performs. -/
theorem ofMpu_call {f : Fn} {p : Prog F α} (hp : p.All fun a : Act F => a.ofMpu = true) :
    (call f p).All fun a : Act F => a.ofMpu = true :=
  .bind ⟨rfl, fun _ => trivial⟩ fun _ => .bind hp fun _ => ⟨rfl, fun _ => trivial⟩

/-- A transfer is among the actions of the MPU code. -/
theorem ofMpu_i2c1Transmit (addr : UInt8) (txsize rxsize timeout : Nat) :
    (i2c1Transmit (F := F) addr txsize rxsize timeout).All fun a : Act F => a.ofMpu = true := by
  simp [i2c1Transmit, i2cAcquireBus, i2cMasterTransmitTimeout, i2cReleaseBus, chMtxLock,
    chMtxUnlock, perform, Act.ofMpu]

/-- The read of one axis performs no other actions. -/
theorem ofMpu_mpuReadAccAxis (axis : AccAxis) (store : UInt16 → MpuC F → MpuC F) :
    (mpuReadAccAxis axis store).All fun a : Act F => a.ofMpu = true := by
  refine ofMpu_call (.bind ⟨rfl, fun _ => trivial⟩ fun _ => ?_)
  refine .bind (ofMpu_i2c1Transmit _ _ _ _) fun _ => .ite trivial ?_
  refine .bind ⟨rfl, fun _ => trivial⟩ fun _ => .bind ⟨rfl, fun _ => trivial⟩ fun _ => ?_
  refine .bind (ofMpu_i2c1Transmit _ _ _ _) fun _ => .ite trivial ?_
  exact .bind ⟨rfl, fun _ => trivial⟩ fun _ => .bind ⟨rfl, fun _ => trivial⟩ fun _ => trivial

/-- An update performs no other actions. -/
theorem ofMpu_mpuAccUpdate [CFloat F] :
    (mpuAccUpdate (F := F)).All fun a : Act F => a.ofMpu = true := by
  refine ofMpu_call (.bind (ofMpu_mpuReadAccAxis _ _) fun _ => ?_)
  refine .bind (ofMpu_mpuReadAccAxis _ _) fun _ => .bind (ofMpu_mpuReadAccAxis _ _) fun _ => ?_
  refine .ite trivial ?_
  simp [setMpu, getMpu, note, perform, Act.ofMpu]

/-- A change of range performs no other actions. -/
theorem ofMpu_mpuAccRange [CFloat F] (range : AccelRange) :
    (mpuAccRange (F := F) range).All fun a : Act F => a.ofMpu = true := by
  refine ofMpu_call (.bind ⟨rfl, fun _ => trivial⟩ fun _ =>
    .bind ⟨rfl, fun _ => trivial⟩ fun _ => ?_)
  refine .bind ⟨rfl, fun _ => ⟨rfl, fun _ => trivial⟩⟩ fun _ => ?_
  refine .bind ⟨rfl, fun _ => trivial⟩ fun _ => ?_
  refine .bind (ofMpu_i2c1Transmit _ _ _ _) fun _ => .ite trivial ?_
  exact .bind ⟨rfl, fun _ => trivial⟩ fun _ => trivial

/-- A call beside other threads is the function on the view. -/
theorem run_of_exec {t : Tid} {p : Prog F α} {s s' : Sys F} {x : α}
    (hp : p.All fun a : Act F => a.ofMpu = true) (he : Exec (machine F) t (Aside t) p s x s') :
    runAlone (mpuMachine F) () p (mpuView t (s, Samples.none)) =
      some (x, mpuView t (s', Samples.none)) := by
  have hrely : ∀ s s' : Sys F, Aside t s s' →
      mpuView t (s', Samples.none) = mpuView t (s, Samples.none) := by
    intro s s' h
    exact h.view Samples.none
  have hrun := Exec.runAlone_view (sim_machine t) hrely hp he
  exact hrun

/-- `Aside`, beside a schedule of samples. -/
def AsideSampled (t : Tid) (s s' : Sys F × Samples) : Prop := Aside t s.1 s'.1 ∧ s'.2 = s.2

/-- A call beside other threads and a schedule of samples is the function on the
view. -/
theorem run_of_exec_sampled {t : Tid} {p : Prog F α} {s s' : Sys F × Samples} {x : α}
    (hp : p.All fun a : Act F => a.ofMpu = true)
    (he : Exec (sampledMachine F) t (AsideSampled t) p s x s') :
    runAlone (mpuMachine F) () p (mpuView t s) = some (x, mpuView t s') := by
  refine he.runAlone_view (sim_sampled t) ?_ hp
  rintro ⟨s₁, sched₁⟩ ⟨s₂, sched₂⟩ ⟨haside, hsched⟩
  cases hsched
  exact haside.view sched₁

/-- No thread sleeps at a mutex. -/
def calm (s : Sys F × Samples) : Sys F × Samples :=
  ({ s.1 with started := fun _ => true, kern := { s.1.kern with wtmtx := fun _ => none } }, s.2)

/-- With no other thread about, an action of the MPU code is always possible. -/
theorem exec_calm (t : Tid) {a : Act F} (ha : a.ofMpu = true) (s : Sys F × Samples) :
    ∃ r s', (sampledMachine F).exec t a (calm s) = some (r, s') := by
  cases a with
  | getMpu => exact ⟨_, _, rfl⟩
  | setMpu f => exact ⟨_, _, rfl⟩
  | note ev => exact ⟨_, _, rfl⟩
  | mtxInit m => exact ⟨_, _, rfl⟩
  | mtxLock m => exact ⟨_, _, rfl⟩
  | mtxResume => exact ⟨_, _, rfl⟩
  | mtxUnlock m => exact ⟨_, _, rfl⟩
  | sleep => exact ⟨_, _, rfl⟩
  | i2cBegin => exact ⟨_, _, rfl⟩
  | i2cTransfer addr txbytes rxbytes => exact ⟨_, _, rfl⟩
  | i2cEnd => exact ⟨_, _, rfl⟩
  | sdOut o => exact ⟨_, _, rfl⟩
  | _ => cases ha

/-- The other threads can let a call go on to its end. -/
theorem exists_exec (t : Tid) {p : Prog F α} (hp : p.All fun a : Act F => a.ofMpu = true)
    (s : Sys F × Samples) : ∃ x s', Exec (sampledMachine F) t (AsideSampled t) p s x s' := by
  induction p generalizing s with
  | ret x => exact ⟨x, s, .ret x s⟩
  | act a k ih =>
      obtain ⟨r, s₁, hstep⟩ := exec_calm t hp.1 s
      obtain ⟨x, s', he⟩ := ih r (hp.2 r) s₁
      have hcalm : AsideSampled t s (calm s) := ⟨⟨rfl, rfl, rfl, rfl⟩, rfl⟩
      exact ⟨x, s', .intf hcalm (.act hstep he)⟩

/-! ### Runs of the parts -/

section
variable (v : MpuView F)

/-- Alone, an assignment assigns. -/
theorem run_setMpu (f : MpuC F → MpuC F) :
    runAlone (mpuMachine F) () (setMpu f) v = some ((), v.set f) := rfl

/-- Alone, an assignment to the transmit buffer assigns. -/
theorem run_setTxbuf (i : Fin 5) (b : UInt8) : runAlone (mpuMachine F) () (setTxbuf i b) v =
    some ((), v.set fun c => { c with txbuf := Function.update c.txbuf i b }) := rfl

/-- A lock does not show in the view. -/
theorem run_chMtxLock (m : Mtx) :
    runAlone (mpuMachine F) () (chMtxLock m) v = some ((), v) := rfl

/-- The variables as the view has them. -/
theorem run_getMpu : runAlone (mpuMachine F) () getMpu v = some (v.mpu, v) := rfl

/-- A log entry does not show in the view. -/
theorem run_note (ev : MpuC F → Obs F) :
    runAlone (mpuMachine F) () (note ev) v = some ((), v) := rfl

/-- Alone, a transfer is the view's transfer, and returns its message. -/
theorem run_i2c1Transmit (addr : UInt8) (txsize rxsize timeout : Nat) :
    runAlone (mpuMachine F) () (i2c1Transmit addr txsize rxsize timeout) v =
      some ((v.results 0).msg, v.transfer txsize rxsize) := rfl

/-- A recorded call runs as its body. -/
theorem run_call (f : Fn) (p : Prog F α) :
    runAlone (mpuMachine F) () (call f p) v = runAlone (mpuMachine F) () p v := by
  unfold call
  rw [Threads.runAlone_seq _ _ (run_note v _), runAlone_bind]
  cases runAlone (mpuMachine F) () p v with
  | none => rfl
  | some r => rfl

end

/-! ### `mpu_read_acc_axis` -/

/-- The row value of a high and a low byte. -/
def word (high low : UInt8) : UInt16 := (high.toUInt16 <<< 8) ||| low.toUInt16

/-- `txbuf` and `rxbuf` are not empty. -/
local instance buffers_nonempty : NeZero 5 := ⟨by decide⟩

/-- `mpu_read_acc_axis` on the view. -/
def readAxis (axis : AccAxis) (store : UInt16 → MpuC F → MpuC F) (v : MpuView F) :
    Msg × MpuView F :=
  let v₁ := (v.set fun c => { c with txbuf := Function.update c.txbuf 0 axis.code }).transfer 1 1
  if (v.results 0).msg ≠ .MSG_OK then ((v.results 0).msg, v₁)
  else
    let v₂ := (v₁.set fun c =>
      { c with txbuf := Function.update c.txbuf 0 (c.txbuf 0 + 1) }).transfer 1 2
    if (v.results 1).msg ≠ .MSG_OK then ((v.results 1).msg, v₂)
    else (.MSG_OK, v₂.set (store (word (v₁.mpu.rxbuf 0) (v₂.mpu.rxbuf 1))))

/-- The read of one axis computes `readAxis`: one transfer, and a second one when the
first has succeeded. -/
theorem run_mpuReadAccAxis (axis : AccAxis) (store : UInt16 → MpuC F → MpuC F)
    (v : MpuView F) : runAlone (mpuMachine F) () (mpuReadAccAxis axis store) v =
      some (readAxis axis store v) := by
  unfold mpuReadAccAxis readAxis
  rw [run_call, Threads.runAlone_seq _ _ (run_setTxbuf v _ _),
    Threads.runAlone_seq _ _ (run_i2c1Transmit _ _ _ _ _), Threads.runAlone_ite]
  show (if (v.results 0).msg ≠ .MSG_OK then _ else _) = _
  split
  · rfl
  · rw [Threads.runAlone_seq _ _ (run_getMpu _), Threads.runAlone_seq _ _ (run_setMpu _ _),
      Threads.runAlone_seq _ _ (run_i2c1Transmit _ _ _ _ _), Threads.runAlone_ite]
    show (if (v.results 1).msg ≠ .MSG_OK then _ else _) = _
    split <;> rfl

namespace MpuView

variable (v : MpuView F)

/-- The registers after `n` transfers that only read. -/
def regsAfter : Nat → UInt8 → UInt8
  | 0 => v.regs
  | n + 1 => resample (v.samples n) (regsAfter n)

/-- Without samples the registers stay as they are. -/
theorem regsAfter_none {v : MpuView F} (h : v.samples = .none) (n : Nat) :
    v.regsAfter n = v.regs := by
  induction n with
  | zero => rfl
  | succ n ih =>
      show resample (v.samples n) (v.regsAfter n) = v.regs
      rw [h, ih]
      rfl

/-- The view after `n` transfers that only read, with the variables `c`. -/
def after (n : Nat) (c : MpuC F) (m : Msg) : MpuView F where
  mpu := c
  regs := v.regsAfter n
  results := fun k => v.results (n + k)
  samples := fun k => v.samples (n + k)
  msg := m

/-- The samples of a later part are those of the whole, shifted. -/
theorem regsAfter_after (n : Nat) (c : MpuC F) (m : Msg) (k : Nat) :
    (v.after n c m).regsAfter k = v.regsAfter (n + k) := by
  induction k with
  | zero => rfl
  | succ k ih =>
      show resample (v.samples (n + k)) ((v.after n c m).regsAfter k) = _
      rw [ih]
      rfl

/-- Two parts make one. -/
theorem after_after (n k : Nat) (c c' : MpuC F) (m m' : Msg) :
    (v.after n c m).after k c' m' = v.after (n + k) c' m' := by
  ext1
  · rfl
  · exact v.regsAfter_after n c m k
  · funext j
    show v.results (n + (k + j)) = v.results (n + k + j)
    rw [Nat.add_assoc]
  · funext j
    show v.samples (n + (k + j)) = v.samples (n + k + j)
    rw [Nat.add_assoc]
  · rfl

/-- A change of `txbuf`, and a transfer that writes the register address only. -/
theorem transfer_one (g : Buf 5 → Buf 5) (rxbytes : Nat) : ∃ rx,
    (v.set fun c => { c with txbuf := g c.txbuf }).transfer 1 rxbytes =
      v.after 1 { v.mpu with txbuf := g v.mpu.txbuf, rxbuf := rx } (v.results 0).msg ∧
    ((v.results 0).msg = .MSG_OK → rx = v.mpu.rxbuf.write 0
      (readRegs (g v.mpu.txbuf 0) (v.regsAfter 1) rxbytes)) := by
  have hbytes : (List.ofFn (g v.mpu.txbuf)).take 1 = [g v.mpu.txbuf 0] := rfl
  refine ⟨_, MpuView.ext rfl ?_ ?_ ?_ rfl, fun hres => ?_⟩
  · show (if (v.results 0).msg = .MSG_OK then
      sensorWrite ((List.ofFn (g v.mpu.txbuf)).take 1) v.sensed else v.sensed) = v.sensed
    rw [hbytes]
    split <;> rfl
  · funext k
    show v.results (k + 1) = v.results (1 + k)
    rw [Nat.add_comm]
  · funext k
    show v.samples (k + 1) = v.samples (1 + k)
    rw [Nat.add_comm]
  · show v.mpu.rxbuf.write 0 (if (v.results 0).msg = .MSG_OK then
      sensorRead ((List.ofFn (g v.mpu.txbuf)).take 1) v.sensed rxbytes else _) = _
    rw [if_pos hres, hbytes]
    rfl

end MpuView

/-- The result of `mpu_read_acc_axis`, of its transfers' results. -/
def axisMsg (results : Nat → I2CResult) : Msg :=
  if (results 0).msg ≠ .MSG_OK then (results 0).msg else (results 1).msg

/-- An axis is read when both of its transfers succeed. -/
theorem axisMsg_eq_ok_iff (results : Nat → I2CResult) : axisMsg results = .MSG_OK ↔
    (results 0).msg = .MSG_OK ∧ (results 1).msg = .MSG_OK := by
  unfold axisMsg
  by_cases h : (results 0).msg = .MSG_OK <;> simp [h]

/-- How many transfers it makes. -/
def axisTransfers (results : Nat → I2CResult) : Nat :=
  if (results 0).msg ≠ .MSG_OK then 1 else 2

/-- What it stores: the register of the axis, and the one two places on, since
`rxbuf[1]` is the second byte of a read that starts at the low byte. -/
def MpuView.axisWord (v : MpuView F) (axis : AccAxis) : UInt16 :=
  word (v.regsAfter 1 axis.code) (v.regsAfter 2 (axis.code + 2))

/-- `mpu_read_acc_axis` stores its value or nothing, and changes the buffers. -/
theorem readAxis_eq (axis : AccAxis) (store : UInt16 → MpuC F → MpuC F) (v : MpuView F) :
    ∃ tx rx m, readAxis axis store v =
      (axisMsg v.results, v.after (axisTransfers v.results)
        (if axisMsg v.results = .MSG_OK then
          store (v.axisWord axis) { v.mpu with txbuf := tx, rxbuf := rx }
        else { v.mpu with txbuf := tx, rxbuf := rx }) m) := by
  obtain ⟨rx₁, htr₁, hrx₁⟩ := v.transfer_one (fun b => Function.update b 0 axis.code) 1
  unfold readAxis axisMsg axisTransfers
  rw [htr₁]
  by_cases h₀ : (v.results 0).msg = .MSG_OK
  · rw [if_neg (not_not_intro h₀), if_neg (not_not_intro h₀), if_neg (not_not_intro h₀)]
    obtain ⟨rx₂, htr₂, hrx₂⟩ := (v.after 1 { v.mpu with
      txbuf := Function.update v.mpu.txbuf 0 axis.code, rxbuf := rx₁ }
        (v.results 0).msg).transfer_one (fun b => Function.update b 0 (b 0 + 1)) 2
    simp only [htr₂]
    rw [MpuView.after_after]
    by_cases h₁ : (v.results 1).msg = .MSG_OK
    · have hword : word (rx₁ 0) (rx₂ 1) = v.axisWord axis := by
        rw [hrx₁ h₀, hrx₂ h₁, MpuView.regsAfter_after]
        show word (v.regsAfter 1 axis.code) (v.regsAfter 2 (axis.code + 1 + 1)) = _
        rw [UInt8.add_assoc]
        rfl
      simp only [h₁, ne_eq, not_true_eq_false, if_true, if_false, ← hword]
      exact ⟨_, rx₂, _, rfl⟩
    · simp only [h₁, ne_eq, not_false_eq_true, if_true, if_false]
      exact ⟨_, rx₂, _, rfl⟩
  · simp only [h₀, ne_eq, not_false_eq_true, if_true, if_false]
    exact ⟨_, rx₁, _, rfl⟩

/-! ### `mpu_acc_update` -/

/-- The assignments of `mpu_acc_update` after the three reads. -/
def MpuC.publish [CFloat F] (c : MpuC F) : MpuC F :=
  let x := CFloat.mul (CFloat.ofUInt16 c.axisRowX) c.accScaleRef
  let y := CFloat.mul (CFloat.ofUInt16 c.axisRowY) c.accScaleRef
  let z := CFloat.sub (CFloat.mul (CFloat.ofUInt16 c.axisRowZ) c.accScaleRef) ACC_Z_CENTER
  let x2 := CFloat.toUInt32 (CFloat.mul x x)
  let y2 := CFloat.toUInt32 (CFloat.mul y y)
  let z2 := CFloat.toUInt32 (CFloat.mul z z)
  { c with
    axisX := x
    axisY := y
    axisZ := z
    axisAngX := CFloat.atan (CFloat.div x (CFloat.sqrt (y2 + z2)))
    axisAngY := CFloat.atan (CFloat.div y (CFloat.sqrt (x2 + z2))) }

/-- Where the read of the x axis is stored. -/
abbrev storeX (w : UInt16) (c : MpuC F) : MpuC F := { c with axisRowX := w }
/-- Where the read of the y axis is stored. -/
abbrev storeY (w : UInt16) (c : MpuC F) : MpuC F := { c with axisRowY := w }
/-- Where the read of the z axis is stored. -/
abbrev storeZ (w : UInt16) (c : MpuC F) : MpuC F := { c with axisRowZ := w }

/-- The three reads of `mpu_acc_update`. -/
def accRead (v : MpuView F) : (Msg × Msg × Msg) × MpuView F :=
  let x := readAxis .ACC_AXIS_X storeX v
  let y := readAxis .ACC_AXIS_Y storeY x.2
  let z := readAxis .ACC_AXIS_Z storeZ y.2
  ((x.1, y.1, z.1), z.2)

/-- `mpu_acc_update` on the view. -/
def accUpdate [CFloat F] (v : MpuView F) : Bool × MpuView F :=
  let r := accRead v
  if r.1.1.code &&& r.1.2.1.code &&& r.1.2.2.code ≠ Msg.MSG_OK.code then (false, r.2)
  else (true, r.2.set MpuC.publish)

/-- An update computes `accUpdate`. -/
theorem run_mpuAccUpdate [CFloat F] (v : MpuView F) :
    runAlone (mpuMachine F) () mpuAccUpdate v = some (accUpdate v) := by
  unfold accUpdate accRead
  dsimp only
  unfold mpuAccUpdate
  rw [run_call, Threads.runAlone_seq' _ _ (run_mpuReadAccAxis .ACC_AXIS_X storeX v)]
  generalize readAxis .ACC_AXIS_X storeX v = x
  rw [Threads.runAlone_seq' _ _ (run_mpuReadAccAxis .ACC_AXIS_Y storeY x.2)]
  generalize readAxis .ACC_AXIS_Y storeY x.2 = y
  rw [Threads.runAlone_seq' _ _ (run_mpuReadAccAxis .ACC_AXIS_Z storeZ y.2)]
  generalize readAxis .ACC_AXIS_Z storeZ y.2 = z
  rw [Threads.runAlone_ite]
  by_cases h : x.1.code &&& y.1.code &&& z.1.code ≠ Msg.MSG_OK.code
  · simp only [if_pos h]
    rfl
  · simp only [if_neg h]
    -- The conversions to g's, the squares, and the two angles.
    rw [Threads.runAlone_seq _ _ (run_setMpu _ _), Threads.runAlone_seq _ _ (run_setMpu _ _),
      Threads.runAlone_seq _ _ (run_setMpu _ _), Threads.runAlone_seq _ _ (run_setMpu _ _),
      Threads.runAlone_seq _ _ (run_getMpu _), Threads.runAlone_seq _ _ (run_getMpu _),
      Threads.runAlone_seq _ _ (run_setMpu _ _), Threads.runAlone_seq _ _ (run_getMpu _),
      Threads.runAlone_seq _ _ (run_setMpu _ _), Threads.runAlone_seq _ _ (run_note _ _)]
    unfold MpuC.publish MpuView.set
    rfl

/-- How many transfers `mpu_acc_update` makes before it reads an axis. -/
def readStart (results : Nat → I2CResult) : AccAxis → Nat
  | .ACC_AXIS_X => 0
  | .ACC_AXIS_Y => axisTransfers results
  | .ACC_AXIS_Z =>
      axisTransfers results + axisTransfers fun k => results (axisTransfers results + k)

/-- The result of the read of an axis in `mpu_acc_update`. -/
def readMsg (results : Nat → I2CResult) (axis : AccAxis) : Msg :=
  axisMsg fun k => results (readStart results axis + k)

namespace MpuView

/-- The value that a successful read of the axis stores. -/
def wordOf (v : MpuView F) (axis : AccAxis) : UInt16 :=
  word (v.regsAfter (readStart v.results axis + 1) axis.code)
    (v.regsAfter (readStart v.results axis + 2) (axis.code + 2))

/-- The row value of an axis after its read, when it was `old` before. -/
def row (v : MpuView F) (axis : AccAxis) (old : UInt16) : UInt16 :=
  if readMsg v.results axis = .MSG_OK then v.wordOf axis else old

/-- The variables after the three reads. -/
def read (v : MpuView F) (tx rx : Buf 5) : MpuC F :=
  { v.mpu with
    txbuf := tx
    rxbuf := rx
    axisRowX := v.row .ACC_AXIS_X v.mpu.axisRowX
    axisRowY := v.row .ACC_AXIS_Y v.mpu.axisRowY
    axisRowZ := v.row .ACC_AXIS_Z v.mpu.axisRowZ }

end MpuView

/-- The bitwise AND of the three codes is `MSG_OK` as soon as one of them is. -/
theorem code_and_eq_zero (x y z : Msg) :
    x.code &&& y.code &&& z.code = Msg.MSG_OK.code ↔
      x = .MSG_OK ∨ y = .MSG_OK ∨ z = .MSG_OK := by
  cases x <;> cases y <;> cases z <;> decide

/-- Nothing has happened after no transfer. -/
theorem MpuView.after_zero (v : MpuView F) : v.after 0 v.mpu v.msg = v := by
  ext1
  · rfl
  · rfl
  · exact funext fun k => congrArg v.results (Nat.zero_add k)
  · exact funext fun k => congrArg v.samples (Nat.zero_add k)
  · rfl

/-- `mpu_read_acc_axis` within `mpu_acc_update`, for a row variable that `get`
reads and `store` assigns. -/
theorem readAxis_start (axis : AccAxis) (store : UInt16 → MpuC F → MpuC F)
    (get : MpuC F → UInt16) (hself : ∀ c, store (get c) c = c)
    (hget : ∀ (c : MpuC F) tx rx, get { c with txbuf := tx, rxbuf := rx } = get c)
    (v : MpuView F) (c : MpuC F) (m : Msg) : ∃ tx rx m',
      readAxis axis store (v.after (readStart v.results axis) c m) =
        (readMsg v.results axis, v.after
          (readStart v.results axis + axisTransfers fun k =>
            v.results (readStart v.results axis + k))
          (store (v.row axis (get c)) { c with txbuf := tx, rxbuf := rx }) m') := by
  obtain ⟨tx, rx, m', h⟩ := readAxis_eq axis store (v.after (readStart v.results axis) c m)
  rw [MpuView.after_after, MpuView.axisWord, MpuView.regsAfter_after,
    MpuView.regsAfter_after] at h
  refine ⟨tx, rx, m', h.trans ?_⟩
  show (readMsg v.results axis, v.after _
    (if readMsg v.results axis = .MSG_OK then store (v.wordOf axis) _ else _) m') = _
  unfold MpuView.row
  split
  · rfl
  · rw [← hget c tx rx, hself]
    rfl

/-- What three reads return and leave: the messages of the axes, and the view after their
transfers with the axes that were read. -/
theorem accRead_eq (v : MpuView F) : ∃ tx rx m n, accRead v =
    ((readMsg v.results .ACC_AXIS_X, readMsg v.results .ACC_AXIS_Y,
      readMsg v.results .ACC_AXIS_Z), v.after n (v.read tx rx) m) := by
  obtain ⟨tx₁, rx₁, m₁, h₁⟩ := readAxis_start .ACC_AXIS_X storeX MpuC.axisRowX (fun _ => rfl)
    (fun _ _ _ => rfl) v v.mpu v.msg
  rw [show readStart v.results .ACC_AXIS_X = 0 from rfl, v.after_zero, Nat.zero_add] at h₁
  generalize hc₁ : storeX _ _ = c₁ at h₁
  obtain ⟨tx₂, rx₂, m₂, h₂⟩ := readAxis_start .ACC_AXIS_Y storeY MpuC.axisRowY (fun _ => rfl)
    (fun _ _ _ => rfl) v c₁ m₁
  generalize hc₂ : storeY _ _ = c₂ at h₂
  obtain ⟨tx₃, rx₃, m₃, h₃⟩ := readAxis_start .ACC_AXIS_Z storeZ MpuC.axisRowZ (fun _ => rfl)
    (fun _ _ _ => rfl) v c₂ m₂
  refine ⟨tx₃, rx₃, m₃, readStart v.results .ACC_AXIS_Z +
    axisTransfers fun k => v.results (readStart v.results .ACC_AXIS_Z + k), ?_⟩
  have hY : (readAxis .ACC_AXIS_X storeX v).2 =
      v.after (readStart v.results .ACC_AXIS_Y) c₁ m₁ := by
    rw [h₁]
    rfl
  have hZ : (readAxis .ACC_AXIS_Y storeY (v.after (readStart v.results .ACC_AXIS_Y) c₁ m₁)).2 =
      v.after (readStart v.results .ACC_AXIS_Z) c₂ m₂ := by
    rw [h₂]
    rfl
  unfold accRead
  dsimp only
  rw [hY, hZ, h₁, h₂, h₃]
  subst hc₂ hc₁
  rfl

/-- Some axis has been read. -/
def AnyRead (results : Nat → I2CResult) : Prop :=
  readMsg results .ACC_AXIS_X = .MSG_OK ∨ readMsg results .ACC_AXIS_Y = .MSG_OK ∨
    readMsg results .ACC_AXIS_Z = .MSG_OK

/-- There are three axes to look at. -/
instance (results : Nat → I2CResult) : Decidable (AnyRead results) :=
  inferInstanceAs (Decidable (_ ∨ _ ∨ _))

/-- The three axes are all there are. -/
theorem anyRead_iff (results : Nat → I2CResult) :
    AnyRead results ↔ ∃ axis, readMsg results axis = .MSG_OK := by
  constructor
  · rintro (hx | hy | hz)
    · exact ⟨_, hx⟩
    · exact ⟨_, hy⟩
    · exact ⟨_, hz⟩
  · rintro ⟨axis, h⟩
    cases axis with
    | ACC_AXIS_X => exact .inl h
    | ACC_AXIS_Y => exact .inr (.inl h)
    | ACC_AXIS_Z => exact .inr (.inr h)

/-- What `mpu_acc_update` returns and stores. -/
theorem accUpdate_eq [CFloat F] (v : MpuView F) : ∃ tx rx m n, accUpdate v =
    (decide (AnyRead v.results),
      v.after n (if AnyRead v.results then (v.read tx rx).publish else v.read tx rx) m) := by
  obtain ⟨tx, rx, m, n, hread⟩ := accRead_eq v
  refine ⟨tx, rx, m, n, ?_⟩
  unfold accUpdate
  dsimp only
  rw [hread]
  by_cases hany : AnyRead v.results
  · rw [if_neg (not_not_intro ((code_and_eq_zero _ _ _).mpr hany)), if_pos hany,
      decide_eq_true hany]
    rfl
  · rw [if_pos (fun h => hany ((code_and_eq_zero _ _ _).mp h)), if_neg hany,
      decide_eq_false hany]

/-- What a run of `mpu_acc_update` on a view says about its states. -/
theorem update_of_run [CFloat F] {v v' : MpuView F} {b : Bool}
    (h : runAlone (mpuMachine F) () mpuAccUpdate v = some (b, v')) :
    b = decide (AnyRead v.results) ∧ ∃ tx rx, v'.mpu =
      if AnyRead v.results then (v.read tx rx).publish else v.read tx rx := by
  obtain ⟨tx, rx, m, n, hupdate⟩ := accUpdate_eq v
  rw [run_mpuAccUpdate, hupdate] at h
  obtain ⟨hb, hview⟩ := Prod.mk.inj (Option.some.inj h)
  exact ⟨hb.symm, tx, rx, (congrArg MpuView.mpu hview).symm⟩

/-- A call of `mpu_acc_update` beside other threads. -/
theorem exec_mpuAccUpdate [CFloat F] {t : Tid} {s s' : Sys F} {b : Bool}
    (he : Exec (machine F) t (Aside t) mpuAccUpdate s b s') :
    b = decide (AnyRead (s.results t)) ∧ ∃ tx rx, s'.mpu =
      if AnyRead (s.results t) then ((mpuView t (s, .none)).read tx rx).publish
      else (mpuView t (s, .none)).read tx rx :=
  update_of_run (run_of_exec ofMpu_mpuAccUpdate he)

/-! ### `mpu_acc_range` -/

/-- `mpu_acc_range` on the view. -/
def accRangeRun [CFloat F] (range : AccelRange) (v : MpuView F) : Bool × MpuView F :=
  ((v.results 0).msg = .MSG_OK, (v.set fun c => { c with
    txbuf := Function.update (Function.update c.txbuf 0 ACCEL_CONFIG) 1 range.code
    accScaleRef := accScale range }).transfer 2 0)

/-- A change of range computes `accRangeRun`. -/
theorem run_mpuAccRange [CFloat F] (range : AccelRange) (v : MpuView F) :
    runAlone (mpuMachine F) () (mpuAccRange range) v = some (accRangeRun range v) := by
  unfold mpuAccRange
  rw [run_call, Threads.runAlone_seq _ _ (run_setTxbuf _ _ _),
    Threads.runAlone_seq _ _ (run_setTxbuf _ _ _),
    Threads.runAlone_seq _ _ (run_chMtxLock _ _), Threads.runAlone_seq _ _ (run_setMpu _ _),
    Threads.runAlone_seq _ _ (run_i2c1Transmit _ _ _ _ _), Threads.runAlone_ite]
  show (if (v.results 0).msg ≠ .MSG_OK then _ else _) =
    some (decide ((v.results 0).msg = .MSG_OK), _)
  by_cases h : (v.results 0).msg = .MSG_OK
  · rw [if_neg (not_not_intro h), decide_eq_true h]
    rfl
  · rw [if_pos h, decide_eq_false h]
    rfl

/-- A call of `mpu_acc_range` beside other threads. The sensor takes the range when
the transfer succeeds, `acc_scale_ref` in any case. -/
theorem exec_mpuAccRange [CFloat F] {t : Tid} {range : AccelRange} {s s' : Sys F} {b : Bool}
    (he : Exec (machine F) t (Aside t) (mpuAccRange range) s b s') :
    b = decide ((s.results t 0).msg = .MSG_OK) ∧ s'.mpu.accScaleRef = accScale range ∧
      s'.regs = (if (s.results t 0).msg = .MSG_OK then
        Function.update s.regs ACCEL_CONFIG range.code else s.regs) ∧
      s'.results t = fun n => s.results t (n + 1) := by
  have hrun := run_of_exec (ofMpu_mpuAccRange range) he
  rw [run_mpuAccRange] at hrun
  obtain ⟨hb, hview⟩ := Prod.mk.inj (Option.some.inj hrun)
  refine ⟨hb.symm, (congrArg (fun v => v.mpu.accScaleRef) hview).symm, ?_,
    (congrArg MpuView.results hview).symm⟩
  exact (congrArg MpuView.regs hview).symm

end MotionTracking
