import Mathlib.Tactic.MkIffOfInductiveProp
import MotionTracking.Firmware.Command

/-!
# `MotionTracking.Firmware.Footprint`: what each function can touch

A `Footprint` lists mutexes, variables and log entries. `Within A` says that an
action stays in it: it locks and assigns only what `A` lists. There is one lemma
per function, `within_f`, with the footprint of `f`, so a proof about one
variable can pass over all code that has it not in its footprint.

The driver and device actions are in the footprint as the mutex that guards
them: `i2c` for the transfers, `mtprint` for the input queue.
-/

set_option autoImplicit false

namespace MotionTracking

open Threads.Prog (perform All)

variable {F α : Type}

/-- What a function may lock, assign and log. The default is nothing. -/
structure Footprint where
  locks : List Mtx := []
  txbuf : Bool := false
  row : Bool := false
  axes : Bool := false
  angles : Bool := false
  scale : Bool := false
  /-- `read_enable` of `mpu.c`. -/
  enable : Bool := false
  /-- `read_enable` of `serialcomm.c`. -/
  serEnable : Bool := false
  option : Bool := false
  serAxes : Bool := false
  rdCount : Bool := false
  /-- Lines of a report. -/
  reports : Bool := false
  /-- Calls of `mpu_acc_update`, `mpu_read_acc_axis`, and what they publish. -/
  updates : Bool := false
  ranges : Bool := false
  getters : Bool := false
  reads : Bool := false
  commands : Bool := false
  deriving DecidableEq

namespace Footprint

/-- The recorded calls of `f` are in the footprint. -/
def calls (A : Footprint) : Fn → Bool
  | .mpuAccRange _ => A.ranges
  | .mpuReadAccAxis _ => A.updates
  | .mpuAccUpdate => A.updates
  | .serialReadAccaxisDeg => A.getters
  | .serialReadAccaxisD => A.getters
  | .serialReadAccaxisG => A.getters
  | .serialRead => A.reads
  | .commadCheck _ => A.commands

/-- The entries that `note` writes. The others come with the actions themselves. -/
def notes (A : Footprint) : Obs F → Bool
  | .began f => A.calls f
  | .returned f => A.calls f
  | .published _ => A.updates
  | _ => false

/-- Only the lines of a report are told apart from other output. -/
def prints (A : Footprint) : Out F → Bool
  | .axis _ _ => A.reports
  | _ => true

/-- An assignment to the variables of `mpu.c`. -/
@[mk_iff]
structure Mpu (A : Footprint) (c c' : MpuC F) : Prop where
  rxbuf : c'.rxbuf = c.rxbuf
  txbuf : A.txbuf = false → c'.txbuf = c.txbuf
  row : A.row = false →
    c'.axisRowX = c.axisRowX ∧ c'.axisRowY = c.axisRowY ∧ c'.axisRowZ = c.axisRowZ
  axes : A.axes = false → c'.axisX = c.axisX ∧ c'.axisY = c.axisY ∧ c'.axisZ = c.axisZ
  angles : A.angles = false → c'.axisAngX = c.axisAngX ∧ c'.axisAngY = c.axisAngY
  scale : A.scale = false → c'.accScaleRef = c.accScaleRef
  enable : A.enable = false → c'.readEnable = c.readEnable

/-- An assignment to the variables of `serialcomm.c`. -/
@[mk_iff]
structure Ser (A : Footprint) (c c' : SerC F) : Prop where
  strbuf : c'.strbuf = c.strbuf
  pastStrbuf : c'.pastStrbuf = c.pastStrbuf
  serEnable : A.serEnable = false → c'.readEnable = c.readEnable
  option : A.option = false → c'.readOption = c.readOption
  serAxes : A.serAxes = false → c'.axisX = c.axisX ∧ c'.axisY = c.axisY ∧ c'.axisZ = c.axisZ
  rdCount : A.rdCount = false → c'.rdCount = c.rdCount

/-- The action stays in the footprint. -/
def Within (A : Footprint) : Act F → Prop
  | .getMpu => True
  | .getSer => True
  | .setMpu f => ∀ c, A.Mpu c (f c)
  | .setSer f => ∀ c c', A.Ser c' (f c c')
  | .note ev => ∀ c, A.notes (ev c) = true
  | .mtxInit _ => False
  | .mtxLock m => m ∈ A.locks
  | .mtxResume => True
  | .mtxUnlock m => m ∈ A.locks
  | .thdCreate _ => False
  | .sleep => True
  | .i2cStart => False
  | .i2cBegin => .i2c ∈ A.locks
  | .i2cTransfer _ _ _ => .i2c ∈ A.locks
  | .i2cEnd => .i2c ∈ A.locks
  | .sdStart => A.reads = true
  | .sdOut o => A.prints o = true
  | .iqRead _ _ _ => A.reads = true
  | .iqWake _ _ => A.reads = true
  | .iqReset => A.reads = true

/-- `B` lists all that `A` lists. -/
def Le (A B : Footprint) : Prop :=
  (∀ m ∈ A.locks, m ∈ B.locks) ∧ (A.txbuf → B.txbuf) ∧ (A.row → B.row) ∧ (A.axes → B.axes) ∧
  (A.angles → B.angles) ∧ (A.scale → B.scale) ∧ (A.enable → B.enable) ∧
  (A.serEnable → B.serEnable) ∧ (A.option → B.option) ∧ (A.serAxes → B.serAxes) ∧
  (A.rdCount → B.rdCount) ∧ (A.reports → B.reports) ∧ (A.updates → B.updates) ∧
  (A.ranges → B.ranges) ∧ (A.getters → B.getters) ∧ (A.reads → B.reads) ∧
  (A.commands → B.commands)

/-- There are only finitely many fields to compare. -/
instance (A B : Footprint) : Decidable (A.Le B) := inferInstanceAs (Decidable (_ ∧ _))

variable {A B : Footprint}

/-- An assignment stays in a larger footprint. -/
theorem Mpu.mono (h : A.Le B) {c c' : MpuC F} (hc : A.Mpu c c') : B.Mpu c c' := by
  obtain ⟨-, htx, hrow, hax, hang, hsc, hen, -⟩ := h
  have hno : ∀ {a b : Bool}, (a → b) → b = false → a = false := by decide
  exact ⟨hc.rxbuf, fun hb => hc.txbuf (hno htx hb), fun hb => hc.row (hno hrow hb),
    fun hb => hc.axes (hno hax hb), fun hb => hc.angles (hno hang hb),
    fun hb => hc.scale (hno hsc hb), fun hb => hc.enable (hno hen hb)⟩

/-- An assignment stays in a larger footprint. -/
theorem Ser.mono (h : A.Le B) {c c' : SerC F} (hc : A.Ser c c') : B.Ser c c' := by
  obtain ⟨-, -, -, -, -, -, -, hse, hop, hsa, hrd, -⟩ := h
  have hno : ∀ {a b : Bool}, (a → b) → b = false → a = false := by decide
  exact ⟨hc.strbuf, hc.pastStrbuf, fun hb => hc.serEnable (hno hse hb),
    fun hb => hc.option (hno hop hb), fun hb => hc.serAxes (hno hsa hb),
    fun hb => hc.rdCount (hno hrd hb)⟩

/-- A larger footprint notes more. -/
theorem notes_mono (h : A.Le B) {ev : Obs F} (hev : A.notes ev = true) : B.notes ev = true := by
  obtain ⟨-, -, -, -, -, -, -, -, -, -, -, -, hu, hr, hg, hrd, hc⟩ := h
  have hcalls : ∀ f, A.calls f = true → B.calls f = true := by
    intro f hf
    cases f with
    | mpuAccRange r => exact hr hf
    | mpuReadAccAxis a => exact hu hf
    | mpuAccUpdate => exact hu hf
    | serialReadAccaxisDeg => exact hg hf
    | serialReadAccaxisD => exact hg hf
    | serialReadAccaxisG => exact hg hf
    | serialRead => exact hrd hf
    | commadCheck str => exact hc hf
  cases ev with
  | began f => exact hcalls f hev
  | returned f => exact hcalls f hev
  | published p => exact hu hev
  | _ => cases hev

/-- A larger footprint prints more. -/
theorem prints_mono (h : A.Le B) {o : Out F} (ho : A.prints o = true) : B.prints o = true := by
  obtain ⟨-, -, -, -, -, -, -, -, -, -, -, hrep, -⟩ := h
  cases o with
  | axis a v => exact hrep ho
  | _ => rfl

/-- An action stays in a larger footprint, by cases on the action. -/
theorem Within.mono (h : A.Le B) {a : Act F} (ha : A.Within a) : B.Within a := by
  have hlocks := h.1
  have hreads : A.reads → B.reads := by
    obtain ⟨-, -, -, -, -, -, -, -, -, -, -, -, -, -, -, hrd, -⟩ := h
    exact hrd
  cases a with
  | setMpu f => exact fun c => (ha c).mono h
  | setSer f => exact fun c c' => (ha c c').mono h
  | note ev => exact fun c => notes_mono h (ha c)
  | mtxLock m => exact hlocks m ha
  | mtxUnlock m => exact hlocks m ha
  | i2cBegin => exact hlocks _ ha
  | i2cTransfer addr txbytes rxbytes => exact hlocks _ ha
  | i2cEnd => exact hlocks _ ha
  | sdOut o => exact prints_mono h ha
  | iqRead off n timeout => exact hreads ha
  | iqWake off n => exact hreads ha
  | iqReset => exact hreads ha
  | getMpu => trivial
  | getSer => trivial
  | mtxResume => trivial
  | sleep => trivial
  | mtxInit m => exact ha.elim
  | thdCreate t => exact ha.elim
  | i2cStart => exact ha.elim
  | sdStart => exact hreads ha

end Footprint

open Footprint (Within)

/-- A program stays in a larger footprint. -/
theorem within_le {A B : Footprint} {p : Prog F α} (h : A.Le B) (hp : p.All (Within A)) :
    p.All (Within B) :=
  hp.mono fun _ ha => ha.mono h

/-- A recorded call is its body and two entries of the log. -/
theorem within_call {A : Footprint} {f : Fn} {p : Prog F α} (hf : A.calls f = true)
    (hp : p.All (Within A)) : (call f p).All (Within A) := by
  refine .bind ⟨fun _ => hf, fun _ => trivial⟩ fun _ => .bind hp fun x => ?_
  exact .bind ⟨fun _ => hf, fun _ => trivial⟩ fun _ => Threads.Prog.all_pure x

/-! ### `mtprint.c` and `mti2c1.c` -/

/-- Printing a text needs the mutex of `mtprint.c`. -/
theorem within_serialPrint_text (s : String) :
    (serialPrint (F := F) (.text s)).All (Within { locks := [.mtprint] }) := by
  simp [serialPrint, chMtxLock, sdWrite, chMtxUnlock, perform, Within, Footprint.prints]

/-- And so does printing back what was read. -/
theorem within_serialPrint_echo (str : List UInt8) :
    (serialPrint (F := F) (.echo str)).All (Within { locks := [.mtprint] }) := by
  simp [serialPrint, chMtxLock, sdWrite, chMtxUnlock, perform, Within, Footprint.prints]

/-- Reading touches the input queue only, by induction on the rounds. -/
theorem within_iqReadRounds (timeout rounds off n : Nat) :
    (iqReadRounds (F := F) timeout rounds off n).All (Within { reads := true }) := by
  induction rounds generalizing off n with
  | zero => exact Threads.Prog.all_pure off
  | succ rounds ih =>
      unfold iqReadRounds
      refine .ite (Threads.Prog.all_pure _) ⟨rfl, fun done => .ite ⟨rfl, fun d => ?_⟩ (ih _ _)⟩
      cases d with
      | none => exact Threads.Prog.all_pure off
      | some done => exact ih _ _

/-- `serial_read` locks the mutex of `mtprint.c` and reads. -/
theorem within_serialRead :
    (serialRead (F := F)).All (Within { locks := [.mtprint], reads := true }) := by
  refine within_call rfl ?_
  refine .bind (by simp [chMtxLock, perform, Within]) fun _ => ?_
  refine .bind (within_le (by decide) (within_iqReadRounds _ _ _ _)) fun n => ?_
  simp [chMtxUnlock, perform, Within]

/-- A transfer takes the bus and touches no variable but the receive buffer. -/
theorem within_i2c1Transmit (addr : UInt8) (txsize rxsize timeout : Nat) :
    (i2c1Transmit (F := F) addr txsize rxsize timeout).All (Within { locks := [.i2c] }) := by
  simp [i2c1Transmit, i2cAcquireBus, i2cReleaseBus, i2cMasterTransmitTimeout, chMtxLock,
    chMtxUnlock, perform, Within]

/-! ### `mpu.c` -/

/-- An assignment to the transmit buffer. -/
theorem within_setTxbuf (i : Fin 5) (b : UInt8) :
    (setTxbuf (F := F) i b).All (Within { txbuf := true }) := by
  simp [setTxbuf, setMpu, perform, Within, Footprint.mpu_iff]

/-- `mpu_read_acc_axis` for a row variable. -/
theorem within_mpuReadAccAxis {axis : AccAxis} {store : UInt16 → MpuC F → MpuC F}
    (hstore : ∀ v c, Footprint.Mpu { row := true } c (store v c)) : ∃ p,
    mpuReadAccAxis axis store = call (.mpuReadAccAxis axis) p ∧
      p.All (Within { locks := [.i2c], txbuf := true, row := true }) := by
  refine ⟨_, rfl, ?_⟩
  refine .bind (within_le (by decide) (within_setTxbuf _ _)) fun _ => ?_
  refine .bind (within_le (by decide) (within_i2c1Transmit _ _ _ _)) fun res => ?_
  refine .ite (Threads.Prog.all_pure _) (.bind ⟨trivial, fun _ => trivial⟩ fun c => ?_)
  refine .bind (by simp [setMpu, perform, Within, Footprint.mpu_iff]) fun _ => ?_
  refine .bind (within_le (by decide) (within_i2c1Transmit _ _ _ _)) fun res => ?_
  refine .ite (Threads.Prog.all_pure _) (.bind ⟨trivial, fun _ => trivial⟩ fun c => ?_)
  refine .bind ⟨fun c => (hstore _ c).mono (by decide), fun _ => trivial⟩ fun _ => ?_
  exact Threads.Prog.all_pure _

/-- The footprint of `mpu_acc_update`. -/
def Footprint.update : Footprint where
  locks := [.i2c]
  txbuf := true
  row := true
  axes := true
  angles := true
  updates := true

/-- An update: three reads and what is computed from them. -/
theorem within_mpuAccUpdate [CFloat F] :
    (mpuAccUpdate (F := F)).All (Within Footprint.update) := by
  have hread : ∀ {axis : AccAxis} {store : UInt16 → MpuC F → MpuC F},
      (∀ v c, Footprint.Mpu { row := true } c (store v c)) →
      (mpuReadAccAxis axis store).All (Within Footprint.update) := by
    intro axis store hstore
    obtain ⟨p, heq, hp⟩ := within_mpuReadAccAxis hstore
    rw [heq]
    exact within_call rfl (within_le (by decide) hp)
  refine within_call rfl ?_
  refine .bind (hread (by simp [Footprint.mpu_iff])) fun res₀ => ?_
  refine .bind (hread (by simp [Footprint.mpu_iff])) fun res₁ => ?_
  refine .bind (hread (by simp [Footprint.mpu_iff])) fun res₂ => ?_
  refine .ite (Threads.Prog.all_pure _) ?_
  simp [getMpu, setMpu, note, perform, Within, Footprint.update, Footprint.mpu_iff, Footprint.notes]

/-- A change of range: the scale, the buffer, and one transfer, under `mpu.c`'s mutex. -/
theorem within_mpuAccRange [CFloat F] (range : AccelRange) :
    (mpuAccRange (F := F) range).All
      (Within { locks := [.i2c, .mpu], txbuf := true, scale := true, ranges := true }) := by
  refine within_call rfl ?_
  refine .bind (within_le (by decide) (within_setTxbuf _ _)) fun _ => ?_
  refine .bind (within_le (by decide) (within_setTxbuf _ _)) fun _ => ?_
  refine .bind (by simp [chMtxLock, perform, Within]) fun _ => ?_
  refine .bind (by simp [setMpu, perform, Within, Footprint.mpu_iff]) fun _ => ?_
  refine .bind (within_le (by decide) (within_i2c1Transmit _ _ _ _)) fun res => ?_
  refine .ite (Threads.Prog.all_pure _) ?_
  simp [chMtxUnlock, perform, Within]

/-- The reset writes one register. -/
theorem within_mpuReset :
    (mpuReset (F := F)).All (Within { locks := [.i2c], txbuf := true }) := by
  refine .bind (within_le (by decide) (within_setTxbuf _ _)) fun _ => ?_
  refine .bind (within_le (by decide) (within_setTxbuf _ _)) fun _ => ?_
  exact .bind (within_le (by decide) (within_i2c1Transmit _ _ _ _)) fun _ => Threads.Prog.all_pure _

/-- The "WAI" request reads one register and prints it. -/
theorem within_mpuWhoAmI :
    (mpuWhoAmI (F := F)).All (Within { locks := [.i2c, .mtprint], txbuf := true }) := by
  refine .bind (within_le (by decide) (within_setTxbuf _ _)) fun _ => ?_
  refine .bind (within_le (by decide) (within_i2c1Transmit _ _ _ _)) fun res => ?_
  refine .ite ?_ (within_le (by decide) (within_serialPrint_text _))
  simp [getMpu, chprintf, perform, Within, Footprint.prints]

/-- The footprint of the MPU thread. -/
def Footprint.mpuThread : Footprint := { Footprint.update with locks := [.i2c, .mpu] }

/-- The footprint of `mpu_init` behind its first statement. -/
def Footprint.init : Footprint where
  locks := [.i2c, .mpu, .mtprint]
  txbuf := true
  scale := true
  ranges := true

/-- A message that depends on a test is one message, whichever it is. -/
theorem within_serialPrint_ite {A : Footprint} (hA : .mtprint ∈ A.locks) {c : Prop} [Decidable c]
    (a b : String) {f : Unit → Prog F α} (hf : (f ()).All (Within A)) :
    (if c then serialPrint (.text a) >>= f else serialPrint (.text b) >>= f).All (Within A) := by
  have hprint : ∀ s, (serialPrint (F := F) (.text s)).All (Within A) := by
    intro s
    simp [serialPrint, chMtxLock, sdWrite, chMtxUnlock, perform, Within, Footprint.prints, hA]
  exact .ite (.bind (hprint a) fun _ => hf) (.bind (hprint b) fun _ => hf)

/-- `mpu_init` first makes the mutex, which no footprint covers, and then stays in its
own. -/
theorem within_mpuInit [CFloat F] : ∃ p : Prog F Unit,
    mpuInit = (chMtxObjectInit .mpu >>= fun _ => p) ∧ p.All (Within Footprint.init) := by
  refine ⟨_, rfl, .bind (within_le (by decide) within_mpuReset) fun _ => ?_⟩
  refine .bind (within_le (by decide) (within_setTxbuf _ _)) fun _ => ?_
  refine .bind (within_le (by decide) (within_setTxbuf _ _)) fun _ => ?_
  refine .bind (within_le (by decide) (within_i2c1Transmit _ _ _ _)) fun _ => ?_
  refine within_serialPrint_ite (by decide) _ _ ?_
  refine .bind (within_le (by decide) (within_setTxbuf _ _)) fun _ => ?_
  refine .bind (within_le (by decide) (within_setTxbuf _ _)) fun _ => ?_
  refine .bind (within_le (by decide) (within_i2c1Transmit _ _ _ _)) fun _ => ?_
  refine within_serialPrint_ite (by decide) _ _ ?_
  refine .bind (within_le (by decide) (within_mpuAccRange _)) fun _ => ?_
  exact within_serialPrint_ite (by decide) _ _ (within_le (by decide) within_mpuWhoAmI)

/-- The loop of the MPU thread: updates, when they are enabled. -/
theorem within_mpumThread [CFloat F] :
    (mpumThread (F := F)).All (Within Footprint.mpuThread) := by
  have hend : (do chMtxUnlock (F := F) .mpu; chThdSleepMilliseconds 500).All
      (Within Footprint.mpuThread) := by
    simp [chMtxUnlock, chThdSleepMilliseconds, perform, Within, Footprint.mpuThread]
  refine .bind (by simp [chMtxLock, perform, Within, Footprint.mpuThread]) fun _ => ?_
  refine .bind ⟨trivial, fun _ => trivial⟩ fun c => ?_
  exact .ite (.bind (within_le (by decide) within_mpuAccUpdate) fun _ => hend) hend

/-- The control variable of `mpu.c` is assigned under its mutex. -/
theorem within_serialSetControl (set : Bool) :
    (serialSetControl (F := F) set).All (Within { locks := [.mpu], enable := true }) := by
  cases set <;>
    simp [serialSetControl, chMtxLock, setMpu, chMtxUnlock, perform, Within, Footprint.mpu_iff]

/-! ### `serialcomm.c` -/

/-- The footprint of `cmdstr` and `cmdstp`. -/
def Footprint.control : Footprint where
  locks := [.mtprint, .mpu, .serialcomm]
  enable := true
  serEnable := true

/-- The footprint of a range command. -/
def Footprint.range : Footprint where
  locks := [.serialcomm, .i2c, .mpu]
  txbuf := true
  scale := true
  ranges := true

/-- The footprint of `commad_check`. -/
def Footprint.command : Footprint where
  locks := [.mtprint, .mpu, .serialcomm, .i2c]
  txbuf := true
  scale := true
  enable := true
  serEnable := true
  option := true
  ranges := true
  commands := true

/-- The footprint of the output section. -/
def Footprint.output : Footprint where
  locks := [.serialcomm, .mpu]
  serAxes := true
  rdCount := true
  reports := true
  getters := true

/-- The start command. -/
theorem within_start [CFloat F] : (Command.exec (F := F) .start).All
    (Within Footprint.control) := by
  refine .bind (within_le (by decide) (within_serialPrint_text _)) fun _ => ?_
  refine .bind (within_le (by decide) (within_serialSetControl _)) fun _ => ?_
  simp [chMtxLock, setSer, chMtxUnlock, perform, Within, Footprint.control, Footprint.ser_iff]

/-- The stop command. -/
theorem within_stop [CFloat F] : (Command.exec (F := F) .stop).All
    (Within Footprint.control) := by
  refine .bind (within_le (by decide) (within_serialPrint_text _)) fun _ => ?_
  refine .bind (within_le (by decide) (within_serialSetControl _)) fun _ => ?_
  simp [chMtxLock, setSer, chMtxUnlock, perform, Within, Footprint.control, Footprint.ser_iff]

/-- The command for degrees. -/
theorem within_redg [CFloat F] : (Command.exec (F := F) .redg).All
    (Within { locks := [.serialcomm], option := true }) := by
  simp [Command.exec, chMtxLock, setSer, chMtxUnlock, perform, Within, Footprint.ser_iff]

/-- The command for g. -/
theorem within_regs [CFloat F] : (Command.exec (F := F) .regs).All
    (Within { locks := [.serialcomm], option := true }) := by
  simp [Command.exec, chMtxLock, setSer, chMtxUnlock, perform, Within, Footprint.ser_iff]

/-- The commands for the range. -/
theorem within_range [CFloat F] (r : AccelRange) : (Command.exec (F := F) (.range r)).All
    (Within Footprint.range) := by
  refine .bind (by simp [chMtxLock, perform, Within, Footprint.range]) fun _ => ?_
  refine .bind (within_le (by decide) (within_mpuAccRange r)) fun _ => ?_
  simp [chMtxUnlock, perform, Within, Footprint.range]

/-- An unknown command is only printed. -/
theorem within_unknownCommand (mem : List UInt8) :
    (unknownCommand (F := F) mem).All (Within { locks := [.mtprint] }) :=
  .bind (within_serialPrint_text _) fun _ =>
    .bind (within_serialPrint_echo _) fun _ => within_serialPrint_text _

/-- What a command may touch. -/
def Command.footprint : Command → Footprint
  | .start => Footprint.control
  | .stop => Footprint.control
  | .redg => { locks := [.serialcomm], option := true }
  | .regs => { locks := [.serialcomm], option := true }
  | .range _ => Footprint.range

/-- Each command stays in its footprint. -/
theorem within_exec [CFloat F] (c : Command) :
    (Command.exec (F := F) c).All (Within c.footprint) := by
  cases c with
  | start => exact within_start
  | stop => exact within_stop
  | redg => exact within_redg
  | regs => exact within_regs
  | range r => exact within_range r

/-- `commad_check` stays in that of any command. -/
theorem within_commadCheck [CFloat F] (mem : List UInt8) :
    (commadCheck (F := F) mem).All (Within Footprint.command) := by
  rw [commadCheck_eq]
  refine within_call rfl ?_
  cases commandOf mem with
  | none => exact within_le (by decide) (within_unknownCommand mem)
  | some c =>
      cases c with
      | start => exact within_le (by decide) within_start
      | stop => exact within_le (by decide) within_stop
      | redg => exact within_le (by decide) within_redg
      | regs => exact within_le (by decide) within_regs
      | range r => exact within_le (by decide) (within_range r)

/-- A report calls a getter and prints three lines. -/
theorem within_report :
    (report (F := F)).All (Within { Footprint.output with locks := [.mpu] }) := by
  simp [report, serialReadAccaxisD, serialReadAccaxisG, call, getSer, setSer, note, chMtxLock,
    chMtxUnlock, chprintf, perform, Within, Footprint.output, Footprint.ser_iff, Footprint.notes,
    Footprint.calls, Footprint.prints]

/-- The part of the loop that reports stays in the footprint of the output. -/
theorem within_outputSection :
    (outputSection (F := F)).All (Within Footprint.output) := by
  have hleave : (chMtxUnlock (F := F) .serialcomm).All (Within Footprint.output) := by
    simp [chMtxUnlock, perform, Within, Footprint.output]
  refine .bind (by simp [chMtxLock, perform, Within, Footprint.output]) fun _ => ?_
  refine .bind ⟨trivial, fun _ => trivial⟩ fun c => ?_
  exact .ite (.bind (within_le (by decide) within_report) fun _ => hleave) hleave

/-- The footprint of the serial thread. -/
def Footprint.serialThread : Footprint :=
  { Footprint.command with
    serAxes := true
    rdCount := true
    reports := true
    getters := true
    reads := true }

/-- The loop of the serial thread: commands, and reports. -/
theorem within_serialcommThread [CFloat F] :
    (serialcommThread (F := F)).All (Within Footprint.serialThread) := by
  have hrest : (do
      iqResetI (F := F)
      outputSection
      setSer fun _ c => { c with rdCount := wrap32 (c.rdCount + 1) }
      chThdSleepMilliseconds 100).All (Within Footprint.serialThread) := by
    refine .bind (by simp [iqResetI, perform, Within, Footprint.serialThread]) fun _ => ?_
    refine .bind (within_le (by decide) within_outputSection) fun _ => ?_
    simp [setSer, chThdSleepMilliseconds, perform, Within, Footprint.serialThread,
      Footprint.ser_iff]
  refine .bind (within_le (by decide) within_serialRead) fun sdt => .ite ?_ hrest
  refine .bind ⟨trivial, fun _ => trivial⟩ fun c => ?_
  exact .bind (within_le (by decide) (within_commadCheck _)) fun _ => hrest

/-! ### Starting up -/

/-- The actions with which `main` sets things up. -/
def Act.startup : Act F → Bool
  | .mtxInit _ => true
  | .thdCreate _ => true
  | .i2cStart => true
  | .sdStart => true
  | _ => false

/-- The action starts something up or stays in the footprint. -/
def Footprint.Allows (A : Footprint) (a : Act F) : Prop := a.startup = true ∨ A.Within a

/-- An action of the footprint is one it allows. -/
theorem allows_of_within {A B : Footprint} {p : Prog F α} (h : A.Le B) (hp : p.All (Within A)) :
    p.All B.Allows :=
  (within_le h hp).mono fun _ ha => .inr ha

/-- The setup stays in the footprint of the initialisation. -/
theorem allows_setup [CFloat F] : (setup (F := F) .main).All Footprint.init.Allows := by
  have hprint : ∀ s, (serialPrint (F := F) (.text s)).All Footprint.init.Allows :=
    fun s => allows_of_within (by decide) (within_serialPrint_text s)
  have hact : ∀ {a : Act F}, a.startup = true →
      (perform (S := sig F) a).All Footprint.init.Allows :=
    fun ha => Threads.Prog.all_perform (.inl ha)
  obtain ⟨tail, hmpuInit, htail⟩ := within_mpuInit (F := F)
  refine .bind (.bind (hact rfl) fun _ => hact rfl) fun _ => ?_
  refine .bind (hprint _) fun _ => .bind (hprint _) fun _ => .bind (hprint _) fun _ => ?_
  refine .bind (hact rfl) fun _ => .bind ?_ fun _ => ?_
  · rw [hmpuInit]
    exact .bind (hact rfl) fun _ => allows_of_within (by decide) htail
  · refine .bind (hact rfl) fun _ => .bind (hprint _) fun _ => ?_
    exact .bind (hact rfl) fun _ => hprint _

end MotionTracking
