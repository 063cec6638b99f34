import Mathlib.Data.List.Induction
import MotionTracking.Proofs.Completion

/-!
# `MotionTracking.Proofs.Commands`: the command interpreter

The `Settings` of the board are whether it measures, the format of its reports, and
the range of the sensor. `Settings.handle` is what a string means for them: a
command changes one of the three, every other string none.

The firmware keeps the settings in four variables of two files (`Stored`), the first
setting twice. `commands_fold` is about a serial thread that passes any strings to
`commad_check`, one after the other, beside the MPU thread. When it is done, the
variables are those of the settings that the strings mean.

`storing u` is the outline in which thread `u` is the only one that changes the four
variables: `main` while it starts up, the serial thread afterwards.
-/

set_option autoImplicit false

namespace MotionTracking

open Threads (Outline Reaches Config Exec EnvStep runAlone)
open Threads.Outline (Sat Triple)
open Threads.Prog (perform)
open Footprint (Within)

variable {F α : Type}

/-! ### What strings mean -/

/-- What the commands set: whether the board reads, the format, and the range. -/
structure Settings where
  enabled : Bool
  degrees : Bool
  range : AccelRange

namespace Settings

/-- The settings that `mpu_init` leaves. -/
def initial : Settings := ⟨true, false, .ACCEL_RANGE_16G⟩

/-- The settings after a command. -/
def obey (s : Settings) : Command → Settings
  | .start => { s with enabled := true }
  | .stop => { s with enabled := false }
  | .redg => { s with degrees := true }
  | .regs => { s with degrees := false }
  | .range r => { s with range := r }

/-- The settings after a string. -/
def handle (s : Settings) (str : List UInt8) : Settings := (commandOf str).elim s s.obey

end Settings

/-- What the latest command that says something by `f` says. -/
def lastOf {β : Type} (f : Command → Option β) (strs : List (List UInt8)) : Option β :=
  ((strs.filterMap commandOf).filterMap f).getLast?

namespace Command

/-- What a command says about reading. -/
def enables : Command → Option Bool
  | .start => some true
  | .stop => some false
  | _ => none

/-- What a command says about the format: degrees or g. -/
def formats : Command → Option Bool
  | .redg => some true
  | .regs => some false
  | _ => none

/-- What a command says about the range. -/
def ranges : Command → Option AccelRange
  | .range r => some r
  | _ => none

end Command

/-- The latest string decides, unless it says nothing. -/
theorem lastOf_append {β : Type} (f : Command → Option β) (strs : List (List UInt8))
    (str : List UInt8) :
    lastOf f (strs ++ [str]) = ((commandOf str).bind f).or (lastOf f strs) := by
  unfold lastOf
  rw [List.filterMap_append, List.filterMap_append, List.getLast?_append]
  congr 1
  cases hc : commandOf str with
  | none => simp [hc]
  | some c => cases hf : f c <;> simp [hc, hf]

/-- Each setting is what the latest command about it says. -/
theorem foldl_handle (strs : List (List UInt8)) : strs.foldl Settings.handle Settings.initial =
    ⟨(lastOf Command.enables strs).getD true, (lastOf Command.formats strs).getD false,
      (lastOf Command.ranges strs).getD .ACCEL_RANGE_16G⟩ := by
  induction strs using List.reverseRecOn with
  | nil => rfl
  | append_singleton strs str ih =>
      rw [List.foldl_append, ih, lastOf_append, lastOf_append, lastOf_append]
      show Settings.handle _ str = _
      unfold Settings.handle
      cases hc : commandOf str with
      | none => rfl
      | some c => cases c <;> rfl

/-! ### The variables -/

/-- The variables in which the settings are kept. -/
structure Stored (F : Type) where
  /-- `read_enable` of `mpu.c`. -/
  enable : Bool
  /-- `read_enable` of `serialcomm.c`. -/
  serEnable : Bool
  readOption : UInt32
  accScaleRef : F

/-- The variables of a state. -/
def stored (s : Sys F) : Stored F :=
  ⟨s.mpu.readEnable, s.ser.readEnable, s.ser.readOption, s.mpu.accScaleRef⟩

/-- The variables for given settings. -/
def Settings.stored [CFloat F] (s : Settings) : Stored F :=
  ⟨s.enabled, s.enabled, if s.degrees then 1 else 0, accScale s.range⟩

/-- The thread `u` knows the variables, and the others know nothing of them. -/
def storing (F : Type) (u : Tid) : Outline (machine F) where
  View _ := Option (Stored F)
  view t s := if t = u then some (stored s) else none
  inv _ := True
  safe _ _ _ := True
  guar _ _ _ _ _ := True

/-! ### The rules -/

section
variable {t u : Tid} {v : Option (Stored F)} {d : Stored F} {A : Footprint}

/-- An action that leaves the variables alone. -/
theorem storing_same {a : Act F}
    (h : ∀ s r s', s.exec t a = some (r, s') → stored s' = stored s) :
    (storing F u).Keeps t a (· = v) fun _ w => w = v := by
  intro s _ hv
  refine ⟨trivial, fun r s' hrs => ?_⟩
  have hsame := h s r s' hrs
  have hview : ∀ w, (storing F u).view w s' = (storing F u).view w s := by
    intro w
    simp only [storing, hsame]
  exact ⟨⟨trivial, trivial, fun w _ => hview w⟩, (hview t).trans hv⟩

/-- An action of the thread that may change the variables. -/
theorem storing_set {a : Act F} {f : Stored F → Stored F}
    (h : ∀ s r s', s.exec u a = some (r, s') → stored s' = f (stored s)) :
    (storing F u).Keeps u a (· = some d) fun _ w => w = some (f d) := by
  intro s _ hv
  refine ⟨trivial, fun r s' hrs => ⟨⟨trivial, trivial, fun w hw => ?_⟩, ?_⟩⟩
  · simp only [storing, if_neg hw]
  · simp only [storing, if_true, Option.some.injEq] at hv ⊢
    rw [h s r s' hrs, hv]

/-- The footprint has none of the variables. -/
def Footprint.Unsettling (A : Footprint) : Prop :=
  A.enable = false ∧ A.serEnable = false ∧ A.option = false ∧ A.scale = false

/-- Four fields to compare. -/
instance (A : Footprint) : Decidable A.Unsettling := inferInstanceAs (Decidable (_ ∧ _))

/-- An action of a footprint without the variables leaves them. -/
theorem stored_of_allows {a : Act F} {s s' : Sys F} {r : a.Ans} (hA : A.Unsettling)
    (ha : A.Allows a) (h : s.exec t a = some (r, s')) : stored s' = stored s := by
  obtain ⟨hen, hser, hop, hsc⟩ := hA
  rcases ha with hstart | hwithin
  · cases a with
    | mtxInit m =>
        rw [Sys.exec_mtxInit h]
        rfl
    | thdCreate w =>
        rw [Sys.exec_thdCreate h]
        rfl
    | i2cStart =>
        rw [Sys.exec_i2cStart h]
        rfl
    | sdStart =>
        rw [Sys.exec_sdStart h]
        rfl
    | _ => cases hstart
  · have he := Footprint.effect_step hwithin h
    have henable : s'.mpu.readEnable = s.mpu.readEnable := he.mpu.enable hen
    have hserEnable : s'.ser.readEnable = s.ser.readEnable := he.ser.serEnable hser
    have hoption : s'.ser.readOption = s.ser.readOption := he.ser.option hop
    have hscale : s'.mpu.accScaleRef = s.mpu.accScaleRef := he.mpu.scale hsc
    rw [stored, henable, hserEnable, hoption, hscale]
    rfl

/-- Code of such a footprint leaves what the threads know. -/
theorem storing_allows {p : Prog F α} (hA : A.Unsettling) (hp : p.All A.Allows) :
    (storing F u).Triple t (· = v) p fun _ w => w = v :=
  Triple.of_all hp fun _ ha => storing_same fun _ _ _ h => stored_of_allows hA ha h

/-- The same for code within such a footprint. -/
theorem storing_within {p : Prog F α} (hA : A.Unsettling) (hp : p.All (Within A)) :
    (storing F u).Triple t (· = v) p fun _ w => w = v :=
  storing_allows hA (hp.mono fun _ ha => .inr ha)

/-- A lock assigns nothing. -/
theorem storing_chMtxLock (m : Mtx) :
    (storing F u).Triple t (· = v) (chMtxLock m) fun _ w => w = v :=
  storing_within (A := { locks := [m] }) ⟨rfl, rfl, rfl, rfl⟩ (by simp [chMtxLock, perform, Within])

/-- An unlock assigns nothing. -/
theorem storing_chMtxUnlock (m : Mtx) :
    (storing F u).Triple t (· = v) (chMtxUnlock m) fun _ w => w = v :=
  storing_within (A := { locks := [m] }) ⟨rfl, rfl, rfl, rfl⟩
    (by simp [chMtxUnlock, perform, Within])

/-- An assignment in `mpu.c` by the thread that knows the variables. -/
theorem storing_setMpu {f : MpuC F → MpuC F} {g : Stored F → Stored F}
    (h : ∀ s : Sys F, stored { s with mpu := f s.mpu } = g (stored s)) :
    (storing F u).Triple u (· = some d) (setMpu f) fun _ w => w = some (g d) := by
  refine Triple.perform (storing_set fun s r s' hrs => ?_)
  rw [Sys.exec_setMpu hrs]
  exact h s

/-- An assignment in `serialcomm.c` by the thread that knows the variables. -/
theorem storing_setSer {f : MpuC F → SerC F → SerC F} {g : Stored F → Stored F}
    (h : ∀ s : Sys F, stored { s with ser := f s.mpu s.ser } = g (stored s)) :
    (storing F u).Triple u (· = some d) (setSer f) fun _ w => w = some (g d) := by
  refine Triple.perform (storing_set fun s r s' hrs => ?_)
  rw [Sys.exec_setSer hrs]
  exact h s

/-- A recorded call. -/
theorem storing_call {f : Fn} {p : Prog F α} {Q : α → Option (Stored F) → Prop}
    (h : (storing F u).Sat t p Q v) : (storing F u).Sat t (call f p) Q v := by
  have hnote : ∀ ev : Obs F, ∀ w, (storing F u).Triple t (· = w) (note fun _ => ev)
      fun _ w' => w' = w := by
    intro ev w
    refine Triple.perform (storing_same fun s r s' hrs => ?_)
    rw [Sys.exec_note hrs]
    rfl
  refine Triple.seq (hnote _ _) (Sat.bind (h.mono fun x w hQ => ?_))
  exact Triple.seq (hnote _ w) hQ

/-! ### The functions -/

/-- `serial_set_control` sets the enable variable of `mpu.c`. -/
theorem storing_serialSetControl (set : Bool) :
    (storing F u).Triple u (· = some d) (serialSetControl set)
      fun _ w => w = some { d with enable := set } := by
  rintro _ rfl
  refine Triple.seq (storing_chMtxLock _) ?_
  cases set with
  | true =>
      exact Triple.seq (storing_setMpu (g := fun d => { d with enable := true }) fun _ => rfl)
        (storing_chMtxUnlock _ _ rfl)
  | false =>
      exact Triple.seq (storing_setMpu (g := fun d => { d with enable := false }) fun _ => rfl)
        (storing_chMtxUnlock _ _ rfl)

/-- One assignment in a critical section of `serialcomm.c`. -/
theorem storing_assign {f : SerC F → SerC F} {g : Stored F → Stored F}
    (h : ∀ s : Sys F, stored { s with ser := f s.ser } = g (stored s)) :
    (storing F u).Triple u (· = some d) (do
      chMtxLock .serialcomm
      setSer fun _ c => f c
      chMtxUnlock .serialcomm) fun _ w => w = some (g d) := by
  rintro _ rfl
  refine Triple.seq (storing_chMtxLock _) ?_
  exact Triple.seq (storing_setSer h) (storing_chMtxUnlock _ _ rfl)

/-- `acc_scale_ref` takes the new scale whether or not the transfer succeeds. -/
theorem storing_mpuAccRange [CFloat F] (range : AccelRange) :
    (storing F u).Triple u (· = some d) (mpuAccRange range)
      fun _ w => w = some { d with accScaleRef := accScale range } := by
  rintro _ rfl
  refine storing_call (Triple.seq (storing_within (by decide) (within_setTxbuf _ _)) ?_)
  refine Triple.seq (storing_within (by decide) (within_setTxbuf _ _)) ?_
  refine Triple.seq (storing_chMtxLock _) ?_
  refine Triple.seq
    (storing_setMpu (g := fun d => { d with accScaleRef := accScale range }) fun _ => rfl) ?_
  refine Sat.bind ((storing_within (by decide) (within_i2c1Transmit _ _ _ _) _ rfl).mono
    fun res w hw => ?_)
  subst hw
  split
  · rfl
  · exact Triple.seq (storing_chMtxUnlock _) rfl

/-- A command does to the variables what it means for the settings. -/
theorem storing_exec [CFloat F] (c : Command) (s : Settings) :
    (storing F u).Triple u (· = some s.stored) c.exec fun _ w => w = some (s.obey c).stored := by
  have hprint : ∀ text, (storing F u).Triple u (· = some s.stored) (serialPrint (.text text))
      fun _ w => w = some s.stored :=
    fun text => storing_within (by decide) (within_serialPrint_text text)
  rintro _ rfl
  cases c with
  | start =>
      refine Triple.seq (hprint _) (Triple.seq (storing_serialSetControl true) ?_)
      exact storing_assign (g := fun d => { d with serEnable := true }) (fun _ => rfl) _ rfl
  | stop =>
      refine Triple.seq (hprint _) (Triple.seq (storing_serialSetControl false) ?_)
      exact storing_assign (g := fun d => { d with serEnable := false }) (fun _ => rfl) _ rfl
  | redg => exact storing_assign (g := fun d => { d with readOption := 1 }) (fun _ => rfl) _ rfl
  | regs => exact storing_assign (g := fun d => { d with readOption := 0 }) (fun _ => rfl) _ rfl
  | range r =>
      refine Triple.seq (storing_chMtxLock _) (Sat.bind ((storing_mpuAccRange r _ rfl).mono
        fun _ w hw => ?_))
      subst hw
      exact storing_chMtxUnlock _ _ rfl

/-- `commad_check` does to the variables what its string says, by cases on the command. -/
theorem storing_commadCheck [CFloat F] (str : List UInt8) (s : Settings) :
    (storing F u).Triple u (· = some s.stored) (commadCheck str)
      fun _ w => w = some (s.handle str).stored := by
  rintro _ rfl
  rw [commadCheck_eq]
  refine storing_call ?_
  unfold Settings.handle
  cases commandOf str with
  | none => exact storing_within (by decide) (within_unknownCommand str) _ rfl
  | some c => exact storing_exec c s _ rfl

/-- Which of two messages is printed does not matter. -/
theorem storing_serialPrint_ite {c : Prop} [Decidable c]
    (a b : String) {f : Unit → Prog F α} {Q : α → Option (Stored F) → Prop}
    (h : (storing F u).Sat t (f ()) Q v) : (storing F u).Sat t
      (if c then serialPrint (.text a) >>= f else serialPrint (.text b) >>= f) Q v := by
  have hprint : ∀ text, (storing F u).Triple t (· = v) (serialPrint (.text text))
      fun _ w => w = v :=
    fun text => storing_within (by decide) (within_serialPrint_text text)
  split
  · exact Triple.seq (hprint a) h
  · exact Triple.seq (hprint b) h

/-- Surroundings leave the variables alone. -/
theorem storing_env (u : Tid) : (storing F u).EnvOk := by
  intro e s s' _ he
  cases e <;> cases he <;> exact ⟨trivial, fun _ => rfl⟩

end

/-! ### Runs -/

section
variable [CFloat F] {results : Tid → Nat → I2CResult} {regs : UInt8 → UInt8}
  {pastStrbuf : List UInt8} {s : Sys F} {strs : List (List UInt8)}

/-- The strings one after the other, by induction on their list. -/
theorem storing_runCommands {u : Tid} (strs : List (List UInt8)) (s : Settings) :
    (storing F u).Triple u (· = some s.stored) (runCommands (F := F) strs)
      fun _ w => w = some (strs.foldl Settings.handle s).stored := by
  induction strs generalizing s with
  | nil => exact Triple.pure fun _ hv => hv
  | cons str strs ih =>
      rintro _ rfl
      exact Triple.seq (storing_commadCheck str s) (ih _ _ rfl)

/-- `mpu_init` leaves the scale of 16 g. -/
theorem storing_mpuInit {u : Tid} {d : Stored F} :
    (storing F u).Triple u (· = some d) mpuInit
      fun _ w => w = some { d with accScaleRef := accScale .ACCEL_RANGE_16G } := by
  have htx : ∀ i b, (storing F u).Triple u (· = some d) (setTxbuf i b) fun _ w => w = some d :=
    fun i b => storing_within (by decide) (within_setTxbuf i b)
  have hsend : ∀ {f : Msg → Prog F Unit} {Q : Unit → Option (Stored F) → Prop},
      (∀ res, (storing F u).Sat u (f res) Q (some d)) →
        (storing F u).Sat u (i2c1Transmit MPU_ADDR 2 0 MPU_TIME_LIM >>= f) Q (some d) := by
    intro f Q h
    refine Sat.bind ((storing_within (by decide) (within_i2c1Transmit _ _ _ _) _ rfl).mono
      fun res w hw => ?_)
    subst hw
    exact h res
  have hinit : (chMtxObjectInit (F := F) .mpu).All (Footprint.Allows {}) :=
    ⟨.inl rfl, fun _ => trivial⟩
  rintro _ rfl
  refine Triple.seq (storing_allows (by decide) hinit) ?_
  refine Triple.seq (storing_within (by decide) within_mpuReset) ?_
  refine Triple.seq (htx _ _) (Triple.seq (htx _ _) (hsend fun _ => ?_))
  refine storing_serialPrint_ite _ _ ?_
  refine Triple.seq (htx _ _) (Triple.seq (htx _ _) (hsend fun _ => ?_))
  refine storing_serialPrint_ite _ _ ?_
  refine Sat.bind ((storing_mpuAccRange accRange _ rfl).mono fun b w hw => ?_)
  subst hw
  refine storing_serialPrint_ite _ _ ?_
  exact storing_within (by decide) within_mpuWhoAmI _ rfl

/-- The state that `mpu_init` leaves. -/
theorem stored_of_startUp (hstart : Exec (machine F) .main (EnvStep (machine F)) startUp
    (boot results regs pastStrbuf) () s) : stored s = Settings.initial.stored := by
  have hsd : (serialInit (F := F)).All (Footprint.Allows { reads := true }) :=
    ⟨.inl rfl, fun _ => ⟨.inl rfl, fun _ => trivial⟩⟩
  have hi2c : (mti2cInit (F := F)).All (Footprint.Allows {}) := ⟨.inl rfl, fun _ => trivial⟩
  have hprint : ∀ (v : Option (Stored F)) text, (storing F .main).Triple .main (· = v)
      (serialPrint (.text text)) fun _ w => w = v :=
    fun v text => storing_within (by decide) (within_serialPrint_text text)
  have hsat : (storing F .main).Triple .main (· = some (stored (boot results regs pastStrbuf)))
      startUp fun _ w => w = some Settings.initial.stored := by
    rintro _ rfl
    refine Triple.seq (storing_allows (by decide) hsd) ?_
    refine Triple.seq (hprint _ _) (Triple.seq (hprint _ _) (Triple.seq (hprint _ _) ?_))
    exact Triple.seq (storing_allows (by decide) hi2c) (storing_mpuInit _ rfl)
  have hrely : ∀ s s' : Sys F, (storing F .main).inv s → EnvStep (machine F) s s' →
      (storing F .main).inv s' ∧ (storing F .main).view .main s' =
        (storing F .main).view .main s := by
    rintro s s' hinv ⟨e, he⟩
    obtain ⟨hinv', hview⟩ := storing_env .main e s s' hinv he
    exact ⟨hinv', hview .main⟩
  have hend := (hsat _ rfl).exec trivial hrely hstart
  exact Option.some.inj hend.2

/-- The outline, from the state that `mpu_init` leaves. -/
theorem storing_ok (hstart : Exec (machine F) .main (EnvStep (machine F)) startUp
    (boot results regs pastStrbuf) () s) : (storing F .serial).Ok
      (fun t v => v = if t = .serial then
        some (strs.foldl Settings.handle Settings.initial).stored else none)
      (commandConfig s strs) := by
  have hprint : ∀ text, (storing F .serial).Triple .main (· = none) (serialPrint (.text text))
      fun _ w => w = none :=
    fun text => storing_within (by decide) (within_serialPrint_text text)
  have hcreate : ∀ u, (storing F .serial).Triple .main (· = none) (chThdCreateStatic u)
      fun _ w => w = none :=
    fun u => storing_allows (A := {}) (by decide) ⟨.inl rfl, fun _ => trivial⟩
  have hsetup : (setup (F := F) .serial).All (Footprint.Allows {}) :=
    ⟨.inl rfl, fun _ => ⟨.inr trivial, fun _ => trivial⟩⟩
  refine ⟨trivial, fun t => ?_⟩
  cases t with
  | main =>
      refine Triple.seq (hcreate .serial) (Triple.seq (hprint _) ?_)
      exact Triple.seq (hcreate .mpu) (hprint _ _ rfl)
  | serial =>
      refine Triple.seq (v := some (stored s)) (storing_allows (by decide) hsetup) ?_
      rw [stored_of_startUp hstart]
      exact storing_runCommands strs _ _ rfl
  | mpu => exact rfl

/-- A thread at the head of its loop knows the settings after all strings. -/
theorem storing_loop (strs : List (List UInt8)) (t : Tid) : (storing F .serial).Triple t
    (· = if t = .serial then some (strs.foldl Settings.handle Settings.initial).stored else none)
    (commandLoop t) fun _ v => v = if t = .serial then
      some (strs.foldl Settings.handle Settings.initial).stored else none := by
  cases t with
  | main => exact storing_within (A := {}) (by decide) ⟨trivial, fun _ => trivial⟩
  | serial => exact Triple.pure fun _ hv => hv
  | mpu => exact storing_within (by decide) within_mpumThread

/-- The variables, when the serial thread is done. -/
theorem stored_of_done (hstart : Exec (machine F) .main (EnvStep (machine F)) startUp
    (boot results regs pastStrbuf) () s) {c : Config (sig F) Tid (Sys F)}
    (h : Reaches (machine F) commandLoop (commandConfig s strs) c)
    (hdone : c.code .serial = .ret ()) :
    stored c.st = (strs.foldl Settings.handle Settings.initial).stored := by
  have hok := (storing_ok hstart).reaches (storing_loop strs) (storing_env .serial) h
  have hsat := hok.sat .serial
  rw [hdone] at hsat
  exact Option.some.inj hsat

/-- The variables are what the strings say, and nothing but the commands among them
counts. -/
structure Interpreted (strs : List (List UInt8)) (s : Sys F) : Prop where
  enable : s.mpu.readEnable = s.ser.readEnable
  disabled : s.ser.readEnable = false ↔ lastOf Command.enables strs = some false
  option : s.ser.readOption = if lastOf Command.formats strs = some true then 1 else 0
  scale : s.mpu.accScaleRef = accScale ((lastOf Command.ranges strs).getD .ACCEL_RANGE_16G)

/-- The fold of the strings says what the latest command of each kind says. -/
theorem interpreted_of_stored
    (h : stored s = (strs.foldl Settings.handle Settings.initial).stored) :
    Interpreted strs s := by
  rw [foldl_handle] at h
  have henable : s.mpu.readEnable = (lastOf Command.enables strs).getD true :=
    congrArg Stored.enable h
  have hserEnable : s.ser.readEnable = (lastOf Command.enables strs).getD true :=
    congrArg Stored.serEnable h
  have hoption : s.ser.readOption = if (lastOf Command.formats strs).getD false then 1 else 0 :=
    congrArg Stored.readOption h
  refine ⟨henable.trans hserEnable.symm, ?_, ?_, congrArg Stored.accScaleRef h⟩
  · rw [hserEnable]
    rcases lastOf Command.enables strs with _ | _ | _ <;> simp
  · rw [hoption]
    rcases lastOf Command.formats strs with _ | _ | _ <;> rfl

/-- With a driver whose transfers succeed, the strings are all handled, and then the
variables are what they say. -/
theorem commands_fold (hres : ∀ t n, (results t n).msg = .MSG_OK)
    (hstart : Exec (machine F) .main (EnvStep (machine F)) startUp
      (boot results regs pastStrbuf) () s) {c : Config (sig F) Tid (Sys F)}
    (h : Reaches (machine F) commandLoop (commandConfig s strs) c) :
    (c.code .serial = .ret () → Interpreted strs c.st) ∧
      ∃ c', Reaches (machine F) commandLoop c c' ∧ c'.code .serial = .ret () := by
  refine ⟨fun hdone => interpreted_of_stored (stored_of_done hstart h hdone), ?_⟩
  exact commands_finish hres ((reaches_commandConfig hstart).trans h)

end

/-- `cmdstp`, a prefix of a command, `cmdred`, an extension of one, and `cmdr04`. -/
def fiveStrings : List (List UInt8) :=
  [SER_STOP, SER_START.take 5, SER_REDG, SER_REGS ++ [0x30], SER_R04]

/-- They stop the board, in degrees and in the range of 4 g. -/
theorem commands_fold_five : ∃ s : Sys Float32, Interpreted fiveStrings s ∧
    lastOf Command.enables fiveStrings = some false ∧
    lastOf Command.formats fiveStrings = some true ∧
    lastOf Command.ranges fiveStrings = some .ACCEL_RANGE_4G := by
  have hrun : (runAlone (machine Float32) .main startUp
      (boot (fun _ _ => ⟨.MSG_OK, []⟩) (fun _ => 0) [])).isSome = true := by
    decide
  obtain ⟨⟨_, s⟩, hstart⟩ := Option.isSome_iff_exists.mp hrun
  obtain ⟨c, hc, hdone⟩ : ∃ c, Reaches (machine Float32) commandLoop
      (commandConfig s fiveStrings) c ∧ c.code .serial = .ret () :=
    (commands_fold (fun _ _ => rfl) (.of_runAlone hstart) (.refl _)).2
  have hfold := commands_fold (fun _ _ => rfl) (.of_runAlone hstart) hc
  exact ⟨c.st, hfold.1 hdone, by decide, by decide, by decide⟩

end MotionTracking
