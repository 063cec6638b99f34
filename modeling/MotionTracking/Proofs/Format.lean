import MotionTracking.Proofs.Scaling
import MotionTracking.Proofs.Snapshot

/-!
# `MotionTracking.Proofs.Format`: what a report shows

`cmdred` and `cmdreg` choose between two formats, degrees and g. In the first,
`serialcomm_thread` calls `serial_read_accaxis_d`, which copies `axis_x` and
`axis_y`, the values in g. The tilt angles, which `serial_read_accaxis_deg` would
copy, are in radians.

`Turns` are the states between whole iterations of the two loops, in any order,
with bytes arriving and samples taken at any time. `shown_iff` is about each report
in them: it shows the quantity that the latest format command asks for exactly when
that command was not `cmdred`, or the values in g happen to be the angles in
degrees.

A `Frame` is what an execution within a footprint leaves alone, so the proofs
follow only the few statements that concern formats, values and lines.
-/

set_option autoImplicit false

namespace MotionTracking

open Threads (Machine Exec EnvStep Simulates runAlone runAlone_bind)
open Threads.Prog (perform)
open Footprint (Within Effect)

variable {F α : Type}

/-! ### Formats and lines in the log -/

namespace Obs

/-- The latest format command was `cmdred`. -/
def degrees : List (Obs F) → Bool
  | [] => false
  | .began (.commadCheck str) :: l =>
      match commandOf str with
      | some .redg => true
      | some .regs => false
      | _ => degrees l
  | _ :: l => degrees l

end Obs

/-- The entries say nothing about formats. -/
theorem degrees_append {A : Footprint} (hA : A.commands = false) {new : List (Obs F)}
    (hnew : ∀ ev ∈ new, A.logs ev = true) (l : List (Obs F)) :
    Obs.degrees (new ++ l) = Obs.degrees l := by
  induction new with
  | nil => rfl
  | cons ev new ih =>
      have hrest := ih fun ev' hev' => hnew ev' (List.mem_cons_of_mem ev hev')
      have hev := hnew ev List.mem_cons_self
      cases ev with
      | began f =>
          cases f with
          | commadCheck str => exact absurd (hA.symm.trans hev) Bool.false_ne_true
          | _ => exact hrest
      | _ => exact hrest

/-- The entries are no lines of a report. -/
theorem lines_append {A : Footprint} (hA : A.reports = false) {new : List (Obs F)}
    (hnew : ∀ ev ∈ new, A.logs ev = true) (l : List (Obs F)) :
    Obs.lines (new ++ l) = Obs.lines l := by
  induction new with
  | nil => rfl
  | cons ev new ih =>
      have hrest := ih fun ev' hev' => hnew ev' (List.mem_cons_of_mem ev hev')
      have hev := hnew ev List.mem_cons_self
      cases ev with
      | printed o =>
          cases o with
          | axis a v => exact absurd (hA.symm.trans hev) Bool.false_ne_true
          | _ => exact hrest
      | _ => exact hrest

/-- The entries are no publications. -/
theorem latest_append [CFloat F] {A : Footprint} (hA : A.updates = false) {new : List (Obs F)}
    (hnew : ∀ ev ∈ new, A.logs ev = true) (l : List (Obs F)) :
    Obs.latest (new ++ l) = Obs.latest l := by
  induction new with
  | nil => rfl
  | cons ev new ih =>
      have hrest := ih fun ev' hev' => hnew ev' (List.mem_cons_of_mem ev hev')
      have hev := hnew ev List.mem_cons_self
      cases ev with
      | published p => exact absurd (hA.symm.trans hev) Bool.false_ne_true
      | _ => exact hrest

/-! ### What an execution leaves alone -/

/-- What an execution of thread `t` within the footprint leaves alone. -/
structure Frame (A : Footprint) (t : Tid) (s s' : Sys F) : Prop where
  values : A.axes = false → A.angles = false → s'.mpu.published = s.mpu.published
  option : A.option = false → s'.ser.readOption = s.ser.readOption
  log : ∃ new, s'.log t = new ++ s.log t ∧ ∀ ev ∈ new, A.logs ev = true
  others : ∀ u, u ≠ t → s'.log u = s.log u

/-- The surroundings leave the variables and the logs alone. -/
structure Undisturbed (s s' : Sys F) : Prop where
  mpu : s'.mpu = s.mpu
  ser : s'.ser = s.ser
  log : s'.log = s.log

section
variable {A : Footprint} {t : Tid} {s s' s'' : Sys F}

/-- What goes on beside the threads, by induction on the moves. -/
theorem Undisturbed.of_env (h : Relation.ReflTransGen (EnvStep (machine F)) s s') :
    Undisturbed s s' := by
  induction h with
  | refl => exact ⟨rfl, rfl, rfl⟩
  | tail _ hstep ih =>
      obtain ⟨e, he⟩ := hstep
      cases e <;> cases he <;> exact ⟨ih.mpu, ih.ser, ih.log⟩

/-- Undisturbed states differ in nothing a footprint is about. -/
theorem Frame.of_undisturbed (h : Undisturbed s s') : Frame A t s s' := by
  refine ⟨fun _ _ => by rw [h.mpu], fun _ => by rw [h.ser], ⟨[], ?_, ?_⟩, fun u _ => by rw [h.log]⟩
  · rw [h.log, List.nil_append]
  · intro ev hev
    cases hev

/-- One execution after the other: the new log entries add up. -/
theorem Frame.trans (h : Frame A t s s') (h' : Frame A t s' s'') : Frame A t s s'' := by
  obtain ⟨new, hlog, hnew⟩ := h.log
  obtain ⟨new', hlog', hnew'⟩ := h'.log
  refine ⟨fun ha hb => (h'.values ha hb).trans (h.values ha hb),
    fun ho => (h'.option ho).trans (h.option ho), ⟨new' ++ new, ?_, ?_⟩,
    fun u hu => (h'.others u hu).trans (h.others u hu)⟩
  · rw [hlog', hlog, List.append_assoc]
  · intro ev hev
    rcases List.mem_append.mp hev with hev | hev
    · exact hnew' ev hev
    · exact hnew ev hev

/-- One action. -/
theorem Frame.of_effect (h : A.Effect t s s') : Frame A t s s' := by
  refine ⟨fun ha hb => ?_, h.ser.option, ?_, fun u hu => ?_⟩
  · obtain ⟨hx, hy, hz⟩ := h.mpu.axes ha
    obtain ⟨hax, hay⟩ := h.mpu.angles hb
    show Published.mk s'.mpu.axisX s'.mpu.axisY s'.mpu.axisZ s'.mpu.axisAngX s'.mpu.axisAngY = _
    rw [show s'.mpu.axisX = s.mpu.axisX from hx, show s'.mpu.axisY = s.mpu.axisY from hy,
      show s'.mpu.axisZ = s.mpu.axisZ from hz, show s'.mpu.axisAngX = s.mpu.axisAngX from hax,
      show s'.mpu.axisAngY = s.mpu.axisAngY from hay]
    rfl
  · rcases h.log with hlog | ⟨ev, hev, hlog⟩
    · refine ⟨[], by rw [hlog, List.nil_append], ?_⟩
      intro ev hev
      cases hev
    · refine ⟨[ev], by rw [hlog, Function.update_self]; rfl, ?_⟩
      intro ev' hev'
      rw [List.mem_singleton.mp hev']
      exact hev
  · rcases h.log with hlog | ⟨ev, -, hlog⟩
    · rw [hlog]
    · rw [hlog, Function.update_of_ne hu]

/-- The actions of the start-up change no variable of a report and log nothing. -/
theorem Frame.of_startup {a : Act F} {r : a.Ans} (ha : a.startup = true)
    (h : s.exec t a = some (r, s')) : Frame A t s s' := by
  refine .of_undisturbed ?_
  cases a with
  | mtxInit m =>
      rw [Sys.exec_mtxInit h]
      exact ⟨rfl, rfl, rfl⟩
  | thdCreate u =>
      rw [Sys.exec_thdCreate h]
      exact ⟨rfl, rfl, rfl⟩
  | i2cStart =>
      rw [Sys.exec_i2cStart h]
      exact ⟨rfl, rfl, rfl⟩
  | sdStart =>
      rw [Sys.exec_sdStart h]
      exact ⟨rfl, rfl, rfl⟩
  | _ => cases ha

/-- A whole execution. -/
theorem frame_exec {p : Prog F α} {x : α} (hp : p.All A.Allows)
    (he : Exec (machine F) t (EnvStep (machine F)) p s x s') : Frame A t s s' := by
  induction he with
  | ret x s => exact .of_undisturbed ⟨rfl, rfl, rfl⟩
  | intf hr _ ih => exact (Frame.of_undisturbed (.of_env (.single hr))).trans (ih hp)
  | act hact _ ih =>
      refine Frame.trans ?_ (ih (hp.2 _))
      rcases hp.1 with hstart | hwithin
      · exact .of_startup hstart hact
      · exact .of_effect (Footprint.effect_step hwithin hact)

/-- An execution within a footprint, by induction on it. -/
theorem frame_within {p : Prog F α} {x : α} (hp : p.All (Within A))
    (he : Exec (machine F) t (EnvStep (machine F)) p s x s') : Frame A t s s' :=
  frame_exec (hp.mono fun _ ha => .inr ha) he

/-- Without commands the format of the log stays. -/
theorem Frame.degrees (h : Frame A t s s') (hA : A.commands = false) :
    Obs.degrees (s'.log t) = Obs.degrees (s.log t) := by
  obtain ⟨new, hlog, hnew⟩ := h.log
  rw [hlog, degrees_append hA hnew]

/-- Without reports no line is printed. -/
theorem Frame.lines (h : Frame A t s s') (hA : A.reports = false) :
    Obs.lines (s'.log t) = Obs.lines (s.log t) := by
  obtain ⟨new, hlog, hnew⟩ := h.log
  rw [hlog, lines_append hA hnew]

/-- Without updates nothing new is published. -/
theorem Frame.latest [CFloat F] (h : Frame A t s s') (hA : A.updates = false) :
    Obs.latest (s'.log t) = Obs.latest (s.log t) := by
  obtain ⟨new, hlog, hnew⟩ := h.log
  rw [hlog, latest_append hA hnew]

/-- An execution that makes the entry `ev` and leaves the variables alone. -/
structure Logged (t : Tid) (ev : Obs F) (s s' : Sys F) : Prop where
  mpu : s'.mpu = s.mpu
  ser : s'.ser = s.ser
  log : s'.log = Function.update s.log t (ev :: s.log t)

/-- One action, and what comes around it. -/
theorem exec_action {a : Act F} {r : a.Ans}
    (he : Exec (machine F) t (EnvStep (machine F)) (perform (S := sig F) a) s r s') :
    ∃ s₁ s₂, Undisturbed s s₁ ∧ s₁.exec t a = some (r, s₂) ∧ Undisturbed s₂ s' := by
  obtain ⟨s₁, s₂, hpre, hact, hpost⟩ := he.of_perform
  exact ⟨s₁, s₂, .of_env hpre, hact, .of_env hpost⟩

/-- A note, and what comes around it. -/
theorem exec_note {ev : MpuC F → Obs F} {r : Unit}
    (he : Exec (machine F) t (EnvStep (machine F)) (note ev) s r s') :
    Logged t (ev s.mpu) s s' := by
  obtain ⟨s₁, s₂, hpre, hact, hpost⟩ := exec_action he
  rw [Sys.exec_note hact] at hpost
  refine ⟨hpost.mpu.trans hpre.mpu, hpost.ser.trans hpre.ser, ?_⟩
  rw [hpost.log, Sys.observe, hpre.log, hpre.mpu]

/-- An assignment, and what comes around it. -/
theorem exec_setSer {f : MpuC F → SerC F → SerC F} {r : Unit}
    (he : Exec (machine F) t (EnvStep (machine F)) (setSer f) s r s') :
    s'.ser = f s.mpu s.ser := by
  obtain ⟨s₁, s₂, hpre, hact, hpost⟩ := exec_action he
  rw [Sys.exec_setSer hact] at hpost
  rw [hpost.ser, ← hpre.mpu, ← hpre.ser]

/-- A recorded call. -/
theorem exec_call {f : Fn} {p : Prog F α} {x : α}
    (he : Exec (machine F) t (EnvStep (machine F)) (call f p) s x s') :
    ∃ s₁ s₂, Logged t (.began f) s s₁ ∧ Exec (machine F) t (EnvStep (machine F)) p s₁ x s₂ ∧
      Logged t (.returned f) s₂ s' := by
  obtain ⟨_, s₁, hbegan, he⟩ := he.of_bind
  obtain ⟨y, s₂, hp, he⟩ := he.of_bind
  obtain ⟨_, s₃, hreturned, he⟩ := he.of_bind
  obtain ⟨rfl, hrest⟩ := he.of_pure
  have hend := Undisturbed.of_env hrest
  have hlogged := exec_note hreturned
  refine ⟨s₁, s₂, exec_note hbegan, hp, hend.mpu.trans hlogged.mpu, hend.ser.trans hlogged.ser, ?_⟩
  rw [hend.log, hlogged.log]

end

/-! ### Commands -/

/-- `readOption` for a format. -/
def formatOption (degrees : Bool) : UInt32 := if degrees then 1 else 0

/-- `readOption` agrees with the latest format command. -/
def OptionOk (s : Sys F) : Prop :=
  s.ser.readOption = formatOption (Obs.degrees (s.log .serial))

section
variable {s s' : Sys F}

/-- Code that neither handles commands nor sets the format keeps it right. -/
theorem OptionOk.frame {A : Footprint} (h : OptionOk s) (hf : Frame A .serial s s')
    (ho : A.option = false) (hc : A.commands = false) : OptionOk s' := by
  rw [OptionOk, hf.option ho, hf.degrees hc]
  exact h

/-- `cmdred` and `cmdreg` assign `readOption`. -/
theorem exec_format {t : Tid} {n : UInt32} (he : Exec (machine F) t (EnvStep (machine F)) (do
      chMtxLock .serialcomm
      setSer fun _ c => { c with readOption := n }
      chMtxUnlock .serialcomm) s () s') : s'.ser.readOption = n := by
  obtain ⟨_, s₁, -, he⟩ := he.of_bind
  obtain ⟨_, s₂, hset, he⟩ := he.of_bind
  have hunlock : (chMtxUnlock (F := F) .serialcomm).All (Within { locks := [.serialcomm] }) := by
    simp [chMtxUnlock, perform, Within]
  rw [(frame_within hunlock he).option rfl, exec_setSer hset]

/-- What a command does to `readOption`. -/
theorem exec_command [CFloat F] {t : Tid} {c : Command}
    (he : Exec (machine F) t (EnvStep (machine F)) c.exec s () s') :
    s'.ser.readOption = match c with
      | .redg => 1
      | .regs => 0
      | _ => s.ser.readOption := by
  cases c with
  | redg => exact exec_format he
  | regs => exact exec_format he
  | start => exact (frame_within within_start he).option rfl
  | stop => exact (frame_within within_stop he).option rfl
  | range r => exact (frame_within (within_range r) he).option rfl

/-- No command but `cmdred` and `cmdreg` changes the format, and no other string
does. -/
theorem exec_commadCheck [CFloat F] {str : List UInt8} (h : OptionOk s)
    (he : Exec (machine F) .serial (EnvStep (machine F)) (commadCheck str) s () s') :
    OptionOk s' := by
  rw [commadCheck_eq] at he
  obtain ⟨s₁, s₂, hbegan, hbody, hreturned⟩ := exec_call he
  have hformat : Obs.degrees (s₁.log .serial) = match commandOf str with
      | some .redg => true
      | some .regs => false
      | _ => Obs.degrees (s.log .serial) := by
    rw [hbegan.log, Function.update_self]
    rfl
  have hend : Obs.degrees (s'.log .serial) = Obs.degrees (s₂.log .serial) := by
    rw [hreturned.log, Function.update_self]
    rfl
  rw [OptionOk, hreturned.ser, hend]
  cases hc : commandOf str with
  | none =>
      rw [hc] at hbody hformat
      have hf := frame_within (within_unknownCommand str) hbody
      rw [hf.option rfl, hf.degrees rfl, hbegan.ser, hformat]
      exact h
  | some c =>
      rw [hc] at hbody hformat
      have hoption := exec_command hbody
      have hf := frame_within (within_exec c) hbody
      rw [hf.degrees (by cases c <;> rfl), hoption, hformat]
      cases c with
      | redg => rfl
      | regs => rfl
      | _ => exact (congrArg SerC.readOption hbegan.ser).trans h

end

/-! ### One report -/

/-- What the output section reads and prints. -/
structure PrintView (F : Type) where
  mpu : MpuC F
  ser : SerC F
  lines : List (Axis × F)

/-- What the output section can see of a state. -/
def printView (s : Sys F) : PrintView F := ⟨s.mpu, s.ser, Obs.lines (s.log .serial)⟩

/-- An entry of the log. -/
def PrintView.observe (ev : Obs F) (v : PrintView F) : PrintView F :=
  { v with lines := Obs.lines [ev] ++ v.lines }

/-- The actions of the output section. -/
def Act.ofOutput : Act F → Bool
  | .getSer => true
  | .setSer _ => true
  | .note _ => true
  | .mtxLock _ => true
  | .mtxResume => true
  | .mtxUnlock _ => true
  | .sdOut _ => true
  | _ => false

/-- The machine of the view. -/
def printMachine (F : Type) : Machine (sig F) Unit (PrintView F) Empty where
  exec _ a v :=
    match a with
    | .getSer => some (v.ser, v)
    | .setSer f => some ((), { v with ser := f v.mpu v.ser })
    | .note ev => some ((), v.observe (ev v.mpu))
    | .mtxLock _ => some ((), v)
    | .mtxResume => some ((), v)
    | .mtxUnlock _ => some ((), v)
    | .sdOut o => some ((), v.observe (.printed o))
    | _ => none
  env e _ := e.elim

/-- The lines of a log are those of its entries, put together. -/
theorem lines_cons (ev : Obs F) (l : List (Obs F)) :
    Obs.lines (ev :: l) = Obs.lines [ev] ++ Obs.lines l := by
  cases ev with
  | printed o => cases o <;> rfl
  | _ => rfl

/-- A log entry goes into the view. -/
theorem printView_observe (ev : Obs F) (s : Sys F) :
    printView (s.observe .serial ev) = (printView s).observe ev := by
  have hlog : (s.observe .serial ev).log .serial = ev :: s.log .serial := by
    simp [Sys.observe]
  rw [printView, hlog, lines_cons]
  rfl

/-- The actions of the output section do to the view what they do to the state. -/
theorem sim_print : Simulates (machine F) (printMachine F) .serial () printView
    fun a => a.ofOutput = true := by
  intro a s r s' ha hexec
  cases a with
  | getSer =>
      obtain ⟨rfl, rfl⟩ := Sys.exec_getSer hexec
      rfl
  | setSer f =>
      rw [Sys.exec_setSer hexec]
      rfl
  | note ev =>
      rw [Sys.exec_note hexec, printView_observe]
      rfl
  | mtxLock m =>
      rw [Sys.exec_mtxLock hexec]
      rfl
  | mtxResume =>
      obtain ⟨k, -, rfl⟩ := Sys.exec_mtxResume hexec
      rfl
  | mtxUnlock m =>
      rw [Sys.exec_mtxUnlock hexec]
      have hobs := printView_observe (.unlocked m (s.kern.mtxlist .serial).head?) s
      exact congrArg some (congrArg (Prod.mk ()) hobs.symm)
  | sdOut o =>
      rw [Sys.exec_sdOut hexec, printView_observe]
      rfl
  | _ => cases ha

/-- The lines of a report, newest first. -/
def Published.shown (p : Published F) (readOption : UInt32) : List (Axis × F) :=
  if readOption = 1 then [(.y, p.axisY), (.x, p.axisX)]
  else [(.z, p.axisZ), (.y, p.axisY), (.x, p.axisX)]

/-- A report prints its lines. -/
theorem lines_of_report {v v' : PrintView F}
    (h : runAlone (printMachine F) () report v = some ((), v')) :
    v'.lines = v.mpu.published.shown v.ser.readOption ++ v.lines := by
  replace h : runAlone (printMachine F) () (if v.ser.readOption = 1 then _ else _) v =
    some ((), v') := h
  rw [Published.shown]
  by_cases hoption : v.ser.readOption = 1
  · rw [if_pos hoption] at h ⊢
    cases h
    rfl
  · rw [if_neg hoption] at h ⊢
    cases h
    rfl

/-- The output section prints one report or nothing. -/
theorem lines_of_outputSection {v v' : PrintView F}
    (h : runAlone (printMachine F) () outputSection v = some ((), v')) :
    v'.lines = v.lines ∨ v'.lines = v.mpu.published.shown v.ser.readOption ++ v.lines := by
  have hbody : runAlone (printMachine F) () ((if v.ser.readEnable &&
      decide (v.ser.rdCount > SERIAL_COUNTER_LIMIT) then report else pure ()) >>= fun _ =>
        chMtxUnlock .serialcomm) v = some ((), v') := by
    rw [← h]
    show _ = runAlone (printMachine F) () (if _ then _ else _) v
    split <;> rfl
  obtain ⟨⟨_, v₁⟩, hreport, hunlock⟩ := Option.bind_eq_some_iff.mp
    ((runAlone_bind _ _ _ _ _).symm.trans hbody)
  cases hunlock
  split at hreport
  · exact .inr (lines_of_report hreport)
  · cases hreport
    exact .inl rfl

/-- A report performs no other actions. -/
theorem ofOutput_report : (report (F := F)).All fun a : Act F => a.ofOutput = true := by
  simp [report, serialReadAccaxisD, serialReadAccaxisG, call, getSer, setSer, note, chMtxLock,
    chMtxUnlock, chprintf, perform, Act.ofOutput]

/-- Neither does the output section. -/
theorem ofOutput_outputSection :
    (outputSection (F := F)).All fun a : Act F => a.ofOutput = true := by
  refine .bind ⟨rfl, fun _ => ⟨rfl, fun _ => trivial⟩⟩ fun _ => ?_
  refine .bind ⟨rfl, fun _ => trivial⟩ fun c => .ite ?_ ⟨rfl, fun _ => trivial⟩
  exact .bind ofOutput_report fun _ => ⟨rfl, fun _ => trivial⟩

/-- The output section prints nothing, or one report. -/
theorem exec_outputSection {s s' : Sys F}
    (he : Exec (machine F) .serial (EnvStep (machine F)) outputSection s () s') :
    Obs.lines (s'.log .serial) = Obs.lines (s.log .serial) ∨
    Obs.lines (s'.log .serial) = s.mpu.published.shown s.ser.readOption ++
      Obs.lines (s.log .serial) := by
  have hrely : ∀ s s' : Sys F, EnvStep (machine F) s s' → printView s' = printView s := by
    intro s s' hstep
    have hcalm := Undisturbed.of_env (.single hstep)
    rw [printView, printView, hcalm.mpu, hcalm.ser, hcalm.log]
  exact lines_of_outputSection (he.runAlone_view sim_print hrely ofOutput_outputSection)

/-! ### Updates -/

/-- The variables hold what the latest complete update has stored. -/
def ValuesOk [CFloat F] (s : Sys F) : Prop := s.mpu.published = Obs.latest (s.log .mpu)

section
variable [CFloat F] {s s' : Sys F}

/-- Code that computes no values keeps them those of the latest update. -/
theorem ValuesOk.frame {A : Footprint} (h : ValuesOk s) (hf : Frame A .mpu s s')
    (hx : A.axes = false) (ha : A.angles = false) (hu : A.updates = false) : ValuesOk s' := by
  rw [ValuesOk, hf.values hx ha, hf.latest hu]
  exact h

/-- An entry of the log that is no publication. -/
theorem ValuesOk.logged {ev : Obs F} (h : ValuesOk s) (hl : Logged .mpu ev s s')
    (hev : ∀ l, Obs.latest (ev :: l) = Obs.latest l) : ValuesOk s' := by
  rw [ValuesOk, hl.mpu, hl.log, Function.update_self, hev]
  exact h

/-- One read stores a row value. -/
theorem ValuesOk.read {axis : AccAxis} {store : UInt16 → MpuC F → MpuC F} {r : Msg}
    (hstore : ∀ v c, Footprint.Mpu { row := true } c (store v c)) (h : ValuesOk s)
    (he : Exec (machine F) .mpu (EnvStep (machine F)) (mpuReadAccAxis axis store) s r s') :
    ValuesOk s' := by
  obtain ⟨p, heq, hp⟩ := within_mpuReadAccAxis hstore
  rw [heq] at he
  obtain ⟨s₁, s₂, hbegan, hbody, hreturned⟩ := exec_call he
  have h₁ := h.logged hbegan fun _ => rfl
  have h₂ := h₁.frame (frame_within hp hbody) rfl rfl rfl
  exact h₂.logged hreturned fun _ => rfl

/-- A call of `mpu_acc_update` publishes what it has stored, or stores nothing. -/
theorem exec_mpuAccUpdate_values {b : Bool} (h : ValuesOk s)
    (he : Exec (machine F) .mpu (EnvStep (machine F)) mpuAccUpdate s b s') : ValuesOk s' := by
  obtain ⟨s₁, s₂, hbegan, he, hreturned⟩ := exec_call he
  refine ValuesOk.logged ?_ hreturned fun _ => rfl
  obtain ⟨res₀, t₀, hread₀, he⟩ := he.of_bind
  obtain ⟨res₁, t₁, hread₁, he⟩ := he.of_bind
  obtain ⟨res₂, t₂, hread₂, he⟩ := he.of_bind
  have h₀ := (h.logged hbegan fun _ => rfl).read (by simp [Footprint.mpu_iff]) hread₀
  have h₁ := h₀.read (by simp [Footprint.mpu_iff]) hread₁
  have h₂ := h₁.read (by simp [Footprint.mpu_iff]) hread₂
  split at he
  · -- No read succeeded: the update returns before its stores.
    obtain ⟨-, hrest⟩ := he.of_pure
    exact h₂.frame (A := {}) (.of_undisturbed (.of_env hrest)) rfl rfl rfl
  · -- Whatever the nine stores and reads were, the note publishes the variables.
    iterate 9 (obtain ⟨_, _, -, he⟩ := he.of_bind)
    obtain ⟨_, t₄, hnote, he⟩ := he.of_bind
    have hlogged := exec_note hnote
    obtain ⟨-, hrest⟩ := he.of_pure
    have hpub : ValuesOk t₄ := by
      rw [ValuesOk, hlogged.mpu, hlogged.log, Function.update_self]
      rfl
    exact hpub.frame (A := {}) (.of_undisturbed (.of_env hrest)) rfl rfl rfl

end

/-! ### Whole iterations -/

/-- The states between whole iterations of the three loops. -/
inductive Turns [CFloat F] : Sys F → Prop where
  | start {results : Tid → Nat → I2CResult} {regs : UInt8 → UInt8} {pastStrbuf : List UInt8}
      {s s' : Sys F} :
      Exec (machine F) .main (EnvStep (machine F)) (setup .main)
        (boot results regs pastStrbuf) () s →
      Exec (machine F) .serial (EnvStep (machine F)) (setup .serial) s () s' → Turns s'
  | round (t : Tid) {s s' : Sys F} : Turns s →
      Exec (machine F) t (EnvStep (machine F)) (loop t) s () s' → Turns s'

/-- The format and the values are those of the logs. -/
structure Told [CFloat F] (s : Sys F) : Prop where
  option : OptionOk s
  values : ValuesOk s

section
variable [CFloat F] {s s' : Sys F}

/-- An iteration of the serial thread keeps the format, and prints one report in it
or nothing. -/
theorem exec_serial (h : OptionOk s)
    (he : Exec (machine F) .serial (EnvStep (machine F)) (loop .serial) s () s') :
    OptionOk s' ∧ (Obs.lines (s'.log .serial) = Obs.lines (s.log .serial) ∨
      Obs.lines (s'.log .serial) =
        s.mpu.published.shown (formatOption (Obs.degrees (s'.log .serial))) ++
          Obs.lines (s.log .serial)) := by
  obtain ⟨sdt, s₁, hread, he⟩ := he.of_bind
  have hf₁ := frame_within within_serialRead hread
  have h₁ := h.frame hf₁ rfl rfl
  -- Up to the flush there is no report, with or without a command.
  have hchecked : ∃ s₂, OptionOk s₂ ∧ Obs.lines (s₂.log .serial) = Obs.lines (s.log .serial) ∧
      s₂.mpu.published = s.mpu.published ∧ Exec (machine F) .serial (EnvStep (machine F)) (do
        iqResetI
        outputSection
        setSer fun _ c => { c with rdCount := wrap32 (c.rdCount + 1) }
        chThdSleepMilliseconds 100) s₂ () s' := by
    split at he
    · obtain ⟨c, s₂, hget, he⟩ := he.of_bind
      obtain ⟨_, s₃, hcheck, he⟩ := he.of_bind
      have hf₂ : Frame {} .serial s₁ s₂ :=
        frame_within (p := getSer) ⟨trivial, fun _ => trivial⟩ hget
      have hf₃ := frame_within (within_commadCheck c.strMem) hcheck
      refine ⟨s₃, exec_commadCheck (h₁.frame hf₂ rfl rfl) hcheck, ?_, ?_, he⟩
      · rw [hf₃.lines rfl, hf₂.lines rfl, hf₁.lines rfl]
      · rw [hf₃.values rfl rfl, hf₂.values rfl rfl, hf₁.values rfl rfl]
    · exact ⟨s₁, h₁, hf₁.lines rfl, hf₁.values rfl rfl, he⟩
  obtain ⟨s₂, h₂, hlines₂, hvalues₂, he⟩ := hchecked
  obtain ⟨_, s₃, hflush, he⟩ := he.of_bind
  obtain ⟨_, s₄, houtput, hrest⟩ := he.of_bind
  have hf₃ : Frame { reads := true } .serial s₂ s₃ :=
    frame_within (p := iqResetI) ⟨rfl, fun _ => trivial⟩ hflush
  have h₃ := h₂.frame hf₃ rfl rfl
  have hf₄ := frame_within within_outputSection houtput
  have hf₅ : Frame { rdCount := true } .serial s₄ s' :=
    frame_within (by simp [setSer, chThdSleepMilliseconds, perform, Within,
      Footprint.ser_iff]) hrest
  have h₅ := (h₃.frame hf₄ rfl rfl).frame hf₅ rfl rfl
  refine ⟨h₅, ?_⟩
  have hformat : s₃.ser.readOption = formatOption (Obs.degrees (s'.log .serial)) := by
    rw [hf₅.degrees rfl, hf₄.degrees rfl]
    exact h₃
  rw [hf₅.lines rfl, ← hlines₂, ← hf₃.lines rfl, ← hvalues₂, ← hf₃.values rfl rfl, ← hformat]
  exact exec_outputSection houtput

/-- An iteration of the MPU thread. -/
theorem exec_mpu (h : ValuesOk s)
    (he : Exec (machine F) .mpu (EnvStep (machine F)) (loop .mpu) s () s') : ValuesOk s' := by
  obtain ⟨_, s₁, hlock, he⟩ := he.of_bind
  obtain ⟨c, s₂, hget, he⟩ := he.of_bind
  have hf₁ : Frame { locks := [.mpu] } .mpu s s₁ :=
    frame_within (by simp [chMtxLock, perform, Within]) hlock
  have hf₂ : Frame {} .mpu s₁ s₂ :=
    frame_within (p := getMpu) ⟨trivial, fun _ => trivial⟩ hget
  have h₂ := (h.frame hf₁ rfl rfl rfl).frame hf₂ rfl rfl rfl
  have hend : (do chMtxUnlock (F := F) .mpu; chThdSleepMilliseconds 500).All
      (Within { locks := [.mpu] }) := by
    simp [chMtxUnlock, chThdSleepMilliseconds, perform, Within]
  split at he
  · obtain ⟨b, s₃, hupdate, he⟩ := he.of_bind
    have h₃ := exec_mpuAccUpdate_values h₂ hupdate
    exact h₃.frame (frame_within hend he) rfl rfl rfl
  · exact h₂.frame (frame_within hend he) rfl rfl rfl

/-- One thread cannot make the other's part of `Told` false. -/
theorem Told.of_frame {A : Footprint} {t : Tid} (h : Told s) (hf : Frame A t s s')
    (hserial : t = .serial → OptionOk s') (hmpu : t = .mpu → ValuesOk s')
    (ho : t ≠ .serial → A.option = false)
    (hv : t ≠ .mpu → A.axes = false ∧ A.angles = false) : Told s' := by
  constructor
  · by_cases ht : t = .serial
    · exact hserial ht
    · rw [OptionOk, hf.option (ho ht), hf.others .serial (Ne.symm ht)]
      exact h.option
  · by_cases ht : t = .mpu
    · exact hmpu ht
    · obtain ⟨hx, ha⟩ := hv ht
      rw [ValuesOk, hf.values hx ha, hf.others .mpu (Ne.symm ht)]
      exact h.values

/-- Format and values are right between all iterations, by induction on the turns. -/
theorem told_of_turns (h : Turns s) : Told s := by
  induction h with
  | @start results regs pastStrbuf s s' hmain hserial =>
      have hboot : Told (boot results regs pastStrbuf : Sys F) := ⟨rfl, rfl⟩
      have hf := frame_exec allows_setup hmain
      have hs := hboot.of_frame hf (fun h => by cases h) (fun h => by cases h) (fun _ => rfl)
        fun _ => ⟨rfl, rfl⟩
      have hsetup : (setup (F := F) .serial).All (Footprint.Allows {}) :=
        ⟨.inl rfl, fun _ => ⟨.inr trivial, fun _ => trivial⟩⟩
      have hf' := frame_exec hsetup hserial
      exact hs.of_frame hf' (fun _ => hs.option.frame hf' rfl rfl) (fun h => by cases h)
        (fun _ => rfl) fun _ => ⟨rfl, rfl⟩
  | round t _ he ih =>
      cases t with
      | main =>
          have hsleep : (loop (F := F) .main).All (Within {}) := ⟨trivial, fun _ => trivial⟩
          exact ih.of_frame (frame_within hsleep he) (fun h => by cases h) (fun h => by cases h)
            (fun _ => rfl) fun _ => ⟨rfl, rfl⟩
      | serial =>
          exact ih.of_frame (frame_within within_serialcommThread he)
            (fun _ => (exec_serial ih.option he).1) (fun h => by cases h)
            (fun h => absurd rfl h) fun _ => ⟨rfl, rfl⟩
      | mpu =>
          exact ih.of_frame (frame_within within_mpumThread he) (fun h => by cases h)
            (fun _ => exec_mpu ih.values he) (fun _ => rfl) fun h => absurd rfl h

/-- A report that the iteration after `s` prints consists of the latest values, in
g. -/
theorem report_of_turns {L : List (Axis × F)} (h : Turns s)
    (he : Exec (machine F) .serial (EnvStep (machine F)) (loop .serial) s () s')
    (hL : Obs.lines (s'.log .serial) = L ++ Obs.lines (s.log .serial)) (hreport : L ≠ []) :
    Obs.latest (s'.log .mpu) = s.mpu.published ∧
      L = s.mpu.published.shown (formatOption (Obs.degrees (s'.log .serial))) := by
  have htold := told_of_turns h
  have hothers := (frame_within within_serialcommThread he).others .mpu (by decide)
  refine ⟨by rw [hothers]; exact htold.values.symm, ?_⟩
  obtain ⟨-, hnone | hshown⟩ := exec_serial htold.option he
  · rw [hnone] at hL
    exact absurd (List.self_eq_append_left.mp hL) hreport
  · exact List.append_cancel_right (hL.symm.trans hshown)

/-- What a report should show after the update `p`, in printing order, in degrees
or in g. -/
def Published.selected (degrees : F → F) (p : Published F) : Bool → List (Axis × F)
  | true => [(.x, degrees p.axisAngX), (.y, degrees p.axisAngY)]
  | false => [(.x, p.axisX), (.y, p.axisY), (.z, p.axisZ)]

/-- Each report shows the quantity of the latest format command exactly when that
command was not `cmdred`, or the values in g are the angles in degrees. -/
theorem shown_iff (degrees : F → F) {L : List (Axis × F)} (h : Turns s)
    (he : Exec (machine F) .serial (EnvStep (machine F)) (loop .serial) s () s')
    (hL : Obs.lines (s'.log .serial) = L ++ Obs.lines (s.log .serial)) (hreport : L ≠ []) :
    L.reverse = (Obs.latest (s'.log .mpu)).selected degrees (Obs.degrees (s'.log .serial)) ↔
      (Obs.degrees (s'.log .serial) = true →
        s.mpu.axisX = degrees s.mpu.axisAngX ∧ s.mpu.axisY = degrees s.mpu.axisAngY) := by
  obtain ⟨hlatest, hshown⟩ := report_of_turns h he hL hreport
  rw [hlatest, hshown]
  cases Obs.degrees (s'.log .serial) with
  | true =>
      show [(Axis.x, s.mpu.axisX), (Axis.y, s.mpu.axisY)] =
        [(Axis.x, degrees s.mpu.axisAngX), (Axis.y, degrees s.mpu.axisAngY)] ↔ _
      simp
  | false =>
      constructor
      · intro _ hfalse
        cases hfalse
      · intro _
        rfl

end

/-! ### Runs -/

/-- The bytes arrive. -/
def Sys.feed (s : Sys F) : List UInt8 → Sys F
  | [] => s
  | b :: bs => Sys.feed { s with sd2 := s.sd2.incoming b } bs

/-- A run of one thread on the bytes that have come is an execution. -/
theorem exec_fed {t : Tid} {p : Prog F α} {s s' : Sys F} {x : α} (bs : List UInt8)
    (h : runAlone (machine F) t p (s.feed bs) = some (x, s')) :
    Exec (machine F) t (EnvStep (machine F)) p s x s' := by
  induction bs generalizing s with
  | nil => exact .of_runAlone h
  | cons b bs ih => exact .intf ⟨.rx b, rfl⟩ (ih h)

section
variable [CFloat F]

/-- The board is set up, then the threads take turns. Before a turn its bytes
arrive. -/
def turnsFrom (regs : UInt8 → UInt8) : List (Tid × List UInt8) → Option (Sys F)
  | [] => (runAlone (machine F) .main (setup .main)
      (boot (fun _ _ => ⟨.MSG_OK, []⟩) regs [])).bind fun r =>
        (runAlone (machine F) .serial (setup .serial) r.2).map Prod.snd
  | (t, bs) :: before => (turnsFrom regs before).bind fun s =>
      (runAlone (machine F) t (loop t) (s.feed bs)).map Prod.snd

/-- What is computed turn by turn is reached by turns. -/
theorem Turns.of_turnsFrom {regs : UInt8 → UInt8} {ts : List (Tid × List UInt8)} {s : Sys F}
    (h : turnsFrom regs ts = some s) : Turns s := by
  induction ts generalizing s with
  | nil =>
      obtain ⟨⟨_, s₁⟩, hmain, hrest⟩ := Option.bind_eq_some_iff.mp h
      obtain ⟨⟨_, s₂⟩, hserial, rfl⟩ := Option.map_eq_some_iff.mp hrest
      exact .start (.of_runAlone hmain) (.of_runAlone hserial)
  | cons turn before ih =>
      obtain ⟨s₁, hbefore, hrest⟩ := Option.bind_eq_some_iff.mp h
      obtain ⟨⟨_, s₂⟩, hturn, rfl⟩ := Option.map_eq_some_iff.mp hrest
      exact .round turn.1 (ih hbefore) (exec_fed turn.2 hturn)

end

/-- One update, and six iterations that handle the command, latest first. -/
def sixTurns (command : List UInt8) : List (Tid × List UInt8) :=
  List.replicate 6 (.serial, command) ++ [(.mpu, [])]

/-- Radians to degrees. -/
noncomputable def toDegrees (a : Exact) : Exact := a.map fun r => 180 / Real.pi * r

/-- A sensor that measures about 1 g along `y`. -/
def tilted : UInt8 → UInt8 := fun reg => if reg = 0x3D then 0x08 else 0

/-- The value of `y` is slightly above 1 g, and the angle is the arc tangent of
that. -/
theorem tilted_published {c : MpuC Exact} (hscale : c.accScaleRef = accScale .ACCEL_RANGE_16G)
    (hx : c.axisRowX = 0x0008) (hy : c.axisRowY = 0x0800) (hz : c.axisRowZ = 0) :
    ∃ x z a, c.publish.published =
      ⟨x, some (65536 / 65535), z, a, some (Real.arctan (65536 / 65535))⟩ := by
  have hx' : (UInt16.toNat 0x0008 : ℝ) = 8 := rfl
  have hy' : (UInt16.toNat 0x0800 : ℝ) = 2048 := rfl
  have hz' : (UInt16.toNat 0 : ℝ) = 0 := Nat.cast_zero
  have hpub := publish_exact (hscale.trans (accScale_exact _))
  rw [hx, hy, hz, hx', hy', hz'] at hpub
  have hval : (2048 : ℝ) * (AccelRange.magnitude .ACCEL_RANGE_16G / 32767.5) = 65536 / 65535 := by
    norm_num [AccelRange.magnitude]
  have hx2 : ⌊(8 : ℝ) * (AccelRange.magnitude .ACCEL_RANGE_16G / 32767.5) *
      (8 * (AccelRange.magnitude .ACCEL_RANGE_16G / 32767.5))⌋₊ = 0 := by
    rw [Nat.floor_eq_zero]
    norm_num [AccelRange.magnitude]
  have hz2 : ⌊((0 : ℝ) * (AccelRange.magnitude .ACCEL_RANGE_16G / 32767.5) - 1) *
      (0 * (AccelRange.magnitude .ACCEL_RANGE_16G / 32767.5) - 1)⌋₊ = 1 := by
    norm_num
  have hsqrt : (CFloat.sqrt (UInt32.ofNat 0 + UInt32.ofNat 1) : Exact) = some 1 := by
    show some (√((UInt32.toNat 1 : ℕ) : ℝ)) = some 1
    rw [show UInt32.toNat 1 = 1 from rfl, Nat.cast_one, Real.sqrt_one]
  have hang : (CFloat.atan (CFloat.div (some (65536 / 65535) : Exact) (some 1)) : Exact) =
      some (Real.arctan (65536 / 65535)) := by
    show Option.map Real.arctan (if (1 : ℝ) = 0 then none else some (65536 / 65535 / 1)) = _
    rw [if_neg one_ne_zero, div_one]
    rfl
  unfold exactTriple at hpub
  dsimp only at hpub
  rw [hx2, hz2, hval, hsqrt, hang] at hpub
  exact ⟨_, _, _, hpub⟩

/-- An angle above 45 degrees is not about 1. -/
theorem toDegrees_arctan_ne :
    toDegrees (some (Real.arctan (65536 / 65535))) ≠ some (65536 / 65535) := by
  intro h
  have hmul : 180 / Real.pi * Real.arctan (65536 / 65535) = 65536 / 65535 := Option.some.inj h
  have hle : Real.pi / 4 ≤ Real.arctan (65536 / 65535) := by
    rw [← Real.arctan_one]
    exact Real.arctan_strictMono.monotone (by norm_num)
  have hpi : 0 < 180 / Real.pi := div_pos (by norm_num) Real.pi_pos
  have h45 : 180 / Real.pi * (Real.pi / 4) = 45 := by
    field_simp [Real.pi_ne_zero]
    norm_num
  have hge := mul_le_mul_of_nonneg_left hle hpi.le
  rw [h45, hmul] at hge
  norm_num at hge

set_option maxRecDepth 8000 in
/-- A report after `cmdred` shows 65536/65535 g, and not the 45 degrees of
that. -/
theorem report_in_g :
    ¬∀ (s s' : Sys Exact) (L : List (Axis × Exact)), Turns s →
      Exec (machine Exact) .serial (EnvStep (machine Exact)) (loop .serial) s () s' →
      Obs.lines (s'.log .serial) = L ++ Obs.lines (s.log .serial) → L ≠ [] →
      L.reverse =
        (Obs.latest (s'.log .mpu)).selected toDegrees (Obs.degrees (s'.log .serial)) := by
  intro h
  have hvalues : (turnsFrom (F := Exact) tilted (sixTurns SER_REDG)).map
      (fun s => (s.mpu.published, s.mpu.accScaleRef)) =
    (turnsFrom (F := Exact) tilted (sixTurns SER_REDG)).map
      fun s => (s.mpu.publish.published, accScale .ACCEL_RANGE_16G) := by
    rfl
  have hrun : ((turnsFrom (F := Exact) tilted (sixTurns SER_REDG)).any fun s =>
      s.mpu.axisRowX = 0x0008 && s.mpu.axisRowY = 0x0800 && s.mpu.axisRowZ = 0 &&
      (Obs.lines (s.log .serial)).isEmpty &&
      (runAlone (machine Exact) .serial (loop .serial) (s.feed SER_REDG)).any fun r =>
        !(Obs.lines (r.2.log .serial)).isEmpty && Obs.degrees (r.2.log .serial)) = true := by
    decide +kernel
  obtain ⟨s, hs, hfacts⟩ := (Option.any_eq_true _ _).mp hrun
  simp only [Bool.and_eq_true, List.isEmpty_iff, decide_eq_true_eq] at hfacts
  obtain ⟨⟨⟨⟨hx, hy⟩, hz⟩, hbefore⟩, hturn⟩ := hfacts
  obtain ⟨⟨_, s'⟩, hlast, hafter⟩ := (Option.any_eq_true _ _).mp hturn
  simp only [Bool.and_eq_true, Bool.not_eq_true', List.isEmpty_eq_false_iff] at hafter
  obtain ⟨hreport, hdegrees⟩ := hafter
  have hturns := Turns.of_turnsFrom hs
  have he := exec_fed SER_REDG hlast
  have hL : Obs.lines (s'.log .serial) = Obs.lines (s'.log .serial) ++
      Obs.lines (s.log .serial) := by
    rw [hbefore, List.append_nil]
  obtain ⟨hlatest, hshown⟩ := report_of_turns hturns he hL hreport
  have hclaim := h s s' _ hturns he hL hreport
  rw [hs] at hvalues
  obtain ⟨hpub, hscale⟩ := Prod.mk.inj (Option.some.inj hvalues)
  obtain ⟨x, z, a, hval⟩ := tilted_published hscale hx hy hz
  rw [hlatest, hshown, hdegrees, hpub, hval] at hclaim
  simp only [Published.shown, formatOption, Published.selected, if_true, List.reverse_cons,
    List.reverse_nil, List.nil_append, List.cons_append, List.cons.injEq, Prod.mk.injEq, true_and,
    and_true] at hclaim
  exact toDegrees_arctan_ne hclaim.2.symm

/-- A report after `cmdreg` shows the values in g, as it should. -/
theorem shown_iff_regs : ∃ (s' : Sys Exact) (L : List (Axis × Exact)), L ≠ [] ∧
    L.reverse = (Obs.latest (s'.log .mpu)).selected toDegrees (Obs.degrees (s'.log .serial)) := by
  have hrun : ((turnsFrom (F := Exact) tilted (sixTurns SER_REGS)).any fun s =>
      (Obs.lines (s.log .serial)).isEmpty &&
      (runAlone (machine Exact) .serial (loop .serial) (s.feed SER_REGS)).any fun r =>
        !(Obs.lines (r.2.log .serial)).isEmpty && !Obs.degrees (r.2.log .serial)) = true := by
    decide +kernel
  obtain ⟨s, hs, hfacts⟩ := (Option.any_eq_true _ _).mp hrun
  obtain ⟨hbefore, hturn⟩ := Bool.and_eq_true_iff.mp hfacts
  obtain ⟨⟨_, s'⟩, hlast, hafter⟩ := (Option.any_eq_true _ _).mp hturn
  simp only [Bool.and_eq_true, Bool.not_eq_true', List.isEmpty_eq_false_iff] at hafter
  obtain ⟨hreport, hregs⟩ := hafter
  have hL : Obs.lines (s'.log .serial) = Obs.lines (s'.log .serial) ++
      Obs.lines (s.log .serial) := by
    rw [List.isEmpty_iff.mp hbefore, List.append_nil]
  refine ⟨s', _, hreport, (shown_iff toDegrees (Turns.of_turnsFrom hs) (exec_fed SER_REGS hlast) hL
    hreport).mpr fun hdegrees => ?_⟩
  exact absurd (hregs.symm.trans hdegrees) Bool.false_ne_true

end MotionTracking
