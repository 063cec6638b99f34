import MotionTracking.Proofs.Guarded

/-!
# `MotionTracking.Proofs.Snapshot`: the values of one report

`mpu_acc_update` stores its values one by one under `mpu.c`'s mutex, and the log
records them when they are complete (`published`). `serial_read_accaxis_d` copies
under the same mutex. `serial_read_accaxis_g` takes no mutex, so its copies can
come from two updates.

`report_is_snapshot`: in every run in which `serial_read_accaxis_g` and the
stores of an update do not overlap (`Act.apart`), all values of a report come
from one update. `report_torn` is a run in which they do overlap.
-/

set_option autoImplicit false

namespace MotionTracking

open Threads (Machine Outline Reaches Config Move)
open Threads.Outline (Sat Triple)
open Threads.Prog (perform)
open Footprint (Within Effect)

variable {F α : Type}

/-! ### Updates and reports in the logs -/

/-- The three values in g. -/
def Published.axes (p : Published F) : F × F × F := (p.axisX, p.axisY, p.axisZ)

/-- The value of an axis. -/
def Published.axis (p : Published F) : Axis → F
  | .x => p.axisX
  | .y => p.axisY
  | .z => p.axisZ

/-- The three values in `mpu.c`. -/
def MpuC.axes (c : MpuC F) : F × F × F := (c.axisX, c.axisY, c.axisZ)

/-- The three copies in `serialcomm.c`. -/
def SerC.axes (c : SerC F) : F × F × F := (c.axisX, c.axisY, c.axisZ)

namespace Obs

/-- What the latest complete update has stored, or the initial values. -/
def latest [CFloat F] : List (Obs F) → Published F
  | [] => ⟨CFloat.lit 0, CFloat.lit 0, CFloat.lit 0, CFloat.lit 0, CFloat.lit 0⟩
  | .published p :: _ => p
  | _ :: l => latest l

/-- What the complete updates have stored, newest first, and the initial
values. -/
def snapshots [CFloat F] : List (Obs F) → List (Published F)
  | [] => [⟨CFloat.lit 0, CFloat.lit 0, CFloat.lit 0, CFloat.lit 0, CFloat.lit 0⟩]
  | .published p :: l => p :: snapshots l
  | _ :: l => snapshots l

/-- The third axis has been read, and the update is not complete. -/
def storing : List (Obs F) → Bool
  | [] => false
  | .returned f :: _ => f = .mpuReadAccAxis .ACC_AXIS_Z
  | .began _ :: _ => false
  | .published _ :: _ => false
  | _ :: l => storing l

/-- The lines of the reports, newest first. A report begins with the call of its
getter. -/
def reports : List (Obs F) → List (List (Axis × F))
  | [] => []
  | .began .serialReadAccaxisD :: l => [] :: reports l
  | .began .serialReadAccaxisG :: l => [] :: reports l
  | .printed (.axis a v) :: l =>
      match reports l with
      | [] => [[(a, v)]]
      | r :: rs => ((a, v) :: r) :: rs
  | _ :: l => reports l

/-- The latest getter was `serial_read_accaxis_g`, or there was none. -/
def three : List (Obs F) → Bool
  | [] => true
  | .began .serialReadAccaxisD :: _ => false
  | .began .serialReadAccaxisG :: _ => true
  | _ :: l => three l

end Obs

/-- The step does not let `serial_read_accaxis_g` and the stores of an update
overlap. -/
def Act.apart (t : Tid) (s : Sys F) : Act F → Bool
  | .setMpu _ => !(t = .mpu && Obs.storing (s.log .mpu) &&
      Obs.inside .serialReadAccaxisG (s.log .serial))
  | .note ev =>
      match ev s.mpu with
      | .began .serialReadAccaxisG => !Obs.storing (s.log .mpu)
      | _ => true
  | _ => true

/-- The firmware's machine, without the steps that break `Act.apart`. -/
def apartMachine (F : Type) : Machine (sig F) Tid (Sys F) EnvMove :=
  (machine F).restrict (fun t a s => a.apart t s = true) fun _ _ => True

/-! ### The guard -/

/-- What the serial thread's log says about its reports. -/
structure ReportLog (F : Type) where
  inG : Bool
  inD : Bool
  three : Bool
  reports : List (List (Axis × F))

/-- What a log of the serial thread says. -/
def reportLog (l : List (Obs F)) : ReportLog F where
  inG := Obs.inside .serialReadAccaxisG l
  inD := Obs.inside .serialReadAccaxisD l
  three := Obs.three l
  reports := Obs.reports l

/-- What only the serial thread changes, and the axis values while it is in
`serial_read_accaxis_g`. -/
structure ReportView (F : Type) where
  axes : F × F × F
  log : ReportLog F
  frozen : Option (F × F × F)

/-- The view of the serial thread in a state. -/
def reportView (s : Sys F) : ReportView F where
  axes := s.ser.axes
  log := reportLog (s.log .serial)
  frozen := if Obs.inside .serialReadAccaxisG (s.log .serial) then some s.mpu.axes else none

/-- What the MPU thread's log says about its updates. -/
structure UpdateLog (F : Type) where
  storing : Bool
  latest : Published F
  snapshots : List (Published F)

/-- What a log of the MPU thread says. -/
def updateLog [CFloat F] (l : List (Obs F)) : UpdateLog F where
  storing := Obs.storing l
  latest := Obs.latest l
  snapshots := Obs.snapshots l

/-- The copies `c`, and the lines printed of them so far, are those of `p`. -/
structure Shows (p : Published F) (c : F × F × F) (l : ReportLog F) : Prop where
  x : c.1 = p.axisX
  y : c.2.1 = p.axisY
  z : l.three = true → c.2.2 = p.axisZ
  lines : ∀ line ∈ l.reports.headD [], line.2 = p.axis line.1

/-- The invariant, for owner `o` of the mutex, axis values `x` and copies `c`. -/
structure ReportInv (o : Option Tid) (x c : F × F × F) (u : UpdateLog F) (l : ReportLog F) :
    Prop where
  latest : u.latest ∈ u.snapshots
  /-- Outside its stores, the MPU thread leaves the values of a complete update. -/
  settled : u.storing = false → x = u.latest.axes
  frozen : l.inG = true → ∃ p ∈ u.snapshots, x = p.axes
  /-- The copies are those of one update, but for a getter under way. -/
  copied : l.inG = true ∨ (o = some .serial ∧ l.inD = true) ∨ ∃ p ∈ u.snapshots, Shows p c l
  whole : ∀ r ∈ l.reports, ∃ p ∈ u.snapshots, ∀ line ∈ r, line.2 = p.axis line.1

/-- The axis values are protected, together with the latest update: while the mutex is
free they are its values. -/
def reportData (F : Type) [CFloat F] : GuardData F where
  Priv
    | .main => Unit
    | .serial => ReportView F
    | .mpu => Bool
  Prot := (F × F × F) × Published F
  priv
    | .main => fun _ => ()
    | .serial => reportView
    | .mpu => fun s => Obs.storing (s.log .mpu)
  prot s := (s.mpu.axes, Obs.latest (s.log .mpu))
  free s := s.mpu.axes = (Obs.latest (s.log .mpu)).axes
  glob o s := ReportInv o s.mpu.axes s.ser.axes (updateLog (s.log .mpu)) (reportLog (s.log .serial))
  safe _ _ _ := True

section
variable {s s' : Sys F} {t : Tid} {A : Footprint}

/-- The data are read from the values, the copies, and the two logs. -/
theorem reportData_same [CFloat F] (hx : s'.mpu.axes = s.mpu.axes) (hser : s'.ser.axes = s.ser.axes)
    (hlog : reportLog (s'.log .serial) = reportLog (s.log .serial))
    (hup : updateLog (s'.log .mpu) = updateLog (s.log .mpu)) : (reportData F).Same s s' := by
  have hst : Obs.storing (s'.log .mpu) = Obs.storing (s.log .mpu) := congrArg UpdateLog.storing hup
  have hl : Obs.latest (s'.log .mpu) = Obs.latest (s.log .mpu) := congrArg UpdateLog.latest hup
  have hG : Obs.inside .serialReadAccaxisG (s'.log .serial) =
      Obs.inside .serialReadAccaxisG (s.log .serial) := congrArg ReportLog.inG hlog
  refine ⟨fun t => ?_, ?_, fun h => ?_, fun o h => ?_⟩
  · cases t with
    | main => rfl
    | serial => simp only [reportData, reportView, hx, hser, hlog, hG]
    | mpu => exact hst
  · simp only [reportData, hx, hl]
  · simpa only [reportData, hx, hl] using h
  · simpa only [reportData, hx, hser, hlog, hup] using h

/-- A new log entry without a part in reports and updates. -/
theorem reportData_entry [CFloat F] {ev : Obs F} (hx : s'.mpu.axes = s.mpu.axes)
    (hser : s'.ser.axes = s.ser.axes) (hl : s'.log = Function.update s.log t (ev :: s.log t))
    (hlog : t = .serial → ∀ l, reportLog (ev :: l) = reportLog l)
    (hup : t = .mpu → updateLog (ev :: s.log .mpu) = updateLog (s.log .mpu)) :
    (reportData F).Same s s' := by
  refine reportData_same hx hser ?_ ?_
  · by_cases ht : Tid.serial = t
    · subst ht
      rw [hl, Function.update_self, hlog rfl]
    · rw [hl, Function.update_of_ne ht]
  · by_cases ht : Tid.mpu = t
    · subst ht
      rw [hl, Function.update_self, hup rfl]
    · rw [hl, Function.update_of_ne ht]

/-- An entry of other code says nothing about the reports. -/
theorem reportLog_entry {ev : Obs F} (hg : A.getters = false) (hr : A.reports = false)
    (hev : A.logs ev = true) (l : List (Obs F)) : reportLog (ev :: l) = reportLog l := by
  cases ev with
  | began f => cases f <;> simp_all [Footprint.logs, Footprint.calls, reportLog, Obs.inside,
      Obs.three, Obs.reports]
  | returned f => cases f <;> simp_all [Footprint.logs, Footprint.calls, reportLog, Obs.inside,
      Obs.three, Obs.reports]
  | printed o => cases o <;> simp_all [Footprint.logs, Footprint.prints, reportLog, Obs.inside,
      Obs.three, Obs.reports]
  | _ => rfl

/-- An entry of other code says nothing about the updates, unless an update is storing. -/
theorem updateLog_entry [CFloat F] {ev : Obs F} (hu : A.updates = false)
    (hev : A.logs ev = true) {l : List (Obs F)} (hl : Obs.storing l = false) :
    updateLog (ev :: l) = updateLog l := by
  cases ev with
  | began f => simp [updateLog, hl, Obs.storing, Obs.latest, Obs.snapshots]
  | returned f =>
      cases f <;> simp_all [Footprint.logs, Footprint.calls, updateLog, Obs.storing, Obs.latest,
        Obs.snapshots]
  | published p => simp_all [Footprint.logs]
  | _ => rfl

/-- Code that leaves values, copies and reports alone, and for the MPU thread is
no part of an update's stores. -/
theorem report_same [CFloat F] (hx : A.axes = false) (hsx : A.serAxes = false)
    (hg : A.getters = false)
    (hr : A.reports = false) (hm : t = .mpu → A.updates = false ∧ Obs.storing (s.log .mpu) = false)
    (h : A.Effect t s s') : (reportData F).Same s s' := by
  obtain ⟨hX, hY, hZ⟩ := h.mpu.axes hx
  obtain ⟨hSX, hSY, hSZ⟩ := h.ser.serAxes hsx
  have hax : s'.mpu.axes = s.mpu.axes := congrArg₂ Prod.mk hX (congrArg₂ Prod.mk hY hZ)
  have hsax : s'.ser.axes = s.ser.axes := congrArg₂ Prod.mk hSX (congrArg₂ Prod.mk hSY hSZ)
  rcases h.log with hl | ⟨ev, hev, hl⟩
  · exact reportData_same hax hsax (by rw [hl]) (by rw [hl])
  · exact reportData_entry hax hsax hl (fun _ => reportLog_entry hg hr hev)
      fun ht => updateLog_entry (hm ht).1 hev (hm ht).2

/-- The guard: a step of the kernel logs no report and no update. -/
def reportGuard (F : Type) [CFloat F] : Guard F where
  toGuardData := reportData F
  same_of_kern := by
    intro t s s' h
    have hax : s'.mpu.axes = s.mpu.axes := by rw [h.mpu]
    have hsax : s'.ser.axes = s.ser.axes := by rw [h.ser]
    rcases h.log with hl | ⟨m, top, hl⟩
    · exact reportData_same hax hsax (by rw [hl]) (by rw [hl])
    · exact reportData_entry hax hsax hl (fun _ _ => rfl) fun _ => rfl

end

/-! ### The MPU thread -/

/-- The invariant does not depend on the owner, but for a serial thread in
`serial_read_accaxis_d`. -/
theorem ReportInv.owner {o o' : Option Tid} {x c : F × F × F} {u : UpdateLog F}
    {l : ReportLog F} (h : ReportInv o x c u l) (ho : o = some .serial → l.inD = false) :
    ReportInv o' x c u l :=
  ⟨h.latest, h.settled, h.frozen, h.copied.imp_right fun hc => .inr (hc.resolve_left fun hD =>
    Bool.noConfusion ((ho hD.1).symm.trans hD.2)), h.whole⟩

/-- Outside the getters the copies are those of one update. -/
theorem ReportInv.shows {o : Option Tid} {x c : F × F × F} {u : UpdateLog F} {l : ReportLog F}
    (h : ReportInv o x c u l) (hG : l.inG = false) (hD : o = some .serial → l.inD = false) :
    ∃ p ∈ u.snapshots, Shows p c l := by
  rcases h.copied with hin | ⟨ho, hin⟩ | hshows
  · exact absurd (hG.symm.trans hin) (by decide)
  · exact absurd ((hD ho).symm.trans hin) (by decide)
  · exact hshows

/-- The firmware's machine with the rules of the mutexes, and with `Act.apart`. -/
abbrev reportMachine (F : Type) : Machine (sig F) Tid (Sys F) EnvMove := politely (apartMachine F)

/-- What this machine reaches, the firmware reaches. -/
theorem apartMachine_le : (apartMachine F).Le (machine F) := Machine.restrict_le (machine F) _ _

/-- Its steps within the rules of the mutexes. -/
instance : Polite (reportMachine F) := polite_of_le apartMachine_le

section
variable [CFloat F] {x : F × F × F} {p : Published F} {b : Bool}

/-- A log entry of the MPU thread, within an update, that publishes nothing. -/
theorem report_mpuNote {ev : Obs F} {d : Bool} {Q : Unit → (reportGuard F).View .mpu → Prop}
    (hev : ∀ l, updateLog (ev :: l) = { updateLog l with storing := d })
    (hx : d = false → x = p.axes) (hQ : Q () ⟨.holds (x, p), d⟩) :
    (guarded (reportMachine F) (reportGuard F)).Sat .mpu (note fun _ => ev) Q
      ⟨.holds (x, p), b⟩ := by
  refine guarded_held rfl rfl fun s hglob hprot _ => ⟨trivial, fun r s' _ hrs => ?_⟩
  obtain ⟨rfl, rfl⟩ := Prod.mk.inj hprot
  have hup : updateLog ((s.observe .mpu ev).log .mpu) =
      { updateLog (s.log .mpu) with storing := d } := by
    simpa [Sys.observe] using hev (s.log .mpu)
  rw [Sys.exec_note hrs]
  refine ⟨fun u hu => ?_, ?_, ?_⟩
  · cases u with
    | mpu => exact absurd rfl hu
    | _ => rfl
  · show ReportInv _ _ _ (updateLog ((s.observe .mpu ev).log .mpu)) _
    rw [hup]
    exact ⟨hglob.latest, hx, hglob.frozen, hglob.copied, hglob.whole⟩
  · have hst : Obs.storing ((s.observe .mpu ev).log .mpu) = d := congrArg UpdateLog.storing hup
    have hl : Obs.latest ((s.observe .mpu ev).log .mpu) = Obs.latest (s.log .mpu) :=
      congrArg UpdateLog.latest hup
    have hview : ((reportGuard F).prot (s.observe .mpu ev),
        (reportGuard F).priv .mpu (s.observe .mpu ev)) =
          ((s.mpu.axes, Obs.latest (s.log .mpu)), d) :=
      congrArg₂ Prod.mk (congrArg (Prod.mk _) hl) hst
    obtain ⟨h₁, h₂⟩ := Prod.mk.inj hview
    rw [h₁, h₂]
    exact hQ

/-- A store of the MPU thread, between the reads of an update and its end. The serial
thread is not in `serial_read_accaxis_g`, or the step would be refused. -/
theorem report_store {f : MpuC F → MpuC F} {Q : Unit → (reportGuard F).View .mpu → Prop}
    (hQ : ∀ x', Q () ⟨.holds (x', p), true⟩) :
    (guarded (reportMachine F) (reportGuard F)).Sat .mpu (setMpu f) Q ⟨.holds (x, p), true⟩ := by
  refine guarded_held rfl rfl fun s hglob hprot hst => ⟨trivial, fun r s' hrs hexec => ?_⟩
  have hp : Obs.latest (s.log .mpu) = p := congrArg Prod.snd hprot
  have hstoring : Obs.storing (s.log .mpu) = true := hst
  have hapart : (Act.setMpu f).apart .mpu s = true :=
    (Machine.restrict_exec_eq_some.mp (Machine.restrict_exec_eq_some.mp hrs).2).1
  have hinG : Obs.inside .serialReadAccaxisG (s.log .serial) = false := by
    simpa [Act.apart, hstoring] using hapart
  rw [Sys.exec_setMpu hexec]
  refine ⟨fun u hu => ?_, ?_, ?_⟩
  · cases u with
    | main => rfl
    | serial => simp [reportGuard, reportData, reportView, hinG]
    | mpu => exact absurd rfl hu
  · refine ⟨hglob.latest, fun h => ?_, fun h => ?_, hglob.copied, hglob.whole⟩
    · exact absurd (hstoring.symm.trans h) (by decide)
    · exact absurd (h.symm.trans hinG) (by decide)
  · have hview : ((reportGuard F).prot { s with mpu := f s.mpu },
        (reportGuard F).priv .mpu { s with mpu := f s.mpu }) = (((f s.mpu).axes, p), true) := by
      show (((f s.mpu).axes, Obs.latest (s.log .mpu)), Obs.storing (s.log .mpu)) = _
      rw [hp, hstoring]
    obtain ⟨h₁, h₂⟩ := Prod.mk.inj hview
    rw [h₁, h₂]
    exact hQ _

/-- The entry with which an update is complete. -/
theorem report_publish {Q : Unit → (reportGuard F).View .mpu → Prop}
    (hQ : ∀ p' : Published F, Q () ⟨.holds (p'.axes, p'), false⟩) :
    (guarded (reportMachine F) (reportGuard F)).Sat .mpu
      (note fun c => .published ⟨c.axisX, c.axisY, c.axisZ, c.axisAngX, c.axisAngY⟩) Q
      ⟨.holds (x, p), b⟩ := by
  refine guarded_held rfl rfl fun s hglob hprot _ => ⟨trivial, fun r s' _ hrs => ?_⟩
  rw [Sys.exec_note hrs]
  generalize hp' : (⟨s.mpu.axisX, s.mpu.axisY, s.mpu.axisZ, s.mpu.axisAngX, s.mpu.axisAngY⟩ :
    Published F) = p'
  have hx : s.mpu.axes = p'.axes := by
    rw [← hp']
    rfl
  have hup : updateLog ((s.observe .mpu (.published p')).log .mpu) =
      ⟨false, p', p' :: Obs.snapshots (s.log .mpu)⟩ := by
    simp [Sys.observe, updateLog, Obs.storing, Obs.latest, Obs.snapshots]
  refine ⟨fun u hu => ?_, ?_, ?_⟩
  · cases u with
    | mpu => exact absurd rfl hu
    | _ => rfl
  · show ReportInv _ _ _ (updateLog ((s.observe .mpu (.published p')).log .mpu)) _
    rw [hup]
    refine ⟨List.mem_cons_self, fun _ => hx, fun h => ?_, ?_, fun r hr => ?_⟩
    · obtain ⟨q, hq, hxq⟩ := hglob.frozen h
      exact ⟨q, List.mem_cons_of_mem p' hq, hxq⟩
    · refine hglob.copied.imp_right (Or.imp_right ?_)
      rintro ⟨q, hq, hshows⟩
      exact ⟨q, List.mem_cons_of_mem p' hq, hshows⟩
    · obtain ⟨q, hq, hlines⟩ := hglob.whole r hr
      exact ⟨q, List.mem_cons_of_mem p' hq, hlines⟩
  · have hst : Obs.storing ((s.observe .mpu (.published p')).log .mpu) = false :=
      congrArg UpdateLog.storing hup
    have hl : Obs.latest ((s.observe .mpu (.published p')).log .mpu) = p' :=
      congrArg UpdateLog.latest hup
    have hview : ((reportGuard F).prot (s.observe .mpu (.published p')),
        (reportGuard F).priv .mpu (s.observe .mpu (.published p'))) = ((p'.axes, p'), false) :=
      congrArg₂ Prod.mk (congrArg₂ Prod.mk hx hl) hst
    obtain ⟨h₁, h₂⟩ := Prod.mk.inj hview
    rw [h₁, h₂]
    exact hQ p'

/-- Code within an update, before its stores. -/
theorem report_untouched {A : Footprint} (hx : A.axes = false) (hsx : A.serAxes = false)
    (hg : A.getters = false) (hr : A.reports = false) (hu : A.updates = false)
    {R : (reportGuard F).View .mpu → Prop} (hR : ∀ v, R v → v.priv = false) :
    Untouched (reportGuard F) .mpu A R where
  safe _ _ _ _ _ := trivial
  same _ _ h _ hv _ := report_same hx hsx hg hr (fun _ => ⟨hu, hR _ hv⟩) h

/-- One read of an update. Only the third begins the stores. -/
theorem report_mpuReadAccAxis {axis : AccAxis} {store : UInt16 → MpuC F → MpuC F}
    (hstore : ∀ v c, Footprint.Mpu { row := true } c (store v c))
    {Q : Msg → (reportGuard F).View .mpu → Prop}
    (hQ : ∀ r, Q r ⟨.holds (p.axes, p), decide (axis = .ACC_AXIS_Z)⟩) :
    (guarded (reportMachine F) (reportGuard F)).Sat .mpu (mpuReadAccAxis axis store) Q
      ⟨.holds (p.axes, p), b⟩ := by
  obtain ⟨body, heq, hbody⟩ := within_mpuReadAccAxis hstore
  rw [heq]
  refine guarded_bind (report_mpuNote (d := false) (fun _ => rfl) (fun _ => rfl) ?_)
  refine guarded_bind (guarded_within hbody (by decide) (by simp)
    (report_untouched rfl rfl rfl rfl rfl fun v hv => by rw [hv]) fun r => ?_)
  refine guarded_bind (report_mpuNote (d := decide (axis = .ACC_AXIS_Z)) (fun l => ?_)
    (fun _ => rfl) (hQ r))
  simp [updateLog, Obs.storing, Obs.latest, Obs.snapshots]

/-- An update leaves the values of the update it publishes, or those it found. -/
theorem report_mpuAccUpdate {Q : Bool → (reportGuard F).View .mpu → Prop}
    (hQ : ∀ r (p' : Published F), Q r ⟨.holds (p'.axes, p'), false⟩) :
    (guarded (reportMachine F) (reportGuard F)).Sat .mpu mpuAccUpdate Q
      ⟨.holds (p.axes, p), b⟩ := by
  have hend : ∀ r (p' : Published F) b', (guarded (reportMachine F) (reportGuard F)).Sat .mpu
      (do note fun _ => .returned .mpuAccUpdate; return r) Q ⟨.holds (p'.axes, p'), b'⟩ := by
    intro r p' b'
    refine guarded_bind (report_mpuNote (d := false) (fun _ => ?_) (fun _ => rfl) (hQ r p'))
    simp [updateLog, Obs.storing, Obs.latest, Obs.snapshots]
  refine guarded_bind (report_mpuNote (d := false) (fun _ => rfl) (fun _ => rfl) ?_)
  refine guarded_bind ?_
  refine guarded_bind (report_mpuReadAccAxis (by simp [Footprint.mpu_iff]) fun res₀ => ?_)
  refine guarded_bind (report_mpuReadAccAxis (by simp [Footprint.mpu_iff]) fun res₁ => ?_)
  refine guarded_bind (report_mpuReadAccAxis (by simp [Footprint.mpu_iff]) fun res₂ => ?_)
  split
  · exact hend false p _
  · -- The stores, with the values that they need.
    refine guarded_bind (report_store fun _ => guarded_bind (report_store fun _ => ?_))
    refine guarded_bind (report_store fun _ => guarded_bind (report_store fun _ => ?_))
    refine guarded_bind (guarded_getMpu (fun _ => trivial) fun _ _ _ => ?_)
    refine guarded_bind (guarded_getMpu (fun _ => trivial) fun _ _ _ => ?_)
    refine guarded_bind (report_store fun _ => ?_)
    refine guarded_bind (guarded_getMpu (fun _ => trivial) fun _ _ _ => ?_)
    refine guarded_bind (report_store fun _ => ?_)
    exact guarded_bind (report_publish fun p' => hend true p' _)

/-- The MPU thread goes round with every update complete. -/
theorem report_mpumThread : (guarded (reportMachine F) (reportGuard F)).Triple .mpu
    (fun v => v.priv = false) mpumThread fun _ v => v.priv = false := by
  rintro ⟨φ, b⟩ hb
  obtain rfl : b = false := hb
  have hend : ∀ p : Published F, (guarded (reportMachine F) (reportGuard F)).Sat .mpu (do
      chMtxUnlock .mpu
      chThdSleepMilliseconds 500) (fun _ v => v.priv = false) ⟨.holds (p.axes, p), false⟩ := by
    intro p
    refine guarded_mtxUnlock_mpu (fun s hs _ hg _ => ⟨?_, fun o _ => hg.owner fun h => ?_⟩)
      fun _ _ => ?_
    · obtain ⟨hx, hp⟩ := Prod.mk.inj (Phase.holds.inj hs)
      show s.mpu.axes = (Obs.latest (s.log .mpu)).axes
      rw [← hx, hp]
    · cases h
    · exact guarded_same rfl (fun _ _ _ => trivial) fun s r s' _ _ hrs =>
        ⟨Sys.exec_sleep hrs ▸ GuardData.Same.refl _ _, rfl⟩
  refine guarded_bind (guarded_chMtxLock_mpu (fun s rs _ _ _ _ h => h.owner fun h => ?_)
    fun s hfree _ _ _ => ?_)
  · cases h
  · have hprot : (reportGuard F).prot s =
        ((Obs.latest (s.log .mpu)).axes, Obs.latest (s.log .mpu)) := congrArg (Prod.mk · _) hfree
    rw [hprot]
    refine guarded_bind (guarded_getMpu (fun _ => trivial) fun _ _ _ => ?_)
    split
    · exact guarded_bind (report_mpuAccUpdate fun _ p' => hend p')
    · exact hend _

end

/-! ### The serial thread -/

section
variable [CFloat F] {v : (reportGuard F).View .serial} {w : ReportView F}

/-- A log entry of the serial thread. -/
theorem report_entry {a : Act F} {k : a.Ans → Prog F α} {ev : Obs F} {l : ReportLog F}
    {Q : α → (reportGuard F).View .serial → Prop} (ha : a.isMutex = false)
    (hexec : ∀ (s : Sys F) r s', s.exec .serial a = some (r, s') → s' = s.observe .serial ev)
    (hv : v.priv = w) (hev : ∀ l₀, reportLog l₀ = w.log → reportLog (ev :: l₀) = l)
    (hinv : ∀ s, (reportGuard F).Inv s → (reportGuard F).view .serial s = v →
      a.apart .serial s = true →
      ReportInv (s.kern.owner .mpu) s.mpu.axes s.ser.axes (updateLog (s.log .mpu)) l)
    (hQ : ∀ r x, (guarded (reportMachine F) (reportGuard F)).Sat .serial (k r) Q
      ⟨v.phase, ⟨w.axes, l, if l.inG then some x else none⟩⟩) :
    (guarded (reportMachine F) (reportGuard F)).Sat .serial (.act a k) Q v := by
  refine guarded_own ha fun s hs hsv => ⟨trivial, fun r s' hrs he => ?_⟩
  have hview : reportView s = w := (congrArg Guard.View.priv hsv).trans hv
  have hapart : a.apart .serial s = true :=
    (Machine.restrict_exec_eq_some.mp (Machine.restrict_exec_eq_some.mp hrs).2).1
  have hlog : reportLog ((s.observe .serial ev).log .serial) = l := by
    simpa [Sys.observe] using hev _ (congrArg ReportView.log hview)
  have haxes : s.ser.axes = w.axes := congrArg ReportView.axes hview
  rw [hexec s r s' he]
  refine ⟨rfl, id, fun u hu => ?_, ?_, ?_⟩
  · cases u with
    | serial => exact absurd rfl hu
    | _ => rfl
  · show ReportInv _ _ _ _ (reportLog ((s.observe .serial ev).log .serial))
    rw [hlog]
    exact hinv s hs hsv hapart
  · have hG : Obs.inside .serialReadAccaxisG ((s.observe .serial ev).log .serial) = l.inG :=
      congrArg ReportLog.inG hlog
    have hpriv : (reportGuard F).priv .serial (s.observe .serial ev) =
        ⟨w.axes, l, if l.inG then some s.mpu.axes else none⟩ := by
      show reportView (s.observe .serial ev) = _
      rw [reportView, hlog, hG, ← haxes]
      rfl
    rw [hpriv]
    exact hQ r s.mpu.axes

/-- A copy of an axis value, while the values cannot change. -/
theorem report_copy {f : MpuC F → SerC F → SerC F} {x c : F × F × F}
    {Q : Unit → (reportGuard F).View .serial → Prop} (hv : v.priv = w)
    (hx : ∀ s, (reportGuard F).Inv s → (reportGuard F).view .serial s = v → s.mpu.axes = x ∧
      (w.log.inG = true ∨ s.kern.owner .mpu = some .serial ∧ w.log.inD = true))
    (hf : ∀ m s, m.axes = x → s.axes = w.axes → (f m s).axes = c)
    (hQ : Q () ⟨v.phase, { w with axes := c }⟩) :
    (guarded (reportMachine F) (reportGuard F)).Sat .serial (setSer f) Q v := by
  refine guarded_own rfl fun s hs hsv => ⟨trivial, fun r s' _ he => ?_⟩
  obtain rfl : reportView s = w := (congrArg Guard.View.priv hsv).trans hv
  obtain ⟨hax, hin⟩ := hx s hs hsv
  have hc : (f s.mpu s.ser).axes = c := hf _ _ hax rfl
  rw [Sys.exec_setSer he]
  refine ⟨rfl, id, fun u hu => ?_, ?_, ?_⟩
  · cases u with
    | serial => exact absurd rfl hu
    | _ => rfl
  · exact ⟨hs.glob.latest, hs.glob.settled, hs.glob.frozen, hin.imp_right .inl, hs.glob.whole⟩
  · rw [← hc] at hQ
    exact hQ

/-- The serial thread is in neither getter. -/
structure Between (v : (reportGuard F).View .serial) : Prop where
  kept : v.phase.Kept fun p => p.1 = p.2.axes
  outG : v.priv.log.inG = false
  outD : v.priv.log.inD = false

/-- Code of the serial thread that has no part in a report. -/
theorem report_within {A : Footprint} {p : Prog F α}
    (hA : (A.axes || A.serAxes || A.getters || A.reports) = false) (hp : p.All (Within A)) :
    (guarded (reportMachine F) (reportGuard F)).Triple .serial Between p fun _ v => Between v := by
  intro v hv
  simp only [Bool.or_eq_false_iff] at hA
  obtain ⟨⟨⟨hx, hsx⟩, hg⟩, hr⟩ := hA
  have hout : ∀ s, reportView s = v.priv → (reportLog (s.log .serial)).inD = false := fun s hs =>
    (congrArg (fun w : ReportView F => w.log.inD) hs).trans hv.outD
  refine guarded_within_mpu (R := fun u => u.priv = v.priv)
    ⟨fun s => Iff.rfl, fun s _ h => h.owner fun h => (by cases h),
      fun s o hs _ h => h.owner fun _ => hout s hs⟩ hp hv.kept
    ⟨fun _ _ _ _ _ => trivial, fun s s' h _ _ _ =>
      report_same hx hsx hg hr (fun h => (by cases h)) h⟩
    (fun _ => rfl) fun x φ hφ => ⟨hφ, hv.outG, hv.outD⟩

/-- The value of an axis among the copies. -/
def axisOf (c : F × F × F) : Axis → F
  | .x => c.1
  | .y => c.2.1
  | .z => c.2.2

omit [CFloat F] in
/-- Each copy is the value of its axis, as far as the report shows it. -/
theorem Shows.value {p : Published F} {c : F × F × F} {l : ReportLog F} (h : Shows p c l)
    {a : Axis} (hz : a = .z → l.three = true) : axisOf c a = p.axis a := by
  cases a with
  | x => exact h.x
  | y => exact h.y
  | z => exact h.z (hz rfl)

omit [CFloat F] in
/-- A line of a copied value. -/
theorem ReportInv.line {o : Option Tid} {x c : F × F × F} {u : UpdateLog F} {l : ReportLog F}
    (h : ReportInv o x c u l) (hG : l.inG = false) (hD : l.inD = false) {a : Axis}
    (hz : a = .z → l.three = true) :
    ReportInv o x c u { l with reports := match l.reports with
      | [] => [[(a, axisOf c a)]]
      | r :: rs => ((a, axisOf c a) :: r) :: rs } := by
  obtain ⟨p, hp, hshows⟩ := h.shows hG fun _ => hD
  have hval := hshows.value hz
  refine ⟨h.latest, h.settled, h.frozen, .inr (.inr ⟨p, hp, ?_⟩), fun r hr => ?_⟩
  · refine ⟨hshows.x, hshows.y, hshows.z, ?_⟩
    cases hl : l.reports with
    | nil => exact List.forall_mem_singleton.mpr hval
    | cons r rs =>
        have hlines := hshows.lines
        rw [hl] at hlines
        exact List.forall_mem_cons.mpr ⟨hval, hlines⟩
  · have hwhole := h.whole
    cases hl : l.reports with
    | nil =>
        rw [hl] at hr
        obtain rfl := List.mem_singleton.mp hr
        exact ⟨p, hp, List.forall_mem_singleton.mpr hval⟩
    | cons r₀ rs =>
        have hlines := hshows.lines
        rw [hl] at hr hwhole hlines
        rcases List.mem_cons.mp hr with rfl | hr
        · exact ⟨p, hp, List.forall_mem_cons.mpr ⟨hval, hlines⟩⟩
        · exact hwhole r (List.mem_cons_of_mem r₀ hr)

/-- One line of a report, and what comes after it. -/
theorem report_line {a : Axis} {get : SerC F → F} {p : Prog F α}
    {Q : α → (reportGuard F).View .serial → Prop} (hget : ∀ c, get c = axisOf c.axes a)
    (hv : Between v) (hz : a = .z → v.priv.log.three = true)
    (hp : ∀ w, w.log.three = v.priv.log.three → Between ⟨v.phase, w⟩ →
      (guarded (reportMachine F) (reportGuard F)).Sat .serial p Q ⟨v.phase, w⟩) :
    (guarded (reportMachine F) (reportGuard F)).Sat .serial (do
      chprintf (.axis a (get (← getSer)))
      p) Q v := by
  refine guarded_bind (guarded_getSer (fun _ => trivial) fun s _ hsv => ?_)
  have haxes : s.ser.axes = v.priv.axes :=
    congrArg (fun v : (reportGuard F).View .serial => v.priv.axes) hsv
  rw [hget, haxes]
  refine guarded_bind (report_entry (l := { v.priv.log with reports := match v.priv.log.reports with
      | [] => [[(a, axisOf v.priv.axes a)]]
      | r :: rs => ((a, axisOf v.priv.axes a) :: r) :: rs }) rfl
    (fun _ _ _ h => Sys.exec_sdOut h) rfl (fun l₀ hl₀ => ?_) (fun s₁ hs₁ hsv₁ _ => ?_)
    fun _ x => hp _ rfl ⟨hv.kept, hv.outG, hv.outD⟩)
  · rw [← hl₀]
    rfl
  · have hpriv : reportView s₁ = v.priv := congrArg Guard.View.priv hsv₁
    rw [← hpriv] at hz ⊢
    exact hs₁.glob.line ((congrArg (fun w : ReportView F => w.log.inG) hpriv).trans hv.outG)
      ((congrArg (fun w : ReportView F => w.log.inD) hpriv).trans hv.outD) hz

omit [CFloat F] in
/-- A getter begins with the copies as they are. -/
theorem ReportInv.began {o : Option Tid} {x c : F × F × F} {u : UpdateLog F} {l : ReportLog F}
    (h : ReportInv o x c u l) {l' : ReportLog F} (hlines : l'.reports = [] :: l.reports)
    (hfrozen : l'.inG = true → u.storing = false)
    (hcopied : l'.inG = true ∨ ∃ p ∈ u.snapshots, Shows p c l') : ReportInv o x c u l' := by
  refine ⟨h.latest, h.settled, fun hG => ⟨_, h.latest, h.settled (hfrozen hG)⟩,
    hcopied.imp_right .inr, fun r hr => ?_⟩
  rw [hlines] at hr
  rcases List.mem_cons.mp hr with rfl | hr
  · exact ⟨_, h.latest, fun line hline => absurd hline List.not_mem_nil⟩
  · exact h.whole r hr

omit [CFloat F] in
/-- A getter returns with copies of one update. -/
theorem ReportInv.returned {o : Option Tid} {x c : F × F × F} {u : UpdateLog F} {l : ReportLog F}
    (h : ReportInv o x c u l) {l' : ReportLog F} (hlines : l'.reports = l.reports)
    (hG : l'.inG = false) {p : Published F} (hp : p ∈ u.snapshots) (hshows : Shows p c l') :
    ReportInv o x c u l' := by
  refine ⟨h.latest, h.settled, fun hin => ?_, .inr (.inr ⟨p, hp, hshows⟩), fun r hr => ?_⟩
  · exact absurd (hG.symm.trans hin) (by decide)
  · exact h.whole r (hlines ▸ hr)

omit [CFloat F] in
/-- A report that has printed nothing yet. -/
theorem shows_fresh {p : Published F} {c : F × F × F} {l : ReportLog F}
    {rs : List (List (Axis × F))}
    (hl : l.reports = [] :: rs) (hx : c.1 = p.axisX) (hy : c.2.1 = p.axisY)
    (hz : l.three = true → c.2.2 = p.axisZ) : Shows p c l := by
  refine ⟨hx, hy, hz, fun line hline => ?_⟩
  rw [hl] at hline
  exact absurd hline List.not_mem_nil

omit [CFloat F] in
/-- In `serial_read_accaxis_g` the axis values stay. -/
theorem axes_of_frozen {s : Sys F} {x : F × F × F} (hs : reportView s = w)
    (hG : w.log.inG = true) (hx : w.frozen = some x) : s.mpu.axes = x := by
  have hin : Obs.inside .serialReadAccaxisG (s.log .serial) = true :=
    (congrArg (fun w : ReportView F => w.log.inG) hs).trans hG
  have hfrozen : (reportView s).frozen = some s.mpu.axes := if_pos hin
  exact Option.some.inj (hfrozen.symm.trans ((congrArg ReportView.frozen hs).trans hx))

/-- One of the three assignments in `serial_read_accaxis_g`, from values that stay as they
are. -/
theorem report_copyG {f : MpuC F → SerC F → SerC F} {x c d : F × F × F} {l : ReportLog F}
    {φ : Phase (reportGuard F).Prot} {Q : Unit → (reportGuard F).View .serial → Prop}
    (hG : l.inG = true) (hf : ∀ m s, m.axes = x → s.axes = c → (f m s).axes = d)
    (hQ : Q () ⟨φ, ⟨d, l, some x⟩⟩) :
    (guarded (reportMachine F) (reportGuard F)).Sat .serial (setSer f) Q ⟨φ, ⟨c, l, some x⟩⟩ :=
  report_copy rfl (fun _ _ hsv => ⟨axes_of_frozen (congrArg Guard.View.priv hsv) hG rfl, .inl hG⟩)
    hf hQ

/-- `serial_read_accaxis_g` copies the values of one update. -/
theorem report_getterG {Q : Unit → (reportGuard F).View .serial → Prop} (hv : Between v)
    (hQ : ∀ w, w.log.three = true → Between ⟨v.phase, w⟩ → Q () ⟨v.phase, w⟩) :
    (guarded (reportMachine F) (reportGuard F)).Sat .serial
      (serialReadAccaxisG (fun v c => { c with axisX := v }) (fun v c => { c with axisY := v })
        (fun v c => { c with axisZ := v })) Q v := by
  -- Entering, the axis values are those of the latest update.
  refine guarded_bind (report_entry (l := ⟨true, v.priv.log.inD, true, [] :: v.priv.log.reports⟩)
    rfl (fun _ _ _ h => Sys.exec_note h) rfl (fun l₀ hl₀ => ?_) (fun s hs hsv hapart => ?_)
    fun _ x => ?_)
  · show ReportLog.mk true (reportLog l₀).inD true ([] :: (reportLog l₀).reports) = _
    rw [hl₀]
  · have hst : Obs.storing (s.log .mpu) = false := by simpa [Act.apart] using hapart
    have hpriv : reportView s = v.priv := congrArg Guard.View.priv hsv
    rw [← hpriv]
    exact hs.glob.began rfl (fun _ => hst) (.inl rfl)
  refine guarded_bind (guarded_bind (report_copyG rfl (d := (x.1, v.priv.axes.2)) ?_ ?_))
  · rintro m s rfl hs
    exact congrArg (Prod.mk m.axisX) (congrArg Prod.snd hs)
  refine guarded_bind (report_copyG rfl (d := (x.1, x.2.1, v.priv.axes.2.2)) ?_ ?_)
  · rintro m s rfl hs
    exact congrArg₂ Prod.mk (congrArg Prod.fst hs)
      (congrArg (Prod.mk m.axisY) (congrArg (fun c => c.2.2) hs))
  refine report_copyG rfl (d := x) ?_ ?_
  · rintro m s rfl hs
    exact congrArg₂ Prod.mk (congrArg Prod.fst hs)
      (congrArg (fun y => (y, m.axisZ)) (congrArg (fun c => c.2.1) hs))
  -- Leaving, they still are.
  refine guarded_bind (report_entry (l := ⟨false, v.priv.log.inD, true, [] :: v.priv.log.reports⟩)
    rfl (fun _ _ _ h => Sys.exec_note h) rfl (fun l₀ hl₀ => ?_) (fun s hs hsv _ => ?_)
    fun _ _ => hQ _ rfl ⟨hv.kept, rfl, hv.outD⟩)
  · show { reportLog l₀ with inG := false } = _
    rw [hl₀]
  · have hpriv : reportView s = ⟨x, ⟨true, v.priv.log.inD, true, [] :: v.priv.log.reports⟩,
        some x⟩ :=
      congrArg Guard.View.priv hsv
    have hlog : reportLog (s.log .serial) = _ := congrArg ReportView.log hpriv
    have hcopies : s.ser.axes = x := congrArg ReportView.axes hpriv
    obtain ⟨p, hp, hxp⟩ := hs.glob.frozen (congrArg ReportLog.inG hlog)
    rw [axes_of_frozen hpriv rfl rfl] at hxp
    refine hs.glob.returned (congrArg ReportLog.reports hlog).symm rfl hp ?_
    rw [hcopies, hxp]
    exact shows_fresh rfl rfl rfl fun _ => rfl

/-- With the mutex, the axis values stay. -/
theorem report_copyD {f : MpuC F → SerC F → SerC F} {x c d : F × F × F} {p : Published F}
    {l : ReportLog F} {z : Option (F × F × F)} {Q : Unit → (reportGuard F).View .serial → Prop}
    (hD : l.inD = true) (hf : ∀ m s, m.axes = x → s.axes = c → (f m s).axes = d)
    (hQ : Q () ⟨.holds (x, p), ⟨d, l, z⟩⟩) :
    (guarded (reportMachine F) (reportGuard F)).Sat .serial (setSer f) Q
      ⟨.holds (x, p), ⟨c, l, z⟩⟩ := by
  refine report_copy rfl (fun s _ hsv => ?_) hf hQ
  obtain ⟨hh, hprot⟩ := holds_of_phase (congrArg Guard.View.phase hsv)
  exact ⟨congrArg Prod.fst hprot, .inr ⟨hh.1, hD⟩⟩

/-- `serial_read_accaxis_d` copies, under the mutex, `x` and `y` of one update. -/
theorem report_getterD {Q : Unit → (reportGuard F).View .serial → Prop} (hv : Between v)
    (hQ : ∀ φ w, Between ⟨φ, w⟩ → Q () ⟨φ, w⟩) :
    (guarded (reportMachine F) (reportGuard F)).Sat .serial
      (serialReadAccaxisD (fun v c => { c with axisX := v }) (fun v c => { c with axisY := v }))
      Q v := by
  refine guarded_bind (report_entry (l := ⟨v.priv.log.inG, true, false, [] :: v.priv.log.reports⟩)
    rfl (fun _ _ _ h => Sys.exec_note h) rfl (fun l₀ hl₀ => ?_) (fun s hs hsv _ => ?_)
    fun _ x => ?_)
  · rw [← hl₀]
    rfl
  · have hpriv : reportView s = v.priv := congrArg Guard.View.priv hsv
    have hG : (reportLog (s.log .serial)).inG = false :=
      (congrArg (fun w : ReportView F => w.log.inG) hpriv).trans hv.outG
    rw [← hpriv]
    obtain ⟨p, hp, hshows⟩ := hs.glob.shows hG fun _ =>
      (congrArg (fun w : ReportView F => w.log.inD) hpriv).trans hv.outD
    refine hs.glob.began rfl (fun h => absurd (hG.symm.trans h) (by decide)) (.inr ⟨p, hp, ?_⟩)
    exact shows_fresh rfl hshows.x hshows.y fun h => Bool.noConfusion h
  refine guarded_bind (guarded_bind (guarded_chMtxLock_mpu
    (fun s _ _ _ _ _ h => h.owner fun h => ?_) fun s hfree _ _ _ => ?_))
  · cases h
  have hprot : (reportGuard F).prot s =
      ((Obs.latest (s.log .mpu)).axes, Obs.latest (s.log .mpu)) := congrArg (Prod.mk · _) hfree
  rw [hprot]
  generalize Obs.latest (s.log .mpu) = p
  refine guarded_bind (report_copyD rfl (d := (p.axisX, v.priv.axes.2)) ?_ ?_)
  · rintro m s hm hs
    exact congrArg₂ Prod.mk (congrArg Prod.fst hm) (congrArg Prod.snd hs)
  refine guarded_bind (report_copyD rfl (d := (p.axisX, p.axisY, v.priv.axes.2.2)) ?_ ?_)
  · rintro m s hm hs
    exact congrArg₂ Prod.mk (congrArg Prod.fst hs)
      (congrArg₂ Prod.mk (congrArg (fun c => c.2.1) hm) (congrArg (fun c => c.2.2) hs))
  refine guarded_mtxUnlock_mpu (fun s hs hpriv hg _ => ?_) fun _ _ => ?_
  · obtain ⟨hx, hp⟩ := Prod.mk.inj (Phase.holds.inj hs)
    have hlog : reportLog (s.log .serial) = _ := congrArg ReportView.log hpriv
    have hcopies : s.ser.axes = _ := congrArg ReportView.axes hpriv
    refine ⟨?_, fun o _ => ?_⟩
    · show s.mpu.axes = (Obs.latest (s.log .mpu)).axes
      rw [← hx, hp]
    · refine ⟨hg.latest, hg.settled, hg.frozen, .inr (.inr ⟨_, hg.latest, ?_⟩), hg.whole⟩
      show Shows (Obs.latest (s.log .mpu)) s.ser.axes (reportLog (s.log .serial))
      rw [hlog, hcopies, ← hp]
      exact shows_fresh rfl rfl rfl fun h => Bool.noConfusion h
  refine guarded_bind (report_entry (l := ⟨v.priv.log.inG, false, false, [] :: v.priv.log.reports⟩)
    rfl (fun _ _ _ h => Sys.exec_note h) rfl (fun l₀ hl₀ => ?_) (fun s hs hsv _ => ?_)
    fun _ _ => hQ _ _ ⟨fun _ h => (by cases h), hv.outG, rfl⟩)
  · show { reportLog l₀ with inD := false } = _
    rw [hl₀]
  · have hpriv : reportView s = _ := congrArg Guard.View.priv hsv
    have hlog : reportLog (s.log .serial) = _ := congrArg ReportView.log hpriv
    have hout := owner_of_out (congrArg Guard.View.phase hsv)
    obtain ⟨q, hq, hshows⟩ := hs.glob.shows ((congrArg ReportLog.inG hlog).trans hv.outG)
      fun ho => absurd ho hout
    refine hs.glob.returned (congrArg ReportLog.reports hlog).symm hv.outG hq ?_
    exact shows_fresh rfl hshows.x hshows.y fun h => Bool.noConfusion h

/-- A report leads from between the getters back to there. -/
theorem report_report :
    (guarded (reportMachine F) (reportGuard F)).Triple .serial Between report fun _ v =>
      Between v := by
  intro v hv
  have hreset : ∀ w, Between w → (guarded (reportMachine F) (reportGuard F)).Sat .serial
      (setSer fun _ c => { c with rdCount := 0 }) (fun _ v => Between v) w := by
    have hcount : (setSer (F := F) fun _ c => { c with rdCount := 0 }).All
        (Within { rdCount := true }) := by
      simp [setSer, perform, Within, Footprint.ser_iff]
    exact report_within rfl hcount
  refine guarded_bind (guarded_getSer (fun _ => trivial) fun s _ _ => ?_)
  split
  · refine guarded_bind (report_getterD hv fun φ w hw => ?_)
    refine report_line (fun _ => rfl) hw (fun h => by cases h) fun w₁ _ hw₁ => ?_
    exact report_line (fun _ => rfl) hw₁ (fun h => by cases h) fun w₂ _ hw₂ => hreset _ hw₂
  · refine guarded_bind (report_getterG hv fun w hthree hw => ?_)
    refine report_line (fun _ => rfl) hw (fun h => by cases h) fun w₁ h₁ hw₁ => ?_
    refine report_line (fun _ => rfl) hw₁ (fun h => by cases h) fun w₂ h₂ hw₂ => ?_
    refine report_line (fun _ => rfl) hw₂ (fun _ => ?_) fun w₃ _ hw₃ => hreset _ hw₃
    exact h₂.trans (h₁.trans hthree)

/-- An iteration of the serial thread leads back to between the getters. -/
theorem report_serialcommThread :
    (guarded (reportMachine F) (reportGuard F)).Triple .serial Between serialcommThread
      fun _ v => Between v := by
  have hlock : (chMtxLock (F := F) .serialcomm).All (Within { locks := [.serialcomm] }) := by
    simp [chMtxLock, perform, Within]
  have hleave : (chMtxUnlock (F := F) .serialcomm).All (Within { locks := [.serialcomm] }) := by
    simp [chMtxUnlock, perform, Within]
  have hreset : (iqResetI (F := F)).All (Within { reads := true }) := by
    simp [iqResetI, perform, Within]
  have hcount : (do
      setSer (F := F) fun _ c => { c with rdCount := wrap32 (c.rdCount + 1) }
      chThdSleepMilliseconds 100).All (Within { rdCount := true }) := by
    simp [setSer, chThdSleepMilliseconds, perform, Within, Footprint.ser_iff]
  have hget : (guarded (reportMachine F) (reportGuard F)).Triple .serial Between getSer
      fun _ v => Between v := fun v hv => guarded_getSer (fun _ => trivial) fun _ _ _ => hv
  have houtput : (guarded (reportMachine F) (reportGuard F)).Triple .serial Between outputSection
      fun _ v => Between v := by
    refine (report_within rfl hlock).bind fun _ => hget.bind fun c => ?_
    split
    · exact report_report.bind fun _ => report_within rfl hleave
    · exact report_within rfl hleave
  have hend := (report_within rfl hreset).bind fun _ => houtput.bind fun _ =>
    report_within (F := F) rfl hcount
  refine (report_within rfl within_serialRead).bind fun sdt => ?_
  split
  · exact hget.bind fun c => (report_within rfl (within_commadCheck _)).bind fun _ => hend
  · exact hend

end

/-! ### Runs -/

section
variable [CFloat F] {results : Tid → Nat → I2CResult} {regs : UInt8 → UInt8}
  {pastStrbuf : List UInt8} {c : Config (sig F) Tid (Sys F)}

/-- `main` has no part in reports and updates. -/
theorem report_apart : Apart (reportGuard F) fun p => p.1 = p.2.axes where
  passes := ⟨fun _ => Iff.rfl, fun _ _ h => h.owner fun h => (by cases h),
    fun _ _ _ _ h => h.owner fun h => (by cases h)⟩
  main := ⟨fun _ _ _ _ _ => trivial, fun _ _ h _ _ _ => report_same rfl rfl rfl rfl
    (fun h => (by cases h)) h⟩
  drv _ _ := ⟨trivial, reportData_same rfl rfl rfl rfl⟩
  thd _ _ _ := ⟨trivial, reportData_same rfl rfl rfl rfl⟩

/-- What holds of a thread each time it starts its loop body. -/
def reportLoop (F : Type) [CFloat F] : ∀ t, (reportGuard F).View t → Prop
  | .main => fun v => v.phase.Kept fun p => p.1 = p.2.axes
  | .serial => Between
  | .mpu => fun v => v.priv = false

/-- The invariant holds in every state of a run of this machine. -/
theorem report_ok (h : Reaches (apartMachine F) loop (bootConfig results regs pastStrbuf) c) :
    (guarded (reportMachine F) (reportGuard F)).Ok (reportLoop F) c := by
  have hinv : (reportGuard F).Inv (boot results regs pastStrbuf) := by
    refine ⟨boot_wf results regs pastStrbuf, fun _ => rfl, ?_⟩
    refine ⟨List.mem_cons_self, fun _ => rfl, fun h => (by cases h), .inr (.inr ?_), fun r hr => ?_⟩
    · exact ⟨_, List.mem_cons_self, rfl, rfl, fun _ => rfl,
        fun line hline => absurd hline List.not_mem_nil⟩
    · exact absurd hr List.not_mem_nil
  have hboot : (guarded (reportMachine F) (reportGuard F)).Ok (reportLoop F)
      (bootConfig results regs pastStrbuf) := by
    refine ⟨hinv, fun t => ?_⟩
    cases t with
    | main => exact report_apart.setup _ fun p hp => by cases hp
    | serial =>
        have hsleep : (chThdSleepMilliseconds (F := F) 100).All (Within {}) := by
          simp [chThdSleepMilliseconds, perform, Within]
        exact guarded_bind (guarded_chMtxObjectInit
          (report_within rfl hsleep _ ⟨fun p hp => (by cases hp), rfl, rfl⟩))
    | mpu => exact rfl
  refine hboot.reaches (fun t => ?_) (guarded_env ?_) (reaches_politely apartMachine_le h)
  · cases t with
    | main => exact report_apart.loop
    | serial => exact report_serialcommThread
    | mpu => exact report_mpumThread
  · intro e s s' he
    cases e <;> cases he <;> exact reportData_same rfl rfl rfl rfl

/-- In every run in which the stores of an update and `serial_read_accaxis_g` do
not overlap, the lines of a report show one update, or the initial values. -/
theorem report_is_snapshot
    (h : Reaches (apartMachine F) loop (bootConfig results regs pastStrbuf) c)
    {r : List (Axis × F)} (hr : r ∈ Obs.reports (c.st.log .serial)) :
    ∃ p ∈ Obs.snapshots (c.st.log .mpu), ∀ line ∈ r, line.2 = p.axis line.1 :=
  (report_ok h).inv.glob.whole r hr

end

/-- Rational arithmetic. Square roots are rounded down, and an angle is left as
its tangent: no report shows one. -/
instance : CFloat ℚ where
  lit q := q
  ofUInt16 n := n.toNat
  toUInt32 x := UInt32.ofNat x.floor.toNat
  mul x y := x * y
  div x y := x / y
  sub x y := x - y
  sqrt n := Nat.sqrt n.toNat
  atan x := x

/-- The board is set up, and the serial thread goes round six times without
input. -/
def sixIdle : List (Move Tid EnvMove) :=
  List.replicate 85 (.run .main) ++ List.replicate 2 (.run .serial) ++
    (List.replicate 6 (List.replicate 5 (.run .serial) ++ [.env (.elapse 500)] ++
      List.replicate 10 (.run .serial))).flatten

/-- The first update has read the sensor. The seventh iteration copies `x`, the
update stores `x` and `y`, and the iteration copies `y` and `z`. Then both go on
to their ends. -/
def tornSchedule : List (Move Tid EnvMove) :=
  sixIdle ++ List.replicate 62 (.run .mpu) ++
    List.replicate 5 (.run .serial) ++ [.env (.elapse 500)] ++ List.replicate 10 (.run .serial) ++
    List.replicate 2 (.run .mpu) ++ List.replicate 9 (.run .serial) ++
    List.replicate 8 (.run .mpu)

/-- A report shows `x` as it was initially, and `y` of the first update. -/
theorem report_torn :
    ¬∀ c : Config (sig ℚ) Tid (Sys ℚ),
      Reaches (machine ℚ) loop (bootConfig (fun _ _ => ⟨.MSG_OK, []⟩) (fun _ => 1) []) c →
      ∀ r ∈ Obs.reports (c.st.log .serial),
        ∃ p ∈ Obs.snapshots (c.st.log .mpu), ∀ line ∈ r, line.2 = p.axis line.1 := by
  intro h
  have hrun : (Threads.run (machine ℚ) loop tornSchedule
      (bootConfig (fun _ _ => ⟨.MSG_OK, []⟩) (fun _ => 1) [])).any (fun c =>
        (Obs.reports (c.st.log .serial)).any fun r =>
          (Obs.snapshots (c.st.log .mpu)).all fun p =>
            r.any fun line => line.2 ≠ p.axis line.1) = true := by
    decide +kernel
  obtain ⟨c, hc, hf⟩ := Reaches.of_run_any hrun
  obtain ⟨r, hr, htorn⟩ := List.any_eq_true.mp hf
  obtain ⟨p, hp, hlines⟩ := h c hc r hr
  obtain ⟨line, hline, hne⟩ := List.any_eq_true.mp (List.all_eq_true.mp htorn p hp)
  exact of_decide_eq_true hne (hlines line hline)

/-- An update, and then a report of it. -/
theorem report_is_snapshot_first : ∃ (c : Config (sig ℚ) Tid (Sys ℚ)) (r : List (Axis × ℚ)),
    r.length = 3 ∧ ∃ p ∈ Obs.snapshots (c.st.log .mpu), ∀ line ∈ r, line.2 = p.axis line.1 := by
  have hrun : (Threads.run (apartMachine ℚ) loop (sixIdle ++ List.replicate 72 (.run .mpu) ++
      List.replicate 5 (.run .serial) ++ [.env (.elapse 500)] ++ List.replicate 19 (.run .serial))
      (bootConfig (fun _ _ => ⟨.MSG_OK, []⟩) (fun _ => 1) [])).any (fun c =>
        (Obs.reports (c.st.log .serial)).any fun r => r.length = 3) = true := by
    decide +kernel
  obtain ⟨c, hc, hf⟩ := Reaches.of_run_any hrun
  obtain ⟨r, hr, hlen⟩ := List.any_eq_true.mp hf
  exact ⟨c, r, of_decide_eq_true hlen, report_is_snapshot hc hr⟩

end MotionTracking
