import MotionTracking.ChibiOS.NumberText
import MotionTracking.Firmware.Effect
import MotionTracking.Firmware.SoftFloat
import MotionTracking.Threads.Outline

/-!
# `MotionTracking.Proofs.Printed`: the numbers of a report

`long_to_string_with_divisor` has eleven characters for a number and `(long)num`
no value from `2 ^ 31` on, so `chprintf("%.3f")` relies on what it is given.
Whatever the rounding mode, the scale factor is at most `SCALE_MAX`, and the raw
words have 16 bits; so every axis lies between `-1` and `AXIS_MAX` in every state
of every run.

The lower bound needs more than an invariant: `mpu_acc_update` takes one from
`axis_z` in a statement of its own, right after it has set it. `ranged` is the
outline that lets the MPU thread know its `axis_z`, which no other thread writes.
-/

set_option autoImplicit false

namespace MotionTracking

open Threads (Outline Config Reaches)
open Threads.Outline (Triple Keeps)
open Threads.Prog (perform)
open Footprint (Within)

variable {L : FloatLib} {α : Type}

/-! ### The invariant -/

/-- A number that an axis can have. -/
def InRange (x : Soft L) : Prop := Soft.Between (-1) AXIS_MAX x

/-- The numbers of `mpu.c` are in the range of the axes. -/
structure MpuRanged (c : MpuC (Soft L)) : Prop where
  scale : Soft.Between 0 SCALE_MAX c.accScaleRef
  x : InRange c.axisX
  y : InRange c.axisY
  z : InRange c.axisZ

/-- The copies in `serialcomm.c` are in the range of the axes. -/
structure SerRanged (c : SerC (Soft L)) : Prop where
  x : InRange c.axisX
  y : InRange c.axisY
  z : InRange c.axisZ

/-- All the numbers of a state that are or can be printed are in the range of the axes. -/
structure Ranged (s : Sys (Soft L)) : Prop where
  mpu : MpuRanged s.mpu
  ser : SerRanged s.ser
  lines : ∀ t, ∀ l ∈ Obs.lines (s.log t), InRange l.2

/-- Between the actions of the MPU thread, `axis_z` stays as it is. -/
def ranged (L : FloatLib) : Outline (machine (Soft L)) where
  View _ := Option (Soft L)
  view t s := if t = .mpu then some s.mpu.axisZ else none
  inv := Ranged
  safe _ _ _ := True
  guar _ _ _ _ _ := True

/-- The action keeps all values in range and leaves `axis_z` alone. -/
def Tame : Act (Soft L) → Prop
  | .setMpu f => ∀ c, MpuRanged c → MpuRanged (f c) ∧ (f c).axisZ = c.axisZ
  | .setSer f => ∀ c d, MpuRanged c → SerRanged d → SerRanged (f c d)
  | .note ev => ∀ c, Obs.lines [ev c] = []
  | .sdOut (.axis _ v) => InRange v
  | _ => True

/-! ### One step -/

/-- A step that concerns no number. -/
structure SameValues (s s' : Sys (Soft L)) : Prop where
  scale : s'.mpu.accScaleRef = s.mpu.accScaleRef
  mpu : s'.mpu.axisX = s.mpu.axisX ∧ s'.mpu.axisY = s.mpu.axisY ∧ s'.mpu.axisZ = s.mpu.axisZ
  ser : s'.ser.axisX = s.ser.axisX ∧ s'.ser.axisY = s.ser.axisY ∧ s'.ser.axisZ = s.ser.axisZ
  lines : ∀ t, Obs.lines (s'.log t) = Obs.lines (s.log t)

variable {s s' : Sys (Soft L)} {t : Tid}

/-- A step that leaves the numbers leaves them in range. -/
theorem SameValues.ranged (h : SameValues s s') (hs : Ranged s) : Ranged s' where
  mpu := by
    obtain ⟨hx, hy, hz⟩ := h.mpu
    exact ⟨h.scale ▸ hs.mpu.scale, hx ▸ hs.mpu.x, hy ▸ hs.mpu.y, hz ▸ hs.mpu.z⟩
  ser := by
    obtain ⟨hx, hy, hz⟩ := h.ser
    exact ⟨hx ▸ hs.ser.x, hy ▸ hs.ser.y, hz ▸ hs.ser.z⟩
  lines t := by
    rw [h.lines t]
    exact hs.lines t

/-- The lines of a log are those of its entries, put together. -/
theorem lines_entry (ev : Obs (Soft L)) (l : List (Obs (Soft L))) :
    Obs.lines (ev :: l) = Obs.lines [ev] ++ Obs.lines l := by
  cases ev with
  | printed o => cases o <;> rfl
  | _ => rfl

/-- An entry other than a line of a report. -/
theorem lines_of_logs {A : Footprint} (hA : A.reports = false) {ev : Obs (Soft L)}
    (h : A.logs ev = true) : Obs.lines [ev] = [] := by
  cases ev with
  | printed o =>
      cases o with
      | axis a v =>
          have hreports : A.reports = true := h
          rw [hA] at hreports
          cases hreports
      | _ => rfl
  | _ => rfl

/-- The footprint has no numbers. -/
def Footprint.Numberless (A : Footprint) : Prop :=
  A.axes = false ∧ A.scale = false ∧ A.serAxes = false ∧ A.reports = false

/-- Four fields to compare. -/
instance (A : Footprint) : Decidable A.Numberless := inferInstanceAs (Decidable (_ ∧ _))

/-- A step within such a footprint leaves the numbers. -/
theorem sameValues_of_effect {A : Footprint} (hA : A.Numberless) (h : A.Effect t s s') :
    SameValues s s' := by
  obtain ⟨haxes, hscale, hser, hreports⟩ := hA
  refine ⟨h.mpu.scale hscale, h.mpu.axes haxes, h.ser.serAxes hser, fun u => ?_⟩
  rcases h.log with hlog | ⟨ev, hev, hlog⟩
  · rw [hlog]
  · rw [hlog]
    by_cases hu : u = t
    · rw [hu, Function.update_self, lines_entry, lines_of_logs hreports hev, List.nil_append]
    · rw [Function.update_of_ne hu]

/-- An action within a footprint without numbers is tame. -/
theorem tame_of_within {A : Footprint} (hA : A.Numberless) {a : Act (Soft L)}
    (h : A.Within a) : Tame a := by
  obtain ⟨haxes, hscale, hser, hreports⟩ := hA
  cases a with
  | setMpu f =>
      intro c hc
      obtain ⟨hx, hy, hz⟩ := (h c).axes haxes
      have hk := (h c).scale hscale
      exact ⟨⟨hk ▸ hc.scale, hx ▸ hc.x, hy ▸ hc.y, hz ▸ hc.z⟩, hz⟩
  | setSer f =>
      intro c d hc hd
      obtain ⟨hx, hy, hz⟩ := (h c d).serAxes hser
      exact ⟨hx ▸ hd.x, hy ▸ hd.y, hz ▸ hd.z⟩
  | note ev => exact fun c => lines_of_logs hreports (Footprint.logs_of_notes (h c))
  | sdOut o =>
      cases o with
      | axis a v =>
          have hprint : A.reports = true := h
          rw [hreports] at hprint
          cases hprint
      | _ => trivial
  | _ => trivial

/-- Code within such a footprint is tame. -/
theorem all_tame {A : Footprint} (hA : A.Numberless) {p : Prog (Soft L) α}
    (hp : p.All (Within A)) : p.All Tame :=
  hp.mono fun _ ha => tame_of_within hA ha

/-- A log entry whose lines are in range. -/
theorem ranged_observe {ev : Obs (Soft L)} (hs : Ranged s)
    (hev : ∀ l ∈ Obs.lines [ev], InRange l.2) : Ranged (s.observe t ev) where
  mpu := hs.mpu
  ser := hs.ser
  lines u := by
    show ∀ l ∈ Obs.lines (Function.update s.log t (ev :: s.log t) u), InRange l.2
    by_cases hu : u = t
    · rw [hu, Function.update_self, lines_entry]
      intro l hl
      rcases List.mem_append.mp hl with hl | hl
      · exact hev l hl
      · exact hs.lines t l hl
    · rw [Function.update_of_ne hu]
      exact hs.lines u

/-- A tame action keeps the values in range and `axis_z` as it is. -/
theorem tame_step {a : Act (Soft L)} {r : a.Ans} (ha : Tame a) (hs : Ranged s)
    (h : s.exec t a = some (r, s')) : Ranged s' ∧ s'.mpu.axisZ = s.mpu.axisZ := by
  have hother : ∀ {A : Footprint}, A.Numberless → A.Within a →
      Ranged s' ∧ s'.mpu.axisZ = s.mpu.axisZ := by
    intro A hA hw
    have hsame := sameValues_of_effect hA (Footprint.effect_step hw h)
    exact ⟨hsame.ranged hs, hsame.mpu.2.2⟩
  cases a with
  | setMpu f =>
      rw [Sys.exec_setMpu h]
      obtain ⟨hc, hz⟩ := ha s.mpu hs.mpu
      exact ⟨⟨hc, hs.ser, hs.lines⟩, hz⟩
  | setSer f =>
      rw [Sys.exec_setSer h]
      exact ⟨⟨hs.mpu, ha s.mpu s.ser hs.mpu hs.ser, hs.lines⟩, rfl⟩
  | note ev =>
      rw [Sys.exec_note h]
      refine ⟨ranged_observe hs ?_, rfl⟩
      rw [ha s.mpu]
      exact fun l hl => absurd hl List.not_mem_nil
  | sdOut o =>
      rw [Sys.exec_sdOut h]
      refine ⟨ranged_observe hs ?_, rfl⟩
      cases o with
      | axis a v =>
          intro l hl
          rw [List.mem_singleton.mp hl]
          exact ha
      | _ => exact fun l hl => absurd hl List.not_mem_nil
  | mtxInit m =>
      rw [Sys.exec_mtxInit h]
      exact ⟨⟨hs.mpu, hs.ser, hs.lines⟩, rfl⟩
  | thdCreate u =>
      rw [Sys.exec_thdCreate h]
      exact ⟨⟨hs.mpu, hs.ser, hs.lines⟩, rfl⟩
  | i2cStart =>
      rw [Sys.exec_i2cStart h]
      exact ⟨⟨hs.mpu, hs.ser, hs.lines⟩, rfl⟩
  | mtxLock m =>
      exact hother (A := { locks := [m] }) ⟨rfl, rfl, rfl, rfl⟩ (List.mem_singleton_self m)
  | mtxUnlock m =>
      exact hother (A := { locks := [m] }) ⟨rfl, rfl, rfl, rfl⟩ (List.mem_singleton_self m)
  | i2cBegin => exact hother (A := { locks := [.i2c] }) (by decide) (List.mem_singleton_self _)
  | i2cTransfer addr txbytes rxbytes =>
      exact hother (A := { locks := [.i2c] }) (by decide) (List.mem_singleton_self _)
  | i2cEnd => exact hother (A := { locks := [.i2c] }) (by decide) (List.mem_singleton_self _)
  | sdStart => exact hother (A := { reads := true }) (by decide) rfl
  | iqRead off n timeout => exact hother (A := { reads := true }) (by decide) rfl
  | iqWake off n => exact hother (A := { reads := true }) (by decide) rfl
  | iqReset => exact hother (A := { reads := true }) (by decide) rfl
  | getMpu => exact hother (A := {}) (by decide) trivial
  | getSer => exact hother (A := {}) (by decide) trivial
  | mtxResume => exact hother (A := {}) (by decide) trivial
  | sleep => exact hother (A := {}) (by decide) trivial

/-! ### The rules -/

/-- The view is the z-axis alone. -/
theorem view_congr {u : Tid} (h : s'.mpu.axisZ = s.mpu.axisZ) :
    (ranged L).view u s' = (ranged L).view u s := by
  show (if u = .mpu then some s'.mpu.axisZ else none) = _
  rw [h]
  rfl

/-- Only the MPU thread sees the z-axis. -/
theorem view_other {u : Tid} (hu : u ≠ .mpu) (s : Sys (Soft L)) :
    (ranged L).view u s = (none : Option (Soft L)) :=
  if_neg hu

/-- A tame action keeps the numbers in range, by its two cases. -/
theorem keeps_tame {a : Act (Soft L)} (ha : Tame a) (P : Option (Soft L) → Prop) :
    (ranged L).Keeps t a P fun _ => P := by
  intro s hs hP
  refine ⟨trivial, fun r s' h => ?_⟩
  obtain ⟨hs', hz⟩ := tame_step ha hs h
  refine ⟨⟨hs', trivial, fun u _ => view_congr hz⟩, ?_⟩
  rwa [view_congr hz]

/-- A program of tame actions. -/
theorem triple_tame {p : Prog (Soft L) α} (hp : p.All Tame) (P : Option (Soft L) → Prop) :
    (ranged L).Triple t P p fun _ => P :=
  .of_all hp fun _ ha => keeps_tame ha P

/-- A recorded call of tame code is tame. -/
theorem all_call {f : Fn} {p : Prog (Soft L) α} (hp : p.All Tame) : (call f p).All Tame := by
  refine .bind ⟨fun _ => rfl, fun _ => trivial⟩ fun _ => .bind hp fun x => ?_
  exact .bind ⟨fun _ => rfl, fun _ => trivial⟩ fun _ => Threads.Prog.all_pure x

/-! ### The functions -/

/-- The scale is one of the four. -/
theorem tame_setScale (range : AccelRange) :
    (setMpu (F := Soft L) fun c => { c with accScaleRef := accScale range }).All Tame :=
  ⟨fun _ hc => ⟨⟨between_accScale range, hc.x, hc.y, hc.z⟩, rfl⟩, fun _ => trivial⟩

/-- A change of range sets one of the four scales, and is tame otherwise. -/
theorem tame_mpuAccRange (range : AccelRange) : (mpuAccRange (F := Soft L) range).All Tame := by
  have hbuf : ∀ i b, (setTxbuf (F := Soft L) i b).All Tame := fun i b =>
    all_tame (by decide) (within_setTxbuf i b)
  refine all_call (.bind (hbuf _ _) fun _ => .bind (hbuf _ _) fun _ => ?_)
  refine .bind ⟨trivial, fun _ => ⟨trivial, fun _ => trivial⟩⟩ fun _ => ?_
  refine .bind (tame_setScale range) fun _ => ?_
  refine .bind (all_tame (by decide) (within_i2c1Transmit _ _ _ _)) fun res => ?_
  refine .ite (Threads.Prog.all_pure _) ?_
  exact .bind ⟨trivial, fun _ => trivial⟩ fun _ => Threads.Prog.all_pure _

/-- The commands are tame, by cases on the command. -/
theorem tame_exec (c : Command) : (Command.exec (F := Soft L) c).All Tame := by
  cases c with
  | start => exact all_tame (by decide) within_start
  | stop => exact all_tame (by decide) within_stop
  | redg => exact all_tame (by decide) within_redg
  | regs => exact all_tame (by decide) within_regs
  | range r =>
      refine .bind ⟨trivial, fun _ => ⟨trivial, fun _ => trivial⟩⟩ fun _ => ?_
      exact .bind (tame_mpuAccRange r) fun _ => ⟨trivial, fun _ => trivial⟩

/-- So is `commad_check`. -/
theorem tame_commadCheck (mem : List UInt8) : (commadCheck (F := Soft L) mem).All Tame := by
  rw [commadCheck_eq]
  refine all_call ?_
  cases commandOf mem with
  | none => exact all_tame (by decide) (within_unknownCommand mem)
  | some c => exact tame_exec c

/-- So is the initialisation. -/
theorem tame_mpuInit : (mpuInit (F := Soft L)).All Tame := by
  have hbuf : ∀ i b, (setTxbuf (F := Soft L) i b).All Tame := fun i b =>
    all_tame (by decide) (within_setTxbuf i b)
  have htransmit : ∀ addr tx rx timeout,
      (i2c1Transmit (F := Soft L) addr tx rx timeout).All Tame := fun addr tx rx timeout =>
    all_tame (by decide) (within_i2c1Transmit addr tx rx timeout)
  have hprint : ∀ {c : Prop} [Decidable c] (a b : String) {f : Unit → Prog (Soft L) Unit},
      (f ()).All Tame → (if c then serialPrint (.text a) >>= f
        else serialPrint (.text b) >>= f).All Tame := by
    intro c _ a b f hf
    have htext : ∀ s, (serialPrint (F := Soft L) (.text s)).All Tame := fun s =>
      all_tame (by decide) (within_serialPrint_text s)
    exact .ite (.bind (htext a) fun _ => hf) (.bind (htext b) fun _ => hf)
  refine .bind ⟨trivial, fun _ => trivial⟩ fun _ => ?_
  refine .bind (all_tame (by decide) within_mpuReset) fun _ => ?_
  refine .bind (hbuf _ _) fun _ => .bind (hbuf _ _) fun _ => ?_
  refine .bind (htransmit _ _ _ _) fun _ => hprint _ _ ?_
  refine .bind (hbuf _ _) fun _ => .bind (hbuf _ _) fun _ => ?_
  refine .bind (htransmit _ _ _ _) fun _ => hprint _ _ ?_
  refine .bind (tame_mpuAccRange _) fun _ => hprint _ _ ?_
  exact all_tame (by decide) within_mpuWhoAmI

/-- The two assignments to `axis_z`: nothing comes between them that could see or
change the first one's value. -/
theorem triple_axisZ {f : Unit → Prog (Soft L) Bool} (hf : (f ()).All Tame) :
    (ranged L).Triple .mpu (fun _ => True)
      (setMpu (fun c => { c with axisZ := CFloat.mul (CFloat.ofUInt16 c.axisRowZ) c.accScaleRef })
        >>= fun _ => setMpu (fun c => { c with axisZ := CFloat.sub c.axisZ ACC_Z_CENTER }) >>= f)
      fun _ _ => True := by
  have hscaled : (ranged L).Keeps .mpu
      (.setMpu fun c => { c with axisZ := CFloat.mul (CFloat.ofUInt16 c.axisRowZ) c.accScaleRef })
      (fun _ => True) fun _ v => ∃ z, v = some z ∧ Soft.Between 0 AXIS_MAX z := by
    intro s hs _
    refine ⟨trivial, fun r s' h => ?_⟩
    rw [Sys.exec_setMpu h]
    have hz := between_scaled s.mpu.axisRowZ hs.mpu.scale
    have hrange : InRange (CFloat.mul (CFloat.ofUInt16 s.mpu.axisRowZ) s.mpu.accScaleRef) :=
      hz.mono (by norm_num) le_rfl
    refine ⟨⟨⟨⟨hs.mpu.scale, hs.mpu.x, hs.mpu.y, hrange⟩, hs.ser, hs.lines⟩, trivial, ?_⟩, ?_⟩
    · exact fun u hu => (view_other hu _).trans (view_other hu s).symm
    · exact ⟨_, rfl, hz⟩
  have hcentered : (ranged L).Keeps .mpu
      (.setMpu fun c => { c with axisZ := CFloat.sub c.axisZ ACC_Z_CENTER })
      (fun v => ∃ z, v = some z ∧ Soft.Between 0 AXIS_MAX z) fun _ _ => True := by
    rintro s hs ⟨z, hview, hz⟩
    refine ⟨trivial, fun r s' h => ?_⟩
    rw [Sys.exec_setMpu h]
    have hsame : s.mpu.axisZ = z := Option.some.inj hview
    have hrange : InRange (CFloat.sub s.mpu.axisZ ACC_Z_CENTER) := by
      rw [hsame]
      exact between_centered hz
    refine ⟨⟨⟨⟨hs.mpu.scale, hs.mpu.x, hs.mpu.y, hrange⟩, hs.ser, hs.lines⟩, trivial, ?_⟩, trivial⟩
    exact fun u hu => (view_other hu _).trans (view_other hu s).symm
  refine .bind (.perform hscaled) fun _ => .bind (.perform hcentered) fun x => ?_
  exact (triple_tame hf _).post fun _ _ h => h

/-- A recorded call. -/
theorem triple_call {f : Fn} {p : Prog (Soft L) α}
    (hp : (ranged L).Triple t (fun _ => True) p fun _ _ => True) :
    (ranged L).Triple t (fun _ => True) (call f p) fun _ _ => True := by
  have hnote : ∀ ev : Obs (Soft L), Obs.lines [ev] = [] →
      (note (F := Soft L) fun _ => ev).All Tame := fun ev hev => ⟨fun _ => hev, fun _ => trivial⟩
  refine .bind (triple_tame (hnote (.began f) rfl) _) fun _ => .bind hp fun x => ?_
  exact (triple_tame (.bind (hnote (.returned f) rfl) fun _ => Threads.Prog.all_pure x) _)

/-- An update multiplies raw words by the scale, and takes 1 off the z-axis. -/
theorem triple_mpuAccUpdate :
    (ranged L).Triple .mpu (fun _ => True) mpuAccUpdate fun _ _ => True := by
  have hread : ∀ {axis : AccAxis} {store : UInt16 → MpuC (Soft L) → MpuC (Soft L)},
      (∀ v c, Footprint.Mpu { row := true } c (store v c)) →
      (ranged L).Triple .mpu (fun _ => True) (mpuReadAccAxis axis store) fun _ _ => True := by
    intro axis store hstore
    obtain ⟨p, heq, hp⟩ := within_mpuReadAccAxis hstore
    rw [heq]
    exact triple_call (triple_tame (all_tame (by decide) hp) _)
  refine triple_call ?_
  refine .bind (hread (by simp [Footprint.mpu_iff])) fun res₀ => ?_
  refine .bind (hread (by simp [Footprint.mpu_iff])) fun res₁ => ?_
  refine .bind (hread (by simp [Footprint.mpu_iff])) fun res₂ => ?_
  refine .ite (fun _ => .pure fun _ _ => trivial) fun _ => ?_
  have hx : (setMpu (F := Soft L) fun c =>
      { c with axisX := CFloat.mul (CFloat.ofUInt16 c.axisRowX) c.accScaleRef }).All Tame :=
    ⟨fun c hc => ⟨⟨hc.scale, (between_scaled _ hc.scale).mono (by norm_num) le_rfl, hc.y, hc.z⟩,
      rfl⟩, fun _ => trivial⟩
  have hy : (setMpu (F := Soft L) fun c =>
      { c with axisY := CFloat.mul (CFloat.ofUInt16 c.axisRowY) c.accScaleRef }).All Tame :=
    ⟨fun c hc => ⟨⟨hc.scale, hc.x, (between_scaled _ hc.scale).mono (by norm_num) le_rfl, hc.z⟩,
      rfl⟩, fun _ => trivial⟩
  refine .bind (triple_tame hx _) fun _ => .bind (triple_tame hy _) fun _ => triple_axisZ ?_
  -- The angles and the note that the update is complete.
  have hangles : ∀ {f : MpuC (Soft L) → MpuC (Soft L)},
      (∀ c, Footprint.Mpu { angles := true } c (f c)) →
      (setMpu f).All Tame := fun hf =>
    all_tame (A := { angles := true }) (by decide) ⟨hf, fun _ => trivial⟩
  refine .bind ⟨trivial, fun _ => trivial⟩ fun c => .bind ⟨trivial, fun _ => trivial⟩ fun c₁ => ?_
  refine .bind (hangles (by simp [Footprint.mpu_iff])) fun _ => ?_
  refine .bind ⟨trivial, fun _ => trivial⟩ fun c₂ => ?_
  refine .bind (hangles (by simp [Footprint.mpu_iff])) fun _ => ?_
  exact .bind ⟨fun _ => rfl, fun _ => trivial⟩ fun _ => Threads.Prog.all_pure _

/-- An iteration of the MPU thread, with or without an update. -/
theorem triple_mpumThread :
    (ranged L).Triple .mpu (fun _ => True) mpumThread fun _ _ => True := by
  have hend : (ranged L).Triple .mpu (fun _ => True)
      (do chMtxUnlock (F := Soft L) .mpu; chThdSleepMilliseconds 500) fun _ _ => True :=
    triple_tame (all_tame (A := { locks := [.mpu] }) (by decide)
      (by simp [chMtxUnlock, chThdSleepMilliseconds, perform, Within])) _
  have hread : (getMpu (F := Soft L)).All Tame := ⟨trivial, fun _ => trivial⟩
  have hlock : (chMtxLock (F := Soft L) .mpu).All Tame :=
    ⟨trivial, fun _ => ⟨trivial, fun _ => trivial⟩⟩
  refine .bind (triple_tame hlock _) fun _ => ?_
  refine .bind (triple_tame hread _) fun c => ?_
  exact .ite (fun _ => .bind triple_mpuAccUpdate fun _ => hend) fun _ => hend

/-- A line of a report shows a variable of `serialcomm.c`. -/
theorem triple_chprintf {f : Unit → Prog (Soft L) Unit} (axis : Axis)
    (get : SerC (Soft L) → Soft L) (hget : ∀ c, SerRanged c → InRange (get c))
    (hf : (ranged L).Triple t (fun _ => True) (f ()) fun _ _ => True) :
    (ranged L).Triple t (fun _ => True)
      (getSer >>= fun c => chprintf (.axis axis (get c)) >>= f) fun _ _ => True := by
  have hread : (ranged L).Keeps t .getSer (fun _ => True) fun c _ => SerRanged c := by
    intro s hs hv
    obtain ⟨-, hstep⟩ := keeps_tame (a := .getSer) trivial (fun _ => True) s hs hv
    refine ⟨trivial, fun r s' h => ⟨(hstep r s' h).1, ?_⟩⟩
    rw [(Sys.exec_getSer h).1]
    exact hs.ser
  refine .bind (.perform hread) fun c v hc => ?_
  have hprint : (chprintf (.axis axis (get c))).All Tame := ⟨hget c hc, fun _ => trivial⟩
  exact Triple.bind (triple_tame hprint fun _ => True) (fun _ => hf) v trivial

/-- A report prints copies of numbers in range. -/
theorem triple_report :
    (ranged L).Triple t (fun _ => True) report fun _ _ => True := by
  have hzero : (setSer (F := Soft L) fun _ c => { c with rdCount := 0 }).All Tame :=
    ⟨fun _ _ _ hd => ⟨hd.x, hd.y, hd.z⟩, fun _ => trivial⟩
  have hcount : (ranged L).Triple t (fun _ => True)
      (setSer (F := Soft L) fun _ c => { c with rdCount := 0 }) fun _ _ => True :=
    triple_tame hzero _
  have hoption : (getSer (F := Soft L)).All Tame := ⟨trivial, fun _ => trivial⟩
  have hcopyX : (setSer (F := Soft L) fun c d => { d with axisX := c.axisX }).All Tame :=
    ⟨fun _ _ hc hd => ⟨hc.x, hd.y, hd.z⟩, fun _ => trivial⟩
  have hcopyY : (setSer (F := Soft L) fun c d => { d with axisY := c.axisY }).All Tame :=
    ⟨fun _ _ hc hd => ⟨hd.x, hc.y, hd.z⟩, fun _ => trivial⟩
  have hcopyZ : (setSer (F := Soft L) fun c d => { d with axisZ := c.axisZ }).All Tame :=
    ⟨fun _ _ hc hd => ⟨hd.x, hd.y, hc.z⟩, fun _ => trivial⟩
  have hlock : (chMtxLock (F := Soft L) .mpu).All Tame :=
    ⟨trivial, fun _ => ⟨trivial, fun _ => trivial⟩⟩
  have hunlock : (chMtxUnlock (F := Soft L) .mpu).All Tame := ⟨trivial, fun _ => trivial⟩
  refine .bind (triple_tame hoption _) fun c => .ite (fun _ => ?_) fun _ => ?_
  · refine .bind (triple_tame (all_call ?_) _) fun _ => ?_
    · exact .bind hlock fun _ => .bind hcopyX fun _ => .bind hcopyY fun _ => hunlock
    · refine triple_chprintf .x _ (fun _ hc => hc.x) ?_
      exact triple_chprintf .y _ (fun _ hc => hc.y) hcount
  · refine .bind (triple_tame (all_call ?_) _) fun _ => ?_
    · exact .bind hcopyX fun _ => .bind hcopyY fun _ => hcopyZ
    · refine triple_chprintf .x _ (fun _ hc => hc.x) ?_
      refine triple_chprintf .y _ (fun _ hc => hc.y) ?_
      exact triple_chprintf .z _ (fun _ hc => hc.z) hcount

/-- The output section prints a report or nothing. -/
theorem triple_outputSection :
    (ranged L).Triple t (fun _ => True) outputSection fun _ _ => True := by
  have hlock : (chMtxLock (F := Soft L) .serialcomm).All Tame :=
    ⟨trivial, fun _ => ⟨trivial, fun _ => trivial⟩⟩
  have hread : (getSer (F := Soft L)).All Tame := ⟨trivial, fun _ => trivial⟩
  have hunlock : (ranged L).Triple t (fun _ => True) (chMtxUnlock (F := Soft L) .serialcomm)
      fun _ _ => True := triple_tame (p := chMtxUnlock _) ⟨trivial, fun _ => trivial⟩ _
  refine .bind (triple_tame hlock _) fun _ => .bind (triple_tame hread _) fun c => ?_
  exact .ite (fun _ => .bind triple_report fun _ => hunlock) fun _ => hunlock

/-- An iteration of the serial thread. -/
theorem triple_serialcommThread :
    (ranged L).Triple t (fun _ => True) serialcommThread fun _ _ => True := by
  have hreset : (iqResetI (F := Soft L)).All Tame := ⟨trivial, fun _ => trivial⟩
  have hcount : (ranged L).Triple t (fun _ => True) (do
      setSer (F := Soft L) fun _ c => { c with rdCount := wrap32 (c.rdCount + 1) }
      chThdSleepMilliseconds 100) fun _ _ => True :=
    triple_tame (all_tame (A := { rdCount := true }) (by decide)
      (by simp [setSer, chThdSleepMilliseconds, perform, Within, Footprint.ser_iff])) _
  have hrest : (ranged L).Triple t (fun _ => True) (do
      iqResetI (F := Soft L)
      outputSection
      setSer fun _ c => { c with rdCount := wrap32 (c.rdCount + 1) }
      chThdSleepMilliseconds 100) fun _ _ => True :=
    .bind (triple_tame hreset _) fun _ => .bind triple_outputSection fun _ => hcount
  have hread : (getSer (F := Soft L)).All Tame := ⟨trivial, fun _ => trivial⟩
  refine .bind (triple_tame (all_tame (by decide) within_serialRead) _) fun sdt => ?_
  refine .ite (fun _ => .bind (triple_tame hread _) fun c => ?_) fun _ => hrest
  exact .bind (triple_tame (tame_commadCheck _) _) fun _ => hrest

/-- The setups are tame. -/
theorem tame_setup (t : Tid) : (setup (F := Soft L) t).All Tame := by
  have hprint : ∀ s, (serialPrint (F := Soft L) (.text s)).All Tame := fun s =>
    all_tame (by decide) (within_serialPrint_text s)
  cases t with
  | main =>
      refine .bind ⟨trivial, fun _ => ⟨trivial, fun _ => trivial⟩⟩ fun _ => ?_
      refine .bind (hprint _) fun _ => .bind (hprint _) fun _ => .bind (hprint _) fun _ => ?_
      refine .bind ⟨trivial, fun _ => trivial⟩ fun _ => .bind tame_mpuInit fun _ => ?_
      refine .bind ⟨trivial, fun _ => trivial⟩ fun _ => .bind (hprint _) fun _ => ?_
      exact .bind ⟨trivial, fun _ => trivial⟩ fun _ => hprint _
  | serial => exact .bind ⟨trivial, fun _ => trivial⟩ fun _ => ⟨trivial, fun _ => trivial⟩
  | mpu => trivial

/-- Each loop keeps the numbers in range. -/
theorem triple_loop (t : Tid) : (ranged L).Triple t (fun _ => True) (loop t) fun _ _ => True := by
  cases t with
  | main => exact triple_tame (p := chThdSleepMilliseconds 1000) ⟨trivial, fun _ => trivial⟩ _
  | serial => exact triple_serialcommThread
  | mpu => exact triple_mpumThread

/-! ### Runs -/

/-- The initial values are in range. -/
theorem inRange_zero : InRange (CFloat.lit 0 : Soft L) := by
  have hzero := between_lit (L := L) (n := 0) (j := 0) (by decide) (by decide)
  rw [pow_zero, div_one, Nat.cast_zero] at hzero
  exact hzero.mono (by norm_num) (by norm_num [AXIS_MAX])

/-- At the start all numbers are 0. -/
theorem ranged_boot (results : Tid → Nat → I2CResult) (regs : UInt8 → UInt8)
    (pastStrbuf : List UInt8) : Ranged (boot (F := Soft L) results regs pastStrbuf) := by
  have hzero := between_lit (L := L) (n := 0) (j := 0) (by decide) (by decide)
  rw [pow_zero, div_one, Nat.cast_zero] at hzero
  have hscale : Soft.Between 0 SCALE_MAX (CFloat.lit 0 : Soft L) :=
    hzero.mono le_rfl (by norm_num [SCALE_MAX])
  exact ⟨⟨hscale, inRange_zero, inRange_zero, inRange_zero⟩,
    ⟨inRange_zero, inRange_zero, inRange_zero⟩, fun t l hl => absurd hl List.not_mem_nil⟩

/-- The surroundings compute nothing. -/
theorem ranged_env : (ranged L).EnvOk := by
  intro e s s' hs h
  cases e <;>
    (cases h; exact ⟨⟨hs.mpu, hs.ser, hs.lines⟩, fun u => view_congr rfl⟩)

/-- In every reachable state all values are in range. -/
theorem ranged_of_reaches {results : Tid → Nat → I2CResult} {regs : UInt8 → UInt8}
    {pastStrbuf : List UInt8} {c : Config (sig (Soft L)) Tid (Sys (Soft L))}
    (h : Reaches (machine (Soft L)) loop (bootConfig results regs pastStrbuf) c) :
    Ranged c.st := by
  have hboot : (ranged L).Ok (fun _ _ => True) (bootConfig results regs pastStrbuf) :=
    ⟨ranged_boot results regs pastStrbuf, fun t => triple_tame (tame_setup t) _ _ trivial⟩
  exact (hboot.reaches triple_loop ranged_env h).inv

end MotionTracking
