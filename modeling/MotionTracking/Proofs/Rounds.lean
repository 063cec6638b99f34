import MotionTracking.Firmware.Effect
import MotionTracking.Firmware.Rounds
import MotionTracking.Threads.Outline

/-!
# `MotionTracking.Proofs.Rounds`: the rounds of every run are chained

Of the variables that decide what an iteration of `serialcomm_thread` does, only
`serialcomm_thread` itself writes any. So the other threads do not matter, nor
do the mutexes, and the thread can be followed by itself: `Rounds past p Q v`
says that the program `p`, from a state that looks like `v` to the thread, ends
with `Q`, and that the rounds in the log are chained all along.

The lemmas follow the calls of the loop body. A program that touches nothing of
the `SerialView` is passed over by its footprint (`rounds_within`).
-/

set_option autoImplicit false

namespace MotionTracking

open Threads (Machine Outline Reaches Config)
open Threads.Outline (Sat Triple Keeps)
open Threads.Prog (perform)
open Footprint (Within)

variable {F α β : Type}

/-! ### What the thread goes by -/

/-- What an iteration depends on, and the rounds so far. -/
@[ext]
structure SerialView where
  readEnable : Bool
  strbuf : Buf SERIAL_BUFFER_SIZE
  pastStrbuf : List UInt8
  rdCount : Int
  progress : Progress

/-- The view of the serial thread in a state. -/
def serialView (s : Sys F) : SerialView where
  readEnable := s.ser.readEnable
  strbuf := s.ser.strbuf
  pastStrbuf := s.ser.pastStrbuf
  rdCount := s.ser.rdCount
  progress := progress (s.log .serial)

/-- The rounds are chained, and `rd_count` is what they make it, before or after
the reset and the increment. -/
structure SerialView.Ok (pastStrbuf : List UInt8) (v : SerialView) : Prop where
  chained : Chained pastStrbuf v.progress.rounds
  count : v.rdCount = 0 ∨ v.rdCount = countAfter v.progress.rounds ∨
    v.rdCount = countAfter v.progress.rounds.tail
  takesIn : v.progress.going = true → TakesIn pastStrbuf v.progress.now v.progress.rounds

/-- The outline of the serial thread. The others have nothing to keep but the
serial thread's view. -/
def roundsOutline (F : Type) (pastStrbuf : List UInt8) : Outline (machine F) where
  View t := if t = .serial then SerialView else Unit
  view t s := match t with
    | .serial => serialView s
    | .main => ()
    | .mpu => ()
  inv s := (serialView s).Ok pastStrbuf
  safe _ _ _ := True
  guar _ _ _ _ _ := True

/-- The serial thread runs `p` from the view `v`. -/
def Rounds (pastStrbuf : List UInt8) (p : Prog F α) (Q : α → SerialView → Prop)
    (v : SerialView) : Prop :=
  (roundsOutline F pastStrbuf).Sat .serial p Q v

variable {pastStrbuf : List UInt8} {v : SerialView}

/-- The rule for a sequence. -/
theorem rounds_bind {p : Prog F α} {f : α → Prog F β} {Q : β → SerialView → Prop}
    (h : Rounds pastStrbuf p (fun x => Rounds pastStrbuf (f x) Q) v) :
    Rounds pastStrbuf (p >>= f) Q v :=
  Sat.bind h

/-- The rule for a computation that performs nothing. -/
theorem rounds_pure {x : α} {Q : α → SerialView → Prop} (h : Q x v) :
    Rounds pastStrbuf (pure x : Prog F α) Q v :=
  h

/-- One action. -/
theorem rounds_act {a : Act F} {Q : a.Ans → SerialView → Prop}
    (h : ∀ s r s', serialView s = v → v.Ok pastStrbuf → s.exec .serial a = some (r, s') →
      (serialView s').Ok pastStrbuf ∧ Q r (serialView s')) :
    Rounds pastStrbuf (perform (S := sig F) a) Q v := by
  intro s hs hv
  refine ⟨trivial, fun r s' hrs => ?_⟩
  have hview : serialView s = v := hv
  obtain ⟨hok, hQ⟩ := h s r s' hview (hview ▸ hs) hrs
  refine ⟨⟨hok, trivial, fun u hu => ?_⟩, hQ⟩
  cases u with
  | main => rfl
  | serial => exact absurd rfl hu
  | mpu => rfl

/-- An action that leads from one view to another, which is as good. -/
theorem rounds_step {a : Act F} {Q : a.Ans → SerialView → Prop} {w : SerialView}
    (h : ∀ s r s', serialView s = v → s.exec .serial a = some (r, s') → serialView s' = w)
    (hw : v.Ok pastStrbuf → w.Ok pastStrbuf) (hQ : ∀ r, Q r w) :
    Rounds pastStrbuf (perform (S := sig F) a) Q v := by
  refine rounds_act fun s r s' hv hok hrs => ?_
  rw [h s r s' hv hrs]
  exact ⟨hw hok, hQ r⟩

/-! ### Programs that leave the view alone -/

/-- The footprint has nothing of the serial thread's view. -/
def Footprint.silent (A : Footprint) : Bool :=
  !A.serEnable && !A.rdCount && !A.reports && !A.reads && !A.commands

/-- An entry of a silent footprint says nothing about the rounds, unless it is the
unlock that ends the output section. -/
theorem entry_silent {A : Footprint} (hA : A.silent = true) {p : Progress} {ev : Obs F}
    (hev : A.logs ev = true) (hout : .serialcomm ∈ A.locks → p.output = false) :
    p.entry ev = p := by
  simp only [Footprint.silent, Bool.and_eq_true, Bool.not_eq_true'] at hA
  obtain ⟨⟨⟨⟨-, -⟩, hreports⟩, hreads⟩, hcommands⟩ := hA
  cases ev with
  | began f =>
      cases f with
      | serialRead => exact absurd (hreads.symm.trans hev) (by decide)
      | commadCheck str => exact absurd (hcommands.symm.trans hev) (by decide)
      | _ => rfl
  | printed o =>
      cases o with
      | axis a x => exact absurd (hreports.symm.trans hev) (by decide)
      | _ => rfl
  | unlocked m top =>
      cases m with
      | serialcomm =>
          have hfalse := hout (of_decide_eq_true hev)
          show (if p.output then _ else p) = p
          rw [hfalse]
          rfl
      | _ => rfl
  | received bytes => exact absurd (hreads.symm.trans hev) (by decide)
  | flushed => exact absurd (hreads.symm.trans hev) (by decide)
  | _ => rfl

/-- An action within a silent footprint does not show in the view. -/
theorem serialView_silent {A : Footprint} (hA : A.silent = true) {t : Tid} {a : Act F}
    (ha : A.Within a) {s s' : Sys F} {r : a.Ans} (h : s.exec t a = some (r, s'))
    (hout : t = .serial → .serialcomm ∈ A.locks → (serialView s).progress.output = false) :
    serialView s' = serialView s := by
  have heff := Footprint.effect_step ha h
  have hfields := hA
  simp only [Footprint.silent, Bool.and_eq_true, Bool.not_eq_true'] at hfields
  obtain ⟨⟨⟨⟨henable, hcount⟩, -⟩, hreads⟩, -⟩ := hfields
  ext1
  · exact heff.ser.serEnable henable
  · exact heff.strbuf hreads
  · exact heff.ser.pastStrbuf
  · exact heff.ser.rdCount hcount
  · show progress (s'.log .serial) = progress (s.log .serial)
    rcases heff.log with hlog | ⟨ev, hev, hlog⟩
    · rw [hlog]
    · rw [hlog]
      by_cases ht : t = .serial
      · subst ht
        rw [Function.update_self]
        exact entry_silent hA hev (hout rfl)
      · rw [Function.update_of_ne (Ne.symm ht)]

/-- The rule for code within a silent footprint. -/
theorem rounds_within {A : Footprint} {p : Prog F α} {Q : α → SerialView → Prop}
    (hA : A.silent = true) (hp : p.All (Within A))
    (hout : .serialcomm ∈ A.locks → v.progress.output = false) (hQ : ∀ x, Q x v) :
    Rounds pastStrbuf p Q v := by
  induction p with
  | ret x => exact hQ x
  | act a k ih =>
      have hact : Rounds pastStrbuf (perform (S := sig F) a)
          (fun r => Rounds pastStrbuf (k r) Q) v := by
        refine rounds_act fun s r s' hv hok hrs => ?_
        have hsame : serialView s' = serialView s :=
          serialView_silent hA hp.1 hrs fun _ hm => hv ▸ hout hm
        rw [hsame, hv]
        exact ⟨hok, ih r (hp.2 r)⟩
      exact rounds_bind hact

/-- A silent program that has nothing to do with the mutex of `serialcomm.c`. -/
theorem rounds_apart {A : Footprint} {p : Prog F α} {Q : α → SerialView → Prop}
    (hA : A.silent = true ∧ .serialcomm ∉ A.locks) (hp : p.All (Within A)) (hQ : ∀ x, Q x v) :
    Rounds pastStrbuf p Q v :=
  rounds_within hA.1 hp (fun hm => absurd hm hA.2) hQ

/-! ### The actions that concern the rounds -/

/-- The view after an entry in the log. -/
def SerialView.entry (v : SerialView) (ev : Obs F) : SerialView :=
  { v with progress := v.progress.entry ev }

/-- The rule for a note. -/
theorem rounds_note {ev : Obs F} {Q : Unit → SerialView → Prop}
    (hok : v.Ok pastStrbuf → (v.entry ev).Ok pastStrbuf) (hQ : Q () (v.entry ev)) :
    Rounds pastStrbuf (note fun _ => ev) Q v := by
  refine rounds_step (fun s r s' hv hrs => ?_) hok fun _ => hQ
  subst hv
  rw [Sys.exec_note hrs]
  simp [serialView, SerialView.entry, Sys.observe, progress]

/-- The rule for reading the variables of `serialcomm.c`. -/
theorem rounds_getSer {Q : SerC F → SerialView → Prop}
    (hQ : ∀ c : SerC F, c.readEnable = v.readEnable → c.rdCount = v.rdCount →
      c.strMem = List.ofFn v.strbuf ++ v.pastStrbuf → Q c v) :
    Rounds pastStrbuf getSer Q v := by
  refine rounds_act fun s r s' hv hok hrs => ?_
  obtain ⟨rfl, rfl⟩ := Sys.exec_getSer hrs
  subst hv
  exact ⟨hok, hQ s'.ser rfl rfl rfl⟩

/-- An assignment to `rd_count`. -/
theorem rounds_setCount (g : Int → Int) {Q : Unit → SerialView → Prop}
    (hok : v.Ok pastStrbuf → { v with rdCount := g v.rdCount }.Ok pastStrbuf)
    (hQ : Q () { v with rdCount := g v.rdCount }) :
    Rounds pastStrbuf (setSer (F := F) fun _ c => { c with rdCount := g c.rdCount }) Q v := by
  refine rounds_step (fun s r s' hv hrs => ?_) hok fun _ => hQ
  rw [Sys.exec_setSer hrs, ← hv]
  rfl

/-- An assignment to `read_enable`. -/
theorem rounds_setEnable (b : Bool) {Q : Unit → SerialView → Prop}
    (hQ : Q () { v with readEnable := b }) :
    Rounds pastStrbuf (setSer (F := F) fun _ c => { c with readEnable := b }) Q v := by
  refine rounds_step (w := { v with readEnable := b }) (fun s r s' hv hrs => ?_)
    (fun hok => ⟨hok.chained, hok.count, hok.takesIn⟩) fun _ => hQ
  rw [Sys.exec_setSer hrs, ← hv]
  rfl

/-- The rule for formatted output. -/
theorem rounds_chprintf {o : Out F} {Q : Unit → SerialView → Prop}
    (hok : v.Ok pastStrbuf → (v.entry (.printed o : Obs F)).Ok pastStrbuf)
    (hQ : Q () (v.entry (.printed o : Obs F))) : Rounds pastStrbuf (chprintf o) Q v := by
  refine rounds_step (fun s r s' hv hrs => ?_) hok fun _ => hQ
  subst hv
  rw [Sys.exec_sdOut hrs]
  simp [serialView, SerialView.entry, Sys.observe, progress]

/-- The rule for the flush. -/
theorem rounds_iqResetI {Q : Unit → SerialView → Prop}
    (hok : v.Ok pastStrbuf → (v.entry (.flushed : Obs F)).Ok pastStrbuf)
    (hQ : Q () (v.entry (.flushed : Obs F))) : Rounds pastStrbuf (iqResetI (F := F)) Q v := by
  refine rounds_step (fun s r s' hv hrs => ?_) hok fun _ => hQ
  subst hv
  rw [Sys.exec_iqReset hrs]
  simp [serialView, SerialView.entry, Sys.observe, progress]

/-- The unlock that ends the output section. -/
theorem rounds_leave {Q : Unit → SerialView → Prop} {w : SerialView}
    (hw : ∀ top, v.entry (.unlocked .serialcomm top : Obs F) = w)
    (hok : v.Ok pastStrbuf → w.Ok pastStrbuf) (hQ : Q () w) :
    Rounds pastStrbuf (chMtxUnlock (F := F) .serialcomm) Q v := by
  refine rounds_step (fun s r s' hv hrs => ?_) hok fun _ => hQ
  subst hv
  rw [Sys.exec_mtxUnlock hrs, ← hw (s.kern.mtxlist .serial).head?]
  simp [serialView, SerialView.entry, Sys.observe, progress]

/-! ### `serial_read` -/

/-- The view when the read has delivered `d`. -/
def SerialView.deliver (v : SerialView) (d : List UInt8) : SerialView :=
  { v with
    strbuf := v.strbuf.write 0 d
    progress := { v.progress with now := { v.progress.now with delivered := d } } }

/-- Whatever a read delivers, the round goes on in order. -/
theorem SerialView.deliver_ok {d d' : List UInt8} (h : (v.deliver d).Ok pastStrbuf)
    (hnow : v.progress.now.handled = none) (hd' : d'.length ≤ SERIAL_BUFFER_SIZE) :
    (v.deliver d').Ok pastStrbuf := by
  refine ⟨h.chained, h.count, fun _ => ⟨hd', ?_⟩⟩
  intro mem hmem
  exact absurd (hnow.symm.trans hmem) (by simp)

/-- More bytes, behind those that the read has delivered already. -/
theorem serialView_iqTake {s : Sys F} {d : List UInt8} (h : serialView s = v.deliver d)
    (n : Nat) : serialView (s.iqTake .serial d.length n).2 =
      v.deliver (d ++ s.sd2.iqueue.take n) := by
  have hstrbuf : s.ser.strbuf = v.strbuf.write 0 d := congrArg SerialView.strbuf h
  have hprogress : progress (s.log .serial) = (v.deliver d).progress :=
    congrArg SerialView.progress h
  ext1
  · show s.ser.readEnable = v.readEnable
    exact congrArg SerialView.readEnable h
  · show s.ser.strbuf.write d.length (s.sd2.iqueue.take n) = _
    rw [hstrbuf, Buf.write_append]
    rfl
  · show s.ser.pastStrbuf = v.pastStrbuf
    exact congrArg SerialView.pastStrbuf h
  · show s.ser.rdCount = v.rdCount
    exact congrArg SerialView.rdCount h
  · show progress (Function.update s.log .serial (.received (s.sd2.iqueue.take n) ::
      s.log .serial) .serial) = _
    rw [Function.update_self, progress, hprogress]
    rfl

/-- The loop of the read: `d` is delivered and `n` bytes are to go. -/
theorem rounds_iqReadRounds {timeout : Nat} {Q : Nat → SerialView → Prop}
    (hnow : v.progress.now.handled = none)
    (hQ : ∀ d : List UInt8, d.length ≤ SERIAL_BUFFER_SIZE → Q d.length (v.deliver d))
    (rounds : Nat) (d : List UInt8) (n : Nat) (hn : d.length + n = SERIAL_BUFFER_SIZE) :
    Rounds pastStrbuf (iqReadRounds (F := F) timeout rounds d.length n) Q (v.deliver d) := by
  induction rounds generalizing d n with
  | zero => exact hQ d (by omega)
  | succ rounds ih =>
      -- The rest of the loop, after bytes have been taken from the queue.
      have htaken : ∀ s : Sys F, (v.deliver d).Ok pastStrbuf →
          (v.deliver (d ++ s.sd2.iqueue.take n)).Ok pastStrbuf ∧
          Rounds pastStrbuf (iqReadRounds (F := F) timeout rounds
            (d.length + (s.sd2.iqueue.take n).length) (n - (s.sd2.iqueue.take n).length)) Q
            (v.deliver (d ++ s.sd2.iqueue.take n)) := by
        intro s hok
        have hlen : (s.sd2.iqueue.take n).length ≤ n := List.length_take_le _ _
        have hsum : (d ++ s.sd2.iqueue.take n).length = d.length + (s.sd2.iqueue.take n).length :=
          List.length_append
        refine ⟨SerialView.deliver_ok hok hnow (by omega), ?_⟩
        rw [← hsum]
        exact ih _ _ (by omega)
      unfold iqReadRounds
      by_cases hzero : n = 0
      · rw [if_pos hzero]
        exact hQ d (by omega)
      rw [if_neg hzero]
      refine rounds_bind (rounds_act fun s r s' hv hok hrs => ?_)
      rcases Sys.exec_iqRead hrs with ⟨-, rfl, rfl⟩ | ⟨hq, hrs⟩
      · -- The queue is empty: wait for a byte or for the timeout.
        refine ⟨hv ▸ hok, ?_⟩
        rw [if_pos rfl]
        show Rounds pastStrbuf _ Q (serialView s)
        rw [hv]
        refine rounds_bind (rounds_act fun s r s' hv hok hrs => ?_)
        rcases Sys.exec_iqWake hrs with ⟨-, hrs⟩ | ⟨-, -, -, rfl, rfl⟩
        · obtain ⟨rfl, rfl⟩ := Prod.mk.inj hrs
          rw [serialView_iqTake hv n]
          exact htaken s hok
        · have hview : serialView { s.observe .serial (.received []) with
              sd2 := { s.sd2 with qWaiting := .idle } } = v.deliver d := by
            rw [← hv]
            ext1
            · rfl
            · rfl
            · rfl
            · rfl
            · show progress (Function.update s.log .serial (.received [] ::
                s.log .serial) .serial) = _
              rw [Function.update_self, progress]
              simp [Progress.entry, serialView]
          rw [hview]
          exact ⟨hok, hQ d (by omega)⟩
      · obtain ⟨hr, hs'⟩ := Prod.mk.inj hrs
        have hview := (congrArg serialView hs').trans (serialView_iqTake hv n)
        have hr : r = (s.sd2.iqueue.take n).length := hr
        rw [hview, hr]
        have hsome : (s.sd2.iqueue.take n).length ≠ 0 := by
          have hpos := List.length_pos_iff.mpr hq
          rw [List.length_take]
          omega
        rw [if_neg hsome]
        exact htaken s hok

/-- The view when an iteration has begun. -/
def SerialView.reading (v : SerialView) : SerialView := v.entry (.began .serialRead : Obs F)

/-- A read delivers some bytes, as many as it returns. -/
theorem rounds_serialRead {Q : Nat → SerialView → Prop}
    (hQ : ∀ d : List UInt8, d.length ≤ SERIAL_BUFFER_SIZE →
      Q d.length ((v.reading (F := F)).deliver d)) :
    Rounds pastStrbuf (serialRead (F := F)) Q v := by
  have hreading : v.Ok pastStrbuf → (v.reading (F := F)).Ok pastStrbuf := by
    intro hok
    refine ⟨hok.chained, hok.count, fun _ => ⟨Nat.zero_le _, ?_⟩⟩
    intro mem hmem
    cases hmem
  refine rounds_bind (rounds_note hreading ?_)
  refine rounds_bind (rounds_bind ?_)
  have hlock : (chMtxLock (F := F) .mtprint).All (Within { locks := [.mtprint] }) := by
    simp [chMtxLock, perform, Within]
  refine rounds_apart (by decide) hlock fun _ => rounds_bind ?_
  show Rounds pastStrbuf (iqReadRounds (TIME_MS2I 50) SERIAL_BUFFER_SIZE 0 SERIAL_BUFFER_SIZE) _
    ((v.reading (F := F)).deliver [])
  refine rounds_iqReadRounds rfl (fun d hd => ?_) SERIAL_BUFFER_SIZE [] SERIAL_BUFFER_SIZE rfl
  have hunlock : (chMtxUnlock (F := F) .mtprint).All (Within { locks := [.mtprint] }) := by
    simp [chMtxUnlock, perform, Within]
  refine rounds_bind (rounds_apart (by decide) hunlock fun _ => rounds_pure ?_)
  refine rounds_bind (rounds_note (fun hok => ⟨hok.chained, hok.count, hok.takesIn⟩) ?_)
  exact rounds_pure (hQ d hd)

/-! ### `commad_check` -/

/-- The view when `commad_check` has handled `mem`. -/
def SerialView.handle (v : SerialView) (mem : List UInt8) : SerialView :=
  { v with
    readEnable := switchedBy (commandOf mem) v.readEnable
    progress := { v.progress with now := { v.progress.now with
      handled := some mem
      enabled := switchedBy (commandOf mem) v.progress.now.enabled } } }

/-- `cmdstr` and `cmdstp`. -/
theorem rounds_control [CFloat F] {c : Command} {text : String} {b : Bool}
    {Q : Unit → SerialView → Prop}
    (hc : c.exec = (do
      serialPrint (F := F) (.text text)
      serialSetControl b
      chMtxLock .serialcomm
      setSer fun _ c => { c with readEnable := b }
      chMtxUnlock .serialcomm))
    (hout : v.progress.output = false) (hQ : Q () { v with readEnable := b }) :
    Rounds pastStrbuf (c.exec (F := F)) Q v := by
  rw [hc]
  refine rounds_bind (rounds_apart (by decide) (within_serialPrint_text text) fun _ => ?_)
  refine rounds_bind (rounds_apart (by decide) (within_serialSetControl b) fun _ => ?_)
  have hlock : (chMtxLock (F := F) .serialcomm).All (Within { locks := [.serialcomm] }) := by
    simp [chMtxLock, perform, Within]
  have hunlock : (chMtxUnlock (F := F) .serialcomm).All (Within { locks := [.serialcomm] }) := by
    simp [chMtxUnlock, perform, Within]
  refine rounds_bind (rounds_within (by decide) hlock (fun _ => hout) fun _ => ?_)
  refine rounds_bind (rounds_setEnable b ?_)
  exact rounds_within (by decide) hunlock (fun _ => hout) fun _ => hQ

/-- Of the commands only start and stop show in the view. -/
theorem rounds_exec [CFloat F] (c : Command) {Q : Unit → SerialView → Prop}
    (hout : v.progress.output = false)
    (hQ : Q () { v with readEnable := switchedBy (some c) v.readEnable }) :
    Rounds pastStrbuf (c.exec (F := F)) Q v := by
  cases c with
  | start => exact rounds_control rfl hout hQ
  | stop => exact rounds_control rfl hout hQ
  | redg => exact rounds_within (by decide) within_redg (fun _ => hout) fun _ => hQ
  | regs => exact rounds_within (by decide) within_regs (fun _ => hout) fun _ => hQ
  | range r => exact rounds_within (by decide) (within_range r) (fun _ => hout) fun _ => hQ

/-- `commad_check` switches as its string says. -/
theorem rounds_commadCheck [CFloat F] {mem : List UInt8} {Q : Unit → SerialView → Prop}
    (hout : v.progress.output = false)
    (hin : TakesIn pastStrbuf { v.progress.now with handled := some mem } v.progress.rounds)
    (hQ : Q () (v.handle mem)) : Rounds pastStrbuf (commadCheck (F := F) mem) Q v := by
  rw [commadCheck_eq]
  have hbegan : v.Ok pastStrbuf → (v.entry (.began (.commadCheck mem) : Obs F)).Ok pastStrbuf :=
    fun hok => ⟨hok.chained, hok.count, fun _ => ⟨hin.length, hin.handled⟩⟩
  refine rounds_bind (rounds_note hbegan (rounds_bind ?_))
  -- The last entry of the call says nothing new.
  have hend : ∀ w : SerialView, Q () w →
      Rounds pastStrbuf (note (F := F) fun _ => .returned (.commadCheck mem)) Q w :=
    fun w hw => rounds_note (fun hok => ⟨hok.chained, hok.count, hok.takesIn⟩) hw
  cases hcmd : commandOf mem with
  | none =>
      refine rounds_apart (by decide) (within_unknownCommand mem) fun _ => hend _ ?_
      have hview : v.entry (.began (.commadCheck mem) : Obs F) = v.handle mem := by
        rw [SerialView.entry, SerialView.handle, Progress.entry, hcmd]
        rfl
      rw [hview]
      exact hQ
  | some c =>
      refine rounds_exec c hout (hend _ ?_)
      have hview : { v.entry (.began (.commadCheck mem) : Obs F) with
          readEnable := switchedBy (some c) v.readEnable } = v.handle mem := by
        rw [SerialView.entry, SerialView.handle, Progress.entry, hcmd]
      exact hview ▸ hQ

/-! ### The output section -/

/-- The view when a line of the report has been printed. -/
def SerialView.printed (v : SerialView) : SerialView :=
  { v with progress := { v.progress with now := { v.progress.now with reported := true } } }

/-- One line of a report. -/
theorem rounds_line {a : Axis} {get : SerC F → F} {f : Unit → Prog F β}
    {Q : β → SerialView → Prop} (hQ : Rounds pastStrbuf (f ()) Q v.printed) :
    Rounds pastStrbuf (do let c ← getSer; chprintf (.axis a (get c)) >>= f) Q v := by
  refine rounds_bind (rounds_getSer fun c _ _ _ => rounds_bind ?_)
  refine rounds_chprintf (fun hok => ⟨hok.chained, hok.count, fun hgoing => ?_⟩) hQ
  exact ⟨(hok.takesIn hgoing).length, (hok.takesIn hgoing).handled⟩

/-- A report prints its lines and clears the count. -/
theorem rounds_report {Q : Unit → SerialView → Prop}
    (hQ : Q () { v.printed with rdCount := 0 }) : Rounds pastStrbuf (report (F := F)) Q v := by
  have hreset : Rounds pastStrbuf (setSer (F := F) fun _ c => { c with rdCount := 0 }) Q
      v.printed :=
    rounds_setCount (fun _ => 0) (fun hok => ⟨hok.chained, .inl rfl, hok.takesIn⟩) hQ
  refine rounds_bind (rounds_getSer fun c _ _ _ => ?_)
  by_cases hoption : c.readOption = 1
  · rw [if_pos hoption]
    have hgetter : (serialReadAccaxisD (F := F) (fun v c => { c with axisX := v })
        (fun v c => { c with axisY := v })).All
          (Within { locks := [.mpu], serAxes := true, getters := true }) := by
      simp [serialReadAccaxisD, call, setSer, note, chMtxLock, chMtxUnlock, perform, Within,
        Footprint.ser_iff, Footprint.notes, Footprint.calls]
    refine rounds_bind (rounds_apart (by decide) hgetter fun _ => ?_)
    exact rounds_line (rounds_line hreset)
  · rw [if_neg hoption]
    have hgetter : (serialReadAccaxisG (F := F) (fun v c => { c with axisX := v })
        (fun v c => { c with axisY := v }) (fun v c => { c with axisZ := v })).All
          (Within { serAxes := true, getters := true }) := by
      simp [serialReadAccaxisG, call, setSer, note, perform, Within, Footprint.ser_iff,
        Footprint.notes, Footprint.calls]
    refine rounds_bind (rounds_apart (by decide) hgetter fun _ => ?_)
    exact rounds_line (rounds_line (rounds_line hreset))

/-- The view when the output section is over, `reported` or not. -/
def SerialView.over (v : SerialView) (reported : Bool) : SerialView :=
  let r := { v.progress.now with reported := reported }
  { v with
    rdCount := countOut r v.rdCount
    progress := { rounds := r :: v.progress.rounds, now := r, going := false, output := false } }

/-- Taking a mutex, also between the flush and the end of the output section. -/
theorem rounds_chMtxLock (m : Mtx) {Q : Unit → SerialView → Prop} (hQ : Q () v) :
    Rounds pastStrbuf (chMtxLock (F := F) m) Q v := by
  refine rounds_bind (rounds_step (w := v) (fun s r s' hv hrs => ?_) id fun _ => ?_)
  · rw [Sys.exec_mtxLock hrs]
    exact hv
  · refine rounds_step (fun s r s' hv hrs => ?_) id fun _ => hQ
    obtain ⟨k, -, rfl⟩ := Sys.exec_mtxResume hrs
    exact hv

/-- The output section reports when it should, and ends the round. -/
theorem rounds_outputSection (reported : Bool) {Q : Unit → SerialView → Prop}
    (hr : reported = (v.readEnable && decide (v.rdCount > SERIAL_COUNTER_LIMIT)))
    (hout : v.progress.output = true) (hnow : v.progress.now.reported = false)
    (hok : (v.over reported).Ok pastStrbuf) (hQ : Q () (v.over reported)) :
    Rounds pastStrbuf (outputSection (F := F)) Q v := by
  -- What the unlock does to the view, whether or not there was a report.
  have hleave : ∀ w : SerialView, w.progress.output = true → w.readEnable = v.readEnable →
      w.strbuf = v.strbuf → w.pastStrbuf = v.pastStrbuf → w.rdCount = (v.over reported).rdCount →
      w.progress.rounds = v.progress.rounds →
      w.progress.now = { v.progress.now with reported := reported } →
      ∀ top, w.entry (.unlocked .serialcomm top : Obs F) = v.over reported := by
    intro w hwout hen hbuf hpast hcount hrounds hnow top
    rw [SerialView.entry, Progress.entry, if_pos hwout, hrounds, hnow]
    ext1
    · exact hen
    · exact hbuf
    · exact hpast
    · exact hcount
    · rfl
  refine rounds_bind (rounds_chMtxLock .serialcomm (rounds_bind (rounds_getSer ?_)))
  intro c hen hcount _
  rw [hen, hcount, ← hr]
  cases hrep : reported with
  | false =>
      rw [if_neg (by decide)]
      subst hrep
      refine rounds_leave (hleave v hout rfl rfl rfl rfl rfl ?_) (fun _ => hok) hQ
      rw [← hnow]
  | true =>
      rw [if_pos rfl]
      subst hrep
      refine rounds_bind (rounds_report ?_)
      exact rounds_leave (hleave _ hout rfl rfl rfl rfl rfl rfl) (fun _ => hok) hQ

/-! ### The loop -/

/-- The view between two iterations. -/
def headView (pastStrbuf : List UInt8) (rs : List Round) (now : Round) : SerialView where
  readEnable := enabledAfter rs
  strbuf := bufferAfter rs
  pastStrbuf := pastStrbuf
  rdCount := countAfter rs
  progress := { rounds := rs, now := now, going := false, output := false }

/-- What holds between two iterations. -/
def AtHead (pastStrbuf : List UInt8) (v : SerialView) : Prop :=
  ∃ rs now, now.enabled = enabledAfter rs ∧ Chained pastStrbuf rs ∧ v = headView pastStrbuf rs now

/-- The iteration that reads `d`. -/
def roundOf (pastStrbuf : List UInt8) (rs : List Round) (d : List UInt8) : Round :=
  let handled := if d = [] then none
    else some (List.ofFn ((bufferAfter rs).write 0 d) ++ pastStrbuf)
  let enabled := switchedBy (handled.bind commandOf) (enabledAfter rs)
  { delivered := d
    handled := handled
    enabled := enabled
    reported := enabled && decide (countAfter rs > SERIAL_COUNTER_LIMIT) }

/-- The round that a read makes follows the ones before. -/
theorem follows_roundOf {rs : List Round} {d : List UInt8} (h : d.length ≤ SERIAL_BUFFER_SIZE) :
    Follows pastStrbuf (roundOf pastStrbuf rs d) rs :=
  ⟨h, rfl, rfl, rfl⟩

/-- The second half of the loop body, when the first has dealt with the input. -/
theorem rounds_tail {rs : List Round} {d : List UInt8} (hd : d.length ≤ SERIAL_BUFFER_SIZE)
    (hrs : Chained pastStrbuf rs) :
    Rounds pastStrbuf (do
      iqResetI (F := F)
      outputSection
      setSer fun _ c => { c with rdCount := wrap32 (c.rdCount + 1) }
      chThdSleepMilliseconds 100) (fun _ => AtHead pastStrbuf)
      { readEnable := (roundOf pastStrbuf rs d).enabled
        strbuf := (bufferAfter rs).write 0 d
        pastStrbuf := pastStrbuf
        rdCount := countAfter rs
        progress :=
          { rounds := rs
            now := { roundOf pastStrbuf rs d with reported := false }
            going := true
            output := false } } := by
  have hchained : Chained pastStrbuf (roundOf pastStrbuf rs d :: rs) := ⟨follows_roundOf hd, hrs⟩
  refine rounds_bind (rounds_iqResetI (fun hok => ⟨hok.chained, hok.count, hok.takesIn⟩) ?_)
  refine rounds_bind ?_
  refine rounds_outputSection (roundOf pastStrbuf rs d).reported rfl rfl rfl ?_ ?_
  · refine ⟨hchained, ?_, fun hgoing => absurd hgoing Bool.false_ne_true⟩
    by_cases hreport : (roundOf pastStrbuf rs d).reported = true
    · exact .inl (if_pos hreport)
    · exact .inr (.inr (if_neg hreport))
  have hsleep : (chThdSleepMilliseconds (F := F) 100).All (Within {}) := by
    simp [chThdSleepMilliseconds, perform, Within]
  refine rounds_bind (rounds_setCount (fun n => wrap32 (n + 1)) ?_ ?_)
  · exact fun hok => ⟨hchained, .inr (.inl rfl), hok.takesIn⟩
  · exact rounds_apart (by decide) hsleep fun _ => ⟨_, _, rfl, hchained, rfl⟩

/-- One iteration. -/
theorem rounds_serialcommThread [CFloat F] (h : AtHead pastStrbuf v) :
    Rounds pastStrbuf (serialcommThread (F := F)) (fun _ => AtHead pastStrbuf) v := by
  obtain ⟨rs, now, hnow, hrs, rfl⟩ := h
  refine rounds_bind (rounds_serialRead fun d hd => ?_)
  have htail := rounds_tail (F := F) hd hrs
  by_cases hempty : d = []
  · -- Nothing came: no command, and the round is what it was.
    subst hempty
    rw [if_neg (by decide)]
    have hround : { roundOf pastStrbuf rs [] with reported := false } =
        (⟨[], none, now.enabled, false⟩ : Round) := by
      rw [hnow]
      rfl
    rw [hround] at htail
    exact htail
  · have hlen : d.length ≠ 0 := fun h0 => hempty (List.length_eq_zero_iff.mp h0)
    rw [if_pos hlen]
    refine rounds_bind (rounds_getSer fun c _ _ hmem => rounds_bind ?_)
    rw [hmem]
    have hin : ∀ mem', some (List.ofFn ((bufferAfter rs).write 0 d) ++ pastStrbuf) = some mem' →
        d ≠ [] ∧ mem' = List.ofFn ((bufferAfter rs).write 0 d) ++ pastStrbuf :=
      fun mem' hmem' => ⟨hempty, (Option.some.inj hmem').symm⟩
    refine rounds_commadCheck rfl ⟨hd, hin⟩ ?_
    generalize hm : List.ofFn ((bufferAfter rs).write 0 d) ++ pastStrbuf = mem
    have hround : { roundOf pastStrbuf rs d with reported := false } =
        (⟨d, some mem, switchedBy (commandOf mem) now.enabled, false⟩ : Round) := by
      rw [roundOf, if_neg hempty, hm, hnow]
      rfl
    have henabled : (roundOf pastStrbuf rs d).enabled =
        switchedBy (commandOf mem) (enabledAfter rs) := by
      rw [roundOf, if_neg hempty, hm]
      rfl
    rw [hround, henabled] at htail
    subst hm
    exact htail

/-! ### All threads -/

/-- The actions of the start-up do not show in the view. -/
theorem serialView_startup {t : Tid} {a : Act F} (ha : a.startup = true) {s s' : Sys F}
    {r : a.Ans} (h : s.exec t a = some (r, s')) : serialView s' = serialView s := by
  cases a with
  | mtxInit m =>
      rw [Sys.exec_mtxInit h]
      rfl
  | thdCreate u =>
      rw [Sys.exec_thdCreate h]
      rfl
  | i2cStart =>
      rw [Sys.exec_i2cStart h]
      rfl
  | sdStart =>
      rw [Sys.exec_sdStart h]
      rfl
  | _ => cases ha

/-- What other threads run leaves the serial thread's view alone. -/
theorem rounds_elsewhere {t : Tid} (ht : t ≠ .serial) {A : Footprint} (hA : A.silent = true)
    {p : Prog F α} (hp : p.All A.Allows) : (roundsOutline F pastStrbuf).Triple t (fun _ => True) p
    fun _ _ => True := by
  refine Triple.of_all hp fun a ha s hs _ => ⟨trivial, fun r s' hrs => ⟨?_, trivial⟩⟩
  have hsame : serialView s' = serialView s := by
    rcases ha with hstart | hwithin
    · exact serialView_startup hstart hrs
    · exact serialView_silent hA hwithin hrs fun hserial => absurd hserial ht
  refine ⟨?_, trivial, fun u _ => ?_⟩
  · show (serialView s').Ok pastStrbuf
    rw [hsame]
    exact hs
  · cases u with
    | main => rfl
    | serial => exact hsame
    | mpu => rfl

/-- What a thread's view satisfies between two iterations of its loop. -/
def RoundsHead (pastStrbuf : List UInt8) (t : Tid) (v : (roundsOutline F pastStrbuf).View t) :
    Prop :=
  match t with
  | .serial => AtHead pastStrbuf v
  | .main => True
  | .mpu => True

/-- Each loop leads from the head of a round to the head of the next. -/
theorem rounds_loop [CFloat F] (t : Tid) : (roundsOutline F pastStrbuf).Triple t
    (RoundsHead pastStrbuf t) (loop t) fun _ => RoundsHead pastStrbuf t := by
  cases t with
  | main =>
      have hsleep : (chThdSleepMilliseconds (F := F) 1000).All (Footprint.Allows {}) :=
        Threads.Prog.all_perform (.inr trivial)
      exact rounds_elsewhere (by decide) (by decide) hsleep
  | serial => exact fun v hv => rounds_serialcommThread hv
  | mpu =>
      have hall : (mpumThread (F := F)).All Footprint.mpuThread.Allows :=
        allows_of_within (by decide) within_mpumThread
      exact rounds_elsewhere (by decide) (by decide) hall

/-- Each setup leads to the head of the first round. -/
theorem rounds_setup [CFloat F] (t : Tid) : (roundsOutline F pastStrbuf).Triple t
    (RoundsHead pastStrbuf t) (setup t) fun _ => RoundsHead pastStrbuf t := by
  cases t with
  | main => exact rounds_elsewhere (by decide) (by decide) allows_setup
  | serial =>
      intro v hv
      refine rounds_bind (rounds_step (w := v) (fun s r s' hs hrs => ?_) id fun _ => ?_)
      · rw [serialView_startup rfl hrs]
        exact hs
      · have hsleep : (chThdSleepMilliseconds (F := F) 100).All (Within {}) := by
          simp [chThdSleepMilliseconds, perform, Within]
        exact rounds_apart (by decide) hsleep fun _ => hv
  | mpu => exact fun v hv => hv

/-- The surroundings do not show in the view. -/
theorem rounds_env : (roundsOutline F pastStrbuf).EnvOk := by
  intro e s s' hs he
  have hsame : serialView s' = serialView s := by
    cases e <;> cases he <;> rfl
  refine ⟨?_, fun t => ?_⟩
  · show (serialView s').Ok pastStrbuf
    rw [hsame]
    exact hs
  · cases t with
    | main => rfl
    | serial => exact hsame
    | mpu => rfl

/-- In every state of every run of the firmware the rounds are chained, and
`rd_count` is what they make it. -/
theorem rounds_of_reaches [CFloat F] {results : Tid → Nat → I2CResult} {regs : UInt8 → UInt8}
    {c : Config (sig F) Tid (Sys F)}
    (h : Reaches (machine F) loop (bootConfig results regs pastStrbuf) c) :
    (serialView c.st).Ok pastStrbuf := by
  have hboot : (roundsOutline F pastStrbuf).Ok (fun t => RoundsHead pastStrbuf t)
      (bootConfig results regs pastStrbuf) := by
    refine ⟨⟨trivial, .inl rfl, fun hgoing => absurd hgoing Bool.false_ne_true⟩, fun t => ?_⟩
    refine rounds_setup t _ ?_
    cases t with
    | main => trivial
    | serial => exact ⟨[], Progress.start.now, rfl, trivial, rfl⟩
    | mpu => trivial
  exact (hboot.reaches rounds_loop rounds_env h).inv

end MotionTracking
