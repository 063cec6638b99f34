import MotionTracking.Firmware.MpuRun
import MotionTracking.Proofs.Discipline

/-!
# `MotionTracking.Proofs.Publishing`: what the published values of a run are read from

`all_or_nothing_iff` is about one call of `mpu_acc_update`. Here the calls are put
together to runs of all three threads. `Obs.publications` reads from the MPU thread's
log what each update has published, and what the reads of that update returned.

`published_whole_iff`: in every run, the published values were always read by three
successful reads of one update, exactly when every update that published had no failed
read beside a successful one.

A read returns what its last transfer returned. The outline `disciplined` knows this,
because the thread has the bus. `recording` adds what the log says, which only the
thread itself changes.
-/

set_option autoImplicit false

namespace MotionTracking

open Threads (Machine Outline Reaches Config)
open Threads.Outline (Sat)
open Threads.Prog (perform)

variable {F α : Type}

namespace Obs

/-- What the latest transfer has returned. -/
def lastMsg : List (Obs F) → Msg
  | [] => .MSG_OK
  | .transfer _ msg :: _ => msg
  | _ :: l => lastMsg l

/-- What the axis reads have returned since `mpu_acc_update` was called, newest first.
A read returns what its last transfer returns. -/
def readResults : List (Obs F) → List Msg
  | [] => []
  | .began .mpuAccUpdate :: _ => []
  | .returned (.mpuReadAccAxis _) :: l => lastMsg l :: readResults l
  | _ :: l => readResults l

/-- What was published, newest first, each with the results of the reads of its update. -/
def publications : List (Obs F) → List (Published F × List Msg)
  | [] => []
  | .published p :: l => (p, readResults l) :: publications l
  | _ :: l => publications l

/-- Every update that has published had made three reads, and one of them has succeeded. -/
def Backed (l : List (Obs F)) : Prop :=
  ∀ u ∈ publications l, u.2.length = 3 ∧ .MSG_OK ∈ u.2

end Obs

/-! ### The log of the MPU thread -/

/-- What the MPU thread's log and its results to come say about the reads. -/
@[ext]
structure Record where
  results : Nat → I2CResult
  last : Msg
  reads : List Msg

/-- The record that a state of the MPU thread's log makes. -/
def record (s : Sys F) : Record where
  results := s.results .mpu
  last := Obs.lastMsg (s.log .mpu)
  reads := Obs.readResults (s.log .mpu)

/-- The outline over the record. Only the MPU thread has one. -/
def recording (F : Type) : Outline (initMachine F) where
  View _ := Option Record
  view t s := if t = .mpu then some (record s) else none
  inv s := Obs.Backed (s.log .mpu)
  safe _ _ _ := True
  guar _ _ _ _ _ := True

/-- The other threads change nothing of it. -/
theorem recording_other {t : Tid} (ht : t ≠ .mpu) (p : Prog F α) :
    (recording F).Sat t p (fun _ w => w = none) none := by
  induction p with
  | ret x => rfl
  | act a k ih =>
      intro s hs _
      refine ⟨trivial, fun r s' hrs => ?_⟩
      obtain ⟨-, hexec⟩ := initMachine_exec.mp hrs
      obtain ⟨hlog, hresults⟩ := log_frame hexec (Ne.symm ht)
      refine ⟨⟨?_, trivial, fun u _ => ?_⟩, ?_⟩
      · show Obs.Backed (s'.log .mpu)
        rw [hlog]
        exact hs
      · simp only [recording, record, hlog, hresults]
      · rw [show (recording F).view t s' = none from if_neg ht]
        exact ih r

/-- One action of the MPU thread. -/
theorem recording_act {a : Act F} {k : a.Ans → Prog F α} {Q : α → Option Record → Prop}
    {w : Record}
    (h : ∀ s : Sys F, Obs.Backed (s.log .mpu) → record s = w → ∀ r s',
      s.exec .mpu a = some (r, s') → Obs.Backed (s'.log .mpu) ∧
        (recording F).Sat .mpu (k r) Q (some (record s'))) :
    (recording F).Sat .mpu (.act a k) Q (some w) := by
  intro s hs hw
  refine ⟨trivial, fun r s' hrs => ?_⟩
  obtain ⟨-, hexec⟩ := initMachine_exec.mp hrs
  obtain ⟨hbacked, hrest⟩ := h s hs (Option.some.inj hw) r s' hexec
  refine ⟨⟨hbacked, trivial, fun u hu => ?_⟩, hrest⟩
  simp only [recording, if_neg hu]

/-! ### Code without an entry in the record -/

/-- The entry is no part of the record. -/
def Obs.silent : Obs F → Bool
  | .transfer _ _ => false
  | .published _ => false
  | .began .mpuAccUpdate => false
  | .returned (.mpuReadAccAxis _) => false
  | _ => true

/-- The action makes no entry in the record. -/
def Act.Silent : Act F → Prop
  | .i2cTransfer _ _ _ => False
  | .note ev => ∀ c, (ev c).silent = true
  | _ => True

/-- A silent entry changes none of the three readings of the log. -/
theorem Obs.silent_cons {ev : Obs F} (h : ev.silent = true) (l : List (Obs F)) :
    lastMsg (ev :: l) = lastMsg l ∧ readResults (ev :: l) = readResults l ∧
      publications (ev :: l) = publications l := by
  cases ev with
  | began f => cases f <;> first | exact ⟨rfl, rfl, rfl⟩ | cases h
  | returned f => cases f <;> first | exact ⟨rfl, rfl, rfl⟩ | cases h
  | transfer bytes msg => cases h
  | published p => cases h
  | _ => exact ⟨rfl, rfl, rfl⟩

/-- The entries of a silent action are silent. -/
theorem Act.Silent.entry {a : Act F} {ev : Obs F} (ha : a.Silent) (hev : a.Entry ev) :
    ev.silent = true := by
  cases a with
  | note f =>
      obtain ⟨c, rfl⟩ := hev
      exact ha c
  | mtxUnlock m =>
      obtain ⟨top, rfl⟩ := hev
      rfl
  | sdOut o =>
      obtain rfl : ev = .printed o := hev
      rfl
  | iqRead off n timeout =>
      obtain ⟨bytes, rfl⟩ := hev
      rfl
  | iqWake off n =>
      obtain ⟨bytes, rfl⟩ := hev
      rfl
  | iqReset =>
      obtain rfl : ev = .flushed := hev
      rfl
  | i2cTransfer addr txbytes rxbytes => exact ha.elim
  | _ => exact hev.elim

/-- A silent action leaves the record. -/
theorem record_of_silent {a : Act F} {s s' : Sys F} {r : a.Ans} (ha : a.Silent)
    (h : s.exec .mpu a = some (r, s')) : record s' = record s ∧
      (Obs.Backed (s.log .mpu) → Obs.Backed (s'.log .mpu)) := by
  have hresults : s'.results = s.results := by
    rcases Sys.exec_results h with hsame | ⟨⟨addr, n, m, rfl⟩, -⟩
    · exact hsame
    · exact ha.elim
  rcases Sys.exec_log h with hlog | ⟨ev, hev, hlog⟩
  · rw [record, hlog, hresults]
    exact ⟨rfl, id⟩
  · obtain ⟨hlast, hreads, hpub⟩ := Obs.silent_cons (ha.entry hev) (s.log .mpu)
    rw [record, hlog, hresults, Function.update_self, hlast, hreads]
    refine ⟨rfl, fun h => ?_⟩
    rw [Obs.Backed, hpub]
    exact h

/-- So does code without other actions. -/
theorem recording_silent {p : Prog F α} (hp : p.All Act.Silent) (w : Record) :
    (recording F).Sat .mpu p (fun _ u => u = some w) (some w) := by
  induction p with
  | ret x => rfl
  | act a k ih =>
      refine recording_act fun s hs hw r s' hrs => ?_
      obtain ⟨hrecord, hbacked⟩ := record_of_silent hp.1 hrs
      rw [hrecord, hw]
      exact ⟨hbacked hs, ih r (hp.2 r)⟩

/-- A transfer. -/
theorem recording_i2cTransfer {addr : UInt8} {txbytes rxbytes : Nat} (w : Record) :
    (recording F).Sat .mpu (perform (S := sig F) (.i2cTransfer addr txbytes rxbytes))
      (fun _ u => u = some ⟨fun k => w.results (k + 1), (w.results 0).msg, w.reads⟩) (some w) := by
  refine recording_act fun s hs hw r s' hrs => ?_
  subst hw
  rw [Sys.exec_i2cTransfer hrs]
  have hlog : (s.transfer .mpu txbytes rxbytes).log .mpu =
      .transfer ((List.ofFn s.mpu.txbuf).take txbytes) (s.results .mpu 0).msg :: s.log .mpu := by
    simp [Sys.transfer]
  refine ⟨?_, congrArg some ?_⟩
  · rw [hlog]
    exact hs
  · ext1
    · simp [record, Sys.transfer]
    · simp only [record, hlog, Obs.lastMsg]
    · simp only [record, hlog, Obs.readResults]

/-- A transfer uses up a result, which becomes the latest message. -/
theorem recording_i2c1Transmit {addr : UInt8} {txsize rxsize timeout : Nat} (w : Record) :
    (recording F).Sat .mpu (i2c1Transmit addr txsize rxsize timeout)
      (fun _ u => u = some ⟨fun k => w.results (k + 1), (w.results 0).msg, w.reads⟩) (some w) := by
  have hsilent : ∀ {β : Type} {p : Prog F β}, p.All Act.Silent → ∀ w' : Record,
      (recording F).Triple .mpu (· = some w') p fun _ u => u = some w' := by
    rintro β p hp w' _ rfl
    exact recording_silent hp w'
  have hlock : (i2cAcquireBus (F := F)).All Act.Silent := by
    simp [i2cAcquireBus, chMtxLock, perform, Act.Silent]
  have hbegin : (perform (S := sig F) .i2cBegin).All Act.Silent := Threads.Prog.all_perform trivial
  have htransfer : (recording F).Triple .mpu (· = some w)
      (perform (S := sig F) (.i2cTransfer addr txsize rxsize)) fun _ u =>
        u = some ⟨fun k => w.results (k + 1), (w.results 0).msg, w.reads⟩ := by
    rintro _ rfl
    exact recording_i2cTransfer w
  have hrest : ∀ res : Msg, (do i2cReleaseBus; return res : Prog F Msg).All Act.Silent := by
    intro res
    simp [i2cReleaseBus, chMtxUnlock, perform, Act.Silent]
  have hend : (perform (S := sig F) .i2cEnd).All Act.Silent := Threads.Prog.all_perform trivial
  have hall := (hsilent hlock w).bind fun _ =>
    -- Only the transfer in the middle touches the record.
    (((hsilent hbegin w).bind fun _ => htransfer.bind fun _ => hsilent hend _).bind
      fun res => hsilent (hrest res) _)
  exact hall _ rfl

/-! ### Both outlines -/

/-- The rules of the mutexes, without demands on their order and on the driver. -/
def rulesOnly : Demands := ⟨False, False⟩

/-- The rules of the mutexes, and the record. -/
def publishing (F : Type) : Outline (initMachine F) :=
  (disciplined F rulesOnly).prod (recording F)

/-- The view of the MPU thread. The two parts agree on the results to come. -/
def bothViews (v : LockView) (last : Msg) (reads : List Msg) : LockView × Option Record :=
  (v, some ⟨v.results, last, reads⟩)

/-- What a thread knows at the head of its loop. -/
def BothAtLoop (t : Tid) (u : LockView × Option Record) : Prop :=
  AtLoop rulesOnly t u.1 ∧
    match t with
    | .mpu => ∃ last reads, u.2 = some ⟨u.1.results, last, reads⟩
    | _ => u.2 = none

section
variable {v : LockView} {last : Msg} {reads : List Msg}

/-- Code of the MPU thread without an entry in the record. -/
theorem publishing_silent {p : Prog F α} {Q : α → LockView × Option Record → Prop}
    (hp : p.All Act.Silent)
    (h : Locks (initMachine F) .mpu rulesOnly p
      (fun x w => Q x (w, some ⟨v.results, last, reads⟩)) v) :
    (publishing F).Sat .mpu p Q (bothViews v last reads) := by
  refine ((locks_disciplined h).prod (recording_silent hp _)).mono ?_
  rintro x ⟨w, _⟩ ⟨hQ, rfl⟩
  exact hQ

/-- A transfer of the MPU thread returns what the record then has last. -/
theorem publishing_i2c1Transmit {addr : UInt8} {txsize rxsize timeout : Nat}
    {Q : Msg → LockView × Option Record → Prop} (hv : v.Running)
    (hQ : Q (v.results 0).msg (bothViews (v.drop 1) (v.results 0).msg reads)) :
    (publishing F).Sat .mpu (i2c1Transmit addr txsize rxsize timeout) Q
      (bothViews v last reads) := by
  have hlocks : Locks (initMachine F) .mpu rulesOnly
      (i2c1Transmit addr txsize rxsize timeout)
      (fun x w => x = (v.results 0).msg ∧ w = v.drop 1) v :=
    locks_i2c1Transmit hv False.elim ⟨rfl, rfl⟩
  refine ((locks_disciplined hlocks).prod (recording_i2c1Transmit _)).mono ?_
  rintro x ⟨w, _⟩ ⟨⟨rfl, rfl⟩, rfl⟩
  exact hQ

/-- An entry of the MPU thread for `mpu_read_acc_axis` or `mpu_acc_update`. -/
theorem publishing_note {ev : MpuC F → Obs F} {Q : Unit → LockView × Option Record → Prop}
    {reads' : List Msg} (hv : v.Running) (hquiet : Quiet (F := F) (.note ev))
    (hlast : ∀ c l, Obs.lastMsg (ev c :: l) = Obs.lastMsg l)
    (hreads : ∀ c l, Obs.lastMsg l = last → Obs.readResults l = reads →
      Obs.readResults (ev c :: l) = reads')
    (hbacked : ∀ c l, Obs.readResults l = reads → Obs.Backed l → Obs.Backed (ev c :: l))
    (hQ : Q () (bothViews v last reads')) :
    (publishing F).Sat .mpu (note ev) Q (bothViews v last reads) := by
  have hlocks : Locks (initMachine F) .mpu rulesOnly (note ev) (fun _ w => w = v) v :=
    locks_quiet (Threads.Prog.all_perform hquiet) hv fun _ => rfl
  have hrecord : (recording F).Sat .mpu (note ev)
      (fun _ u => u = some ⟨v.results, last, reads'⟩) (some ⟨v.results, last, reads⟩) := by
    refine recording_act fun s hs hw r s' hrs => ?_
    obtain ⟨hres, hl, hr⟩ := Record.mk.inj hw
    rw [Sys.exec_note hrs]
    have hlog : (s.observe .mpu (ev s.mpu)).log .mpu = ev s.mpu :: s.log .mpu := by
      simp [Sys.observe]
    refine ⟨?_, congrArg some ?_⟩
    · rw [hlog]
      exact hbacked s.mpu _ hr hs
    · ext1
      · exact hres
      · simp only [record, hlog, hlast]
        exact hl
      · simp only [record, hlog]
        exact hreads s.mpu _ hl hr
  refine ((locks_disciplined hlocks).prod hrecord).mono fun _ u hu => ?_
  rw [show u = bothViews v last reads' from congrArg₂ Prod.mk hu.1 hu.2]
  exact hQ

/-- The rule for an assignment in `mpu.c`. -/
theorem publishing_setMpu {f : MpuC F → MpuC F} {Q : Unit → LockView × Option Record → Prop}
    (hv : v.Running) (hQ : Q () (bothViews v last reads)) :
    (publishing F).Sat .mpu (setMpu f) Q (bothViews v last reads) := by
  refine publishing_silent (Threads.Prog.all_perform trivial) ?_
  exact locks_quiet (Threads.Prog.all_perform trivial) hv fun _ => hQ

/-- The rule for reading the variables of `mpu.c`. -/
theorem publishing_getMpu {Q : MpuC F → LockView × Option Record → Prop} (hv : v.Running)
    (hQ : ∀ c, Q c (bothViews v last reads)) :
    (publishing F).Sat .mpu getMpu Q (bothViews v last reads) := by
  refine publishing_silent (Threads.Prog.all_perform trivial) ?_
  exact locks_quiet (Threads.Prog.all_perform trivial) hv hQ

/-- The result of a read is the newest in the record. -/
theorem publishing_mpuReadAccAxis {axis : AccAxis} {store : UInt16 → MpuC F → MpuC F}
    {Q : Msg → LockView × Option Record → Prop} (hv : v.Running)
    (hQ : ∀ res last' n, Q res (bothViews (v.drop n) last' (res :: reads))) :
    (publishing F).Sat .mpu (mpuReadAccAxis axis store) Q (bothViews v last reads) := by
  -- The last transfer has returned what the read is about to return.
  have hend : ∀ (res : Msg) (n : Nat), (publishing F).Sat .mpu (do
      note fun _ => .returned (.mpuReadAccAxis axis)
      return res) Q (bothViews (v.drop n) res reads) := by
    intro res n
    refine Sat.bind (publishing_note hv (fun _ _ => ⟨rfl, rfl⟩) (fun _ _ => rfl) ?_ ?_
      (hQ res res n))
    · rintro _ l rfl rfl
      rfl
    · intro _ l _ hl
      exact hl
  refine Sat.bind (publishing_note hv (fun _ _ => ⟨rfl, rfl⟩) (fun _ _ => rfl)
    (fun _ _ _ hr => hr) (fun _ _ _ hl => hl) ?_)
  refine Sat.bind (Sat.bind (publishing_setMpu hv ?_))
  refine Sat.bind (publishing_i2c1Transmit hv ?_)
  -- After a failed transfer the second one is not made.
  split
  · exact hend (v.results 0).msg 1
  · refine Sat.bind (publishing_getMpu hv fun _ => Sat.bind (publishing_setMpu hv ?_))
    refine Sat.bind (publishing_i2c1Transmit (v := v.drop 1) hv ?_)
    rw [LockView.drop_drop]
    split
    · exact hend ((v.drop 1).results 0).msg 2
    · rename_i hok
      refine Sat.bind (publishing_getMpu hv fun _ => Sat.bind (publishing_setMpu hv ?_))
      rw [not_not.mp hok]
      exact hend .MSG_OK 2

/-- An update publishes only after one of its three reads has succeeded. -/
theorem publishing_mpuAccUpdate [CFloat F] {Q : Bool → LockView × Option Record → Prop}
    (hv : v.Running) (hQ : ∀ b n last' reads', Q b (bothViews (v.drop n) last' reads')) :
    (publishing F).Sat .mpu mpuAccUpdate Q (bothViews v last reads) := by
  have hend : ∀ b n m l, (publishing F).Sat .mpu (do
      note fun _ => .returned .mpuAccUpdate
      return b) Q (bothViews (v.drop n) m l) := by
    intro b n m l
    exact Sat.bind (publishing_note (v := v.drop n) hv (fun _ _ => ⟨rfl, rfl⟩) (fun _ _ => rfl)
      (fun _ _ _ hr => hr) (fun _ _ _ hl => hl) (hQ b n m l))
  -- The reads are counted from here on.
  have hnone : ∀ l : List (Obs F), Obs.readResults (.began .mpuAccUpdate :: l) = [] := fun _ => rfl
  refine Sat.bind (publishing_note hv (fun _ _ => ⟨rfl, rfl⟩) (fun _ _ => rfl)
    (fun _ l _ _ => hnone l) (fun _ _ _ hl => hl) ?_)
  refine Sat.bind (Sat.bind (publishing_mpuReadAccAxis hv fun res₀ m₀ n₀ => ?_))
  refine Sat.bind (publishing_mpuReadAccAxis (v := v.drop n₀) hv fun res₁ m₁ n₁ => ?_)
  refine Sat.bind (publishing_mpuReadAccAxis (v := (v.drop n₀).drop n₁) hv fun res₂ m₂ n₂ => ?_)
  rw [LockView.drop_drop, LockView.drop_drop]
  -- The bitwise and of the three results is zero if one of them is.
  split
  · exact hend false _ _ _
  · rename_i hand
    have hsome := (code_and_eq_zero res₀ res₁ res₂).mp (not_not.mp hand)
    refine Sat.bind (publishing_setMpu hv (Sat.bind (publishing_setMpu hv ?_)))
    refine Sat.bind (publishing_setMpu hv (Sat.bind (publishing_setMpu hv ?_)))
    refine Sat.bind (publishing_getMpu hv fun _ => Sat.bind (publishing_getMpu hv fun _ => ?_))
    refine Sat.bind (publishing_setMpu hv (Sat.bind (publishing_getMpu hv fun _ => ?_)))
    refine Sat.bind (publishing_setMpu hv ?_)
    refine Sat.bind (publishing_note hv (fun _ _ => ⟨rfl, rfl⟩) (fun _ _ => rfl)
      (fun _ _ _ hr => hr) (fun c l hr hl => ?_) (hend true _ _ _))
    -- The entry of the update.
    refine List.forall_mem_cons.mpr ⟨?_, hl⟩
    rw [hr]
    refine ⟨rfl, ?_⟩
    rcases hsome with rfl | rfl | rfl
    · simp
    · simp
    · simp

/-- An iteration of the MPU thread leads back to the head of its loop. -/
theorem publishing_mpumThread [CFloat F] (hv : AtLoop rulesOnly .mpu v) :
    (publishing F).Sat .mpu mpumThread (fun _ => BothAtLoop .mpu) (bothViews v last reads) := by
  have hlock : ∀ Q : Unit → LockView × Option Record → Prop,
      (v.kern.held .mpu = none → Q () (bothViews (v.lock .mpu) last reads)) →
      (publishing F).Sat .mpu (chMtxLock .mpu) Q (bothViews v last reads) := by
    intro Q hQ
    refine publishing_silent (by simp [chMtxLock, perform, Act.Silent]) ?_
    exact locks_enter (by decide) hv.1 False.elim hQ
  -- Whether it has updated or not, the iteration ends here.
  have hend : ∀ n m l, v.kern.held .mpu = none → (publishing F).Sat .mpu (do
      chMtxUnlock .mpu
      chThdSleepMilliseconds 500) (fun _ => BothAtLoop .mpu)
        (bothViews ((v.lock .mpu).drop n) m l) := by
    intro n m l hheld
    refine publishing_silent (by simp [chMtxUnlock, chThdSleepMilliseconds, perform, Act.Silent]) ?_
    refine locks_bind (locks_leave (v := v.drop n) (by decide) hv.1 hheld ?_)
    exact locks_chThdSleepMilliseconds hv.1 False.elim ⟨hv.drop n, m, l, rfl⟩
  refine Sat.bind (hlock _ fun hheld => ?_)
  have hrun : (v.lock .mpu).Running := v.running_lock .mpu
  refine Sat.bind (publishing_getMpu hrun fun c => ?_)
  split
  · refine Sat.bind (publishing_mpuAccUpdate hrun fun _ n m l => ?_)
    exact hend n m l hheld
  · exact hend 0 last reads hheld

end

/-! ### Runs -/

section
variable [CFloat F] {results : Tid → Nat → I2CResult} {regs : UInt8 → UInt8}
  {pastStrbuf : List UInt8} {c : Config (sig F) Tid (Sys F)}

/-- In every state of a run each publication has its three reads in the log. -/
theorem backed_of_reaches (h : Reaches (machine F) loop (bootConfig results regs pastStrbuf) c) :
    Obs.Backed (c.st.log .mpu) := by
  -- `main` and the serial thread keep the rules of the mutexes, and have no record.
  have hother : ∀ {t : Tid}, t ≠ .mpu → ∀ (p : Prog F Unit) (v : LockView),
      Locks (initMachine F) t rulesOnly p (fun _ => AtLoop rulesOnly t) v →
      (publishing F).Sat t p (fun _ => BothAtLoop t) (v, none) := by
    intro t ht p v hp
    refine ((locks_disciplined hp).prod (recording_other ht p)).mono fun _ u hu => ⟨hu.1, ?_⟩
    cases t with
    | mpu => exact absurd rfl ht
    | _ => exact hu.2
  have hboot : (publishing F).Ok BothAtLoop (bootConfig results regs pastStrbuf) := by
    refine ⟨⟨lockInv_boot rulesOnly results regs pastStrbuf, fun u hu => by cases hu⟩, fun t => ?_⟩
    have hsetup : Locks (initMachine F) t rulesOnly (setup t) (fun _ => AtLoop rulesOnly t)
        (lockView t (boot results regs pastStrbuf)) := locks_setup_boot False.elim t
    cases t with
    | main => exact hother (by decide) _ _ hsetup
    | serial => exact hother (by decide) _ _ hsetup
    | mpu => exact ⟨atLoop_boot False.elim .mpu, .MSG_OK, [], rfl⟩
  refine (hboot.reaches (fun t => ?_) ?_ (reaches_initMachine h)).inv.2
  · rintro ⟨v, w⟩ ⟨hv, hw⟩
    cases t with
    | main =>
        obtain rfl : w = none := hw
        exact hother (by decide) _ v (locks_loop hv)
    | serial =>
        obtain rfl : w = none := hw
        exact hother (by decide) _ v (locks_loop hv)
    | mpu =>
        obtain ⟨last, reads, hw⟩ := hw
        rw [show (v, w) = bothViews v last reads from congrArg (Prod.mk v) hw]
        exact publishing_mpumThread hv
  · -- The surroundings write no log and decide no result.
    intro e s s' hs he
    obtain ⟨hinv, hview⟩ := disciplined_env rulesOnly e s s' hs.1 he
    have hlog : s'.log = s.log ∧ s'.results = s.results := by
      have he := (Machine.restrict_env_eq_some.mp he).2
      cases e <;> cases he <;> exact ⟨rfl, rfl⟩
    refine ⟨⟨hinv, ?_⟩, fun t => congrArg₂ Prod.mk (hview t) ?_⟩
    · show Obs.Backed (s'.log .mpu)
      rw [hlog.1]
      exact hs.2
    · simp only [recording, record, hlog.1, hlog.2]

/-- In every run: all published values come from three successful reads of one update, exactly
when no update that published had a failed read beside a successful one. -/
theorem published_whole_iff
    (h : Reaches (machine F) loop (bootConfig results regs pastStrbuf) c) :
    (∀ u ∈ Obs.publications (c.st.log .mpu), u.2 = [.MSG_OK, .MSG_OK, .MSG_OK]) ↔
      ∀ u ∈ Obs.publications (c.st.log .mpu), .MSG_OK ∈ u.2 → ∀ msg ∈ u.2, msg = .MSG_OK := by
  have hbacked := backed_of_reaches h
  constructor
  · intro hall u hu _ msg hmsg
    rw [hall u hu] at hmsg
    simpa using hmsg
  · intro hall u hu
    obtain ⟨hlength, hok⟩ := hbacked u hu
    rw [List.eq_replicate_of_mem (hall u hu hok), hlength]
    rfl

end

end MotionTracking
