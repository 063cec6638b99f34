import MotionTracking.Proofs.Completion
import MotionTracking.Proofs.LockDiscipline

/-!
# `MotionTracking.Proofs.Resting`: nobody rests with `mpu.c`'s mutex

`lock_discipline_iff` is about one call. Here the calls are put together to runs of
all three threads. As long as the transfers of `mpu_acc_range` succeed (`RangesOk`),
whatever becomes of the others,

* a thread that sleeps owns no mutex at all, and
* `main` does not own `mpu.c`'s mutex once it is past `mpu_init`, which is when it
  has started the serial thread.

The first is a demand of the outline `disciplined`. The second follows from it, since
`main` owns nothing when it starts a thread, and from then on locks nothing but
`mtprint.c`'s mutex (`main_all_after`).
-/

set_option autoImplicit false

namespace MotionTracking

open ChibiOS (Kernel)
open Threads (Reaches Config Move)
open Threads.Prog (AllAfter perform)
open Footprint (Within)

variable {F : Type}

/-- The action is not the entry to `chMtxLock` of `mpu.c`'s mutex. -/
def NoQmtx (a : Act F) : Prop := a ≠ .mtxLock .mpu

/-- The action starts the serial thread. -/
def StartsSerial (a : Act F) : Prop := a = .thdCreate .serial

/-- The action starts no thread. -/
def NoThdCreate (a : Act F) : Prop := ∀ u, a ≠ .thdCreate u

/-- A text is printed under another mutex than `mpu.c`'s. -/
theorem noQmtx_serialPrint (text : String) :
    (serialPrint (F := F) (.text text)).All NoQmtx := by
  simp [serialPrint, chMtxLock, chMtxUnlock, sdWrite, perform, NoQmtx]

/-- Once `main` has started the serial thread, it is done with `mpu.c`'s mutex. -/
theorem main_all_after [CFloat F] : (setup (F := F) .main).AllAfter StartsSerial NoQmtx := by
  have hend : (do
      serialPrint (F := F) (.text "Serial thread: running\n\r")
      chThdCreateStatic .mpu
      serialPrint (.text "MPU thread: running\n\r")).All NoQmtx := by
    refine .bind (noQmtx_serialPrint _) fun _ => ?_
    exact .bind (Threads.Prog.all_perform (by simp [NoQmtx])) fun _ => noQmtx_serialPrint _
  rw [setup_main]
  refine AllAfter.bind (steady_startUp.mono fun a ha => ha.2 .serial) fun _ => ?_
  -- The first action of `launch` is the one with the mark.
  intro _
  exact ⟨fun _ => hend, fun h => absurd rfl h⟩

section
variable [CFloat F] {results : Tid → Nat → I2CResult} {regs : UInt8 → UInt8}
  {pastStrbuf : List UInt8} {c : Config (sig F) Tid (Sys F)} {t : Tid}

/-- A thread about to sleep or to start another one is involved in no mutex. -/
theorem not_involvedIn_of_safe {a : Act F} {k : a.Ans → Prog F Unit} (hres : RangesOk results)
    (h : Reaches (machine F) loop (bootConfig results regs pastStrbuf) c)
    (hc : c.code t = .act a k) (ha : a = .sleep ∨ ∃ u, a = .thdCreate u) (m : Mtx) :
    ¬c.st.kern.InvolvedIn t m := by
  have hok := disciplined_of_reaches ⟨True, False⟩ (fun _ => hres) h
  obtain ⟨hdis, hord, -⟩ := hok.safe hc
  have hrun : c.st.kern.wtmtx t = none := by
    rcases ha with rfl | ⟨u, rfl⟩
    · exact hdis
    · exact hdis
  have hfree : ∀ m, (c.st.kern.view t).held m = none := by
    rcases ha with rfl | ⟨u, rfl⟩
    · exact hord trivial
    · exact hord trivial
  -- It owns none, and a running thread is in no queue.
  rintro (howner | hqueued)
  · exact lockView_held_eq_none hrun |>.mp (hfree m) howner
  · have hw := hok.inv.wf.queued m t hqueued
    rw [hrun] at hw
    cases hw

/-- Only `main` starts threads. -/
theorem no_thdCreate (h : Reaches (machine F) loop (bootConfig results regs pastStrbuf) c)
    (ht : t ≠ .main) : (c.code t).All NoThdCreate := by
  have hwithin : ∀ {A : Footprint} {u : Tid} {p : Prog F Unit}, p.All (Within A) →
      p.All fun a => u ≠ .main → NoThdCreate a :=
    fun hp => (steady_of_within hp).mono fun _ ha _ => ha.2
  have hall := h.all (fun t a => t ≠ .main → NoThdCreate a) (fun u => ?_) (fun u => ?_) t
  · exact hall.mono fun a ha => ha ht
  · cases u with
    | main => exact .of_forall fun a hne => absurd rfl hne
    | serial =>
        simp [bootConfig, setup, chMtxObjectInit, chThdSleepMilliseconds, perform, NoThdCreate]
    | mpu => exact Threads.Prog.all_pure _
  · cases u with
    | main => exact .of_forall fun a hne => absurd rfl hne
    | serial => exact hwithin within_serialcommThread
    | mpu => exact hwithin within_mpumThread

/-- What holds of `main` before and after it starts the serial thread. -/
structure MainRests (c : Config (sig F) Tid (Sys F)) : Prop where
  before : c.st.started .serial = false → (c.code .main).AllAfter StartsSerial NoQmtx
  after : c.st.started .serial = true →
    (c.code .main).All NoQmtx ∧ ¬c.st.kern.InvolvedIn .main .mpu

/-- One action of `main`. -/
theorem MainRests.main_step {a : Act F} {k : a.Ans → Prog F Unit} {r : a.Ans} {s' : Sys F}
    (hr : MainRests c) (hres : RangesOk results)
    (h : Reaches (machine F) loop (bootConfig results regs pastStrbuf) c)
    (hc : c.code .main = .act a k) (he : c.st.exec .main a = some (r, s')) :
    (s'.started .serial = false → (k r).AllAfter StartsSerial NoQmtx) ∧
      (s'.started .serial = true → (k r).All NoQmtx ∧ ¬s'.kern.InvolvedIn .main .mpu) := by
  cases hst : c.st.started .serial with
  | true =>
      -- The serial thread runs already, and `main` locks this mutex no more.
      obtain ⟨hall, hnot⟩ := hr.after hst
      rw [hc] at hall
      have hst' := started_mono he hst
      constructor
      · intro hf
        rw [hst'] at hf
        cases hf
      refine fun _ => ⟨hall.2 r, fun hin => ?_⟩
      rcases involvedIn_step he hin with hbefore | ⟨-, rfl⟩
      · exact hnot hbefore
      · exact hall.1 rfl
  | false =>
      -- It does not run yet. Either this action starts it, or it still does not.
      have hafter := hr.before hst
      rw [hc] at hafter
      obtain ⟨hmark, hno⟩ := hafter r
      by_cases ha : StartsSerial a
      · have hrest := not_involvedIn_of_safe hres h hc (.inr ⟨.serial, ha⟩) .mpu
        subst ha
        rw [Sys.exec_thdCreate he]
        refine ⟨fun hf => ?_, fun _ => ⟨hmark rfl, hrest⟩⟩
        simp at hf
      · have hsame : s'.started .serial = false := by
          by_cases hthd : ∃ u, a = .thdCreate u
          · obtain ⟨u, rfl⟩ := hthd
            rw [Sys.exec_thdCreate he]
            have hu : .serial ≠ u := by
              rintro rfl
              exact ha rfl
            simpa [Function.update_of_ne hu] using hst
          · rw [started_step (fun u hu => hthd ⟨u, hu⟩) he]
            exact hst
        refine ⟨fun _ => hno ha, fun ht => ?_⟩
        rw [hsame] at ht
        cases ht

/-- One move of a run. -/
theorem MainRests.step {m : Move Tid EnvMove} {c' : Config (sig F) Tid (Sys F)}
    (hr : MainRests c) (hres : RangesOk results)
    (h : Reaches (machine F) loop (bootConfig results regs pastStrbuf) c)
    (hm : Threads.step (machine F) loop m c = some c') : MainRests c' := by
  rcases Threads.step_cases hm with ⟨t, -, hc, rfl⟩ | ⟨t, a, k, r, s', -, hc, he, rfl⟩ |
    ⟨e, s', -, he, rfl⟩
  · -- A loop starts over. That of `main` is a sleep.
    cases t with
    | main =>
        refine ⟨fun _ => ?_, fun hst => ⟨?_, (hr.after hst).2⟩⟩
        · exact fun _ => ⟨fun _ => trivial, fun _ => trivial⟩
        · simp [loop, chThdSleepMilliseconds, perform, NoQmtx]
    | serial => exact ⟨hr.before, hr.after⟩
    | mpu => exact ⟨hr.before, hr.after⟩
  · by_cases ht : t = .main
    · subst ht
      obtain ⟨hbefore, hafter⟩ := hr.main_step hres h hc he
      refine ⟨fun hst => ?_, fun hst => ?_⟩
      · simpa using hbefore hst
      · simpa using hafter hst
    · -- Another thread starts no thread, and leaves `main` its mutexes.
      have hall := no_thdCreate h ht
      rw [hc] at hall
      have hstarted : s'.started = c.st.started := started_step hall.1 he
      refine ⟨fun hst => ?_, fun hst => ?_⟩
      · rw [hstarted] at hst
        simpa [Function.update_of_ne (Ne.symm ht)] using hr.before hst
      · rw [hstarted] at hst
        obtain ⟨hno, hnot⟩ := hr.after hst
        refine ⟨by simpa [Function.update_of_ne (Ne.symm ht)] using hno, fun hin => ?_⟩
        rcases involvedIn_step he hin with hbefore | ⟨hmain, -⟩
        · exact hnot hbefore
        · exact ht hmain.symm
  · cases e <;> cases he <;> exact ⟨hr.before, hr.after⟩

/-- In every state of a run `main` is asleep without a mutex or on its way there. -/
theorem mainRests_of_reaches (hres : RangesOk results)
    (h : Reaches (machine F) loop (bootConfig results regs pastStrbuf) c) : MainRests c := by
  have hboot : MainRests (bootConfig results regs pastStrbuf : Config (sig F) Tid (Sys F)) :=
    ⟨fun _ => main_all_after, fun hst => by cases hst⟩
  have hboth : Reaches (machine F) loop (bootConfig results regs pastStrbuf) c ∧ MainRests c := by
    refine h.induct (P := fun c => Reaches (machine F) loop (bootConfig results regs pastStrbuf) c ∧
      MainRests c) ⟨.refl _, hboot⟩ ?_
    rintro m c₁ c₂ ⟨hreach, hrests⟩ hm
    exact ⟨hreach.trans ⟨[m], by simp [Threads.run, hm]⟩, hrests.step hres hreach hm⟩
  exact hboth.2

/-- In every run in which the range transfers succeed, a sleeping thread owns no mutex, and
`main`, once past `mpu_init`, does not own `mpu.c`'s. -/
theorem rests_without_qmtx (hres : RangesOk results)
    (h : Reaches (machine F) loop (bootConfig results regs pastStrbuf) c) :
    (∀ t k, c.code t = .act .sleep k → ∀ m, c.st.kern.owner m ≠ some t) ∧
    (c.st.started .serial = true → c.st.kern.owner .mpu ≠ some .main) := by
  constructor
  · intro t k hc m howner
    exact not_involvedIn_of_safe hres h hc (.inl rfl) m (.inl howner)
  · intro hst howner
    exact ((mainRests_of_reaches hres h).after hst).2 (.inl howner)

end

end MotionTracking
