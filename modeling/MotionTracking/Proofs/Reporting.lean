import MotionTracking.Proofs.Idle
import MotionTracking.Proofs.Rounds

/-!
# `MotionTracking.Proofs.Reporting`: how often the firmware reports

A report resets `rd_count`, and every iteration increments it, also while
reporting is stopped. An iteration reports when reporting is enabled and the count
is above `SERIAL_COUNTER_LIMIT`.

* `report_spacing_iff`: two reports in a row are never closer than the limit. They
  are one iteration further apart than the limit as long as nobody stops the
  reports, since the count is compared before it is incremented and the comparison
  is strict (`spacing_of_enabled`).
* `counter_ok_of_short_stops`: the count stays in its type, and reports are never
  late, in every run in which no stop lasts too long. `count_overflows` lets a
  board wait for `2 ^ 31` iterations.
-/

set_option autoImplicit false

namespace MotionTracking

open Threads (Move Reaches Config run)

variable {F : Type} {pastStrbuf : List UInt8} {r r' : Round} {rs mid later : List Round}

/-! ### The count -/

/-- A round without a report counts one up. -/
theorem countAfter_cons_of_not_reported (h : r.reported = false) :
    countAfter (r :: rs) = wrap32 (countAfter rs + 1) := by
  rw [countAfter, countOut, h]
  rfl

/-- A round with a report starts the count anew, and counts one up. -/
theorem countAfter_cons_of_reported (h : r.reported = true) : countAfter (r :: rs) = 1 := by
  rw [countAfter, countOut, h]
  rfl

/-- The count is a 32-bit number. -/
theorem wrap32_countAfter (rs : List Round) : wrap32 (countAfter rs) = countAfter rs := by
  cases rs with
  | nil => rfl
  | cons r rs => exact wrap32_wrap32 _

/-- Rounds without a report add to the count. -/
theorem countAfter_append (hmid : ∀ x ∈ mid, x.reported = false) :
    countAfter (mid ++ rs) = wrap32 (countAfter rs + mid.length) := by
  induction mid with
  | nil =>
      rw [List.nil_append, List.length_nil, Int.natCast_zero, Int.add_zero, wrap32_countAfter]
  | cons x mid ih =>
      have hmid' : ∀ y ∈ mid, y.reported = false := by
        intro y hy
        exact hmid y (List.mem_cons_of_mem x hy)
      rw [List.cons_append, countAfter_cons_of_not_reported (hmid x List.mem_cons_self),
        ih hmid', wrap32_wrap32_add, List.length_cons, Int.natCast_add, Int.natCast_one,
        Int.add_assoc]

/-- The count is at most the largest 32-bit number. -/
theorem countAfter_le (rs : List Round) : countAfter rs ≤ INT32_MAX := by
  have hmax : INT32_MAX = 2147483647 := rfl
  rw [← wrap32_countAfter, wrap32, Int.bmod_def]
  omega

/-- And at least the smallest. -/
theorem neg_le_countAfter (rs : List Round) : -(INT32_MAX + 1) ≤ countAfter rs := by
  have hmax : INT32_MAX = 2147483647 := rfl
  rw [← wrap32_countAfter, wrap32, Int.bmod_def]
  omega

/-- Not too many of them add as many as they are. -/
theorem countAfter_append_of_le (hmid : ∀ x ∈ mid, x.reported = false) (h0 : 0 ≤ countAfter rs)
    (h1 : countAfter rs + mid.length ≤ INT32_MAX) :
    countAfter (mid ++ rs) = countAfter rs + mid.length := by
  rw [countAfter_append hmid]
  exact wrap32_of_le (by omega) h1

/-- The rounds split at any number of the oldest ones. -/
theorem exists_append_cons {n : Nat} (h : n < mid.length) :
    ∃ newer x older, mid = newer ++ x :: older ∧ older.length = n := by
  refine ⟨mid.take (mid.length - 1 - n), mid[mid.length - 1 - n], mid.drop (mid.length - n), ?_, ?_⟩
  · have hindex : mid.length - 1 - n < mid.length := by omega
    have hnext : mid.length - n = mid.length - 1 - n + 1 := by omega
    rw [hnext, List.getElem_cons_drop, List.take_append_drop]
  · rw [List.length_drop]
    omega

/-! ### Two reports in a row -/

/-- How far apart two reports with the iterations `mid` between them should be: not
closer than the limit, and exactly the limit when reporting is enabled all the
time. -/
structure Spaced (mid : List Round) : Prop where
  atLeast : SERIAL_COUNTER_LIMIT ≤ mid.length + 1
  exact : (∀ x ∈ mid, x.enabled = true) → (mid.length + 1 : Int) = SERIAL_COUNTER_LIMIT

section
variable (h : Chained pastStrbuf (later ++ r :: (mid ++ r' :: rs)))
  (hr : r.reported = true) (hr' : r'.reported = true) (hmid : ∀ x ∈ mid, x.reported = false)

include h hr hr' hmid

/-- Two reports are more than the limit apart. -/
theorem limit_le_length : SERIAL_COUNTER_LIMIT ≤ mid.length := by
  have hone : countAfter (r' :: rs) = 1 := countAfter_cons_of_reported hr'
  have hreported := h.follows.reported
  rw [hr] at hreported
  have hcount : countAfter (mid ++ r' :: rs) > SERIAL_COUNTER_LIMIT :=
    of_decide_eq_true (Bool.and_eq_true_iff.mp hreported.symm).2
  by_contra hlt
  have hlimit : SERIAL_COUNTER_LIMIT = 5 := rfl
  have hmax : INT32_MAX = 2147483647 := rfl
  rw [countAfter_append_of_le hmid (by omega) (by omega)] at hcount
  omega

/-- Reports that nobody stops are one iteration further apart than the limit. -/
theorem spacing_of_enabled (hen : ∀ x ∈ mid, x.enabled = true) :
    (mid.length : Int) = SERIAL_COUNTER_LIMIT := by
  have hone : countAfter (r' :: rs) = 1 := countAfter_cons_of_reported hr'
  have hlimit : SERIAL_COUNTER_LIMIT = 5 := rfl
  have hmax : INT32_MAX = 2147483647 := rfl
  have hle := limit_le_length h hr hr' hmid
  by_contra hne
  -- The sixth iteration after a report finds a count of six.
  obtain ⟨newer, x, older, hsplit, hlen⟩ : ∃ newer x older, mid = newer ++ x :: older ∧
      older.length = 5 := exists_append_cons (by omega)
  have hx : x ∈ mid := by
    rw [hsplit]
    exact List.mem_append_right newer List.mem_cons_self
  have holder : ∀ y ∈ older, y.reported = false := by
    intro y hy
    refine hmid y ?_
    rw [hsplit]
    exact List.mem_append_right newer (List.mem_cons_of_mem x hy)
  have hchain : Chained pastStrbuf ((later ++ r :: newer) ++ x :: (older ++ r' :: rs)) := by
    rw [hsplit] at h
    simpa using h
  have hreported := hchain.follows.reported
  rw [hmid x hx, hen x hx, Bool.true_and,
    countAfter_append_of_le holder (by omega) (by omega)] at hreported
  have hcount := of_decide_eq_false hreported.symm
  omega

end

/-- Two reports in a row are spaced as the comment at `SERIAL_COUNTER_LIMIT` has it
exactly when somebody stops the reports in between. -/
theorem report_spacing_iff [CFloat F] {results : Tid → Nat → I2CResult} {regs : UInt8 → UInt8}
    {c : Config (sig F) Tid (Sys F)}
    (h : Reaches (machine F) loop (bootConfig results regs pastStrbuf) c)
    (hrounds : (progress (c.st.log .serial)).rounds = later ++ r :: (mid ++ r' :: rs))
    (hr : r.reported = true) (hr' : r'.reported = true)
    (hmid : ∀ x ∈ mid, x.reported = false) :
    Spaced mid ↔ ∃ x ∈ mid, x.enabled = false := by
  have hchained : Chained pastStrbuf (later ++ r :: (mid ++ r' :: rs)) := by
    rw [← hrounds]
    exact (rounds_of_reaches h).chained
  constructor
  · intro hspaced
    by_contra hnone
    have hen : ∀ x ∈ mid, x.enabled = true := by
      intro x hx
      by_contra hx'
      exact hnone ⟨x, hx, by simpa using hx'⟩
    have hlen := spacing_of_enabled hchained hr hr' hmid hen
    have hexact := hspaced.exact hen
    omega
  · rintro ⟨x, hx, hdisabled⟩
    have hle := limit_le_length hchained hr hr' hmid
    refine ⟨by omega, ?_⟩
    intro hen
    exact absurd (hen x hx) (by rw [hdisabled]; exact Bool.false_ne_true)

/-- An iteration that reads nothing, with `n` steps after the timeout. -/
def quietRound (n : Nat) : List (Move Tid EnvMove) :=
  List.replicate 5 (.run .serial) ++ .env (.elapse 500) :: List.replicate n (.run .serial)

/-- An iteration that handles `text` in `n` steps. -/
def commandRound (text : List UInt8) (n : Nat) : List (Move Tid EnvMove) :=
  text.map (fun b => .env (.rx b)) ++ List.replicate n (.run .serial)

/-- `main` sets the board up, the seventh iteration reports, and then comes
`after`. -/
def afterReport (after : List (Move Tid EnvMove)) : List (Move Tid EnvMove) :=
  List.replicate 85 (.run .main) ++ List.replicate 2 (.run .serial) ++
    (List.replicate 6 (quietRound 10)).flatten ++ quietRound 23 ++ after

/-- The newest round reports, and so does the sixth one before it. -/
def reportsTwice (f : Round → Bool) : List Round → Bool
  | r :: rs => r.reported && (rs.take 5).all (fun x => !x.reported && f x) &&
      (rs[5]?).any fun r' => r'.reported
  | [] => false

/-- What the search for two reports five rounds apart finds. -/
theorem reportsTwice_split {f : Round → Bool} {rounds : List Round}
    (h : reportsTwice f rounds = true) : ∃ r mid r' rs, rounds = [] ++ r :: (mid ++ r' :: rs) ∧
      r.reported = true ∧ r'.reported = true ∧ (∀ x ∈ mid, x.reported = false) ∧
      mid.length = 5 ∧ ∀ x ∈ mid, f x = true := by
  cases rounds with
  | nil => cases h
  | cons r rest =>
      simp only [reportsTwice, Bool.and_eq_true] at h
      obtain ⟨⟨hr, hmid⟩, hany⟩ := h
      obtain ⟨r', hr', hrep⟩ := (Option.any_eq_true _ _).mp hany
      obtain ⟨hlt, hget⟩ := List.getElem?_eq_some_iff.mp hr'
      have hall := List.all_eq_true.mp hmid
      simp only [Bool.and_eq_true, Bool.not_eq_true'] at hall
      refine ⟨r, rest.take 5, r', rest.drop 6, ?_, hr, hrep, fun x hx => (hall x hx).1, ?_,
        fun x hx => (hall x hx).2⟩
      · rw [← hget, List.getElem_cons_drop, List.take_append_drop]
        rfl
      · rw [List.length_take]
        omega

set_option maxRecDepth 8000 in
/-- The reports of a board left alone are six iterations apart. -/
theorem report_every_six :
    ¬∀ (results : Tid → Nat → I2CResult) (regs : UInt8 → UInt8) (pastStrbuf : List UInt8)
      (c : Config (sig Float32) Tid (Sys Float32)) (later : List Round) (r : Round)
      (mid : List Round) (r' : Round) (rs : List Round),
      Reaches (machine Float32) loop (bootConfig results regs pastStrbuf) c →
      (progress (c.st.log .serial)).rounds = later ++ r :: (mid ++ r' :: rs) →
      r.reported = true → r'.reported = true → (∀ x ∈ mid, x.reported = false) →
      Spaced mid := by
  intro h
  have hrun : (run (machine Float32) loop
      (afterReport ((List.replicate 5 (quietRound 10)).flatten ++ quietRound 23))
      (bootConfig (fun _ _ => ⟨.MSG_OK, []⟩) (fun _ => 0) [])).any (fun c =>
        reportsTwice (fun x => x.enabled) (progress (c.st.log .serial)).rounds) = true := by
    decide
  obtain ⟨c, hc, hf⟩ := Reaches.of_run_any hrun
  obtain ⟨r, mid, r', rs, hsplit, hr, hr', hmid, hlen, hen⟩ := reportsTwice_split hf
  have hexact := (h _ _ _ c [] r mid r' rs hc hsplit hr hr' hmid).exact hen
  rw [hlen] at hexact
  exact absurd hexact (by decide)

set_option maxRecDepth 8000 in
/-- The reports are stopped after the first of the two, and started again. -/
theorem report_spacing_iff_restart : ∃ (c : Config (sig Float32) Tid (Sys Float32))
    (r : Round) (mid : List Round) (r' : Round) (rs : List Round),
    (progress (c.st.log .serial)).rounds = [] ++ r :: (mid ++ r' :: rs) ∧ Spaced mid := by
  have hrun : (run (machine Float32) loop
      (afterReport (commandRound SER_STOP 29 ++ (List.replicate 4 (quietRound 10)).flatten ++
        commandRound SER_START 42))
      (bootConfig (fun _ _ => ⟨.MSG_OK, []⟩) (fun _ => 0) [])).any (fun c =>
        reportsTwice (fun x => !x.enabled) (progress (c.st.log .serial)).rounds) = true := by
    decide
  obtain ⟨c, hc, hf⟩ := Reaches.of_run_any hrun
  obtain ⟨r, mid, r', rs, hsplit, hr, hr', hmid, hlen, hdis⟩ := reportsTwice_split hf
  refine ⟨c, r, mid, r', rs, hsplit, (report_spacing_iff hc hsplit hr hr' hmid).mpr ?_⟩
  obtain ⟨x, hx⟩ := List.exists_mem_of_length_pos (l := mid) (by omega)
  exact ⟨x, hx, by simpa using hdis x hx⟩

/-! ### The range of the count -/

/-- Whenever reporting is stopped, the count at that moment and the iterations for
which it stays stopped are within the range of the count. -/
def ShortStops (rounds : List Round) : Prop :=
  ∀ later mid rs, rounds = later ++ (mid ++ rs) → (∀ x ∈ mid, x.enabled = false) →
    countAfter rs + mid.length ≤ INT32_MAX

/-- The count is in its range, and `SERIAL_COUNTER_LIMIT + 2` iterations in a row
with reporting enabled have a report among them. -/
structure CounterOk (s : Sys F) : Prop where
  nonneg : 0 ≤ s.ser.rdCount
  le : s.ser.rdCount ≤ INT32_MAX
  prompt : ∀ later mid rs, (progress (s.log .serial)).rounds = later ++ (mid ++ rs) →
    (mid.length : Int) = SERIAL_COUNTER_LIMIT + 2 → (∀ x ∈ mid, x.enabled = true) →
    ∃ x ∈ mid, x.reported = true

/-- The earlier rounds have short stops. -/
theorem ShortStops.of_cons (h : ShortStops (r :: rs)) : ShortStops rs := by
  intro later mid rs' hsplit hdis
  exact h (r :: later) mid rs' (by rw [hsplit]; rfl) hdis

/-- The count is that of the latest moment at which reporting was enabled, at most
six, and one more for each iteration since. -/
theorem exists_stopped_since (hchained : Chained pastStrbuf rs) (hstops : ShortStops rs) :
    ∃ mid older, rs = mid ++ older ∧ (∀ x ∈ mid, x.enabled = false) ∧
      countAfter rs = countAfter older + mid.length ∧
      0 ≤ countAfter older ∧ countAfter older ≤ SERIAL_COUNTER_LIMIT + 1 := by
  have hlimit : SERIAL_COUNTER_LIMIT = 5 := rfl
  have hmax : INT32_MAX = 2147483647 := rfl
  induction rs with
  | nil => exact ⟨[], [], rfl, by simp, by simp, Int.le_refl 0, by decide⟩
  | cons r rs ih =>
      obtain ⟨mid, older, hsplit, hdis, hcount, h0, h1⟩ := ih hchained.2 hstops.of_cons
      have hreported := hchained.1.reported
      cases hen : r.enabled with
      | false =>
          -- One more iteration in which reporting is stopped.
          have hnone : r.reported = false := by rw [hreported, hen]; rfl
          have hdis' : ∀ x ∈ r :: mid, x.enabled = false := List.forall_mem_cons.mpr ⟨hen, hdis⟩
          have hshort := hstops [] (r :: mid) older (by rw [hsplit]; rfl) hdis'
          rw [List.length_cons] at hshort
          refine ⟨r :: mid, older, by rw [hsplit]; rfl, hdis', ?_, h0, h1⟩
          rw [countAfter_cons_of_not_reported hnone, wrap32_of_le (by omega) (by omega), hcount,
            List.length_cons]
          omega
      | true =>
          rw [hen, Bool.true_and] at hreported
          refine ⟨[], r :: rs, rfl, by simp, by simp, ?_⟩
          by_cases hover : countAfter rs > SERIAL_COUNTER_LIMIT
          · rw [decide_eq_true hover] at hreported
            rw [countAfter_cons_of_reported hreported]
            omega
          · rw [decide_eq_false hover] at hreported
            rw [countAfter_cons_of_not_reported hreported, wrap32_of_le (by omega) (by omega)]
            omega

/-- While the stops are short the count does not pass the largest number, by induction on
the rounds. -/
theorem count_range (hchained : Chained pastStrbuf rs) (hstops : ShortStops rs) :
    0 ≤ countAfter rs ∧ countAfter rs ≤ INT32_MAX := by
  obtain ⟨mid, older, hsplit, hdis, hcount, h0, -⟩ := exists_stopped_since hchained hstops
  have hshort := hstops [] mid older (by rw [hsplit]; rfl) hdis
  omega

/-- Any earlier rounds have short stops. -/
theorem ShortStops.of_append (h : ShortStops (later ++ rs)) : ShortStops rs := by
  induction later with
  | nil => exact h
  | cons x later ih => exact ih h.of_cons

/-- With a count in its range, seven enabled iterations are enough for a report. -/
theorem exists_reported (hchained : Chained pastStrbuf (mid ++ rs)) (h0 : 0 ≤ countAfter rs)
    (h1 : countAfter rs ≤ INT32_MAX) (hlen : (mid.length : Int) = SERIAL_COUNTER_LIMIT + 2)
    (hen : ∀ x ∈ mid, x.enabled = true) : ∃ x ∈ mid, x.reported = true := by
  have hlimit : SERIAL_COUNTER_LIMIT = 5 := rfl
  have hmax : INT32_MAX = 2147483647 := rfl
  by_contra hnone
  have hmid : ∀ x ∈ mid, x.reported = false := by
    intro x hx
    by_contra hx'
    exact hnone ⟨x, hx, by simpa using hx'⟩
  -- The iteration that finds the count at or above six, at the latest the newest.
  have hlater : ∀ n : Nat, n < mid.length → countAfter rs + n ≤ INT32_MAX →
      countAfter rs + n ≤ SERIAL_COUNTER_LIMIT := by
    intro n hn hle
    obtain ⟨newer, x, older, hsplit, holen⟩ := exists_append_cons hn
    have hx : x ∈ mid := by
      rw [hsplit]
      exact List.mem_append_right newer List.mem_cons_self
    have holder : ∀ y ∈ older, y.reported = false := by
      intro y hy
      refine hmid y ?_
      rw [hsplit]
      exact List.mem_append_right newer (List.mem_cons_of_mem x hy)
    have hchain : Chained pastStrbuf (newer ++ x :: (older ++ rs)) := by
      rw [hsplit] at hchained
      simpa using hchained
    have hreported := hchain.follows.reported
    rw [hmid x hx, hen x hx, Bool.true_and,
      countAfter_append_of_le holder h0 (by omega)] at hreported
    have hcount := of_decide_eq_false hreported.symm
    omega
  have hfirst := hlater 0 (by omega) (by omega)
  have hlast := hlater 6 (by omega) (by omega)
  omega

/-- In every run in which no stop lasts too long, the count keeps to its range and
reports are never late. -/
theorem counter_ok_of_short_stops [CFloat F] {results : Tid → Nat → I2CResult}
    {regs : UInt8 → UInt8} {c : Config (sig F) Tid (Sys F)}
    (h : Reaches (machine F) loop (bootConfig results regs pastStrbuf) c)
    (hstops : ShortStops (progress (c.st.log .serial)).rounds) : CounterOk c.st := by
  have hok := rounds_of_reaches h
  have hrange : 0 ≤ c.st.ser.rdCount ∧ c.st.ser.rdCount ≤ INT32_MAX := by
    rcases hok.count with hzero | hcount | hcount
    · have hzero : c.st.ser.rdCount = 0 := hzero
      rw [hzero]
      exact ⟨Int.le_refl 0, by decide⟩
    · have hcount : c.st.ser.rdCount = countAfter (progress (c.st.log .serial)).rounds := hcount
      rw [hcount]
      exact count_range hok.chained hstops
    · have hcount : c.st.ser.rdCount = countAfter (progress (c.st.log .serial)).rounds.tail :=
          hcount
      rw [hcount]
      have hchained := hok.chained
      cases hrounds : (progress (c.st.log .serial)).rounds with
      | nil => exact ⟨Int.le_refl 0, by decide⟩
      | cons r rs =>
          have hrounds' : (serialView c.st).progress.rounds = r :: rs := hrounds
          rw [hrounds] at hstops
          rw [hrounds'] at hchained
          exact count_range hchained.2 hstops.of_cons
  refine ⟨hrange.1, hrange.2, ?_⟩
  intro later mid rs hrounds hlen hen
  have hchained : Chained pastStrbuf (later ++ (mid ++ rs)) := by
    rw [← hrounds]
    exact hok.chained
  rw [hrounds] at hstops
  have hmid := hchained.of_append
  obtain ⟨h0, h1⟩ := count_range hmid.of_append hstops.of_append.of_append
  exact exists_reported hmid h0 h1 hlen hen

/-- `main` sets the board up, and the serial thread handles `cmdstp`. -/
def stoppedBoard : List (Move Tid EnvMove) :=
  List.replicate 85 (.run .main) ++ List.replicate 2 (.run .serial) ++ commandRound SER_STOP 29

/-- What `IdleAt` asks for, with the count one. -/
def isIdle (s : Sys F) : Bool :=
  s.started .serial && [Mtx.mtprint, .mpu, .serialcomm, .i2c].all (fun m =>
    s.kern.owner m = none && s.kern.queue m = []) && s.kern.wtmtx .serial = none &&
    s.sd2.iqueue = [] && !s.ser.readEnable && decide (s.ser.rdCount = 1)

/-- The test finds an idle state with the count 1. -/
theorem idleAt_of_isIdle {s : Sys F} (h : isIdle s = true) : IdleAt none 1 s := by
  simp only [isIdle, Bool.and_eq_true, decide_eq_true_eq, Bool.not_eq_true'] at h
  obtain ⟨⟨⟨⟨⟨hstarted, hfree⟩, hawake⟩, hqueue⟩, hdisabled⟩, hcount⟩ := h
  have hmtx : ∀ m, s.kern.owner m = none ∧ s.kern.queue m = [] := by
    intro m
    have hm := List.all_eq_true.mp hfree m (by cases m <;> decide)
    simpa using hm
  exact ⟨hstarted, fun m => (hmtx m).1, fun m => (hmtx m).2, hawake, hqueue, hdisabled, hcount⟩

set_option maxRecDepth 4000 in
/-- A stopped board waits until the count is negative. -/
theorem count_overflows :
    ¬∀ (results : Tid → Nat → I2CResult) (regs : UInt8 → UInt8) (pastStrbuf : List UInt8)
      (c : Config (sig Float32) Tid (Sys Float32)),
      Reaches (machine Float32) loop (bootConfig results regs pastStrbuf) c → CounterOk c.st := by
  intro h
  have hrun : (run (machine Float32) loop stoppedBoard
      (bootConfig (fun _ _ => ⟨.MSG_OK, []⟩) (fun _ => 0) [])).any (fun c =>
        (match c.code .serial with | .ret () => true | _ => false) && isIdle c.st) = true := by
    decide
  obtain ⟨c, hc, hf⟩ := Reaches.of_run_any hrun
  obtain ⟨hcode, hidle⟩ := Bool.and_eq_true_iff.mp hf
  have hret : c.code .serial = .ret () := by
    cases hcase : c.code .serial with
    | ret x => rfl
    | act a k =>
        rw [hcase] at hcode
        cases hcode
  obtain ⟨c', hreach, -, hidle'⟩ := idle_rounds hret (idleAt_of_isIdle hidle) rfl 2147483647
  have hnonneg := (h _ _ _ c' (hc.trans hreach)).nonneg
  rw [hidle'.count] at hnonneg
  exact absurd hnonneg (by decide)

/-- Each iteration adds at most one to the count. -/
theorem countAfter_le_length (rs : List Round) : countAfter rs ≤ rs.length := by
  induction rs with
  | nil => exact Int.le_refl 0
  | cons r rs ih =>
      rw [countAfter, List.length_cons, Int.natCast_add, Int.natCast_one]
      have hcount : countOut r (countAfter rs) ≤ rs.length := by
        rw [countOut]
        split <;> omega
      have hlow : -(INT32_MAX + 1) ≤ countOut r (countAfter rs) := by
        rw [countOut]
        split
        · decide
        · exact neg_le_countAfter rs
      have hwrap : wrap32 (countOut r (countAfter rs) + 1) ≤ countOut r (countAfter rs) + 1 :=
        wrap32_le (by omega)
      omega

/-- In fewer iterations than the count has room for, no stop is too long. -/
theorem ShortStops.of_length {rounds : List Round} (h : (rounds.length : Int) ≤ INT32_MAX) :
    ShortStops rounds := by
  intro later mid rs hsplit _
  have hlength : rounds.length = later.length + (mid.length + rs.length) := by
    rw [hsplit, List.length_append, List.length_append]
  have hcount := countAfter_le_length rs
  omega

set_option maxRecDepth 8000 in
/-- A board that reports, is stopped for five iterations, and reports as soon as it is started
again. -/
theorem counter_ok_of_short_stops_restart : ∃ c : Config (sig Float32) Tid (Sys Float32),
    (progress (c.st.log .serial)).rounds.map (fun x => (x.enabled, x.reported)) =
      (true, true) :: List.replicate 5 (false, false) ++
        (true, true) :: List.replicate 6 (true, false) ∧ CounterOk c.st := by
  have hrun : (run (machine Float32) loop
      (afterReport (commandRound SER_STOP 29 ++ (List.replicate 4 (quietRound 10)).flatten ++
        commandRound SER_START 42))
      (bootConfig (fun _ _ => ⟨.MSG_OK, []⟩) (fun _ => 0) [])).any (fun c =>
        (progress (c.st.log .serial)).rounds.map (fun x => (x.enabled, x.reported)) =
          (true, true) :: List.replicate 5 (false, false) ++
            (true, true) :: List.replicate 6 (true, false)) = true := by
    decide
  obtain ⟨c, hc, hf⟩ := Reaches.of_run_any hrun
  have hrounds := of_decide_eq_true hf
  refine ⟨c, hrounds, counter_ok_of_short_stops hc (.of_length ?_)⟩
  have hlength := congrArg List.length hrounds
  rw [List.length_map] at hlength
  rw [hlength]
  decide

/-- A count that was never negative after an iteration has seen no long stop. -/
theorem short_stops_of_nonneg (hchained : Chained pastStrbuf rs)
    (hcount : ∀ later older, rs = later ++ older → 0 ≤ countAfter older) : ShortStops rs := by
  have hmax : INT32_MAX = 2147483647 := rfl
  intro later mid older hsplit hdis
  by_contra hlong
  have hle := countAfter_le older
  -- The stop, up to the iteration in which the count leaves its range.
  obtain ⟨newer, first, hfirst, hlen⟩ : ∃ newer first, mid = newer ++ first ∧
      countAfter older + first.length = INT32_MAX + 1 := by
    refine ⟨mid.take (mid.length - (INT32_MAX + 1 - countAfter older).toNat),
      mid.drop (mid.length - (INT32_MAX + 1 - countAfter older).toNat),
      (List.take_append_drop _ mid).symm, ?_⟩
    rw [List.length_drop]
    omega
  have hunreported : ∀ x ∈ first, x.reported = false := by
    intro x hx
    obtain ⟨after, before, hmem⟩ := List.append_of_mem hx
    have hchain : Chained pastStrbuf ((later ++ newer ++ after) ++ x :: (before ++ older)) := by
      rw [hsplit, hfirst, hmem] at hchained
      simpa using hchained
    have hx' : x ∈ mid := by
      rw [hfirst]
      exact List.mem_append_right newer hx
    rw [hchain.follows.reported, hdis x hx', Bool.false_and]
  have hneg := hcount (later ++ newer) (first ++ older) (by rw [hsplit, hfirst]; simp)
  rw [countAfter_append hunreported, hlen] at hneg
  exact absurd hneg (by decide)

end MotionTracking
