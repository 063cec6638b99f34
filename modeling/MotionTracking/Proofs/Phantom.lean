import MotionTracking.Proofs.BufferBounds
import MotionTracking.Proofs.Rounds

/-!
# `MotionTracking.Proofs.Phantom`: commands that nobody sent

`serial_read` may deliver fewer than six bytes, and `serialcomm_thread` hands
`strbuf` to `commad_check` as soon as it delivers any. What earlier reads have left
behind the delivered bytes is then read as if it had just come.

An iteration with a phantom command acts on a command other than the bytes of its
own read. `no_phantom_iff` says which runs are free of them, for every history of
received bytes and every split into reads: those in which every short read leaves
a buffer that spells no command.
-/

set_option autoImplicit false

namespace MotionTracking

open Threads (Move Reaches Config run)

variable {F : Type} {pastStrbuf : List UInt8} {r : Round} {rs : List Round}

/-- The iteration acts on no command but the one that it has read itself. -/
def Round.NoPhantom (r : Round) : Prop := ∀ c, r.acted = some c → r.delivered = c.text

/-- A command at the start of the memory is the first six bytes. -/
theorem eq_text_of_commandOf {d tail : List UInt8} {c : Command}
    (h : commandOf (d ++ tail) = some c)
    (hd : d.length = SERIAL_BUFFER_SIZE) : d = c.text := by
  have hcstr : cstr (d ++ tail) = c.text := commandOf_eq_some.mp h
  have htext : c.text <+: d ++ tail := by
    rw [← hcstr]
    exact List.takeWhile_prefix _
  have hstart : c.text <+: d := by
    refine List.prefix_of_prefix_length_le htext (List.prefix_append d tail) ?_
    rw [length_text, hd]
  refine (hstart.eq_of_length ?_).symm
  rw [length_text, hd]

/-- A round that has called `commad_check` is free of phantoms exactly when it has
read six bytes, or the buffer spells no command. -/
theorem TakesIn.noPhantom_iff (h : TakesIn pastStrbuf r rs) (hhandled : r.handled ≠ none) :
    r.NoPhantom ↔ r.delivered.length = SERIAL_BUFFER_SIZE ∨
      commandOf (r.delivered ++ (memoryAfter pastStrbuf rs).drop r.delivered.length) = none := by
  obtain ⟨mem, hmem⟩ := Option.ne_none_iff_exists'.mp hhandled
  have hmemory := (h.handled mem hmem).2
  rw [memoryAfter_cons h.length] at hmemory
  have hacted : r.acted =
      commandOf (r.delivered ++ (memoryAfter pastStrbuf rs).drop r.delivered.length) := by
    rw [Round.acted, hmem, ← hmemory]
    rfl
  rw [Round.NoPhantom, hacted]
  constructor
  · intro hown
    cases hc : commandOf (r.delivered ++ (memoryAfter pastStrbuf rs).drop r.delivered.length) with
    | none => exact .inr rfl
    | some c =>
        have hdelivered := hown c hc
        exact .inl (by rw [hdelivered, length_text])
  · intro hwhole c hc
    rcases hwhole with hlen | hnone
    · exact eq_text_of_commandOf hc hlen
    · rw [hnone] at hc
      cases hc

/-- Every round of a run, begun or over, takes its input as it should. -/
theorem SerialView.Ok.begun {v : SerialView} (h : v.Ok pastStrbuf) {later : List Round}
    (hr : v.progress.begun = later ++ r :: rs) : TakesIn pastStrbuf r rs := by
  have hchain : ∀ later, v.progress.rounds = later ++ r :: rs → TakesIn pastStrbuf r rs := by
    intro later hrounds
    have hchained := h.chained
    rw [hrounds] at hchained
    exact hchained.follows.takesIn
  rw [Progress.begun] at hr
  by_cases hgoing : v.progress.going = true
  · rw [if_pos hgoing] at hr
    cases later with
    | nil =>
        obtain ⟨hnow, hrounds⟩ := List.cons_eq_cons.mp hr
        rw [← hnow, ← hrounds]
        exact h.takesIn hgoing
    | cons r' later =>
        obtain ⟨-, hrounds⟩ := List.cons_eq_cons.mp hr
        exact hchain later hrounds
  · rw [if_neg hgoing] at hr
    exact hchain later hr

/-- A run is free of phantom commands exactly when in each iteration that calls
`commad_check` the read has delivered six bytes, or what it has delivered spells no
command together with the bytes left behind it. -/
theorem no_phantom_iff [CFloat F] {results : Tid → Nat → I2CResult} {regs : UInt8 → UInt8}
    {c : Config (sig F) Tid (Sys F)}
    (h : Reaches (machine F) loop (bootConfig results regs pastStrbuf) c) :
    (∀ r ∈ (progress (c.st.log .serial)).begun, r.NoPhantom) ↔
      ∀ later r rs, (progress (c.st.log .serial)).begun = later ++ r :: rs → r.handled ≠ none →
        r.delivered.length = SERIAL_BUFFER_SIZE ∨
        commandOf (r.delivered ++ (memoryAfter pastStrbuf rs).drop r.delivered.length) = none := by
  have hok := rounds_of_reaches h
  constructor
  · intro hfree later r rs hr hhandled
    have hmem : r ∈ (progress (c.st.log .serial)).begun := by
      rw [hr]
      exact List.mem_append_right _ List.mem_cons_self
    exact ((hok.begun hr).noPhantom_iff hhandled).mp (hfree r hmem)
  · intro hcond r hmem
    obtain ⟨later, rs, hr⟩ := List.append_of_mem hmem
    by_cases hhandled : r.handled = none
    · intro c hacted
      rw [Round.acted, hhandled] at hacted
      cases hacted
    · exact ((hok.begun hr).noPhantom_iff hhandled).mpr (hcond later r rs hr hhandled)

/-- `main` sets the board up, the serial thread handles `cmdstp`, and in the next
iteration it reads a `c` and nothing more. -/
def phantomSchedule : List (Move Tid EnvMove) :=
  List.replicate 85 (.run .main) ++ SER_STOP.map (fun b => .env (.rx b)) ++
    List.replicate 36 (.run .serial) ++ .env (.rx 0x63) :: List.replicate 2 (.run .serial) ++
    .env (.elapse 500) :: List.replicate 5 (.run .serial)

set_option maxRecDepth 4000 in
/-- The one byte makes the thread act on `cmdstp` again. -/
theorem phantom_stop :
    ¬∀ (results : Tid → Nat → I2CResult) (regs : UInt8 → UInt8) (pastStrbuf : List UInt8)
      (c : Config (sig Float32) Tid (Sys Float32)),
      Reaches (machine Float32) loop (bootConfig results regs pastStrbuf) c →
      ∀ r ∈ (progress (c.st.log .serial)).begun, r.NoPhantom := by
  intro h
  have hrun : (run (machine Float32) loop phantomSchedule
      (bootConfig (fun _ _ => ⟨.MSG_OK, []⟩) (fun _ => 0) [])).any (fun c =>
        (progress (c.st.log .serial)).begun.any fun r =>
          r.acted = some .stop && r.delivered = [0x63]) = true := by
    decide
  obtain ⟨c, hc, hf⟩ := Reaches.of_run_any hrun
  obtain ⟨r, hr, hboth⟩ := List.any_eq_true.mp hf
  obtain ⟨hacted, hdelivered⟩ := Bool.and_eq_true_iff.mp hboth
  have hown := h _ _ _ c hc r hr .stop (of_decide_eq_true hacted)
  rw [of_decide_eq_true hdelivered] at hown
  cases hown

set_option maxRecDepth 4000 in
/-- Up to the `c`, every read is one of six bytes. -/
theorem no_phantom_iff_stop : ∃ c : Config (sig Float32) Tid (Sys Float32),
    Reaches (machine Float32) loop (bootConfig (fun _ _ => ⟨.MSG_OK, []⟩) (fun _ => 0) []) c ∧
    (progress (c.st.log .serial)).rounds.length = 1 ∧
    ∀ r ∈ (progress (c.st.log .serial)).begun, r.NoPhantom := by
  have hrun : (run (machine Float32) loop (phantomSchedule.take 127)
      (bootConfig (fun _ _ => ⟨.MSG_OK, []⟩) (fun _ => 0) [])).any (fun c =>
        (progress (c.st.log .serial)).rounds.length = 1 &&
        (progress (c.st.log .serial)).begun.all fun r =>
          r.delivered.length = SERIAL_BUFFER_SIZE || r.handled = none) = true := by
    decide
  obtain ⟨c, hc, hf⟩ := Reaches.of_run_any hrun
  obtain ⟨hlen, hall⟩ := Bool.and_eq_true_iff.mp hf
  refine ⟨c, hc, of_decide_eq_true hlen, (no_phantom_iff hc).mpr ?_⟩
  intro later r rs hr hhandled
  have hmem : r ∈ (progress (c.st.log .serial)).begun := by
    rw [hr]
    exact List.mem_append_right _ List.mem_cons_self
  rcases Bool.or_eq_true_iff.mp (List.all_eq_true.mp hall r hmem) with hwhole | hnone
  · exact .inl (of_decide_eq_true hwhole)
  · exact absurd (of_decide_eq_true hnone) hhandled

end MotionTracking
