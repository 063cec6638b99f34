import MotionTracking.Proofs.Discipline

/-!
# `MotionTracking.Proofs.DriverReady`: the state in which a transfer finds the driver

`i2cMasterTransmitTimeout` asks for a driver in state `I2C_READY`. A transfer
that times out leaves it in `I2C_LOCKED`, from which only a restart would bring
it back, and the firmware starts the driver once. `i2c_ready_iff` is the exact
law, over all runs and all sequences of I2C results: a transfer finds the driver
ready unless the transfer before it has timed out.
-/

set_option autoImplicit false

namespace MotionTracking

open Threads (Reaches Config Move run)

variable {F : Type}

/-- The action is the entry to `i2cMasterTransmitTimeout`. -/
def Act.isBegin : Act F → Bool
  | .i2cBegin => true
  | _ => false

/-- A settled driver is ready unless its latest transfer has timed out. -/
theorem settled_ready_iff {i : I2CDriver} (h : Settled i) :
    i.state = .I2C_READY ↔ i.msg ≠ .MSG_TIMEOUT := by
  rw [h]
  split <;> simp_all

/-- Whenever a thread is about to start a transfer, the driver is ready exactly
when the latest transfer, if there was one, has not timed out. -/
theorem i2c_ready_iff [CFloat F] {results : Tid → Nat → I2CResult} {regs : UInt8 → UInt8}
    {pastStrbuf : List UInt8} {c : Config (sig F) Tid (Sys F)}
    (h : Reaches (machine F) loop (bootConfig results regs pastStrbuf) c) {t : Tid}
    {k : Unit → Prog F Unit} (hc : c.code t = .act .i2cBegin k) :
    c.st.i2c.state = .I2C_READY ↔ c.st.i2c.msg ≠ .MSG_TIMEOUT := by
  have hok := disciplined_of_reaches ⟨False, True⟩ False.elim h
  exact settled_ready_iff ((hok.safe hc).2.2 trivial rfl)

/-- The first transfer of `main` times out, the others succeed. -/
def firstTimesOut : Tid → Nat → I2CResult :=
  fun _ n => ⟨if n = 0 then .MSG_TIMEOUT else .MSG_OK, []⟩

/-- `main` starts its second transfer with a locked driver. -/
theorem i2c_locked_reused :
    ¬∀ (results : Tid → Nat → I2CResult) (regs : UInt8 → UInt8) (pastStrbuf : List UInt8)
      (c : Config (sig Float32) Tid (Sys Float32)) (t : Tid) (k : Unit → Prog Float32 Unit),
      Reaches (machine Float32) loop (bootConfig results regs pastStrbuf) c →
      c.code t = .act .i2cBegin k → c.st.i2c.state = .I2C_READY := by
  intro h
  have hrun : (run (machine Float32) loop (List.replicate 28 (.run .main))
      (bootConfig firstTimesOut (fun _ => 0) [])).any
      (fun c => (c.code .main).next Act.isBegin && c.st.i2c.state = .I2C_LOCKED) = true := by
    decide
  obtain ⟨c, hc, hf⟩ := Reaches.of_run_any hrun
  obtain ⟨hnext, hlocked⟩ := Bool.and_eq_true_iff.mp hf
  obtain ⟨a, k, hcode, ha⟩ := Threads.Prog.exists_of_next hnext
  cases a with
  | i2cBegin =>
      have hready := h _ _ _ c .main k hc hcode
      rw [of_decide_eq_true hlocked] at hready
      cases hready
  | _ => cases ha

/-- The first transfer of `main` fails without a timeout, the others succeed. -/
def firstResets : Tid → Nat → I2CResult :=
  fun _ n => ⟨if n = 0 then .MSG_RESET else .MSG_OK, []⟩

/-- The second transfer of `main` finds the driver ready, although the first has failed. -/
theorem i2c_ready_iff_reset :
    ∃ c : Config (sig Float32) Tid (Sys Float32),
      Reaches (machine Float32) loop (bootConfig firstResets (fun _ => 0) []) c ∧
      c.st.i2c.msg = .MSG_RESET ∧ c.st.i2c.state = .I2C_READY := by
  have hrun : (run (machine Float32) loop (List.replicate 28 (.run .main))
      (bootConfig firstResets (fun _ => 0) [])).any
      (fun c => (c.code .main).next Act.isBegin && c.st.i2c.msg = .MSG_RESET) = true := by
    decide
  obtain ⟨c, hc, hf⟩ := Reaches.of_run_any hrun
  obtain ⟨hnext, hreset⟩ := Bool.and_eq_true_iff.mp hf
  have hmsg : c.st.i2c.msg = .MSG_RESET := of_decide_eq_true hreset
  obtain ⟨a, k, hcode, ha⟩ := Threads.Prog.exists_of_next hnext
  cases a with
  | i2cBegin =>
      have hnot : c.st.i2c.msg ≠ .MSG_TIMEOUT := by
        rw [hmsg]
        exact Msg.noConfusion
      exact ⟨c, hc, hmsg, (i2c_ready_iff hc hcode).mpr hnot⟩
  | _ => cases ha

end MotionTracking
