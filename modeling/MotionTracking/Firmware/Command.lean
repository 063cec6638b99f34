import MotionTracking.Firmware.Serialcomm

/-!
# `MotionTracking.Firmware.Command`: the command language

`commad_check` compares its argument with eight texts, one after the other.
`Command` is the type of what it can find, `commandOf` what it finds in a memory
area, and `Command.exec` what it does then. `commadCheck_eq` says that this is
all it does: a `strcmp` of two areas is zero exactly when their C strings are
equal (`strcmp_eq_zero`), and the eight texts are different C strings.
-/

set_option autoImplicit false

namespace MotionTracking

variable {F : Type}

/-- The commands of `serialcomm.h`, with the range for those that set one. -/
inductive Command where
  | start
  | stop
  | redg
  | regs
  | range (r : AccelRange)
  deriving DecidableEq, Repr

/-- The text of a command in `serialcomm.h`. -/
def Command.text : Command → List UInt8
  | .start => SER_START
  | .stop => SER_STOP
  | .redg => SER_REDG
  | .regs => SER_REGS
  | .range .ACCEL_RANGE_2G => SER_R02
  | .range .ACCEL_RANGE_4G => SER_R04
  | .range .ACCEL_RANGE_8G => SER_R08
  | .range .ACCEL_RANGE_16G => SER_R16

/-- The command that a memory area holds, if its C string is one. -/
def commandOf (mem : List UInt8) : Option Command :=
  if cstr mem = SER_START then some .start
  else if cstr mem = SER_STOP then some .stop
  else if cstr mem = SER_REDG then some .redg
  else if cstr mem = SER_REGS then some .regs
  else if cstr mem = SER_R02 then some (.range .ACCEL_RANGE_2G)
  else if cstr mem = SER_R04 then some (.range .ACCEL_RANGE_4G)
  else if cstr mem = SER_R08 then some (.range .ACCEL_RANGE_8G)
  else if cstr mem = SER_R16 then some (.range .ACCEL_RANGE_16G)
  else none

/-- What `commad_check` does for a command. -/
def Command.exec [CFloat F] : Command → Prog F Unit
  | .start => do
      serialPrint (.text "cmd: mt start\n\r")
      serialSetControl true
      chMtxLock .serialcomm
      setSer fun _ c => { c with readEnable := true }
      chMtxUnlock .serialcomm
  | .stop => do
      serialPrint (.text "cmd: mt stop\n\r")
      serialSetControl false
      chMtxLock .serialcomm
      setSer fun _ c => { c with readEnable := false }
      chMtxUnlock .serialcomm
  | .redg => do
      chMtxLock .serialcomm
      setSer fun _ c => { c with readOption := 1 }
      chMtxUnlock .serialcomm
  | .regs => do
      chMtxLock .serialcomm
      setSer fun _ c => { c with readOption := 0 }
      chMtxUnlock .serialcomm
  | .range r => do
      chMtxLock .serialcomm
      let _ ← mpuAccRange r
      chMtxUnlock .serialcomm

/-- What `commad_check` does for a string that is no command. -/
def unknownCommand (mem : List UInt8) : Prog F Unit := do
  serialPrint (.text "cmd: unknown command: ")
  serialPrint (.echo (cstr mem))
  serialPrint (.text "\n\r")

/-! ### `strcmp` -/

/-- A string ends at its first NUL. -/
theorem cstr_cons (b : UInt8) (mem : List UInt8) :
    cstr (b :: mem) = if b = 0 then [] else b :: cstr mem := by
  by_cases hb : b = 0
  · simp [cstr, hb]
  · simp [cstr, hb]

/-- A byte is 0 as an integer when it is the NUL byte. -/
theorem toNat_eq_zero {b : UInt8} : (b.toNat : Int) = 0 ↔ b = 0 := by
  rw [← UInt8.toNat_inj]
  simp

/-- Two areas compare equal exactly when they hold the same C string. -/
theorem strcmp_eq_zero (as bs : List UInt8) : strcmp as bs = 0 ↔ cstr as = cstr bs := by
  induction as generalizing bs with
  | nil =>
      cases bs with
      | nil => simp [strcmp]
      | cons b bs =>
          rw [strcmp, Int.neg_eq_zero, toNat_eq_zero, cstr_cons]
          by_cases hb : b = 0 <;> simp [hb, cstr]
  | cons a as ih =>
      cases bs with
      | nil =>
          rw [strcmp, toNat_eq_zero, cstr_cons]
          by_cases ha : a = 0 <;> simp [ha, cstr]
      | cons b bs =>
          rw [strcmp, cstr_cons, cstr_cons]
          by_cases hab : a = b
          · subst hab
            by_cases ha : a = 0
            · simp [ha]
            · simpa [ha] using ih bs
          · -- Different bytes: the strings differ here, whether or not one ends.
            have hne : (a.toNat : Int) - b.toNat ≠ 0 := by
              intro h
              exact hab (UInt8.toNat_inj.mp (by omega))
            simp only [hab, if_false, hne, false_iff]
            by_cases ha : a = 0
            · have hb : b ≠ 0 := fun hb => hab (ha.trans hb.symm)
              simp [ha, hb]
            · by_cases hb : b = 0
              · simp [ha, hb]
              · simp [ha, hb, hab]

/-! ### `commad_check` -/

/-- No command has a NUL byte in it. -/
theorem cstr_text (c : Command) : cstr c.text = c.text := by
  cases c with
  | range r => cases r <;> decide
  | _ => decide

/-- Each command is recognised by its own text. -/
theorem commandOf_text (c : Command) : commandOf c.text = some c := by
  cases c with
  | range r => cases r <;> decide
  | _ => decide

/-- A command is recognised exactly when the string is its text. -/
theorem commandOf_eq_some {mem : List UInt8} {c : Command} :
    commandOf mem = some c ↔ cstr mem = c.text := by
  constructor
  · intro h
    unfold commandOf at h
    repeat' split at h
    all_goals first | (cases h; assumption) | cases h
  · intro h
    have hmem : commandOf mem = commandOf c.text := by
      unfold commandOf
      rw [h, cstr_text]
    rw [hmem, commandOf_text]

/-- A string is unknown when it is no command's text. -/
theorem commandOf_eq_none {mem : List UInt8} :
    commandOf mem = none ↔ ∀ c : Command, cstr mem ≠ c.text := by
  rw [Option.eq_none_iff_forall_ne_some]
  simp only [ne_eq, commandOf_eq_some]

/-- `commad_check` is the command language. -/
theorem commadCheck_eq [CFloat F] (mem : List UInt8) :
    commadCheck (F := F) mem = call (.commadCheck mem)
      (match commandOf mem with
        | some c => c.exec
        | none => unknownCommand mem) := by
  unfold commadCheck commandOf
  simp only [strcmp_eq_zero,
    show cstr SER_START = SER_START from cstr_text .start,
    show cstr SER_STOP = SER_STOP from cstr_text .stop,
    show cstr SER_REDG = SER_REDG from cstr_text .redg,
    show cstr SER_REGS = SER_REGS from cstr_text .regs,
    show cstr SER_R02 = SER_R02 from cstr_text (.range .ACCEL_RANGE_2G),
    show cstr SER_R04 = SER_R04 from cstr_text (.range .ACCEL_RANGE_4G),
    show cstr SER_R08 = SER_R08 from cstr_text (.range .ACCEL_RANGE_8G),
    show cstr SER_R16 = SER_R16 from cstr_text (.range .ACCEL_RANGE_16G)]
  congr 1
  by_cases h₁ : cstr mem = SER_START
  · rw [if_pos h₁, if_pos h₁]
    rfl
  rw [if_neg h₁, if_neg h₁]
  by_cases h₂ : cstr mem = SER_STOP
  · rw [if_pos h₂, if_pos h₂]
    rfl
  rw [if_neg h₂, if_neg h₂]
  by_cases h₃ : cstr mem = SER_REDG
  · rw [if_pos h₃, if_pos h₃]
    rfl
  rw [if_neg h₃, if_neg h₃]
  by_cases h₄ : cstr mem = SER_REGS
  · rw [if_pos h₄, if_pos h₄]
    rfl
  rw [if_neg h₄, if_neg h₄]
  by_cases h₅ : cstr mem = SER_R02
  · rw [if_pos h₅, if_pos h₅]
    rfl
  rw [if_neg h₅, if_neg h₅]
  by_cases h₆ : cstr mem = SER_R04
  · rw [if_pos h₆, if_pos h₆]
    rfl
  rw [if_neg h₆, if_neg h₆]
  by_cases h₇ : cstr mem = SER_R08
  · rw [if_pos h₇, if_pos h₇]
    rfl
  rw [if_neg h₇, if_neg h₇]
  by_cases h₈ : cstr mem = SER_R16
  · rw [if_pos h₈, if_pos h₈]
    rfl
  rw [if_neg h₈, if_neg h₈]
  rfl

end MotionTracking
