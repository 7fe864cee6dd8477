import CwBitcoin.Library.ScriptParser
import CwBitcoin.Library.UnitSearch
import CwBitcoin.RedeemScript

/-!
# Reading a redeem script back

A redeem script is parsed into signatories, a threshold and a commitment.  The
voting power of the set is then searched for, starting at the sum of the powers
that were read, until it gives the threshold that was read.  At the end the
script is built again and compared with what was parsed.  The parser itself
returns an error for whatever it does not expect, but what follows it panics.
-/

namespace CwBitcoin

open Script

/-- The third-party functions that read the data pushed by a script. -/
structure ScriptReader where
  /-- Check the bytes of a public key, with the displayed error. -/
  parsePubkey : Bytes → Except String Unit
  /-- Read an operand of at most four bytes. -/
  readScriptint : Bytes → Option Int
  /-- Minimal operands are read as the numbers they encode. -/
  readScriptint_encode : ∀ number, (ScriptNumber.encode number).length ≤ 4 →
    readScriptint (ScriptNumber.encode number) = some number
  /-- The name of an opcode. -/
  showOp : UInt8 → String

def PUBLIC_KEY_SIZE : Nat := 33

/-- A signed 64-bit number read as an unsigned one. -/
def i64AsU64 (value : Int) : Nat := (BitVec.ofInt 64 value).toNat

theorem i64AsU64_of_lt {value : Nat} (small : value < 2 ^ 64) : i64AsU64 value = value := by
  rw [i64AsU64, BitVec.ofInt_natCast, BitVec.toNat_ofNat, Nat.mod_eq_of_lt small]

section Pubkey

/-- A public key from its compressed form, which must be valid. -/
def Pubkey.new (reader : ScriptReader) (bytes : Bytes) (sized : bytes.length = PUBLIC_KEY_SIZE) :
    ContractResult Pubkey :=
  match reader.parsePubkey bytes with
  | .ok () => .ok ⟨bytes, sized⟩
  | .error err => Outcome.fail (.app ("Error deserializing public key from slice: " ++ err))

def Pubkey.tryFromSlice (reader : ScriptReader) (bytes : Bytes) : ContractResult Pubkey :=
  if sized : bytes.length = PUBLIC_KEY_SIZE then Pubkey.new reader bytes sized
  else Outcome.fail (.app "Incorrect length")

theorem Pubkey.tryFromSlice_eq_ok {reader : ScriptReader} {bytes : Bytes} {pubkey : Pubkey} :
    Pubkey.tryFromSlice reader bytes = .ok pubkey ↔
      bytes = pubkey.bytes ∧ reader.parsePubkey pubkey.bytes = .ok () := by
  unfold tryFromSlice
  split
  · rename_i sized
    unfold Pubkey.new
    split
    · rename_i valid
      rw [Except.ok.injEq]
      constructor
      · rintro rfl
        exact ⟨rfl, valid⟩
      · rintro ⟨rfl, -⟩
        rfl
    · rename_i invalid
      refine iff_of_false Outcome.fail_ne_ok ?_
      rintro ⟨rfl, valid⟩
      rw [valid] at invalid
      cases invalid
  · rename_i notSized
    refine iff_of_false Outcome.fail_ne_ok ?_
    rintro ⟨rfl, -⟩
    exact notSized pubkey.length_eq

theorem Pubkey.returns_tryFromSlice (reader : ScriptReader) (bytes : Bytes) :
    (Pubkey.tryFromSlice reader bytes).Returns := by
  unfold tryFromSlice Pubkey.new
  split_ifs
  · split <;> simp
  · simp

end Pubkey

namespace SignatorySet

section Parsing

/-- A parser of the pieces of a redeem script. -/
abbrev Taking (α : Type) := ScriptParser ContractError α

def OP_FALSE : UInt8 := 0x00

def takeInstruction : Taking Instruction := fun script =>
  match script with
  | [] => Outcome.fail (.app "Unexpected end of script")
  | _ :: _ =>
      Outcome.getOr (Outcome.fail (.app "Failed to read script")) (readInstruction script)

/-- Look at the next instruction without taking it. -/
def peekInstruction : Taking Instruction := fun script => do
  let (next, _) ← takeInstruction script
  return (next, script)

def takeBytes : Taking Bytes := do
  match ← takeInstruction with
  | .pushBytes bytes => return bytes
  | .op _ => ScriptParser.lift (Outcome.fail (.app "Expected OP_PUSHBYTES"))

def takeKey (reader : ScriptReader) : Taking Pubkey := do
  let bytes ← takeBytes
  ScriptParser.lift do
    Outcome.require (bytes.length = 33) (.app "Expected 33 bytes")
    Pubkey.tryFromSlice reader bytes

def takeNumber (reader : ScriptReader) : Taking Int := do
  let bytes ← takeBytes
  ScriptParser.lift
    (Outcome.getOr (Outcome.fail (.app "Failed to read scriptint")) (reader.readScriptint bytes))

/-- The opcode of an instruction.  An empty push counts as one. -/
def opcodeOf (mismatch : ContractError) : Instruction → ContractResult UInt8
  | .op op => .ok op
  | .pushBytes [] => .ok OP_FALSE
  | .pushBytes (_ :: _) => Outcome.fail mismatch

def takeOp (reader : ScriptReader) (expectedOp : UInt8) : Taking UInt8 := do
  let mismatch := ContractError.app ("Expected " ++ reader.showOp expectedOp)
  let op ← ScriptParser.lift (opcodeOf mismatch (← takeInstruction))
  ScriptParser.lift (Outcome.require (op = expectedOp) mismatch)
  return op

def takeFirstSignatory (reader : ScriptReader) : Taking Signatory := do
  let pubkey ← takeKey reader
  let _ ← takeOp reader OP_CHECKSIG
  let _ ← takeOp reader OP_IF
  let votingPower ← takeNumber reader
  let _ ← takeOp reader OP_ELSE
  let _ ← takeOp reader OP_FALSE
  let _ ← takeOp reader OP_ENDIF
  return { votingPower := i64AsU64 votingPower, pubkey }

def takeNthSignatory (reader : ScriptReader) : Taking Signatory := do
  let _ ← takeOp reader OP_SWAP
  let pubkey ← takeKey reader
  let _ ← takeOp reader OP_CHECKSIG
  let _ ← takeOp reader OP_IF
  let votingPower ← takeNumber reader
  let _ ← takeOp reader OP_ADD
  let _ ← takeOp reader OP_ENDIF
  return { votingPower := i64AsU64 votingPower, pubkey }

/-- Take signatories for as long as the next instruction is the swap with which
one begins.  Each takes at least one byte. -/
def takeSignatories (reader : ScriptReader) : (fuel : Nat) → Taking (List Signatory)
  | 0 => ScriptParser.lift (Outcome.fail (.app "Unexpected end of script"))
  | fuel + 1 => do
      let next ← peekInstruction
      if next = .op OP_SWAP then
        let signatory ← takeNthSignatory reader
        let others ← takeSignatories reader fuel
        return signatory :: others
      else return []

/-- Take all signatories after the first one. -/
def takeOtherSignatories (reader : ScriptReader) : Taking (List Signatory) := do
  let remaining ← get
  takeSignatories reader (List.length remaining)

def takeThreshold (reader : ScriptReader) : Taking Nat := do
  let threshold ← takeNumber reader
  let _ ← takeOp reader OP_GREATERTHAN
  return i64AsU64 threshold

def takeCommitment (reader : ScriptReader) : Taking Bytes := do
  let bytes ← takeBytes
  let _ ← takeOp reader OP_DROP
  return bytes

/-- What a redeem script says. -/
structure Parts where
  signatories : List Signatory
  threshold : Nat
  commitment : Bytes

/-- The part of `fromScript` that reads instructions. -/
def takeParts (reader : ScriptReader) : Taking Parts := do
  let first ← takeFirstSignatory reader
  let others ← takeOtherSignatories reader
  let threshold ← takeThreshold reader
  let commitment ← takeCommitment reader
  return { signatories := first :: others, threshold, commitment }

end Parsing

section Instructions

variable {reader : ScriptReader} {script rest : Script} {instruction : Instruction}

@[simp]
theorem takeInstruction_eq_ok :
    takeInstruction.run script = .ok (instruction, rest) ↔
      readInstruction script = some (instruction, rest) := by
  cases script with
  | nil => exact iff_of_false Outcome.fail_ne_ok nofun
  | cons code tail => exact Outcome.getOr_fail_eq_ok

@[simp]
theorem peekInstruction_eq_ok :
    peekInstruction.run script = .ok (instruction, rest) ↔
      (∃ following, readInstruction script = some (instruction, following)) ∧ script = rest := by
  have unfolded : peekInstruction.run script =
      takeInstruction.run script >>= fun next => pure (next.1, script) := rfl
  simp only [unfolded, Outcome.bind_eq_ok, Prod.exists, takeInstruction_eq_ok, Outcome.pure_eq_ok,
    Prod.mk.injEq]
  constructor
  · rintro ⟨_, following, read, rfl, rfl⟩
    exact ⟨⟨following, read⟩, rfl⟩
  · rintro ⟨⟨following, read⟩, rfl⟩
    exact ⟨instruction, following, read, rfl, rfl⟩

@[simp]
theorem takeBytes_eq_ok {bytes : Bytes} :
    takeBytes.run script = .ok (bytes, rest) ↔
      readInstruction script = some (.pushBytes bytes, rest) := by
  simp only [takeBytes, ScriptParser.run_bind_eq_ok, takeInstruction_eq_ok]
  constructor
  · rintro ⟨data | code, following, read, taken⟩
    · obtain ⟨rfl, rfl⟩ := ScriptParser.run_pure_eq_ok.mp taken
      exact read
    · simp at taken
  · intro read
    exact ⟨.pushBytes bytes, rest, read, ScriptParser.run_pure_eq_ok.mpr ⟨rfl, rfl⟩⟩

@[simp]
theorem takeKey_eq_ok {pubkey : Pubkey} :
    (takeKey reader).run script = .ok (pubkey, rest) ↔
      reader.parsePubkey pubkey.bytes = .ok () ∧
        readInstruction script = some (.pushBytes pubkey.bytes, rest) := by
  simp only [takeKey, ScriptParser.run_bind_eq_ok, takeBytes_eq_ok, ScriptParser.run_lift_eq_ok,
    Outcome.bind_eq_ok, Outcome.require_eq_ok, Pubkey.tryFromSlice_eq_ok]
  constructor
  · rintro ⟨_, following, read, ⟨_, sized, rfl, valid⟩, rfl⟩
    exact ⟨valid, read⟩
  · rintro ⟨valid, read⟩
    exact ⟨pubkey.bytes, rest, read, ⟨(), pubkey.length_eq, rfl, valid⟩, rfl⟩

@[simp]
theorem takeNumber_eq_ok {number : Int} :
    (takeNumber reader).run script = .ok (number, rest) ↔
      ∃ bytes, reader.readScriptint bytes = some number ∧
        readInstruction script = some (.pushBytes bytes, rest) := by
  simp only [takeNumber, ScriptParser.run_bind_eq_ok, takeBytes_eq_ok, ScriptParser.run_lift_eq_ok,
    Outcome.getOr_fail_eq_ok]
  constructor
  · rintro ⟨bytes, following, read, denotes, rfl⟩
    exact ⟨bytes, denotes, read⟩
  · rintro ⟨bytes, denotes, read⟩
    exact ⟨bytes, rest, read, denotes, rfl⟩

theorem opcodeOf_eq_ok {mismatch : ContractError} {op : UInt8} :
    opcodeOf mismatch instruction = .ok op ↔
      instruction = .op op ∨ instruction = .pushBytes [] ∧ op = OP_FALSE := by
  rcases instruction with (_ | _) | code
  · simp [opcodeOf, eq_comm]
  · simp [opcodeOf]
  · simp [opcodeOf]

theorem takeOp_run_eq_ok {expectedOp op : UInt8} :
    (takeOp reader expectedOp).run script = .ok (op, rest) ↔
      op = expectedOp ∧ (readInstruction script = some (.op op, rest) ∨
        readInstruction script = some (.pushBytes [], rest) ∧ op = OP_FALSE) := by
  simp only [takeOp, ScriptParser.run_bind_eq_ok, takeInstruction_eq_ok,
    ScriptParser.run_lift_eq_ok, Outcome.require_eq_ok, ScriptParser.run_pure_eq_ok,
    opcodeOf_eq_ok]
  constructor
  · rintro ⟨_, _, read, _, _, ⟨rfl | ⟨rfl, rfl⟩, rfl⟩, _, _, ⟨rfl, rfl⟩, rfl, rfl⟩
    · exact ⟨rfl, Or.inl read⟩
    · exact ⟨rfl, Or.inr ⟨read, rfl⟩⟩
  · rintro ⟨rfl, read | ⟨read, rfl⟩⟩
    · exact ⟨_, rest, read, op, rest, ⟨Or.inl rfl, rfl⟩, (), rest, ⟨rfl, rfl⟩, rfl, rfl⟩
    · exact ⟨_, rest, read, _, rest, ⟨Or.inr ⟨rfl, rfl⟩, rfl⟩, (), rest, ⟨rfl, rfl⟩, rfl, rfl⟩

theorem takeOp_eq_ok {expectedOp op : UInt8} (notFalse : expectedOp ≠ OP_FALSE) :
    (takeOp reader expectedOp).run script = .ok (op, rest) ↔
      op = expectedOp ∧ readInstruction script = some (.op expectedOp, rest) := by
  rw [takeOp_run_eq_ok]
  constructor
  · rintro ⟨rfl, read | ⟨-, isFalse⟩⟩
    · exact ⟨rfl, read⟩
    · exact absurd isFalse notFalse
  · rintro ⟨rfl, read⟩
    exact ⟨rfl, Or.inl read⟩

theorem takeOp_false_eq_ok {op : UInt8} :
    (takeOp reader OP_FALSE).run script = .ok (op, rest) ↔
      op = OP_FALSE ∧ readInstruction script = some (.pushBytes [], rest) := by
  rw [takeOp_run_eq_ok]
  constructor
  · rintro ⟨rfl, read | ⟨read, -⟩⟩
    · exact absurd rfl (readInstruction_op_ne_zero read)
    · exact ⟨rfl, read⟩
  · rintro ⟨rfl, read⟩
    exact ⟨rfl, Or.inr ⟨read, rfl⟩⟩

end Instructions

section Signatories

variable {reader : ScriptReader} {script rest : Script}

/-- The bytes are an operand that is used as the given unsigned number. -/
def Denotes (reader : ScriptReader) (bytes : Bytes) (value : Nat) : Prop :=
  ∃ number, reader.readScriptint bytes = some number ∧ i64AsU64 number = value

/-- A signatory as a script contains it, with the operand that denotes its
voting power. -/
structure WrittenSignatory (reader : ScriptReader) where
  signatory : Signatory
  power : Bytes
  valid : reader.parsePubkey signatory.pubkey.bytes = .ok ()
  denotes : Denotes reader power signatory.votingPower

def WrittenSignatory.firstInstructions (written : WrittenSignatory reader) : List Instruction :=
  [.pushBytes written.signatory.pubkey.bytes, .op OP_CHECKSIG, .op OP_IF,
    .pushBytes written.power, .op OP_ELSE, .pushBytes [], .op OP_ENDIF]

def WrittenSignatory.nthInstructions (written : WrittenSignatory reader) : List Instruction :=
  [.op OP_SWAP, .pushBytes written.signatory.pubkey.bytes, .op OP_CHECKSIG, .op OP_IF,
    .pushBytes written.power, .op OP_ADD, .op OP_ENDIF]

theorem takeFirstSignatory_eq_ok {signatory : Signatory} :
    (takeFirstSignatory reader).run script = .ok (signatory, rest) ↔
      ∃ written : WrittenSignatory reader, written.signatory = signatory ∧
        Reads script written.firstInstructions rest := by
  have checksig : OP_CHECKSIG ≠ OP_FALSE := by decide
  have opIf : OP_IF ≠ OP_FALSE := by decide
  have opElse : OP_ELSE ≠ OP_FALSE := by decide
  have endif : OP_ENDIF ≠ OP_FALSE := by decide
  simp only [takeFirstSignatory, ScriptParser.run_bind_eq_ok, takeKey_eq_ok, takeNumber_eq_ok,
    takeOp_eq_ok checksig, takeOp_eq_ok opIf, takeOp_eq_ok opElse, takeOp_eq_ok endif,
    takeOp_false_eq_ok, ScriptParser.run_pure_eq_ok, WrittenSignatory.firstInstructions,
    reads_cons, reads_nil]
  constructor
  · rintro ⟨pubkey, s₁, ⟨valid, r₁⟩, _, s₂, ⟨-, r₂⟩, _, s₃, ⟨-, r₃⟩, number, s₄,
      ⟨bytes, denotes, r₄⟩, _, s₅, ⟨-, r₅⟩, _, s₆, ⟨-, r₆⟩, _, s₇, ⟨-, r₇⟩, rfl, rfl⟩
    exact ⟨⟨⟨i64AsU64 number, pubkey⟩, bytes, valid, ⟨number, denotes, rfl⟩⟩, rfl,
      s₁, r₁, s₂, r₂, s₃, r₃, s₄, r₄, s₅, r₅, s₆, r₆, s₇, r₇, rfl⟩
  · rintro ⟨written, rfl, s₁, r₁, s₂, r₂, s₃, r₃, s₄, r₄, s₅, r₅, s₆, r₆, s₇, r₇, rfl⟩
    obtain ⟨number, denotes, powerEq⟩ := written.denotes
    refine ⟨_, s₁, ⟨written.valid, r₁⟩, _, s₂, ⟨rfl, r₂⟩, _, s₃, ⟨rfl, r₃⟩, number, s₄,
      ⟨_, denotes, r₄⟩, _, s₅, ⟨rfl, r₅⟩, _, s₆, ⟨rfl, r₆⟩, _, s₇, ⟨rfl, r₇⟩, ?_, rfl⟩
    rw [powerEq]

theorem takeNthSignatory_eq_ok {signatory : Signatory} :
    (takeNthSignatory reader).run script = .ok (signatory, rest) ↔
      ∃ written : WrittenSignatory reader, written.signatory = signatory ∧
        Reads script written.nthInstructions rest := by
  have swap : OP_SWAP ≠ OP_FALSE := by decide
  have checksig : OP_CHECKSIG ≠ OP_FALSE := by decide
  have opIf : OP_IF ≠ OP_FALSE := by decide
  have add : OP_ADD ≠ OP_FALSE := by decide
  have endif : OP_ENDIF ≠ OP_FALSE := by decide
  simp only [takeNthSignatory, ScriptParser.run_bind_eq_ok, takeKey_eq_ok, takeNumber_eq_ok,
    takeOp_eq_ok swap, takeOp_eq_ok checksig, takeOp_eq_ok opIf, takeOp_eq_ok add,
    takeOp_eq_ok endif, ScriptParser.run_pure_eq_ok, WrittenSignatory.nthInstructions,
    reads_cons, reads_nil]
  constructor
  · rintro ⟨_, s₁, ⟨-, r₁⟩, pubkey, s₂, ⟨valid, r₂⟩, _, s₃, ⟨-, r₃⟩, _, s₄, ⟨-, r₄⟩,
      number, s₅, ⟨bytes, denotes, r₅⟩, _, s₆, ⟨-, r₆⟩, _, s₇, ⟨-, r₇⟩, rfl, rfl⟩
    exact ⟨⟨⟨i64AsU64 number, pubkey⟩, bytes, valid, ⟨number, denotes, rfl⟩⟩, rfl,
      s₁, r₁, s₂, r₂, s₃, r₃, s₄, r₄, s₅, r₅, s₆, r₆, s₇, r₇, rfl⟩
  · rintro ⟨written, rfl, s₁, r₁, s₂, r₂, s₃, r₃, s₄, r₄, s₅, r₅, s₆, r₆, s₇, r₇, rfl⟩
    obtain ⟨number, denotes, powerEq⟩ := written.denotes
    refine ⟨_, s₁, ⟨rfl, r₁⟩, _, s₂, ⟨written.valid, r₂⟩, _, s₃, ⟨rfl, r₃⟩, _, s₄, ⟨rfl, r₄⟩,
      number, s₅, ⟨_, denotes, r₅⟩, _, s₆, ⟨rfl, r₆⟩, _, s₇, ⟨rfl, r₇⟩, ?_, rfl⟩
    rw [powerEq]

theorem takeNthSignatory_length_lt {signatory : Signatory}
    (taken : (takeNthSignatory reader).run script = .ok (signatory, rest)) :
    rest.length < script.length := by
  obtain ⟨written, -, reads⟩ := takeNthSignatory_eq_ok.mp taken
  obtain ⟨following, swap, others⟩ := reads_cons.mp reads
  exact others.length_le.trans_lt (length_readInstruction_lt swap)

/-- Fuel for every byte of the script is as good as more of it. -/
theorem run_takeSignatories_congr {fuel more : Nat} (enough : script.length ≤ fuel)
    (moreEnough : script.length ≤ more) :
    (takeSignatories reader fuel).run script = (takeSignatories reader more).run script := by
  have used (steps : Nat) : (takeSignatories reader steps).run [] =
      Outcome.fail (.app "Unexpected end of script") := by
    cases steps <;> rfl
  induction fuel generalizing more script with
  | zero =>
      obtain rfl := List.length_eq_zero_iff.mp (Nat.le_zero.mp enough)
      rw [used, used]
  | succ fuel ih =>
      cases more with
      | zero =>
          obtain rfl := List.length_eq_zero_iff.mp (Nat.le_zero.mp moreEnough)
          rw [used, used]
      | succ more =>
          simp only [takeSignatories, StateT.run_bind]
          refine Outcome.bind_congr fun ⟨next, script'⟩ peeked => ?_
          obtain ⟨-, rfl⟩ := peekInstruction_eq_ok.mp peeked
          dsimp only
          split
          · simp only [StateT.run_bind]
            refine Outcome.bind_congr fun ⟨signatory, following⟩ taken => ?_
            have shorter := takeNthSignatory_length_lt taken
            rw [ih (by omega : following.length ≤ fuel) (by omega : following.length ≤ more)]
          · rfl

/-- The loop over the signatories without fuel. -/
theorem run_takeOtherSignatories (script : Script) :
    (takeOtherSignatories reader).run script =
      StateT.run (do
        let next ← peekInstruction
        if next = .op OP_SWAP then
          let signatory ← takeNthSignatory reader
          let others ← takeOtherSignatories reader
          return signatory :: others
        else return []) script := by
  have unfolded (script : Script) : (takeOtherSignatories reader).run script =
      (takeSignatories reader script.length).run script := rfl
  rw [unfolded, run_takeSignatories_congr le_rfl (Nat.le_succ script.length), takeSignatories]
  simp only [StateT.run_bind]
  refine Outcome.bind_congr fun ⟨next, peeked⟩ peeking => ?_
  obtain ⟨-, rfl⟩ := peekInstruction_eq_ok.mp peeking
  dsimp only
  split
  · simp only [StateT.run_bind]
    refine Outcome.bind_congr fun ⟨signatory, following⟩ taken => ?_
    rw [unfolded, run_takeSignatories_congr (takeNthSignatory_length_lt taken).le le_rfl]
  · rfl

/-- The signatories that are taken are followed by an instruction other than a
swap. -/
theorem takeOtherSignatories_eq_ok {signatories : List Signatory} :
    (takeOtherSignatories reader).run script = .ok (signatories, rest) ↔
      (∃ written : List (WrittenSignatory reader),
        written.map WrittenSignatory.signatory = signatories ∧
          Reads script (written.flatMap WrittenSignatory.nthInstructions) rest) ∧
        ∃ next following, readInstruction rest = some (next, following) ∧ next ≠ .op OP_SWAP := by
  induction length : script.length using Nat.strong_induction_on generalizing script signatories with
  | _ _ ih =>
    subst length
    rw [run_takeOtherSignatories]
    simp only [ScriptParser.run_bind_eq_ok, peekInstruction_eq_ok]
    constructor
    · rintro ⟨next, _, ⟨⟨following, peeked⟩, rfl⟩, taken⟩
      split at taken
      · simp only [ScriptParser.run_bind_eq_ok, ScriptParser.run_pure_eq_ok] at taken
        obtain ⟨signatory, middle, one, others, _, taken, rfl, rfl⟩ := taken
        obtain ⟨⟨tail, rfl, reads⟩, stops⟩ :=
          (ih _ (takeNthSignatory_length_lt one) rfl).mp taken
        obtain ⟨head, rfl, headReads⟩ := takeNthSignatory_eq_ok.mp one
        exact ⟨⟨head :: tail, rfl, reads_append.mpr ⟨middle, headReads, reads⟩⟩, stops⟩
      · rename_i other
        obtain ⟨rfl, rfl⟩ := ScriptParser.run_pure_eq_ok.mp taken
        exact ⟨⟨[], rfl, .nil⟩, next, following, peeked, other⟩
    · rintro ⟨⟨written, rfl, reads⟩, stops⟩
      cases written with
      | nil =>
          obtain rfl := reads_nil.mp reads
          obtain ⟨next, following, peeked, other⟩ := stops
          refine ⟨next, script, ⟨⟨following, peeked⟩, rfl⟩, ?_⟩
          rw [if_neg other]
          exact ScriptParser.run_pure_eq_ok.mpr ⟨rfl, rfl⟩
      | cons head tail =>
          obtain ⟨middle, headReads, tailReads⟩ := reads_append.mp reads
          obtain ⟨following, swap, -⟩ := reads_cons.mp headReads
          have one := takeNthSignatory_eq_ok.mpr ⟨head, rfl, headReads⟩
          have taken := (ih _ (takeNthSignatory_length_lt one) rfl).mpr
            ⟨⟨tail, rfl, tailReads⟩, stops⟩
          refine ⟨_, script, ⟨⟨following, swap⟩, rfl⟩, ?_⟩
          simp only [if_true, ScriptParser.run_bind_eq_ok, ScriptParser.run_pure_eq_ok]
          exact ⟨_, middle, one, _, rest, taken, rfl, rfl⟩

/-- What a redeem script says, with the operands that say it. -/
structure WrittenParts (reader : ScriptReader) where
  first : WrittenSignatory reader
  others : List (WrittenSignatory reader)
  threshold : Nat
  operand : Bytes
  denotes : Denotes reader operand threshold
  commitment : Bytes

namespace WrittenParts

def parts (written : WrittenParts reader) : Parts where
  signatories := (written.first :: written.others).map WrittenSignatory.signatory
  threshold := written.threshold
  commitment := written.commitment

def closing (written : WrittenParts reader) : List Instruction :=
  [.pushBytes written.operand, .op OP_GREATERTHAN, .pushBytes written.commitment, .op OP_DROP]

/-- The instructions of a redeem script. -/
def instructions (written : WrittenParts reader) : List Instruction :=
  written.first.firstInstructions ++
    (written.others.flatMap WrittenSignatory.nthInstructions ++ written.closing)

end WrittenParts

theorem takeThreshold_eq_ok {threshold : Nat} :
    (takeThreshold reader).run script = .ok (threshold, rest) ↔
      ∃ operand, Denotes reader operand threshold ∧
        Reads script [.pushBytes operand, .op OP_GREATERTHAN] rest := by
  have greaterthan : OP_GREATERTHAN ≠ OP_FALSE := by decide
  simp only [takeThreshold, ScriptParser.run_bind_eq_ok, takeNumber_eq_ok,
    takeOp_eq_ok greaterthan, ScriptParser.run_pure_eq_ok, reads_cons, reads_nil]
  constructor
  · rintro ⟨number, middle, ⟨operand, denotes, pushed⟩, _, _, ⟨-, compared⟩, rfl, rfl⟩
    exact ⟨operand, ⟨number, denotes, rfl⟩, middle, pushed, _, compared, rfl⟩
  · rintro ⟨operand, ⟨number, denotes, rfl⟩, middle, pushed, _, compared, rfl⟩
    exact ⟨number, middle, ⟨operand, denotes, pushed⟩, _, _, ⟨rfl, compared⟩, rfl, rfl⟩

theorem takeCommitment_eq_ok {commitment : Bytes} :
    (takeCommitment reader).run script = .ok (commitment, rest) ↔
      Reads script [.pushBytes commitment, .op OP_DROP] rest := by
  have drop : OP_DROP ≠ OP_FALSE := by decide
  simp only [takeCommitment, ScriptParser.run_bind_eq_ok, takeBytes_eq_ok, takeOp_eq_ok drop,
    ScriptParser.run_pure_eq_ok, reads_cons, reads_nil]
  constructor
  · rintro ⟨_, middle, pushed, _, _, ⟨-, dropped⟩, rfl, rfl⟩
    exact ⟨middle, pushed, _, dropped, rfl⟩
  · rintro ⟨middle, pushed, _, dropped, rfl⟩
    exact ⟨commitment, middle, pushed, _, _, ⟨rfl, dropped⟩, rfl, rfl⟩

/-- The parser accepts exactly the scripts that begin with the instructions of a
redeem script. -/
theorem takeParts_eq_ok {parts : Parts} :
    (takeParts reader).run script = .ok (parts, rest) ↔
      ∃ written : WrittenParts reader, written.parts = parts ∧
        Reads script written.instructions rest := by
  simp only [takeParts, ScriptParser.run_bind_eq_ok, takeFirstSignatory_eq_ok,
    takeOtherSignatories_eq_ok, takeThreshold_eq_ok, takeCommitment_eq_ok,
    ScriptParser.run_pure_eq_ok]
  constructor
  · rintro ⟨_, afterFirst, ⟨first, rfl, firstReads⟩, _, afterOthers, ⟨⟨others, rfl, othersReads⟩, -⟩,
      threshold, afterThreshold, ⟨operand, denotes, thresholdReads⟩, commitment, _,
      commitmentReads, rfl, rfl⟩
    exact ⟨⟨first, others, threshold, operand, denotes, commitment⟩, rfl,
      reads_append.mpr ⟨afterFirst, firstReads, reads_append.mpr
        ⟨afterOthers, othersReads, reads_append.mpr
          ⟨afterThreshold, thresholdReads, commitmentReads⟩⟩⟩⟩
  · rintro ⟨written, rfl, reads⟩
    obtain ⟨afterFirst, firstReads, reads⟩ := reads_append.mp reads
    obtain ⟨afterOthers, othersReads, reads⟩ := reads_append.mp reads
    obtain ⟨afterThreshold, thresholdReads, commitmentReads⟩ : ∃ afterThreshold,
        Reads afterOthers [.pushBytes written.operand, .op OP_GREATERTHAN] afterThreshold ∧
          Reads afterThreshold [.pushBytes written.commitment, .op OP_DROP] rest :=
      reads_append.mp reads
    obtain ⟨following, pushed, -⟩ := reads_cons.mp thresholdReads
    exact ⟨_, afterFirst, ⟨written.first, rfl, firstReads⟩, _, afterOthers,
      ⟨⟨written.others, rfl, othersReads⟩, _, following, pushed, by simp⟩, written.threshold,
      afterThreshold, ⟨written.operand, written.denotes, thresholdReads⟩, written.commitment,
      rest, commitmentReads, rfl, rfl⟩

end Signatories

section NoPanic

/-! Whatever a parser is given, it ends with a value or an error. -/

open ScriptParser

theorem returns_takeInstruction : Returns takeInstruction := by
  intro script
  cases script with
  | nil => exact Outcome.returns_fail _
  | cons code tail => exact Outcome.returns_getOr_fail _ _

theorem returns_peekInstruction : Returns peekInstruction := by
  intro script
  exact Outcome.returns_bind.mpr
    ⟨returns_takeInstruction script, fun _ _ => Outcome.returns_pure _⟩

theorem returns_takeBytes : Returns takeBytes := by
  refine returns_bind returns_takeInstruction fun instruction => ?_
  cases instruction with
  | pushBytes bytes => exact returns_pure bytes
  | op code => exact returns_lift (Outcome.returns_fail _)

theorem returns_takeOp (reader : ScriptReader) (expectedOp : UInt8) :
    Returns (takeOp reader expectedOp) := by
  refine returns_bind returns_takeInstruction fun instruction => ?_
  refine returns_bind (returns_lift ?_) fun op => ?_
  · rcases instruction with (_ | _) | _ <;> simp [opcodeOf]
  · exact returns_bind (returns_lift (Outcome.returns_require _ _)) fun _ => returns_pure op

theorem returns_takeNumber (reader : ScriptReader) : Returns (takeNumber reader) :=
  returns_bind returns_takeBytes fun _ => returns_lift (Outcome.returns_getOr_fail _ _)

theorem returns_takeKey (reader : ScriptReader) : Returns (takeKey reader) := by
  refine returns_bind returns_takeBytes fun bytes => returns_lift ?_
  simp [Pubkey.returns_tryFromSlice]

/-- An opcode is taken without a panic, whatever follows. -/
theorem returns_takeOp_bind {α : Type} {reader : ScriptReader} {expectedOp : UInt8}
    {next : UInt8 → Taking α} (returns : ∀ op, Returns (next op)) :
    Returns (takeOp reader expectedOp >>= next) :=
  returns_bind (returns_takeOp reader expectedOp) returns

theorem returns_takeFirstSignatory (reader : ScriptReader) :
    Returns (takeFirstSignatory reader) := by
  refine returns_bind (returns_takeKey reader) fun pubkey => ?_
  refine returns_takeOp_bind fun _ => returns_takeOp_bind fun _ => ?_
  refine returns_bind (returns_takeNumber reader) fun votingPower => ?_
  refine returns_takeOp_bind fun _ => returns_takeOp_bind fun _ => returns_takeOp_bind fun _ => ?_
  exact returns_pure _

theorem returns_takeNthSignatory (reader : ScriptReader) : Returns (takeNthSignatory reader) := by
  refine returns_takeOp_bind fun _ => ?_
  refine returns_bind (returns_takeKey reader) fun pubkey => ?_
  refine returns_takeOp_bind fun _ => returns_takeOp_bind fun _ => ?_
  refine returns_bind (returns_takeNumber reader) fun votingPower => ?_
  exact returns_takeOp_bind fun _ => returns_takeOp_bind fun _ => returns_pure _

theorem returns_takeSignatories (reader : ScriptReader) (fuel : Nat) :
    Returns (takeSignatories reader fuel) := by
  induction fuel with
  | zero => exact returns_lift (Outcome.returns_fail _)
  | succ fuel ih =>
      refine returns_bind returns_peekInstruction fun next => ?_
      split
      · exact returns_bind (returns_takeNthSignatory reader) fun signatory =>
          returns_bind ih fun others => returns_pure _
      · exact returns_pure _

theorem returns_takeParts (reader : ScriptReader) : Returns (takeParts reader) := by
  refine returns_bind (returns_takeFirstSignatory reader) fun first => ?_
  refine returns_bind (fun script => returns_takeSignatories reader _ script) fun others => ?_
  refine returns_bind ?_ fun threshold => returns_bind ?_ fun commitment => returns_pure _
  · exact returns_bind (returns_takeNumber reader) fun _ =>
      returns_takeOp_bind fun _ => returns_pure _
  · exact returns_bind returns_takeBytes fun _ => returns_takeOp_bind fun _ => returns_pure _

end NoPanic

/-- Move the voting power towards one that gives the expected threshold. -/
def approachThreshold (thresholdRatio : Nat × Nat) (expectedThreshold : Nat) :
    (steps : Nat) → SignatorySet → ContractResult SignatorySet
  | 0, sigset => .ok sigset
  | steps + 1, sigset => do
      let actualThreshold ← sigset.signatureThreshold thresholdRatio
      match compare actualThreshold expectedThreshold with
      | .eq => return sigset
      | .lt => do
          let presentVp ← Outcome.checkedAdd 64 sigset.presentVp 1
          let possibleVp ← Outcome.checkedAdd 64 sigset.possibleVp 1
          approachThreshold thresholdRatio expectedThreshold steps
            { sigset with presentVp, possibleVp }
      | .gt => do
          let presentVp ← Outcome.checkedSub sigset.presentVp 1
          let possibleVp ← Outcome.checkedSub sigset.possibleVp 1
          approachThreshold thresholdRatio expectedThreshold steps
            { sigset with presentVp, possibleVp }

/-- The set with signatories that were read and a voting power. -/
def ofSignatories (signatories : List Signatory) (vp : Nat) : SignatorySet where
  createTime := 0
  presentVp := vp
  possibleVp := vp
  index := 0
  signatories := signatories

/-- Find a signatory set and a commitment with the given redeem script. -/
def fromScript (reader : ScriptReader) (script : Script) (thresholdRatio : Nat × Nat) :
    ContractResult (SignatorySet × Bytes) := do
  let (parts, rest) ← (takeParts reader).run script
  Outcome.assert (rest = [])
  let totalVp ← Outcome.checkedSum 64 0 (parts.signatories.map Signatory.votingPower)
  let sigset ← approachThreshold thresholdRatio parts.threshold 100
    (ofSignatories parts.signatories totalVp)
  let actualThreshold ← sigset.signatureThreshold thresholdRatio
  Outcome.assert (actualThreshold = parts.threshold)
  let redeemScript ← sigset.redeemScript parts.commitment thresholdRatio
  Outcome.assert (redeemScript = script)
  return (sigset, parts.commitment)

section Search

variable {ratio : Nat × Nat} {expected steps vp : Nat} {signatories : List Signatory}
  {sigset : SignatorySet}

/-- The threshold that a voting power gives, which is cut to 64 bits. -/
def thresholdAt (ratio : Nat × Nat) (vp : Nat) : Nat := vp * ratio.1 / ratio.2 % 2 ^ 64

theorem signatureThreshold_ofSignatories (numerator : ratio.1 < 2 ^ 64)
    (denominator : ratio.2 ≠ 0) (small : vp < 2 ^ 64) :
    (ofSignatories signatories vp).signatureThreshold ratio = .ok (thresholdAt ratio vp) := by
  have product : vp * ratio.1 < 2 ^ 128 := by
    calc vp * ratio.1 < 2 ^ 64 * 2 ^ 64 := Nat.mul_lt_mul'' small numerator
      _ = 2 ^ 128 := by decide
  simp only [signatureThreshold, ofSignatories, Outcome.bind_eq_ok, Outcome.checkedMul_eq_ok,
    Outcome.checkedDiv_eq_ok, Outcome.pure_eq_ok]
  exact ⟨_, ⟨product, rfl⟩, _, ⟨denominator, rfl⟩, rfl⟩

/-- The steps towards the threshold end at a voting power that gives it exactly
when they meet one that is in range. -/
theorem approachThreshold_eq_ok (numerator : ratio.1 < 2 ^ 64) (denominator : ratio.2 ≠ 0)
    (small : vp < 2 ^ 64) :
    (approachThreshold ratio expected steps (ofSignatories signatories vp) = .ok sigset ∧
        sigset.signatureThreshold ratio = .ok expected) ↔
      ∃ found, found < 2 ^ 64 ∧
        UnitSearch.Meets (thresholdAt ratio) expected steps vp found ∧
        sigset = ofSignatories signatories found := by
  have thresholdEq {vp : Nat} (small : vp < 2 ^ 64) :
      (ofSignatories signatories vp).signatureThreshold ratio = .ok (thresholdAt ratio vp) :=
    signatureThreshold_ofSignatories numerator denominator small
  induction steps generalizing vp with
  | zero =>
      rw [approachThreshold, Except.ok.injEq]
      constructor
      · rintro ⟨rfl, hits⟩
        rw [thresholdEq small, Except.ok.injEq] at hits
        exact ⟨vp, small, (UnitSearch.meets_of_hit hits).mpr rfl, rfl⟩
      · rintro ⟨found, _, meets, rfl⟩
        obtain rfl : found = vp := le_antisymm meets.up_le meets.down_le
        exact ⟨rfl, (thresholdEq small).trans (congrArg Except.ok meets.hits)⟩
  | succ steps ih =>
      rw [approachThreshold, thresholdEq small, Outcome.ok_bind]
      rcases Nat.lt_trichotomy (thresholdAt ratio vp) expected with low | hits | high
      · simp only [compare_lt_iff_lt.mpr low, Outcome.bind_eq_ok, Outcome.checkedAdd_eq_ok]
        constructor
        · rintro ⟨⟨_, ⟨inRange, rfl⟩, _, ⟨_, rfl⟩, moved⟩, hits⟩
          obtain ⟨found, foundLt, meets, rfl⟩ := (ih inRange).mp ⟨moved, hits⟩
          exact ⟨found, foundLt, (UnitSearch.meets_of_lt low).mpr meets, rfl⟩
        · rintro ⟨found, foundLt, meets, rfl⟩
          have inRange : vp + 1 < 2 ^ 64 := Nat.lt_of_le_of_lt (meets.start_lt low) foundLt
          obtain ⟨moved, hits⟩ :=
            (ih inRange).mpr ⟨found, foundLt, (UnitSearch.meets_of_lt low).mp meets, rfl⟩
          exact ⟨⟨_, ⟨inRange, rfl⟩, _, ⟨inRange, rfl⟩, moved⟩, hits⟩
      · simp only [compare_eq_iff_eq.mpr hits, Outcome.pure_eq_ok]
        constructor
        · rintro ⟨rfl, -⟩
          exact ⟨vp, small, (UnitSearch.meets_of_hit hits).mpr rfl, rfl⟩
        · rintro ⟨found, _, meets, rfl⟩
          obtain rfl := (UnitSearch.meets_of_hit hits).mp meets
          exact ⟨rfl, (thresholdEq small).trans (congrArg Except.ok hits)⟩
      · -- No voting power gives no threshold, so there is one to take away.
        obtain ⟨lower, rfl⟩ : ∃ lower, vp = lower + 1 := by
          apply Nat.exists_eq_succ_of_ne_zero
          rintro rfl
          simp [thresholdAt] at high
        simp only [compare_gt_iff_gt.mpr high, Outcome.bind_eq_ok, Outcome.checkedSub_eq_ok]
        have lowerLt : lower < 2 ^ 64 := Nat.lt_of_succ_lt small
        have enough : 1 ≤ lower + 1 := Nat.le_add_left 1 lower
        constructor
        · rintro ⟨⟨_, ⟨_, rfl⟩, _, ⟨_, rfl⟩, moved⟩, hits⟩
          obtain ⟨found, foundLt, meets, rfl⟩ := (ih lowerLt).mp ⟨moved, hits⟩
          exact ⟨found, foundLt, (UnitSearch.meets_of_gt high).mpr meets, rfl⟩
        · rintro ⟨found, foundLt, meets, rfl⟩
          obtain ⟨moved, hits⟩ :=
            (ih lowerLt).mpr ⟨found, foundLt, (UnitSearch.meets_of_gt high).mp meets, rfl⟩
          exact ⟨⟨_, ⟨enough, rfl⟩, _, ⟨enough, rfl⟩, moved⟩, hits⟩

theorem avoids_signatureThreshold (sigset : SignatorySet) (ratio : Nat × Nat)
    (reason : ContractError) : Outcome.Avoids reason (sigset.signatureThreshold ratio) := by
  refine (Outcome.avoids_checkedMul _ _ _).bind fun _ _ => ?_
  exact (Outcome.avoids_checkedDiv _ _).bind fun _ _ => Outcome.avoids_pure _

/-- Only an empty set has no script for a reason that is returned. -/
theorem avoids_redeemScript (nonempty : sigset.signatories ≠ []) (dest : Bytes)
    (ratio : Nat × Nat) (reason : ContractError) :
    Outcome.Avoids reason (sigset.redeemScript dest ratio) := by
  unfold redeemScript
  split
  · contradiction
  · refine (avoids_signatureThreshold sigset ratio reason).bind fun _ _ => ?_
    exact (Outcome.avoids_assert _).bind fun _ _ => Outcome.avoids_pure _

/-- The search either ends or panics. -/
theorem avoids_approachThreshold (reason : ContractError) :
    Outcome.Avoids reason (approachThreshold ratio expected steps sigset) := by
  induction steps generalizing sigset with
  | zero => exact Outcome.avoids_ok _
  | succ steps ih =>
      refine Outcome.Avoids.bind (avoids_signatureThreshold sigset ratio reason) fun actual _ => ?_
      split
      · exact Outcome.avoids_pure _
      · exact (Outcome.avoids_checkedAdd _ _ _).bind fun _ _ =>
          (Outcome.avoids_checkedAdd _ _ _).bind fun _ _ => ih
      · exact (Outcome.avoids_checkedSub _ _).bind fun _ _ =>
          (Outcome.avoids_checkedSub _ _).bind fun _ _ => ih

end Search

section Reading

variable {reader : ScriptReader} {script rest : Script} {ratio : Nat × Nat} {parts : Parts}

/-- Starting at the sum of the powers that were read, the search meets a voting
power with which the set has the given script. -/
structure Parts.FoundAt (parts : Parts) (ratio : Nat × Nat) (script : Script) (found : Nat) :
    Prop where
  sum_lt : (parts.signatories.map Signatory.votingPower).sum < 2 ^ 64
  found_lt : found < 2 ^ 64
  meets : UnitSearch.Meets (thresholdAt ratio) parts.threshold 100
    (parts.signatories.map Signatory.votingPower).sum found
  rebuilt : (ofSignatories parts.signatories found).redeemScript parts.commitment ratio = .ok script

/-- Exactly what is parsed to its end and rebuilt is read back. -/
theorem fromScript_eq_ok (numerator : ratio.1 < 2 ^ 64) (denominator : ratio.2 ≠ 0)
    {read : SignatorySet × Bytes} :
    fromScript reader script ratio = .ok read ↔
      ∃ parts found, (takeParts reader).run script = .ok (parts, []) ∧
        parts.FoundAt ratio script found ∧
        read = (ofSignatories parts.signatories found, parts.commitment) := by
  simp only [fromScript, Outcome.bind_eq_ok, Outcome.assert_eq_ok, Outcome.pure_eq_ok,
    Prod.exists]
  constructor
  · rintro ⟨parts, _, taken, _, rfl, totalVp, summed, sigset, approached, threshold, thresholdEq,
      _, rfl, _, rebuilt, _, rfl, rfl⟩
    have sumLt := Outcome.checkedSum_lt (by decide) summed
    obtain rfl := (Outcome.checkedSum_eq_ok summed).trans (Nat.zero_add _)
    obtain ⟨found, foundLt, meets, rfl⟩ :=
      (approachThreshold_eq_ok numerator denominator sumLt).mp ⟨approached, thresholdEq⟩
    exact ⟨parts, found, taken, ⟨sumLt, foundLt, meets, rebuilt⟩, rfl⟩
  · rintro ⟨parts, found, taken, foundAt, rfl⟩
    obtain ⟨approached, thresholdEq⟩ :=
      (approachThreshold_eq_ok numerator denominator foundAt.sum_lt).mpr
        ⟨found, foundAt.found_lt, foundAt.meets, rfl⟩
    exact ⟨parts, [], taken, (), rfl, _, Outcome.checkedSum_of_lt foundAt.sum_lt, _, approached,
      parts.threshold, thresholdEq, (), rfl, script, foundAt.rebuilt, (), rfl, rfl⟩

/-- After the parser, nothing is returned as an error. -/
theorem avoids_fromScript (numerator : ratio.1 < 2 ^ 64) (denominator : ratio.2 ≠ 0)
    (taken : (takeParts reader).run script = .ok (parts, rest)) (reason : ContractError) :
    Outcome.Avoids reason (fromScript reader script ratio) := by
  obtain ⟨written, rfl, -⟩ := takeParts_eq_ok.mp taken
  rw [fromScript, taken, Outcome.ok_bind]
  refine (Outcome.avoids_assert _).bind fun _ _ => ?_
  refine (Outcome.avoids_checkedSum _ _ _).bind fun totalVp summed => ?_
  refine (avoids_approachThreshold reason).bind fun sigset approached => ?_
  refine (avoids_signatureThreshold sigset ratio reason).bind fun actual thresholdEq => ?_
  refine (Outcome.avoids_assert _).bind fun _ equal => ?_
  obtain rfl := Outcome.assert_eq_ok.mp equal
  have totalLt := Outcome.checkedSum_lt (by decide) summed
  obtain ⟨found, -, -, rfl⟩ :=
    (approachThreshold_eq_ok numerator denominator totalLt).mp ⟨approached, thresholdEq⟩
  refine (avoids_redeemScript (List.cons_ne_nil _ _) _ _ reason).bind fun _ _ => ?_
  exact (Outcome.avoids_assert _).bind fun _ _ => Outcome.avoids_pure _

/-- The function returns, and only scripts of the set and the commitment that it
gives are read back, exactly when a script that begins like a redeem script ends
there and is built again from what was read. -/
theorem fromScript_returns_iff (reader : ScriptReader) (script : Script)
    (numerator : ratio.1 < 2 ^ 64) (denominator : ratio.2 ≠ 0) :
    ((fromScript reader script ratio).Returns ∧
        (fromScript reader script ratio).Ensures fun read =>
          read.1.redeemScript read.2 ratio = .ok script) ↔
      ∀ (written : WrittenParts reader) (rest : Script), Reads script written.instructions rest →
        rest = [] ∧ ∃ found, written.parts.FoundAt ratio script found := by
  constructor
  · rintro ⟨returns, -⟩ written rest reads
    have taken := takeParts_eq_ok.mpr ⟨written, rfl, reads⟩
    obtain ⟨read, fromEq⟩ : ∃ read, fromScript reader script ratio = .ok read := by
      rcases returns.cases with succeeds | ⟨reason, failed⟩
      · exact succeeds
      · exact absurd failed (avoids_fromScript numerator denominator taken reason)
    obtain ⟨parts, found, takenWhole, foundAt, -⟩ :=
      (fromScript_eq_ok numerator denominator).mp fromEq
    obtain ⟨rfl, rfl⟩ := Prod.mk.inj (Except.ok.inj (taken.symm.trans takenWhole))
    exact ⟨rfl, found, foundAt⟩
  · intro rebuilt
    constructor
    · rcases (returns_takeParts reader script).cases with ⟨⟨parts, rest⟩, taken⟩ | ⟨reason, failed⟩
      · obtain ⟨written, rfl, reads⟩ := takeParts_eq_ok.mp taken
        obtain ⟨rfl, found, foundAt⟩ := rebuilt written rest reads
        exact Outcome.returns_of_eq_ok ((fromScript_eq_ok numerator denominator).mpr
          ⟨written.parts, found, taken, foundAt, rfl⟩)
      · rw [fromScript, failed]
        exact Outcome.returns_fail reason
    · intro read fromEq
      obtain ⟨parts, found, -, foundAt, rfl⟩ := (fromScript_eq_ok numerator denominator).mp fromEq
      exact foundAt.rebuilt

end Reading

end SignatorySet

namespace Sample

/-- The power of a number modulo another, by squaring once for each bit of the
exponent. -/
def powMod (modulus base : Nat) : (bits exponent : Nat) → Nat
  | 0, _ => 1
  | bits + 1, exponent =>
      let root := powMod modulus base bits (exponent / 2)
      if exponent % 2 = 0 then root * root % modulus else root * root % modulus * base % modulus

/-- The size of the field of the secp256k1 curve. -/
def fieldSize : Nat := 2 ^ 256 - 2 ^ 32 - 977

/-- A compressed key is valid when the curve has points with its first
coordinate. -/
def parsePubkey : Bytes → Except String Unit
  | [] => .error "malformed public key"
  | parity :: coordinate =>
      let x := Bytes.ofLe coordinate.reverse
      if (parity = 0x02 ∨ parity = 0x03) ∧ coordinate.length = 32 ∧ x < fieldSize ∧
          powMod fieldSize (x * x * x + 7) 256 ((fieldSize - 1) / 2) = 1 then .ok ()
      else .error "malformed public key"

/-- Operands are read when they are short and minimal. -/
def reader : ScriptReader where
  parsePubkey := parsePubkey
  readScriptint bytes :=
    if bytes.length ≤ 4 ∧ ScriptNumber.encode (ScriptNumber.decode bytes) = bytes then
      some (ScriptNumber.decode bytes)
    else none
  readScriptint_encode number short := by
    rw [ScriptNumber.decode_encode, if_pos ⟨short, rfl⟩]
  showOp code := "OP_" ++ code.toNat.repr

end Sample

/-- A script that begins like the one of a set ends there, and is built again from
what was read. -/
theorem fromScript_returns_unequal :
    (SignatorySet.fromScript Sample.reader Sample.unequalScript SIGSET_THRESHOLD).Returns ∧
      ∀ (written : SignatorySet.WrittenParts Sample.reader) (rest : Script),
        Reads Sample.unequalScript written.instructions rest → rest = [] ∧
          ∃ found, written.parts.FoundAt SIGSET_THRESHOLD Sample.unequalScript found := by
  have returns : (SignatorySet.fromScript Sample.reader Sample.unequalScript
      SIGSET_THRESHOLD).Returns := by
    decide +kernel
  exact ⟨returns, (SignatorySet.fromScript_returns_iff Sample.reader Sample.unequalScript
    (by decide) (by decide)).mp ⟨returns, by decide +kernel⟩⟩

/-- An instruction after the script of a set makes the function panic. -/
theorem fromScript_panics :
    ¬ ((SignatorySet.fromScript Sample.reader (Sample.unequalScript ++ [0x51])
          SIGSET_THRESHOLD).Returns ∧
        (SignatorySet.fromScript Sample.reader (Sample.unequalScript ++ [0x51])
          SIGSET_THRESHOLD).Ensures fun read =>
            read.1.redeemScript read.2 SIGSET_THRESHOLD =
              .ok (Sample.unequalScript ++ [0x51])) := by
  have panics : SignatorySet.fromScript Sample.reader (Sample.unequalScript ++ [0x51])
      SIGSET_THRESHOLD = Outcome.abort := by
    decide +kernel
  rintro ⟨returns, -⟩
  exact returns panics

end CwBitcoin
