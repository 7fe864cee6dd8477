import CwBitcoin.Library.Returns
import CwBitcoin.Library.Script

/-!
# Parsing scripts instruction by instruction

A parser takes instructions off the front of a script, and may fail or panic.
What it accepts is described by the instructions with which the script begins.
-/

namespace Script

variable {script following rest : Script} {first : Instruction} {is js : List Instruction}

/-- The script begins with the given instructions, and then the rest follows. -/
inductive Reads : Script → List Instruction → Script → Prop where
  | nil {script : Script} : Reads script [] script
  | cons {script following rest : Script} {first : Instruction} {others : List Instruction}
      (read : readInstruction script = some (first, following))
      (reads : Reads following others rest) : Reads script (first :: others) rest

@[simp]
theorem reads_nil : Reads script [] rest ↔ script = rest := by
  constructor
  · rintro ⟨⟩
    rfl
  · rintro rfl
    exact .nil

@[simp]
theorem reads_cons :
    Reads script (first :: is) rest ↔
      ∃ following, readInstruction script = some (first, following) ∧ Reads following is rest := by
  constructor
  · rintro (_ | ⟨read, reads⟩)
    exact ⟨_, read, reads⟩
  · rintro ⟨following, read, reads⟩
    exact .cons read reads

theorem reads_append :
    Reads script (is ++ js) rest ↔
      ∃ following, Reads script is following ∧ Reads following js rest := by
  induction is generalizing script with
  | nil => simp
  | cons first is ih =>
      simp only [List.cons_append, reads_cons, ih]
      constructor
      · rintro ⟨middle, read, following, reads, others⟩
        exact ⟨following, ⟨middle, read, reads⟩, others⟩
      · rintro ⟨following, ⟨middle, read, reads⟩, others⟩
        exact ⟨middle, read, following, reads, others⟩

/-- A serialized list begins with its instructions. -/
theorem reads_serialize (encodable : ∀ i ∈ is, i.Encodable) :
    Reads (serialize is) is [] := by
  induction is with
  | nil => exact .nil
  | cons first is ih =>
      obtain ⟨here, others⟩ := List.forall_mem_cons.mp encodable
      exact .cons (readInstruction_bytes here _) (ih others)

/-- Whatever a serialized list begins with is an initial part of it. -/
theorem Reads.serialize_eq (encodable : ∀ i ∈ js, i.Encodable)
    (reads : Reads (serialize js) is rest) : ∃ left, js = is ++ left ∧ rest = serialize left := by
  generalize whole : serialize js = script at reads
  induction reads generalizing js with
  | nil => exact ⟨js, rfl, whole.symm⟩
  | cons read reads ih =>
      cases js with
      | nil =>
          rw [← whole] at read
          cases read
      | cons next others =>
          obtain ⟨here, tail⟩ := List.forall_mem_cons.mp encodable
          rw [← whole, serialize_cons, readInstruction_bytes here, Option.some.injEq,
            Prod.mk.injEq] at read
          obtain ⟨rfl, following⟩ := read
          obtain ⟨left, rfl, restEq⟩ := ih tail following
          exact ⟨left, rfl, restEq⟩

theorem serialize_eq_nil : serialize is = [] ↔ is = [] := by
  cases is <;> simp [bytes_ne_nil]

/-- A serialized list that is used up consists of the instructions read. -/
theorem Reads.eq_of_serialize (encodable : ∀ i ∈ js, i.Encodable)
    (reads : Reads (serialize js) is []) : js = is := by
  obtain ⟨left, rfl, used⟩ := reads.serialize_eq encodable
  rw [serialize_eq_nil.mp used.symm, List.append_nil]

theorem length_readInstruction_lt (read : readInstruction script = some (first, rest)) :
    rest.length < script.length := by
  cases script with
  | nil => cases read
  | cons code tail =>
      have pushed {count : Nat} {input : Bytes} (taken : takePush count input = some (first, rest)) :
          rest.length ≤ input.length := by
        unfold takePush at taken
        split at taken
        · cases taken
        · cases taken
          simp
      have sized {width : Nat} (taken : takeSized width tail = some (first, rest)) :
          rest.length ≤ tail.length := by
        unfold takeSized at taken
        split at taken
        · cases taken
        · have shorter := pushed taken
          rw [List.length_drop] at shorter
          omega
      simp only [readInstruction] at read
      rw [List.length_cons, Nat.lt_succ_iff]
      split_ifs at read
      · exact pushed read
      · exact sized read
      · exact sized read
      · exact sized read
      · cases read
        exact le_rfl

theorem Reads.length_le (reads : Reads script is rest) : rest.length ≤ script.length := by
  induction reads with
  | nil => exact le_rfl
  | cons read _ ih => exact ih.trans (length_readInstruction_lt read).le

/-- The code of an empty push is not read as an opcode. -/
theorem readInstruction_op_ne_zero {code : UInt8}
    (read : readInstruction script = some (.op code, rest)) : code ≠ 0 := by
  rintro rfl
  cases script with
  | nil => cases read
  | cons code tail =>
      have pushed {count : Nat} {input : Bytes} : takePush count input ≠ some (.op 0, rest) := by
        unfold takePush
        split <;> simp
      have sized {width : Nat} : takeSized width tail ≠ some (.op 0, rest) := by
        unfold takeSized
        split
        · simp
        · exact pushed
      simp only [readInstruction] at read
      split_ifs at read with short
      · exact pushed read
      · exact sized read
      · exact sized read
      · exact sized read
      · cases read
        exact short (by decide)

end Script

/-- A computation that takes what it needs off the front of a script. -/
abbrev ScriptParser (ε α : Type) := StateT Script (Outcome ε) α

namespace ScriptParser

variable {ε α β : Type} {script rest : Script}

@[simp]
theorem run_bind_eq_ok {first : ScriptParser ε α} {next : α → ScriptParser ε β} {b : β} :
    (first >>= next).run script = .ok (b, rest) ↔
      ∃ a following, first.run script = .ok (a, following) ∧
        (next a).run following = .ok (b, rest) := by
  rw [StateT.run_bind, Outcome.bind_eq_ok, Prod.exists]

@[simp]
theorem run_pure_eq_ok {a b : α} :
    (pure a : ScriptParser ε α).run script = .ok (b, rest) ↔ a = b ∧ script = rest := by
  rw [StateT.run_pure, Outcome.pure_eq_ok, Prod.mk.injEq]

/-- Continue with a result that takes nothing. -/
def lift (result : Outcome ε α) : ScriptParser ε α := fun script => do
  let a ← result
  return (a, script)

@[simp]
theorem run_lift_eq_ok {result : Outcome ε α} {a : α} :
    (lift result).run script = .ok (a, rest) ↔ result = .ok a ∧ script = rest := by
  change result >>= _ = _ ↔ _
  simp

/-- The parser never panics. -/
def Returns (parser : ScriptParser ε α) : Prop := ∀ script, (parser.run script).Returns

theorem returns_bind {first : ScriptParser ε α} {next : α → ScriptParser ε β}
    (firstReturns : Returns first) (nextReturns : ∀ a, Returns (next a)) :
    Returns (first >>= next) := by
  intro script
  rw [StateT.run_bind, Outcome.returns_bind]
  exact ⟨firstReturns script, fun _ _ => nextReturns _ _⟩

theorem returns_pure (a : α) : Returns (pure a : ScriptParser ε α) := by
  intro script
  simp

theorem returns_lift {result : Outcome ε α} (returns : result.Returns) :
    Returns (lift result) := by
  intro script
  change (result >>= _).Returns
  rw [Outcome.returns_bind]
  exact ⟨returns, fun _ _ => Outcome.returns_pure _⟩

end ScriptParser
