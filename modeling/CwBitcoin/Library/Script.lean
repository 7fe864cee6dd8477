import CwBitcoin.Library.ScriptNumber
import Mathlib.Data.List.Flatten

/-!
# Bitcoin scripts as bytes and as instructions

A script is a byte string that reads as a list of data pushes and opcodes.
The push helpers follow the usual script builder: byte strings get a length
prefix, and the integers with an opcode of their own use it.
-/

/-- A script in its serialized form. -/
abbrev Script := Bytes

namespace Script

/-- One instruction of a script. -/
inductive Instruction where
  | pushBytes (data : Bytes)
  | op (code : UInt8)
  deriving DecidableEq, Repr

def OP_IF : UInt8 := 0x63
def OP_ELSE : UInt8 := 0x67
def OP_ENDIF : UInt8 := 0x68
def OP_RETURN : UInt8 := 0x6a
def OP_DROP : UInt8 := 0x75
def OP_SWAP : UInt8 := 0x7c
def OP_ADD : UInt8 := 0x93
def OP_GREATERTHAN : UInt8 := 0xa0
def OP_CHECKSIG : UInt8 := 0xac

/-- A push of a byte string of at most `2 ^ 32 - 1` bytes. -/
def pushSlice (data : Bytes) : Script :=
  if data.length < 0x4c then UInt8.ofNat data.length :: data
  else if data.length < 0x100 then 0x4c :: (Bytes.le 1 data.length ++ data)
  else if data.length < 0x10000 then 0x4d :: (Bytes.le 2 data.length ++ data)
  else 0x4e :: (Bytes.le 4 data.length ++ data)

namespace Instruction

/-- The instruction that pushes an integer. -/
def ofInt (number : Int) : Instruction :=
  if number = -1 ∨ (1 ≤ number ∧ number ≤ 16) then .op (UInt8.ofNat (0x50 + number).toNat)
  else .pushBytes (ScriptNumber.encode number)

/-- The numbers without an opcode of their own are pushed as data. -/
theorem ofInt_eq_pushBytes {number : Nat} (plain : ¬ (1 ≤ number ∧ number ≤ 16)) :
    ofInt number = .pushBytes (ScriptNumber.encode number) := by
  rw [ofInt, if_neg (by omega)]

theorem ofInt_eq_op {number : Nat} (special : 1 ≤ number ∧ number ≤ 16) :
    ofInt number = .op (UInt8.ofNat (0x50 + number)) := by
  rw [ofInt, if_pos (by omega)]
  congr 2

/-- The serialized form of an instruction. -/
def bytes : Instruction → Script
  | .pushBytes data => pushSlice data
  | .op code => [code]

@[simp]
theorem bytes_pushBytes (data : Bytes) : (pushBytes data).bytes = pushSlice data :=
  rfl

@[simp]
theorem bytes_op (code : UInt8) : (op code).bytes = [code] :=
  rfl

/-- The instruction survives serialization: pushed data fits its length
prefix, and an opcode is not itself a push. -/
def Encodable : Instruction → Prop
  | .pushBytes data => data.length < 2 ^ 32
  | .op code => 0x4f ≤ code

instance : DecidablePred Encodable
  | .pushBytes data => inferInstanceAs (Decidable (data.length < 2 ^ 32))
  | .op code => inferInstanceAs (Decidable (0x4f ≤ code))

end Instruction

namespace Instruction

theorem ofInt_injective : Function.Injective ofInt := by
  intro first second equal
  unfold ofInt at equal
  by_cases firstSpecial : first = -1 ∨ (1 ≤ first ∧ first ≤ 16)
  · by_cases secondSpecial : second = -1 ∨ (1 ≤ second ∧ second ≤ 16)
    · rw [if_pos firstSpecial, if_pos secondSpecial] at equal
      have codes := congrArg UInt8.toNat (Instruction.op.inj equal)
      rw [UInt8.toNat_ofNat', UInt8.toNat_ofNat'] at codes
      omega
    · rw [if_pos firstSpecial, if_neg secondSpecial] at equal
      cases equal
  · by_cases secondSpecial : second = -1 ∨ (1 ≤ second ∧ second ≤ 16)
    · rw [if_neg firstSpecial, if_pos secondSpecial] at equal
      cases equal
    · rw [if_neg firstSpecial, if_neg secondSpecial] at equal
      exact ScriptNumber.encode_injective (Instruction.pushBytes.inj equal)

end Instruction

/-- The serialized form of a list of instructions. -/
def serialize (instructions : List Instruction) : Script :=
  instructions.flatMap Instruction.bytes

@[simp]
theorem serialize_nil : serialize [] = [] :=
  rfl

@[simp]
theorem serialize_cons (first : Instruction) (rest : List Instruction) :
    serialize (first :: rest) = first.bytes ++ serialize rest :=
  rfl

def pushInt (number : Int) : Script := (Instruction.ofInt number).bytes

/-- Take `count` bytes of pushed data off the front. -/
def takePush (count : Nat) (rest : Bytes) : Option (Instruction × Bytes) :=
  if rest.length < count then none else some (.pushBytes (rest.take count), rest.drop count)

/-- Take a length prefix of `width` bytes and then the data it announces. -/
def takeSized (width : Nat) (rest : Bytes) : Option (Instruction × Bytes) :=
  if rest.length < width then none
  else takePush (Bytes.ofLe (rest.take width)) (rest.drop width)

/-- Read the first instruction of a nonempty script. -/
def readInstruction : Script → Option (Instruction × Script)
  | [] => none
  | code :: rest =>
      if code < 0x4c then takePush code.toNat rest
      else if code = 0x4c then takeSized 1 rest
      else if code = 0x4d then takeSized 2 rest
      else if code = 0x4e then takeSized 4 rest
      else some (.op code, rest)

/-- Read instructions until the script is used up. -/
def readAll : (fuel : Nat) → Script → Option (List Instruction)
  | _, [] => some []
  | 0, _ :: _ => none
  | fuel + 1, code :: rest => do
      let (first, remaining) ← readInstruction (code :: rest)
      let others ← readAll fuel remaining
      return first :: others

/-- All instructions of a script, if its pushes are well formed. -/
def instructions (script : Script) : Option (List Instruction) :=
  readAll script.length script

theorem takePush_append (data rest : Bytes) :
    takePush data.length (data ++ rest) = some (.pushBytes data, rest) := by
  simp [takePush]

theorem takeSized_append {width : Nat} {data : Bytes} (fits : data.length < 256 ^ width)
    (rest : Bytes) :
    takeSized width (Bytes.le width data.length ++ (data ++ rest)) =
      some (.pushBytes data, rest) := by
  have prefixLength : (Bytes.le width data.length).length = width := Bytes.length_le _ _
  have notShort : ¬ (Bytes.le width data.length ++ (data ++ rest)).length < width := by
    simp
  rw [takeSized, if_neg notShort, List.take_left' prefixLength, List.drop_left' prefixLength,
    Bytes.ofLe_le, Nat.mod_eq_of_lt fits, takePush_append]

theorem readInstruction_pushdata1 (rest : Script) :
    readInstruction (0x4c :: rest) = takeSized 1 rest := by
  rw [readInstruction, if_neg (by decide), if_pos rfl]

theorem readInstruction_pushdata2 (rest : Script) :
    readInstruction (0x4d :: rest) = takeSized 2 rest := by
  rw [readInstruction, if_neg (by decide), if_neg (by decide), if_pos rfl]

theorem readInstruction_pushdata4 (rest : Script) :
    readInstruction (0x4e :: rest) = takeSized 4 rest := by
  rw [readInstruction, if_neg (by decide), if_neg (by decide), if_neg (by decide), if_pos rfl]

/-- The first instruction of a serialized list is read back. -/
theorem readInstruction_bytes {first : Instruction} (encodable : first.Encodable)
    (rest : Script) : readInstruction (first.bytes ++ rest) = some (first, rest) := by
  cases first with
  | op code =>
      have notPush : ∀ limit : UInt8, limit < 0x4f → code ≠ limit := by
        rintro limit small rfl
        exact absurd encodable (UInt8.not_le.mpr small)
      have notShort : ¬ code < 0x4c := by
        intro small
        exact absurd encodable (UInt8.not_le.mpr (UInt8.lt_trans small (by decide)))
      simp [Instruction.bytes, readInstruction, notShort, notPush 0x4c (by decide),
        notPush 0x4d (by decide), notPush 0x4e (by decide)]
  | pushBytes data =>
      have fits : data.length < 2 ^ 32 := encodable
      simp only [Instruction.bytes, pushSlice]
      split
      · rename_i small
        have codeNat : (UInt8.ofNat data.length).toNat = data.length := by
          rw [UInt8.toNat_ofNat']
          omega
        have codeSmall : UInt8.ofNat data.length < 0x4c := by
          rw [UInt8.lt_iff_toNat_lt, codeNat]
          exact small
        simp only [List.cons_append, readInstruction, codeSmall, if_true, codeNat]
        exact takePush_append data rest
      · split
        · rename_i medium
          rw [List.cons_append, List.append_assoc, readInstruction_pushdata1]
          have sized : data.length < 256 ^ 1 := by simpa using medium
          exact takeSized_append sized rest
        · split
          · rename_i large
            rw [List.cons_append, List.append_assoc, readInstruction_pushdata2]
            have sized : data.length < 256 ^ 2 := by simpa using large
            exact takeSized_append sized rest
          · rw [List.cons_append, List.append_assoc, readInstruction_pushdata4]
            have sized : data.length < 256 ^ 4 := by simpa using fits
            exact takeSized_append sized rest

theorem bytes_ne_nil (instruction : Instruction) : instruction.bytes ≠ [] := by
  cases instruction with
  | op code => simp [Instruction.bytes]
  | pushBytes data =>
      simp only [Instruction.bytes, pushSlice]
      split_ifs <;> simp

theorem readAll_serialize {is : List Instruction} (encodable : ∀ i ∈ is, i.Encodable)
    {fuel : Nat} (enough : is.length ≤ fuel) : readAll fuel (serialize is) = some is := by
  induction is generalizing fuel with
  | nil => cases fuel <;> rfl
  | cons first rest ih =>
      obtain ⟨fuel, rfl⟩ := Nat.exists_eq_succ_of_ne_zero
        (by simp at enough; omega : fuel ≠ 0)
      have whole : serialize (first :: rest) = first.bytes ++ serialize rest := rfl
      have firstRead := readInstruction_bytes (encodable first (by simp)) (serialize rest)
      have restRead := ih (fun other member => encodable other (by simp [member]))
        (by simpa using enough : rest.length ≤ fuel)
      obtain ⟨code, tail, shape⟩ := List.exists_cons_of_ne_nil
        (by simp [bytes_ne_nil] : first.bytes ++ serialize rest ≠ [])
      rw [whole, shape, readAll, ← shape, firstRead]
      simp [restRead]

theorem length_le_serialize (is : List Instruction) : is.length ≤ (serialize is).length := by
  induction is with
  | nil => simp
  | cons first rest ih =>
      have positive := List.length_pos_iff.mpr (bytes_ne_nil first)
      simp only [serialize, List.flatMap_cons, List.length_append, List.length_cons] at ih ⊢
      omega

theorem length_pushSlice_le (data : Bytes) : (pushSlice data).length ≤ data.length + 5 := by
  unfold pushSlice
  split_ifs <;> simp <;> omega

theorem length_le_pushSlice (data : Bytes) : data.length ≤ (pushSlice data).length := by
  unfold pushSlice
  split_ifs <;> simp <;> omega

theorem length_pushSlice_short {data : Bytes} (short : data.length < 0x4c) :
    (pushSlice data).length = data.length + 1 := by
  simp [pushSlice, short]

theorem length_pushSlice_medium {data : Bytes} (short : data.length < 0x100) :
    (pushSlice data).length ≤ data.length + 2 := by
  unfold pushSlice
  split_ifs <;> (simp; try omega)

/-- Serialization loses nothing. -/
theorem instructions_serialize {is : List Instruction} (encodable : ∀ i ∈ is, i.Encodable) :
    instructions (serialize is) = some is :=
  readAll_serialize encodable (length_le_serialize is)

theorem eq_of_serialize_eq {first second : List Instruction}
    (firstEncodable : ∀ i ∈ first, i.Encodable) (secondEncodable : ∀ i ∈ second, i.Encodable)
    (equal : serialize first = serialize second) : first = second := by
  have read := instructions_serialize firstEncodable
  rw [equal, instructions_serialize secondEncodable] at read
  exact (Option.some.inj read).symm

theorem serialize_append (first second : List Instruction) :
    serialize (first ++ second) = serialize first ++ serialize second :=
  List.flatMap_append

theorem encodable_ofInt {number : Int} (bound : number.natAbs < 2 ^ 64) :
    (Instruction.ofInt number).Encodable := by
  unfold Instruction.ofInt
  split
  · rename_i special
    have range : 0x4f ≤ (0x50 + number).toNat ∧ (0x50 + number).toNat < 256 := by omega
    have codeNat : (UInt8.ofNat (0x50 + number).toNat).toNat = (0x50 + number).toNat := by
      rw [UInt8.toNat_ofNat']
      omega
    rw [Instruction.Encodable, UInt8.le_iff_toNat_le, codeNat]
    exact range.1
  · have short : (ScriptNumber.encode number).length ≤ 8 + 1 :=
      ScriptNumber.length_encode_le (by omega)
    rw [Instruction.Encodable]
    omega

theorem length_bytes_ofInt_le {number : Int} {count : Nat} (few : count ≤ 8)
    (bound : number.natAbs < 128 * 256 ^ count) :
    (Instruction.ofInt number).bytes.length ≤ count + 2 := by
  unfold Instruction.ofInt
  split
  · simp [Instruction.bytes]
  · have short : (ScriptNumber.encode number).length ≤ count + 1 :=
      ScriptNumber.length_encode_le bound
    rw [Instruction.bytes, length_pushSlice_short (by omega)]
    omega

end Script
