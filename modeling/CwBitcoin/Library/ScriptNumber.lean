import CwBitcoin.Library.Bytes
import Mathlib.Data.Int.Basic

/-!
# Numbers in Bitcoin scripts

Scripts store numbers as little-endian magnitudes whose topmost bit is the
sign.  Arithmetic opcodes read operands of at most four bytes.
-/

namespace ScriptNumber

/-- The bytes of a magnitude, least significant first and without leading
zeros.  The fuel bounds the number of bytes. -/
def magnitude : (fuel number : Nat) → Bytes
  | 0, _ => []
  | fuel + 1, number =>
      if number = 0 then [] else UInt8.ofNat number :: magnitude fuel (number / 256)

/-- The byte that carries only the sign bit. -/
def signByte (negative : Bool) : UInt8 := if negative then 128 else 0

/-- Put the sign into the topmost bit, adding a byte when that bit is taken. -/
def withSign (negative : Bool) : Bytes → Bytes
  | [] => []
  | [byte] => if byte < 128 then [byte + signByte negative] else [byte, signByte negative]
  | byte :: next :: rest => byte :: withSign negative (next :: rest)

/-- The shortest encoding of a number. -/
def encode (number : Int) : Bytes :=
  withSign (number < 0) (magnitude number.natAbs number.natAbs)

/-- The magnitude without the sign bit, and whether the sign bit is set. -/
def split : Bytes → Nat × Bool
  | [] => (0, false)
  | [byte] => (byte.toNat % 128, 128 ≤ byte)
  | byte :: next :: rest =>
      let (high, negative) := split (next :: rest)
      (byte.toNat + 256 * high, negative)

/-- The number that an encoding denotes. -/
def decode (bytes : Bytes) : Int :=
  match split bytes with
  | (number, true) => -number
  | (number, false) => number

/-- Read an operand of an arithmetic opcode. -/
def read (bytes : Bytes) : Option Int :=
  if bytes.length ≤ 4 then some (decode bytes) else none

/-- Whether a stack element counts as true: some bit other than a sign on its
own is set. -/
def isTrue : Bytes → Bool
  | [] => false
  | [byte] => byte ≠ 0 && byte ≠ 128
  | byte :: next :: rest => byte ≠ 0 || isTrue (next :: rest)

theorem split_withSign (negative : Bool) {bytes : Bytes} (nonempty : bytes ≠ []) :
    split (withSign negative bytes) = (Bytes.ofLe bytes, negative) := by
  induction bytes with
  | nil => contradiction
  | cons byte rest ih =>
      cases rest with
      | nil =>
          by_cases small : byte < 128
          · have smallNat : byte.toNat < 128 := small
            cases negative
            · have low : byte.toNat % 128 = byte.toNat := Nat.mod_eq_of_lt smallNat
              simp [withSign, small, signByte, split, Bytes.ofLe, low, UInt8.le_iff_toNat_le]
              omega
            · have sum : (byte + 128).toNat = byte.toNat + 128 := by
                rw [UInt8.toNat_add]
                simp
                omega
              have low : (byte.toNat + 128) % 128 = byte.toNat := by omega
              simp [withSign, small, signByte, split, Bytes.ofLe, sum, low,
                UInt8.le_iff_toNat_le]
          · cases negative <;> simp [withSign, small, signByte, split, Bytes.ofLe]
      | cons next rest =>
          have shape : ∃ first tail, withSign negative (next :: rest) = first :: tail := by
            cases rest <;> simp only [withSign]
            · split <;> exact ⟨_, _, rfl⟩
            · exact ⟨_, _, rfl⟩
          obtain ⟨first, tail, shapeEq⟩ := shape
          have tailSplit := ih (by simp)
          rw [withSign, shapeEq, split, ← shapeEq, tailSplit]
          rfl

theorem magnitude_ne_nil {fuel number : Nat} (fuelPos : 0 < fuel) (numberPos : 0 < number) :
    magnitude fuel number ≠ [] := by
  obtain ⟨fuel, rfl⟩ := Nat.exists_eq_succ_of_ne_zero fuelPos.ne'
  simp [magnitude, numberPos.ne']

theorem ofLe_magnitude {fuel number : Nat} (enough : number ≤ fuel) :
    Bytes.ofLe (magnitude fuel number) = number := by
  induction fuel generalizing number with
  | zero => simp [magnitude, Bytes.ofLe]; omega
  | succ fuel ih =>
      by_cases zero : number = 0
      · simp [magnitude, zero, Bytes.ofLe]
      · have low : (UInt8.ofNat number).toNat = number % 256 := UInt8.toNat_ofNat'
        rw [magnitude, if_neg zero, Bytes.ofLe, ih (by omega), low]
        omega

/-- Decoding inverts encoding. -/
@[simp]
theorem decode_encode (number : Int) : decode (encode number) = number := by
  by_cases zero : number = 0
  · subst zero
    rfl
  · have positive : 0 < number.natAbs := Int.natAbs_pos.mpr zero
    rw [decode, encode, split_withSign _ (magnitude_ne_nil positive positive),
      ofLe_magnitude le_rfl]
    by_cases negative : number < 0
    · simp only [negative, decide_true]
      omega
    · simp only [negative, decide_false]
      omega

theorem encode_injective : Function.Injective encode :=
  Function.LeftInverse.injective decode_encode

/-- A magnitude below half of the range of its bytes leaves room for the sign. -/
theorem length_withSign_magnitude (negative : Bool) {fuel number count : Nat}
    (enough : number ≤ fuel) (bound : number < 128 * 256 ^ count) :
    (withSign negative (magnitude fuel number)).length ≤ count + 1 := by
  induction fuel generalizing number count with
  | zero => simp [magnitude, withSign]
  | succ fuel ih =>
      by_cases zero : number = 0
      · simp [magnitude, zero, withSign]
      rw [magnitude, if_neg zero]
      by_cases last : number / 256 = 0
      · have byteEq : (UInt8.ofNat number).toNat = number := by
          rw [UInt8.toNat_ofNat']
          omega
        have rest : magnitude fuel (number / 256) = [] := by
          cases fuel <;> simp [magnitude, last]
        rw [rest, withSign]
        split
        · simp
        · rename_i large
          have : 128 ≤ number := by
            rw [UInt8.lt_iff_toNat_lt, byteEq] at large
            simpa using large
          have : count ≠ 0 := by
            rintro rfl
            omega
          simp
          omega
      · cases count with
        | zero => omega
        | succ count =>
            have shorter := ih (by omega : number / 256 ≤ fuel)
              (by rw [pow_succ'] at bound; omega : number / 256 < 128 * 256 ^ count)
            obtain ⟨next, tail, tailEq⟩ := List.exists_cons_of_ne_nil
              (magnitude_ne_nil (by omega : 0 < fuel) (by omega : 0 < number / 256))
            rw [tailEq] at shorter ⊢
            simpa [withSign] using shorter

theorem length_encode_le {number : Int} {count : Nat} (bound : number.natAbs < 128 * 256 ^ count) :
    (encode number).length ≤ count + 1 :=
  length_withSign_magnitude _ le_rfl bound

/-- Every number of magnitude below `2 ^ 31` is a readable operand. -/
theorem read_encode {number : Int} (bound : number.natAbs < 2 ^ 31) :
    read (encode number) = some number := by
  have short : (encode number).length ≤ 3 + 1 := length_encode_le (by omega)
  rw [read, if_pos short, decode_encode]

end ScriptNumber
