import Mathlib.Tactic.Ring

/-!
# Fixed-width numbers as bytes
-/

/-- A byte string. -/
abbrev Bytes := List UInt8

namespace Bytes

/-- The equality test of byte strings decides equality. -/
instance lawfulBEq : LawfulBEq (List UInt8) := inferInstance

/-- The low `count` bytes of a number, least significant byte first. -/
def le : (count : Nat) → Nat → Bytes
  | 0, _ => []
  | count + 1, number => UInt8.ofNat number :: le count (number / 256)

/-- The low `count` bytes of a number, most significant byte first. -/
def be (count number : Nat) : Bytes := (le count number).reverse

/-- The number written least significant byte first. -/
def ofLe : Bytes → Nat
  | [] => 0
  | byte :: bytes => byte.toNat + 256 * ofLe bytes

@[simp]
theorem length_le (count number : Nat) : (le count number).length = count := by
  induction count generalizing number with
  | zero => rfl
  | succ count ih => simp [le, ih]

theorem ofLe_le (count number : Nat) : ofLe (le count number) = number % 256 ^ count := by
  induction count generalizing number with
  | zero => simp [le, ofLe, Nat.mod_one]
  | succ count ih =>
      have low : (UInt8.ofNat number).toNat = number % 256 := UInt8.toNat_ofNat'
      rw [le, ofLe, ih, low, pow_succ', Nat.mod_mul]

theorem be_injective {count first second : Nat} (firstLt : first < 256 ^ count)
    (secondLt : second < 256 ^ count) (equal : be count first = be count second) :
    first = second := by
  have sameLe : le count first = le count second := List.reverse_inj.mp equal
  have values := congrArg ofLe sameLe
  rwa [ofLe_le, ofLe_le, Nat.mod_eq_of_lt firstLt, Nat.mod_eq_of_lt secondLt] at values

end Bytes
