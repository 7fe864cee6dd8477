import CwBitcoin.Library.ScriptMachine
import Mathlib.Algebra.Order.BigOperators.Group.List

/-!
# Weighted multisignature scripts

A script that adds up the weights of the keys with valid signatures and
compares the sum with a threshold.  It ends with a commitment to data, which
is pushed and dropped.
-/

namespace ThresholdScript

open Script ScriptMachine

/-- A key with the weight that its signature adds. -/
structure Signer where
  pubkey : Bytes
  weight : Nat

/-- The signer with the low bits of the weight left out. -/
def Signer.truncate (bits : Nat) (signer : Signer) : Signer :=
  { signer with weight := signer.weight >>> bits }

/-- Check the signature on top and leave the weight it adds. -/
def firstCheck (signer : Signer) : List Instruction :=
  [.pushBytes signer.pubkey, .op OP_CHECKSIG, .op OP_IF, .ofInt signer.weight, .op OP_ELSE,
    .ofInt 0, .op OP_ENDIF]

/-- Check the signature below the accumulator and add its weight. -/
def otherCheck (signer : Signer) : List Instruction :=
  [.op OP_SWAP, .pushBytes signer.pubkey, .op OP_CHECKSIG, .op OP_IF, .ofInt signer.weight,
    .op OP_ADD, .op OP_ENDIF]

/-- Compare the accumulator with the threshold and drop the commitment. -/
def closing (threshold : Int) (commitment : Bytes) : List Instruction :=
  [.ofInt threshold, .op OP_GREATERTHAN, .pushBytes commitment, .op OP_DROP]

def whole (first : Signer) (others : List Signer) (threshold : Int) (commitment : Bytes) :
    List Instruction :=
  firstCheck first ++ (others.flatMap otherCheck ++ closing threshold commitment)

section Execution

variable (checkSig : Bytes → Bytes → Bool)

/-- The weight that one stack element adds. -/
def addedWeight (signer : Signer) (signature : Bytes) : Nat :=
  if checkSig signature signer.pubkey then signer.weight else 0

/-- The weight of the valid signatures, given in the order of the signers. -/
def validWeight (signers : List Signer) (signatures : List Bytes) : Nat :=
  (signers.zipWith (addedWeight checkSig) signatures).sum

variable {checkSig} {signer : Signer} {signature : Bytes} {rest : List Bytes} {count : Nat}

theorem addedWeight_le : addedWeight checkSig signer signature ≤ signer.weight := by
  unfold addedWeight
  split <;> omega

theorem validWeight_le (signers : List Signer) (signatures : List Bytes) :
    validWeight checkSig signers signatures ≤ (signers.map Signer.weight).sum := by
  induction signers generalizing signatures with
  | nil => simp [validWeight]
  | cons signer signers ih =>
      cases signatures with
      | nil => simp [validWeight]
      | cons signature signatures =>
          have head : addedWeight checkSig signer signature ≤ signer.weight := addedWeight_le
          have tail := ih signatures
          simp only [validWeight, List.zipWith_cons_cons, List.sum_cons, List.map_cons] at tail ⊢
          omega

/-- Two numbers lose at least as much when they are truncated one by one. -/
theorem shiftRight_add_le (first second bits : Nat) :
    first >>> bits + second >>> bits ≤ (first + second) >>> bits := by
  simp only [Nat.shiftRight_eq_div_pow]
  exact Nat.div_add_div_le_add_div

theorem sum_truncate_le (bits : Nat) (signers : List Signer) :
    ((signers.map (Signer.truncate bits)).map Signer.weight).sum ≤
      (signers.map Signer.weight).sum >>> bits := by
  induction signers with
  | nil => simp
  | cons signer signers ih =>
      have split := shiftRight_add_le signer.weight (signers.map Signer.weight).sum bits
      simp only [List.map_cons, List.sum_cons, Signer.truncate] at ih ⊢
      omega

/-- Truncating the weights never helps the signatures. -/
theorem validWeight_truncate_le (bits : Nat) (signers : List Signer) (signatures : List Bytes) :
    validWeight checkSig (signers.map (Signer.truncate bits)) signatures ≤
      validWeight checkSig signers signatures >>> bits := by
  induction signers generalizing signatures with
  | nil => simp [validWeight]
  | cons signer signers ih =>
      cases signatures with
      | nil => simp [validWeight]
      | cons signature signatures =>
          have tail := ih signatures
          have split := shiftRight_add_le (addedWeight checkSig signer signature)
            (validWeight checkSig signers signatures) bits
          have head : addedWeight checkSig (signer.truncate bits) signature =
              addedWeight checkSig signer signature >>> bits := by
            unfold addedWeight Signer.truncate
            split <;> simp
          simp only [validWeight, List.map_cons, List.zipWith_cons_cons, List.sum_cons] at tail split ⊢
          rw [head]
          omega

theorem plain_checksig : OP_CHECKSIG ≠ OP_IF ∧ OP_CHECKSIG ≠ OP_ELSE ∧ OP_CHECKSIG ≠ OP_ENDIF := by
  decide

theorem run_checkSignature (pubkeySmall : signer.pubkey.length ≤ maxElementSize)
    (room : count + 2 ≤ maxOpCount) (height : rest.length + 2 ≤ maxStackSize)
    (is : List Instruction) :
    run checkSig ⟨signature :: rest, [], count⟩
        (.pushBytes signer.pubkey :: .op OP_CHECKSIG :: .op OP_IF :: is) =
      run checkSig ⟨rest, [checkSig signature signer.pubkey], count + 2⟩ is := by
  have pushed : step checkSig ⟨signature :: rest, [], count⟩ (.pushBytes signer.pubkey) =
      some ⟨signer.pubkey :: signature :: rest, [], count⟩ :=
    step_pushBytes rfl pubkeySmall height
  have checked : step checkSig ⟨signer.pubkey :: signature :: rest, [], count⟩
      (.op OP_CHECKSIG) =
      some ⟨truth (checkSig signature signer.pubkey) :: rest, [], count + 1⟩ :=
    step_onStack (by decide) plain_checksig rfl (by omega) (onStack_checksig _ _)
      (by simp; omega)
  have branched : step checkSig
      ⟨truth (checkSig signature signer.pubkey) :: rest, [], count + 1⟩ (.op OP_IF) =
      some ⟨rest, [checkSig signature signer.pubkey], count + 2⟩ := by
    rw [step_if rfl room (by omega), isTrue_truth]
  rw [run_cons pushed, run_cons checked, run_cons branched]

theorem run_firstCheck (pubkeySmall : signer.pubkey.length ≤ maxElementSize)
    (weightBound : signer.weight < 2 ^ 31) (room : count + 4 ≤ maxOpCount)
    (height : rest.length + 2 ≤ maxStackSize) (is : List Instruction) :
    run checkSig ⟨signature :: rest, [], count⟩ (firstCheck signer ++ is) =
      run checkSig
        ⟨ScriptNumber.encode (addedWeight checkSig signer signature : Nat) :: rest, [], count + 4⟩
        is := by
  simp only [firstCheck, List.cons_append, List.nil_append]
  rw [run_checkSignature pubkeySmall (by omega) height]
  unfold addedWeight
  cases checkSig signature signer.pubkey with
  | true =>
      rw [run_cons (step_ofInt (by simpa using weightBound) rfl (by omega)),
        run_cons (step_else (by omega) (by simp; omega)),
        run_cons (step_ofInt_skipped (by simp) rfl (by simp; omega)),
        run_cons (step_endif (by omega) (by simp; omega))]
      rfl
  | false =>
      rw [run_cons (step_ofInt_skipped (by simpa using weightBound) rfl (by omega)),
        run_cons (step_else (by omega) (by omega)),
        run_cons (step_ofInt (by simp) rfl (by omega)),
        run_cons (step_endif (by omega) (by simp; omega))]
      rfl

theorem run_otherCheck {sum : Nat} (pubkeySmall : signer.pubkey.length ≤ maxElementSize)
    (sumBound : sum + signer.weight < 2 ^ 31) (room : count + 5 ≤ maxOpCount)
    (height : rest.length + 3 ≤ maxStackSize) (is : List Instruction) :
    run checkSig ⟨ScriptNumber.encode (sum : Nat) :: signature :: rest, [], count⟩
        (otherCheck signer ++ is) =
      run checkSig
        ⟨ScriptNumber.encode (sum + addedWeight checkSig signer signature : Nat) :: rest, [],
          count + 5⟩ is := by
  have swapped : step checkSig ⟨ScriptNumber.encode (sum : Nat) :: signature :: rest, [], count⟩
      (.op OP_SWAP) =
      some ⟨signature :: ScriptNumber.encode (sum : Nat) :: rest, [], count + 1⟩ :=
    step_onStack (by decide) (by decide) rfl (by omega) (onStack_swap _ _) (by simp; omega)
  simp only [otherCheck, List.cons_append, List.nil_append]
  rw [run_cons swapped, run_checkSignature pubkeySmall (by omega) (by simp; omega)]
  unfold addedWeight
  cases checkSig signature signer.pubkey with
  | true =>
      have added : onStack checkSig OP_ADD (ScriptNumber.encode (signer.weight : Nat) ::
          ScriptNumber.encode (sum : Nat) :: rest) =
            some (ScriptNumber.encode (sum + signer.weight : Nat) :: rest) :=
        onStack_add (by omega) (by omega)
      rw [run_cons (step_ofInt (by omega) rfl (by simp; omega)),
        run_cons (step_onStack (by decide) (by decide) rfl (by omega) added (by simp; omega)),
        run_cons (step_endif (by omega) (by simp; omega))]
      rfl
  | false =>
      rw [run_cons (step_ofInt_skipped (by omega) rfl (by simp; omega)),
        run_cons (step_op_skipped (by decide) (by decide) rfl (by omega) (by simp; omega)),
        run_cons (step_endif (by omega) (by simp; omega))]
      rfl

/-- The checks of all further signers consume one stack element each. -/
theorem run_otherChecks {signers : List Signer} {signatures : List Bytes} {sum : Nat}
    (lengthEq : signatures.length = signers.length)
    (pubkeysSmall : ∀ signer ∈ signers, signer.pubkey.length ≤ maxElementSize)
    (sumBound : sum + (signers.map Signer.weight).sum < 2 ^ 31)
    (room : count + 5 * signers.length ≤ maxOpCount)
    (height : signers.length + 2 ≤ maxStackSize) (is : List Instruction) :
    run checkSig ⟨ScriptNumber.encode (sum : Nat) :: signatures, [], count⟩
        (signers.flatMap otherCheck ++ is) =
      run checkSig
        ⟨[ScriptNumber.encode (sum + validWeight checkSig signers signatures : Nat)], [],
          count + 5 * signers.length⟩ is := by
  induction signers generalizing signatures sum count with
  | nil =>
      obtain rfl : signatures = [] := List.eq_nil_of_length_eq_zero lengthEq
      rfl
  | cons signer signers ih =>
      obtain ⟨signature, signatures, rfl⟩ := List.exists_cons_of_length_eq_add_one lengthEq
      have lengthRest : signatures.length = signers.length := by simpa using lengthEq
      have weightLe : addedWeight checkSig signer signature ≤ signer.weight := addedWeight_le
      simp only [List.map_cons, List.sum_cons, List.length_cons] at sumBound room height
      rw [List.flatMap_cons, List.append_assoc,
        run_otherCheck (pubkeysSmall signer (by simp)) (by omega) (by omega) (by omega),
        ih lengthRest (fun other member => pubkeysSmall other (by simp [member])) (by omega)
          (by omega) (by omega)]
      simp only [validWeight, List.zipWith_cons_cons, List.sum_cons, List.length_cons,
        Nat.add_assoc, Nat.mul_add, Nat.mul_one, Nat.add_comm 5]

/-- The comparison with the threshold replaces the sum by a truth value. -/
theorem run_comparison {sum threshold : Nat} (sumBound : sum < 2 ^ 31)
    (thresholdBound : threshold < 2 ^ 31) (room : count + 1 ≤ maxOpCount)
    (is : List Instruction) :
    run checkSig ⟨[ScriptNumber.encode (sum : Nat)], [], count⟩
        (.ofInt threshold :: .op OP_GREATERTHAN :: is) =
      run checkSig ⟨[truth (threshold < sum)], [], count + 1⟩ is := by
  have compared : onStack checkSig OP_GREATERTHAN
      [ScriptNumber.encode (threshold : Nat), ScriptNumber.encode (sum : Nat)] =
        some [truth ((threshold : Int) < sum)] :=
    onStack_greaterthan (by omega) (by omega)
  rw [run_cons (step_ofInt (by omega) rfl (by simp [maxStackSize])),
    run_cons (step_onStack (by decide) (by decide) rfl room compared (by simp [maxStackSize]))]
  simp

/-- The closing part succeeds exactly on commitments that are small enough to
be pushed. -/
theorem run_closing {sum threshold : Nat} {commitment : Bytes} (sumBound : sum < 2 ^ 31)
    (thresholdBound : threshold < 2 ^ 31) (room : count + 2 ≤ maxOpCount) :
    run checkSig ⟨[ScriptNumber.encode (sum : Nat)], [], count⟩ (closing threshold commitment) =
      if commitment.length ≤ maxElementSize then
        some ⟨[truth (threshold < sum)], [], count + 2⟩
      else none := by
  rw [closing, run_comparison sumBound thresholdBound (by omega)]
  split
  · rename_i small
    rw [run_cons (step_pushBytes rfl small (by simp [maxStackSize])),
      run_cons (step_onStack (by decide) (by decide) rfl room (onStack_drop _)
        (by simp [maxStackSize]))]
    rfl
  · rename_i large
    simp [run, step_pushBytes_large (Nat.lt_of_not_le large)]

/-- The run of a whole script on one stack element for each signer. -/
theorem run_whole {first : Signer} {others : List Signer} {threshold : Nat} {commitment : Bytes}
    {signatures : List Bytes} (lengthEq : signatures.length = others.length + 1)
    (pubkeysSmall : ∀ signer ∈ first :: others, signer.pubkey.length ≤ maxElementSize)
    (weightBound : ((first :: others).map Signer.weight).sum < 2 ^ 31)
    (thresholdBound : threshold < 2 ^ 31) (few : others.length ≤ 39) :
    run checkSig ⟨signatures, [], 0⟩ (whole first others threshold commitment) =
      if commitment.length ≤ maxElementSize then
        some ⟨[truth (threshold < validWeight checkSig (first :: others) signatures)], [],
          6 + 5 * others.length⟩
      else none := by
  obtain ⟨signature, signatures, rfl⟩ := List.exists_cons_of_length_eq_add_one lengthEq
  have lengthRest : signatures.length = others.length := by simpa using lengthEq
  have opRoom : 6 + 5 * others.length ≤ maxOpCount := by simp only [maxOpCount]; omega
  have stackRoom : others.length + 2 ≤ maxStackSize := by simp only [maxStackSize]; omega
  have firstLe : addedWeight checkSig first signature ≤ first.weight := addedWeight_le
  have othersLe : validWeight checkSig others signatures ≤ (others.map Signer.weight).sum :=
    validWeight_le others signatures
  simp only [List.map_cons, List.sum_cons] at weightBound
  rw [whole, run_firstCheck (pubkeysSmall first (by simp)) (by omega) (by omega) (by omega),
    run_otherChecks lengthRest (fun other member => pubkeysSmall other (by simp [member]))
      (by omega) (by omega) (by omega),
    run_closing (by omega) thresholdBound (by omega)]
  simp only [validWeight, List.zipWith_cons_cons, List.sum_cons]
  congr 3
  omega

end Execution

section Serialization

variable {first : Signer} {others : List Signer} {threshold : Int} {commitment : Bytes}

theorem encodable_firstCheck {signer : Signer} (pubkeySmall : signer.pubkey.length < 2 ^ 32)
    (weightBound : signer.weight < 2 ^ 64) : ∀ i ∈ firstCheck signer, i.Encodable := by
  have weightEncodable : (Instruction.ofInt signer.weight).Encodable := encodable_ofInt (by omega)
  have zeroEncodable : (Instruction.ofInt 0).Encodable := encodable_ofInt (by decide)
  simp only [firstCheck, List.forall_mem_cons]
  exact ⟨pubkeySmall, by decide, by decide, weightEncodable, by decide, zeroEncodable, by decide,
    by simp⟩

theorem encodable_otherCheck {signer : Signer} (pubkeySmall : signer.pubkey.length < 2 ^ 32)
    (weightBound : signer.weight < 2 ^ 64) : ∀ i ∈ otherCheck signer, i.Encodable := by
  have weightEncodable : (Instruction.ofInt signer.weight).Encodable := encodable_ofInt (by omega)
  simp only [otherCheck, List.forall_mem_cons]
  exact ⟨by decide, pubkeySmall, by decide, by decide, weightEncodable, by decide, by decide,
    by simp⟩

theorem encodable_closing (thresholdBound : threshold.natAbs < 2 ^ 64)
    (commitmentBound : commitment.length < 2 ^ 32) :
    ∀ i ∈ closing threshold commitment, i.Encodable := by
  have thresholdEncodable : (Instruction.ofInt threshold).Encodable :=
    encodable_ofInt thresholdBound
  simp only [closing, List.forall_mem_cons]
  exact ⟨thresholdEncodable, by decide, commitmentBound, by decide, by simp⟩

/-- Every instruction of a script survives its serialization. -/
theorem encodable_whole (pubkeysSmall : ∀ signer ∈ first :: others, signer.pubkey.length < 2 ^ 32)
    (weightsBound : ∀ signer ∈ first :: others, signer.weight < 2 ^ 64)
    (thresholdBound : threshold.natAbs < 2 ^ 64) (commitmentBound : commitment.length < 2 ^ 32) :
    ∀ i ∈ whole first others threshold commitment, i.Encodable := by
  intro i member
  simp only [whole, List.mem_append, List.mem_flatMap] at member
  rcases member with firstMember | ⟨signer, signerMember, otherMember⟩ | closingMember
  · exact encodable_firstCheck (pubkeysSmall first (by simp)) (weightsBound first (by simp)) i
      firstMember
  · have signerIn : signer ∈ first :: others := List.mem_cons_of_mem _ signerMember
    exact encodable_otherCheck (pubkeysSmall signer signerIn) (weightsBound signer signerIn) i
      otherMember
  · exact encodable_closing thresholdBound commitmentBound i closingMember

theorem ofInt_weight_mem_whole {signer : Signer} (member : signer ∈ first :: others) :
    Instruction.ofInt signer.weight ∈ whole first others threshold commitment := by
  rw [whole, List.mem_append, List.mem_append, List.mem_flatMap]
  rcases List.mem_cons.mp member with rfl | further
  · exact Or.inl (by simp [firstCheck])
  · exact Or.inr (Or.inl ⟨signer, further, by simp [otherCheck]⟩)

theorem ofInt_threshold_mem_whole :
    Instruction.ofInt threshold ∈ whole first others threshold commitment := by
  rw [whole, List.mem_append, List.mem_append]
  exact Or.inr (Or.inr (by simp [closing]))

theorem ext_of_ofInt {left right : Signer} (pubkeyEq : left.pubkey = right.pubkey)
    (weightEq : Instruction.ofInt left.weight = Instruction.ofInt right.weight) : left = right := by
  have weights : left.weight = right.weight := Int.ofNat.inj (Instruction.ofInt_injective weightEq)
  cases left
  cases right
  simp_all

/-- The checks of further signers end where the closing part begins. -/
theorem otherChecks_injective {others' : List Signer} {threshold' : Int} {commitment' : Bytes}
    (equal : others.flatMap otherCheck ++ closing threshold commitment =
      others'.flatMap otherCheck ++ closing threshold' commitment') :
    others = others' ∧ threshold = threshold' ∧ commitment = commitment' := by
  induction others generalizing others' with
  | nil =>
      cases others' with
      | nil =>
          simp only [closing, List.flatMap_nil, List.nil_append, List.cons.injEq,
            Instruction.pushBytes.injEq, true_and, and_true] at equal
          exact ⟨rfl, Instruction.ofInt_injective equal.1, equal.2⟩
      | cons signer others' =>
          have lengths := congrArg List.length equal
          simp [closing, otherCheck] at lengths
  | cons signer others ih =>
      cases others' with
      | nil =>
          have lengths := congrArg List.length equal
          simp [closing, otherCheck] at lengths
      | cons signer' others' =>
          simp only [List.flatMap_cons, List.append_assoc] at equal
          obtain ⟨sameCheck, rest⟩ := List.append_inj equal rfl
          simp only [otherCheck, List.cons.injEq, Instruction.pushBytes.injEq, true_and,
            and_true] at sameCheck
          obtain ⟨sameOthers, sameClosing⟩ := ih rest
          exact ⟨List.cons_eq_cons.mpr ⟨ext_of_ofInt sameCheck.1 sameCheck.2, sameOthers⟩,
            sameClosing⟩

/-- A script determines its signers, its threshold and its commitment. -/
theorem whole_injective {first' : Signer} {others' : List Signer} {threshold' : Int}
    {commitment' : Bytes}
    (equal : whole first others threshold commitment =
      whole first' others' threshold' commitment') :
    first = first' ∧ others = others' ∧ threshold = threshold' ∧ commitment = commitment' := by
  obtain ⟨sameCheck, rest⟩ := List.append_inj equal rfl
  simp only [firstCheck, List.cons.injEq, Instruction.pushBytes.injEq, true_and,
    and_true] at sameCheck
  exact ⟨ext_of_ofInt sameCheck.1 sameCheck.2, otherChecks_injective rest⟩

theorem length_firstCheck_le {signer : Signer} (pubkeySmall : signer.pubkey.length ≤ 65)
    (weightBound : signer.weight < 2 ^ 31) : (serialize (firstCheck signer)).length ≤ 80 := by
  have pushLength := length_pushSlice_short (by omega : signer.pubkey.length < 0x4c)
  have weightLength : (Instruction.ofInt signer.weight).bytes.length ≤ 5 :=
    length_bytes_ofInt_le (by decide : 3 ≤ 8) (by omega)
  have zeroLength : (Instruction.ofInt 0).bytes.length ≤ 5 := length_bytes_ofInt_le (by decide : 3 ≤ 8) (by decide)
  simp only [firstCheck, serialize_cons, serialize_nil, Instruction.bytes_pushBytes,
    Instruction.bytes_op, List.length_append, List.length_cons, List.length_nil]
  omega

theorem length_otherCheck_le {signer : Signer} (pubkeySmall : signer.pubkey.length ≤ 65)
    (weightBound : signer.weight < 2 ^ 31) : (serialize (otherCheck signer)).length ≤ 80 := by
  have pushLength := length_pushSlice_short (by omega : signer.pubkey.length < 0x4c)
  have weightLength : (Instruction.ofInt signer.weight).bytes.length ≤ 5 :=
    length_bytes_ofInt_le (by decide : 3 ≤ 8) (by omega)
  simp only [otherCheck, serialize_cons, serialize_nil, Instruction.bytes_pushBytes,
    Instruction.bytes_op, List.length_append, List.length_cons, List.length_nil]
  omega

theorem length_closing_bounds (thresholdBound : threshold.natAbs < 2 ^ 64) :
    commitment.length ≤ (serialize (closing threshold commitment)).length ∧
      (serialize (closing threshold commitment)).length ≤ commitment.length + 20 := by
  have commitmentLe := length_pushSlice_le commitment
  have leCommitment := length_le_pushSlice commitment
  have thresholdLength : (Instruction.ofInt threshold).bytes.length ≤ 10 :=
    length_bytes_ofInt_le le_rfl (by omega)
  simp only [closing, serialize_cons, serialize_nil, Instruction.bytes_pushBytes,
    Instruction.bytes_op, List.length_append, List.length_cons, List.length_nil]
  omega

/-- The size of a script, up to the lengths of its pushes. -/
theorem length_whole_bounds (pubkeysSmall : ∀ signer ∈ first :: others, signer.pubkey.length ≤ 65)
    (weightsBound : ∀ signer ∈ first :: others, signer.weight < 2 ^ 31)
    (thresholdBound : threshold.natAbs < 2 ^ 64) :
    commitment.length ≤ (serialize (whole first others threshold commitment)).length ∧
      (serialize (whole first others threshold commitment)).length ≤
        80 * (others.length + 1) + commitment.length + 20 := by
  have firstLength := length_firstCheck_le (pubkeysSmall first (by simp))
    (weightsBound first (by simp))
  obtain ⟨leClosing, closingLe⟩ :=
    (length_closing_bounds thresholdBound : commitment.length ≤ _ ∧ _)
  have othersLength : (serialize (others.flatMap otherCheck)).length ≤ 80 * others.length := by
    have eachLength : ∀ signer ∈ others, (serialize (otherCheck signer)).length ≤ 80 :=
      fun signer member => length_otherCheck_le
        (pubkeysSmall signer (List.mem_cons_of_mem _ member))
        (weightsBound signer (List.mem_cons_of_mem _ member))
    clear firstLength pubkeysSmall weightsBound
    induction others with
    | nil => simp
    | cons signer signers ih =>
        have head := eachLength signer (by simp)
        have tail := ih fun other member => eachLength other (List.mem_cons_of_mem _ member)
        rw [List.flatMap_cons, serialize_append, List.length_append, List.length_cons]
        omega
  rw [whole, serialize_append, serialize_append, List.length_append, List.length_append]
  omega

/-- The commitment alone decides whether a script can be executed. -/
theorem withinLimits_whole (pubkeysSmall : ∀ signer ∈ first :: others, signer.pubkey.length ≤ 65)
    (weightsBound : ∀ signer ∈ first :: others, signer.weight < 2 ^ 31)
    (thresholdBound : threshold.natAbs < 2 ^ 64) (commitmentBound : commitment.length < 2 ^ 32)
    (few : others.length ≤ 39) :
    WithinLimits (serialize (whole first others threshold commitment)) ↔
      commitment.length ≤ maxElementSize := by
  have read := instructions_serialize (encodable_whole
    (fun signer member => (pubkeysSmall signer member).trans_lt (by decide))
    (fun signer member => (weightsBound signer member).trans (by decide)) thresholdBound
    commitmentBound)
  constructor
  · rintro ⟨-, is, readIs, pushable⟩
    obtain rfl := Option.some.inj (read.symm.trans readIs)
    exact pushable (.pushBytes commitment) (by simp [whole, closing])
  · intro small
    obtain ⟨-, sizeLe⟩ :=
      (length_whole_bounds pubkeysSmall weightsBound thresholdBound : commitment.length ≤ _ ∧ _)
    refine ⟨by simp only [maxScriptSize, maxElementSize] at small ⊢; omega, _, read, ?_⟩
    have pubkeyPushable (signer : Signer) (member : signer ∈ first :: others) :
        Pushable (.pushBytes signer.pubkey) := (pubkeysSmall signer member).trans (by decide)
    have weightPushable (signer : Signer) (member : signer ∈ first :: others) :
        Pushable (.ofInt signer.weight) := by
      have bound := weightsBound signer member
      exact pushable_ofInt (by omega)
    have zeroPushable : Pushable (.ofInt 0) := pushable_ofInt (by decide)
    intro i member
    simp only [whole, List.mem_append, List.mem_flatMap] at member
    rcases member with inFirst | ⟨signer, signerMember, inOther⟩ | inClosing
    · have isFirst : first ∈ first :: others := List.mem_cons_self
      simp only [firstCheck, List.mem_cons, List.not_mem_nil, or_false] at inFirst
      rcases inFirst with rfl | rfl | rfl | rfl | rfl | rfl | rfl
      all_goals first
        | trivial
        | exact zeroPushable
        | exact pubkeyPushable first isFirst
        | exact weightPushable first isFirst
    · have isOther : signer ∈ first :: others := List.mem_cons_of_mem _ signerMember
      simp only [otherCheck, List.mem_cons, List.not_mem_nil, or_false] at inOther
      rcases inOther with rfl | rfl | rfl | rfl | rfl | rfl | rfl
      all_goals first
        | trivial
        | exact pubkeyPushable signer isOther
        | exact weightPushable signer isOther
    · simp only [closing, List.mem_cons, List.not_mem_nil, or_false] at inClosing
      rcases inClosing with rfl | rfl | rfl | rfl
      · exact pushable_ofInt thresholdBound
      · trivial
      · exact small
      · trivial

end Serialization

/-- Evaluating a script compares the weight of the valid signatures with the
threshold, unless the commitment is too large to be pushed. -/
theorem evaluate_whole {checkSig : Bytes → Bytes → Bool} {first : Signer} {others : List Signer}
    {threshold : Nat} {commitment : Bytes} {signatures : List Bytes}
    (lengthEq : signatures.length = others.length + 1)
    (pubkeysSmall : ∀ signer ∈ first :: others, signer.pubkey.length ≤ 65)
    (weightBound : ((first :: others).map Signer.weight).sum < 2 ^ 31)
    (thresholdBound : threshold < 2 ^ 31) (few : others.length ≤ 39) :
    evaluate checkSig (serialize (whole first others threshold commitment)) signatures =
      if commitment.length ≤ maxElementSize then
        some [truth (threshold < validWeight checkSig (first :: others) signatures)]
      else none := by
  have weightsBound : ∀ signer ∈ first :: others, signer.weight < 2 ^ 31 := by
    intro signer member
    have single : signer.weight ≤ ((first :: others).map Signer.weight).sum :=
      List.le_sum_of_mem (List.mem_map_of_mem member)
    omega
  have thresholdNatAbs : (threshold : Int).natAbs < 2 ^ 64 := by omega
  obtain ⟨leSize, sizeLe⟩ :=
    (length_whole_bounds pubkeysSmall weightsBound thresholdNatAbs : commitment.length ≤ _ ∧ _)
  unfold evaluate
  split
  · rename_i oversized
    rw [if_neg]
    simp only [maxScriptSize, maxElementSize] at oversized ⊢
    omega
  · rename_i sized
    have commitmentBound : commitment.length < 2 ^ 32 := by
      simp only [maxScriptSize] at sized
      omega
    have decoded := instructions_serialize (encodable_whole
      (fun signer member => by have := pubkeysSmall signer member; omega)
      (fun signer member => (weightsBound signer member).trans (by decide))
      thresholdNatAbs commitmentBound)
    have elementsSmall : ∀ signer ∈ first :: others, signer.pubkey.length ≤ maxElementSize := by
      intro signer member
      have := pubkeysSmall signer member
      simp only [maxElementSize]
      omega
    rw [decoded]
    simp only [Option.bind_eq_bind, Option.bind_some,
      run_whole lengthEq elementsSmall weightBound thresholdBound few]
    split <;> rfl

end ThresholdScript
