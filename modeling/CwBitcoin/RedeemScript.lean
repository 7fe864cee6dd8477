import CwBitcoin.Library.ThresholdScript
import CwBitcoin.ThresholdSig

/-!
# What a redeem script accepts

The redeem script of a signatory set is a serialized list of instructions.
Executed on one witness element for each signatory, it adds up the truncated
voting powers whose signatures are valid and compares the sum with the
truncated threshold.  Rounding down each power cannot make up for rounding
down the threshold, so whatever the script accepts is backed by more voting
power than the threshold.  The converse fails for some sets.
-/

namespace CwBitcoin

open Script ScriptMachine

namespace SignatorySet

/-- What the construction from the validators guarantees about a set. -/
structure WellFormed (sigset : SignatorySet) : Prop where
  length_le : sigset.signatories.length ≤ MAX_SIGNATORIES
  presentVp_eq : sigset.presentVp = (sigset.signatories.map Signatory.votingPower).sum
  presentVp_lt : sigset.presentVp < 2 ^ 64
  sorted : sigset.signatories.Pairwise fun first second => second.rank ≤ first.rank

theorem removeVp_eq_ok {presentVp remaining : Nat} {removed : List Signatory}
    (subtracted : removeVp presentVp removed = .ok remaining) :
    remaining + (removed.map Signatory.votingPower).sum = presentVp := by
  induction removed generalizing presentVp with
  | nil =>
      cases subtracted
      simp
  | cons signatory rest ih =>
      simp only [removeVp, Outcome.bind_eq_ok, Outcome.checkedSub_eq_ok] at subtracted
      obtain ⟨_, ⟨enough, rfl⟩, restSubtracted⟩ := subtracted
      have restEq := ih restSubtracted
      simp only [List.map_cons, List.sum_cons]
      omega

/-- The running totals while validators are taken into account. -/
structure Collected (sigset : SignatorySet) : Prop where
  presentVp_eq : sigset.presentVp = (sigset.signatories.map Signatory.votingPower).sum
  presentVp_lt : sigset.presentVp < 2 ^ 64

theorem Collected.addValidator {host : Host} {sigKey : ConsensusKey → Option Xpub}
    {sigset next : SignatorySet} {entry : Validator} (collected : sigset.Collected)
    (added : addValidator host sigKey sigset entry = .ok next) : next.Collected := by
  simp only [SignatorySet.addValidator, Outcome.bind_eq_ok] at added
  obtain ⟨possibleVp, _, added⟩ := added
  cases key : sigKey entry.pubkey with
  | none =>
      simp only [key, Outcome.pure_eq_ok] at added
      subst added
      exact ⟨collected.presentVp_eq, collected.presentVp_lt⟩
  | some xpub =>
      simp only [key, Outcome.bind_eq_ok, SignatorySet.insert, Outcome.checkedAdd_eq_ok,
        Outcome.pure_eq_ok] at added
      obtain ⟨pubkey, _, _, ⟨fits, rfl⟩, rfl⟩ := added
      exact ⟨by simp [collected.presentVp_eq], fits⟩

/-- Every set built from the validators is well formed. -/
theorem fromValidatorCtx_wellFormed {host : Host} {validators : List Validator}
    {sigKey : ConsensusKey → Option Xpub} {createTime index : Nat} {sigset : SignatorySet}
    (built : fromValidatorCtx host validators sigKey createTime index = .ok sigset) :
    sigset.WellFormed := by
  simp only [fromValidatorCtx, Outcome.bind_eq_ok] at built
  obtain ⟨collecting, folded, truncated⟩ := built
  have collected : collecting.Collected :=
    Outcome.foldlM_invariant (fun _ _ _ holds added => holds.addValidator added)
      ⟨rfl, by simp⟩ folded
  simp only [sortAndTruncate, Outcome.bind_eq_ok, Outcome.pure_eq_ok] at truncated
  obtain ⟨presentVp, subtracted, rfl⟩ := truncated
  generalize sortedEq : collecting.signatories.insertionSort
    (fun first second => second.rank ≤ first.rank) = sorted at subtracted
  have removedSum := removeVp_eq_ok subtracted
  have permuted : sorted.Perm collecting.signatories := by
    rw [← sortedEq]
    exact List.perm_insertionSort _ _
  have totalSum : (sorted.map Signatory.votingPower).sum = collecting.presentVp := by
    rw [collected.presentVp_eq]
    exact (permuted.map _).sum_eq
  have splitSum : (sorted.map Signatory.votingPower).sum =
      ((sorted.take MAX_SIGNATORIES).map Signatory.votingPower).sum +
        ((sorted.drop MAX_SIGNATORIES).map Signatory.votingPower).sum := by
    rw [← List.sum_append, ← List.map_append, List.take_append_drop]
  have bound := collected.presentVp_lt
  exact
    { length_le := by simp
      presentVp_eq := by simp only; omega
      presentVp_lt := by simp only; omega
      sorted := by
        have pairwise : sorted.Pairwise fun first second => second.rank ≤ first.rank := by
          rw [← sortedEq]
          exact List.pairwise_insertionSort _ _
        exact pairwise.sublist (List.take_sublist _ _) }

/-- A signatory as a signer of a weighted script. -/
def signer (signatory : Signatory) : ThresholdScript.Signer where
  pubkey := signatory.pubkey.bytes
  weight := signatory.votingPower

/-- The signatory with `bits` low bits of its voting power left out. -/
def truncatedSigner (bits : Nat) (signatory : Signatory) : ThresholdScript.Signer :=
  (signer signatory).truncate bits

theorem map_truncatedSigner (bits : Nat) (signatories : List Signatory) :
    signatories.map (truncatedSigner bits) =
      (signatories.map signer).map (ThresholdScript.Signer.truncate bits) :=
  List.map_map.symm

theorem shiftRight_mono {first second : Nat} (le : first ≤ second) (truncation : Nat) :
    first >>> truncation ≤ second >>> truncation := by
  simp only [Nat.shiftRight_eq_div_pow]
  exact Nat.div_le_div_right le

theorem shiftRight_le_self (number bits : Nat) : number >>> bits ≤ number := by
  rw [Nat.shiftRight_eq_div_pow]
  exact Nat.div_le_self number (2 ^ bits)

/-- After truncation the voting power of a set has at most 23 bits. -/
theorem presentVp_shiftRight_lt (sigset : SignatorySet) :
    sigset.presentVp >>> sigset.getTruncation 23 < 2 ^ 23 := by
  rw [Nat.shiftRight_eq_div_pow, Nat.div_lt_iff_lt_mul (Nat.two_pow_pos _), ← pow_add]
  have sized := Nat.lt_size_self sigset.presentVp
  have exponentLe : sigset.presentVp.size ≤ 23 + sigset.getTruncation 23 := by
    unfold getTruncation
    omega
  exact lt_of_lt_of_le sized (Nat.pow_le_pow_right (by omega) exponentLe)

theorem WellFormed.votingPower_le {sigset : SignatorySet} (wellFormed : sigset.WellFormed)
    {signatory : Signatory} (member : signatory ∈ sigset.signatories) :
    signatory.votingPower ≤ sigset.presentVp := by
  rw [wellFormed.presentVp_eq]
  exact List.le_sum_of_mem (List.mem_map_of_mem member)

/-- The truncated powers of a set have at most 23 bits. -/
def SmallPowers (sigset : SignatorySet) : Prop :=
  ∀ signatory ∈ sigset.signatories, signatory.votingPower >>> sigset.getTruncation 23 < 2 ^ 23

theorem WellFormed.smallPowers {sigset : SignatorySet} (wellFormed : sigset.WellFormed) :
    sigset.SmallPowers :=
  fun _ member =>
    (shiftRight_mono (wellFormed.votingPower_le member) _).trans_lt sigset.presentVp_shiftRight_lt

/-- The instructions of a redeem script. -/
def redeemInstructions (sigset : SignatorySet) (first : Signatory) (others : List Signatory)
    (threshold : Nat) (dest : Bytes) : List Instruction :=
  let truncation := sigset.getTruncation 23
  ThresholdScript.whole (truncatedSigner truncation first)
    (others.map (truncatedSigner truncation)) (asI64 (threshold >>> truncation)) dest

theorem firstSignatoryScript_eq {signatory : Signatory} {bits : Nat}
    (small : signatory.votingPower >>> bits < 2 ^ 23) :
    firstSignatoryScript signatory (asI64 (signatory.votingPower >>> bits)) =
      serialize (ThresholdScript.firstCheck (truncatedSigner bits signatory)) := by
  rw [asI64_of_lt (small.trans (by decide))]
  simp [firstSignatoryScript, ThresholdScript.firstCheck, truncatedSigner, signer,
    ThresholdScript.Signer.truncate, pushInt]

theorem otherSignatoryScripts_eq {signatories : List Signatory} {bits : Nat}
    (small : ∀ signatory ∈ signatories, signatory.votingPower >>> bits < 2 ^ 23) :
    (signatories.flatMap fun signatory =>
        otherSignatoryScript signatory (asI64 (signatory.votingPower >>> bits))) =
      serialize ((signatories.map (truncatedSigner bits)).flatMap ThresholdScript.otherCheck) := by
  induction signatories with
  | nil => rfl
  | cons signatory others ih =>
      obtain ⟨here, rest⟩ := List.forall_mem_cons.mp small
      rw [List.flatMap_cons, ih rest, List.map_cons, List.flatMap_cons, serialize_append,
        asI64_of_lt (here.trans (by decide))]
      simp [otherSignatoryScript, ThresholdScript.otherCheck, truncatedSigner, signer,
        ThresholdScript.Signer.truncate, pushInt]

/-- The redeem script is the serialized form of its instructions. -/
theorem SmallPowers.redeemScript_eq_ok {sigset : SignatorySet} (small : sigset.SmallPowers)
    {dest : Bytes} {ratio : Nat × Nat} {script : Script} :
    sigset.redeemScript dest ratio = .ok script ↔
      ∃ first others threshold, sigset.signatories = first :: others ∧
        sigset.signatureThreshold ratio = .ok threshold ∧ dest.length < 2 ^ 32 ∧
        script = serialize (sigset.redeemInstructions first others threshold dest) := by
  unfold SmallPowers at small
  unfold redeemScript
  cases shape : sigset.signatories with
  | nil => simp
  | cons first others =>
      rw [shape] at small
      have written (threshold : Nat) :
          firstSignatoryScript first (asI64 (first.votingPower >>> sigset.getTruncation 23)) ++
            (others.flatMap fun signatory => otherSignatoryScript signatory
              (asI64 (signatory.votingPower >>> sigset.getTruncation 23))) ++
            (pushInt (asI64 (threshold >>> sigset.getTruncation 23)) ++ [OP_GREATERTHAN]) ++
            (pushSlice dest ++ [OP_DROP]) =
          serialize (sigset.redeemInstructions first others threshold dest) := by
        rw [firstSignatoryScript_eq (small first List.mem_cons_self),
          otherSignatoryScripts_eq fun each member => small each (List.mem_cons_of_mem _ member),
          redeemInstructions, ThresholdScript.whole, serialize_append, serialize_append]
        simp [ThresholdScript.closing, pushInt]
      simp only [Outcome.bind_eq_ok, Outcome.assert_eq_ok, Outcome.pure_eq_ok, List.cons.injEq,
        written]
      constructor
      · rintro ⟨threshold, thresholdEq, _, small, rfl⟩
        exact ⟨first, others, threshold, ⟨rfl, rfl⟩, thresholdEq, small, rfl⟩
      · rintro ⟨_, _, threshold, ⟨rfl, rfl⟩, thresholdEq, small, rfl⟩
        exact ⟨threshold, thresholdEq, (), small, rfl⟩

theorem redeemScript_eq_ok {sigset : SignatorySet} (wellFormed : sigset.WellFormed) {dest : Bytes}
    {ratio : Nat × Nat} {script : Script} :
    sigset.redeemScript dest ratio = .ok script ↔
      ∃ first others threshold, sigset.signatories = first :: others ∧
        sigset.signatureThreshold ratio = .ok threshold ∧ dest.length < 2 ^ 32 ∧
        script = serialize (sigset.redeemInstructions first others threshold dest) :=
  wellFormed.smallPowers.redeemScript_eq_ok

theorem SmallPowers.truncatedSigner_bounds {sigset : SignatorySet} (small : sigset.SmallPowers)
    {signer : ThresholdScript.Signer}
    (member : signer ∈ sigset.signatories.map (truncatedSigner (sigset.getTruncation 23))) :
    signer.pubkey.length = 33 ∧ signer.weight < 2 ^ 23 := by
  obtain ⟨signatory, memberOf, rfl⟩ := List.mem_map.mp member
  exact ⟨signatory.pubkey.length_eq, small signatory memberOf⟩

theorem WellFormed.truncatedSigner_bounds {sigset : SignatorySet} (wellFormed : sigset.WellFormed)
    {signer : ThresholdScript.Signer}
    (member : signer ∈ sigset.signatories.map (truncatedSigner (sigset.getTruncation 23))) :
    signer.pubkey.length = 33 ∧ signer.weight < 2 ^ 23 :=
  wellFormed.smallPowers.truncatedSigner_bounds member

/-- Every instruction of a redeem script survives its serialization. -/
theorem SmallPowers.encodable {sigset : SignatorySet} (small : sigset.SmallPowers)
    {first : Signatory} {others : List Signatory} {threshold : Nat} {dest : Bytes}
    (shape : sigset.signatories = first :: others) (short : dest.length < 2 ^ 32) :
    ∀ i ∈ sigset.redeemInstructions first others threshold dest, i.Encodable := by
  have bounds := @SmallPowers.truncatedSigner_bounds sigset small
  rw [shape, List.map_cons] at bounds
  exact ThresholdScript.encodable_whole
    (fun signer member => by rw [(bounds member).1]; decide)
    (fun signer member => (bounds member).2.trans (by decide)) (natAbs_asI64_lt _) short

theorem WellFormed.encodable {sigset : SignatorySet} (wellFormed : sigset.WellFormed)
    {first : Signatory} {others : List Signatory} {threshold : Nat} {dest : Bytes}
    (shape : sigset.signatories = first :: others) (short : dest.length < 2 ^ 32) :
    ∀ i ∈ sigset.redeemInstructions first others threshold dest, i.Encodable :=
  wellFormed.smallPowers.encodable shape short

/-- A redeem script can be executed if and only if its commitment can be
pushed. -/
theorem WellFormed.withinLimits_redeemScript {sigset : SignatorySet}
    (wellFormed : sigset.WellFormed) {dest : Bytes} {ratio : Nat × Nat} {script : Script}
    (scripted : sigset.redeemScript dest ratio = .ok script) :
    WithinLimits script ↔ dest.length ≤ maxElementSize := by
  obtain ⟨first, others, threshold, shape, -, small, rfl⟩ :=
    (redeemScript_eq_ok wellFormed).mp scripted
  have bounds := @WellFormed.truncatedSigner_bounds sigset wellFormed
  have few := wellFormed.length_le
  rw [shape, List.length_cons, MAX_SIGNATORIES] at few
  rw [shape, List.map_cons] at bounds
  apply ThresholdScript.withinLimits_whole
  · intro signer member
    rw [(bounds member).1]
    decide
  · intro signer member
    exact (bounds member).2.trans (by decide)
  · exact natAbs_asI64_lt _
  · exact small
  · rw [List.length_map]
    omega

theorem signatureThreshold_lt {sigset : SignatorySet} {ratio : Nat × Nat} {threshold : Nat}
    (thresholdEq : sigset.signatureThreshold ratio = .ok threshold) : threshold < 2 ^ 64 := by
  simp only [signatureThreshold, Outcome.bind_eq_ok, Outcome.pure_eq_ok] at thresholdEq
  obtain ⟨product, -, quotient, -, rfl⟩ := thresholdEq
  exact Nat.mod_lt _ (by decide)

/-- The voting powers that the redeem script of a set contains. -/
def truncatedPowers (sigset : SignatorySet) : List Nat :=
  sigset.signatories.map fun signatory => signatory.votingPower >>> sigset.getTruncation 23

/-- What two sets and commitments have in common when they have the same redeem
script. -/
structure SameRedeem (sigset otherSet : SignatorySet) (dest otherDest : Bytes)
    (ratio otherRatio : Nat × Nat) : Prop where
  pubkeys : sigset.signatories.map Signatory.pubkey = otherSet.signatories.map Signatory.pubkey
  powers : sigset.truncatedPowers = otherSet.truncatedPowers
  threshold : ∃ threshold otherThreshold, sigset.signatureThreshold ratio = .ok threshold ∧
    otherSet.signatureThreshold otherRatio = .ok otherThreshold ∧
    threshold >>> sigset.getTruncation 23 = otherThreshold >>> otherSet.getTruncation 23
  dest : dest = otherDest

section Binding

variable {sigset otherSet : SignatorySet} {dest otherDest : Bytes} {ratio otherRatio : Nat × Nat}
  {script : Script}

/-- A redeem script determines the public keys, the truncated voting powers, the
truncated threshold and the commitment. -/
theorem sameRedeem_of_redeemScript_eq (wellFormed : sigset.WellFormed)
    (otherFormed : otherSet.WellFormed) (scripted : sigset.redeemScript dest ratio = .ok script)
    (otherScripted : otherSet.redeemScript otherDest otherRatio = .ok script) :
    SameRedeem sigset otherSet dest otherDest ratio otherRatio := by
  obtain ⟨first, others, threshold, shape, thresholdEq, small, rfl⟩ :=
    (redeemScript_eq_ok wellFormed).mp scripted
  obtain ⟨first', others', threshold', shape', thresholdEq', small', equal⟩ :=
    (redeemScript_eq_ok otherFormed).mp otherScripted
  have instructionsEq := eq_of_serialize_eq (wellFormed.encodable shape small)
    (otherFormed.encodable shape' small') equal
  obtain ⟨firstEq, othersEq, thresholdsEq, destEq⟩ := ThresholdScript.whole_injective instructionsEq
  have signersEq : sigset.signatories.map (truncatedSigner (sigset.getTruncation 23)) =
      otherSet.signatories.map (truncatedSigner (otherSet.getTruncation 23)) := by
    rw [shape, shape', List.map_cons, List.map_cons, firstEq, othersEq]
  refine ⟨?_, ?_, ⟨threshold, threshold', thresholdEq, thresholdEq', ?_⟩, destEq⟩
  · have bytesEq := congrArg (List.map ThresholdScript.Signer.pubkey) signersEq
    have injective : Function.Injective Pubkey.bytes := by
      rintro ⟨first, -⟩ ⟨second, -⟩ rfl
      rfl
    apply List.map_injective_iff.mpr injective
    simpa [truncatedSigner, signer, ThresholdScript.Signer.truncate, Function.comp_def] using bytesEq
  · have weightsEq := congrArg (List.map ThresholdScript.Signer.weight) signersEq
    simpa [truncatedPowers, truncatedSigner, signer, ThresholdScript.Signer.truncate,
      Function.comp_def] using weightsEq
  · apply asI64_injOn _ _ thresholdsEq
    · exact (shiftRight_le_self _ _).trans_lt (signatureThreshold_lt thresholdEq)
    · exact (shiftRight_le_self _ _).trans_lt (signatureThreshold_lt thresholdEq')

/-- The redeem scripts for different destinations are different, also for
different signatory sets. -/
theorem dest_eq_of_redeemScript_eq (wellFormed : sigset.WellFormed)
    (otherFormed : otherSet.WellFormed) (scripted : sigset.redeemScript dest ratio = .ok script)
    (otherScripted : otherSet.redeemScript otherDest otherRatio = .ok script) : dest = otherDest :=
  (sameRedeem_of_redeemScript_eq wellFormed otherFormed scripted otherScripted).dest

end Binding

/-- The threshold under the ratio of the network never wraps around and is at
most the voting power of the set. -/
theorem signatureThreshold_eq_ok {sigset : SignatorySet} {threshold : Nat}
    (small : sigset.presentVp < 2 ^ 64) :
    sigset.signatureThreshold SIGSET_THRESHOLD = .ok threshold ↔
      threshold = sigset.presentVp * 2 / 3 := by
  have quotient : sigset.presentVp * 2 / 3 % 2 ^ 64 = sigset.presentVp * 2 / 3 := by omega
  simp only [signatureThreshold, SIGSET_THRESHOLD, Outcome.bind_eq_ok, Outcome.checkedMul_eq_ok,
    Outcome.checkedDiv_eq_ok, Outcome.pure_eq_ok]
  constructor
  · rintro ⟨_, ⟨_, rfl⟩, _, ⟨_, rfl⟩, rfl⟩
    exact quotient
  · rintro rfl
    exact ⟨_, ⟨by omega, rfl⟩, _, ⟨by omega, rfl⟩, quotient⟩

/-- The voting power of the signatories whose elements are valid signatures,
given in the order of the signatories. -/
def validVotingPower (checkSig : Bytes → Bytes → Bool) (signatories : List Signatory)
    (signatures : List Bytes) : Nat :=
  ThresholdScript.validWeight checkSig (signatories.map signer) signatures

/-- The voting power that the script counts for valid signatures. -/
def validTruncatedPower (checkSig : Bytes → Bytes → Bool) (sigset : SignatorySet)
    (signatures : List Bytes) : Nat :=
  ThresholdScript.validWeight checkSig
    (sigset.signatories.map (truncatedSigner (sigset.getTruncation 23))) signatures

theorem validTruncatedPower_le {checkSig : Bytes → Bytes → Bool} {sigset : SignatorySet}
    {signatures : List Bytes} :
    validTruncatedPower checkSig sigset signatures ≤
      validVotingPower checkSig sigset.signatories signatures >>> sigset.getTruncation 23 := by
  rw [validTruncatedPower, map_truncatedSigner]
  exact ThresholdScript.validWeight_truncate_le _ _ _

/-- A ratio of at most one gives a threshold of at most the voting power. -/
theorem WellFormed.threshold_eq {sigset : SignatorySet} (wellFormed : sigset.WellFormed)
    {ratio : Nat × Nat} (proper : ratio.1 ≤ ratio.2) {threshold : Nat}
    (thresholdEq : sigset.signatureThreshold ratio = .ok threshold) :
    threshold = sigset.presentVp * ratio.1 / ratio.2 ∧ threshold ≤ sigset.presentVp := by
  simp only [signatureThreshold, Outcome.bind_eq_ok, Outcome.checkedMul_eq_ok,
    Outcome.checkedDiv_eq_ok, Outcome.pure_eq_ok] at thresholdEq
  obtain ⟨_, ⟨-, rfl⟩, _, ⟨-, rfl⟩, rfl⟩ := thresholdEq
  have atMost : sigset.presentVp * ratio.1 / ratio.2 ≤ sigset.presentVp :=
    Nat.div_le_of_le_mul (by rw [Nat.mul_comm]; exact Nat.mul_le_mul_right _ proper)
  rw [Nat.mod_eq_of_lt (atMost.trans_lt wellFormed.presentVp_lt)]
  exact ⟨rfl, atMost⟩

/-- Evaluating a redeem script on one element for each signatory compares the
truncated voting power of the valid signatures with the truncated threshold. -/
theorem evaluate_redeemScript {checkSig : Bytes → Bytes → Bool} {sigset : SignatorySet}
    (wellFormed : sigset.WellFormed) {ratio : Nat × Nat} (proper : ratio.1 ≤ ratio.2)
    {dest : Bytes} {script : Script} (scripted : sigset.redeemScript dest ratio = .ok script)
    {signatures : List Bytes} (oneEach : signatures.length = sigset.signatories.length) :
    evaluate checkSig script signatures =
      if dest.length ≤ maxElementSize then
        some [truth ((sigset.presentVp * ratio.1 / ratio.2) >>> sigset.getTruncation 23 <
          validTruncatedPower checkSig sigset signatures)]
      else none := by
  obtain ⟨first, others, threshold, shape, thresholdEq, _, rfl⟩ :=
    (redeemScript_eq_ok wellFormed).mp scripted
  obtain ⟨rfl, atMost⟩ := wellFormed.threshold_eq proper thresholdEq
  have few := wellFormed.length_le
  have truncatedBound := sigset.presentVp_shiftRight_lt
  have thresholdBound := shiftRight_mono atMost (sigset.getTruncation 23)
  have weightBound : ((sigset.signatories.map (truncatedSigner (sigset.getTruncation 23))).map
      ThresholdScript.Signer.weight).sum ≤ sigset.presentVp >>> sigset.getTruncation 23 := by
    have total : ((sigset.signatories.map signer).map ThresholdScript.Signer.weight).sum =
        sigset.presentVp := by
      rw [wellFormed.presentVp_eq, List.map_map]
      rfl
    rw [map_truncatedSigner, ← total]
    exact ThresholdScript.sum_truncate_le _ _
  have pubkeysSmall : ∀ each ∈ sigset.signatories.map
      (truncatedSigner (sigset.getTruncation 23)), each.pubkey.length ≤ 65 := by
    intro each member
    rw [(wellFormed.truncatedSigner_bounds member).1]
    decide
  rw [validTruncatedPower, redeemInstructions, asI64_of_lt (by omega)]
  simp only [shape, List.length_cons, MAX_SIGNATORIES, List.map_cons] at *
  exact ThresholdScript.evaluate_whole (by simpa using oneEach) pubkeysSmall
    (by simp only [List.map_cons]; omega) (by omega) (by simp; omega)

/-- Custody soundness: what the script accepts is backed by valid signatures
of more voting power than the threshold. -/
theorem redeemScript_sound {host : Host} {validators : List Validator}
    {sigKey : ConsensusKey → Option Xpub} {createTime index : Nat} {sigset : SignatorySet}
    (built : fromValidatorCtx host validators sigKey createTime index = .ok sigset)
    {dest : Bytes} {script : Script}
    (scripted : sigset.redeemScript dest SIGSET_THRESHOLD = .ok script)
    {checkSig : Bytes → Bytes → Bool} {witness : List Bytes}
    (oneEach : witness.length = sigset.signatories.length)
    (accepted : EndsTrue (evaluate checkSig script witness.reverse)) :
    ∃ threshold, sigset.signatureThreshold SIGSET_THRESHOLD = .ok threshold ∧
      threshold < validVotingPower checkSig sigset.signatories witness.reverse := by
  have wellFormed := fromValidatorCtx_wellFormed built
  refine ⟨_, (signatureThreshold_eq_ok wellFormed.presentVp_lt).mpr rfl, ?_⟩
  rw [evaluate_redeemScript wellFormed (by decide) scripted (by simpa using oneEach)] at accepted
  split at accepted
  · have exceeds := of_decide_eq_true ((endsTrue_truth _).mp accepted)
    have truncatedLe : validTruncatedPower checkSig sigset witness.reverse ≤ _ :=
      validTruncatedPower_le
    -- If the full sum were at most the threshold, so would be the truncated sum.
    by_contra notAbove
    have monotone := shiftRight_mono (Nat.le_of_not_lt notAbove) (sigset.getTruncation 23)
    simp only [SIGSET_THRESHOLD] at exceeds
    omega
  · exact absurd accepted not_endsTrue_none

/-- Sets that are built from validators have the same redeem script only for the
same keys, truncated powers, truncated threshold and commitment.  Unless the
hashes of their scripts collide, the same holds of their output scripts. -/
theorem redeemScript_binding {host otherHost : Host} {validators otherValidators : List Validator}
    {sigKey otherSigKey : ConsensusKey → Option Xpub}
    {createTime otherCreateTime index otherIndex : Nat} {sigset otherSet : SignatorySet}
    (built : fromValidatorCtx host validators sigKey createTime index = .ok sigset)
    (otherBuilt : fromValidatorCtx otherHost otherValidators otherSigKey otherCreateTime
      otherIndex = .ok otherSet)
    {dest otherDest : Bytes} {ratio otherRatio : Nat × Nat} {script otherScript : Script}
    (scripted : sigset.redeemScript dest ratio = .ok script)
    (otherScripted : otherSet.redeemScript otherDest otherRatio = .ok otherScript) :
    (script = otherScript → SameRedeem sigset otherSet dest otherDest ratio otherRatio) ∧
      ∀ hashing : Host, (hashing.sha256 script = hashing.sha256 otherScript → script = otherScript) →
        sigset.outputScript hashing dest ratio = otherSet.outputScript hashing otherDest otherRatio →
          SameRedeem sigset otherSet dest otherDest ratio otherRatio := by
  have wellFormed := fromValidatorCtx_wellFormed built
  have otherFormed := fromValidatorCtx_wellFormed otherBuilt
  have bound (equal : script = otherScript) :
      SameRedeem sigset otherSet dest otherDest ratio otherRatio :=
    sameRedeem_of_redeemScript_eq wellFormed otherFormed scripted (equal ▸ otherScripted)
  refine ⟨bound, fun hashing collisionFree equal => bound (collisionFree ?_)⟩
  rw [outputScript, outputScript, scripted, otherScripted] at equal
  exact (List.cons.inj (List.cons.inj (Except.ok.inj equal)).2).2

end SignatorySet

namespace Sample

/-- Every consensus key has the extended key with the same tag. -/
def sigKey (key : ConsensusKey) : Option Xpub := some (xpub (key.getLastD 0))

/-- A signature is valid when it is the public key with the hash type. -/
def checkSig (signature pubkey : Bytes) : Bool := signature = pubkey ++ [0x01]

/-- A set of two signatories, of which the first holds more than two thirds. -/
def unequalSet : SignatorySet where
  createTime := 0
  presentVp := 100
  possibleVp := 100
  index := 0
  signatories := [⟨70, pubkey 2⟩, ⟨30, pubkey 1⟩]

def unequalScript : Script :=
  serialize (unequalSet.redeemInstructions ⟨70, pubkey 2⟩ [⟨30, pubkey 1⟩] 66 [0])

end Sample

theorem redeemScript_sound_unequal :
    ∃ threshold, Sample.unequalSet.signatureThreshold SIGSET_THRESHOLD = .ok threshold ∧
      threshold < SignatorySet.validVotingPower Sample.checkSig Sample.unequalSet.signatories
        [(Sample.pubkey 2).bytes ++ [0x01], []] :=
  SignatorySet.redeemScript_sound
    (by decide +kernel : SignatorySet.fromValidatorCtx Sample.host
      [⟨Sample.consensusKey 1, 30⟩, ⟨Sample.consensusKey 2, 70⟩] Sample.sigKey 0 0 =
        .ok Sample.unequalSet)
    (by decide +kernel :
      Sample.unequalSet.redeemScript [0] SIGSET_THRESHOLD = .ok Sample.unequalScript)
    (by decide : [[], (Sample.pubkey 2).bytes ++ [0x01]].length = _)
    (by decide +kernel)

theorem redeemScript_binding_unequal :
    SignatorySet.SameRedeem Sample.unequalSet { Sample.unequalSet with createTime := 5 } [0] [0]
      SIGSET_THRESHOLD SIGSET_THRESHOLD :=
  (SignatorySet.redeemScript_binding
    (by decide +kernel : SignatorySet.fromValidatorCtx Sample.host
      [⟨Sample.consensusKey 1, 30⟩, ⟨Sample.consensusKey 2, 70⟩] Sample.sigKey 0 0 =
        .ok Sample.unequalSet)
    (by decide +kernel : SignatorySet.fromValidatorCtx Sample.host
      [⟨Sample.consensusKey 2, 70⟩, ⟨Sample.consensusKey 1, 30⟩] Sample.sigKey 5 0 =
        .ok { Sample.unequalSet with createTime := 5 })
    (by decide +kernel :
      Sample.unequalSet.redeemScript [0] SIGSET_THRESHOLD = .ok Sample.unequalScript)
    (by decide +kernel : SignatorySet.redeemScript { Sample.unequalSet with createTime := 5 } [0]
      SIGSET_THRESHOLD = .ok Sample.unequalScript)).1 rfl

end CwBitcoin
