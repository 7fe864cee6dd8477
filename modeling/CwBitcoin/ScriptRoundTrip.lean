import CwBitcoin.FromScript
import CwBitcoin.SignatorySelection

/-!
# Redeem scripts that are read back

A redeem script is read back as a set with the truncated voting powers.  The
parser expects numbers as data, but the builder has opcodes for the numbers from
1 to 16.  The voting power that the search finds may also need one bit more than
the truncated powers, and then the script that is built again differs.
-/

namespace CwBitcoin

open Script

/-- The signatory without the low bits of its voting power. -/
def Signatory.truncate (bits : Nat) (signatory : Signatory) : Signatory :=
  { signatory with votingPower := signatory.votingPower >>> bits }

namespace SignatorySet

/-- The signatories with the voting powers that the script of a set contains. -/
def truncatedSignatories (sigset : SignatorySet) : List Signatory :=
  sigset.signatories.map (Signatory.truncate (sigset.getTruncation 23))

/-- The threshold that the script of a set contains. -/
def truncatedThreshold (sigset : SignatorySet) : Nat :=
  (sigset.presentVp * 2 / 3) >>> sigset.getTruncation 23

/-- What the script of a set says about it. -/
def truncatedParts (sigset : SignatorySet) (dest : Bytes) : Parts where
  signatories := sigset.truncatedSignatories
  threshold := sigset.truncatedThreshold
  commitment := dest

/-- The number is pushed as data, since it has no opcode of its own. -/
def PushedAsData (number : Nat) : Prop := ¬ (1 ≤ number ∧ number ≤ 16)

instance : DecidablePred PushedAsData := fun number =>
  inferInstanceAs (Decidable (¬ (1 ≤ number ∧ number ≤ 16)))

/-- The conditions under which the script of a set is read back. -/
structure ReadsBack (sigset : SignatorySet) (dest : Bytes) : Prop where
  dest_lt : dest.length < 2 ^ 32
  powers : ∀ power ∈ sigset.truncatedPowers, PushedAsData power
  threshold : PushedAsData sigset.truncatedThreshold
  /-- Some voting power of 23 bits gives at least this threshold. -/
  threshold_le : sigset.truncatedThreshold ≤ (2 ^ 23 - 1) * 2 / 3

section Truncation

variable {sigset : SignatorySet}

theorem truncatedPowers_eq :
    sigset.truncatedPowers = sigset.truncatedSignatories.map Signatory.votingPower := by
  rw [truncatedSignatories, List.map_map]
  rfl

/-- Truncating each number of a list loses at most one for each. -/
theorem shiftRight_sum_le (numbers : List Nat) (bits : Nat) :
    numbers.sum >>> bits ≤ (numbers.map (· >>> bits)).sum + numbers.length := by
  induction numbers with
  | nil => simp
  | cons number numbers ih =>
      have positive : 0 < 2 ^ bits := Nat.two_pow_pos bits
      have split := @Nat.add_div number numbers.sum _ positive
      simp only [Nat.shiftRight_eq_div_pow] at ih ⊢
      rw [List.sum_cons, List.map_cons, List.sum_cons, List.length_cons, split]
      split_ifs <;> omega

/-- The truncated powers add up to the truncated sum, up to one for each
signatory. -/
theorem WellFormed.sum_truncatedPowers (wellFormed : sigset.WellFormed) :
    sigset.truncatedPowers.sum ≤ sigset.presentVp >>> sigset.getTruncation 23 ∧
      sigset.presentVp >>> sigset.getTruncation 23 ≤
        sigset.truncatedPowers.sum + MAX_SIGNATORIES := by
  have lost := shiftRight_sum_le (sigset.signatories.map Signatory.votingPower)
    (sigset.getTruncation 23)
  have kept := ThresholdScript.sum_truncate_le (sigset.getTruncation 23)
    (sigset.signatories.map signer)
  have few := wellFormed.length_le
  rw [List.map_map, List.length_map, ← wellFormed.presentVp_eq] at lost
  rw [List.map_map, List.map_map, List.map_map] at kept
  constructor
  · rw [wellFormed.presentVp_eq]
    exact kept
  · exact lost.trans (Nat.add_le_add_left few _)

/-- The truncated threshold is about two thirds of the truncated voting power. -/
theorem truncatedThreshold_bounds (sigset : SignatorySet) :
    3 * sigset.truncatedThreshold ≤ 2 * (sigset.presentVp >>> sigset.getTruncation 23) + 1 ∧
      2 * (sigset.presentVp >>> sigset.getTruncation 23) < 3 * sigset.truncatedThreshold + 3 := by
  unfold truncatedThreshold
  simp only [Nat.shiftRight_eq_div_pow]
  generalize sigset.presentVp = vp
  have positive : 0 < 2 ^ sigset.getTruncation 23 := Nat.two_pow_pos _
  generalize 2 ^ sigset.getTruncation 23 = scale at positive
  have swap : vp * 2 / 3 / scale = vp * 2 / scale / 3 := by
    rw [Nat.div_div_eq_div_mul, Nat.div_div_eq_div_mul, Nat.mul_comm 3 scale]
  have lower : 2 * (vp / scale) ≤ vp * 2 / scale := by
    rw [Nat.le_div_iff_mul_le positive]
    calc 2 * (vp / scale) * scale = vp / scale * scale * 2 := by ring
      _ ≤ vp * 2 := Nat.mul_le_mul_right 2 (Nat.div_mul_le_self vp scale)
  have upper : vp * 2 / scale < 2 * (vp / scale) + 2 := by
    rw [Nat.div_lt_iff_lt_mul positive]
    calc vp * 2 < scale * (vp / scale + 1) * 2 :=
          Nat.mul_lt_mul_of_pos_right (Nat.lt_mul_div_succ vp positive) (by decide)
      _ = (2 * (vp / scale) + 2) * scale := by ring
  omega

end Truncation

section Writing

variable {reader : ScriptReader} {host : Host} {sigset : SignatorySet} {dest : Bytes}

/-- The public keys of the signatories are valid. -/
def KeysParse (reader : ScriptReader) (signatories : List Signatory) : Prop :=
  ∀ signatory ∈ signatories, reader.parsePubkey signatory.pubkey.bytes = .ok ()

/-- The keys of a set are derived keys. -/
theorem keysParse_of_fromValidatorCtx
    (derived : ∀ xpub index pubkey, host.childPubkey xpub index = .ok pubkey →
      reader.parsePubkey pubkey.bytes = .ok ())
    {validators : List Validator} {sigKey : ConsensusKey → Option Xpub} {createTime index : Nat}
    (built : fromValidatorCtx host validators sigKey createTime index = .ok sigset) :
    KeysParse reader sigset.signatories := by
  intro signatory member
  rw [(fromValidatorCtx_eq_ok built).2.1] at member
  have chosen := (descending_perm _).mem_iff.mp (List.mem_of_mem_take member)
  obtain ⟨validator, -, isCandidate⟩ := List.mem_filterMap.mp chosen
  simp only [candidate, Option.bind_eq_bind, Option.bind_eq_some_iff, Option.pure_def,
    Option.some.injEq] at isCandidate
  obtain ⟨xpub, -, pubkey, derivesKey, rfl⟩ := isCandidate
  have child : xpub.derivePubkey host index = .ok pubkey := by
    cases result : xpub.derivePubkey host index with
    | ok key => simpa [result, Except.toOption] using derivesKey
    | error fault => simp [result, Except.toOption] at derivesKey
  simp only [Xpub.derivePubkey, Outcome.bind_eq_ok] at child
  obtain ⟨_, -, child⟩ := child
  exact derived xpub index pubkey child

theorem denotes_encode {power : Nat} (small : power < 2 ^ 23) :
    Denotes reader (ScriptNumber.encode power) power := by
  have short : (ScriptNumber.encode power).length ≤ 3 + 1 :=
    ScriptNumber.length_encode_le (by rw [Int.natAbs_natCast]; omega)
  exact ⟨power, reader.readScriptint_encode _ short, i64AsU64_of_lt (by omega)⟩

/-- The builder writes a signatory in the form that the parser expects. -/
theorem exists_writtenSignatory {signatory : Signatory} {bits : Nat}
    (valid : reader.parsePubkey signatory.pubkey.bytes = .ok ())
    (small : signatory.votingPower >>> bits < 2 ^ 23)
    (plain : PushedAsData (signatory.votingPower >>> bits)) :
    ∃ written : WrittenSignatory reader, written.signatory = signatory.truncate bits ∧
      written.firstInstructions = ThresholdScript.firstCheck (truncatedSigner bits signatory) ∧
      written.nthInstructions = ThresholdScript.otherCheck (truncatedSigner bits signatory) := by
  have weight : Instruction.ofInt (truncatedSigner bits signatory).weight =
      .pushBytes (ScriptNumber.encode (signatory.votingPower >>> bits : Nat)) :=
    Instruction.ofInt_eq_pushBytes plain
  have zero : Instruction.ofInt 0 = .pushBytes [] := rfl
  refine ⟨⟨signatory.truncate bits, _, valid, denotes_encode small⟩, rfl, ?_, ?_⟩
  · rw [ThresholdScript.firstCheck, weight, zero]
    rfl
  · rw [ThresholdScript.otherCheck, weight]
    rfl

theorem exists_writtenSignatories {signatories : List Signatory} {bits : Nat}
    (valid : KeysParse reader signatories)
    (small : ∀ signatory ∈ signatories, signatory.votingPower >>> bits < 2 ^ 23)
    (plain : ∀ signatory ∈ signatories, PushedAsData (signatory.votingPower >>> bits)) :
    ∃ written : List (WrittenSignatory reader),
      written.map WrittenSignatory.signatory = signatories.map (Signatory.truncate bits) ∧
      written.flatMap WrittenSignatory.nthInstructions =
        (signatories.map (truncatedSigner bits)).flatMap ThresholdScript.otherCheck := by
  induction signatories with
  | nil => exact ⟨[], rfl, rfl⟩
  | cons signatory others ih =>
      obtain ⟨validHere, validOthers⟩ := List.forall_mem_cons.mp valid
      obtain ⟨smallHere, smallOthers⟩ := List.forall_mem_cons.mp small
      obtain ⟨plainHere, plainOthers⟩ := List.forall_mem_cons.mp plain
      obtain ⟨head, headEq, -, headWritten⟩ :=
        exists_writtenSignatory validHere smallHere plainHere
      obtain ⟨tail, tailEq, tailWritten⟩ := ih validOthers smallOthers plainOthers
      refine ⟨head :: tail, ?_, ?_⟩
      · rw [List.map_cons, List.map_cons, headEq, tailEq]
      · rw [List.flatMap_cons, List.map_cons, List.flatMap_cons, headWritten, tailWritten]

theorem truncatedThreshold_lt (sigset : SignatorySet) : sigset.truncatedThreshold < 2 ^ 23 := by
  have bound := sigset.presentVp_shiftRight_lt
  have thresholds := sigset.truncatedThreshold_bounds
  omega

/-- The script of a set whose numbers are data is in the form that the parser
expects. -/
theorem exists_writtenParts (small : sigset.SmallPowers)
    (valid : KeysParse reader sigset.signatories)
    (powers : ∀ power ∈ sigset.truncatedPowers, PushedAsData power)
    (threshold : PushedAsData sigset.truncatedThreshold) {first : Signatory}
    {others : List Signatory} (shape : sigset.signatories = first :: others) :
    ∃ written : WrittenParts reader, written.parts = sigset.truncatedParts dest ∧
      written.instructions =
        sigset.redeemInstructions first others (sigset.presentVp * 2 / 3) dest := by
  have thresholdSmall := sigset.truncatedThreshold_lt
  have plain : ∀ signatory ∈ sigset.signatories,
      PushedAsData (signatory.votingPower >>> sigset.getTruncation 23) :=
    fun signatory member => powers _ (List.mem_map_of_mem member)
  unfold SmallPowers at small
  rw [truncatedParts, truncatedSignatories]
  rw [shape] at small valid plain ⊢
  obtain ⟨smallHere, smallOthers⟩ := List.forall_mem_cons.mp small
  obtain ⟨plainHere, plainOthers⟩ := List.forall_mem_cons.mp plain
  obtain ⟨validHere, validOthers⟩ := List.forall_mem_cons.mp valid
  obtain ⟨head, headEq, headWritten, -⟩ := exists_writtenSignatory validHere smallHere plainHere
  obtain ⟨tail, tailEq, tailWritten⟩ :=
    exists_writtenSignatories validOthers smallOthers plainOthers
  refine ⟨⟨head, tail, sigset.truncatedThreshold, _, denotes_encode thresholdSmall, dest⟩, ?_, ?_⟩
  · simp only [WrittenParts.parts, List.map_cons, headEq, tailEq]
  · have closing : ThresholdScript.closing (asI64 sigset.truncatedThreshold) dest =
        [.pushBytes (ScriptNumber.encode sigset.truncatedThreshold), .op OP_GREATERTHAN,
          .pushBytes dest, .op OP_DROP] := by
      rw [ThresholdScript.closing, asI64_of_lt (thresholdSmall.trans (by decide)),
        Instruction.ofInt_eq_pushBytes threshold]
    rw [WrittenParts.instructions, headWritten, tailWritten, redeemInstructions,
      ThresholdScript.whole, ← truncatedThreshold, closing]
    rfl

/-- Such a script is parsed to its end. -/
theorem takeParts_serialize (small : sigset.SmallPowers)
    (valid : KeysParse reader sigset.signatories)
    (powers : ∀ power ∈ sigset.truncatedPowers, PushedAsData power)
    (threshold : PushedAsData sigset.truncatedThreshold) {first : Signatory}
    {others : List Signatory} (shape : sigset.signatories = first :: others)
    (short : dest.length < 2 ^ 32) :
    (takeParts reader).run
        (serialize (sigset.redeemInstructions first others (sigset.presentVp * 2 / 3) dest)) =
      .ok (sigset.truncatedParts dest, []) := by
  obtain ⟨written, partsEq, writtenEq⟩ := exists_writtenParts small valid powers threshold shape
  refine takeParts_eq_ok.mpr ⟨written, partsEq, ?_⟩
  rw [writtenEq]
  exact reads_serialize (small.encodable shape short)

end Writing

section Rebuilding

variable {sigset : SignatorySet} {found : Nat} {dest : Bytes} {script : Script}

theorem thresholdAt_network (small : found < 2 ^ 64) :
    thresholdAt SIGSET_THRESHOLD found = found * 2 / 3 :=
  Nat.mod_eq_of_lt (by simp only [SIGSET_THRESHOLD]; omega)

/-- From the sum of the truncated powers it is not far to a voting power with the
truncated threshold. -/
theorem WellFormed.exists_meets (wellFormed : sigset.WellFormed)
    (small : sigset.truncatedThreshold ≤ (2 ^ 23 - 1) * 2 / 3) :
    ∃ found, found < 2 ^ 23 ∧ UnitSearch.Meets (thresholdAt SIGSET_THRESHOLD)
      sigset.truncatedThreshold 100 sigset.truncatedPowers.sum found := by
  obtain ⟨sumLe, leSum⟩ := wellFormed.sum_truncatedPowers
  obtain ⟨thresholdLe, leThreshold⟩ := sigset.truncatedThreshold_bounds
  have vpLt := sigset.presentVp_shiftRight_lt
  have few : MAX_SIGNATORIES = 20 := rfl
  generalize sigset.presentVp >>> sigset.getTruncation 23 = vp at *
  generalize sigset.truncatedThreshold = threshold at *
  generalize sigset.truncatedPowers.sum = sum at *
  -- The last voting power that can be met is the sum itself, or else the first
  -- one that gives the threshold.
  have topLt : max sum ((3 * threshold + 1) / 2) < 2 ^ 23 := by omega
  obtain ⟨found, foundLe, meets⟩ : ∃ found, found ≤ max sum ((3 * threshold + 1) / 2) ∧
      UnitSearch.Meets (thresholdAt SIGSET_THRESHOLD) threshold 100 sum found := by
    apply UnitSearch.exists_meets
    · intro first _ second isSecond le
      have secondLe : second ≤ max sum ((3 * threshold + 1) / 2) := isSecond
      rw [thresholdAt_network (by omega), thresholdAt_network (by omega)]
      omega
    · rw [thresholdAt_network (by omega)]
      omega
    · exact le_max_left _ _
    · omega
  exact ⟨found, foundLe.trans_lt topLt, meets⟩

/-- The set that is read back has small powers, whatever its voting power is. -/
theorem SmallPowers.ofSignatories (small : sigset.SmallPowers) (found : Nat) :
    (ofSignatories sigset.truncatedSignatories found).SmallPowers := by
  intro signatory member
  obtain ⟨original, isOriginal, rfl⟩ := List.mem_map.mp member
  exact (shiftRight_le_self _ _).trans_lt (small original isOriginal)

theorem getTruncation_ofSignatories_eq_zero {signatories : List Signatory} :
    (ofSignatories signatories found).getTruncation 23 = 0 ↔ found < 2 ^ 23 := by
  rw [getTruncation, Nat.sub_eq_zero_iff_le, ofSignatories, Nat.size_le]

theorem signatureThreshold_network {signatories : List Signatory} (small : found < 2 ^ 64) :
    (ofSignatories signatories found).signatureThreshold SIGSET_THRESHOLD =
      .ok (thresholdAt SIGSET_THRESHOLD found) :=
  signatureThreshold_ofSignatories (by decide) (by decide) small

/-- A voting power of 23 bits with the right threshold gives the same script. -/
theorem redeemScript_ofSignatories (small : sigset.SmallPowers) (bounded : found < 2 ^ 23)
    (hits : thresholdAt SIGSET_THRESHOLD found = sigset.truncatedThreshold) {first : Signatory}
    {others : List Signatory} (shape : sigset.signatories = first :: others)
    (short : dest.length < 2 ^ 32) :
    (ofSignatories sigset.truncatedSignatories found).redeemScript dest SIGSET_THRESHOLD =
      .ok (serialize (sigset.redeemInstructions first others (sigset.presentVp * 2 / 3) dest)) := by
  have none : (ofSignatories sigset.truncatedSignatories found).getTruncation 23 = 0 :=
    getTruncation_ofSignatories_eq_zero.mpr bounded
  rw [(small.ofSignatories found).redeemScript_eq_ok]
  refine ⟨_, _, _, by rw [ofSignatories, truncatedSignatories, shape, List.map_cons],
    signatureThreshold_network (bounded.trans (by decide)), short, ?_⟩
  rw [redeemInstructions, redeemInstructions, none, hits, List.map_map]
  rfl

/-- A voting power of more bits gives another script, since its truncation also
applies to the threshold. -/
theorem lt_of_redeemScript_ofSignatories (small : sigset.SmallPowers) (inRange : found < 2 ^ 64)
    (hits : thresholdAt SIGSET_THRESHOLD found = sigset.truncatedThreshold) {first : Signatory}
    {others : List Signatory} (shape : sigset.signatories = first :: others)
    (short : dest.length < 2 ^ 32)
    (rebuilt : (ofSignatories sigset.truncatedSignatories found).redeemScript dest
      SIGSET_THRESHOLD =
        .ok (serialize (sigset.redeemInstructions first others (sigset.presentVp * 2 / 3) dest))) :
    found < 2 ^ 23 := by
  have smallAgain := small.ofSignatories found
  obtain ⟨first', others', threshold, shape', thresholdEq, -, scripts⟩ :=
    smallAgain.redeemScript_eq_ok.mp rebuilt
  rw [signatureThreshold_network inRange, hits, Except.ok.injEq] at thresholdEq
  subst thresholdEq
  have instructionsEq := eq_of_serialize_eq (small.encodable shape short)
    (smallAgain.encodable shape' short) scripts
  obtain ⟨-, -, thresholdsEq, -⟩ := ThresholdScript.whole_injective instructionsEq
  rw [← truncatedThreshold] at thresholdsEq
  have thresholdLt := sigset.truncatedThreshold_lt
  have same := asI64_injOn (thresholdLt.trans (by decide))
    ((shiftRight_le_self _ _).trans_lt (thresholdLt.trans (by decide))) thresholdsEq
  by_contra notSmall
  have bits : (ofSignatories sigset.truncatedSignatories found).getTruncation 23 ≠ 0 :=
    fun none => notSmall (getTruncation_ofSignatories_eq_zero.mp none)
  have positive : 0 < sigset.truncatedThreshold := by
    rw [← hits, thresholdAt_network inRange]
    omega
  have halved : sigset.truncatedThreshold >>>
      (ofSignatories sigset.truncatedSignatories found).getTruncation 23 <
        sigset.truncatedThreshold := by
    rw [Nat.shiftRight_eq_div_pow]
    exact Nat.div_lt_self positive (Nat.one_lt_two_pow bits)
  omega

end Rebuilding

section RoundTrip

variable {reader : ScriptReader} {host : Host} {sigset : SignatorySet} {dest : Bytes}

/-- No number with an opcode of its own is among the instructions that the parser
accepts. -/
theorem WrittenParts.ofInt_notMem (written : WrittenParts reader) {number : Nat}
    (special : 1 ≤ number ∧ number ≤ 16) : .ofInt number ∉ written.instructions := by
  have code : (UInt8.ofNat (0x50 + number)).toNat = 0x50 + number := by
    rw [UInt8.toNat_ofNat']
    omega
  have distinct (known : UInt8) (larger : 0x60 < known.toNat) :
      UInt8.ofNat (0x50 + number) ≠ known := by
    rintro rfl
    omega
  have op (known : UInt8) (larger : 0x60 < known.toNat) :
      Instruction.op (UInt8.ofNat (0x50 + number)) ≠ .op known :=
    fun equal => distinct known larger (Instruction.op.inj equal)
  rw [Instruction.ofInt_eq_op special]
  simp only [instructions, closing, WrittenSignatory.firstInstructions,
    WrittenSignatory.nthInstructions, List.mem_append, List.mem_flatMap, List.mem_cons,
    List.not_mem_nil, op OP_CHECKSIG (by decide), op OP_IF (by decide), op OP_ELSE (by decide),
    op OP_ENDIF (by decide), op OP_SWAP (by decide), op OP_ADD (by decide),
    op OP_GREATERTHAN (by decide), op OP_DROP (by decide), reduceCtorEq, or_self, and_false,
    exists_false, not_false_eq_true]

/-- The instructions of a set contain its truncated numbers. -/
theorem plain_of_redeemInstructions {first : Signatory} {others : List Signatory}
    (shape : sigset.signatories = first :: others) {written : WrittenParts reader}
    (same : sigset.redeemInstructions first others (sigset.presentVp * 2 / 3) dest =
      written.instructions) :
    (∀ power ∈ sigset.truncatedPowers, PushedAsData power) ∧
      PushedAsData sigset.truncatedThreshold := by
  constructor
  · intro power member special
    rw [truncatedPowers, shape] at member
    obtain ⟨signatory, isSignatory, rfl⟩ := List.mem_map.mp member
    apply written.ofInt_notMem special
    rw [← same, redeemInstructions]
    exact ThresholdScript.ofInt_weight_mem_whole (List.mem_map_of_mem isSignatory)
  · intro special
    apply written.ofInt_notMem special
    rw [← same, redeemInstructions, ← truncatedThreshold,
      asI64_of_lt (sigset.truncatedThreshold_lt.trans (by decide))]
    exact ThresholdScript.ofInt_threshold_mem_whole

/-- The script that a set has under the ratio of the network. -/
theorem WellFormed.redeemScript_network (wellFormed : sigset.WellFormed) {first : Signatory}
    {others : List Signatory} (shape : sigset.signatories = first :: others) {script : Script} :
    sigset.redeemScript dest SIGSET_THRESHOLD = .ok script ↔ dest.length < 2 ^ 32 ∧
      script =
        serialize (sigset.redeemInstructions first others (sigset.presentVp * 2 / 3) dest) := by
  simp only [redeemScript_eq_ok wellFormed, shape, List.cons.injEq,
    signatureThreshold_eq_ok wellFormed.presentVp_lt]
  constructor
  · rintro ⟨_, _, _, ⟨rfl, rfl⟩, rfl, short, rfl⟩
    exact ⟨short, rfl⟩
  · rintro ⟨short, rfl⟩
    exact ⟨first, others, _, ⟨rfl, rfl⟩, rfl, short, rfl⟩

/-- The script of a set that is built from validators is read back, with the
commitment and the truncated powers, exactly when all of its numbers are pushed as
data and the truncated threshold needs a voting power of at most 23 bits. -/
theorem fromScript_redeemScript_iff
    (derived : ∀ xpub index pubkey, host.childPubkey xpub index = .ok pubkey →
      reader.parsePubkey pubkey.bytes = .ok ())
    {validators : List Validator} {sigKey : ConsensusKey → Option Xpub} {createTime index : Nat}
    (built : fromValidatorCtx host validators sigKey createTime index = .ok sigset)
    (nonempty : sigset.signatories ≠ []) (dest : Bytes) :
    (∃ script read, sigset.redeemScript dest SIGSET_THRESHOLD = .ok script ∧
        fromScript reader script SIGSET_THRESHOLD = .ok (read, dest) ∧
        read.signatories = sigset.truncatedSignatories) ↔ sigset.ReadsBack dest := by
  have wellFormed := fromValidatorCtx_wellFormed built
  have small := wellFormed.smallPowers
  have valid : KeysParse reader sigset.signatories := keysParse_of_fromValidatorCtx derived built
  obtain ⟨first, others, shape⟩ := List.exists_cons_of_ne_nil nonempty
  simp only [wellFormed.redeemScript_network shape,
    fromScript_eq_ok (by decide : SIGSET_THRESHOLD.1 < 2 ^ 64) (by decide)]
  constructor
  · rintro ⟨script, read, ⟨short, rfl⟩, ⟨parts, found, taken, foundAt, -⟩, -⟩
    obtain ⟨written, rfl, reads⟩ := takeParts_eq_ok.mp taken
    have same := reads.eq_of_serialize (small.encodable shape short)
    obtain ⟨powers, threshold⟩ := plain_of_redeemInstructions shape same
    have parsed := takeParts_serialize small valid powers threshold shape short
    have partsEq : written.parts = sigset.truncatedParts dest :=
      congrArg Prod.fst (Except.ok.inj (taken.symm.trans parsed))
    rw [partsEq] at foundAt
    have hits : thresholdAt SIGSET_THRESHOLD found = sigset.truncatedThreshold :=
      foundAt.meets.hits
    have foundLt := lt_of_redeemScript_ofSignatories small foundAt.found_lt hits shape short
      foundAt.rebuilt
    rw [thresholdAt_network foundAt.found_lt] at hits
    exact ⟨short, powers, threshold, by omega⟩
  · intro readsBack
    have parsed := takeParts_serialize small valid readsBack.powers readsBack.threshold shape
      readsBack.dest_lt
    obtain ⟨found, foundLt, meets⟩ := wellFormed.exists_meets readsBack.threshold_le
    have sumLt : sigset.truncatedPowers.sum < 2 ^ 64 :=
      (wellFormed.sum_truncatedPowers.1.trans_lt sigset.presentVp_shiftRight_lt).trans (by decide)
    rw [truncatedPowers_eq] at meets sumLt
    exact ⟨_, ofSignatories sigset.truncatedSignatories found, ⟨readsBack.dest_lt, rfl⟩,
      ⟨sigset.truncatedParts dest, found, parsed,
        { sum_lt := sumLt
          found_lt := foundLt.trans (by decide)
          meets
          rebuilt := redeemScript_ofSignatories small foundLt meets.hits shape
            readsBack.dest_lt }, rfl⟩, rfl⟩

end RoundTrip

end SignatorySet

namespace Sample

/-- A host that derives valid public keys only. -/
def keyHost : Host :=
  { host with
    childPubkey := fun xpub _ =>
      match parsePubkey xpub.publicKey.bytes with
      | .ok () => .ok xpub.publicKey
      | .error err => Outcome.fail (.secp err) }

theorem keyHost_derived (xpub : Xpub) (index : Nat) (pubkey : Pubkey)
    (derived : keyHost.childPubkey xpub index = .ok pubkey) :
    reader.parsePubkey pubkey.bytes = .ok () := by
  simp only [keyHost] at derived
  split at derived
  · rename_i valid
    cases derived
    exact valid
  · exact absurd derived Outcome.fail_ne_ok

/-- A set of one signatory, whose voting power has an opcode of its own. -/
def smallSet : SignatorySet where
  createTime := 0
  presentVp := 5
  possibleVp := 5
  index := 0
  signatories := [⟨5, pubkey 1⟩]

def smallScript : Script := serialize (smallSet.redeemInstructions ⟨5, pubkey 1⟩ [] 3 [0])

end Sample

/-- The script of a set with large enough powers is read back. -/
theorem fromScript_redeemScript_unequal :
    ∃ script read, Sample.unequalSet.redeemScript [0] SIGSET_THRESHOLD = .ok script ∧
      SignatorySet.fromScript Sample.reader script SIGSET_THRESHOLD = .ok (read, [0]) ∧
      read.signatories = Sample.unequalSet.truncatedSignatories :=
  (SignatorySet.fromScript_redeemScript_iff Sample.keyHost_derived
    (by decide +kernel : SignatorySet.fromValidatorCtx Sample.keyHost
      [⟨Sample.consensusKey 1, 30⟩, ⟨Sample.consensusKey 2, 70⟩] Sample.sigKey 0 0 =
        .ok Sample.unequalSet)
    (by decide) [0]).mpr
      { dest_lt := by decide
        powers := by decide +kernel
        threshold := by decide +kernel
        threshold_le := by decide +kernel }

/-- The script of a set with a voting power of five is not read back. -/
theorem fromScript_redeemScript_small :
    SignatorySet.fromValidatorCtx Sample.keyHost [⟨Sample.consensusKey 1, 5⟩] Sample.sigKey 0 0 =
        .ok Sample.smallSet ∧
      Sample.smallSet.signatories ≠ [] ∧
      ¬ ∃ script read, Sample.smallSet.redeemScript [0] SIGSET_THRESHOLD = .ok script ∧
        SignatorySet.fromScript Sample.reader script SIGSET_THRESHOLD = .ok (read, [0]) ∧
        read.signatories = Sample.smallSet.truncatedSignatories := by
  have scripted : Sample.smallSet.redeemScript [0] SIGSET_THRESHOLD = .ok Sample.smallScript := by
    decide +kernel
  have failed : SignatorySet.fromScript Sample.reader Sample.smallScript SIGSET_THRESHOLD =
      Outcome.fail (.app "Expected OP_PUSHBYTES") := by
    decide +kernel
  refine ⟨by decide +kernel, by decide, ?_⟩
  rintro ⟨script, read, isScript, fromEq, -⟩
  rw [scripted] at isScript
  cases isScript
  rw [failed] at fromEq
  exact Outcome.fail_ne_ok fromEq

end CwBitcoin
