import CwBitcoin.RedeemScript
import Mathlib.Data.List.Forall2

/-!
# When collected signatures spend an output

A threshold signature counts full voting powers, while the redeem script of
the same set counts truncated ones.  The witness lists the signatures in the
reverse of the script's order, so what decides is the truncated sum alone.
This file follows the shares through any successful sequence of signatures
and states exactly when the resulting witness satisfies the script.
-/

namespace CwBitcoin

open Script ScriptMachine

/-- The voting power under a public key. -/
def SignatorySet.powerOf (sigset : SignatorySet) (pubkey : Pubkey) : Nat :=
  ((sigset.signatories.find? fun signatory => pubkey = signatory.pubkey).map
    Signatory.votingPower).getD 0

namespace ThresholdSig

/-- Add signatures one after the other. -/
def signAll (host : Host) (ts : ThresholdSig) (signatures : List (Pubkey × Signature)) :
    ContractResult ThresholdSig :=
  signatures.foldlM (fun ts entry => ts.sign host entry.1 entry.2) ts

/-- What the execution of `OP_CHECKSIG` has to do with the verification of
signatures over a message: an empty element is no signature, and a verified
signature counts in its DER form with the hash type. -/
structure SignatureSemantics (host : Host) (checkSig : Bytes → Bytes → Bool) (message : Bytes) :
    Prop where
  empty : ∀ pubkey, checkSig [] pubkey = false
  verified : ∀ sig pubkey, host.secp256k1Verify message sig pubkey = .ok true →
    ∃ der, host.compactToDer sig = .ok der ∧ checkSig (der ++ [0x01]) pubkey = true

/-- The public key and voting power of a share. -/
def shareKey (entry : Pubkey × Share) : Pubkey × Nat := (entry.1, entry.2.power)

/-- The sum of a function of the voting powers over the shares with a
signature. -/
def signedSum (f : Nat → Nat) (sigs : List (Pubkey × Share)) : Nat :=
  (sigs.map fun entry => if entry.2.sig.isSome then f entry.2.power else 0).sum

section PutSig

variable {pubkey : Pubkey} {sig : Signature} {sigs : List (Pubkey × Share)} {share : Share}

theorem map_shareKey_putSig : (putSig pubkey sig sigs).map shareKey = sigs.map shareKey := by
  induction sigs with
  | nil => rfl
  | cons entry rest ih =>
      unfold putSig
      split
      · rfl
      · rw [List.map_cons, ih, List.map_cons]

/-- Every share after a signature was there before or carries the new one. -/
theorem mem_putSig {entry : Pubkey × Share} (member : entry ∈ putSig pubkey sig sigs) :
    entry ∈ sigs ∨ entry.1 = pubkey ∧ entry.2.sig = some sig := by
  induction sigs with
  | nil => simp [putSig] at member
  | cons first rest ih =>
      unfold putSig at member
      split at member <;> rename_i found <;> rcases List.mem_cons.mp member with rfl | inRest
      · exact .inr ⟨found.symm, rfl⟩
      · exact .inl (List.mem_cons_of_mem _ inRest)
      · exact .inl List.mem_cons_self
      · exact (ih inRest).imp_left (List.mem_cons_of_mem _)

/-- A signature in an unsigned share adds its voting power to every sum. -/
theorem signedSum_putSig (f : Nat → Nat)
    (found : (sigs.find? fun entry => pubkey = entry.1).map Prod.snd = some share)
    (unsigned : share.sig = none) :
    signedSum f (putSig pubkey sig sigs) = signedSum f sigs + f share.power := by
  induction sigs with
  | nil => simp at found
  | cons first rest ih =>
      unfold putSig
      split <;> rename_i isFirst
      · rw [List.find?_cons_of_pos (by simpa using isFirst)] at found
        obtain rfl : first.2 = share := Option.some.inj found
        simp [signedSum, unsigned]
        omega
      · rw [List.find?_cons_of_neg (by simpa using isFirst)] at found
        have tail := ih found
        simp only [signedSum, List.map_cons, List.sum_cons] at tail ⊢
        omega

end PutSig

/-- What holds of a threshold signature while signatures over a message are
collected for a set. -/
structure Collecting (host : Host) (sigset : SignatorySet) (message : Bytes)
    (ts : ThresholdSig) : Prop where
  message_eq : ts.message = message
  threshold_eq : ts.threshold = sigset.presentVp * 2 / 3
  keys_eq : ts.sigs.map shareKey =
    sigset.signatories.map fun signatory => (signatory.pubkey, signatory.votingPower)
  verified : ∀ entry ∈ ts.sigs, ∀ sig, entry.2.sig = some sig →
    host.secp256k1Verify message sig.bytes entry.1.bytes = .ok true
  signedPower_eq : ts.signedPower = signedSum id ts.sigs

theorem Collecting.start {host : Host} {sigset : SignatorySet} (wellFormed : sigset.WellFormed)
    {ts : ThresholdSig} (started : fromSigset sigset = .ok ts) (message : Bytes) :
    Collecting host sigset message (ts.setMessage message) ∧
      ∀ f, signedSum f (ts.setMessage message).sigs = 0 := by
  obtain ⟨-, rfl⟩ := ofShares_eq_ok started
  have unsigned : ∀ f, signedSum f (sigset.signatories.map fun signatory =>
      (signatory.pubkey, ({ power := signatory.votingPower, sig := none } : Share))) = 0 := by
    intro f
    simp [signedSum, Function.comp_def]
  refine ⟨⟨rfl, ?_, ?_, ?_, ?_⟩, unsigned⟩
  · simp only [setMessage, thresholdOf, SIGSET_THRESHOLD, wellFormed.presentVp_eq, List.map_map]
    rfl
  · simp [setMessage, shareKey, Function.comp_def]
  · intro entry member sig signature
    obtain ⟨signatory, _, rfl⟩ := List.mem_map.mp member
    simp at signature
  · exact (unsigned id).symm

/-- The share that a public key finds has the voting power of that key. -/
theorem Collecting.findShare_power {host : Host} {sigset : SignatorySet} {message : Bytes}
    {ts : ThresholdSig} (collecting : Collecting host sigset message ts) {pubkey : Pubkey}
    {share : Share} (found : ts.findShare pubkey = some share) :
    share.power = sigset.powerOf pubkey := by
  have viaKeys : ∀ sigs : List (Pubkey × Share),
      ((sigs.find? fun entry => pubkey = entry.1).map Prod.snd).map Share.power =
        ((sigs.map shareKey).find? fun key => pubkey = key.1).map Prod.snd := by
    intro sigs
    rw [List.find?_map, Option.map_map, Option.map_map]
    rfl
  have viaSigset : (((sigset.signatories.map fun signatory =>
      (signatory.pubkey, signatory.votingPower)).find? fun key => pubkey = key.1).map Prod.snd) =
      (sigset.signatories.find? fun signatory => pubkey = signatory.pubkey).map
        Signatory.votingPower := by
    rw [List.find?_map, Option.map_map]
    rfl
  have powers := viaKeys ts.sigs
  rw [collecting.keys_eq, viaSigset] at powers
  rw [findShare] at found
  rw [found, Option.map_some] at powers
  rw [SignatorySet.powerOf, ← powers]
  rfl

/-- A signature is verified and put into the unsigned share of its signer. -/
theorem sign_eq_ok {host : Host} {ts next : ThresholdSig} {pubkey : Pubkey} {sig : Signature}
    (signed : ts.sign host pubkey sig = .ok next) :
    ∃ share, ts.findShare pubkey = some share ∧ share.sig = none ∧
      host.secp256k1Verify ts.message sig.bytes pubkey.bytes = .ok true ∧
      next = { ts with
        signedPower := ts.signedPower + share.power
        sigs := putSig pubkey sig ts.sigs } := by
  simp only [ThresholdSig.sign, secpVerify, Outcome.bind_eq_ok, Outcome.getOr_abort_eq_ok,
    Outcome.require_eq_ok, Outcome.checkedAdd_eq_ok, Outcome.pure_eq_ok] at signed
  obtain ⟨share, found, _, unsigned, _, ⟨verified, verifyOk, rfl⟩, _, ⟨_, rfl⟩, rfl⟩ := signed
  exact ⟨share, found, unsigned, verifyOk, rfl⟩

/-- One successful signature keeps the invariant and adds the voting power of
its signer to every sum. -/
theorem Collecting.sign {host : Host} {sigset : SignatorySet} {message : Bytes}
    {ts next : ThresholdSig} (collecting : Collecting host sigset message ts) {pubkey : Pubkey}
    {sig : Signature} (signed : ts.sign host pubkey sig = .ok next) :
    Collecting host sigset message next ∧
      ∀ f, signedSum f next.sigs = signedSum f ts.sigs + f (sigset.powerOf pubkey) := by
  obtain ⟨share, found, unsigned, verified, rfl⟩ := sign_eq_ok signed
  have sums : ∀ f, signedSum f (putSig pubkey sig ts.sigs) =
      signedSum f ts.sigs + f (sigset.powerOf pubkey) := by
    intro f
    rw [signedSum_putSig f found unsigned, collecting.findShare_power found]
  refine ⟨⟨collecting.message_eq, collecting.threshold_eq, ?_, ?_, ?_⟩, sums⟩
  · rw [map_shareKey_putSig, collecting.keys_eq]
  · intro entry member other signature
    rcases mem_putSig member with old | ⟨rfl, new⟩
    · exact collecting.verified entry old other signature
    · obtain rfl : sig = other := Option.some.inj (new.symm.trans signature)
      rwa [← collecting.message_eq]
  · simp only [sums id, collecting.signedPower_eq, collecting.findShare_power found, id_eq]

/-- A whole sequence of successful signatures. -/
theorem Collecting.signAll {host : Host} {sigset : SignatorySet} {message : Bytes}
    {ts final : ThresholdSig} (collecting : Collecting host sigset message ts)
    {signatures : List (Pubkey × Signature)} (signed : ts.signAll host signatures = .ok final) :
    Collecting host sigset message final ∧
      ∀ f, signedSum f final.sigs =
        signedSum f ts.sigs + (signatures.map fun entry => f (sigset.powerOf entry.1)).sum := by
  induction signatures generalizing ts with
  | nil =>
      cases signed
      exact ⟨collecting, by simp⟩
  | cons entry signatures ih =>
      simp only [ThresholdSig.signAll, List.foldlM_cons, Outcome.bind_eq_ok] at signed
      obtain ⟨next, signedFirst, rest⟩ := signed
      obtain ⟨nextCollecting, nextSums⟩ := collecting.sign signedFirst
      obtain ⟨finalCollecting, finalSums⟩ := ih nextCollecting rest
      refine ⟨finalCollecting, fun f => ?_⟩
      rw [finalSums, nextSums, List.map_cons, List.sum_cons]
      omega

/-- The entries of a witness, in the order in which the script checks them. -/
def scriptEntries (ts : ThresholdSig) : List (Pubkey × Share) :=
  (ts.sigs.insertionSort fun first second => witnessRank first ≤ witnessRank second).reverse

theorem scriptEntries_perm (ts : ThresholdSig) : ts.scriptEntries.Perm ts.sigs :=
  (List.reverse_perm _).trans (List.perm_insertionSort _ _)

/-- The rank of a key, as signatories and shares are both sorted by it. -/
def keyRank (key : Pubkey × Nat) : Nat ×ₗ List Nat :=
  toLex (key.2, key.1.bytes.map UInt8.toNat)

theorem keyRank_injective : Function.Injective keyRank := by
  rintro ⟨⟨first, firstLength⟩, firstPower⟩ ⟨⟨second, secondLength⟩, secondPower⟩ equal
  have parts := Prod.mk.inj (toLex.injective equal)
  have bytesEq : first = second :=
    List.map_injective_iff.mpr (fun _ _ => UInt8.toNat_inj.mp) parts.2
  obtain rfl : firstPower = secondPower := parts.1
  subst bytesEq
  rfl

/-- The entries of the witness follow the order of the public keys in the
script. -/
theorem Collecting.scriptEntries_keys {host : Host} {sigset : SignatorySet} {message : Bytes}
    {ts : ThresholdSig} (collecting : Collecting host sigset message ts)
    (wellFormed : sigset.WellFormed) :
    ts.scriptEntries.map shareKey =
      sigset.signatories.map fun signatory => (signatory.pubkey, signatory.votingPower) := by
  have entriesSorted : (ts.scriptEntries.map shareKey).Pairwise
      fun first second => keyRank second ≤ keyRank first := by
    rw [List.pairwise_map, scriptEntries, List.pairwise_reverse]
    exact List.pairwise_insertionSort _ _
  have signatoriesSorted : (sigset.signatories.map fun signatory =>
      (signatory.pubkey, signatory.votingPower)).Pairwise
        fun first second => keyRank second ≤ keyRank first :=
    List.pairwise_map.mpr wellFormed.sorted
  refine List.Perm.eq_of_pairwise (fun first second _ _ le ge =>
    keyRank_injective (le_antisymm ge le)) entriesSorted signatoriesSorted ?_
  rw [← collecting.keys_eq]
  exact ts.scriptEntries_perm.map _

section Witness

variable {host : Host} {checkSig : Bytes → Bytes → Bool} {message : Bytes}

/-- A verified share produces an element that the script counts exactly when
there is a signature. -/
theorem SignatureSemantics.witnessElement (semantics : SignatureSemantics host checkSig message)
    {entry : Pubkey × Share} (verified : ∀ sig, entry.2.sig = some sig →
      host.secp256k1Verify message sig.bytes entry.1.bytes = .ok true) :
    ∃ element, witnessElement host entry.2 = .ok element ∧
      checkSig element entry.1.bytes = entry.2.sig.isSome := by
  cases signature : entry.2.sig with
  | none => exact ⟨[], by simp [ThresholdSig.witnessElement, signature], semantics.empty _⟩
  | some sig =>
      obtain ⟨der, compact, valid⟩ := semantics.verified _ _ (verified sig signature)
      refine ⟨der ++ [0x01], ?_, valid⟩
      simp [ThresholdSig.witnessElement, signature, compact]

/-- Every verified list of shares produces one element for each share. -/
theorem SignatureSemantics.witnessElements (semantics : SignatureSemantics host checkSig message)
    {entries : List (Pubkey × Share)} (verified : ∀ entry ∈ entries, ∀ sig,
      entry.2.sig = some sig → host.secp256k1Verify message sig.bytes entry.1.bytes = .ok true) :
    ∃ elements, List.Forall₂ (fun entry element => ThresholdSig.witnessElement host entry.2 =
      .ok element ∧ checkSig element entry.1.bytes = entry.2.sig.isSome) entries elements := by
  induction entries with
  | nil => exact ⟨[], .nil⟩
  | cons entry entries ih =>
      obtain ⟨element, produced⟩ := semantics.witnessElement (verified entry (by simp))
      obtain ⟨elements, rest⟩ := ih fun other member => verified other (by simp [member])
      exact ⟨element :: elements, .cons produced rest⟩

/-- The script counts the truncated voting powers of the signed shares. -/
theorem validTruncatedPower_eq_signedSum {sigset : SignatorySet}
    {entries : List (Pubkey × Share)} {elements : List Bytes}
    (keysEq : entries.map shareKey =
      sigset.signatories.map fun signatory => (signatory.pubkey, signatory.votingPower))
    (counted : List.Forall₂ (fun entry element =>
      checkSig element entry.1.bytes = entry.2.sig.isSome) entries elements) :
    SignatorySet.validTruncatedPower checkSig sigset elements =
      signedSum (· >>> sigset.getTruncation 23) entries := by
  rw [SignatorySet.validTruncatedPower]
  generalize sigset.getTruncation 23 = truncation
  generalize sigset.signatories = signatories at keysEq
  induction counted generalizing signatories with
  | nil =>
      obtain rfl : signatories = [] := List.map_eq_nil_iff.mp keysEq.symm
      rfl
  | @cons entry element entries elements counts rest ih =>
      cases signatories with
      | nil => simp at keysEq
      | cons signatory signatories =>
          simp only [List.map_cons, List.cons.injEq, shareKey, Prod.mk.injEq] at keysEq
          obtain ⟨⟨keyEq, powerEq⟩, restEq⟩ := keysEq
          have tail := ih signatories restEq
          simp only [ThresholdScript.validWeight, List.map_cons, List.zipWith_cons_cons,
            List.sum_cons, signedSum] at tail ⊢
          rw [tail]
          simp only [ThresholdScript.addedWeight, SignatorySet.truncatedSigner,
            SignatorySet.signer, ThresholdScript.Signer.truncate, ← keyEq, counts, ← powerEq]

end Witness

/-- The witness of the signatures collected so far, whether or not they are
enough. -/
def collectedWitness (host : Host) (ts : ThresholdSig) : ContractResult (List Bytes) :=
  (ts.sigs.insertionSort fun first second => witnessRank first ≤ witnessRank second).mapM
    fun entry => witnessElement host entry.2

theorem toWitness_of_signed {host : Host} {ts : ThresholdSig} (signed : ts.signed = true) :
    ts.toWitness host = ts.collectedWitness host :=
  if_pos signed

/-- The collected signatures satisfy the script of their set if and only if the
destination can be pushed and their truncated voting power exceeds the truncated
threshold. -/
theorem Collecting.spends_iff {host : Host} {sigset : SignatorySet} {message : Bytes}
    {ts : ThresholdSig} (collecting : Collecting host sigset message ts)
    (wellFormed : sigset.WellFormed) {ratio : Nat × Nat} (proper : ratio.1 ≤ ratio.2)
    {dest : Bytes} {script : Script} (scripted : sigset.redeemScript dest ratio = .ok script)
    {checkSig : Bytes → Bytes → Bool} (semantics : SignatureSemantics host checkSig message) :
    ∃ witness, ts.collectedWitness host = .ok witness ∧
      (EndsTrue (evaluate checkSig script witness.reverse) ↔
        dest.length ≤ maxElementSize ∧
          (sigset.presentVp * ratio.1 / ratio.2) >>> sigset.getTruncation 23 <
            signedSum (· >>> sigset.getTruncation 23) ts.sigs) := by
  have entriesVerified : ∀ entry ∈ ts.scriptEntries, ∀ sig, entry.2.sig = some sig →
      host.secp256k1Verify message sig.bytes entry.1.bytes = .ok true :=
    fun entry member => collecting.verified entry (ts.scriptEntries_perm.mem_iff.mp member)
  obtain ⟨elements, produced⟩ := semantics.witnessElements entriesVerified
  have witnessEq : ts.collectedWitness host = .ok elements.reverse := by
    refine Outcome.mapM_eq_ok.mpr ?_
    have reversed := List.forall₂_reverse_iff.mpr (produced.imp fun _ _ each => each.1)
    rwa [scriptEntries, List.reverse_reverse] at reversed
  have keysEq := collecting.scriptEntries_keys wellFormed
  have oneEach : elements.length = sigset.signatories.length := by
    have keysLength := congrArg List.length keysEq
    rw [List.length_map, List.length_map] at keysLength
    rw [← produced.length_eq, keysLength]
  have counted : SignatorySet.validTruncatedPower checkSig sigset elements =
      signedSum (· >>> sigset.getTruncation 23) ts.sigs := by
    rw [validTruncatedPower_eq_signedSum keysEq (produced.imp fun _ _ each => each.2)]
    exact (ts.scriptEntries_perm.map _).sum_eq
  refine ⟨elements.reverse, witnessEq, ?_⟩
  rw [List.reverse_reverse, SignatorySet.evaluate_redeemScript wellFormed proper scripted oneEach,
    counted]
  split <;> rename_i small
  · rw [endsTrue_truth]
    simp [small]
  · simp [small, not_endsTrue_none]

/-- The exact condition for spending: once enough full voting power has
signed, the witness exists, and it satisfies the script if and only if the
destination can be pushed and the truncated voting powers of the signers
exceed the truncated threshold. -/
theorem spendable_iff_of_signed {host : Host} {validators : List Validator}
    {sigKey : ConsensusKey → Option Xpub} {createTime index : Nat} {sigset : SignatorySet}
    (built : SignatorySet.fromValidatorCtx host validators sigKey createTime index = .ok sigset)
    {dest : Bytes} {script : Script}
    (scripted : sigset.redeemScript dest SIGSET_THRESHOLD = .ok script)
    {start ts : ThresholdSig} (started : fromSigset sigset = .ok start) {message : Bytes}
    {signatures : List (Pubkey × Signature)}
    (collected : (start.setMessage message).signAll host signatures = .ok ts)
    {checkSig : Bytes → Bytes → Bool} (semantics : SignatureSemantics host checkSig message)
    (signed : ts.signed = true) :
    ∃ witness, ts.toWitness host = .ok witness ∧
      (EndsTrue (evaluate checkSig script witness.reverse) ↔
        dest.length ≤ maxElementSize ∧
          (sigset.presentVp * 2 / 3) >>> sigset.getTruncation 23 <
            (signatures.map fun entry =>
              sigset.powerOf entry.1 >>> sigset.getTruncation 23).sum) := by
  have wellFormed := SignatorySet.fromValidatorCtx_wellFormed built
  obtain ⟨startCollecting, startSums⟩ := Collecting.start wellFormed started message
  obtain ⟨collecting, sums⟩ := startCollecting.signAll collected
  obtain ⟨witness, witnessEq, spends⟩ :=
    collecting.spends_iff wellFormed (by decide) scripted semantics
  rw [sums, startSums, Nat.zero_add] at spends
  exact ⟨witness, (toWitness_of_signed signed).trans witnessEq, spends⟩

end ThresholdSig

namespace Sample

/-- Two of these validators hold just over two thirds of a power of 24 bits. -/
def evenValidators : List Validator :=
  [⟨consensusKey 1, 2796203⟩, ⟨consensusKey 2, 2796203⟩, ⟨consensusKey 3, 2796202⟩]

def evenSet : SignatorySet where
  createTime := 0
  presentVp := 8388608
  possibleVp := 8388608
  index := 0
  signatories := [⟨2796203, pubkey 2⟩, ⟨2796203, pubkey 1⟩, ⟨2796202, pubkey 3⟩]

def signature (tag : UInt8) : Pubkey × Signature := (pubkey tag, ⟨(pubkey tag).bytes⟩)

/-- The state of the set after the given voting power has signed. -/
def evenThresholdSig (signedPower : Nat) (first second third : Option Signature) :
    ThresholdSig where
  threshold := 5592405
  signedPower := signedPower
  message := List.replicate 32 0
  len := 3
  sigs := [(pubkey 2, ⟨2796203, second⟩), (pubkey 1, ⟨2796203, first⟩),
    (pubkey 3, ⟨2796202, third⟩)]

/-- The state after the first two validators have signed. -/
def twoSigned : ThresholdSig :=
  evenThresholdSig 5592406 (some (signature 1).2) (some (signature 2).2) none

/-- The state after all validators have signed. -/
def allSigned : ThresholdSig :=
  evenThresholdSig 8388608 (some (signature 1).2) (some (signature 2).2)
    (some (signature 3).2)

def evenScript : Script :=
  serialize (evenSet.redeemInstructions ⟨2796203, pubkey 2⟩
    [⟨2796203, pubkey 1⟩, ⟨2796202, pubkey 3⟩] 5592405 [0])

theorem signatureSemantics (message : Bytes) :
    ThresholdSig.SignatureSemantics host checkSig message where
  empty pubkey := by simp [checkSig]
  verified sig pubkey verified := by
    have same : sig = pubkey := by simpa [host] using verified
    exact ⟨pubkey, by simp [host, same], by simp [checkSig]⟩

end Sample

theorem ThresholdSig.spendable_iff_of_signed_all :
    ∃ witness, Sample.allSigned.toWitness Sample.host = .ok witness ∧
      (EndsTrue (evaluate Sample.checkSig Sample.evenScript witness.reverse) ↔
        [0].length ≤ maxElementSize ∧
          (Sample.evenSet.presentVp * 2 / 3) >>> Sample.evenSet.getTruncation 23 <
            ([Sample.signature 3, Sample.signature 1, Sample.signature 2].map fun entry =>
              Sample.evenSet.powerOf entry.1 >>> Sample.evenSet.getTruncation 23).sum) :=
  spendable_iff_of_signed
    (by decide +kernel : SignatorySet.fromValidatorCtx Sample.host Sample.evenValidators
      Sample.sigKey 0 0 = .ok Sample.evenSet)
    (by decide +kernel :
      Sample.evenSet.redeemScript [0] SIGSET_THRESHOLD = .ok Sample.evenScript)
    (by decide +kernel : fromSigset Sample.evenSet =
      .ok (Sample.evenThresholdSig 0 none none none))
    (by decide +kernel :
      ((Sample.evenThresholdSig 0 none none none).setMessage (List.replicate 32 0)).signAll
        Sample.host [Sample.signature 3, Sample.signature 1, Sample.signature 2] =
          .ok Sample.allSigned)
    (Sample.signatureSemantics _) (by decide)

/-- Enough voting power can sign without making the output spendable: the two
truncated powers add up to the truncated threshold only. -/
theorem ThresholdSig.signed_not_spendable :
    ¬ ∀ (host : Host) (validators : List Validator) (sigKey : ConsensusKey → Option Xpub)
        (createTime index : Nat) (sigset : SignatorySet) (dest : Bytes) (script : Script)
        (start ts : ThresholdSig) (message : Bytes) (signatures : List (Pubkey × Signature))
        (checkSig : Bytes → Bytes → Bool),
      SignatorySet.fromValidatorCtx host validators sigKey createTime index = .ok sigset →
      sigset.redeemScript dest SIGSET_THRESHOLD = .ok script →
      fromSigset sigset = .ok start →
      (start.setMessage message).signAll host signatures = .ok ts →
      SignatureSemantics host checkSig message → ts.signed = true →
      ∃ witness, ts.toWitness host = .ok witness ∧
        EndsTrue (evaluate checkSig script witness.reverse) := by
  intro spendable
  obtain ⟨witness, witnessEq, spends⟩ := spendable Sample.host Sample.evenValidators
    Sample.sigKey 0 0 Sample.evenSet [0] Sample.evenScript (Sample.evenThresholdSig 0 none none none)
    Sample.twoSigned (List.replicate 32 0) [Sample.signature 1, Sample.signature 2]
    Sample.checkSig (by decide +kernel) (by decide +kernel) (by decide +kernel)
    (by decide +kernel) (Sample.signatureSemantics _) (by decide)
  have known : Sample.twoSigned.toWitness Sample.host =
      .ok [[], (Sample.pubkey 1).bytes ++ [0x01], (Sample.pubkey 2).bytes ++ [0x01]] := by
    decide +kernel
  obtain rfl := Except.ok.inj (known.symm.trans witnessEq)
  revert spends
  decide +kernel

end CwBitcoin
