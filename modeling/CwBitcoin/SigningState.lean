import CwBitcoin.CallInvariants
import CwBitcoin.Spendability
import Mathlib.Data.List.TakeWhile

/-!
# The signing state of a checkpoint

Signatures are counted on three levels: as voting power in an input, as signed
inputs in a transaction and as signed transactions in a batch.  Each level
compares the one below before and after a signature, and the counters stay
exact because nothing that is signed becomes unsigned again.
-/

namespace CwBitcoin

/-- The signing state of the input at an index of a transaction. -/
structure Input.Exact (host : Host) (tx : Transaction) (index : Nat) (input : Input) : Prop where
  message_eq : input.signatures.message =
    host.segwitSignatureHash tx index input.redeemScript input.amount
  signedPower_eq : input.signatures.signedPower =
    ThresholdSig.signedSum id input.signatures.sigs
  verified : ∀ entry ∈ input.signatures.sigs, ∀ sig, entry.2.sig = some sig →
    host.secp256k1Verify (host.segwitSignatureHash tx index input.redeemScript input.amount)
      sig.bytes entry.1.bytes = .ok true

namespace BitcoinTx

/-- Every input has more than its threshold of voting power signed. -/
def FullySigned (tx : BitcoinTx) : Prop := ∀ input ∈ tx.input, input.signatures.signed = true

instance (tx : BitcoinTx) : Decidable tx.FullySigned :=
  inferInstanceAs (Decidable (∀ input ∈ tx.input, _))

structure Exact (host : Host) (tx : BitcoinTx) : Prop where
  inputs : ∀ (index : Nat) (input : Input), tx.input[index]? = some input →
    input.Exact host tx.skeleton index
  signedInputs_eq : tx.signedInputs = tx.input.countP fun input => input.signatures.signed

end BitcoinTx

structure Batch.Exact (host : Host) (batch : Batch) : Prop where
  txs : ∀ tx ∈ batch.batch, tx.Exact host
  signedTxs_eq : batch.signedTxs = batch.batch.countP fun tx => tx.FullySigned

namespace Checkpoint

def FullySigned (checkpoint : Checkpoint) : Prop :=
  ∀ batch ∈ checkpoint.batches, ∀ tx ∈ batch.batch, tx.FullySigned

/-- The counters of a checkpoint are exact on every level, and its status
follows the signatures. -/
structure SigningExact (host : Host) (checkpoint : Checkpoint) : Prop where
  batches : ∀ batch ∈ checkpoint.batches, batch.Exact host
  complete_iff : checkpoint.status = .complete ↔ checkpoint.FullySigned

end Checkpoint

section Counters

/-- A counter that follows one element before and after a step follows a list
of them. -/
theorem BitcoinTx.countSigned_eq_ok {wasSigned isSigned : Bool} {count next : Nat}
    (kept : wasSigned = true → isSigned = true)
    (counted : countSigned wasSigned isSigned count = .ok next) :
    next + wasSigned.toNat = count + isSigned.toNat := by
  unfold countSigned at counted
  split at counted
  · rename_i became
    rw [Outcome.checkedAdd_eq_ok] at counted
    rw [became.1, became.2, ← counted.2]
    rfl
  · rename_i same
    obtain rfl := Except.ok.inj counted
    cases wasSigned <;> cases isSigned <;> simp_all

theorem countP_cons_toNat {α : Type} (p : α → Bool) (x : α) (xs : List α) :
    (x :: xs).countP p = xs.countP p + (p x).toNat := by
  rw [List.countP_cons]
  cases p x <;> rfl

end Counters

namespace Input

/-- What a call does to an input: nothing, or a signature is added. -/
inductive Step (host : Host) (input : Input) : Input → Prop
  | skipped : Step host input input
  | added {pubkey : Pubkey} {sig : Signature} {signatures : ThresholdSig} :
      input.signatures.sign host pubkey sig = .ok signatures →
        Step host input { input with signatures }

variable {host : Host} {input next : Input}

theorem Step.signed (step : input.Step host next) (signed : input.signatures.signed = true) :
    next.signatures.signed = true := by
  cases step with
  | skipped => exact signed
  | added added =>
      obtain ⟨share, -, -, -, rfl⟩ := ThresholdSig.sign_eq_ok added
      rw [ThresholdSig.signed, decide_eq_true_eq] at signed ⊢
      exact Nat.lt_add_right share.power signed

/-- A further signature keeps the state of an input exact. -/
theorem Step.exact (step : input.Step host next) {tx : Transaction} {index : Nat}
    (exact : input.Exact host tx index) : next.Exact host tx index := by
  cases step with
  | skipped => exact exact
  | added added =>
      obtain ⟨share, found, unsigned, verified, rfl⟩ := ThresholdSig.sign_eq_ok added
      refine ⟨exact.message_eq, ?_, ?_⟩
      · simp only [ThresholdSig.signedSum_putSig id found unsigned, exact.signedPower_eq, id_eq]
      · intro entry member sig signature
        rcases ThresholdSig.mem_putSig member with old | ⟨rfl, new⟩
        · exact exact.verified entry old sig signature
        · obtain rfl := Option.some.inj (new.symm.trans signature)
          rwa [exact.message_eq] at verified

end Input

namespace BitcoinTx

variable {host : Host} {xpub : Xpub} {missing : ContractError}

/-- The counter grows by the number of inputs that became signed. -/
theorem signInputs_counted {inputs signedInputs : List Input} {sigs remaining : List Signature}
    {count newCount : Nat}
    (signed : signInputs host xpub missing inputs sigs count =
      .ok (signedInputs, remaining, newCount)) :
    List.Forall₂ (Input.Step host) inputs signedInputs ∧
      newCount + inputs.countP (fun input => input.signatures.signed) =
        count + signedInputs.countP fun input => input.signatures.signed := by
  induction inputs generalizing sigs count signedInputs remaining newCount with
  | nil =>
      simp only [signInputs, Except.ok.injEq, Prod.mk.injEq] at signed
      obtain ⟨rfl, -, rfl⟩ := signed
      exact ⟨.nil, rfl⟩
  | cons input rest ih =>
      simp only [signInputs, Outcome.bind_eq_ok] at signed
      obtain ⟨pubkey, -, signed⟩ := signed
      split at signed
      · cases sigs with
        | nil => simp at signed
        | cons sig sigs =>
            simp only [Outcome.bind_eq_ok, Outcome.pure_eq_ok, Prod.mk.injEq] at signed
            obtain ⟨signatures, added, middle, counted, ⟨others, sigs, last⟩, signedRest, rfl, -,
              rfl⟩ := signed
            have step : input.Step host { input with signatures } := .added added
            have head := countSigned_eq_ok step.signed counted
            obtain ⟨steps, tail⟩ := ih signedRest
            refine ⟨.cons step steps, ?_⟩
            simp only [countP_cons_toNat] at head tail ⊢
            omega
      · simp only [Outcome.bind_eq_ok, Outcome.pure_eq_ok, Prod.mk.injEq] at signed
        obtain ⟨⟨others, sigs, last⟩, signedRest, rfl, -, rfl⟩ := signed
        obtain ⟨steps, tail⟩ := ih signedRest
        refine ⟨.cons .skipped steps, ?_⟩
        simp only [countP_cons_toNat] at tail ⊢
        omega

variable {tx signedTx : BitcoinTx}

/-- The counter of a transaction reaches its length when every input is signed. -/
theorem Exact.signed_iff (exact : tx.Exact host) : tx.signed = true ↔ tx.FullySigned := by
  rw [signed, decide_eq_true_eq, exact.signedInputs_eq, List.countP_eq_length]
  rfl

theorem Exact.sign (exact : tx.Exact host) {sigs remaining : List Signature}
    (signed : tx.sign host xpub missing sigs = .ok (signedTx, remaining)) :
    signedTx.Exact host ∧ (tx.FullySigned → signedTx.FullySigned) := by
  have sameSkeleton := skeleton_congr (sign_unsigned signed)
  simp only [BitcoinTx.sign, Outcome.bind_eq_ok, Outcome.pure_eq_ok, Prod.mk.injEq] at signed
  obtain ⟨⟨inputs, sigs, count⟩, signedInputs, rfl, -⟩ := signed
  obtain ⟨steps, counted⟩ := signInputs_counted signedInputs
  refine ⟨⟨?_, ?_⟩, ?_⟩
  · intro index input found
    rw [sameSkeleton]
    obtain ⟨inRange, rfl⟩ := List.getElem?_eq_some_iff.mp found
    have oldInRange : index < tx.input.length := steps.length_eq ▸ inRange
    have step : (tx.input.get ⟨index, oldInRange⟩).Step host (inputs.get ⟨index, inRange⟩) :=
      steps.get oldInRange inRange
    exact step.exact (exact.inputs index _ (List.getElem?_eq_getElem oldInRange))
  · have before := exact.signedInputs_eq
    simp only at counted ⊢
    omega
  · intro fully input member
    obtain ⟨index, inRange, rfl⟩ := List.getElem_of_mem member
    have oldInRange : index < tx.input.length := steps.length_eq ▸ inRange
    have step : (tx.input.get ⟨index, oldInRange⟩).Step host (inputs.get ⟨index, inRange⟩) :=
      steps.get oldInRange inRange
    exact step.signed (fully _ (List.getElem_mem oldInRange))

end BitcoinTx

namespace Checkpoint

variable {host : Host} {xpub : Xpub}

/-- The counter grows by the number of transactions that became fully signed. -/
theorem signTxs_counted {txs signedTxs : List BitcoinTx} {sigs remaining : List Signature}
    {count newCount : Nat} (exact : ∀ tx ∈ txs, tx.Exact host)
    (signed : signTxs host xpub txs sigs count = .ok (signedTxs, remaining, newCount)) :
    (∀ tx ∈ signedTxs, tx.Exact host) ∧
      ((∀ tx ∈ txs, tx.FullySigned) → ∀ tx ∈ signedTxs, tx.FullySigned) ∧
      newCount + txs.countP (fun tx => tx.FullySigned) =
        count + signedTxs.countP fun tx => tx.FullySigned := by
  induction txs generalizing sigs count signedTxs remaining newCount with
  | nil =>
      simp only [signTxs, Except.ok.injEq, Prod.mk.injEq] at signed
      obtain ⟨rfl, -, rfl⟩ := signed
      exact ⟨exact, fun fully => fully, rfl⟩
  | cons tx rest ih =>
      simp only [signTxs, Outcome.bind_eq_ok, Outcome.pure_eq_ok, Prod.mk.injEq] at signed
      obtain ⟨⟨signedTx, sigs⟩, signedHead, middle, counted, ⟨others, left, last⟩, signedRest, rfl,
        -, rfl⟩ := signed
      rw [List.forall_mem_cons] at exact
      obtain ⟨headExact, headKept⟩ := exact.1.sign signedHead
      obtain ⟨restExact, restKept, tail⟩ := ih exact.2 signedRest
      have head := BitcoinTx.countSigned_eq_ok (by
        rw [exact.1.signed_iff, headExact.signed_iff]
        exact headKept) counted
      refine ⟨List.forall_mem_cons.mpr ⟨headExact, restExact⟩, ?_, ?_⟩
      · intro fully
        rw [List.forall_mem_cons] at fully
        exact List.forall_mem_cons.mpr ⟨headKept fully.1, restKept fully.2⟩
      · rw [Bool.eq_iff_iff.mpr (exact.1.signed_iff.trans decide_eq_true_iff.symm),
          Bool.eq_iff_iff.mpr (headExact.signed_iff.trans decide_eq_true_iff.symm)] at head
        simp only [countP_cons_toNat] at head tail ⊢
        omega

theorem signBatches_exact {batches signedBatches : List Batch} {sigs remaining : List Signature}
    (exact : ∀ batch ∈ batches, batch.Exact host)
    (signed : signBatches host xpub batches sigs = .ok (signedBatches, remaining)) :
    (∀ batch ∈ signedBatches, batch.Exact host) ∧
      ((∀ batch ∈ batches, ∀ tx ∈ batch.batch, tx.FullySigned) →
        ∀ batch ∈ signedBatches, ∀ tx ∈ batch.batch, tx.FullySigned) := by
  induction batches generalizing sigs signedBatches remaining with
  | nil =>
      simp only [signBatches, Except.ok.injEq, Prod.mk.injEq] at signed
      obtain ⟨rfl, -⟩ := signed
      exact ⟨exact, fun fully => fully⟩
  | cons batch rest ih =>
      rw [List.forall_mem_cons] at exact
      simp only [signBatches, Outcome.bind_eq_ok] at signed
      obtain ⟨⟨txs, sigs, count⟩, signedTxs, signed⟩ := signed
      obtain ⟨txsExact, txsKept, counted⟩ := signTxs_counted exact.1.txs signedTxs
      have headExact : Batch.Exact host { signedTxs := count, batch := txs } := by
        refine ⟨txsExact, ?_⟩
        have before := exact.1.signedTxs_eq
        simp only at counted ⊢
        omega
      split at signed
      · simp only [Outcome.bind_eq_ok, Outcome.pure_eq_ok, Prod.mk.injEq] at signed
        obtain ⟨⟨others, left⟩, signedRest, rfl, -⟩ := signed
        obtain ⟨restExact, restKept⟩ := ih exact.2 signedRest
        refine ⟨List.forall_mem_cons.mpr ⟨headExact, restExact⟩, ?_⟩
        intro fully
        rw [List.forall_mem_cons] at fully
        exact List.forall_mem_cons.mpr ⟨txsKept fully.1, restKept fully.2⟩
      · simp only [Outcome.pure_eq_ok, Prod.mk.injEq] at signed
        obtain ⟨rfl, -⟩ := signed
        refine ⟨List.forall_mem_cons.mpr ⟨headExact, exact.2⟩, ?_⟩
        intro fully
        rw [List.forall_mem_cons] at fully
        exact List.forall_mem_cons.mpr ⟨txsKept fully.1, fully.2⟩

variable {checkpoint signedCheckpoint : Checkpoint}

/-- All batches count as signed exactly when every input is signed. -/
theorem signed_iff_fullySigned (exact : ∀ batch ∈ checkpoint.batches, batch.Exact host) :
    checkpoint.signed = true ↔ checkpoint.FullySigned := by
  have each : ∀ batch ∈ checkpoint.batches,
      (batch.signed = true ↔ ∀ tx ∈ batch.batch, tx.FullySigned) := by
    intro batch member
    rw [Batch.signed, decide_eq_true_eq, (exact batch member).signedTxs_eq, List.countP_eq_length]
    simp only [decide_eq_true_eq]
  have prefixWhole : checkpoint.signed = true ↔ ∀ batch ∈ checkpoint.batches,
      batch.signed = true := by
    rw [signed, decide_eq_true_eq, signedBatches, ← List.takeWhile_eq_self_iff]
    constructor
    · exact (List.takeWhile_prefix Batch.signed).eq_of_length
    · exact congrArg List.length
  rw [prefixWhole]
  exact forall₂_congr each

/-- Signing keeps the signing state exact. -/
theorem SigningExact.sign (exact : checkpoint.SigningExact host)
    (notBuilding : checkpoint.status ≠ .building) {sigs : List Signature} {btcHeight : Nat}
    (signed : checkpoint.sign host xpub sigs btcHeight = .ok signedCheckpoint) :
    (checkpoint.completed signedCheckpoint).SigningExact host := by
  have sameStatus : signedCheckpoint.status = checkpoint.status := by
    rw [(sign_eq_ok signed).2]
  simp only [Checkpoint.sign, Outcome.bind_eq_ok, Outcome.require_eq_ok] at signed
  obtain ⟨⟨batches, remaining⟩, signedBatches, -, -, signed⟩ := signed
  obtain ⟨batchesExact, kept⟩ := signBatches_exact exact.batches signedBatches
  have batchesEq : signedCheckpoint.batches = batches := by
    split at signed <;> obtain rfl := Outcome.pure_eq_ok.mp signed <;> rfl
  rw [← batchesEq] at batchesExact kept
  have signedIff := signed_iff_fullySigned batchesExact
  unfold completed
  split
  · rename_i became
    exact ⟨batchesExact, iff_of_true rfl (signedIff.mp became.2)⟩
  · rename_i remains
    refine ⟨batchesExact, ?_⟩
    rw [sameStatus]
    constructor
    · intro complete
      exact kept (exact.complete_iff.mp complete)
    · intro fully
      cases status : checkpoint.status with
      | building => exact absurd status notBuilding
      | signing => exact absurd ⟨status, signedIff.mpr fully⟩ remains
      | complete => rfl

end Checkpoint

namespace ThresholdSig

/-- No share has a signature. -/
def Unsigned (ts : ThresholdSig) : Prop :=
  ts.signedPower = 0 ∧ ∀ entry ∈ ts.sigs, entry.2.sig = none

variable {ts : ThresholdSig} {shares : List (Pubkey × Share)}

theorem unsigned_ofShares (unsigned : ∀ entry ∈ shares, entry.2.sig = none)
    (started : ofShares shares = .ok ts) : ts.Unsigned := by
  obtain ⟨-, rfl⟩ := ofShares_eq_ok started
  exact ⟨rfl, unsigned⟩

theorem unsigned_fromShares (started : fromShares shares = .ok ts) : ts.Unsigned := by
  simp only [fromShares, Outcome.bind_eq_ok, Outcome.assert_eq_ok] at started
  obtain ⟨-, unsigned, started⟩ := started
  exact unsigned_ofShares unsigned started

theorem unsigned_fromSigset {sigset : SignatorySet} (started : fromSigset sigset = .ok ts) :
    ts.Unsigned := by
  refine unsigned_ofShares ?_ started
  intro entry member
  obtain ⟨signatory, -, rfl⟩ := List.mem_map.mp member
  rfl

theorem Unsigned.signedSum_eq (unsigned : ts.Unsigned) (f : Nat → Nat) :
    signedSum f ts.sigs = 0 := by
  rw [signedSum, List.sum_eq_zero_iff]
  intro power member
  obtain ⟨entry, entryMember, rfl⟩ := List.mem_map.mp member
  rw [unsigned.2 entry entryMember]
  rfl

theorem Unsigned.not_signed (unsigned : ts.Unsigned) : ts.signed = false := by
  rw [signed, unsigned.1]
  exact decide_eq_false (Nat.not_lt_zero ts.threshold)

end ThresholdSig

namespace Checkpoint

def TxUnsigned (tx : BitcoinTx) : Prop :=
  tx.signedInputs = 0 ∧ ∀ input ∈ tx.input, input.signatures.Unsigned

/-- No input of a checkpoint has a signature. -/
def Unsigned (checkpoint : Checkpoint) : Prop :=
  ∀ batch ∈ checkpoint.batches, batch.signedTxs = 0 ∧ ∀ tx ∈ batch.batch, TxUnsigned tx

variable {host : Host} {checkpoint : Checkpoint} {tx : BitcoinTx}

theorem Unsigned.mainTx (unsigned : checkpoint.Unsigned) : TxUnsigned checkpoint.mainTx := by
  unfold Checkpoint.mainTx
  cases head : checkpoint.batches.head? with
  | none => exact ⟨rfl, nofun⟩
  | some batch =>
      have batchMember := List.mem_of_mem_head? head
      cases headTx : batch.batch.head? with
      | none => exact ⟨by simp [headTx, BitcoinTx.default], by simp [headTx, BitcoinTx.default]⟩
      | some tx =>
          rw [Option.bind_some, headTx, Option.getD_some]
          exact (unsigned batch batchMember).2 tx (List.mem_of_mem_head? headTx)

theorem Unsigned.setFirstTx (unsigned : checkpoint.Unsigned) (single : checkpoint.Single)
    (txUnsigned : TxUnsigned tx) : (checkpoint.setFirstTx tx).Unsigned := by
  obtain ⟨signedTxs, old, batches⟩ := single
  have counter : signedTxs = 0 := (unsigned _ (batches ▸ List.mem_singleton_self _)).1
  intro batch member
  rw [Checkpoint.setFirstTx, batches] at member
  obtain rfl := List.mem_singleton.mp member
  refine ⟨counter, ?_⟩
  intro other otherMember
  obtain rfl := List.mem_singleton.mp otherMember
  exact txUnsigned

/-- The frozen transaction has the signature hashes of its own inputs. -/
theorem freezeTx_messages {config : CheckpointConfig} {cpFees reserveValue : Nat}
    {outs : List TxOut} {frozenTx : BitcoinTx}
    (frozen : freezeTx host config cpFees outs tx = .ok (frozenTx, reserveValue)) :
    frozenTx.signedInputs = tx.signedInputs ∧ ∃ bitcoinTx : Transaction,
      bitcoinTx.stripWitness = frozenTx.skeleton ∧
      frozenTx.input = (tx.input.take config.maxInputs).mapIdx
        (BitcoinTx.signatureMessage host bitcoinTx) := by
  simp only [freezeTx, Outcome.bind_eq_ok, Outcome.checkedAdd_eq_ok, Outcome.require_eq_ok,
    Outcome.assert_eq_ok, Outcome.pure_eq_ok, Prod.mk.injEq] at frozen
  obtain ⟨_, -, _, -, _, -, -, -, -, -, bitcoinTx, converted, rfl, -⟩ := frozen
  refine ⟨rfl, bitcoinTx, ?_, rfl⟩
  rw [BitcoinTx.stripWitness_of_toBitcoinTx converted]
  apply BitcoinTx.skeleton_congr
  simp only [BitcoinTx.unsigned, unsigned_mapIdx_signatureMessage]

/-- A transaction is frozen with an exact signing state. -/
theorem exact_of_freezeTx {config : CheckpointConfig} {cpFees reserveValue : Nat}
    {outs : List TxOut} {frozenTx : BitcoinTx} (unsigned : TxUnsigned tx)
    (frozen : freezeTx host config cpFees outs tx = .ok (frozenTx, reserveValue)) :
    frozenTx.Exact host ∧ ∀ input ∈ frozenTx.input, input.signatures.signed = false := by
  obtain ⟨counter, bitcoinTx, stripped, inputs⟩ := freezeTx_messages frozen
  have kept : ∀ (index : Nat) (input : Input), frozenTx.input[index]? = some input →
      input.signatures.Unsigned ∧ input.signatures.message =
        host.segwitSignatureHash frozenTx.skeleton index input.redeemScript input.amount := by
    intro index input found
    rw [inputs, List.getElem?_mapIdx, Option.map_eq_some_iff] at found
    obtain ⟨old, oldAt, rfl⟩ := found
    refine ⟨unsigned.2 old (List.mem_of_mem_take (List.mem_of_getElem? oldAt)), ?_⟩
    rw [← stripped]
    rfl
  have notSigned : ∀ input ∈ frozenTx.input, input.signatures.signed = false := by
    intro input member
    obtain ⟨index, found⟩ := List.getElem?_of_mem member
    exact (kept index input found).1.not_signed
  refine ⟨⟨?_, ?_⟩, notSigned⟩
  · intro index input found
    obtain ⟨inputUnsigned, message⟩ := kept index input found
    refine ⟨message, ?_, ?_⟩
    · rw [inputUnsigned.1, inputUnsigned.signedSum_eq]
    · intro entry member sig signature
      rw [inputUnsigned.2 entry member] at signature
      cases signature
  · rw [counter, unsigned.1, eq_comm, List.countP_eq_zero]
    intro input member
    rw [notSigned input member]
    exact Bool.false_ne_true

/-- A frozen transaction with an input is not signed. -/
theorem exact_frozenAs {config : CheckpointConfig} {cpFees reserveValue : Nat}
    {outs : List TxOut} {frozenTx : BitcoinTx} (single : checkpoint.Single)
    (unsigned : checkpoint.Unsigned)
    (frozen : freezeTx host config cpFees outs checkpoint.mainTx = .ok (frozenTx, reserveValue))
    (nonempty : frozenTx.input ≠ []) : (checkpoint.frozenAs frozenTx).SigningExact host := by
  obtain ⟨txExact, notSigned⟩ := exact_of_freezeTx unsigned.mainTx frozen
  obtain ⟨signedTxs, old, batches⟩ := single
  have counter : signedTxs = 0 := (unsigned _ (batches ▸ List.mem_singleton_self _)).1
  have batchesEq : (checkpoint.frozenAs frozenTx).batches =
      [{ signedTxs := 0, batch := [frozenTx] }] := by
    rw [frozenAs, Checkpoint.setFirstTx, batches, counter]
    rfl
  obtain ⟨input, rest, inputs⟩ := List.exists_cons_of_ne_nil nonempty
  have first := notSigned input (inputs ▸ List.mem_cons_self)
  have notFully : ¬ frozenTx.FullySigned := by
    intro fully
    rw [fully input (inputs ▸ List.mem_cons_self)] at first
    cases first
  constructor
  · intro batch member
    rw [batchesEq] at member
    obtain rfl := List.mem_singleton.mp member
    refine ⟨?_, by simp [notFully]⟩
    intro tx txMember
    obtain rfl := List.mem_singleton.mp txMember
    exact txExact
  · have status : (checkpoint.frozenAs frozenTx).status = .signing := rfl
    rw [status]
    apply iff_of_false CheckpointStatus.noConfusion
    intro fully
    rw [FullySigned, batchesEq] at fully
    exact notFully (fully _ (List.mem_singleton_self _) _ (List.mem_singleton_self _))

end Checkpoint

namespace Contract

/-- Nothing is signed while a checkpoint is built, and afterwards the signing
state is exact unless there is no input to sign. -/
structure SigningKept (host : Host) (checkpoint : Checkpoint) : Prop where
  building : checkpoint.status = .building → checkpoint.Unsigned
  frozen : checkpoint.status ≠ .building → checkpoint.mainTx.input ≠ [] →
    checkpoint.SigningExact host

theorem SigningKept.of_unsigned {host : Host} {checkpoint : Checkpoint}
    (status : checkpoint.status = .building) (unsigned : checkpoint.Unsigned) :
    SigningKept host checkpoint :=
  ⟨fun _ => unsigned, fun notBuilding => absurd status notBuilding⟩

variable {host : Host} {store : Store} {call : Call}

theorem preservesEach_signingKept : PreservesEach host store call (SigningKept host) where
  credited := by
    intro deposit queue credited _ single status _ holds
    have unsigned := holds.building status
    obtain ⟨-, -, -, -, started⟩ := Input.new_eq_ok credited.input_eq
    obtain ⟨counter, inputs⟩ := unsigned.mainTx
    have txUnsigned : Checkpoint.TxUnsigned { credited.building.mainTx with
        input := credited.building.mainTx.input ++ [credited.input] } := by
      refine ⟨counter, ?_⟩
      rw [List.forall_mem_append, List.forall_mem_singleton]
      exact ⟨inputs, ThresholdSig.unsigned_fromSigset started⟩
    exact .of_unsigned status (unsigned.setFirstTx single txUnsigned)
  withdrawn := by
    intro queue after withdrawn single status holds
    have unsigned := holds.building status
    have txUnsigned : Checkpoint.TxUnsigned { withdrawn.building.mainTx with
        output := withdrawn.building.mainTx.output ++ [withdrawn.output] } := unsigned.mainTx
    exact .of_unsigned status (unsigned.setFirstTx single txUnsigned)
  signed := by
    intro signature checkpoint signedCheckpoint _ _ notBuilding holds signed
    have sameInputs : signedCheckpoint.mainTx.input.map Input.unsigned =
        checkpoint.mainTx.input.map Input.unsigned :=
      congrArg BitcoinTx.input (Checkpoint.mainTx_unsigned_congr (Checkpoint.sign_eq_ok signed).1)
    have stillNotBuilding := Checkpoint.completed_not_building notBuilding signed
    refine ⟨fun building => absurd building stillNotBuilding, ?_⟩
    intro _ nonempty
    apply (holds.frozen notBuilding _).sign notBuilding signed
    intro empty
    rw [empty, List.map_nil, List.map_eq_nil_iff] at sameInputs
    rw [Checkpoint.mainTx_completed] at nonempty
    exact nonempty sameInputs
  paidOut := fun holds => ⟨holds.building, fun notBuilding nonempty =>
    ⟨(holds.frozen notBuilding nonempty).batches, (holds.frozen notBuilding nonempty).complete_iff⟩⟩
  started := by
    intro sigset depositsEnabled
    refine .of_unsigned rfl ?_
    intro batch member
    obtain rfl := List.mem_singleton.mp member
    refine ⟨rfl, ?_⟩
    intro tx txMember
    obtain rfl := List.mem_singleton.mp txMember
    exact ⟨rfl, nofun⟩
  rolled := by
    intro hash unitsPerSat before after rollover single status _ holds
    constructor
    · refine ⟨nofun, ?_⟩
      intro _ nonempty
      rw [rollover.mainTx_frozen] at nonempty
      exact Checkpoint.exact_frozenAs single (holds.building status) rollover.frozen_eq nonempty
    · refine .of_unsigned rfl ?_
      intro batch member
      obtain rfl := List.mem_singleton.mp member
      refine ⟨rfl, ?_⟩
      intro tx txMember
      obtain rfl := List.mem_singleton.mp txMember
      refine ⟨rfl, List.forall_mem_cons.mpr ⟨?_, ?_⟩⟩
      · obtain ⟨-, -, -, -, started⟩ := Input.new_eq_ok rollover.reserveInput_eq
        exact ThresholdSig.unsigned_fromSigset started
      · intro input inExcess
        obtain ⟨shares, started⟩ := rollover.excess_fresh input inExcess
        exact ThresholdSig.unsigned_fromShares started

end Contract

/-- In every state of every run, the signing state of every checkpoint that is
no longer built and has an input is exact. -/
theorem Contract.run_signing_exact (host : Host) (info : MessageInfo) (msg : InstantiateMsg)
    (calls : List Call) (index : Nat) (checkpoint : Checkpoint)
    (got : ((machine host).run (instantiate host info msg) calls).queue.get index =
      .ok checkpoint)
    (notBuilding : checkpoint.status ≠ .building)
    (nonempty : ∃ batch ∈ checkpoint.batches, ∃ tx ∈ batch.batch, tx.input ≠ []) :
    checkpoint.SigningExact host := by
  obtain ⟨-, found⟩ := QueueStore.get_eq_ok.mp got
  have each := run_each (SigningKept host) (fun _ _ _ => preservesEach_signingKept)
    ((machine host).permitted_all (instantiate host info msg) calls).onSuccess
  apply (each index checkpoint found).frozen notBuilding
  have single := ((run_shaped host info msg calls).ordered_of_item found).single found
  obtain ⟨signedTxs, tx, batches⟩ := single
  obtain ⟨batch, batchMember, other, otherMember, inputs⟩ := nonempty
  rw [batches] at batchMember
  obtain rfl := List.mem_singleton.mp batchMember
  obtain rfl := List.mem_singleton.mp otherMember
  rwa [Checkpoint.mainTx, batches]

theorem Contract.run_signing_exact_sample :
    (Sample.checkpointAt ((machine Sample.host).run Sample.initial
      (Sample.setupCalls ++ [Sample.signFirst])) 0).SigningExact Sample.host :=
  run_signing_exact Sample.host Sample.info Sample.instantiateMsg
    (Sample.setupCalls ++ [Sample.signFirst]) 0 _ (by decide +kernel) (by decide +kernel)
    (by decide +kernel)

end CwBitcoin
