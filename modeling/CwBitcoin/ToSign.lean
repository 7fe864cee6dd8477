import CwBitcoin.Library.Consume
import CwBitcoin.SigningState

/-!
# What a signatory is asked to sign

`toSign` lists the messages for which a signature of a signatory is missing, and
`sign` hands out a list of signatures to the same inputs.  The list is accepted
when it answers the messages one by one, unless a counter overflows.
-/

namespace CwBitcoin

namespace ThresholdSig

/-- The voting power of the first share of a public key. -/
def powerOf (ts : ThresholdSig) (pubkey : Pubkey) : Nat :=
  ((ts.findShare pubkey).map Share.power).getD 0

/-- The state with one more signature. -/
def withSig (ts : ThresholdSig) (pubkey : Pubkey) (sig : Signature) : ThresholdSig :=
  { ts with
    signedPower := ts.signedPower + ts.powerOf pubkey
    sigs := putSig pubkey sig ts.sigs }

/-- A share whose signature is missing. -/
theorem exists_share_of_needsSig {ts : ThresholdSig} {pubkey : Pubkey}
    (needs : ts.needsSig pubkey = true) :
    ∃ share, ts.findShare pubkey = some share ∧ share.sig = none ∧
      ts.powerOf pubkey = share.power := by
  cases found : ts.findShare pubkey with
  | none => simp [needsSig, found] at needs
  | some share => exact ⟨share, rfl, by simpa [needsSig, found] using needs, by simp [powerOf, found]⟩

/-- A missing signature is added when it verifies and the voting power stays in
range. -/
theorem sign_eq_ok_iff {host : Host} {ts next : ThresholdSig} {pubkey : Pubkey} {sig : Signature}
    (needs : ts.needsSig pubkey = true) :
    ts.sign host pubkey sig = .ok next ↔ secpVerify host ts.message pubkey sig = .ok () ∧
      ts.signedPower + ts.powerOf pubkey < 2 ^ 64 ∧ ts.withSig pubkey sig = next := by
  obtain ⟨share, found, unsigned, power⟩ := exists_share_of_needsSig needs
  simp only [sign, withSig, power, found, Outcome.getOr, Outcome.ok_bind,
    Outcome.bind_eq_ok, Outcome.require_eq_ok, Outcome.checkedAdd_eq_ok, Outcome.pure_eq_ok]
  constructor
  · rintro ⟨-, -, _, verified, _, ⟨inRange, rfl⟩, rfl⟩
    exact ⟨verified, inRange, rfl⟩
  · rintro ⟨verified, inRange, rfl⟩
    exact ⟨(), unsigned, (), verified, _, ⟨inRange, rfl⟩, rfl⟩

end ThresholdSig

/-- A 16-bit counter can be raised so many times. -/
def CounterFits (count added : Nat) : Prop := added = 0 ∨ count + added < 2 ^ 16

instance (count added : Nat) : Decidable (CounterFits count added) :=
  inferInstanceAs (Decidable (added = 0 ∨ count + added < 2 ^ 16))

theorem counterFits_add {count first second : Nat} :
    CounterFits count (first + second) ↔
      CounterFits count first ∧ CounterFits (count + first) second := by
  unfold CounterFits
  omega

theorem countSigned_eq_ok_iff {wasSigned isSigned : Bool} {count next : Nat} :
    BitcoinTx.countSigned wasSigned isSigned count = .ok next ↔
      CounterFits count (!wasSigned && isSigned).toNat ∧
        next = count + (!wasSigned && isSigned).toNat := by
  unfold BitcoinTx.countSigned CounterFits
  cases wasSigned <;> cases isSigned <;> simp [eq_comm (a := next)]

section Traversal

variable (host : Host) (xpub : Xpub)

namespace Input

/-- What becomes of an input that takes its part of a list of signatures. -/
def Signed (input : Input) (used : List Signature) (signed : Input) : Prop :=
  ∃ pubkey, xpub.derivePubkey host input.sigsetIndex = .ok pubkey ∧
    ((input.signatures.needsSig pubkey = false ∧ used = [] ∧ signed = input) ∨
      (input.signatures.needsSig pubkey = true ∧ ∃ sig, used = [sig] ∧
        ThresholdSig.secpVerify host input.signatures.message pubkey sig = .ok () ∧
        signed = { input with signatures := input.signatures.withSig pubkey sig }))

/-- The message of an input, if a signature is missing. -/
def wanted (input : Input) : ContractResult (List (Bytes × Nat)) := do
  let pubkey ← xpub.derivePubkey host input.sigsetIndex
  return if input.signatures.needsSig pubkey then
    [(input.signatures.message, input.sigsetIndex)] else []

/-- A signature of the signatory makes the input fully signed. -/
def completes (input : Input) : Bool :=
  match xpub.derivePubkey host input.sigsetIndex with
  | .ok pubkey => input.signatures.needsSig pubkey && (!input.signatures.signed &&
      decide (input.signatures.threshold <
        input.signatures.signedPower + input.signatures.powerOf pubkey))
  | .error _ => false

/-- A signature of the signatory keeps the voting power of the input in range. -/
def PowerFits (input : Input) : Prop :=
  ∀ pubkey, xpub.derivePubkey host input.sigsetIndex = .ok pubkey →
    input.signatures.needsSig pubkey = true →
      input.signatures.signedPower + input.signatures.powerOf pubkey < 2 ^ 64

end Input

/-- A signature is valid for a message under the key that its index derives. -/
def Answers (sig : Signature) (wanted : Bytes × Nat) : Prop :=
  ∃ pubkey, xpub.derivePubkey host wanted.2 = .ok pubkey ∧
    ThresholdSig.secpVerify host wanted.1 pubkey sig = .ok ()

variable {host xpub}

/-- An input takes the signature that its message asks for. -/
theorem Input.exists_signed_iff (input : Input) (used : List Signature) :
    (∃ signed, input.Signed host xpub used signed) ↔
      ∃ wanted, input.wanted host xpub = .ok wanted ∧
        List.Forall₂ (Answers host xpub) used wanted := by
  simp only [Signed, wanted, Outcome.bind_eq_ok, Outcome.pure_eq_ok]
  constructor
  · rintro ⟨signed, pubkey, derived, ⟨needs, rfl, -⟩ | ⟨needs, sig, rfl, verified, -⟩⟩
    · exact ⟨_, ⟨pubkey, derived, rfl⟩, by simp [needs]⟩
    · exact ⟨_, ⟨pubkey, derived, rfl⟩, by
        simpa [needs] using ⟨pubkey, derived, verified⟩⟩
  · rintro ⟨_, ⟨pubkey, derived, rfl⟩, answered⟩
    cases needs : input.signatures.needsSig pubkey with
    | false =>
        simp only [needs, Bool.false_eq_true, if_false, List.forall₂_nil_right_iff] at answered
        exact ⟨input, pubkey, derived, .inl ⟨needs, answered, rfl⟩⟩
    | true =>
        simp only [needs, if_true, List.forall₂_cons_right_iff, List.forall₂_nil_right_iff]
          at answered
        obtain ⟨sig, _, ⟨pubkey', derived', verified⟩, rfl, rfl⟩ := answered
        obtain rfl := Except.ok.inj (derived.symm.trans derived')
        exact ⟨_, pubkey, derived, .inr ⟨needs, sig, rfl, verified, rfl⟩⟩

namespace Input

variable {input signed : Input} {used : List Signature} {pubkey : Pubkey}
  (derived : xpub.derivePubkey host input.sigsetIndex = .ok pubkey)

include derived

theorem signed_iff_of_not_needsSig (needs : input.signatures.needsSig pubkey = false) :
    input.Signed host xpub used signed ↔ used = [] ∧ signed = input := by
  simp [Signed, derived, needs]

theorem signed_iff_of_needsSig (needs : input.signatures.needsSig pubkey = true) :
    input.Signed host xpub used signed ↔ ∃ sig, used = [sig] ∧
      ThresholdSig.secpVerify host input.signatures.message pubkey sig = .ok () ∧
      signed = { input with signatures := input.signatures.withSig pubkey sig } := by
  simp [Signed, derived, needs]

theorem completes_eq : input.completes host xpub = (input.signatures.needsSig pubkey &&
    (!input.signatures.signed && decide (input.signatures.threshold <
      input.signatures.signedPower + input.signatures.powerOf pubkey))) := by
  rw [completes, derived]

theorem powerFits_iff : input.PowerFits host xpub ↔ (input.signatures.needsSig pubkey = true →
    input.signatures.signedPower + input.signatures.powerOf pubkey < 2 ^ 64) := by
  simp [PowerFits, derived]

end Input

theorem Checkpoint.toSignTx_eq (tx : BitcoinTx) : toSignTx host xpub tx = (do
    let wanted ← tx.input.mapM (Input.wanted host xpub)
    return wanted.flatten) := rfl

namespace BitcoinTx

/-- What becomes of a transaction that takes its part of a list of signatures. -/
def Signed (host : Host) (xpub : Xpub) (tx : BitcoinTx) (used : List Signature)
    (signed : BitcoinTx) : Prop :=
  ∃ input, Consumes (Input.Signed host xpub) tx.input used input ∧
    signed = { tx with
      input
      signedInputs := tx.signedInputs + tx.input.countP (Input.completes host xpub) }

/-- The signatures of the signatory make the transaction fully signed. -/
def completes (host : Host) (xpub : Xpub) (tx : BitcoinTx) : Bool :=
  !tx.signed && decide (tx.signedInputs + tx.input.countP (Input.completes host xpub) =
    tx.input.length)

/-- The signatures of the signatory keep what is counted in range. -/
structure CountersFit (host : Host) (xpub : Xpub) (tx : BitcoinTx) : Prop where
  powers : ∀ input ∈ tx.input, input.PowerFits host xpub
  signedInputs : CounterFits tx.signedInputs (tx.input.countP (Input.completes host xpub))

/-- Signing the inputs of a transaction hands out the signatures from the front. -/
theorem signInputs_eq_ok_iff {missing : ContractError} {inputs signed : List Input}
    {sigs remaining : List Signature} {count newCount : Nat} :
    signInputs host xpub missing inputs sigs count = .ok (signed, remaining, newCount) ↔
      ∃ used, sigs = used ++ remaining ∧ Consumes (Input.Signed host xpub) inputs used signed ∧
        (∀ input ∈ inputs, input.PowerFits host xpub) ∧
        CounterFits count (inputs.countP (Input.completes host xpub)) ∧
        newCount = count + inputs.countP (Input.completes host xpub) := by
  induction inputs generalizing sigs count signed remaining newCount with
  | nil =>
      simp only [signInputs, Except.ok.injEq, Prod.mk.injEq, Consumes.nil_iff]
      constructor
      · rintro ⟨rfl, rfl, rfl⟩
        exact ⟨[], rfl, ⟨rfl, rfl⟩, by simp, .inl rfl, rfl⟩
      · rintro ⟨_, rfl, ⟨rfl, rfl⟩, -, -, rfl⟩
        exact ⟨rfl, rfl, rfl⟩
  | cons input rest ih =>
      cases derived : xpub.derivePubkey host input.sigsetIndex with
      | error fault =>
          simp only [signInputs, derived, Outcome.error_bind, Consumes.cons_iff, Input.Signed]
          simp
      | ok pubkey =>
          simp only [signInputs, derived, Outcome.ok_bind, Consumes.cons_iff, List.forall_mem_cons,
            countP_cons_toNat, Input.powerFits_iff derived, Input.completes_eq derived]
          cases needs : input.signatures.needsSig pubkey with
          | false =>
              simp only [Bool.false_eq_true, if_false, Outcome.bind_eq_ok, Outcome.pure_eq_ok,
                Prod.mk.injEq, Input.signed_iff_of_not_needsSig derived needs, Bool.false_and,
                Bool.toNat_false, Nat.add_zero]
              constructor
              · rintro ⟨⟨others, left, last⟩, signedRest, rfl, rfl, rfl⟩
                obtain ⟨used, rfl, consumes, fits⟩ := ih.mp signedRest
                exact ⟨used, rfl, ⟨[], used, input, others, rfl, rfl, ⟨rfl, rfl⟩, consumes⟩,
                  ⟨nofun, fits.1⟩, fits.2⟩
              · rintro ⟨_, rfl, ⟨_, used, _, others, rfl, rfl, ⟨rfl, rfl⟩, consumes⟩, fits, rest⟩
                exact ⟨(others, remaining, newCount), ih.mpr ⟨used, rfl, consumes, fits.2, rest⟩,
                  rfl, rfl, rfl⟩
          | true =>
              simp only [if_true, Input.signed_iff_of_needsSig derived needs, Bool.true_and]
              cases sigs with
              | nil =>
                  constructor
                  · intro failed
                    simp at failed
                  · rintro ⟨_, appended, ⟨_, _, _, _, rfl, _, ⟨sig, rfl, _⟩, _⟩, _⟩
                    simp at appended
              | cons sig sigs =>
                  simp only [Outcome.bind_eq_ok, ThresholdSig.sign_eq_ok_iff needs,
                    countSigned_eq_ok_iff, Outcome.pure_eq_ok, Prod.mk.injEq,
                    Nat.add_comm (rest.countP _), counterFits_add]
                  constructor
                  · rintro ⟨_, ⟨verified, inRange, rfl⟩, _, ⟨headFits, rfl⟩, ⟨others, left, last⟩,
                      signedRest, rfl, rfl, rfl⟩
                    obtain ⟨used, rfl, consumes, powers, restFits, rfl⟩ := ih.mp signedRest
                    exact ⟨sig :: used, rfl,
                      ⟨[sig], used, _, others, rfl, rfl, ⟨sig, rfl, verified, rfl⟩, consumes⟩,
                      ⟨fun _ => inRange, powers⟩, ⟨headFits, restFits⟩, Nat.add_assoc ..⟩
                  · rintro ⟨_, appended, ⟨_, used, _, others, rfl, rfl, ⟨_, rfl, verified, rfl⟩,
                      consumes⟩, ⟨inRange, powers⟩, ⟨headFits, restFits⟩, rfl⟩
                    obtain ⟨rfl, rfl⟩ := List.cons.inj appended
                    exact ⟨_, ⟨verified, inRange trivial, rfl⟩, _, ⟨headFits, rfl⟩,
                      (others, remaining, _),
                      ih.mpr ⟨used, rfl, consumes, powers, restFits, rfl⟩, rfl, rfl,
                      Nat.add_assoc ..⟩

/-- Signing a transaction hands out the signatures from the front. -/
theorem sign_eq_ok_iff {missing : ContractError} {tx signed : BitcoinTx}
    {sigs remaining : List Signature} :
    tx.sign host xpub missing sigs = .ok (signed, remaining) ↔
      ∃ used, sigs = used ++ remaining ∧ tx.Signed host xpub used signed ∧
        tx.CountersFit host xpub := by
  simp only [sign, Outcome.bind_eq_ok, Outcome.pure_eq_ok, Prod.mk.injEq]
  constructor
  · rintro ⟨⟨input, left, count⟩, signedInputs, rfl, rfl⟩
    obtain ⟨used, rfl, consumes, powers, counter, rfl⟩ := signInputs_eq_ok_iff.mp signedInputs
    exact ⟨used, rfl, ⟨input, consumes, rfl⟩, powers, counter⟩
  · rintro ⟨used, rfl, ⟨input, consumes, rfl⟩, powers, counter⟩
    exact ⟨(input, remaining, _),
      signInputs_eq_ok_iff.mpr ⟨used, rfl, consumes, powers, counter, rfl⟩, rfl, rfl⟩

/-- Whether a transaction becomes signed can be told before it is. -/
theorem Signed.completes_eq {tx signed : BitcoinTx} {used : List Signature}
    (becomes : tx.Signed host xpub used signed) :
    (!tx.signed && signed.signed) = tx.completes host xpub := by
  obtain ⟨input, consumes, rfl⟩ := becomes
  rw [completes, BitcoinTx.signed, BitcoinTx.signed, consumes.length_eq]

theorem exists_signed_iff (tx : BitcoinTx) (used : List Signature) :
    (∃ signed, tx.Signed host xpub used signed) ↔
      ∃ wanted, Checkpoint.toSignTx host xpub tx = .ok wanted ∧
        List.Forall₂ (Answers host xpub) used wanted := by
  rw [Checkpoint.toSignTx_eq, ← Consumes.exists_iff_join
    (fun input _ => Input.exists_signed_iff input)]
  constructor
  · rintro ⟨_, input, consumes, rfl⟩
    exact ⟨input, consumes⟩
  · rintro ⟨input, consumes⟩
    exact ⟨_, input, consumes, rfl⟩

end BitcoinTx

namespace Batch

/-- What becomes of a batch that takes its part of a list of signatures. -/
def Signed (host : Host) (xpub : Xpub) (batch : Batch) (used : List Signature)
    (signed : Batch) : Prop :=
  ∃ txs, Consumes (BitcoinTx.Signed host xpub) batch.batch used txs ∧
    signed = {
      batch := txs
      signedTxs := batch.signedTxs + batch.batch.countP (BitcoinTx.completes host xpub) }

structure CountersFit (host : Host) (xpub : Xpub) (batch : Batch) : Prop where
  txs : ∀ tx ∈ batch.batch, tx.CountersFit host xpub
  signedTxs : CounterFits batch.signedTxs (batch.batch.countP (BitcoinTx.completes host xpub))

/-- The messages of a batch for which a signature is missing. -/
def wanted (host : Host) (xpub : Xpub) (batch : Batch) : ContractResult (List (Bytes × Nat)) := do
  let wanted ← batch.batch.mapM (Checkpoint.toSignTx host xpub)
  return wanted.flatten

theorem exists_signed_iff (batch : Batch) (used : List Signature) :
    (∃ signed, batch.Signed host xpub used signed) ↔
      ∃ wanted, batch.wanted host xpub = .ok wanted ∧
        List.Forall₂ (Answers host xpub) used wanted := by
  rw [wanted, ← Consumes.exists_iff_join
    (fun tx _ => BitcoinTx.exists_signed_iff tx)]
  constructor
  · rintro ⟨_, txs, consumes, rfl⟩
    exact ⟨txs, consumes⟩
  · rintro ⟨txs, consumes⟩
    exact ⟨_, txs, consumes, rfl⟩

end Batch

namespace Checkpoint

theorem signTxs_eq_ok_iff {txs signed : List BitcoinTx} {sigs remaining : List Signature}
    {count newCount : Nat} :
    signTxs host xpub txs sigs count = .ok (signed, remaining, newCount) ↔
      ∃ used, sigs = used ++ remaining ∧ Consumes (BitcoinTx.Signed host xpub) txs used signed ∧
        (∀ tx ∈ txs, tx.CountersFit host xpub) ∧
        CounterFits count (txs.countP (BitcoinTx.completes host xpub)) ∧
        newCount = count + txs.countP (BitcoinTx.completes host xpub) := by
  induction txs generalizing sigs count signed remaining newCount with
  | nil =>
      simp only [signTxs, Except.ok.injEq, Prod.mk.injEq, Consumes.nil_iff]
      constructor
      · rintro ⟨rfl, rfl, rfl⟩
        exact ⟨[], rfl, ⟨rfl, rfl⟩, by simp, .inl rfl, rfl⟩
      · rintro ⟨_, rfl, ⟨rfl, rfl⟩, -, -, rfl⟩
        exact ⟨rfl, rfl, rfl⟩
  | cons tx rest ih =>
      simp only [signTxs, Outcome.bind_eq_ok, BitcoinTx.sign_eq_ok_iff, countSigned_eq_ok_iff,
        Outcome.pure_eq_ok, Prod.mk.injEq, Prod.exists, Consumes.cons_iff, List.forall_mem_cons,
        countP_cons_toNat, Nat.add_comm (rest.countP _), counterFits_add]
      constructor
      · rintro ⟨signedTx, left, ⟨used, rfl, becomes, fits⟩, _, ⟨headFits, rfl⟩,
          others, last, lastCount, signedRest, rfl, rfl, rfl⟩
        obtain ⟨usedRest, rfl, consumes, restFit, counter, rfl⟩ := ih.mp signedRest
        rw [becomes.completes_eq] at headFits counter ⊢
        exact ⟨used ++ usedRest, (List.append_assoc ..).symm,
          ⟨used, usedRest, signedTx, others, rfl, rfl, becomes, consumes⟩, ⟨fits, restFit⟩,
          ⟨headFits, counter⟩, Nat.add_assoc ..⟩
      · rintro ⟨_, rfl, ⟨used, usedRest, signedTx, others, rfl, rfl, becomes, consumes⟩,
          ⟨fits, restFit⟩, ⟨headFits, counter⟩, rfl⟩
        rw [← becomes.completes_eq] at headFits counter ⊢
        exact ⟨signedTx, usedRest ++ remaining, ⟨used, List.append_assoc .., becomes, fits⟩, _,
          ⟨headFits, rfl⟩, others, remaining, _,
          ih.mpr ⟨usedRest, rfl, consumes, restFit, counter, rfl⟩, rfl, rfl, Nat.add_assoc ..⟩

/-- The batches up to the first one that is not fully signed. -/
def readyBatches : List Batch → List Batch
  | [] => []
  | batch :: rest => if batch.signed then batch :: readyBatches rest else [batch]

theorem readyBatches_singleton (batch : Batch) : readyBatches [batch] = [batch] := by
  unfold readyBatches
  split <;> rfl

theorem signBatches_eq_ok_iff {batches signed : List Batch} {sigs remaining : List Signature} :
    signBatches host xpub batches sigs = .ok (signed, remaining) ↔
      ∃ used ready, sigs = used ++ remaining ∧
        Consumes (Batch.Signed host xpub) (readyBatches batches) used ready ∧
        (∀ batch ∈ readyBatches batches, batch.CountersFit host xpub) ∧
        signed = ready ++ batches.drop (readyBatches batches).length := by
  have headIff (batch : Batch) (sigs left : List Signature) (txs : List BitcoinTx) (count : Nat) :
      signTxs host xpub batch.batch sigs batch.signedTxs = .ok (txs, left, count) ↔
        ∃ used, sigs = used ++ left ∧
          batch.Signed host xpub used { signedTxs := count, batch := txs } ∧
          batch.CountersFit host xpub := by
    rw [signTxs_eq_ok_iff]
    constructor
    · rintro ⟨used, rfl, consumes, fits, counter, rfl⟩
      exact ⟨used, rfl, ⟨txs, consumes, rfl⟩, fits, counter⟩
    · rintro ⟨used, rfl, ⟨_, consumes, same⟩, fits, counter⟩
      obtain ⟨rfl, rfl⟩ := Batch.mk.inj same
      exact ⟨used, rfl, consumes, fits, counter, rfl⟩
  induction batches generalizing sigs signed with
  | nil =>
      simp only [signBatches, readyBatches, Except.ok.injEq, Prod.mk.injEq, Consumes.nil_iff]
      constructor
      · rintro ⟨rfl, rfl⟩
        exact ⟨[], [], rfl, ⟨rfl, rfl⟩, by simp, rfl⟩
      · rintro ⟨_, _, rfl, ⟨rfl, rfl⟩, -, rfl⟩
        exact ⟨rfl, rfl⟩
  | cons batch rest ih =>
      simp only [signBatches, Outcome.bind_eq_ok, Prod.exists, headIff]
      cases isSigned : batch.signed with
      | true =>
          simp only [readyBatches, isSigned, if_true, Outcome.bind_eq_ok, Prod.exists,
            Outcome.pure_eq_ok, Prod.mk.injEq, Consumes.cons_iff, List.forall_mem_cons,
            List.length_cons, List.drop_succ_cons]
          constructor
          · rintro ⟨txs, left, count, ⟨used, rfl, becomes, fits⟩, others, last, signedRest, rfl,
              rfl⟩
            obtain ⟨usedRest, ready, rfl, consumes, restFit, rfl⟩ := ih.mp signedRest
            exact ⟨used ++ usedRest, _ :: ready, (List.append_assoc ..).symm,
              ⟨used, usedRest, _, ready, rfl, rfl, becomes, consumes⟩, ⟨fits, restFit⟩, rfl⟩
          · rintro ⟨_, _, rfl, ⟨used, usedRest, ⟨count, txs⟩, ready, rfl, rfl, becomes, consumes⟩,
              ⟨fits, restFit⟩, rfl⟩
            exact ⟨txs, usedRest ++ remaining, count,
              ⟨used, List.append_assoc .., becomes, fits⟩, _, remaining,
              ih.mpr ⟨usedRest, ready, rfl, consumes, restFit, rfl⟩, rfl, rfl⟩
      | false =>
          simp only [readyBatches, isSigned, Bool.false_eq_true, if_false, Outcome.pure_eq_ok,
            Prod.mk.injEq, Consumes.cons_iff, Consumes.nil_iff, List.forall_mem_singleton,
            List.length_singleton, List.drop_succ_cons, List.drop_zero]
          constructor
          · rintro ⟨txs, left, count, ⟨used, rfl, becomes, fits⟩, rfl, rfl⟩
            exact ⟨used, [_], rfl, ⟨used, [], _, [], (List.append_nil used).symm, rfl, becomes, rfl,
              rfl⟩, fits, rfl⟩
          · rintro ⟨_, _, rfl, ⟨used, _, ⟨count, txs⟩, _, rfl, rfl, becomes, rfl, rfl⟩, fits, rfl⟩
            exact ⟨txs, remaining, count, ⟨used, by rw [List.append_nil], becomes, fits⟩, rfl, rfl⟩

theorem toSignBatches_eq (batches : List Batch) : toSignBatches host xpub batches = (do
    let wanted ← (readyBatches batches).mapM (Batch.wanted host xpub)
    return wanted.flatten) := by
  induction batches with
  | nil => rfl
  | cons batch rest ih =>
      rw [toSignBatches]
      cases isSigned : batch.signed with
      | true => simp [readyBatches, isSigned, Batch.wanted, ih]
      | false => simp [readyBatches, isSigned, Batch.wanted]

variable (host xpub) in
/-- The signatures answer the messages that the signatory is asked to sign, one
by one. -/
def Answered (checkpoint : Checkpoint) (sigs : List Signature) : Prop :=
  ∃ wanted, checkpoint.toSign host xpub = .ok wanted ∧
    List.Forall₂ (Answers host xpub) sigs wanted

variable (host xpub) in
/-- Every input that is asked for a signature takes the next one, and nothing
else of the transactions changes but the counters. -/
def Gains (checkpoint : Checkpoint) (sigs : List Signature) (signed : Checkpoint) : Prop :=
  ∃ ready, Consumes (Batch.Signed host xpub) (readyBatches checkpoint.batches) sigs ready ∧
    signed = { checkpoint with
      batches := ready ++ checkpoint.batches.drop (readyBatches checkpoint.batches).length
      signedAtBtcHeight := signed.signedAtBtcHeight }

variable (host xpub) in
/-- No counter overflows when the signatory signs. -/
def CountersFit (checkpoint : Checkpoint) : Prop :=
  ∀ batch ∈ readyBatches checkpoint.batches, batch.CountersFit host xpub

variable {checkpoint signed : Checkpoint} {sigs : List Signature} {btcHeight : Nat}

theorem answered_iff : checkpoint.Answered host xpub sigs ↔
    ∃ ready, Consumes (Batch.Signed host xpub) (readyBatches checkpoint.batches) sigs ready := by
  rw [Answered, toSign, toSignBatches_eq, ← Consumes.exists_iff_join
    (fun batch _ => Batch.exists_signed_iff batch)]

theorem sign_eq_ok_iff : checkpoint.sign host xpub sigs btcHeight = .ok signed ↔
    ∃ batches, signBatches host xpub checkpoint.batches sigs = .ok (batches, []) ∧
      signed = { checkpoint with
        batches
        signedAtBtcHeight :=
          if Checkpoint.signed { checkpoint with batches } ∧ checkpoint.signed = false then
            some btcHeight
          else checkpoint.signedAtBtcHeight } := by
  simp only [sign, Outcome.bind_eq_ok, Outcome.require_eq_ok, Prod.exists]
  constructor
  · rintro ⟨batches, remaining, signedBatches, -, rfl, result⟩
    refine ⟨batches, signedBatches, ?_⟩
    split at result <;> rw [← Outcome.pure_eq_ok.mp result]
    · rw [if_pos ‹_›]
    · rw [if_neg ‹_›]
  · rintro ⟨batches, signedBatches, rfl⟩
    refine ⟨batches, [], signedBatches, (), rfl, ?_⟩
    split <;> rfl

/-- A successful signature is what was asked for, and the counters fit. -/
theorem exists_sign_iff : (∃ signed, checkpoint.sign host xpub sigs btcHeight = .ok signed) ↔
    checkpoint.Answered host xpub sigs ∧ checkpoint.CountersFit host xpub := by
  simp only [sign_eq_ok_iff, signBatches_eq_ok_iff, List.append_nil, answered_iff]
  constructor
  · rintro ⟨_, batches, ⟨_, ready, rfl, consumes, fit, -⟩, -⟩
    exact ⟨⟨ready, consumes⟩, fit⟩
  · rintro ⟨⟨ready, consumes⟩, fit⟩
    exact ⟨_, _, ⟨sigs, ready, rfl, consumes, fit, rfl⟩, rfl⟩

theorem gains_of_sign (signedOk : checkpoint.sign host xpub sigs btcHeight = .ok signed) :
    checkpoint.Gains host xpub sigs signed := by
  obtain ⟨batches, signedBatches, rfl⟩ := sign_eq_ok_iff.mp signedOk
  obtain ⟨_, ready, rfl, consumes, -, rfl⟩ := signBatches_eq_ok_iff.mp signedBatches
  rw [List.append_nil]
  exact ⟨ready, consumes, rfl⟩

end Checkpoint

end Traversal

/-- A list of signatures is accepted exactly when it answers what the signatory
is asked to sign, and it is handed out accordingly, if and only if no counter
overflows under such a list. -/
theorem Checkpoint.sign_accepts_iff (host : Host) (xpub : Xpub) (checkpoint : Checkpoint)
    (sigs : List Signature) (btcHeight : Nat) :
    (((∃ signed, checkpoint.sign host xpub sigs btcHeight = .ok signed) ↔
        checkpoint.Answered host xpub sigs) ∧
      ∀ signed, checkpoint.sign host xpub sigs btcHeight = .ok signed →
        checkpoint.Gains host xpub sigs signed) ↔
      (checkpoint.Answered host xpub sigs → checkpoint.CountersFit host xpub) := by
  rw [exists_sign_iff]
  constructor
  · rintro ⟨accepts, -⟩ answered
    exact (accepts.mpr answered).2
  · intro fit
    exact ⟨⟨And.left, fun answered => ⟨answered, fit answered⟩⟩, fun signed => gains_of_sign⟩

namespace Sample

/-- An input with one signer. -/
def soleInput : Input where
  prevout := ⟨[], 0⟩
  scriptPubkey := []
  redeemScript := []
  sigsetIndex := 0
  dest := []
  amount := 1000
  estWitnessVsize := 0
  signatures := {
    threshold := 66
    signedPower := 0
    message := List.replicate 32 0
    len := 1
    sigs := [(pubkey 1, ⟨100, none⟩)] }

/-- A frozen checkpoint with so many inputs. -/
def wideCheckpoint (count : Nat) : Checkpoint :=
  { Checkpoint.new firstSigset with
    status := .signing
    batches := [{
      signedTxs := 0
      batch := [{ BitcoinTx.default with input := List.replicate count soleInput }] }] }

end Sample

/-- With more inputs than the counter of signed inputs can count, the signatures
that were asked for are rejected. -/
theorem Checkpoint.answered_not_signed :
    (Sample.wideCheckpoint 65536).Answered Sample.host (Sample.xpub 1)
        (List.replicate 65536 ⟨(Sample.pubkey 1).bytes⟩) ∧
      ¬ ∃ signed, (Sample.wideCheckpoint 65536).sign Sample.host (Sample.xpub 1)
        (List.replicate 65536 ⟨(Sample.pubkey 1).bytes⟩) 7 = .ok signed := by
  have becomes : Sample.soleInput.Signed Sample.host (Sample.xpub 1)
      [⟨(Sample.pubkey 1).bytes⟩] { Sample.soleInput with
        signatures := Sample.soleInput.signatures.withSig (Sample.pubkey 1)
          ⟨(Sample.pubkey 1).bytes⟩ } :=
    ⟨Sample.pubkey 1, by decide, .inr ⟨by decide, _, rfl, by decide, rfl⟩⟩
  have ready : readyBatches (Sample.wideCheckpoint 65536).batches =
      (Sample.wideCheckpoint 65536).batches := readyBatches_singleton _
  constructor
  · rw [answered_iff, ready]
    have inputs := Consumes.replicate becomes 65536
    exact ⟨_, Consumes.cons_iff.mpr ⟨_, [], _, [], (List.append_nil _).symm, rfl,
      ⟨_, Consumes.cons_iff.mpr ⟨_, [], _, [], (List.append_nil _).symm, rfl, ⟨_, inputs, rfl⟩,
        .nil⟩, rfl⟩, .nil⟩⟩
  · rw [exists_sign_iff]
    rintro ⟨-, fit⟩
    rw [CountersFit, ready] at fit
    have counter := ((fit _ (List.mem_singleton_self _)).txs _
      (List.mem_singleton_self _)).signedInputs
    rw [List.countP_replicate, if_pos (by decide)] at counter
    exact absurd counter (by decide)

end CwBitcoin
