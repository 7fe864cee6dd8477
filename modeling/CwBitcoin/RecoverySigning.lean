import CwBitcoin.Library.CallMachine
import CwBitcoin.RecoveryOutput
import CwBitcoin.ToSign

/-!
# Signing recovery transactions

A list of signatures is handed out over all recovery transactions at once.  It is
accepted when it answers what `toSign` lists, and a transaction is reported as
signed when the voting power behind each of its inputs exceeds the threshold.
-/

namespace CwBitcoin

/-- A signature that verifies has a DER form. -/
def Host.VerifiedHaveDer (host : Host) : Prop :=
  ∀ message sig pubkey, host.secp256k1Verify message sig pubkey = .ok true →
    ∃ der, host.compactToDer sig = .ok der

namespace ThresholdSig

variable {host : Host} {ts : ThresholdSig} {pubkey : Pubkey}

/-- The voting power of all shares, signed or not. -/
def totalPower (ts : ThresholdSig) : Nat := (ts.sigs.map fun entry => entry.2.power).sum

theorem totalPower_congr {other : ThresholdSig}
    (same : other.sigs.map shareKey = ts.sigs.map shareKey) :
    other.totalPower = ts.totalPower := by
  have viaKeys (sigs : List (Pubkey × Share)) :
      sigs.map (fun entry => entry.2.power) = (sigs.map shareKey).map Prod.snd := by
    rw [List.map_map]
    rfl
  rw [totalPower, totalPower, viaKeys, viaKeys, same]

theorem signedSum_le_totalPower : signedSum id ts.sigs ≤ ts.totalPower := by
  apply List.sum_le_sum
  intro entry _
  split
  · exact le_refl _
  · exact Nat.zero_le _

/-- A missing signature does not take the signed voting power beyond the total. -/
theorem signedSum_add_powerOf_le (needs : ts.needsSig pubkey = true) :
    signedSum id ts.sigs + ts.powerOf pubkey ≤ ts.totalPower := by
  obtain ⟨share, found, unsigned, power⟩ := exists_share_of_needsSig needs
  have added : signedSum id (putSig pubkey ⟨[]⟩ ts.sigs) = signedSum id ts.sigs + share.power :=
    signedSum_putSig id found unsigned
  have atMost : signedSum id (ts.withSig pubkey ⟨[]⟩).sigs ≤
      (ts.withSig pubkey ⟨[]⟩).totalPower := signedSum_le_totalPower
  rw [totalPower_congr map_shareKey_putSig] at atMost
  rw [power]
  exact added.symm.trans_le atMost

theorem totalPower_lt_of_fromSigset {sigset : SignatorySet} (started : fromSigset sigset = .ok ts) :
    ts.totalPower < 2 ^ 64 := by
  obtain ⟨inRange, rfl⟩ := ofShares_eq_ok started
  exact inRange

/-- When all signatures verify, the witness can be made. -/
theorem exists_toWitness (convert : host.VerifiedHaveDer) {message : Bytes}
    (verified : ∀ entry ∈ ts.sigs, ∀ sig, entry.2.sig = some sig →
      host.secp256k1Verify message sig.bytes entry.1.bytes = .ok true) :
    ∃ witness, ts.toWitness host = .ok witness := by
  unfold toWitness
  split
  · apply Outcome.exists_mapM_eq_ok.mpr
    intro entry member
    have isShare : entry ∈ ts.sigs := (List.perm_insertionSort _ _).mem_iff.mp member
    unfold witnessElement
    cases signature : entry.2.sig with
    | none => exact ⟨[], rfl⟩
    | some sig =>
        obtain ⟨der, converted⟩ := convert _ _ _ (verified entry isShare sig signature)
        exact ⟨der ++ [0x01], by simp only [converted]; rfl⟩
  · exact ⟨[], rfl⟩

end ThresholdSig

/-- A transaction whose signing state is exact has a Bitcoin form. -/
theorem BitcoinTx.Exact.exists_toBitcoinTx {host : Host} {tx : BitcoinTx}
    (convert : host.VerifiedHaveDer) (exact : tx.Exact host) :
    ∃ bitcoinTx, tx.toBitcoinTx host = .ok bitcoinTx := by
  apply BitcoinTx.exists_toBitcoinTx
  intro input member
  obtain ⟨index, found⟩ := List.getElem?_of_mem member
  obtain ⟨witness, made⟩ := ThresholdSig.exists_toWitness convert
    (exact.inputs index input found).verified
  exact ⟨_, by rw [Input.toTxin, made]; rfl⟩

theorem Input.Step.totalPower_eq {host : Host} {input next : Input} (step : input.Step host next) :
    next.signatures.totalPower = input.signatures.totalPower := by
  cases step with
  | skipped => rfl
  | added added =>
      obtain ⟨share, -, -, -, rfl⟩ := ThresholdSig.sign_eq_ok added
      exact ThresholdSig.totalPower_congr ThresholdSig.map_shareKey_putSig

namespace RecoveryTx

/-- Every input has more than its threshold of voting power signed. -/
def PowerSigned (recoveryTx : RecoveryTx) : Prop :=
  ∀ input ∈ recoveryTx.tx.input,
    input.signatures.threshold < ThresholdSig.signedSum id input.signatures.sigs

instance (recoveryTx : RecoveryTx) : Decidable recoveryTx.PowerSigned :=
  inferInstanceAs (Decidable (∀ input ∈ recoveryTx.tx.input, _))

/-- What holds of every stored recovery transaction. -/
structure Sound (host : Host) (recoveryTx : RecoveryTx) : Prop where
  exact : recoveryTx.tx.Exact host
  single : recoveryTx.tx.input.length = 1
  inRange : ∀ input ∈ recoveryTx.tx.input, input.signatures.totalPower < 2 ^ 64

variable {host : Host} {xpub : Xpub} {recoveryTx after : RecoveryTx}

/-- What becomes of a recovery transaction that takes its part of a list of
signatures. -/
def Signed (host : Host) (xpub : Xpub) (recoveryTx : RecoveryTx) (used : List Signature)
    (signed : RecoveryTx) : Prop :=
  ∃ tx, recoveryTx.tx.Signed host xpub used tx ∧ signed = { recoveryTx with tx }

theorem exists_signed_iff (recoveryTx : RecoveryTx) (used : List Signature) :
    (∃ signed, recoveryTx.Signed host xpub used signed) ↔
      ∃ wanted, Checkpoint.toSignTx host xpub recoveryTx.tx = .ok wanted ∧
        List.Forall₂ (Answers host xpub) used wanted := by
  rw [← BitcoinTx.exists_signed_iff]
  constructor
  · rintro ⟨_, tx, becomes, rfl⟩
    exact ⟨tx, becomes⟩
  · rintro ⟨tx, becomes⟩
    exact ⟨_, tx, becomes, rfl⟩

theorem Sound.signedPower_eq (sound : recoveryTx.Sound host) {input : Input}
    (member : input ∈ recoveryTx.tx.input) :
    input.signatures.signedPower = ThresholdSig.signedSum id input.signatures.sigs := by
  obtain ⟨index, found⟩ := List.getElem?_of_mem member
  exact (sound.exact.inputs index input found).signedPower_eq

/-- Neither the voting power nor the counter of a stored transaction overflows. -/
theorem Sound.countersFit (sound : recoveryTx.Sound host) :
    recoveryTx.tx.CountersFit host xpub := by
  constructor
  · intro input member pubkey _ needs
    have atMost := ThresholdSig.signedSum_add_powerOf_le needs
    rw [sound.signedPower_eq member]
    exact atMost.trans_lt (sound.inRange input member)
  · have counted := sound.exact.signedInputs_eq
    have signedLe := List.countP_le_length
      (p := fun input : Input => input.signatures.signed) (l := recoveryTx.tx.input)
    have completesLe := List.countP_le_length (p := Input.completes host xpub)
      (l := recoveryTx.tx.input)
    have single := sound.single
    unfold CounterFits
    omega

theorem Sound.signed (sound : recoveryTx.Sound host) {used : List Signature}
    (becomes : recoveryTx.Signed host xpub used after) : after.Sound host := by
  obtain ⟨tx, becomes, rfl⟩ := becomes
  have signedOk : recoveryTx.tx.sign host xpub RecoveryTxs.notEnough used = .ok (tx, []) :=
    BitcoinTx.sign_eq_ok_iff.mpr ⟨used, (List.append_nil used).symm, becomes, sound.countersFit⟩
  have exact := (sound.exact.sign signedOk).1
  simp only [BitcoinTx.sign, Outcome.bind_eq_ok, Outcome.pure_eq_ok, Prod.mk.injEq] at signedOk
  obtain ⟨⟨inputs, left, count⟩, signedInputs, rfl, -⟩ := signedOk
  have steps := (BitcoinTx.signInputs_counted signedInputs).1
  refine ⟨exact, steps.length_eq.symm.trans sound.single, ?_⟩
  intro input member
  obtain ⟨index, inBounds, rfl⟩ := List.getElem_of_mem member
  have oldInBounds : index < recoveryTx.tx.input.length := steps.length_eq ▸ inBounds
  have step : (recoveryTx.tx.input.get ⟨index, oldInBounds⟩).Step host
      (inputs.get ⟨index, inBounds⟩) := steps.get oldInBounds inBounds
  exact step.totalPower_eq.trans_lt (sound.inRange _ (List.getElem_mem oldInBounds))

/-- The counter of a stored transaction tells whether it is fully signed. -/
theorem Sound.signed_iff (sound : recoveryTx.Sound host) :
    recoveryTx.tx.signed = true ↔ recoveryTx.PowerSigned := by
  rw [sound.exact.signed_iff]
  apply forall₂_congr
  intro input member
  rw [ThresholdSig.signed, decide_eq_true_eq, sound.signedPower_eq member]

theorem Sound.exists_toBitcoinTx (convert : host.VerifiedHaveDer) (sound : recoveryTx.Sound host) :
    ∃ tx, recoveryTx.tx.toBitcoinTx host = .ok tx :=
  sound.exact.exists_toBitcoinTx convert

end RecoveryTx

namespace RecoveryTxs

variable {host : Host} {xpub : Xpub} {recoveryTxs after : List RecoveryTx} {sigs : List Signature}

variable (host) in
/-- The signatures answer the messages that the signatory is asked to sign, one
by one. -/
def Answered (recoveryTxs : List RecoveryTx) (xpub : Xpub) (sigs : List Signature) : Prop :=
  ∃ wanted, toSign host recoveryTxs xpub = .ok wanted ∧
    List.Forall₂ (Answers host xpub) sigs wanted

theorem answered_iff : Answered host recoveryTxs xpub sigs ↔
    ∃ after, Consumes (RecoveryTx.Signed host xpub) recoveryTxs sigs after := by
  rw [Answered, toSign, ← Consumes.exists_iff_join
    (fun recoveryTx _ => RecoveryTx.exists_signed_iff recoveryTx)]

theorem signEach_eq_ok_iff {remaining : List Signature} :
    signEach host xpub recoveryTxs sigs = .ok (after, remaining) ↔
      ∃ used, sigs = used ++ remaining ∧
        Consumes (RecoveryTx.Signed host xpub) recoveryTxs used after ∧
        ∀ recoveryTx ∈ recoveryTxs, recoveryTx.tx.CountersFit host xpub := by
  induction recoveryTxs generalizing sigs after remaining with
  | nil =>
      simp only [signEach, Except.ok.injEq, Prod.mk.injEq, Consumes.nil_iff]
      constructor
      · rintro ⟨rfl, rfl⟩
        exact ⟨[], rfl, ⟨rfl, rfl⟩, nofun⟩
      · rintro ⟨_, rfl, ⟨rfl, rfl⟩, -⟩
        exact ⟨rfl, rfl⟩
  | cons recoveryTx rest ih =>
      simp only [signEach, Outcome.bind_eq_ok, BitcoinTx.sign_eq_ok_iff, Outcome.pure_eq_ok,
        Prod.mk.injEq, Prod.exists, Consumes.cons_iff, List.forall_mem_cons]
      constructor
      · rintro ⟨tx, left, ⟨used, rfl, becomes, fits⟩, others, last, signedRest, rfl, rfl⟩
        obtain ⟨usedRest, rfl, consumes, restFit⟩ := ih.mp signedRest
        exact ⟨used ++ usedRest, (List.append_assoc ..).symm,
          ⟨used, usedRest, _, others, rfl, rfl, ⟨tx, becomes, rfl⟩, consumes⟩, fits, restFit⟩
      · rintro ⟨_, rfl, ⟨used, usedRest, _, others, rfl, rfl, ⟨tx, becomes, rfl⟩, consumes⟩, fits,
          restFit⟩
        exact ⟨tx, usedRest ++ remaining, ⟨used, List.append_assoc .., becomes, fits⟩, others,
          remaining, ih.mpr ⟨usedRest, rfl, consumes, restFit⟩, rfl, rfl⟩

theorem sign_eq_ok_iff : sign host recoveryTxs xpub sigs = .ok after ↔
    sigs ≠ [] ∧ Consumes (RecoveryTx.Signed host xpub) recoveryTxs sigs after ∧
      ∀ recoveryTx ∈ recoveryTxs, recoveryTx.tx.CountersFit host xpub := by
  simp only [sign, Outcome.bind_eq_ok, Outcome.require_eq_ok, Outcome.pure_eq_ok, Prod.exists,
    signEach_eq_ok_iff]
  constructor
  · rintro ⟨_, supplied, _, _, ⟨used, rfl, consumes, fit⟩, _, rfl, rfl⟩
    rw [List.append_nil] at supplied ⊢
    exact ⟨supplied, consumes, fit⟩
  · rintro ⟨supplied, consumes, fit⟩
    exact ⟨(), supplied, after, [], ⟨sigs, (List.append_nil sigs).symm, consumes, fit⟩, (), rfl,
      rfl⟩

/-- A created transaction has an unsigned input with the message of its own. -/
theorem Created.sound {args : RecoveryTxInput} {recoveryTx : RecoveryTx}
    (created : Created host args recoveryTx) : recoveryTx.Sound host := by
  obtain ⟨-, -, -, -, started⟩ := Input.new_eq_ok created.input_eq
  have unsigned := ThresholdSig.unsigned_fromSigset started
  have inputs : recoveryTx.tx.input =
      [{ created.input with signatures := created.input.signatures.setMessage created.message }] := by
    rw [created.tx_eq]
    rfl
  refine ⟨⟨?_, ?_⟩, ?_, ?_⟩
  · intro index input found
    rw [inputs, List.getElem?_singleton] at found
    split at found
    · rename_i isFirst
      obtain rfl := Option.some.inj found
      rw [isFirst]
      refine ⟨created.message_eq, ?_, ?_⟩
      · exact unsigned.1.trans (unsigned.signedSum_eq id).symm
      · intro entry member sig signature
        rw [unsigned.2 entry member] at signature
        cases signature
    · cases found
  · have count : recoveryTx.tx.signedInputs = 0 := by
      rw [created.tx_eq]
      rfl
    have notSigned : (created.input.signatures.setMessage created.message).signed = false :=
      unsigned.not_signed
    rw [inputs, count, List.countP_singleton, notSigned]
    rfl
  · rw [inputs]
    rfl
  · intro input member
    rw [inputs] at member
    obtain rfl := List.mem_singleton.mp member
    have inRange := ThresholdSig.totalPower_lt_of_fromSigset started
    exact inRange

/-- What the signatories and the relayers do with the recovery transactions. -/
inductive Call where
  | create (args : RecoveryTxInput)
  | sign (xpub : Xpub) (sigs : List Signature)

def call (host : Host) (recoveryTxs : List RecoveryTx) : Call → ContractResult (List RecoveryTx)
  | .create args => createRecoveryTx host recoveryTxs args
  | .sign xpub sigs => sign host recoveryTxs xpub sigs

/-- The stored recovery transactions under these calls. -/
def machine (host : Host) : CallMachine (List RecoveryTx) Call ContractError where
  call := call host

theorem sound_call {made : Call} (sound : ∀ recoveryTx ∈ recoveryTxs, recoveryTx.Sound host)
    (called : call host recoveryTxs made = .ok after) :
    ∀ recoveryTx ∈ after, recoveryTx.Sound host := by
  cases made with
  | create args =>
      obtain ⟨recoveryTx, rfl, ⟨created⟩⟩ := createRecoveryTx_eq_ok called
      rw [List.forall_mem_append, List.forall_mem_singleton]
      exact ⟨sound, created.sound⟩
  | sign xpub sigs =>
      obtain ⟨-, consumes, -⟩ := sign_eq_ok_iff.mp called
      intro signedTx member
      obtain ⟨recoveryTx, stored, used, becomes⟩ := consumes.exists_of_mem member
      exact (sound recoveryTx stored).signed becomes

theorem run_sound (host : Host) (calls : List Call) :
    ∀ recoveryTx ∈ (machine host).run [] calls, recoveryTx.Sound host := by
  apply CallMachine.run_invariant_all
    (fun recoveryTxs : List RecoveryTx => ∀ recoveryTx ∈ recoveryTxs, recoveryTx.Sound host)
  · intro recoveryTxs made after sound called
    exact sound_call sound called
  · intro recoveryTx member
    cases member

end RecoveryTxs

/-- The report of a recovery transaction that is signed. -/
structure SignedRecoveryTx.Reports (host : Host) (recoveryTx : RecoveryTx)
    (signedTx : SignedRecoveryTx) : Prop where
  tx_eq : recoveryTx.tx.toBitcoinTx host = .ok signedTx.tx
  sigsetIndex_eq : signedTx.sigsetIndex = recoveryTx.newSigsetIndex
  dest_eq : signedTx.dest = recoveryTx.dest

namespace RecoveryTxs

variable {host : Host} {recoveryTxs : List RecoveryTx}

/-- The report can be made, and covers the transactions that are signed by more
than the threshold. -/
theorem signed_reports (convert : host.VerifiedHaveDer)
    (sound : ∀ recoveryTx ∈ recoveryTxs, recoveryTx.Sound host) :
    ∃ signedTxs, signed host recoveryTxs = .ok signedTxs ∧
      List.Forall₂ (SignedRecoveryTx.Reports host)
        (recoveryTxs.filter fun recoveryTx => recoveryTx.PowerSigned) signedTxs := by
  have sameFilter : (recoveryTxs.filter fun recoveryTx => recoveryTx.tx.signed) =
      recoveryTxs.filter fun recoveryTx => recoveryTx.PowerSigned := by
    apply List.filter_congr
    intro recoveryTx member
    rw [Bool.eq_iff_iff, decide_eq_true_eq]
    exact (sound recoveryTx member).signed_iff
  rw [signed, sameFilter]
  have reported : ∀ recoveryTx ∈ recoveryTxs.filter fun recoveryTx => recoveryTx.PowerSigned,
      ∃ signedTx, (do
        let tx ← recoveryTx.tx.toBitcoinTx host
        return ({ tx, sigsetIndex := recoveryTx.newSigsetIndex, dest := recoveryTx.dest } :
          SignedRecoveryTx)) = (.ok signedTx : ContractResult _) := by
    intro recoveryTx member
    obtain ⟨tx, converted⟩ :=
      (sound recoveryTx (List.mem_of_mem_filter member)).exists_toBitcoinTx convert
    exact ⟨_, by rw [converted]; rfl⟩
  obtain ⟨signedTxs, mapped⟩ := Outcome.exists_mapM_eq_ok.mpr reported
  refine ⟨signedTxs, mapped, (Outcome.mapM_eq_ok.mp mapped).imp ?_⟩
  intro recoveryTx signedTx report
  simp only [Outcome.bind_eq_ok, Outcome.pure_eq_ok] at report
  obtain ⟨tx, converted, rfl⟩ := report
  exact ⟨converted, rfl, rfl⟩

/-- After every run, a list of signatures is accepted exactly when it answers
what the signatory is asked to sign, and the report covers exactly the
transactions whose inputs all have more than their threshold of voting power
signed. -/
theorem run_signing_agrees (host : Host) (convert : host.VerifiedHaveDer) (calls : List Call) :
    let recoveryTxs := (machine host).run [] calls
    (∀ xpub sigs, sigs ≠ [] → ((∃ after, sign host recoveryTxs xpub sigs = .ok after) ↔
      Answered host recoveryTxs xpub sigs)) ∧
    ∃ signedTxs, signed host recoveryTxs = .ok signedTxs ∧
      List.Forall₂ (SignedRecoveryTx.Reports host)
        (recoveryTxs.filter fun recoveryTx => recoveryTx.PowerSigned) signedTxs := by
  intro recoveryTxs
  have sound := run_sound host calls
  refine ⟨?_, signed_reports convert sound⟩
  intro xpub sigs supplied
  simp only [sign_eq_ok_iff, answered_iff]
  constructor
  · rintro ⟨after, -, consumes, -⟩
    exact ⟨after, consumes⟩
  · rintro ⟨after, consumes⟩
    exact ⟨after, supplied, consumes, fun recoveryTx member => (sound recoveryTx member).countersFit⟩

end RecoveryTxs

namespace Sample

/-- A recovery transaction is created for the sample deposit, and signed. -/
def recoveryCalls : List RecoveryTxs.Call := [
  .create {
    expiredTx := depositTx
    vout := 0
    oldSigset := firstSigset
    newSigset := firstSigset
    threshold := SIGSET_THRESHOLD
    feeRate := DEFAULT_FEE_RATE
    dest := .address "a" },
  .sign (xpub 1) [⟨(pubkey 1).bytes⟩]]

end Sample

theorem RecoveryTxs.run_signing_agrees_signed :
    ∃ signedTx, signed Sample.host ((machine Sample.host).run [] Sample.recoveryCalls) =
      .ok [signedTx] := by
  obtain ⟨-, signedTxs, reported, reports⟩ := run_signing_agrees Sample.host
    (fun _ sig _ _ => ⟨sig, rfl⟩) Sample.recoveryCalls
  have one : (((machine Sample.host).run [] Sample.recoveryCalls).filter
      fun recoveryTx => recoveryTx.PowerSigned).length = 1 := by decide +kernel
  obtain ⟨signedTx, rfl⟩ := List.length_eq_one_iff.mp (reports.length_eq.symm.trans one)
  exact ⟨signedTx, reported⟩

end CwBitcoin
