import CwBitcoin.Library.Commuting
import CwBitcoin.Punishment

/-!
# The order of signatures

The signatories of a checkpoint submit their signatures on their own, in any order.
Signatures under different keys go to different shares, so that the order has no
influence on what is accepted and on what becomes of the checkpoints, but for the height
at which a checkpoint counts as signed.
-/

namespace CwBitcoin

namespace ThresholdSig

variable {ts : ThresholdSig} {pubkey other : Pubkey} {sig otherSig : Signature}
  {sigs : List (Pubkey × Share)}

theorem putSig_comm (apart : pubkey ≠ other) :
    putSig pubkey sig (putSig other otherSig sigs) =
      putSig other otherSig (putSig pubkey sig sigs) := by
  induction sigs with
  | nil => rfl
  | cons entry rest ih =>
      by_cases isFirst : pubkey = entry.1
      · have notOther : other ≠ entry.1 := fun same => apart (isFirst.trans same.symm)
        simp [putSig, isFirst, notOther]
      · by_cases isOther : other = entry.1
        · simp [putSig, isFirst, isOther]
        · simp [putSig, isFirst, isOther, ih]

theorem findShare_putSig (apart : other ≠ pubkey) :
    ((putSig pubkey sig sigs).find? fun entry => other = entry.1) =
      sigs.find? fun entry => other = entry.1 := by
  induction sigs with
  | nil => rfl
  | cons entry rest ih =>
      unfold putSig
      split
      · rename_i isFirst
        have notOther : other ≠ entry.1 := fun same => apart (same.trans isFirst.symm)
        simp [notOther]
      · simp [List.find?_cons, ih]

/-- A signature leaves the share of another key as it is. -/
theorem powerOf_withSig (apart : other ≠ pubkey) :
    (ts.withSig pubkey sig).powerOf other = ts.powerOf other := by
  simp [powerOf, findShare, withSig, findShare_putSig apart]

theorem withSig_withSig (apart : other ≠ pubkey) :
    (ts.withSig pubkey sig).withSig other otherSig = { ts with
      signedPower := ts.signedPower + ts.powerOf pubkey + ts.powerOf other
      sigs := putSig other otherSig (putSig pubkey sig ts.sigs) } := by
  rw [withSig, powerOf_withSig apart]
  rfl

theorem withSig_comm (apart : pubkey ≠ other) :
    (ts.withSig pubkey sig).withSig other otherSig =
      (ts.withSig other otherSig).withSig pubkey sig := by
  rw [withSig_withSig apart.symm, withSig_withSig apart, putSig_comm apart, Nat.add_right_comm]

end ThresholdSig

/-- The keys derive different public keys at every index. -/
def KeysApart (host : Host) (xpub other : Xpub) : Prop :=
  ∀ index pubkey, xpub.derivePubkey host index = .ok pubkey →
    other.derivePubkey host index ≠ .ok pubkey

section Inputs

variable {host : Host} {xpub other : Xpub} {input mid last : Input} {used usedOther : List Signature}

/-- An input takes its part of a list of signatures, and its voting power stays in
range. -/
def Input.Takes (host : Host) (xpub : Xpub) (input : Input) (used : List Signature)
    (signed : Input) : Prop :=
  input.Signed host xpub used signed ∧ input.PowerFits host xpub

/-- An input that needs no signature of a key takes none. -/
theorem Input.takes_nil {pubkey : Pubkey}
    (derived : xpub.derivePubkey host input.sigsetIndex = .ok pubkey)
    (needs : input.signatures.needsSig pubkey = false) : input.Takes host xpub [] input :=
  ⟨⟨pubkey, derived, .inl ⟨needs, rfl, rfl⟩⟩,
    (powerFits_iff derived).mpr fun needed => absurd (needs.symm.trans needed) Bool.false_ne_true⟩

/-- The signatures of different keys may be added in either order. -/
theorem Input.Takes.swap (apart : KeysApart host xpub other)
    (first : input.Takes host xpub used mid) (second : mid.Takes host other usedOther last) :
    ∃ next : Input, input.Takes host other usedOther next ∧ next.Takes host xpub used last := by
  obtain ⟨⟨pubkey, derived, becomes⟩, fits⟩ := first
  obtain ⟨⟨otherKey, derivedOther, becomesOther⟩, fitsOther⟩ := second
  rcases becomes with ⟨needs, rfl, rfl⟩ | ⟨needs, sig, rfl, verified, rfl⟩
  · refine ⟨last, ⟨⟨otherKey, derivedOther, becomesOther⟩, fitsOther⟩, ?_⟩
    rcases becomesOther with ⟨-, -, rfl⟩ | ⟨-, otherSig, -, -, rfl⟩
    · exact takes_nil derived needs
    · exact takes_nil derived (by simp [ThresholdSig.needsSig_withSig, needs])
  · have ne : otherKey ≠ pubkey := by
      rintro rfl
      exact apart _ _ derived derivedOther
    rw [ThresholdSig.needsSig_withSig, decide_eq_true ne, Bool.and_true] at becomesOther
    rcases becomesOther with ⟨needsOther, rfl, rfl⟩ | ⟨needsOther, otherSig, rfl, verifiedOther, rfl⟩
    · exact ⟨input, takes_nil derivedOther needsOther,
        ⟨pubkey, derived, .inr ⟨needs, sig, rfl, verified, rfl⟩⟩, fits⟩
    · have inRange : input.signatures.signedPower + input.signatures.powerOf pubkey +
          input.signatures.powerOf otherKey < 2 ^ 64 := by
        have total := fitsOther otherKey derivedOther
          (by simp [ThresholdSig.needsSig_withSig, needsOther, ne])
        rwa [ThresholdSig.powerOf_withSig ne] at total
      refine ⟨{ input with signatures := input.signatures.withSig otherKey otherSig },
        ⟨⟨otherKey, derivedOther, .inr ⟨needsOther, otherSig, rfl, verifiedOther, rfl⟩⟩, ?_⟩,
        ⟨pubkey, derived, .inr ⟨?_, sig, rfl, verified, ?_⟩⟩, ?_⟩
      · intro key derivedKey _
        obtain rfl := Except.ok.inj (derivedOther.symm.trans derivedKey)
        omega
      · simp [ThresholdSig.needsSig_withSig, needs, ne.symm]
      · rw [ThresholdSig.withSig_comm ne.symm]
      · intro key derivedKey _
        obtain rfl := Except.ok.inj (derived.symm.trans derivedKey)
        rw [ThresholdSig.powerOf_withSig ne.symm]
        change input.signatures.signedPower + input.signatures.powerOf otherKey +
          input.signatures.powerOf pubkey < 2 ^ 64
        omega

theorem Input.Signed.completes_toNat (becomes : input.Signed host xpub used mid) :
    input.signatures.signed.toNat + (input.completes host xpub).toNat =
      mid.signatures.signed.toNat := by
  obtain ⟨pubkey, derived, ⟨needs, -, rfl⟩ | ⟨needs, sig, -, -, rfl⟩⟩ := becomes
  · simp [Input.completes_eq derived, needs]
  · rw [Input.completes_eq derived, needs, Bool.true_and]
    simp only [ThresholdSig.signed, ThresholdSig.withSig]
    by_cases before : input.signatures.threshold < input.signatures.signedPower
    · have after : input.signatures.threshold <
          input.signatures.signedPower + input.signatures.powerOf pubkey :=
        Nat.lt_add_right _ before
      simp [before, after]
    · rw [decide_eq_false before]
      exact Nat.zero_add _

/-- The inputs that become fully signed are counted. -/
theorem Input.countP_signed_of_consumes {inputs signed : List Input}
    (consumes : Consumes (Input.Signed host xpub) inputs used signed) :
    inputs.countP (fun input => input.signatures.signed) +
        inputs.countP (Input.completes host xpub) =
      signed.countP fun input => input.signatures.signed := by
  induction consumes with
  | nil => rfl
  | cons becomes _ ih =>
      have head := becomes.completes_toNat
      simp only [countP_cons_toNat]
      omega

end Inputs

namespace Checkpoint

variable {host : Host} {xpub other : Xpub} {checkpoint signed : Checkpoint}
  {sigs : List Signature} {btcHeight : Nat}

/-- A checkpoint up to the height at which it was signed. -/
def forgetHeight (checkpoint : Checkpoint) : Checkpoint :=
  { checkpoint with signedAtBtcHeight := none }

/-- What a frozen checkpoint is when its inputs have the given signatures. -/
def withInputs (checkpoint : Checkpoint) (inputs : List Input) : Checkpoint :=
  let tx : BitcoinTx := { checkpoint.mainTx with
    input := inputs
    signedInputs := inputs.countP fun input => input.signatures.signed }
  { checkpoint with
    status := if tx.FullySigned then .complete else .signing
    batches := [{ signedTxs := if tx.FullySigned then 1 else 0, batch := [tx] }]
    signedAtBtcHeight := none }

/-- A checkpoint with an exact signing state is determined by its inputs. -/
theorem SigningExact.eq_withInputs (exact : checkpoint.SigningExact host)
    (single : checkpoint.Single) (notBuilding : checkpoint.status ≠ .building) :
    checkpoint.forgetHeight = checkpoint.withInputs checkpoint.mainTx.input := by
  obtain ⟨signedTxs, tx, batchesEq⟩ := single
  have mainEq : checkpoint.mainTx = tx := by rw [mainTx, batchesEq]; rfl
  have batchExact := exact.batches _ (batchesEq ▸ List.mem_singleton_self _)
  have txExact := batchExact.txs tx (List.mem_singleton_self tx)
  have txEq : { tx with
      signedInputs := tx.input.countP fun input => input.signatures.signed : BitcoinTx } = tx := by
    rw [← txExact.signedInputs_eq]
  have counter : signedTxs = if tx.FullySigned then 1 else 0 := by
    have counted := batchExact.signedTxs_eq
    simpa [List.countP_cons] using counted
  have status : checkpoint.status = if tx.FullySigned then .complete else .signing := by
    have completeIff : checkpoint.status = .complete ↔ tx.FullySigned := by
      rw [exact.complete_iff, FullySigned, batchesEq]
      simp
    split
    · rename_i fully
      exact completeIff.mpr fully
    · rename_i notFully
      cases isStatus : checkpoint.status with
      | building => exact absurd isStatus notBuilding
      | signing => rfl
      | complete => exact absurd (completeIff.mp isStatus) notFully
  rw [forgetHeight, withInputs, mainEq]
  simp only [txEq, ← counter, ← status, ← batchesEq]

/-- Accepted signatures are taken by the inputs. -/
theorem takes_of_sign (single : checkpoint.Single)
    (signedOk : checkpoint.sign host xpub sigs btcHeight = .ok signed) :
    Consumes (Input.Takes host xpub) checkpoint.mainTx.input sigs signed.mainTx.input ∧
      CounterFits checkpoint.mainTx.signedInputs
        (checkpoint.mainTx.input.countP (Input.completes host xpub)) := by
  obtain ⟨signedTxs, tx, batchesEq⟩ := single
  obtain ⟨batches, signedBatches, rfl⟩ := sign_eq_ok_iff.mp signedOk
  obtain ⟨used, ready, rfl, consumes, fit, rfl⟩ := signBatches_eq_ok_iff.mp signedBatches
  rw [batchesEq, readyBatches_singleton] at consumes fit
  obtain ⟨_, ⟨txs, txConsumes, rfl⟩, rfl⟩ := Consumes.singleton_iff.mp consumes
  obtain ⟨_, ⟨inputs, inputConsumes, rfl⟩, rfl⟩ := Consumes.singleton_iff.mp txConsumes
  have txFits := (fit _ (List.mem_singleton_self _)).txs tx (List.mem_singleton_self tx)
  rw [List.append_nil]
  simp only [mainTx, batchesEq, readyBatches_singleton]
  exact ⟨Consumes.and_iff.mpr ⟨inputConsumes, txFits.powers⟩, txFits.signedInputs⟩

/-- Signatures that the inputs take are accepted, when the counter of inputs fits. -/
theorem SigningExact.exists_sign_of_takes (exact : checkpoint.SigningExact host)
    (single : checkpoint.Single) {inputs : List Input}
    (takes : Consumes (Input.Takes host xpub) checkpoint.mainTx.input sigs inputs)
    (counter : CounterFits checkpoint.mainTx.signedInputs
      (checkpoint.mainTx.input.countP (Input.completes host xpub))) (btcHeight : Nat) :
    ∃ signed, checkpoint.sign host xpub sigs btcHeight = .ok signed ∧
      signed.mainTx.input = inputs := by
  obtain ⟨signedTxs, tx, batchesEq⟩ := single
  have mainEq : checkpoint.mainTx = tx := by rw [mainTx, batchesEq]; rfl
  rw [mainEq] at takes counter
  obtain ⟨consumes, powers⟩ := Consumes.and_iff.mp takes
  have batchCounter : CounterFits signedTxs ([tx].countP (BitcoinTx.completes host xpub)) := by
    have counted := (exact.batches _ (batchesEq ▸ List.mem_singleton_self _)).signedTxs_eq
    have atMostOne : [tx].countP (fun tx => tx.FullySigned) ≤ 1 := List.countP_le_length
    have addsAtMostOne : [tx].countP (BitcoinTx.completes host xpub) ≤ 1 := List.countP_le_length
    simp only at counted
    right
    omega
  let signedTx : BitcoinTx := { tx with
    input := inputs
    signedInputs := tx.signedInputs + tx.input.countP (Input.completes host xpub) }
  let batch : Batch := {
    batch := [signedTx]
    signedTxs := signedTxs + [tx].countP (BitcoinTx.completes host xpub) }
  have txSigned : tx.Signed host xpub sigs signedTx := ⟨inputs, consumes, rfl⟩
  have batchSigned : Batch.Signed host xpub { signedTxs, batch := [tx] } sigs batch :=
    ⟨[signedTx], Consumes.singleton_iff.mpr ⟨signedTx, txSigned, rfl⟩, rfl⟩
  have signedBatches : signBatches host xpub checkpoint.batches sigs = .ok ([batch], []) := by
    rw [batchesEq]
    refine signBatches_eq_ok_iff.mpr ⟨sigs, [batch], (List.append_nil sigs).symm, ?_, ?_, ?_⟩
    · rw [readyBatches_singleton]
      exact Consumes.singleton_iff.mpr ⟨batch, batchSigned, rfl⟩
    · rw [readyBatches_singleton, List.forall_mem_singleton]
      exact ⟨List.forall_mem_singleton.mpr ⟨powers, counter⟩, batchCounter⟩
    · rw [readyBatches_singleton]
      rfl
  exact ⟨_, sign_eq_ok_iff.mpr ⟨_, signedBatches, rfl⟩, rfl⟩

theorem SigningExact.signedInputs_eq (exact : checkpoint.SigningExact host)
    (single : checkpoint.Single) : checkpoint.mainTx.signedInputs =
      checkpoint.mainTx.input.countP fun input => input.signatures.signed := by
  obtain ⟨signedTxs, tx, batchesEq⟩ := single
  have mainEq : checkpoint.mainTx = tx := by rw [mainTx, batchesEq]; rfl
  rw [mainEq]
  exact ((exact.batches _ (batchesEq ▸ List.mem_singleton_self _)).txs tx
    (List.mem_singleton_self tx)).signedInputs_eq

theorem unsignedTxs_completed
    (signedOk : checkpoint.sign host xpub sigs btcHeight = .ok signed) :
    (checkpoint.completed signed).unsignedTxs = checkpoint.unsignedTxs := by
  rw [← (sign_eq_ok signedOk).1]
  unfold completed
  split <;> rfl

/-- Signing leaves the rest of the checkpoint as it is. -/
theorem withInputs_completed
    (signedOk : checkpoint.sign host xpub sigs btcHeight = .ok signed) (inputs : List Input) :
    (checkpoint.completed signed).withInputs inputs = checkpoint.withInputs inputs := by
  set next := checkpoint.completed signed with nextEq
  have fields : next = { checkpoint with
      status := next.status
      batches := next.batches
      signedAtBtcHeight := next.signedAtBtcHeight } := by
    rw [nextEq, completed, (sign_eq_ok signedOk).2]
    split <;> rfl
  have sameUnsigned := mainTx_unsigned_congr (unsignedTxs_completed signedOk)
  have sameLockTime : next.mainTx.lockTime = checkpoint.mainTx.lockTime := by
    change next.mainTx.unsigned.lockTime = checkpoint.mainTx.unsigned.lockTime
    rw [sameUnsigned]
  have sameOutput : next.mainTx.output = checkpoint.mainTx.output := by
    change next.mainTx.unsigned.output = checkpoint.mainTx.unsigned.output
    rw [sameUnsigned]
  rw [withInputs, withInputs, Checkpoint.mk.injEq]
  simp only [sameLockTime, sameOutput, true_and]
  refine ⟨?_, ?_, ?_, ?_, ?_⟩ <;> rw [fields]

/-- The signatures of different keys are accepted in either order, with the same result
but for the height at which the checkpoint was signed. -/
theorem SigningExact.sign_swap (exact : checkpoint.SigningExact host) (single : checkpoint.Single)
    (notBuilding : checkpoint.status ≠ .building) (apart : KeysApart host xpub other)
    {mid last : Checkpoint} {otherSigs : List Signature} {otherHeight : Nat}
    (first : checkpoint.sign host xpub sigs btcHeight = .ok mid)
    (second : (checkpoint.completed mid).sign host other otherSigs otherHeight = .ok last) :
    ∃ next final, checkpoint.sign host other otherSigs otherHeight = .ok next ∧
      (checkpoint.completed next).sign host xpub sigs btcHeight = .ok final ∧
      ((checkpoint.completed next).completed final).forgetHeight =
        ((checkpoint.completed mid).completed last).forgetHeight := by
  have midSingle : (checkpoint.completed mid).Single := single.congr (unsignedTxs_completed first)
  have midExact := exact.sign notBuilding first
  have midNotBuilding := completed_not_building notBuilding first
  obtain ⟨takes, counter⟩ := takes_of_sign single first
  obtain ⟨takesOther, counterOther⟩ := takes_of_sign midSingle second
  rw [midExact.signedInputs_eq midSingle] at counterOther
  rw [exact.signedInputs_eq single] at counter
  rw [mainTx_completed] at takesOther counterOther
  obtain ⟨inputs, takesNext, takesFinal⟩ :=
    Consumes.interchange (fun _ => Input.Takes.swap apart) takes takesOther
  -- The counters are those of the signed inputs, which end up the same.
  have counted := Input.countP_signed_of_consumes (Consumes.and_iff.mp takes).1
  have countedOther := Input.countP_signed_of_consumes (Consumes.and_iff.mp takesOther).1
  have countedNext := Input.countP_signed_of_consumes (Consumes.and_iff.mp takesNext).1
  have countedFinal := Input.countP_signed_of_consumes (Consumes.and_iff.mp takesFinal).1
  unfold CounterFits at counter counterOther
  obtain ⟨next, nextOk, rfl⟩ := exact.exists_sign_of_takes single takesNext (by
    rw [exact.signedInputs_eq single]
    unfold CounterFits
    omega) otherHeight
  have nextSingle : (checkpoint.completed next).Single := single.congr (unsignedTxs_completed nextOk)
  have nextExact := exact.sign notBuilding nextOk
  have nextNotBuilding := completed_not_building notBuilding nextOk
  rw [← mainTx_completed checkpoint next] at takesFinal countedNext countedFinal
  obtain ⟨final, finalOk, finalInputs⟩ := nextExact.exists_sign_of_takes nextSingle takesFinal (by
    rw [nextExact.signedInputs_eq nextSingle]
    unfold CounterFits
    omega) btcHeight
  refine ⟨next, final, nextOk, finalOk, ?_⟩
  rw [(nextExact.sign nextNotBuilding finalOk).eq_withInputs
      (nextSingle.congr (unsignedTxs_completed finalOk))
      (completed_not_building nextNotBuilding finalOk),
    (midExact.sign midNotBuilding second).eq_withInputs
      (midSingle.congr (unsignedTxs_completed second))
      (completed_not_building midNotBuilding second),
    withInputs_completed finalOk, withInputs_completed nextOk, withInputs_completed second,
    withInputs_completed first, mainTx_completed, mainTx_completed, finalInputs]

/-- Where there is nothing to sign, nothing changes. -/
theorem Single.sign_of_empty (single : checkpoint.Single)
    (empty : checkpoint.mainTx.input = []) :
    checkpoint.sign host xpub sigs btcHeight = .ok signed ↔ sigs = [] ∧ signed = checkpoint := by
  obtain ⟨signedTxs, tx, batchesEq⟩ := single
  have mainEq : checkpoint.mainTx = tx := by rw [mainTx, batchesEq]; rfl
  rw [mainEq] at empty
  have sameTx : { tx with input := [] : BitcoinTx } = tx := by rw [← empty]
  have signedBatches : signBatches host xpub checkpoint.batches sigs =
      .ok (checkpoint.batches, sigs) := by
    have notCounted : BitcoinTx.countSigned tx.signed tx.signed signedTxs = .ok signedTxs := by
      unfold BitcoinTx.countSigned
      rw [if_neg (by simp)]
    simp [batchesEq, signBatches, signTxs, BitcoinTx.sign, empty, BitcoinTx.signInputs, sameTx,
      notCounted, pure, Except.pure]
  rw [sign_eq_ok_iff]
  simp only [signedBatches, Except.ok.injEq, Prod.mk.injEq]
  constructor
  · rintro ⟨_, ⟨rfl, rfl⟩, rfl⟩
    exact ⟨rfl, by simp⟩
  · rintro ⟨rfl, rfl⟩
    exact ⟨_, ⟨rfl, rfl⟩, by simp⟩

/-- Signatures of different keys commute on every frozen checkpoint. -/
theorem sign_swap (kept : Contract.SigningKept host checkpoint) (single : checkpoint.Single)
    (notBuilding : checkpoint.status ≠ .building) (apart : KeysApart host xpub other)
    {mid last : Checkpoint} {otherSigs : List Signature} {otherHeight : Nat}
    (first : checkpoint.sign host xpub sigs btcHeight = .ok mid)
    (second : (checkpoint.completed mid).sign host other otherSigs otherHeight = .ok last) :
    ∃ next final, checkpoint.sign host other otherSigs otherHeight = .ok next ∧
      (checkpoint.completed next).sign host xpub sigs btcHeight = .ok final ∧
      ((checkpoint.completed next).completed final).forgetHeight =
        ((checkpoint.completed mid).completed last).forgetHeight := by
  by_cases empty : checkpoint.mainTx.input = []
  · obtain ⟨rfl, rfl⟩ := (single.sign_of_empty empty).mp first
    have midSingle := single.congr (unsignedTxs_completed first)
    have midEmpty := (congrArg BitcoinTx.input (mainTx_completed mid mid)).trans empty
    obtain ⟨rfl, rfl⟩ := (midSingle.sign_of_empty midEmpty).mp second
    exact ⟨mid, _, (single.sign_of_empty empty).mpr ⟨rfl, rfl⟩,
      (midSingle.sign_of_empty midEmpty).mpr ⟨rfl, rfl⟩, rfl⟩
  · exact (kept.frozen notBuilding empty).sign_swap single notBuilding apart first second

theorem forgetHeight_completed (checkpoint signed : Checkpoint) :
    (checkpoint.completed signed).forgetHeight =
      checkpoint.forgetHeight.completed signed.forgetHeight := by
  have sameSigned : signed.forgetHeight.signed = signed.signed := rfl
  have sameStatus : checkpoint.forgetHeight.status = checkpoint.status := rfl
  rw [completed, completed, sameSigned, sameStatus]
  split <;> rfl

/-- The heights at which checkpoints were signed do not influence what is accepted. -/
theorem sign_congr {current : Checkpoint} (same : current.forgetHeight = checkpoint.forgetHeight)
    (signedOk : checkpoint.sign host xpub sigs btcHeight = .ok signed) :
    ∃ next, current.sign host xpub sigs btcHeight = .ok next ∧
      (current.completed next).forgetHeight = (checkpoint.completed signed).forgetHeight := by
  obtain ⟨height, rfl⟩ : ∃ height, current = { checkpoint with signedAtBtcHeight := height } :=
    ⟨current.signedAtBtcHeight, by
      change { current.forgetHeight with signedAtBtcHeight := current.signedAtBtcHeight } = _
      rw [same]
      rfl⟩
  obtain ⟨batches, signedBatches, rfl⟩ := sign_eq_ok_iff.mp signedOk
  refine ⟨_, sign_eq_ok_iff.mpr ⟨batches, signedBatches, rfl⟩, ?_⟩
  rw [forgetHeight_completed, forgetHeight_completed]
  rfl

end Checkpoint

section Queue

namespace QueueStore

variable {queue : QueueStore} {index other : Nat} {checkpoint replacement : Checkpoint}

/-- The queue up to the heights at which checkpoints were signed. -/
def forgetHeights (queue : QueueStore) : QueueStore :=
  { queue with checkpoints := queue.checkpoints.map Checkpoint.forgetHeight }

theorem item_forgetHeights (queue : QueueStore) (index : Nat) :
    queue.forgetHeights.window.item index =
      (queue.window.item index).map Checkpoint.forgetHeight := by
  change (queue.window.map Checkpoint.forgetHeight).item index = _
  exact Window.item_map Checkpoint.forgetHeight index

theorem forgetHeights_put (queue : QueueStore) (index : Nat) (checkpoint : Checkpoint) :
    (queue.put index checkpoint).forgetHeights =
      queue.forgetHeights.put index checkpoint.forgetHeight := by
  simp [forgetHeights, put, window, Window.put, Window.first, List.map_set]

theorem aligned_forgetHeights : queue.forgetHeights.Aligned ↔ queue.Aligned := by
  constructor
  · rintro ⟨fits, aligned⟩
    exact ⟨fits, by simpa [window, forgetHeights, Window.Aligned] using aligned⟩
  · rintro ⟨fits, aligned⟩
    exact ⟨fits, by simpa [window, forgetHeights, Window.Aligned] using aligned⟩

theorem put_put (first second : Checkpoint) :
    (queue.put index first).put index second = queue.put index second := by
  simp [put, window, Window.put, Window.first]

/-- Different checkpoints are replaced in either order. -/
theorem put_comm (found : queue.window.item index = some checkpoint)
    (foundOther : queue.window.item other = some replacement) (apart : index ≠ other)
    (first second : Checkpoint) :
    (queue.put index first).put other second = (queue.put other second).put index first := by
  have lower := Window.first_le_of_item found
  have lowerOther := Window.first_le_of_item foundOther
  simp only [put, window, Window.put, Window.first, List.length_set] at lower lowerOther ⊢
  rw [List.set_comm _ _ (by omega)]

end QueueStore

end Queue

namespace Contract

variable {host : Host} {store after : Store} {call : Call} {signature : CheckpointSignature}

/-- Two calls with signatures concern different checkpoints or different keys. -/
def Call.SignApart (host : Host) (first second : Call) : Prop :=
  ∀ one ∈ first.signature, ∀ other ∈ second.signature,
    one.cpIndex ≠ other.cpIndex ∨ KeysApart host one.xpub other.xpub

theorem call_signature_iff (isSignature : call.signature = some signature) :
    (machine host).call store call = .ok after ↔
      store.queue.Aligned ∧ ∃ checkpoint signed,
        store.queue.window.item signature.cpIndex = some checkpoint ∧
        checkpoint.status ≠ .building ∧
        checkpoint.sign host signature.xpub signature.sigs signature.btcHeight = .ok signed ∧
        after = { store with
          queue := store.queue.put signature.cpIndex (checkpoint.completed signed) } := by
  cases call with
  | clockEndBlock querier env hash => cases isSignature
  | execute querier env info msg =>
      cases msg with
      | submitCheckpointSignature xpub sigs cpIndex btcHeight =>
          obtain rfl := Option.some.inj isSignature
          simp only [machine, Contract.call, execute, submitCheckpointSignature, QueueStore.sign,
            Outcome.map_eq_ok, Outcome.bind_eq_ok, Outcome.require_eq_ok, Outcome.pure_eq_ok,
            QueueStore.get_eq_ok, QueueStore.set_eq_ok]
          constructor
          · rintro ⟨_, ⟨_, ⟨checkpoint, ⟨aligned, found⟩, -, notBuilding, signed, signedOk, -, -, -,
              rfl⟩, rfl⟩, rfl⟩
            exact ⟨aligned, checkpoint, signed, found, notBuilding, signedOk, rfl⟩
          · rintro ⟨aligned, checkpoint, signed, found, notBuilding, signedOk, rfl⟩
            exact ⟨_, ⟨_, ⟨checkpoint, ⟨aligned, found⟩, (), notBuilding, signed, signedOk, aligned,
              Window.first_le_of_item found, Window.le_last_of_item aligned.window found, rfl⟩, rfl⟩,
              rfl⟩
      | _ => cases isSignature

/-- The store up to the heights at which checkpoints were signed. -/
def forgetHeights (store : Store) : Store :=
  { store with queue := store.queue.forgetHeights }

theorem forgetHeights_congr {other : Store} {queue otherQueue : QueueStore}
    (same : forgetHeights other = forgetHeights store)
    (sameQueue : otherQueue.forgetHeights = queue.forgetHeights) :
    forgetHeights { other with queue := otherQueue } = forgetHeights { store with queue } := by
  change ({ forgetHeights other with queue := otherQueue.forgetHeights } : Store) =
    { forgetHeights store with queue := queue.forgetHeights }
  rw [same, sameQueue]

/-- Stores that look the same accept the same signatures. -/
theorem signature_respects {other : Store} (isSignature : call.signature = some signature)
    (same : forgetHeights other = forgetHeights store)
    (called : (machine host).call store call = .ok after) :
    ∃ next, (machine host).call other call = .ok next ∧
      forgetHeights next = forgetHeights after := by
  obtain ⟨aligned, checkpoint, signed, found, notBuilding, signedOk, rfl⟩ :=
    (call_signature_iff isSignature).mp called
  have sameQueue : other.queue.forgetHeights = store.queue.forgetHeights :=
    congrArg Store.queue same
  have alignedOther : other.queue.Aligned := by
    rw [← QueueStore.aligned_forgetHeights, sameQueue]
    exact QueueStore.aligned_forgetHeights.mpr aligned
  obtain ⟨current, currentAt, sameCheckpoint⟩ : ∃ current,
      other.queue.window.item signature.cpIndex = some current ∧
        current.forgetHeight = checkpoint.forgetHeight := by
    rw [← Option.map_eq_some_iff, ← QueueStore.item_forgetHeights, sameQueue,
      QueueStore.item_forgetHeights, found, Option.map_some]
  obtain ⟨next, nextOk, sameNext⟩ := Checkpoint.sign_congr sameCheckpoint signedOk
  have currentNotBuilding : current.status ≠ .building := by
    change current.forgetHeight.status ≠ .building
    rwa [sameCheckpoint]
  refine ⟨_, (call_signature_iff isSignature).mpr
    ⟨alignedOther, current, next, currentAt, currentNotBuilding, nextOk, rfl⟩, ?_⟩
  apply forgetHeights_congr same
  rw [QueueStore.forgetHeights_put, QueueStore.forgetHeights_put, sameQueue, sameNext]

/-- Signatures that concern different checkpoints or different keys commute. -/
theorem signature_swap {first second : Call} {mid last : Store}
    (shaped : store.queue.Shaped) (kept : store.queue.Each (SigningKept host))
    {one other : CheckpointSignature} (isFirst : first.signature = some one)
    (isSecond : second.signature = some other)
    (apart : one.cpIndex ≠ other.cpIndex ∨ KeysApart host one.xpub other.xpub)
    (firstOk : (machine host).call store first = .ok mid)
    (secondOk : (machine host).call mid second = .ok last) :
    ∃ next final, (machine host).call store second = .ok next ∧
      (machine host).call next first = .ok final ∧ forgetHeights final = forgetHeights last := by
  obtain ⟨aligned, checkpoint, signed, found, notBuilding, signedOk, rfl⟩ :=
    (call_signature_iff isFirst).mp firstOk
  obtain ⟨alignedMid, current, signedNext, foundNext, notBuildingNext, signedNextOk, rfl⟩ :=
    (call_signature_iff isSecond).mp secondOk
  rw [QueueStore.window_put, Window.item_put found] at foundNext
  by_cases sameIndex : other.cpIndex = one.cpIndex
  · rw [if_pos sameIndex] at foundNext
    obtain rfl := Option.some.inj foundNext
    have keysApart := apart.resolve_left (absurd sameIndex.symm)
    have ordered := shaped.ordered_of_item found
    obtain ⟨next, final, nextOk, finalOk, same⟩ := Checkpoint.sign_swap (kept _ _ found)
      (ordered.single found) notBuilding keysApart signedOk signedNextOk
    have foundSecond : store.queue.window.item other.cpIndex = some checkpoint := by
      rwa [sameIndex]
    refine ⟨_, _, (call_signature_iff isSecond).mpr
        ⟨aligned, checkpoint, next, foundSecond, notBuilding, nextOk, rfl⟩,
      (call_signature_iff isFirst).mpr ⟨aligned.put, checkpoint.completed next, final, ?_,
        Checkpoint.completed_not_building notBuilding nextOk, finalOk, rfl⟩, ?_⟩
    · rw [QueueStore.window_put, Window.item_put foundSecond, if_pos sameIndex.symm]
    · apply forgetHeights_congr rfl
      rw [sameIndex, QueueStore.put_put, QueueStore.put_put, QueueStore.forgetHeights_put,
        QueueStore.forgetHeights_put, same]
  · rw [if_neg sameIndex] at foundNext
    have apartIndex : one.cpIndex ≠ other.cpIndex := Ne.symm sameIndex
    refine ⟨_, _, (call_signature_iff isSecond).mpr
        ⟨aligned, current, signedNext, foundNext, notBuildingNext, signedNextOk, rfl⟩,
      (call_signature_iff isFirst).mpr ⟨aligned.put, checkpoint, signed, ?_, notBuilding, signedOk,
        rfl⟩, ?_⟩
    · rw [QueueStore.window_put, Window.item_put foundNext, if_neg apartIndex, found]
    · rw [QueueStore.put_comm found foundNext apartIndex]

theorem interchange_signatures (host : Host) :
    Interchange (machine host).call
      (fun store : Store => store.queue.Shaped ∧ store.queue.Each (SigningKept host)) forgetHeights
      (fun call => call.signature ≠ none) (Call.SignApart host) where
  symm := by
    intro first second apart other isOther one isOne
    refine (apart one isOne other isOther).imp Ne.symm fun keysApart index pubkey derived => ?_
    exact fun derivedOne => keysApart index pubkey derivedOne derived
  keeps := by
    rintro store after call ⟨shaped, kept⟩ called
    have effect := effect_of_call called
    exact ⟨effect.shaped shaped,
      effect.preserves shaped (preservesEach_signingKept.preserves shaped kept) kept⟩
  respects := by
    intro store after call other isSignature same called
    obtain ⟨signature, isSome⟩ := Option.ne_none_iff_exists'.mp isSignature
    exact signature_respects isSome same called
  swaps := by
    rintro store mid last first second ⟨shaped, kept⟩ isFirst isSecond apart firstOk secondOk
    obtain ⟨one, isOne⟩ := Option.ne_none_iff_exists'.mp isFirst
    obtain ⟨other, isOther⟩ := Option.ne_none_iff_exists'.mp isSecond
    exact signature_swap shaped kept isOne isOther (apart one isOne other isOther) firstOk secondOk

/-- In every reachable state, a list of signature submissions that are apart is accepted
in every order or in none, and leads to the same state up to the heights at which
checkpoints count as signed. -/
theorem run_signing_order (host : Host) (info : MessageInfo) (msg : InstantiateMsg)
    (calls submissions reordered : List Call) (perm : submissions.Perm reordered)
    (signatures : ∀ call ∈ submissions, call.signature ≠ none)
    (apart : submissions.Pairwise (Call.SignApart host)) (after : Store)
    (accepted : submissions.foldlM (machine host).call
      ((machine host).run (instantiate host info msg) calls) = .ok after) :
    ∃ other, reordered.foldlM (machine host).call
        ((machine host).run (instantiate host info msg) calls) = .ok other ∧
      forgetHeights other = forgetHeights after := by
  have kept := run_each (SigningKept host) (fun _ _ _ => preservesEach_signingKept)
    ((machine host).permitted_all (instantiate host info msg) calls).onSuccess
  exact (interchange_signatures host).foldlM_perm perm signatures apart
    ⟨run_shaped host info msg calls, kept⟩ accepted

end Contract

namespace Sample

def signSecond : Contract.Call :=
  executeAt 1420 (.submitCheckpointSignature (xpub 2) [⟨(pubkey 2).bytes⟩] 0 8)

theorem keysApart : KeysApart host (xpub 1) (xpub 2) := by
  intro index pubkey derived derivedOther
  obtain ⟨-, -, child⟩ := Outcome.bind_eq_ok.mp derived
  obtain ⟨-, -, childOther⟩ := Outcome.bind_eq_ok.mp derivedOther
  have same : Sample.pubkey 1 = Sample.pubkey 2 :=
    Except.ok.inj (child.trans childOther.symm)
  exact absurd same (by decide)

end Sample

theorem Contract.run_signing_order_sample :
    let store := (machine Sample.host).run
      (instantiate Sample.host Sample.info Sample.instantiateMsg) Sample.absentCalls.dropLast
    ∃ other, [Sample.signSecond, Sample.signFirst].foldlM (machine Sample.host).call store =
        .ok other ∧
      forgetHeights other = forgetHeights
        ((machine Sample.host).run store [Sample.signFirst, Sample.signSecond]) := by
  have apart : [Sample.signFirst, Sample.signSecond].Pairwise (Call.SignApart Sample.host) := by
    refine List.pairwise_pair.mpr fun one isOne other isOther => .inr ?_
    obtain rfl := Option.some.inj isOne
    obtain rfl := Option.some.inj isOther
    exact Sample.keysApart
  exact run_signing_order Sample.host Sample.info Sample.instantiateMsg
    Sample.absentCalls.dropLast [Sample.signFirst, Sample.signSecond]
    [Sample.signSecond, Sample.signFirst] (.swap _ _ _) (by decide) apart _ (by decide +kernel)

end CwBitcoin
