import CwBitcoin.CheckpointTerms
import CwBitcoin.QueueIndexes
import CwBitcoin.RegistryRuns
import CwBitcoin.ToSign

/-!
# Who is punished

A block that starts a further checkpoint punishes the validators whose signatures are
missing in each of the last completed checkpoints.  Signatures that were accepted for a
checkpoint stay there, so that no call of the run can have brought those of a punished
validator's key for any of these checkpoints.
-/

namespace CwBitcoin

namespace ThresholdSig

/-- After a signature has been added, it is the only one that is not missing any more. -/
theorem needsSig_withSig (ts : ThresholdSig) (pubkey other : Pubkey) (sig : Signature) :
    (ts.withSig pubkey sig).needsSig other = (ts.needsSig other && decide (other ≠ pubkey)) := by
  have found (sigs : List (Pubkey × Share)) :
      ((putSig pubkey sig sigs).find? fun entry => other = entry.1).map Prod.snd =
        ((sigs.find? fun entry => other = entry.1).map Prod.snd).map fun share =>
          if other = pubkey then { share with sig := some sig } else share := by
    induction sigs with
    | nil => rfl
    | cons entry rest ih =>
        unfold putSig
        by_cases signs : pubkey = entry.1 <;> by_cases isOther : other = entry.1
        · simp [signs, isOther]
        · simp [signs, isOther]
          rfl
        · have apart : entry.1 ≠ pubkey := Ne.symm signs
          simp [signs, isOther, apart]
        · simpa [signs, isOther] using ih
  rw [needsSig, needsSig, findShare, findShare, withSig]
  rw [found]
  cases (ts.sigs.find? fun entry => other = entry.1).map Prod.snd with
  | none => rfl
  | some share => by_cases same : other = pubkey <;> simp [same]

end ThresholdSig

section Missing

variable {host : Host} {xpub other : Xpub}

/-- Once an input has its signature of a key, it has it for good. -/
theorem Input.Signed.wanted_eq {input signed : Input} {used : List Signature}
    (becomes : input.Signed host other used signed)
    (hadIt : other = xpub ∨ input.wanted host xpub = .ok []) :
    signed.wanted host xpub = .ok [] := by
  obtain ⟨pubkey, derived, ⟨needs, -, rfl⟩ | ⟨-, sig, -, -, rfl⟩⟩ := becomes
  · rcases hadIt with rfl | had
    · rw [wanted, derived, Outcome.ok_bind, needs]
      rfl
    · exact had
  · rcases hadIt with rfl | had
    · simp [wanted, derived, ThresholdSig.needsSig_withSig]
    · simp only [wanted, Outcome.bind_eq_ok, Outcome.pure_eq_ok] at had ⊢
      obtain ⟨mine, derivedMine, nothing⟩ := had
      have has : input.signatures.needsSig mine = false := by
        by_contra missing
        simp [missing] at nothing
      exact ⟨mine, derivedMine, by simp [ThresholdSig.needsSig_withSig, has]⟩

namespace Checkpoint

variable {checkpoint signed : Checkpoint} {sigs : List Signature} {btcHeight : Nat}

variable (host xpub) in
/-- No signature of the key is missing in the checkpoint. -/
def HasSigned (checkpoint : Checkpoint) : Prop := checkpoint.toSign host xpub = .ok []

theorem hasSigned_iff : checkpoint.HasSigned host xpub ↔
    ∀ batch ∈ readyBatches checkpoint.batches, ∀ tx ∈ batch.batch, ∀ input ∈ tx.input,
      input.wanted host xpub = .ok [] := by
  simp only [HasSigned, toSign, toSignBatches_eq, Batch.wanted, toSignTx_eq,
    Outcome.flatten_mapM_eq_ok_nil]

/-- A key has signed a checkpoint once its own signatures have been accepted, and it still
has when others have signed. -/
theorem hasSigned_sign (single : checkpoint.Single)
    (signedOk : checkpoint.sign host other sigs btcHeight = .ok signed)
    (hadIt : other = xpub ∨ checkpoint.HasSigned host xpub) : signed.HasSigned host xpub := by
  obtain ⟨signedTxs, tx, batchesEq⟩ := single
  obtain ⟨ready, consumes, signedEq⟩ := gains_of_sign signedOk
  rw [hasSigned_iff] at hadIt ⊢
  rw [batchesEq, readyBatches_singleton] at consumes hadIt
  have sameLength := consumes.length_eq
  obtain ⟨batch, rfl⟩ := List.length_eq_one_iff.mp sameLength.symm
  have batches : signed.batches = [batch] := by
    rw [signedEq, batchesEq, readyBatches_singleton]
    rfl
  rw [batches, readyBatches_singleton]
  intro signedBatch inBatches signedTx inBatch signedInput inTx
  obtain ⟨before, beforeIn, _, txs, txsConsumes, rfl⟩ := consumes.exists_of_mem inBatches
  obtain ⟨txBefore, txBeforeIn, _, input, inputConsumes, rfl⟩ := txsConsumes.exists_of_mem inBatch
  obtain ⟨inputBefore, inputBeforeIn, _, becomes⟩ := inputConsumes.exists_of_mem inTx
  refine becomes.wanted_eq (hadIt.imp_right fun had => ?_)
  exact had before beforeIn txBefore txBeforeIn inputBefore inputBeforeIn

theorem hasSigned_completed (single : checkpoint.Single)
    (signedOk : checkpoint.sign host other sigs btcHeight = .ok signed)
    (hadIt : other = xpub ∨ checkpoint.HasSigned host xpub) :
    (checkpoint.completed signed).HasSigned host xpub := by
  have hasSigned := hasSigned_sign single signedOk hadIt
  unfold completed
  split
  · exact hasSigned
  · exact hasSigned

end Checkpoint

end Missing

section SignedIn

variable {host : Host} {xpub : Xpub} {index : Nat}

/-- Signatures that were accepted for a checkpoint are not missing in it any more. -/
theorem QueueStore.frozenWith_sign {queue after : QueueStore}
    {signature : Contract.CheckpointSignature} (shaped : queue.Shaped)
    (signed : queue.sign host signature.xpub signature.sigs signature.cpIndex signature.btcHeight =
      .ok after) :
    after.FrozenWith signature.cpIndex (Checkpoint.HasSigned host signature.xpub) := by
  obtain ⟨checkpoint, signedCheckpoint, found, notBuilding, accepted, rfl⟩ := sign_completed signed
  have ordered := shaped.ordered_of_item found
  refine ⟨ordered.lt_buildingIndex found notBuilding, fun current currentAt => ?_⟩
  rw [window_put, Window.item_put found, if_pos rfl] at currentAt
  obtain rfl := Option.some.inj currentAt
  exact Checkpoint.hasSigned_completed (ordered.single found) accepted (.inl rfl)

namespace Contract

/-- A call of the run has brought the signatures of the key for the checkpoint. -/
def SignedIn (host : Host) (start : Store) (calls : List Call) (xpub : Xpub) (cpIndex : Nat) :
    Prop :=
  ∃ before call later after signature, calls = before ++ call :: later ∧
    call.signature = some signature ∧ signature.xpub = xpub ∧ signature.cpIndex = cpIndex ∧
    (machine host).call ((machine host).run start before) call = .ok after

theorem SignedIn.append {start : Store} {calls : List Call} (signedIn : SignedIn host start calls xpub index)
    (others : List Call) : SignedIn host start (calls ++ others) xpub index := by
  obtain ⟨before, call, later, after, signature, rfl, accepted⟩ := signedIn
  exact ⟨before, call, later ++ others, after, signature, by simp, accepted⟩

theorem sign_of_signature {store after : Store} {call : Call} {signature : CheckpointSignature}
    (isSignature : call.signature = some signature)
    (called : (machine host).call store call = .ok after) :
    store.queue.sign host signature.xpub signature.sigs signature.cpIndex signature.btcHeight =
      .ok after.queue := by
  obtain ⟨response, executed, rfl⟩ := executed_of_machine called
  cases executed with
  | submitCheckpointSignature _ _ _ _ _ _ _ signed =>
      obtain rfl := Option.some.inj isSignature
      exact signed
  | _ => cases isSignature

/-- No signature of the key is missing in a checkpoint that it has signed. -/
theorem frozenWith_of_signedIn {start : Store} (shaped : start.queue.Shaped) {calls : List Call}
    (signedIn : SignedIn host start calls xpub index) :
    ((machine host).run start calls).queue.FrozenWith index (Checkpoint.HasSigned host xpub) := by
  obtain ⟨before, call, later, after, signature, rfl, isSignature, rfl, rfl, called⟩ := signedIn
  have shapedBefore : ((machine host).run start before).queue.Shaped := shaped_run shaped before
  have frozenAfter := QueueStore.frozenWith_sign shapedBefore (sign_of_signature isSignature called)
  have nextEq : (machine host).next ((machine host).run start before) call = after := by
    rw [CallMachine.next, called]
  rw [CallMachine.run_append, CallMachine.run_cons, nextEq]
  refine (run_preserves _ (fun store call shapedHere holds _ => ?_)
    ((effect_of_call called).shaped shapedBefore) frozenAfter
    (CallMachine.permitted_all _ later).onSuccess).2
  exact preserves_frozenWith (fun single had accepted =>
    Checkpoint.hasSigned_completed single accepted (.inr had)) (fun had => had) shapedHere holds

end Contract

end SignedIn

section Offline

variable {host : Host} {store : Store} {keys : List ConsensusKey} {consKey : ConsensusKey}

namespace Store

theorem wanted_of_isOffline {xpub : Xpub} {checkpoints : List Checkpoint}
    (offline : isOffline host xpub checkpoints = .ok true) :
    ∀ checkpoint ∈ checkpoints, ∃ wanted ≠ [], checkpoint.toSign host xpub = .ok wanted := by
  induction checkpoints with
  | nil => exact fun _ => nofun
  | cons checkpoint rest ih =>
      simp only [isOffline, Outcome.bind_eq_ok] at offline
      obtain ⟨wanted, asked, offline⟩ := offline
      split at offline
      · simp at offline
      · rename_i isMissing
        exact List.forall_mem_cons.mpr ⟨⟨wanted, isMissing, asked⟩, ih offline⟩

theorem isOffline_of_mem {completed : List Checkpoint} {lowestPower : Nat}
    {validators : List Validator}
    (found : offlineAmong host store completed lowestPower validators = .ok keys)
    (member : consKey ∈ keys) :
    ∃ xpub, store.sigKeys.load consKey = some xpub ∧
      isOffline host xpub completed.reverse = .ok true := by
  induction validators generalizing keys with
  | nil =>
      obtain rfl := Except.ok.inj found
      cases member
  | cons validator rest ih =>
      rw [offlineAmong] at found
      split at found
      · obtain rfl := Except.ok.inj found
        cases member
      · split at found
        · exact ih found member
        · rename_i xpub hasKey
          simp only [Outcome.bind_eq_ok, Outcome.pure_eq_ok] at found
          obtain ⟨offline, decided, others, foundOthers, rfl⟩ := found
          split at member
          · rename_i isOfflineTrue
            rcases List.mem_cons.mp member with rfl | inOthers
            · exact ⟨xpub, hasKey, by rw [decided, isOfflineTrue]⟩
            · exact ih foundOthers inOthers
          · exact ih foundOthers member

/-- The signatures of an offline signer's key are missing in as many of the last completed
checkpoints as it may not have signed. -/
theorem wanted_of_offlineSigners (shaped : store.queue.Shaped)
    (found : store.offlineSigners host = .ok keys) (member : consKey ∈ keys) :
    ∃ xpub older waiting building, store.sigKeys.load consKey = some xpub ∧
      store.queue.Ordered ∧ store.queue.Arranged older waiting building ∧
      store.bitcoinConfig.maxOfflineCheckpoints ≤ older.length ∧
      ∀ checkpoint ∈ older.drop (older.length - store.bitcoinConfig.maxOfflineCheckpoints),
        ∃ wanted ≠ [], checkpoint.toSign host xpub = .ok wanted := by
  simp only [offlineSigners, Outcome.bind_eq_ok] at found
  obtain ⟨building, read, lowest, -, completed, completedEq, found⟩ := found
  obtain ⟨aligned, others, split⟩ := QueueStore.building_eq_ok.mp read
  have ordered := shaped.ordered_of_split split
  obtain ⟨older, waiting, arranged⟩ := ordered.arranged split
  obtain rfl := Except.ok.inj
    ((arranged.completed_eq (Or.inl aligned.fits) _).symm.trans completedEq)
  split at found
  · obtain rfl := Outcome.pure_eq_ok.mp found
    cases member
  · rename_i enough
    rw [List.length_drop] at enough
    have threshold : store.bitcoinConfig.maxOfflineCheckpoints ≤ older.length := by omega
    rw [Nat.min_eq_left threshold] at found
    obtain ⟨xpub, hasKey, offline⟩ := isOffline_of_mem found member
    refine ⟨xpub, older, waiting, building, hasKey, ordered, arranged, threshold,
      fun checkpoint isLast => ?_⟩
    exact wanted_of_isOffline offline checkpoint (List.mem_reverse.mpr isLast)

end Store

namespace Contract

/-- A block that takes a validator from the registry has found it offline after a step. -/
theorem offline_of_punished {after : Store} {call : Call} {hash : Bytes}
    (isBlock : call.blockHash = some hash) (called : (machine host).call store call = .ok after)
    (registered : store.validators.load consKey ≠ none)
    (punished : after.validators.load consKey = none) :
    ∃ queue dests stepped allowed keys, store.queue.takePendingCompleted = .ok (queue, dests) ∧
      Store.maybeStep host call.env { store with queue } (HeaderQueue.height store.headers) allowed
        hash store.bitcoinConfig = .ok (stepped, true) ∧
      stepped.offlineSigners host = .ok keys ∧ consKey ∈ keys ∧ after.queue = stepped.queue := by
  obtain ⟨querier, response, ended, rfl⟩ := clockEndBlock_of_blockHash isBlock called
  obtain ⟨queue, dests, _, begun, offline, final, taken, -, begunOk, punishedOk, rfl⟩ :=
    clockEndBlock_eq_ok ended
  have listed : consKey ∈ offline := by
    by_contra unlisted
    have loads := Store.punishAll_loads punishedOk consKey
    rw [if_neg unlisted] at loads
    obtain ⟨allow, pushed, steppedOk⟩ := maybeStep_of_beginBlockStep begunOk
    apply registered
    rw [← punished]
    exact ((sameRegistry_maybeStep steppedOk).validators_eq ▸ loads.1).symm
  have sameQueue := (outsideRegistry_punishAll punishedOk).sameBridge.queue_eq
  simp only [Store.beginBlockStep, Outcome.bind_eq_ok] at begunOk
  obtain ⟨_, -, reached, -, ⟨stepped, pushed⟩, steppedOk, begunOk⟩ := begunOk
  split at begunOk
  · rename_i isPushed
    obtain rfl : pushed = true := isPushed
    simp only [Outcome.bind_eq_ok, Outcome.pure_eq_ok, Prod.mk.injEq] at begunOk
    obtain ⟨keys, found, rfl, rfl⟩ := begunOk
    exact ⟨queue, dests, stepped, !reached, keys, taken, steppedOk, found, listed, sameQueue⟩
  · obtain ⟨-, rfl⟩ := Prod.mk.inj (Outcome.pure_eq_ok.mp begunOk)
    cases listed

end Contract

/-- The last complete checkpoints are found by their indexes. -/
theorem QueueStore.Arranged.get_last {queue : QueueStore} {older : List Checkpoint}
    {waiting : Option Checkpoint} {building : Checkpoint}
    (arranged : queue.Arranged older waiting building) (aligned : queue.Aligned) {index count : Nat}
    (enough : count ≤ older.length) (below : index < queue.window.first + older.length)
    (recent : queue.window.first + older.length ≤ index + count) :
    ∃ checkpoint ∈ older.drop (older.length - count), queue.get index = .ok checkpoint := by
  obtain ⟨position, rfl⟩ : ∃ position, index = queue.window.first + position :=
    Nat.exists_eq_add_of_le (by omega)
  have inRange : position < older.length := by omega
  refine ⟨older[position], ?_, arranged.get_older aligned (List.getElem?_eq_getElem inRange)⟩
  obtain ⟨offset, rfl⟩ : ∃ offset, position = older.length - count + offset :=
    Nat.exists_eq_add_of_le (by omega)
  rw [List.mem_drop_iff_getElem]
  exact ⟨offset, by omega, rfl⟩

/-- The complete checkpoints end before the one that a step has frozen. -/
theorem Store.Rollover.buildingIndex_eq {env : Env} {commitment : Bytes} {unitsPerSat : Nat}
    {after : Store} (rollover : Rollover host env commitment unitsPerSat store after)
    {older : List Checkpoint} {waiting : Option Checkpoint} {building : Checkpoint}
    (arranged : after.queue.Arranged older waiting building) :
    store.queue.buildingIndex = after.queue.window.first + older.length := by
  have indexEq := arranged.buildingIndex_eq
  rw [rollover.buildingIndex_after] at indexEq
  suffices isWaiting : waiting ≠ none by
    obtain ⟨checkpoint, rfl⟩ := Option.ne_none_iff_exists'.mp isWaiting
    rw [Option.toList_some, List.length_singleton] at indexEq
    omega
  rintro rfl
  have frozenLast : rollover.frozen ∈ older := by
    have split := arranged.checkpoints_eq
    rw [rollover.checkpoints_after, Option.toList_none, List.append_nil,
      List.append_cons _ _ [rollover.fresh]] at split
    rw [← (List.append_inj' split rfl).1]
    exact List.mem_append_right _ (List.mem_singleton_self _)
  have isComplete := arranged.complete _ frozenLast
  cases isComplete

end Offline

/-- A validator that a block punishes has a key whose signatures are still missing in each
of the last completed checkpoints, and no call of the run has brought them. -/
theorem Contract.run_punished_unsigned (host : Host) (info : MessageInfo) (msg : InstantiateMsg)
    (calls : List Call) {call : Call} {hash : Bytes} {after : Store} {consKey : ConsensusKey}
    (isBlock : call.blockHash = some hash)
    (called : (machine host).call ((machine host).run (instantiate host info msg) calls) call =
      .ok after)
    (registered :
      ((machine host).run (instantiate host info msg) calls).validators.load consKey ≠ none)
    (punished : after.validators.load consKey = none) :
    let start := instantiate host info msg
    let store := (machine host).run start calls
    ∃ xpub, store.sigKeys.load consKey = some xpub ∧
      ∀ index < store.queue.buildingIndex,
        store.queue.buildingIndex ≤ index + store.bitcoinConfig.maxOfflineCheckpoints →
          ¬ SignedIn host start calls xpub index ∧
            ∃ checkpoint, after.queue.get index = .ok checkpoint ∧
              checkpoint.status = .complete ∧
                ∃ wanted ≠ [], checkpoint.toSign host xpub = .ok wanted := by
  intro start store
  have shaped : store.queue.Shaped := run_shaped host info msg calls
  obtain ⟨queue, dests, stepped, allowed, keys, taken, steppedOk, found, member, sameQueue⟩ :=
    offline_of_punished isBlock called registered punished
  have sameIndex : queue.buildingIndex = store.queue.buildingIndex :=
    (QueueStore.indexes_takePendingCompleted taken).1
  have same := sameRegistry_maybeStep steppedOk
  obtain ⟨xpub, older, waiting, building, hasKey, ordered, arranged, enough, missing⟩ :=
    Store.wanted_of_offlineSigners
      (Store.shaped_maybeStep (shaped.takePendingCompleted taken) steppedOk) found member
  refine ⟨xpub, same.sigKeys_eq ▸ hasKey, fun index below recent => ?_⟩
  rcases Store.maybeStep_eq_ok steppedOk with ⟨-, impossible⟩ | ⟨⟨first⟩⟩ | ⟨rollover, -⟩
  · cases impossible
  · have noOlder : store.queue.buildingIndex = 0 := sameIndex.symm.trans first.buildingIndex_eq
    rw [noOlder] at below
    exact absurd below (Nat.not_lt_zero index)
  · have indexEq : queue.buildingIndex = stepped.queue.window.first + older.length :=
      rollover.buildingIndex_eq arranged
    have sameConfig : stepped.bitcoinConfig = store.bitcoinConfig := by rw [rollover.after_eq]
    rw [sameConfig] at enough missing
    obtain ⟨checkpoint, isLast, got⟩ := arranged.get_last ordered.aligned enough
      (by omega : index < _) (by omega)
    obtain ⟨wanted, isMissing, asked⟩ := missing checkpoint isLast
    rw [← sameQueue] at got
    refine ⟨fun signedIn => isMissing ?_, checkpoint, got,
      arranged.complete checkpoint (List.mem_of_mem_drop isLast), wanted, isMissing, asked⟩
    have kept := frozenWith_of_signedIn (.empty rfl rfl) (signedIn.append [call])
    have nextEq : (machine host).next store call = after := by rw [CallMachine.next, called]
    rw [CallMachine.run_append, CallMachine.run_cons, nextEq] at kept
    have hasSigned := kept.holds _ (QueueStore.get_eq_ok.mp got).2
    exact Except.ok.inj (asked.symm.trans hasSigned)

namespace Sample

/-- The signatory set of two validators. -/
def pairSigset : SignatorySet where
  createTime := 1000
  presentVp := 140
  possibleVp := 140
  index := 0
  signatories := [⟨100, pubkey 1⟩, ⟨40, pubkey 2⟩]

/-- A transaction that pays to a destination through their checkpoint. -/
def pairDepositTx : Transaction where
  version := 1
  lockTime := 0
  input := []
  output :=
    match pairSigset.outputScript host (utf8 "a") SIGSET_THRESHOLD with
    | .ok scriptPubkey => [⟨10000000, scriptPubkey⟩]
    | .error _ => []

/-- A deposit to two validators, of which one signs its checkpoint. -/
def absentCalls : List Contract.Call := [
  executeAt 0 (.updateHeaderConfig (blockOf (pairDepositTx.txid host))),
  executeAt 0 (.updateBitcoinConfig
    { BitcoinConfig.default with
      minConfirmations := 0
      maxOfflineCheckpoints := 1 }),
  executeAt 0 (.addValidators ["owner", "b"] [100, 40] [consensusKey 1, consensusKey 2]),
  executeAt 0 (.setSignatoryKey (xpub 1)),
  .execute querier (env 0) { info with sender := "b" } (.setSignatoryKey (xpub 2)),
  .clockEndBlock querier (env 1000) [1],
  relayDepositAt 1010 7 pairDepositTx "a",
  .clockEndBlock querier (env 1400) [2],
  signFirst]

/-- The block that punishes the other one. -/
def absentBlock : Contract.Call :=
  .clockEndBlock querier (env (1400 + MAX_CHECKPOINT_INTERVAL)) [3]

end Sample

theorem Contract.run_punished_unsigned_sample :
    let start := instantiate Sample.host Sample.info Sample.instantiateMsg
    let store := (machine Sample.host).run start Sample.absentCalls
    let after := (machine Sample.host).next store Sample.absentBlock
    after.validators.keys = [Sample.consensusKey 1] ∧
      ∃ xpub, store.sigKeys.load (Sample.consensusKey 2) = some xpub ∧
        ∀ index < store.queue.buildingIndex,
          store.queue.buildingIndex ≤ index + store.bitcoinConfig.maxOfflineCheckpoints →
            ¬ SignedIn Sample.host start Sample.absentCalls xpub index ∧
              ∃ checkpoint, after.queue.get index = .ok checkpoint ∧
                checkpoint.status = .complete ∧
                  ∃ wanted ≠ [], checkpoint.toSign Sample.host xpub = .ok wanted := by
  have called : (machine Sample.host).call ((machine Sample.host).run
      (instantiate Sample.host Sample.info Sample.instantiateMsg) Sample.absentCalls)
      Sample.absentBlock = .ok ((machine Sample.host).next ((machine Sample.host).run
        (instantiate Sample.host Sample.info Sample.instantiateMsg) Sample.absentCalls)
        Sample.absentBlock) := by
    decide +kernel
  exact ⟨by decide +kernel, run_punished_unsigned Sample.host Sample.info Sample.instantiateMsg
    Sample.absentCalls rfl called (by decide +kernel) (by decide +kernel)⟩

end CwBitcoin
