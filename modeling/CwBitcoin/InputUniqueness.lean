import CwBitcoin.QueueShape
import Mathlib.Data.List.Flatten

/-!
# No output is spent twice

Inputs enter the checkpoints as relayed deposits, which are checked against the
processed outpoints, and as reserve inputs, which are not.  The two are kept
apart by the commitment in the redeem script, as long as no relayed deposit
commits to the byte that marks the reserve.
-/

namespace CwBitcoin

namespace Checkpoint

/-- The outputs that the transactions of a checkpoint spend. -/
def prevouts (checkpoint : Checkpoint) : List OutPoint :=
  checkpoint.batches.flatMap fun batch => batch.batch.flatMap BitcoinTx.prevouts

variable {checkpoint other : Checkpoint}

theorem prevouts_congr (same : other.unsignedTxs = checkpoint.unsignedTxs) :
    other.prevouts = checkpoint.prevouts := by
  have fromTxs (cp : Checkpoint) :
      cp.prevouts = cp.unsignedTxs.flatMap fun txs => txs.flatMap BitcoinTx.prevouts := by
    simp [prevouts, unsignedTxs, List.flatMap_map]
  rw [fromTxs, fromTxs, same]

theorem Single.prevouts_eq (single : checkpoint.Single) :
    checkpoint.prevouts = checkpoint.mainTx.prevouts := by
  obtain ⟨signedTxs, tx, batches⟩ := single
  simp [prevouts, mainTx, batches]

end Checkpoint

namespace QueueStore

/-- The outputs that the checkpoints of the queue spend. -/
def prevouts (queue : QueueStore) : List OutPoint :=
  queue.checkpoints.flatMap Checkpoint.prevouts

variable {queue after : QueueStore}

theorem prevouts_takePendingCompleted {dests : Payouts}
    (taken : queue.takePendingCompleted = .ok (after, dests)) :
    after.prevouts = queue.prevouts := by
  refine takePendingCompleted_invariant (fun current => current.prevouts = queue.prevouts) ?_
    (fun _ _ same => same) rfl taken
  intro current index checkpoint same got
  obtain ⟨-, found⟩ := get_eq_ok.mp got
  have cleared : Checkpoint.prevouts { checkpoint with pending := [] } = checkpoint.prevouts := rfl
  exact (flatMap_put _ found cleared).trans same

theorem prevouts_sign {host : Host} {xpub : Xpub} {sigs : List Signature}
    {index btcHeight : Nat}
    (signed : queue.sign host xpub sigs index btcHeight = .ok after) :
    after.prevouts = queue.prevouts := by
  obtain ⟨checkpoint, signedCheckpoint, got, -, sameTxs, -, -, rfl⟩ := sign_eq_ok signed
  obtain ⟨-, found⟩ := get_eq_ok.mp got
  exact flatMap_put _ found (Checkpoint.prevouts_congr sameTxs)

end QueueStore

namespace Store

variable {host : Host} {env : Env} {store after : Store}

theorem prevouts_creditDeposit {input : Input} {feeRate : Nat} {dest : Dest}
    (shaped : store.queue.Shaped)
    (credited : store.creditDeposit input feeRate dest = .ok after) :
    after.queue.prevouts = store.queue.prevouts ++ [input.prevout] ∧
      after.outpoints = store.outpoints := by
  obtain ⟨older, building, fee, coin, split, ⟨tx, first⟩, -, -, -, rfl⟩ :=
    creditDeposit_eq_ok credited
  have ordered := shaped.ordered_of_split split
  have single : building.Single := ordered.single (ordered.item_building split)
  have collected : (building.collect (fee / store.bitcoinConfig.unitsPerSat)).Single := single
  refine ⟨QueueStore.flatMap_replaceBuilding _ split ?_, rfl⟩
  have inserted : (((building.collect (fee / store.bitcoinConfig.unitsPerSat)).withInput
      input).insertPending dest coin).Single := collected.setFirstTx _
  rw [inserted.prevouts_eq, Checkpoint.mainTx_credited first, single.prevouts_eq]
  simp [BitcoinTx.prevouts]

theorem prevouts_addWithdrawal {scriptPubkey : Script} {amount : Nat}
    (shaped : store.queue.Shaped)
    (added : store.addWithdrawal host scriptPubkey amount = .ok after) :
    after.queue.prevouts = store.queue.prevouts ∧ after.outpoints = store.outpoints := by
  obtain ⟨older, building, fee, split, ⟨tx, first⟩, -, -, -, -, rfl⟩ := addWithdrawal_eq_ok added
  have ordered := shaped.ordered_of_split split
  have single : building.Single := ordered.single (ordered.item_building split)
  have collected : (building.collect (fee / store.bitcoinConfig.unitsPerSat)).Single := single
  refine ⟨?_, rfl⟩
  rw [← List.append_nil store.queue.prevouts]
  refine QueueStore.flatMap_replaceBuilding _ split ?_
  have withOutput : ((building.collect (fee / store.bitcoinConfig.unitsPerSat)).withOutput
      ⟨asU64 (amount - fee) / store.bitcoinConfig.unitsPerSat, scriptPubkey⟩).Single :=
    collected.setFirstTx _
  rw [withOutput.prevouts_eq, Checkpoint.mainTx_withdrawn first, single.prevouts_eq,
    List.append_nil]
  rfl

namespace Rollover

variable {commitment : Bytes} {unitsPerSat : Nat}
  (rollover : Rollover host env commitment unitsPerSat store after)

/-- The output in which the frozen transaction keeps the reserve. -/
def reserveOutpoint : OutPoint := ⟨host.txHash rollover.frozenTx.skeleton, 0⟩

/-- The spent outputs after the step: those of the checkpoints that are kept,
and the reserve. -/
theorem prevouts_perm (ordered : store.queue.Ordered) :
    ∃ kept, kept.Sublist store.queue.prevouts ∧
      after.queue.prevouts.Perm (rollover.reserveOutpoint :: kept) := by
  have single : rollover.building.Single := ordered.single rollover.item_building
  obtain ⟨reserve, others, -, frozenEq, -⟩ := Checkpoint.freezeTx_eq_ok rollover.frozen_eq
  have frozenPrevouts : rollover.frozen.prevouts =
      (rollover.building.mainTx.input.take store.checkpointConfig.maxInputs).map Input.prevout := by
    have frozenSingle : rollover.frozen.Single := single.setFirstTx rollover.frozenTx
    rw [frozenSingle.prevouts_eq, rollover.mainTx_frozen, BitcoinTx.prevouts_congr frozenEq]
    rfl
  have freshPrevouts : rollover.fresh.prevouts = rollover.reserveOutpoint ::
      ((rollover.building.mainTx.input.drop store.checkpointConfig.maxInputs).map
        Input.prevout).reverse := by
    obtain ⟨reservePrevout, -, -⟩ := Input.new_eq_ok rollover.reserveInput_eq
    have excessPrevouts : rollover.excess.map Input.prevout =
        (rollover.building.mainTx.input.drop store.checkpointConfig.maxInputs).reverse.map
          Input.prevout := by
      have erased (inputs : List Input) :
          inputs.map Input.prevout = (inputs.map Input.unsigned).map Input.prevout := by
        simp [Function.comp_def, Input.unsigned]
      rw [erased, rollover.excess_eq, ← erased]
    have freshEq : rollover.fresh.prevouts =
        (rollover.reserveInput :: rollover.excess).map Input.prevout := by
      simp [fresh, Checkpoint.started, Checkpoint.prevouts, BitcoinTx.prevouts]
    rw [freshEq, List.map_cons, reservePrevout, excessPrevouts, List.map_reverse]
    rfl
  refine ⟨(rollover.older.drop rollover.pruned).flatMap Checkpoint.prevouts ++
    rollover.building.prevouts, ?_, ?_⟩
  · rw [QueueStore.prevouts, rollover.checkpoints_eq, List.flatMap_append, List.flatMap_singleton]
    exact ((List.drop_sublist _ _).flatMap _).append_right _
  · rw [QueueStore.prevouts, rollover.checkpoints_after, List.flatMap_append, List.flatMap_cons,
      List.flatMap_singleton, frozenPrevouts, freshPrevouts, single.prevouts_eq]
    refine (List.Perm.append_left _ ?_).trans List.perm_middle
    have reassembled : (rollover.building.mainTx.input.take store.checkpointConfig.maxInputs).map
        Input.prevout ++ (rollover.building.mainTx.input.drop store.checkpointConfig.maxInputs).map
          Input.prevout = rollover.building.mainTx.prevouts := by
      rw [← List.map_append, List.take_append_drop]
      rfl
    rw [← reassembled]
    exact List.perm_middle.trans (((List.reverse_perm _).append_left _).cons _)

end Rollover

end Store

namespace Contract

/-- What a run hashes: the checkpoint transactions it freezes, the transactions
whose outputs it relays, and the redeem scripts of both. -/
structure Hashed where
  frozen : List Transaction
  relayed : List Transaction
  scripts : List Script

/-- The redeem script for a commitment, if there is one. -/
def redeemScripts (store : Store) (checkpoint : ContractResult Checkpoint) (commitment : Bytes) :
    List Script :=
  match checkpoint with
  | .error _ => []
  | .ok checkpoint =>
      match checkpoint.sigset.redeemScript commitment store.checkpointConfig.sigsetThreshold with
      | .error _ => []
      | .ok script => [script]

def Hashed.relay (host : Host) (hashed : Hashed) (before : Store) (deposit : RelayedDeposit) :
    Hashed where
  frozen := hashed.frozen
  relayed := deposit.btcTx.stripWitness :: hashed.relayed
  scripts := redeemScripts before (before.queue.get deposit.sigsetIndex)
    (deposit.dest.commitmentBytes host) ++ hashed.scripts

/-- A checkpoint is frozen when the next one is started. -/
def Hashed.freeze (hashed : Hashed) (before after : Store) : Hashed :=
  if before.queue.buildingIndex < after.queue.buildingIndex then
    match after.queue.get before.queue.buildingIndex with
    | .error _ => hashed
    | .ok checkpoint =>
        { hashed with
          frozen := checkpoint.mainTx.skeleton :: hashed.frozen
          scripts := redeemScripts after (.ok checkpoint) [0] ++ hashed.scripts }
  else hashed

/-- What a successful call adds to the hashed data. -/
def observeHashed (host : Host) (before : Store) (call : Call) (after : Store) (hashed : Hashed) :
    Hashed :=
  match call.deposit with
  | some deposit => hashed.relay host before deposit
  | none => if call.blockHash.isSome then hashed.freeze before after else hashed

/-- The hashes of a run identify what they hash, and no two checkpoints have
the same transaction identifier. -/
structure Hashed.CollisionFree (host : Host) (hashed : Hashed) : Prop where
  frozen_nodup : (hashed.frozen.map host.txHash).Nodup
  relayed : ∀ tx ∈ hashed.relayed, ∀ frozenTx ∈ hashed.frozen,
    host.txHash tx = host.txHash frozenTx → tx = frozenTx
  scripts : ∀ first ∈ hashed.scripts, ∀ second ∈ hashed.scripts,
    host.sha256 first = host.sha256 second → first = second

/-- The data of one run contains that of another. -/
structure Hashed.Extends (later earlier : Hashed) : Prop where
  frozen : earlier.frozen <:+ later.frozen
  relayed : earlier.relayed <:+ later.relayed
  scripts : earlier.scripts <:+ later.scripts

/-- The first output of a transaction pays to a signatory set, with the given
commitment. -/
def PaysTo (host : Host) (scripts : List Script) (tx : Transaction) (commitment : Bytes) : Prop :=
  ∃ output sigset threshold script, tx.output[0]? = some output ∧ sigset.WellFormed ∧
    SignatorySet.redeemScript sigset commitment threshold = .ok script ∧ script ∈ scripts ∧
    output.scriptPubkey = toV0P2wsh host script

/-- A deposit is kept apart from the reserve: it is not relayed from a first
output with the commitment that marks the reserve. -/
def Call.SeparatesReserve (host : Host) (call : Call) : Prop :=
  ∀ deposit ∈ call.deposit, deposit.btcVout = 0 → deposit.dest.commitmentBytes host ≠ [0]

instance (host : Host) (call : Call) : Decidable (call.SeparatesReserve host) :=
  inferInstanceAs (Decidable (∀ deposit ∈ call.deposit, _))

/-- No deposit of the run that is accepted mixes with the reserve. -/
def SeparatesReserve (host : Host) (start : Store) (calls : List Call) : Prop :=
  (machine host).Permitted ((machine host).OnSuccess fun _ call => call.SeparatesReserve host)
    start calls

instance (host : Host) (start : Store) (calls : List Call) :
    Decidable (SeparatesReserve host start calls) :=
  inferInstanceAs (Decidable ((machine host).Permitted _ start calls))

/-- What holds in every state of a run: every spent output was relayed or is
the reserve of a frozen checkpoint, none is spent twice, and the two kinds are
different. -/
structure InputsDistinct (host : Host) (store : Store) (hashed : Hashed) : Prop where
  shaped : store.queue.Shaped
  nodup : store.queue.prevouts.Nodup
  origin : ∀ prevout ∈ store.queue.prevouts, prevout ∈ store.outpoints ∨
    ∃ tx ∈ hashed.frozen, prevout = ⟨host.txHash tx, 0⟩
  relayed : ∀ outpoint ∈ store.outpoints, outpoint.vout = 0 → ∃ tx ∈ hashed.relayed,
    outpoint.txid = host.txHash tx ∧
      ∃ commitment, commitment ≠ [0] ∧ PaysTo host hashed.scripts tx commitment
  frozen : ∀ tx ∈ hashed.frozen, PaysTo host hashed.scripts tx [0]

variable {host : Host} {store after : Store} {hashed later : Hashed} {call : Call}

theorem PaysTo.mono {scripts more : List Script} {tx : Transaction} {commitment : Bytes}
    (pays : PaysTo host scripts tx commitment) (subset : scripts ⊆ more) :
    PaysTo host more tx commitment := by
  obtain ⟨output, sigset, threshold, script, outputAt, wellFormed, scripted, member, paysEq⟩ := pays
  exact ⟨output, sigset, threshold, script, outputAt, wellFormed, scripted, subset member, paysEq⟩

/-- A first output has one commitment. -/
theorem PaysTo.commitment_eq {tx : Transaction} {commitment other : Bytes}
    (collisionFree : hashed.CollisionFree host) (pays : PaysTo host hashed.scripts tx commitment)
    (paysOther : PaysTo host hashed.scripts tx other) : commitment = other := by
  obtain ⟨output, sigset, _, script, outputAt, wellFormed, scripted, member, paysEq⟩ := pays
  obtain ⟨otherOutput, otherSet, _, otherScript, otherAt, otherFormed, otherScripted, otherMember,
    otherEq⟩ := paysOther
  obtain rfl := Option.some.inj (outputAt.symm.trans otherAt)
  have sameHash : toV0P2wsh host script = toV0P2wsh host otherScript := paysEq.symm.trans otherEq
  have sameScript := collisionFree.scripts _ member _ otherMember
    (List.cons.inj (List.cons.inj sameHash).2).2
  rw [← sameScript] at otherScripted
  exact SignatorySet.dest_eq_of_redeemScript_eq wellFormed otherFormed scripted otherScripted

/-- No processed outpoint is the reserve output of a frozen checkpoint. -/
theorem InputsDistinct.separated (distinct : InputsDistinct host store hashed)
    (collisionFree : hashed.CollisionFree host) {outpoint : OutPoint}
    (processed : outpoint ∈ store.outpoints) {tx : Transaction} (isFrozen : tx ∈ hashed.frozen) :
    outpoint ≠ ⟨host.txHash tx, 0⟩ := by
  rintro rfl
  obtain ⟨relayedTx, member, sameTxid, commitment, notReserve, pays⟩ :=
    distinct.relayed _ processed rfl
  have sameTx := collisionFree.relayed _ member _ isFrozen sameTxid.symm
  rw [sameTx] at pays
  exact notReserve (pays.commitment_eq collisionFree (distinct.frozen tx isFrozen))

theorem Hashed.Extends.collisionFree (extension : later.Extends hashed)
    (collisionFree : later.CollisionFree host) : hashed.CollisionFree host where
  frozen_nodup := collisionFree.frozen_nodup.sublist (extension.frozen.sublist.map _)
  relayed tx member frozenTx frozenMember := collisionFree.relayed tx
    (extension.relayed.mem member) frozenTx (extension.frozen.mem frozenMember)
  scripts first firstMember second secondMember := collisionFree.scripts first
    (extension.scripts.mem firstMember) second (extension.scripts.mem secondMember)

theorem extends_observeHashed :
    (observeHashed host store call after hashed).Extends hashed := by
  have same : hashed.Extends hashed := ⟨List.suffix_rfl, List.suffix_rfl, List.suffix_rfl⟩
  unfold observeHashed
  split
  · exact ⟨List.suffix_rfl, List.suffix_cons _ _, List.suffix_append _ _⟩
  · split
    · unfold Hashed.freeze
      split
      · split
        · exact same
        · exact ⟨List.suffix_cons _ _, List.suffix_rfl, List.suffix_append _ _⟩
      · exact same
    · exact same

theorem mem_redeemScripts {checkpoint : Checkpoint} {commitment : Bytes} {script : Script}
    (scripted : checkpoint.sigset.redeemScript commitment store.checkpointConfig.sigsetThreshold =
      .ok script) : script ∈ redeemScripts store (.ok checkpoint) commitment := by
  simp [redeemScripts, scripted]

/-- Further hashes and further frozen transactions keep what holds of the
store. -/
theorem InputsDistinct.extend (distinct : InputsDistinct host store hashed)
    (extension : later.Extends hashed)
    (frozen : ∀ tx ∈ later.frozen, tx ∈ hashed.frozen ∨ PaysTo host later.scripts tx [0]) :
    InputsDistinct host store later where
  shaped := distinct.shaped
  nodup := distinct.nodup
  origin prevout member := (distinct.origin prevout member).imp_right fun ⟨tx, isFrozen, same⟩ =>
    ⟨tx, extension.frozen.mem isFrozen, same⟩
  relayed outpoint processed isFirst := by
    obtain ⟨tx, member, sameTxid, commitment, notReserve, pays⟩ :=
      distinct.relayed outpoint processed isFirst
    exact ⟨tx, extension.relayed.mem member, sameTxid, commitment, notReserve,
      pays.mono extension.scripts.subset⟩
  frozen tx member := (frozen tx member).elim
    (fun old => (distinct.frozen tx old).mono extension.scripts.subset) id

/-- A change that keeps the spent and the processed outputs. -/
theorem InputsDistinct.congr (distinct : InputsDistinct host store hashed)
    (shaped : after.queue.Shaped) (samePrevouts : after.queue.prevouts = store.queue.prevouts)
    (sameOutpoints : after.outpoints = store.outpoints) : InputsDistinct host after hashed where
  shaped := shaped
  nodup := by
    rw [samePrevouts]
    exact distinct.nodup
  origin := by
    rw [samePrevouts, sameOutpoints]
    exact distinct.origin
  relayed := by
    rw [sameOutpoints]
    exact distinct.relayed
  frozen := distinct.frozen

/-- A relayed output that is kept apart from the reserve may be processed and
spent. -/
theorem InputsDistinct.relayDeposit {env : Env} {btcTx : Transaction}
    {btcHeight btcVout sigsetIndex : Nat} {btcProof : PartialMerkleTree} {dest : Dest}
    (distinct : InputsDistinct host store hashed)
    (separates : btcVout = 0 → dest.commitmentBytes host ≠ [0])
    (collisionFree : (hashed.relay host store
      { btcTx, btcVout, sigsetIndex, dest }).CollisionFree host)
    (relayed : store.relayDeposit host env btcTx btcHeight btcProof btcVout sigsetIndex dest =
      .ok after) :
    InputsDistinct host after (hashed.relay host store { btcTx, btcVout, sigsetIndex, dest }) := by
  have shapedAfter := Store.shaped_relayDeposit distinct.shaped relayed
  obtain ⟨output, checkpoint, redeemScript, timeout, outputAt, got, redeemed, pays, fresh,
    processed⟩ := Store.relayDeposit_eq_ok relayed
  obtain ⟨-, found⟩ := QueueStore.get_eq_ok.mp got
  have ordered := distinct.shaped.ordered_of_item found
  have extended : InputsDistinct host store
      (hashed.relay host store { btcTx, btcVout, sigsetIndex, dest }) :=
    distinct.extend ⟨List.suffix_rfl, List.suffix_cons _ _, List.suffix_append _ _⟩
      fun _ member => Or.inl member
  have inserted : InputsDistinct host (store.insertOutpoint ⟨btcTx.txid host, btcVout⟩ timeout)
      (hashed.relay host store { btcTx, btcVout, sigsetIndex, dest }) := by
    refine ⟨extended.shaped, extended.nodup, fun prevout member =>
      (extended.origin prevout member).imp_left (List.mem_cons_of_mem _), ?_, extended.frozen⟩
    intro outpoint isProcessed isFirst
    rcases List.mem_cons.mp isProcessed with rfl | old
    · obtain rfl : btcVout = 0 := isFirst
      refine ⟨btcTx.stripWitness, List.mem_cons_self, rfl, _, separates rfl,
        output, checkpoint.sigset, _, redeemScript, outputAt, ordered.wellFormed found, redeemed,
        List.mem_append_left _ ?_, pays⟩
      rw [got]
      exact mem_redeemScripts redeemed
    · exact extended.relayed outpoint old isFirst
  rcases processed with ⟨recoveryTxs, rfl⟩ | ⟨input, made, credited⟩
  · exact inserted.congr shapedAfter rfl rfl
  · obtain ⟨prevoutEq, -⟩ := Input.new_eq_ok made
    obtain ⟨prevoutsEq, outpointsEq⟩ := Store.prevouts_creditDeposit inserted.shaped credited
    rw [prevoutEq] at prevoutsEq
    have isProcessed : (⟨btcTx.txid host, btcVout⟩ : OutPoint) ∈ after.outpoints := by
      rw [outpointsEq]
      exact List.mem_cons_self
    have unspent : (⟨btcTx.txid host, btcVout⟩ : OutPoint) ∉ store.queue.prevouts := by
      intro member
      rcases extended.origin _ member with old | ⟨tx, isFrozen, same⟩
      · exact fresh old
      · exact inserted.separated collisionFree List.mem_cons_self isFrozen same
    refine ⟨shapedAfter, ?_, ?_, ?_, inserted.frozen⟩
    · rw [prevoutsEq]
      exact (List.nodup_append_comm.mp (List.nodup_cons.mpr ⟨unspent, distinct.nodup⟩))
    · intro prevout member
      rw [prevoutsEq, List.mem_append, List.mem_singleton] at member
      rcases member with old | rfl
      · rw [outpointsEq]
        exact inserted.origin prevout old
      · exact Or.inl isProcessed
    · rw [outpointsEq]
      exact inserted.relayed

/-- A new checkpoint spends the reserve, which was not spent or processed
before. -/
theorem InputsDistinct.rollover {env : Env} {commitment : Bytes} {unitsPerSat : Nat}
    (distinct : InputsDistinct host store hashed)
    (rollover : Store.Rollover host env commitment unitsPerSat store after)
    (collisionFree : (hashed.freeze store after).CollisionFree host) :
    InputsDistinct host after (hashed.freeze store after) := by
  have ordered := distinct.shaped.ordered_of_split rollover.checkpoints_eq
  have freezeEq : hashed.freeze store after = { hashed with
      frozen := rollover.frozenTx.skeleton :: hashed.frozen
      scripts := redeemScripts after (.ok rollover.frozen) [0] ++ hashed.scripts } := by
    rw [Hashed.freeze, if_pos (by rw [rollover.buildingIndex_after]; omega), rollover.get_frozen,
      ← rollover.mainTx_frozen]
  rw [freezeEq] at collisionFree ⊢
  have pays : PaysTo host (redeemScripts after (.ok rollover.frozen) [0] ++ hashed.scripts)
      rollover.frozenTx.skeleton [0] := by
    obtain ⟨redeemScript, redeemed, reserveOutput⟩ := rollover.reserve_eq
    have redeemedAfter : rollover.frozen.sigset.redeemScript [0]
        after.checkpointConfig.sigsetThreshold = .ok redeemScript := by
      rw [rollover.checkpointConfig_after]
      exact redeemed
    refine ⟨⟨rollover.reserveValue, toV0P2wsh host redeemScript⟩, rollover.building.sigset, _,
      redeemScript, ?_,
      ordered.wellFormed rollover.item_building, redeemed,
      List.mem_append_left _ (mem_redeemScripts redeemedAfter), rfl⟩
    rw [← reserveOutput, List.head?_eq_getElem?]
    rfl
  have extended : InputsDistinct host store { hashed with
      frozen := rollover.frozenTx.skeleton :: hashed.frozen
      scripts := redeemScripts after (.ok rollover.frozen) [0] ++ hashed.scripts } := by
    refine distinct.extend ⟨List.suffix_cons _ _, List.suffix_rfl, List.suffix_append _ _⟩ ?_
    intro tx member
    rcases List.mem_cons.mp member with rfl | old
    · exact Or.inr pays
    · exact Or.inl old
  have unspent : rollover.reserveOutpoint ∉ store.queue.prevouts := by
    intro member
    rcases distinct.origin _ member with processed | ⟨tx, isFrozen, same⟩
    · exact extended.separated collisionFree processed List.mem_cons_self rfl
    · have sameTxid : host.txHash rollover.frozenTx.skeleton = host.txHash tx :=
        congrArg OutPoint.txid same
      have newTxid := (List.nodup_cons.mp collisionFree.frozen_nodup).1
      rw [sameTxid] at newTxid
      exact newTxid (List.mem_map_of_mem isFrozen)
  obtain ⟨kept, keptSublist, permuted⟩ := rollover.prevouts_perm ordered
  refine ⟨.ordered (rollover.ordered ordered), ?_, ?_, ?_, extended.frozen⟩
  · rw [permuted.nodup_iff, List.nodup_cons]
    exact ⟨fun member => unspent (keptSublist.mem member), distinct.nodup.sublist keptSublist⟩
  · intro prevout member
    rw [rollover.outpoints_after]
    rcases List.mem_cons.mp (permuted.mem_iff.mp member) with rfl | old
    · exact Or.inr ⟨_, List.mem_cons_self, rfl⟩
    · exact extended.origin prevout (keptSublist.mem old)
  · rw [rollover.outpoints_after]
    exact extended.relayed

theorem InputsDistinct.firstPush {env : Env} (distinct : InputsDistinct host store hashed)
    (first : Store.FirstPush host env store after) : InputsDistinct host after hashed := by
  refine distinct.congr (.ordered first.ordered) ?_ (by rw [first.after_eq])
  rw [QueueStore.prevouts, QueueStore.prevouts, first.checkpoints_after, first.empty]
  rfl

/-- Every permitted call keeps the inputs distinct. -/
theorem Effect.inputsDistinct (effect : Effect host store call after)
    (distinct : InputsDistinct host store hashed) (separates : call.SeparatesReserve host)
    (collisionFree : (observeHashed host store call after hashed).CollisionFree host) :
    InputsDistinct host after (observeHashed host store call after hashed) := by
  have shapedAfter := effect.shaped distinct.shaped
  have unobserved (noHash : call.blockHash = none) (noDeposit : call.deposit = none) :
      observeHashed host store call after hashed = hashed := by
    simp [observeHashed, noHash, noDeposit]
  cases effect with
  | deposit _ _ _ _ _ _ _ _ _ relayed =>
      exact distinct.relayDeposit (separates _ rfl) collisionFree relayed
  | withdrawal noHash noDeposit _ _ _ added =>
      rw [unobserved noHash noDeposit]
      refine addWithdrawals_invariant (fun current => InputsDistinct host current hashed) ?_
        distinct added
      intro current amount next currentDistinct addedOne
      obtain ⟨samePrevouts, sameOutpoints⟩ :=
        Store.prevouts_addWithdrawal currentDistinct.shaped addedOne
      exact currentDistinct.congr (Store.shaped_addWithdrawal currentDistinct.shaped addedOne)
        samePrevouts sameOutpoints
  | signature noHash noDeposit _ _ _ _ signed =>
      rw [unobserved noHash noDeposit]
      exact distinct.congr shapedAfter (QueueStore.prevouts_sign signed) rfl
  | confirmation noHash noDeposit _ _ _ relayed =>
      rw [unobserved noHash noDeposit]
      obtain ⟨-, -, rfl⟩ := Store.relayCheckpoint_eq_ok relayed
      exact distinct.congr shapedAfter rfl rfl
  | configuration => exact distinct.congr shapedAfter rfl rfl
  | @endBlock _ hash queue stepped _ isClock noDeposit _ _ taken _ _ _ steppedOk same =>
      have samePrevouts := QueueStore.prevouts_takePendingCompleted taken
      have sameIndex := (QueueStore.indexes_takePendingCompleted taken).1
      have takenDistinct : InputsDistinct host { store with queue } hashed :=
        distinct.congr (distinct.shaped.takePendingCompleted taken) samePrevouts rfl
      have freezeEq : observeHashed host store call after hashed =
          hashed.freeze { store with queue } stepped := by
        simp [observeHashed, noDeposit, isClock, Hashed.freeze, redeemScripts, sameIndex,
          same.queue_eq, same.checkpointConfig_eq]
      rw [freezeEq] at collisionFree ⊢
      have steppedDistinct :
          InputsDistinct host stepped (hashed.freeze { store with queue } stepped) := by
        rcases Store.maybeStep_eq_ok steppedOk with ⟨rfl, -⟩ | ⟨⟨first⟩⟩ | ⟨rollover, -⟩
        · rw [Hashed.freeze, if_neg (lt_irrefl _)]
          exact takenDistinct
        · have notLater : ¬ queue.buildingIndex < stepped.queue.buildingIndex := by
            rw [first.buildingIndex_after]
            exact Nat.not_lt_zero _
          rw [Hashed.freeze, if_neg notLater]
          exact takenDistinct.firstPush first
        · exact takenDistinct.rollover rollover collisionFree
      exact steppedDistinct.congr shapedAfter (by rw [same.queue_eq]) same.outpoints_eq
  | other noHash noDeposit same =>
      rw [unobserved noHash noDeposit]
      exact distinct.congr shapedAfter (by rw [same.queue_eq]) same.outpoints_eq

/-- The data that a run hashes. -/
def runHashed (host : Host) (start : Store) (calls : List Call) : Hashed :=
  (((machine host).observed (observeHashed host)).run
    (start, { frozen := [], relayed := [], scripts := [] }) calls).2

theorem run_inputsDistinct (host : Host) (info : MessageInfo) (msg : InstantiateMsg)
    {calls : List Call} (separates : SeparatesReserve host (instantiate host info msg) calls)
    (collisionFree : (runHashed host (instantiate host info msg) calls).CollisionFree host) :
    InputsDistinct host ((machine host).run (instantiate host info msg) calls)
      (runHashed host (instantiate host info msg) calls) := by
  have start : InputsDistinct host (instantiate host info msg)
      { frozen := [], relayed := [], scripts := [] } :=
    ⟨.empty rfl rfl, List.nodup_nil, by simp [instantiate, QueueStore.prevouts],
      by simp [instantiate], by simp⟩
  refine CallMachine.observed_invariant
    (fun store hashed => hashed.CollisionFree host → InputsDistinct host store hashed) ?_
    (fun _ => start) separates collisionFree
  intro before hashed call after holds separate called collisionFree
  exact (effect_of_call called).inputsDistinct
    (holds (extends_observeHashed.collisionFree collisionFree)) (separate after called) collisionFree

end Contract

/-- In every run that keeps its accepted deposits apart from the reserve, no output is spent
by two inputs, and no reserve output of a frozen checkpoint is accepted as a
deposit. -/
theorem Contract.run_prevouts_nodup (host : Host) (info : MessageInfo) (msg : InstantiateMsg)
    (calls : List Call) (separates : SeparatesReserve host (instantiate host info msg) calls)
    (collisionFree : (runHashed host (instantiate host info msg) calls).CollisionFree host) :
    ((machine host).run (instantiate host info msg) calls).queue.prevouts.Nodup ∧
      ∀ outpoint ∈ ((machine host).run (instantiate host info msg) calls).outpoints,
        ∀ tx ∈ (runHashed host (instantiate host info msg) calls).frozen,
          outpoint ≠ ⟨host.txHash tx, 0⟩ := by
  have distinct := run_inputsDistinct host info msg separates collisionFree
  exact ⟨distinct.nodup, fun _ processed _ isFrozen =>
    distinct.separated collisionFree processed isFrozen⟩

namespace Sample

/-- The transaction of the first checkpoint. -/
def frozenTx : Transaction :=
  (checkpointAt ((Contract.machine host).run initial setupCalls) 0).mainTx.skeleton

/-- The first checkpoint is signed, its transaction enters a block, and its
reserve output is relayed as a deposit to the address of one zero byte. -/
def relayReserveCalls : List Contract.Call := setupCalls ++ [
  signFirst,
  executeAt 1420 (.relayHeaders [{
    height := 8
    header :=
      { version := 1, prevBlockhash := Bytes.le 4 0, merkleRoot := frozenTx.txid host, time := 1,
        bits := 1000, nonce := 1 } }]),
  relayDepositAt 1430 8 frozenTx "\x00"]

end Sample

theorem Contract.run_prevouts_nodup_sample :
    let store := (machine Sample.host).run Sample.initial (Sample.setupCalls ++ [Sample.signFirst])
    store.queue.prevouts.length = 2 ∧ store.queue.prevouts.Nodup := by
  refine ⟨by decide +kernel, ?_⟩
  exact (run_prevouts_nodup Sample.host Sample.info Sample.instantiateMsg
    (Sample.setupCalls ++ [Sample.signFirst]) (by decide +kernel)
    ⟨by decide +kernel, by decide +kernel, by decide +kernel⟩).1

/-- Without that restriction a relayed reserve output is spent twice. -/
theorem Contract.run_prevouts_not_nodup :
    ¬ ∀ (host : Host) (info : MessageInfo) (msg : InstantiateMsg) (calls : List Call),
      (runHashed host (instantiate host info msg) calls).CollisionFree host →
        ((machine host).run (instantiate host info msg) calls).queue.prevouts.Nodup := by
  intro prevoutsDistinct
  have distinct := prevoutsDistinct Sample.host Sample.info Sample.instantiateMsg Sample.relayReserveCalls
    ⟨by decide +kernel, by decide +kernel, by decide +kernel⟩
  revert distinct
  decide +kernel

end CwBitcoin
