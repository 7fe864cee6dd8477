import CwBitcoin.FrozenReserve
import CwBitcoin.Queries
import CwBitcoin.RecoverySigning

/-!
# The reported chain

Relayers broadcast the completed checkpoints as the contract reports them.  They are a
chain of fully signed transactions, each of which spends the reserve of the one before it,
and the last one holds what the contract reports as locked.
-/

namespace CwBitcoin

/-- The first input of `next` spends the first output of `tx`, and its witness ends with
the script that this output commits to. -/
structure Transaction.SpendsReserve (host : Host) (tx next : Transaction) (reserve : TxOut)
    (txin : TxIn) (script : Script) : Prop where
  output_eq : tx.output.head? = some reserve
  input_eq : next.input.head? = some txin
  previousOutput_eq : txin.previousOutput = ⟨tx.txid host, 0⟩
  witness_eq : txin.witness.getLast? = some script
  script_eq : toV0P2wsh host script = reserve.scriptPubkey

def Transaction.Follows (host : Host) (tx next : Transaction) : Prop :=
  ∃ reserve txin script, SpendsReserve host tx next reserve txin script

/-- An input as a signed Bitcoin transaction shows it. -/
structure Input.ShownAs (input : Input) (txin : TxIn) : Prop where
  previousOutput_eq : txin.previousOutput = input.prevout
  signed : input.signatures.signed = true
  witness_eq : txin.witness.getLast? = some input.redeemScript

/-- A Bitcoin transaction that shows a checkpoint with enough signatures in each input. -/
structure Checkpoint.ReportedAs (host : Host) (checkpoint : Checkpoint) (tx : Transaction) :
    Prop where
  complete : checkpoint.status = .complete
  checkpointTx_eq : checkpoint.checkpointTx host = .ok tx
  stripWitness_eq : tx.stripWitness = checkpoint.mainTx.skeleton
  inputs : List.Forall₂ Input.ShownAs checkpoint.mainTx.input tx.input

section Reports

variable {host : Host} {checkpoint next : Checkpoint} {tx nextTx : Transaction}

theorem Input.shownAs_of_toTxin {input : Input} {txin : TxIn}
    (signed : input.signatures.signed = true) (converted : input.toTxin host = .ok txin) :
    input.ShownAs txin := by
  obtain ⟨witness, -, rfl⟩ := toTxin_eq_ok.mp converted
  refine ⟨rfl, signed, ?_⟩
  rw [if_pos signed]
  exact List.getLast?_concat

theorem Checkpoint.Single.checkpointTx (single : checkpoint.Single) :
    checkpoint.checkpointTx host = checkpoint.mainTx.toBitcoinTx host := by
  obtain ⟨signedTxs, tx, batches⟩ := single
  rw [Checkpoint.checkpointTx, mainTx, batches]
  rfl

/-- The signatures of a complete checkpoint can be turned into witnesses. -/
theorem Contract.SigningKept.exists_reportedAs (convert : host.VerifiedHaveDer)
    (kept : SigningKept host checkpoint) (single : checkpoint.Single)
    (complete : checkpoint.status = .complete) : ∃ tx, checkpoint.ReportedAs host tx := by
  have frozen : checkpoint.status ≠ .building := by
    rw [complete]
    decide
  have signing (nonempty : checkpoint.mainTx.input ≠ []) :
      checkpoint.mainTx.Exact host ∧ checkpoint.mainTx.FullySigned := by
    have exact := kept.frozen frozen nonempty
    have fullySigned := exact.complete_iff.mp complete
    obtain ⟨signedTxs, tx, batches⟩ := single
    have mainEq : checkpoint.mainTx = tx := by rw [Checkpoint.mainTx, batches]; rfl
    have inBatches : { signedTxs, batch := [tx] } ∈ checkpoint.batches :=
      batches ▸ List.mem_singleton_self _
    rw [mainEq]
    exact ⟨(exact.batches _ inBatches).txs tx (List.mem_singleton_self tx),
      fullySigned _ inBatches tx (List.mem_singleton_self tx)⟩
  obtain ⟨tx, converted⟩ : ∃ tx, checkpoint.mainTx.toBitcoinTx host = .ok tx := by
    by_cases nonempty : checkpoint.mainTx.input = []
    · exact BitcoinTx.exists_toBitcoinTx (by simp [nonempty])
    · exact (signing nonempty).1.exists_toBitcoinTx convert
  refine ⟨tx, complete, single.checkpointTx.trans converted,
    BitcoinTx.stripWitness_of_toBitcoinTx converted, ?_⟩
  obtain ⟨txins, eachConverted, rfl⟩ := BitcoinTx.toBitcoinTx_eq_ok.mp converted
  refine List.forall₂_iff_get.mpr ⟨eachConverted.length_eq, fun index inBounds txinInBounds => ?_⟩
  have member := List.get_mem checkpoint.mainTx.input ⟨index, inBounds⟩
  exact Input.shownAs_of_toTxin ((signing (List.ne_nil_of_mem member)).2 _ member)
    (eachConverted.get inBounds txinInBounds)

namespace Checkpoint

theorem ReportedAs.output_eq (reported : checkpoint.ReportedAs host tx) :
    tx.output = checkpoint.mainTx.output :=
  congrArg Transaction.output reported.stripWitness_eq

theorem ReportedAs.txid_eq (reported : checkpoint.ReportedAs host tx) :
    tx.txid host = host.txHash checkpoint.mainTx.skeleton := by
  rw [Transaction.txid, reported.stripWitness_eq]

/-- Checkpoints that are linked are reported as transactions one of which spends the
other. -/
theorem ReportedAs.follows (reported : checkpoint.ReportedAs host tx)
    (reportedNext : next.ReportedAs host nextTx)
    (linked : BitcoinTx.Linked host checkpoint.mainTx next.mainTx) : tx.Follows host nextTx := by
  obtain ⟨reserve, input, reserves⟩ := linked
  obtain ⟨others, inputsEq⟩ := List.head?_eq_some_iff.mp reserves.input_eq
  have shown := reportedNext.inputs
  rw [inputsEq, List.forall₂_cons_left_iff] at shown
  obtain ⟨txin, otherTxins, shownFirst, -, txinsEq⟩ := shown
  refine ⟨reserve, txin, input.redeemScript, ?_, ?_, ?_, shownFirst.witness_eq, reserves.script_eq⟩
  · rw [reported.output_eq, reserves.output_eq]
  · rw [txinsEq, List.head?_cons]
  · rw [shownFirst.previousOutput_eq, reserves.prevout_eq, reported.txid_eq]

end Checkpoint

/-- A chain is seen in any two lists whose elements correspond. -/
theorem isChain_of_forall₂ {α β : Type} {R : α → α → Prop} {S : β → β → Prop}
    {shows : α → β → Prop} {xs : List α} {ys : List β} (shown : List.Forall₂ shows xs ys)
    (chain : xs.IsChain R)
    (follows : ∀ {x next y nextY}, shows x y → shows next nextY → R x next → S y nextY) :
    ys.IsChain S := by
  induction shown with
  | nil => exact List.isChain_nil
  | cons first rest ih =>
      cases rest with
      | nil => exact List.isChain_singleton _
      | cons second rest =>
          rw [List.isChain_cons_cons] at chain ⊢
          exact ⟨follows first second chain.1, ih chain.2⟩

/-- The last element of a list shows the last one of the list to which it corresponds. -/
theorem exists_concat_of_forall₂ {α β : Type} {shows : α → β → Prop} {xs : List α} {ys : List β}
    {last : β} (shown : List.Forall₂ shows xs ys) (isLast : last ∈ ys.getLast?) :
    ∃ others x, xs = others ++ [x] ∧ shows x last := by
  induction shown with
  | nil => cases isLast
  | @cons x _ xs _ first rest ih =>
      cases rest with
      | nil =>
          obtain rfl := Option.some.inj isLast
          exact ⟨[], x, rfl, first⟩
      | cons second rest =>
          obtain ⟨others, lastX, split, shownLast⟩ := ih isLast
          exact ⟨x :: others, lastX, congrArg (x :: ·) split, shownLast⟩

end Reports

section Queue

variable {host : Host} {queue : QueueStore} {older : List Checkpoint} {waiting : Option Checkpoint}
  {building : Checkpoint}

namespace QueueStore

theorem Arranged.item_older (arranged : queue.Arranged older waiting building) {position : Nat}
    (inRange : position < older.length) :
    queue.window.item (queue.window.first + position) = some older[position] := by
  rw [Window.item_add]
  change queue.checkpoints[position]? = _
  rw [arranged.checkpoints_eq, List.append_assoc, List.getElem?_append_left inRange,
    List.getElem?_eq_getElem inRange]

/-- The complete checkpoints spend each other's reserve outputs. -/
theorem Arranged.isChain_linked (arranged : queue.Arranged older waiting building)
    (chained : queue.Chained host) :
    older.IsChain fun checkpoint next =>
      BitcoinTx.Linked host checkpoint.mainTx next.mainTx := by
  refine List.isChain_iff_getElem.mpr fun position inRange => ?_
  have nextAt := arranged.item_older inRange
  rw [← Nat.add_assoc] at nextAt
  exact chained _ _ _ (arranged.item_older (Nat.lt_of_succ_lt inRange)) nextAt

/-- The last of the complete checkpoints is found by its index, and is followed by another
checkpoint. -/
theorem Arranged.lastCompleted_eq {others : List Checkpoint} {last : Checkpoint}
    (arranged : queue.Arranged (others ++ [last]) waiting building) (aligned : queue.Aligned) :
    ∃ index next, queue.lastCompletedIndex = .ok index ∧ queue.get index = .ok last ∧
      queue.get (index + 1) = .ok next := by
  have indexEq := arranged.buildingIndex_eq
  rw [List.length_append, List.length_singleton] at indexEq
  have offsetEq : (if waiting.isSome then 2 else 1) = waiting.toList.length + 1 := by
    cases waiting <;> rfl
  obtain ⟨next, nextAt⟩ := Window.exists_item aligned.window
    (by omega : queue.window.first ≤ queue.window.first + others.length + 1)
    (by change _ ≤ queue.buildingIndex; omega)
  refine ⟨queue.window.first + others.length, next, ?_, ?_, get_eq_ok.mpr ⟨aligned, nextAt⟩⟩
  · rw [lastCompletedIndex_eq (arranged.signing_eq (Or.inl aligned.fits)), offsetEq,
      if_pos (by omega)]
    congr 1
    omega
  · exact arranged.get_older aligned List.getElem?_concat_length

end QueueStore

end Queue

namespace Contract

variable {host : Host} {store : Store}

/-- The signing state, and hence the report, of every complete checkpoint. -/
theorem exists_reported {older : List Checkpoint} {waiting : Option Checkpoint}
    {building : Checkpoint} (convert : host.VerifiedHaveDer) (ordered : store.queue.Ordered)
    (kept : store.queue.Each (SigningKept host))
    (arranged : store.queue.Arranged older waiting building) :
    ∃ txs, older.mapM (fun checkpoint => checkpoint.checkpointTx host) = .ok txs ∧
      List.Forall₂ (Checkpoint.ReportedAs host) older txs := by
  have each : ∀ checkpoint ∈ older, ∃ tx, checkpoint.ReportedAs host tx := by
    intro checkpoint member
    obtain ⟨position, inRange, rfl⟩ := List.getElem_of_mem member
    have found := arranged.item_older inRange
    exact (kept _ _ found).exists_reportedAs convert (ordered.single found)
      (arranged.complete _ member)
  obtain ⟨txs, made⟩ := Outcome.exists_mapM_eq_ok.mpr fun checkpoint member =>
    (each checkpoint member).imp fun _ reported => reported.checkpointTx_eq
  refine ⟨txs, made, ?_⟩
  have converted := Outcome.mapM_eq_ok.mp made
  refine List.forall₂_iff_get.mpr ⟨converted.length_eq, fun position inRange txInRange => ?_⟩
  obtain ⟨tx, reported⟩ := each _ (List.get_mem older ⟨position, inRange⟩)
  have isTx := converted.get inRange txInRange
  rw [reported.checkpointTx_eq] at isTx
  exact Except.ok.inj isTx ▸ reported

/-- The last report holds what is locked, and the checkpoint behind it is to spend it. -/
structure HoldsReserve (host : Host) (store : Store) (last : Transaction) : Prop where
  reported : store.queryLastCompleteTx host = .ok last
  spent : ∃ index next reserve input,
    store.queue.lastCompletedIndex = .ok index ∧
      store.queryCheckpointTx host (some index) = .ok last ∧
      store.queue.get (index + 1) = .ok next ∧
      last.output.head? = some reserve ∧ store.queryValueLocked host = .ok reserve.value ∧
      next.mainTx.input.head? = some input ∧ input.prevout = ⟨last.txid host, 0⟩ ∧
      input.amount = reserve.value

theorem holdsReserve {others : List Checkpoint} {checkpoint : Checkpoint}
    {waiting : Option Checkpoint} {building : Checkpoint} {last : Transaction}
    (aligned : store.queue.Aligned) (chained : store.queue.Chained host)
    (arranged : store.queue.Arranged (others ++ [checkpoint]) waiting building)
    (reported : checkpoint.ReportedAs host last) : HoldsReserve host store last := by
  obtain ⟨index, next, lastIndex, got, gotNext⟩ := arranged.lastCompleted_eq aligned
  have lastRead : store.queue.lastCompleted = .ok checkpoint := by
    rw [QueueStore.lastCompleted, lastIndex, Outcome.ok_bind, got]
  obtain ⟨reserve, input, reserves⟩ := chained _ _ _ (QueueStore.get_eq_ok.mp got).2
    (QueueStore.get_eq_ok.mp gotNext).2
  have outputHead : last.output.head? = some reserve := by
    rw [reported.output_eq, reserves.output_eq]
  refine ⟨?_, index, next, reserve, input, lastIndex, ?_, gotNext, outputHead, ?_,
    reserves.input_eq, ?_, reserves.amount_eq⟩
  · rw [Store.queryLastCompleteTx, QueueStore.lastCompletedTx, lastRead, Outcome.ok_bind,
      reported.checkpointTx_eq]
  · rw [Store.queryCheckpointTx, Store.getCheckpoint, Option.getD_some, got, Outcome.ok_bind,
      reported.checkpointTx_eq]
  · rw [Store.queryValueLocked, lastRead, Outcome.ok_bind, Checkpoint.reserveValue,
      Checkpoint.reserveOutput, reported.checkpointTx_eq, Outcome.ok_bind, outputHead]
    rfl
  · rw [reserves.prevout_eq, reported.txid_eq]

end Contract

/-- In every state of every run, the contract reports its latest complete checkpoints in
full, as fully signed transactions each of which spends the reserve of the one before it.
The last one holds the value that is reported as locked, and the next checkpoint spends
it. -/
theorem Contract.run_reported_chain (host : Host) (convert : host.VerifiedHaveDer)
    (info : MessageInfo) (msg : InstantiateMsg) (calls : List Call)
    (permitted : ∀ call ∈ calls, call.AllowsInputs) (limit : Nat) :
    let store := (machine host).run (instantiate host info msg) calls
    let completed := store.queue.completeCheckpoints
    ∃ txs, store.queryCompleteCheckpointTxs host limit = .ok txs ∧
      List.Forall₂ (Checkpoint.ReportedAs host)
        (completed.drop (completed.length - min limit completed.length)) txs ∧
      txs.IsChain (Transaction.Follows host) ∧
      ∀ last ∈ txs.getLast?, HoldsReserve host store last := by
  intro store completed
  have holds : ReserveChain host store := run_reserveChain info msg calls permitted
  have kept : store.queue.Each (SigningKept host) :=
    run_each (SigningKept host) (fun _ _ _ => preservesEach_signingKept)
      ((machine host).permitted_all (instantiate host info msg) calls).onSuccess
  cases holds.shaped with
  | empty checkpoints_eq _ =>
      have noneComplete : completed = [] := by
        simp only [completed, QueueStore.completeCheckpoints, checkpoints_eq, List.filter_nil]
      refine ⟨[], ?_, ?_, List.isChain_nil, ?_⟩
      · simp only [Store.queryCompleteCheckpointTxs, QueueStore.completedTxs, QueueStore.completed,
          checkpoints_eq, List.length_nil, if_true]
        rfl
      · rw [noneComplete, List.drop_nil]
        exact List.Forall₂.nil
      · intro last isLast
        rw [List.getLast?_nil] at isLast
        cases isLast
  | ordered ordered =>
      obtain ⟨before, building, split⟩ : ∃ before building, store.queue.checkpoints =
          before ++ [building] :=
        ⟨_, _, (List.dropLast_append_getLast ordered.nonempty).symm⟩
      obtain ⟨older, waiting, arranged⟩ := ordered.arranged split
      obtain ⟨reports, made, reported⟩ := exists_reported convert ordered kept arranged
      have completedEq : completed = older := arranged.completeCheckpoints_eq
      rw [completedEq]
      set skipped := older.length - min limit older.length
      have readTail : store.queue.completed limit = .ok (older.drop skipped) :=
        arranged.completed_eq (Or.inl ordered.aligned.fits) limit
      have tailReported := List.forall₂_drop skipped reported
      refine ⟨reports.drop skipped, ?_, tailReported, ?_, ?_⟩
      · rw [Store.queryCompleteCheckpointTxs, QueueStore.completedTxs, readTail, Outcome.ok_bind]
        exact Outcome.mapM_eq_ok.mpr
          (List.forall₂_drop skipped (Outcome.mapM_eq_ok.mp made))
      · refine isChain_of_forall₂ reported (arranged.isChain_linked holds.chained) ?_ |>.drop skipped
        exact fun first second linked => first.follows second linked
      · intro last isLast
        obtain ⟨others, checkpoint, tailSplit, lastReported⟩ :=
          exists_concat_of_forall₂ tailReported isLast
        rw [← List.take_append_drop skipped older, tailSplit, ← List.append_assoc] at arranged
        exact holdsReserve ordered.aligned holds.chained arranged lastReported

namespace Sample

/-- The first two checkpoints are complete. -/
def completedCalls : List Contract.Call := forcedCalls ++ [
  executeAt (1410 + MAX_CHECKPOINT_INTERVAL)
    (.submitCheckpointSignature (xpub 1) [⟨(pubkey 1).bytes⟩] 1 7)]

end Sample

theorem Contract.run_reported_chain_sample :
    let store := (machine Sample.host).run
      (instantiate Sample.host Sample.info Sample.instantiateMsg) Sample.completedCalls
    ∃ first second, store.queryCompleteCheckpointTxs Sample.host 5 = .ok [first, second] ∧
      first.Follows Sample.host second ∧ HoldsReserve Sample.host store second := by
  intro store
  obtain ⟨txs, reported, shown, chain, last⟩ := run_reported_chain Sample.host
    (fun _ sig _ _ => ⟨sig, rfl⟩) Sample.info Sample.instantiateMsg Sample.completedCalls
    (by decide +kernel) 5
  have two : txs.length = 2 := shown.length_eq.symm.trans (by decide +kernel)
  obtain ⟨first, second, rfl⟩ := List.length_eq_two.mp two
  exact ⟨first, second, reported, List.isChain_pair.mp chain, last second rfl⟩

end CwBitcoin
