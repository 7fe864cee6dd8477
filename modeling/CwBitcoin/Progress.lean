import CwBitcoin.Confirmation
import CwBitcoin.PendingPayouts
import CwBitcoin.Punishment

/-!
# What signatures and blocks bring about

Once the accepted signatures have the voting power that each input asks for, the
checkpoint is complete, whatever other calls come in between.  The next block then hands
out every transfer that waited for it.
-/

namespace CwBitcoin

namespace ThresholdSig

/-- Keys whose signatures are not missing have no more voting power than has signed. -/
theorem sum_powerOf_le_signedSum {ts : ThresholdSig} {keys : List Pubkey} (nodup : keys.Nodup)
    (signed : ∀ key ∈ keys, ts.needsSig key = false) :
    (keys.map ts.powerOf).sum ≤ signedSum id ts.sigs := by
  induction shares : ts.sigs generalizing ts keys with
  | nil =>
      refine Nat.le_of_eq (List.sum_eq_zero fun power member => ?_)
      obtain ⟨key, -, rfl⟩ := List.mem_map.mp member
      simp [powerOf, findShare, shares]
  | cons entry rest ih =>
      obtain ⟨owner, share⟩ := entry
      -- Other keys than the owner's find their shares further on.
      have others {among : List Pubkey} (among_nodup : among.Nodup) (subset : among ⊆ keys)
          (apart : owner ∉ among) : (among.map ts.powerOf).sum ≤ signedSum id rest := by
        have skips (key : Pubkey) (member : key ∈ among) :
            ts.findShare key = ThresholdSig.findShare { ts with sigs := rest } key := by
          have ne : ¬key = owner := fun same => apart (same ▸ member)
          simp [findShare, shares, ne]
        have samePowers : among.map ts.powerOf =
            among.map (powerOf { ts with sigs := rest }) := by
          refine List.map_congr_left fun key member => ?_
          rw [powerOf, powerOf, skips key member]
        rw [samePowers]
        apply ih among_nodup ?_ rfl
        intro key member
        have itsSigned := signed key (subset member)
        rwa [needsSig, skips key member] at itsSigned
      by_cases isAmong : owner ∈ keys
      · have ownerSigned : share.sig.isSome = true := by
          have itsSigned := signed owner isAmong
          simpa [needsSig, findShare, shares, Option.isSome_iff_ne_none] using itsSigned
        have rest := others (nodup.erase owner) List.erase_subset nodup.not_mem_erase
        rw [((List.perm_cons_erase isAmong).map _).sum_eq, List.map_cons, List.sum_cons]
        simpa [signedSum, ownerSigned, powerOf, findShare, shares] using rest
      · refine (others nodup (List.Subset.refl _) isAmong).trans ?_
        rw [signedSum, signedSum, List.map_cons, List.sum_cons]
        exact Nat.le_add_left _ _

end ThresholdSig

section Completion

variable {host : Host} {input : Input} {index : Nat}

/-- An input in which no signature of the key is missing does not need one. -/
theorem Input.needsSig_of_wanted {xpub : Xpub} {key : Pubkey}
    (derived : xpub.derivePubkey host input.sigsetIndex = .ok key)
    (nothing : input.wanted host xpub = .ok []) : input.signatures.needsSig key = false := by
  by_contra missing
  rw [Bool.not_eq_false] at missing
  simp [wanted, derived, missing] at nothing

namespace Contract

/-- The keys that have signed a checkpoint in a run have more voting power in an input
than it asks for. -/
def EnoughSigned (host : Host) (start : Store) (calls : List Call) (index : Nat) (input : Input) :
    Prop :=
  ∃ keys : List Pubkey, keys.Nodup ∧
    (∀ key ∈ keys, ∃ xpub, SignedIn host start calls xpub index ∧
      xpub.derivePubkey host input.sigsetIndex = .ok key) ∧
    input.signatures.threshold < (keys.map input.signatures.powerOf).sum

variable {start : Store} {calls : List Call} {checkpoint : Checkpoint}

/-- The signatures that the run has brought are counted. -/
theorem EnoughSigned.signed (shaped : start.queue.Shaped)
    (found : ((machine host).run start calls).queue.window.item index = some checkpoint)
    (single : checkpoint.Single) (inTx : input ∈ checkpoint.mainTx.input)
    (counted : input.signatures.signedPower =
      ThresholdSig.signedSum id input.signatures.sigs)
    (enough : EnoughSigned host start calls index input) : input.signatures.signed = true := by
  obtain ⟨keys, nodup, brought, above⟩ := enough
  have nothingMissing : ∀ key ∈ keys, input.signatures.needsSig key = false := by
    intro key member
    obtain ⟨xpub, signedIn, derived⟩ := brought key member
    obtain ⟨-, holds⟩ := frozenWith_of_signedIn shaped signedIn
    have hasSigned := Checkpoint.hasSigned_iff.mp (holds checkpoint found)
    obtain ⟨signedTxs, tx, batches⟩ := single
    rw [Checkpoint.mainTx, batches] at inTx
    rw [batches, Checkpoint.readyBatches_singleton] at hasSigned
    exact Input.needsSig_of_wanted derived (hasSigned _ (List.mem_singleton_self _) tx
      (List.mem_singleton_self _) input inTx)
  have power := ThresholdSig.sum_powerOf_le_signedSum nodup nothingMissing
  rw [ThresholdSig.signed, decide_eq_true_eq, counted]
  exact above.trans_le power

end Contract

end Completion

/-- In every run, a checkpoint that is not built any more and has an input is complete
as soon as the keys whose signatures the run has brought have enough voting power in
every input of it. -/
theorem Contract.run_complete_of_signed (host : Host) (info : MessageInfo) (msg : InstantiateMsg)
    (calls : List Call) (index : Nat) (checkpoint : Checkpoint)
    (got : ((machine host).run (instantiate host info msg) calls).queue.get index =
      .ok checkpoint)
    (notBuilding : checkpoint.status ≠ .building) (nonempty : checkpoint.mainTx.input ≠ [])
    (enough : ∀ input ∈ checkpoint.mainTx.input,
      EnoughSigned host (instantiate host info msg) calls index input) :
    checkpoint.status = .complete := by
  obtain ⟨-, found⟩ := QueueStore.get_eq_ok.mp got
  have single := ((run_shaped host info msg calls).ordered_of_item found).single found
  have each := run_each (SigningKept host) (fun _ _ _ => preservesEach_signingKept)
    ((machine host).permitted_all (instantiate host info msg) calls).onSuccess
  have exact := (each index checkpoint found).frozen notBuilding nonempty
  refine exact.complete_iff.mpr fun batch member tx txMember input inTx => ?_
  have isMain : tx = checkpoint.mainTx := by
    obtain ⟨signedTxs, main, batches⟩ := single
    rw [batches] at member
    obtain rfl := List.mem_singleton.mp member
    rw [Checkpoint.mainTx, batches]
    exact List.mem_singleton.mp txMember
  obtain ⟨position, atPosition⟩ := List.getElem?_of_mem inTx
  have inputExact := ((exact.batches batch member).txs tx txMember).inputs position input atPosition
  subst isMain
  exact (enough input inTx).signed (.empty rfl rfl) found single inTx inputExact.signedPower_eq

theorem Contract.run_complete_of_signed_sample :
    (Sample.checkpointAt ((machine Sample.host).run
      (instantiate Sample.host Sample.info Sample.instantiateMsg)
      (Sample.setupCalls ++ [Sample.signFirst])) 0).status = .complete := by
  have accepted : (machine Sample.host).call ((machine Sample.host).run
      (instantiate Sample.host Sample.info Sample.instantiateMsg) Sample.setupCalls)
      Sample.signFirst = .ok ((machine Sample.host).run
        (instantiate Sample.host Sample.info Sample.instantiateMsg)
        (Sample.setupCalls ++ [Sample.signFirst])) := by
    decide +kernel
  have signedIn : SignedIn Sample.host
      (instantiate Sample.host Sample.info Sample.instantiateMsg)
      (Sample.setupCalls ++ [Sample.signFirst]) (Sample.xpub 1) 0 :=
    ⟨Sample.setupCalls, Sample.signFirst, [], _, _, rfl, rfl, rfl, rfl, accepted⟩
  refine run_complete_of_signed Sample.host Sample.info Sample.instantiateMsg
    (Sample.setupCalls ++ [Sample.signFirst]) 0 _ (by decide +kernel) (by decide +kernel)
    (by decide +kernel) fun input inTx => ?_
  have oneKey : (Sample.xpub 1).derivePubkey Sample.host input.sigsetIndex =
      .ok (Sample.pubkey 1) ∧
        input.signatures.threshold < ([Sample.pubkey 1].map input.signatures.powerOf).sum := by
    revert input
    decide +kernel
  exact ⟨[Sample.pubkey 1], List.nodup_singleton _, fun key member =>
    ⟨Sample.xpub 1, signedIn, List.mem_singleton.mp member ▸ oneKey.1⟩, oneKey.2⟩

section Delivery

variable {host : Host} {store after : Store} {call : Contract.Call} {hash : Bytes}

/-- When complete checkpoints have no transfers, all wait in the others. -/
theorem Checkpoint.flatMap_pending_incomplete {checkpoints : List Checkpoint}
    (delivered : ∀ checkpoint ∈ checkpoints, checkpoint.status = .complete →
      checkpoint.pending = []) :
    (checkpoints.filter fun checkpoint => checkpoint.status ≠ .complete).flatMap pending =
      checkpoints.flatMap pending := by
  induction checkpoints with
  | nil => rfl
  | cons checkpoint rest ih =>
      obtain ⟨first, others⟩ := List.forall_mem_cons.mp delivered
      by_cases isComplete : checkpoint.status = .complete
      · simpa [isComplete, first isComplete] using ih others
      · simpa [isComplete] using ih others

/-- After a block no transfer waits in a complete checkpoint. -/
theorem Contract.pending_eq_nil_of_blockHash (shaped : store.queue.Shaped)
    (settled : store.queue.Settled) (confirmed : store.queue.ConfirmedComplete)
    (isBlock : call.blockHash = some hash) (called : (machine host).call store call = .ok after)
    {index : Nat} {checkpoint : Checkpoint}
    (found : after.queue.window.item index = some checkpoint)
    (isComplete : checkpoint.status = .complete) : checkpoint.pending = [] := by
  obtain ⟨queue, dests, stepped, allowed, pushed, taken, -, steppedOk, same⟩ :=
    maybeStep_of_blockHash isBlock called
  have paysOut := QueueStore.paysOut_of_takePendingCompleted shaped taken
  obtain ⟨sameIndex, sameConfirmed⟩ := QueueStore.indexes_takePendingCompleted taken
  rw [same.queue_eq] at found
  rcases Store.maybeStep_eq_ok steppedOk with ⟨rfl, -⟩ | ⟨⟨first⟩⟩ | ⟨rollover, -⟩
  · by_cases fromConfirmed : store.queue.confirmedIndex.getD 0 ≤ index
    · exact paysOut.paid found isComplete fromConfirmed
    · -- A checkpoint before the confirmed one has long been paid out.
      cases isConfirmed : store.queue.confirmedIndex with
      | none => simp [isConfirmed] at fromConfirmed
      | some confirmedIndex =>
          have before := confirmed.lt_building isConfirmed
          rw [isConfirmed, Option.getD_some] at fromConfirmed
          have takenSettled : queue.Settled := settled.paysOut paysOut sameIndex
          exact takenSettled index checkpoint found (by omega)
  · rw [QueueStore.window, first.checkpoints_after] at found
    obtain rfl := List.mem_singleton.mp (Window.mem_of_item found)
    rfl
  · rcases rollover.item_after_cases found with ⟨-, rfl⟩ | ⟨-, rfl⟩ | ⟨older, oldAt⟩
    · cases isComplete
    · cases isComplete
    · exact rollover.older_paid_of_taken shaped settled taken oldAt older

end Delivery

/-- In every run whose proofs of confirmation name complete checkpoints, a block leaves no
transfer in a complete checkpoint: what deposits have inserted so far has been handed out
or waits in a checkpoint that is not complete. -/
theorem Contract.run_payouts_delivered (host : Host) (info : MessageInfo) (msg : InstantiateMsg)
    (calls : List Call) (block : Call) (after : Store)
    (permitted : (machine host).Permitted ((machine host).OnSuccess ConfirmsCompleted)
      (instantiate host info msg) calls)
    (isBlock : block.blockHash ≠ none)
    (called : (machine host).call ((machine host).run (instantiate host info msg) calls) block =
      .ok after) :
    (∀ index checkpoint, after.queue.get index = .ok checkpoint →
        checkpoint.status = .complete → checkpoint.pending = []) ∧
      ((runLedger host (instantiate host info msg) (calls ++ [block])).inserted.map
        Prod.snd).Perm
          ((runLedger host (instantiate host info msg) (calls ++ [block])).handed ++
            (after.queue.checkpoints.filter fun checkpoint =>
              checkpoint.status ≠ .complete).flatMap Checkpoint.pending) := by
  obtain ⟨hash, isHash⟩ := Option.ne_none_iff_exists'.mp isBlock
  have conserved := run_payoutsConserved host info msg calls
  have start : (instantiate host info msg).queue.ConfirmedComplete := ⟨nofun, nofun⟩
  obtain ⟨shaped, confirmed⟩ := run_preserves QueueStore.ConfirmedComplete
    (fun _ _ shaped confirmed allowed => preserves_confirmedComplete shaped confirmed allowed)
    (.empty rfl rfl) start permitted
  have delivered : ∀ index checkpoint, after.queue.window.item index = some checkpoint →
      checkpoint.status = .complete → checkpoint.pending = [] := fun _ _ found isComplete =>
    pending_eq_nil_of_blockHash shaped conserved.settled confirmed isHash called found isComplete
  have isAfter : (machine host).run (instantiate host info msg) (calls ++ [block]) = after := by
    rw [CallMachine.run_append, CallMachine.run_cons, CallMachine.next, called]
    rfl
  have conservedAfter := run_payoutsConserved host info msg (calls ++ [block])
  rw [isAfter] at conservedAfter
  refine ⟨fun index checkpoint got => delivered index checkpoint (QueueStore.get_eq_ok.mp got).2, ?_⟩
  rw [Checkpoint.flatMap_pending_incomplete]
  · exact conservedAfter.conserved
  · intro checkpoint member isComplete
    obtain ⟨index, found⟩ : ∃ index, after.queue.window.item index = some checkpoint :=
      Window.exists_index member
    exact delivered index checkpoint found isComplete

theorem Contract.run_payouts_delivered_sample :
    let start := instantiate Sample.host Sample.info Sample.instantiateMsg
    let calls := Sample.confirmCalls (Sample.setupCalls ++ [Sample.signFirst]) 0
    let block : Call := .clockEndBlock Sample.querier (Sample.env 1440) [3]
    let after := (machine Sample.host).run start (calls ++ [block])
    (Sample.checkpointAt after 0).pending = [] ∧
      (runLedger Sample.host start (calls ++ [block])).handed.map Prod.fst = [.address "a"] := by
  have called : (machine Sample.host).call ((machine Sample.host).run
      (instantiate Sample.host Sample.info Sample.instantiateMsg)
      (Sample.confirmCalls (Sample.setupCalls ++ [Sample.signFirst]) 0))
      (.clockEndBlock Sample.querier (Sample.env 1440) [3]) = .ok ((machine Sample.host).run
        (instantiate Sample.host Sample.info Sample.instantiateMsg)
        (Sample.confirmCalls (Sample.setupCalls ++ [Sample.signFirst]) 0 ++
          [.clockEndBlock Sample.querier (Sample.env 1440) [3]])) := by
    decide +kernel
  exact ⟨(run_payouts_delivered Sample.host Sample.info Sample.instantiateMsg
    (Sample.confirmCalls (Sample.setupCalls ++ [Sample.signFirst]) 0)
    (.clockEndBlock Sample.querier (Sample.env 1440) [3]) _ (by decide +kernel)
    (Option.some_ne_none _) called).1 0 _ (by decide +kernel) (by decide +kernel),
    by decide +kernel⟩

end CwBitcoin
