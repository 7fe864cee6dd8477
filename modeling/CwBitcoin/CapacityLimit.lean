import CwBitcoin.CheckpointTerms

/-!
# The capacity limit of the bridge

Whether a checkpoint takes deposits is decided when a block starts it, by the
reserve of the last completed checkpoint.  Every deposit that is accepted later pays
to a checkpoint that was started while the reserve was below the limit.
-/

namespace CwBitcoin

namespace Store

/-- No checkpoint is completed yet, or the reserve is below the limit. -/
def BelowCapacity (host : Host) (store : Store) : Prop :=
  store.queue.lastCompletedIndex = .error (.error QueueStore.noCompleted) ∨
    ∃ value, store.valueLocked host = .ok value ∧ value < store.bitcoinConfig.capacityLimit

variable {host : Host} {env : Env} {store after : Store}

theorem belowCapacity_of_allowsDeposits (allowed : store.allowsDeposits host = .ok true) :
    store.BelowCapacity host := by
  simp only [allowsDeposits, Outcome.bind_eq_ok, Outcome.pure_eq_ok, Bool.not_eq_true'] at allowed
  obtain ⟨hasCompleted, readCompleted, reached, readReached, rfl⟩ := allowed
  cases hasCompleted with
  | true =>
      simp only [reachedCapacityLimit, if_true, Outcome.bind_eq_ok, Outcome.pure_eq_ok,
        decide_eq_false_iff_not, Nat.not_le] at readReached
      exact Or.inr readReached
  | false =>
      left
      unfold hasCompletedCp at readCompleted
      split at readCompleted
      · rename_i error read
        split at readCompleted
        · rename_i isNoCompleted
          rw [read, isNoCompleted]
        · simp at readCompleted
      · simp at readCompleted
      · simp at readCompleted

/-- Deposits are accepted only for checkpoints that take them. -/
theorem depositsEnabled_of_relayDeposit {btcTx : Transaction} {btcHeight btcVout sigsetIndex : Nat}
    {btcProof : PartialMerkleTree} {dest : Dest}
    (relayed : store.relayDeposit host env btcTx btcHeight btcProof btcVout sigsetIndex dest =
      .ok after) :
    ∃ checkpoint, store.queue.get sigsetIndex = .ok checkpoint ∧
      checkpoint.depositsEnabled = true := by
  simp only [relayDeposit, Outcome.bind_eq_ok, Outcome.require_eq_ok] at relayed
  obtain ⟨txid, -, -, -, output, -, checkpoint, got, expectedScript, -, -, -, -, -, timeout, -, -,
    enabled, -⟩ := relayed
  exact ⟨checkpoint, got, enabled⟩

end Store

namespace Contract

variable {host : Host} {store after : Store} {call : Call} {index : Nat}
  {terms : Checkpoint.Terms}

/-- Terms that a call brings into the queue are those of the checkpoint it starts. -/
theorem TermsStep.starts (step : TermsStep host store call after)
    (fresh : store.queue.terms.item index ≠ some terms)
    (found : after.queue.terms.item index = some terms) : Starts host store call terms := by
  cases step with
  | kept terms_eq => exact absurd (terms_eq ▸ found) fresh
  | first newest starts _ _ terms_eq =>
      rw [terms_eq] at found
      obtain rfl := List.mem_singleton.mp (Window.mem_of_item found)
      exact starts
  | pushed _ newest starts pruned pruned_lt aligned _ _ _ _ _ terms_eq =>
      have alignedTerms : store.queue.terms.Aligned := by
        rw [Window.Aligned, QueueStore.terms_length]
        exact aligned.window
      have enough : pruned ≤ (store.queue.terms.push newest).items.length := by
        rw [Window.push, List.length_append, QueueStore.terms_length]
        omega
      rw [terms_eq, Window.item_drop alignedTerms.push enough, Window.item_push alignedTerms] at found
      split_ifs at found
      · obtain rfl := Option.some.inj found
        exact starts
      · exact absurd found fresh

/-- The call succeeds and starts the checkpoint with the given index and terms, which
was not in the queue before. -/
structure StartedBy (host : Host) (store : Store) (call : Call) (index : Nat)
    (terms : Checkpoint.Terms) : Prop where
  starts : Starts host store call terms
  notYet : store.queue.terms.item index ≠ some terms
  started : ∃ after, (machine host).call store call = .ok after ∧
    after.queue.terms.item index = some terms

/-- Every checkpoint of a run was started by a block of it, which decided its terms. -/
theorem exists_startedBy (info : MessageInfo) (msg : InstantiateMsg) {calls : List Call}
    {checkpoint : Checkpoint}
    (got : ((machine host).run (instantiate host info msg) calls).queue.get index =
      .ok checkpoint) :
    ∃ earlier start later, calls = earlier ++ start :: later ∧
      StartedBy host ((machine host).run (instantiate host info msg) earlier) start index
        checkpoint.terms := by
  obtain ⟨-, found⟩ := QueueStore.get_eq_ok.mp got
  obtain ⟨earlier, start, later, after, split, notYet, called, thenFound⟩ :=
    CallMachine.run_origin
      (fun store : Store => store.queue.terms.item index = some checkpoint.terms)
      (Window.item_ne_of_empty rfl) (by rw [QueueStore.terms_item, found]; rfl)
  exact ⟨earlier, start, later, split, (termsStep_of_call called).starts notYet thenFound, notYet,
    after, called, thenFound⟩

/-- A deposit that is accepted pays to a checkpoint that a block of the run started while
the reserve was below the capacity limit. -/
theorem run_deposit_below_capacity (host : Host) (info : MessageInfo) (msg : InstantiateMsg)
    (calls : List Call) (call : Call) (deposit : RelayedDeposit) (after : Store)
    (isDeposit : call.deposit = some deposit)
    (accepted : (machine host).call ((machine host).run (instantiate host info msg) calls) call =
      .ok after) :
    ∃ checkpoint earlier start later,
      ((machine host).run (instantiate host info msg) calls).queue.get deposit.sigsetIndex =
        .ok checkpoint ∧
      calls = earlier ++ start :: later ∧
      StartedBy host ((machine host).run (instantiate host info msg) earlier) start
        deposit.sigsetIndex checkpoint.terms ∧
      ((machine host).run (instantiate host info msg) earlier).BelowCapacity host := by
  have effect := effect_of_call accepted
  cases effect with
  | deposit _ _ _ btcTx btcHeight btcProof btcVout sigsetIndex dest relayed =>
      obtain rfl := Option.some.inj isDeposit
      obtain ⟨checkpoint, got, enabled⟩ := Store.depositsEnabled_of_relayDeposit relayed
      obtain ⟨earlier, start, later, split, started⟩ := exists_startedBy info msg got
      have allowed := started.starts.allows_eq
      have termsEnabled : checkpoint.terms.depositsEnabled = true := enabled
      rw [termsEnabled] at allowed
      exact ⟨checkpoint, earlier, start, later, got, split, started,
        Store.belowCapacity_of_allowsDeposits allowed⟩
  | withdrawal _ noDeposit => simp [noDeposit] at isDeposit
  | signature _ noDeposit => simp [noDeposit] at isDeposit
  | confirmation _ noDeposit => simp [noDeposit] at isDeposit
  | configuration => cases isDeposit
  | endBlock _ noDeposit => simp [noDeposit] at isDeposit
  | other _ noDeposit => simp [noDeposit] at isDeposit

theorem run_deposit_below_capacity_first :
    ∃ checkpoint earlier start later,
      ((machine Sample.host).run Sample.initial (Sample.setupCalls.take 5)).queue.get 0 =
        .ok checkpoint ∧
      Sample.setupCalls.take 5 = earlier ++ start :: later ∧
      StartedBy Sample.host ((machine Sample.host).run Sample.initial earlier) start 0
        checkpoint.terms ∧
      ((machine Sample.host).run Sample.initial earlier).BelowCapacity Sample.host :=
  run_deposit_below_capacity Sample.host Sample.info Sample.instantiateMsg
    (Sample.setupCalls.take 5) (Sample.relayDepositAt 1010 7 Sample.depositTx "a")
    { btcTx := Sample.depositTx, btcVout := 0, sigsetIndex := 0, dest := .address "a" }
    ((machine Sample.host).run Sample.initial (Sample.setupCalls.take 6)) rfl (by decide +kernel)

end Contract

end CwBitcoin
