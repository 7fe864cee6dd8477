import CwBitcoin.CheckpointTerms
import CwBitcoin.Pruning

/-!
# Runs whose writes are in place

The source writes a checkpoint under the raw key of its position in the deque.  Until a
push drops the oldest checkpoint, that is the key under which it is read.  Such runs are
those of the contract that writes the element itself.
-/

namespace CwBitcoin

namespace QueueStore

variable {host : Host} {queue after : QueueStore}

theorem set_rawKey (atZero : queue.head = 0) (index : Nat) (checkpoint : Checkpoint) :
    queue.set index checkpoint .rawKey = queue.set index checkpoint := by
  simp only [set, DequeSet.write, atZero, Nat.not_lt_zero, if_false, Nat.sub_zero]

theorem head_of_set {index : Nat} {checkpoint : Checkpoint}
    (wrote : queue.set index checkpoint = .ok after) : after.head = queue.head := by
  obtain ⟨-, -, -, rfl⟩ := set_eq_ok.mp wrote
  rfl

theorem sign_rawKey (atZero : queue.head = 0) (xpub : Xpub) (sigs : List Signature)
    (index btcHeight : Nat) :
    queue.sign host xpub sigs index btcHeight .rawKey =
      queue.sign host xpub sigs index btcHeight := by
  simp only [sign, set_rawKey atZero]

theorem takePending_rawKey (atZero : queue.head = 0) (indexes : List Nat) :
    queue.takePending indexes .rawKey = queue.takePending indexes := by
  induction indexes generalizing queue with
  | nil => rfl
  | cons index rest ih =>
      simp only [takePending, set_rawKey atZero]
      apply Outcome.bind_congr
      intro checkpoint _
      apply Outcome.bind_congr
      intro cleared wrote
      rw [ih ((head_of_set wrote).trans atZero)]

theorem takePendingConfirmed_rawKey (atZero : queue.head = 0) :
    queue.takePendingConfirmed .rawKey = queue.takePendingConfirmed := by
  simp only [takePendingConfirmed, takePending_rawKey atZero]

theorem head_takePendingConfirmed {dests : Payouts}
    (taken : queue.takePendingConfirmed = .ok (after, dests)) : after.head = queue.head :=
  takePendingConfirmed_invariant (fun current => current.head = queue.head)
    (fun _ _ _ same _ => same) (fun _ _ same => same) rfl taken

theorem head_takePendingCompleted {dests : Payouts}
    (taken : queue.takePendingCompleted = .ok (after, dests)) : after.head = queue.head :=
  takePendingCompleted_invariant (fun current => current.head = queue.head)
    (fun _ _ _ same _ => same) (fun _ _ same => same) rfl taken

theorem takePendingCompleted_rawKey (atZero : queue.head = 0) :
    queue.takePendingCompleted .rawKey = queue.takePendingCompleted := by
  rw [takePendingCompleted, takePendingConfirmed_rawKey atZero]
  apply Outcome.bind_congr
  rintro ⟨cleared, confirmedDests⟩ taken
  have clearedZero := (head_takePendingConfirmed taken).trans atZero
  simp only [takePending_rawKey clearedZero]

/-- Handing out pending transfers keeps the times at which the checkpoints were created. -/
theorem createTimes_takePendingCompleted {dests : Payouts}
    (taken : queue.takePendingCompleted = .ok (after, dests)) :
    after.checkpoints.map Checkpoint.createTime = queue.checkpoints.map Checkpoint.createTime := by
  have sameTimes := congrArg (fun terms => terms.items.map Checkpoint.Terms.createTime)
    (terms_takePendingCompleted taken)
  simpa only [terms, Window.map, window, List.map_map, Function.comp_def,
    Checkpoint.terms_createTime] using sameTimes

end QueueStore

namespace Store

variable {host : Host} {env : Env} {store after : Store}

/-- A push drops no checkpoint: there are at most nine, or the oldest one is young. -/
def PrunesNothing (store : Store) (env : Env) : Prop :=
  store.queue.checkpoints.length < 10 ∨ ∀ oldest ∈ store.queue.checkpoints.head?,
    env.seconds ≤ oldest.createTime + store.checkpointConfig.maxAge

instance (store : Store) (env : Env) : Decidable (store.PrunesNothing env) :=
  inferInstanceAs (Decidable (_ ∨ _))

theorem PrunesNothing.congr {other : Store} (nothing : store.PrunesNothing env)
    (sameTimes : other.queue.checkpoints.map Checkpoint.createTime =
      store.queue.checkpoints.map Checkpoint.createTime)
    (sameConfig : other.checkpointConfig = store.checkpointConfig) : other.PrunesNothing env := by
  have sameLength : other.queue.checkpoints.length = store.queue.checkpoints.length := by
    simpa using congrArg List.length sameTimes
  apply nothing.imp (fun few => sameLength.trans_lt few)
  intro young
  rw [sameConfig]
  exact QueueStore.young_congr sameTimes young

/-- Dropping checkpoints needs more than ten of them, the first of which is too old. -/
theorem PrunesNothing.count_eq_zero (nothing : store.PrunesNothing env) {count : Nat}
    (enough : count = 0 ∨ count + 10 ≤ store.queue.checkpoints.length + 1)
    (outdated : ∀ oldest ∈ store.queue.checkpoints.head?, 0 < count →
      store.checkpointConfig.maxAge < env.seconds - oldest.createTime) : count = 0 := by
  by_contra dropped
  have nonempty : 0 < store.queue.checkpoints.length := by omega
  obtain ⟨oldest, others, split⟩ := List.exists_cons_of_length_pos nonempty
  have isOldest : oldest ∈ store.queue.checkpoints.head? := by simp [split]
  have old := outdated oldest isOldest (by omega)
  rcases nothing with few | young
  · omega
  · have := young oldest isOldest
    omega

theorem giveMinerFee_rawKey (atZero : store.queue.head = 0) (amount : Nat) :
    store.giveMinerFee amount .rawKey = store.giveMinerFee amount := by
  simp only [giveMinerFee, QueueStore.set_rawKey atZero]

theorem head_giveMinerFee {amount : Nat} (gave : store.giveMinerFee amount = .ok after) :
    after.queue.head = store.queue.head := by
  simp only [giveMinerFee, Outcome.bind_eq_ok, Outcome.pure_eq_ok] at gave
  obtain ⟨feePool, -, checkpoint, -, fee, -, collected, -, queue, wrote, rfl⟩ := gave
  exact QueueStore.head_of_set wrote

theorem creditDeposit_rawKey (atZero : store.queue.head = 0) (input : Input) (feeRate : Nat)
    (dest : Dest) :
    store.creditDeposit input feeRate dest .rawKey = store.creditDeposit input feeRate dest := by
  simp only [creditDeposit, giveMinerFee_rawKey atZero]
  apply Outcome.bind_congr
  intro inputSize _
  apply Outcome.bind_congr
  intro mintAmount _
  apply Outcome.bind_congr
  intro feeAmount _
  apply Outcome.bind_congr
  intro fee _
  apply Outcome.bind_congr
  intro _ _
  apply Outcome.bind_congr
  intro paid gave
  simp only [QueueStore.set_rawKey ((head_giveMinerFee gave).trans atZero)]

theorem relayDeposit_rawKey (atZero : store.queue.head = 0) (btcTx : Transaction)
    (btcHeight : Nat) (btcProof : PartialMerkleTree) (btcVout sigsetIndex : Nat) (dest : Dest) :
    store.relayDeposit host env btcTx btcHeight btcProof btcVout sigsetIndex dest .rawKey =
      store.relayDeposit host env btcTx btcHeight btcProof btcVout sigsetIndex dest := by
  have inserted (outpoint : OutPoint) (timeout : Nat) :
      (store.insertOutpoint outpoint timeout).queue.head = 0 := atZero
  simp only [relayDeposit, creditDeposit_rawKey (inserted _ _)]

theorem addWithdrawal_rawKey (atZero : store.queue.head = 0) (scriptPubkey : Script)
    (amount : Nat) :
    store.addWithdrawal host scriptPubkey amount .rawKey =
      store.addWithdrawal host scriptPubkey amount := by
  simp only [addWithdrawal, giveMinerFee_rawKey atZero]
  apply Outcome.bind_congr
  intro _ _
  apply Outcome.bind_congr
  intro _ _
  apply Outcome.bind_congr
  intro building _
  apply Outcome.bind_congr
  intro fee _
  apply Outcome.bind_congr
  intro _ _
  apply Outcome.bind_congr
  intro paid gave
  simp only [QueueStore.set_rawKey ((head_giveMinerFee gave).trans atZero)]

theorem head_addWithdrawal {scriptPubkey : Script} {amount : Nat}
    (added : store.addWithdrawal host scriptPubkey amount = .ok after) :
    after.queue.head = store.queue.head := by
  obtain ⟨older, building, fee, -, -, -, -, -, -, rfl⟩ := addWithdrawal_eq_ok added
  rfl

theorem maybePush_rawKey (atZero : store.queue.head = 0) (depositsEnabled : Bool) :
    store.maybePush host env depositsEnabled .rawKey = store.maybePush host env depositsEnabled := by
  simp only [maybePush]
  apply Outcome.bind_congr
  intro index _
  apply Outcome.bind_congr
  intro sigset _
  split
  · rfl
  · apply Outcome.bind_congr
    intro building _
    rw [QueueStore.set_rawKey (by exact atZero)]

/-- A step that prunes nothing freezes the checkpoint that it reads. -/
theorem maybeStep_rawKey {btcHeight : Nat} {shouldAllowDeposits : Bool} {commitment : Bytes}
    {config : BitcoinConfig} (atZero : store.queue.head = 0)
    (nothing : store.shouldPush host env commitment btcHeight = .ok true → store.PrunesNothing env) :
    store.maybeStep host env btcHeight shouldAllowDeposits commitment config .rawKey =
      store.maybeStep host env btcHeight shouldAllowDeposits commitment config := by
  rw [maybeStep, maybeStep, maybePush_rawKey atZero]
  apply Outcome.bind_congr
  intro should shouldOk
  split
  · rfl
  · rename_i isTrue
    obtain rfl : should = true := by simpa using isTrue
    have ready := ready_of_shouldPush shouldOk
    apply Outcome.bind_congr
    rintro ⟨pushedStore, pushed⟩ push
    obtain ⟨index, sigset, -, built, -, -, rfl⟩ := maybePush_eq_ok ready push
    dsimp only
    split
    · rfl
    · apply Outcome.bind_congr
      intro queue pruneOk
      obtain ⟨count, rfl, enough, outdated⟩ := QueueStore.prune_eq_ok rfl pruneOk
      have latest : Checkpoint.createTime
          { Checkpoint.new sigset with depositsEnabled := shouldAllowDeposits } = env.seconds :=
        (SignatorySet.fromValidatorCtx_index built).1
      rw [latest] at outdated
      rw [List.length_append, List.length_singleton] at enough
      obtain rfl : count = 0 := by
        apply (nothing shouldOk).count_eq_zero enough
        intro oldest isOldest dropped
        rw [Option.mem_def, List.head?_eq_getElem?] at isOldest
        have inRange := (List.getElem?_eq_some_iff.mp isOldest).1
        exact (outdated 0 oldest dropped (by rw [List.getElem?_append_left inRange, isOldest])).2
      split
      · rfl
      · apply Outcome.bind_congr
        intro cpFees _
        apply Outcome.bind_congr
        intro prev _
        apply Outcome.bind_congr
        rintro ⟨frozen, advanced⟩ _
        rw [QueueStore.set_rawKey (by exact atZero)]
        apply Outcome.bind_congr
        intro frozenQueue wrote
        have frozenZero : frozenQueue.head = 0 := (QueueStore.head_of_set wrote).trans atZero
        simp only [QueueStore.set_rawKey frozenZero]

theorem beginBlockStep_rawKey {commitment : Bytes} (atZero : store.queue.head = 0)
    (nothing : store.shouldPush host env commitment (HeaderQueue.height store.headers) = .ok true →
      store.PrunesNothing env) :
    store.beginBlockStep host env commitment .rawKey =
      store.beginBlockStep host env commitment := by
  simp only [beginBlockStep, maybeStep_rawKey atZero nothing]

end Store

namespace Contract

variable {host : Host} {store after : Store} {call : Call}

theorem addWithdrawals_rawKey {scriptPubkey : Script} {denom : String} {funds : List Coin}
    (atZero : store.queue.head = 0) :
    addWithdrawals host scriptPubkey denom store funds .rawKey =
      addWithdrawals host scriptPubkey denom store funds := by
  induction funds generalizing store with
  | nil => rfl
  | cons fund funds ih =>
      simp only [addWithdrawals, Store.addWithdrawal_rawKey atZero]
      split
      · apply Outcome.bind_congr
        intro middle added
        exact ih ((Store.head_addWithdrawal added).trans atZero)
      · exact ih atZero

/-- A push that would make the raw keys of positions differ from those that are read drops
no checkpoint. -/
def WritesInPlace (host : Host) (deque : DequeSet) (store : Store) (call : Call) : Prop :=
  deque = .rawKey → Pushes host store call → store.PrunesNothing call.env

instance (host : Host) (deque : DequeSet) (store : Store) (call : Call) :
    Decidable (WritesInPlace host deque store call) :=
  inferInstanceAs (Decidable (_ → _))

theorem clockEndBlock_rawKey {querier : Querier} {hash : Bytes} (call : Call)
    (atZero : store.queue.head = 0) (isClock : call.blockHash = some hash)
    (nothing : Pushes host store call → store.PrunesNothing call.env) :
    clockEndBlock host querier call.env store hash .rawKey =
      clockEndBlock host querier call.env store hash := by
  simp only [clockEndBlock, QueueStore.takePendingCompleted_rawKey atZero]
  apply Outcome.bind_congr
  intro _ _
  apply Outcome.bind_congr
  rintro ⟨queue, dests⟩ taken
  have queueZero : queue.head = 0 := (QueueStore.head_takePendingCompleted taken).trans atZero
  have queueNothing : Store.shouldPush host call.env { store with queue } hash
      (HeaderQueue.height store.headers) = .ok true →
        Store.PrunesNothing { store with queue } call.env := by
    intro should
    have pushes := pushes_of_shouldPush isClock taken should
    exact (nothing pushes).congr (QueueStore.createTimes_takePendingCompleted taken) rfl
  rw [Store.beginBlockStep_rawKey queueZero queueNothing]

/-- Until something has been pruned, a call that prunes nothing does the same for both
writes. -/
theorem call_rawKey (atZero : store.queue.head = 0)
    (nothing : Pushes host store call → store.PrunesNothing call.env) :
    (machine host .rawKey).call store call = (machine host).call store call := by
  suffices same : Contract.call host store call .rawKey = Contract.call host store call by
    simp only [machine, same]
  cases call with
  | clockEndBlock querier env hash =>
      exact clockEndBlock_rawKey (.clockEndBlock querier env hash) atZero rfl nothing
  | execute querier env info msg =>
      simp only [Contract.call]
      cases msg with
      | relayDeposit => simp only [execute, Store.relayDeposit_rawKey atZero]
      | withdrawToBitcoin =>
          simp only [execute, withdrawToBitcoin, addWithdrawals_rawKey atZero]
      | submitCheckpointSignature =>
          simp only [execute, submitCheckpointSignature, QueueStore.sign_rawKey atZero]
      | triggerBeginBlock hash =>
          simp only [execute]
          exact clockEndBlock_rawKey (.execute querier env info (.triggerBeginBlock hash)) atZero rfl
            nothing
      | _ => rfl

/-- Nothing but a push that prunes moves the head. -/
theorem preserves_head (nothing : Pushes host store call → store.PrunesNothing call.env)
    (atZero : store.queue.head = 0) :
    Preserves host store call fun queue => queue.head = 0 where
  credited := by
    intro deposit after _ credited
    rw [credited.after_eq]
    exact atZero
  withdrawn := by
    intro queue after _ queueZero withdrawn
    rw [withdrawn.after_eq]
    exact queueZero
  signed := by
    intro signature after _ signed
    obtain ⟨_, _, -, -, -, -, -, rfl⟩ := QueueStore.sign_eq_ok signed
    exact atZero
  confirmed := fun _ _ _ => atZero
  paidOut := fun _ queueZero _ => queueZero
  handled := fun queueZero => queueZero
  started := by
    intro before after beforeZero first
    rw [first.after_eq]
    exact beforeZero
  rolled := by
    intro hash dests unitsPerSat queue after isClock taken should _ queueZero rollover
    have pushes := pushes_of_shouldPush isClock taken should
    have queueNothing : Store.PrunesNothing { store with queue } call.env :=
      (nothing pushes).congr (QueueStore.createTimes_takePendingCompleted taken) rfl
    have noneDropped : rollover.pruned = 0 := by
      have split : queue.checkpoints = _ := rollover.checkpoints_eq
      apply queueNothing.count_eq_zero
      · have fewEnough := rollover.pruned_le
        simp only [split, List.length_append, List.length_singleton]
        omega
      · intro oldest isOldest dropped
        have prunedLe := rollover.pruned_le_older
        rw [Option.mem_def, List.head?_eq_getElem?, split,
          List.getElem?_append_left (by omega)] at isOldest
        exact (rollover.outdated 0 oldest dropped isOldest).2
    rw [rollover.after_eq, noneDropped]
    exact queueZero

/-- A run of the source that prunes nothing is a run of the contract that writes the element
itself, and its calls do the same there. -/
theorem run_inPlace {deque : DequeSet} {info : MessageInfo} {msg : InstantiateMsg}
    {calls : List Call} (inPlace : (machine host deque).Permitted (WritesInPlace host deque)
      (instantiate host info msg) calls) :
    (machine host deque).run (instantiate host info msg) calls =
        (machine host).run (instantiate host info msg) calls ∧
      ∀ need : Store → Call → Prop,
        (machine host deque).Permitted need (instantiate host info msg) calls →
        (machine host).Permitted (fun store call => need store call ∧
          (machine host deque).call store call = (machine host).call store call)
            (instantiate host info msg) calls := by
  cases deque with
  | element => exact ⟨rfl, fun _ needed => needed.imp fun _ _ holds => ⟨holds, rfl⟩⟩
  | rawKey =>
      refine CallMachine.run_congr
        (fun store : Store => store.queue.Shaped ∧ store.queue.head = 0) ?_ ?_
        ⟨.empty rfl rfl, rfl⟩ inPlace
      · rintro store call ⟨-, atZero⟩ nothing
        exact call_rawKey atZero (nothing rfl)
      · rintro store call after ⟨shaped, atZero⟩ nothing called
        have effect := effect_of_call called
        exact ⟨effect.shaped shaped,
          effect.preserves shaped (preserves_head (nothing rfl) atZero) atZero⟩

/-- Nothing has been pruned in such a run of the source. -/
theorem head_run_inPlace {info : MessageInfo} {msg : InstantiateMsg} {calls : List Call}
    (inPlace : (machine host .rawKey).Permitted (WritesInPlace host .rawKey)
      (instantiate host info msg) calls) :
    ((machine host .rawKey).run (instantiate host info msg) calls).queue.head = 0 := by
  obtain ⟨sameRun, transport⟩ := run_inPlace inPlace
  rw [sameRun]
  exact (run_preserves (fun queue => queue.head = 0)
    (fun _ _ _ atZero nothing => preserves_head (nothing.1 rfl) atZero) (.empty rfl rfl) rfl
    (transport _ inPlace).onSuccess).2

section AfterRun

variable {deque : DequeSet} {info : MessageInfo} {msg : InstantiateMsg} {calls : List Call}
  (inPlace : (machine host deque).Permitted (WritesInPlace host deque)
    (instantiate host info msg) calls)

include inPlace

/-- A deposit that is relayed after such a run is written in place as well. -/
theorem relayDeposit_run_inPlace {env : Env} {btcTx : Transaction} {btcHeight : Nat}
    {btcProof : PartialMerkleTree} {btcVout sigsetIndex : Nat} {dest : Dest} :
    ((machine host deque).run (instantiate host info msg) calls).relayDeposit host env btcTx
        btcHeight btcProof btcVout sigsetIndex dest deque =
      ((machine host deque).run (instantiate host info msg) calls).relayDeposit host env btcTx
        btcHeight btcProof btcVout sigsetIndex dest := by
  cases deque with
  | element => rfl
  | rawKey => exact Store.relayDeposit_rawKey (head_run_inPlace inPlace) ..

theorem addWithdrawal_run_inPlace {scriptPubkey : Script} {amount : Nat} :
    ((machine host deque).run (instantiate host info msg) calls).addWithdrawal host scriptPubkey
        amount deque =
      ((machine host deque).run (instantiate host info msg) calls).addWithdrawal host scriptPubkey
        amount := by
  cases deque with
  | element => rfl
  | rawKey => exact Store.addWithdrawal_rawKey (head_run_inPlace inPlace) ..

end AfterRun

end Contract

end CwBitcoin
