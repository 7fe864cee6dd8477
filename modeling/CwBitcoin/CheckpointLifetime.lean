import CwBitcoin.CheckpointTerms
import CwBitcoin.Library.Spaced

/-!
# How long checkpoints stay in the queue

Checkpoints are started at least the configured interval apart and are pruned
once they are too old.  The queue is therefore bounded, and a signatory set that
deposits may still pay to is never pruned.
-/

namespace CwBitcoin

namespace QueueStore

def createTimes (queue : QueueStore) : List Nat := queue.checkpoints.map Checkpoint.createTime

theorem createTimes_eq (queue : QueueStore) :
    queue.createTimes = queue.terms.items.map Checkpoint.Terms.createTime := by
  rw [createTimes, terms, Window.map, window, List.map_map]
  rfl

theorem createTimes_pushed {queue after : QueueStore} {newest : Checkpoint.Terms} {pruned : Nat}
    (terms_eq : after.terms = (queue.terms.push newest).drop pruned) :
    after.createTimes = (queue.createTimes ++ [newest.createTime]).drop pruned := by
  rw [createTimes_eq, createTimes_eq, terms_eq]
  simp [Window.push, Window.drop]

/-- The checkpoints are spaced out, and there are not too many. -/
structure SpacedOut (interval maxAge : Nat) (queue : QueueStore) : Prop where
  spaced : Spaced interval queue.createTimes
  bounded : queue.checkpoints.length ≤ max 10 (maxAge / interval + 1)

end QueueStore

/-- The configuration keeps checkpoints an interval apart, and prunes them at some
age. -/
def CheckpointConfig.Spaces (interval maxAge : Nat) (config : CheckpointConfig) : Prop :=
  interval ≤ config.minCheckpointInterval ∧ config.maxAge ≤ maxAge

instance (interval maxAge : Nat) (config : CheckpointConfig) :
    Decidable (config.Spaces interval maxAge) :=
  inferInstanceAs (Decidable (_ ∧ _))

namespace Contract

variable {host : Host} {store after : Store} {call : Call} {interval maxAge : Nat}

/-- The checkpoints that a call starts and keeps are spaced out. -/
theorem TermsStep.spaced (step : TermsStep host store call after)
    (spaces : store.queue.checkpoints = [] ∨
      interval ≤ store.checkpointConfig.minCheckpointInterval)
    (holds : Spaced interval store.queue.createTimes) :
    Spaced interval after.queue.createTimes := by
  cases step with
  | kept terms_eq =>
      rw [QueueStore.createTimes_eq, terms_eq, ← QueueStore.createTimes_eq]
      exact holds
  | first newest _ _ _ terms_eq =>
      rw [QueueStore.createTimes_eq, terms_eq]
      exact List.isChain_singleton newest.createTime
  | pushed building newest _ pruned pruned_lt _ last _ apart _ _ terms_eq =>
      have nonempty : store.queue.checkpoints ≠ [] := List.ne_nil_of_length_pos (by omega)
      have intervalLe := spaces.resolve_left nonempty
      have timesAfter := QueueStore.createTimes_pushed terms_eq
      have appended : Spaced interval (store.queue.createTimes ++ [newest.createTime]) := by
        refine List.IsChain.append holds (List.isChain_singleton _) ?_
        intro previous isLast next isNext
        obtain rfl := Option.some.inj isNext
        rw [QueueStore.createTimes_eq, List.getLast?_map, last] at isLast
        obtain rfl := Option.some.inj isLast
        exact (Nat.add_le_add_left intervalLe _).trans apart
      rw [timesAfter]
      exact appended.drop pruned

theorem TermsStep.spacedOut (step : TermsStep host store call after) (positive : 0 < interval)
    (spaces : store.queue.checkpoints = [] ∨ store.checkpointConfig.Spaces interval maxAge)
    (holds : store.queue.SpacedOut interval maxAge) : after.queue.SpacedOut interval maxAge := by
  have spacedAfter := step.spaced (spaces.imp_right And.left) holds.spaced
  refine ⟨spacedAfter, ?_⟩
  cases step with
  | kept terms_eq =>
      rw [← QueueStore.terms_length, terms_eq, QueueStore.terms_length]
      exact holds.bounded
  | first newest _ _ _ terms_eq =>
      rw [← QueueStore.terms_length, terms_eq]
      exact le_max_of_le_left (Nat.succ_le_succ (Nat.zero_le 9))
  | pushed building newest starts pruned pruned_lt _ _ _ _ _ recent terms_eq =>
      have nonempty : store.queue.checkpoints ≠ [] := List.ne_nil_of_length_pos (by omega)
      have ageLe := (spaces.resolve_left nonempty).2
      have timesAfter := QueueStore.createTimes_pushed terms_eq
      rcases recent with few | young
      · exact le_max_of_le_left few
      · apply le_max_of_le_right
        rw [← List.length_map Checkpoint.createTime]
        refine spacedAfter.length_le positive ?_
        intro oldest isOldest latest isLatest
        have inRange : pruned < (store.queue.createTimes ++ [newest.createTime]).length := by
          simp only [QueueStore.createTimes, List.length_append, List.length_map,
            List.length_singleton]
          omega
        have latestEq : latest = call.env.seconds := by
          have isLast : latest ∈ after.queue.createTimes.getLast? := isLatest
          rw [timesAfter, List.getLast?_drop, if_neg (Nat.not_le.mpr inRange),
            List.getLast?_concat] at isLast
          rw [← Option.some.inj isLast, starts.createTime_eq]
        have isHead : oldest ∈ after.queue.createTimes.head? := isOldest
        rw [QueueStore.createTimes, List.head?_map] at isHead
        obtain ⟨first, isFirst, rfl⟩ := Option.map_eq_some_iff.mp isHead
        have youngFirst := young first isFirst
        omega

/-- In every state of every run in which the configuration keeps checkpoints an
interval apart from the first one on, the queue is spaced out and bounded. -/
theorem run_queue_spaced_and_bounded (host : Host) (info : MessageInfo) (msg : InstantiateMsg)
    (interval maxAge : Nat) (positive : 0 < interval) (calls : List Call)
    (spaces : (machine host).Permitted
      (fun store _ => store.queue.checkpoints = [] ∨
        store.checkpointConfig.Spaces interval maxAge)
      (instantiate host info msg) calls) :
    let queue := ((machine host).run (instantiate host info msg) calls).queue
    Spaced interval (queue.checkpoints.map Checkpoint.createTime) ∧
      queue.checkpoints.length ≤ max 10 (maxAge / interval + 1) := by
  have start : (instantiate host info msg).queue.SpacedOut interval maxAge :=
    ⟨List.isChain_nil, Nat.zero_le _⟩
  have holds := CallMachine.run_invariant
    (fun store : Store => store.queue.SpacedOut interval maxAge)
    (fun store call after inv allowed called =>
      (termsStep_of_call called).spacedOut positive allowed inv) start spaces
  exact ⟨holds.spaced, holds.bounded⟩

theorem run_queue_spaced_and_bounded_sample :
    let queue := ((machine Sample.host).run Sample.initial
      (Sample.setupCalls ++ [Sample.signFirst])).queue
    queue.checkpoints.length = 2 ∧
      queue.checkpoints.length ≤ max 10 (MAX_CHECKPOINT_AGE / 300 + 1) :=
  ⟨by decide +kernel, (run_queue_spaced_and_bounded Sample.host Sample.info Sample.instantiateMsg
    300 MAX_CHECKPOINT_AGE (by decide) (Sample.setupCalls ++ [Sample.signFirst])
    (by decide +kernel)).2⟩

section DepositWindow

variable {index : Nat} {terms : Checkpoint.Terms}

/-- A call that starts a checkpoint does so before the given terms are too old. -/
def StartsBefore (terms : Checkpoint.Terms) (store : Store) (call : Call) : Prop :=
  call.blockHash ≠ none → call.env.seconds ≤ terms.createTime + store.checkpointConfig.maxAge

instance (terms : Checkpoint.Terms) (store : Store) (call : Call) :
    Decidable (StartsBefore terms store call) :=
  inferInstanceAs (Decidable (_ → _))

theorem TermsStep.item_kept (step : TermsStep host store call after)
    (found : store.queue.terms.item index = some terms)
    (young : StartsBefore terms store call) : after.queue.terms.item index = some terms := by
  cases step with
  | kept terms_eq => rwa [terms_eq]
  | first _ _ empty =>
      have noItems : store.queue.terms.items = [] := by
        rw [QueueStore.terms, Window.map, QueueStore.window, empty, List.map_nil]
      exact absurd found (Window.item_ne_of_empty noItems)
  | pushed _ newest starts pruned pruned_lt aligned _ _ _ outdated _ terms_eq =>
      have alignedTerms : store.queue.terms.Aligned := by
        rw [Window.Aligned, QueueStore.terms_length]
        exact aligned.window
      have lengthEq := store.queue.terms_length
      have upper := Window.le_last_of_item alignedTerms found
      have notPruned : ¬ index < store.queue.terms.first + pruned := by
        intro isPruned
        have lower := Window.first_le_of_item found
        have atPosition : (store.queue.terms.items.take pruned)[index - store.queue.terms.first]? =
            some terms := by
          rw [List.getElem?_take_of_lt (by omega)]
          exact Window.getElem?_of_item found
        have tooOld := outdated terms (List.mem_of_getElem? atPosition)
        have inTime := young starts.isClock
        omega
      rw [terms_eq, Window.item_drop alignedTerms.push, Window.first_push alignedTerms,
        if_neg notPruned, Window.item_push alignedTerms, if_neg (by omega)]
      · exact found
      · rw [Window.push, List.length_append, QueueStore.terms_length]
        omega

/-- A checkpoint stays in the queue, with its signatory set, its fee rate and whether
it allows deposits, until it is older than the configured age. -/
theorem run_kept_until_old (host : Host) (info : MessageInfo) (msg : InstantiateMsg)
    (calls more : List Call) (index : Nat) (checkpoint : Checkpoint)
    (got : ((machine host).run (instantiate host info msg) calls).queue.get index = .ok checkpoint)
    (young : (machine host).Permitted ((machine host).OnSuccess (StartsBefore checkpoint.terms))
      ((machine host).run (instantiate host info msg) calls) more) :
    ∃ later, ((machine host).run (instantiate host info msg) (calls ++ more)).queue.get index =
        .ok later ∧
      later.sigset = checkpoint.sigset ∧ later.feeRate = checkpoint.feeRate ∧
        later.depositsEnabled = checkpoint.depositsEnabled := by
  obtain ⟨-, found⟩ := QueueStore.get_eq_ok.mp got
  have foundTerms : ((machine host).run (instantiate host info msg) calls).queue.terms.item index =
      some checkpoint.terms := by
    rw [QueueStore.terms_item, found]
    rfl
  have kept := CallMachine.run_invariant
    (fun store : Store => store.queue.terms.item index = some checkpoint.terms)
    (fun store call after inv allowed called =>
      (termsStep_of_call called).item_kept inv (allowed after called)) foundTerms young
  rw [← CallMachine.run_append, QueueStore.terms_item] at kept
  obtain ⟨later, laterAt, sameTerms⟩ := Option.map_eq_some_iff.mp kept
  have aligned := ((run_shaped host info msg (calls ++ more)).ordered_of_item laterAt).aligned
  exact ⟨later, QueueStore.get_eq_ok.mpr ⟨aligned, laterAt⟩,
    congrArg Checkpoint.Terms.sigset sameTerms, congrArg Checkpoint.Terms.feeRate sameTerms,
    congrArg Checkpoint.Terms.depositsEnabled sameTerms⟩

theorem run_kept_until_old_sample :
    ∃ later, ((machine Sample.host).run Sample.initial
        (Sample.setupCalls ++ [Sample.signFirst, .clockEndBlock Sample.querier
          (Sample.env (1000 + MAX_CHECKPOINT_AGE)) [3]])).queue.get 0 = .ok later ∧
      later.sigset = Sample.firstSigset := by
  have got : ((machine Sample.host).run Sample.initial Sample.setupCalls).queue.get 0 =
      .ok (Sample.checkpointAt ((machine Sample.host).run Sample.initial Sample.setupCalls) 0) := by
    decide +kernel
  obtain ⟨later, laterGot, sameSigset, -⟩ := run_kept_until_old Sample.host Sample.info
    Sample.instantiateMsg Sample.setupCalls [Sample.signFirst, .clockEndBlock Sample.querier
      (Sample.env (1000 + MAX_CHECKPOINT_AGE)) [3]] 0 _ got (by decide +kernel)
  exact ⟨later, laterGot, by rw [sameSigset]; decide +kernel⟩

end DepositWindow

end Contract

end CwBitcoin
