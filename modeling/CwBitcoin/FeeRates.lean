import CwBitcoin.CheckpointTerms

/-!
# The fee rates of checkpoints

The fee rate goes up while checkpoints are not confirmed in time and down
otherwise.  It never leaves the configured bounds and never moves by more than a
quarter from one checkpoint to the next.
-/

namespace CwBitcoin

/-- At most a quarter up or down, where one step of one is always possible. -/
def WithinQuarter (prev next : Nat) : Prop :=
  min (prev * 3 / 4) (prev - 1) ≤ next ∧ next ≤ max (prev * 5 / 4) (prev + 1)

/-- The configuration has the given bounds for fee rates. -/
def CheckpointConfig.FeeBounds (low high : Nat) (config : CheckpointConfig) : Prop :=
  config.minFeeRate = low ∧ config.maxFeeRate = high

instance (low high : Nat) (config : CheckpointConfig) : Decidable (config.FeeBounds low high) :=
  inferInstanceAs (Decidable (_ ∧ _))

section Adjust

variable {config : CheckpointConfig} {low high prev next : Nat} {up : Bool}

/-- An adjusted fee rate is within the bounds and at most a quarter away. -/
theorem adjustFeeRate_eq_ok (adjusted : adjustFeeRate prev up config = .ok next)
    (bounds : config.FeeBounds low high) :
    (low ≤ next ∧ next ≤ high) ∧ (low ≤ prev → prev ≤ high → WithinQuarter prev next) := by
  obtain ⟨rfl, rfl⟩ := bounds
  unfold WithinQuarter
  cases up with
  | true =>
      simp only [adjustFeeRate, if_true, Outcome.bind_eq_ok, Outcome.checkedMul_eq_ok,
        Outcome.checkedAdd_eq_ok, Outcome.assert_eq_ok, Outcome.pure_eq_ok] at adjusted
      obtain ⟨_, ⟨-, rfl⟩, _, ⟨-, rfl⟩, _, rfl, -, ordered, rfl⟩ := adjusted
      omega
  | false =>
      simp only [adjustFeeRate, Bool.false_eq_true, if_false, Outcome.bind_eq_ok,
        Outcome.checkedMul_eq_ok, Outcome.checkedSub_eq_ok, Outcome.assert_eq_ok,
        Outcome.pure_eq_ok] at adjusted
      obtain ⟨_, ⟨-, rfl⟩, _, ⟨-, rfl⟩, _, rfl, -, ordered, rfl⟩ := adjusted
      omega

/-- A positive fee rate that leaves room for a quarter can be adjusted. -/
theorem exists_adjustFeeRate (bounds : config.FeeBounds low high) (ordered : low ≤ high)
    (positive : 0 < prev) (room : prev * 5 < 2 ^ 64) (up : Bool) :
    ∃ next, adjustFeeRate prev up config = .ok next := by
  obtain ⟨rfl, rfl⟩ := bounds
  cases up with
  | true =>
      simp only [adjustFeeRate, if_true, Outcome.bind_eq_ok, Outcome.checkedMul_eq_ok,
        Outcome.checkedAdd_eq_ok, Outcome.assert_eq_ok, Outcome.pure_eq_ok]
      exact ⟨_, _, ⟨room, rfl⟩, _, ⟨by omega, rfl⟩, _, rfl, (), ordered, rfl⟩
  | false =>
      simp only [adjustFeeRate, Bool.false_eq_true, if_false, Outcome.bind_eq_ok,
        Outcome.checkedMul_eq_ok, Outcome.checkedSub_eq_ok, Outcome.assert_eq_ok,
        Outcome.pure_eq_ok]
      exact ⟨_, _, ⟨by omega, rfl⟩, _, ⟨by omega, rfl⟩, _, rfl, (), ordered, rfl⟩

theorem FeeRateStep.within (step : FeeRateStep config prev next)
    (bounds : config.FeeBounds low high) (lower : low ≤ prev) (upper : prev ≤ high) :
    (low ≤ next ∧ next ≤ high) ∧ WithinQuarter prev next := by
  cases step with
  | kept =>
      unfold WithinQuarter
      omega
  | adjusted up adjustedOk =>
      obtain ⟨inBounds, near⟩ := adjustFeeRate_eq_ok adjustedOk bounds
      exact ⟨inBounds, near lower upper⟩

end Adjust

namespace QueueStore

/-- The fee rates of the queue are within the bounds and close to each other. -/
structure FeeRatesWithin (low high : Nat) (queue : QueueStore) : Prop where
  bounded : ∀ terms ∈ queue.terms.items, low ≤ terms.feeRate ∧ terms.feeRate ≤ high
  near : queue.terms.items.IsChain fun prev next => WithinQuarter prev.feeRate next.feeRate

end QueueStore

namespace Contract

variable {host : Host} {store after : Store} {call : Call} {low high : Nat}

theorem TermsStep.feeRatesWithin (step : TermsStep host store call after)
    (default : low ≤ DEFAULT_FEE_RATE ∧ DEFAULT_FEE_RATE ≤ high)
    (bounds : store.queue.checkpoints = [] ∨ store.checkpointConfig.FeeBounds low high)
    (holds : store.queue.FeeRatesWithin low high) : after.queue.FeeRatesWithin low high := by
  cases step with
  | kept terms_eq => exact ⟨terms_eq ▸ holds.bounded, terms_eq ▸ holds.near⟩
  | first newest _ _ feeRate_eq terms_eq =>
      refine ⟨?_, ?_⟩
      · rw [terms_eq, List.forall_mem_singleton, feeRate_eq]
        exact default
      · rw [terms_eq]
        exact List.isChain_singleton newest
  | pushed building newest _ pruned pruned_lt _ last feeRate _ _ _ terms_eq =>
      have nonempty : store.queue.checkpoints ≠ [] := List.ne_nil_of_length_pos (by omega)
      have buildingBounds := holds.bounded building (List.mem_of_getLast? last)
      obtain ⟨inBounds, near⟩ := feeRate.within (bounds.resolve_left nonempty) buildingBounds.1
        buildingBounds.2
      refine ⟨?_, ?_⟩
      · intro terms member
        rw [terms_eq] at member
        rcases List.mem_append.mp (List.mem_of_mem_drop member) with older | isNewest
        · exact holds.bounded terms older
        · rw [List.mem_singleton.mp isNewest]
          exact inBounds
      · rw [terms_eq]
        refine Window.isChain_drop_push holds.near ?_ pruned
        intro previous isLast
        obtain rfl := Option.some.inj (last.symm.trans isLast)
        exact near

/-- In every state of every run in which the bounds stay the same from the first
checkpoint on, each fee rate is within the bounds, at most a quarter away from the
one before it, and can be adjusted. -/
theorem run_feeRates_within (host : Host) (info : MessageInfo) (msg : InstantiateMsg)
    (low high : Nat) (lower : low ≤ DEFAULT_FEE_RATE) (upper : DEFAULT_FEE_RATE ≤ high)
    (calls : List Call)
    (fixed : (machine host).Permitted
      (fun store _ => store.queue.checkpoints = [] ∨ store.checkpointConfig.FeeBounds low high)
      (instantiate host info msg) calls) :
    let checkpoints := ((machine host).run (instantiate host info msg) calls).queue.checkpoints
    (∀ checkpoint ∈ checkpoints, low ≤ checkpoint.feeRate ∧ checkpoint.feeRate ≤ high) ∧
      (checkpoints.IsChain fun prev next => WithinQuarter prev.feeRate next.feeRate) ∧
      (0 < low → high * 5 < 2 ^ 64 → ∀ checkpoint ∈ checkpoints, ∀ config : CheckpointConfig,
        config.FeeBounds low high → ∀ up, ∃ next,
          adjustFeeRate checkpoint.feeRate up config = .ok next) := by
  have start : (instantiate host info msg).queue.FeeRatesWithin low high :=
    ⟨List.forall_mem_nil _, List.isChain_nil⟩
  have holds := CallMachine.run_invariant
    (fun store : Store => store.queue.FeeRatesWithin low high)
    (fun store call after inv bounds called =>
      (termsStep_of_call called).feeRatesWithin ⟨lower, upper⟩ bounds inv) start fixed
  have bounded (checkpoint : Checkpoint) (member : checkpoint ∈ ((machine host).run
      (instantiate host info msg) calls).queue.checkpoints) :
      low ≤ checkpoint.feeRate ∧ checkpoint.feeRate ≤ high :=
    holds.bounded checkpoint.terms (List.mem_map_of_mem member)
  refine ⟨bounded, (List.isChain_map Checkpoint.terms).mp holds.near, ?_⟩
  intro positive room checkpoint member config bounds up
  have inBounds := bounded checkpoint member
  exact exists_adjustFeeRate bounds (lower.trans upper) (by omega) (by omega) up

theorem run_feeRates_within_sample :
    let checkpoints := ((machine Sample.host).run Sample.initial
      (Sample.setupCalls ++ [Sample.signFirst])).queue.checkpoints
    checkpoints.length = 2 ∧ ∀ checkpoint ∈ checkpoints,
      40 ≤ checkpoint.feeRate ∧ checkpoint.feeRate ≤ 1000 :=
  ⟨by decide +kernel, (run_feeRates_within Sample.host Sample.info Sample.instantiateMsg 40 1000
    (by decide) (by decide) (Sample.setupCalls ++ [Sample.signFirst]) (by decide +kernel)).1⟩

end Contract

end CwBitcoin
