import CwBitcoin.PendingPayouts

/-!
# The messages that mint a pending transfer

A pending transfer is split between its destination, the relayer and the
bridge.  The three shares add up to its amount, but an IBC destination with an
unsupported port is paid nothing, and no check keeps the messages of the other
destinations acceptable to the token factory.
-/

namespace CwBitcoin

/-- The amount that a message mints. -/
def CosmosMsg.minted : CosmosMsg → Nat
  | .mintTokens _ _ amount _ => amount
  | _ => 0

def mintedTotal (msgs : List CosmosMsg) : Nat := (msgs.map CosmosMsg.minted).sum

/-- The token factory accepts the message, if it mints. -/
def CosmosMsg.Acceptable (host : Host) : CosmosMsg → Prop
  | .mintTokens _ _ amount mintToAddress => 0 < amount ∧ host.addrValidate mintToAddress
  | _ => True

@[simp]
theorem mintedTotal_nil : mintedTotal [] = 0 := rfl

@[simp]
theorem mintedTotal_cons (msg : CosmosMsg) (msgs : List CosmosMsg) :
    mintedTotal (msg :: msgs) = msg.minted + mintedTotal msgs := by
  simp [mintedTotal]

@[simp]
theorem mintedTotal_append (first second : List CosmosMsg) :
    mintedTotal (first ++ second) = mintedTotal first + mintedTotal second := by
  simp [mintedTotal]

section Shares

/-- The share of an amount that the bridge keeps. -/
def Store.bridgeFee (store : Store) (amount : Nat) : Nat :=
  match store.tokenFeeRatio with
  | some ratio =>
      if ratio.denominator = 0 then 0
      else amount * (ratio.nominator * 10 ^ 18 / ratio.denominator) / 10 ^ 18
  | none => 0

/-- The fee of the relayer in terms of a denom. -/
def Store.relayerFeeIn (host : Host) (querier : Querier) (store : Store) (denom : String) : Nat :=
  deductRelayerFee querier store (denomToAssetInfo host denom)

/-- The fees leave nothing of a coin for its destination. -/
def Store.FeesTakeAll (host : Host) (querier : Querier) (store : Store) (coin : Coin) : Prop :=
  coin.amount ≤ store.bridgeFee coin.amount + store.relayerFeeIn host querier coin.denom

instance (host : Host) (querier : Querier) (store : Store) (coin : Coin) :
    Decidable (store.FeesTakeAll host querier coin) :=
  inferInstanceAs (Decidable (_ ≤ _))

variable {host : Host} {querier : Querier} {store : Store} {coin : Coin} {feeData : FeeData}

theorem mulRatio_eq_ok {amount nominator denominator fee : Nat}
    (split : mulRatio amount nominator denominator = .ok fee) :
    fee = amount * (nominator * 10 ^ 18 / denominator) / 10 ^ 18 := by
  simp only [mulRatio, Outcome.bind_eq_ok, Outcome.pure_eq_ok] at split
  obtain ⟨-, -, -, -, rfl⟩ := split
  rfl

theorem deductTokenFee_eq_ok {amount rest fee : Nat}
    (split : deductTokenFee store amount = .ok (rest, fee)) :
    fee = store.bridgeFee amount ∧ fee ≤ amount ∧ rest = amount - fee := by
  cases ratioEq : store.tokenFeeRatio with
  | none =>
      simp only [deductTokenFee, ratioEq, Outcome.pure_eq_ok, Prod.mk.injEq] at split
      obtain ⟨rfl, rfl⟩ := split
      simp [Store.bridgeFee, ratioEq]
  | some ratio =>
      simp only [deductTokenFee, ratioEq, Outcome.bind_eq_ok, Outcome.require_eq_ok,
        Outcome.pure_eq_ok, Prod.mk.injEq] at split
      obtain ⟨_, deducted, -, covered, rfl, rfl⟩ := split
      refine ⟨?_, covered, rfl⟩
      unfold deductFee at deducted
      simp only [Store.bridgeFee, ratioEq]
      split at deducted
      · rw [if_pos ‹_›]
        exact (Except.ok.inj deducted).symm
      · rw [if_neg ‹_›]
        exact mulRatio_eq_ok deducted

/-- The shares of a coin: the bridge takes its fee, the relayer the fee or what
is left, and the destination the rest. -/
theorem processDeductFee_eq_ok (split : processDeductFee host querier store coin = .ok feeData) :
    store.bridgeFee coin.amount ≤ coin.amount ∧
      feeData.tokenFee.amount = store.bridgeFee coin.amount ∧
      feeData.relayerFee.amount = min (store.relayerFeeIn host querier coin.denom)
        (coin.amount - store.bridgeFee coin.amount) ∧
      feeData.deductedAmount = coin.amount -
        (store.bridgeFee coin.amount + store.relayerFeeIn host querier coin.denom) := by
  simp only [processDeductFee, Outcome.bind_eq_ok] at split
  obtain ⟨⟨rest, fee⟩, deducted, split⟩ := split
  obtain ⟨rfl, covered, rfl⟩ := deductTokenFee_eq_ok deducted
  change _ = Except.ok feeData at split
  rw [← Store.relayerFeeIn] at split
  split_ifs at split with nothing exhausted
  · obtain rfl := Except.ok.inj split
    refine ⟨covered, ?_, ?_, ?_⟩
    · exact Nat.le_antisymm (Nat.le_of_sub_eq_zero nothing) covered
    · have nothing : coin.amount - store.bridgeFee coin.amount = 0 := nothing
      rw [nothing, Nat.min_zero]
    · change coin.amount - _ = _
      omega
  · obtain rfl := Except.ok.inj split
    refine ⟨covered, rfl, ?_, ?_⟩
    · exact (Nat.min_eq_right exhausted).symm
    · change 0 = _
      omega
  · obtain rfl := Except.ok.inj split
    refine ⟨covered, rfl, ?_, ?_⟩
    · exact (Nat.min_eq_left (Nat.le_of_not_le exhausted)).symm
    · exact Nat.sub_sub _ _ _

/-- The share of an amount for a ratio, without a detour through decimals. -/
def Store.exactBridgeFee (store : Store) (amount : Nat) : Nat :=
  match store.tokenFeeRatio with
  | some ratio => amount * ratio.nominator / ratio.denominator
  | none => 0

/-- Rounding to decimals first only makes the fee smaller. -/
theorem Store.bridgeFee_le_exact (store : Store) (amount : Nat) :
    store.bridgeFee amount ≤ store.exactBridgeFee amount := by
  unfold Store.bridgeFee Store.exactBridgeFee
  cases store.tokenFeeRatio with
  | none => exact le_rfl
  | some ratio =>
      dsimp only
      split
      · exact Nat.zero_le _
      · have positive : 0 < ratio.denominator := Nat.pos_of_ne_zero ‹_›
        rw [Nat.le_div_iff_mul_le positive]
        set decimal := ratio.nominator * 10 ^ 18 / ratio.denominator with decimalEq
        have decimalLe : decimal * ratio.denominator ≤ ratio.nominator * 10 ^ 18 :=
          Nat.div_mul_le_self _ _
        have productLe : amount * decimal / 10 ^ 18 * 10 ^ 18 ≤ amount * decimal :=
          Nat.div_mul_le_self _ _
        apply Nat.le_of_mul_le_mul_right _ (by norm_num : 0 < 10 ^ 18)
        calc
          amount * decimal / 10 ^ 18 * ratio.denominator * 10 ^ 18 =
              amount * decimal / 10 ^ 18 * 10 ^ 18 * ratio.denominator := by ring
          _ ≤ amount * decimal * ratio.denominator :=
              Nat.mul_le_mul_right _ productLe
          _ = amount * (decimal * ratio.denominator) := Nat.mul_assoc _ _ _
          _ ≤ amount * (ratio.nominator * 10 ^ 18) := Nat.mul_le_mul_left _ decimalLe
          _ = amount * ratio.nominator * 10 ^ 18 := (Nat.mul_assoc _ _ _).symm

/-- The ratio of the bridge's fee is at most one, if there is one. -/
def Store.FeeRatioLeOne (store : Store) : Prop :=
  ∀ ratio ∈ store.tokenFeeRatio, ratio.denominator = 0 ∨ ratio.nominator ≤ ratio.denominator

instance (store : Store) : Decidable store.FeeRatioLeOne :=
  inferInstanceAs (Decidable (∀ ratio ∈ store.tokenFeeRatio, _))

/-- A ratio of at most one is a decimal of at most one, so no product overflows. -/
theorem mulRatio_of_le {amount nominator denominator : Nat}
    (ratioLe : nominator ≤ denominator) (amountLt : amount < 2 ^ 128) :
    mulRatio amount nominator denominator =
      .ok (amount * (nominator * 10 ^ 18 / denominator) / 10 ^ 18) := by
  have decimalLe : nominator * 10 ^ 18 / denominator ≤ 10 ^ 18 := by
    apply Nat.div_le_of_le_mul
    exact Nat.mul_le_mul_right _ ratioLe
  have productLe : amount * (nominator * 10 ^ 18 / denominator) / 10 ^ 18 ≤ amount := by
    apply Nat.div_le_of_le_mul
    rw [Nat.mul_comm (10 ^ 18)]
    exact Nat.mul_le_mul_left _ decimalLe
  have decimalLt : nominator * 10 ^ 18 / denominator < 2 ^ 128 :=
    lt_of_le_of_lt decimalLe (by norm_num)
  simp only [mulRatio, Outcome.bind_eq_ok, Outcome.assert_eq_ok, Outcome.pure_eq_ok]
  exact ⟨(), decimalLt, (), lt_of_le_of_lt productLe amountLt, trivial⟩

theorem Store.FeeRatioLeOne.exists_deductTokenFee (ratioLe : store.FeeRatioLeOne) {amount : Nat}
    (amountLt : amount < 2 ^ 128) : ∃ split, deductTokenFee store amount = .ok split := by
  cases ratioEq : store.tokenFeeRatio with
  | none => exact ⟨(amount, 0), by simp only [deductTokenFee, ratioEq]; rfl⟩
  | some ratio =>
      have feeLe : store.bridgeFee amount ≤ amount := by
        apply (store.bridgeFee_le_exact amount).trans
        simp only [Store.exactBridgeFee, ratioEq]
        rcases ratioLe ratio ratioEq with zero | le
        · rw [zero, Nat.div_zero]
          exact Nat.zero_le _
        · apply Nat.div_le_of_le_mul
          rw [Nat.mul_comm]
          exact Nat.mul_le_mul_right _ le
      have deducted : deductFee ratio amount = .ok (store.bridgeFee amount) := by
        simp only [deductFee, Store.bridgeFee, ratioEq]
        split
        · rfl
        · have le := (ratioLe ratio ratioEq).resolve_left ‹_›
          exact mulRatio_of_le le amountLt
      refine ⟨(amount - store.bridgeFee amount, store.bridgeFee amount), ?_⟩
      simp only [deductTokenFee, ratioEq, Outcome.bind_eq_ok, Outcome.require_eq_ok]
      exact ⟨_, deducted, (), feeLe, rfl⟩

theorem Store.FeeRatioLeOne.exists_processDeductFee (host : Host) (querier : Querier)
    (ratioLe : store.FeeRatioLeOne) (amountLt : coin.amount < 2 ^ 128) :
    ∃ feeData, processDeductFee host querier store coin = .ok feeData := by
  obtain ⟨⟨rest, fee⟩, deducted⟩ := ratioLe.exists_deductTokenFee amountLt
  rw [processDeductFee, deducted, Outcome.ok_bind]
  dsimp only
  split_ifs <;> exact ⟨_, rfl⟩

/-- The shares are in the denom of the coin. -/
theorem processDeductFee_denom (split : processDeductFee host querier store coin = .ok feeData) :
    feeData.tokenFee.denom = coin.denom ∧ feeData.relayerFee.denom = coin.denom := by
  simp only [processDeductFee, Outcome.bind_eq_ok] at split
  obtain ⟨⟨rest, fee⟩, -, split⟩ := split
  change _ = Except.ok feeData at split
  split_ifs at split <;> obtain rfl := Except.ok.inj split <;> exact ⟨rfl, rfl⟩

/-- With a ratio of at most one, every coin is split completely.  The bridge takes at
most its exact fee, unless the whole coin goes to it, and the relayer at most the fee
that was asked for. -/
theorem processDeductFee_conserves (host : Host) (querier : Querier)
    (ratioLe : store.FeeRatioLeOne) (amountLt : coin.amount < 2 ^ 128) :
    ∃ feeData, processDeductFee host querier store coin = .ok feeData ∧
      feeData.deductedAmount + feeData.tokenFee.amount + feeData.relayerFee.amount =
        coin.amount ∧
      feeData.tokenFee.amount ≤ store.exactBridgeFee coin.amount ∧
      feeData.relayerFee.amount ≤
        deductRelayerFee querier store (denomToAssetInfo host coin.denom) ∧
      feeData.tokenFee.denom = coin.denom ∧ feeData.relayerFee.denom = coin.denom := by
  obtain ⟨feeData, split⟩ := ratioLe.exists_processDeductFee host querier amountLt
  obtain ⟨covered, tokenFeeEq, relayerFeeEq, deductedEq⟩ := processDeductFee_eq_ok split
  refine ⟨feeData, split, ?_, ?_, ?_, processDeductFee_denom split⟩
  · rw [tokenFeeEq, relayerFeeEq, deductedEq]
    omega
  · rw [tokenFeeEq]
    exact store.bridgeFee_le_exact coin.amount
  · rw [relayerFeeEq]
    exact Nat.min_le_left _ _

/-- Two sevenths of a coin go to the bridge. -/
theorem processDeductFee_conserves_sample :
    let store := { Sample.initial with tokenFeeRatio := some ⟨2, 7⟩ }
    let coin : Coin := ⟨"btc", 1000⟩
    ∃ feeData, processDeductFee Sample.host Sample.querier store coin = .ok feeData ∧
      feeData.deductedAmount + feeData.tokenFee.amount + feeData.relayerFee.amount =
        coin.amount ∧
      feeData.tokenFee.amount ≤ store.exactBridgeFee coin.amount ∧
      feeData.relayerFee.amount ≤
        deductRelayerFee Sample.querier store (denomToAssetInfo Sample.host coin.denom) ∧
      feeData.tokenFee.denom = coin.denom ∧ feeData.relayerFee.denom = coin.denom :=
  processDeductFee_conserves Sample.host Sample.querier (by decide) (by decide)

end Shares

section Messages

variable {host : Host} {querier : Querier} {env : Env} {store : Store} {dest : Dest} {coin : Coin}
  {osorApiContract : Option Addr} {msgs : List CosmosMsg}

/-- The destination is an IBC destination that the entry point should transfer
to, through a port that is not supported. -/
def Dest.Dropped (env : Env) (osorApiContract : Option Addr) : Dest → Prop
  | .address _ => False
  | .ibc dest => osorApiContract ≠ none ∧ env.blockTimeNanos ≤ dest.timeoutTimestamp ∧
      dest.sourcePort ≠ "transfer"

instance (env : Env) (osorApiContract : Option Addr) (dest : Dest) :
    Decidable (dest.Dropped env osorApiContract) := by
  unfold Dest.Dropped
  split <;> infer_instance

/-- The address that the share of a destination is minted to. -/
def Dest.mintAddr (env : Env) (osorApiContract : Option Addr) : Dest → Addr
  | .address addr => addr
  | .ibc dest =>
      if osorApiContract = none ∨ dest.timeoutTimestamp < env.blockTimeNanos then dest.sender
      else env.contractAddress

/-- The first message mints the share, and any other does not mint.  A dropped
destination gets no message. -/
theorem Dest.buildCosmosMsg_cases (host : Host) (env : Env) (coin : Coin) (factory : Addr)
    (osorApiContract : Option Addr) (dest : Dest) :
    dest.Dropped env osorApiContract ∧
        dest.buildCosmosMsg host env coin env.contractAddress factory osorApiContract = [] ∨
      ¬ dest.Dropped env osorApiContract ∧ ∃ others,
        dest.buildCosmosMsg host env coin env.contractAddress factory osorApiContract =
          .mintTokens factory coin.denom coin.amount (dest.mintAddr env osorApiContract) ::
            others ∧
        mintedTotal others = 0 ∧ ∀ msg ∈ others, msg.Acceptable host := by
  cases dest with
  | address addr => exact Or.inr ⟨id, [], rfl, rfl, by simp⟩
  | ibc dest =>
      cases osorApiContract with
      | none => exact Or.inr ⟨fun dropped => dropped.1 rfl, [], rfl, rfl, by simp⟩
      | some osorApi =>
          by_cases expired : dest.timeoutTimestamp < env.blockTimeNanos
          · refine Or.inr ⟨fun dropped => absurd dropped.2.1 (by omega), [], ?_, rfl, by simp⟩
            simp [buildCosmosMsg, mintAddr, expired]
          · by_cases port : dest.sourcePort = "transfer"
            · refine Or.inr ⟨fun dropped => dropped.2.2 port, ?_⟩
              simp only [buildCosmosMsg, mintAddr, if_neg expired, port, reduceCtorEq, false_or,
                ne_eq, not_true_eq_false, if_false]
              exact ⟨_, rfl, rfl, by simp [CosmosMsg.Acceptable]⟩
            · refine Or.inl ⟨⟨by simp, Nat.le_of_not_lt expired, port⟩, ?_⟩
              simp [buildCosmosMsg, expired, port]

theorem Dest.mintedTotal_buildCosmosMsg (factory : Addr) :
    mintedTotal
        (dest.buildCosmosMsg host env coin env.contractAddress factory osorApiContract) =
      if dest.Dropped env osorApiContract then 0 else coin.amount := by
  rcases buildCosmosMsg_cases host env coin factory osorApiContract dest with
    ⟨dropped, none⟩ | ⟨paid, others, built, nothing, -⟩
  · rw [none, if_pos dropped, mintedTotal_nil]
  · rw [built, if_neg paid, mintedTotal_cons, nothing]
    rfl

theorem Dest.acceptable_buildCosmosMsg (factory : Addr) :
    (∀ msg ∈ dest.buildCosmosMsg host env coin env.contractAddress factory osorApiContract,
        msg.Acceptable host) ↔
      (¬ dest.Dropped env osorApiContract →
        0 < coin.amount ∧ host.addrValidate (dest.mintAddr env osorApiContract)) := by
  rcases buildCosmosMsg_cases host env coin factory osorApiContract dest with
    ⟨dropped, none⟩ | ⟨paid, others, built, -, accepted⟩
  · simp [none, dropped]
  · rw [built, List.forall_mem_cons]
    constructor
    · intro each _
      exact each.1
    · intro holds
      exact ⟨holds paid, accepted⟩

/-- The message that mints a fee, if there is one. -/
def feeMsgs (factory : Addr) (denom : String) (amount : Nat) (receiver : Addr) : List CosmosMsg :=
  if 0 < amount then [.mintTokens factory denom amount receiver] else []

theorem mintedTotal_feeMsgs (factory : Addr) (denom : String) (amount : Nat) (receiver : Addr) :
    mintedTotal (feeMsgs factory denom amount receiver) = amount := by
  unfold feeMsgs
  split
  · rfl
  · rw [mintedTotal_nil]
    omega

theorem acceptable_feeMsgs (factory : Addr) (denom : String) (amount : Nat) (receiver : Addr) :
    (∀ msg ∈ feeMsgs factory denom amount receiver, msg.Acceptable host) ↔
      (0 < amount → host.addrValidate receiver) := by
  unfold feeMsgs
  by_cases positive : 0 < amount
  · simp [positive, CosmosMsg.Acceptable]
  · simp [positive]

theorem Contract.payoutMsgs_eq_ok :
    payoutMsgs host querier env store dest coin = .ok msgs ↔
      ∃ feeData, processDeductFee host querier store coin = .ok feeData ∧
        dest.buildCosmosMsg host env ⟨coin.denom, feeData.deductedAmount⟩ env.contractAddress
            store.config.tokenFactoryAddr store.config.osorEntryPointContract ++
          feeMsgs store.config.tokenFactoryAddr coin.denom feeData.relayerFee.amount
            store.config.relayerFeeReceiver ++
          feeMsgs store.config.tokenFactoryAddr coin.denom feeData.tokenFee.amount
            store.config.tokenFeeReceiver = msgs := by
  simp only [payoutMsgs, Outcome.bind_eq_ok, Outcome.pure_eq_ok]
  rfl

/-- The whole amount is minted unless a destination is dropped with a share. -/
theorem Contract.mintedTotal_payoutMsgs
    (paid : payoutMsgs host querier env store dest coin = .ok msgs) :
    mintedTotal msgs = coin.amount ↔
      (dest.Dropped env store.config.osorEntryPointContract →
        store.FeesTakeAll host querier coin) := by
  obtain ⟨feeData, split, rfl⟩ := payoutMsgs_eq_ok.mp paid
  obtain ⟨covered, bridgeEq, relayerEq, shareEq⟩ := processDeductFee_eq_ok split
  rw [mintedTotal_append, mintedTotal_append, Dest.mintedTotal_buildCosmosMsg,
    mintedTotal_feeMsgs, mintedTotal_feeMsgs, bridgeEq, relayerEq, shareEq, Store.FeesTakeAll]
  by_cases dropped : dest.Dropped env store.config.osorEntryPointContract
  · rw [if_pos dropped]
    simp only [dropped, true_implies]
    omega
  · rw [if_neg dropped]
    simp only [dropped, false_implies, iff_true]
    omega

/-- The shares of an entry can be minted: the amounts are positive and the
addresses valid. -/
structure Contract.Payable (host : Host) (querier : Querier) (env : Env) (store : Store)
    (entry : Dest × Coin) : Prop where
  share : ¬ entry.1.Dropped env store.config.osorEntryPointContract →
    ¬ store.FeesTakeAll host querier entry.2 ∧
      host.addrValidate (entry.1.mintAddr env store.config.osorEntryPointContract)
  relayer : 0 < store.relayerFeeIn host querier entry.2.denom →
    store.bridgeFee entry.2.amount < entry.2.amount →
      host.addrValidate store.config.relayerFeeReceiver
  bridge : 0 < store.bridgeFee entry.2.amount → host.addrValidate store.config.tokenFeeReceiver

instance (host : Host) (querier : Querier) (env : Env) (store : Store) (entry : Dest × Coin) :
    Decidable (Contract.Payable host querier env store entry) :=
  decidable_of_iff (_ ∧ _ ∧ _)
    ⟨fun ⟨share, relayer, bridge⟩ => ⟨share, relayer, bridge⟩,
      fun payable => ⟨payable.share, payable.relayer, payable.bridge⟩⟩

theorem Contract.acceptable_payoutMsgs
    (paid : payoutMsgs host querier env store dest coin = .ok msgs) :
    (∀ msg ∈ msgs, msg.Acceptable host) ↔ Payable host querier env store (dest, coin) := by
  obtain ⟨feeData, split, rfl⟩ := payoutMsgs_eq_ok.mp paid
  obtain ⟨covered, bridgeEq, relayerEq, shareEq⟩ := processDeductFee_eq_ok split
  have remains : 0 < coin.amount -
      (store.bridgeFee coin.amount + store.relayerFeeIn host querier coin.denom) ↔
        ¬ store.FeesTakeAll host querier coin := by
    rw [Store.FeesTakeAll]
    omega
  have charged : 0 < min (store.relayerFeeIn host querier coin.denom)
      (coin.amount - store.bridgeFee coin.amount) ↔
        0 < store.relayerFeeIn host querier coin.denom ∧
          store.bridgeFee coin.amount < coin.amount := by
    omega
  rw [List.forall_mem_append, List.forall_mem_append, Dest.acceptable_buildCosmosMsg,
    acceptable_feeMsgs, acceptable_feeMsgs, bridgeEq, relayerEq, shareEq, remains, charged]
  constructor
  · rintro ⟨⟨share, relayer⟩, bridge⟩
    exact ⟨share, fun positive less => relayer ⟨positive, less⟩, bridge⟩
  · rintro ⟨share, relayer, bridge⟩
    exact ⟨⟨share, fun both => relayer both.1 both.2⟩, bridge⟩

end Messages

namespace Contract

def Call.querier : Call → Querier
  | .execute querier _ _ _ => querier
  | .clockEndBlock querier _ _ => querier

variable {host : Host} {querier : Querier} {env : Env} {store : Store}

/-- The end of a block emits the messages of the entries that are handed out,
one entry after the other. -/
theorem clockEndBlock_msgs {hash : Bytes} {response : Response}
    (called : clockEndBlock host querier env store hash = .ok response) :
    ∃ emitted, response.2 = emitted.flatten ∧
      List.Forall₂ (fun entry msgs => payoutMsgs host querier env store entry.1 entry.2 = .ok msgs)
        store.queue.payouts emitted := by
  obtain ⟨queue, dests, emitted, -, -, -, taken, paid, -, -, rfl⟩ := clockEndBlock_eq_ok called
  refine ⟨emitted, rfl, ?_⟩
  rw [QueueStore.payouts, taken]
  -- The messages of an entry do not depend on the queue.
  exact Outcome.mapM_eq_ok.mp paid

theorem acceptable_flatten_iff {entries : List (Dest × Coin)} {emitted : List (List CosmosMsg)}
    (paid : List.Forall₂ (fun entry msgs => payoutMsgs host querier env store entry.1 entry.2 =
      .ok msgs) entries emitted) :
    (∀ msg ∈ emitted.flatten, msg.Acceptable host) ↔
      ∀ entry ∈ entries, Payable host querier env store entry := by
  induction paid with
  | nil => simp
  | cons head _ ih =>
      rw [List.flatten_cons, List.forall_mem_append, List.forall_mem_cons, ih,
        acceptable_payoutMsgs head]

theorem clockEndBlock_acceptable_iff {hash : Bytes} {response : Response}
    (called : clockEndBlock host querier env store hash = .ok response) :
    (∀ msg ∈ response.2, msg.Acceptable host) ↔
      ∀ entry ∈ store.queue.payouts, Payable host querier env store entry := by
  obtain ⟨emitted, emittedEq, paid⟩ := clockEndBlock_msgs called
  rw [emittedEq]
  exact acceptable_flatten_iff paid

/-- A call at the end of a block can pay out every entry. -/
def PaysAcceptably (host : Host) (store : Store) (call : Call) : Prop :=
  call.blockHash ≠ none →
    ∀ entry ∈ store.queue.payouts, Payable host call.querier call.env store entry

instance (host : Host) (store : Store) (call : Call) : Decidable (PaysAcceptably host store call) :=
  inferInstanceAs (Decidable (_ → _))

/-- The messages that the successful calls of a run emit. -/
def emittedMsgs (host : Host) : Store → List Call → List CosmosMsg
  | _, [] => []
  | store, called :: calls =>
      (match call host store called with
        | .ok response => response.2
        | .error _ => []) ++
      emittedMsgs host ((machine host).next store called) calls

/-- Only the end of a block mints. -/
theorem acceptable_of_call {called : Call} {response : Response}
    (ok : call host store called = .ok response) (pays : PaysAcceptably host store called) :
    ∀ msg ∈ response.2, msg.Acceptable host := by
  cases executed_of_call ok with
  | triggerBeginBlock _ _ _ _ clocked | clockEndBlock _ _ _ clocked =>
      exact (clockEndBlock_acceptable_iff clocked).mpr (pays (Option.some_ne_none _))
  | withdrawToBitcoin =>
      intro msg member
      obtain ⟨fund, -, rfl⟩ := List.mem_map.mp member
      trivial
  | registerDenom | changeBtcDenomOwner => simp [CosmosMsg.Acceptable]
  | _ => exact fun _ => nofun

theorem acceptable_emittedMsgs {calls : List Call}
    (permitted : (machine host).Permitted ((machine host).OnSuccess (PaysAcceptably host)) store
      calls) :
    ∀ msg ∈ emittedMsgs host store calls, msg.Acceptable host := by
  induction calls generalizing store with
  | nil => simp [emittedMsgs]
  | cons called calls ih =>
      obtain ⟨pays, rest⟩ := permitted
      rw [emittedMsgs, List.forall_mem_append]
      refine ⟨?_, ih rest⟩
      split
      · rename_i response ok
        apply acceptable_of_call ok
        apply pays response.1
        simp [machine, ok]
      · simp

end Contract

namespace Sample

/-- The calls up to the block that hands out the deposit of a transaction. -/
def payoutCalls (tx : Transaction) (dest : Dest) : List Contract.Call := openingCalls tx ++ [
  .clockEndBlock querier (env 1000) [1],
  executeAt 1010 (.relayDeposit tx 7 (proofOf (tx.txid host)) 0 0 dest),
  .clockEndBlock querier (env 1400) [2],
  signFirst]

/-- A destination with the commitment of `depositTx`, on an unsupported port. -/
def otherPort : Dest := .ibc {
  sourcePort := "other"
  sourceChannel := "channel-0"
  sender := "sender"
  receiver := "a"
  timeoutTimestamp := 2000 * 1000000000
  memo := "" }

/-- A deposit that is worth its fee. -/
def smallestDepositTx : Transaction := depositTo 23463 (utf8 "a")

/-- The host that accepts every address. -/
def anyAddrHost : Host := { host with addrValidate := fun _ => true }

end Sample

/-- In every state of every run, the messages of an entry whose fees can be
deducted mint its amount exactly unless its destination is dropped while the
fees leave it a share.  The end of a block emits the messages of each entry that
it hands out. -/
theorem Contract.run_minted_iff (host : Host) (info : MessageInfo) (msg : InstantiateMsg)
    (calls : List Call) (querier : Querier) (env : Env) :
    let store := (machine host).run (instantiate host info msg) calls
    (∀ dest coin feeData, processDeductFee host querier store coin = .ok feeData →
      ∃ msgs, payoutMsgs host querier env store dest coin = .ok msgs ∧
        (mintedTotal msgs = coin.amount ↔
          (dest.Dropped env store.config.osorEntryPointContract →
            store.FeesTakeAll host querier coin))) ∧
    ∀ hash response, clockEndBlock host querier env store hash = .ok response →
      ∃ emitted, response.2 = emitted.flatten ∧
        List.Forall₂ (fun entry msgs =>
          payoutMsgs host querier env store entry.1 entry.2 = .ok msgs ∧
            (mintedTotal msgs = entry.2.amount ↔
              (entry.1.Dropped env store.config.osorEntryPointContract →
                store.FeesTakeAll host querier entry.2))) store.queue.payouts emitted := by
  intro store
  constructor
  · intro dest coin feeData split
    obtain ⟨msgs, paid⟩ : ∃ msgs, payoutMsgs host querier env store dest coin = .ok msgs :=
      ⟨_, payoutMsgs_eq_ok.mpr ⟨feeData, split, rfl⟩⟩
    exact ⟨msgs, paid, mintedTotal_payoutMsgs paid⟩
  · intro hash response called
    obtain ⟨emitted, emittedEq, paid⟩ := clockEndBlock_msgs called
    refine ⟨emitted, emittedEq, paid.imp ?_⟩
    intro entry msgs paidEntry
    exact ⟨paidEntry, mintedTotal_payoutMsgs paidEntry⟩

/-- A deposit to an unsupported port is handed out without a message, so its
amount is not minted at all. -/
theorem Contract.run_minted_dropped :
    let start := instantiate Sample.host Sample.info
      { Sample.instantiateMsg with osorEntryPointContract := some "osor" }
    let store := (machine Sample.host).run start
      (Sample.payoutCalls Sample.depositTx Sample.otherPort)
    let coin : Coin := ⟨getFullBtcDenom "factory", 76537000000⟩
    store.queue.payouts = [(Sample.otherPort, coin)] ∧
      payoutMsgs Sample.host Sample.querier (Sample.env 1420) store Sample.otherPort coin =
        .ok [] ∧ mintedTotal [] ≠ coin.amount ∧
      Prod.snd <$> clockEndBlock Sample.host Sample.querier (Sample.env 1420) store [3] = .ok [] ∧
      ((machine Sample.host).next store
        (.clockEndBlock Sample.querier (Sample.env 1420) [3])).queue.pending = [] := by
  intro start store coin
  exact ⟨by decide +kernel, by decide +kernel, by decide, by decide +kernel, by decide +kernel⟩

/-- All messages of a run whose ends of blocks can pay out every entry are
acceptable to the token factory, and in every state of every run the end of a
block emits acceptable messages exactly when it can pay out every entry. -/
theorem Contract.run_acceptable_iff (host : Host) (info : MessageInfo) (msg : InstantiateMsg)
    (calls : List Call) :
    ((machine host).Permitted ((machine host).OnSuccess (PaysAcceptably host))
      (instantiate host info msg) calls →
      ∀ emitted ∈ emittedMsgs host (instantiate host info msg) calls, emitted.Acceptable host) ∧
    let store := (machine host).run (instantiate host info msg) calls
    ∀ querier env hash response, clockEndBlock host querier env store hash = .ok response →
      ((∀ emitted ∈ response.2, emitted.Acceptable host) ↔
        ∀ entry ∈ store.queue.payouts, Payable host querier env store entry) := by
  refine ⟨acceptable_emittedMsgs, ?_⟩
  intro store querier env hash response called
  exact clockEndBlock_acceptable_iff called

/-- The sample deposit is paid out by acceptable messages when the host accepts
the address. -/
theorem Contract.run_acceptable_sample :
    ∀ emitted ∈ emittedMsgs Sample.anyAddrHost Sample.initial
      (Sample.payoutCalls Sample.depositTx (.address "a") ++
        [.clockEndBlock Sample.querier (Sample.env 1420) [3]]),
      emitted.Acceptable Sample.anyAddrHost := by
  refine (run_acceptable_iff Sample.anyAddrHost Sample.info Sample.instantiateMsg _).1 ?_
  decide +kernel

/-- A deposit of exactly its fee is paid out by a message that mints nothing,
and any deposit to an invalid address by a message that mints to it. -/
theorem Contract.run_unacceptable :
    let clock := clockEndBlock Sample.anyAddrHost Sample.querier (Sample.env 1420)
      ((machine Sample.anyAddrHost).run Sample.initial
        (Sample.payoutCalls Sample.smallestDepositTx (.address "a"))) [3]
    let strictClock := clockEndBlock Sample.host Sample.querier (Sample.env 1420)
      ((machine Sample.host).run Sample.initial
        (Sample.payoutCalls Sample.depositTx (.address "a"))) [3]
    (∃ msg, Prod.snd <$> clock = .ok [msg] ∧ msg.minted = 0 ∧
        ¬ msg.Acceptable Sample.anyAddrHost) ∧
      ∃ msg, Prod.snd <$> strictClock = .ok [msg] ∧ 0 < msg.minted ∧
        ¬ msg.Acceptable Sample.host := by
  intro clock strictClock
  constructor
  · refine ⟨.mintTokens "factory" (getFullBtcDenom "factory") 0 "a", by decide +kernel, rfl, ?_⟩
    exact fun accepted => absurd accepted.1 (lt_irrefl 0)
  · refine ⟨.mintTokens "factory" (getFullBtcDenom "factory") 76537000000 "a", by decide +kernel,
      by decide, ?_⟩
    exact fun accepted => Bool.false_ne_true accepted.2

end CwBitcoin
