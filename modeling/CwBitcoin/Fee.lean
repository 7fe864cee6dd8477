import CwBitcoin.State

/-!
# Fees of the bridge and the relayer

What is deducted from a coin before its destination is credited: a share for
the bridge, and the relayer's fee in terms of the bridged coin.
-/

namespace CwBitcoin

structure FeeData where
  deductedAmount : Nat
  tokenFee : Coin
  relayerFee : Coin
  deriving DecidableEq, Repr

def denomToAssetInfo (host : Host) (denom : String) : AssetInfo :=
  if host.addrValidate denom then .token denom else .nativeToken denom

/-- The product of an amount with a ratio of two numbers, in decimals with
eighteen places that are rounded down. -/
def mulRatio (amount nominator denominator : Nat) : ContractResult Nat := do
  let decimal := nominator * 10 ^ 18 / denominator
  Outcome.assert (decimal < 2 ^ 128)
  let product := amount * decimal / 10 ^ 18
  Outcome.assert (product < 2 ^ 128)
  return product

def deductFee (tokenFee : Ratio) (amount : Nat) : ContractResult Nat :=
  if tokenFee.denominator = 0 then .ok 0
  else mulRatio amount tokenFee.nominator tokenFee.denominator

/-- The amount without the bridge's fee, and the fee. -/
def deductTokenFee (store : Store) (amount : Nat) : ContractResult (Nat × Nat) := do
  match store.tokenFeeRatio with
  | some tokenFee => do
      let fee ← deductFee tokenFee amount
      Outcome.require (fee ≤ amount) (.std s!"Overflow: Cannot Sub with {amount} and {fee}")
      return (amount - fee, fee)
  | none => return (amount, 0)

/-- What the router returns for an amount of the relayer's fee token, or zero
if it cannot tell. -/
def getSwapTokenAmountOut (querier : Querier) (offerAmount : Nat) (swapRouterContract : Addr)
    (askAssetInfo relayerFeeToken : AssetInfo) : Nat :=
  if askAssetInfo = relayerFeeToken then offerAmount
  else
    let oraiAsset : AssetInfo := .nativeToken "orai"
    let swapOps : List SwapOperation :=
      if askAssetInfo = oraiAsset ∨ relayerFeeToken = oraiAsset then
        [⟨relayerFeeToken, askAssetInfo⟩]
      else [⟨relayerFeeToken, oraiAsset⟩, ⟨oraiAsset, askAssetInfo⟩]
    (querier.simulateSwap offerAmount swapRouterContract swapOps).getD 0

def deductRelayerFee (querier : Querier) (store : Store) (askAssetInfo : AssetInfo) : Nat :=
  if store.config.relayerFee = 0 then 0
  else
    match store.config.swapRouterContract with
    | none => 0
    | some router =>
        getSwapTokenAmountOut querier store.config.relayerFee router askAssetInfo
          store.config.relayerFeeToken

def processDeductFee (host : Host) (querier : Querier) (store : Store) (localAmount : Coin) :
    ContractResult FeeData := do
  let denom := localAmount.denom
  let (deductedAmount, tokenFee) ← deductTokenFee store localAmount.amount
  if deductedAmount = 0 then
    return { deductedAmount, tokenFee := localAmount, relayerFee := ⟨denom, 0⟩ }
  let relayerFee := deductRelayerFee querier store (denomToAssetInfo host denom)
  -- A relayer fee that leaves nothing takes the whole remaining amount.
  if deductedAmount ≤ relayerFee then
    return {
      deductedAmount := 0
      tokenFee := ⟨denom, tokenFee⟩
      relayerFee := ⟨denom, deductedAmount⟩ }
  return {
    deductedAmount := deductedAmount - relayerFee
    tokenFee := ⟨denom, tokenFee⟩
    relayerFee := ⟨denom, relayerFee⟩ }

end CwBitcoin
