import CwBitcoin.SignerRegistry

/-!
# The registry over runs of the contract

Validators are registered, set their keys and are punished at the end of a block, and no
other call touches the registry.  The maps stay inverse to each other as long as all
registrations pair up, and then a punished key is out of reach until it is registered
again.
-/

namespace CwBitcoin

namespace Contract

/-- The entries that a call registers. -/
def Call.registrations : Call → List (Addr × Nat × ConsensusKey)
  | .execute _ _ _ (.addValidators addrs votingPowers consensusKeys) =>
      addrs.zip (votingPowers.zip consensusKeys)
  | _ => []

/-- What calls do to the registry and the keys of signatories. -/
inductive RegistryEffect (host : Host) (store : Store) : Call → Store → Prop
  | registered (querier : Querier) (env : Env) (info : MessageInfo) (addrs : List Addr)
      (votingPowers : List Nat) (consensusKeys : List ConsensusKey) :
      RegistryEffect host store (.execute querier env info
        (.addValidators addrs votingPowers consensusKeys))
        ((addrs.zip (votingPowers.zip consensusKeys)).foldl saveValidator store)
  | keySet {after : Store} (querier : Querier) (env : Env) (info : MessageInfo) (xpub : Xpub)
      (saved : store.setSignatoryKey host info.sender xpub = .ok after) :
      RegistryEffect host store (.execute querier env info (.setSignatoryKey xpub)) after
  | punished {call : Call} {middle final after : Store} {keys : List ConsensusKey}
      (unregistered : call.registrations = []) (before : store.SameRegistry middle)
      (punishedOk : punishAll middle keys = .ok final) (same : final.SameRegistry after) :
      RegistryEffect host store call after
  | unchanged {call : Call} {after : Store} (unregistered : call.registrations = [])
      (same : store.SameRegistry after) : RegistryEffect host store call after

section Frames

variable {host : Host} {env : Env} {store after : Store}

theorem sameRegistry_relayDeposit {btcTx : Transaction} {btcHeight btcVout sigsetIndex : Nat}
    {btcProof : PartialMerkleTree} {dest : Dest}
    (relayed : store.relayDeposit host env btcTx btcHeight btcProof btcVout sigsetIndex dest =
      .ok after) : store.SameRegistry after := by
  obtain ⟨output, checkpoint, _, timeout, -, -, -, -, -,
    ⟨recoveryTxs, rfl⟩ | ⟨input, -, credited⟩⟩ := Store.relayDeposit_eq_ok relayed
  · exact ⟨rfl, rfl, rfl⟩
  · obtain ⟨older, building, fee, coin, -, -, -, -, -, rfl⟩ := Store.creditDeposit_eq_ok credited
    exact ⟨rfl, rfl, rfl⟩

theorem sameRegistry_addWithdrawals {scriptPubkey : Script} {denom : String} {funds : List Coin}
    (added : addWithdrawals host scriptPubkey denom store funds = .ok after) :
    store.SameRegistry after := by
  refine addWithdrawals_invariant (Store.SameRegistry store) ?_ (.refl store) added
  intro current amount next same addedOne
  obtain ⟨older, building, fee, -, -, -, -, -, -, rfl⟩ := Store.addWithdrawal_eq_ok addedOne
  exact same.trans ⟨rfl, rfl, rfl⟩

theorem sameRegistry_maybeStep {btcHeight : Nat} {shouldAllowDeposits pushed : Bool}
    {commitment : Bytes} {parentConfig : BitcoinConfig}
    (stepped : store.maybeStep host env btcHeight shouldAllowDeposits commitment parentConfig =
      .ok (after, pushed)) : store.SameRegistry after := by
  rcases Store.maybeStep_eq_ok stepped with ⟨rfl, -⟩ | ⟨⟨first⟩⟩ | ⟨rollover, -⟩
  · exact .refl after
  · rw [first.after_eq]
    exact ⟨rfl, rfl, rfl⟩
  · rw [rollover.after_eq]
    exact ⟨rfl, rfl, rfl⟩

/-- The end of a block punishes the offline signers, and leaves the registry alone
otherwise. -/
theorem registryEffect_of_clockEndBlock {querier : Querier} {hash : Bytes} {response : Response}
    {call : Call} (called : clockEndBlock host querier env store hash = .ok response)
    (unregistered : call.registrations = []) : RegistryEffect host store call response.1 := by
  obtain ⟨queue, -, -, begun, offline, punished, -, -, begunOk, punishedOk, rfl⟩ :=
    clockEndBlock_eq_ok called
  obtain ⟨allow, pushed, steppedOk⟩ := maybeStep_of_beginBlockStep begunOk
  have taken : store.SameRegistry { store with queue } := ⟨rfl, rfl, rfl⟩
  exact .punished unregistered (taken.trans (sameRegistry_maybeStep steppedOk)) punishedOk
    ⟨rfl, rfl, rfl⟩

end Frames

/-- Every successful call has one of the effects on the registry. -/
theorem registryEffect_of_call {host : Host} {store after : Store} {call : Call}
    (called : (machine host).call store call = .ok after) :
    RegistryEffect host store call after := by
  obtain ⟨response, executed, rfl⟩ := executed_of_machine called
  cases executed with
  | addValidators querier env info addrs votingPowers consensusKeys =>
      exact .registered querier env info addrs votingPowers consensusKeys
  | setSignatoryKey querier env info xpub saved => exact .keySet querier env info xpub saved
  | triggerBeginBlock _ _ _ _ clocked | clockEndBlock _ _ _ clocked =>
      exact registryEffect_of_clockEndBlock clocked rfl
  | relayDeposit _ _ _ _ _ _ _ _ _ relayed =>
      exact .unchanged rfl (sameRegistry_relayDeposit relayed)
  | relayCheckpoint _ _ _ _ _ _ relayed =>
      obtain ⟨-, -, rfl⟩ := Store.relayCheckpoint_eq_ok relayed
      exact .unchanged rfl ⟨rfl, rfl, rfl⟩
  | withdrawToBitcoin _ _ _ _ _ _ added =>
      exact .unchanged rfl (sameRegistry_addWithdrawals added)
  | updateConfig | updateCheckpointConfig | updateBitcoinConfig | updateHeaderConfig
  | relayHeaders | submitCheckpointSignature | submitRecoverySignature | registerDenom
  | changeBtcDenomOwner => exact .unchanged rfl ⟨rfl, rfl, rfl⟩

namespace RegistryEffect

variable {host : Host} {store after : Store} {call : Call}

theorem distinctKeys (effect : RegistryEffect host store call after)
    (distinct : store.DistinctKeys) : after.DistinctKeys := by
  cases effect with
  | registered _ _ _ addrs votingPowers consensusKeys => exact distinct.saveValidators _
  | keySet _ _ _ xpub saved =>
      obtain ⟨consKey, -, -, -, rfl⟩ := Store.setSignatoryKey_eq_ok.mp saved
      exact ⟨distinct.validators_nodup, distinct.signers_nodup⟩
  | punished _ before punishedOk same =>
      refine same.distinctKeys (Store.punishAll_invariant Store.DistinctKeys ?_
        (before.distinctKeys distinct) punishedOk)
      intro current consKey addr holds _
      exact holds.punishValidator consKey addr
  | unchanged _ same => exact same.distinctKeys distinct

/-- A call keeps the maps inverse exactly when its registrations pair up. -/
theorem signersInverse_iff (effect : RegistryEffect host store call after)
    (inverse : store.SignersInverse) :
    after.SignersInverse ↔ store.PairsUp call.registrations := by
  cases effect with
  | registered _ _ _ addrs votingPowers consensusKeys =>
      exact Store.signersInverse_saveValidators_iff inverse
  | keySet _ _ _ xpub saved =>
      obtain ⟨consKey, -, -, -, rfl⟩ := Store.setSignatoryKey_eq_ok.mp saved
      exact ⟨fun _ => Store.pairsUp_nil, fun _ => inverse⟩
  | punished unregistered before punishedOk same =>
      rw [unregistered]
      refine ⟨fun _ => Store.pairsUp_nil, fun _ => same.signersInverse ?_⟩
      exact Store.punishAll_invariant Store.SignersInverse
        (fun _ _ _ holds isOperator => holds.punishValidator isOperator)
        (before.signersInverse inverse) punishedOk
  | unchanged unregistered same =>
      rw [unregistered]
      exact ⟨fun _ => Store.pairsUp_nil, fun _ => same.signersInverse inverse⟩

/-- A consensus key that loses its validator is removed. -/
theorem removed_of_lost (effect : RegistryEffect host store call after) {consKey : ConsensusKey}
    (registered : store.validators.load consKey ≠ none)
    (lost : after.validators.load consKey = none) : after.Removed consKey := by
  cases effect with
  | registered _ _ _ addrs votingPowers consensusKeys =>
      rw [Store.load_validators_saveValidators, Option.or_eq_none_iff] at lost
      exact absurd lost.2 registered
  | keySet _ _ _ xpub saved =>
      obtain ⟨other, -, -, -, rfl⟩ := Store.setSignatoryKey_eq_ok.mp saved
      exact absurd lost registered
  | punished _ before punishedOk same =>
      refine same.removed (Store.removed_of_punishAll punishedOk (Or.inr ⟨?_, ?_⟩))
      · rwa [before.validators_eq]
      · rwa [← same.validators_eq]
  | unchanged _ same =>
      rw [same.validators_eq] at lost
      exact absurd lost registered

/-- A removed key stays so until it is registered again. -/
theorem removed (effect : RegistryEffect host store call after) (inverse : store.SignersInverse)
    {consKey : ConsensusKey}
    (unlisted : consKey ∉ call.registrations.map fun entry => entry.2.2)
    (removed : store.Removed consKey) : after.Removed consKey := by
  cases effect with
  | registered _ _ _ addrs votingPowers consensusKeys =>
      constructor
      · exact (Store.load_validators_of_unlisted unlisted).trans removed.validator_eq
      · rw [(Store.saveValidators_keys _ _).1]
        exact removed.sigKey_eq
  | keySet _ _ _ xpub saved =>
      have unchanged := inverse.locked removed.validator_eq _ _ _ saved
      obtain ⟨other, -, -, -, rfl⟩ := Store.setSignatoryKey_eq_ok.mp saved
      exact ⟨removed.validator_eq, unchanged.trans removed.sigKey_eq⟩
  | punished _ before punishedOk same =>
      exact same.removed (Store.removed_of_punishAll punishedOk (Or.inl (before.removed removed)))
  | unchanged _ same => exact same.removed removed

end RegistryEffect

section Runs

variable (host : Host) (start : Store)

/-- A call of the run has punished the holder of the consensus key, and no call since
has registered the key again. -/
def PunishedIn (calls : List Call) (consKey : ConsensusKey) : Prop :=
  ∃ before call later, calls = before ++ call :: later ∧
    ((machine host).run start before).validators.load consKey ≠ none ∧
    ((machine host).run start (before ++ [call])).validators.load consKey = none ∧
    (machine host).Permitted ((machine host).OnSuccess fun _ other =>
      consKey ∉ other.registrations.map fun entry => entry.2.2)
      ((machine host).run start (before ++ [call])) later

/-- Every successful registration of the run pairs up with the registry. -/
def RegistersInPairs (calls : List Call) : Prop :=
  (machine host).Permitted ((machine host).OnSuccess fun store call =>
    store.PairsUp call.registrations) start calls

instance (calls : List Call) : Decidable (RegistersInPairs host start calls) :=
  inferInstanceAs (Decidable (CallMachine.Permitted _ _ _ _))

variable {host start}

/-- The maps are inverse in all states of the runs that register in pairs, and in no
others. -/
theorem always_signersInverse_iff (inverse : start.SignersInverse) {calls : List Call} :
    (∀ earlier, earlier <+: calls → ((machine host).run start earlier).SignersInverse) ↔
      RegistersInPairs host start calls :=
  CallMachine.always_iff_permitted Store.SignersInverse
    (fun _ _ _ holds called => (registryEffect_of_call called).signersInverse_iff holds) inverse

theorem run_distinctKeys (distinct : start.DistinctKeys) (calls : List Call) :
    ((machine host).run start calls).DistinctKeys :=
  CallMachine.run_invariant_all Store.DistinctKeys
    (fun _ _ _ holds called => (registryEffect_of_call called).distinctKeys holds) distinct calls

theorem run_signersInverse (inverse : start.SignersInverse) {calls : List Call}
    (inPairs : RegistersInPairs host start calls) :
    ((machine host).run start calls).SignersInverse :=
  (always_signersInverse_iff inverse).mpr inPairs calls (List.prefix_refl calls)

/-- A punished consensus key is removed in every later state. -/
theorem removed_of_punishedIn (inverse : start.SignersInverse) {calls : List Call}
    (inPairs : RegistersInPairs host start calls) {consKey : ConsensusKey}
    (punished : PunishedIn host start calls consKey) :
    ((machine host).run start calls).Removed consKey := by
  obtain ⟨before, call, later, rfl, registered, lost, unlisted⟩ := punished
  rw [List.append_cons] at inPairs ⊢
  obtain ⟨pairsBefore, pairsLater⟩ := CallMachine.permitted_append.mp inPairs
  have inverseThen := run_signersInverse inverse pairsBefore
  have removedThen : ((machine host).run start (before ++ [call])).Removed consKey := by
    rw [CallMachine.run_append, CallMachine.run_cons, CallMachine.run_nil] at lost ⊢
    unfold CallMachine.next at lost ⊢
    cases called : (machine host).call ((machine host).run start before) call with
    | error fault =>
        rw [called] at lost
        exact absurd lost registered
    | ok after =>
        rw [called] at lost
        exact (registryEffect_of_call called).removed_of_lost registered lost
  rw [CallMachine.run_append]
  refine (CallMachine.run_invariant
    (fun store : Store => store.SignersInverse ∧ store.Removed consKey) ?_
    ⟨inverseThen, removedThen⟩ (pairsLater.and unlisted)).2
  rintro store other after ⟨holds, removed⟩ ⟨pairs, unlisted⟩ called
  have effect := registryEffect_of_call called
  exact ⟨(effect.signersInverse_iff holds).mpr (pairs after called),
    effect.removed holds (unlisted after called) removed⟩

end Runs

/-- The two maps are inverse in all states of a run, every signatory set counts the
voting power of each operator once there, and nobody can set the key of a consensus key
that has been punished and not registered again, exactly when all successful
registrations of the run pair up: the entries of a call pair addresses with keys one to
one, and list the partner of each address and key that is registered already. -/
theorem run_signersInverse_iff (host : Host) (info : MessageInfo) (msg : InstantiateMsg)
    (calls : List Call) :
    let start := instantiate host info msg
    (∀ earlier, earlier <+: calls →
      let store := (machine host).run start earlier
      store.SignersInverse ∧
        (∀ createTime index sigset, store.signatorySet host createTime index = .ok sigset →
          store.CountsOnce host index sigset) ∧
        ∀ consKey, PunishedIn host start earlier consKey →
          store.sigKeys.load consKey = none ∧ store.Locked host consKey) ↔
      RegistersInPairs host start calls := by
  intro start
  have inverse : start.SignersInverse := fun _ _ => by
    constructor <;> intro impossible <;> cases impossible
  have distinct : start.DistinctKeys := ⟨List.nodup_nil, List.nodup_nil⟩
  constructor
  · intro always
    exact (always_signersInverse_iff inverse).mp fun earlier isPrefix => (always earlier isPrefix).1
  · intro inPairs earlier isPrefix store
    have inverseHere : store.SignersInverse :=
      (always_signersInverse_iff inverse).mpr inPairs earlier isPrefix
    have distinctHere : store.DistinctKeys := run_distinctKeys distinct earlier
    refine ⟨inverseHere, fun createTime index sigset built =>
      Store.countsOnce_of_signersInverse inverseHere distinctHere built, fun consKey punished => ?_⟩
    obtain ⟨rest, rfl⟩ := isPrefix
    have pairsEarlier := (CallMachine.permitted_append.mp inPairs).1
    have removed := removed_of_punishedIn inverse pairsEarlier punished
    exact ⟨removed.sigKey_eq, inverseHere.locked removed.validator_eq⟩

end Contract

namespace Sample

def registerAt (addrs : List Addr) (votingPowers : List Nat) (tags : List UInt8) : Contract.Call :=
  executeAt 0 (.addValidators addrs votingPowers (tags.map consensusKey))

/-- Two validators are registered, one of them gets more power, and they swap keys. -/
def pairingCalls : List Contract.Call := [
  registerAt ["a", "b"] [30, 70] [1, 2],
  registerAt ["a"] [40] [1],
  registerAt ["a", "b"] [40, 70] [2, 1]]

/-- A validator is registered with a second key, and sets the signatory keys of both. -/
def rotatingCalls : List Contract.Call := [
  registerAt [info.sender] [100] [1],
  executeAt 0 (.setSignatoryKey (xpub 1)),
  registerAt [info.sender] [100] [2],
  executeAt 0 (.setSignatoryKey (xpub 2))]

/-- The key of a validator is registered for another one, which is punished. -/
def handingOverCalls : List Contract.Call := [
  executeAt 0 (.updateHeaderConfig (blockOf [])),
  executeAt 0 (.updateBitcoinConfig { BitcoinConfig.default with maxOfflineCheckpoints := 0 }),
  registerAt [info.sender] [100] [1],
  executeAt 0 (.setSignatoryKey (xpub 1)),
  registerAt ["b"] [100] [1]]

def rotated : Store := (Contract.machine host).run initial rotatingCalls

/-- The block that punishes the validator. -/
def punishingBlock : Contract.Call := .clockEndBlock querier (env 1000) [1]

def punished : Store := (Contract.machine host).run initial (handingOverCalls ++ [punishingBlock])

end Sample

example : Contract.RegistersInPairs Sample.host Sample.initial Sample.pairingCalls := by
  decide +kernel

/-- A validator with two keys is counted twice.  The validator whose key was handed over
can set it again after it has been punished. -/
theorem Contract.run_signersNotInverse :
    (Sample.rotated.signers.load "owner" = some (Sample.consensusKey 2) ∧
      Sample.rotated.operator (Sample.consensusKey 1) = some "owner" ∧
      Sample.rotated.operator (Sample.consensusKey 2) = some "owner" ∧
      ¬ Sample.rotated.SignersInverse ∧
      Sample.rotated.signatorySet Sample.host 0 0 = .ok {
        createTime := 0
        presentVp := 200
        possibleVp := 200
        index := 0
        signatories := [⟨100, Sample.pubkey 2⟩, ⟨100, Sample.pubkey 1⟩] }) ∧
    PunishedIn Sample.host Sample.initial (Sample.handingOverCalls ++ [Sample.punishingBlock])
        (Sample.consensusKey 1) ∧
      Sample.punished.sigKeys.load (Sample.consensusKey 1) = none ∧
      ∃ after, Sample.punished.setSignatoryKey Sample.host "owner" (Sample.xpub 2) = .ok after ∧
        after.sigKeys.load (Sample.consensusKey 1) = some (Sample.xpub 2) := by
  refine ⟨⟨by decide +kernel, by decide +kernel, by decide +kernel, ?_, by decide +kernel⟩,
    ⟨Sample.handingOverCalls, Sample.punishingBlock, [], rfl, by decide +kernel,
      by decide +kernel, trivial⟩, by decide +kernel, ?_⟩
  · intro inverse
    have isSigner := (inverse "owner" (Sample.consensusKey 1)).mpr (by decide +kernel)
    exact absurd isSigner (by decide +kernel)
  · refine ⟨_, Store.setSignatoryKey_eq_ok.mpr ⟨Sample.consensusKey 1, by decide +kernel, rfl,
      by decide +kernel, rfl⟩, ?_⟩
    exact StorageMap.load_save_self

end CwBitcoin
