import CwBitcoin.SignatoryKeys

/-!
# The encodings in use

The set of encodings in use is to follow the saved keys.  A replaced key leaves its
encoding behind, and so does a punished key that is not stored in its normalized form,
after which nobody can register the key again.
-/

namespace CwBitcoin

namespace Store

/-- The encodings in use are those of the saved keys. -/
def KeysInStep (store : Store) : Prop :=
  ∀ encoding, encoding ∈ store.xpubs ↔
    ∃ consKey xpub, store.sigKeys.load consKey = some xpub ∧ xpub.usedAs = encoding

/-- The call removes every encoding that it takes out of use: a key is not replaced, and
a punished key is stored in its normalized form. -/
def ReleasesKeys (store : Store) : KeyCall → Prop
  | .addValidators .. => True
  | .setSignatoryKey signer xpub => xpub.WellFormed ∧
      ∀ consKey ∈ store.signers.load signer, store.sigKeys.load consKey = none
  | .punishValidator consKey _ =>
      ∀ xpub ∈ store.sigKeys.load consKey, normalizedXpub xpub = xpub

instance (store : Store) (call : KeyCall) : Decidable (store.ReleasesKeys call) := by
  unfold ReleasesKeys
  split <;> infer_instance

theorem ReleasesKeys.wellFormed {store : Store} {call : KeyCall}
    (releases : store.ReleasesKeys call) : ∀ xpub ∈ call.xpub, xpub.WellFormed := by
  cases call with
  | setSignatoryKey signer xpub => simpa [KeyCall.xpub] using releases.1
  | addValidators info addrs votingPowers consensusKeys => simp [KeyCall.xpub]
  | punishValidator consKey addr => simp [KeyCall.xpub]

variable {host : Host} {store after : Store}

namespace KeysInStep

/-- A first key adds the encoding under which it is in use. -/
theorem setSignatoryKey {signer : Addr} {xpub : Xpub} (inStep : store.KeysInStep)
    (unset : ∀ consKey ∈ store.signers.load signer, store.sigKeys.load consKey = none)
    (saved : store.setSignatoryKey host signer xpub = .ok after) : after.KeysInStep := by
  obtain ⟨consKey, isSigner, -, -, rfl⟩ := setSignatoryKey_eq_ok.mp saved
  have noKey := unset consKey isSigner
  intro encoding
  constructor
  · intro member
    rcases List.mem_cons.mp member with rfl | before
    · exact ⟨consKey, xpub, StorageMap.load_save_self, rfl⟩
    · obtain ⟨other, held, loaded, isHeld⟩ := (inStep encoding).mp before
      have differs : other ≠ consKey := by
        rintro rfl
        rw [noKey] at loaded
        cases loaded
      exact ⟨other, held, (StorageMap.load_save_of_ne differs).trans loaded, isHeld⟩
  · rintro ⟨other, held, loaded, rfl⟩
    rcases StorageMap.load_save_cases loaded with ⟨-, rfl⟩ | ⟨-, before⟩
    · exact List.mem_cons_self
    · exact List.mem_cons_of_mem _ ((inStep _).mpr ⟨other, held, before, rfl⟩)

/-- A normalized key is removed together with its encoding, which no other key has. -/
theorem removeSignatoryKey (inStep : store.KeysInStep) (guarded : store.KeysGuarded host)
    {consKey : ConsensusKey}
    (normalized : ∀ xpub ∈ store.sigKeys.load consKey, normalizedXpub xpub = xpub) :
    (store.removeSignatoryKey consKey).KeysInStep := by
  unfold Store.removeSignatoryKey
  split
  · exact inStep
  · rename_i removed removedLoaded
    have usedEq : removed.encode = removed.usedAs := by
      rw [Xpub.usedAs, normalized removed removedLoaded]
    intro encoding
    have kept_iff : encoding ∈ store.xpubs.filter (fun encoded => encoded ≠ removed.encode) ↔
        encoding ∈ store.xpubs ∧ encoding ≠ removed.usedAs := by
      simp [usedEq]
    rw [kept_iff, inStep encoding]
    constructor
    · rintro ⟨⟨other, held, loaded, rfl⟩, differs⟩
      have isOther : other ≠ consKey := by
        rintro rfl
        rw [removedLoaded] at loaded
        exact differs (congrArg Xpub.usedAs (Option.some.inj loaded).symm)
      exact ⟨other, held, (StorageMap.load_remove_of_ne isOther).trans loaded, rfl⟩
    · rintro ⟨other, held, loaded, rfl⟩
      obtain ⟨isOther, before⟩ := StorageMap.load_remove_eq_some loaded
      exact ⟨⟨other, held, before, rfl⟩, fun same =>
        isOther (guarded.distinct before removedLoaded same)⟩

theorem call {call : KeyCall} (inStep : store.KeysInStep) (guarded : store.KeysGuarded host)
    (releases : store.ReleasesKeys call)
    (called : (keyMachine host).call store call = .ok after) : after.KeysInStep := by
  cases call with
  | addValidators info addrs votingPowers consensusKeys =>
      simp only [keyMachine, Outcome.map_eq_ok] at called
      obtain ⟨response, added, rfl⟩ := called
      obtain rfl := Contract.addValidators_eq_ok added
      obtain ⟨sameKeys, sameXpubs⟩ :=
        saveValidators_keys store (addrs.zip (votingPowers.zip consensusKeys))
      unfold KeysInStep at inStep ⊢
      rw [sameKeys, sameXpubs]
      exact inStep
  | setSignatoryKey signer xpub => exact inStep.setSignatoryKey releases.2 called
  | punishValidator consKey addr =>
      obtain rfl := Except.ok.inj called
      have demoted : KeysInStep { store with
        validators := store.validators.remove consKey
        signers := store.signers.remove addr } := inStep
      exact demoted.removeSignatoryKey (guarded.demote consKey addr) releases

/-- A key that nobody holds can be set. -/
theorem exists_setSignatoryKey (inStep : store.KeysInStep) {signer : Addr} {xpub : Xpub}
    {consKey : ConsensusKey} (isSigner : store.signers.load signer = some consKey)
    (sameNetwork : xpub.network = host.network)
    (unheld : ∀ other held, store.sigKeys.load other = some held → held.usedAs ≠ xpub.usedAs) :
    ∃ after, store.setSignatoryKey host signer xpub = .ok after := by
  have unused : xpub.usedAs ∉ store.xpubs := by
    intro used
    obtain ⟨other, held, loaded, same⟩ := (inStep _).mp used
    exact unheld other held loaded same
  exact ⟨_, setSignatoryKey_eq_ok.mpr ⟨consKey, isSigner, sameNetwork, unused, rfl⟩⟩

end KeysInStep

/-- In every run that replaces no key and punishes only keys stored in their normalized
form, the encodings in use are those of the saved keys, and a key that nobody holds can
be set. -/
theorem run_keysInStep (host : Host) (info : MessageInfo) (msg : InstantiateMsg)
    (calls : List KeyCall)
    (permitted : (keyMachine host).Permitted ((keyMachine host).OnSuccess ReleasesKeys)
      (Contract.instantiate host info msg) calls) :
    let store := (keyMachine host).run (Contract.instantiate host info msg) calls
    (∀ encoding, encoding ∈ store.xpubs ↔
        ∃ consKey xpub, store.sigKeys.load consKey = some xpub ∧ xpub.usedAs = encoding) ∧
      ∀ signer consKey xpub, store.signers.load signer = some consKey →
        xpub.network = host.network →
        (∀ other held, store.sigKeys.load other = some held → held.usedAs ≠ xpub.usedAs) →
          ∃ after, store.setSignatoryKey host signer xpub = .ok after := by
  have inStep : ((keyMachine host).run (Contract.instantiate host info msg) calls).KeysGuarded host ∧
      ((keyMachine host).run (Contract.instantiate host info msg) calls).KeysInStep := by
    apply CallMachine.run_invariant (fun store : Store => store.KeysGuarded host ∧ store.KeysInStep)
      _ _ permitted
    · rintro store call after ⟨guarded, inStep⟩ releases called
      have released := releases after called
      exact ⟨guarded.call released.wellFormed called, inStep.call guarded released called⟩
    · refine ⟨keysGuarded_instantiate info msg, fun encoding => ?_⟩
      exact ⟨fun member => absurd member List.not_mem_nil, fun ⟨_, _, loaded, _⟩ => nomatch loaded⟩
  exact ⟨inStep.2, fun signer consKey xpub isSigner sameNetwork unheld =>
    inStep.2.exists_setSignatoryKey isSigner sameNetwork unheld⟩

end Store

namespace Sample

/-- A key with a place in a tree. -/
def childXpub (tag : UInt8) : Xpub := { xpub tag with depth := 1, childNumber := 7 }

/-- A validator sets its first key and is punished. -/
def releasingCalls : List KeyCall := [
  .addValidators info ["a", "b"] [30, 70] [consensusKey 1, consensusKey 2],
  .setSignatoryKey "a" (xpub 1),
  .punishValidator (consensusKey 1) "a"]

/-- A validator replaces its key. -/
def replacingCalls : List KeyCall := [
  .addValidators info ["a", "b"] [30, 70] [consensusKey 1, consensusKey 2],
  .setSignatoryKey "a" (xpub 1),
  .setSignatoryKey "a" (xpub 3)]

/-- A validator with a key that has a place in a tree is punished. -/
def punishingCalls : List KeyCall := [
  .addValidators info ["a", "b"] [30, 70] [consensusKey 1, consensusKey 2],
  .setSignatoryKey "a" (childXpub 1),
  .punishValidator (consensusKey 1) "a"]

end Sample

/-- After the punishment another validator can set the key. -/
theorem Store.run_keysInStep_sample :
    let store := (keyMachine Sample.host).run Sample.initial Sample.releasingCalls
    ∃ after, store.setSignatoryKey Sample.host "b" (Sample.xpub 1) = .ok after := by
  intro store
  have released := run_keysInStep Sample.host Sample.info Sample.instantiateMsg
    Sample.releasingCalls (by decide +kernel)
  refine released.2 "b" (Sample.consensusKey 2) (Sample.xpub 1) (by decide +kernel) rfl ?_
  intro other held loaded
  have noKeys : store.sigKeys = [] := by decide +kernel
  have loadedHere : store.sigKeys.load other = some held := loaded
  rw [noKeys] at loadedHere
  cases loadedHere

/-- A replaced key, and a punished one with a place in a tree, leave their encodings
behind.  Nobody holds the keys, and nobody can set them. -/
theorem Store.run_keysOutOfStep :
    let replaced := (keyMachine Sample.host).run Sample.initial Sample.replacingCalls
    let punished := (keyMachine Sample.host).run Sample.initial Sample.punishingCalls
    ((Sample.xpub 1).usedAs ∈ replaced.xpubs ∧
        replaced.sigKeys = [(Sample.consensusKey 1, Sample.xpub 3)] ∧
        (Sample.xpub 3).usedAs ≠ (Sample.xpub 1).usedAs ∧
        replaced.setSignatoryKey Sample.host "b" (Sample.xpub 1) =
          Outcome.fail (.app "Duplicate signatory key")) ∧
      (Sample.childXpub 1).usedAs ∈ punished.xpubs ∧ punished.sigKeys = [] ∧
        punished.setSignatoryKey Sample.host "b" (Sample.childXpub 1) =
          Outcome.fail (.app "Duplicate signatory key") := by
  decide +kernel

end CwBitcoin
