import CwBitcoin.ContractSteps

/-!
# The keys of signatories

A key is saved in full for its validator and as an encoding without its place
in a tree.  The encodings guard against keys that are in use, although
`punishValidator` removes the encoding in full.
-/

namespace CwBitcoin

/-- The fields have the sizes of the serialized form. -/
structure Xpub.WellFormed (xpub : Xpub) : Prop where
  depth_lt : xpub.depth < 2 ^ 8
  parentFingerprint_length : xpub.parentFingerprint.length = 4
  childNumber_lt : xpub.childNumber < 2 ^ 32
  chainCode_length : xpub.chainCode.length = 32

/-- The keys derive the same public keys at all indexes. -/
def Xpub.Agrees (first second : Xpub) : Prop :=
  first.publicKey = second.publicKey ∧ first.chainCode = second.chainCode

instance (first second : Xpub) : Decidable (first.Agrees second) :=
  inferInstanceAs (Decidable (_ ∧ _))

instance (xpub : Xpub) : Decidable xpub.WellFormed :=
  decidable_of_iff (xpub.depth < 2 ^ 8 ∧ xpub.parentFingerprint.length = 4 ∧
    xpub.childNumber < 2 ^ 32 ∧ xpub.chainCode.length = 32)
    ⟨fun ⟨depth, fingerprint, child, chain⟩ => ⟨depth, fingerprint, child, chain⟩,
      fun ⟨depth, fingerprint, child, chain⟩ => ⟨depth, fingerprint, child, chain⟩⟩

/-- The encoding under which a key is in use. -/
def Xpub.usedAs (xpub : Xpub) : Bytes := (Store.normalizedXpub xpub).encode

namespace Xpub

variable {first second : Xpub}

theorem agrees_of_tail_eq {chain chain' : Bytes} {key key' : Pubkey}
    (tailEq : chain ++ key.bytes = chain' ++ key'.bytes) : key = key' ∧ chain = chain' := by
  have sameLength : key.bytes.length = key'.bytes.length := key.length_eq.trans key'.length_eq.symm
  obtain ⟨chainEq, bytesEq⟩ := List.append_inj' tailEq sameLength
  refine ⟨?_, chainEq⟩
  cases key
  cases key'
  cases bytesEq
  rfl

/-- The version bytes of a network. -/
def version : Network → Bytes
  | .bitcoin => [0x04, 0x88, 0xB2, 0x1E]
  | .testnet => [0x04, 0x35, 0x87, 0xCF]

theorem version_length (network : Network) : (version network).length = 4 := by
  cases network <;> rfl

theorem encode_eq (xpub : Xpub) : xpub.encode = version xpub.network ++ (Bytes.be 1 xpub.depth ++
    (xpub.parentFingerprint ++ (Bytes.be 4 xpub.childNumber ++
      (xpub.chainCode ++ xpub.publicKey.bytes)))) := by
  unfold encode
  cases xpub.network <;> simp [version]

theorem usedAs_eq (xpub : Xpub) : xpub.usedAs = version xpub.network ++ (Bytes.be 1 0 ++
    ([0, 0, 0, 0] ++ (Bytes.be 4 0 ++ (xpub.chainCode ++ xpub.publicKey.bytes)))) :=
  encode_eq (Store.normalizedXpub xpub)

/-- Keys of one network are in use under one encoding when they agree. -/
theorem usedAs_eq_iff (sameNetwork : first.network = second.network) :
    first.usedAs = second.usedAs ↔ first.Agrees second := by
  rw [usedAs_eq, usedAs_eq, sameNetwork]
  constructor
  · intro same
    have tailEq := List.append_cancel_left (List.append_cancel_left (List.append_cancel_left
      (List.append_cancel_left same)))
    exact agrees_of_tail_eq tailEq
  · rintro ⟨sameKey, sameChain⟩
    rw [sameKey, sameChain]

/-- A full encoding that another key is in use under belongs to a key that
agrees with it. -/
theorem agrees_of_encode_eq_usedAs (wellFormed : first.WellFormed)
    (same : first.encode = second.usedAs) : first.Agrees second := by
  rw [encode_eq, usedAs_eq] at same
  have beLength (count number : Nat) : (Bytes.be count number).length = count := by
    rw [Bytes.be, List.length_reverse, Bytes.length_le]
  have afterVersion := (List.append_inj same (by rw [version_length, version_length])).2
  have afterDepth := (List.append_inj afterVersion (by rw [beLength, beLength])).2
  have afterFingerprint :=
    (List.append_inj afterDepth wellFormed.parentFingerprint_length).2
  have tailEq := (List.append_inj afterFingerprint (by rw [beLength, beLength])).2
  exact agrees_of_tail_eq tailEq

end Xpub

namespace Store

/-- Registering validators changes no key. -/
theorem saveValidators_keys (store : Store) (entries : List (Addr × Nat × ConsensusKey)) :
    (entries.foldl Contract.saveValidator store).sigKeys = store.sigKeys ∧
      (entries.foldl Contract.saveValidator store).xpubs = store.xpubs := by
  induction entries generalizing store with
  | nil => exact ⟨rfl, rfl⟩
  | cons entry rest ih => exact ih (Contract.saveValidator store entry)

/-- A key is set for a signer with a consensus key unless its encoding is in use. -/
theorem setSignatoryKey_eq_ok {host : Host} {store after : Store} {signer : Addr} {xpub : Xpub} :
    store.setSignatoryKey host signer xpub = .ok after ↔
      ∃ consKey, store.signers.load signer = some consKey ∧ xpub.network = host.network ∧
        xpub.usedAs ∉ store.xpubs ∧
        { store with
          sigKeys := store.sigKeys.save consKey xpub
          xpubs := xpub.usedAs :: store.xpubs } = after := by
  simp only [setSignatoryKey, insertSignatoryKey, Outcome.bind_eq_ok, Outcome.require_eq_ok,
    Outcome.getOr_fail_eq_ok, Outcome.pure_eq_ok, exists_const]
  rfl

/-- Every saved key is in use, and no two of them agree. -/
structure KeysGuarded (host : Host) (store : Store) : Prop where
  validators_nodup : store.validators.keys.Nodup
  network : ∀ {consKey xpub}, store.sigKeys.load consKey = some xpub →
    xpub.network = host.network
  wellFormed : ∀ {consKey xpub}, store.sigKeys.load consKey = some xpub → xpub.WellFormed
  used : ∀ {consKey xpub}, store.sigKeys.load consKey = some xpub → xpub.usedAs ∈ store.xpubs
  distinct : ∀ {first second x y}, store.sigKeys.load first = some x →
    store.sigKeys.load second = some y → x.usedAs = y.usedAs → first = second

namespace KeysGuarded

variable {host : Host} {store after : Store}

theorem setSignatoryKey {signer : Addr} {xpub : Xpub} (guarded : store.KeysGuarded host)
    (wellFormed : xpub.WellFormed) (saved : store.setSignatoryKey host signer xpub = .ok after) :
    after.KeysGuarded host := by
  obtain ⟨consKey, -, sameNetwork, unused, rfl⟩ := setSignatoryKey_eq_ok.mp saved
  have fresh {other : ConsensusKey} {found : Xpub}
      (loaded : store.sigKeys.load other = some found) : xpub.usedAs ≠ found.usedAs := by
    intro same
    apply unused
    rw [same]
    exact guarded.used loaded
  refine ⟨guarded.validators_nodup, ?_, ?_, ?_, ?_⟩
  · intro other found loaded
    rcases StorageMap.load_save_cases loaded with ⟨-, rfl⟩ | ⟨-, before⟩
    · exact sameNetwork
    · exact guarded.network before
  · intro other found loaded
    rcases StorageMap.load_save_cases loaded with ⟨-, rfl⟩ | ⟨-, before⟩
    · exact wellFormed
    · exact guarded.wellFormed before
  · intro other found loaded
    rcases StorageMap.load_save_cases loaded with ⟨-, rfl⟩ | ⟨-, before⟩
    · exact List.mem_cons_self
    · exact List.mem_cons_of_mem _ (guarded.used before)
  · intro first second x y firstLoaded secondLoaded same
    rcases StorageMap.load_save_cases firstLoaded with ⟨rfl, rfl⟩ | ⟨-, firstBefore⟩ <;>
      rcases StorageMap.load_save_cases secondLoaded with ⟨rfl, rfl⟩ | ⟨-, secondBefore⟩
    · rfl
    · exact absurd same (fresh secondBefore)
    · exact absurd same.symm (fresh firstBefore)
    · exact guarded.distinct firstBefore secondBefore same

theorem saveValidator {entry : Addr × Nat × ConsensusKey} (guarded : store.KeysGuarded host) :
    (Contract.saveValidator store entry).KeysGuarded host :=
  { guarded with validators_nodup := StorageMap.nodup_keys_save guarded.validators_nodup }

theorem saveValidators (guarded : store.KeysGuarded host)
    (entries : List (Addr × Nat × ConsensusKey)) :
    (entries.foldl Contract.saveValidator store).KeysGuarded host := by
  induction entries generalizing store with
  | nil => exact guarded
  | cons entry rest ih => exact ih guarded.saveValidator

/-- The encoding that is removed is in use by the removed key at most. -/
theorem removeSignatoryKey (guarded : store.KeysGuarded host) (consKey : ConsensusKey) :
    (store.removeSignatoryKey consKey).KeysGuarded host := by
  unfold Store.removeSignatoryKey
  split
  · exact guarded
  · rename_i removed removedLoaded
    refine ⟨guarded.validators_nodup, ?_, ?_, ?_, ?_⟩
    · intro other found loaded
      exact guarded.network (StorageMap.load_remove_eq_some loaded).2
    · intro other found loaded
      exact guarded.wellFormed (StorageMap.load_remove_eq_some loaded).2
    · intro other found loaded
      obtain ⟨isOther, before⟩ := StorageMap.load_remove_eq_some loaded
      apply List.mem_filter.mpr
      refine ⟨guarded.used before, ?_⟩
      simp only [ne_eq, decide_eq_true_eq]
      intro same
      have agrees := Xpub.agrees_of_encode_eq_usedAs (guarded.wellFormed removedLoaded) same.symm
      have sameNetwork := (guarded.network removedLoaded).trans (guarded.network before).symm
      have sameUse := (Xpub.usedAs_eq_iff sameNetwork).mpr agrees
      exact isOther (guarded.distinct before removedLoaded sameUse.symm)
    · intro first second x y firstLoaded secondLoaded same
      exact guarded.distinct (StorageMap.load_remove_eq_some firstLoaded).2
        (StorageMap.load_remove_eq_some secondLoaded).2 same

/-- A validator loses its power and its address, but no key. -/
theorem demote (guarded : store.KeysGuarded host) (consKey : ConsensusKey) (addr : Addr) :
    KeysGuarded host { store with
      validators := store.validators.remove consKey
      signers := store.signers.remove addr } :=
  { guarded with validators_nodup := StorageMap.nodup_keys_remove guarded.validators_nodup }

theorem punishValidator (guarded : store.KeysGuarded host) (consKey : ConsensusKey) (addr : Addr) :
    (store.punishValidator consKey addr).KeysGuarded host :=
  (guarded.demote consKey addr).removeSignatoryKey consKey

end KeysGuarded

end Store

namespace SignatorySet

variable {host : Host} {sigKey : ConsensusKey → Option Xpub}

/-- The signatories come from validators with a key, each from another one. -/
theorem addValidators_signatories {validators : List Validator} {start final : SignatorySet}
    (folded : validators.foldlM (addValidator host sigKey) start = .ok final) :
    ∃ added : List (ConsensusKey × Signatory),
      final.signatories = start.signatories ++ added.map Prod.snd ∧
      (added.map Prod.fst).Sublist (validators.map Validator.pubkey) ∧
      ∀ entry ∈ added, ∃ xpub, sigKey entry.1 = some xpub ∧
        xpub.derivePubkey host start.index = .ok entry.2.pubkey := by
  induction validators generalizing start with
  | nil =>
      obtain rfl := Outcome.pure_eq_ok.mp folded
      exact ⟨[], by simp, List.Sublist.refl _, by simp⟩
  | cons validator rest ih =>
      simp only [List.foldlM_cons, addValidator, Outcome.bind_eq_ok] at folded
      obtain ⟨next, ⟨possibleVp, -, added⟩, folded⟩ := folded
      split at added
      · obtain rfl := Outcome.pure_eq_ok.mp added
        obtain ⟨others, signatories_eq, sublist, derived⟩ := ih folded
        exact ⟨others, signatories_eq, sublist.cons _, derived⟩
      · rename_i xpub found
        simp only [insert, Outcome.bind_eq_ok, Outcome.pure_eq_ok] at added
        obtain ⟨pubkey, derivedOne, presentVp, -, rfl⟩ := added
        obtain ⟨others, signatories_eq, sublist, derived⟩ := ih folded
        refine ⟨(validator.pubkey, ⟨validator.power, pubkey⟩) :: others, ?_, ?_, ?_⟩
        · simp [signatories_eq]
        · exact sublist.cons_cons _
        · exact List.forall_mem_cons.mpr ⟨⟨xpub, found, derivedOne⟩, derived⟩

/-- Keys that derive different public keys give signatories without duplicates. -/
theorem fromValidatorCtx_nodup {validators : List Validator} {createTime index : Nat}
    {sigset : SignatorySet} (nodup : (validators.map Validator.pubkey).Nodup)
    (distinct : ∀ {first second x y pubkey}, sigKey first = some x → sigKey second = some y →
      x.derivePubkey host index = .ok pubkey → y.derivePubkey host index = .ok pubkey →
        first = second)
    (built : fromValidatorCtx host validators sigKey createTime index = .ok sigset) :
    (sigset.signatories.map Signatory.pubkey).Nodup := by
  simp only [fromValidatorCtx, Outcome.bind_eq_ok] at built
  obtain ⟨collecting, folded, truncated⟩ := built
  obtain ⟨added, signatories_eq, sublist, derived⟩ := addValidators_signatories folded
  have keysDiffer : added.Pairwise fun first second => first.1 ≠ second.1 :=
    List.pairwise_map.mp (nodup.sublist sublist)
  have collectedNodup : (collecting.signatories.map Signatory.pubkey).Nodup := by
    rw [signatories_eq, List.nil_append, List.map_map]
    apply List.pairwise_map.mpr
    apply keysDiffer.imp_of_mem
    intro first second firstMember secondMember differs same
    obtain ⟨x, xFound, xDerived⟩ := derived first firstMember
    obtain ⟨y, yFound, yDerived⟩ := derived second secondMember
    have sameKey : second.2.pubkey = first.2.pubkey := same.symm
    rw [sameKey] at yDerived
    exact differs (distinct xFound yFound xDerived yDerived)
  simp only [sortAndTruncate, Outcome.bind_eq_ok, Outcome.pure_eq_ok] at truncated
  obtain ⟨presentVp, -, rfl⟩ := truncated
  have sortedNodup : ((collecting.signatories.insertionSort
      fun first second => second.rank ≤ first.rank).map Signatory.pubkey).Nodup :=
    ((List.perm_insertionSort _ _).map _).nodup_iff.mpr collectedNodup
  exact sortedNodup.sublist ((List.take_sublist _ _).map _)

end SignatorySet

/-- The calls that change the keys of signatories. -/
inductive KeyCall where
  | addValidators (info : MessageInfo) (addrs : List Addr) (votingPowers : List Nat)
      (consensusKeys : List ConsensusKey)
  | setSignatoryKey (signer : Addr) (xpub : Xpub)
  | punishValidator (consKey : ConsensusKey) (addr : Addr)
  deriving DecidableEq, Repr

/-- The key that a call submits. -/
def KeyCall.xpub : KeyCall → Option Xpub
  | .setSignatoryKey _ xpub => some xpub
  | _ => none

namespace Store

/-- The contract under the calls that change the keys of signatories. -/
def keyMachine (host : Host) : CallMachine Store KeyCall ContractError where
  call store
    | .addValidators info addrs votingPowers consensusKeys =>
        Prod.fst <$> Contract.addValidators store info addrs votingPowers consensusKeys
    | .setSignatoryKey signer xpub => store.setSignatoryKey host signer xpub
    | .punishValidator consKey addr => .ok (store.punishValidator consKey addr)

/-- Saved keys that derive the same public key at an index agree. -/
def DerivesInjectively (host : Host) (store : Store) (index : Nat) : Prop :=
  ∀ first ∈ store.sigKeys, ∀ second ∈ store.sigKeys, ∀ pubkey,
    first.2.derivePubkey host index = .ok pubkey →
      second.2.derivePubkey host index = .ok pubkey → first.2.Agrees second.2

variable {host : Host} {store : Store}

theorem KeysGuarded.call {after : Store} {call : KeyCall} (guarded : store.KeysGuarded host)
    (wellFormed : ∀ xpub ∈ call.xpub, xpub.WellFormed)
    (called : (keyMachine host).call store call = .ok after) : after.KeysGuarded host := by
  cases call with
  | addValidators info addrs votingPowers consensusKeys =>
      simp only [keyMachine, Outcome.map_eq_ok] at called
      obtain ⟨response, added, rfl⟩ := called
      obtain rfl := Contract.addValidators_eq_ok added
      exact guarded.saveValidators _
  | setSignatoryKey signer xpub => exact guarded.setSignatoryKey (wellFormed xpub rfl) called
  | punishValidator consKey addr =>
      obtain rfl := Except.ok.inj called
      exact guarded.punishValidator consKey addr

theorem keysGuarded_instantiate (info : MessageInfo) (msg : InstantiateMsg) :
    (Contract.instantiate host info msg).KeysGuarded host where
  validators_nodup := List.nodup_nil
  network := nofun
  wellFormed := nofun
  used := nofun
  distinct := nofun

theorem KeysGuarded.signatorySet_nodup {createTime index : Nat} {sigset : SignatorySet}
    (guarded : store.KeysGuarded host) (injective : store.DerivesInjectively host index)
    (built : store.signatorySet host createTime index = .ok sigset) :
    (sigset.signatories.map Signatory.pubkey).Nodup := by
  have validatorKeys : store.getValidators.map Validator.pubkey = store.validators.keys := by
    simp [getValidators, StorageMap.keys]
  apply SignatorySet.fromValidatorCtx_nodup _ _ built
  · rw [validatorKeys]
    exact guarded.validators_nodup
  · intro first second x y pubkey firstLoaded secondLoaded firstDerived secondDerived
    have agrees : x.Agrees y := injective _ (StorageMap.mem_of_load firstLoaded) _
      (StorageMap.mem_of_load secondLoaded) pubkey firstDerived secondDerived
    have sameNetwork := (guarded.network firstLoaded).trans (guarded.network secondLoaded).symm
    exact guarded.distinct firstLoaded secondLoaded ((Xpub.usedAs_eq_iff sameNetwork).mpr agrees)

/-- After all calls that add validators, set keys and punish validators, no two
consensus keys have keys that agree, and no signatory set has a public key
twice. -/
theorem run_keys_distinct (host : Host) (info : MessageInfo) (msg : InstantiateMsg)
    (calls : List KeyCall)
    (wellFormed : ∀ call ∈ calls, ∀ xpub ∈ call.xpub, xpub.WellFormed) :
    let store := (keyMachine host).run (Contract.instantiate host info msg) calls
    (∀ first second x y, first ≠ second → store.sigKeys.load first = some x →
      store.sigKeys.load second = some y → ¬ x.Agrees y ∧ x.usedAs ≠ y.usedAs) ∧
    ∀ createTime index sigset, store.DerivesInjectively host index →
      store.signatorySet host createTime index = .ok sigset →
        (sigset.signatories.map Signatory.pubkey).Nodup := by
  intro store
  have guarded : store.KeysGuarded host :=
    CallMachine.run_invariant (KeysGuarded host)
      (fun _ _ _ holds allowed called => holds.call allowed called)
      (keysGuarded_instantiate info msg) (CallMachine.permitted_of_forall wellFormed _)
  constructor
  · intro first second x y differs firstLoaded secondLoaded
    have useDiffers : x.usedAs ≠ y.usedAs := fun same =>
      differs (guarded.distinct firstLoaded secondLoaded same)
    have sameNetwork := (guarded.network firstLoaded).trans (guarded.network secondLoaded).symm
    exact ⟨fun agrees => useDiffers ((Xpub.usedAs_eq_iff sameNetwork).mpr agrees), useDiffers⟩
  · intro createTime index sigset injective built
    exact guarded.signatorySet_nodup injective built

end Store

namespace Sample

/-- Two validators set keys, and one of them replaces its key by one that the
other then fails to set. -/
def keyCalls : List KeyCall := [
  .addValidators info ["a", "b"] [30, 70] [consensusKey 1, consensusKey 2],
  .setSignatoryKey "a" (xpub 1),
  .setSignatoryKey "b" (xpub 2),
  .setSignatoryKey "a" (xpub 3),
  .setSignatoryKey "b" (xpub 3)]

def keySigset : SignatorySet where
  createTime := 0
  presentVp := 100
  possibleVp := 100
  index := 0
  signatories := [⟨70, pubkey 2⟩, ⟨30, pubkey 3⟩]

end Sample

theorem Store.run_keys_distinct_sample :
    let store := (keyMachine Sample.host).run Sample.initial Sample.keyCalls
    store.sigKeys = [(Sample.consensusKey 1, Sample.xpub 3), (Sample.consensusKey 2, Sample.xpub 2)] ∧
      ¬ (Sample.xpub 3).Agrees (Sample.xpub 2) ∧
      (Sample.keySigset.signatories.map Signatory.pubkey).Nodup := by
  intro store
  have saved : store.sigKeys =
      [(Sample.consensusKey 1, Sample.xpub 3), (Sample.consensusKey 2, Sample.xpub 2)] := by
    decide +kernel
  have injective : store.DerivesInjectively Sample.host 0 := by
    intro first firstSaved second secondSaved pubkey firstDerived secondDerived
    rw [saved] at firstSaved secondSaved
    have agreeing : ∀ first ∈ [(Sample.consensusKey 1, Sample.xpub 3),
        (Sample.consensusKey 2, Sample.xpub 2)], ∀ second ∈ [(Sample.consensusKey 1, Sample.xpub 3),
          (Sample.consensusKey 2, Sample.xpub 2)], first.2.derivePubkey Sample.host 0 =
            second.2.derivePubkey Sample.host 0 → first.2.Agrees second.2 := by
      decide +kernel
    exact agreeing first firstSaved second secondSaved (firstDerived.trans secondDerived.symm)
  obtain ⟨distinct, nodup⟩ := run_keys_distinct Sample.host Sample.info Sample.instantiateMsg
    Sample.keyCalls (by decide +kernel)
  refine ⟨saved, ?_, ?_⟩
  · exact (distinct (Sample.consensusKey 1) (Sample.consensusKey 2) _ _ (by decide)
      (by decide +kernel) (by decide +kernel)).1
  · exact nodup 0 0 Sample.keySigset injective (by decide +kernel)

end CwBitcoin
