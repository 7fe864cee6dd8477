import CwBitcoin.ContractSteps
import CwBitcoin.Library.InverseMaps
import CwBitcoin.SignatoryKeys
import CwBitcoin.SignatorySelection

/-!
# The registry of validators

One map gives the consensus key of each address, and another one the voting power and
the address of each consensus key.  The two are to be inverse to each other, and a
punished validator is removed from both.  Registering validators writes both maps without
a look at what was in them, so that an address that gets a second key, or a key that gets
a second address, stays behind in one of them.
-/

namespace CwBitcoin

/-- The call leaves the registry and the keys of signatories alone. -/
structure Store.SameRegistry (store after : Store) : Prop where
  validators_eq : after.validators = store.validators
  signers_eq : after.signers = store.signers
  sigKeys_eq : after.sigKeys = store.sigKeys

namespace Store

/-- The address that a consensus key is registered for. -/
def operator (store : Store) (consKey : ConsensusKey) : Option Addr :=
  (store.validators.load consKey).map Prod.snd

/-- An address has a consensus key exactly when the key is registered for it. -/
def SignersInverse (store : Store) : Prop := InverseMaps store.signers.load store.operator

/-- No address can set the signatory key of the consensus key. -/
def Locked (host : Host) (store : Store) (consKey : ConsensusKey) : Prop :=
  ∀ signer xpub after, store.setSignatoryKey host signer xpub = .ok after →
    after.sigKeys.load consKey = store.sigKeys.load consKey

/-- Every key of the maps of the registry has one entry. -/
structure DistinctKeys (store : Store) : Prop where
  validators_nodup : store.validators.keys.Nodup
  signers_nodup : store.signers.keys.Nodup

/-- The consensus key has neither a validator nor a signatory key. -/
structure Removed (store : Store) (consKey : ConsensusKey) : Prop where
  validator_eq : store.validators.load consKey = none
  sigKey_eq : store.sigKeys.load consKey = none

namespace SameRegistry

variable {store middle after : Store}

theorem refl (store : Store) : SameRegistry store store := ⟨rfl, rfl, rfl⟩

theorem trans (first : SameRegistry store middle) (second : SameRegistry middle after) :
    SameRegistry store after :=
  ⟨second.validators_eq.trans first.validators_eq, second.signers_eq.trans first.signers_eq,
    second.sigKeys_eq.trans first.sigKeys_eq⟩

theorem operator_eq (same : SameRegistry store after) : after.operator = store.operator := by
  funext consKey
  rw [operator, operator, same.validators_eq]

theorem signersInverse (same : SameRegistry store after) (inverse : store.SignersInverse) :
    after.SignersInverse := by
  rw [SignersInverse, same.signers_eq, same.operator_eq]
  exact inverse

theorem distinctKeys (same : SameRegistry store after) (distinct : store.DistinctKeys) :
    after.DistinctKeys := by
  constructor
  · rw [same.validators_eq]
    exact distinct.validators_nodup
  · rw [same.signers_eq]
    exact distinct.signers_nodup

theorem removed (same : SameRegistry store after) {consKey : ConsensusKey}
    (removed : store.Removed consKey) : after.Removed consKey := by
  constructor
  · rw [same.validators_eq]
    exact removed.validator_eq
  · rw [same.sigKeys_eq]
    exact removed.sigKey_eq

end SameRegistry

/-- The addresses are those of validators, so a key without one is out of their reach. -/
theorem SignersInverse.locked {host : Host} {store : Store} {consKey : ConsensusKey}
    (inverse : store.SignersInverse) (unregistered : store.validators.load consKey = none) :
    store.Locked host consKey := by
  intro signer xpub after saved
  obtain ⟨other, isSigner, -, -, rfl⟩ := setSignatoryKey_eq_ok.mp saved
  have differs : consKey ≠ other := by
    rintro rfl
    have isOperator := (inverse signer consKey).mp isSigner
    rw [operator, unregistered] at isOperator
    cases isOperator
  exact StorageMap.load_save_of_ne differs

section Punish

variable {store after : Store} {consKey : ConsensusKey} {addr : Addr}

theorem validators_punishValidator :
    (store.punishValidator consKey addr).validators = store.validators.remove consKey := by
  rw [punishValidator, removeSignatoryKey]
  split <;> rfl

theorem signers_punishValidator :
    (store.punishValidator consKey addr).signers = store.signers.remove addr := by
  rw [punishValidator, removeSignatoryKey]
  split <;> rfl

/-- The key of a punished validator is removed, if there is one. -/
theorem load_sigKeys_punishValidator :
    (store.punishValidator consKey addr).sigKeys.load =
      Function.update store.sigKeys.load consKey none := by
  rw [punishValidator, removeSignatoryKey]
  split
  · rename_i unset
    have unset : store.sigKeys.load consKey = none := unset
    rw [← unset, Function.update_eq_self]
  · exact StorageMap.load_remove _ _

theorem operator_punishValidator :
    (store.punishValidator consKey addr).operator = Function.update store.operator consKey none := by
  funext other
  rw [operator, validators_punishValidator, StorageMap.load_remove]
  by_cases same : other = consKey
  · rw [same, Function.update_self, Function.update_self]
    rfl
  · rw [Function.update_of_ne same, Function.update_of_ne same]
    rfl

/-- Punishing the operator of a key removes the pair from both maps. -/
theorem SignersInverse.punishValidator (inverse : store.SignersInverse)
    (isOperator : store.operator consKey = some addr) :
    (store.punishValidator consKey addr).SignersInverse := by
  rw [SignersInverse, signers_punishValidator, StorageMap.load_remove, operator_punishValidator]
  exact inverse.erase ((inverse addr consKey).mpr isOperator)

theorem DistinctKeys.punishValidator (distinct : store.DistinctKeys) (consKey : ConsensusKey)
    (addr : Addr) : (store.punishValidator consKey addr).DistinctKeys := by
  constructor
  · rw [validators_punishValidator]
    exact StorageMap.nodup_keys_remove distinct.validators_nodup
  · rw [signers_punishValidator]
    exact StorageMap.nodup_keys_remove distinct.signers_nodup

/-- What punishing one validator after the other preserves, each with the address that
its key is registered for. -/
theorem punishAll_invariant (Inv : Store → Prop)
    (preserve : ∀ store consKey addr, Inv store → store.operator consKey = some addr →
      Inv (store.punishValidator consKey addr))
    {keys : List ConsensusKey} (holds : Inv store)
    (punished : Contract.punishAll store keys = .ok after) : Inv after := by
  induction keys generalizing store with
  | nil =>
      obtain rfl := Except.ok.inj punished
      exact holds
  | cons key rest ih =>
      simp only [Contract.punishAll, Outcome.bind_eq_ok, Outcome.getOr_fail_eq_ok] at punished
      obtain ⟨⟨power, address⟩, loaded, punished⟩ := punished
      have isOperator : store.operator key = some address := by
        rw [operator, loaded]
        rfl
      exact ih (preserve store key address holds isOperator) punished

/-- The punished keys are removed, and the others keep what they have. -/
theorem punishAll_loads {keys : List ConsensusKey}
    (punished : Contract.punishAll store keys = .ok after) (consKey : ConsensusKey) :
    if consKey ∈ keys then after.Removed consKey
    else after.validators.load consKey = store.validators.load consKey ∧
      after.sigKeys.load consKey = store.sigKeys.load consKey := by
  induction keys generalizing store with
  | nil =>
      obtain rfl := Except.ok.inj punished
      rw [if_neg List.not_mem_nil]
      exact ⟨rfl, rfl⟩
  | cons key rest ih =>
      simp only [Contract.punishAll, Outcome.bind_eq_ok, Outcome.getOr_fail_eq_ok] at punished
      obtain ⟨⟨power, address⟩, loaded, punished⟩ := punished
      have later := ih punished
      rw [validators_punishValidator, StorageMap.load_remove, load_sigKeys_punishValidator] at later
      by_cases isLater : consKey ∈ rest
      · rw [if_pos isLater] at later
        rwa [if_pos (List.mem_cons_of_mem key isLater)]
      · rw [if_neg isLater] at later
        by_cases same : consKey = key
        · rw [same, Function.update_self, Function.update_self] at later
          rw [if_pos (by simp [same]), same]
          exact ⟨later.1, later.2⟩
        · rw [Function.update_of_ne same, Function.update_of_ne same] at later
          rwa [if_neg (by simp [same, isLater])]

/-- Punishing removes the keys that lose their validators, and leaves removed keys so. -/
theorem removed_of_punishAll {keys : List ConsensusKey}
    (punished : Contract.punishAll store keys = .ok after)
    (lost : store.Removed consKey ∨
      store.validators.load consKey ≠ none ∧ after.validators.load consKey = none) :
    after.Removed consKey := by
  have loads := punishAll_loads punished consKey
  by_cases isPunished : consKey ∈ keys
  · rwa [if_pos isPunished] at loads
  · rw [if_neg isPunished] at loads
    rcases lost with removed | ⟨registered, lost⟩
    · exact ⟨loads.1.trans removed.validator_eq, loads.2.trans removed.sigKey_eq⟩
    · exact absurd (loads.1.symm.trans lost) registered

end Punish

section Register

/-- The consensus key in the last entry with the address. -/
def lastKey (entries : List (Addr × Nat × ConsensusKey)) : Addr → Option ConsensusKey :=
  StorageMap.lastFor (fun entry => entry.1) (fun entry => entry.2.2) entries

/-- The address in the last entry with the consensus key. -/
def lastAddr (entries : List (Addr × Nat × ConsensusKey)) : ConsensusKey → Option Addr :=
  StorageMap.lastFor (fun entry => entry.2.2) (fun entry => entry.1) entries

/-- The entries pair addresses with keys one to one, and where an address or a key of
theirs is registered already, they have its partner as well. -/
structure PairsUp (store : Store) (entries : List (Addr × Nat × ConsensusKey)) : Prop where
  oneToOne : ∀ entry ∈ entries,
    lastKey entries entry.1 = some entry.2.2 ↔ lastAddr entries entry.2.2 = some entry.1
  keyListed : ∀ entry ∈ entries, ∀ consKey ∈ store.signers.load entry.1,
    consKey ∈ entries.map fun entry => entry.2.2
  addrListed : ∀ entry ∈ entries, ∀ addr ∈ store.operator entry.2.2,
    addr ∈ entries.map fun entry => entry.1

instance (store : Store) (entries : List (Addr × Nat × ConsensusKey)) :
    Decidable (store.PairsUp entries) :=
  decidable_of_iff ((∀ entry ∈ entries,
      lastKey entries entry.1 = some entry.2.2 ↔ lastAddr entries entry.2.2 = some entry.1) ∧
    (∀ entry ∈ entries, ∀ consKey ∈ store.signers.load entry.1,
      consKey ∈ entries.map fun entry => entry.2.2) ∧
    ∀ entry ∈ entries, ∀ addr ∈ store.operator entry.2.2, addr ∈ entries.map fun entry => entry.1)
    ⟨fun holds => ⟨holds.1, holds.2.1, holds.2.2⟩,
      fun pairs => ⟨pairs.oneToOne, pairs.keyListed, pairs.addrListed⟩⟩

variable {store : Store} {entries : List (Addr × Nat × ConsensusKey)}

theorem pairsUp_nil : store.PairsUp [] :=
  ⟨fun _ member => absurd member List.not_mem_nil, fun _ member => absurd member List.not_mem_nil,
    fun _ member => absurd member List.not_mem_nil⟩

theorem covers_lastKey : InverseMaps.Covers (lastKey entries) (lastAddr entries) := by
  intro addr consKey last
  obtain ⟨entry, member, -, rfl⟩ := StorageMap.exists_of_lastFor last
  exact StorageMap.isSome_lastFor.mpr (List.mem_map_of_mem member)

theorem covers_lastAddr : InverseMaps.Covers (lastAddr entries) (lastKey entries) := by
  intro consKey addr last
  obtain ⟨entry, member, -, rfl⟩ := StorageMap.exists_of_lastFor last
  exact StorageMap.isSome_lastFor.mpr (List.mem_map_of_mem member)

theorem inverse_last_iff : InverseMaps (lastKey entries) (lastAddr entries) ↔
    ∀ entry ∈ entries,
      lastKey entries entry.1 = some entry.2.2 ↔ lastAddr entries entry.2.2 = some entry.1 := by
  constructor
  · intro inverse entry _
    exact inverse entry.1 entry.2.2
  · intro oneToOne addr consKey
    constructor
    · intro last
      obtain ⟨entry, member, rfl, rfl⟩ := StorageMap.exists_of_lastFor last
      exact (oneToOne entry member).mp last
    · intro last
      obtain ⟨entry, member, rfl, rfl⟩ := StorageMap.exists_of_lastFor last
      exact (oneToOne entry member).mpr last

/-- The pairs that entries overwrite are those of which they list both parts. -/
theorem together_iff (inverse : store.SignersInverse) :
    (∀ addr consKey, store.signers.load addr = some consKey →
        ((lastKey entries addr).isSome ↔ (lastAddr entries consKey).isSome)) ↔
      (∀ entry ∈ entries, ∀ consKey ∈ store.signers.load entry.1,
        consKey ∈ entries.map fun entry => entry.2.2) ∧
      ∀ entry ∈ entries, ∀ addr ∈ store.operator entry.2.2,
        addr ∈ entries.map fun entry => entry.1 := by
  have keyListed_iff (addr : Addr) :
      (lastKey entries addr).isSome ↔ addr ∈ entries.map fun entry => entry.1 :=
    StorageMap.isSome_lastFor
  have addrListed_iff (consKey : ConsensusKey) :
      (lastAddr entries consKey).isSome ↔ consKey ∈ entries.map fun entry => entry.2.2 :=
    StorageMap.isSome_lastFor
  simp only [keyListed_iff, addrListed_iff]
  constructor
  · intro together
    constructor
    · intro entry member consKey held
      exact (together entry.1 consKey held).mp (List.mem_map_of_mem member)
    · intro entry member addr held
      exact (together addr entry.2.2 ((inverse addr entry.2.2).mpr held)).mpr
        (List.mem_map_of_mem member)
  · rintro ⟨keyListed, addrListed⟩ addr consKey held
    constructor
    · intro listed
      obtain ⟨entry, member, rfl⟩ := List.mem_map.mp listed
      exact keyListed entry member consKey held
    · intro listed
      obtain ⟨entry, member, rfl⟩ := List.mem_map.mp listed
      exact addrListed entry member addr ((inverse addr entry.2.2).mp held)

theorem signers_saveValidators (entries : List (Addr × Nat × ConsensusKey)) (store : Store) :
    (entries.foldl Contract.saveValidator store).signers =
      entries.foldl (fun map entry => map.save entry.1 entry.2.2) store.signers :=
  (List.foldl_hom Store.signers fun _ _ => rfl).symm

theorem validators_saveValidators (entries : List (Addr × Nat × ConsensusKey)) (store : Store) :
    (entries.foldl Contract.saveValidator store).validators =
      entries.foldl (fun map entry => map.save entry.2.2 (entry.2.1, entry.1)) store.validators :=
  (List.foldl_hom Store.validators fun _ _ => rfl).symm

/-- The entries are written over the consensus keys of the addresses. -/
theorem load_signers_saveValidators :
    (entries.foldl Contract.saveValidator store).signers.load =
      InverseMaps.overwrite (lastKey entries) store.signers.load := by
  funext addr
  rw [signers_saveValidators]
  exact StorageMap.load_foldl_save _ _ entries store.signers addr

theorem load_validators_saveValidators (consKey : ConsensusKey) :
    (entries.foldl Contract.saveValidator store).validators.load consKey =
      (StorageMap.lastFor (fun entry => entry.2.2) (fun entry => (entry.2.1, entry.1)) entries
        consKey).or (store.validators.load consKey) := by
  rw [validators_saveValidators]
  exact StorageMap.load_foldl_save _ _ entries store.validators consKey

/-- The entries are written over the operators of the keys. -/
theorem operator_saveValidators :
    (entries.foldl Contract.saveValidator store).operator =
      InverseMaps.overwrite (lastAddr entries) store.operator := by
  funext consKey
  rw [operator, load_validators_saveValidators, Option.map_or, StorageMap.lastFor, Option.map_map]
  rfl

/-- Registering keeps the maps inverse exactly when the entries pair up. -/
theorem signersInverse_saveValidators_iff (inverse : store.SignersInverse) :
    (entries.foldl Contract.saveValidator store).SignersInverse ↔ store.PairsUp entries := by
  rw [SignersInverse, load_signers_saveValidators, operator_saveValidators,
    InverseMaps.overwrite_iff inverse covers_lastKey covers_lastAddr, inverse_last_iff,
    together_iff inverse]
  exact ⟨fun holds => ⟨holds.1, holds.2.1, holds.2.2⟩,
    fun pairs => ⟨pairs.oneToOne, pairs.keyListed, pairs.addrListed⟩⟩

theorem DistinctKeys.saveValidators (distinct : store.DistinctKeys)
    (entries : List (Addr × Nat × ConsensusKey)) :
    (entries.foldl Contract.saveValidator store).DistinctKeys := by
  induction entries generalizing store with
  | nil => exact distinct
  | cons entry rest ih =>
      have one : (Contract.saveValidator store entry).DistinctKeys :=
        ⟨StorageMap.nodup_keys_save distinct.validators_nodup,
          StorageMap.nodup_keys_save distinct.signers_nodup⟩
      exact ih one

/-- A key that no entry lists keeps its validator. -/
theorem load_validators_of_unlisted {consKey : ConsensusKey}
    (unlisted : consKey ∉ entries.map fun entry => entry.2.2) :
    (entries.foldl Contract.saveValidator store).validators.load consKey =
      store.validators.load consKey := by
  rw [load_validators_saveValidators, Option.not_isSome_iff_eq_none.mp
    (fun listed => unlisted (StorageMap.isSome_lastFor.mp listed)), Option.none_or]

end Register

section Count

/-- The voting power of the consensus key of an address. -/
def operatorPower (store : Store) (addr : Addr) : Nat :=
  ((store.signers.load addr).bind store.validators.load).elim 0 Prod.fst

/-- The signatory has the voting power of the operator, and the public key that its
consensus key derives at the index. -/
def SignsFor (host : Host) (store : Store) (index : Nat) (signatory : Signatory) (addr : Addr) :
    Prop :=
  ∃ consKey xpub, store.signers.load addr = some consKey ∧
    store.validators.load consKey = some (signatory.votingPower, addr) ∧
    store.sigKeys.load consKey = some xpub ∧
    xpub.derivePubkey host index = .ok signatory.pubkey

/-- The set has the voting power of every operator once, and its signatories belong to
operators that differ from each other. -/
structure CountsOnce (host : Host) (store : Store) (index : Nat) (sigset : SignatorySet) : Prop where
  possibleVp_eq : sigset.possibleVp = (store.signers.keys.map store.operatorPower).sum
  signatories : ∃ operators : List Addr, operators.Nodup ∧
    List.Forall₂ (SignsFor host store index) sigset.signatories operators ∧
    sigset.presentVp = (operators.map store.operatorPower).sum

variable {host : Host} {store : Store}

theorem operatorPower_eq {consKey : ConsensusKey} {power : Nat} {addr : Addr}
    (isSigner : store.signers.load addr = some consKey)
    (loaded : store.validators.load consKey = some (power, addr)) :
    store.operatorPower addr = power := by
  rw [operatorPower, isSigner, Option.bind_some, loaded]
  rfl

theorem SignsFor.operatorPower_eq {index : Nat} {signatory : Signatory} {addr : Addr}
    (signsFor : SignsFor host store index signatory addr) :
    signatory.votingPower = store.operatorPower addr := by
  obtain ⟨consKey, xpub, isSigner, loaded, -, -⟩ := signsFor
  exact (Store.operatorPower_eq isSigner loaded).symm

section Inverse

variable (inverse : store.SignersInverse) (distinct : store.DistinctKeys)

include inverse distinct

/-- An entry of the validators is what both maps say about its operator. -/
theorem loads_of_entry {entry : ConsensusKey × Nat × Addr} (member : entry ∈ store.validators) :
    store.signers.load entry.2.2 = some entry.1 ∧ store.validators.load entry.1 = some entry.2 := by
  have loaded : store.validators.load entry.1 = some entry.2 :=
    (StorageMap.load_eq_some_iff distinct.validators_nodup).mpr member
  refine ⟨(inverse entry.2.2 entry.1).mpr ?_, loaded⟩
  rw [operator, loaded]
  rfl

/-- No two validators have the same operator. -/
theorem operators_nodup : (store.validators.map fun entry => entry.2.2).Nodup := by
  refine List.Nodup.map_on ?_ (List.Nodup.of_map Prod.fst distinct.validators_nodup)
  intro first firstMember second secondMember sameOperator
  obtain ⟨firstSigner, firstLoaded⟩ := loads_of_entry inverse distinct firstMember
  obtain ⟨secondSigner, secondLoaded⟩ := loads_of_entry inverse distinct secondMember
  have sameKey : first.1 = second.1 := by
    rw [sameOperator] at firstSigner
    exact Option.some.inj (firstSigner.symm.trans secondSigner)
  rw [sameKey] at firstLoaded
  exact Prod.ext sameKey (Option.some.inj (firstLoaded.symm.trans secondLoaded))

/-- The operators of the validators are the addresses with a consensus key. -/
theorem operators_perm : (store.validators.map fun entry => entry.2.2).Perm store.signers.keys := by
  apply (List.perm_ext_iff_of_nodup (operators_nodup inverse distinct) distinct.signers_nodup).mpr
  intro addr
  constructor
  · intro member
    obtain ⟨entry, isEntry, rfl⟩ := List.mem_map.mp member
    exact StorageMap.mem_keys_iff.mpr
      ⟨_, StorageMap.mem_of_load (loads_of_entry inverse distinct isEntry).1⟩
  · intro member
    obtain ⟨consKey, isSigner⟩ := StorageMap.mem_keys_iff.mp member
    have loaded := (StorageMap.load_eq_some_iff distinct.signers_nodup).mpr isSigner
    have isOperator := (inverse addr consKey).mp loaded
    obtain ⟨⟨power, _⟩, found, rfl⟩ := Option.map_eq_some_iff.mp isOperator
    exact List.mem_map.mpr ⟨_, StorageMap.mem_of_load found, rfl⟩

theorem possibleVp_eq_sum :
    (store.getValidators.map Validator.power).sum =
      (store.signers.keys.map store.operatorPower).sum := by
  have powersEq : store.getValidators.map Validator.power =
      (store.validators.map fun entry => entry.2.2).map store.operatorPower := by
    rw [getValidators, List.map_map, List.map_map]
    apply List.map_congr_left
    intro entry member
    obtain ⟨isSigner, loaded⟩ := loads_of_entry inverse distinct member
    exact (operatorPower_eq isSigner loaded).symm
  rw [powersEq]
  exact ((operators_perm inverse distinct).map store.operatorPower).sum_eq

/-- The candidates sign for the operators of their validators. -/
theorem candidates_signFor (host : Host) (index : Nat) :
    ∃ operators : List Addr, operators.Nodup ∧
      List.Forall₂ (SignsFor host store index)
        (SignatorySet.candidates host store.sigKeys.load index store.getValidators) operators := by
  set chosen : ConsensusKey × Nat × Addr → Option Signatory := fun entry =>
    SignatorySet.candidate host store.sigKeys.load index { pubkey := entry.1, power := entry.2.1 }
    with chosenEq
  refine ⟨(store.validators.filter fun entry => (chosen entry).isSome).map fun entry => entry.2.2,
    (operators_nodup inverse distinct).sublist (List.filter_sublist.map _), ?_⟩
  rw [SignatorySet.candidates, getValidators, List.filterMap_map]
  change List.Forall₂ _ (store.validators.filterMap chosen) _
  have signFor : ∀ entry ∈ store.validators, ∀ signatory ∈ chosen entry,
      SignsFor host store index signatory entry.2.2 := by
    intro entry member signatory isChosen
    obtain ⟨isSigner, loaded⟩ := loads_of_entry inverse distinct member
    simp only [chosenEq, SignatorySet.candidate, Option.mem_def, Option.bind_eq_bind,
      Option.bind_eq_some_iff, Option.pure_def, Option.some.injEq] at isChosen
    obtain ⟨xpub, key, pubkey, derived, rfl⟩ := isChosen
    refine ⟨entry.1, xpub, isSigner, loaded, key, ?_⟩
    cases derivedOk : xpub.derivePubkey host index with
    | error fault => simp [derivedOk, Except.toOption] at derived
    | ok found => simpa [derivedOk, Except.toOption] using derived
  generalize store.validators = entries at signFor ⊢
  induction entries with
  | nil => exact List.Forall₂.nil
  | cons entry rest ih =>
      obtain ⟨here, others⟩ := List.forall_mem_cons.mp signFor
      cases isChosen : chosen entry with
      | none =>
          rw [List.filterMap_cons_none isChosen, List.filter_cons_of_neg (by simp [isChosen])]
          exact ih others
      | some signatory =>
          rw [List.filterMap_cons_some isChosen, List.filter_cons_of_pos (by simp [isChosen])]
          exact List.Forall₂.cons (here signatory isChosen) (ih others)

/-- With inverse maps, a signatory set counts the voting power of every operator once. -/
theorem countsOnce_of_signersInverse {createTime index : Nat} {sigset : SignatorySet}
    (built : store.signatorySet host createTime index = .ok sigset) :
    CountsOnce host store index sigset := by
  have selects := SignatorySet.selects_of_fromValidatorCtx built
  obtain ⟨rest, permuted, -⟩ := selects.highest
  obtain ⟨operators, nodup, signFor⟩ := candidates_signFor inverse distinct host index
  obtain ⟨arranged, signArranged, arrangedPerm⟩ := List.perm_comp_forall₂ permuted signFor
  have kept := List.forall₂_take sigset.signatories.length signArranged
  rw [List.take_left] at kept
  refine ⟨selects.possibleVp_eq.trans (possibleVp_eq_sum inverse distinct),
    arranged.take sigset.signatories.length,
    (arrangedPerm.nodup_iff.mpr nodup).sublist (List.take_sublist _ _), kept, ?_⟩
  rw [selects.presentVp_eq]
  congr 1
  generalize arranged.take sigset.signatories.length = operators at kept ⊢
  generalize sigset.signatories = signatories at kept ⊢
  induction kept with
  | nil => rfl
  | cons head _ ih => rw [List.map_cons, List.map_cons, head.operatorPower_eq, ih]

end Inverse

end Count

end Store

end CwBitcoin
