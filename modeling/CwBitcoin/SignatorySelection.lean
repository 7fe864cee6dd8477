import CwBitcoin.CheckpointSteps
import CwBitcoin.Spendability

/-!
# Which validators become signatories

The signatories of a set are the highest ranked ones among the validators with a key.
A witness sorts the shares of the set again, by a comparison of its own, and lists them
in the reverse of the set's order.
-/

namespace CwBitcoin

namespace SignatorySet

variable {host : Host} {sigKey : ConsensusKey → Option Xpub} {index : Nat}

/-- The signatory that a validator would be, if it has a key that derives at the index. -/
def candidate (host : Host) (sigKey : ConsensusKey → Option Xpub) (index : Nat)
    (validator : Validator) : Option Signatory := do
  let xpub ← sigKey validator.pubkey
  let pubkey ← (xpub.derivePubkey host index).toOption
  return { votingPower := validator.power, pubkey }

/-- The validators that have a key, as signatories. -/
def candidates (host : Host) (sigKey : ConsensusKey → Option Xpub) (index : Nat)
    (validators : List Validator) : List Signatory :=
  validators.filterMap (candidate host sigKey index)

/-- Every key of a validator derives a public key at the index. -/
def KeysDerive (host : Host) (sigKey : ConsensusKey → Option Xpub) (index : Nat)
    (validators : List Validator) : Prop :=
  ∀ validator ∈ validators, ∀ xpub ∈ sigKey validator.pubkey,
    ∃ pubkey, xpub.derivePubkey host index = .ok pubkey

/-- The set has the highest ranked candidates in descending order, and the voting powers
of those and of all validators. -/
structure Selects (sigset : SignatorySet) (candidates : List Signatory)
    (validators : List Validator) : Prop where
  highest : ∃ rest, (sigset.signatories ++ rest).Perm candidates ∧
    ∀ kept ∈ sigset.signatories, ∀ other ∈ rest, other.rank ≤ kept.rank
  sorted : sigset.signatories.Pairwise fun first second => second.rank ≤ first.rank
  length_eq : sigset.signatories.length = min MAX_SIGNATORIES candidates.length
  presentVp_eq : sigset.presentVp = (sigset.signatories.map Signatory.votingPower).sum
  possibleVp_eq : sigset.possibleVp = (validators.map Validator.power).sum

section AddValidator

variable {sigset next : SignatorySet} {validator : Validator}

/-- Taking one validator into account adds its power, and its candidate if there is one. -/
theorem addValidator_eq_ok (added : addValidator host sigKey sigset validator = .ok next) :
    (∀ xpub ∈ sigKey validator.pubkey,
        ∃ pubkey, xpub.derivePubkey host sigset.index = .ok pubkey) ∧
      next.signatories = sigset.signatories ++ (candidate host sigKey sigset.index validator).toList ∧
      next.possibleVp = sigset.possibleVp + validator.power ∧ next.index = sigset.index := by
  simp only [addValidator, Outcome.bind_eq_ok, Outcome.checkedAdd_eq_ok] at added
  obtain ⟨_, ⟨-, rfl⟩, added⟩ := added
  cases key : sigKey validator.pubkey with
  | none =>
      simp only [key, Outcome.pure_eq_ok] at added
      subst added
      refine ⟨by simp, ?_, rfl, rfl⟩
      simp [candidate, key]
  | some xpub =>
      simp only [key, Outcome.bind_eq_ok, insert, Outcome.pure_eq_ok] at added
      obtain ⟨pubkey, derived, _, -, rfl⟩ := added
      refine ⟨?_, ?_, rfl, rfl⟩
      · rintro other isOther
        obtain rfl := Option.some.inj isOther
        exact ⟨pubkey, derived⟩
      · simp [candidate, key, derived, Except.toOption]

/-- A validator whose key derives can be taken into account while the sums fit. -/
theorem exists_addValidator
    (derives : ∀ xpub ∈ sigKey validator.pubkey,
      ∃ pubkey, xpub.derivePubkey host sigset.index = .ok pubkey)
    (possible : sigset.possibleVp + validator.power < 2 ^ 64)
    (present : sigset.presentVp ≤ sigset.possibleVp) :
    ∃ next, addValidator host sigKey sigset validator = .ok next ∧
      next.presentVp ≤ next.possibleVp := by
  cases key : sigKey validator.pubkey with
  | none =>
      refine ⟨{ sigset with possibleVp := sigset.possibleVp + validator.power }, ?_, ?_⟩
      · simp only [addValidator, key, Outcome.bind_eq_ok, Outcome.checkedAdd_eq_ok]
        exact ⟨_, ⟨possible, rfl⟩, rfl⟩
      · exact present.trans (Nat.le_add_right _ _)
  | some xpub =>
      obtain ⟨pubkey, derived⟩ := derives xpub key
      refine ⟨{ sigset with
        presentVp := sigset.presentVp + validator.power
        possibleVp := sigset.possibleVp + validator.power
        signatories := sigset.signatories ++ [{ votingPower := validator.power, pubkey }] }, ?_, ?_⟩
      · simp only [addValidator, key, Outcome.bind_eq_ok, Outcome.checkedAdd_eq_ok, insert,
          Outcome.pure_eq_ok]
        exact ⟨_, ⟨possible, rfl⟩, pubkey, derived, _, ⟨by omega, rfl⟩, rfl⟩
      · exact Nat.add_le_add_right present _

end AddValidator

section AddValidators

variable {validators : List Validator} {start final : SignatorySet}

theorem addValidators_eq_ok
    (folded : validators.foldlM (addValidator host sigKey) start = .ok final) :
    KeysDerive host sigKey start.index validators ∧
      final.signatories = start.signatories ++ candidates host sigKey start.index validators ∧
      final.possibleVp = start.possibleVp + (validators.map Validator.power).sum := by
  induction validators generalizing start with
  | nil =>
      obtain rfl := Outcome.pure_eq_ok.mp folded
      exact ⟨nofun, (List.append_nil _).symm, rfl⟩
  | cons validator rest ih =>
      simp only [List.foldlM_cons, Outcome.bind_eq_ok] at folded
      obtain ⟨next, added, foldedRest⟩ := folded
      obtain ⟨derives, signatoriesEq, possibleEq, indexEq⟩ := addValidator_eq_ok added
      obtain ⟨restDerive, restSignatories, restPossible⟩ := ih foldedRest
      rw [indexEq] at restDerive restSignatories
      refine ⟨List.forall_mem_cons.mpr ⟨derives, restDerive⟩, ?_, ?_⟩
      · rw [restSignatories, signatoriesEq, List.append_assoc, candidates, candidates,
          List.filterMap_cons]
        cases candidate host sigKey start.index validator <;> rfl
      · rw [restPossible, possibleEq, List.map_cons, List.sum_cons, Nat.add_assoc]

theorem exists_addValidators (derive : KeysDerive host sigKey start.index validators)
    (total : start.possibleVp + (validators.map Validator.power).sum < 2 ^ 64)
    (present : start.presentVp ≤ start.possibleVp) :
    ∃ final, validators.foldlM (addValidator host sigKey) start = .ok final ∧
      final.index = start.index := by
  induction validators generalizing start with
  | nil => exact ⟨start, rfl, rfl⟩
  | cons validator rest ih =>
      obtain ⟨derives, restDerive⟩ := List.forall_mem_cons.mp derive
      rw [List.map_cons, List.sum_cons] at total
      obtain ⟨next, added, nextPresent⟩ := exists_addValidator derives (by omega) present
      obtain ⟨-, -, possibleEq, indexEq⟩ := addValidator_eq_ok added
      rw [← indexEq] at restDerive
      obtain ⟨final, folded, finalIndex⟩ := ih restDerive (by omega) nextPresent
      exact ⟨final, by rw [List.foldlM_cons, added, Outcome.ok_bind, folded],
        finalIndex.trans indexEq⟩

end AddValidators

/-- Voting powers that add up to no more than the present one can be subtracted. -/
theorem exists_removeVp {presentVp : Nat} {removed : List Signatory}
    (enough : (removed.map Signatory.votingPower).sum ≤ presentVp) :
    ∃ remaining, removeVp presentVp removed = .ok remaining := by
  induction removed generalizing presentVp with
  | nil => exact ⟨presentVp, rfl⟩
  | cons signatory rest ih =>
      rw [List.map_cons, List.sum_cons] at enough
      have subtracted : (Outcome.checkedSub presentVp signatory.votingPower :
          ContractResult Nat) = .ok (presentVp - signatory.votingPower) :=
        Outcome.checkedSub_eq_ok.mpr ⟨by omega, rfl⟩
      obtain ⟨remaining, restSubtracted⟩ := ih (by omega :
        (rest.map Signatory.votingPower).sum ≤ presentVp - signatory.votingPower)
      exact ⟨remaining, by rw [removeVp, subtracted, Outcome.ok_bind, restSubtracted]⟩

/-- The signatories from the highest rank down. -/
def descending (signatories : List Signatory) : List Signatory :=
  signatories.insertionSort fun first second => second.rank ≤ first.rank

theorem descending_perm (signatories : List Signatory) : (descending signatories).Perm signatories :=
  List.perm_insertionSort _ _

theorem pairwise_descending (signatories : List Signatory) :
    (descending signatories).Pairwise fun first second => second.rank ≤ first.rank :=
  List.pairwise_insertionSort _ _

section FromValidatorCtx

variable {validators : List Validator} {createTime : Nat} {sigset : SignatorySet}

/-- A set is built from the descending candidates. -/
theorem fromValidatorCtx_eq_ok
    (built : fromValidatorCtx host validators sigKey createTime index = .ok sigset) :
    KeysDerive host sigKey index validators ∧
      sigset.signatories =
        (descending (candidates host sigKey index validators)).take MAX_SIGNATORIES ∧
      sigset.possibleVp = (validators.map Validator.power).sum := by
  simp only [fromValidatorCtx, sortAndTruncate, Outcome.bind_eq_ok, Outcome.pure_eq_ok] at built
  obtain ⟨collecting, folded, presentVp, -, rfl⟩ := built
  obtain ⟨derive, signatoriesEq, possibleEq⟩ := addValidators_eq_ok folded
  rw [List.nil_append] at signatoriesEq
  rw [Nat.zero_add] at possibleEq
  exact ⟨derive, congrArg (fun signatories => (descending signatories).take _) signatoriesEq,
    possibleEq⟩

/-- A set is built whenever the voting powers fit and all keys derive. -/
theorem exists_fromValidatorCtx (total : (validators.map Validator.power).sum < 2 ^ 64)
    (derive : KeysDerive host sigKey index validators) :
    ∃ sigset, fromValidatorCtx host validators sigKey createTime index = .ok sigset := by
  let start : SignatorySet :=
    { createTime, presentVp := 0, possibleVp := 0, index, signatories := [] }
  obtain ⟨collecting, folded, -⟩ : ∃ final, validators.foldlM (addValidator host sigKey) start =
      .ok final ∧ final.index = start.index :=
    exists_addValidators derive (by rwa [Nat.zero_add]) le_rfl
  have collected : collecting.Collected :=
    Outcome.foldlM_invariant (fun _ _ _ holds added => holds.addValidator added)
      ⟨rfl, by simp [start]⟩ folded
  have droppedLe : (((descending collecting.signatories).drop MAX_SIGNATORIES).map
      Signatory.votingPower).sum ≤ collecting.presentVp := by
    rw [collected.presentVp_eq, ← ((descending_perm collecting.signatories).map _).sum_eq]
    exact ((List.drop_sublist _ _).map _).sum_le_sum fun _ _ => Nat.zero_le _
  obtain ⟨remaining, subtracted⟩ := exists_removeVp droppedLe
  exact ⟨_, by
    rw [fromValidatorCtx, folded, Outcome.ok_bind, sortAndTruncate]
    exact Outcome.bind_eq_ok.mpr ⟨remaining, subtracted, rfl⟩⟩

/-- The first key that does not derive decides which error is returned. -/
theorem fromValidatorCtx_eq_error {before after : List Validator} {validator : Validator}
    {xpub : Xpub} {fault : Fault ContractError}
    (total : ((before ++ validator :: after).map Validator.power).sum < 2 ^ 64)
    (derive : KeysDerive host sigKey index before) (key : sigKey validator.pubkey = some xpub)
    (failed : xpub.derivePubkey host index = .error fault) :
    fromValidatorCtx host (before ++ validator :: after) sigKey createTime index =
      .error fault := by
  let start : SignatorySet :=
    { createTime, presentVp := 0, possibleVp := 0, index, signatories := [] }
  rw [List.map_append, List.map_cons, List.sum_append, List.sum_cons] at total
  have beforeFits : start.possibleVp + (before.map Validator.power).sum < 2 ^ 64 := by
    rw [Nat.zero_add]
    omega
  obtain ⟨current, folded, indexEq⟩ : ∃ final, before.foldlM (addValidator host sigKey) start =
      .ok final ∧ final.index = start.index := exists_addValidators derive beforeFits le_rfl
  have possibleEq : current.possibleVp = 0 + (before.map Validator.power).sum :=
    (addValidators_eq_ok folded).2.2
  have counted : (Outcome.checkedAdd 64 current.possibleVp validator.power : ContractResult Nat) =
      .ok (current.possibleVp + validator.power) :=
    Outcome.checkedAdd_eq_ok.mpr ⟨by omega, rfl⟩
  have stopped : addValidator host sigKey current validator = .error fault := by
    simp only [addValidator, counted, Outcome.ok_bind, key]
    rw [show current.index = index from indexEq, failed, Outcome.error_bind]
  rw [fromValidatorCtx, List.foldlM_append, folded, Outcome.ok_bind, List.foldlM_cons, stopped]
  rfl

/-- No key derives at an index from 2 ^ 31 on. -/
theorem derivePubkey_hardened (xpub : Xpub) (hardened : 2 ^ 31 ≤ index) :
    xpub.derivePubkey host index =
      Outcome.fail (.bip32 s!"invalid child number: {index}") := by
  rw [Xpub.derivePubkey, Outcome.require, if_neg (Nat.not_lt.mpr hardened)]
  rfl

theorem selects_of_fromValidatorCtx
    (built : fromValidatorCtx host validators sigKey createTime index = .ok sigset) :
    sigset.Selects (candidates host sigKey index validators) validators := by
  obtain ⟨-, signatoriesEq, possibleEq⟩ := fromValidatorCtx_eq_ok built
  have wellFormed := fromValidatorCtx_wellFormed built
  set chosen := candidates host sigKey index validators with chosenEq
  refine ⟨⟨(descending chosen).drop MAX_SIGNATORIES, ?_, ?_⟩, wellFormed.sorted, ?_,
    wellFormed.presentVp_eq, possibleEq⟩
  · rw [signatoriesEq, List.take_append_drop]
    exact descending_perm chosen
  · intro kept isKept other isOther
    rw [signatoriesEq] at isKept
    have sorted := pairwise_descending chosen
    rw [← List.take_append_drop MAX_SIGNATORIES (descending chosen)] at sorted
    exact (List.pairwise_append.mp sorted).2.2 kept isKept other isOther
  · rw [signatoriesEq, List.length_take, (descending_perm chosen).length_eq]

end FromValidatorCtx

end SignatorySet

namespace ThresholdSig

/-- The witness has one element for each share, and lists the shares in the reverse of
the order in which the set lists its signatories. -/
def WitnessReverses (host : Host) (sigset : SignatorySet) (ts : ThresholdSig) : Prop :=
  ∃ entries : List (Pubkey × Share), entries.Perm ts.sigs ∧
    entries.map shareKey = (sigset.signatories.map fun signatory =>
      (signatory.pubkey, signatory.votingPower)).reverse ∧
    (ts.signed = true →
      ts.toWitness host = entries.mapM fun entry => witnessElement host entry.2)

theorem Collecting.witnessReverses {host : Host} {sigset : SignatorySet} {message : Bytes}
    {ts : ThresholdSig} (collecting : Collecting host sigset message ts)
    (wellFormed : sigset.WellFormed) : ts.WitnessReverses host sigset := by
  refine ⟨ts.scriptEntries.reverse, (List.reverse_perm _).trans ts.scriptEntries_perm, ?_, ?_⟩
  · rw [List.map_reverse, collecting.scriptEntries_keys wellFormed]
  · intro signed
    rw [toWitness_of_signed signed, scriptEntries, List.reverse_reverse]
    rfl

end ThresholdSig

/-- For validators whose voting powers fit in 64 bits, a set is built exactly when all
their keys derive, and the first key that does not, as none does at an index from 2 ^ 31
on, decides the error.  Its signatories are the highest ranked candidates in descending
order, and the witness of an input that signs for the set, in any state of signing,
lists the signatories in the reverse order. -/
theorem SignatorySet.fromValidatorCtx_selects (host : Host) (validators : List Validator)
    (sigKey : ConsensusKey → Option Xpub) (createTime index : Nat)
    (total : (validators.map Validator.power).sum < 2 ^ 64) :
    ((∃ sigset, fromValidatorCtx host validators sigKey createTime index = .ok sigset) ↔
        KeysDerive host sigKey index validators) ∧
      (∀ before validator after xpub fault, validators = before ++ validator :: after →
        KeysDerive host sigKey index before → sigKey validator.pubkey = some xpub →
        xpub.derivePubkey host index = .error fault →
          fromValidatorCtx host validators sigKey createTime index = .error fault) ∧
      (2 ^ 31 ≤ index → ∀ xpub : Xpub, xpub.derivePubkey host index =
        Outcome.fail (.bip32 s!"invalid child number: {index}")) ∧
      ∀ sigset, fromValidatorCtx host validators sigKey createTime index = .ok sigset →
        sigset.Selects (candidates host sigKey index validators) validators ∧
        ∀ prevout dest amount threshold input message signatures ts,
          Input.new host prevout sigset dest amount threshold = .ok input →
          (input.signatures.setMessage message).signAll host signatures = .ok ts →
            ts.WitnessReverses host sigset := by
  refine ⟨⟨fun ⟨sigset, built⟩ => (fromValidatorCtx_eq_ok built).1,
    fun derive => exists_fromValidatorCtx total derive⟩, ?_,
    fun hardened xpub => derivePubkey_hardened xpub hardened, fun sigset built =>
      ⟨selects_of_fromValidatorCtx built, ?_⟩⟩
  · rintro before validator after xpub fault rfl derive key failed
    exact fromValidatorCtx_eq_error total derive key failed
  intro prevout dest amount threshold input message signatures ts made collected
  have wellFormed := fromValidatorCtx_wellFormed built
  obtain ⟨-, -, -, -, started⟩ := Input.new_eq_ok made
  have starting : ThresholdSig.Collecting host sigset message
      (input.signatures.setMessage message) :=
    (ThresholdSig.Collecting.start wellFormed started message).1
  exact (starting.signAll collected).1.witnessReverses wellFormed

/-- All keys of the sample validators derive at index zero. -/
theorem SignatorySet.fromValidatorCtx_selects_sample :
    ∃ sigset, fromValidatorCtx Sample.host Sample.evenValidators Sample.sigKey 0 0 = .ok sigset ∧
      sigset.Selects (candidates Sample.host Sample.sigKey 0 Sample.evenValidators)
        Sample.evenValidators := by
  have selecting := fromValidatorCtx_selects Sample.host Sample.evenValidators Sample.sigKey 0 0
    (by decide)
  obtain ⟨sigset, built⟩ := selecting.1.mpr fun validator _ xpub _ => ⟨xpub.publicKey, rfl⟩
  exact ⟨sigset, built, (selecting.2.2.2 sigset built).1⟩

/-- At an index from 2 ^ 31 on no set is built. -/
theorem SignatorySet.fromValidatorCtx_hardened :
    (Sample.evenValidators.map Validator.power).sum < 2 ^ 64 ∧
      fromValidatorCtx Sample.host Sample.evenValidators Sample.sigKey 0 (2 ^ 31) =
        Outcome.fail (.bip32 "invalid child number: 2147483648") := by
  decide +kernel

end CwBitcoin
