import CwBitcoin.Library.Returns
import CwBitcoin.QueueIndexes
import CwBitcoin.SignatorySelection

/-!
# The signatory set of a pushed checkpoint

A checkpoint is pushed when some validator has voting power and the signatories hold
half of it, rounded down.  Half of a total of one is zero, so for that total alone the
guard admits a set without voting power, and even one without signatories, for which
the step that pushes it panics when it looks for the last signatory.
-/

namespace CwBitcoin

namespace SignatorySet

/-- What is relied upon of a set that guards a checkpoint. -/
structure Sound (sigset : SignatorySet) : Prop where
  nonempty : sigset.signatories ≠ []
  present : 0 < sigset.presentVp
  redeems : ∀ (dest : Bytes) (ratio : Nat × Nat), dest.length < 2 ^ 32 → ratio.1 < 2 ^ 64 →
    ratio.2 ≠ 0 → ∃ script, sigset.redeemScript dest ratio = .ok script
  last : ∃ lowest, sigset.signatories.getLast? = some lowest

variable {sigset : SignatorySet}

/-- The voting power of the signatories fits in 64 bits, so their threshold is computed. -/
theorem WellFormed.exists_redeemScript (wellFormed : sigset.WellFormed)
    (nonempty : sigset.signatories ≠ []) {dest : Bytes} {ratio : Nat × Nat}
    (destLt : dest.length < 2 ^ 32) (numeratorLt : ratio.1 < 2 ^ 64) (denominatorNe : ratio.2 ≠ 0) :
    ∃ script, sigset.redeemScript dest ratio = .ok script := by
  obtain ⟨first, others, signatoriesEq⟩ := List.exists_cons_of_ne_nil nonempty
  have productLt : sigset.presentVp * ratio.1 < 2 ^ 64 * 2 ^ 64 :=
    Nat.mul_lt_mul'' wellFormed.presentVp_lt numeratorLt
  rw [← pow_add] at productLt
  have thresholdOk : sigset.signatureThreshold ratio =
      .ok (sigset.presentVp * ratio.1 / ratio.2 % 2 ^ 64) := by
    simp only [signatureThreshold, Outcome.bind_eq_ok, Outcome.checkedMul_eq_ok,
      Outcome.checkedDiv_eq_ok, Outcome.pure_eq_ok]
    exact ⟨_, ⟨productLt, rfl⟩, _, ⟨denominatorNe, rfl⟩, rfl⟩
  exact ⟨_, (redeemScript_eq_ok wellFormed).mpr
    ⟨first, others, _, signatoriesEq, thresholdOk, destLt, rfl⟩⟩

/-- A set with voting power is sound. -/
theorem WellFormed.sound_iff (wellFormed : sigset.WellFormed) :
    sigset.Sound ↔ 0 < sigset.presentVp := by
  refine ⟨fun sound => sound.present, fun present => ?_⟩
  have nonempty : sigset.signatories ≠ [] := by
    intro empty
    rw [wellFormed.presentVp_eq, empty] at present
    exact absurd present (by decide)
  refine ⟨nonempty, present, fun dest ratio => wellFormed.exists_redeemScript nonempty, ?_⟩
  exact ⟨_, List.getLast?_eq_getLast_of_ne_nil nonempty⟩

section Guard

variable {host : Host} {validators : List Validator} {sigKey : ConsensusKey → Option Xpub}
  {createTime index : Nat}

/-- A validator that has a key and voting power. -/
def KeyedPower (validators : List Validator) (sigKey : ConsensusKey → Option Xpub) : Prop :=
  ∃ validator ∈ validators, sigKey validator.pubkey ≠ none ∧ 0 < validator.power

/-- The set has voting power exactly when a validator with a key does. -/
theorem presentVp_pos_iff
    (built : fromValidatorCtx host validators sigKey createTime index = .ok sigset) :
    0 < sigset.presentVp ↔ KeyedPower validators sigKey := by
  have selects := selects_of_fromValidatorCtx built
  obtain ⟨derive, -, -⟩ := fromValidatorCtx_eq_ok built
  rw [selects.presentVp_eq]
  constructor
  · intro present
    obtain ⟨power, isPower, positive⟩ := List.exists_mem_ne_zero_of_sum_ne_zero present.ne'
    obtain ⟨signatory, isSignatory, rfl⟩ := List.mem_map.mp isPower
    obtain ⟨rest, permuted, -⟩ := selects.highest
    have isCandidate := permuted.subset (List.mem_append_left rest isSignatory)
    obtain ⟨validator, isValidator, chosen⟩ := List.mem_filterMap.mp isCandidate
    simp only [candidate, Option.bind_eq_bind, Option.bind_eq_some_iff, Option.pure_def,
      Option.some.injEq] at chosen
    obtain ⟨xpub, key, _, -, rfl⟩ := chosen
    exact ⟨validator, isValidator, by simp [key], Nat.pos_of_ne_zero positive⟩
  · rintro ⟨validator, isValidator, keyed, positive⟩
    obtain ⟨xpub, key⟩ := Option.ne_none_iff_exists'.mp keyed
    obtain ⟨pubkey, derived⟩ := derive validator isValidator xpub key
    set signatory : Signatory := ⟨validator.power, pubkey⟩ with signatoryEq
    have isCandidate : signatory ∈ candidates host sigKey index validators :=
      List.mem_filterMap.mpr ⟨validator, isValidator, by
        simp [candidate, key, derived, Except.toOption, signatoryEq]⟩
    obtain ⟨rest, permuted, highest⟩ := selects.highest
    -- Either the candidate is kept, or one of at least its rank is.
    have kept : ∃ other ∈ sigset.signatories, 0 < other.votingPower := by
      rcases List.mem_append.mp (permuted.symm.subset isCandidate) with isKept | isCut
      · exact ⟨signatory, isKept, positive⟩
      · have nonempty : sigset.signatories ≠ [] := by
          intro empty
          have lengthEq := selects.length_eq
          have someCandidate := List.length_pos_of_mem isCandidate
          rw [empty, List.length_nil, MAX_SIGNATORIES] at lengthEq
          omega
        obtain ⟨other, others, signatoriesEq⟩ := List.exists_cons_of_ne_nil nonempty
        have isOther : other ∈ sigset.signatories := by simp [signatoriesEq]
        have ranked := highest other isOther signatory isCut
        have powerLe : signatory.votingPower ≤ other.votingPower := by
          rcases Prod.Lex.toLex_le_toLex.mp ranked with lower | ⟨same, -⟩
          · exact lower.le
          · exact same.le
        exact ⟨other, isOther, lt_of_lt_of_le positive powerLe⟩
    obtain ⟨other, isOther, otherPositive⟩ := kept
    exact lt_of_lt_of_le otherPositive (List.le_sum_of_mem (List.mem_map_of_mem isOther))

/-- A usable set is sound unless its validators have a total voting power of one that
no key comes with. -/
theorem sound_iff_of_usable
    (built : fromValidatorCtx host validators sigKey createTime index = .ok sigset)
    (usable : Store.usable sigset = true) :
    sigset.Sound ↔ (validators.map Validator.power).sum ≠ 1 ∨ KeyedPower validators sigKey := by
  have possibleEq := (selects_of_fromValidatorCtx built).possibleVp_eq
  simp only [Store.usable, hasQuorum, quorumThreshold, decide_eq_true_eq, possibleEq] at usable
  obtain ⟨someVp, quorum⟩ := usable
  rw [(fromValidatorCtx_wellFormed built).sound_iff, ← presentVp_pos_iff built]
  omega

end Guard

end SignatorySet

section OfflineSigners

variable {host : Host} {store : Store}
  (derives : ∀ xpub index, (host.childPubkey xpub index).Returns)

include derives

namespace Checkpoint

theorem returns_toSignTx (xpub : Xpub) (tx : BitcoinTx) : (toSignTx host xpub tx).Returns := by
  have eachInput : ∀ input ∈ tx.input, (do
      let pubkey ← xpub.derivePubkey host input.sigsetIndex
      return if input.signatures.needsSig pubkey then
        [(input.signatures.message, input.sigsetIndex)] else []).Returns := by
    intro input _
    simp [Xpub.derivePubkey, derives]
  rw [toSignTx, Outcome.returns_bind]
  exact ⟨Outcome.returns_mapM eachInput, fun _ _ => Outcome.returns_pure _⟩

theorem returns_toSign (xpub : Xpub) (checkpoint : Checkpoint) :
    (checkpoint.toSign host xpub).Returns := by
  unfold toSign
  induction checkpoint.batches with
  | nil => exact Outcome.returns_ok []
  | cons batch rest ih =>
      have wanted : (batch.batch.mapM (toSignTx host xpub)).Returns :=
        Outcome.returns_mapM fun tx _ => returns_toSignTx derives xpub tx
      rw [toSignBatches, Outcome.returns_bind]
      refine ⟨wanted, fun _ _ => ?_⟩
      split <;> simp [ih]

end Checkpoint

namespace Store

theorem returns_isOffline (xpub : Xpub) (checkpoints : List Checkpoint) :
    (isOffline host xpub checkpoints).Returns := by
  induction checkpoints with
  | nil => exact Outcome.returns_ok true
  | cons checkpoint rest ih =>
      rw [isOffline, Outcome.returns_bind]
      refine ⟨Checkpoint.returns_toSign derives xpub checkpoint, fun _ _ => ?_⟩
      split <;> simp [ih]

theorem returns_offlineAmong (completed : List Checkpoint) (lowestPower : Nat)
    (validators : List Validator) :
    (offlineAmong host store completed lowestPower validators).Returns := by
  induction validators with
  | nil => exact Outcome.returns_ok []
  | cons validator rest ih =>
      rw [offlineAmong]
      split
      · exact Outcome.returns_ok []
      · split
        · exact ih
        · simp [returns_isOffline derives, ih]

/-- The offline signers are found once the active set has a last signatory. -/
theorem returns_offlineSigners (ordered : store.queue.Ordered) {older : List Checkpoint}
    {building : Checkpoint} (split : store.queue.checkpoints = older ++ [building]) :
    (store.offlineSigners host).Returns ↔ building.sigset.signatories ≠ [] := by
  have read : store.queue.building = .ok building :=
    QueueStore.building_eq_ok.mpr ⟨ordered.aligned, older, split⟩
  obtain ⟨completed, waiting, arranged⟩ := ordered.arranged split
  simp only [offlineSigners, read, Outcome.ok_bind, Outcome.returns_bind,
    Outcome.returns_getOr_abort, Ne, List.getLast?_eq_none_iff]
  refine ⟨fun returns => returns.1, fun nonempty => ⟨nonempty, fun lowest _ => ?_⟩⟩
  rw [arranged.completed_eq (Or.inl ordered.aligned.fits)]
  refine ⟨Outcome.returns_ok _, fun found _ => ?_⟩
  split
  · exact Outcome.returns_pure _
  · exact returns_offlineAmong derives _ _ _

end Store

end OfflineSigners

namespace Store

/-- The block step up to the push. -/
def pushStep (host : Host) (env : Env) (store : Store) (commitment : Bytes) :
    ContractResult (Store × Bool) := do
  let hasCompletedCp ← store.hasCompletedCp
  let reachedCapacityLimit ← store.reachedCapacityLimit host hasCompletedCp
  store.maybeStep host env (HeaderQueue.height store.headers) (!reachedCapacityLimit) commitment
    store.bitcoinConfig

variable {host : Host} {env : Env} {store after : Store} {commitment : Bytes}

theorem beginBlockStep_eq : store.beginBlockStep host env commitment = (do
    let (after, pushed) ← store.pushStep host env commitment
    if pushed then
      let offline ← after.offlineSigners host
      return (after, offline)
    else return (after, [])) := by
  simp only [beginBlockStep, pushStep, bind_assoc]

/-- The checkpoint that a step pushes has the set for the next index. -/
theorem sigset_of_maybeStep {btcHeight : Nat} {shouldAllowDeposits : Bool}
    {parentConfig : BitcoinConfig} (shaped : store.queue.Shaped)
    (stepped : store.maybeStep host env btcHeight shouldAllowDeposits commitment parentConfig =
      .ok (after, true)) :
    after.queue.Ordered ∧ ∃ older building index, after.queue.checkpoints = older ++ [building] ∧
      store.nextIndex = .ok index ∧
      store.signatorySet host env.seconds index = .ok building.sigset := by
  rcases maybeStep_eq_ok stepped with ⟨-, impossible⟩ | ⟨⟨first⟩⟩ | ⟨rollover, -⟩
  · cases impossible
  · refine ⟨first.ordered, [], _, 0, first.checkpoints_after, ?_, first.sigset_eq⟩
    rw [nextIndex, if_pos first.empty, first.buildingIndex_eq]
  · have nonempty : store.queue.checkpoints ≠ [] := by simp [rollover.checkpoints_eq]
    refine ⟨rollover.ordered (shaped.ordered_of_split rollover.checkpoints_eq), _, rollover.fresh,
      store.queue.buildingIndex + 1,
      rollover.checkpoints_after.trans (List.append_cons _ _ _), ?_, rollover.sigset_eq⟩
    rw [nextIndex, if_neg nonempty, Outcome.checkedAdd_eq_ok]
    have fits := rollover.fits
    exact ⟨by omega, rfl⟩

section Push

variable {index : Nat} {sigset : SignatorySet}

/-- A usable set is pushed as long as the successor of its index fits in 32 bits. -/
theorem exists_maybePush (shaped : store.queue.Shaped) (next : store.nextIndex = .ok index)
    (built : store.signatorySet host env.seconds index = .ok sigset)
    (isUsable : usable sigset = true) (fits : index + 1 < 2 ^ 32) (depositsEnabled : Bool) :
    ∃ after checkpoint, store.maybePush host env depositsEnabled = .ok (after, some checkpoint) := by
  set pushed : QueueStore := { store.queue with
    buildingIndex := index
    checkpoints := store.queue.checkpoints ++ [Checkpoint.new sigset] } with pushedEq
  have enough : store.queue.checkpoints.length ≤ index := by
    cases shaped with
    | empty checkpoints_eq buildingIndex_eq => simp [checkpoints_eq]
    | ordered ordered =>
        rw [nextIndex, if_neg ordered.nonempty, Outcome.checkedAdd_eq_ok] at next
        have reaches : store.queue.checkpoints.length ≤ store.queue.buildingIndex + 1 :=
          ordered.aligned.window
        omega
  have aligned : pushed.Aligned := ⟨fits, by
    simpa [pushedEq, QueueStore.window, Window.Aligned] using enough⟩
  have read : pushed.building = .ok (Checkpoint.new sigset) :=
    QueueStore.building_eq_ok.mpr ⟨aligned, _, rfl⟩
  have wrote : pushed.set index { Checkpoint.new sigset with depositsEnabled } =
      .ok (pushed.put index { Checkpoint.new sigset with depositsEnabled }) :=
    QueueStore.set_eq_ok.mpr ⟨aligned, by
      simp only [Window.first, QueueStore.window, pushedEq, List.length_append,
        List.length_singleton]
      omega, le_rfl, rfl⟩
  refine ⟨{ store with queue := pushed.put index { Checkpoint.new sigset with depositsEnabled } },
    { Checkpoint.new sigset with depositsEnabled }, ?_⟩
  have builtAgain : signatorySet host
      { store with queue := { store.queue with buildingIndex := index } } env.seconds index =
        .ok sigset := built
  simp only [maybePush, next, builtAgain, Outcome.ok_bind, isUsable, Bool.true_eq_false, if_false,
    Outcome.bind_eq_ok, Outcome.pure_eq_ok]
  exact ⟨_, read, _, wrote, rfl⟩

/-- The push stores the set, which is sound, and no part of the block step panics after
the push. -/
structure PushesSoundly (host : Host) (env : Env) (store : Store) (sigset : SignatorySet) :
    Prop where
  sound : sigset.Sound
  pushes : ∀ depositsEnabled, ∃ after checkpoint,
    store.maybePush host env depositsEnabled = .ok (after, some checkpoint)
  blockStep : ∀ commitment, (store.pushStep host env commitment).Returns →
    (store.beginBlockStep host env commitment).Returns

theorem pushesSoundly_of_sound (derives : ∀ xpub index, (host.childPubkey xpub index).Returns)
    (shaped : store.queue.Shaped) (next : store.nextIndex = .ok index)
    (built : store.signatorySet host env.seconds index = .ok sigset)
    (isUsable : usable sigset = true) (sound : sigset.Sound) :
    PushesSoundly host env store sigset := by
  refine ⟨sound, ?_, ?_⟩
  · -- Some key has been derived at the index of the set.
    obtain ⟨validator, isValidator, keyed, -⟩ :=
      (SignatorySet.presentVp_pos_iff built).mp sound.present
    obtain ⟨xpub, key⟩ := Option.ne_none_iff_exists'.mp keyed
    obtain ⟨pubkey, derived⟩ :=
      (SignatorySet.fromValidatorCtx_eq_ok built).1 validator isValidator xpub key
    simp only [Xpub.derivePubkey, Outcome.bind_eq_ok, Outcome.require_eq_ok] at derived
    obtain ⟨-, normal, -⟩ := derived
    exact exists_maybePush shaped next built isUsable (by omega)
  · intro commitment pushReturns
    rw [beginBlockStep_eq, Outcome.returns_bind]
    refine ⟨pushReturns, ?_⟩
    rintro ⟨after, pushed⟩ pushedOk
    simp only [pushStep, Outcome.bind_eq_ok] at pushedOk
    obtain ⟨-, -, reached, -, stepped⟩ := pushedOk
    cases pushed with
    | false => simp
    | true =>
        obtain ⟨ordered, older, building, sameIndex, split, nextAgain, builtAgain⟩ :=
          sigset_of_maybeStep shaped stepped
        obtain rfl := Except.ok.inj (next.symm.trans nextAgain)
        have sameSet := Except.ok.inj (built.symm.trans builtAgain)
        have offline := (returns_offlineSigners derives ordered split).mpr
          (sameSet ▸ sound.nonempty)
        simpa using offline

end Push

end Store

/-- In every state that calls can reach, with any validators and any keys, what should
be pushed is pushed with a sound set, except when the validators have a total voting
power of one and none of them has both a key and voting power. -/
theorem Contract.run_pushesSoundly_iff (host : Host) (info : MessageInfo) (msg : InstantiateMsg)
    (calls : List Call) (validators : StorageMap ConsensusKey (Nat × Addr))
    (sigKeys : StorageMap ConsensusKey Xpub) (env : Env) (commitment : Bytes) (btcHeight : Nat)
    (derives : ∀ xpub index, (host.childPubkey xpub index).Returns) :
    let store : Store :=
      { (machine host).run (instantiate host info msg) calls with validators, sigKeys }
    store.shouldPush host env commitment btcHeight = .ok true →
      ∃ index sigset, store.nextIndex = .ok index ∧
        store.signatorySet host env.seconds index = .ok sigset ∧
        (∀ depositsEnabled after pushed,
          store.maybePush host env depositsEnabled = .ok (after, pushed) →
            after.queue.checkpoints =
              store.queue.checkpoints ++ [{ Checkpoint.new sigset with depositsEnabled }]) ∧
        (store.PushesSoundly host env sigset ↔
          (store.getValidators.map Validator.power).sum ≠ 1 ∨
            SignatorySet.KeyedPower store.getValidators store.sigKeys.load) := by
  intro store should
  have shaped : store.queue.Shaped := run_shaped host info msg calls
  have ready := Store.ready_of_shouldPush should
  obtain ⟨index, sigset, next, built, isUsable⟩ := ready.sigset
  refine ⟨index, sigset, next, built, ?_, ?_⟩
  · intro depositsEnabled after pushed push
    obtain ⟨sameIndex, sameSet, nextAgain, builtAgain, -, -, rfl⟩ :=
      Store.maybePush_eq_ok ready push
    obtain rfl := Except.ok.inj (next.symm.trans nextAgain)
    obtain rfl := Except.ok.inj (built.symm.trans builtAgain)
    rfl
  · rw [← SignatorySet.sound_iff_of_usable built isUsable]
    exact ⟨fun sound => sound.sound,
      Store.pushesSoundly_of_sound derives shaped next built isUsable⟩

namespace Sample

/-- One validator of the least voting power, whose key may be missing. -/
def leastCalls (withKey : Bool) : List Contract.Call := [
  executeAt 0 (.updateHeaderConfig (blockOf [])),
  executeAt 0 (.addValidators [info.sender] [1] [consensusKey 1])] ++
    if withKey then [executeAt 0 (.setSignatoryKey (xpub 1))] else []

def leastStore (withKey : Bool) : Store := (Contract.machine host).run initial (leastCalls withKey)

/-- The set that is made when the only validator has no key. -/
def emptySet : SignatorySet where
  createTime := 1000
  presentVp := 0
  possibleVp := 1
  index := 0
  signatories := []

end Sample

/-- The least voting power suffices when it comes with a key. -/
theorem Contract.run_pushesSoundly_least :
    ∃ sigset, (Sample.leastStore true).PushesSoundly Sample.host (Sample.env 1000) sigset := by
  obtain ⟨-, sigset, -, -, -, sound⟩ := run_pushesSoundly_iff Sample.host Sample.info
    Sample.instantiateMsg (Sample.leastCalls true) (Sample.leastStore true).validators
    (Sample.leastStore true).sigKeys (Sample.env 1000) [1] 7 (fun _ _ => nofun) (by decide +kernel)
  exact ⟨sigset, sound.mpr (Or.inr
    ⟨⟨Sample.consensusKey 1, 1⟩, by decide +kernel, by decide +kernel, by decide⟩)⟩

/-- Without a key, a set without signatories is pushed, and the block step panics. -/
theorem Contract.run_pushes_empty :
    (Sample.leastStore false).shouldPush Sample.host (Sample.env 1000) [1] 7 = .ok true ∧
      Prod.snd <$> (Sample.leastStore false).maybePush Sample.host (Sample.env 1000) true =
        .ok (some { Checkpoint.new Sample.emptySet with depositsEnabled := true }) ∧
      Sample.emptySet.redeemScript [0] SIGSET_THRESHOLD =
        Outcome.fail (.app "Cannot create redeem script for empty signatory set") ∧
      (Sample.leastStore false).beginBlockStep Sample.host (Sample.env 1000) [1] =
        Outcome.abort := by
  decide +kernel

end CwBitcoin
