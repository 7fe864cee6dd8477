import CwBitcoin.Spendability
import CwBitcoin.WritesInPlace

/-!
# The redeem scripts of inputs

An input is spent by a witness that satisfies its redeem script.  The script
commits to a destination of any length, although a long one cannot be pushed,
and its threshold follows the configured ratio, while the signatures of the
input are counted against a fixed one.
-/

namespace CwBitcoin

open Script ScriptMachine

namespace Checkpoint

/-- The redeem scripts of the outputs that the checkpoint spends. -/
def inputScripts (checkpoint : Checkpoint) : List Script :=
  checkpoint.mainTx.input.map Input.redeemScript

/-- The checkpoint has no input that cannot be spent. -/
def Executable (checkpoint : Checkpoint) : Prop :=
  ∀ script ∈ checkpoint.inputScripts, WithinLimits script

variable {checkpoint other : Checkpoint}

theorem inputScripts_unsigned (checkpoint : Checkpoint) : checkpoint.inputScripts =
    checkpoint.mainTx.unsigned.input.map Input.redeemScript :=
  (BitcoinTx.map_unsigned_input Input.redeemScript fun _ => rfl).symm

theorem inputScripts_congr (same : other.unsignedTxs = checkpoint.unsignedTxs) :
    other.inputScripts = checkpoint.inputScripts := by
  rw [inputScripts_unsigned, inputScripts_unsigned, mainTx_unsigned_congr same]

end Checkpoint

namespace Contract

/-- A relayed deposit has a destination whose commitment can be pushed. -/
def RelaysPushable (host : Host) (_ : Store) (call : Call) : Prop :=
  ∀ deposit ∈ call.deposit, (deposit.dest.commitmentBytes host).length ≤ maxElementSize

instance (host : Host) (store : Store) (call : Call) : Decidable (RelaysPushable host store call) :=
  inferInstanceAs (Decidable (∀ deposit ∈ call.deposit, _))

variable {host : Host} {store after : Store} {call : Call}

/-- An input that is added for a deposit can be spent if and only if the
commitment can be pushed. -/
theorem withinLimits_credited {deposit : RelayedDeposit} {queue : QueueStore}
    (credited : Store.Credited host store deposit queue)
    (wellFormed : credited.checkpoint.sigset.WellFormed) :
    WithinLimits credited.input.redeemScript ↔
      (deposit.dest.commitmentBytes host).length ≤ maxElementSize := by
  obtain ⟨-, -, -, scripted, -⟩ := Input.new_eq_ok credited.input_eq
  exact wellFormed.withinLimits_redeemScript scripted

theorem preservesEach_executable (permitted : RelaysPushable host store call) :
    PreservesEach host store call Checkpoint.Executable where
  credited := by
    intro deposit queue credited isDeposit _ _ wellFormed holds
    rw [Checkpoint.Executable, Checkpoint.inputScripts, credited.mainTx_eq, List.map_append,
      List.forall_mem_append]
    refine ⟨holds, ?_⟩
    rw [List.map_singleton, List.forall_mem_singleton, withinLimits_credited credited wellFormed]
    exact permitted deposit isDeposit
  withdrawn := by
    intro queue after withdrawn _ _ holds
    rw [Checkpoint.Executable, Checkpoint.inputScripts, withdrawn.mainTx_eq]
    exact holds
  signed := by
    intro signature checkpoint signedCheckpoint _ _ _ holds signed
    have sameScripts := Checkpoint.inputScripts_congr (Checkpoint.sign_eq_ok signed).1
    rw [Checkpoint.Executable, Checkpoint.inputScripts, Checkpoint.mainTx_completed]
    rw [Checkpoint.Executable, ← sameScripts] at holds
    exact holds
  paidOut := fun holds => holds
  started := by
    intro sigset depositsEnabled script member
    cases member
  rolled := by
    intro hash unitsPerSat before after rollover _ _ wellFormed holds
    rw [Checkpoint.Executable, Checkpoint.inputScripts_unsigned, BitcoinTx.unsigned] at holds
    constructor
    · intro script member
      rw [Checkpoint.inputScripts_unsigned, rollover.unsigned_frozenTx] at member
      exact holds script (List.mem_of_mem_take (List.map_take ▸ member))
    · intro script member
      rcases List.mem_cons.mp member with rfl | inExcess
      · obtain ⟨-, -, -, scripted, -⟩ := Input.new_eq_ok rollover.reserveInput_eq
        exact (wellFormed.withinLimits_redeemScript scripted).mpr (by decide)
      · have erased : rollover.excess.map Input.redeemScript =
            (rollover.excess.map Input.unsigned).map Input.redeemScript := by
          rw [List.map_map]
          rfl
        rw [erased, rollover.excess_eq, List.mem_map] at inExcess
        obtain ⟨input, inputMember, rfl⟩ := inExcess
        obtain ⟨old, oldMember, rfl⟩ := List.mem_map.mp inputMember
        apply holds
        rw [List.mem_reverse] at oldMember
        exact List.mem_map_of_mem (List.mem_map_of_mem (List.mem_of_mem_drop oldMember))

end Contract

namespace Sample

/-- An address that is longer than a stack element. -/
def longAddr : Addr := String.ofList (List.replicate 521 'a')

def longDepositTx : Transaction := depositTo 1000000 (utf8 longAddr)

def longDepositCalls : List Contract.Call := openingCalls longDepositTx ++ [
  .clockEndBlock querier (env 1000) [1],
  relayDepositAt 1010 7 longDepositTx longAddr]

end Sample

/-- In every run whose writes are in place and whose deposits have a destination that can
be pushed, every input can be spent.  In every state of every run whose writes are in
place, a relayed deposit leaves the queue or adds one input, which can be spent exactly if
the destination can be pushed. -/
theorem Contract.run_inputs_executable (host : Host) (deque : DequeSet) (info : MessageInfo)
    (msg : InstantiateMsg) (calls : List Call)
    (inPlace : (machine host deque).Permitted (WritesInPlace host deque)
      (instantiate host info msg) calls) :
    let store := (machine host deque).run (instantiate host info msg) calls
    ((machine host deque).Permitted ((machine host deque).OnSuccess (RelaysPushable host))
      (instantiate host info msg) calls →
      ∀ index checkpoint, store.queue.get index = .ok checkpoint →
        ∀ input ∈ checkpoint.mainTx.input, WithinLimits input.redeemScript) ∧
    ∀ env btcTx btcHeight btcProof btcVout sigsetIndex dest after,
      store.relayDeposit host env btcTx btcHeight btcProof btcVout sigsetIndex dest deque =
        .ok after →
      after.queue = store.queue ∨ ∃ older building credited input,
        store.queue.checkpoints = older ++ [building] ∧
        after.queue.checkpoints = older ++ [credited] ∧
        credited.mainTx.input = building.mainTx.input ++ [input] ∧
        (WithinLimits input.redeemScript ↔
          (dest.commitmentBytes host).length ≤ maxElementSize) := by
  obtain ⟨sameRun, transport⟩ := run_inPlace inPlace
  intro store
  have sameStore : store = (machine host).run (instantiate host info msg) calls := sameRun
  constructor
  · intro permitted index checkpoint got input member
    have pushable : (machine host).Permitted ((machine host).OnSuccess (RelaysPushable host))
        (instantiate host info msg) calls := by
      apply (transport _ permitted).imp
      rintro current call ⟨relays, sameCall⟩
      rwa [CallMachine.OnSuccess, sameCall] at relays
    rw [sameStore] at got
    have each := run_each Checkpoint.Executable
      (fun _ _ allowed => preservesEach_executable allowed) pushable
    exact each index checkpoint (QueueStore.get_eq_ok.mp got).2 _ (List.mem_map_of_mem member)
  · intro env btcTx btcHeight btcProof btcVout sigsetIndex dest after relayed
    rw [relayDeposit_run_inPlace inPlace] at relayed
    have shaped : store.queue.Shaped := by
      rw [sameStore]
      exact run_shaped host info msg calls
    rcases Store.credited_of_relayDeposit relayed with same | ⟨⟨credited⟩⟩
    · exact Or.inl same
    · obtain ⟨-, found⟩ := QueueStore.get_eq_ok.mp credited.get_eq
      refine Or.inr ⟨credited.older, credited.building, credited.credited, credited.input,
        credited.checkpoints_eq, credited.checkpoints_after, by rw [credited.mainTx_eq],
        withinLimits_credited credited ((shaped.ordered_of_item found).wellFormed found)⟩

theorem Contract.run_inputs_executable_sample :
    let store := (machine Sample.host .rawKey).run Sample.initial Sample.setupCalls
    (Sample.checkpointAt store 0).mainTx.input.length = 1 ∧
      ∀ input ∈ (Sample.checkpointAt store 0).mainTx.input, WithinLimits input.redeemScript :=
  ⟨by decide +kernel, (run_inputs_executable Sample.host .rawKey Sample.info Sample.instantiateMsg
    Sample.setupCalls (by decide +kernel)).1 (by decide +kernel) 0 _ (by decide +kernel)⟩

/-- A deposit to a long address is accepted, and the input that it adds cannot
be spent by any witness. -/
theorem Contract.run_inputs_unspendable :
    let store := (machine Sample.host .rawKey).run Sample.initial Sample.longDepositCalls
    (Sample.checkpointAt store 0).mainTx.input.length = 1 ∧
      ∀ input ∈ (Sample.checkpointAt store 0).mainTx.input,
        ¬ WithinLimits input.redeemScript ∧
          ∀ checkSig witness, evaluate checkSig input.redeemScript witness = none := by
  intro store
  have beyond : ∀ input ∈ (Sample.checkpointAt store 0).mainTx.input,
      ¬ WithinLimits input.redeemScript := by
    decide +kernel
  refine ⟨by decide +kernel, fun input member => ⟨beyond input member, ?_⟩⟩
  exact fun _ witness => evaluate_eq_none (beyond input member) witness

section Thresholds

theorem SignatorySet.getTruncation_eq_zero {sigset : SignatorySet}
    (small : sigset.presentVp < 2 ^ 23) : sigset.getTruncation 23 = 0 := by
  rw [getTruncation, Nat.sub_eq_zero_iff_le]
  exact Nat.size_le.mpr small

/-- A voting power between two thresholds exceeds one of them only. -/
theorem exceeds_iff_iff {first second power : Nat} :
    ((first < power ↔ second < power) ↔
      ¬ (min first second < power ∧ power ≤ max first second)) := by
  omega

/-- For a set whose powers are not truncated and a ratio below one, an input is
signed exactly when its script accepts the collected signatures, if and only if
the power of the signers is not between the fixed threshold and the configured
one, or, when the destination cannot be pushed, does not exceed the fixed one. -/
theorem Input.signed_iff_spends_iff {host : Host} {validators : List Validator}
    {sigKey : ConsensusKey → Option Xpub} {createTime index : Nat} {sigset : SignatorySet}
    (built : SignatorySet.fromValidatorCtx host validators sigKey createTime index = .ok sigset)
    (small : sigset.presentVp < 2 ^ 23) {ratio : Nat × Nat} (proper : ratio.1 < ratio.2)
    {prevout : OutPoint} {dest : Bytes} {amount : Nat} {input : Input}
    (made : Input.new host prevout sigset dest amount ratio = .ok input) {message : Bytes}
    {signatures : List (Pubkey × Signature)} {ts : ThresholdSig}
    (collected : (input.signatures.setMessage message).signAll host signatures = .ok ts)
    {checkSig : Bytes → Bytes → Bool}
    (semantics : ThresholdSig.SignatureSemantics host checkSig message) :
    let power := (signatures.map fun entry => sigset.powerOf entry.1).sum
    let fixed := sigset.presentVp * 2 / 3
    let configured := sigset.presentVp * ratio.1 / ratio.2
    ∃ witness, ts.collectedWitness host = .ok witness ∧
      ((ts.signed = true ↔ EndsTrue (evaluate checkSig input.redeemScript witness.reverse)) ↔
        if dest.length ≤ maxElementSize then
          ¬ (min fixed configured < power ∧ power ≤ max fixed configured)
        else power ≤ fixed) := by
  intro power fixed configured
  have wellFormed := SignatorySet.fromValidatorCtx_wellFormed built
  obtain ⟨-, -, -, scripted, started⟩ := Input.new_eq_ok made
  obtain ⟨startCollecting, startSums⟩ := ThresholdSig.Collecting.start wellFormed started message
  obtain ⟨collecting, sums⟩ := startCollecting.signAll collected
  obtain ⟨witness, witnessEq, spends⟩ :=
    collecting.spends_iff wellFormed proper.le scripted semantics
  have signedIff : ts.signed = true ↔ fixed < power := by
    have powerEq := sums id
    rw [startSums, Nat.zero_add] at powerEq
    rw [ThresholdSig.signed, decide_eq_true_eq, collecting.threshold_eq,
      collecting.signedPower_eq, powerEq]
    rfl
  rw [sums, startSums, Nat.zero_add, SignatorySet.getTruncation_eq_zero small] at spends
  simp only [Nat.shiftRight_zero] at spends
  refine ⟨witness, witnessEq, ?_⟩
  rw [signedIff, spends]
  by_cases pushable : dest.length ≤ maxElementSize
  · rw [if_pos pushable, ← exceeds_iff_iff]
    simp only [pushable, true_and]
    rfl
  · rw [if_neg pushable]
    simp only [pushable, false_and, iff_false, not_lt]

end Thresholds

namespace Sample

/-- The script of the unequal set when nine tenths have to be exceeded. -/
def strictScript : Script :=
  serialize (unequalSet.redeemInstructions ⟨70, pubkey 2⟩ [⟨30, pubkey 1⟩] 90 [0])

/-- An input of the unequal set under that ratio. -/
def strictInput (signedPower : Nat) (second : Option Signature) : Input where
  prevout := ⟨[7], 0⟩
  scriptPubkey := toV0P2wsh host strictScript
  redeemScript := strictScript
  sigsetIndex := 0
  dest := [0]
  amount := 1000
  estWitnessVsize := unequalSet.estWitnessVsize
  signatures := {
    threshold := 66
    signedPower
    message := List.replicate 32 0
    len := 2
    sigs := [(pubkey 2, ⟨70, second⟩), (pubkey 1, ⟨30, none⟩)] }

/-- The input after the stronger validator has signed. -/
def strictSigned : ThresholdSig := (strictInput 70 (some (signature 2).2)).signatures

end Sample

theorem Input.signed_iff_spends_iff_strict :
    ∃ witness, Sample.strictSigned.collectedWitness Sample.host = .ok witness ∧
      ((Sample.strictSigned.signed = true ↔
          EndsTrue (evaluate Sample.checkSig Sample.strictScript witness.reverse)) ↔
        if [0].length ≤ maxElementSize then
          ¬ (min (100 * 2 / 3) (100 * 9 / 10) < 70 ∧ 70 ≤ max (100 * 2 / 3) (100 * 9 / 10))
        else 70 ≤ 100 * 2 / 3) :=
  signed_iff_spends_iff
    (by decide +kernel : SignatorySet.fromValidatorCtx Sample.host
      [⟨Sample.consensusKey 1, 30⟩, ⟨Sample.consensusKey 2, 70⟩] Sample.sigKey 0 0 =
        .ok Sample.unequalSet)
    (by decide) (by decide : (9, 10).1 < (9, 10).2)
    (by decide +kernel : Input.new Sample.host ⟨[7], 0⟩ Sample.unequalSet [0] 1000 (9, 10) =
      .ok (Sample.strictInput 0 none))
    (by decide +kernel : ((Sample.strictInput 0 none).signatures.setMessage
      (List.replicate 32 0)).signAll Sample.host [Sample.signature 2] = .ok Sample.strictSigned)
    (Sample.signatureSemantics _)

/-- With a configured ratio of nine tenths, an input counts as signed although
the witness does not satisfy its script. -/
theorem Input.signed_not_spends :
    Input.new Sample.host ⟨[7], 0⟩ Sample.unequalSet [0] 1000 (9, 10) =
        .ok (Sample.strictInput 0 none) ∧
      ((Sample.strictInput 0 none).signatures.setMessage (List.replicate 32 0)).signAll Sample.host
        [Sample.signature 2] = .ok Sample.strictSigned ∧
      Sample.strictSigned.signed = true ∧
      ∃ witness, Sample.strictSigned.toWitness Sample.host = .ok witness ∧
        ¬ EndsTrue (evaluate Sample.checkSig (Sample.strictInput 0 none).redeemScript
          witness.reverse) := by
  refine ⟨by decide +kernel, by decide +kernel, by decide,
    [[], (Sample.pubkey 2).bytes ++ [0x01]], by decide +kernel, by decide +kernel⟩

end CwBitcoin
