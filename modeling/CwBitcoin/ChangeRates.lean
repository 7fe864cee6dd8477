import CwBitcoin.CheckpointLifetime
import CwBitcoin.FeePool
import CwBitcoin.QueueIndexes

/-!
# Rates of change

Signers halt when the reserve or the signatory set changes too quickly.  They ask for
the change over an interval, and the contract looks back only as many checkpoints as
can have been started in it.
-/

namespace CwBitcoin

/-- Rates in basis points. -/
structure ChangeRates where
  withdrawal : Nat
  sigsetChange : Nat
  deriving DecidableEq, Repr

def ChangeRates.default : ChangeRates := ⟨0, 0⟩

namespace Checkpoint

/-- The amount in the reserve output. -/
def reserveValue (host : Host) (checkpoint : Checkpoint) : ContractResult Nat := do
  let output ← checkpoint.reserveOutput host
  let output ← Outcome.getOr Outcome.abort output
  return output.value

/-- The checkpoint was started more than an interval ago. -/
def startedBefore (interval now : Nat) (checkpoint : Checkpoint) : ContractResult Bool := do
  let age ← Outcome.checkedSub now checkpoint.createTime
  return interval < age

end Checkpoint

namespace Store

section Rates

variable (host : Host) (sigsetChange : Store → SignatorySet → SignatorySet → ContractResult Nat)

/-- The change from the newest of the completed checkpoints that was started more than
an interval ago, or from the oldest of them.  The share of voting power that changed
hands is computed in floating point, which `sigsetChange` stands for. -/
def changeSince (store : Store) (signing : Checkpoint) (completed : List Checkpoint)
    (interval now : Nat) : ContractResult ChangeRates := do
  if completed = [] then return .default
  let position ← Outcome.rposition (Checkpoint.startedBefore interval now) completed
  let prevCheckpoint ← Outcome.getOr Outcome.abort completed[position.getD 0]?
  let amountPrev ← prevCheckpoint.reserveValue host
  let amountNow ← signing.reserveValue host
  let reserveDecrease := amountPrev - amountNow
  let sigsetChange ← sigsetChange store signing.sigset prevCheckpoint.sigset
  let scaled ← Outcome.checkedMul 64 reserveDecrease 10000
  let withdrawal ← Outcome.checkedDiv scaled amountPrev
  return { withdrawal := withdrawal % 2 ^ 16, sigsetChange }

/-- The change over an interval that ends now, among the completed checkpoints that
`completed` reads. -/
def changeOver (completed : Store → ContractResult (List Checkpoint)) (store : Store)
    (interval now : Nat) : ContractResult ChangeRates := do
  let signing ← store.queue.signing
  let signing ← Outcome.getOr (Outcome.fail (.app "No checkpoint to be signed")) signing
  if interval < now ∧ signing.createTime < now - interval then return .default
  let now := max signing.createTime now
  let completed ← completed store
  changeSince host sigsetChange store signing completed interval now

/-- The latest completed checkpoints, one more than can have been started in an
interval. -/
def recentCompleted (interval : Nat) (store : Store) : ContractResult (List Checkpoint) := do
  let count ← Outcome.checkedDiv interval store.checkpointConfig.minCheckpointInterval
  let limit ← Outcome.checkedAdd 32 (count % 2 ^ 32) 1
  store.queue.completed limit

/-- The rate of change of the reserve output and of the signatory set. -/
def changeRates (store : Store) (interval now : Nat) : ContractResult ChangeRates :=
  store.changeOver host sigsetChange (recentCompleted interval) interval now

variable {host sigsetChange} {store : Store} {signing building : Checkpoint}
  {older recent : List Checkpoint} {interval spacing now : Nat}

/-- Checkpoints before one that was started more than an interval ago do not count. -/
theorem changeSince_append
    (found : ∃ position, Outcome.rposition (Checkpoint.startedBefore interval now) recent =
      .ok (some position)) :
    changeSince host sigsetChange store signing (older ++ recent) interval now =
      changeSince host sigsetChange store signing recent interval now := by
  obtain ⟨position, searched⟩ := found
  have recentNonempty : recent ≠ [] := by
    rintro rfl
    cases searched
  have wholeNonempty : older ++ recent ≠ [] :=
    List.append_ne_nil_of_right_ne_nil older recentNonempty
  simp only [changeSince, if_neg recentNonempty, if_neg wholeNonempty, searched,
    Outcome.rposition_append searched, Outcome.ok_bind, Option.getD_some,
    List.getElem?_append_right (Nat.le_add_right older.length position), Nat.add_sub_cancel_left]

/-- Each older checkpoint was started so many times the spacing before the one that waits
for signatures. -/
theorem createTime_older (arranged : store.queue.Arranged older (some signing) building)
    (spaced : Spaced spacing store.queue.createTimes) {position : Nat}
    (inRange : position < older.length) :
    older[position].createTime + (older.length - position) * spacing ≤ signing.createTime := by
  have timesEq : store.queue.createTimes =
      older.map Checkpoint.createTime ++ [signing.createTime, building.createTime] := by
    rw [QueueStore.createTimes, arranged.checkpoints_eq]
    simp
  set times := store.queue.createTimes
  have lengthEq : times.length = older.length + 2 := by
    rw [timesEq, List.length_append, List.length_map]
    rfl
  have apart : times[position] + (older.length - position) * spacing ≤
      times[position + (older.length - position)] :=
    spaced.add_mul_le_getElem (by omega)
  have isSigning : position + (older.length - position) = older.length := by omega
  simpa [timesEq, List.getElem_append_left, inRange, isSigning] using apart

/-- The recent checkpoints go back more than an interval, or are all there are. -/
theorem changeSince_recent (arranged : store.queue.Arranged older (some signing) building)
    (spaced : Spaced spacing store.queue.createTimes) (inTime : signing.createTime ≤ now)
    {limit : Nat} (reaches : interval < limit * spacing) :
    changeSince host sigsetChange store signing (older.drop (older.length - min limit older.length))
        interval now =
      changeSince host sigsetChange store signing older interval now := by
  by_cases short : older.length ≤ limit
  · rw [Nat.min_eq_right short, Nat.sub_self, List.drop_zero]
  · rw [Nat.min_eq_left (by omega)]
    set skipped := older.length - limit with skippedEq
    have inRange : skipped < older.length := by
      have positive : limit ≠ 0 := fun isZero => by simp [isZero] at reaches
      omega
    conv_rhs => rw [← List.take_append_drop skipped older]
    refine (changeSince_append ?_).symm
    have decided : ∀ checkpoint ∈ older.drop skipped,
        checkpoint.startedBefore interval now = .ok (interval < now - checkpoint.createTime) := by
      intro checkpoint member
      obtain ⟨position, inOlder, rfl⟩ := List.getElem_of_mem (List.mem_of_mem_drop member)
      have earlier := createTime_older arranged spaced inOlder
      rw [Checkpoint.startedBefore, Outcome.checkedSub_eq_ok.mpr ⟨by omega, rfl⟩]
      rfl
    obtain ⟨found, searched, none_passes, -⟩ := Outcome.exists_rposition decided
    cases found with
    | some position => exact ⟨position, searched⟩
    | none =>
        have firstRecent : older[skipped] ∈ older.drop skipped := by
          rw [List.drop_eq_getElem_cons inRange]
          exact List.mem_cons_self
        have tooYoung := none_passes rfl _ firstRecent
        have longAgo := createTime_older arranged spaced inRange
        have count : older.length - skipped = limit := by omega
        rw [count] at longAgo
        omega

/-- The limited look back finds the same change as one over the whole queue. -/
theorem changeRates_eq (shaped : store.queue.Shaped)
    (positive : 0 < store.checkpointConfig.minCheckpointInterval)
    (fits : interval / store.checkpointConfig.minCheckpointInterval + 1 < 2 ^ 32)
    (spaced : Spaced store.checkpointConfig.minCheckpointInterval store.queue.createTimes) :
    store.changeRates host sigsetChange interval now =
      store.changeOver host sigsetChange (fun store => .ok store.queue.completeCheckpoints)
        interval now := by
  rw [changeRates, changeOver, changeOver]
  refine Outcome.bind_congr fun signing read => ?_
  cases signing with
  | none => rfl
  | some signing =>
      rcases QueueStore.signing_eq_ok read with ⟨-, none⟩ | ⟨second, aligned, -, item, -⟩
      · cases none
      obtain ⟨others, building, split⟩ : ∃ others building, store.queue.checkpoints =
          others ++ [building] := by
        have nonempty : store.queue.checkpoints ≠ [] :=
          fun empty => Window.item_ne_of_empty empty item
        exact ⟨_, _, (List.dropLast_append_getLast nonempty).symm⟩
      obtain ⟨older, waiting, arranged⟩ := (shaped.ordered_of_split split).arranged split
      have readable : store.queue.buildingIndex + 1 < 2 ^ 32 ∨ store.queue.checkpoints.length = 1 :=
        Or.inl aligned.fits
      obtain rfl := Except.ok.inj ((arranged.signing_eq readable).symm.trans read)
      have limitEq : recentCompleted interval store = store.queue.completed
          (interval / store.checkpointConfig.minCheckpointInterval + 1) := by
        rw [recentCompleted, Outcome.checkedDiv_eq_ok.mpr ⟨positive.ne', rfl⟩, Outcome.ok_bind,
          Nat.mod_eq_of_lt (by omega), Outcome.checkedAdd_eq_ok.mpr ⟨fits, rfl⟩, Outcome.ok_bind]
      rw [limitEq, arranged.completed_eq readable, arranged.completeCheckpoints_eq]
      simp only [Outcome.getOr, Outcome.ok_bind]
      have reaches : interval < (interval / store.checkpointConfig.minCheckpointInterval + 1) *
          store.checkpointConfig.minCheckpointInterval := by
        rw [Nat.mul_comm]
        exact Nat.lt_mul_div_succ interval positive
      rw [changeSince_recent arranged spaced (le_max_left _ _) reaches]

/-- The rate is a part of the earlier reserve. -/
theorem withdrawal_of_changeSince {completed : List Checkpoint} {rates : ChangeRates}
    (computed : changeSince host sigsetChange store signing completed interval now = .ok rates) :
    rates.withdrawal ≤ 10000 := by
  unfold changeSince at computed
  split at computed
  · rw [← Outcome.pure_eq_ok.mp computed]
    exact Nat.zero_le _
  · simp only [Outcome.bind_eq_ok, Outcome.checkedMul_eq_ok, Outcome.checkedDiv_eq_ok,
      Outcome.pure_eq_ok] at computed
    obtain ⟨-, -, -, -, amountPrev, -, amountNow, -, -, -, _, ⟨-, rfl⟩, _, ⟨positive, rfl⟩, rfl⟩ :=
      computed
    refine (Nat.mod_le _ _).trans (Nat.div_le_of_le_mul ?_)
    exact Nat.mul_le_mul_right 10000 (Nat.sub_le amountPrev amountNow)

/-- Every rate is at most the whole reserve. -/
theorem withdrawal_le {completed : Store → ContractResult (List Checkpoint)} {rates : ChangeRates}
    (computed : store.changeOver host sigsetChange completed interval now = .ok rates) :
    rates.withdrawal ≤ 10000 := by
  simp only [changeOver, Outcome.bind_eq_ok] at computed
  obtain ⟨-, -, signing, -, computed⟩ := computed
  split at computed
  · rw [← Outcome.pure_eq_ok.mp computed]
    exact Nat.zero_le _
  · obtain ⟨completed, -, computed⟩ := Outcome.bind_eq_ok.mp computed
    exact withdrawal_of_changeSince computed

end Rates

end Store

namespace Contract

/-- As long as checkpoints were never started closer together than they may be now, the
rates over any interval are those of a look back over all completed checkpoints. -/
theorem run_changeRates (host : Host)
    (sigsetChange : Store → SignatorySet → SignatorySet → ContractResult Nat)
    (info : MessageInfo) (msg : InstantiateMsg) (calls : List Call) (interval now spacing : Nat)
    (positive : 0 < spacing) (fits : interval / spacing + 1 < 2 ^ 32)
    (spaces : (machine host).Permitted
      (fun store _ => store.queue.checkpoints = [] ∨
        spacing ≤ store.checkpointConfig.minCheckpointInterval)
      (instantiate host info msg) calls)
    (current : ((machine host).run (instantiate host info msg)
      calls).checkpointConfig.minCheckpointInterval = spacing) :
    let store := (machine host).run (instantiate host info msg) calls
    store.changeRates host sigsetChange interval now =
        store.changeOver host sigsetChange (fun store => .ok store.queue.completeCheckpoints)
          interval now ∧
      ∀ rates, store.changeRates host sigsetChange interval now = .ok rates →
        rates.withdrawal ≤ 10000 := by
  have start : Spaced spacing (instantiate host info msg).queue.createTimes := List.isChain_nil
  have spaced := CallMachine.run_invariant
    (fun store : Store => Spaced spacing store.queue.createTimes)
    (fun store call after inv allowed called => (termsStep_of_call called).spaced allowed inv)
    start spaces
  subst current
  exact ⟨Store.changeRates_eq (run_shaped host info msg calls) positive fits spaced,
    fun rates => Store.withdrawal_le⟩

theorem run_changeRates_sample :
    let store := (machine Sample.host).run
      (instantiate Sample.host Sample.info Sample.instantiateMsg) Sample.forcedCalls
    store.changeOver Sample.host (fun _ _ _ => .ok 0)
      (fun store => .ok store.queue.completeCheckpoints) 300 1400 = .ok ⟨18, 0⟩ := by
  have rates := (run_changeRates Sample.host (fun _ _ _ => .ok 0) Sample.info
    Sample.instantiateMsg Sample.forcedCalls 300 1400 300 (by decide) (by decide)
    (by decide +kernel) (by decide +kernel)).1
  exact rates.symm.trans (by decide +kernel)

end Contract

end CwBitcoin
