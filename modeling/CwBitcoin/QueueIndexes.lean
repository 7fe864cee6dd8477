import CwBitcoin.PushAgreement

/-!
# Index arithmetic over a pruned queue

The queue counts and reads its complete and its unconfirmed checkpoints with indexes
that it computes from the index of the last one, the length, and the confirmed index.
All of them describe the same entries, however much has been pruned.  Only the last
index of all is out of reach, since the successor of an index is computed as well.
-/

namespace CwBitcoin

namespace QueueStore

/-- The checkpoints of the queue with their indexes. -/
def entries (queue : QueueStore) : List (Checkpoint × Nat) :=
  queue.checkpoints.zipIdx queue.window.first

/-- The entries of complete checkpoints above the confirmed one. -/
def openEntries (queue : QueueStore) : List (Checkpoint × Nat) :=
  queue.entries.filter fun entry =>
    entry.1.status = .complete ∧ ∀ confirmedIndex ∈ queue.confirmedIndex, confirmedIndex < entry.2

/-- The complete checkpoints of the queue. -/
def completeCheckpoints (queue : QueueStore) : List Checkpoint :=
  queue.checkpoints.filter fun checkpoint => checkpoint.status = .complete

/-- A queue of complete checkpoints, then at most one that waits for signatures, then
the one under construction. -/
structure Arranged (queue : QueueStore) (older : List Checkpoint) (waiting : Option Checkpoint)
    (building : Checkpoint) : Prop where
  checkpoints_eq : queue.checkpoints = older ++ waiting.toList ++ [building]
  complete : ∀ checkpoint ∈ older, checkpoint.status = .complete
  signing : ∀ checkpoint ∈ waiting, checkpoint.status = .signing
  building : building.status = .building
  reaches : queue.checkpoints.length ≤ queue.buildingIndex + 1

/-- An arranged queue whose indexes are numbers of 32 bits, and in which what is
confirmed is complete or has been pruned last. -/
structure LaidOut (queue : QueueStore) (older : List Checkpoint) (waiting : Option Checkpoint)
    (building : Checkpoint) : Prop extends Arranged queue older waiting building where
  index_lt : queue.buildingIndex < 2 ^ 32
  confirmed_ge : ∀ confirmedIndex ∈ queue.confirmedIndex,
    queue.buildingIndex + 1 - queue.checkpoints.length ≤ confirmedIndex + 1
  confirmed_lt : ∀ confirmedIndex ∈ queue.confirmedIndex,
    confirmedIndex + waiting.toList.length + 1 ≤ queue.buildingIndex

/-- All readers of the queue succeed and agree on its entries. -/
structure IndexesAgree (queue : QueueStore) : Prop where
  numUnconfirmed : queue.numUnconfirmed = .ok queue.openEntries.length
  firstUnconfirmedIndex :
    queue.firstUnconfirmedIndex = .ok (queue.openEntries.map Prod.snd).min?
  unconfirmed : queue.unconfirmed = .ok (queue.openEntries.map Prod.fst)
  completed : ∀ limit, queue.completed limit = .ok (queue.completeCheckpoints.drop
    (queue.completeCheckpoints.length - min limit queue.completeCheckpoints.length))

section Read

variable {queue : QueueStore} {found : List Checkpoint} {start : Nat}

/-- Consecutive checkpoints are read one by one. -/
theorem mapM_get_range' (gets : ∀ position checkpoint, found[position]? = some checkpoint →
    queue.get (start + position) = .ok checkpoint) :
    (List.range' start found.length).mapM queue.get = .ok found := by
  induction found generalizing start with
  | nil => rfl
  | cons checkpoint found ih =>
      have head : queue.get start = .ok checkpoint := gets 0 checkpoint rfl
      have rest : (List.range' (start + 1) found.length).mapM queue.get = .ok found := by
        apply ih
        intro position other isOther
        rw [Nat.add_right_comm, Nat.add_assoc]
        exact gets (position + 1) other isOther
      rw [List.length_cons, List.range'_succ, List.mapM_cons, head, Outcome.ok_bind, rest]
      rfl

/-- Reading goes through complete checkpoints and ends where the rest does. -/
theorem completeFrom_range' {rest : List Nat}
    (gets : ∀ position checkpoint, found[position]? = some checkpoint →
      queue.get (start + position) = .ok checkpoint)
    (complete : ∀ checkpoint ∈ found, checkpoint.status = .complete)
    (stops : queue.completeFrom rest = .ok []) :
    ∃ read, queue.completeFrom (List.range' start found.length ++ rest) = .ok read ∧
      read.map Prod.snd = found := by
  induction found generalizing start with
  | nil => exact ⟨[], stops, rfl⟩
  | cons checkpoint found ih =>
      have head : queue.get start = .ok checkpoint := gets 0 checkpoint rfl
      have getsRest : ∀ position other, found[position]? = some other →
          queue.get (start + 1 + position) = .ok other := by
        intro position other isOther
        rw [Nat.add_right_comm, Nat.add_assoc]
        exact gets (position + 1) other isOther
      obtain ⟨read, readRest, readEq⟩ := ih getsRest
        fun other member => complete other (List.mem_cons_of_mem _ member)
      refine ⟨(start, checkpoint) :: read, ?_, by rw [List.map_cons, readEq]⟩
      rw [List.length_cons, List.range'_succ, List.cons_append, completeFrom, head,
        Outcome.ok_bind, if_pos (complete checkpoint List.mem_cons_self), readRest]
      rfl

end Read

section Arranged

variable {queue : QueueStore} {older : List Checkpoint} {waiting : Option Checkpoint}
  {building : Checkpoint}

namespace Arranged

variable (arranged : queue.Arranged older waiting building)

include arranged

theorem length_eq : queue.checkpoints.length = older.length + waiting.toList.length + 1 := by
  rw [arranged.checkpoints_eq, List.length_append, List.length_append, List.length_singleton]

theorem buildingIndex_eq :
    queue.buildingIndex = queue.window.first + older.length + waiting.toList.length := by
  have lengthEq := arranged.length_eq
  have reaches := arranged.reaches
  change _ = queue.buildingIndex + 1 - queue.checkpoints.length + _ + _
  omega

/-- Neither the checkpoint that waits nor the one under construction is complete. -/
theorem not_complete : ∀ checkpoint ∈ waiting.toList ++ [building],
    checkpoint.status ≠ .complete := by
  intro checkpoint member
  rcases List.mem_append.mp member with isWaiting | isBuilding
  · rw [arranged.signing checkpoint (Option.mem_toList.mp isWaiting)]
    decide
  · rw [List.mem_singleton.mp isBuilding, arranged.building]
    decide

theorem completeCheckpoints_eq : queue.completeCheckpoints = older := by
  have keepsAll : older.filter (fun checkpoint => checkpoint.status = .complete) = older :=
    List.filter_eq_self.mpr fun checkpoint member => decide_eq_true (arranged.complete checkpoint member)
  have keepsNone : (waiting.toList ++ [building]).filter
      (fun checkpoint => checkpoint.status = .complete) = [] :=
    List.filter_eq_nil_iff.mpr fun checkpoint member => by
      simpa using arranged.not_complete checkpoint member
  rw [completeCheckpoints, arranged.checkpoints_eq, List.append_assoc, List.filter_append, keepsAll,
    keepsNone, List.append_nil]

/-- The checkpoint that waits is found, unless the successor of the last index does not
fit and there is more than one checkpoint. -/
theorem signing_eq (readable : queue.buildingIndex + 1 < 2 ^ 32 ∨ queue.checkpoints.length = 1) :
    queue.signing = .ok waiting := by
  have lengthEq := arranged.length_eq
  have indexEq := arranged.buildingIndex_eq
  by_cases short : queue.checkpoints.length < 2
  · have noWaiting : waiting = none := by
      cases waiting with
      | none => rfl
      | some checkpoint => simp at lengthEq; omega
    rw [QueueStore.signing, if_pos short, noWaiting]
    rfl
  · have aligned : queue.Aligned := ⟨readable.resolve_right (by omega), arranged.reaches⟩
    have positive : 1 ≤ queue.buildingIndex := by
      have reaches := arranged.reaches
      omega
    have before : (Outcome.checkedSub queue.buildingIndex 1 : ContractResult Nat) =
        .ok (queue.buildingIndex - 1) := Outcome.checkedSub_eq_ok.mpr ⟨positive, rfl⟩
    rw [QueueStore.signing, if_neg short, before, Outcome.ok_bind]
    cases waiting with
    | some second =>
        have split : queue.window.items = older ++ [second, building] := by
          simpa [QueueStore.window] using arranged.checkpoints_eq
        have got : queue.get (queue.buildingIndex - 1) = .ok second :=
          get_eq_ok.mpr ⟨aligned, Window.item_before_last aligned.window split⟩
        have isSigning := arranged.signing second rfl
        rw [got, Outcome.ok_bind, if_pos isSigning]
        rfl
    | none =>
        have nonempty : older ≠ [] := by
          rintro rfl
          simp at lengthEq
          omega
        obtain ⟨others, second, olderEq⟩ := List.eq_nil_or_concat older |>.resolve_left nonempty
        rw [List.concat_eq_append] at olderEq
        have split : queue.window.items = others ++ [second, building] := by
          simpa [QueueStore.window, olderEq] using arranged.checkpoints_eq
        have got : queue.get (queue.buildingIndex - 1) = .ok second :=
          get_eq_ok.mpr ⟨aligned, Window.item_before_last aligned.window split⟩
        have isComplete := arranged.complete second (by simp [olderEq])
        rw [got, Outcome.ok_bind, if_neg (by rw [isComplete]; decide)]
        rfl

theorem get_older (aligned : queue.Aligned) {position : Nat} {checkpoint : Checkpoint}
    (found : older[position]? = some checkpoint) :
    queue.get (queue.window.first + position) = .ok checkpoint := by
  have inRange := (List.getElem?_eq_some_iff.mp found).1
  refine get_eq_ok.mpr ⟨aligned, ?_⟩
  rw [Window.item_add]
  change queue.checkpoints[position]? = _
  rw [arranged.checkpoints_eq, List.append_assoc, List.getElem?_append_left inRange, found]

/-- Reading behind the complete checkpoints finds nothing. -/
theorem completeFrom_behind (aligned : queue.Aligned) :
    queue.completeFrom (List.range' (queue.window.first + older.length)
      (waiting.toList.length + 1)) = .ok [] := by
  obtain ⟨next, nextAt⟩ : ∃ next, (waiting.toList ++ [building])[0]? = some next := by
    cases waiting <;> exact ⟨_, rfl⟩
  have got : queue.get (queue.window.first + older.length) = .ok next := by
    refine get_eq_ok.mpr ⟨aligned, ?_⟩
    rw [Window.item_add]
    change queue.checkpoints[older.length]? = _
    rw [arranged.checkpoints_eq, List.append_assoc, List.getElem?_append_right le_rfl, Nat.sub_self,
      nextAt]
  rw [List.range'_succ, completeFrom, got, Outcome.ok_bind,
    if_neg (arranged.not_complete next (List.mem_of_getElem? nextAt))]
  rfl

theorem completed_eq (readable : queue.buildingIndex + 1 < 2 ^ 32 ∨ queue.checkpoints.length = 1)
    (limit : Nat) :
    queue.completed limit = .ok (older.drop (older.length - min limit older.length)) := by
  have lengthEq := arranged.length_eq
  have indexEq := arranged.buildingIndex_eq
  have skipEq : (if waiting.isSome then 2 else 1) = waiting.toList.length + 1 := by
    cases waiting <;> rfl
  set count := min limit older.length with countEq
  have countLe : count ≤ older.length := Nat.min_le_right _ _
  have available : (Outcome.checkedSub queue.checkpoints.length (waiting.toList.length + 1) :
      ContractResult Nat) = .ok older.length :=
    Outcome.checkedSub_eq_ok.mpr ⟨by omega, by omega⟩
  have endEq : queue.buildingIndex - (waiting.toList.length + 1 - 1) =
      queue.window.first + older.length := by omega
  have startEq : (Outcome.checkedSub (queue.window.first + older.length) count :
      ContractResult Nat) = .ok (queue.window.first + (older.length - count)) :=
    Outcome.checkedSub_eq_ok.mpr ⟨by omega, by omega⟩
  have taken : queue.window.first + older.length -
      (queue.window.first + (older.length - count)) = (older.drop (older.length - count)).length := by
    rw [List.length_drop]
    omega
  rw [QueueStore.completed]
  simp only [if_neg (by omega : queue.checkpoints.length ≠ 0), arranged.signing_eq readable,
    Outcome.ok_bind, skipEq, available, endEq, ← countEq, startEq, taken]
  apply mapM_get_range'
  intro position checkpoint found
  have inRange := (List.getElem?_eq_some_iff.mp found).1
  rw [List.length_drop] at inRange
  have aligned : queue.Aligned := ⟨readable.resolve_right (by omega), arranged.reaches⟩
  rw [Nat.add_assoc]
  exact arranged.get_older aligned (by rwa [List.getElem?_drop] at found)

end Arranged

/-- A queue with the shape of reachable states is arranged. -/
theorem Ordered.arranged (ordered : queue.Ordered)
    (split : queue.checkpoints = older ++ [building]) :
    ∃ completed waiting, queue.Arranged completed waiting building := by
  obtain ⟨completed, signing, rfl, complete, short, areSigning⟩ := ordered.statuses split
  refine ⟨completed, signing.head?, ⟨?_, complete, ?_, ordered.last (ordered.item_building split),
    ordered.aligned.window⟩⟩
  · rw [split]
    match signing, short with
    | [], _ => rfl
    | [_], _ => rfl
  · intro checkpoint isFirst
    exact areSigning checkpoint (List.mem_of_mem_head? isFirst)

namespace LaidOut

variable (laid : queue.LaidOut older waiting building)

include laid

theorem firstOpen_ge : queue.window.first ≤ queue.firstOpen := by
  cases confirmed : queue.confirmedIndex with
  | none => simp only [firstOpen, confirmed, le_refl]
  | some confirmedIndex =>
      simp only [firstOpen, confirmed]
      exact laid.confirmed_ge confirmedIndex confirmed

theorem firstOpen_le : queue.firstOpen ≤ queue.window.first + older.length := by
  have indexEq := laid.buildingIndex_eq
  cases confirmed : queue.confirmedIndex with
  | none =>
      simp only [firstOpen, confirmed]
      exact Nat.le_add_right _ _
  | some confirmedIndex =>
      have upper := laid.confirmed_lt confirmedIndex confirmed
      simp only [firstOpen, confirmed]
      omega

/-- The open entries are the complete ones from the first open index on. -/
theorem openEntries_eq : queue.openEntries =
    (older.drop (queue.firstOpen - queue.window.first)).zipIdx queue.firstOpen := by
  have lower := laid.firstOpen_ge
  have upper := laid.firstOpen_le
  set skipped := queue.firstOpen - queue.window.first with skippedEq
  have above_iff (index : Nat) (fromFirst : queue.window.first ≤ index) :
      (∀ confirmedIndex ∈ queue.confirmedIndex, confirmedIndex < index) ↔
        queue.firstOpen ≤ index := by
    cases confirmed : queue.confirmedIndex with
    | none => simpa [firstOpen, confirmed] using fromFirst
    | some confirmedIndex =>
        simp only [firstOpen, confirmed, Option.mem_some_iff, forall_eq']
        exact Nat.lt_iff_add_one_le
  have split : queue.entries =
      (older.take skipped).zipIdx queue.window.first ++
        ((older.drop skipped).zipIdx queue.firstOpen ++
          (waiting.toList ++ [building]).zipIdx (queue.window.first + older.length)) := by
    have skippedLe : skipped ≤ older.length := by omega
    have middle : queue.window.first + (older.take skipped).length = queue.firstOpen := by
      rw [List.length_take, Nat.min_eq_left skippedLe]
      omega
    have olderSplit : older.zipIdx queue.window.first =
        (older.take skipped).zipIdx queue.window.first ++
          (older.drop skipped).zipIdx queue.firstOpen := by
      rw [← middle, ← List.zipIdx_append, List.take_append_drop]
    rw [entries, laid.checkpoints_eq, List.append_assoc, List.zipIdx_append, olderSplit,
      List.append_assoc]
  have noneBefore : ((older.take skipped).zipIdx queue.window.first).filter (fun entry =>
      entry.1.status = .complete ∧
        ∀ confirmedIndex ∈ queue.confirmedIndex, confirmedIndex < entry.2) = [] := by
    apply List.filter_eq_nil_iff.mpr
    rintro ⟨checkpoint, index⟩ member
    have fromFirst := List.le_snd_of_mem_zipIdx member
    have before := List.snd_lt_of_mem_zipIdx member
    rw [List.length_take] at before
    rw [decide_eq_true_eq, above_iff index fromFirst]
    rintro ⟨-, openIndex⟩
    simp only at before
    omega
  have allOpen : ((older.drop skipped).zipIdx queue.firstOpen).filter (fun entry =>
      entry.1.status = .complete ∧
        ∀ confirmedIndex ∈ queue.confirmedIndex, confirmedIndex < entry.2) =
          (older.drop skipped).zipIdx queue.firstOpen := by
    apply List.filter_eq_self.mpr
    rintro ⟨checkpoint, index⟩ member
    have fromOpen := List.le_snd_of_mem_zipIdx member
    rw [decide_eq_true_eq, above_iff index (lower.trans fromOpen)]
    exact ⟨laid.complete checkpoint (List.mem_of_mem_drop (List.fst_mem_of_mem_zipIdx member)),
      fromOpen⟩
  have noneBehind : ((waiting.toList ++ [building]).zipIdx
      (queue.window.first + older.length)).filter (fun entry => entry.1.status = .complete ∧
        ∀ confirmedIndex ∈ queue.confirmedIndex, confirmedIndex < entry.2) = [] := by
    apply List.filter_eq_nil_iff.mpr
    intro entry member
    rw [decide_eq_true_eq]
    exact fun isOpen => laid.not_complete entry.1 (List.fst_mem_of_mem_zipIdx member) isOpen.1
  rw [openEntries, split, List.filter_append, List.filter_append, noneBefore, allOpen, noneBehind,
    List.nil_append, List.append_nil]

/-- The indexes of the complete checkpoints that are open. -/
theorem numUnconfirmed_eq (read : queue.signing = .ok waiting) : queue.numUnconfirmed =
    .ok (queue.window.first + older.length - queue.firstOpen) := by
  have lengthEq := laid.length_eq
  have indexEq := laid.buildingIndex_eq
  have offsetEq : (if waiting.isSome then 1 else 0) = waiting.toList.length := by
    cases waiting <;> rfl
  rw [numUnconfirmed, read, Outcome.ok_bind]
  simp only [offsetEq]
  by_cases early : queue.buildingIndex < 1 + waiting.toList.length
  · have lower := laid.firstOpen_ge
    rw [if_pos early, Outcome.pure_eq_ok]
    omega
  · rw [if_neg early]
    cases confirmed : queue.confirmedIndex with
    | none =>
        simp only [Outcome.bind_eq_ok, Outcome.checkedSub_eq_ok, firstOpen, confirmed]
        exact ⟨_, ⟨by omega, rfl⟩, by omega, by omega⟩
    | some confirmedIndex =>
        have upper := laid.confirmed_lt confirmedIndex confirmed
        simp only [Outcome.checkedSub_eq_ok, firstOpen, confirmed]
        omega

theorem firstUnconfirmedIndex_eq (read : queue.signing = .ok waiting) :
    queue.firstUnconfirmedIndex =
      .ok (if queue.firstOpen < queue.window.first + older.length then some queue.firstOpen
        else none) := by
  have indexEq := laid.buildingIndex_eq
  have offsetEq : (if waiting.isSome then 1 else 0) = waiting.toList.length := by
    cases waiting <;> rfl
  rw [firstUnconfirmedIndex, laid.numUnconfirmed_eq read, Outcome.ok_bind]
  by_cases someOpen : queue.firstOpen < queue.window.first + older.length
  · rw [if_neg (by omega), if_pos someOpen, read, Outcome.ok_bind]
    simp only [offsetEq, Outcome.bind_eq_ok, Outcome.checkedSub_eq_ok, Outcome.pure_eq_ok,
      Option.some.injEq]
    exact ⟨_, ⟨by omega, rfl⟩, _, ⟨by omega, rfl⟩, by omega⟩
  · rw [if_pos (by omega), if_neg someOpen]
    rfl

theorem unconfirmed_eq (readable : queue.buildingIndex + 1 < 2 ^ 32 ∨ queue.checkpoints.length = 1) :
    queue.unconfirmed = .ok (older.drop (queue.firstOpen - queue.window.first)) := by
  have lengthEq := laid.length_eq
  have indexEq := laid.buildingIndex_eq
  have lower := laid.firstOpen_ge
  rw [QueueStore.unconfirmed, laid.firstUnconfirmedIndex_eq (laid.signing_eq readable),
    Outcome.ok_bind]
  by_cases someOpen : queue.firstOpen < queue.window.first + older.length
  · have aligned : queue.Aligned := ⟨readable.resolve_right (by omega), laid.reaches⟩
    set found := older.drop (queue.firstOpen - queue.window.first) with foundEq
    have foundLength : found.length = queue.window.first + older.length - queue.firstOpen := by
      rw [foundEq, List.length_drop]
      omega
    have rangeEq : List.range' queue.firstOpen (queue.buildingIndex + 1 - queue.firstOpen) =
        List.range' queue.firstOpen found.length ++
          List.range' (queue.window.first + older.length) (waiting.toList.length + 1) := by
      have nextEq : queue.window.first + older.length = queue.firstOpen + found.length := by omega
      rw [nextEq, List.range'_append_1]
      congr 1
      omega
    have gets : ∀ position checkpoint, found[position]? = some checkpoint →
        queue.get (queue.firstOpen + position) = .ok checkpoint := by
      intro position checkpoint isFound
      rw [foundEq, List.getElem?_drop] at isFound
      have got := laid.get_older aligned isFound
      rwa [← Nat.add_assoc, Nat.add_sub_cancel' lower] at got
    obtain ⟨read, readOk, readEq⟩ := completeFrom_range' gets
      (fun checkpoint member => laid.complete checkpoint (List.mem_of_mem_drop member))
      (laid.completeFrom_behind aligned)
    rw [if_pos someOpen]
    dsimp only
    rw [rangeEq, readOk, Outcome.ok_bind, readEq]
    rfl
  · rw [if_neg someOpen, List.drop_of_length_le (by omega)]
    rfl

theorem indexesAgree (readable : queue.buildingIndex + 1 < 2 ^ 32 ∨ queue.checkpoints.length = 1) :
    queue.IndexesAgree := by
  have lower := laid.firstOpen_ge
  have signingOk := laid.signing_eq readable
  set found := older.drop (queue.firstOpen - queue.window.first) with foundEq
  have foundLength : found.length = queue.window.first + older.length - queue.firstOpen := by
    rw [foundEq, List.length_drop]
    omega
  refine ⟨?_, ?_, ?_, ?_⟩
  · rw [laid.numUnconfirmed_eq signingOk, laid.openEntries_eq, List.length_zipIdx, ← foundEq,
      foundLength]
  · rw [laid.firstUnconfirmedIndex_eq signingOk, laid.openEntries_eq, List.zipIdx_map_snd,
      ← foundEq, foundLength]
    by_cases someOpen : queue.firstOpen < queue.window.first + older.length
    · rw [if_pos someOpen]
      have least : (List.range' queue.firstOpen (queue.window.first + older.length -
          queue.firstOpen)).min? = some queue.firstOpen := by
        rw [List.min?_eq_some_iff]
        refine ⟨List.mem_range'_1.mpr ⟨le_rfl, by omega⟩, ?_⟩
        intro index member
        exact (List.mem_range'_1.mp member).1
      rw [least]
    · rw [if_neg someOpen, Nat.sub_eq_zero_of_le (Nat.le_of_not_lt someOpen)]
      rfl
  · rw [laid.unconfirmed_eq readable, laid.openEntries_eq, List.zipIdx_map_fst]
  · intro limit
    rw [laid.completed_eq readable limit, laid.completeCheckpoints_eq]

/-- The readers agree on the queue exactly when the successor of the last index fits in
32 bits, or there is a single checkpoint, of which no index is computed. -/
theorem indexesAgree_iff :
    queue.IndexesAgree ↔
      (queue.buildingIndex + 1 < 2 ^ 32 ∨ queue.checkpoints.length = 1) := by
  refine ⟨fun agree => ?_, laid.indexesAgree⟩
  have lengthEq := laid.length_eq
  have counted := agree.numUnconfirmed
  simp only [QueueStore.numUnconfirmed, Outcome.bind_eq_ok] at counted
  obtain ⟨read, signingOk, -⟩ := counted
  rcases QueueStore.signing_eq_ok signingOk with ⟨short, -⟩ | ⟨-, aligned, -⟩
  · right
    omega
  · left
    exact aligned.fits

end LaidOut

end Arranged

end QueueStore

namespace Sample

/-- A queue with the given last index: two complete checkpoints, one that waits for
signatures, and one under construction. -/
def queueUpTo (buildingIndex : Nat) (confirmedIndex : Option Nat) : QueueStore where
  checkpoints := [.complete, .complete, .signing, .building].map fun status =>
    { Checkpoint.new firstSigset with status }
  head := buildingIndex - 3
  buildingIndex
  confirmedIndex
  firstUnhandledConfirmedIndex := 0

def checkpointWith (status : CheckpointStatus) : Checkpoint :=
  { Checkpoint.new firstSigset with status }

theorem laidOut_queueUpTo {buildingIndex : Nat} (lower : 3 ≤ buildingIndex)
    (upper : buildingIndex < 2 ^ 32) {confirmedIndex : Option Nat}
    (confirmed : ∀ index ∈ confirmedIndex, index + 3 = buildingIndex) :
    (queueUpTo buildingIndex confirmedIndex).LaidOut
      [checkpointWith .complete, checkpointWith .complete] (some (checkpointWith .signing))
      (checkpointWith .building) where
  checkpoints_eq := rfl
  complete := by decide
  signing := by decide
  building := rfl
  reaches := by simpa [queueUpTo] using lower
  index_lt := upper
  confirmed_ge index isConfirmed := by
    have last := confirmed index isConfirmed
    simp only [queueUpTo, List.length_map, List.length_cons, List.length_nil]
    omega
  confirmed_lt index isConfirmed := by
    have last := confirmed index isConfirmed
    simp only [queueUpTo, Option.toList_some, List.length_singleton]
    omega

end Sample

/-- After pruning and a confirmation, one checkpoint is open. -/
theorem QueueStore.LaidOut.indexesAgree_sample :
    (Sample.queueUpTo 9 (some 6)).IndexesAgree :=
  (QueueStore.LaidOut.indexesAgree_iff
    (Sample.laidOut_queueUpTo (by decide) (by decide) (by decide))).mpr (by decide)

example : (Sample.queueUpTo 9 (some 6)).numUnconfirmed = .ok 1 ∧
    (Sample.queueUpTo 9 (some 6)).firstUnconfirmedIndex = .ok (some 7) := by decide +kernel

/-- At the last index of 32 bits every reader panics. -/
theorem QueueStore.LaidOut.indexes_overflow :
    let queue := Sample.queueUpTo (2 ^ 32 - 1) none
    queue.LaidOut [Sample.checkpointWith .complete, Sample.checkpointWith .complete]
        (some (Sample.checkpointWith .signing)) (Sample.checkpointWith .building) ∧
      queue.numUnconfirmed = Outcome.abort ∧ queue.firstUnconfirmedIndex = Outcome.abort ∧
      queue.unconfirmed = Outcome.abort ∧ queue.completed 1 = Outcome.abort ∧
      ¬ queue.IndexesAgree := by
  intro queue
  have overflows : queue.numUnconfirmed = Outcome.abort := by decide +kernel
  refine ⟨Sample.laidOut_queueUpTo (by decide) (by decide) (by decide), overflows,
    by decide +kernel, by decide +kernel, by decide +kernel, fun agree => ?_⟩
  exact Outcome.abort_ne_ok (overflows.symm.trans agree.numUnconfirmed)

end CwBitcoin
