import CwBitcoin.CheckpointQueue
import CwBitcoin.CheckpointSteps
import CwBitcoin.Library.Window

/-!
# Access to the checkpoint queue

The queue is a window of the sequence of all checkpoints.  Reading, replacing,
pushing and pruning checkpoints are the operations of that window.
-/

namespace CwBitcoin

theorem getDequeIndex_eq_ok {buildingIndex queueLen index position : Nat} :
    getDequeIndex buildingIndex queueLen index = .ok position ↔
      buildingIndex + 1 < 2 ^ 32 ∧ queueLen ≤ buildingIndex + 1 ∧ index ≤ buildingIndex ∧
        buildingIndex + 1 - queueLen ≤ index ∧ index - (buildingIndex + 1 - queueLen) = position := by
  simp only [getDequeIndex, Outcome.bind_eq_ok, Outcome.checkedAdd_eq_ok, Outcome.checkedSub_eq_ok]
  constructor
  · rintro ⟨next, ⟨fits, rfl⟩, start, ⟨enough, rfl⟩, result⟩
    split at result
    · simp at result
    · exact ⟨fits, enough, by omega, by omega, Outcome.pure_eq_ok.mp result⟩
  · rintro ⟨fits, enough, upper, lower, rfl⟩
    refine ⟨_, ⟨fits, rfl⟩, _, ⟨enough, rfl⟩, ?_⟩
    rw [if_neg (by omega), Outcome.pure_eq_ok]

namespace QueueStore

def window (queue : QueueStore) : Window Checkpoint := ⟨queue.checkpoints, queue.buildingIndex⟩

/-- The indexes of the checkpoints are numbers of the right width. -/
structure Aligned (queue : QueueStore) : Prop where
  fits : queue.buildingIndex + 1 < 2 ^ 32
  window : queue.window.Aligned

/-- The queue with another checkpoint at the given index. -/
def put (queue : QueueStore) (index : Nat) (checkpoint : Checkpoint) : QueueStore :=
  { queue with checkpoints := (queue.window.put index checkpoint).items }

variable {queue after : QueueStore} {index : Nat} {checkpoint building : Checkpoint}
  {older : List Checkpoint}

theorem window_put : (queue.put index checkpoint).window = queue.window.put index checkpoint := rfl

theorem Aligned.put (aligned : queue.Aligned) : (queue.put index checkpoint).Aligned :=
  ⟨aligned.fits, aligned.window.put checkpoint⟩

theorem get_eq_ok :
    queue.get index = .ok checkpoint ↔
      queue.Aligned ∧ queue.window.item index = some checkpoint := by
  simp only [get, Outcome.bind_eq_ok, getDequeIndex_eq_ok, Outcome.getOr_abort_eq_ok]
  constructor
  · rintro ⟨position, ⟨fits, enough, upper, lower, rfl⟩, found⟩
    refine ⟨⟨fits, enough⟩, ?_⟩
    have notBelow : ¬ index < queue.window.first := Nat.not_lt.mpr lower
    rw [Window.item, if_neg notBelow]
    exact found
  · rintro ⟨aligned, found⟩
    exact ⟨_, ⟨aligned.fits, aligned.window, Window.le_last_of_item aligned.window found,
      Window.first_le_of_item found, rfl⟩, Window.getElem?_of_item found⟩

theorem set_eq_ok :
    queue.set index checkpoint = .ok after ↔
      queue.Aligned ∧ queue.window.first ≤ index ∧ index ≤ queue.buildingIndex ∧
        queue.put index checkpoint = after := by
  simp only [set, Outcome.bind_eq_ok, getDequeIndex_eq_ok, Outcome.pure_eq_ok]
  constructor
  · rintro ⟨position, ⟨fits, enough, upper, lower, rfl⟩, rfl⟩
    exact ⟨⟨fits, enough⟩, lower, upper, rfl⟩
  · rintro ⟨aligned, lower, upper, rfl⟩
    exact ⟨_, ⟨aligned.fits, aligned.window, upper, lower, rfl⟩, rfl⟩

theorem building_eq_ok :
    queue.building = .ok building ↔
      queue.Aligned ∧ ∃ older, queue.checkpoints = older ++ [building] := by
  rw [QueueStore.building, get_eq_ok]
  exact and_congr_right fun aligned => Window.item_last_iff aligned.window

theorem put_eq {checkpoints : List Checkpoint}
    (items : (queue.window.put index checkpoint).items = checkpoints) :
    queue.put index checkpoint = { queue with checkpoints } := by
  rw [put, items]

/-- A replaced checkpoint that looks the same leaves the queue looking the same. -/
theorem flatMap_put {β : Type} (f : Checkpoint → List β) {replacement : Checkpoint}
    (found : queue.window.item index = some checkpoint) (same : f replacement = f checkpoint) :
    (queue.put index replacement).checkpoints.flatMap f = queue.checkpoints.flatMap f := by
  obtain ⟨before, newer, -, itemsEq, putEq⟩ := Window.exists_split found
  have checkpointsEq : queue.checkpoints = before ++ checkpoint :: newer := itemsEq
  have replacedEq : (queue.put index replacement).checkpoints = before ++ replacement :: newer :=
    putEq replacement
  simp [checkpointsEq, replacedEq, same]

theorem flatMap_replaceBuilding {β : Type} (f : Checkpoint → List β) {replacement : Checkpoint}
    {added : List β} (split : queue.checkpoints = older ++ [building])
    (extended : f replacement = f building ++ added) :
    (older ++ [replacement]).flatMap f = queue.checkpoints.flatMap f ++ added := by
  simp [split, extended]

theorem put_building (aligned : queue.Aligned) (split : queue.checkpoints = older ++ [building])
    (replacement : Checkpoint) :
    queue.put queue.buildingIndex replacement =
      { queue with checkpoints := older ++ [replacement] } :=
  put_eq (Window.put_last aligned.window split replacement)

/-- The checkpoint under construction can be replaced. -/
theorem set_last (aligned : queue.Aligned) (split : queue.checkpoints = older ++ [building])
    (replacement : Checkpoint) :
    queue.set queue.buildingIndex replacement =
      .ok { queue with checkpoints := older ++ [replacement] } := by
  have found := Window.item_last aligned.window split
  exact set_eq_ok.mpr ⟨aligned, Window.first_le_of_item found, le_rfl,
    put_building aligned split replacement⟩

theorem set_building (split : queue.checkpoints = older ++ [building])
    (wrote : queue.set queue.buildingIndex checkpoint = .ok after) :
    after = { queue with checkpoints := older ++ [checkpoint] } := by
  obtain ⟨aligned, -, -, rfl⟩ := set_eq_ok.mp wrote
  exact put_building aligned split checkpoint

/-- The checkpoint before the last one, if it waits for signatures. -/
theorem signing_eq_ok {found : Option Checkpoint} (read : queue.signing = .ok found) :
    (queue.checkpoints.length < 2 ∧ found = none) ∨
      ∃ second, queue.Aligned ∧ 1 ≤ queue.buildingIndex ∧
        queue.window.item (queue.buildingIndex - 1) = some second ∧
        found = if second.status = .signing then some second else none := by
  simp only [signing] at read
  split at read
  · rename_i short
    exact Or.inl ⟨short, (Outcome.pure_eq_ok.mp read).symm⟩
  · simp only [Outcome.bind_eq_ok, Outcome.checkedSub_eq_ok, Outcome.pure_eq_ok] at read
    obtain ⟨index, ⟨positive, rfl⟩, second, got, result⟩ := read
    obtain ⟨aligned, item⟩ := get_eq_ok.mp got
    exact Or.inr ⟨second, aligned, positive, item, result.symm⟩

end QueueStore

end CwBitcoin
