import CwBitcoin.DequeExtension
import CwBitcoin.QueueAccess

/-!
# The checkpoint deque in raw storage

The library reads element `i` from the cell at `head + i`, but `set` writes the
cell with number `i`.  The two agree exactly while the head is zero, or when
the write changes no element.  The checkpoint queue inherits the difference,
since pruning pops at the front.  Its list of checkpoints with the position of
the head says what the storage reads after every push, prune and write.
-/

namespace CwBitcoin

variable {α : Type}

/-- The write overwrites the element at its index and no other one. -/
def DequeExtension.SetInPlace (deque : DequeExtension) (storage : DequeStorage α)
    (position : BitVec 32) (value : α) : Prop :=
  storage.head = 0 ∨ (deque.queue.get storage position = some value ∧
    ∀ index < Deque.len storage, storage.head + index = position →
      deque.queue.get storage index = some value)

/-- `set` acts as a write to a list. -/
def DequeExtension.SetActs (deque : DequeExtension) (storage : DequeStorage α)
    (position : BitVec 32) (value : α) : Prop :=
  Deque.len (deque.set storage position value) = Deque.len storage ∧
    ∀ index, deque.queue.get (deque.set storage position value) index =
      if index = position then some value else deque.queue.get storage index

theorem Deque.get_view (deque : Deque) (storage : DequeStorage α) (index : BitVec 32) :
    deque.get storage index = (deque.view storage).get index :=
  rfl

theorem DequeExtension.setActs_iff (namespaceBytes : Bytes) {storage : DequeStorage α}
    {position : BitVec 32} (inRange : position < Deque.len storage) (value : α) :
    (new namespaceBytes).SetActs storage position value ↔
      (new namespaceBytes).SetInPlace storage position value := by
  have lenEq : Deque.len ((new namespaceBytes).set storage position value) = Deque.len storage := rfl
  simp only [SetActs, lenEq, true_and, Deque.get_view, view_set, SetInPlace]
  exact RingDeque.get_writeCell_iff inRange

namespace CheckpointQueue

def CHECKPOINTS : DequeExtension := DequeExtension.new (utf8 "checkpoints")

def get (storage : DequeStorage Checkpoint) (buildingIndex index : Nat) :
    ContractResult Checkpoint := do
  let position ← getDequeIndex buildingIndex (Deque.len storage).toNat index
  Outcome.getOr Outcome.abort (CHECKPOINTS.queue.get storage (BitVec.ofNat 32 position))

def set (storage : DequeStorage Checkpoint) (buildingIndex index : Nat) (checkpoint : Checkpoint) :
    ContractResult (DequeStorage Checkpoint) := do
  let position ← getDequeIndex buildingIndex (Deque.len storage).toNat index
  return CHECKPOINTS.set storage (BitVec.ofNat 32 position) checkpoint

end CheckpointQueue

namespace CheckpointQueue

section Set

variable {storage after : DequeStorage Checkpoint} {buildingIndex index : Nat}
  {checkpoint : Checkpoint}

/-- The index of the oldest checkpoint. -/
def start (storage : DequeStorage Checkpoint) (buildingIndex : Nat) : Nat :=
  buildingIndex + 1 - (Deque.len storage).toNat

/-- The indexes of the checkpoints in the queue. -/
structure InQueue (storage : DequeStorage Checkpoint) (buildingIndex index : Nat) : Prop where
  fits : buildingIndex + 1 < 2 ^ 32
  enough : (Deque.len storage).toNat ≤ buildingIndex + 1
  lower : start storage buildingIndex ≤ index
  upper : index ≤ buildingIndex

/-- The place of an index in the deque. -/
def position (storage : DequeStorage Checkpoint) (buildingIndex index : Nat) : BitVec 32 :=
  BitVec.ofNat 32 (index - start storage buildingIndex)

theorem InQueue.dequeIndex (inQueue : InQueue storage buildingIndex index) :
    getDequeIndex buildingIndex (Deque.len storage).toNat index =
      .ok (index - start storage buildingIndex) :=
  getDequeIndex_eq_ok.mpr ⟨inQueue.fits, inQueue.enough, inQueue.upper, inQueue.lower, rfl⟩

theorem InQueue.set_eq (inQueue : InQueue storage buildingIndex index) :
    set storage buildingIndex index checkpoint =
      .ok (CHECKPOINTS.set storage (position storage buildingIndex index) checkpoint) := by
  simp only [set, inQueue.dequeIndex]
  rfl

theorem InQueue.get_eq (inQueue : InQueue storage buildingIndex index) :
    get storage buildingIndex index = Outcome.getOr Outcome.abort
      (CHECKPOINTS.queue.get storage (position storage buildingIndex index)) := by
  simp only [get, inQueue.dequeIndex]
  rfl

theorem get_out_of_queue (beyond : ¬ InQueue storage buildingIndex index)
    (sameLen : Deque.len after = Deque.len storage) :
    get after buildingIndex index = get storage buildingIndex index := by
  simp only [get, sameLen]
  cases found : getDequeIndex buildingIndex (Deque.len storage).toNat index with
  | error fault => rfl
  | ok position =>
      obtain ⟨fits, enough, upper, lower, -⟩ := getDequeIndex_eq_ok.mp found
      exact absurd ⟨fits, enough, lower, upper⟩ beyond

theorem InQueue.position_toNat (inQueue : InQueue storage buildingIndex index) :
    (position storage buildingIndex index).toNat = index - start storage buildingIndex := by
  have := inQueue.fits
  have := inQueue.upper
  rw [position, BitVec.toNat_ofNat, Nat.mod_eq_of_lt (by omega)]

theorem InQueue.position_lt (inQueue : InQueue storage buildingIndex index) :
    position storage buildingIndex index < Deque.len storage := by
  have := inQueue.enough
  have := inQueue.upper
  have := inQueue.lower
  have startEq : start storage buildingIndex =
    buildingIndex + 1 - (Deque.len storage).toNat := rfl
  rw [BitVec.lt_def, inQueue.position_toNat]
  omega

/-- Every place in the deque belongs to an index. -/
theorem InQueue.exists_position (inQueue : InQueue storage buildingIndex index)
    {place : BitVec 32} (live : place < Deque.len storage) :
    ∃ other, InQueue storage buildingIndex other ∧ position storage buildingIndex other = place := by
  have enough := inQueue.enough
  have startEq : start storage buildingIndex =
    buildingIndex + 1 - (Deque.len storage).toNat := rfl
  rw [BitVec.lt_def] at live
  have other : InQueue storage buildingIndex (start storage buildingIndex + place.toNat) :=
    ⟨inQueue.fits, enough, by omega, by omega⟩
  refine ⟨_, other, BitVec.eq_of_toNat_eq ?_⟩
  rw [other.position_toNat]
  omega

theorem InQueue.position_eq_iff (inQueue : InQueue storage buildingIndex index) {other : Nat}
    (otherIn : InQueue storage buildingIndex other) :
    position storage buildingIndex other = position storage buildingIndex index ↔
      other = index := by
  rw [← BitVec.toNat_inj, inQueue.position_toNat, otherIn.position_toNat]
  have := inQueue.lower
  have := otherIn.lower
  omega

/-- A `set` that is read back by `get` and changes no other checkpoint. -/
def SetReadsBack (storage : DequeStorage Checkpoint) (buildingIndex index : Nat)
    (checkpoint : Checkpoint) : Prop :=
  ∃ after, set storage buildingIndex index checkpoint = .ok after ∧
    ∀ other, get after buildingIndex other =
      if other = index then .ok checkpoint else get storage buildingIndex other

theorem InQueue.setReadsBack_iff (inQueue : InQueue storage buildingIndex index) :
    SetReadsBack storage buildingIndex index checkpoint ↔
      CHECKPOINTS.SetInPlace storage (position storage buildingIndex index) checkpoint := by
  have sameLen : Deque.len (CHECKPOINTS.set storage (position storage buildingIndex index)
    checkpoint) = Deque.len storage := rfl
  have inAfter {other : Nat} (otherIn : InQueue storage buildingIndex other) :
      InQueue (CHECKPOINTS.set storage (position storage buildingIndex index) checkpoint)
        buildingIndex other :=
    ⟨otherIn.fits, otherIn.enough, otherIn.lower, otherIn.upper⟩
  have samePosition (other : Nat) :
      position (CHECKPOINTS.set storage (position storage buildingIndex index) checkpoint)
        buildingIndex other = position storage buildingIndex other := rfl
  have acts := DequeExtension.setActs_iff (utf8 "checkpoints") inQueue.position_lt checkpoint
  rw [CHECKPOINTS, ← acts]
  constructor
  · rintro ⟨after, wrote, reads⟩
    rw [inQueue.set_eq] at wrote
    obtain rfl := Except.ok.inj wrote
    refine ⟨rfl, fun place => ?_⟩
    by_cases live : place < Deque.len storage
    · obtain ⟨other, otherIn, rfl⟩ := inQueue.exists_position live
      have atOther := reads other
      rw [(inAfter otherIn).get_eq, otherIn.get_eq, samePosition] at atOther
      have same := inQueue.position_eq_iff otherIn
      by_cases atIndex : other = index
      · rw [if_pos atIndex, Outcome.getOr_abort_eq_ok] at atOther
        rw [if_pos (same.mpr atIndex)]
        exact atOther
      · rw [if_neg atIndex] at atOther
        rw [if_neg (mt same.mp atIndex)]
        exact Outcome.getOr_abort_injective atOther
    · have elsewhere : place ≠ position storage buildingIndex index := by
        rintro rfl
        exact live inQueue.position_lt
      rw [if_neg elsewhere, Deque.get, Deque.get, if_neg live]
      exact if_neg live
  · rintro ⟨-, reads⟩
    refine ⟨_, inQueue.set_eq, fun other => ?_⟩
    by_cases otherIn : InQueue storage buildingIndex other
    · rw [(inAfter otherIn).get_eq, otherIn.get_eq, samePosition, CHECKPOINTS, reads]
      simp only [inQueue.position_eq_iff otherIn]
      split <;> rfl
    · have elsewhere : other ≠ index := by
        rintro rfl
        exact otherIn inQueue
      rw [if_neg elsewhere]
      exact get_out_of_queue otherIn sameLen

end Set

section Stores

variable {storage : DequeStorage Checkpoint} {queue : QueueStore}

/-- The storage holds the checkpoints of the queue from its head on.  What the cells below
the head hold does not matter. -/
structure Stores (storage : DequeStorage Checkpoint) (queue : QueueStore) : Prop where
  reads : (CHECKPOINTS.queue.view storage).Reads queue.checkpoints
  head_eq : storage.head.toNat = queue.head
  fits : queue.head + queue.checkpoints.length ≤ 2 ^ 32

theorem Stores.len_eq (stores : Stores storage queue) :
    (Deque.len storage).toNat = queue.checkpoints.length :=
  stores.reads.len_eq

theorem Stores.get (stores : Stores storage queue) (index : Nat) :
    CheckpointQueue.get storage queue.buildingIndex index = queue.get index := by
  simp only [CheckpointQueue.get, QueueStore.get, stores.len_eq]
  apply Outcome.bind_congr
  intro position found
  obtain ⟨fits, -, upper, -, rfl⟩ := getDequeIndex_eq_ok.mp found
  have read := stores.reads.get_eq (BitVec.ofNat 32
    (index - (queue.buildingIndex + 1 - queue.checkpoints.length)))
  rw [BitVec.toNat_ofNat, Nat.mod_eq_of_lt (by omega)] at read
  rw [Deque.get_view, read]

/-- The raw key of a position below the head belongs to a cell behind all elements. -/
theorem Stores.write (stores : Stores storage queue) {position : Nat} (inWidth : position < 2 ^ 32)
    (checkpoint : Checkpoint) :
    Stores (CHECKPOINTS.set storage (BitVec.ofNat 32 position) checkpoint) { queue with
      checkpoints := DequeSet.rawKey.write queue.checkpoints queue.head position checkpoint } := by
  have written := stores.reads.writeCell (BitVec.ofNat 32 position) checkpoint
  have headLt : queue.head < 2 ^ 32 := stores.head_eq ▸ storage.head.isLt
  have distance : RingDeque.offset (CHECKPOINTS.queue.view storage).head
      (BitVec.ofNat 32 position) = (2 ^ 32 - queue.head + position) % 2 ^ 32 := by
    rw [RingDeque.offset, BitVec.toNat_sub, BitVec.toNat_ofNat, Nat.mod_eq_of_lt inWidth]
    exact congrArg (fun head => (2 ^ 32 - head + position) % 2 ^ 32) stores.head_eq
  have sameItems : queue.checkpoints.set (RingDeque.offset (CHECKPOINTS.queue.view storage).head
      (BitVec.ofNat 32 position)) checkpoint =
        DequeSet.rawKey.write queue.checkpoints queue.head position checkpoint := by
    have fits := stores.fits
    simp only [DequeSet.write]
    split
    · rw [distance, List.set_eq_of_length_le]
      omega
    · rw [distance]
      congr 1
      omega
  refine ⟨?_, stores.head_eq, ?_⟩
  · rw [← sameItems, CHECKPOINTS, DequeExtension.view_set]
    exact written
  · rw [← sameItems, List.length_set]
    exact stores.fits

/-- `set` of the source and the raw write of the queue fail alike and keep the
storage and the queue in step. -/
theorem Stores.set (stores : Stores storage queue) (index : Nat) (checkpoint : Checkpoint) :
    (∃ after queueAfter,
      CheckpointQueue.set storage queue.buildingIndex index checkpoint = .ok after ∧
      queue.set index checkpoint .rawKey = .ok queueAfter ∧ Stores after queueAfter) ∨
    ∃ fault, CheckpointQueue.set storage queue.buildingIndex index checkpoint = .error fault ∧
      queue.set index checkpoint .rawKey = .error fault := by
  simp only [CheckpointQueue.set, QueueStore.set, stores.len_eq]
  cases found : getDequeIndex queue.buildingIndex queue.checkpoints.length index with
  | error fault => exact Or.inr ⟨fault, rfl, rfl⟩
  | ok position =>
      obtain ⟨fits, -, upper, -, rfl⟩ := getDequeIndex_eq_ok.mp found
      exact Or.inl ⟨_, _, rfl, rfl, stores.write (by omega) checkpoint⟩

theorem Stores.pushBack (stores : Stores storage queue)
    (room : queue.head + queue.checkpoints.length + 1 < 2 ^ 32) (checkpoint : Checkpoint) :
    Stores (CHECKPOINTS.queue.pushBack storage checkpoint)
      { queue with checkpoints := queue.checkpoints ++ [checkpoint] } where
  reads := by
    rw [Deque.view_pushBack]
    exact stores.reads.pushBack (by omega) checkpoint
  head_eq := stores.head_eq
  fits := by simpa [Nat.add_assoc] using room.le

/-- Pruning moves the head. -/
theorem Stores.prune (stores : Stores storage queue) {count : Nat}
    (enough : count ≤ queue.checkpoints.length)
    (room : queue.head + queue.checkpoints.length < 2 ^ 32) :
    Stores (CHECKPOINTS.queue.popFront^[count] storage) { queue with
      head := queue.head + count
      checkpoints := queue.checkpoints.drop count } := by
  induction count generalizing storage queue with
  | zero => exact stores
  | succ count ih =>
      have nonempty : 0 < queue.checkpoints.length := by omega
      obtain ⟨oldest, rest, split⟩ := List.exists_cons_of_length_pos nonempty
      have reads := stores.reads
      rw [split] at reads
      rw [split, List.length_cons] at enough room
      have popped : Stores (CHECKPOINTS.queue.popFront storage)
          { queue with head := queue.head + 1, checkpoints := rest } := by
        refine ⟨by rw [Deque.view_popFront]; exact reads.popFront, ?_, by simp; omega⟩
        have headAfter : (CHECKPOINTS.queue.popFront storage).head = storage.head + 1 := by
          have moved := reads.popFront_eq
          rw [← Deque.view_popFront] at moved
          exact congrArg RingDeque.head moved
        rw [headAfter, BitVec.toNat_add, stores.head_eq]
        simp
        omega
      have later := ih popped (by simp; omega) (by simp; omega)
      rw [Function.iterate_succ_apply]
      simpa [split, Nat.add_assoc, Nat.add_comm 1] using later

end Stores

end CheckpointQueue

/-- A run that pushes within the capacity and sets in range while the head is
zero acts as on a list.  What `set` does next, in the deque and through the
checkpoint queue, is a list write exactly when it happens in place. -/
theorem DequeExtension.run_acts_as_list (namespaceBytes : Bytes) (ops : List (DequeOp α))
    (permitted : (new namespaceBytes).machine.Permitted SetsAtZeroHead emptyStorage ops) :
    ((Deque.len ((new namespaceBytes).machine.run emptyStorage ops)).toNat =
        (ops.foldl DequeOp.onList []).length ∧
      (∀ index, (new namespaceBytes).queue.get
          ((new namespaceBytes).machine.run emptyStorage ops) index =
        (ops.foldl DequeOp.onList [])[index.toNat]?) ∧
      ∀ position value,
        position < Deque.len ((new namespaceBytes).machine.run emptyStorage ops) →
        ((new namespaceBytes).SetActs ((new namespaceBytes).machine.run emptyStorage ops)
            position value ↔
          (new namespaceBytes).SetInPlace ((new namespaceBytes).machine.run emptyStorage ops)
            position value)) ∧
    ∀ (storage : DequeStorage Checkpoint) (buildingIndex index : Nat) (checkpoint : Checkpoint),
      CheckpointQueue.InQueue storage buildingIndex index →
        (CheckpointQueue.SetReadsBack storage buildingIndex index checkpoint ↔
          CheckpointQueue.CHECKPOINTS.SetInPlace storage
            (CheckpointQueue.position storage buildingIndex index) checkpoint) := by
  have represents := represents_run permitted
  refine ⟨⟨represents.len_toNat, fun index => represents.get_eq index,
    fun position value inRange => setActs_iff namespaceBytes inRange value⟩, ?_⟩
  intro storage buildingIndex index checkpoint inQueue
  exact inQueue.setReadsBack_iff

namespace Sample

def dequeOps : List (DequeOp Nat) := [.pushBack 1, .pushBack 2, .set 0 7, .popFront]

def checkpointOf (createTime : Nat) : Checkpoint :=
  Checkpoint.new { createTime, presentVp := 0, possibleVp := 0, index := 0, signatories := [] }

/-- The storage of a queue with one checkpoint. -/
def oneCheckpoint : DequeStorage Checkpoint :=
  CheckpointQueue.CHECKPOINTS.queue.pushBack DequeExtension.emptyStorage (checkpointOf 1)

end Sample

theorem DequeExtension.run_acts_as_list_sample :
    (new []).queue.get ((new []).machine.run emptyStorage Sample.dequeOps) 0 = some 2 ∧
      CheckpointQueue.SetReadsBack Sample.oneCheckpoint 0 0 (Sample.checkpointOf 2) := by
  have acts := run_acts_as_list [] Sample.dequeOps (by decide +kernel)
  have inQueue : CheckpointQueue.InQueue Sample.oneCheckpoint 0 0 :=
    ⟨by decide, by decide, by decide, by decide⟩
  exact ⟨(acts.1.2.1 0).trans (by decide), (acts.2 _ 0 0 _ inQueue).mpr (Or.inl rfl)⟩

/-- After an element has been popped at the front, a write to the first one is
lost. -/
theorem DequeExtension.set_lost_after_popFront :
    ¬ ∀ (ops : List (DequeOp Nat)) (position : BitVec 32) (value : Nat),
      position < Deque.len ((new (utf8 "checkpoints")).machine.run emptyStorage ops) →
      (new (utf8 "checkpoints")).queue.get ((new (utf8 "checkpoints")).set
        ((new (utf8 "checkpoints")).machine.run emptyStorage ops) position value) position =
          some value := by
  intro acts
  have lost := acts [.pushBack 1, .pushBack 2, .popFront] 0 7 (by decide +kernel)
  revert lost
  decide +kernel

end CwBitcoin
