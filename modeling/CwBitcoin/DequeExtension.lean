import CwBitcoin.Error
import CwBitcoin.Library.Bytes
import CwBitcoin.Library.CallMachine
import CwBitcoin.Library.RingDeque

/-!
# The stored deque and its positional write

`DequeExtension` takes its end operations and its indexed read from the
storage library's `Deque`, which keeps element `i` under the key of position
`head + i`.  It adds `clear` and `set`, and `set` computes a storage key by
itself.  This file models both on raw storage keys and compares every run of
them with a list.
-/

namespace CwBitcoin

/-- The storage of one deque: elements under raw keys, and the stored ends,
which read as zero before they are first written. -/
structure DequeStorage (α : Type) where
  items : Bytes → Option α
  head : BitVec 32
  tail : BitVec 32

/-- The storage library's deque, which only knows its namespace. -/
structure Deque where
  namespaceBytes : Bytes

namespace Deque

variable {α : Type}

/-- The raw key of a position: length-prefixed namespace, then the position. -/
def itemKey (deque : Deque) (position : BitVec 32) : Bytes :=
  Bytes.be 2 deque.namespaceBytes.length ++ deque.namespaceBytes ++ Bytes.be 4 position.toNat

def setUnchecked (deque : Deque) (storage : DequeStorage α) (position : BitVec 32)
    (value : Option α) : DequeStorage α :=
  { storage with items := Function.update storage.items (deque.itemKey position) value }

def getUnchecked (deque : Deque) (storage : DequeStorage α) (position : BitVec 32) : Option α :=
  storage.items (deque.itemKey position)

def pushBack (deque : Deque) (storage : DequeStorage α) (value : α) : DequeStorage α :=
  { deque.setUnchecked storage storage.tail (some value) with tail := storage.tail + 1 }

def pushFront (deque : Deque) (storage : DequeStorage α) (value : α) : DequeStorage α :=
  { deque.setUnchecked storage (storage.head - 1) (some value) with head := storage.head - 1 }

def popBack (deque : Deque) (storage : DequeStorage α) : DequeStorage α :=
  match deque.getUnchecked storage (storage.tail - 1) with
  | some _ =>
      { deque.setUnchecked storage (storage.tail - 1) none with tail := storage.tail - 1 }
  | none => storage

def popFront (deque : Deque) (storage : DequeStorage α) : DequeStorage α :=
  match deque.getUnchecked storage storage.head with
  | some _ => { deque.setUnchecked storage storage.head none with head := storage.head + 1 }
  | none => storage

/-- The stored length. -/
def len (storage : DequeStorage α) : BitVec 32 := storage.tail - storage.head

def get (deque : Deque) (storage : DequeStorage α) (index : BitVec 32) : Option α :=
  if index < len storage then deque.getUnchecked storage (storage.head + index) else none

end Deque

/-- The contract's deque: the library's, with a key prefix of its own. -/
structure DequeExtension where
  keyPrefix : Bytes
  namespaceBytes : Bytes
  queue : Deque

namespace DequeExtension

variable {α : Type}

def new (namespaceBytes : Bytes) : DequeExtension where
  namespaceBytes := namespaceBytes
  keyPrefix := Bytes.be 2 namespaceBytes.length
  queue := ⟨namespaceBytes⟩

/-- Pop from the back as many times as there are elements. -/
def clear (deque : DequeExtension) (storage : DequeStorage α) : DequeStorage α :=
  deque.queue.popBack^[(Deque.len storage).toNat] storage

def getKey (deque : DequeExtension) (position : BitVec 32) : Bytes :=
  deque.keyPrefix ++ deque.namespaceBytes ++ Bytes.be 4 position.toNat

/-- Write under the key of the index itself, whatever the head is. -/
def set (deque : DequeExtension) (storage : DequeStorage α) (position : BitVec 32) (value : α) :
    DequeStorage α :=
  { storage with items := Function.update storage.items (deque.getKey position) (some value) }

end DequeExtension

section View

variable {α : Type} {deque : Deque} {storage : DequeStorage α}

theorem Deque.itemKey_injective (deque : Deque) : Function.Injective deque.itemKey := by
  intro first second equal
  have bytesEq := List.append_cancel_left equal
  exact BitVec.eq_of_toNat_eq (Bytes.be_injective first.isLt second.isLt bytesEq)

/-- The element cells of the deque, numbered by position. -/
def Deque.view (deque : Deque) (storage : DequeStorage α) : RingDeque 32 α where
  cells position := storage.items (deque.itemKey position)
  head := storage.head
  tail := storage.tail

theorem Deque.view_setUnchecked (deque : Deque) (storage : DequeStorage α) (position : BitVec 32) (value : Option α) :
    deque.view (deque.setUnchecked storage position value) =
      (deque.view storage).writeCell position value := by
  simp only [view, setUnchecked, RingDeque.writeCell, RingDeque.mk.injEq, and_true]
  funext other
  simp only [Function.update_apply, deque.itemKey_injective.eq_iff]

theorem Deque.view_pushBack (value : α) :
    deque.view (deque.pushBack storage value) = (deque.view storage).pushBack value :=
  congrArg (fun ring : RingDeque 32 α => { ring with tail := storage.tail + 1 })
    (view_setUnchecked _ _ storage.tail (some value))

theorem Deque.view_pushFront (value : α) :
    deque.view (deque.pushFront storage value) = (deque.view storage).pushFront value :=
  congrArg (fun ring : RingDeque 32 α => { ring with head := storage.head - 1 })
    (view_setUnchecked _ _ (storage.head - 1) (some value))

theorem Deque.view_popBack :
    deque.view (deque.popBack storage) = (deque.view storage).popBack := by
  have written := deque.view_setUnchecked storage (storage.tail - 1) none
  cases cell : storage.items (deque.itemKey (storage.tail - 1)) with
  | none => simp only [popBack, RingDeque.popBack, view, getUnchecked, cell]
  | some last =>
      have viewCell : (deque.view storage).cells ((deque.view storage).tail - 1) = some last := cell
      simp only [popBack, RingDeque.popBack, getUnchecked, cell, viewCell]
      exact congrArg (fun ring : RingDeque 32 α => { ring with tail := storage.tail - 1 }) written

theorem Deque.view_popFront :
    deque.view (deque.popFront storage) = (deque.view storage).popFront := by
  have written := deque.view_setUnchecked storage storage.head none
  cases cell : storage.items (deque.itemKey storage.head) with
  | none => simp only [popFront, RingDeque.popFront, view, getUnchecked, cell]
  | some first =>
      have viewCell : (deque.view storage).cells (deque.view storage).head = some first := cell
      simp only [popFront, RingDeque.popFront, getUnchecked, cell, viewCell]
      exact congrArg (fun ring : RingDeque 32 α => { ring with head := storage.head + 1 }) written

/-- `set` writes the cell whose number is the index. -/
theorem DequeExtension.view_set (namespaceBytes : Bytes) (position : BitVec 32) (value : α) :
    (new namespaceBytes).queue.view ((new namespaceBytes).set storage position value) =
      ((new namespaceBytes).queue.view storage).writeCell position (some value) :=
  (new namespaceBytes).queue.view_setUnchecked storage position (some value)

end View

section Runs

variable {α : Type}

/-- The operations of a stored deque. -/
inductive DequeOp (α : Type) where
  | pushBack (value : α)
  | pushFront (value : α)
  | popBack
  | popFront
  | set (position : BitVec 32) (value : α)
  | clear
  deriving DecidableEq, Repr

/-- What each operation means on a list. -/
def DequeOp.onList (xs : List α) : DequeOp α → List α
  | .pushBack value => xs ++ [value]
  | .pushFront value => value :: xs
  | .popBack => xs.dropLast
  | .popFront => xs.tail
  | .set position value => xs.set position.toNat value
  | .clear => []

namespace DequeExtension

def apply (deque : DequeExtension) (storage : DequeStorage α) : DequeOp α → DequeStorage α
  | .pushBack value => deque.queue.pushBack storage value
  | .pushFront value => deque.queue.pushFront storage value
  | .popBack => deque.queue.popBack storage
  | .popFront => deque.queue.popFront storage
  | .set position value => deque.set storage position value
  | .clear => deque.clear storage

def machine (deque : DequeExtension) : CallMachine (DequeStorage α) (DequeOp α) ContractError where
  call storage op := .ok (deque.apply storage op)

def emptyStorage : DequeStorage α := ⟨fun _ => none, 0, 0⟩

theorem represents_emptyStorage (namespaceBytes : Bytes) :
    ((new namespaceBytes).queue.view (emptyStorage : DequeStorage α)).Represents [] :=
  RingDeque.represents_empty

/-- The elements pushed never exceed the library's documented capacity, and
`set` is only used in range while the stored head is zero. -/
def SetsAtZeroHead (storage : DequeStorage α) : DequeOp α → Prop
  | .pushBack _ | .pushFront _ => (Deque.len storage).toNat + 1 < 2 ^ 32
  | .set position _ => position < Deque.len storage ∧ storage.head = 0
  | .popBack | .popFront | .clear => True

instance (storage : DequeStorage α) : (op : DequeOp α) → Decidable (SetsAtZeroHead storage op)
  | .pushBack _ | .pushFront _ => inferInstanceAs (Decidable (_ < _))
  | .set _ _ => inferInstanceAs (Decidable (_ ∧ _))
  | .popBack | .popFront | .clear => .isTrue trivial

theorem represents_clear {deque : DequeExtension} {storage : DequeStorage α} {xs : List α}
    (represents : (deque.queue.view storage).Represents xs) :
    (deque.queue.view (deque.clear storage)).Represents [] := by
  have popped : ∀ count (ys : List α) (current : DequeStorage α),
      (deque.queue.view current).Represents ys →
        (deque.queue.view (deque.queue.popBack^[count] current)).Represents
          (ys.take (ys.length - count)) := by
    intro count
    induction count with
    | zero => intro ys current holds; simpa using holds
    | succ count ih =>
        intro ys current holds
        have step := holds.popBack
        rw [← Deque.view_popBack] at step
        have rest := ih _ _ step
        rw [List.dropLast_eq_take, List.take_take, List.length_take] at rest
        rw [Function.iterate_succ_apply]
        convert rest using 2
        omega
  have lenEq : (Deque.len storage).toNat = xs.length := represents.len_toNat
  have emptied := popped xs.length xs storage represents
  rw [Nat.sub_self, List.take_zero] at emptied
  rwa [clear, lenEq]

/-- One permitted operation acts on the represented list as its list meaning. -/
theorem represents_apply {namespaceBytes : Bytes} {storage : DequeStorage α} {xs : List α}
    (represents : ((new namespaceBytes).queue.view storage).Represents xs) {op : DequeOp α}
    (permitted : SetsAtZeroHead storage op) :
    ((new namespaceBytes).queue.view ((new namespaceBytes).apply storage op)).Represents
      (op.onList xs) := by
  have lenEq : (Deque.len storage).toNat = xs.length := represents.len_toNat
  cases op with
  | pushBack value =>
      rw [apply, Deque.view_pushBack]
      exact represents.pushBack (by rw [← lenEq]; exact permitted) value
  | pushFront value =>
      rw [apply, Deque.view_pushFront]
      exact represents.pushFront (by rw [← lenEq]; exact permitted) value
  | popBack =>
      rw [apply, Deque.view_popBack]
      exact represents.popBack
  | popFront =>
      rw [apply, Deque.view_popFront]
      exact represents.popFront
  | set position value =>
      obtain ⟨inRange, atZero⟩ := permitted
      have offsetEq : RingDeque.offset ((new namespaceBytes).queue.view storage).head position =
          position.toNat := by
        simp [RingDeque.offset, Deque.view, atZero]
      have written := represents.writeCell
        (by rw [offsetEq, ← lenEq]; exact inRange) value
      rw [offsetEq] at written
      rw [apply, view_set]
      exact written
  | clear => exact represents_clear represents

/-- A run whose writes are in place represents the list the operations build. -/
theorem represents_run {namespaceBytes : Bytes} {ops : List (DequeOp α)}
    (permitted : (new namespaceBytes).machine.Permitted SetsAtZeroHead emptyStorage ops) :
    ((new namespaceBytes).queue.view ((new namespaceBytes).machine.run emptyStorage ops)).Represents
      (ops.foldl DequeOp.onList []) :=
  CallMachine.run_simulation (new namespaceBytes).machine
    (fun storage xs => ((new namespaceBytes).queue.view storage).Represents xs)
    DequeOp.onList (fun _ _ _ represents allowed => represents_apply represents allowed)
    (represents_emptyStorage namespaceBytes) permitted

end DequeExtension

end Runs

end CwBitcoin
