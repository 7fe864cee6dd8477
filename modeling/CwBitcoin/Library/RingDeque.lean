import Mathlib.Logic.Function.Basic
import Mathlib.Tactic.Ring

/-!
# Double-ended queues in a ring of numbered cells

A ring keeps its elements in cells numbered by words of a fixed width.  The
element `i` sits `i` cells after the head, wrapping around, and every other
cell is empty.  The file relates the four end operations, indexed access and a
write to a cell given by its number to operations on lists.
-/

/-- A deque whose element cells are numbered by words of width `w`. -/
structure RingDeque (w : Nat) (α : Type) where
  cells : BitVec w → Option α
  head : BitVec w
  tail : BitVec w

namespace RingDeque

variable {w : Nat} {α : Type}

/-- The deque without elements. -/
def empty : RingDeque w α := ⟨fun _ => none, 0, 0⟩

/-- The number of elements, in wrapping arithmetic. -/
def len (ring : RingDeque w α) : BitVec w := ring.tail - ring.head

/-- The element at the given index, if the index is in range. -/
def get (ring : RingDeque w α) (index : BitVec w) : Option α :=
  if index < ring.len then ring.cells (ring.head + index) else none

/-- Overwrite the cell with the given number. -/
def writeCell (ring : RingDeque w α) (position : BitVec w) (value : Option α) : RingDeque w α :=
  { ring with cells := Function.update ring.cells position value }

def pushBack (ring : RingDeque w α) (value : α) : RingDeque w α :=
  { ring.writeCell ring.tail (some value) with tail := ring.tail + 1 }

def pushFront (ring : RingDeque w α) (value : α) : RingDeque w α :=
  { ring.writeCell (ring.head - 1) (some value) with head := ring.head - 1 }

/-- Remove the last element.  Nothing changes when its cell is empty. -/
def popBack (ring : RingDeque w α) : RingDeque w α :=
  match ring.cells (ring.tail - 1) with
  | some _ => { ring.writeCell (ring.tail - 1) none with tail := ring.tail - 1 }
  | none => ring

/-- Remove the first element.  Nothing changes when its cell is empty. -/
def popFront (ring : RingDeque w α) : RingDeque w α :=
  match ring.cells ring.head with
  | some _ => { ring.writeCell ring.head none with head := ring.head + 1 }
  | none => ring

/-- How many cells after `head` a position is, wrapping around. -/
def offset (head position : BitVec w) : Nat := (position - head).toNat

/-- The ring holds exactly the elements of the list, in order from its head. -/
structure Represents (ring : RingDeque w α) (xs : List α) : Prop where
  length_lt : xs.length < 2 ^ w
  tail_eq : ring.tail = ring.head + BitVec.ofNat w xs.length
  cells_eq : ∀ position, ring.cells position = xs[offset ring.head position]?

theorem represents_empty : (empty : RingDeque w α).Represents [] :=
  ⟨by simp, by simp [empty], by simp [empty]⟩

theorem offset_lt (head position : BitVec w) : offset head position < 2 ^ w :=
  BitVec.isLt _

/-- The distance from the head determines a position. -/
theorem offset_eq_iff (head position : BitVec w) {n : Nat} (bound : n < 2 ^ w) :
    offset head position = n ↔ position = head + BitVec.ofNat w n := by
  unfold offset
  constructor
  · intro distance
    have wordEq : position - head = BitVec.ofNat w n := by
      rw [← distance, BitVec.ofNat_toNat, BitVec.setWidth_eq]
    rw [← wordEq, BitVec.add_comm, BitVec.sub_add_cancel]
  · rintro rfl
    rw [BitVec.add_comm, BitVec.add_sub_cancel, BitVec.toNat_ofNat, Nat.mod_eq_of_lt bound]

theorem offset_add (head index : BitVec w) : offset head (head + index) = index.toNat := by
  rw [offset, BitVec.add_comm, BitVec.add_sub_cancel]

theorem offset_self (head : BitVec w) : offset head head = 0 := by
  simp [offset]

theorem ofNat_succ_add (head : BitVec w) (n : Nat) :
    head + BitVec.ofNat w (1 + n) = head + 1 + BitVec.ofNat w n := by
  rw [BitVec.ofNat_add, ← BitVec.add_assoc]
  rfl

/-- Moving the head back by one cell puts every other position one further. -/
theorem offset_pred (head : BitVec w) {position : BitVec w} (elsewhere : position ≠ head - 1) :
    offset (head - 1) position = offset head position + 1 := by
  have fits : offset head position + 1 < 2 ^ w := by
    by_contra full
    have last : offset head position = 2 ^ w - 1 := by
      have := offset_lt head position
      omega
    apply elsewhere
    have wordEq := (offset_eq_iff head position (by have := Nat.two_pow_pos w; omega)).mp last
    rw [wordEq]
    apply BitVec.eq_of_toNat_eq
    have := head.isLt
    simp [BitVec.toNat_sub]
    rcases Nat.eq_zero_or_pos w with zero | positive
    · subst zero
      simp
    · have : 1 < 2 ^ w := Nat.one_lt_two_pow (by omega)
      rw [Nat.mod_eq_of_lt this, Nat.add_comm]
  rw [offset_eq_iff _ _ fits]
  have here := (offset_eq_iff _ _ (offset_lt head position)).mp rfl
  rw [Nat.add_comm, ofNat_succ_add]
  exact here.trans (congrArg (· + _) (BitVec.sub_add_cancel _ _).symm)

section Represents

variable {ring : RingDeque w α} {xs : List α}

theorem Represents.len_toNat (represents : ring.Represents xs) : ring.len.toNat = xs.length :=
  (offset_eq_iff _ _ represents.length_lt).mpr represents.tail_eq

theorem Represents.get_eq (represents : ring.Represents xs) (index : BitVec w) :
    ring.get index = xs[index.toNat]? := by
  have lenEq := represents.len_toNat
  simp only [get, represents.cells_eq, offset_add, BitVec.lt_def, lenEq]
  split
  · rfl
  · rw [List.getElem?_eq_none (by omega)]

theorem Represents.pushBack (represents : ring.Represents xs)
    (fits : xs.length + 1 < 2 ^ w) (value : α) :
    (ring.pushBack value).Represents (xs ++ [value]) where
  length_lt := by simpa using fits
  tail_eq := by
    simp [RingDeque.pushBack, writeCell, represents.tail_eq, BitVec.ofNat_add, BitVec.add_assoc]
  cells_eq position := by
    have atTail := offset_eq_iff ring.head position represents.length_lt
    rw [← represents.tail_eq] at atTail
    simp only [RingDeque.pushBack, writeCell, Function.update_apply, represents.cells_eq]
    split
    · rename_i same
      simp [atTail.mpr same]
    · rename_i elsewhere
      rw [List.getElem?_append]
      split
      · rfl
      · have beyond : offset ring.head position ≠ xs.length := mt atTail.mp elsewhere
        rw [List.getElem?_eq_none (by omega), List.getElem?_eq_none (by simp; omega)]

theorem Represents.pushFront (represents : ring.Represents xs)
    (fits : xs.length + 1 < 2 ^ w) (value : α) :
    (ring.pushFront value).Represents (value :: xs) where
  length_lt := by simpa using fits
  tail_eq := by
    rw [List.length_cons, BitVec.ofNat_add, BitVec.add_comm (BitVec.ofNat w xs.length)]
    simp only [RingDeque.pushFront, writeCell, represents.tail_eq, ← BitVec.add_assoc]
    exact congrArg (· + _) (BitVec.sub_add_cancel ring.head 1).symm
  cells_eq position := by
    simp only [RingDeque.pushFront, writeCell, Function.update_apply, represents.cells_eq]
    split
    · rename_i same
      simp [same, offset_self]
    · rename_i elsewhere
      rw [offset_pred _ elsewhere, List.getElem?_cons_succ]

/-- Popping the back drops the last element, if there is one. -/
theorem Represents.popBack (represents : ring.Represents xs) :
    ring.popBack.Represents xs.dropLast := by
  rcases List.eq_nil_or_concat xs with rfl | ⟨front, last, rfl⟩
  · have vacant : ring.cells (ring.tail - 1) = none := by simp [represents.cells_eq]
    simp only [RingDeque.popBack, vacant]
    exact represents
  · have lengthLt : front.length + 1 < 2 ^ w := by simpa using represents.length_lt
    have lastPosition : ring.tail - 1 = ring.head + BitVec.ofNat w front.length := by
      rw [represents.tail_eq, List.concat_eq_append, List.length_append, BitVec.ofNat_add,
        ← BitVec.add_assoc]
      exact BitVec.add_sub_cancel _ _
    have occupied : ring.cells (ring.tail - 1) = some last := by
      rw [represents.cells_eq, (offset_eq_iff _ _ (by omega)).mpr lastPosition]
      simp
    simp only [RingDeque.popBack, occupied, List.concat_eq_append, List.dropLast_concat]
    refine ⟨by omega, lastPosition, fun position => ?_⟩
    have atLast := offset_eq_iff ring.head position
      (by omega : front.length < 2 ^ w)
    rw [← lastPosition] at atLast
    simp only [writeCell, Function.update_apply, represents.cells_eq]
    split
    · rename_i same
      simp [atLast.mpr same]
    · rename_i elsewhere
      have beyond : offset ring.head position ≠ front.length := mt atLast.mp elsewhere
      rw [List.concat_eq_append, List.getElem?_append]
      split
      · rfl
      · rw [List.getElem?_eq_none (by simp; omega), List.getElem?_eq_none (by omega)]

/-- Popping the front drops the first element, if there is one. -/
theorem Represents.popFront (represents : ring.Represents xs) :
    ring.popFront.Represents xs.tail := by
  cases xs with
  | nil =>
      have vacant : ring.cells ring.head = none := by simp [represents.cells_eq]
      simp only [RingDeque.popFront, vacant]
      exact represents
  | cons first rest =>
      have occupied : ring.cells ring.head = some first := by
        simp [represents.cells_eq, offset_self]
      have lengthLt : rest.length + 1 < 2 ^ w := by simpa using represents.length_lt
      simp only [RingDeque.popFront, occupied, List.tail_cons]
      refine ⟨by omega, ?_, fun position => ?_⟩
      · rw [← ofNat_succ_add, Nat.add_comm]
        exact represents.tail_eq
      · simp only [writeCell, Function.update_apply, represents.cells_eq]
        have back : ring.head = ring.head + 1 - 1 := (BitVec.add_sub_cancel _ _).symm
        split
        · rename_i same
          symm
          apply List.getElem?_eq_none
          by_contra near
          -- A short distance from the next cell back to the head is a distance
          -- from the head to itself that is not zero.
          have around := (offset_eq_iff _ _ (offset_lt (ring.head + 1) position)).mp rfl
          rw [← ofNat_succ_add, ← offset_eq_iff _ _ (by omega), same, offset_self] at around
          omega
        · rename_i elsewhere
          have moved := offset_pred (ring.head + 1) (by rwa [← back])
          rw [← back] at moved
          rw [moved, List.getElem?_cons_succ]

/-- A write to an occupied cell replaces the element at its distance from the head. -/
theorem Represents.writeCell (represents : ring.Represents xs) {position : BitVec w}
    (inRange : offset ring.head position < xs.length) (value : α) :
    (ring.writeCell position (some value)).Represents
      (xs.set (offset ring.head position) value) where
  length_lt := by simpa using represents.length_lt
  tail_eq := by simpa [RingDeque.writeCell] using represents.tail_eq
  cells_eq other := by
    have sameOffset := offset_eq_iff ring.head other
      (offset_lt ring.head position)
    rw [← (offset_eq_iff _ _ (offset_lt ring.head position)).mp rfl] at sameOffset
    simp only [RingDeque.writeCell, Function.update_apply, represents.cells_eq]
    split
    · rename_i same
      rw [same, List.getElem?_set_self inRange]
    · rename_i elsewhere
      rw [List.getElem?_set_ne (fun equal => elsewhere (sameOffset.mp equal.symm))]

end Represents

section WriteCell

variable {ring : RingDeque w α} {position index : BitVec w} {value : α}

theorem get_of_not_lt (beyond : ¬ index < ring.len) : ring.get index = none :=
  if_neg beyond

theorem get_writeCell (live : index < ring.len) :
    (ring.writeCell position (some value)).get index =
      if ring.head + index = position then some value else ring.get index := by
  have stillLive : index < (ring.writeCell position (some value)).len := live
  rw [get, get, if_pos stillLive, if_pos live]
  simp only [writeCell, Function.update_apply]

/-- A write to the cell whose number is an index acts as a list write in two
cases: the head is zero, or the write changes no element. -/
theorem get_writeCell_iff (inRange : position < ring.len) :
    (∀ index, (ring.writeCell position (some value)).get index =
        if index = position then some value else ring.get index) ↔
      ring.head = 0 ∨ (ring.get position = some value ∧
        ∀ index < ring.len, ring.head + index = position → ring.get index = some value) := by
  constructor
  · intro acts
    rw [or_iff_not_imp_left]
    intro headNe
    have noFixpoint (index : BitVec w) : ring.head + index ≠ index := by
      intro fixpoint
      apply headNe
      have cancelled := congrArg (· - index) fixpoint
      simpa [BitVec.add_sub_cancel] using cancelled
    refine ⟨?_, fun index live hits => ?_⟩
    · have atPosition := acts position
      rwa [get_writeCell inRange, if_neg (noFixpoint position), if_pos rfl] at atPosition
    · have elsewhere : index ≠ position := by
        rintro rfl
        exact noFixpoint index hits
      have atIndex := acts index
      rw [get_writeCell live, if_pos hits, if_neg elsewhere] at atIndex
      exact atIndex.symm
  · intro inPlace index
    by_cases live : index < ring.len
    · rw [get_writeCell live]
      rcases inPlace with headEq | ⟨same, hitsSame⟩
      · rw [headEq, show (0 : BitVec w) + index = index from BitVec.zero_add index]
      · by_cases hits : ring.head + index = position
        · rw [if_pos hits, hitsSame index live hits, ite_self]
        · rw [if_neg hits]
          split
          · rename_i atPosition
            rw [atPosition, same]
          · rfl
    · have elsewhere : index ≠ position := by
        rintro rfl
        exact live inRange
      have stillBeyond : ¬ index < (ring.writeCell position (some value)).len := live
      rw [if_neg elsewhere, get_of_not_lt live, get_of_not_lt stillBeyond]

end WriteCell

section Reads

/-- What the ring reads at each index is the list.  The cells outside may hold anything. -/
structure Reads (ring : RingDeque w α) (xs : List α) : Prop where
  len_eq : ring.len.toNat = xs.length
  get_eq : ∀ index, ring.get index = xs[index.toNat]?

variable {ring : RingDeque w α} {xs : List α}

theorem Represents.reads (represents : ring.Represents xs) : ring.Reads xs :=
  ⟨represents.len_toNat, represents.get_eq⟩

theorem Reads.lt_len_iff (reads : ring.Reads xs) {index : BitVec w} :
    index < ring.len ↔ index.toNat < xs.length := by
  rw [BitVec.lt_def, reads.len_eq]

theorem head_add_eq_iff {head index position : BitVec w} :
    head + index = position ↔ index.toNat = offset head position := by
  rw [← offset_add head index]
  constructor
  · rintro rfl
    rfl
  · intro same
    have here := (offset_eq_iff head position (offset_lt head position)).mp rfl
    rwa [here, ← offset_eq_iff _ _ (offset_lt head position)]

/-- A write to any cell replaces the element at its distance from the head, if there
is one. -/
theorem Reads.writeCell (reads : ring.Reads xs) (position : BitVec w) (value : α) :
    (ring.writeCell position (some value)).Reads
      (xs.set (offset ring.head position) value) where
  len_eq := by
    rw [List.length_set]
    exact reads.len_eq
  get_eq index := by
    by_cases live : index < ring.len
    · rw [get_writeCell live, reads.get_eq, List.getElem?_set]
      have inRange := reads.lt_len_iff.mp live
      simp only [head_add_eq_iff, eq_comm (a := index.toNat)]
      split
      · rename_i same
        rw [if_pos (same ▸ inRange)]
      · rfl
    · rw [get_of_not_lt (show ¬ index < (ring.writeCell position (some value)).len from live),
        List.getElem?_eq_none]
      rw [List.length_set]
      exact Nat.le_of_not_lt (mt reads.lt_len_iff.mpr live)

theorem Reads.tail_eq (reads : ring.Reads xs) : ring.tail = ring.head + BitVec.ofNat w xs.length := by
  have fits : xs.length < 2 ^ w := reads.len_eq ▸ ring.len.isLt
  exact (offset_eq_iff _ _ fits).mp reads.len_eq

theorem Reads.pushBack (reads : ring.Reads xs) (fits : xs.length + 1 < 2 ^ w) (value : α) :
    (ring.pushBack value).Reads (xs ++ [value]) := by
  have lenEq : (ring.pushBack value).len.toNat = xs.length + 1 := by
    refine (offset_eq_iff ring.head (ring.tail + 1) fits).mpr ?_
    rw [reads.tail_eq, BitVec.ofNat_add, BitVec.add_assoc]
    rfl
  refine ⟨by simpa using lenEq, fun index => ?_⟩
  have tailOffset : offset ring.head ring.tail = xs.length := reads.len_eq
  simp only [get, BitVec.lt_def, lenEq]
  simp only [RingDeque.pushBack, RingDeque.writeCell, Function.update_apply, head_add_eq_iff,
    tailOffset]
  rcases Nat.lt_trichotomy index.toNat xs.length with live | last | beyond
  · have below := reads.get_eq index
    rw [get, if_pos (reads.lt_len_iff.mpr live)] at below
    rw [if_pos (by omega), if_neg (by omega), below, List.getElem?_append_left live]
  · rw [if_pos (by omega), if_pos last, last]
    simp
  · rw [if_neg (by omega), List.getElem?_eq_none (by simp; omega)]

theorem Reads.popFront_eq {first : α} (reads : ring.Reads (first :: xs)) :
    ring.popFront = { ring.writeCell ring.head none with head := ring.head + 1 } := by
  have atHead := reads.get_eq 0
  rw [get, if_pos (reads.lt_len_iff.mpr (by simp))] at atHead
  have occupied : ring.cells ring.head = some first := by simpa using atHead
  simp only [RingDeque.popFront, occupied]

/-- Popping the front moves the head to the next cell. -/
theorem Reads.popFront {first : α} (reads : ring.Reads (first :: xs)) : ring.popFront.Reads xs := by
  have fits : xs.length + 1 < 2 ^ w := by
    have := ring.len.isLt
    rwa [reads.len_eq] at this
  have popped := reads.popFront_eq
  have lenEq : ring.popFront.len.toNat = xs.length := by
    rw [popped]
    refine (offset_eq_iff (ring.head + 1) ring.tail (by omega)).mpr ?_
    rw [reads.tail_eq, List.length_cons, ← ofNat_succ_add, Nat.add_comm]
  refine ⟨lenEq, fun index => ?_⟩
  by_cases live : index.toNat < xs.length
  · have one : (1 : BitVec w).toNat = 1 := by
      have : 1 < 2 ^ w := by omega
      simp [Nat.mod_eq_of_lt this]
    have next : (1 + index).toNat = index.toNat + 1 := by
      rw [BitVec.toNat_add, one, Nat.mod_eq_of_lt (by omega), Nat.add_comm]
    have atNext := reads.get_eq (1 + index)
    rw [next, List.getElem?_cons_succ, get,
      if_pos (reads.lt_len_iff.mpr (by rw [next, List.length_cons]; omega))] at atNext
    have elsewhere : ring.head + (1 + index) ≠ ring.head := by
      rw [Ne, head_add_eq_iff, offset_self, next]
      omega
    simp only [get, BitVec.lt_def, lenEq, if_pos live]
    rw [popped, ← atNext]
    simp only [RingDeque.writeCell, BitVec.add_assoc, Function.update_of_ne elsewhere]
  · rw [get_of_not_lt (by rwa [BitVec.lt_def, lenEq]), List.getElem?_eq_none (by omega)]

end Reads

end RingDeque
