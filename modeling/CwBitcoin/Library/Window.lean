import Mathlib.Data.List.Chain
import Mathlib.Data.List.TakeDrop
import Mathlib.Logic.Function.Basic

/-!
# Windows of a growing sequence

A window holds the latest items of a sequence, of which older ones have been
dropped.  Items keep the index at which they entered the sequence.
-/

/-- Consecutive items of a sequence with the index of the last one. -/
structure Window (α : Type) where
  items : List α
  last : Nat

namespace Window

variable {α : Type}

/-- The index of the first item. -/
def first (window : Window α) : Nat := window.last + 1 - window.items.length

/-- The item with the given index. -/
def item (window : Window α) (index : Nat) : Option α :=
  if index < window.first then none else window.items[index - window.first]?

/-- The window does not reach back before the start of the sequence. -/
def Aligned (window : Window α) : Prop := window.items.length ≤ window.last + 1

def put (window : Window α) (index : Nat) (item : α) : Window α :=
  { window with items := window.items.set (index - window.first) item }

def push (window : Window α) (item : α) : Window α :=
  { items := window.items ++ [item], last := window.last + 1 }

def drop (window : Window α) (count : Nat) : Window α :=
  { window with items := window.items.drop count }

variable {window : Window α} {index : Nat} {x : α}

theorem first_le_of_item (found : window.item index = some x) : window.first ≤ index := by
  by_contra below
  simp [item, Nat.lt_of_not_le below] at found

theorem getElem?_of_item (found : window.item index = some x) :
    window.items[index - window.first]? = some x := by
  rwa [item, if_neg (by have := first_le_of_item found; omega)] at found

theorem item_add (position : Nat) : window.item (window.first + position) = window.items[position]? := by
  rw [item, if_neg (by omega), Nat.add_sub_cancel_left]

theorem le_last_of_item (aligned : window.Aligned) (found : window.item index = some x) :
    index ≤ window.last := by
  have lower := first_le_of_item found
  have inRange := (List.getElem?_eq_some_iff.mp (getElem?_of_item found)).1
  unfold Aligned at aligned
  unfold first at lower inRange
  omega

theorem exists_item (aligned : window.Aligned) (lower : window.first ≤ index)
    (upper : index ≤ window.last) : ∃ x, window.item index = some x := by
  have inRange : index - window.first < window.items.length := by
    unfold Aligned at aligned
    unfold first at lower ⊢
    omega
  refine ⟨window.items[index - window.first], ?_⟩
  rw [item, if_neg (by omega), List.getElem?_eq_getElem inRange]

theorem mem_of_item (found : window.item index = some x) : x ∈ window.items :=
  List.mem_of_getElem? (getElem?_of_item found)

theorem exists_index (member : x ∈ window.items) : ∃ index, window.item index = some x := by
  obtain ⟨position, found⟩ := List.getElem?_of_mem member
  exact ⟨window.first + position, (item_add position).trans found⟩

theorem item_ne_of_empty (empty : window.items = []) : window.item index ≠ some x := by
  intro found
  have member := mem_of_item found
  rw [empty] at member
  cases member

/-- The last item of a non-empty window. -/
theorem item_last {older : List α} (aligned : window.Aligned)
    (split : window.items = older ++ [x]) : window.item window.last = some x := by
  have lengthEq : window.items.length = older.length + 1 := by simp [split]
  unfold Aligned at aligned
  have position : window.last = window.first + older.length := by
    unfold first
    omega
  rw [position, item_add, split]
  simp

theorem item_last_iff (aligned : window.Aligned) :
    window.item window.last = some x ↔ ∃ older, window.items = older ++ [x] := by
  constructor
  · intro found
    have lower := first_le_of_item found
    have nonempty : window.items ≠ [] := by
      intro empty
      simp only [first, empty, List.length_nil] at lower
      omega
    obtain ⟨older, y, split⟩ := List.eq_nil_or_concat window.items |>.resolve_left nonempty
    rw [List.concat_eq_append] at split
    rw [item_last aligned split] at found
    exact ⟨older, by rw [split, Option.some.inj found]⟩
  · rintro ⟨older, split⟩
    exact item_last aligned split

theorem exists_index_of_older {older : List α} {newest : α} (aligned : window.Aligned)
    (split : window.items = older ++ [newest]) (member : x ∈ older) :
    ∃ index, window.item index = some x ∧ index < window.last := by
  obtain ⟨position, found⟩ := List.getElem?_of_mem member
  have inRange := (List.getElem?_eq_some_iff.mp found).1
  have lengthEq : window.items.length = older.length + 1 := by simp [split]
  unfold Aligned at aligned
  refine ⟨window.first + position, ?_, ?_⟩
  · rw [item_add, split, List.getElem?_append_left inRange, found]
  · unfold first
    omega

@[simp]
theorem first_put (y : α) : (window.put index y).first = window.first := by
  simp [first, put]

theorem Aligned.put (aligned : window.Aligned) (y : α) : (window.put index y).Aligned := by
  simpa [Aligned, Window.put] using aligned

/-- A new item at one index leaves all others. -/
theorem item_put (found : window.item index = some x) (y : α) (other : Nat) :
    (window.put index y).item other = if other = index then some y else window.item other := by
  have lower := first_le_of_item found
  have inRange := (List.getElem?_eq_some_iff.mp (getElem?_of_item found)).1
  rw [item, first_put, put]
  by_cases below : other < window.first
  · rw [if_pos below, if_neg (by omega), item, if_pos below]
  · rw [if_neg below]
    by_cases same : other = index
    · rw [if_pos same, same, List.getElem?_set_self inRange]
    · rw [if_neg same, List.getElem?_set_ne (by omega), item, if_neg below]

/-- An item divides the window, and a new one takes its place. -/
theorem exists_split (found : window.item index = some x) :
    ∃ before after, before.length = index - window.first ∧ window.items = before ++ x :: after ∧
      ∀ y, (window.put index y).items = before ++ y :: after := by
  obtain ⟨inRange, itemEq⟩ := List.getElem?_eq_some_iff.mp (getElem?_of_item found)
  refine ⟨window.items.take (index - window.first), window.items.drop (index - window.first + 1),
    ?_, ?_, fun y => ?_⟩
  · rw [List.length_take, Nat.min_eq_left (Nat.le_of_lt inRange)]
  · rw [← itemEq, List.cons_getElem_drop_succ, List.take_append_drop]
  · rw [put, List.set_eq_take_append_cons_drop, if_pos inRange]

theorem put_last {older : List α} (aligned : window.Aligned)
    (split : window.items = older ++ [x]) (y : α) :
    (window.put window.last y).items = older ++ [y] := by
  have lengthEq : window.items.length = older.length + 1 := by simp [split]
  unfold Aligned at aligned
  have position : window.last - window.first = older.length := by
    unfold first
    omega
  rw [put, position, split]
  simp

theorem put_before_last {older : List α} {newest : α} (aligned : window.Aligned)
    (split : window.items = older ++ [x, newest]) (y : α) :
    (window.put (window.last - 1) y).items = older ++ [y, newest] := by
  have lengthEq : window.items.length = older.length + 2 := by simp [split]
  unfold Aligned at aligned
  have position : window.last - 1 - window.first = older.length := by
    unfold first
    omega
  rw [put, position, split]
  simp

theorem item_before_last {older : List α} {newest : α} (aligned : window.Aligned)
    (split : window.items = older ++ [x, newest]) : window.item (window.last - 1) = some x := by
  have lengthEq : window.items.length = older.length + 2 := by simp [split]
  unfold Aligned at aligned
  have position : window.last - 1 = window.first + older.length := by
    unfold first
    omega
  rw [position, item_add, split]
  simp

theorem first_push (aligned : window.Aligned) : (window.push x).first = window.first := by
  unfold Aligned at aligned
  simp only [first, push, List.length_append, List.length_singleton]
  omega

theorem Aligned.push (aligned : window.Aligned) : (window.push x).Aligned := by
  simpa [Aligned, Window.push] using aligned

theorem item_push (aligned : window.Aligned) (other : Nat) :
    (window.push x).item other = if other = window.last + 1 then some x else window.item other := by
  by_cases isLast : other = window.last + 1
  · rw [if_pos isLast, isLast]
    exact item_last aligned.push rfl
  · rw [if_neg isLast, item, first_push aligned, item]
    by_cases below : other < window.first
    · rw [if_pos below, if_pos below]
    · rw [if_neg below, if_neg below, push]
      unfold Aligned at aligned
      unfold first at below ⊢
      rcases Nat.lt_or_ge (other - (window.last + 1 - window.items.length)) window.items.length
        with inRange | beyond
      · rw [List.getElem?_append_left inRange]
      · rw [List.getElem?_eq_none (by simp; omega), List.getElem?_eq_none beyond]

theorem first_drop (aligned : window.Aligned) {count : Nat} (enough : count ≤ window.items.length) :
    (window.drop count).first = window.first + count := by
  unfold Aligned at aligned
  simp only [first, drop, List.length_drop]
  omega

/-- Dropping from the front forgets the items below the new first index. -/
theorem item_drop (aligned : window.Aligned) {count : Nat} (enough : count ≤ window.items.length)
    (other : Nat) :
    (window.drop count).item other =
      if other < window.first + count then none else window.item other := by
  rw [item, first_drop aligned enough]
  by_cases below : other < window.first + count
  · rw [if_pos below, if_pos below]
  · rw [if_neg below, if_neg below, item, if_neg (by omega), drop, List.getElem?_drop]
    congr 1
    omega

/-- Items that are still there when the sequence has grown and was pruned were there before. -/
theorem item_of_push_drop (aligned : window.Aligned) {count : Nat} {newest : α}
    (enough : count ≤ window.items.length + 1) (upper : index ≤ window.last)
    (found : ((window.push newest).drop count).item index = some x) :
    window.item index = some x := by
  rw [item_drop aligned.push (by simpa [push] using enough)] at found
  split at found
  · cases found
  · rwa [item_push aligned, if_neg (by omega)] at found

section Map

variable {β : Type} (f : α → β)

/-- What can be seen of each item. -/
def map (window : Window α) : Window β := { items := window.items.map f, last := window.last }

@[simp]
theorem first_map : (window.map f).first = window.first := by
  simp [first, map]

theorem item_map (other : Nat) : (window.map f).item other = (window.item other).map f := by
  rw [item, first_map, item, map, List.getElem?_map]
  split <;> rfl

theorem map_push : (window.push x).map f = (window.map f).push (f x) := by
  simp [map, push]

theorem map_drop (count : Nat) : (window.drop count).map f = (window.map f).drop count := by
  simp [map, drop]

/-- A new item that looks the same as the old one cannot be seen. -/
theorem map_put {y : α} (found : window.item index = some x) (same : f y = f x) :
    (window.put index y).map f = window.map f := by
  obtain ⟨before, after, -, itemsEq, putEq⟩ := exists_split found
  rw [map, map, putEq y, itemsEq, List.map_append, List.map_append, List.map_cons, List.map_cons,
    same]
  rfl

end Map

/-- Each item stays related to the one before it when the new item is related to the last one,
and older ones are dropped. -/
theorem isChain_drop_push {R : α → α → Prop} (chain : window.items.IsChain R)
    (linked : ∀ last ∈ window.items.getLast?, R last x) (count : Nat) :
    ((window.push x).drop count).items.IsChain R := by
  apply List.IsChain.drop
  apply chain.append (List.isChain_singleton x)
  intro last lastEq head headEq
  obtain rfl : x = head := by simpa using headEq
  exact linked last lastEq

end Window
