import Mathlib.Data.List.Basic
import Mathlib.Data.List.Nodup
import Mathlib.Data.List.TakeWhile
import Mathlib.Order.Lattice

/-!
# Storage maps

A key-value map that iterates over its keys in ascending order.
-/

/-- The entries of a map, in the order in which it iterates. -/
abbrev StorageMap (κ α : Type) := List (κ × α)

namespace StorageMap

variable {κ α : Type} [DecidableEq κ]

def load (map : StorageMap κ α) (key : κ) : Option α :=
  (map.find? fun entry => entry.1 = key).map Prod.snd

def has (map : StorageMap κ α) (key : κ) : Bool := (map.load key).isSome

def remove (map : StorageMap κ α) (key : κ) : StorageMap κ α :=
  map.filter fun entry => entry.1 ≠ key

/-- Save a value under a key, replacing an earlier one. -/
def save [LT κ] [DecidableLT κ] (map : StorageMap κ α) (key : κ) (value : α) : StorageMap κ α :=
  let rest := map.remove key
  (rest.takeWhile fun entry => entry.1 < key) ++
    (key, value) :: rest.dropWhile fun entry => entry.1 < key

section LastFor

variable {ι : Type} {keyOf : ι → κ} {valueOf : ι → α} {entries : List ι} {key : κ} {value : α}

/-- The value for a key in the last entry that has one. -/
def lastFor (keyOf : ι → κ) (valueOf : ι → α) (entries : List ι) (key : κ) : Option α :=
  (entries.reverse.find? fun entry => keyOf entry = key).map valueOf

theorem exists_of_lastFor (last : lastFor keyOf valueOf entries key = some value) :
    ∃ entry ∈ entries, keyOf entry = key ∧ valueOf entry = value := by
  obtain ⟨entry, found, rfl⟩ := Option.map_eq_some_iff.mp last
  refine ⟨entry, List.mem_reverse.mp (List.mem_of_find?_eq_some found), ?_, rfl⟩
  simpa using List.find?_some found

theorem isSome_lastFor : (lastFor keyOf valueOf entries key).isSome ↔ key ∈ entries.map keyOf := by
  simp [lastFor]

end LastFor

section Load

variable {ι : Type} {map : StorageMap κ α} {key other : κ} {value : α}

theorem mem_of_load (loaded : map.load key = some value) : (key, value) ∈ map := by
  unfold load at loaded
  obtain ⟨entry, found, rfl⟩ := Option.map_eq_some_iff.mp loaded
  have sameKey : entry.1 = key := by simpa using List.find?_some found
  rw [← sameKey]
  exact List.mem_of_find?_eq_some found

@[simp]
theorem load_remove_self : (map.remove key).load key = none := by
  simp [load, remove]

theorem load_remove_of_ne (differs : other ≠ key) : (map.remove key).load other = map.load other := by
  unfold load remove
  congr 1
  induction map with
  | nil => rfl
  | cons entry rest ih =>
      by_cases isKey : entry.1 = key
      · have skipped : ¬ entry.1 = other := fun isOther => differs (isOther.symm.trans isKey)
        rw [List.filter_cons_of_neg (by simpa using isKey), ih, List.find?_cons_of_neg (by simpa using skipped)]
      · rw [List.filter_cons_of_pos (by simpa using isKey), List.find?_cons, List.find?_cons, ih]

theorem load_remove (map : StorageMap κ α) (key : κ) :
    (map.remove key).load = Function.update map.load key none := by
  funext other
  by_cases same : other = key
  · rw [same, load_remove_self, Function.update_self]
  · rw [load_remove_of_ne same, Function.update_of_ne same]

theorem load_remove_eq_some (loaded : (map.remove key).load other = some value) :
    other ≠ key ∧ map.load other = some value := by
  by_cases same : other = key
  · rw [same, load_remove_self] at loaded
    cases loaded
  · exact ⟨same, by rwa [load_remove_of_ne same] at loaded⟩

variable [LT κ] [DecidableLT κ]

@[simp]
theorem load_save_self : (map.save key value).load key = some value := by
  have absent : ((map.remove key).takeWhile fun entry => decide (entry.1 < key)).find?
      (fun entry => decide (entry.1 = key)) = none := by
    apply List.find?_eq_none.mpr
    intro entry member isKey
    have kept := List.takeWhile_subset _ member
    simp [remove] at kept
    exact kept.2 (by simpa using isKey)
  simp [load, save, List.find?_append, absent]

theorem load_save_of_ne (differs : other ≠ key) : (map.save key value).load other = map.load other := by
  apply Eq.trans _ (load_remove_of_ne differs)
  unfold load save
  have skipped : ¬ key = other := fun same => differs same.symm
  rw [List.find?_append, List.find?_cons_of_neg (by simpa using skipped), ← List.find?_append,
    List.takeWhile_append_dropWhile]

/-- What is found after a save is new or was there before. -/
theorem load_save_cases {found : α} (loaded : (map.save key value).load other = some found) :
    (other = key ∧ found = value) ∨ (other ≠ key ∧ map.load other = some found) := by
  by_cases same : other = key
  · rw [same, load_save_self] at loaded
    exact Or.inl ⟨same, (Option.some.inj loaded).symm⟩
  · rw [load_save_of_ne same] at loaded
    exact Or.inr ⟨same, loaded⟩

theorem load_save (map : StorageMap κ α) (key : κ) (value : α) :
    (map.save key value).load = Function.update map.load key (some value) := by
  funext other
  by_cases same : other = key
  · rw [same, load_save_self, Function.update_self]
  · rw [load_save_of_ne same, Function.update_of_ne same]

/-- After many saves, the last value for a key is found. -/
theorem load_foldl_save (keyOf : ι → κ) (valueOf : ι → α) (entries : List ι)
    (map : StorageMap κ α) (key : κ) :
    (entries.foldl (fun map entry => map.save (keyOf entry) (valueOf entry)) map).load key =
      (lastFor keyOf valueOf entries key).or (map.load key) := by
  induction entries generalizing map with
  | nil => rfl
  | cons entry rest ih =>
      rw [List.foldl_cons, ih, lastFor, lastFor, List.reverse_cons, List.find?_append, load_save]
      cases found : rest.reverse.find? fun entry => keyOf entry = key with
      | some last => rfl
      | none =>
          by_cases same : keyOf entry = key
          · rw [same, Function.update_self, List.find?_cons_of_pos (by simpa using same)]
            rfl
          · rw [Function.update_of_ne (Ne.symm same),
              List.find?_cons_of_neg (by simpa using same)]
            rfl

end Load

section Keys

variable {map : StorageMap κ α} {key : κ} {value : α}

/-- The keys of the entries. -/
def keys (map : StorageMap κ α) : List κ := map.map Prod.fst

omit [DecidableEq κ] in
theorem mem_keys_iff : key ∈ map.keys ↔ ∃ value, (key, value) ∈ map := by
  simp [keys]

theorem nodup_keys_remove (nodup : map.keys.Nodup) : (map.remove key).keys.Nodup :=
  nodup.sublist (List.filter_sublist.map Prod.fst)

theorem not_mem_keys_remove : key ∉ (map.remove key).keys := by
  simp [keys, remove]

theorem mem_keys_remove {other : κ} :
    other ∈ (map.remove key).keys ↔ other ∈ map.keys ∧ other ≠ key := by
  simp [keys, remove]

theorem mem_keys_foldl_remove {removed : List κ} {other : κ} :
    other ∈ (removed.foldl remove map).keys ↔ other ∈ map.keys ∧ other ∉ removed := by
  induction removed generalizing map with
  | nil => simp
  | cons first rest ih => rw [List.foldl_cons, ih, mem_keys_remove, List.mem_cons, not_or, and_assoc]

theorem foldl_remove_sublist (removed : List κ) (map : StorageMap κ α) :
    (removed.foldl remove map).Sublist map := by
  induction removed generalizing map with
  | nil => exact List.Sublist.refl map
  | cons first rest ih => exact (ih (map.remove first)).trans List.filter_sublist

theorem mem_keys_save [LT κ] [DecidableLT κ] {other : κ} :
    other ∈ (map.save key value).keys ↔ other = key ∨ other ∈ map.keys := by
  have split : other ∈ (map.save key value).keys ↔ other = key ∨ other ∈ (map.remove key).keys := by
    simp only [keys, save, List.map_append, List.map_cons, List.mem_append, List.mem_cons]
    rw [or_left_comm, ← List.mem_append, ← List.map_append, List.takeWhile_append_dropWhile]
  rw [split, mem_keys_remove]
  tauto

theorem nodup_keys_save [LT κ] [DecidableLT κ] (nodup : map.keys.Nodup) :
    (map.save key value).keys.Nodup := by
  have split : (map.save key value).Perm ((key, value) :: map.remove key) := by
    unfold save
    apply List.perm_middle.trans
    rw [List.takeWhile_append_dropWhile]
  have keysPerm : (map.save key value).keys.Perm (key :: (map.remove key).keys) :=
    split.map Prod.fst
  rw [keysPerm.nodup_iff, List.nodup_cons]
  exact ⟨not_mem_keys_remove, nodup_keys_remove nodup⟩

/-- With distinct keys, an entry is what its key loads. -/
theorem load_eq_some_iff (nodup : map.keys.Nodup) :
    map.load key = some value ↔ (key, value) ∈ map := by
  refine ⟨mem_of_load, fun member => ?_⟩
  induction map with
  | nil => cases member
  | cons entry rest ih =>
      obtain ⟨fresh, restNodup⟩ := List.nodup_cons.mp nodup
      rcases List.mem_cons.mp member with rfl | later
      · simp [load]
      · have differs : entry.1 ≠ key := by
          rintro rfl
          exact fresh (mem_keys_iff.mpr ⟨value, later⟩)
        have skipped : load (entry :: rest) key = load rest key := by
          simp [load, differs]
        rw [skipped, ih restNodup later]

theorem has_iff_mem_keys : map.has key = true ↔ key ∈ map.keys := by
  simp [has, load, keys]

end Keys

section Ordered

variable [LinearOrder κ] {map : StorageMap κ α} {key : κ} {value : α}

/-- The map iterates over its keys in ascending order. -/
def Ascending (map : StorageMap κ α) : Prop := map.keys.Pairwise (· < ·)

namespace Ascending

omit [DecidableEq κ] in
theorem nodup_keys (ascending : map.Ascending) : map.keys.Nodup :=
  ascending.imp ne_of_lt

omit [DecidableEq κ] in
theorem of_sublist {other : StorageMap κ α} (ascending : map.Ascending)
    (sublist : other.Sublist map) : other.Ascending :=
  List.Pairwise.sublist (sublist.map Prod.fst) ascending

omit [DecidableEq κ] in
/-- A new key is put between the smaller and the larger ones. -/
theorem insertKey {keys : List κ} (ascending : keys.Pairwise (· < ·)) (fresh : key ∉ keys) :
    (keys.takeWhile (· < key) ++ key :: keys.dropWhile (· < key)).Pairwise (· < ·) := by
  induction keys with
  | nil => simp
  | cons first rest ih =>
      obtain ⟨firstLt, restAscending⟩ := List.pairwise_cons.mp ascending
      rw [List.mem_cons, not_or] at fresh
      by_cases smaller : first < key
      · rw [List.takeWhile_cons_of_pos (by simpa using smaller),
          List.dropWhile_cons_of_pos (by simpa using smaller), List.cons_append]
        refine List.pairwise_cons.mpr ⟨fun other member => ?_, ih restAscending fresh.2⟩
        rcases List.mem_append.mp member with before | after
        · exact firstLt other (List.takeWhile_subset _ before)
        · rcases List.mem_cons.mp after with rfl | after
          · exact smaller
          · exact firstLt other ((List.dropWhile_sublist _).subset after)
      · have larger : key < first := lt_of_le_of_ne (not_lt.mp smaller) fresh.1
        rw [List.takeWhile_cons_of_neg (by simpa using smaller),
          List.dropWhile_cons_of_neg (by simpa using smaller), List.nil_append]
        refine List.pairwise_cons.mpr ⟨fun other member => ?_, ascending⟩
        rcases List.mem_cons.mp member with rfl | later
        · exact larger
        · exact larger.trans (firstLt other later)

theorem save (ascending : map.Ascending) (key : κ) (value : α) :
    (map.save key value).Ascending := by
  have inserted := insertKey (ascending.of_sublist List.filter_sublist)
    (not_mem_keys_remove : key ∉ (map.remove key).keys)
  have keysEq : (map.save key value).keys =
      (map.remove key).keys.takeWhile (· < key) ++
        key :: (map.remove key).keys.dropWhile (· < key) := by
    rw [keys, keys, StorageMap.save, List.map_append, List.map_cons, List.takeWhile_map,
      List.dropWhile_map]
    rfl
  rw [Ascending, keysEq]
  exact inserted

end Ascending

end Ordered

end StorageMap
