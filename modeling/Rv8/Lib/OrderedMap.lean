import Mathlib.Order.Lattice
import Mathlib.Data.List.TakeWhile
/-!
# Ordered maps

A map from the keys of a linear order whose values know their key: a list in the order
of the keys, each key once. Iterating over the map is going through the list.
-/

namespace Rv8.Lib

structure OrderedMap {κ α : Type} [LinearOrder κ] (key : α → κ) where
  toList : List α
  sorted : toList.Pairwise fun x y => key x < key y

namespace OrderedMap

variable {κ α : Type} [LinearOrder κ] {key : α → κ}

def empty : OrderedMap key := ⟨[], .nil⟩

def find (m : OrderedMap key) (k : κ) : Option α := m.toList.find? fun x => key x = k

/-- Puts `x` in its place; a value with the same key goes. -/
def insertList (key : α → κ) (x : α) : List α → List α
  | [] => [x]
  | y :: ys => if key x < key y then x :: y :: ys else if key y < key x then y :: insertList key x ys else x :: ys

theorem mem_insertList {x z : α} {l : List α} (h : z ∈ insertList key x l) : z = x ∨ z ∈ l := by
  induction l with
  | nil => exact .inl (List.mem_singleton.1 h)
  | cons y ys ih =>
    unfold insertList at h
    split at h
    · exact List.mem_cons.1 h
    · split at h
      · rcases List.mem_cons.1 h with rfl | h
        · exact .inr List.mem_cons_self
        · exact (ih h).imp_right (List.mem_cons_of_mem y)
      · exact (List.mem_cons.1 h).imp_right (List.mem_cons_of_mem y)

theorem insertList_sorted (x : α) {l : List α} (h : l.Pairwise fun x y => key x < key y) :
    (insertList key x l).Pairwise fun x y => key x < key y := by
  induction l with
  | nil => exact List.pairwise_singleton _ _
  | cons y ys ih =>
    obtain ⟨hy, hys⟩ := List.pairwise_cons.1 h
    unfold insertList
    split
    · rename_i hlt
      refine List.pairwise_cons.2 ⟨fun z hz => ?_, h⟩
      rcases List.mem_cons.1 hz with rfl | hz
      · exact hlt
      · exact lt_trans hlt (hy z hz)
    · rename_i hge
      split
      · rename_i hlt
        refine List.pairwise_cons.2 ⟨fun z hz => ?_, ih hys⟩
        rcases mem_insertList hz with rfl | hz
        · exact hlt
        · exact hy z hz
      · rename_i hle
        have heq : key x = key y := le_antisymm (not_lt.1 hle) (not_lt.1 hge)
        exact List.pairwise_cons.2 ⟨fun z hz => heq ▸ hy z hz, hys⟩

def insert (m : OrderedMap key) (x : α) : OrderedMap key := ⟨insertList key x m.toList, insertList_sorted x m.sorted⟩

/-- Changes the value at a key, not its key. -/
def modify (m : OrderedMap key) (k : κ) (f : α → α) (hf : ∀ x, key (f x) = key x) : OrderedMap key where
  toList := m.toList.map fun x => if key x = k then f x else x
  sorted := by
    refine List.pairwise_map.2 (m.sorted.imp fun {x y} hxy => ?_)
    have hkey : ∀ z, key (if key z = k then f z else z) = key z := by
      intro z
      split
      · exact hf z
      · rfl
    rw [hkey, hkey]
    exact hxy

variable {m : OrderedMap key} {k : κ} {x y : α}

theorem mem_of_find (h : m.find k = some x) : x ∈ m.toList := List.mem_of_find?_eq_some h

theorem key_of_find (h : m.find k = some x) : key x = k := by
  simpa using List.find?_some h

/-- A value is found at its key. -/
theorem find_of_mem (h : x ∈ m.toList) : m.find (key x) = some x := by
  obtain ⟨l, hl⟩ := m
  unfold find
  change x ∈ l at h
  change l.find? _ = _
  induction l with
  | nil => cases h
  | cons y ys ih =>
    obtain ⟨hy, hys⟩ := List.pairwise_cons.1 hl
    rcases List.mem_cons.1 h with rfl | h
    · exact List.find?_cons_of_pos (by simp)
    · rw [List.find?_cons_of_neg (by simpa using ne_of_lt (hy x h))]
      exact ih hys h

theorem find_eq_some_iff : m.find k = some x ↔ x ∈ m.toList ∧ key x = k := by
  constructor
  · intro h
    exact ⟨mem_of_find h, key_of_find h⟩
  · rintro ⟨h, rfl⟩
    exact find_of_mem h

theorem mem_insert_self (m : OrderedMap key) (x : α) : x ∈ (m.insert x).toList := by
  obtain ⟨l, hl⟩ := m
  change x ∈ insertList key x l
  clear hl
  induction l with
  | nil => exact List.mem_cons_self
  | cons y ys ih =>
    unfold insertList
    split
    · exact List.mem_cons_self
    · split
      · exact List.mem_cons_of_mem y ih
      · exact List.mem_cons_self

theorem find_insert_self (m : OrderedMap key) (x : α) : (m.insert x).find (key x) = some x := find_of_mem (m.mem_insert_self x)

/-- A new key leaves the others. -/
theorem find_insert_of_find (h : m.find (key y) = some y) (hne : key y ≠ key x) : (m.insert x).find (key y) = some y := by
  refine find_of_mem ?_
  have hy := mem_of_find h
  obtain ⟨l, hl⟩ := m
  change y ∈ l at hy
  change y ∈ insertList key x l
  clear h hl
  induction l with
  | nil => cases hy
  | cons z zs ih =>
    unfold insertList
    split
    · exact List.mem_cons_of_mem x hy
    · rename_i h1
      split
      · rcases List.mem_cons.1 hy with rfl | hy
        · exact List.mem_cons_self
        · exact List.mem_cons_of_mem z (ih hy)
      · rename_i h2
        rcases List.mem_cons.1 hy with rfl | hy
        · exact absurd (le_antisymm (not_lt.1 h1) (not_lt.1 h2)) hne
        · exact List.mem_cons_of_mem x hy

/-- After an insert the map holds the new value and the values at other keys. -/
theorem mem_insert : y ∈ (m.insert x).toList ↔ y = x ∨ y ∈ m.toList ∧ key y ≠ key x := by
  constructor
  · intro h
    by_cases hne : key y = key x
    · have hfind := find_of_mem h
      rw [hne, find_insert_self] at hfind
      exact .inl (Option.some.inj hfind).symm
    · exact (mem_insertList h).imp_right fun hy => ⟨hy, hne⟩
  · rintro (rfl | ⟨hy, hne⟩)
    · exact m.mem_insert_self y
    · exact mem_of_find (find_insert_of_find (find_of_mem hy) hne)

theorem find_modify (m : OrderedMap key) (k : κ) (f : α → α) (hf : ∀ x, key (f x) = key x) (k' : κ) :
    (m.modify k f hf).find k' = (m.find k').map fun x => if k' = k then f x else x := by
  have hkey : ∀ x, key (if key x = k then f x else x) = key x := by
    intro x
    split
    · exact hf x
    · rfl
  refine Option.ext fun y => ?_
  rw [find_eq_some_iff, Option.map_eq_some_iff]
  constructor
  · rintro ⟨hy, rfl⟩
    obtain ⟨x, hx, rfl⟩ := List.mem_map.1 hy
    rw [hkey]
    exact ⟨x, find_of_mem hx, rfl⟩
  · rintro ⟨x, hx, rfl⟩
    obtain rfl := key_of_find hx
    exact ⟨List.mem_map.2 ⟨x, mem_of_find hx, rfl⟩, hkey x⟩

/-! ## Iterators -/

def erase (m : OrderedMap key) (k : κ) : OrderedMap key where
  toList := m.toList.filter fun x => key x ≠ k
  sorted := m.sorted.filter _

/-- `lower_bound(k)`, as what lies before the iterator and what is left from it on. -/
def lowerBound (m : OrderedMap key) (k : κ) : List α × List α :=
  (m.toList.takeWhile fun x => key x < k, m.toList.dropWhile fun x => key x < k)

theorem lowerBound_append (m : OrderedMap key) (k : κ) : (m.lowerBound k).1 ++ (m.lowerBound k).2 = m.toList :=
  List.takeWhile_append_dropWhile

theorem lt_of_mem_lowerBound (h : x ∈ (m.lowerBound k).1) : key x < k := by
  simpa using List.mem_takeWhile_imp h

theorem le_of_mem_lowerBound (h : x ∈ (m.lowerBound k).2) : k ≤ key x := by
  obtain ⟨l, hl⟩ := m
  change x ∈ l.dropWhile _ at h
  induction l with
  | nil => cases h
  | cons y ys ih =>
    obtain ⟨hy, hys⟩ := List.pairwise_cons.1 hl
    by_cases hlt : key y < k
    · rw [List.dropWhile_cons_of_pos (by simpa using hlt)] at h
      exact ih hys h
    · rw [List.dropWhile_cons_of_neg (by simpa using hlt)] at h
      rcases List.mem_cons.1 h with rfl | h
      · exact not_lt.1 hlt
      · exact (not_lt.1 hlt).trans (hy x h).le

theorem mem_lowerBound_iff : x ∈ m.toList ↔ x ∈ (m.lowerBound k).1 ∨ x ∈ (m.lowerBound k).2 := by
  rw [← List.mem_append, lowerBound_append]

/-- The element before the iterator is the greatest below `k`. -/
theorem le_of_getLast_lowerBound (h : (m.lowerBound k).1.getLast? = some y) (hx : x ∈ (m.lowerBound k).1) : key x ≤ key y := by
  have hsorted : (m.lowerBound k).1.Pairwise fun x y => key x < key y :=
    m.sorted.sublist (List.takeWhile_sublist _)
  obtain ⟨l, hl⟩ := List.getLast?_eq_some_iff.1 h
  rw [hl] at hx hsorted
  rcases List.mem_append.1 hx with hx | hx
  · exact ((List.pairwise_append.1 hsorted).2.2 x hx y (List.mem_singleton_self y)).le
  · rw [List.mem_singleton.1 hx]

/-- The element at the iterator is the least that is not below `k`. -/
theorem le_of_cons_lowerBound {l : List α} (h : (m.lowerBound k).2 = y :: l) (hx : x ∈ (m.lowerBound k).2) : key y ≤ key x := by
  have hsorted : (m.lowerBound k).2.Pairwise fun x y => key x < key y :=
    m.sorted.sublist (List.dropWhile_sublist _)
  rw [h] at hx hsorted
  rcases List.mem_cons.1 hx with rfl | hx
  · exact le_rfl
  · exact ((List.pairwise_cons.1 hsorted).1 x hx).le

end OrderedMap

end Rv8.Lib
