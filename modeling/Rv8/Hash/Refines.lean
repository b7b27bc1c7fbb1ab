import Rv8.Hash.DenseHashtable
/-!
# The dense hash table is a map

The buckets are those of a map from keys to values, and each operation does what it would
to the map itself. Searches end, since at most half of the buckets are not empty.
-/

namespace Rv8.Hash

open Rv8.Lib Probing

/-! ## Sizes -/

theorem minBucketsFrom_spec {numElts wanted : Nat} (fuel k : Nat) (hk : 2 ≤ k) (hwanted : wanted ≤ 2 ^ (k + fuel))
    (helts : numElts + 1 ≤ 2 ^ (k + fuel - 1)) :
    ∃ k', 2 ≤ k' ∧ minBucketsFrom numElts wanted fuel (2 ^ k) = 2 ^ k' ∧ wanted ≤ 2 ^ k' ∧ numElts < enlargeSize (2 ^ k') := by
  have hhalf {j : Nat} (hj : 2 ≤ j) : enlargeSize (2 ^ j) = 2 ^ (j - 1) := by
    obtain ⟨i, rfl⟩ := Nat.exists_eq_add_of_le hj
    rw [enlargeSize, show 2 + i = 2 + i - 1 + 1 by omega, pow_succ, Nat.mul_div_cancel _ (by decide)]
    rfl
  induction fuel generalizing k with
  | zero => exact ⟨k, hk, rfl, hwanted, by rw [hhalf hk]; exact helts⟩
  | succ fuel ih =>
    unfold minBucketsFrom
    split
    · rw [← pow_succ]
      exact ih (k + 1) (by omega) (by rwa [show k + 1 + fuel = k + (fuel + 1) by omega])
        (by rwa [show k + 1 + fuel = k + (fuel + 1) by omega])
    · next h =>
      rw [not_or] at h
      exact ⟨k, hk, rfl, by omega, by omega⟩

theorem minBuckets_spec (numElts wanted : Nat) :
    ∃ k, 2 ≤ k ∧ minBuckets numElts wanted = 2 ^ k ∧ wanted ≤ 2 ^ k ∧ numElts < enlargeSize (2 ^ k) := by
  have hlt := Nat.lt_two_pow_self (n := numElts + wanted)
  have hle : 2 ^ (numElts + wanted) ≤ 2 ^ (2 + (numElts + wanted) - 1) := Nat.pow_le_pow_right (by decide) (by omega)
  have hle' : 2 ^ (numElts + wanted) ≤ 2 ^ (2 + (numElts + wanted)) := Nat.pow_le_pow_right (by decide) (by omega)
  exact minBucketsFrom_spec (numElts + wanted) 2 le_rfl (by omega) (by omega)

/-! ## Buckets and slots -/

section Slots
variable {K T : Type} [DecidableEq K] {hash : K → Nat} {t : DenseHashtable K T}

namespace DenseHashtable

def slot (t : DenseHashtable K T) (b : K × T) : Slot K T :=
  if t.emptyval.1 = b.1 then .empty else if t.delkey = some b.1 then .deleted else .full b.1 b.2

def slots (t : DenseHashtable K T) : List (Slot K T) := t.table.map t.slot

end DenseHashtable

/-- The buckets of a key, in the order in which they are tried. -/
def probe (hash : K → Nat) (n : Nat) (key : K) (p : Nat) : Nat := (hash key + triangle p) % n

/-- What every operation keeps. -/
structure Wf (hash : K → Nat) (t : DenseHashtable K T) : Prop where
  buckets : ∃ k, 2 ≤ k ∧ t.bucketCount = 2 ^ k
  distinct : t.delkey ≠ some t.emptyval.1
  elements : t.numElements + t.slots.countP Slot.isEmpty = t.bucketCount
  deleted : t.numDeleted = t.slots.countP Slot.isDeleted
  threshold : t.enlargeThreshold = enlargeSize t.bucketCount
  room : t.numElements ≤ t.enlargeThreshold
  tidy : Tidy (probe hash t.bucketCount) t.slots

@[simp] theorem length_slots : t.slots.length = t.bucketCount := List.length_map ..

theorem getElem?_slots {i : Nat} (hi : i < t.bucketCount) : t.slots[i]? = some (t.slot (t.bucket i)) := by
  unfold DenseHashtable.slots DenseHashtable.bucket
  rw [List.getElem?_map, List.getD_eq_getElem?_getD, List.getElem?_eq_getElem hi]
  rfl

theorem slot_eq_full {b : K × T} {k : K} {v : T} (h : t.slot b = .full k v) : b = (k, v) ∧ k ≠ t.emptyval.1 ∧ t.delkey ≠ some k := by
  unfold DenseHashtable.slot at h
  split at h
  · cases h
  · next hempty =>
    split at h
    · cases h
    · next hdel =>
      cases h
      exact ⟨rfl, Ne.symm hempty, hdel⟩

theorem slot_of_proper {obj : K × T} (h : t.Proper obj.1) : t.slot obj = .full obj.1 obj.2 := by
  unfold DenseHashtable.slot
  rw [if_neg h.1.symm, if_neg h.2]

section Wf
variable (h : Wf hash t)
include h

theorem Wf.bucketCount_pos : 0 < t.bucketCount := by
  obtain ⟨k, -, hk⟩ := h.buckets
  rw [hk]
  exact Nat.two_pow_pos k

theorem Wf.htMinBuckets_le : htMinBuckets ≤ t.bucketCount := by
  obtain ⟨k, hk, hcount⟩ := h.buckets
  rw [hcount]
  show 2 ^ 2 ≤ 2 ^ k
  exact Nat.pow_le_pow_right (by decide) hk

theorem Wf.probes : Probes t.slots.length (probe hash t.bucketCount) := by
  obtain ⟨k, -, hk⟩ := h.buckets
  rw [length_slots, hk]
  exact probes_triangle hash k

/-- There is room for a search to end. -/
theorem Wf.empty_mem : Slot.empty ∈ t.slots := by
  have hpos : 0 < t.slots.countP Slot.isEmpty := by
    have := h.elements
    have := h.room
    have := h.bucketCount_pos
    have := h.threshold
    unfold enlargeSize at this
    omega
  obtain ⟨x, hx, hempty⟩ := List.countP_pos_iff.mp hpos
  cases x with
  | empty => exact hx
  | deleted => cases hempty
  | full k v => cases hempty

theorem Wf.and_mask (x : Nat) : x &&& (t.bucketCount - 1) = x % t.bucketCount := by
  obtain ⟨k, -, hk⟩ := h.buckets
  rw [hk]
  exact Nat.and_two_pow_sub_one_eq_mod x k

theorem Wf.nextBucket_probe (key : K) (p : Nat) :
    t.nextBucket (p + 1) (probe hash t.bucketCount key p) = probe hash t.bucketCount key (p + 1) := by
  unfold DenseHashtable.nextBucket probe
  rw [h.and_mask, Nat.mod_add_mod, Nat.add_assoc]
  rfl

theorem Wf.testDeleted_iff {i : Nat} (hi : i < t.bucketCount) (hempty : t.testEmpty i = false) :
    t.testDeleted i = true ↔ t.slot (t.bucket i) = .deleted := by
  have hkey : t.emptyval.1 ≠ (t.bucket i).1 := by
    unfold DenseHashtable.testEmpty at hempty
    simpa using hempty
  unfold DenseHashtable.testDeleted DenseHashtable.slot
  rw [if_neg hkey, decide_eq_true_iff]
  constructor
  · intro hdel
    rw [if_pos hdel.2]
  · intro hslot
    have hdel : t.delkey = some (t.bucket i).1 := by
      by_contra hne
      rw [if_neg hne] at hslot
      cases hslot
    -- it is counted
    refine ⟨?_, hdel⟩
    rw [h.deleted, List.countP_pos_iff]
    refine ⟨.deleted, ?_, rfl⟩
    rw [List.mem_iff_getElem?]
    refine ⟨i, ?_⟩
    rw [getElem?_slots hi]
    unfold DenseHashtable.slot
    rw [if_neg hkey, if_pos hdel]

theorem Wf.findPositionFrom_eq (key : K) (fuel p : Nat) (insertPos : Option Nat) :
    t.findPositionFrom key fuel p (probe hash t.bucketCount key p) insertPos =
      findSlot t.slots (probe hash t.bucketCount key) key fuel p insertPos := by
  induction fuel generalizing p insertPos with
  | zero => rfl
  | succ fuel ih =>
    have hi : probe hash t.bucketCount key p < t.bucketCount := Nat.mod_lt _ h.bucketCount_pos
    unfold DenseHashtable.findPositionFrom findSlot
    rw [getElem?_slots hi, h.nextBucket_probe]
    cases hempty : t.testEmpty (probe hash t.bucketCount key p) with
    | true =>
      have hkey : t.emptyval.1 = (t.bucket (probe hash t.bucketCount key p)).1 := by
        unfold DenseHashtable.testEmpty at hempty
        simpa using hempty
      unfold DenseHashtable.slot
      rw [if_pos hkey]
      rfl
    | false =>
      rw [if_neg (by decide)]
      by_cases hdel : t.testDeleted (probe hash t.bucketCount key p) = true
      · rw [if_pos hdel, (h.testDeleted_iff hi hempty).mp hdel]
        exact ih ..
      · rw [if_neg hdel]
        have hslot : t.slot (t.bucket (probe hash t.bucketCount key p)) =
            .full (t.bucket (probe hash t.bucketCount key p)).1 (t.bucket (probe hash t.bucketCount key p)).2 := by
          have hne := mt (h.testDeleted_iff hi hempty).mpr hdel
          have hkey : t.emptyval.1 ≠ (t.bucket (probe hash t.bucketCount key p)).1 := by
            unfold DenseHashtable.testEmpty at hempty
            simpa using hempty
          unfold DenseHashtable.slot at hne ⊢
          rw [if_neg hkey] at hne ⊢
          split at hne
          · exact absurd rfl hne
          · next hd => rw [if_neg hd]
        rw [hslot]
        dsimp only
        split
        · rfl
        · exact ih ..

/-- A search ends within the buckets. -/
theorem Wf.findPosition_found (key : K) :
    ∃ pos, t.findPosition hash key = some pos ∧ Found (probe hash t.bucketCount) t.slots key pos := by
  obtain ⟨pos, hpos, hfound⟩ := findSlot_spec h.probes h.tidy h.empty_mem key
  refine ⟨pos, ?_, hfound⟩
  have hstart : hash key &&& (t.bucketCount - 1) = probe hash t.bucketCount key 0 := h.and_mask _
  unfold DenseHashtable.findPosition
  rw [hstart, h.findPositionFrom_eq, ← hpos, length_slots]

end Wf

end Slots

/-! ## The map -/

/-- What the table is for: a map, and the two keys that are not in it. -/
structure Dict (K T : Type) where
  map : K → Option T := fun _ => none
  emptyKey : K
  deletedKey : Option K := none

structure Refines {K T : Type} [DecidableEq K] (hash : K → Nat) (t : DenseHashtable K T) (d : Dict K T) : Prop extends Wf hash t where
  represents : Represents t.slots d.map
  emptyKey : t.emptyval.1 = d.emptyKey
  delkey : t.delkey = d.deletedKey

section Refines
variable {K T : Type} [DecidableEq K] {hash : K → Nat} {t t' : DenseHashtable K T} {d : Dict K T}

/-- The map holds what a bucket holds. -/
theorem Refines.bucket_of_slot (h : Refines hash t d) {i : Nat} {k : K} {v : T} (hi : t.slots[i]? = some (.full k v)) :
    i < t.bucketCount ∧ t.bucket i = (k, v) ∧ d.map k = some v := by
  have hlt : i < t.bucketCount := length_slots (t := t) ▸ (List.getElem?_eq_some_iff.mp hi).1
  rw [getElem?_slots hlt] at hi
  exact ⟨hlt, (slot_eq_full (Option.some.inj hi)).1, (h.represents k v).mpr (List.mem_iff_getElem?.mpr ⟨i, by rw [getElem?_slots hlt, hi]⟩)⟩

/-- A key of the map is one that can be looked up. -/
theorem Refines.proper (h : Refines hash t d) {k : K} {v : T} (hk : d.map k = some v) : t.Proper k := by
  obtain ⟨i, hi⟩ := List.mem_iff_getElem?.mp ((h.represents k v).mp hk)
  have hlt := (h.bucket_of_slot hi).1
  rw [getElem?_slots hlt] at hi
  exact (slot_eq_full (Option.some.inj hi)).2

/-- What a search of the table tells of the map. -/
theorem Refines.findPosition_spec (h : Refines hash t d) (key : K) :
    (∃ i v, t.findPosition hash key = some (.found i) ∧ t.slots[i]? = some (.full key v) ∧ d.map key = some v) ∨
    ∃ i, t.findPosition hash key = some (.free i) ∧ Found (probe hash t.bucketCount) t.slots key (.free i) ∧ d.map key = none := by
  obtain ⟨pos, hpos, hfound⟩ := h.findPosition_found key
  cases pos with
  | found i =>
    obtain ⟨v, hv⟩ := hfound
    exact .inl ⟨i, v, hpos, hv, (h.bucket_of_slot hv).2.2⟩
  | free i => exact .inr ⟨i, hpos, hfound, h.represents.eq_none hfound.2.2⟩

/-! ### Sizes of the map -/

theorem Wf.size_eq (h : Wf hash t) : t.size = (entries t.slots).length := by
  have hlen := length_entries (s := t.slots)
  have := h.elements
  have := h.deleted
  rw [length_slots] at hlen
  unfold DenseHashtable.size
  omega

/-- The deleted buckets are among those that are not empty. -/
theorem Wf.deleted_le (h : Wf hash t) : t.numDeleted ≤ t.numElements := by
  have hlen := length_entries (s := t.slots)
  have := h.elements
  have := h.deleted
  rw [length_slots] at hlen
  omega

theorem Refines.ncard (h : Refines hash t d) : {k | (d.map k).isSome}.ncard = t.size :=
  (ncard_represents h.represents h.tidy).trans h.size_eq.symm

/-- Iteration comes to each entry. -/
theorem Wf.elements_eq (h : Wf hash t) : t.elements = entries t.slots := by
  have hslot : ∀ b ∈ t.table, (t.slot b).toEntry =
      Option.guard (fun b => !(t.emptyval.1 = b.1) && !(0 < t.numDeleted ∧ t.delkey = some b.1)) b := by
    intro b hb
    unfold DenseHashtable.slot
    by_cases hempty : t.emptyval.1 = b.1
    · simp [hempty, Slot.toEntry, Option.guard]
    · by_cases hdel : t.delkey = some b.1
      · have hpos : 0 < t.numDeleted := by
          rw [h.deleted, List.countP_pos_iff]
          refine ⟨.deleted, List.mem_map.mpr ⟨b, hb, ?_⟩, rfl⟩
          unfold DenseHashtable.slot
          rw [if_neg hempty, if_pos hdel]
        simp [hempty, hdel, hpos, Slot.toEntry, Option.guard]
      · simp [hempty, hdel, Slot.toEntry, Option.guard]
  unfold DenseHashtable.elements entries DenseHashtable.slots
  rw [List.filterMap_map]
  refine Eq.trans ?_ (List.filterMap_congr fun b hb => (hslot b hb).symm)
  exact (congrFun List.filterMap_eq_filter _).symm

theorem Refines.mem_elements (h : Refines hash t d) {e : K × T} : e ∈ t.elements ↔ d.map e.1 = some e.2 := by
  rw [h.elements_eq]
  exact h.represents.mem_entries

theorem Wf.nodup_elements (h : Wf hash t) : (t.elements.map Prod.fst).Nodup := by
  rw [h.elements_eq]
  exact h.tidy.nodup_keys

/-! ### One bucket -/

omit [DecidableEq K] in
theorem countP_set_slot {s : List (Slot K T)} {p : Slot K T → Bool} {i : Nat} {x y : Slot K T} (hi : s[i]? = some x) :
    (s.set i y).countP p + (if p x then 1 else 0) = s.countP p + if p y then 1 else 0 := by
  obtain ⟨hlt, hx⟩ := List.getElem?_eq_some_iff.mp hi
  have hpos : p x = true → 0 < s.countP p := fun hpx => List.countP_pos_iff.mpr ⟨x, List.mem_of_getElem? hi, hpx⟩
  rw [List.countP_set hlt, hx]
  by_cases hpx : p x = true
  · have := hpos hpx
    simp only [hpx, if_true]
    omega
  · simp only [hpx]
    simp

/-- An object is put into the bucket to which its key has got. -/
theorem Refines.put (h : Refines hash t d) {i : Nat} {obj : K × T} {x : Slot K T} (hi : t.slots[i]? = some x)
    (hproper : t.Proper obj.1) (hpath : ∃ p, probe hash t.bucketCount obj.1 p = i ∧ Passed t.slots (probe hash t.bucketCount obj.1) p)
    (hlost : ∀ k w, x = .full k w → k = obj.1) (hnew : ∀ (j : Nat) (w : T), t.slots[j]? = some (.full obj.1 w) → j = i)
    {numElements numDeleted : Nat} (helements : numElements = t.numElements + if x.isEmpty then 1 else 0)
    (hdeleted : numDeleted + (if x.isDeleted then 1 else 0) = t.numDeleted) (hroom : numElements ≤ t.enlargeThreshold) :
    Refines hash { t with table := t.table.set i obj, numElements, numDeleted }
      { d with map := Function.update d.map obj.1 (some obj.2) } := by
  have hslots : DenseHashtable.slots { t with table := t.table.set i obj, numElements, numDeleted } =
      t.slots.set i (.full obj.1 obj.2) := by
    rw [← slot_of_proper hproper]
    exact List.map_set
  have hcount : DenseHashtable.bucketCount { t with table := t.table.set i obj, numElements, numDeleted } = t.bucketCount :=
    List.length_set
  have hlt := (List.getElem?_eq_some_iff.mp hi).1
  have hempty := countP_set_slot (p := Slot.isEmpty) (y := .full obj.1 obj.2) hi
  have hdel := countP_set_slot (p := Slot.isDeleted) (y := .full obj.1 obj.2) hi
  simp only [Slot.isEmpty, Slot.isDeleted] at hempty hdel
  exact {
    buckets := hcount ▸ h.buckets
    distinct := h.distinct
    elements := by
      rw [hslots, hcount, ← h.elements]
      dsimp only
      cases x <;> simp [Slot.isEmpty] at * <;> omega
    deleted := by
      rw [hslots]
      have := h.deleted
      dsimp only
      cases x <;> simp [Slot.isDeleted] at * <;> omega
    threshold := hcount ▸ h.threshold
    room := hroom
    tidy := by
      rw [hslots, hcount]
      exact h.tidy.set_full hlt hpath hnew
    represents := by
      rw [hslots]
      exact h.represents.set_full hlt (fun k w heq => hlost k w (Option.some.inj (hi.symm.trans heq))) hnew
    emptyKey := h.emptyKey
    delkey := h.delkey }

theorem Refines.insertAt (h : Refines hash t d) {i : Nat} {obj : K × T} (hproper : t.Proper obj.1)
    (hfound : Found (probe hash t.bucketCount) t.slots obj.1 (.free i)) (hroom : t.numElements + 1 ≤ t.enlargeThreshold) :
    Refines hash (t.insertAt obj i) { d with map := Function.update d.map obj.1 (some obj.2) } := by
  obtain ⟨hslot, hpath, hnone⟩ := hfound
  have hlt : i < t.bucketCount := by
    rcases hslot with hslot | hslot <;> exact length_slots (t := t) ▸ (List.getElem?_eq_some_iff.mp hslot).1
  have hnew : ∀ (j : Nat) (w : T), t.slots[j]? = some (.full obj.1 w) → j = i := fun j w hj => absurd hj (hnone j w)
  unfold DenseHashtable.insertAt
  rcases hslot with hslot | hslot
  · have hbucket := Option.some.inj ((getElem?_slots hlt).symm.trans hslot)
    have hkey : t.emptyval.1 = (t.bucket i).1 := by
      by_contra hne
      unfold DenseHashtable.slot at hbucket
      rw [if_neg hne] at hbucket
      split at hbucket <;> cases hbucket
    have hdel : ¬ t.testDeleted i = true := by
      unfold DenseHashtable.testDeleted
      rw [decide_eq_true_iff, ← hkey]
      exact fun hdel => h.distinct hdel.2
    rw [if_neg hdel]
    exact h.put hslot hproper hpath (by simp) hnew (by simp [Slot.isEmpty]) (by simp [Slot.isDeleted]) hroom
  · have hbucket := Option.some.inj ((getElem?_slots hlt).symm.trans hslot)
    have hempty : t.testEmpty i = false := by
      unfold DenseHashtable.testEmpty
      rw [decide_eq_false_iff_not]
      intro hkey
      unfold DenseHashtable.slot at hbucket
      rw [if_pos hkey] at hbucket
      cases hbucket
    have hdel := (h.testDeleted_iff hlt hempty).mpr hbucket
    have hpos : 0 < t.numDeleted := by
      unfold DenseHashtable.testDeleted at hdel
      exact (of_decide_eq_true hdel).1
    rw [if_pos hdel]
    exact h.put hslot hproper hpath (by simp) hnew (by simp [Slot.isEmpty]) (by simp [Slot.isDeleted]; omega)
      (Nat.le_of_succ_le hroom)

/-! ### Copies -/

/-- A table of empty buckets. -/
theorem refines_replicate {n : Nat} (hn : ∃ k, 2 ≤ k ∧ n = 2 ^ k) (hdistinct : t.delkey ≠ some t.emptyval.1)
    (htable : t.table = List.replicate n t.emptyval) (helements : t.numElements = 0) (hdeleted : t.numDeleted = 0)
    (hthreshold : t.enlargeThreshold = enlargeSize n) :
    Refines hash t { emptyKey := t.emptyval.1, deletedKey := t.delkey } := by
  have hcount : t.bucketCount = n := by
    unfold DenseHashtable.bucketCount
    rw [htable, List.length_replicate]
  have hslots : t.slots = List.replicate n .empty := by
    unfold DenseHashtable.slots DenseHashtable.slot
    rw [htable, List.map_replicate, if_pos rfl]
  exact {
    buckets := hcount ▸ hn
    distinct := hdistinct
    elements := by
      rw [hslots, hcount, helements, List.countP_replicate]
      simp [Slot.isEmpty]
    deleted := by
      rw [hslots, hdeleted, List.countP_replicate]
      simp [Slot.isDeleted]
    threshold := hcount ▸ hthreshold
    room := helements ▸ Nat.zero_le _
    tidy := hslots ▸ tidy_replicate n
    represents := hslots ▸ represents_replicate n
    emptyKey := rfl
    delkey := rfl }

/-- What a copy keeps. -/
structure Copied (t t' : DenseHashtable K T) : Prop where
  emptyval : t'.emptyval = t.emptyval
  delkey : t'.delkey = t.delkey
  numDeleted : t'.numDeleted = 0
  considerShrink : t'.considerShrink = false

theorem Wf.findEmptyFrom_eq (h : Wf hash t) (key : K) (fuel p : Nat) :
    t.findEmptyFrom fuel p (probe hash t.bucketCount key p) = findFree t.slots (probe hash t.bucketCount key) fuel p := by
  induction fuel generalizing p with
  | zero => rfl
  | succ fuel ih =>
    have hi : probe hash t.bucketCount key p < t.bucketCount := Nat.mod_lt _ h.bucketCount_pos
    unfold DenseHashtable.findEmptyFrom findFree DenseHashtable.testEmpty
    rw [getElem?_slots hi, h.nextBucket_probe, ih]
    unfold DenseHashtable.slot
    by_cases hempty : t.emptyval.1 = (t.bucket (probe hash t.bucketCount key p)).1
    · rw [if_pos hempty, if_pos (decide_eq_true hempty)]
    · rw [if_neg hempty, if_neg (by simpa using hempty)]
      split
      · next heq => split at heq <;> cases heq
      · rfl

/-- An object that is not in the copy is put there. -/
theorem Refines.copyElement (h : Refines hash t d) {obj : K × T} (hproper : t.Proper obj.1) (hnew : d.map obj.1 = none)
    (hdel : t.numDeleted = 0) (hroom : t.numElements + 1 ≤ t.enlargeThreshold) :
    ∃ t', t.copyElement hash obj = some t' ∧ Refines hash t' { d with map := Function.update d.map obj.1 (some obj.2) } ∧
      t'.bucketCount = t.bucketCount ∧ t'.numElements = t.numElements + 1 ∧ t'.enlargeThreshold = t.enlargeThreshold ∧
      t'.emptyval = t.emptyval ∧ t'.delkey = t.delkey ∧ t'.numDeleted = 0 ∧ t'.considerShrink = t.considerShrink := by
  obtain ⟨q, hfree, hslot, hpassed⟩ := findFree_spec h.probes h.empty_mem obj.1
  have hfind : t.findEmptyFrom t.bucketCount 0 (hash obj.1 &&& (t.bucketCount - 1)) =
      some (probe hash t.bucketCount obj.1 q) := by
    have hstart : hash obj.1 &&& (t.bucketCount - 1) = probe hash t.bucketCount obj.1 0 := h.and_mask _
    rw [hstart, h.findEmptyFrom_eq, ← hfree, length_slots]
  have hnone : ∀ (j : Nat) (w : T), t.slots[j]? = some (.full obj.1 w) → j = probe hash t.bucketCount obj.1 q := by
    intro j w hj
    rw [(h.bucket_of_slot hj).2.2] at hnew
    cases hnew
  unfold DenseHashtable.copyElement
  rw [hfind]
  refine ⟨_, rfl, ?_, List.length_set, rfl, rfl, rfl, rfl, hdel, rfl⟩
  exact h.put hslot hproper ⟨q, rfl, hpassed⟩ (by simp) hnone (by simp [Slot.isEmpty]) (by simp [Slot.isDeleted]) hroom

/-- The loop of `copy_from`. -/
theorem Refines.copyElements {es : List (K × T)} (h : Refines hash t d) (hproper : ∀ e ∈ es, t.Proper e.1)
    (hnew : ∀ e ∈ es, d.map e.1 = none) (hnodup : (es.map Prod.fst).Nodup) (hdel : t.numDeleted = 0)
    (hroom : t.numElements + es.length ≤ t.enlargeThreshold) {m : K → Option T}
    (hm : ∀ k v, m k = some v ↔ d.map k = some v ∨ (k, v) ∈ es) :
    ∃ t', es.foldlM (fun tmp obj => tmp.copyElement hash obj) t = some t' ∧ Refines hash t' { d with map := m } ∧
      t'.bucketCount = t.bucketCount ∧ t'.numElements = t.numElements + es.length ∧ t'.emptyval = t.emptyval ∧
      t'.delkey = t.delkey ∧ t'.numDeleted = 0 ∧ t'.considerShrink = t.considerShrink := by
  induction es generalizing t d with
  | nil =>
    have hsame : m = d.map := by
      funext k
      apply Option.ext
      intro v
      simpa using hm k v
    subst hsame
    exact ⟨t, rfl, h, rfl, rfl, rfl, rfl, hdel, rfl⟩
  | cons e es ih =>
    rw [List.forall_mem_cons] at hproper hnew
    rw [List.map_cons, List.nodup_cons] at hnodup
    rw [List.length_cons] at hroom
    obtain ⟨t1, ht1, h1, hcount, hnum, hthr, hempty, hdk, hdel1, hshrink⟩ :=
      h.copyElement hproper.1 hnew.1 hdel (by omega)
    have hother : ∀ e' ∈ es, e'.1 ≠ e.1 := fun e' he' heq => hnodup.1 (heq ▸ List.mem_map_of_mem he')
    obtain ⟨t2, ht2, h2, hcount2, hnum2, hempty2, hdk2, hdel2, hshrink2⟩ := ih h1
      (fun e' he' => by
        have := hproper.2 e' he'
        unfold DenseHashtable.Proper at this ⊢
        rwa [hempty, hdk])
      (fun e' he' => (Function.update_of_ne (hother e' he') _ _).trans (hnew.2 e' he')) hnodup.2 hdel1 (by omega)
      (fun k v => by
        rw [hm k v, List.mem_cons]
        dsimp only
        by_cases hk : k = e.1
        · subst hk
          have hnotin : (e.1, v) ∉ es := fun hin => hother _ hin rfl
          rw [Function.update_self, hnew.1]
          simp [Prod.ext_iff, hnotin, eq_comm]
        · rw [Function.update_of_ne hk]
          simp [Prod.ext_iff, hk])
    refine ⟨t2, ?_, h2, hcount2.trans hcount, ?_, hempty2.trans hempty, hdk2.trans hdk, hdel2, hshrink2.trans hshrink⟩
    · rw [List.foldlM_cons, ht1]
      exact ht2
    · rw [hnum2, hnum, List.length_cons]
      omega

theorem enlargeSize_mono {a b : Nat} (h : a ≤ b) : enlargeSize a ≤ enlargeSize b := Nat.div_le_div_right h

/-- A copy is the same map, with room for more and nothing deleted. -/
theorem Refines.copyFrom (h : Refines hash t d) (wanted : Nat) :
    ∃ t', t.copyFrom hash wanted = some t' ∧ Refines hash t' d ∧ Copied t t' ∧ wanted ≤ t'.bucketCount ∧ t'.numElements = t.size ∧
      t.size < t'.enlargeThreshold := by
  obtain ⟨k, hk, hmin, hwanted, hroom⟩ := minBuckets_spec t.size wanted
  have hclear : Refines hash (t.clearToSize (2 ^ k)) { emptyKey := t.emptyval.1, deletedKey := t.delkey } := by
    refine refines_replicate ⟨k, hk, rfl⟩ h.distinct rfl rfl rfl ?_
    show enlargeSize (List.replicate (2 ^ k) t.emptyval).length = _
    rw [List.length_replicate]
  have hthr : (t.clearToSize (2 ^ k)).enlargeThreshold = enlargeSize (2 ^ k) := by
    rw [hclear.threshold]
    exact congrArg enlargeSize List.length_replicate
  have hlen : t.elements.length = t.size := by rw [h.elements_eq, h.size_eq]
  obtain ⟨t', ht', href, hcount, hnum, hempty, hdk, hdel, hshrink⟩ := hclear.copyElements (m := d.map)
    (fun e he => h.proper (h.mem_elements.mp he)) (fun e he => rfl) h.nodup_elements rfl
    (by rw [hthr, hlen]; exact (Nat.zero_add _).trans_le hroom.le) (fun k v => by
      rw [h.mem_elements]
      simp)
  have hcount' : t'.bucketCount = 2 ^ k := hcount.trans List.length_replicate
  refine ⟨t', ?_, ?_, ⟨hempty, hdk, hdel, hshrink⟩, hcount'.symm ▸ hwanted, ?_, ?_⟩
  · unfold DenseHashtable.copyFrom
    rw [hmin]
    exact ht'
  · exact { href with emptyKey := (congrArg Prod.fst hempty).trans h.emptyKey, delkey := hdk.trans h.delkey }
  · rw [hnum, hlen]
    exact Nat.zero_add _
  · rw [href.threshold, hcount']
    exact hroom

/-! ### Resizing -/

theorem Refines.withConsiderShrink (h : Refines hash t d) (c : Bool) : Refines hash { t with considerShrink := c } d :=
  ⟨⟨h.buckets, h.distinct, h.elements, h.deleted, h.threshold, h.room, h.tidy⟩, h.represents, h.emptyKey, h.delkey⟩

theorem Refines.maybeShrink (h : Refines hash t d) :
    ∃ b t', t.maybeShrink hash = some (b, t') ∧ Refines hash t' d ∧ (b = false → t' = { t with considerShrink := false }) := by
  have hmask : t.bucketCount &&& (t.bucketCount - 1) = 0 := by
    rw [h.and_mask, Nat.mod_self]
  unfold DenseHashtable.maybeShrink
  simp only [guard, if_pos h.deleted_le, if_pos hmask, if_pos h.htMinBuckets_le, bind, Option.bind, pure]
  split
  · obtain ⟨t', ht', href, -⟩ := h.copyFrom (shrinkFrom (t.numElements - t.numDeleted) t.bucketCount (t.bucketCount / 2))
    rw [ht']
    exact ⟨true, _, rfl, href.withConsiderShrink false, fun hb => by cases hb⟩
  · exact ⟨false, _, rfl, h.withConsiderShrink false, fun _ => rfl⟩

/-- Behind it, there is room for `delta` more. -/
theorem Refines.enlarge (h : Refines hash t d) (delta : Nat) (didResize : Bool) :
    ∃ b t', t.enlarge hash delta didResize = some (b, t') ∧ Refines hash t' d ∧ t'.numElements + delta ≤ t'.enlargeThreshold ∧
      (b = false → didResize = false ∧ t' = t) := by
  unfold DenseHashtable.enlarge
  split
  · next hroom => exact ⟨didResize, t, rfl, h, hroom.2, fun hb => ⟨hb, rfl⟩⟩
  · next hfull =>
    split
    · next hneeded =>
      obtain ⟨k, -, hk, -, hlt⟩ := minBuckets_spec (t.numElements + delta) 0
      have hle := enlargeSize_mono (hk ▸ hneeded)
      have hthr := h.threshold
      exact absurd ⟨h.htMinBuckets_le, by omega⟩ hfull
    · obtain ⟨k, -, hk, -, hlt⟩ := minBuckets_spec (t.numElements - t.numDeleted + delta) t.bucketCount
      have hcopy {resizeTo : Nat} (hle : 2 ^ k ≤ resizeTo) :
          ∃ b t', (t.copyFrom hash resizeTo).bind (fun tmp => pure (true, tmp)) = some (b, t') ∧ Refines hash t' d ∧
            t'.numElements + delta ≤ t'.enlargeThreshold ∧ (b = false → didResize = false ∧ t' = t) := by
        obtain ⟨t', ht', href, -, hwanted, hnum, -⟩ := h.copyFrom resizeTo
        rw [ht']
        refine ⟨true, t', rfl, href, ?_, fun hb => by cases hb⟩
        rw [href.threshold, hnum]
        exact (hlt.trans_le (enlargeSize_mono (hle.trans hwanted))).le
      dsimp only
      rw [hk]
      split
      · exact hcopy (Nat.le_mul_of_pos_right _ (by decide))
      · exact hcopy le_rfl

theorem Refines.resizeDelta (h : Refines hash t d) (delta : Nat) :
    ∃ b t', t.resizeDelta hash delta = some (b, t') ∧ Refines hash t' d ∧ t'.numElements + delta ≤ t'.enlargeThreshold ∧
      (b = false → ∃ c, t' = { t with considerShrink := c }) := by
  unfold DenseHashtable.resizeDelta
  split
  · obtain ⟨b, t1, ht1, h1, hsame⟩ := h.maybeShrink
    obtain ⟨b', t2, ht2, h2, hroom, hsame2⟩ := h1.enlarge delta b
    rw [ht1]
    refine ⟨b', t2, ht2, h2, hroom, fun hb => ?_⟩
    obtain ⟨hb1, rfl⟩ := hsame2 hb
    exact ⟨false, hsame hb1⟩
  · obtain ⟨b', t2, ht2, h2, hroom, hsame2⟩ := h.enlarge delta false
    refine ⟨b', t2, ht2, h2, hroom, fun hb => ?_⟩
    obtain ⟨-, rfl⟩ := hsame2 hb
    exact ⟨t2.considerShrink, rfl⟩

theorem Refines.resize (h : Refines hash t d) (reqElements : Nat) : ∃ t', t.resize hash reqElements = some t' ∧ Refines hash t' d := by
  have hdelta {t : DenseHashtable K T} (h : Refines hash t d) :
      ∃ t', (if t.numElements < reqElements then (t.resizeDelta hash (reqElements - t.numElements)).map Prod.snd else some t) = some t' ∧
        Refines hash t' d := by
    split
    · obtain ⟨b, t', ht', h', -⟩ := h.resizeDelta (reqElements - t.numElements)
      exact ⟨t', by rw [ht']; rfl, h'⟩
    · exact ⟨t, rfl, h⟩
  unfold DenseHashtable.resize
  split
  · obtain ⟨b, t1, ht1, h1, -⟩ := h.maybeShrink
    rw [ht1]
    exact hdelta h1
  · exact hdelta h

end Refines

/-! ## Operations -/

namespace Dict
variable {K T : Type} [DecidableEq K] (d : Dict K T)

def Proper (key : K) : Prop := key ≠ d.emptyKey ∧ d.deletedKey ≠ some key

def set (key : K) (v : T) : Dict K T := { d with map := Function.update d.map key (some v) }

/-- A key that is there keeps its value. -/
def insert (obj : K × T) : Dict K T := if (d.map obj.1).isSome then d else d.set obj.1 obj.2

def erase (key : K) : Dict K T := { d with map := Function.update d.map key none }

def clear : Dict K T := { d with map := fun _ => none }

end Dict

section Operations
variable {K T : Type} [DecidableEq K] {hash : K → Nat} {t t' : DenseHashtable K T} {d : Dict K T}

theorem Refines.proper_iff (h : Refines hash t d) {key : K} : t.Proper key ↔ d.Proper key := by
  unfold DenseHashtable.Proper Dict.Proper
  rw [h.emptyKey, h.delkey]

theorem Refines.clear_eq (h : Refines hash t d) (hsize : t.size = 0) : d = d.clear := by
  have hnone : d.map = fun _ => none := by
    funext k
    cases hm : d.map k with
    | none => rfl
    | some v =>
      have hin : (k, v) ∈ t.elements := h.mem_elements.mpr hm
      rw [h.elements_eq, List.length_eq_zero_iff.mp (h.size_eq.symm.trans hsize)] at hin
      cases hin
  unfold Dict.clear
  rw [← hnone]

theorem Refines.find (h : Refines hash t d) (key : K) :
    ∃ pos, t.find hash key = some pos ∧ pos.map t.bucket = (d.map key).map (key, ·) ∧
      ∀ i, pos = some i → ∃ v, t.slots[i]? = some (.full key v) := by
  unfold DenseHashtable.find
  split
  · next hsize =>
    refine ⟨none, rfl, ?_, fun i hi => by cases hi⟩
    rw [h.clear_eq hsize]
    rfl
  · rcases h.findPosition_spec key with ⟨i, v, hpos, hslot, hm⟩ | ⟨i, hpos, -, hm⟩
    · rw [hpos]
      refine ⟨some i, rfl, ?_, fun j hj => ⟨v, Option.some.inj hj ▸ hslot⟩⟩
      rw [Option.map_some, (h.bucket_of_slot hslot).2.1, hm, Option.map_some]
    · rw [hpos]
      exact ⟨none, rfl, by rw [hm]; rfl, fun j hj => by cases hj⟩

/-! ### Insertion -/

theorem bucketCount_insertAt {obj : K × T} {i : Nat} : (t.insertAt obj i).bucketCount = t.bucketCount := by
  unfold DenseHashtable.insertAt DenseHashtable.bucketCount
  dsimp only
  split <;> exact List.length_set

theorem bucket_insertAt {obj : K × T} {i : Nat} (hi : i < t.bucketCount) : (t.insertAt obj i).bucket i = obj := by
  have htable : (t.insertAt obj i).table = t.table.set i obj := by
    unfold DenseHashtable.insertAt
    dsimp only
    split <;> rfl
  unfold DenseHashtable.bucket
  rw [htable, List.getD_eq_getElem?_getD, List.getElem?_set_self hi]
  rfl

theorem lt_of_found {i : Nat} {key : K} (h : Found (probe hash t.bucketCount) t.slots key (.free i)) : i < t.bucketCount := by
  rcases h.1 with hslot | hslot <;> exact length_slots (t := t) ▸ (List.getElem?_eq_some_iff.mp hslot).1

/-- The threshold is that of before, and at most one more bucket is used. -/
theorem numElements_insertAt {obj : K × T} {i : Nat} :
    (t.insertAt obj i).numElements ≤ t.numElements + 1 ∧ (t.insertAt obj i).enlargeThreshold = t.enlargeThreshold := by
  unfold DenseHashtable.insertAt
  dsimp only
  split
  · exact ⟨Nat.le_succ _, rfl⟩
  · exact ⟨le_rfl, rfl⟩

theorem Refines.insertNoresize (h : Refines hash t d) {obj : K × T} (hproper : d.Proper obj.1)
    (hroom : t.numElements + 1 ≤ t.enlargeThreshold) :
    ∃ i t', t.insertNoresize hash obj = some ((i, (d.map obj.1).isNone), t') ∧ Refines hash t' (d.insert obj) ∧
      t'.bucket i = (obj.1, (d.map obj.1).getD obj.2) ∧ i < t'.bucketCount ∧
      t'.numElements ≤ t.numElements + 1 ∧ t'.enlargeThreshold = t.enlargeThreshold := by
  have hproper' := h.proper_iff.mpr hproper
  unfold DenseHashtable.insertNoresize Dict.insert
  simp only [guard, if_pos hproper', bind, Option.bind, pure]
  rcases h.findPosition_spec obj.1 with ⟨i, v, hpos, hslot, hm⟩ | ⟨i, hpos, hfound, hm⟩
  · rw [hpos, hm]
    obtain ⟨hlt, hbucket, -⟩ := h.bucket_of_slot hslot
    exact ⟨i, t, rfl, h, hbucket, hlt, Nat.le_succ _, rfl⟩
  · rw [hpos, hm]
    have hlt := lt_of_found hfound
    have hcount : (t.insertAt obj i).bucketCount = t.bucketCount := bucketCount_insertAt
    exact ⟨i, t.insertAt obj i, rfl, h.insertAt hproper' hfound hroom, bucket_insertAt hlt, hcount ▸ hlt, numElements_insertAt⟩

theorem Refines.insert (h : Refines hash t d) {obj : K × T} (hproper : d.Proper obj.1) :
    ∃ i t', t.insert hash obj = some ((i, (d.map obj.1).isNone), t') ∧ Refines hash t' (d.insert obj) ∧
      t'.bucket i = (obj.1, (d.map obj.1).getD obj.2) := by
  obtain ⟨b, t1, ht1, h1, hroom, -⟩ := h.resizeDelta 1
  obtain ⟨i, t2, ht2, h2, hbucket, -⟩ := h1.insertNoresize hproper hroom
  unfold DenseHashtable.insert
  rw [ht1]
  exact ⟨i, t2, ht2, h2, hbucket⟩

theorem Dict.proper_insert {obj : K × T} {key : K} : (d.insert obj).Proper key ↔ d.Proper key := by
  unfold Dict.insert
  split <;> rfl

theorem Refines.insertAll (h : Refines hash t d) {objs : List (K × T)} (hproper : ∀ obj ∈ objs, d.Proper obj.1) :
    ∃ t', t.insertAll hash objs = some t' ∧ Refines hash t' (objs.foldl Dict.insert d) := by
  obtain ⟨b, t1, ht1, h1, hroom, -⟩ := h.resizeDelta objs.length
  unfold DenseHashtable.insertAll
  rw [ht1]
  show ∃ t', objs.foldlM _ t1 = some t' ∧ _
  clear ht1 h
  induction objs generalizing t1 d with
  | nil => exact ⟨t1, rfl, h1⟩
  | cons obj objs ih =>
    rw [List.forall_mem_cons] at hproper
    rw [List.length_cons] at hroom
    obtain ⟨i, t2, ht2, h2, -, -, hnum, hthr⟩ := h1.insertNoresize hproper.1 (by omega)
    rw [List.foldlM_cons, ht2]
    exact ih (fun o ho => Dict.proper_insert.mpr (hproper.2 o ho)) t2 h2 (by omega)

/-! ### Clearing -/

theorem refines_cleared {n : Nat} (h : Refines hash t d) (hn : ∃ k, 2 ≤ k ∧ n = 2 ^ k)
    (hdelkey : t'.delkey = t.delkey) (hempty : t'.emptyval = t.emptyval) (htable : t'.table = List.replicate n t'.emptyval)
    (helements : t'.numElements = 0) (hdeleted : t'.numDeleted = 0) (hthreshold : t'.enlargeThreshold = enlargeSize n) :
    Refines hash t' d.clear := by
  have hdistinct : t'.delkey ≠ some t'.emptyval.1 := by
    rw [hdelkey, hempty]
    exact h.distinct
  unfold Dict.clear
  rw [← h.emptyKey, ← h.delkey, ← hempty, ← hdelkey]
  exact refines_replicate hn hdistinct htable helements hdeleted hthreshold

theorem Refines.clear (h : Refines hash t d) : Refines hash t.clear d.clear := by
  unfold DenseHashtable.clear
  dsimp only
  split
  · next hsame =>
    -- without elements there is nothing to clear
    have hsize : t.size = 0 := by
      unfold DenseHashtable.size
      omega
    exact h.clear_eq hsize ▸ h
  · obtain ⟨k, hk, hmin, -⟩ := minBuckets_spec 0 0
    refine refines_cleared h ⟨k, hk, hmin⟩ rfl rfl rfl rfl rfl ?_
    exact congrArg enlargeSize List.length_replicate

theorem Refines.clearNoResize (h : Refines hash t d) : Refines hash t.clearNoResize d.clear := by
  unfold DenseHashtable.clearNoResize
  split
  · refine refines_cleared h h.buckets rfl rfl rfl rfl rfl ?_
    exact congrArg enlargeSize List.length_replicate
  · next hnum =>
    have hdel := h.deleted_le
    have hzero : t.numElements = 0 ∧ t.numDeleted = 0 := by omega
    have hsize : t.size = 0 := by
      unfold DenseHashtable.size
      omega
    rw [← h.clear_eq hsize]
    exact ⟨⟨h.buckets, h.distinct, hzero.1 ▸ h.elements, hzero.2 ▸ h.deleted, rfl, Nat.zero_le _, h.tidy⟩, h.represents, h.emptyKey,
      h.delkey⟩

/-! ### Keys with a meaning -/

theorem Refines.squashDeleted (h : Refines hash t d) :
    ∃ t', t.squashDeleted hash = some t' ∧ Refines hash t' d ∧ t'.numDeleted = 0 := by
  unfold DenseHashtable.squashDeleted
  split
  · obtain ⟨t', ht', href, hcopied, -⟩ := h.copyFrom htDefaultStartingBuckets
    exact ⟨t', ht', href, hcopied.numDeleted⟩
  · next hdel => exact ⟨t, rfl, h, not_not.mp hdel⟩

/-- The deleted key can change while there is no deleted bucket and no entry with it. -/
theorem Refines.withDelkey (h : Refines hash t d) (hdel : t.numDeleted = 0) {delkey : Option K} (hempty : delkey ≠ some d.emptyKey)
    (hnew : ∀ key, delkey = some key → d.map key = none) :
    Refines hash { t with delkey } { d with deletedKey := delkey } := by
  have hslots : DenseHashtable.slots { t with delkey } = t.slots := by
    refine List.map_congr_left fun b hb => ?_
    have hmem : t.slot b ∈ t.slots := List.mem_map_of_mem hb
    have hnot : t.slot b ≠ .deleted := by
      intro hslot
      have hpos := List.countP_pos_iff.mpr ⟨_, hmem, show (t.slot b).isDeleted = true by rw [hslot]; rfl⟩
      have := h.deleted
      omega
    unfold DenseHashtable.slot at hnot hmem ⊢
    by_cases hb0 : t.emptyval.1 = b.1
    · rw [if_pos hb0, if_pos hb0]
    · rw [if_neg hb0] at hnot hmem
      rw [if_neg hb0, if_neg hb0]
      by_cases hb1 : t.delkey = some b.1
      · rw [if_pos hb1] at hnot
        exact absurd rfl hnot
      · rw [if_neg hb1] at hmem
        have hentry : d.map b.1 = some b.2 := (h.represents b.1 b.2).mpr hmem
        have hb2 : delkey ≠ some b.1 := by
          intro heq
          rw [hnew b.1 heq] at hentry
          cases hentry
        rw [if_neg hb1, if_neg hb2]
  exact {
    buckets := h.buckets
    distinct := h.emptyKey ▸ hempty
    elements := hslots ▸ h.elements
    deleted := hslots ▸ h.deleted
    threshold := h.threshold
    room := h.room
    tidy := hslots ▸ h.tidy
    represents := hslots ▸ h.represents
    emptyKey := h.emptyKey
    delkey := rfl }

theorem Refines.setDeletedKey (h : Refines hash t d) {key : K} (hempty : key ≠ d.emptyKey) (hnew : d.map key = none) :
    ∃ t', t.setDeletedKey hash key = some t' ∧ Refines hash t' { d with deletedKey := some key } := by
  obtain ⟨t', ht', href, hdel⟩ := h.squashDeleted
  unfold DenseHashtable.setDeletedKey
  simp only [guard, if_pos (h.emptyKey.symm ▸ hempty : key ≠ t.emptyval.1), bind, Option.bind, pure, ht']
  exact ⟨_, rfl, href.withDelkey hdel (fun heq => hempty (Option.some.inj heq)) fun k hk => Option.some.inj hk ▸ hnew⟩

theorem Refines.clearDeletedKey (h : Refines hash t d) :
    ∃ t', t.clearDeletedKey hash = some t' ∧ Refines hash t' { d with deletedKey := none } := by
  obtain ⟨t', ht', href, hdel⟩ := h.squashDeleted
  unfold DenseHashtable.clearDeletedKey
  simp only [bind, Option.bind, pure, ht']
  exact ⟨_, rfl, href.withDelkey hdel (by simp) fun k hk => by cases hk⟩

variable [Inhabited T]

/-- The bucket is that of the key, in a table with the key. -/
theorem Refines.findOrInsert (h : Refines hash t d) {key : K} (hproper : d.Proper key) :
    ∃ i t', t.findOrInsert hash key = some (i, t') ∧ Refines hash t' (d.insert (key, default)) ∧
      t'.bucket i = (key, (d.map key).getD default) ∧ i < t'.bucketCount := by
  have hproper' := h.proper_iff.mpr hproper
  unfold DenseHashtable.findOrInsert
  simp only [guard, if_pos hproper', bind, Option.bind, pure]
  rcases h.findPosition_spec key with ⟨i, v, hpos, hslot, hm⟩ | ⟨i, hpos, hfound, hm⟩
  · obtain ⟨hlt, hbucket, -⟩ := h.bucket_of_slot hslot
    rw [hpos]
    refine ⟨i, t, rfl, ?_, ?_, hlt⟩
    · unfold Dict.insert
      rw [hm]
      exact h
    · rw [hbucket, hm]
      rfl
  · rw [hpos]
    obtain ⟨b, t1, ht1, h1, hroom, hsame⟩ := h.resizeDelta 1
    dsimp only
    rw [ht1]
    dsimp only
    cases b with
    | true =>
      obtain ⟨j, t2, ht2, h2, hbucket, hlt, -⟩ := h1.insertNoresize (show d.Proper (key, default).1 from hproper) hroom
      rw [if_pos rfl, ht2]
      exact ⟨j, t2, rfl, h2, hm ▸ hbucket, hlt⟩
    | false =>
      -- the table is where it was
      obtain ⟨c, rfl⟩ := hsame rfl
      rw [if_neg (by decide)]
      refine ⟨i, _, rfl, ?_, ?_, ?_⟩
      · have hin := h1.insertAt (show DenseHashtable.Proper { t with considerShrink := c } (key, default).1 from hproper') hfound hroom
        unfold Dict.insert
        rw [hm]
        exact hin
      · rw [hm]
        exact bucket_insertAt (t := { t with considerShrink := c }) (lt_of_found hfound)
      · have hcount : (DenseHashtable.insertAt { t with considerShrink := c } (key, default) i).bucketCount = t.bucketCount :=
          bucketCount_insertAt
        exact hcount ▸ lt_of_found hfound

/-- The reference is to the value of the key. -/
theorem Refines.index (h : Refines hash t d) {key : K} (hproper : d.Proper key) (f : T → T) :
    ∃ t', t.index hash key f = some ((d.map key).getD default, t') ∧ Refines hash t' (d.set key (f ((d.map key).getD default))) := by
  obtain ⟨i, t1, ht1, h1, hbucket, hlt⟩ := h.findOrInsert hproper
  have hmap : (d.insert (key, default)).map key = some ((d.map key).getD default) := by
    unfold Dict.insert Dict.set
    cases hm : d.map key <;> simp [hm]
  have hset : (d.insert (key, default)).set key (f ((d.map key).getD default)) = d.set key (f ((d.map key).getD default)) := by
    unfold Dict.insert Dict.set
    split
    · rfl
    · simp
  have hproper1 : t1.Proper key := h1.proper hmap
  have hslot : t1.slots[i]? = some (.full key ((d.map key).getD default)) := by
    rw [getElem?_slots hlt, hbucket]
    exact congrArg some (slot_of_proper (show t1.Proper (key, (d.map key).getD default).1 from hproper1))
  unfold DenseHashtable.index
  simp only [ht1, bind, Option.bind, pure, hbucket]
  refine ⟨_, rfl, ?_⟩
  rw [← hset]
  exact h1.put hslot (show t1.Proper (key, f ((d.map key).getD default)).1 from hproper1) (h1.tidy.reached i _ _ hslot)
    (fun k w heq => by cases heq; rfl) (fun j w hj => h1.tidy.unique j i key _ _ hj hslot) (by simp [Slot.isEmpty])
    (by simp [Slot.isDeleted]) h1.room

/-! ### Deletion -/

/-- The mark takes the place of an entry. -/
theorem Refines.mark (h : Refines hash t d) {i : Nat} {key delkey : K} {v : T} (hi : t.slots[i]? = some (.full key v))
    (hdelkey : t.delkey = some delkey) :
    Refines hash { t with table := t.table.set i (delkey, default), numDeleted := t.numDeleted + 1, considerShrink := true }
      (d.erase key) := by
  have hslot : t.slot (delkey, default) = .deleted := by
    unfold DenseHashtable.slot
    have hne : t.emptyval.1 ≠ delkey := by
      rintro rfl
      exact h.distinct hdelkey
    rw [if_neg hne, if_pos hdelkey]
  have hslots : DenseHashtable.slots
      { t with table := t.table.set i (delkey, default), numDeleted := t.numDeleted + 1, considerShrink := true } =
      t.slots.set i .deleted := by
    rw [← hslot]
    exact List.map_set
  have hcount : DenseHashtable.bucketCount
      { t with table := t.table.set i (delkey, default), numDeleted := t.numDeleted + 1, considerShrink := true } = t.bucketCount :=
    List.length_set
  have hempty := countP_set_slot (p := Slot.isEmpty) (y := .deleted) hi
  have hdel := countP_set_slot (p := Slot.isDeleted) (y := .deleted) hi
  simp only [Slot.isEmpty, Slot.isDeleted] at hempty hdel
  exact {
    buckets := hcount ▸ h.buckets
    distinct := h.distinct
    elements := by
      rw [hslots, hcount, ← h.elements]
      dsimp only
      simpa using hempty
    deleted := by
      rw [hslots]
      have := h.deleted
      dsimp only
      simp at hdel
      omega
    threshold := hcount ▸ h.threshold
    room := h.room
    tidy := by
      rw [hslots, hcount]
      exact h.tidy.set_deleted (List.getElem?_eq_some_iff.mp hi).1
    represents := by
      rw [hslots]
      exact h.represents.set_deleted hi fun j w hj => h.tidy.unique j i key w v hj hi
    emptyKey := h.emptyKey
    delkey := h.delkey }

theorem Refines.erase (h : Refines hash t d) {key : K} (hproper : d.Proper key)
    (hdeleted : (d.map key).isSome → d.deletedKey.isSome) :
    ∃ t', t.erase hash key = some (if (d.map key).isSome then 1 else 0, t') ∧ Refines hash t' (d.erase key) := by
  obtain ⟨pos, hpos, hmap, hslot⟩ := h.find key
  unfold DenseHashtable.erase
  simp only [guard, if_pos (h.proper_iff.mpr hproper), bind, Option.bind, pure, hpos]
  cases pos with
  | none =>
    have hnone : d.map key = none := by simpa using hmap.symm
    refine ⟨t, by rw [hnone]; rfl, ?_⟩
    unfold Dict.erase
    rwa [← hnone, Function.update_eq_self]
  | some i =>
    obtain ⟨v, hv⟩ := hslot i rfl
    have hsome : d.map key = some v := (h.bucket_of_slot hv).2.2
    rw [hsome] at hdeleted ⊢
    obtain ⟨delkey, hdelkey⟩ := Option.isSome_iff_exists.mp (hdeleted rfl)
    rw [← h.delkey] at hdelkey
    have hset : t.setDeleted i = some { t with table := t.table.set i (delkey, default) } := by
      unfold DenseHashtable.setDeleted
      rw [hdelkey, Option.map_some]
    simp only [hset]
    exact ⟨_, rfl, h.mark hv hdelkey⟩

end Operations

end Rv8.Hash
