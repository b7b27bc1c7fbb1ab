import Mathlib.Data.Finset.Card
import Mathlib.Data.List.Count
import Mathlib.Data.Nat.Prime.Basic
import Mathlib.Data.Set.Card
import Mathlib.Tactic.Ring
/-!
# Open addressing

A table with one entry in a slot. The slots that a key may be in are tried in the order of
a probe sequence, up to an empty one. A key that is removed leaves a mark, so that the
slots behind it are still found.

With a power of two of slots, steps of 1, 2, 3 and so on get to every slot.
-/

namespace Rv8.Lib.Probing

/-! ## Triangular steps -/

/-- How far `p` steps get. -/
def triangle : Nat → Nat
  | 0 => 0
  | p + 1 => triangle p + (p + 1)

theorem two_mul_triangle (p : Nat) : 2 * triangle p = p * (p + 1) := by
  induction p with
  | zero => rfl
  | succ p ih =>
    rw [triangle, Nat.mul_add, ih]
    ring

/-- Fewer than `2 ^ k` steps never get to a place again. -/
theorem triangle_mod_inj {k a b : Nat} (ha : a < 2 ^ k) (hb : b < 2 ^ k) (h : triangle a % 2 ^ k = triangle b % 2 ^ k) : a = b := by
  wlog hab : a ≤ b generalizing a b
  · exact (this hb ha h.symm (by omega)).symm
  by_contra hne
  obtain ⟨c, rfl⟩ := Nat.exists_eq_add_of_le hab
  -- twice the distance is a product, one factor of which is odd
  have hmono : triangle a ≤ triangle (a + c) := by
    clear h hb hab hne
    induction c with
    | zero => exact le_rfl
    | succ c ih => exact ih.trans (Nat.le_add_right _ _)
  have hdvd : 2 ^ k ∣ triangle (a + c) - triangle a := (Nat.modEq_iff_dvd' hmono).mp h
  have hprod : 2 * (triangle (a + c) - triangle a) = c * (2 * a + c + 1) := by
    have hexpand : (a + c) * (a + c + 1) = a * (a + 1) + c * (2 * a + c + 1) := by ring
    rw [Nat.mul_sub, two_mul_triangle, two_mul_triangle, hexpand, Nat.add_sub_cancel_left]
  have hdvd2 : 2 ^ (k + 1) ∣ c * (2 * a + c + 1) := by
    rw [← hprod, pow_succ, Nat.mul_comm]
    exact Nat.mul_dvd_mul_left 2 hdvd
  rcases Nat.even_or_odd c with hc | hc
  · have hodd : Nat.Coprime (2 ^ (k + 1)) (2 * a + c + 1) := by
      refine Nat.Coprime.pow_left _ (Nat.coprime_two_left.mpr ?_)
      obtain ⟨d, rfl⟩ := hc
      exact ⟨a + d, by omega⟩
    have hle := Nat.le_of_dvd (by omega) (hodd.dvd_of_dvd_mul_right hdvd2)
    rw [pow_succ] at hle
    omega
  · have hodd : Nat.Coprime (2 ^ (k + 1)) c := Nat.Coprime.pow_left _ (Nat.coprime_two_left.mpr hc)
    have hle := Nat.le_of_dvd (by omega) (hodd.dvd_of_dvd_mul_left hdvd2)
    rw [pow_succ] at hle
    omega

/-- They get to every place. -/
theorem exists_triangle {k i : Nat} (start : Nat) (hi : i < 2 ^ k) : ∃ p < 2 ^ k, (start + triangle p) % 2 ^ k = i := by
  have hmaps : ∀ p ∈ Finset.range (2 ^ k), (start + triangle p) % 2 ^ k ∈ Finset.range (2 ^ k) :=
    fun p _ => Finset.mem_range.mpr (Nat.mod_lt _ (Nat.two_pow_pos k))
  have hinj : Set.InjOn (fun p => (start + triangle p) % 2 ^ k) (Finset.range (2 ^ k) : Finset Nat) := by
    intro a ha b hb h
    have hmod : start + triangle a ≡ start + triangle b [MOD 2 ^ k] := h
    exact triangle_mod_inj (Finset.mem_range.mp ha) (Finset.mem_range.mp hb) (Nat.ModEq.add_left_cancel' start hmod)
  have hsurj := Finset.surjOn_of_injOn_of_card_le _ hmaps hinj le_rfl
  obtain ⟨p, hp, heq⟩ := hsurj (Finset.mem_coe.mpr (Finset.mem_range.mpr hi))
  exact ⟨p, Finset.mem_range.mp hp, heq⟩

/-! ## Slots -/

inductive Slot (K V : Type)
  | empty
  | deleted
  | full (k : K) (v : V)
deriving DecidableEq

/-- The slots of a key, in the order in which they are tried. -/
structure Probes {K : Type} (n : Nat) (probe : K → Nat → Nat) : Prop where
  lt : ∀ k p, probe k p < n
  covers : ∀ k i, i < n → ∃ p < n, probe k p = i

theorem probes_triangle {K : Type} (hash : K → Nat) (k : Nat) : Probes (2 ^ k) fun key p => (hash key + triangle p) % 2 ^ k where
  lt _ _ := Nat.mod_lt _ (Nat.two_pow_pos k)
  covers key _ hi := exists_triangle (hash key) hi

section Slots
variable {K V : Type} {s : List (Slot K V)} {probe : K → Nat → Nat} {m : K → Option V} {i p : Nat} {k : K} {v : V}

/-- None of the first `p` slots is empty. -/
def Passed (s : List (Slot K V)) (probe : Nat → Nat) (p : Nat) : Prop := ∀ q < p, s[probe q]? ≠ some .empty

/-- Each key is in one slot, and its search gets there. -/
structure Tidy (probe : K → Nat → Nat) (s : List (Slot K V)) : Prop where
  reached : ∀ (i : Nat) (k : K) (v : V), s[i]? = some (.full k v) → ∃ p, probe k p = i ∧ Passed s (probe k) p
  unique : ∀ (i j : Nat) (k : K) (v w : V), s[i]? = some (.full k v) → s[j]? = some (.full k w) → i = j

/-- The table is the map `m`. -/
def Represents (s : List (Slot K V)) (m : K → Option V) : Prop := ∀ k v, m k = some v ↔ .full k v ∈ s

theorem getElem?_set_slot (x : Slot K V) (j : Nat) (hi : i < s.length) :
    (s.set i x)[j]? = if j = i then some x else s[j]? := by
  rw [List.getElem?_set]
  by_cases hj : i = j
  · rw [if_pos hj, if_pos hj.symm, if_pos (hj ▸ hi)]
  · rw [if_neg hj, if_neg (Ne.symm hj)]

theorem Passed.set {probe : Nat → Nat} (h : Passed s probe p) {x : Slot K V} (hx : x ≠ .empty) (hi : i < s.length) :
    Passed (s.set i x) probe p := by
  intro q hq
  rw [getElem?_set_slot x _ hi]
  split
  · exact fun heq => hx (Option.some.inj heq)
  · exact h q hq

theorem tidy_replicate (n : Nat) : Tidy probe (List.replicate n (.empty : Slot K V)) where
  reached i k v h := by
    rw [List.getElem?_replicate] at h
    split at h <;> cases h
  unique i j k v w h := by
    rw [List.getElem?_replicate] at h
    split at h <;> cases h

/-- A key is put where its search has got to, and is nowhere else. -/
theorem Tidy.set_full (h : Tidy probe s) (hi : i < s.length) (hpath : ∃ p, probe k p = i ∧ Passed s (probe k) p)
    (hnew : ∀ (j : Nat) (w : V), s[j]? = some (.full k w) → j = i) : Tidy probe (s.set i (.full k v)) where
  reached j k' v' hj := by
    have hpath' : ∃ p, probe k' p = j ∧ Passed s (probe k') p := by
      rw [getElem?_set_slot _ _ hi] at hj
      split at hj
      · next heq =>
        cases hj
        exact heq ▸ hpath
      · exact h.reached j k' v' hj
    obtain ⟨p, hp, hpassed⟩ := hpath'
    exact ⟨p, hp, hpassed.set (by simp) hi⟩
  unique j j' k' v' w hj hj' := by
    rw [getElem?_set_slot _ _ hi] at hj hj'
    split at hj
    · next heq =>
      cases hj
      split at hj'
      · next heq' => rw [heq, heq']
      · exact heq.trans (hnew j' w hj').symm
    · split at hj'
      · next heq' =>
        cases hj'
        exact (hnew j v' hj).trans heq'.symm
      · exact h.unique j j' k' v' w hj hj'

/-- The mark of a key that is removed keeps the ways over it. -/
theorem Tidy.set_deleted (h : Tidy probe s) (hi : i < s.length) : Tidy probe (s.set i .deleted) where
  reached j k' v' hj := by
    rw [getElem?_set_slot _ _ hi] at hj
    split at hj
    · cases hj
    · obtain ⟨p, hp, hpassed⟩ := h.reached j k' v' hj
      exact ⟨p, hp, hpassed.set (by simp) hi⟩
  unique j j' k' v' w hj hj' := by
    rw [getElem?_set_slot _ _ hi] at hj hj'
    split at hj
    · cases hj
    · split at hj'
      · cases hj'
      · exact h.unique j j' k' v' w hj hj'

/-! ### What is in a table -/

theorem represents_iff : Represents s m ↔ ∀ k v, m k = some v ↔ ∃ i : Nat, s[i]? = some (.full k v) := by
  simp only [Represents, List.mem_iff_getElem?]

theorem represents_replicate (n : Nat) : Represents (List.replicate n (.empty : Slot K V)) fun _ => none := by
  intro k v
  simp [List.mem_replicate]

theorem Represents.eq_none (h : Represents s m) (hk : ∀ (j : Nat) (w : V), s[j]? ≠ some (.full k w)) : m k = none := by
  cases hm : m k with
  | none => rfl
  | some w =>
    obtain ⟨j, hj⟩ := (represents_iff.mp h k w).mp hm
    exact absurd hj (hk j w)

section Update
variable [DecidableEq K]

theorem Represents.set_full (h : Represents s m) (hi : i < s.length) (hlost : ∀ (k' : K) (w : V), s[i]? = some (.full k' w) → k' = k)
    (hnew : ∀ (j : Nat) (w : V), s[j]? = some (.full k w) → j = i) : Represents (s.set i (.full k v)) (Function.update m k (some v)) := by
  rw [represents_iff] at h ⊢
  intro k' v'
  by_cases hk : k' = k
  · subst hk
    rw [Function.update_self]
    constructor
    · intro heq
      cases heq
      exact ⟨i, by rw [getElem?_set_slot _ _ hi, if_pos rfl]⟩
    · rintro ⟨j, hj⟩
      rw [getElem?_set_slot _ _ hi] at hj
      split at hj
      · cases hj
        rfl
      · next hne => exact absurd (hnew j v' hj) hne
  · rw [Function.update_of_ne hk, h k' v']
    refine exists_congr fun j => ?_
    rw [getElem?_set_slot _ _ hi]
    split
    · next heq =>
      subst heq
      refine iff_of_false (fun hj => hk (hlost k' v' hj)) fun hj => ?_
      cases hj
      exact hk rfl
    · rfl

theorem Represents.set_deleted (h : Represents s m) (hi : s[i]? = some (.full k v))
    (hnew : ∀ (j : Nat) (w : V), s[j]? = some (.full k w) → j = i) : Represents (s.set i .deleted) (Function.update m k none) := by
  have hlt : i < s.length := (List.getElem?_eq_some_iff.mp hi).1
  rw [represents_iff] at h ⊢
  intro k' v'
  by_cases hk : k' = k
  · subst hk
    rw [Function.update_self]
    refine iff_of_false (by simp) ?_
    rintro ⟨j, hj⟩
    rw [getElem?_set_slot _ _ hlt] at hj
    split at hj
    · cases hj
    · next hne => exact absurd (hnew j v' hj) hne
  · rw [Function.update_of_ne hk, h k' v']
    refine exists_congr fun j => ?_
    rw [getElem?_set_slot _ _ hlt]
    split
    · next heq =>
      subst heq
      refine iff_of_false (fun hj => ?_) (by simp)
      rw [hi] at hj
      cases hj
      exact hk rfl
    · rfl

end Update

/-! ### How many -/

def Slot.toEntry : Slot K V → Option (K × V)
  | .full k v => some (k, v)
  | _ => none

def Slot.isEmpty : Slot K V → Bool
  | .empty => true
  | _ => false

def Slot.isDeleted : Slot K V → Bool
  | .deleted => true
  | _ => false

theorem Slot.toEntry_eq_some {x : Slot K V} {e : K × V} : x.toEntry = some e ↔ x = .full e.1 e.2 := by
  cases x <;> simp [Slot.toEntry, Prod.ext_iff, eq_comm]

def entries (s : List (Slot K V)) : List (K × V) := s.filterMap Slot.toEntry

theorem mem_entries {e : K × V} : e ∈ entries s ↔ .full e.1 e.2 ∈ s := by
  simp only [entries, List.mem_filterMap, Slot.toEntry_eq_some]
  constructor
  · rintro ⟨x, hx, rfl⟩
    exact hx
  · intro h
    exact ⟨_, h, rfl⟩

theorem Represents.mem_entries (h : Represents s m) {e : K × V} : e ∈ entries s ↔ m e.1 = some e.2 :=
  Probing.mem_entries.trans (h e.1 e.2).symm

/-- No key comes twice. -/
theorem Tidy.nodup_keys (h : Tidy probe s) : ((entries s).map Prod.fst).Nodup := by
  have hslots : s.Pairwise fun x y => ∀ e ∈ x.toEntry, ∀ e' ∈ y.toEntry, e.1 ≠ e'.1 := by
    rw [List.pairwise_iff_getElem]
    intro i j hi hj hij e he e' he' hkey
    rw [Option.mem_def, Slot.toEntry_eq_some] at he he'
    have hij' := h.unique i j e.1 e.2 e'.2 (by rw [List.getElem?_eq_getElem hi, he]) (by rw [List.getElem?_eq_getElem hj, he', hkey])
    omega
  rw [List.Nodup, List.pairwise_map]
  exact List.pairwise_filterMap.mpr (hslots.imp fun hne e he e' he' => hne e he e' he')

theorem length_entries : (entries s).length + s.countP Slot.isEmpty + s.countP Slot.isDeleted = s.length := by
  induction s with
  | nil => rfl
  | cons x s ih =>
    cases x <;> simp only [entries, List.filterMap_cons, Slot.toEntry, List.countP_cons, Slot.isEmpty, Slot.isDeleted, List.length_cons] at ih ⊢ <;>
      simp <;> omega

/-- The entries are as many as the keys of the map. -/
theorem ncard_represents (h : Represents s m) (htidy : Tidy probe s) : {k | (m k).isSome}.ncard = (entries s).length := by
  classical
  have hkeys : {k | (m k).isSome} = (((entries s).map Prod.fst).toFinset : Set K) := by
    ext k
    simp only [Set.mem_ofPred_eq, Option.isSome_iff_exists, List.coe_toFinset, List.mem_map, Prod.exists, exists_and_right,
      exists_eq_right]
    exact exists_congr fun v => (h.mem_entries : (k, v) ∈ _ ↔ _).symm
  rw [hkeys, Set.ncard_coe_finset, List.toFinset_card_of_nodup htidy.nodup_keys, List.length_map]

/-! ### Searches -/

/-- Where a key is, or where it is to be put. -/
inductive Position
  | found (i : Nat)
  | free (i : Nat)
deriving DecidableEq

/-- The slots from the `p`-th on are tried; `hole` is the first one with a mark. -/
def findSlot [DecidableEq K] (s : List (Slot K V)) (probe : Nat → Nat) (k : K) : Nat → Nat → Option Nat → Option Position
  | 0, _, _ => none
  | fuel + 1, p, hole =>
    match s[probe p]? with
    | some (.full k' _) => if k = k' then some (.found (probe p)) else findSlot s probe k fuel (p + 1) hole
    | some .deleted => findSlot s probe k fuel (p + 1) (some (hole.getD (probe p)))
    | _ => some (.free (hole.getD (probe p)))

/-- What a search tells. -/
def Found (probe : K → Nat → Nat) (s : List (Slot K V)) (k : K) : Position → Prop
  | .found i => ∃ v, s[i]? = some (.full k v)
  | .free i => (s[i]? = some .empty ∨ s[i]? = some .deleted) ∧ (∃ p, probe k p = i ∧ Passed s (probe k) p) ∧
      ∀ (j : Nat) (v : V), s[j]? ≠ some (.full k v)

section Search
variable [DecidableEq K]

theorem findSlot_found (hprobes : Probes s.length probe) (htidy : Tidy probe s) (hempty : Slot.empty ∈ s) {hole : Option Nat}
    (fuel p : Nat) (hfuel : p + fuel = s.length) (hpassed : Passed s (probe k) p)
    (hunseen : ∀ q < p, ∀ v, s[probe k q]? ≠ some (.full k v))
    (hhole : ∀ i, hole = some i → s[i]? = some .deleted ∧ ∃ q, probe k q = i ∧ Passed s (probe k) q) :
    ∃ pos, findSlot s (probe k) k fuel p hole = some pos ∧ Found probe s k pos := by
  induction fuel generalizing p hole with
  | zero =>
    -- all slots are passed, one of them empty
    obtain ⟨i, hi⟩ := List.mem_iff_getElem?.mp hempty
    obtain ⟨q, hq, rfl⟩ := hprobes.covers k i (List.getElem?_eq_some_iff.mp hi).1
    exact absurd hi (hpassed q (by omega))
  | succ fuel ih =>
    have hlt := hprobes.lt k p
    have hgo {hole' : Option Nat} (hslot : s[probe k p]? ≠ some .empty) (hnot : ∀ v, s[probe k p]? ≠ some (.full k v))
        (hhole' : ∀ i, hole' = some i → s[i]? = some .deleted ∧ ∃ q, probe k q = i ∧ Passed s (probe k) q) :
        ∃ pos, findSlot s (probe k) k fuel (p + 1) hole' = some pos ∧ Found probe s k pos := by
      refine ih (p + 1) (by omega) ?_ ?_ hhole'
      · intro q hq
        rcases Nat.lt_succ_iff_lt_or_eq.mp hq with hq | rfl
        · exact hpassed q hq
        · exact hslot
      · intro q hq
        rcases Nat.lt_succ_iff_lt_or_eq.mp hq with hq | rfl
        · exact hunseen q hq
        · exact hnot
    unfold findSlot
    cases hslot : s[probe k p] with
    | full k' v' =>
      have hsome : s[probe k p]? = some (.full k' v') := by rw [List.getElem?_eq_getElem hlt, hslot]
      rw [hsome]
      dsimp only
      split
      · next heq => exact ⟨_, rfl, v', heq ▸ hsome⟩
      · next hne =>
        refine hgo (by simp [hsome]) (fun v heq => ?_) hhole
        rw [hsome] at heq
        cases heq
        exact hne rfl
    | deleted =>
      have hsome : s[probe k p]? = some .deleted := by rw [List.getElem?_eq_getElem hlt, hslot]
      rw [hsome]
      dsimp only
      refine hgo (by simp [hsome]) (by simp [hsome]) ?_
      rintro i hi
      cases hole with
      | none =>
        cases hi
        exact ⟨hsome, p, rfl, hpassed⟩
      | some j =>
        cases hi
        exact hhole j rfl
    | empty =>
      have hsome : s[probe k p]? = some .empty := by rw [List.getElem?_eq_getElem hlt, hslot]
      rw [hsome]
      refine ⟨_, rfl, ?_, ?_, ?_⟩
      · cases hole with
        | none => exact .inl hsome
        | some j => exact .inr (hhole j rfl).1
      · cases hole with
        | none => exact ⟨p, rfl, hpassed⟩
        | some j => exact (hhole j rfl).2
      · intro j v hj
        obtain ⟨q, rfl, hq⟩ := htidy.reached j k v hj
        rcases Nat.lt_trichotomy q p with hqp | rfl | hqp
        · exact hunseen q hqp v hj
        · rw [hsome] at hj
          cases hj
        · exact hq p hqp hsome

/-- A table with an empty slot is searched to an end. -/
theorem findSlot_spec (hprobes : Probes s.length probe) (htidy : Tidy probe s) (hempty : Slot.empty ∈ s) (k : K) :
    ∃ pos, findSlot s (probe k) k s.length 0 none = some pos ∧ Found probe s k pos :=
  findSlot_found hprobes htidy hempty s.length 0 (Nat.zero_add _) (fun _ h => absurd h (Nat.not_lt_zero _))
    (fun _ h => absurd h (Nat.not_lt_zero _)) (fun _ h => by cases h)

end Search

/-- The first empty slot from the `p`-th on. -/
def findFree (s : List (Slot K V)) (probe : Nat → Nat) : Nat → Nat → Option Nat
  | 0, _ => none
  | fuel + 1, p =>
    match s[probe p]? with
    | some .empty => some (probe p)
    | _ => findFree s probe fuel (p + 1)

theorem findFree_passed (hprobes : Probes s.length probe) (hempty : Slot.empty ∈ s) (k : K) (fuel p : Nat)
    (hfuel : p + fuel = s.length) (hpassed : Passed s (probe k) p) :
    ∃ q, findFree s (probe k) fuel p = some (probe k q) ∧ s[probe k q]? = some .empty ∧ Passed s (probe k) q := by
  induction fuel generalizing p with
  | zero =>
    obtain ⟨i, hi⟩ := List.mem_iff_getElem?.mp hempty
    obtain ⟨q, hq, rfl⟩ := hprobes.covers k i (List.getElem?_eq_some_iff.mp hi).1
    exact absurd hi (hpassed q (by omega))
  | succ fuel ih =>
    unfold findFree
    split
    · next hslot => exact ⟨p, rfl, hslot, hpassed⟩
    · next hslot =>
      refine ih (p + 1) (by omega) fun q hq => ?_
      rcases Nat.lt_succ_iff_lt_or_eq.mp hq with hq | rfl
      · exact hpassed q hq
      · exact fun heq => hslot heq

theorem findFree_spec (hprobes : Probes s.length probe) (hempty : Slot.empty ∈ s) (k : K) :
    ∃ q, findFree s (probe k) s.length 0 = some (probe k q) ∧ s[probe k q]? = some .empty ∧ Passed s (probe k) q :=
  findFree_passed hprobes hempty k s.length 0 (Nat.zero_add _) fun _ h => absurd h (Nat.not_lt_zero _)

end Slots

end Rv8.Lib.Probing
