import Rv8.Emu.Memory
/-!
# Accesses and segments

`user_memory` picks a segment by the first byte of an access alone, with a sum that
wraps at the top of the address space. Whether the other bytes are in the segment is
nobody's concern, so an access stays in its segment only where the segment goes on.
-/

namespace Rv8.Emu

/-- The segment is a range of the address space and the address is in it. -/
def Segment.Contains (seg : Segment) (mpa : Nat) : Prop :=
  seg.mpa ≤ mpa ∧ mpa < seg.mpa + seg.size ∧ seg.mpa + seg.size ≤ 2 ^ 64

/-- Base and size are machine words. -/
def Segment.IsWord (seg : Segment) : Prop := seg.mpa < 2 ^ 64 ∧ seg.size < 2 ^ 64

/-- No address is in two segments. -/
def NonOverlapping (segments : List Segment) : Prop :=
  segments.Pairwise fun seg seg' => ∀ mpa, ¬ (seg.Contains mpa ∧ seg'.Contains mpa)

/-- The test of `mpa_to_uva` finds the addresses of a segment, and for an empty segment at 0 it finds every address. -/
theorem Segment.holds_iff {seg : Segment} (h : seg.IsWord) {mpa : Nat} (hmpa : mpa < 2 ^ 64) :
    seg.Holds mpa ↔ seg.Contains mpa ∨ seg = ⟨0, 0⟩ := by
  obtain ⟨base, size⟩ := seg
  obtain ⟨hbase, hsize⟩ := h
  simp only [Segment.Holds, Segment.Contains, Segment.mk.injEq]
  dsimp only at hbase hsize
  rcases Nat.lt_trichotomy (base + size) (2 ^ 64) with hlt | heq | hgt
  · rw [Nat.mod_eq_of_lt hlt]
    omega
  · rw [heq, Nat.mod_self]
    omega
  · rw [Nat.mod_eq_sub_mod (by omega), Nat.mod_eq_of_lt (by omega)]
    omega

namespace UserMemory

variable (m : UserMemory) (n mpa : Nat)

/-- The segment an access is dispatched to. -/
def dispatched : Option Segment := m.segments.find? fun seg => seg.Holds mpa

/-- Either all bytes of an access are in the one segment it is dispatched to, or loads and stores fail. -/
def Confined : Prop :=
  (∃ seg, m.dispatched mpa = some seg ∧ ∀ i < n, seg.Contains (mpa + i)) ∨
  (m.load n mpa = none ∧ ∀ val, m.store n mpa val = none)

/-- An empty segment at 0 comes before the segment that contains the address, or there is none that does. -/
def Swallowed : List Segment → Prop
  | [] => False
  | seg :: segments => seg = ⟨0, 0⟩ ∨ ¬ seg.Contains mpa ∧ Swallowed segments

/-- No segment that contains the first byte ends before the last one, and the address is not swallowed. -/
def Fits (segments : List Segment) : Prop :=
  (∀ seg ∈ segments, seg.Contains mpa → mpa + n ≤ seg.mpa + seg.size) ∧ ¬ Swallowed mpa segments

variable {m n mpa}

theorem mpaToUva_eq_none_iff {segments : List Segment} {k : Nat} :
    mpaToUva mpa segments k = none ↔ segments.find? (fun seg => seg.Holds mpa) = none := by
  induction segments generalizing k with
  | nil => exact iff_of_true rfl rfl
  | cons seg segments ih =>
    unfold mpaToUva
    by_cases h : seg.Holds mpa
    · rw [if_pos h, List.find?_cons_of_pos (by simpa using h)]
      exact iff_of_false (Option.some_ne_none _) (Option.some_ne_none _)
    · rw [if_neg h, List.find?_cons_of_neg (by simpa using h)]
      exact ih

/-- The lookup goes to the dispatched segment. -/
theorem segment_of_uva {k off : Nat} (h : m.uva mpa = some (k, off)) : m.segments[k]? = m.dispatched mpa := by
  have main : ∀ (segments : List Segment) (first k off : Nat), mpaToUva mpa segments first = some (k, off) →
      first ≤ k ∧ segments[k - first]? = segments.find? fun seg => seg.Holds mpa := by
    intro segments
    induction segments with
    | nil => exact fun _ _ _ h => nomatch h
    | cons seg segments ih =>
      intro first k off h
      unfold mpaToUva at h
      by_cases hs : seg.Holds mpa
      · rw [if_pos hs] at h
        obtain ⟨rfl, rfl⟩ := Prod.mk.inj (Option.some.inj h)
        rw [List.find?_cons_of_pos (by simpa using hs), Nat.sub_self]
        exact ⟨Nat.le_refl _, rfl⟩
      · rw [if_neg hs] at h
        obtain ⟨hle, hk⟩ := ih (first + 1) k off h
        rw [List.find?_cons_of_neg (by simpa using hs), ← hk, show k - first = k - (first + 1) + 1 by omega]
        exact ⟨by omega, rfl⟩
  exact (main m.segments 0 k off h).2

theorem confined_iff_dispatched :
    m.Confined n mpa ↔ ∀ seg, m.dispatched mpa = some seg → ∀ i < n, seg.Contains (mpa + i) := by
  constructor
  · rintro (⟨seg, hseg, hin⟩ | ⟨hload, -⟩) seg' hseg'
    · rw [hseg] at hseg'
      obtain rfl := Option.some.inj hseg'
      exact hin
    · have hnone : m.dispatched mpa = none := mpaToUva_eq_none_iff.1 (Option.map_eq_none_iff.1 hload)
      rw [hnone] at hseg'
      cases hseg'
  · intro h
    cases hd : m.dispatched mpa with
    | some seg => exact .inl ⟨seg, hd, h seg hd⟩
    | none =>
      have hnone : m.uva mpa = none := mpaToUva_eq_none_iff.2 hd
      exact .inr ⟨Option.map_eq_none_iff.2 hnone, fun val => Option.map_eq_none_iff.2 hnone⟩

theorem contains_all_iff {seg : Segment} (hn : 0 < n) (h : seg.Contains mpa) :
    (∀ i < n, seg.Contains (mpa + i)) ↔ mpa + n ≤ seg.mpa + seg.size := by
  constructor
  · intro hin
    have := (hin (n - 1) (by omega)).2.1
    omega
  · intro hle i hi
    exact ⟨by have := h.1; omega, by omega, h.2.2⟩

theorem dispatched_fits_iff {segments : List Segment} (hword : ∀ seg ∈ segments, seg.IsWord) (hover : NonOverlapping segments)
    (hmpa : mpa < 2 ^ 64) (hn : 0 < n) :
    (∀ seg, segments.find? (fun seg => seg.Holds mpa) = some seg → ∀ i < n, seg.Contains (mpa + i)) ↔ Fits n mpa segments := by
  induction segments with
  | nil => exact iff_of_true nofun ⟨nofun, id⟩
  | cons seg segments ih =>
    have hholds := Segment.holds_iff (hword seg List.mem_cons_self) hmpa
    by_cases h : seg.Holds mpa
    · rw [List.find?_cons_of_pos (by simpa using h)]
      rcases hholds.1 h with hc | rfl
      · -- the segment contains the address, and no later one does
        have hother : ∀ seg' ∈ segments, ¬ seg'.Contains mpa := fun seg' hs hc' =>
          (List.pairwise_cons.1 hover).1 seg' hs mpa ⟨hc, hc'⟩
        have hne : seg ≠ ⟨0, 0⟩ := by
          rintro rfl
          exact absurd hc.2.1 (Nat.not_lt_zero mpa)
        constructor
        · intro hin
          refine ⟨fun seg' hs hc' => ?_, ?_⟩
          · rcases List.mem_cons.1 hs with rfl | hs
            · exact (contains_all_iff hn hc).1 (hin _ rfl)
            · exact absurd hc' (hother seg' hs)
          · rintro (heq | ⟨hnot, -⟩)
            · exact hne heq
            · exact hnot hc
        · intro hfits seg' hs
          obtain rfl := Option.some.inj hs
          exact (contains_all_iff hn hc).2 (hfits.1 _ List.mem_cons_self hc)
      · refine iff_of_false (fun hin => ?_) fun hfits => hfits.2 (.inl rfl)
        exact absurd (hin _ rfl 0 hn).2.1 (Nat.not_lt_zero _)
    · rw [List.find?_cons_of_neg (by simpa using h), ih (fun seg' hs => hword seg' (List.mem_cons_of_mem seg hs)) hover.of_cons]
      rw [hholds, not_or] at h
      refine and_congr ?_ (not_congr ?_)
      · exact ⟨fun hf seg' hs hc => (List.mem_cons.1 hs).elim (fun heq => absurd (heq ▸ hc) h.1) fun hs => hf seg' hs hc,
          fun hf seg' hs => hf seg' (List.mem_cons_of_mem seg hs)⟩
      · exact ⟨fun hs => .inr ⟨h.1, hs⟩, fun hs => hs.elim (fun heq => absurd heq h.2) And.right⟩

/-- An access stays in one segment exactly if the segment that contains its first byte goes on to its last, and no empty
segment at 0 is asked first. -/
theorem access_confined_iff {m : UserMemory} {n mpa : Nat} (hword : ∀ seg ∈ m.segments, seg.IsWord)
    (hover : NonOverlapping m.segments) (hmpa : mpa < 2 ^ 64) (hn : n ∈ [1, 2, 4, 8]) :
    m.Confined n mpa ↔ Fits n mpa m.segments := by
  have hpos : 0 < n := by
    simp only [List.mem_cons, List.not_mem_nil, or_false] at hn
    omega
  exact confined_iff_dispatched.trans (dispatched_fits_iff hword hover hmpa hpos)

/-- A page at the top of the address space. -/
def topPage : UserMemory := ⟨[⟨2 ^ 64 - 4096, 4096⟩], fun _ _ => 0⟩

/-- Its last word. -/
theorem access_confined_iff_top : topPage.Confined 8 (2 ^ 64 - 8) := by
  have hword : ∀ seg ∈ topPage.segments, seg.IsWord := by
    intro seg hs
    obtain rfl := List.mem_singleton.1 hs
    exact ⟨by decide, by decide⟩
  have hfits : Fits 8 (2 ^ 64 - 8) topPage.segments := by
    refine ⟨fun seg hs _ => ?_, fun h => h.elim nofun fun h => h.2⟩
    obtain rfl := List.mem_singleton.1 hs
    decide
  exact (access_confined_iff hword (List.pairwise_singleton _ _) (by decide) (by decide)).2 hfits

/-- Eight bytes, the last four of a page and four behind it. -/
theorem not_confined_last : ¬ ∀ (m : UserMemory) (n mpa : Nat), (∀ seg ∈ m.segments, seg.IsWord) → NonOverlapping m.segments →
    mpa < 2 ^ 64 → n ∈ [1, 2, 4, 8] → m.Confined n mpa := by
  intro h
  let m : UserMemory := ⟨[⟨0x80000000, 4096⟩], fun _ _ => 0⟩
  have hword : ∀ seg ∈ m.segments, seg.IsWord := by
    intro seg hs
    obtain rfl := List.mem_singleton.1 hs
    exact ⟨by decide, by decide⟩
  have hin := confined_iff_dispatched.1 (h m 8 0x80000ffc hword (List.pairwise_singleton _ _) (by decide) (by decide))
  exact absurd (hin ⟨0x80000000, 4096⟩ rfl 7 (by decide)).2.1 (by decide)

end UserMemory

end Rv8.Emu
