import Mathlib.Tactic.Ring
import Rv8.Emu.Cache
/-!
# The sets of the cache

A lookup searches one set, so a line must sit in the set its number maps to, and in
one way of it only. `Tagged` is that invariant with what makes it inductive: an
entry that is still empty carries a page number no cacheable line has, so that it is
never taken for a hit.

The lookup, the fill and the eviction keep it. The branch of `load_val` for a value
that runs into the next line does not look that line up: it retags the entry after
the first line's. The invariant survives where that entry happens to be a place for
the next line (`StepOk`).
-/

namespace Rv8.Emu

open Rv8.Lib

/-! ## Addresses -/

namespace CacheParam

variable (P : CacheParam)

theorem numWays_pos : 0 < P.numWays := Nat.two_pow_pos _
theorem numEntries_pos : 0 < P.numEntries := Nat.two_pow_pos _
theorem lineSize_pos : 0 < P.lineSize := Nat.two_pow_pos _

theorem pcln_eq (mpa : Nat) : P.pcln mpa = mpa / P.lineSize := Nat.shiftRight_eq_div_pow ..

theorem entry_eq (pcln : Nat) : P.entry pcln = pcln % P.numEntries := Nat.and_two_pow_sub_one_eq_mod ..

theorem ppn_eq (pcln : Nat) : P.ppn pcln = pcln / P.numEntries := Nat.shiftRight_eq_div_pow ..

theorem offset_eq (mpa : Nat) : P.offset mpa = mpa % P.lineSize := Nat.and_two_pow_sub_one_eq_mod ..

theorem offset_lt (mpa : Nat) : P.offset mpa < P.lineSize := by
  rw [offset_eq]
  exact Nat.mod_lt _ P.lineSize_pos

theorem entry_lt (pcln : Nat) : P.entry pcln < P.numEntries := by
  rw [entry_eq]
  exact Nat.mod_lt _ P.numEntries_pos

theorem line_mul_entries : P.lineSize * P.numEntries = 4096 := by
  unfold lineSize numEntries
  rw [← pow_add, P.page]
  rfl

/-- A line number is its page and its place in the page. -/
theorem pcln_ext {x y : Nat} (hp : P.ppn x = P.ppn y) (he : P.entry x = P.entry y) : x = y := by
  rw [ppn_eq, ppn_eq] at hp
  rw [entry_eq, entry_eq] at he
  rw [← Nat.div_add_mod x P.numEntries, ← Nat.div_add_mod y P.numEntries, hp, he]

theorem ppn_pcln (mpa : Nat) : P.ppn (P.pcln mpa) = mpa / 4096 := by
  rw [ppn_eq, pcln_eq, Nat.div_div_eq_div_mul, line_mul_entries]

theorem lineSize_le : P.lineSize ≤ 4096 := by
  rw [← P.line_mul_entries]
  exact Nat.le_mul_of_pos_right _ P.numEntries_pos

/-- Where the addresses that reach the cache and the lines after them end. -/
theorem ppn_lt {mpa : Nat} (h : mpa < 0xD0000000) : P.ppn (P.pcln mpa) < P.ppnLimit := by
  rw [ppn_pcln]
  unfold ppnLimit
  rcases P.param with ⟨-, h'⟩ | ⟨-, h'⟩ <;> (rw [h']; omega)

theorem two_pow_xlen : 2 ^ 32 ≤ 2 ^ P.xlen := by
  rcases P.param with ⟨h', -⟩ | ⟨h', -⟩
  · rw [h']
  · rw [h']; decide

/-- The tags of a cacheable line are not cut. -/
theorem pcln_mod {mpa : Nat} (h : mpa < 0xD0000000) : P.pcln mpa % 2 ^ (P.xlen - P.lineShift) = P.pcln mpa := by
  have hp := P.page
  have hs := P.size_lt
  refine Nat.mod_eq_of_lt ?_
  rw [pcln_eq]
  refine Nat.div_lt_of_lt_mul ?_
  unfold lineSize
  rw [← pow_add, Nat.add_sub_cancel' (by omega)]
  exact lt_of_lt_of_le (by omega) P.two_pow_xlen

theorem ppn_mod {mpa : Nat} (h : mpa < 0xD0000000) : P.ppn (P.pcln mpa) % 2 ^ P.ppnBits = P.ppn (P.pcln mpa) := by
  have hlt := P.ppn_lt h
  unfold ppnLimit at hlt
  exact Nat.mod_eq_of_lt (by omega)

/-- The set entry `i` belongs to. -/
def setOf (i : Nat) : Nat := i / P.numWays

theorem shiftLeft_ways (e : Nat) : e <<< P.waysShift = e * P.numWays := Nat.shiftLeft_eq ..

/-- The ways of a set. -/
theorem way_iff (e i : Nat) (he : e < P.numEntries) :
    (i < P.numKeys ∧ P.setOf i = e) ↔ ∃ w < P.numWays, i = e <<< P.waysShift + w := by
  have hw := P.numWays_pos
  unfold setOf numKeys
  rw [shiftLeft_ways]
  constructor
  · rintro ⟨-, rfl⟩
    exact ⟨i % P.numWays, Nat.mod_lt _ hw, (Nat.div_add_mod' i P.numWays).symm⟩
  · rintro ⟨w, hlt, rfl⟩
    refine ⟨?_, ?_⟩
    · calc e * P.numWays + w < (e + 1) * P.numWays := by rw [Nat.add_mul]; omega
        _ ≤ P.numEntries * P.numWays := Nat.mul_le_mul_right _ he
    · rw [Nat.mul_comm, Nat.mul_add_div hw, Nat.div_eq_of_lt hlt, Nat.add_zero]

end CacheParam

/-! ## The invariant -/

/-- Where `cache_key` keeps a line: in the set of its number, once, and under its page. -/
structure Tagged (P : CacheParam) (key : Nat → CacheEntry) : Prop where
  empty : ∀ i < P.numKeys, (key i).status = .empty → (key i).ppn = P.ppnLimit
  set : ∀ i < P.numKeys, (key i).status ≠ .empty → P.entry (key i).pcln = P.setOf i
  page : ∀ i < P.numKeys, (key i).status ≠ .empty →
    (key i).ppn = P.ppn (key i).pcln ∧ (key i).ppn < P.ppnLimit
  unique : ∀ i < P.numKeys, ∀ j < P.numKeys, (key i).status ≠ .empty → (key j).status ≠ .empty →
    (key i).pcln = (key j).pcln → i = j

/-- No entry but `i` holds the line. -/
def OnlyAt (P : CacheParam) (key : Nat → CacheEntry) (i line : Nat) : Prop :=
  ∀ j < P.numKeys, j ≠ i → (key j).status ≠ .empty → (key j).pcln ≠ line

/-- Two entries hold the same line, or neither holds one. -/
def SameTags (e e' : CacheEntry) : Prop :=
  e.pcln = e'.pcln ∧ e.ppn = e'.ppn ∧ (e.status = .empty ↔ e'.status = .empty)

theorem SameTags.rfl {e : CacheEntry} : SameTags e e := ⟨Eq.refl _, Eq.refl _, Iff.rfl⟩

theorem SameTags.trans {e e' e'' : CacheEntry} (h : SameTags e e') (h' : SameTags e' e'') : SameTags e e'' :=
  ⟨h.1.trans h'.1, h.2.1.trans h'.2.1, h.2.2.trans h'.2.2⟩

theorem SameTags.held {e e' : CacheEntry} (h : SameTags e e') : e.status ≠ .empty ↔ e'.status ≠ .empty :=
  not_congr h.2.2

namespace Tagged

variable {P : CacheParam} {key key' : Nat → CacheEntry}

theorem fresh (P : CacheParam) (mem : UserMemory) (data : Nat → UInt8) (last : LineStatus) :
    Tagged P (TaggedCache.fresh P mem data last).key where
  empty := fun _ _ _ => rfl
  set := fun _ _ h => absurd rfl h
  page := fun _ _ h => absurd rfl h
  unique := fun _ _ _ _ h => absurd rfl h

theorem congr (h : Tagged P key) (hs : ∀ i, SameTags (key' i) (key i)) : Tagged P key' where
  empty := fun i hi he => by rw [(hs i).2.1]; exact h.empty i hi ((hs i).2.2.1 he)
  set := fun i hi he => by rw [(hs i).1]; exact h.set i hi ((hs i).held.1 he)
  page := fun i hi he => by rw [(hs i).1, (hs i).2.1]; exact h.page i hi ((hs i).held.1 he)
  unique := fun i hi j hj hei hej hp => by
    rw [(hs i).1, (hs j).1] at hp
    exact h.unique i hi j hj ((hs i).held.1 hei) ((hs j).held.1 hej) hp

/-- An entry of the right set may take over a line that no other entry holds. -/
theorem update (h : Tagged P key) {i : Nat} {e : CacheEntry} (hset : P.entry e.pcln = P.setOf i)
    (hppn : e.ppn = P.ppn e.pcln) (hlt : e.ppn < P.ppnLimit) (he : e.status ≠ .empty)
    (honly : OnlyAt P key i e.pcln) : Tagged P (Function.update key i e) := by
  have hne {j : Nat} (hj : j ≠ i) : Function.update key i e j = key j := Function.update_of_ne hj ..
  have heq : Function.update key i e i = e := Function.update_self ..
  refine ⟨fun j hj => ?_, fun j hj => ?_, fun j hj => ?_, fun j hj k hk => ?_⟩
  · by_cases hji : j = i
    · subst hji; rw [heq]; exact fun h0 => absurd h0 he
    · rw [hne hji]; exact h.empty j hj
  · by_cases hji : j = i
    · subst hji; rw [heq]; exact fun _ => hset
    · rw [hne hji]; exact h.set j hj
  · by_cases hji : j = i
    · subst hji; rw [heq]; exact fun _ => ⟨hppn, hlt⟩
    · rw [hne hji]; exact h.page j hj
  · by_cases hji : j = i <;> by_cases hki : k = i
    · subst hji hki; exact fun _ _ _ => rfl
    · subst hji; rw [heq, hne hki]; exact fun _ hek hp => absurd hp.symm (honly k hk hki hek)
    · subst hki; rw [heq, hne hji]; exact fun hej _ hp => absurd hp (honly j hj hji hej)
    · rw [hne hji, hne hki]; exact h.unique j hj k hk

/-- An entry of the set of `line` under the page of `line` holds it. -/
theorem pcln_of_ppn (h : Tagged P key) {i mpa : Nat} (hi : i < P.numKeys) (hm : mpa < 0xD0000000)
    (hset : P.setOf i = P.entry (P.pcln mpa)) (hppn : (key i).ppn = P.ppn (P.pcln mpa)) :
    (key i).status ≠ .empty ∧ (key i).pcln = P.pcln mpa := by
  have hlt := P.ppn_lt hm
  have he : (key i).status ≠ .empty := fun he => by
    have := h.empty i hi he
    omega
  refine ⟨he, P.pcln_ext ?_ ?_⟩
  · rw [← (h.page i hi he).1, hppn]
  · rw [h.set i hi he, hset]

/-- Conversely, a line that is held is found in its set. -/
theorem ppn_of_pcln (h : Tagged P key) {i line : Nat} (hi : i < P.numKeys) (he : (key i).status ≠ .empty)
    (hl : (key i).pcln = line) : P.setOf i = P.entry line ∧ (key i).ppn = P.ppn line := by
  subst hl
  exact ⟨(h.set i hi he).symm, (h.page i hi he).1⟩

end Tagged

namespace TaggedCache

variable {P : CacheParam}

/-! ## Lookup -/

/-- What the loop of `lookup_cache_line` knows after the first `i` ways of the set that starts at `base`. -/
def ScanOk (P : CacheParam) (key : Nat → CacheEntry) (mpa i : Nat) : Scan → Prop
  | .hit index => ∃ w < i, index = P.entry (P.pcln mpa) <<< P.waysShift + w ∧
      (key index).ppn = P.ppn (P.pcln mpa)
  | .miss empty maxLru victim =>
    (∀ w < i, (key (P.entry (P.pcln mpa) <<< P.waysShift + w)).ppn ≠ P.ppn (P.pcln mpa)) ∧
    (∀ index, empty = some index → ∃ w < i, index = P.entry (P.pcln mpa) <<< P.waysShift + w ∧
      (key index).status = .empty) ∧
    (empty = none → ∀ w < i, (key (P.entry (P.pcln mpa) <<< P.waysShift + w)).status ≠ .empty) ∧
    (∀ index, victim = some index → ∃ w < i, index = P.entry (P.pcln mpa) <<< P.waysShift + w) ∧
    (victim = none → maxLru = 0 ∧ (i = 0 ∨ empty ≠ none))

theorem scan_ok (key : Nat → CacheEntry) (mpa i : Nat) : ScanOk P key mpa i (scan P key mpa i) := by
  induction i with
  | zero => simp [scan, ScanOk]
  | succ i ih =>
    unfold scan
    cases hs : scan P key mpa i with
    | hit index =>
      rw [hs] at ih
      obtain ⟨w, hw, rfl, hp⟩ := ih
      exact ⟨w, by omega, rfl, hp⟩
    | miss empty maxLru victim =>
      rw [hs] at ih
      obtain ⟨hno, hempty, hfull, hvictim, hnone⟩ := ih
      -- facts about the ways below `i` and about way `i` are facts about those below `i + 1`
      have ext {p : Nat → Prop} (h : ∀ w < i, p w) (hi : p i) : ∀ w < i + 1, p w := by
        intro w hw
        rcases Nat.lt_succ_iff_lt_or_eq.1 hw with hw | rfl
        · exact h w hw
        · exact hi
      have weaken {p : Nat → Prop} : (∃ w < i, p w) → ∃ w < i + 1, p w := by
        rintro ⟨w, hw, hp⟩
        exact ⟨w, by omega, hp⟩
      simp only
      split
      · exact ⟨i, by omega, rfl, ‹_›⟩
      rename_i hppn
      split
      · rename_i he
        refine ⟨ext hno hppn, ?_, by simp, fun index h => weaken (hvictim index h), fun h => ⟨(hnone h).1, by simp⟩⟩
        rintro index ⟨⟩
        exact ⟨i, by omega, rfl, he.2⟩
      rename_i he
      have hfull' : empty = none → (key (P.entry (P.pcln mpa) <<< P.waysShift + i)).status ≠ .empty :=
        fun h0 hs => he ⟨h0, hs⟩
      split
      · refine ⟨ext hno hppn, fun index h => weaken (hempty index h), fun h => ext (hfull h) (hfull' h), ?_, by simp⟩
        rintro index ⟨⟩
        exact ⟨i, by omega, rfl⟩
      · rename_i hlru
        refine ⟨ext hno hppn, fun index h => weaken (hempty index h), fun h => ext (hfull h) (hfull' h),
          fun index h => weaken (hvictim index h), fun h => ?_⟩
        exact absurd (hnone h).1 (by omega)

/-- The entry a lookup settles on. -/
def lookupIndex (P : CacheParam) (key : Nat → CacheEntry) (mpa : Nat) : Option Nat :=
  match scan P key mpa P.numWays with
  | .hit index => some index
  | .miss (some index) _ _ => some index
  | .miss none _ victim => victim

/-- What a lookup leaves: a hit, an empty entry, or a line to evict, in the set of `mpa`. -/
structure Looked (P : CacheParam) (mpa : Nat) (c : TaggedCache) (index : Nat) (c' : TaggedCache) : Prop where
  index_lt : index < P.numKeys
  set : P.setOf index = P.entry (P.pcln mpa)
  only : OnlyAt P c.key index (P.pcln mpa)
  found :
    (((c.key index).status ≠ .empty ∧ (c.key index).pcln = P.pcln mpa) ∧
      c' = c.setKey index fun ent => { ent with status := .hit }) ∨
    ((c.key index).status = .empty ∧ c' = c) ∨
    (((c.key index).status ≠ .empty ∧ (c.key index).pcln ≠ P.pcln mpa) ∧
      c' = c.setKey index fun ent => { ent with status := .mustEvict })

/-- No way of the set is under the page of `mpa`: no entry holds its line. -/
theorem absent_of_scan {c : TaggedCache} (hT : Tagged P c.key) {mpa : Nat}
    (hno : ∀ w < P.numWays, (c.key (P.entry (P.pcln mpa) <<< P.waysShift + w)).ppn ≠ P.ppn (P.pcln mpa))
    {j : Nat} (hj : j < P.numKeys) (he : (c.key j).status ≠ .empty) : (c.key j).pcln ≠ P.pcln mpa := by
  intro hl
  obtain ⟨hset, hppn⟩ := hT.ppn_of_pcln hj he hl
  obtain ⟨w, hw, rfl⟩ := (P.way_iff _ j (P.entry_lt _)).1 ⟨hj, hset⟩
  exact hno w hw hppn

theorem wp_lookupCacheLine {c : TaggedCache} (hT : Tagged P c.key) {mpa : Nat} (hm : mpa < 0xD0000000) :
    (lookupCacheLine P mpa).wp (fun index c' => lookupIndex P c.key mpa = some index ∧ Looked P mpa c index c')
      (fun _ _ => False) c := by
  have hok := scan_ok (P := P) c.key mpa P.numWays
  have hways := P.numWays_pos
  unfold lookupCacheLine lookupIndex
  simp only [Prog.wp_bind, Prog.wp_get]
  cases hs : scan P c.key mpa P.numWays with
  | hit index =>
    rw [hs] at hok
    obtain ⟨w, hw, hindex, hppn⟩ := hok
    obtain ⟨hlt, hset⟩ := (P.way_iff _ index (P.entry_lt _)).2 ⟨w, hw, hindex⟩
    obtain ⟨he, hl⟩ := hT.pcln_of_ppn hlt hm hset hppn
    simp only [Prog.wp_bind, Prog.wp_modify, Prog.wp_pure]
    refine ⟨trivial, hlt, hset, fun j hj hji hej hlj => hji ?_, .inl ⟨⟨he, hl⟩, rfl⟩⟩
    exact hT.unique j hj index hlt hej he (hlj.trans hl.symm)
  | miss empty maxLru victim =>
    rw [hs] at hok
    obtain ⟨hno, hempty, hfull, hvictim, hnone⟩ := hok
    have habsent := fun j hj he => absent_of_scan (j := j) hT hno hj he
    cases empty with
    | some index =>
      obtain ⟨w, hw, hindex, he⟩ := hempty index rfl
      obtain ⟨hlt, hset⟩ := (P.way_iff _ index (P.entry_lt _)).2 ⟨w, hw, hindex⟩
      simp only [Prog.wp_pure]
      exact ⟨trivial, hlt, hset, fun j hj _ => habsent j hj, .inr (.inl ⟨he, rfl⟩)⟩
    | none =>
      cases victim with
      | none =>
        -- the first way of a full set is always a candidate
        exact absurd (hnone rfl).2 (by simp; omega)
      | some index =>
        obtain ⟨w, hw, hindex⟩ := hvictim index rfl
        obtain ⟨hlt, hset⟩ := (P.way_iff _ index (P.entry_lt _)).2 ⟨w, hw, hindex⟩
        have he : (c.key index).status ≠ .empty := hindex ▸ hfull rfl w hw
        simp only [Prog.wp_bind, Prog.wp_modify, Prog.wp_pure]
        exact ⟨trivial, hlt, hset, fun j hj _ => habsent j hj, .inr (.inr ⟨⟨he, habsent index hlt he⟩, rfl⟩)⟩

/-! ## What leaves the keys alone -/

section Keys
variable {c : TaggedCache}

theorem wp_memLoad_key (n mpa : Nat) :
    (memLoad n mpa).wp (fun _ c' => c'.key = c.key) (fun _ c' => c'.key = c.key) c := by
  unfold Prog.wp memLoad
  cases c.mem.load n mpa <;> rfl

theorem wp_memStore_key (n mpa val : Nat) :
    (memStore n mpa val).wp (fun _ c' => c'.key = c.key) (fun _ c' => c'.key = c.key) c := by
  unfold Prog.wp memStore
  cases c.mem.store n mpa val <;> rfl

theorem wp_allocate_key (mpa : Nat) (op : CacheOp) (index : Nat) :
    (allocate P mpa op index).wp (fun _ c' => c'.key = c.key) (fun _ c' => c'.key = c.key) c := by
  refine Prog.wp_forRange (fun _ (c' : TaggedCache) => c'.key = c.key) rfl fun i s _ hs => ?_
  cases op with
  | store =>
    simp only [Prog.wp_bind, Prog.wp_get]
    exact Prog.wp_mono (wp_memStore_key ..) (fun _ _ h => h.trans hs) fun _ _ h => h.trans hs
  | load =>
    simp only [Prog.wp_bind]
    exact Prog.wp_mono (wp_memLoad_key ..) (fun _ _ h => h.trans hs) fun _ _ h => h.trans hs

theorem wp_storeVal_key {n index : Nat} (mpa val : Nat) (h : index + n ≤ P.size) :
    (storeVal P n mpa index val).wp (fun _ c' => c'.key = c.key) (fun _ c' => c'.key = c.key) c := by
  unfold storeVal
  simp only [Prog.wp_bind, Prog.wp_ite, Prog.wp_undefined]
  refine ⟨fun h' => absurd h' (by omega), fun _ => ?_⟩
  refine Prog.wp_forRange (fun _ (c' : TaggedCache) => c'.key = c.key) rfl fun i s _ hs => ?_
  simp only [Prog.wp_bind, Prog.wp_modify, Prog.wp_ite, Prog.wp_pure]
  refine ⟨fun _ => ?_, fun _ => hs⟩
  exact Prog.wp_mono (wp_memStore_key ..) (fun _ _ h => h.trans hs) fun _ _ h => h.trans hs

end Keys

/-! ## Filling an entry -/

/-- The entry holds the line of `mpa`. -/
def HoldsLine (P : CacheParam) (mpa : Nat) (ent : CacheEntry) : Prop :=
  ent.status ≠ .empty ∧ ent.pcln = P.pcln mpa

theorem tag_holds {mpa : Nat} (hm : mpa < 0xD0000000) (ent : CacheEntry) :
    HoldsLine P mpa (tag P mpa ent) ∧ (tag P mpa ent).ppn = P.ppn (P.pcln mpa) := by
  unfold HoldsLine tag
  exact ⟨⟨by simp, P.pcln_mod hm⟩, P.ppn_mod hm⟩

/-- Retagging an entry of the set, with any change of the counters of the others. -/
theorem tagged_retag {key key' : Nat → CacheEntry} (hT : Tagged P key) {mpa index : Nat} (hm : mpa < 0xD0000000)
    (hset : P.setOf index = P.entry (P.pcln mpa)) (honly : OnlyAt P key index (P.pcln mpa))
    (hother : ∀ j ≠ index, SameTags (key' j) (key j)) (ent : CacheEntry) :
    Tagged P (Function.update key' index (tag P mpa ent)) := by
  obtain ⟨⟨he, hl⟩, hp⟩ := tag_holds (P := P) hm ent
  have hT' := hT.update (i := index) (e := tag P mpa ent) (by rw [hl, hset]) (by rw [hl, hp])
    (by rw [hp]; exact P.ppn_lt hm) he (by rw [hl]; exact honly)
  refine hT'.congr fun j => ?_
  by_cases hj : j = index
  · subst hj
    rw [Function.update_self, Function.update_self]
    exact .rfl
  · rw [Function.update_of_ne hj, Function.update_of_ne hj]
    exact hother j hj

/-- The entry holds the line of `mpa` now and the other entries hold what they held. -/
def Filled (P : CacheParam) (mpa index : Nat) (key key' : Nat → CacheEntry) : Prop :=
  Tagged P key' ∧ HoldsLine P mpa (key' index) ∧ ∀ j ≠ index, SameTags (key' j) (key j)

/-- A change of one entry that keeps its tags keeps those of all. -/
theorem sameTags_setKey (c : TaggedCache) (index : Nat) (f : CacheEntry → CacheEntry)
    (h : SameTags (f (c.key index)) (c.key index)) (j : Nat) : SameTags ((c.setKey index f).key j) (c.key j) := by
  by_cases hj : j = index
  · subst hj
    rw [setKey_self]
    exact h
  · rw [setKey_of_ne hj]
    exact .rfl

theorem sameTags_resetLru (index j : Nat) (c : TaggedCache) : SameTags ((resetLru P index c).key j) (c.key j) := by
  unfold resetLru updateLruCounters
  have h := sameTags_setKey c index (fun ent => { ent with lruCount := 0 }) .rfl j
  dsimp only
  split
  · exact h
  · exact h

/-- The entry is tagged, the counters go up and the line is loaded. -/
theorem filled_retag {c0 c1 c' : TaggedCache} {mpa index : Nat} (hT : Tagged P c0.key) (hm : mpa < 0xD0000000)
    (hset : P.setOf index = P.entry (P.pcln mpa)) (honly : OnlyAt P c0.key index (P.pcln mpa))
    (hsame : ∀ j ≠ index, SameTags (c1.key j) (c0.key j)) (hkey : c'.key = (c1.setKey index (tag P mpa)).key) :
    Filled P mpa index c0.key c'.key := by
  rw [hkey]
  refine ⟨tagged_retag hT hm hset honly hsame _, ?_, fun j hj => ?_⟩
  · rw [setKey_self]
    exact (tag_holds hm _).1
  · rw [setKey_of_ne hj]
    exact hsame j hj

theorem wp_fill {c c0 : TaggedCache} {mpa index : Nat} (hT : Tagged P c0.key) (hm : mpa < 0xD0000000)
    (hL : Looked P mpa c0 index c) :
    (fill P mpa index).wp (fun _ c' => Filled P mpa index c0.key c'.key) (fun _ c' => Tagged P c'.key) c := by
  have hset := hL.set
  have honly := hL.only
  unfold fill
  simp only [Prog.wp_bind, Prog.wp_get]
  rcases hL.found with ⟨⟨he, hl⟩, rfl⟩ | ⟨he, rfl⟩ | ⟨⟨he, -⟩, rfl⟩
  · -- a hit: the status goes from `hit` back to `filled`
    have hsame := fun j => (sameTags_setKey (c0.setKey index fun ent => { ent with status := .hit }) index
      (fun ent => { ent with status := .filled }) ⟨rfl, rfl, by simp⟩ j).trans
      (sameTags_setKey _ _ _ ⟨rfl, rfl, by simp [he]⟩ j)
    simp only [setKey_self, Prog.wp_bind, Prog.wp_modify, updateStats]
    exact ⟨hT.congr hsame, by simp [HoldsLine, hl], fun j _ => hsame j⟩
  · simp only [he, Prog.wp_bind, Prog.wp_modify, updateStats]
    refine Prog.wp_mono (wp_allocate_key ..) (fun _ c' h => ?_) fun _ c' h => ?_
    · exact filled_retag hT hm hset honly (fun _ _ => .rfl) h
    · exact (filled_retag hT hm hset honly (fun _ _ => .rfl) h : Filled P mpa index c.key c'.key).1
  · have hsame := sameTags_setKey c0 index (fun ent => { ent with status := .mustEvict })
      ⟨rfl, rfl, by simp [he]⟩
    -- whatever the write-back left, as long as the tags are those of `c0`
    have tail {c1 : TaggedCache} (h1 : ∀ j, SameTags (c1.key j) (c0.key j)) :
        (allocate P mpa .load index).wp (fun _ c' => Filled P mpa index c0.key c'.key)
          (fun _ c' => Tagged P c'.key)
          { (resetLru P index c1).setKey index (tag P mpa) with
            lastAccess := .mustEvict, mem := countUp 0xC0000020 (countUp 0xC0000018 c1.mem) } := by
      have h2 := fun j => (sameTags_resetLru (P := P) index j c1).trans (h1 j)
      refine Prog.wp_mono (wp_allocate_key ..) (fun _ c' h => ?_) fun _ c' h => ?_
      · exact filled_retag hT hm hset honly (fun j _ => h2 j) h
      · exact (filled_retag hT hm hset honly (fun j _ => h2 j) h : Filled P mpa index c0.key c'.key).1
    simp only [setKey_self, Prog.wp_bind, Prog.wp_modify, Prog.wp_ite, updateStats]
    refine ⟨fun _ => ?_, fun _ => tail hsame⟩
    have hshared := fun j => (sameTags_setKey _ index
      (fun ent => { ent with state := stateBits P cacheStateShared }) .rfl j).trans (hsame j)
    refine Prog.wp_mono (wp_allocate_key ..) (fun _ c' h => ?_) fun _ c' h => ?_
    · exact tail fun j => h ▸ hshared j
    · exact hT.congr fun j => h ▸ hshared j

/-! ## Values that run into the next line -/

/-- The start of the line after the one of `mpa`. -/
theorem next_line {mpa : Nat} (hm : mpa < 0xC0001000) :
    (mpa + (P.lineSize - 1 - P.offset mpa + 1)) % 2 ^ P.xlen = (P.pcln mpa + 1) * P.lineSize := by
  have hx := P.two_pow_xlen
  have hle := P.lineSize_le
  have hlt := P.offset_lt mpa
  have hd := Nat.div_add_mod mpa P.lineSize
  rw [← P.pcln_eq, ← P.offset_eq] at hd
  rw [Nat.mod_eq_of_lt (by omega), Nat.add_mul, Nat.mul_comm]
  omega

theorem pcln_mul (line : Nat) : P.pcln (line * P.lineSize) = line := by
  rw [P.pcln_eq]
  exact Nat.mul_div_cancel _ P.lineSize_pos

/-- The entry after `index` is in the set of the next line, which no further entry holds. -/
structure NextFits (P : CacheParam) (key : Nat → CacheEntry) (mpa index : Nat) : Prop where
  index_lt : index + 1 < P.numKeys
  set : P.setOf (index + 1) = P.entry (P.pcln mpa + 1)
  only : ∀ j < P.numKeys, j ≠ index → j ≠ index + 1 → (key j).status ≠ .empty → (key j).pcln ≠ P.pcln mpa + 1

theorem dataIndex_eq {mpa index : Nat} :
    index <<< P.lineShift ||| P.offset mpa = index * P.lineSize + P.offset mpa := by
  have h := P.offset_lt mpa
  unfold CacheParam.lineSize at h ⊢
  rw [← Nat.shiftLeft_eq, Nat.shiftLeft_add_eq_or_of_lt h]

theorem dataIndex_shiftRight {mpa index : Nat} :
    (index <<< P.lineShift ||| P.offset mpa) >>> P.lineShift = index := by
  rw [dataIndex_eq, Nat.shiftRight_eq_div_pow, Nat.mul_comm]
  show (P.lineSize * index + P.offset mpa) / P.lineSize = index
  rw [Nat.mul_add_div P.lineSize_pos, Nat.div_eq_of_lt (P.offset_lt mpa), Nat.add_zero]

theorem wp_fillNext {c : TaggedCache} {mpa index : Nat} (hT : Tagged P c.key) (hm : mpa < 0xC0001000)
    (hi : index < P.numKeys) (hl : HoldsLine P mpa (c.key index)) (hN : NextFits P c.key mpa index) :
    (fillNext P mpa (index <<< P.lineShift ||| P.offset mpa)).wp (fun _ c' => Tagged P c'.key)
      (fun _ c' => Tagged P c'.key) c := by
  have hle := P.lineSize_le
  have hlt : (P.pcln mpa + 1) * P.lineSize < 0xD0000000 := by
    have := Nat.div_mul_le_self mpa P.lineSize
    rw [← P.pcln_eq] at this
    rw [Nat.add_mul]
    omega
  have honly : OnlyAt P c.key (index + 1) (P.pcln ((P.pcln mpa + 1) * P.lineSize)) := by
    intro j hj hne he
    rw [pcln_mul]
    by_cases hji : j = index
    · subst hji
      rw [hl.2]
      omega
    · exact hN.only j hj hji hne he
  have hset : P.setOf (index + 1) = P.entry (P.pcln ((P.pcln mpa + 1) * P.lineSize)) := by
    rw [pcln_mul]
    exact hN.set
  -- the rest of the branch, from any state with the tags of `c`
  have tail {c1 : TaggedCache} (h1 : ∀ j, SameTags (c1.key j) (c.key j)) :
      (allocate P ((P.pcln mpa + 1) * P.lineSize) .load (index + 1)).wp
        (fun _ c' => Tagged P (setKey (index + 1) (tag P ((P.pcln mpa + 1) * P.lineSize)) c').key)
        (fun _ c' => Tagged P c'.key) c1 := by
    refine Prog.wp_mono (wp_allocate_key ..) (fun _ c' h => ?_) fun _ c' h => ?_
    · exact tagged_retag hT hlt hset honly (fun j _ => h ▸ h1 j) _
    · exact hT.congr fun j => h ▸ h1 j
  unfold fillNext
  simp only [dataIndex_shiftRight, next_line hm, Prog.wp_bind, Prog.wp_ite, Prog.wp_undefined, Prog.wp_get,
    Prog.wp_modify, updateStats]
  -- the entry holds a dirty line, a clean one, or none
  refine ⟨fun h => absurd hN.index_lt (by omega), fun _ => ⟨fun _ => ⟨fun _ => ?_, fun _ => ?_⟩, fun _ => ?_⟩⟩
  · refine Prog.wp_mono (wp_allocate_key ..) (fun _ c' h => ?_) fun _ c' h => ?_
    · have hs := sameTags_setKey c' (index + 1)
        (fun ent => { ent with state := stateBits P cacheStateShared }) .rfl
      exact tail fun j => h ▸ (sameTags_resetLru ..).trans (hs j)
    · exact h ▸ hT
  · exact tail fun j => sameTags_resetLru ..
  · exact tail fun j => .rfl

/-! ## Accesses -/

/-- The bytes of the access are in `cache_data`, and where a load runs into the next line, the next entry is
a place for that line. The entry is the one that the lookup settles on. -/
def AccessOk (P : CacheParam) (key : Nat → CacheEntry) (op : CacheOp) (n mpa : Nat) : Prop :=
  ∀ index, lookupIndex P key mpa = some index →
    index * P.lineSize + P.offset mpa + n ≤ P.size ∧
    (op = .load → Crosses P n (index * P.lineSize + P.offset mpa) → NextFits P key mpa index)

theorem wp_loadVal {c : TaggedCache} {n mpa index : Nat} (hT : Tagged P c.key) (hm : mpa < 0xC0001000)
    (hi : index < P.numKeys) (hl : HoldsLine P mpa (c.key index))
    (hsize : index * P.lineSize + P.offset mpa + n ≤ P.size)
    (hN : Crosses P n (index * P.lineSize + P.offset mpa) → NextFits P c.key mpa index) :
    (loadVal P n mpa (index <<< P.lineShift ||| P.offset mpa)).wp (fun _ c' => Tagged P c'.key)
      (fun _ c' => Tagged P c'.key) c := by
  rw [← dataIndex_eq] at hsize hN
  unfold loadVal
  simp only [Prog.wp_bind, Prog.wp_ite, Prog.wp_undefined, Prog.wp_pure, Prog.wp_get]
  refine ⟨fun hc => ?_, fun _ => ⟨fun h => by omega, fun _ => hT⟩⟩
  refine Prog.wp_mono (wp_fillNext hT hm hi hl (hN hc)) (fun _ c' h => ?_) fun _ _ h => h
  exact ⟨fun h => by omega, fun _ => h⟩

theorem wp_accessCache {c : TaggedCache} {n mpa val : Nat} {op : CacheOp} (hT : Tagged P c.key) (hm : mpa < 0xC0001000)
    (hok : AccessOk P c.key op n mpa) :
    (accessCache P n mpa op val).wp (fun _ c' => Tagged P c'.key) (fun _ c' => Tagged P c'.key) c := by
  unfold accessCache
  simp only [Prog.wp_bind]
  refine Prog.wp_mono (wp_lookupCacheLine hT (by omega)) ?_ fun _ _ h => h.elim
  rintro index c1 ⟨hx, hL⟩
  obtain ⟨hsize, hnext⟩ := hok index hx
  refine Prog.wp_mono (wp_fill hT (by omega) hL) (fun _ c2 hF => ?_) fun _ _ h => h
  obtain ⟨hT2, hl, hother⟩ := hF
  cases op with
  | load =>
    refine wp_loadVal hT2 hm hL.index_lt hl hsize fun hc => ?_
    obtain ⟨hlt, hset, honly⟩ := hnext rfl hc
    refine ⟨hlt, hset, fun j hj hji hjn he => ?_⟩
    -- the entry is as it was before the fill
    rw [(hother j hji).1]
    exact honly j hj hji hjn ((hother j hji).held.1 he)
  | store =>
    rw [← dataIndex_eq] at hsize
    simp only [Prog.wp_bind, Prog.wp_ite, Prog.wp_modify, Prog.wp_pure]
    refine ⟨fun _ => ?_, fun _ => ?_⟩
    · have hs := sameTags_setKey c2 index
        (fun ent => { ent with state := stateBits P cacheStateModified }) .rfl
      refine Prog.wp_mono (wp_storeVal_key _ _ hsize) (fun _ c' h => ?_) fun _ c' h => ?_
      · exact hT2.congr fun j => h ▸ hs j
      · exact hT2.congr fun j => h ▸ hs j
    · refine Prog.wp_mono (wp_storeVal_key _ _ hsize) (fun _ c' h => ?_) fun _ c' h => ?_
      · exact h ▸ hT2
      · exact h ▸ hT2

end TaggedCache

open TaggedCache

/-! ## Runs -/

def StepOk (P : CacheParam) (key : Nat → CacheEntry) : CacheStep → Prop
  | .load n mpa => Cacheable mpa → AccessOk P key .load n mpa
  | .store n mpa _ => Cacheable mpa → AccessOk P key .store n mpa

/-- Each step of the run meets the condition in the state it is taken from. -/
def RunOk (P : CacheParam) : List CacheStep → TaggedCache → Prop
  | [], _ => True
  | op :: ops, c => StepOk P c.key op ∧ ∀ r c', op.step P c = some (r, c') → RunOk P ops c'

/-- The ways of each set hold lines of that set, under their page, and no line twice. -/
def SetsOk (P : CacheParam) (c : TaggedCache) : Prop :=
  ∀ s < P.numEntries, ∀ w < P.numWays,
    (c.key (s <<< P.waysShift + w)).status ≠ .empty →
      P.entry (c.key (s <<< P.waysShift + w)).pcln = s ∧
      (c.key (s <<< P.waysShift + w)).ppn = P.ppn (c.key (s <<< P.waysShift + w)).pcln ∧
      ∀ w' < P.numWays, w' ≠ w → (c.key (s <<< P.waysShift + w')).status ≠ .empty →
        (c.key (s <<< P.waysShift + w')).pcln ≠ (c.key (s <<< P.waysShift + w)).pcln

theorem Tagged.setsOk {P : CacheParam} {c : TaggedCache} (h : Tagged P c.key) : SetsOk P c := by
  intro s hs w hw he
  obtain ⟨hi, hset⟩ := (P.way_iff s _ hs).2 ⟨w, hw, rfl⟩
  refine ⟨(h.set _ hi he).trans hset, (h.page _ hi he).1, fun w' hw' hne he' hp => hne ?_⟩
  have := h.unique _ ((P.way_iff s _ hs).2 ⟨w', hw', rfl⟩).1 _ hi he' he hp
  omega

theorem wp_exec_tagged {P : CacheParam} {c : TaggedCache} (hT : Tagged P c.key) {op : CacheStep}
    (hok : StepOk P c.key op) :
    (op.exec P).wp (fun _ c' => Tagged P c'.key) (fun _ c' => Tagged P c'.key) c := by
  have hsize : defaultRamBase + defaultRamSize = 0xC0000028 := rfl
  cases op with
  | load n mpa =>
    simp only [CacheStep.exec, TaggedCache.load, Prog.wp_bind, Prog.wp_ite, Prog.wp_modify, updateStats]
    refine ⟨fun _ => ?_, fun h => ?_⟩
    · exact Prog.wp_mono (wp_memLoad_key ..) (fun _ _ h => h ▸ hT) fun _ _ h => h ▸ hT
    · rw [not_or, not_lt, not_lt] at h
      exact wp_accessCache hT (by omega) (hok h)
  | store n mpa val =>
    simp only [CacheStep.exec, TaggedCache.store, Prog.wp_bind, Prog.wp_ite, Prog.wp_modify, Prog.wp_pure, updateStats]
    refine ⟨fun _ => ?_, fun h => ?_⟩
    · exact Prog.wp_mono (wp_memStore_key ..) (fun _ _ h => h ▸ hT) fun _ _ h => h ▸ hT
    · rw [not_or, not_lt, not_lt] at h
      exact wp_accessCache hT (by omega) (hok h)

theorem step_tagged {P : CacheParam} {c : TaggedCache} (hT : Tagged P c.key) {op : CacheStep}
    (hok : StepOk P c.key op) : ∃ r c', op.step P c = some (r, c') ∧ Tagged P c'.key := by
  have h := wp_exec_tagged hT hok
  unfold Prog.wp at h
  unfold CacheStep.step
  cases hm : op.exec P c with
  | ok v c' => rw [hm] at h; exact ⟨some v, c', rfl, h⟩
  | error e c' => rw [hm] at h; exact ⟨none, c', rfl, h⟩
  | undefined => rw [hm] at h; exact h.elim

theorem run_tagged {P : CacheParam} (ops : List CacheStep) {c : TaggedCache} (hT : Tagged P c.key)
    (hok : RunOk P ops c) : ∃ rs c', CacheStep.run P ops c = some (rs, c') ∧ Tagged P c'.key := by
  induction ops generalizing c with
  | nil => exact ⟨[], c, rfl, hT⟩
  | cons op ops ih =>
    obtain ⟨r, c1, hstep, hT1⟩ := step_tagged hT hok.1
    obtain ⟨rs, c2, hrun, hT2⟩ := ih hT1 (hok.2 r c1 hstep)
    exact ⟨r :: rs, c2, by simp [CacheStep.run, hstep, hrun], hT2⟩

/-- Every run whose line-crossing loads find room for the next line keeps the sets in order. -/
theorem sets_ok_of_run (P : CacheParam) (mem : UserMemory) (data : Nat → UInt8) (last : LineStatus)
    (ops : List CacheStep) (hok : RunOk P ops (fresh P mem data last)) :
    ∃ rs c, CacheStep.run P ops (fresh P mem data last) = some (rs, c) ∧ SetsOk P c := by
  obtain ⟨rs, c, hrun, hT⟩ := run_tagged ops (Tagged.fresh P mem data last) hok
  exact ⟨rs, c, hrun, hT.setsOk⟩

/-- RAM at the default base, with the size that reaches to the end of the statistics. -/
def zeroRam : UserMemory := ⟨[⟨defaultRamBase, defaultRamSize⟩], fun _ _ => 0⟩

/-- An RV64 cache of one page per way, with lines of 64 bytes. -/
def cacheOfWays (waysShift : Nat) (writePolicy : WritePolicy) (h : waysShift < 32 := by decide) : CacheParam :=
  { xlen := 64, ppnBits := 38, lineShift := 6, entriesShift := 6, waysShift, writePolicy,
    param := .inr ⟨rfl, rfl⟩, page := rfl, line_pos := by decide, ways_lt := h, size_lt := by omega }

/-- In a direct-mapped cache the next entry is in the next set. -/
theorem sets_ok_direct_mapped :
    ∃ rs c, CacheStep.run (cacheOfWays 0 .back) [.load 4 0x8000003e]
      (fresh (cacheOfWays 0 .back) zeroRam (fun _ => 0) .empty) = some (rs, c) ∧ SetsOk (cacheOfWays 0 .back) c := by
  refine sets_ok_of_run _ zeroRam (fun _ => 0) .empty _ ⟨fun _ index hx => ?_, fun _ _ _ => trivial⟩
  obtain rfl : 0 = index := Option.some.inj hx
  exact ⟨by decide, fun _ _ => ⟨by decide, by decide, fun _ _ _ _ h => absurd rfl h⟩⟩

/-- In a cache of eight ways it is another way of the same set. -/
theorem not_sets_ok_eight_ways :
    ∃ rs c, CacheStep.run (cacheOfWays 3 .back) [.load 4 0x8000003e]
      (fresh (cacheOfWays 3 .back) zeroRam (fun _ => 0) .empty) = some (rs, c) ∧ ¬ SetsOk (cacheOfWays 3 .back) c := by
  have h : ((CacheStep.run (cacheOfWays 3 .back) [.load 4 0x8000003e]
      (fresh (cacheOfWays 3 .back) zeroRam (fun _ => 0) .empty)).map
        fun rc => ((rc.2.key 1).status, (rc.2.key 1).pcln)) = some (.filled, 0x2000001) := by
    decide +kernel
  obtain ⟨⟨rs, c⟩, hrun, hkey⟩ := Option.map_eq_some_iff.1 h
  refine ⟨rs, c, hrun, fun hs => ?_⟩
  obtain ⟨hstatus, hpcln⟩ := Prod.mk.inj hkey
  have := (hs 0 (by decide) 1 (by decide) (by rw [show (0 <<< _ + 1 : Nat) = 1 by simp, hstatus]; decide)).1
  rw [show (0 <<< _ + 1 : Nat) = 1 by simp, hpcln] at this
  exact absurd this (by decide)

end Rv8.Emu
