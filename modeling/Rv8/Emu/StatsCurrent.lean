import Rv8.Emu.CacheStats
/-!
# Reading the statistics

`update_stats` counts in the memory behind the cache, and a load of a counter goes
through the cache like any other. It reads what memory had when the line was fetched.
That is the counter only if the counter has not been counted up since, so it is never
right for the loads and the hits when the line is there already: the load counts
itself first. A line that is not whole in memory is not fetched at all, and the one of
the statistics is not, where RAM ends behind the last counter and lines are longer
than that.
-/

namespace Rv8.Emu

open Rv8.Lib TaggedCache

/-! ## Counters in memory and in a line -/

namespace UserMemory

variable {m m' : UserMemory} {n a : Nat}

instance (m : UserMemory) (n a : Nat) : Decidable (m.HoldsBytes n a) :=
  decidable_of_iff (n = 0 ∨ (m.uva a).any fun u => decide (∀ i < n, m.uva (a + i) = some (u.1, u.2 + i))) <| by
    constructor
    · rintro (rfl | h)
      · exact ⟨0, 0, fun i hi => absurd hi (Nat.not_lt_zero i)⟩
      · obtain ⟨u, -, hu⟩ := (Option.any_eq_true ..).1 h
        exact ⟨u.1, u.2, of_decide_eq_true hu⟩
    · rintro ⟨k, off, h⟩
      rcases Nat.eq_zero_or_pos n with h0 | hn
      · exact .inl h0
      · have hu : m.uva a = some (k, off) := h 0 hn
        rw [hu, Option.any_some]
        exact .inr (decide_eq_true h)

theorem HoldsBytes.congr (h : m.HoldsBytes n a) (hs : m'.segments = m.segments) : m'.HoldsBytes n a := by
  unfold HoldsBytes uva at h ⊢
  rwa [hs]

/-- The bytes of a value are where it is. -/
theorem HoldsBytes.load_peek (h : m.HoldsBytes n a) (hn : 0 < n) : m.load n a = some (leValue (fun i => m.peek (a + i)) n) := by
  obtain ⟨k, off, h⟩ := h
  have hu : m.uva a = some (k, off) := h 0 hn
  unfold load
  rw [hu, Option.map_some]
  refine congrArg some (leValue_congr fun i hi => ?_)
  unfold peek
  rw [h i hi]

end UserMemory

/-- What a load of the counter at `a` reads from entry `index`. -/
def cachedStat (P : CacheParam) (data : Nat → UInt8) (index a : Nat) : Nat :=
  leValue (fun i => data ((index <<< P.lineShift ||| P.offset a) + i)) 8

/-- A counter does not run over the end of its line. -/
theorem stat_offset {P : CacheParam} (h3 : 3 ≤ P.lineShift) {a : Nat} (ha : a ∈ statAddrs) : P.offset a + 8 ≤ P.lineSize := by
  have hlt := P.offset_lt a
  have hline : 8 ∣ P.lineSize := pow_dvd_pow 2 h3
  have hoff : 8 ∣ P.lineSize - P.offset a := by
    rw [P.offset_eq]
    exact Nat.dvd_sub hline ((Nat.dvd_mod_iff hline).2 (statAddrs_ge ha).2.2)
  have := Nat.le_of_dvd (by omega) hoff
  omega

theorem cachedStat_congr {P : CacheParam} (h3 : 3 ≤ P.lineShift) {data data' : Nat → UInt8} {index a : Nat} (ha : a ∈ statAddrs)
    (hd : ∀ o < P.lineSize, data' (index * P.lineSize + o) = data (index * P.lineSize + o)) :
    cachedStat P data' index a = cachedStat P data index a := by
  have hoff := stat_offset h3 ha
  refine leValue_congr fun i hi => ?_
  rw [dataIndex_eq, Nat.add_assoc]
  exact hd _ (by omega)

/-! ## The invariant -/

/-- The line of entry `index` has been read since the counter at `a` was last counted up. -/
def ReadSince (a index : Nat) : List TagEvent → Prop
  | [] => False
  | .fetch i :: log => i = index ∨ ReadSince a index log
  | .count b :: log => b ≠ a ∧ ReadSince a index log
  | .hit _ :: log | .tag .. :: log | .age .. :: log => ReadSince a index log

instance ReadSince.decidable (a index : Nat) : (log : List TagEvent) → Decidable (ReadSince a index log)
  | [] => inferInstanceAs (Decidable False)
  | .fetch i :: log =>
    haveI := ReadSince.decidable a index log
    inferInstanceAs (Decidable (i = index ∨ ReadSince a index log))
  | .count b :: log =>
    haveI := ReadSince.decidable a index log
    inferInstanceAs (Decidable (b ≠ a ∧ ReadSince a index log))
  | .hit _ :: log | .tag .. :: log | .age .. :: log => ReadSince.decidable a index log

/-- The entry holds a line that is whole in memory, with the counters it has been read since as they are in memory. -/
structure EntryCurrent (P : CacheParam) (s : LoggedCache) (i : Nat) : Prop where
  line : (s.state.key i).status ≠ .empty → LineInBus P (s.state.key i).pcln ∧ Whole P s.state.mem.segments (s.state.key i).pcln
  value : (s.state.key i).status ≠ .empty → ∀ a ∈ statAddrs, (s.state.key i).pcln = P.pcln a → ReadSince a i s.log →
    s.state.mem.load 8 a = some (cachedStat P s.state.data i a)

namespace EntryCurrent

variable {P : CacheParam} {s s' : LoggedCache} {i : Nat}

theorem congr (h3 : 3 ≤ P.lineShift) (h : EntryCurrent P s i) (ht : SameTags (s'.state.key i) (s.state.key i))
    (hm : SameStats s.state.mem s'.state.mem)
    (hd : ∀ o < P.lineSize, s'.state.data (i * P.lineSize + o) = s.state.data (i * P.lineSize + o))
    (hl : ∀ a, ReadSince a i s'.log → ReadSince a i s.log) : EntryCurrent P s' i where
  line := fun he => by
    rw [ht.1, hm.segments]
    exact h.line (ht.held.1 he)
  value := fun he a ha hp hr => by
    rw [ht.1] at hp
    rw [hm.load a ha, cachedStat_congr h3 ha hd]
    exact h.value (ht.held.1 he) a ha hp (hl a hr)

/-- A counter that is counted up is not current any more. -/
theorem count (h : EntryCurrent P s i) {b : Nat} (hb : b ∈ statAddrs) (hkey : s'.state.key = s.state.key)
    (hdata : s'.state.data = s.state.data) (hmem : s'.state.mem = countUp b s.state.mem) (hlog : s'.log = .count b :: s.log) :
    EntryCurrent P s' i where
  line := fun he => by
    rw [hkey] at he ⊢
    rw [hmem, countUp_segments]
    exact h.line he
  value := fun he a ha hp hr => by
    rw [hkey] at he hp
    rw [hlog] at hr
    obtain ⟨hne, hr⟩ := hr
    rw [hmem, hdata, load_countUp_of_ne _ hb ha fun heq => hne heq.symm]
    exact h.value he a ha hp hr

/-- An entry that has the bytes of its line in memory. -/
theorem of_read (h3 : 3 ≤ P.lineShift) (hheld : ∀ a ∈ statAddrs, s.state.mem.HoldsBytes 8 a) {line : Nat}
    (hpcln : (s.state.key i).pcln = line) (hl : LineInBus P line) (hw : Whole P s.state.mem.segments line)
    (hd : ∀ o < P.lineSize, s.state.data (i * P.lineSize + o) = s.state.mem.peek (line * P.lineSize + o)) : EntryCurrent P s i where
  line := fun _ => hpcln ▸ ⟨hl, hw⟩
  value := fun _ a ha hp _ => by
    have hoff := stat_offset h3 ha
    have heq := mpa_eq P a
    rw [(hheld a ha).load_peek (by decide)]
    refine congrArg some (leValue_congr fun j hj => ?_)
    rw [dataIndex_eq, Nat.add_assoc, hd _ (by omega), ← hpcln, hp, ← Nat.add_assoc, heq]

end EntryCurrent

namespace TaggedCache

open Prog

section Access
variable {P : CacheParam}

theorem wp_countStats {mpa : Nat} {post : Unit → LoggedCache → Prop} {err : Unit → LoggedCache → Prop} {s : LoggedCache} :
    wp (countStats mpa) post err s ↔ post () ⟨{ s.state with mem := countUp mpa s.state.mem }, .count mpa :: s.log⟩ := Iff.rfl

theorem wp_ageSet {index : Nat} {post : Unit → LoggedCache → Prop} {err : Unit → LoggedCache → Prop} {s : LoggedCache} :
    wp (ageSet P index) post err s ↔
      post () ⟨resetLru P index s.state, .age index (P.entry (s.state.key index).pcln) :: s.log⟩ := Iff.rfl

theorem wp_tagLine {mpa index : Nat} {post : Unit → LoggedCache → Prop} {err : Unit → LoggedCache → Prop} {s : LoggedCache} :
    wp (tagLine P mpa index) post err s ↔
      post () ⟨s.state.setKey index (tag P mpa), .tag index (held (s.state.key index)) (P.pcln mpa) :: s.log⟩ := Iff.rfl

/-- The line of `mpa` is read into the entry, and the other entries stay as they are. -/
theorem wp_fetchLine_current (h3 : 3 ≤ P.lineShift) {s : LoggedCache} (mpa index : Nat) (hl : LineInBus P (P.pcln mpa))
    (hw : Whole P s.state.mem.segments (P.pcln mpa)) (h : ∀ j ≠ index, EntryCurrent P s j) :
    (fetchLine P mpa index).wp
      (fun _ s' => s'.state.key = s.state.key ∧ s'.state.mem = s.state.mem ∧ (∀ j ≠ index, EntryCurrent P s' j) ∧
        ∀ o < P.lineSize, s'.state.data (index * P.lineSize + o) = s'.state.mem.peek (P.pcln mpa * P.lineSize + o))
      (fun _ _ => False) s := by
  unfold fetchLine
  simp only [wp_bind, wp_quietly, wp_emit]
  rw [allocate_masked]
  refine wp_mono (wp_allocate_fill rfl hl) ?_ fun _ c' hc => hc.1 hw
  rintro _ c' ⟨-, hkey, hmem, hdata⟩
  refine ⟨hkey, hmem, fun j hj => ?_, fun o ho => ?_⟩
  · refine (h j hj).congr h3 ?_ ?_ (fun o ho => ?_) fun a hr => ?_
    · exact congrFun hkey j ▸ .rfl
    · exact hmem ▸ .rfl
    · -- another entry's part of `cache_data` is apart
      refine (hdata _).trans (if_neg ?_)
      rintro ⟨h1, h2⟩
      exact hj (slot_unique ho h1 h2)
    · exact hr.resolve_left fun heq => hj heq.symm
  · refine (hdata _).trans ((if_pos (by omega)).trans ?_)
    show _ = c'.mem.peek _
    rw [hmem, Nat.add_sub_cancel_left]

/-- The lookup hits when it settles on an entry of the page. -/
def Hits (P : CacheParam) (key : Nat → CacheEntry) (mpa index : Nat) : Prop :=
  (key index).status ≠ .empty ∧ (key index).ppn = P.ppn (P.pcln mpa)

instance (P : CacheParam) (key : Nat → CacheEntry) (mpa index : Nat) : Decidable (Hits P key mpa index) :=
  inferInstanceAs (Decidable (_ ∧ _))

/-- A hit leaves the entry the line it has, and otherwise it is given the one of `mpa`. -/
structure FilledCurrent (P : CacheParam) (mpa index : Nat) (s s2 : LoggedCache) : Prop where
  segments : s2.state.mem.segments = s.state.mem.segments
  entry : ∀ i, EntryCurrent P s2 i
  pcln : (s2.state.key index).pcln = if Hits P s.state.key mpa index then (s.state.key index).pcln else P.pcln mpa

theorem wp_fill_current (h3 : 3 ≤ P.lineShift) {s : LoggedCache} {c1 : TaggedCache} {mpa index : Nat}
    (hheld : ∀ a ∈ statAddrs, s.state.mem.HoldsBytes 8 a) (hclean : CleanStats P s.state.key) (h : ∀ i, EntryCurrent P s i)
    (hlo : defaultRamBase ≤ mpa) (hm : mpa < 0xD0000000) (hw : Whole P s.state.mem.segments (P.pcln mpa))
    (hF : LookedUp P mpa s.state index c1) :
    (fillLogged P mpa index).wp (fun _ s2 => FilledCurrent P mpa index s s2) (fun _ _ => False) ⟨c1, s.log⟩ := by
  have hl := lineInBus_pcln (P := P) hlo hm
  have htag (ent : CacheEntry) : (tag P mpa ent).pcln = P.pcln mpa := (tag_holds hm ent).1.2
  -- the entry is tagged already, and its line is read
  have refill {c : TaggedCache} {log : List TagEvent} (hnot : ¬ Hits P s.state.key mpa index)
      (hseg : c.mem.segments = s.state.mem.segments) (hpcln : (c.key index).pcln = P.pcln mpa)
      (hE : ∀ j ≠ index, EntryCurrent P ⟨c, log⟩ j) :
      (fetchLine P mpa index).wp (fun _ s2 => FilledCurrent P mpa index s s2) (fun _ _ => False) ⟨c, log⟩ := by
    refine wp_mono (wp_fetchLine_current h3 mpa index hl (hseg ▸ hw) hE) ?_ fun _ _ hf => hf
    rintro _ s2 ⟨hkey, hmem, hE2, hdata⟩
    have hseg2 : s2.state.mem.segments = s.state.mem.segments := by rw [hmem, hseg]
    have hpcln2 : (s2.state.key index).pcln = P.pcln mpa := by rw [hkey, hpcln]
    refine ⟨hseg2, fun j => ?_, by rw [if_neg hnot, hpcln2]⟩
    by_cases hj : j = index
    · subst hj
      exact .of_read h3 (fun a ha => (hheld a ha).congr hseg2) hpcln2 hl (hseg2 ▸ hw) hdata
    · exact hE2 j hj
  unfold fillLogged
  simp only [wp_bind, wp_quietly, wp_get]
  rcases hF.found with ⟨he, hppn, rfl⟩ | ⟨he, rfl⟩ | ⟨he, hppn, rfl⟩
  · simp only [setKey_self, wp_bind, wp_quietly, wp_modify, wp_emit, wp_countStats]
    have hsame := fun j => (sameTags_setKey (s.state.setKey index fun ent => { ent with status := .hit }) index
      (fun ent => { ent with status := .filled }) ⟨rfl, rfl, by simp⟩ j).trans
      (sameTags_setKey s.state index _ ⟨rfl, rfl, by simp [he]⟩ j)
    have hE (j : Nat) : EntryCurrent P ⟨(s.state.setKey index fun ent => { ent with status := .hit }).setKey index
        fun ent => { ent with status := .filled }, .hit index :: s.log⟩ j :=
      (h j).congr h3 (hsame j) .rfl (fun _ _ => rfl) fun _ hr => hr
    refine ⟨countUp_segments .., fun j => (hE j).count (by decide) rfl rfl rfl rfl, ?_⟩
    rw [if_pos ⟨he, hppn⟩]
    exact (hsame index).1
  · simp only [he, wp_bind, wp_quietly, wp_modify, wp_countStats, wp_tagLine]
    have hE (j : Nat) (hj : j ≠ index) : EntryCurrent P ⟨s.state.setKey index (tag P mpa),
        .tag index (held (s.state.key index)) (P.pcln mpa) :: s.log⟩ j :=
      (h j).congr h3 (setKey_of_ne hj (tag P mpa) s.state ▸ .rfl) .rfl (fun _ _ => rfl) fun _ hr => hr
    refine refill (fun hh => hh.1 he) (countUp_segments ..) ?_ fun j hj => (hE j hj).count (by decide) rfl rfl rfl rfl
    rw [setKey_self, htag]
  · simp only [setKey_self, wp_bind, wp_ite, wp_quietly, wp_modify, wp_countStats, wp_tagLine, wp_ageSet]
    -- whatever the write-back left
    have tail {c : TaggedCache} {set : Nat} (hs : ∀ j, SameTags (c.key j) (s.state.key j)) (hd : c.data = s.state.data)
        (hmem : SameStats s.state.mem c.mem) (line : Option Nat) :
        (fetchLine P mpa index).wp (fun _ s2 => FilledCurrent P mpa index s s2) (fun _ _ => False)
          ⟨{ (resetLru P index c).setKey index (tag P mpa) with
              lastAccess := .mustEvict, mem := countUp 0xC0000020 (countUp 0xC0000018 c.mem) },
            .count 0xC0000020 :: .count 0xC0000018 :: .tag index line (P.pcln mpa) :: .age index set :: s.log⟩ := by
      have hE (j : Nat) (hj : j ≠ index) : EntryCurrent P ⟨(resetLru P index c).setKey index (tag P mpa),
          .tag index line (P.pcln mpa) :: .age index set :: s.log⟩ j := by
        refine (h j).congr h3 ?_ hmem (fun o _ => congrFun hd _) fun _ hr => hr
        exact setKey_of_ne hj (tag P mpa) (resetLru P index c) ▸ (sameTags_resetLru index j c).trans (hs j)
      have hE18 (j : Nat) (hj : j ≠ index) : EntryCurrent P ⟨{ (resetLru P index c).setKey index (tag P mpa) with
          mem := countUp 0xC0000018 c.mem }, .count 0xC0000018 :: .tag index line (P.pcln mpa) :: .age index set :: s.log⟩ j :=
        (hE j hj).count (by decide) rfl rfl rfl rfl
      refine refill (fun hh => hppn hh.2) ?_ ?_ fun j hj => (hE18 j hj).count (by decide) rfl rfl rfl rfl
      · exact (countUp_segments ..).trans ((countUp_segments ..).trans hmem.segments)
      · exact (congrArg CacheEntry.pcln (setKey_self ..)).trans (htag _)
    have hevict := fun j => sameTags_setKey s.state index (fun ent => { ent with status := .mustEvict }) ⟨rfl, rfl, by simp [he]⟩ j
    refine ⟨fun hd => ?_, fun _ => tail hevict rfl .rfl _⟩
    obtain ⟨hbus, hwhole⟩ := (h index).line he
    obtain ⟨-, hpage⟩ := hclean.dirty index hd.2
    rw [hclean.page index he] at hpage
    have hback : (allocate P _ .store index).wlp _ _ _ := wlp_allocate_writeBack hpage
      ((s.state.setKey index fun ent => { ent with status := .mustEvict }).setKey index
        fun ent => { ent with state := stateBits P cacheStateShared })
    rw [shiftLeft_mod hbus] at hback ⊢
    refine wp_mono (wp_and_wlp (wp_allocate_writeBack rfl hbus) hback) ?_ fun _ _ hf => hf.1 hwhole
    rintro _ t ⟨⟨-, hkey, hdata, -, -⟩, -, hmem⟩
    refine tail (fun j => ?_) hdata hmem _
    exact congrFun hkey j ▸ (sameTags_setKey _ index (fun ent => { ent with state := stateBits P cacheStateShared }) .rfl j).trans (hevict j)

theorem wlp_fillNext_current (h3 : 3 ≤ P.lineShift) {s : LoggedCache} {mpa index : Nat}
    (hheld : ∀ a ∈ statAddrs, s.state.mem.HoldsBytes 8 a) (hclean : CleanStats P s.state.key) (h : ∀ i, EntryCurrent P s i)
    (hlo : defaultRamBase ≤ mpa) (hm : mpa < 0xC0001000) (hw : Whole P s.state.mem.segments (P.pcln mpa + 1)) :
    (fillNextLogged P mpa (index <<< P.lineShift ||| P.offset mpa)).wlp
      (fun _ s' => s'.state.mem.segments = s.state.mem.segments ∧ ∀ i, EntryCurrent P s' i) (fun _ _ => False) s := by
  have hl := nextLine_inBus (P := P) hlo hm
  have hpcln := pcln_mul (P := P) (P.pcln mpa + 1)
  have htag (ent : CacheEntry) : (tag P ((P.pcln mpa + 1) * P.lineSize) ent).pcln = P.pcln mpa + 1 :=
    (tag_holds (hl.2) ent).1.2.trans hpcln
  -- the line is read and the entry tagged
  have fetch {c : TaggedCache} {log : List TagEvent} (hseg : c.mem.segments = s.state.mem.segments)
      (hE : ∀ j, EntryCurrent P ⟨c, log⟩ j) :
      (fetchLine P ((P.pcln mpa + 1) * P.lineSize) (index + 1)).wlp
        (fun _ t => (countUp 0xC0000020 t.state.mem).segments = s.state.mem.segments ∧
          ∀ i, EntryCurrent P ⟨{ t.state.setKey (index + 1) (tag P ((P.pcln mpa + 1) * P.lineSize)) with
            lastAccess := .mustEvict, mem := countUp 0xC0000020 t.state.mem },
            .count 0xC0000020 :: .tag (index + 1) (held (t.state.key (index + 1))) (P.pcln ((P.pcln mpa + 1) * P.lineSize)) ::
              t.log⟩ i)
        (fun _ _ => False) ⟨c, log⟩ := by
    refine wlp_of_wp (wp_mono (wp_fetchLine_current h3 _ (index + 1) (by rw [hpcln]; exact hl) ?_ fun j _ => hE j) ?_ fun _ _ hf => hf)
    · rw [hpcln]
      exact hseg ▸ hw
    rintro _ t ⟨hkey, hmem, hother, hdata⟩
    have hseg' : t.state.mem.segments = s.state.mem.segments := by rw [hmem]; exact hseg
    rw [hpcln] at hdata
    have hEt (i : Nat) : EntryCurrent P ⟨t.state.setKey (index + 1) (tag P ((P.pcln mpa + 1) * P.lineSize)),
        .tag (index + 1) (held (t.state.key (index + 1))) (P.pcln ((P.pcln mpa + 1) * P.lineSize)) :: t.log⟩ i := by
      by_cases hi : i = index + 1
      · subst hi
        refine .of_read h3 (fun a ha => (hheld a ha).congr hseg') ?_ hl (hseg' ▸ hw) hdata
        exact (congrArg CacheEntry.pcln (setKey_self ..)).trans (htag _)
      · exact (hother i hi).congr h3 (setKey_of_ne hi (tag P _) t.state ▸ .rfl) .rfl (fun _ _ => rfl) fun _ hr => hr
    exact ⟨(countUp_segments ..).trans hseg', fun i => (hEt i).count (by decide) rfl rfl rfl rfl⟩
  have reset {c : TaggedCache} {log : List TagEvent} {set : Nat} (hE : ∀ j, EntryCurrent P ⟨c, log⟩ j) (j : Nat) :
      EntryCurrent P ⟨resetLru P (index + 1) c, .age (index + 1) set :: log⟩ j :=
    (hE j).congr h3 (sameTags_resetLru ..) .rfl (fun _ _ => rfl) fun _ hr => hr
  unfold fillNextLogged
  simp only [dataIndex_shiftRight, next_line hm, wlp_bind, wlp_ite, wlp_undefined, wlp_quietly, wlp_get, wlp_modify, wlp_countStats,
    wlp_tagLine, wlp_ageSet]
  refine ⟨fun _ => trivial, fun _ => ⟨fun he => ⟨fun hd => ?_, fun _ => fetch rfl (reset h)⟩, fun _ => fetch rfl h⟩⟩
  obtain ⟨hbus, hwhole⟩ := (h (index + 1)).line he
  obtain ⟨-, hpage⟩ := hclean.dirty _ hd.2
  rw [hclean.page _ he] at hpage
  have hback : (allocate P _ .store (index + 1)).wlp _ _ s.state := wlp_allocate_writeBack hpage s.state
  rw [shiftLeft_mod hbus] at hback ⊢
  refine wlp_of_wp (wp_mono (wp_and_wlp (wp_allocate_writeBack rfl hbus) hback) ?_ fun _ _ hf => hf.1 hwhole)
  rintro _ t ⟨⟨-, hkey, hdata, -, -⟩, -, hmem⟩
  refine fetch hmem.segments (reset fun j => (h j).congr h3 ?_ hmem (fun o _ => congrFun hdata _) fun _ hr => hr)
  refine (sameTags_setKey t (index + 1) (fun ent => { ent with state := stateBits P cacheStateShared }) .rfl j).trans ?_
  exact congrFun hkey j ▸ .rfl

/-- The entry holds a line with a counter. -/
def HoldsStat (P : CacheParam) (ent : CacheEntry) : Prop := ent.status ≠ .empty ∧ ∃ a ∈ statAddrs, ent.pcln = P.pcln a

instance (P : CacheParam) (ent : CacheEntry) : Decidable (HoldsStat P ent) :=
  inferInstanceAs (Decidable (_ ∧ ∃ a ∈ statAddrs, _))

/-- The bytes of a store are not those of a counter. -/
theorem wlp_writeVal_current (h3 : 3 ≤ P.lineShift) {s : LoggedCache} {n mpa index : Nat} (h : ∀ i, EntryCurrent P s i)
    (hn : n ≤ 8) (hlt : mpa + n ≤ statsBase) (hself : ¬ HoldsStat P (s.state.key index))
    (hnext : P.lineSize < P.offset mpa + n → ¬ HoldsStat P (s.state.key (index + 1))) (val : Nat) :
    (writeVal P n mpa index val).wlp
      (fun _ c' => c'.mem.segments = s.state.mem.segments ∧ ∀ i, EntryCurrent P ⟨c', s.log⟩ i)
      (fun _ c' => c'.mem.segments = s.state.mem.segments ∧ ∀ i, EntryCurrent P ⟨c', s.log⟩ i) s.state := by
  have hline : 8 ≤ P.lineSize := Nat.le_of_dvd P.lineSize_pos (pow_dvd_pow 2 h3)
  have hoff := P.offset_lt mpa
  have tail {c : TaggedCache} (hkey : ∀ j, SameTags (c.key j) (s.state.key j)) (hdata : c.data = s.state.data)
      (hmem : c.mem = s.state.mem) :
      (storeVal P n mpa (index <<< P.lineShift ||| P.offset mpa) val).wlp
        (fun _ c' => c'.mem.segments = s.state.mem.segments ∧ ∀ i, EntryCurrent P ⟨c', s.log⟩ i)
        (fun _ c' => c'.mem.segments = s.state.mem.segments ∧ ∀ i, EntryCurrent P ⟨c', s.log⟩ i) c := by
    have hkeep {c' : TaggedCache} (hc : c'.key = c.key ∧ SameStats c.mem c'.mem ∧
        ∀ j, ¬ ((index <<< P.lineShift ||| P.offset mpa) ≤ j ∧ j < (index <<< P.lineShift ||| P.offset mpa) + n) →
          c'.data j = c.data j) :
        c'.mem.segments = s.state.mem.segments ∧ ∀ i, EntryCurrent P ⟨c', s.log⟩ i := by
      obtain ⟨hkey', hmem', hdata'⟩ := hc
      rw [hmem] at hmem'
      refine ⟨hmem'.segments, fun i => ?_⟩
      have ht : SameTags (c'.key i) (s.state.key i) := by rw [hkey']; exact hkey i
      by_cases hs : HoldsStat P (s.state.key i)
      · refine (h i).congr h3 ht hmem' (fun o ho => (hdata' _ ?_).trans (congrFun hdata _)) fun _ hr => hr
        -- the bytes are in the entry and the one after it
        rw [dataIndex_eq]
        rintro ⟨h1, h2⟩
        have hne : i ≠ index := fun heq => hself (heq ▸ hs)
        have hi : i * P.lineSize + o < (index + 2) * P.lineSize := by rw [Nat.add_mul]; omega
        have hge : index ≤ i := by
          by_contra hlt'
          have := Nat.mul_le_mul_right P.lineSize (show i + 1 ≤ index by omega)
          rw [Nat.add_mul] at this
          omega
        have hle : i < index + 2 := Nat.lt_of_mul_lt_mul_right (Nat.lt_of_le_of_lt (Nat.le_add_right _ o) hi)
        obtain rfl : i = index + 1 := by omega
        refine hnext ?_ hs
        rw [Nat.add_mul] at h2
        omega
      · refine ⟨fun he => ?_, fun he a ha hp => ?_⟩
        · show LineInBus P (c'.key i).pcln ∧ Whole P c'.mem.segments (c'.key i).pcln
          rw [ht.1, hmem'.segments]
          exact (h i).line (ht.held.1 he)
        · exact absurd ⟨ht.held.1 he, a, ha, ht.1.symm.trans hp⟩ hs
    exact wlp_mono (wlp_storeVal hlt _ val c) (fun _ _ hc => hkeep hc) fun _ _ hc => hkeep hc
  unfold writeVal
  simp only [wlp_bind, wlp_ite, wlp_modify, wlp_pure]
  refine ⟨fun _ => tail (fun j => ?_) rfl rfl, fun _ => tail (fun _ => .rfl) rfl rfl⟩
  exact sameTags_setKey s.state index (fun ent => { ent with state := stateBits P cacheStateModified }) .rfl j

end Access

end TaggedCache

/-! ## Steps -/

structure StatsCurrent (P : CacheParam) (base : Nat → Nat) (s : LoggedCache) : Prop where
  kept : StatsKept P base s
  held : ∀ a ∈ statAddrs, s.state.mem.HoldsBytes 8 a
  entry : ∀ i, EntryCurrent P s i

/-- A load that finds its counter in the cache is one of a counter that it does not count up itself, and that was not counted
up since the line was read. -/
def ReadsCurrent (P : CacheParam) (s : LoggedCache) (mpa : Nat) : Prop :=
  ∀ index ∈ lookupIndex P s.state.key mpa, Hits P s.state.key mpa index →
    (s.state.key index).pcln = P.pcln mpa ∧ mpa ≠ 0xC0000000 ∧ mpa ≠ 0xC0000010 ∧ ReadSince mpa index s.log

instance (P : CacheParam) (s : LoggedCache) (mpa : Nat) : Decidable (ReadsCurrent P s mpa) :=
  inferInstanceAs (Decidable (∀ index ∈ lookupIndex P s.state.key mpa, _ → _ ∧ _ ∧ _ ∧ _))

/-- The entry after the one of `mpa` has no counter. -/
def NextClear (P : CacheParam) (s : LoggedCache) (mpa : Nat) : Prop :=
  ∀ index ∈ lookupIndex P s.state.key mpa, ¬ HoldsStat P (s.state.key (index + 1))

instance (P : CacheParam) (s : LoggedCache) (mpa : Nat) : Decidable (NextClear P s mpa) :=
  inferInstanceAs (Decidable (∀ index ∈ lookupIndex P s.state.key mpa, _))

/-- The line of an access is whole in memory, and so is the one that a load runs into. Loads of counters read what is current.
A store ends below the statistics, and there is no counter in the bytes it writes behind the end of its line. -/
def StatsSafe (P : CacheParam) (s : LoggedCache) : CacheStep → Prop
  | .load n mpa => Cacheable mpa → Whole P s.state.mem.segments (P.pcln mpa) ∧
    (P.lineSize < P.offset mpa + n → Whole P s.state.mem.segments (P.pcln mpa + 1)) ∧
    (n = 8 ∧ mpa ∈ statAddrs → ReadsCurrent P s mpa)
  | .store n mpa _ => n ∈ [1, 2, 4, 8] ∧ (mpa + n ≤ statsBase ∨ defaultRamBase + defaultRamSize < mpa) ∧ (Cacheable mpa →
    Whole P s.state.mem.segments (P.pcln mpa) ∧ (P.lineSize < P.offset mpa + n → NextClear P s mpa))

instance (P : CacheParam) (s : LoggedCache) : (op : CacheStep) → Decidable (StatsSafe P s op)
  | .load n mpa => inferInstanceAs (Decidable (Cacheable mpa → _ ∧ (P.lineSize < P.offset mpa + n → _) ∧ (n = 8 ∧ mpa ∈ statAddrs → _)))
  | .store n mpa _ => inferInstanceAs (Decidable (n ∈ _ ∧ _ ∧ (Cacheable mpa → _ ∧ (P.lineSize < P.offset mpa + n → _))))

section Steps
open Prog
variable {P : CacheParam} {base : Nat → Nat} {s : LoggedCache} {mpa n : Nat}

theorem StatsCurrent.count (h : StatsCurrent P base s) {a : Nat} (ha : a ∈ statAddrs) :
    StatsCurrent P base ⟨{ s.state with mem := countUp a s.state.mem }, .count a :: s.log⟩ where
  kept := ⟨h.kept.clean, h.kept.counted.count ha⟩
  held := fun b hb => (h.held b hb).congr (countUp_segments ..)
  entry := fun i => (h.entry i).count ha rfl rfl rfl rfl

/-- An access goes on from a state in which its line is there. -/
theorem access_of_current (h3 : 3 ≤ P.lineShift) (h : StatsCurrent P base s) (hlo : defaultRamBase ≤ mpa) (hm : mpa < 0xC0001000)
    (hw : Whole P s.state.mem.segments (P.pcln mpa)) :
    ∃ index s2, lookupIndex P s.state.key mpa = some index ∧ index < P.numKeys ∧ FilledStats P base mpa index s s2 ∧
      FilledCurrent P mpa index s s2 ∧ ∀ n val,
        accessLogged P n mpa .load val s = loadValLogged P n mpa (index <<< P.lineShift ||| P.offset mpa) s2 ∧
        accessLogged P n mpa .store val s = quietly (writeVal P n mpa index val) s2 := by
  obtain ⟨index, c1, hlook, hF⟩ := exists_ok (wp_lookup_clean h.kept.clean (show mpa < 0xD0000000 by omega))
  have hfill := wp_and_wlp (wp_fill_current h3 h.held h.kept.clean h.entry hlo (by omega) hw hF) (wlp_fill h.kept (by omega) hF)
  obtain ⟨_, s2, hs2, hcurrent, hstats⟩ := exists_ok (wp_mono hfill (fun _ _ hp => hp) fun _ _ hf => hf.1)
  have hquiet : (quietly (lookupCacheLine P mpa) : LogM Nat) s = .ok index ⟨c1, s.log⟩ := by
    unfold quietly zoom
    rw [hlook]
  refine ⟨index, s2, hF.settles, hF.set.1, hstats, hcurrent, fun n val => ⟨?_, ?_⟩⟩
  · exact (bind_ok hquiet).trans (bind_ok hs2)
  · exact (bind_ok hquiet).trans (bind_ok hs2)

/-- A load of a counter reads it as memory has it in the end. -/
theorem wp_load_stat (h3 : 3 ≤ P.lineShift) (h : StatsCurrent P base s) {a : Nat} (ha : a ∈ statAddrs)
    (hsafe : StatsSafe P s (.load 8 a)) :
    ((CacheStep.load 8 a).execLogged P).wp (fun v s' => s'.state.mem.load 8 a = some v) (fun _ _ => False) s := by
  have hbase : statsBase = 0xC0000000 := rfl
  have hlow : defaultRamBase = 0x80000000 := rfl
  have hhigh : defaultRamBase + defaultRamSize = 0xC0000028 := rfl
  obtain ⟨hge, hle, -⟩ := statAddrs_ge ha
  obtain ⟨hw, -, hread⟩ := hsafe ⟨by omega, by omega⟩
  have hcount := h.count (a := 0xC0000000) (by decide)
  have hw' : Whole P (countUp 0xC0000000 s.state.mem).segments (P.pcln a) := by rwa [countUp_segments]
  obtain ⟨index, s2, hindex, hlt, hstats, hcurrent, haccess⟩ := access_of_current h3 hcount (by omega) (by omega) hw'
  have hpcln : (s2.state.key index).pcln = P.pcln a ∧ ReadSince a index s2.log := by
    rw [hcurrent.pcln, hstats.log]
    by_cases hh : Hits P s.state.key a index
    · obtain ⟨hp, h0, h1, hr⟩ := hread ⟨rfl, ha⟩ index hindex hh
      unfold fillLog
      rw [if_pos hh, if_neg hh.1, if_pos hh.2]
      exact ⟨hp, fun heq => h1 heq.symm, fun heq => h0 heq.symm, hr⟩
    · refine ⟨if_neg hh, ?_⟩
      unfold fillLog
      by_cases he : (s.state.key index).status = .empty
      · rw [if_pos he]
        exact .inl rfl
      · rw [if_neg he, if_neg fun hppn => hh ⟨he, hppn⟩]
        exact .inl rfl
  have hvalue := (hcurrent.entry index).value hstats.page.1 a ha hpcln.1 hpcln.2
  have hoff := stat_offset h3 ha
  simp only [CacheStep.execLogged, loadLogged, wp_ite, wp_bind, wp_countStats]
  refine ⟨fun hout => by omega, fun _ => ?_⟩
  unfold wp
  rw [(haccess 8 0).1]
  show wp (loadValLogged P 8 a _) _ _ s2
  unfold loadValLogged readVal
  rw [if_neg (not_crosses (by decide) hoff)]
  simp only [wp_quietly, wp_bind, wp_ite, wp_undefined, wp_get, wp_pure]
  have hsize := dataIndex_le hlt hoff
  exact ⟨fun hf => by omega, fun _ => hvalue⟩

/-- A state with the map of another, and with entries that are current. -/
def KeepsEntries (P : CacheParam) (s s' : LoggedCache) : Prop :=
  s'.state.mem.segments = s.state.mem.segments ∧ ∀ i, EntryCurrent P s' i

theorem KeepsEntries.congr (h3 : 3 ≤ P.lineShift) {t : LoggedCache} (h : KeepsEntries P s t) {mem : UserMemory}
    (hm : SameStats t.state.mem mem) : KeepsEntries P s ⟨{ t.state with mem }, t.log⟩ :=
  ⟨hm.segments.trans h.1, fun i => (h.2 i).congr h3 .rfl hm (fun _ _ => rfl) fun _ hr => hr⟩

theorem wlp_loadVal_current (h3 : 3 ≤ P.lineShift) (h : StatsCurrent P base s) (hlo : defaultRamBase ≤ mpa) (hm : mpa < 0xC0001000)
    {index : Nat} (hw : P.lineSize < P.offset mpa + n → Whole P s.state.mem.segments (P.pcln mpa + 1)) :
    (loadValLogged P n mpa (index <<< P.lineShift ||| P.offset mpa)).wlp (fun _ s' => KeepsEntries P s s')
      (fun _ s' => KeepsEntries P s s') s := by
  have read {t : LoggedCache} (ht : KeepsEntries P s t) :
      (quietly (readVal P n (index <<< P.lineShift ||| P.offset mpa)) : LogM Nat).wlp (fun _ s' => KeepsEntries P s s')
        (fun _ s' => KeepsEntries P s s') t := by
    unfold readVal
    simp only [wlp_quietly, wlp_bind, wlp_ite, wlp_undefined, wlp_get, wlp_pure]
    exact ⟨fun _ => trivial, fun _ => ht⟩
  unfold loadValLogged
  simp only [wlp_bind, wlp_ite]
  refine ⟨fun hx => ?_, fun _ => read ⟨rfl, h.entry⟩⟩
  have hover : P.lineSize < P.offset mpa + n := by
    by_contra hle
    rcases Nat.eq_zero_or_pos n with rfl | hn
    · exact hx rfl
    · exact not_crosses hn (Nat.le_of_not_lt hle) hx
  exact wlp_mono (wlp_fillNext_current h3 h.held h.kept.clean h.entry hlo hm (hw hover)) (fun _ _ ht => read ht) fun _ _ hf => hf.elim

theorem wlp_step_current (h3 : 3 ≤ P.lineShift) (h : StatsCurrent P base s) {op : CacheStep} (hsafe : StatsSafe P s op) :
    (op.execLogged P).wlp (fun _ s' => KeepsEntries P s s') (fun _ s' => KeepsEntries P s s') s := by
  have hbase : statsBase = 0xC0000000 := rfl
  have hhigh : defaultRamBase + defaultRamSize = 0xC0000028 := rfl
  have hsame : KeepsEntries P s s := ⟨rfl, h.entry⟩
  cases op with
  | load n mpa =>
    simp only [CacheStep.execLogged, loadLogged, wlp_ite, wlp_bind, wlp_countStats, wlp_quietly]
    refine ⟨fun _ => ?_, fun hin => ?_⟩
    · unfold wlp memLoad
      cases s.state.mem.load n mpa with
      | none => exact hsame
      | some v => exact hsame
    · rw [not_or, not_lt, not_lt] at hin
      obtain ⟨hw, hnext, -⟩ := hsafe ⟨hin.1, hin.2⟩
      have hcount := h.count (a := 0xC0000000) (by decide)
      obtain ⟨index, s2, -, -, hstats, hcurrent, haccess⟩ := access_of_current h3 hcount hin.1 (by omega)
        (show Whole P (countUp 0xC0000000 s.state.mem).segments (P.pcln mpa) by rwa [countUp_segments])
      have hseg : s2.state.mem.segments = s.state.mem.segments := hcurrent.segments.trans (countUp_segments ..)
      have h2 : StatsCurrent P base s2 := ⟨hstats.kept, fun a ha => (h.held a ha).congr hseg, hcurrent.entry⟩
      unfold wlp
      rw [(haccess n 0).1]
      refine wlp_mono (wlp_loadVal_current h3 h2 hin.1 (by omega) fun hover => hseg ▸ hnext hover) ?_ ?_
      · exact fun _ t ht => ⟨ht.1.trans hseg, ht.2⟩
      · exact fun _ t ht => ⟨ht.1.trans hseg, ht.2⟩
  | store n mpa val =>
    obtain ⟨hn, hlt, hcached⟩ := hsafe
    have hn8 : n ≤ 8 ∧ 0 < n := by
      simp only [List.mem_cons, List.not_mem_nil, or_false] at hn
      omega
    simp only [CacheStep.execLogged, storeLogged, wlp_ite, wlp_bind, wlp_countStats, wlp_quietly, wlp_pure]
    refine ⟨fun _ => ?_, fun hin => ?_⟩
    · unfold wlp memStore
      cases hst : s.state.mem.store n mpa val with
      | none => exact hsame
      | some mem => exact hsame.congr h3 (sameStats_store hst (by omega))
    · rw [not_or, not_lt, not_lt] at hin
      obtain ⟨hw, hnext⟩ := hcached ⟨hin.1, hin.2⟩
      have hcount := h.count (a := 0xC0000008) (by decide)
      obtain ⟨index, s2, hindex, -, hstats, hcurrent, haccess⟩ := access_of_current h3 hcount hin.1 (by omega)
        (show Whole P (countUp 0xC0000008 s.state.mem).segments (P.pcln mpa) by rwa [countUp_segments])
      have hseg : s2.state.mem.segments = s.state.mem.segments := hcurrent.segments.trans (countUp_segments ..)
      have hself : ¬ HoldsStat P (s2.state.key index) := by
        -- the page of the store is below that of the counters
        rintro ⟨he, a, ha, hp⟩
        have hpage := hstats.kept.clean.page index he
        rw [hstats.page.2, hp, P.ppn_pcln, P.ppn_pcln] at hpage
        have := (statAddrs_ge ha).1
        omega
      have hother : P.lineSize < P.offset mpa + n → ¬ HoldsStat P (s2.state.key (index + 1)) := by
        rintro hover ⟨he, a, ha, hp⟩
        have hsame := (hstats.other (index + 1) (by omega)).1
        exact hnext hover index hindex ⟨hsame.held.1 he, a, ha, hsame.1.symm.trans hp⟩
      unfold wlp
      rw [(haccess n val).2]
      show wlp (quietly (writeVal P n mpa index val) : LogM Nat) _ _ s2
      rw [wlp_quietly]
      refine wlp_mono (wlp_writeVal_current h3 hcurrent.entry hn8.1 (by omega) hself hother val) ?_ ?_
      · exact fun _ t ht => ⟨ht.1.trans hseg, ht.2⟩
      · exact fun _ t ht => ⟨ht.1.trans hseg, ht.2⟩

end Steps

/-! ## The log -/

namespace TaggedCache

open Prog

variable {P : CacheParam} {log : List TagEvent}

theorem grows_quietly {α : Type} (m : CacheM α) : Keeps (fun s : LoggedCache => log <:+ s.log) (quietly m : LogM α) :=
  keeps_quietly fun l => keeps_const (log <:+ l) m

theorem grows_emit (e : TaggedCache → TagEvent) : Keeps (fun s : LoggedCache => log <:+ s.log) (emit e : LogM Unit) :=
  keeps_emit fun _ h => h.trans (List.suffix_cons ..)

theorem grows_countStats (a : Nat) : Keeps (fun s : LoggedCache => log <:+ s.log) (countStats a) :=
  keeps_bind (grows_quietly _) fun _ => grows_emit _

theorem grows_ageSet (index : Nat) : Keeps (fun s : LoggedCache => log <:+ s.log) (ageSet P index) :=
  keeps_bind (grows_emit _) fun _ => grows_quietly _

theorem grows_tagLine (mpa index : Nat) : Keeps (fun s : LoggedCache => log <:+ s.log) (tagLine P mpa index) :=
  keeps_bind (grows_emit _) fun _ => grows_quietly _

theorem grows_fetchLine (mpa index : Nat) : Keeps (fun s : LoggedCache => log <:+ s.log) (fetchLine P mpa index) :=
  keeps_bind (grows_quietly _) fun _ => grows_emit _

theorem grows_fill (mpa index : Nat) : Keeps (fun s : LoggedCache => log <:+ s.log) (fillLogged P mpa index) := by
  refine keeps_bind (grows_quietly _) fun c => ?_
  cases hst : (c.key index).status with
  | hit =>
    simp only [hst]
    refine keeps_bind (grows_quietly _) fun _ => keeps_bind (grows_emit _) fun _ => ?_
    exact keeps_bind (grows_quietly _) fun _ => grows_countStats _
  | mustEvict =>
    simp only [hst]
    have tail : Keeps (fun s : LoggedCache => log <:+ s.log) (do
        ageSet P index
        tagLine P mpa index
        quietly (.modify fun c => { c with lastAccess := .mustEvict })
        countStats 0xC0000018
        countStats 0xC0000020
        fetchLine P mpa index) := by
      refine keeps_bind (grows_ageSet _) fun _ => keeps_bind (grows_tagLine _ _) fun _ => keeps_bind (grows_quietly _) fun _ => ?_
      exact keeps_bind (grows_countStats _) fun _ => keeps_bind (grows_countStats _) fun _ => grows_fetchLine _ _
    exact keeps_ite (keeps_bind (grows_quietly _) fun _ => keeps_bind (grows_quietly _) fun _ => tail) tail
  | empty =>
    simp only [hst]
    refine keeps_bind (grows_tagLine _ _) fun _ => keeps_bind (grows_quietly _) fun _ => ?_
    exact keeps_bind (grows_countStats _) fun _ => grows_fetchLine _ _
  | filled =>
    simp only [hst]
    exact keeps_pure ()

theorem grows_fillNext (mpa index : Nat) : Keeps (fun s : LoggedCache => log <:+ s.log) (fillNextLogged P mpa index) := by
  -- from the fetch on, and from the counters on
  have fetch (mpa index : Nat) : Keeps (fun s : LoggedCache => log <:+ s.log) (do
      fetchLine P mpa index
      tagLine P mpa index
      quietly (.modify fun c => { c with lastAccess := .mustEvict })
      countStats 0xC0000020) := by
    refine keeps_bind (grows_fetchLine _ _) fun _ => keeps_bind (grows_tagLine _ _) fun _ => ?_
    exact keeps_bind (grows_quietly _) fun _ => grows_countStats _
  have age (mpa index : Nat) : Keeps (fun s : LoggedCache => log <:+ s.log) (do
      ageSet P index
      fetchLine P mpa index
      tagLine P mpa index
      quietly (.modify fun c => { c with lastAccess := .mustEvict })
      countStats 0xC0000020) := keeps_bind (grows_ageSet _) fun _ => fetch _ _
  unfold fillNextLogged
  refine keeps_ite (keeps_undefined_bind _) (keeps_bind (grows_quietly _) fun c => keeps_ite ?_ (fetch _ _))
  exact keeps_ite (keeps_bind (grows_quietly _) fun _ => keeps_bind (grows_quietly _) fun _ => age _ _) (age _ _)

theorem grows_access (n mpa : Nat) (op : CacheOp) (val : Nat) :
    Keeps (fun s : LoggedCache => log <:+ s.log) (accessLogged P n mpa op val) := by
  refine keeps_bind (grows_quietly _) fun index => keeps_bind (grows_fill _ _) fun _ => ?_
  cases op with
  | store => exact grows_quietly _
  | load => exact keeps_ite (keeps_bind (grows_fillNext _ _) fun _ => grows_quietly _) (grows_quietly _)

end TaggedCache

/-- A step writes its events in front of the log. -/
theorem CacheStep.grows_exec (P : CacheParam) (log : List TagEvent) (op : CacheStep) :
    Prog.Keeps (fun s : LoggedCache => log <:+ s.log) (op.execLogged P) := by
  cases op with
  | load n mpa => exact Prog.keeps_ite (grows_quietly _) (Prog.keeps_bind (grows_countStats _) fun _ => grows_access _ _ _ _)
  | store n mpa val =>
    refine Prog.keeps_bind (Prog.keeps_ite (grows_quietly _) ?_) fun _ => Prog.keeps_pure 0
    exact Prog.keeps_bind (grows_countStats _) fun _ => Prog.keeps_bind (grows_access _ _ _ _) fun _ => Prog.keeps_pure ()

/-! ## Runs -/

/-- A load of a counter delivers it as memory has it then, and the step leaves every counter with what it counted up itself. -/
structure StatsServed (P : CacheParam) (s : LoggedCache) (op : CacheStep) : Prop where
  reads : ∀ a ∈ statAddrs, op = .load 8 a → ∃ v s', op.stepLogged P s = some (some v, s') ∧ s'.state.mem.load 8 a = some v
  counts : ∀ s', CacheStep.next P s op = some s' → ∀ a ∈ statAddrs, ∀ v, s.state.mem.load 8 a = some v →
    ∃ k, s'.log.count (.count a) = s.log.count (.count a) + k ∧ s'.state.mem.load 8 a = some ((v + k) % 2 ^ 64)

section Runs
variable {P : CacheParam} {base : Nat → Nat} {s s' : LoggedCache} {op : CacheStep}

theorem StatsSafe.storesBelow (h : StatsSafe P s op) : op.StoresBelow := by
  cases op with
  | load n mpa => trivial
  | store n mpa val =>
    obtain ⟨hn, hlt, -⟩ := h
    refine ⟨?_, hlt⟩
    simp only [List.mem_cons, List.not_mem_nil, or_false] at hn
    omega

theorem StatsCurrent.step (h3 : 3 ≤ P.lineShift) (h : StatsCurrent P base s) (hsafe : StatsSafe P s op)
    (hstep : CacheStep.next P s op = some s') : StatsCurrent P base s' ∧ s.log <:+ s'.log := by
  have hkept : (op.execLogged P).wlp (fun _ s' => StatsKept P base s') (fun _ s' => StatsKept P base s') s :=
    Prog.wlp_mono (wlp_execLogged h.kept hsafe.storesBelow) (fun _ _ hk => hk.1) fun _ _ hk => hk
  have hboth := Prog.wlp_and hkept (wlp_step_current h3 h hsafe)
  have hgrows := op.grows_exec P s.log s (List.suffix_refl _)
  have current {t : LoggedCache} (ht : StatsKept P base t ∧ KeepsEntries P s t) : StatsCurrent P base t :=
    ⟨ht.1, fun a ha => (h.held a ha).congr ht.2.1, ht.2.2⟩
  unfold CacheStep.next CacheStep.stepLogged at hstep
  cases hx : op.execLogged P s with
  | ok v t =>
    rw [hx] at hstep hgrows
    obtain rfl := Option.some.inj hstep
    have ht := Prog.wlp_of_ok hboth hx
    exact ⟨current ht, hgrows⟩
  | error e t =>
    rw [hx] at hstep hgrows
    obtain rfl := Option.some.inj hstep
    have ht := Prog.wlp_of_error hboth hx
    exact ⟨current ht, hgrows⟩
  | undefined =>
    rw [hx] at hstep
    cases hstep

theorem StatsCurrent.served (h3 : 3 ≤ P.lineShift) (h : StatsCurrent P base s) (hsafe : StatsSafe P s op) : StatsServed P s op where
  reads := by
    rintro a ha rfl
    obtain ⟨v, s', hx, hv⟩ := Prog.exists_ok (wp_load_stat h3 h ha hsafe)
    refine ⟨v, s', ?_, hv⟩
    unfold CacheStep.stepLogged
    rw [hx]
  counts := by
    intro s' hstep a ha v hv
    obtain ⟨h', log, hlog⟩ := h.step h3 hsafe hstep
    have hcount : s'.log.count (.count a) = s.log.count (.count a) + log.count (.count a) := by
      rw [← hlog, List.count_append, Nat.add_comm]
    refine ⟨_, hcount, ?_⟩
    obtain rfl := Option.some.inj (hv.symm.trans (h.kept.counted a ha))
    rw [h'.kept.counted a ha, hcount, Nat.mod_add_mod, Nat.add_assoc]

end Runs

/-- In a run of safe steps every load of a counter delivers it as it is, and no counter goes down. -/
theorem stats_current (P : CacheParam) (h3 : 3 ≤ P.lineShift) (mem : UserMemory) (data : Nat → UInt8) (last : LineStatus)
    (ops : List CacheStep) (hheld : ∀ a ∈ statAddrs, mem.HoldsBytes 8 a)
    (hops : Along (CacheStep.next P) (StatsSafe P) ops ⟨fresh P mem data last, []⟩) :
    Along (CacheStep.next P) (StatsServed P) ops ⟨fresh P mem data last, []⟩ := by
  obtain ⟨base, hbase⟩ : ∃ base : Nat → Nat, ∀ a ∈ statAddrs, base a < 2 ^ 64 ∧ mem.load 8 a = some (base a) :=
    ⟨fun a => leValue (fun i => mem.peek (a + i)) 8, fun a ha => ⟨leValue_lt _ 8, (hheld a ha).load_peek (by decide)⟩⟩
  have hcounted : Counted base mem [] := fun a ha => by
    rw [(hbase a ha).2, List.count_nil, Nat.add_zero, Nat.mod_eq_of_lt (hbase a ha).1]
  refine Along.imp (I := StatsCurrent P base) (fun s op s' h hsafe hstep => (h.step h3 hsafe hstep).1)
    (fun s op h hsafe => h.served h3 hsafe) ⟨⟨CleanStats.fresh P mem data last, hcounted⟩, hheld, fun i => ?_⟩ hops
  exact ⟨fun he => absurd rfl he, fun he => absurd rfl he⟩

/-- An RV64 cache of one way, with lines that hold one counter each. -/
def cacheOfCounters : CacheParam :=
  { xlen := 64, ppnBits := 38, lineShift := 3, entriesShift := 9, waysShift := 0, writePolicy := .back,
    param := (cacheOfWays 0 .back).param, page := rfl, line_pos := by decide, ways_lt := by omega, size_lt := by omega }

/-- The stores, read from memory and then from the cache. -/
theorem stats_current_stores :
    Along (CacheStep.next cacheOfCounters) (StatsServed cacheOfCounters)
      [.store 8 0x80000000 1, .load 8 0xC0000008, .load 8 0xC0000008] ⟨fresh cacheOfCounters zeroRam (fun _ => 0) .empty, []⟩ :=
  stats_current cacheOfCounters (by decide) zeroRam (fun _ => 0) .empty _ (by decide +kernel) (by decide +kernel)

/-- The second of two loads of the number of loads is told 1. In the cache of the emulator, with lines of 64 bytes, the line of
the statistics is not whole in memory, and the first load already ends in a bus error. -/
theorem not_stats_current :
    ¬ Along (CacheStep.next cacheOfCounters) (StatsServed cacheOfCounters)
      [.load 8 0xC0000000, .load 8 0xC0000000] ⟨fresh cacheOfCounters zeroRam (fun _ => 0) .empty, []⟩ ∧
    ¬ StatsServed (cacheOfWays 3 .back) ⟨fresh (cacheOfWays 3 .back) zeroRam (fun _ => 0) .empty, []⟩ (.load 8 0xC0000000) := by
  constructor
  · intro h
    have hrun : ((CacheStep.next cacheOfCounters ⟨fresh cacheOfCounters zeroRam (fun _ => 0) .empty, []⟩ (.load 8 0xC0000000)).bind
        fun s => ((CacheStep.load 8 0xC0000000).stepLogged cacheOfCounters s).map fun r => (r.1, r.2.state.mem.load 8 0xC0000000)) =
        some (some 1, some 2) := by
      decide +kernel
    obtain ⟨s, hs, hstep⟩ := Option.bind_eq_some_iff.1 hrun
    obtain ⟨⟨r, s'⟩, hs', hfacts⟩ := Option.map_eq_some_iff.1 hstep
    obtain ⟨v, t, ht, hv⟩ := (h.2 s hs).1.reads 0xC0000000 (by decide) rfl
    obtain ⟨rfl, rfl⟩ := Prod.mk.inj (Option.some.inj (hs'.symm.trans ht))
    obtain ⟨hr, hmem⟩ := Prod.mk.inj hfacts
    obtain rfl : v = 1 := Option.some.inj hr
    exact absurd (hv.symm.trans hmem) (by decide)
  · intro h
    obtain ⟨v, s', hs, -⟩ := h.reads 0xC0000000 (by decide) rfl
    have hnone : ((CacheStep.load 8 0xC0000000).stepLogged (cacheOfWays 3 .back)
        ⟨fresh (cacheOfWays 3 .back) zeroRam (fun _ => 0) .empty, []⟩).map Prod.fst = some none := by
      decide +kernel
    rw [hs] at hnone
    cases hnone

end Rv8.Emu
