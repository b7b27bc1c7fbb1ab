import Rv8.Emu.CacheLog
import Rv8.Emu.CacheBus
import Rv8.Lib.Steps
/-!
# The statistics of the cache

`update_stats` counts in the memory behind the cache, where a write-back could undo
it. It does not as long as every dirty line is below the statistics (`StatsKept`): then
the counters in memory are what the log says. The log says which accesses the
counters stand for. Loads and stores are counted right, and so are hits and misses.
The counter of evicted lines is also counted up by every load that runs into the next
line, whether that replaces a line or not.
-/

namespace Rv8.Emu

open Rv8.Lib TaggedCache

/-! ## Counters in memory -/

def statAddrs : List Nat := [0xC0000000, 0xC0000008, 0xC0000010, 0xC0000018, 0xC0000020]

/-- The statistics have the same values, and memory the same segments. -/
structure SameStats (m m' : UserMemory) : Prop where
  segments : m'.segments = m.segments
  load : ∀ a ∈ statAddrs, m'.load 8 a = m.load 8 a

theorem SameStats.rfl {m : UserMemory} : SameStats m m := ⟨Eq.refl _, fun _ _ => Eq.refl _⟩

theorem SameStats.trans {m m' m'' : UserMemory} (h : SameStats m m') (h' : SameStats m' m'') : SameStats m m'' :=
  ⟨h'.segments.trans h.segments, fun a ha => (h'.load a ha).trans (h.load a ha)⟩

theorem statAddrs_ge {a : Nat} (ha : a ∈ statAddrs) : statsBase ≤ a ∧ a ≤ 0xC0000020 ∧ 8 ∣ a := by
  simp only [statAddrs, List.mem_cons, List.not_mem_nil, or_false] at ha
  unfold statsBase
  rcases ha with rfl | rfl | rfl | rfl | rfl <;> decide

theorem sameStats_store {m m' : UserMemory} {n a val : Nat} (h : m.store n a val = some m')
    (ha : a + n ≤ statsBase ∨ defaultRamBase + defaultRamSize ≤ a) : SameStats m m' := by
  have hsize : defaultRamBase + defaultRamSize = 0xC0000028 := Eq.refl _
  refine ⟨UserMemory.store_segments h, fun b hb => ?_⟩
  have := statAddrs_ge hb
  exact UserMemory.load_store_of_apart h (by omega)

theorem countUp_segments (m : UserMemory) (a : Nat) : (countUp a m).segments = m.segments := by
  unfold countUp
  cases m.load 8 a with
  | none => rfl
  | some v =>
    dsimp only
    cases hs : m.store 8 a ((v + 1) % 2 ^ 64) with
    | none => rfl
    | some m' => exact UserMemory.store_segments hs

/-- Counting one counter leaves the others alone. -/
theorem load_countUp_of_ne (m : UserMemory) {a b : Nat} (ha : a ∈ statAddrs) (hb : b ∈ statAddrs) (hne : b ≠ a) :
    (countUp a m).load 8 b = m.load 8 b := by
  unfold countUp
  cases m.load 8 a with
  | none => rfl
  | some v =>
    dsimp only
    cases hs : m.store 8 a ((v + 1) % 2 ^ 64) with
    | none => rfl
    | some m' => exact UserMemory.load_store_of_ne hs (statAddrs_ge ha).2.2 (statAddrs_ge hb).2.2 hne

/-- `update_stats` counts one up, modulo its width. -/
theorem load_countUp {m : UserMemory} {a v : Nat} (hv : m.load 8 a = some v) :
    (countUp a m).load 8 a = some ((v + 1) % 2 ^ 64) := by
  obtain ⟨m', hm⟩ := UserMemory.store_of_load ((v + 1) % 2 ^ 64) hv
  unfold countUp
  rw [hv]
  dsimp only
  rw [hm]
  refine (UserMemory.load_store_self hm).trans (congrArg some ?_)
  exact Nat.mod_eq_of_lt (Nat.mod_lt _ (by decide))

/-! ## The invariant -/

/-- The page of the statistics. -/
def statsPage : Nat := 0xC0000

/-- What the tags say is consistent, and dirty lines are below the statistics. -/
structure CleanStats (P : CacheParam) (key : Nat → CacheEntry) : Prop where
  empty : ∀ i, (key i).status = .empty → (key i).ppn = P.ppnLimit ∧ ¬ Dirty (key i)
  page : ∀ i, (key i).status ≠ .empty → (key i).ppn = P.ppn (key i).pcln
  dirty : ∀ i, Dirty (key i) → P.writePolicy = .back ∧ (key i).ppn < statsPage

/-- The counters in memory are what they were at the start, `base`, and what the log says. -/
def Counted (base : Nat → Nat) (mem : UserMemory) (log : List TagEvent) : Prop :=
  ∀ a ∈ statAddrs, mem.load 8 a = some ((base a + log.count (.count a)) % 2 ^ 64)

structure StatsKept (P : CacheParam) (base : Nat → Nat) (s : LoggedCache) : Prop where
  clean : CleanStats P s.state.key
  counted : Counted base s.state.mem s.log

namespace CleanStats

variable {P : CacheParam} {key key' : Nat → CacheEntry}

theorem fresh (P : CacheParam) (mem : UserMemory) (data : Nat → UInt8) (last : LineStatus) :
    CleanStats P (TaggedCache.fresh P mem data last).key where
  empty := fun _ _ => ⟨rfl, shared_ne_modified P⟩
  page := fun _ h => absurd rfl h
  dirty := fun _ h => absurd h (shared_ne_modified P)

/-- Statuses and LRU counters do not matter, and lines may have become clean. -/
theorem mono (h : CleanStats P key) (hs : ∀ i, SameTags (key' i) (key i)) (hd : ∀ i, Dirty (key' i) → Dirty (key i)) :
    CleanStats P key' where
  empty := fun i he => by
    rw [(hs i).2.1]
    exact ⟨(h.empty i ((hs i).2.2.1 he)).1, fun h' => (h.empty i ((hs i).2.2.1 he)).2 (hd i h')⟩
  page := fun i he => by
    rw [(hs i).2.1, (hs i).1]
    exact h.page i ((hs i).held.1 he)
  dirty := fun i h' => by
    rw [(hs i).2.1]
    exact h.dirty i (hd i h')

theorem congr (h : CleanStats P key) (hs : ∀ i, SameLine (key' i) (key i)) : CleanStats P key' :=
  h.mono (fun i => (hs i).1) fun i => (hs i).dirty.1

/-- One entry is given other tags. -/
theorem update (h : CleanStats P key) {i : Nat} {e : CacheEntry} (he : e.status ≠ .empty) (hppn : e.ppn = P.ppn e.pcln)
    (hd : Dirty e → P.writePolicy = .back ∧ e.ppn < statsPage) : CleanStats P (Function.update key i e) := by
  have hne {j : Nat} (hj : j ≠ i) : Function.update key i e j = key j := Function.update_of_ne hj ..
  have heq : Function.update key i e i = e := Function.update_self ..
  refine ⟨fun j => ?_, fun j => ?_, fun j => ?_⟩
  · by_cases hj : j = i
    · subst hj
      rw [heq]
      exact fun h0 => absurd h0 he
    · rw [hne hj]
      exact h.empty j
  · by_cases hj : j = i
    · subst hj
      rw [heq]
      exact fun _ => hppn
    · rw [hne hj]
      exact h.page j
  · by_cases hj : j = i
    · subst hj
      rw [heq]
      exact hd
    · rw [hne hj]
      exact h.dirty j

end CleanStats

/-- One entry is given the tags of another line, when it is clean. -/
theorem CleanStats.retag {P : CacheParam} {key : Nat → CacheEntry} (h : CleanStats P key) {c : TaggedCache} {mpa index : Nat}
    (hm : mpa < 0xD0000000) (hs : ∀ j ≠ index, SameLine (c.key j) (key j)) (hclean : ¬ Dirty (c.key index)) :
    CleanStats P (c.setKey index (tag P mpa)).key := by
  obtain ⟨⟨he, hl⟩, hppn⟩ := tag_holds (P := P) hm (c.key index)
  have hupd := h.update (i := index) (e := tag P mpa (c.key index)) he (by rw [hppn, hl]) fun hd => absurd hd hclean
  refine hupd.congr fun j => ?_
  by_cases hj : j = index
  · subst hj
    rw [setKey_self, Function.update_self]
    exact .rfl
  · rw [setKey_of_ne hj, Function.update_of_ne hj]
    exact hs j hj

namespace Counted

variable {base : Nat → Nat} {mem mem' : UserMemory} {log : List TagEvent}

theorem congr (h : Counted base mem log) (hmem : SameStats mem mem') : Counted base mem' log := fun a ha =>
  (hmem.load a ha).trans (h a ha)

theorem count (h : Counted base mem log) {a : Nat} (ha : a ∈ statAddrs) : Counted base (countUp a mem) (.count a :: log) := by
  intro b hb
  by_cases hba : b = a
  · subst hba
    rw [load_countUp (h b ha), List.count_cons_self, Nat.mod_add_mod]
    rfl
  · rw [load_countUp_of_ne _ ha hb hba, List.count_cons_of_ne fun heq => hba (TagEvent.count.inj heq).symm]
    exact h b hb

theorem cons (h : Counted base mem log) {e : TagEvent} (he : ∀ a, e ≠ .count a) : Counted base mem (e :: log) := by
  intro a ha
  rw [List.count_cons_of_ne (he a)]
  exact h a ha

theorem hit (h : Counted base mem log) (index : Nat) : Counted base mem (.hit index :: log) := h.cons fun a => by simp

theorem tag (h : Counted base mem log) (index : Nat) (held : Option Nat) (line : Nat) :
    Counted base mem (.tag index held line :: log) := h.cons fun a => by simp

theorem age (h : Counted base mem log) (index set : Nat) : Counted base mem (.age index set :: log) := h.cons fun a => by simp

theorem fetch (h : Counted base mem log) (index : Nat) : Counted base mem (.fetch index :: log) := h.cons fun a => by simp

end Counted

/-! ## What an access writes to the log -/

/-- The lookup and the fill, where the lookup settles on `index`: a line for an empty entry, a hit, or a line in the
place of another. -/
def fillLog (P : CacheParam) (key : Nat → CacheEntry) (mpa index : Nat) : List TagEvent :=
  if (key index).status = .empty then [.fetch index, .count 0xC0000018, .tag index none (P.pcln mpa)]
  else if (key index).ppn = P.ppn (P.pcln mpa) then [.count 0xC0000010, .hit index]
  else [.fetch index, .count 0xC0000020, .count 0xC0000018, .tag index (some (key index).pcln) (P.pcln mpa),
    .age index (P.entry (key index).pcln)]

/-- The line after the one of `mpa` is fetched into the entry after `index`. -/
def nextLog (P : CacheParam) (key : Nat → CacheEntry) (mpa index : Nat) : List TagEvent :=
  .count 0xC0000020 :: .tag (index + 1) (held (key (index + 1))) (P.pcln mpa + 1) :: .fetch (index + 1) ::
    if (key (index + 1)).status = .empty then [] else [.age (index + 1) (P.entry (key (index + 1)).pcln)]

/-- What the lookup finds, by the page of the entry. -/
structure LookedUp (P : CacheParam) (mpa : Nat) (c : TaggedCache) (index : Nat) (c' : TaggedCache) : Prop where
  settles : lookupIndex P c.key mpa = some index
  set : index < P.numKeys ∧ P.setOf index = P.entry (P.pcln mpa)
  found :
    ((c.key index).status ≠ .empty ∧ (c.key index).ppn = P.ppn (P.pcln mpa) ∧
      c' = c.setKey index fun ent => { ent with status := .hit }) ∨
    ((c.key index).status = .empty ∧ c' = c) ∨
    ((c.key index).status ≠ .empty ∧ (c.key index).ppn ≠ P.ppn (P.pcln mpa) ∧
      c' = c.setKey index fun ent => { ent with status := .mustEvict })

namespace TaggedCache

open Prog

section Access
variable {P : CacheParam} {base : Nat → Nat}

theorem wp_lookup_clean {c : TaggedCache} (hK : CleanStats P c.key) {mpa : Nat} (hm : mpa < 0xD0000000) :
    (lookupCacheLine P mpa).wp (LookedUp P mpa c) (fun _ _ => False) c := by
  have hok := scan_ok (P := P) c.key mpa P.numWays
  unfold lookupCacheLine
  simp only [wp_bind, wp_get]
  cases hs : scan P c.key mpa P.numWays with
  | hit index =>
    rw [hs] at hok
    obtain ⟨w, hw, hx, hppn⟩ := hok
    have hset := (P.way_iff _ index (P.entry_lt _)).2 ⟨w, hw, hx⟩
    have he : (c.key index).status ≠ .empty := by
      intro he
      have := (hK.empty index he).1
      have := P.ppn_lt hm
      omega
    simp only [wp_bind, wp_modify, wp_pure]
    exact ⟨by unfold lookupIndex; rw [hs], hset, .inl ⟨he, hppn, rfl⟩⟩
  | miss empty maxLru victim =>
    rw [hs] at hok
    obtain ⟨hno, hempty, hfull, hvictim, hnone⟩ := hok
    cases empty with
    | some index =>
      obtain ⟨w, hw, hx, he⟩ := hempty index rfl
      have hset := (P.way_iff _ index (P.entry_lt _)).2 ⟨w, hw, hx⟩
      simp only [wp_pure]
      exact ⟨by unfold lookupIndex; rw [hs], hset, .inr (.inl ⟨he, rfl⟩)⟩
    | none =>
      cases victim with
      | none =>
        -- the first way of a full set is always a candidate
        have hways := P.numWays_pos
        exact absurd (hnone rfl).2 (by simp; omega)
      | some index =>
        obtain ⟨w, hw, hx⟩ := hvictim index rfl
        have hset := (P.way_iff _ index (P.entry_lt _)).2 ⟨w, hw, hx⟩
        simp only [wp_bind, wp_modify, wp_pure]
        exact ⟨by unfold lookupIndex; rw [hs], hset, .inr (.inr ⟨hx ▸ hfull rfl w hw, hx ▸ hno w hw, rfl⟩)⟩

theorem wlp_countStats {mpa : Nat} {post : Unit → LoggedCache → Prop} {err : Unit → LoggedCache → Prop} {s : LoggedCache} :
    wlp (countStats mpa) post err s ↔ post () ⟨{ s.state with mem := countUp mpa s.state.mem }, .count mpa :: s.log⟩ := Iff.rfl

theorem wlp_ageSet {index : Nat} {post : Unit → LoggedCache → Prop} {err : Unit → LoggedCache → Prop} {s : LoggedCache} :
    wlp (ageSet P index) post err s ↔
      post () ⟨resetLru P index s.state, .age index (P.entry (s.state.key index).pcln) :: s.log⟩ := Iff.rfl

theorem wlp_tagLine {mpa index : Nat} {post : Unit → LoggedCache → Prop} {err : Unit → LoggedCache → Prop} {s : LoggedCache} :
    wlp (tagLine P mpa index) post err s ↔
      post () ⟨s.state.setKey index (tag P mpa), .tag index (held (s.state.key index)) (P.pcln mpa) :: s.log⟩ := Iff.rfl

/-- Reading a line changes the bytes of the entry at most. -/
theorem wlp_allocate_fetch (mpa index : Nat) (c : TaggedCache) :
    (allocate P mpa .load index).wlp (fun _ c' => c'.key = c.key ∧ c'.mem = c.mem) (fun _ c' => c'.key = c.key ∧ c'.mem = c.mem) c := by
  refine wlp_of_wp (wp_forRange (fun _ (c' : TaggedCache) => c'.key = c.key ∧ c'.mem = c.mem) ⟨rfl, rfl⟩ fun i s _ hs => ?_)
  simp only [wp_bind]
  unfold wp memLoad
  cases s.mem.load 1 ((mpa >>> P.lineShift <<< P.lineShift + i) % 2 ^ P.xlen) with
  | none => exact hs
  | some v => exact hs

theorem wlp_fetchLine (mpa index : Nat) (s : LoggedCache) :
    (fetchLine P mpa index).wlp
      (fun _ s' => s'.state.key = s.state.key ∧ s'.state.mem = s.state.mem ∧ s'.log = .fetch index :: s.log)
      (fun _ s' => s'.state.key = s.state.key ∧ s'.state.mem = s.state.mem ∧ s'.log = s.log) s := by
  unfold fetchLine
  simp only [wlp_bind, wlp_quietly, wlp_emit]
  exact wlp_mono (wlp_allocate_fetch mpa index s.state) (fun _ _ h => ⟨h.1, h.2, trivial⟩) fun _ _ h => ⟨h.1, h.2, trivial⟩

theorem line_lt_stats {line : Nat} (hl : P.ppn line < statsPage) : line * P.lineSize + P.lineSize ≤ statsBase := by
  have hpage := P.line_mul_entries
  have hdiv := Nat.lt_mul_of_div_lt (P.ppn_eq line ▸ hl) P.numEntries_pos
  calc line * P.lineSize + P.lineSize = (line + 1) * P.lineSize := by rw [Nat.add_mul, Nat.one_mul]
    _ ≤ (statsPage * P.numEntries) * P.lineSize := Nat.mul_le_mul_right _ hdiv
    _ = statsPage * 4096 := by rw [Nat.mul_assoc, Nat.mul_comm P.numEntries, hpage]
    _ = statsBase := rfl

/-- A write-back below the statistics changes none of them. -/
theorem wlp_allocate_writeBack {line index : Nat} (hl : P.ppn line < statsPage) (c : TaggedCache) :
    (allocate P (line <<< P.lineShift % 2 ^ P.xlen) .store index).wlp (fun _ c' => c'.key = c.key ∧ SameStats c.mem c'.mem)
      (fun _ c' => c'.key = c.key ∧ SameStats c.mem c'.mem) c := by
  refine wlp_of_wp (wp_forRange (fun _ (c' : TaggedCache) => c'.key = c.key ∧ SameStats c.mem c'.mem) ⟨rfl, .rfl⟩ fun i s hi hs => ?_)
  simp only [wp_bind, wp_get]
  have hlt := line_lt_stats hl
  have haddr : ((line <<< P.lineShift % 2 ^ P.xlen) >>> P.lineShift <<< P.lineShift + i) % 2 ^ P.xlen = line * P.lineSize + i := by
    have hx := P.two_pow_xlen
    have hb : statsBase = 0xC0000000 := rfl
    have hshift : line <<< P.lineShift = line * P.lineSize := Nat.shiftLeft_eq ..
    rw [hshift, Nat.mod_eq_of_lt (a := line * P.lineSize) (by omega),
      show (line * P.lineSize) >>> P.lineShift = line from pcln_mul line, hshift]
    exact Nat.mod_eq_of_lt (by omega)
  rw [haddr]
  unfold wp memStore
  cases hst : s.mem.store 1 (line * P.lineSize + i) (s.data (index <<< P.lineShift + i)).toNat with
  | none => exact hs
  | some mem => exact ⟨hs.1, hs.2.trans (sameStats_store hst (by omega))⟩

/-- The entry holds a line of the page of `mpa`, the others what they held, and the log says how it came about. -/
structure FilledStats (P : CacheParam) (base : Nat → Nat) (mpa index : Nat) (s s2 : LoggedCache) : Prop where
  kept : StatsKept P base s2
  log : s2.log = fillLog P s.state.key mpa index ++ s.log
  page : (s2.state.key index).status ≠ .empty ∧ (s2.state.key index).ppn = P.ppn (P.pcln mpa)
  other : ∀ j ≠ index, SameLine (s2.state.key j) (s.state.key j)

theorem wlp_fill {s : LoggedCache} {c1 : TaggedCache} {mpa index : Nat} (h : StatsKept P base s) (hm : mpa < 0xD0000000)
    (hF : LookedUp P mpa s.state index c1) :
    (fillLogged P mpa index).wlp (fun _ s2 => FilledStats P base mpa index s s2) (fun _ s2 => StatsKept P base s2) ⟨c1, s.log⟩ := by
  -- the entry is tagged and its line read, from a state with the other lines of `s`
  have refill {c : TaggedCache} {mem : UserMemory} {log : List TagEvent} (last : LineStatus)
      (hs : ∀ j ≠ index, SameLine (c.key j) (s.state.key j)) (hclean : ¬ Dirty (c.key index)) (hc : Counted base mem log)
      (hlog : .fetch index :: log = fillLog P s.state.key mpa index ++ s.log) :
      (fetchLine P mpa index).wlp (fun _ s2 => FilledStats P base mpa index s s2) (fun _ s2 => StatsKept P base s2)
        ⟨{ c.setKey index (tag P mpa) with lastAccess := last, mem }, log⟩ := by
    have hkey := h.clean.retag hm hs hclean
    obtain ⟨⟨he, -⟩, hppn⟩ := tag_holds (P := P) hm (c.key index)
    refine wlp_mono (wlp_fetchLine ..) ?_ ?_
    · rintro _ s2 ⟨hk, hmem, hl⟩
      refine ⟨⟨hk ▸ hkey, ?_⟩, hl.trans hlog, ?_, fun j hj => ?_⟩
      · rw [hmem, hl]
        exact hc.fetch index
      · rw [hk]
        exact (setKey_self index _ c).symm ▸ ⟨he, hppn⟩
      · rw [hk]
        exact (setKey_of_ne hj _ c).symm ▸ hs j hj
    · rintro _ s2 ⟨hk, hmem, hl⟩
      refine ⟨hk ▸ hkey, ?_⟩
      rw [hmem, hl]
      exact hc
  unfold fillLogged
  simp only [wlp_bind, wlp_quietly, wlp_get]
  rcases hF.found with ⟨he, hppn, rfl⟩ | ⟨he, rfl⟩ | ⟨he, hppn, rfl⟩
  · simp only [setKey_self, wlp_bind, wlp_quietly, wlp_modify, wlp_emit, wlp_countStats]
    have hsame := fun j => (sameLine_setKey (s.state.setKey index fun ent => { ent with status := .hit }) index
      (fun ent => { ent with status := .filled }) ⟨⟨rfl, rfl, by simp⟩, rfl⟩ j).trans
      (sameLine_setKey s.state index _ ⟨⟨rfl, rfl, by simp [he]⟩, rfl⟩ j)
    refine ⟨⟨h.clean.congr hsame, (h.counted.hit index).count (by decide)⟩, ?_, ?_, fun j _ => hsame j⟩
    · rw [fillLog, if_neg he, if_pos hppn]
      rfl
    · exact ⟨(hsame index).1.held.2 he, (hsame index).1.2.1.trans hppn⟩
  · simp only [he, wlp_bind, wlp_quietly, wlp_modify, wlp_countStats, wlp_tagLine]
    refine refill .empty (fun j _ => .rfl) (h.clean.empty index he).2 ((h.counted.tag _ _ _).count (by decide)) ?_
    rw [fillLog, if_pos he, held, if_pos he]
    rfl
  · simp only [setKey_self, wlp_bind, wlp_ite, wlp_quietly, wlp_modify, wlp_countStats, wlp_tagLine, wlp_ageSet]
    -- whatever the write-back left, if it is clean
    have tail {c : TaggedCache} {set : Nat} (hs : ∀ j, SameTags (c.key j) (s.state.key j))
        (hstate : ∀ j ≠ index, (c.key j).state = (s.state.key j).state) (hclean : ¬ Dirty (c.key index))
        (hmem : SameStats s.state.mem c.mem) (hset : set = P.entry (s.state.key index).pcln) :
        (fetchLine P mpa index).wlp (fun _ s2 => FilledStats P base mpa index s s2) (fun _ s2 => StatsKept P base s2)
          ⟨{ (resetLru P index c).setKey index (tag P mpa) with
              lastAccess := .mustEvict, mem := countUp 0xC0000020 (countUp 0xC0000018 c.mem) },
            .count 0xC0000020 :: .count 0xC0000018 :: .tag index (held ((resetLru P index c).key index)) (P.pcln mpa) ::
              .age index set :: s.log⟩ := by
      have hreset := sameLine_resetLru (P := P) (c := c) index
      have hheld : held ((resetLru P index c).key index) = some (s.state.key index).pcln := by
        rw [held, if_neg ((hreset index).1.held.2 ((hs index).held.2 he)), (hreset index).1.1, (hs index).1]
      rw [hheld]
      refine refill .mustEvict (fun j hj => (hreset j).trans ⟨hs j, hstate j hj⟩) (fun hd => hclean ((hreset index).dirty.1 hd))
        (((((h.counted.congr hmem).age _ _).tag _ _ _).count (by decide)).count (by decide)) ?_
      rw [fillLog, if_neg he, if_neg hppn, hset]
      rfl
    have hevict := fun j => sameLine_setKey s.state index (fun ent => { ent with status := .mustEvict })
      ⟨⟨rfl, rfl, by simp [he]⟩, rfl⟩ j
    refine ⟨fun hd => ?_, fun hd => ?_⟩
    · obtain ⟨-, hpage⟩ := h.clean.dirty index hd.2
      rw [h.clean.page index he] at hpage
      -- the entry is clean before its line is written back
      have htags := fun j => (sameTags_setKey (s.state.setKey index fun ent => { ent with status := .mustEvict }) index
        (fun ent => { ent with state := stateBits P cacheStateShared }) .rfl j).trans (hevict j).1
      have hself : ¬ Dirty ({ s.state.key index with status := .mustEvict, state := stateBits P cacheStateShared }) :=
        shared_ne_modified P
      refine wlp_mono (wlp_allocate_writeBack hpage _) ?_ ?_
      · rintro _ t ⟨hk, hmem⟩
        refine tail (fun j => hk ▸ htags j) (fun j hj => ?_) ?_ hmem ?_
        · rw [hk, setKey_of_ne hj]
          exact (hevict j).2
        · rw [hk, setKey_self, setKey_self]
          exact hself
        · rw [hk, (htags index).1]
      · rintro _ t ⟨hk, hmem⟩
        refine ⟨?_, h.counted.congr hmem⟩
        rw [hk]
        refine h.clean.mono htags fun j hd' => ?_
        by_cases hj : j = index
        · subst hj
          rw [setKey_self, setKey_self] at hd'
          exact absurd hd' hself
        · rw [setKey_of_ne hj] at hd'
          exact (hevict j).dirty.1 hd'
    · refine tail (fun j => (hevict j).1) (fun j _ => (hevict j).2) (fun h' => ?_) .rfl rfl
      have hdirty := (hevict index).dirty.1 h'
      exact hd ⟨(h.clean.dirty index hdirty).1, hdirty⟩

theorem wlp_fillNext {s : LoggedCache} {mpa index : Nat} (h : StatsKept P base s) (hm : mpa < 0xC0001000) :
    (fillNextLogged P mpa (index <<< P.lineShift ||| P.offset mpa)).wlp
      (fun _ s' => StatsKept P base s' ∧ s'.log = nextLog P s.state.key mpa index ++ s.log) (fun _ s' => StatsKept P base s') s := by
  have hle := P.lineSize_le
  have hlt : (P.pcln mpa + 1) * P.lineSize < 0xD0000000 := by
    have := Nat.div_mul_le_self mpa P.lineSize
    rw [← P.pcln_eq] at this
    rw [Nat.add_mul]
    omega
  -- the line is read and the entry tagged, from a state with the lines of `s` and the entry clean
  have fetch {c : TaggedCache} {log : List TagEvent} (hs : ∀ j, SameTags (c.key j) (s.state.key j))
      (hstate : ∀ j ≠ index + 1, (c.key j).state = (s.state.key j).state) (hclean : ¬ Dirty (c.key (index + 1)))
      (hc : Counted base c.mem log) (hlog : log = (if (s.state.key (index + 1)).status = .empty then []
        else [.age (index + 1) (P.entry (s.state.key (index + 1)).pcln)]) ++ s.log) :
      (fetchLine P ((P.pcln mpa + 1) * P.lineSize) (index + 1)).wlp
        (fun _ t => StatsKept P base ⟨{ t.state.setKey (index + 1) (tag P ((P.pcln mpa + 1) * P.lineSize)) with
            lastAccess := .mustEvict, mem := countUp 0xC0000020 t.state.mem },
            .count 0xC0000020 :: .tag (index + 1) (held (t.state.key (index + 1))) (P.pcln ((P.pcln mpa + 1) * P.lineSize)) :: t.log⟩ ∧
          .count 0xC0000020 :: .tag (index + 1) (held (t.state.key (index + 1))) (P.pcln ((P.pcln mpa + 1) * P.lineSize)) :: t.log =
            nextLog P s.state.key mpa index ++ s.log)
        (fun _ t => StatsKept P base t) ⟨c, log⟩ := by
    have hkey : CleanStats P c.key := h.clean.mono hs fun j hd => by
      by_cases hj : j = index + 1
      · subst hj
        exact absurd hd hclean
      · unfold Dirty
        rw [← hstate j hj]
        exact hd
    have hheld : held (c.key (index + 1)) = held (s.state.key (index + 1)) := by
      unfold held
      rw [(hs _).1]
      exact if_congr (hs _).2.2 rfl rfl
    refine wlp_mono (wlp_fetchLine ..) ?_ ?_
    · rintro _ t ⟨hk, hmem, hl⟩
      refine ⟨⟨hkey.retag hlt (fun j _ => hk ▸ .rfl) (hk ▸ hclean), ?_⟩, ?_⟩
      · rw [hmem, hl]
        exact ((hc.fetch _).tag _ _ _).count (by decide)
      · rw [hk, hl, hheld, pcln_mul, hlog]
        rfl
    · rintro _ t ⟨hk, hmem, hl⟩
      refine ⟨hk ▸ hkey, ?_⟩
      rw [hmem, hl]
      exact hc
  have hreset {c : TaggedCache} := sameLine_resetLru (P := P) (c := c) (index + 1)
  unfold fillNextLogged
  simp only [dataIndex_shiftRight, next_line hm, wlp_bind, wlp_ite, wlp_undefined, wlp_quietly, wlp_get, wlp_modify, wlp_countStats,
    wlp_tagLine, wlp_ageSet]
  -- the entry holds a dirty line, a clean one, or none
  refine ⟨fun _ => trivial, fun _ => ⟨fun he => ⟨fun hd => ?_, fun hd => ?_⟩, fun he => ?_⟩⟩
  · obtain ⟨-, hpage⟩ := h.clean.dirty _ hd.2
    rw [h.clean.page _ he] at hpage
    refine wlp_mono (wlp_allocate_writeBack hpage _) ?_ ?_
    · rintro _ t ⟨hk, hmem⟩
      have htags := fun j => (sameTags_setKey t (index + 1) (fun ent => { ent with state := stateBits P cacheStateShared }) .rfl j)
      refine fetch (fun j => (hreset j).1.trans (hk ▸ htags j)) (fun j hj => ?_) (fun hd' => ?_)
        ((h.counted.congr hmem).age _ _) ?_
      · rw [(hreset j).2, setKey_of_ne hj, hk]
      · rw [(hreset _).dirty, setKey_self] at hd'
        exact shared_ne_modified P hd'
      · rw [if_neg he, setKey_self, hk]
        rfl
    · rintro _ t ⟨hk, hmem⟩
      exact ⟨hk ▸ h.clean, h.counted.congr hmem⟩
  · refine fetch (fun j => (hreset j).1) (fun j _ => (hreset j).2) (fun hd' => ?_) (h.counted.age _ _) ?_
    · have hdirty := (hreset _).dirty.1 hd'
      exact hd ⟨(h.clean.dirty _ hdirty).1, hdirty⟩
    · rw [if_neg he]
      rfl
  · have he' := not_not.1 he
    exact fetch (fun _ => .rfl) (fun _ _ => rfl) (h.clean.empty _ he').2 h.counted (by rw [if_pos he']; rfl)

theorem wlp_storeVal {n mpa : Nat} (hlt : mpa + n ≤ statsBase) (index val : Nat) (c : TaggedCache) :
    (storeVal P n mpa index val).wlp
      (fun _ c' => c'.key = c.key ∧ SameStats c.mem c'.mem ∧ ∀ j, ¬ (index ≤ j ∧ j < index + n) → c'.data j = c.data j)
      (fun _ c' => c'.key = c.key ∧ SameStats c.mem c'.mem ∧ ∀ j, ¬ (index ≤ j ∧ j < index + n) → c'.data j = c.data j) c := by
  have hx := P.two_pow_xlen
  have hb : statsBase = 0xC0000000 := rfl
  unfold storeVal
  simp only [wlp_bind, wlp_ite, wlp_undefined]
  refine ⟨fun _ => trivial, fun _ => wlp_of_wp ?_⟩
  refine wp_forRange (fun _ (c' : TaggedCache) => c'.key = c.key ∧ SameStats c.mem c'.mem ∧
    ∀ j, ¬ (index ≤ j ∧ j < index + n) → c'.data j = c.data j) ⟨rfl, .rfl, fun _ _ => rfl⟩ fun i s hi hs => ?_
  have hdata : ∀ j, ¬ (index ≤ j ∧ j < index + n) → Function.update s.data (index + i) (leByte val i) j = c.data j := fun j hj =>
    (Function.update_of_ne (by omega) ..).trans (hs.2.2 j hj)
  simp only [wp_bind, wp_modify, wp_ite, wp_pure]
  refine ⟨fun _ => ?_, fun _ => ⟨hs.1, hs.2.1, hdata⟩⟩
  rw [Nat.mod_eq_of_lt (a := mpa + i) (by omega)]
  unfold wp memStore
  dsimp only
  cases hst : s.mem.store 1 (mpa + i) (leByte val i).toNat with
  | none => exact ⟨hs.1, hs.2.1, hdata⟩
  | some mem => exact ⟨hs.1, hs.2.1.trans (sameStats_store hst (by omega)), hdata⟩

/-- The store marks its line as dirty, which is below the statistics. -/
theorem wlp_writeVal {s : LoggedCache} {n mpa index : Nat} (h : StatsKept P base s) (hlt : mpa + n ≤ statsBase) (hn : 0 < n)
    (hpage : (s.state.key index).status ≠ .empty ∧ (s.state.key index).ppn = P.ppn (P.pcln mpa)) (val : Nat) :
    (writeVal P n mpa index val).wlp (fun _ c' => StatsKept P base ⟨c', s.log⟩) (fun _ c' => StatsKept P base ⟨c', s.log⟩) s.state := by
  have hb : statsBase = 0xC0000000 := rfl
  have hppn : P.ppn (P.pcln mpa) < statsPage := by
    rw [P.ppn_pcln]
    unfold statsPage
    omega
  have tail {c : TaggedCache} (hkey : CleanStats P c.key) (hmem : c.mem = s.state.mem) :
      (storeVal P n mpa (index <<< P.lineShift ||| P.offset mpa) val).wlp (fun _ c' => StatsKept P base ⟨c', s.log⟩)
        (fun _ c' => StatsKept P base ⟨c', s.log⟩) c := by
    refine wlp_mono (wlp_storeVal hlt _ val c) (fun _ c' hc => ?_) fun _ c' hc => ?_
    · exact ⟨hc.1 ▸ hkey, h.counted.congr (hmem ▸ hc.2.1)⟩
    · exact ⟨hc.1 ▸ hkey, h.counted.congr (hmem ▸ hc.2.1)⟩
  unfold writeVal
  simp only [wlp_bind, wlp_ite, wlp_modify, wlp_pure]
  refine ⟨fun hback => tail ?_ rfl, fun _ => tail h.clean rfl⟩
  refine h.clean.update hpage.1 ?_ fun _ => ⟨hback, hpage.2 ▸ hppn⟩
  exact h.clean.page index hpage.1

end Access

end TaggedCache

/-! ## Steps -/

/-- What a cached access writes to the log, where its lookup settles on `index`. -/
def CacheStep.log (P : CacheParam) (key : Nat → CacheEntry) (index : Nat) : CacheStep → List TagEvent
  | .load n mpa =>
    (if Crosses P n (index <<< P.lineShift ||| P.offset mpa) then nextLog P key mpa index else []) ++
      fillLog P key mpa index ++ [.count 0xC0000000]
  | .store _ mpa _ => fillLog P key mpa index ++ [.count 0xC0000008]

/-- Stores do not reach the statistics. -/
def CacheStep.StoresBelow : CacheStep → Prop
  | .load .. => True
  | .store n mpa _ => 0 < n ∧ (mpa + n ≤ statsBase ∨ defaultRamBase + defaultRamSize < mpa)

section Steps
open Prog
variable {P : CacheParam} {base : Nat → Nat} {s : LoggedCache}

/-- A state in which a lookup has just settled on `index`. -/
theorem wlp_fill_of_lookup (h : StatsKept P base s) {mpa : Nat} (hm : mpa < 0xC0001000) {f : Nat → LogM Nat}
    {post : Nat → LoggedCache → Prop}
    (hf : ∀ index s2, lookupIndex P s.state.key mpa = some index → FilledStats P base mpa index s s2 →
      (f index).wlp post (fun _ s' => StatsKept P base s') s2) :
    (do
      let index ← quietly (lookupCacheLine P mpa)
      fillLogged P mpa index
      f index).wlp post (fun _ s' => StatsKept P base s') s := by
  simp only [wlp_bind, wlp_quietly]
  refine wlp_mono (wlp_of_wp (wp_lookup_clean h.clean (by omega))) (fun index c1 hF => ?_) fun _ _ hfalse => hfalse.elim
  exact wlp_mono (wlp_fill h (by omega) hF) (fun _ s2 hs2 => hf index s2 hF.settles hs2) fun _ _ hk => hk

theorem wlp_load_access (h : StatsKept P base s) {n mpa : Nat} (hm : mpa < 0xC0001000) (val : Nat) :
    (accessLogged P n mpa .load val).wlp (fun _ s' => StatsKept P base s' ∧ ∃ index, lookupIndex P s.state.key mpa = some index ∧
      s'.log = (if Crosses P n (index <<< P.lineShift ||| P.offset mpa) then nextLog P s.state.key mpa index else []) ++
        fillLog P s.state.key mpa index ++ s.log) (fun _ s' => StatsKept P base s') s := by
  refine wlp_fill_of_lookup h hm fun index s2 hindex hs2 => ?_
  have read {t : LoggedCache} (hk : StatsKept P base t) (log : List TagEvent) (hlog : t.log = log ++ fillLog P s.state.key mpa index ++ s.log)
      (hcross : log = if Crosses P n (index <<< P.lineShift ||| P.offset mpa) then nextLog P s.state.key mpa index else []) :
      (quietly (readVal P n (index <<< P.lineShift ||| P.offset mpa)) : LogM Nat).wlp (fun _ s' => StatsKept P base s' ∧
        ∃ index, lookupIndex P s.state.key mpa = some index ∧
        s'.log = (if Crosses P n (index <<< P.lineShift ||| P.offset mpa) then nextLog P s.state.key mpa index else []) ++
          fillLog P s.state.key mpa index ++ s.log) (fun _ s' => StatsKept P base s') t := by
    unfold readVal
    simp only [wlp_quietly, wlp_bind, wlp_ite, wlp_undefined, wlp_get, wlp_pure]
    exact ⟨fun _ => trivial, fun _ => ⟨hk, index, hindex, hcross ▸ hlog⟩⟩
  unfold loadValLogged
  simp only [wlp_bind, wlp_ite]
  refine ⟨fun hx => ?_, fun hx => read hs2.kept [] (by rw [hs2.log]; rfl) (by rw [if_neg hx])⟩
  refine wlp_mono (wlp_fillNext hs2.kept hm) ?_ fun _ _ hk => hk
  rintro _ t ⟨hk, hlog⟩
  refine read hk (nextLog P s.state.key mpa index) ?_ (by rw [if_pos hx])
  -- the fill has left the next entry its line
  have hnext := (hs2.other (index + 1) (by omega)).1
  rw [hlog, hs2.log, List.append_assoc]
  unfold nextLog held
  simp only [hnext.1, hnext.2.2]

theorem wlp_store_access (h : StatsKept P base s) {n mpa : Nat} (hm : mpa < 0xC0001000) (hlt : mpa + n ≤ statsBase) (hn : 0 < n)
    (val : Nat) :
    (accessLogged P n mpa .store val).wlp (fun _ s' => StatsKept P base s' ∧ ∃ index, lookupIndex P s.state.key mpa = some index ∧
      s'.log = fillLog P s.state.key mpa index ++ s.log) (fun _ s' => StatsKept P base s') s := by
  refine wlp_fill_of_lookup h hm fun index s2 hindex hs2 => ?_
  simp only [wlp_quietly]
  exact wlp_mono (wlp_writeVal hs2.kept hlt hn hs2.page val) (fun _ _ hk => ⟨hk, index, hindex, hs2.log⟩) fun _ _ hk => hk

/-- What a step does to the statistics and the log. -/
theorem wlp_execLogged (h : StatsKept P base s) {op : CacheStep} (hop : op.StoresBelow) :
    (op.execLogged P).wlp (fun _ s' => StatsKept P base s' ∧ (Cacheable op.mpa → ∃ index, lookupIndex P s.state.key op.mpa = some index ∧
        s'.log = op.log P s.state.key index ++ s.log)) (fun _ s' => StatsKept P base s') s := by
  have hsize : defaultRamBase + defaultRamSize = 0xC0000028 := rfl
  have hcount {a : Nat} (ha : a ∈ statAddrs) : StatsKept P base ⟨{ s.state with mem := countUp a s.state.mem }, .count a :: s.log⟩ :=
    ⟨h.clean, h.counted.count ha⟩
  cases op with
  | load n mpa =>
    simp only [CacheStep.execLogged, loadLogged, wlp_ite, wlp_bind, wlp_countStats, wlp_quietly]
    refine ⟨fun hout => ?_, fun hin => ?_⟩
    · unfold wlp memLoad
      have hnot : ¬ Cacheable mpa := fun hc => by
        unfold Cacheable at hc
        omega
      cases s.state.mem.load n mpa with
      | none => exact h
      | some v => exact ⟨h, fun hc => absurd hc hnot⟩
    · rw [not_or, not_lt, not_lt] at hin
      refine wlp_mono (wlp_load_access (hcount (by decide)) (by omega) 0) ?_ fun _ _ hk => hk
      rintro _ s' ⟨hk, index, hindex, hlog⟩
      refine ⟨hk, fun _ => ⟨index, hindex, hlog.trans ?_⟩⟩
      simp [CacheStep.log]
  | store n mpa val =>
    obtain ⟨hn, hlt⟩ := hop
    simp only [CacheStep.execLogged, storeLogged, wlp_ite, wlp_bind, wlp_countStats, wlp_quietly, wlp_pure]
    refine ⟨fun hout => ?_, fun hin => ?_⟩
    · have hnot : ¬ Cacheable mpa := fun hc => by
        unfold Cacheable at hc
        omega
      unfold wlp memStore
      cases hst : s.state.mem.store n mpa val with
      | none => exact h
      | some mem =>
        refine ⟨⟨h.clean, h.counted.congr (sameStats_store hst ?_)⟩, fun hc => absurd hc hnot⟩
        omega
    · rw [not_or, not_lt, not_lt] at hin
      refine wlp_mono (wlp_store_access (hcount (by decide)) (by omega) (by omega) hn val) ?_ fun _ _ hk => hk
      rintro _ s' ⟨hk, index, hindex, hlog⟩
      refine ⟨hk, fun _ => ⟨index, hindex, hlog.trans ?_⟩⟩
      simp [CacheStep.log]

end Steps

/-! ## What the log adds up to -/

/-- A line was replaced by another. -/
def TagEvent.replaces : TagEvent → Bool
  | .tag _ (some held) line => held ≠ line
  | _ => false

/-- How many lines were replaced by other ones. -/
def replacedLines (log : List TagEvent) : Nat := log.countP TagEvent.replaces

namespace CacheStep

variable (P : CacheParam)

def isLoad : CacheStep → Bool
  | .load .. => true
  | .store .. => false

/-- The load runs into the next line. -/
def RunsOver : CacheStep → Prop
  | .load n mpa => P.lineSize < P.offset mpa + n
  | .store .. => False

instance : (op : CacheStep) → Decidable (op.RunsOver P)
  | .load n mpa => inferInstanceAs (Decidable (P.lineSize < P.offset mpa + n))
  | .store .. => inferInstanceAs (Decidable False)

/-- A load or a store in RAM below the statistics. -/
def InRam : CacheStep → Prop
  | .load n mpa | .store n mpa _ => 0 < n ∧ defaultRamBase ≤ mpa ∧ mpa + n ≤ statsBase

end CacheStep

/-- The lookup finds an empty entry. -/
def ColdMiss (P : CacheParam) (s : LoggedCache) (op : CacheStep) : Prop :=
  (lookupIndex P s.state.key op.mpa).any fun index => (s.state.key index).status = .empty

instance (P : CacheParam) (s : LoggedCache) (op : CacheStep) : Decidable (ColdMiss P s op) := inferInstanceAs (Decidable (_ = true))

/-- A load that runs into the next line finds another line than that in the next entry. -/
def ReplacesNext (P : CacheParam) (s : LoggedCache) (op : CacheStep) : Prop :=
  op.RunsOver P → (lookupIndex P s.state.key op.mpa).all fun index =>
    (s.state.key (index + 1)).status ≠ .empty ∧ (s.state.key (index + 1)).pcln ≠ P.pcln op.mpa + 1

instance (P : CacheParam) (s : LoggedCache) (op : CacheStep) : Decidable (ReplacesNext P s op) :=
  inferInstanceAs (Decidable (op.RunsOver P → _ = true))

/-- A step that ends in no bus error. -/
def CacheStep.served (P : CacheParam) (s : LoggedCache) (op : CacheStep) : Option LoggedCache :=
  ((op.execLogged P s).result).map Prod.snd

section Totals
variable {P : CacheParam} {base : Nat → Nat} {s s' : LoggedCache}

theorem crosses_iff {n mpa index : Nat} (hn : 0 < n) :
    Crosses P n (index <<< P.lineShift ||| P.offset mpa) ↔ P.lineSize < P.offset mpa + n := by
  have hlt := P.offset_lt mpa
  have hpos := P.lineSize_pos
  have hdiv (x : Nat) : x >>> P.lineShift = x / P.lineSize := Nat.shiftRight_eq_div_pow ..
  unfold Crosses
  rw [dataIndex_eq, hdiv, hdiv, Nat.mul_comm index, Nat.add_assoc, Nat.mul_add_div hpos, Nat.mul_add_div hpos,
    Nat.div_eq_of_lt hlt, Nat.add_zero]
  constructor
  · intro hne
    by_contra hle
    exact hne (by rw [Nat.div_eq_of_lt (by omega)]; rfl)
  · intro h heq
    have := Nat.div_pos (show P.lineSize ≤ P.offset mpa + (n - 1) by omega) hpos
    omega

/-- What a list of events adds to the counters and to the lines replaced. -/
structure Adds (log : List TagEvent) (loads stores hits misses evicted replaced : Nat) : Prop where
  loads : log.count (.count 0xC0000000) = loads
  stores : log.count (.count 0xC0000008) = stores
  hits : log.count (.count 0xC0000010) = hits
  misses : log.count (.count 0xC0000018) = misses
  evicted : log.count (.count 0xC0000020) = evicted
  replaced : replacedLines log = replaced

theorem Adds.append {l l' : List TagEvent} {a b c d e f a' b' c' d' e' f' : Nat} (h : Adds l a b c d e f)
    (h' : Adds l' a' b' c' d' e' f') : Adds (l ++ l') (a + a') (b + b') (c + c') (d + d') (e + e') (f + f') where
  loads := by rw [List.count_append, h.loads, h'.loads]
  stores := by rw [List.count_append, h.stores, h'.stores]
  hits := by rw [List.count_append, h.hits, h'.hits]
  misses := by rw [List.count_append, h.misses, h'.misses]
  evicted := by rw [List.count_append, h.evicted, h'.evicted]
  replaced := by rw [replacedLines, List.countP_append]; exact congrArg₂ (· + ·) h.replaced h'.replaced

/-- A lookup hits, finds an empty entry, or replaces a line. -/
theorem adds_fillLog (h : CleanStats P s.state.key) (mpa index : Nat) :
    ((s.state.key index).status = .empty ∧ Adds (fillLog P s.state.key mpa index) 0 0 0 1 0 0) ∨
    ((s.state.key index).status ≠ .empty ∧ (Adds (fillLog P s.state.key mpa index) 0 0 1 0 0 0 ∨
      Adds (fillLog P s.state.key mpa index) 0 0 0 1 1 1)) := by
  unfold fillLog
  by_cases he : (s.state.key index).status = .empty
  · rw [if_pos he]
    exact .inl ⟨he, by constructor <;> rfl⟩
  · rw [if_neg he]
    refine .inr ⟨he, ?_⟩
    by_cases hppn : (s.state.key index).ppn = P.ppn (P.pcln mpa)
    · rw [if_pos hppn]
      exact .inl (by constructor <;> rfl)
    · rw [if_neg hppn]
      have hne : (s.state.key index).pcln ≠ P.pcln mpa := fun heq => hppn (by rw [h.page index he, heq])
      refine .inr ⟨rfl, rfl, rfl, rfl, rfl, ?_⟩
      simp [replacedLines, TagEvent.replaces, hne]

theorem adds_nextLog (key : Nat → CacheEntry) (mpa index : Nat) : Adds (nextLog P key mpa index) 0 0 0 0 1
    (if (key (index + 1)).status ≠ .empty ∧ (key (index + 1)).pcln ≠ P.pcln mpa + 1 then 1 else 0) := by
  unfold nextLog held
  by_cases he : (key (index + 1)).status = .empty
  · simp only [he, if_true, ne_eq, not_true_eq_false, false_and, if_false]
    constructor <;> rfl
  · simp only [he, if_false, ne_eq, not_false_eq_true, true_and]
    refine ⟨rfl, rfl, rfl, rfl, rfl, ?_⟩
    by_cases hne : (key (index + 1)).pcln = P.pcln mpa + 1
    · simp [replacedLines, TagEvent.replaces, hne]
    · simp [replacedLines, TagEvent.replaces, hne]

/-- The counters of one access: a hit or a miss, a line evicted unless the entry was empty, and one more for a load
that runs into the next line. -/
theorem log_adds (h : CleanStats P s.state.key) {op : CacheStep} (hop : op.InRam) {index : Nat}
    (hindex : lookupIndex P s.state.key op.mpa = some index) :
    ∃ hits misses evicted replaced, Adds (op.log P s.state.key index) (if op.isLoad then 1 else 0) (if op.isLoad then 0 else 1)
        hits misses evicted replaced ∧
      hits + misses = 1 ∧
      evicted + (if ColdMiss P s op then 1 else 0) = misses + (if op.RunsOver P then 1 else 0) ∧
      replaced + (if ¬ ReplacesNext P s op then 1 else 0) = evicted := by
  have hcold : ColdMiss P s op ↔ (s.state.key index).status = .empty := by
    unfold ColdMiss
    rw [hindex, Option.any_some]
    exact decide_eq_true_iff
  cases op with
  | load n mpa =>
    have hload : Adds [.count 0xC0000000] 1 0 0 0 0 0 := by constructor <;> rfl
    have hx : Crosses P n (index <<< P.lineShift ||| P.offset mpa) ↔ (CacheStep.load n mpa).RunsOver P := crosses_iff hop.1
    have hrest : ReplacesNext P s (.load n mpa) ↔ ((CacheStep.load n mpa).RunsOver P →
        (s.state.key (index + 1)).status ≠ .empty ∧ (s.state.key (index + 1)).pcln ≠ P.pcln mpa + 1) := by
      unfold ReplacesNext
      rw [hindex, Option.all_some]
      exact imp_congr Iff.rfl decide_eq_true_iff
    have hnext := adds_nextLog s.state.key (P := P) mpa index
    simp only [CacheStep.log, CacheStep.isLoad, if_true, hcold, hx, hrest]
    by_cases hover : (CacheStep.load n mpa).RunsOver P
    · simp only [hover, if_true, true_imp_iff]
      by_cases hr : (s.state.key (index + 1)).status ≠ .empty ∧ (s.state.key (index + 1)).pcln ≠ P.pcln mpa + 1
      · rw [if_pos hr] at hnext
        rw [if_neg (not_not.2 hr)]
        rcases adds_fillLog h mpa index with ⟨he, hf⟩ | ⟨he, hf | hf⟩
        · exact ⟨0, 1, 1, 1, (hnext.append hf).append hload, rfl, by rw [if_pos he], rfl⟩
        · exact ⟨1, 0, 1, 1, (hnext.append hf).append hload, rfl, by rw [if_neg he], rfl⟩
        · exact ⟨0, 1, 2, 2, (hnext.append hf).append hload, rfl, by rw [if_neg he], rfl⟩
      · rw [if_neg hr] at hnext
        rw [if_pos hr]
        rcases adds_fillLog h mpa index with ⟨he, hf⟩ | ⟨he, hf | hf⟩
        · exact ⟨0, 1, 1, 0, (hnext.append hf).append hload, rfl, by rw [if_pos he], rfl⟩
        · exact ⟨1, 0, 1, 0, (hnext.append hf).append hload, rfl, by rw [if_neg he], rfl⟩
        · exact ⟨0, 1, 2, 1, (hnext.append hf).append hload, rfl, by rw [if_neg he], rfl⟩
    · simp only [hover, if_false, false_imp_iff, not_true, List.nil_append]
      rcases adds_fillLog h mpa index with ⟨he, hf⟩ | ⟨he, hf | hf⟩
      · exact ⟨0, 1, 0, 0, hf.append hload, rfl, by rw [if_pos he], rfl⟩
      · exact ⟨1, 0, 0, 0, hf.append hload, rfl, by rw [if_neg he], rfl⟩
      · exact ⟨0, 1, 1, 1, hf.append hload, rfl, by rw [if_neg he], rfl⟩
  | store n mpa val =>
    have hstore : Adds [.count 0xC0000008] 0 1 0 0 0 0 := by constructor <;> rfl
    have hnot : ReplacesNext P s (.store n mpa val) := fun hf => hf.elim
    have hover : ¬ (CacheStep.store n mpa val).RunsOver P := id
    simp only [CacheStep.log, CacheStep.isLoad, hover, hnot, not_true, hcold, if_false, Bool.false_eq_true]
    rcases adds_fillLog h mpa index with ⟨he, hf⟩ | ⟨he, hf | hf⟩
    · exact ⟨0, 1, 0, 0, hf.append hstore, rfl, by rw [if_pos he], rfl⟩
    · exact ⟨1, 0, 0, 0, hf.append hstore, rfl, by rw [if_neg he], rfl⟩
    · exact ⟨0, 1, 1, 1, hf.append hstore, rfl, by rw [if_neg he], rfl⟩

theorem served_spec (h : StatsKept P base s) {op : CacheStep} (hop : op.InRam) (hs : CacheStep.served P s op = some s') :
    StatsKept P base s' ∧ ∃ index, lookupIndex P s.state.key op.mpa = some index ∧ s'.log = op.log P s.state.key index ++ s.log := by
  obtain ⟨⟨v, t⟩, hres, rfl⟩ := Option.map_eq_some_iff.1 hs
  have hok := Outcome.eq_ok hres
  have hb : statsBase ≤ defaultRamBase + defaultRamSize := by decide
  have hbelow : op.StoresBelow := by
    cases op with
    | load n mpa => trivial
    | store n mpa val => exact ⟨hop.1, .inl hop.2.2⟩
  have hc : Cacheable op.mpa := by
    cases op with
    | load n mpa => exact ⟨hop.2.1, by have := hop.2.2; show mpa ≤ _; omega⟩
    | store n mpa val => exact ⟨hop.2.1, by have := hop.2.2; show mpa ≤ _; omega⟩
  obtain ⟨hk, hlog⟩ := Prog.wlp_of_ok (wlp_execLogged h hbelow) hok
  exact ⟨hk, hlog hc⟩

/-- The sums of a run. -/
theorem run_adds {ops : List CacheStep} (h : StatsKept P base s) (hops : ∀ op ∈ ops, op.InRam)
    (hrun : steps (CacheStep.served P) ops s = some s') :
    StatsKept P base s' ∧ ∃ log hits misses evicted replaced, s'.log = log ++ s.log ∧
      Adds log (ops.countP CacheStep.isLoad) (ops.countP fun op => !op.isLoad) hits misses evicted replaced ∧
      hits + misses = ops.length ∧
      evicted + tally (CacheStep.served P) (ColdMiss P) ops s = misses + (ops.countP fun op => op.RunsOver P) ∧
      replaced + tally (CacheStep.served P) (fun s op => ¬ ReplacesNext P s op) ops s = evicted := by
  induction ops generalizing s with
  | nil =>
    obtain rfl := Option.some.inj hrun
    exact ⟨h, [], 0, 0, 0, 0, rfl, by constructor <;> rfl, rfl, rfl, rfl⟩
  | cons op ops ih =>
    obtain ⟨s1, h1, hrest⟩ := Option.bind_eq_some_iff.1 hrun
    have hop := hops op List.mem_cons_self
    obtain ⟨hk1, index, hindex, hlog1⟩ := served_spec h hop h1
    obtain ⟨hits, misses, evicted, replaced, hadds, hhm, hev, hrep⟩ := log_adds h.clean hop hindex
    obtain ⟨hk, log, hits', misses', evicted', replaced', hlog, hadds', hhm', hev', hrep'⟩ :=
      ih hk1 (fun op hop => hops op (List.mem_cons_of_mem _ hop)) hrest
    refine ⟨hk, log ++ op.log P s.state.key index, hits' + hits, misses' + misses, evicted' + evicted, replaced' + replaced, ?_, ?_, ?_,
      ?_, ?_⟩
    · rw [hlog, hlog1, List.append_assoc]
    · have hsum := hadds'.append hadds
      simp only [List.countP_cons, Bool.not_eq_eq_eq_not, Bool.not_true]
      cases hl : op.isLoad <;> simpa [hl] using hsum
    · rw [List.length_cons]
      omega
    · unfold tally
      rw [h1, Option.elim_some, List.countP_cons]
      simp only [decide_eq_true_eq]
      omega
    · unfold tally
      rw [h1, Option.elim_some]
      omega

end Totals

/-! ## The statistics of a run -/

/-- The counters in memory after the accesses `ops`. -/
structure StatsAddUp (ops : List CacheStep) (s : LoggedCache) : Prop where
  loads : s.state.mem.load 8 0xC0000000 = some (ops.countP CacheStep.isLoad)
  stores : s.state.mem.load 8 0xC0000008 = some (ops.countP fun op => !op.isLoad)
  lookups : ∃ hits misses, s.state.mem.load 8 0xC0000010 = some hits ∧ s.state.mem.load 8 0xC0000018 = some misses ∧
    hits + misses = ops.countP CacheStep.isLoad + ops.countP fun op => !op.isLoad
  evicted : s.state.mem.load 8 0xC0000020 = some (replacedLines s.log)
  bound : ∃ evicted misses, s.state.mem.load 8 0xC0000020 = some evicted ∧ s.state.mem.load 8 0xC0000018 = some misses ∧
    evicted ≤ misses

/-- The statistics of a run add up exactly if every load that runs into the next line replaces another line in the next
entry, and there are no more such loads than lookups that find an empty entry. -/
theorem stats_add_up (P : CacheParam) (mem : UserMemory) (data : Nat → UInt8) (last : LineStatus) (ops : List CacheStep)
    (s : LoggedCache) (hzero : ∀ a ∈ statAddrs, mem.load 8 a = some 0) (hops : ∀ op ∈ ops, op.InRam) (hlen : ops.length < 2 ^ 63)
    (hrun : steps (CacheStep.served P) ops ⟨fresh P mem data last, []⟩ = some s) :
    StatsAddUp ops s ↔ Along (CacheStep.served P) (ReplacesNext P) ops ⟨fresh P mem data last, []⟩ ∧
      (ops.countP fun op => op.RunsOver P) ≤ tally (CacheStep.served P) (ColdMiss P) ops ⟨fresh P mem data last, []⟩ := by
  have hk0 : StatsKept P (fun _ => 0) ⟨fresh P mem data last, []⟩ := by
    refine ⟨CleanStats.fresh P mem data last, fun a ha => ?_⟩
    exact hzero a ha
  obtain ⟨hk, log, hits, misses, evicted, replaced, hlog, hadds, hhm, hev, hrep⟩ := run_adds hk0 hops hrun
  rw [List.append_nil] at hlog
  rw [← tally_eq_zero_iff (p := fun s op => ¬ ReplacesNext P s op) fun _ _ => Iff.rfl]
  have hover : (ops.countP fun op => decide (op.RunsOver P)) ≤ ops.length := List.countP_le_length
  have hsum : (ops.countP CacheStep.isLoad) + (ops.countP fun op => !op.isLoad) = ops.length := by
    rw [List.length_eq_countP_add_countP CacheStep.isLoad]
    simp
  have hload {a n : Nat} (ha : a ∈ statAddrs) (hn : log.count (.count a) = n) (hlt : n < 2 ^ 64) : s.state.mem.load 8 a = some n := by
    rw [hk.counted a ha, hlog, hn, Nat.zero_add, Nat.mod_eq_of_lt hlt]
  have hloads := hload (by decide) hadds.loads (by omega)
  have hstores := hload (by decide) hadds.stores (by omega)
  have hhits := hload (by decide) hadds.hits (by omega)
  have hmisses := hload (by decide) hadds.misses (by omega)
  have hevicted := hload (by decide) hadds.evicted (by omega)
  constructor
  · rintro ⟨-, -, -, he, evicted', misses', he', hm', hle⟩
    rw [hevicted] at he he'
    rw [hmisses] at hm'
    obtain rfl := Option.some.inj he'
    obtain rfl := Option.some.inj hm'
    have hreplaced : evicted = replaced := (Option.some.inj he).trans (hlog ▸ hadds.replaced)
    exact ⟨by omega, by omega⟩
  · rintro ⟨hnone, hcold⟩
    refine ⟨hloads, hstores, ⟨hits, misses, hhits, hmisses, by omega⟩, ?_, ⟨evicted, misses, hevicted, hmisses, by omega⟩⟩
    rw [hevicted, hlog, hadds.replaced]
    exact congrArg some (by omega)

/-- The steps that end in no bus error are those of the runs whose results are all values. -/
theorem steps_served_iff (P : CacheParam) (ops : List CacheStep) (s : LoggedCache) (c : TaggedCache) :
    (∃ s', steps (CacheStep.served P) ops s = some s' ∧ s'.state = c) ↔
      ∃ rs, CacheStep.run P ops s.state = some (rs, c) ∧ ∀ r ∈ rs, r.isSome := by
  induction ops generalizing s with
  | nil =>
    constructor
    · rintro ⟨s', hs, rfl⟩
      obtain rfl := Option.some.inj hs
      exact ⟨[], rfl, fun r hr => absurd hr List.not_mem_nil⟩
    · rintro ⟨rs, hrun, -⟩
      obtain ⟨-, rfl⟩ := Prod.mk.inj (Option.some.inj hrun)
      exact ⟨s, rfl, rfl⟩
  | cons op ops ih =>
    have herase := op.erases_exec P s
    unfold steps CacheStep.run CacheStep.served CacheStep.step
    rw [← herase]
    cases op.execLogged P s with
    | undefined =>
      constructor
      · rintro ⟨s', hs, -⟩
        cases hs
      · rintro ⟨rs, hrun, -⟩
        cases hrun
    | error e t =>
      constructor
      · rintro ⟨s', hs, -⟩
        cases hs
      · rintro ⟨rs, hrun, hall⟩
        obtain ⟨⟨rs', c'⟩, -, heq⟩ := Option.map_eq_some_iff.1 hrun
        obtain ⟨rfl, -⟩ := Prod.mk.inj heq
        exact absurd (hall none List.mem_cons_self) (by decide)
    | ok v t =>
      constructor
      · intro h
        obtain ⟨rs, hrun, hall⟩ := (ih t).1 h
        refine ⟨some v :: rs, ?_, ?_⟩
        · exact Option.map_eq_some_iff.2 ⟨(rs, c), hrun, rfl⟩
        · intro r hr
          rcases List.mem_cons.1 hr with rfl | hr
          · rfl
          · exact hall r hr
      · rintro ⟨rs, hrun, hall⟩
        obtain ⟨⟨rs', c'⟩, hrun', heq⟩ := Option.map_eq_some_iff.1 hrun
        obtain ⟨rfl, rfl⟩ := Prod.mk.inj heq
        exact (ih t).2 ⟨rs', hrun', fun r hr => hall r (List.mem_cons_of_mem _ hr)⟩

/-- Two stores and a load of one line. -/
theorem stats_add_up_one_line : ∃ s,
    steps (CacheStep.served (cacheOfWays 0 .back)) [.store 8 0x80000000 1, .store 8 0x80000008 2, .load 8 0x80000000]
      ⟨fresh (cacheOfWays 0 .back) zeroRam (fun _ => 0) .empty, []⟩ = some s ∧
    StatsAddUp [.store 8 0x80000000 1, .store 8 0x80000008 2, .load 8 0x80000000] s := by
  have hsome : (steps (CacheStep.served (cacheOfWays 0 .back)) [.store 8 0x80000000 1, .store 8 0x80000008 2, .load 8 0x80000000]
      ⟨fresh (cacheOfWays 0 .back) zeroRam (fun _ => 0) .empty, []⟩).isSome = true := by
    decide +kernel
  obtain ⟨s, hrun⟩ := Option.isSome_iff_exists.1 hsome
  refine ⟨s, hrun, (stats_add_up (cacheOfWays 0 .back) zeroRam (fun _ => 0) .empty _ s (by decide +kernel) ?_ (by decide) hrun).2
    ⟨?_, Nat.zero_le _⟩⟩
  · intro op hop
    simp only [List.mem_cons, List.not_mem_nil, or_false] at hop
    rcases hop with rfl | rfl | rfl <;> exact ⟨by decide, by decide, by decide⟩
  · decide +kernel

/-- A load of 4 bytes that runs into the next line fills an empty entry and counts as an eviction. -/
theorem not_stats_add_up : ¬ ∀ (P : CacheParam) (mem : UserMemory) (data : Nat → UInt8) (last : LineStatus) (ops : List CacheStep)
    (s : LoggedCache), (∀ a ∈ statAddrs, mem.load 8 a = some 0) → (∀ op ∈ ops, op.InRam) →
      steps (CacheStep.served P) ops ⟨fresh P mem data last, []⟩ = some s → StatsAddUp ops s := by
  intro h
  have hrun : (steps (CacheStep.served (cacheOfWays 0 .back)) [.load 4 0x8000003e]
      ⟨fresh (cacheOfWays 0 .back) zeroRam (fun _ => 0) .empty, []⟩).map
      (fun s => (s.state.mem.load 8 0xC0000020, replacedLines s.log)) = some (some 1, 0) := by
    decide +kernel
  obtain ⟨s, hs, hfacts⟩ := Option.map_eq_some_iff.1 hrun
  obtain ⟨hcounter, hreplaced⟩ := Prod.mk.inj hfacts
  have hall := h (cacheOfWays 0 .back) zeroRam (fun _ => 0) .empty _ s (by decide +kernel) ?_ hs
  · have := hall.evicted
    rw [hcounter, hreplaced] at this
    exact absurd this (by decide)
  · intro op hop
    obtain rfl := List.mem_singleton.1 hop
    exact ⟨by decide, by decide, by decide⟩

end Rv8.Emu
