import Rv8.Emu.CacheLog
import Rv8.Lib.Steps
/-!
# Which line goes

A miss in a full set should take the line of the set that was used longest ago. The
counters that are to tell do not count uses: a hit leaves them alone and so does the
fill of an empty entry. What they count, in each entry, is how many lines of the set
were replaced since its own was (`LruCounts`). The lookup takes the last entry with the
greatest counter, so it takes the line used longest ago exactly if that is the entry
whose line was replaced longest ago too (`Ranked`). The greatest counter so far is
kept in 8 bits, which is another way to go wrong (`FewReplaced`).
-/

namespace Rv8.Emu

open Rv8.Lib TaggedCache

/-! ## What is asked -/

/-- Way `w` of the set of `mpa`. -/
def CacheParam.way (P : CacheParam) (mpa w : Nat) : Nat := P.entry (P.pcln mpa) <<< P.waysShift + w

/-- The event is a hit or a fill of the entry. -/
def TagEvent.accesses (index : Nat) : TagEvent → Bool
  | .hit i => i = index
  | .tag i _ _ => i = index
  | _ => false

/-- How many events ago the entry was last hit or filled. -/
def lastAccess (log : List TagEvent) (index : Nat) : Nat := log.findIdx (TagEvent.accesses index)

/-- How many lines of the set were replaced since the one of the entry was, or since the start. -/
def replacedSince (P : CacheParam) (index : Nat) : List TagEvent → Nat
  | [] => 0
  | .age i set :: log =>
    if index = i then 0
    else if P.setOf index = set then replacedSince P index log + 1
    else replacedSince P index log
  | _ :: log => replacedSince P index log

/-- No way of the set of `mpa` is empty or holds the line. -/
def FullMiss (P : CacheParam) (key : Nat → CacheEntry) (mpa : Nat) : Prop :=
  ∀ w < P.numWays, (key (P.way mpa w)).status ≠ .empty ∧ (key (P.way mpa w)).ppn ≠ P.ppn (P.pcln mpa)

instance (P : CacheParam) (key : Nat → CacheEntry) (mpa : Nat) : Decidable (FullMiss P key mpa) :=
  inferInstanceAs (Decidable (∀ w < P.numWays, _ ∧ _))

/-- A miss in a full set takes the line whose last hit or fill lies furthest in the past. -/
def EvictsLru (P : CacheParam) (s : LoggedCache) (op : CacheStep) : Prop :=
  Cacheable op.mpa → FullMiss P s.state.key op.mpa → ∀ v, lookupIndex P s.state.key op.mpa = some v →
    ∀ w < P.numWays, P.way op.mpa w ≠ v → lastAccess s.log (P.way op.mpa w) < lastAccess s.log v

/-- At a miss in a full set, the way used longest ago is also the one replaced longest ago, and ways after it were not
replaced as long ago. -/
def Ranked (P : CacheParam) (s : LoggedCache) (op : CacheStep) : Prop :=
  Cacheable op.mpa → FullMiss P s.state.key op.mpa → ∃ w < P.numWays,
    (∀ u < P.numWays, u ≠ w → lastAccess s.log (P.way op.mpa u) < lastAccess s.log (P.way op.mpa w)) ∧
    (∀ u < w, replacedSince P (P.way op.mpa u) s.log ≤ replacedSince P (P.way op.mpa w) s.log) ∧
    ∀ u < P.numWays, w < u → replacedSince P (P.way op.mpa u) s.log < replacedSince P (P.way op.mpa w) s.log

instance (P : CacheParam) (s : LoggedCache) (op : CacheStep) : Decidable (Ranked P s op) :=
  inferInstanceAs (Decidable (Cacheable op.mpa → FullMiss P s.state.key op.mpa → ∃ w < P.numWays, _ ∧ _ ∧ _))

/-- At a miss in a full set, 8 bits hold the counters. -/
def FewReplaced (P : CacheParam) (s : LoggedCache) (op : CacheStep) : Prop :=
  Cacheable op.mpa → FullMiss P s.state.key op.mpa → ∀ w < P.numWays, replacedSince P (P.way op.mpa w) s.log < 256

instance (P : CacheParam) (s : LoggedCache) (op : CacheStep) : Decidable (FewReplaced P s op) :=
  inferInstanceAs (Decidable (Cacheable op.mpa → FullMiss P s.state.key op.mpa → ∀ w < P.numWays, _))

/-! ## What the counters count -/

/-- The counters of all entries. -/
def LruIs (count : Nat → Nat) (c : TaggedCache) : Prop := ∀ j, (c.key j).lruCount = count j

def LruCounts (P : CacheParam) (s : LoggedCache) : Prop := LruIs (fun j => replacedSince P j s.log % 2 ^ P.xlen) s.state

section Counters
open Prog
variable {P : CacheParam} {count : Nat → Nat}

theorem LruIs.congr {c c' : TaggedCache} (h : LruIs count c) (hkey : c'.key = c.key) : LruIs count c' := fun j => hkey ▸ h j

theorem LruIs.setKey {c : TaggedCache} (h : LruIs count c) (index : Nat) {f : CacheEntry → CacheEntry}
    (hf : ∀ ent, (f ent).lruCount = ent.lruCount) : LruIs count (c.setKey index f) := by
  intro j
  by_cases hj : j = index
  · subst hj
    rw [setKey_self, hf]
    exact h j
  · rw [setKey_of_ne hj]
    exact h j

theorem keeps_lru_allocate (mpa : Nat) (op : CacheOp) (index : Nat) : Keeps (LruIs count) (allocate P mpa op index) :=
  keeps_of_wp fun _ h => wp_mono (wp_allocate_key mpa op index) (fun _ _ hk => h.congr hk) fun _ _ hk => h.congr hk

theorem keeps_lru_setKey (index : Nat) {f : CacheEntry → CacheEntry} (hf : ∀ ent, (f ent).lruCount = ent.lruCount) :
    Keeps (LruIs count) (Prog.modify (setKey index f) : CacheM Unit) := keeps_modify fun _ h => h.setKey index hf

theorem keeps_lru_lookupCacheLine (mpa : Nat) : Keeps (LruIs count) (lookupCacheLine P mpa) := by
  refine keeps_bind keeps_get fun c => ?_
  cases scan P c.key mpa P.numWays with
  | hit index => exact keeps_bind (keeps_lru_setKey index fun _ => rfl) fun _ => keeps_pure index
  | miss emptyLineIndex maxLru lineToEvict =>
    cases emptyLineIndex with
    | some index => exact keeps_pure index
    | none =>
      cases lineToEvict with
      | some index => exact keeps_bind (keeps_lru_setKey index fun _ => rfl) fun _ => keeps_pure index
      | none => exact keeps_undefined

theorem keeps_lru_readVal (n index : Nat) : Keeps (LruIs count) (readVal P n index) :=
  keeps_ite keeps_undefined (keeps_bind keeps_get fun _ => keeps_pure _)

theorem keeps_lru_storeVal (n mpa index val : Nat) : Keeps (LruIs count) (storeVal P n mpa index val) := by
  intro c h
  by_cases hsize : index + n ≤ P.size
  · exact keeps_of_wp (fun c h => wp_mono (wp_storeVal_key mpa val hsize) (fun _ _ hk => h.congr hk) fun _ _ hk => h.congr hk) c h
  · have hu : storeVal P n mpa index val c = .undefined := by
      unfold storeVal
      rw [if_pos (by omega)]
      rfl
    rw [hu]
    trivial

theorem keeps_lru_writeVal (n mpa index val : Nat) : Keeps (LruIs count) (writeVal P n mpa index val) := by
  have hstore : Keeps (LruIs count) (storeVal P n mpa (index <<< P.lineShift ||| P.offset mpa) val) := keeps_lru_storeVal _ _ _ _
  have tail := keeps_bind hstore fun _ => keeps_pure val
  exact keeps_ite (keeps_bind (keeps_lru_setKey index fun _ => rfl) fun _ => tail) tail

end Counters

section Logged
open Prog
variable {P : CacheParam}

theorem resetLru_self (index : Nat) (c : TaggedCache) : ((resetLru P index c).key index).lruCount = 0 := by
  simp [resetLru, updateLruCounters]

theorem resetLru_of_ne {index j : Nat} (hj : j ≠ index) (c : TaggedCache) : ((resetLru P index c).key j).lruCount =
    if P.setOf j = P.entry (c.key index).pcln then ((c.key j).lruCount + 1) % 2 ^ P.xlen else (c.key j).lruCount := by
  have hset (set : Nat) : (set <<< P.waysShift ≤ j ∧ j < set <<< P.waysShift + P.numWays ∧ j ≠ index) ↔ P.setOf j = set := by
    have hw := P.numWays_pos
    unfold CacheParam.setOf
    rw [P.shiftLeft_ways, Nat.div_eq_iff hw]
    simp only [hj, ne_eq, not_false_eq_true, and_true]
    omega
  simp only [resetLru, updateLruCounters, hset, setKey_of_ne hj]
  split <;> rfl

/-- A call that leaves the counters alone. -/
theorem keeps_counts {α : Type} {m : CacheM α} (h : ∀ count, Keeps (LruIs count) m) : Keeps (LruCounts P) (quietly m) :=
  keeps_quietly fun log => h fun j => replacedSince P j log % 2 ^ P.xlen

/-- An event that is no replacement. -/
theorem keeps_counts_emit {e : TaggedCache → TagEvent} (h : ∀ c log j, replacedSince P j (e c :: log) = replacedSince P j log) :
    Keeps (LruCounts P) (emit e : LogM Unit) := by
  refine keeps_emit fun s hs => ?_
  unfold LruCounts
  simp only [h]
  exact hs

theorem keeps_counts_countStats (mpa : Nat) : Keeps (LruCounts P) (countStats mpa) := by
  refine keeps_bind (keeps_counts fun count => keeps_modify fun _ h => ?_) fun _ => keeps_counts_emit fun _ _ _ => rfl
  exact h.congr rfl

/-- The step: the counters change as the log says. -/
theorem keeps_counts_ageSet (index : Nat) : Keeps (LruCounts P) (ageSet P index) := by
  intro s hs j
  show ((resetLru P index s.state).key j).lruCount =
    replacedSince P j (.age index (P.entry (s.state.key index).pcln) :: s.log) % 2 ^ P.xlen
  have hj := hs j
  unfold replacedSince
  by_cases hji : j = index
  · subst hji
    rw [if_pos rfl, resetLru_self]
    rfl
  · rw [if_neg hji, resetLru_of_ne hji, hj]
    split
    · exact Nat.mod_add_mod ..
    · rfl

theorem keeps_counts_tagLine (mpa index : Nat) : Keeps (LruCounts P) (tagLine P mpa index) :=
  keeps_bind (keeps_counts_emit fun _ _ _ => rfl) fun _ => keeps_counts fun _ => keeps_lru_setKey index fun _ => rfl

theorem keeps_counts_fetchLine (mpa index : Nat) : Keeps (LruCounts P) (fetchLine P mpa index) :=
  keeps_bind (keeps_counts fun _ => keeps_lru_allocate mpa .load index) fun _ => keeps_counts_emit fun _ _ _ => rfl

theorem keeps_counts_last (last : LineStatus) :
    Keeps (LruCounts P) (quietly (.modify fun c => { c with lastAccess := last }) : LogM Unit) :=
  keeps_counts fun _ => keeps_modify fun _ h => h.congr rfl

theorem keeps_counts_fill (mpa index : Nat) : Keeps (LruCounts P) (fillLogged P mpa index) := by
  refine keeps_bind (keeps_counts fun _ => keeps_get) fun c => ?_
  cases hst : (c.key index).status with
  | hit =>
    simp only [hst]
    refine keeps_bind (keeps_counts fun _ => keeps_lru_setKey index fun _ => rfl) fun _ => ?_
    refine keeps_bind (keeps_counts_emit fun _ _ _ => rfl) fun _ => ?_
    exact keeps_bind (keeps_counts_last _) fun _ => keeps_counts_countStats _
  | mustEvict =>
    simp only [hst]
    have tail := keeps_bind (keeps_counts_ageSet (P := P) index) fun _ => keeps_bind (keeps_counts_tagLine mpa index) fun _ =>
      keeps_bind (keeps_counts_last .mustEvict) fun _ => keeps_bind (keeps_counts_countStats 0xC0000018) fun _ =>
        keeps_bind (keeps_counts_countStats 0xC0000020) fun _ => keeps_counts_fetchLine mpa index
    refine keeps_ite (keeps_bind (keeps_counts fun _ => keeps_lru_setKey index fun _ => rfl) fun _ => ?_) tail
    exact keeps_bind (keeps_counts fun _ => keeps_lru_allocate _ _ _) fun _ => tail
  | empty =>
    simp only [hst]
    refine keeps_bind (keeps_counts_tagLine mpa index) fun _ => keeps_bind (keeps_counts_last _) fun _ => ?_
    exact keeps_bind (keeps_counts_countStats _) fun _ => keeps_counts_fetchLine mpa index
  | filled =>
    simp only [hst]
    exact keeps_pure ()

theorem keeps_counts_fillNext (mpa indexForData : Nat) : Keeps (LruCounts P) (fillNextLogged P mpa indexForData) := by
  have fetch (mpa index : Nat) := keeps_bind (keeps_counts_fetchLine (P := P) mpa index) fun _ =>
    keeps_bind (keeps_counts_tagLine mpa index) fun _ => keeps_bind (keeps_counts_last .mustEvict) fun _ =>
      keeps_counts_countStats 0xC0000020
  have replace (mpa index : Nat) := keeps_bind (keeps_counts_ageSet (P := P) index) fun _ => fetch mpa index
  unfold fillNextLogged
  refine keeps_ite (keeps_undefined_bind _) (keeps_bind (keeps_counts fun _ => keeps_get) fun c => ?_)
  refine keeps_ite (keeps_ite ?_ (replace _ _)) (fetch _ _)
  refine keeps_bind (keeps_counts fun _ => keeps_lru_allocate _ _ _) fun _ => ?_
  exact keeps_bind (keeps_counts fun _ => keeps_lru_setKey _ fun _ => rfl) fun _ => replace _ _

theorem keeps_counts_access (n mpa : Nat) (op : CacheOp) (val : Nat) : Keeps (LruCounts P) (accessLogged P n mpa op val) := by
  refine keeps_bind (keeps_counts fun _ => keeps_lru_lookupCacheLine mpa) fun index => ?_
  refine keeps_bind (keeps_counts_fill mpa index) fun _ => ?_
  cases op with
  | load =>
    have read := keeps_counts (P := P) fun _ => keeps_lru_readVal (P := P) n (index <<< P.lineShift ||| P.offset mpa)
    exact keeps_ite (keeps_bind (keeps_counts_fillNext mpa _) fun _ => read) read
  | store => exact keeps_counts fun _ => keeps_lru_writeVal n mpa index val

theorem keeps_counts_exec (op : CacheStep) : Keeps (LruCounts P) (op.execLogged P) := by
  cases op with
  | load n mpa =>
    refine keeps_ite (keeps_counts fun count => ?_) ?_
    · exact keeps_of_wp fun _ h => wp_mono (wp_memLoad_key n mpa) (fun _ _ hk => h.congr hk) fun _ _ hk => h.congr hk
    · exact keeps_bind (keeps_counts_countStats _) fun _ => keeps_counts_access n mpa .load 0
  | store n mpa val =>
    refine keeps_bind (keeps_ite (keeps_counts fun count => ?_) ?_) fun _ => keeps_pure 0
    · exact keeps_of_wp fun _ h => wp_mono (wp_memStore_key n mpa val) (fun _ _ hk => h.congr hk) fun _ _ hk => h.congr hk
    · refine keeps_bind (keeps_counts_countStats _) fun _ => ?_
      exact keeps_bind (keeps_counts_access n mpa .store val) fun _ => keeps_pure ()

theorem counts_next {s s' : LoggedCache} (h : LruCounts P s) {op : CacheStep} (hs : CacheStep.next P s op = some s') : LruCounts P s' := by
  have hk := keeps_counts_exec op s h
  obtain ⟨⟨r, t⟩, hstep, rfl⟩ := Option.map_eq_some_iff.1 hs
  unfold CacheStep.stepLogged at hstep
  cases hc : op.execLogged P s with
  | ok v t' =>
    rw [hc] at hk hstep
    obtain ⟨-, rfl⟩ := Prod.mk.inj (Option.some.inj hstep)
    exact hk
  | error e t' =>
    rw [hc] at hk hstep
    obtain ⟨-, rfl⟩ := Prod.mk.inj (Option.some.inj hstep)
    exact hk
  | undefined =>
    rw [hc] at hstep
    cases hstep

end Logged

/-! ## What the lookup takes -/

/-- The last of the greatest among the first `n`. -/
structure LastMax (f : Nat → Nat) (n w : Nat) : Prop where
  lt : w < n
  before : ∀ u < w, f u ≤ f w
  after : ∀ u, w < u → u < n → f u < f w

theorem LastMax.unique {f : Nat → Nat} {n w w' : Nat} (h : LastMax f n w) (h' : LastMax f n w') : w = w' := by
  rcases Nat.lt_trichotomy w w' with hlt | heq | hlt
  · have := h.after w' hlt h'.lt
    have := h'.before w hlt
    omega
  · exact heq
  · have := h'.after w hlt h.lt
    have := h.before w' hlt
    omega

section Lookup
variable {P : CacheParam} {key : Nat → CacheEntry} {mpa : Nat}

/-- The counters of the ways of the set of `mpa`. -/
def lruOf (P : CacheParam) (key : Nat → CacheEntry) (mpa w : Nat) : Nat := (key (P.way mpa w)).lruCount

/-- As long as 8 bits hold the counters, the loop ends with the last of the greatest. -/
theorem scan_lastMax {i : Nat} (hi : 0 < i)
    (hfull : ∀ w < i, (key (P.way mpa w)).status ≠ .empty ∧ (key (P.way mpa w)).ppn ≠ P.ppn (P.pcln mpa)) (hlt : ∀ w < i, lruOf P key mpa w < 256) :
    ∃ w, scan P key mpa i = .miss none (lruOf P key mpa w) (some (P.way mpa w)) ∧ LastMax (lruOf P key mpa) i w := by
  induction i with
  | zero => exact absurd hi (Nat.lt_irrefl 0)
  | succ i ih =>
    obtain ⟨hne, hppn⟩ := hfull i (Nat.lt_succ_self i)
    have hmod : lruOf P key mpa i % 256 = lruOf P key mpa i := Nat.mod_eq_of_lt (hlt i (Nat.lt_succ_self i))
    -- the turn: the way is neither a hit nor empty
    have turn {maxLru : Nat} {victim : Option Nat} (hscan : scan P key mpa i = .miss none maxLru victim) :
        scan P key mpa (i + 1) = if lruOf P key mpa i ≥ maxLru then .miss none (lruOf P key mpa i) (some (P.way mpa i))
          else .miss none maxLru victim := by
      simp only [scan, hscan]
      refine (if_neg hppn).trans ((if_neg fun h => hne h.2).trans ?_)
      exact if_congr Iff.rfl (congrArg (Scan.miss none · _) hmod) rfl
    rcases Nat.eq_zero_or_pos i with rfl | hpos
    · exact ⟨0, (turn rfl).trans (if_pos (Nat.zero_le _)), Nat.zero_lt_one, fun u hu => absurd hu (Nat.not_lt_zero u),
        fun u h0 h1 => by omega⟩
    · obtain ⟨w, hscan, hmax⟩ := ih hpos (fun w hw => hfull w (by omega)) fun w hw => hlt w (by omega)
      have hw := hmax.lt
      rcases Nat.lt_or_ge (lruOf P key mpa i) (lruOf P key mpa w) with hless | hge
      · refine ⟨w, (turn hscan).trans (if_neg (by omega)), by omega, hmax.before, fun u hwu hu => ?_⟩
        rcases Nat.lt_succ_iff_lt_or_eq.1 hu with hu | rfl
        · exact hmax.after u hwu hu
        · exact hless
      · refine ⟨i, (turn hscan).trans (if_pos hge), Nat.lt_succ_self i, fun u hu => ?_, fun u hu hu' => by omega⟩
        rcases Nat.lt_trichotomy u w with huw | rfl | huw
        · exact (hmax.before u huw).trans hge
        · exact hge
        · exact (Nat.le_of_lt (hmax.after u huw hu)).trans hge

/-- The way a miss in a full set takes. -/
theorem lookupIndex_lastMax (hfull : FullMiss P key mpa) (hlt : ∀ w < P.numWays, lruOf P key mpa w < 256) :
    ∃ w, lookupIndex P key mpa = some (P.way mpa w) ∧ LastMax (lruOf P key mpa) P.numWays w := by
  obtain ⟨w, hscan, hmax⟩ := scan_lastMax P.numWays_pos hfull hlt
  refine ⟨w, ?_, hmax⟩
  unfold lookupIndex
  rw [hscan]

/-- A lookup stays in the set. -/
theorem lookupIndex_way {v : Nat} (h : lookupIndex P key mpa = some v) : ∃ w < P.numWays, v = P.way mpa w := by
  have hok := scan_ok (P := P) key mpa P.numWays
  unfold lookupIndex at h
  cases hs : scan P key mpa P.numWays with
  | hit index =>
    rw [hs] at hok h
    obtain ⟨w, hw, hindex, -⟩ := hok
    exact ⟨w, hw, (Option.some.inj h).symm.trans hindex⟩
  | miss empty maxLru victim =>
    rw [hs] at hok h
    obtain ⟨-, hempty, -, hvictim, -⟩ := hok
    cases empty with
    | some index =>
      obtain ⟨w, hw, hindex, -⟩ := hempty index rfl
      exact ⟨w, hw, (Option.some.inj h).symm.trans hindex⟩
    | none => exact hvictim v h

theorem way_inj {u w : Nat} (h : P.way mpa u = P.way mpa w) : u = w := Nat.add_left_cancel h

end Lookup

/-! ## Runs -/

section Runs
variable {P : CacheParam}

/-- While 8 bits hold the counters, the lookup takes the least recently used line of a full set exactly if the two orders
agree on which line that is. -/
theorem evictsLru_iff {s : LoggedCache} (h : LruCounts P s) {op : CacheStep} (hfew : FewReplaced P s op) :
    EvictsLru P s op ↔ Ranked P s op := by
  have hcount (hc : Cacheable op.mpa) (hfull : FullMiss P s.state.key op.mpa) {w : Nat} (hw : w < P.numWays) :
      lruOf P s.state.key op.mpa w = replacedSince P (P.way op.mpa w) s.log := by
    have hx := P.two_pow_xlen
    have hlt := hfew hc hfull w hw
    exact (h _).trans (Nat.mod_eq_of_lt (by omega))
  constructor
  · intro hlru hc hfull
    obtain ⟨w, hv, hmax⟩ := lookupIndex_lastMax hfull fun w hw => hcount hc hfull hw ▸ hfew hc hfull w hw
    refine ⟨w, hmax.lt, fun u hu hne => ?_, fun u hu => ?_, fun u hu hwu => ?_⟩
    · exact hlru hc hfull _ hv u hu fun heq => hne (way_inj heq)
    · rw [← hcount hc hfull hmax.lt, ← hcount hc hfull (hu.trans hmax.lt)]
      exact hmax.before u hu
    · rw [← hcount hc hfull hmax.lt, ← hcount hc hfull hu]
      exact hmax.after u hwu hu
  · intro hranked hc hfull v hv
    obtain ⟨w, hw, holdest, hbefore, hafter⟩ := hranked hc hfull
    obtain ⟨w', hv', hmax⟩ := lookupIndex_lastMax hfull fun w hw => hcount hc hfull hw ▸ hfew hc hfull w hw
    obtain rfl := Option.some.inj (hv.symm.trans hv')
    have hmax' : LastMax (lruOf P s.state.key op.mpa) P.numWays w := by
      refine ⟨hw, fun u hu => ?_, fun u hwu hu => ?_⟩
      · rw [hcount hc hfull hw, hcount hc hfull (hu.trans hw)]
        exact hbefore u hu
      · rw [hcount hc hfull hw, hcount hc hfull hu]
        exact hafter u hu hwu
    obtain rfl := hmax.unique hmax'
    exact fun u hu hne => holdest u hu fun heq => hne (heq ▸ rfl)

theorem numWays_direct_mapped (h : P.waysShift = 0) : P.numWays = 1 := by
  unfold CacheParam.numWays
  rw [h]
  rfl

/-- With one way there is nothing to choose. -/
theorem evictsLru_direct_mapped (h : P.waysShift = 0) (s : LoggedCache) (op : CacheStep) : EvictsLru P s op := by
  have hone := numWays_direct_mapped h
  intro _ _ v hv w hw hne
  obtain ⟨w', hw', rfl⟩ := lookupIndex_way hv
  obtain rfl : w = w' := by omega
  exact absurd rfl hne

theorem ranked_direct_mapped (h : P.waysShift = 0) (s : LoggedCache) (op : CacheStep) : Ranked P s op := by
  have hone := numWays_direct_mapped h
  exact fun _ _ => ⟨0, by omega, fun u hu hne => by omega, fun u hu => by omega, fun u hu hu' => by omega⟩

theorem counts_fresh (mem : UserMemory) (data : Nat → UInt8) (last : LineStatus) : LruCounts P ⟨fresh P mem data last, []⟩ :=
  fun _ => (Nat.zero_mod _).symm

/-- In a run whose full sets have seen few replacements, every miss takes the line used longest ago exactly if every miss
finds that line to be the one replaced longest ago. -/
theorem evicts_lru (P : CacheParam) (mem : UserMemory) (data : Nat → UInt8) (last : LineStatus) (ops : List CacheStep)
    (hfew : Along (CacheStep.next P) (fun s op => P.waysShift = 0 ∨ FewReplaced P s op) ops ⟨fresh P mem data last, []⟩) :
    Along (CacheStep.next P) (EvictsLru P) ops ⟨fresh P mem data last, []⟩ ↔
      Along (CacheStep.next P) (Ranked P) ops ⟨fresh P mem data last, []⟩ := by
  have hiff {s : LoggedCache} {op : CacheStep} (h : LruCounts P s) (hfew : P.waysShift = 0 ∨ FewReplaced P s op) :
      EvictsLru P s op ↔ Ranked P s op := by
    rcases hfew with h0 | hfew
    · exact iff_of_true (evictsLru_direct_mapped h0 s op) (ranked_direct_mapped h0 s op)
    · exact evictsLru_iff h hfew
  have hnext : ∀ s a s', LruCounts P s → CacheStep.next P s a = some s' → LruCounts P s' := fun _ _ _ h hs => counts_next h hs
  have h0 := counts_fresh (P := P) mem data last
  refine ⟨fun h => ?_, fun h => ?_⟩
  · exact (hfew.and h).imp (fun _ _ _ hs _ => hnext _ _ _ hs) (fun _ _ hs ⟨hf, hok⟩ => (hiff hs hf).1 hok) h0
  · exact (hfew.and h).imp (fun _ _ _ hs _ => hnext _ _ _ hs) (fun _ _ hs ⟨hf, hok⟩ => (hiff hs hf).2 hok) h0

end Runs

/-- Two lines are filled, the first one is used again, and a third one takes the place of the second. -/
theorem evicts_lru_reused_line :
    Along (CacheStep.next (cacheOfWays 1 .back)) (EvictsLru (cacheOfWays 1 .back))
      [.load 1 0x80000000, .load 1 0x80001000, .load 1 0x80000000, .load 1 0x80002000]
      ⟨fresh (cacheOfWays 1 .back) zeroRam (fun _ => 0) .empty, []⟩ :=
  (evicts_lru (cacheOfWays 1 .back) zeroRam (fun _ => 0) .empty _ (by decide +kernel)).2 (by decide +kernel)

/-- Without the second use of the first line, the second one still goes, though it was filled just before. -/
theorem not_evicts_lru : ¬ ∀ (P : CacheParam) (mem : UserMemory) (data : Nat → UInt8) (last : LineStatus)
    (ops : List CacheStep), Along (CacheStep.next P) (EvictsLru P) ops ⟨fresh P mem data last, []⟩ := by
  intro h
  have hrun : ((CacheStep.next (cacheOfWays 1 .back) ⟨fresh (cacheOfWays 1 .back) zeroRam (fun _ => 0) .empty, []⟩
      (.load 1 0x80000000)).bind fun s => CacheStep.next (cacheOfWays 1 .back) s (.load 1 0x80001000)).map
      (fun s => (decide (FullMiss (cacheOfWays 1 .back) s.state.key 0x80002000),
        lookupIndex (cacheOfWays 1 .back) s.state.key 0x80002000, lastAccess s.log 0, lastAccess s.log 1)) =
      some (true, some 1, 6, 2) := by
    decide +kernel
  obtain ⟨s2, h2, hfacts⟩ := Option.map_eq_some_iff.1 hrun
  obtain ⟨s1, h1, h2⟩ := Option.bind_eq_some_iff.1 h2
  obtain ⟨hfull, hrest⟩ := Prod.mk.inj hfacts
  obtain ⟨hindex, hages⟩ := Prod.mk.inj hrest
  obtain ⟨hfirst, hsecond⟩ := Prod.mk.inj hages
  have hall := h (cacheOfWays 1 .back) zeroRam (fun _ => 0) .empty [.load 1 0x80000000, .load 1 0x80001000, .load 1 0x80002000]
  have hlru := ((hall.2 s1 h1).2 s2 h2).1 ⟨by decide, by decide⟩ (of_decide_eq_true hfull) 1 hindex 0 (by decide) (by decide)
  have hway : (cacheOfWays 1 .back).way (CacheStep.load 1 0x80002000).mpa 0 = 0 := by decide
  rw [hway, hfirst, hsecond] at hlru
  exact absurd hlru (by decide)

end Rv8.Emu
