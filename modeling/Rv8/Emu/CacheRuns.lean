import Rv8.Emu.CacheBus
/-!
# Runs of the cache over any memory map

Two things go wrong in a run of loads and stores. A load that runs into the next line
fetches it into the entry that follows, whatever set that entry is in and wherever the
line is held already. And a fill that ends in a bus error leaves its entry tagged.
`CacheStep.Safe` says when a step does neither; a run of such steps delivers what a
plain memory delivers, bus errors included.
-/

namespace Rv8.Emu

open Rv8.Lib TaggedCache UserMemory

/-! ## Steps -/

/-- What a step means for the plain memory. -/
def CacheStep.flat : CacheStep → (Nat → UInt8) → Nat → UInt8
  | .load _ _, m => m
  | .store n mpa val, m => flatStore m n mpa val

/-- The condition on a step. The line it goes to is whole; a store stays in its line; a load that runs into the next
line finds a place for it, or nothing to lose. -/
def CacheStep.Safe (P : CacheParam) (segs : List Segment) (key : Nat → CacheEntry) : CacheStep → Prop
  | .load n mpa => Cacheable mpa → 0 < n ∧ Whole P segs (P.pcln mpa) ∧
      (P.offset mpa + n ≤ P.lineSize ∨ (P.offset mpa + n ≤ 2 * P.lineSize ∧
        ∀ index, lookupIndex P key mpa = some index → NextSafe P segs key mpa index))
  | .store n mpa _ =>
    (Cacheable mpa → 0 < n ∧ Whole P segs (P.pcln mpa) ∧ P.offset mpa + n ≤ P.lineSize) ∧
      (¬ Cacheable mpa → mpa + n ≤ defaultRamBase ∨ statsBase ≤ mpa)

/-- The loads the plain memory is compared on. -/
def CacheStep.Delivers (op : CacheStep) (m : Nat → UInt8) (v : Nat) : Prop :=
  match op with
  | .load n mpa => defaultRamBase ≤ mpa → mpa + n ≤ statsBase → 0 < n → v = flatLoad m n mpa
  | .store .. => True

section Steps
variable {P : CacheParam} {segs : List Segment} {c : TaggedCache} {m : Nat → UInt8}

theorem wp_load_sound (hP : P.writePolicy = .back → 2 ≤ P.lineShift) (h : Sound P segs c m) {n mpa : Nat}
    (hok : CacheStep.Safe P segs c.key (.load n mpa)) :
    (load P n mpa).wp (fun v c' => Sound P segs c' m ∧ CacheStep.Delivers (.load n mpa) m v)
      (fun _ c' => Sound P segs c' m ∧ (Cacheable mpa → P.lineSize < P.offset mpa + n ∧ ¬ Whole P segs (P.pcln mpa + 1))) c := by
  have hb : statsBase = 0xC0000000 := rfl
  have hsize : defaultRamBase + defaultRamSize = 0xC0000028 := rfl
  have hs : Sound P segs { c with mem := countUp 0xC0000000 c.mem } m :=
    h.congr (fun _ => .rfl) rfl (sameRam_countUp _ (by decide)) fun _ _ _ => rfl
  simp only [TaggedCache.load, Prog.wp_bind, Prog.wp_ite, Prog.wp_modify, updateStats]
  refine ⟨fun hout => ?_, fun hin => ?_⟩
  · unfold Prog.wp memLoad
    cases c.mem.load n mpa with
    | none =>
      refine ⟨h, fun hc => ?_⟩
      unfold Cacheable at hc
      omega
    | some v =>
      refine ⟨h, fun hlo hhi h0 => ?_⟩
      omega
  · rw [not_or, not_lt, not_lt] at hin
    obtain ⟨h0, hw, hcross⟩ := hok hin
    refine Prog.wp_mono (wp_accessCache_sound hP hs hin.1 (by omega) h0 hw (hcross.imp_right fun hc => ⟨rfl, hc⟩)) ?_ ?_
    · exact fun v c' hc => ⟨hc.1, fun _ hhi _ => hc.2 rfl hhi⟩
    · exact fun _ c' hc => ⟨hc.1, fun _ => hc.2⟩

theorem wp_store_sound (hP : P.writePolicy = .back → 2 ≤ P.lineShift) (h : Sound P segs c m) {n mpa val : Nat}
    (hok : CacheStep.Safe P segs c.key (.store n mpa val)) :
    (store P n mpa val).wp (fun _ c' => Sound P segs c' (flatStore m n mpa val)) (fun _ c' => Sound P segs c' m) c := by
  have hb : statsBase = 0xC0000000 := rfl
  have hsize : defaultRamBase + defaultRamSize = 0xC0000028 := rfl
  have hs : Sound P segs { c with mem := countUp 0xC0000008 c.mem } m :=
    h.congr (fun _ => .rfl) rfl (sameRam_countUp _ (by decide)) fun _ _ _ => rfl
  simp only [TaggedCache.store, Prog.wp_bind, Prog.wp_ite, Prog.wp_modify, Prog.wp_pure, updateStats]
  refine ⟨fun hout => ?_, fun hin => ?_⟩
  · have hfar := hok.2 fun hc => by
      unfold Cacheable at hc
      omega
    have hflat : SameBytes m (flatStore m n mpa val) := fun a hlo hhi => if_neg (by omega)
    unfold Prog.wp memStore
    cases hst : c.mem.store n mpa val with
    | none => exact h
    | some mem => exact h.congr (fun _ => .rfl) rfl (sameRam_store hst hfar) hflat
  · rw [not_or, not_lt, not_lt] at hin
    obtain ⟨h0, hw, hoff⟩ := hok.1 hin
    exact Prog.wp_mono (wp_accessCache_sound hP hs hin.1 (by omega) h0 hw (.inl hoff)) (fun v c' hc => hc.1)
      fun _ _ hc => hc.1

theorem step_of_ok {op : CacheStep} {v : Nat} {c' : TaggedCache} (h : op.exec P c = .ok v c') :
    op.step P c = some (some v, c') := by
  unfold CacheStep.step
  rw [h]

theorem step_of_error {op : CacheStep} {e : Unit} {c' : TaggedCache} (h : op.exec P c = .error e c') :
    op.step P c = some (none, c') := by
  unfold CacheStep.step
  rw [h]

/-- A step delivers what the plain memory delivers, and the cache goes on standing for it. After a bus error it stands
for the memory before the step. -/
theorem step_sound (hP : P.writePolicy = .back → 2 ≤ P.lineShift) (h : Sound P segs c m) {op : CacheStep}
    (hok : op.Safe P segs c.key) :
    ∃ r c', op.step P c = some (r, c') ∧ Sound P segs c' (if r.isSome then op.flat m else m) ∧ ∀ v ∈ r, op.Delivers m v := by
  cases op with
  | load n mpa =>
    have hw := wp_load_sound hP h hok
    unfold Prog.wp at hw
    cases hx : load P n mpa c with
    | ok v c' =>
      rw [hx] at hw
      refine ⟨some v, c', step_of_ok hx, hw.1, fun v' hv => ?_⟩
      obtain rfl := Option.some.inj hv
      exact hw.2
    | error e c' =>
      rw [hx] at hw
      exact ⟨none, c', step_of_error hx, hw.1, nofun⟩
    | undefined =>
      rw [hx] at hw
      exact hw.elim
  | store n mpa val =>
    have hw := wp_store_sound hP h hok
    unfold Prog.wp at hw
    cases hx : store P n mpa val c with
    | ok v c' =>
      rw [hx] at hw
      exact ⟨some 0, c', step_of_ok (Prog.bind_ok hx), hw, fun _ _ => trivial⟩
    | error e c' =>
      rw [hx] at hw
      exact ⟨none, c', step_of_error (Prog.bind_error hx), hw, nofun⟩
    | undefined =>
      rw [hx] at hw
      exact hw.elim

end Steps

/-! ## Runs -/

/-- Each step of the run meets the condition in the state it is taken from. -/
def RunSafe (P : CacheParam) (segs : List Segment) : List CacheStep → TaggedCache → Prop
  | [], _ => True
  | op :: ops, c => op.Safe P segs c.key ∧ ∀ r c', op.step P c = some (r, c') → RunSafe P segs ops c'

/-- The plain memory after a run with these results: a step that ended in a bus error did nothing. -/
def flatAfter : List CacheStep → List (Option Nat) → (Nat → UInt8) → Nat → UInt8
  | op :: ops, r :: rs, m => flatAfter ops rs (if r.isSome then op.flat m else m)
  | _, _, m => m

section Runs
variable {P : CacheParam} {segs : List Segment}

theorem run_sound (hP : P.writePolicy = .back → 2 ≤ P.lineShift) (ops : List CacheStep) {c : TaggedCache} {m : Nat → UInt8}
    (h : Sound P segs c m) (hok : RunSafe P segs ops c) :
    ∃ rs c', CacheStep.run P ops c = some (rs, c') ∧ Sound P segs c' (flatAfter ops rs m) := by
  induction ops generalizing c m with
  | nil => exact ⟨[], c, rfl, h⟩
  | cons op ops ih =>
    obtain ⟨r, c1, hstep, h1, -⟩ := step_sound hP h hok.1
    obtain ⟨rs, c2, hrun, h2⟩ := ih h1 (hok.2 r c1 hstep)
    exact ⟨r :: rs, c2, by simp [CacheStep.run, hstep, hrun], h2⟩

theorem runSafe_append {ops ops' : List CacheStep} {c : TaggedCache} (h : RunSafe P segs (ops ++ ops') c) :
    RunSafe P segs ops c ∧ ∀ rs c', CacheStep.run P ops c = some (rs, c') → RunSafe P segs ops' c' := by
  induction ops generalizing c with
  | nil =>
    refine ⟨trivial, fun rs c' hrun => ?_⟩
    obtain ⟨-, rfl⟩ := Prod.mk.inj (Option.some.inj hrun)
    exact h
  | cons op ops ih =>
    obtain ⟨hop, hrest⟩ := h
    refine ⟨⟨hop, fun r c1 hstep => (ih (hrest r c1 hstep)).1⟩, fun rs c' hrun => ?_⟩
    unfold CacheStep.run at hrun
    cases hstep : op.step P c with
    | none =>
      rw [hstep] at hrun
      cases hrun
    | some rc =>
      rw [hstep] at hrun
      obtain ⟨⟨rs', c''⟩, hrun', heq⟩ := Option.map_eq_some_iff.1 hrun
      obtain ⟨-, rfl⟩ := Prod.mk.inj heq
      exact (ih (hrest rc.1 rc.2 hstep)).2 rs' c'' hrun'

theorem sound_fresh (P : CacheParam) (mem : UserMemory) (data : Nat → UInt8) (last : LineStatus) :
    Sound P mem.segments (fresh P mem data last) mem.peek :=
  ⟨Tagged.fresh P mem data last, rfl, fun _ _ he => absurd rfl he, fun _ _ he => absurd rfl he, fun _ _ he => absurd rfl he,
    fun _ _ _ _ _ => rfl, fun _ _ _ => shared_ne_modified P, fun _ _ _ => shared_ne_modified P⟩

/-- What a load in one line delivers: the bytes of the plain memory, or a bus error if the line cannot be loaded. -/
theorem TaggedCache.Sound.serves (hP : P.writePolicy = .back → 2 ≤ P.lineShift) {c : TaggedCache} {m : Nat → UInt8} (h : Sound P segs c m)
    {n mpa : Nat} (hin : InLine P n mpa) :
    ∃ c', (CacheStep.load n mpa).step P c =
      some (if Whole P segs (P.pcln mpa) then some (flatLoad m n mpa) else none, c') := by
  have hoff := hin.line
  have hsize : defaultRamBase + defaultRamSize = 0xC0000028 := rfl
  have hb : statsBase = 0xC0000000 := rfl
  have hlo := hin.lo
  have hhi := hin.hi
  have hpos := hin.pos
  have hcache : Cacheable mpa := ⟨hlo, by omega⟩
  by_cases hw : Whole P segs (P.pcln mpa)
  · have hload := wp_load_sound hP h fun _ => ⟨hpos, hw, .inl hoff⟩
    unfold Prog.wp at hload
    rw [if_pos hw]
    cases hx : load P n mpa c with
    | ok v c' =>
      rw [hx] at hload
      refine ⟨c', ?_⟩
      rw [← hload.2 hlo hhi hpos]
      exact step_of_ok hx
    | error e c' =>
      rw [hx] at hload
      have := (hload.2 hcache).1
      omega
    | undefined =>
      rw [hx] at hload
      exact hload.elim
  · have hload := wp_load_notWhole h hlo (by omega) hw (n := n)
    unfold Prog.wp at hload
    rw [if_neg hw]
    cases hx : load P n mpa c with
    | ok v c' =>
      rw [hx] at hload
      exact hload.elim
    | error e c' => exact ⟨c', step_of_error hx⟩
    | undefined =>
      rw [hx] at hload
      exact hload.elim

end Runs

/-! ## Loads that run into the next line -/

/-- A load of 4 or 8 bytes at an even address that starts in one line and ends in the next, both in RAM. -/
structure CrossingLoad (P : CacheParam) (segs : List Segment) (n mpa : Nat) : Prop where
  size : n = 4 ∨ n = 8
  even : mpa % 2 = 0
  crosses : P.lineSize < P.offset mpa + n ∧ P.offset mpa + n ≤ 2 * P.lineSize
  inRam : LineInRam P (P.pcln mpa) ∧ LineInRam P (P.pcln mpa + 1)
  whole : Whole P segs (P.pcln mpa) ∧ Whole P segs (P.pcln mpa + 1)

/-- What a load of one byte would deliver. -/
def visible (P : CacheParam) (c : TaggedCache) (a : Nat) : Option (Option Nat) :=
  ((CacheStep.load 1 a).step P c).map Prod.fst

theorem TaggedCache.Sound.visible_eq {P : CacheParam} {segs : List Segment} {c : TaggedCache} {m : Nat → UInt8}
    (hP : P.writePolicy = .back → 2 ≤ P.lineShift) (h : Sound P segs c m) {a : Nat} (hlo : defaultRamBase ≤ a)
    (hhi : a < statsBase) : visible P c a = some (if Whole P segs (P.pcln a) then some (flatLoad m 1 a) else none) := by
  have hlt := P.offset_lt a
  obtain ⟨c', hstep⟩ := h.serves hP ⟨Nat.one_pos, hlo, hhi, hlt⟩
  unfold visible
  rw [hstep]
  rfl

/-- In a run of safe steps a load that runs into the next line delivers the bytes of the plain memory, and changes
nothing of what is visible. -/
theorem crossing_load_delivers (P : CacheParam) (hP : P.writePolicy = .back → 2 ≤ P.lineShift) (mem : UserMemory)
    (data : Nat → UInt8) (last : LineStatus) (ops : List CacheStep) (n mpa : Nat) (hx : CrossingLoad P mem.segments n mpa)
    (hsafe : RunSafe P mem.segments (ops ++ [.load n mpa]) (fresh P mem data last)) :
    ∃ rs c c', CacheStep.run P ops (fresh P mem data last) = some (rs, c) ∧
      (CacheStep.load n mpa).step P c = some (some (flatLoad (flatAfter ops rs mem.peek) n mpa), c') ∧
      ∀ a, defaultRamBase ≤ a → a < statsBase → visible P c' a = visible P c a := by
  obtain ⟨hops, hlast⟩ := runSafe_append hsafe
  obtain ⟨rs, c, hrun, hs⟩ := run_sound hP ops (sound_fresh P mem data last) hops
  obtain ⟨hload, -⟩ := hlast rs c hrun
  have hsize : defaultRamBase + defaultRamSize = 0xC0000028 := rfl
  have hb : statsBase = 0xC0000000 := rfl
  have heq := mpa_eq P mpa
  have hlo := hx.inRam.1.1
  have hhi := hx.inRam.2.2
  have hcross := hx.crosses
  rw [Nat.add_mul, Nat.add_mul] at hhi
  have hpos : 0 < n := by
    rcases hx.size with rfl | rfl <;> decide
  have hwp := wp_load_sound hP hs hload
  unfold Prog.wp at hwp
  cases hexec : load P n mpa c with
  | ok v c' =>
    rw [hexec] at hwp
    obtain ⟨hs', hv⟩ := hwp
    have hval : v = flatLoad (flatAfter ops rs mem.peek) n mpa := hv (by omega) (by omega) hpos
    refine ⟨rs, c, c', hrun, hval ▸ step_of_ok hexec, fun a ha1 ha2 => ?_⟩
    rw [hs'.visible_eq hP ha1 ha2, hs.visible_eq hP ha1 ha2]
  | error e c' =>
    rw [hexec] at hwp
    exact absurd hx.whole.2 (hwp.2 ⟨by omega, by omega⟩).2
  | undefined =>
    rw [hexec] at hwp
    exact hwp.elim

theorem crossingLoad_zeroRam (ways : Nat) (h : ways < 32) :
    CrossingLoad (cacheOfWays ways .back h) zeroRam.segments 4 0x8000003e where
  size := .inl rfl
  even := rfl
  crosses := (by decide : 64 < (0x8000003e &&& 63) + 4 ∧ (0x8000003e &&& 63) + 4 ≤ 2 * 64)
  inRam := (by decide : (defaultRamBase ≤ 0x2000000 * 64 ∧ 0x2000001 * 64 ≤ statsBase) ∧
    (defaultRamBase ≤ 0x2000001 * 64 ∧ 0x2000002 * 64 ≤ statsBase))
  whole := (by decide : (∀ o < 64, Mapped zeroRam.segments (0x2000000 * 64 + o)) ∧
    ∀ o < 64, Mapped zeroRam.segments (0x2000001 * 64 + o))

/-- In a direct-mapped cache the next entry is the place for the next line, and a dirty line there goes back first. -/
theorem crossing_load_delivers_direct_mapped :
    ∃ c c', CacheStep.run (cacheOfWays 0 .back) [.store 4 0x80000040 0xbeef] (fresh (cacheOfWays 0 .back) zeroRam (fun _ => 0) .empty) =
      some ([some 0], c) ∧ (CacheStep.load 4 0x8000003e).step (cacheOfWays 0 .back) c = some (some 0xbeef0000, c') := by
  have hstore : ((CacheStep.store 4 0x80000040 0xbeef).step (cacheOfWays 0 .back)
      (fresh (cacheOfWays 0 .back) zeroRam (fun _ => 0) .empty)).map (fun rc : Option Nat × TaggedCache => (rc.1, lookupIndex (cacheOfWays 0 .back) rc.2.key 0x8000003e,
        (List.range 64).all fun j => j == 0 || j == 1 || (rc.2.key j).pcln != 0x2000001)) =
      some (some 0, some 0, true) := by
    decide +kernel
  obtain ⟨⟨r, c⟩, hstep, hfacts⟩ := Option.map_eq_some_iff.1 hstore
  obtain ⟨rfl, hrest⟩ := Prod.mk.inj hfacts
  obtain ⟨hindex, honly⟩ := Prod.mk.inj hrest
  have hsafe : RunSafe (cacheOfWays 0 .back) zeroRam.segments ([.store 4 0x80000040 0xbeef] ++ [.load 4 0x8000003e])
      (fresh (cacheOfWays 0 .back) zeroRam (fun _ => 0) .empty) := by
    refine ⟨⟨fun _ => by decide, fun h => absurd ⟨by decide, by decide⟩ h⟩, fun r' c' hstep' => ⟨fun _ => ⟨by decide, by decide, .inr ⟨by decide, ?_⟩⟩,
      fun _ _ _ => trivial⟩⟩
    obtain ⟨-, rfl⟩ := Prod.mk.inj (Option.some.inj (hstep.symm.trans hstep'))
    intro index hx
    obtain rfl : 0 = index := Option.some.inj (hindex.symm.trans hx)
    refine .inl ⟨by decide, by decide, by decide, fun j hj h0 h1 he => ?_⟩
    have hj' := List.all_eq_true.1 honly j (List.mem_range.2 hj)
    have hne : (c.key j).pcln ≠ 0x2000001 := by simpa [h0, h1] using hj'
    exact hne
  obtain ⟨rs, c1, c', hrun, hload, -⟩ := crossing_load_delivers (cacheOfWays 0 .back) (fun _ => by decide) zeroRam (fun _ => 0) .empty
    _ 4 0x8000003e (crossingLoad_zeroRam 0 (by decide)) hsafe
  have hrun' : CacheStep.run (cacheOfWays 0 .back) [.store 4 0x80000040 0xbeef]
      (fresh (cacheOfWays 0 .back) zeroRam (fun _ => 0) .empty) = some ([some 0], c) := by
    simp [CacheStep.run, hstep]
  obtain ⟨rfl, rfl⟩ := Prod.mk.inj (Option.some.inj (hrun.symm.trans hrun'))
  refine ⟨c1, c', hrun, hload.trans (congrArg (fun v => some (some v, c')) ?_)⟩
  decide +kernel

/-- With two ways the next entry is in the set of the first line, so the next line is fetched again beside its dirty copy. -/
theorem not_crossing_load_delivers_two_ways :
    ∃ (P : CacheParam) (mem : UserMemory) (data : Nat → UInt8) (last : LineStatus) (ops : List CacheStep) (n mpa : Nat),
      CrossingLoad P mem.segments n mpa ∧ ¬ ∃ rs c c', CacheStep.run P ops (fresh P mem data last) = some (rs, c) ∧
        (CacheStep.load n mpa).step P c = some (some (flatLoad (flatAfter ops rs mem.peek) n mpa), c') := by
  refine ⟨cacheOfWays 1 .back, zeroRam, fun _ => 0, .empty, [.store 4 0x80000040 0xbeef], 4, 0x8000003e,
    crossingLoad_zeroRam 1 (by decide), ?_⟩
  rintro ⟨rs, c, c', hrun, hload⟩
  have hboth : (CacheStep.run (cacheOfWays 1 .back) [.store 4 0x80000040 0xbeef]
      (fresh (cacheOfWays 1 .back) zeroRam (fun _ => 0) .empty)).map (fun rc => (rc.1, ((CacheStep.load 4 0x8000003e).step (cacheOfWays 1 .back) rc.2).map Prod.fst)) =
      some ([some 0], some (some 0)) := by
    decide +kernel
  rw [hrun] at hboth
  obtain ⟨rfl, hread⟩ := Prod.mk.inj (Option.some.inj hboth)
  have hread' : some (flatLoad (flatAfter [.store 4 0x80000040 0xbeef] [some 0] zeroRam.peek) 4 0x8000003e) = some 0 := by
    simpa [hload] using hread
  exact absurd hread' (by decide +kernel)

/-! ## Bus errors -/

/-- Loads return what was stored last, and a line that memory does not have is refused. -/
def Serves (P : CacheParam) (segs : List Segment) (c : TaggedCache) (m : Nat → UInt8) : Prop :=
  ∀ n mpa, InLine P n mpa → ∃ c', (CacheStep.load n mpa).step P c =
    some (if Whole P segs (P.pcln mpa) then some (flatLoad m n mpa) else none, c')

/-- Every entry that is tagged for a line has been filled. -/
def TagsFilled (P : CacheParam) (segs : List Segment) (c : TaggedCache) (m : Nat → UInt8) : Prop :=
  ∀ i < P.numKeys, (c.key i).status ≠ .empty → Whole P segs (c.key i).pcln ∧
    (LineInRam P (c.key i).pcln → ∀ o < P.lineSize, c.data (i * P.lineSize + o) = m ((c.key i).pcln * P.lineSize + o))

/-- RAM of one line. -/
def oneLineRam : UserMemory := ⟨[⟨defaultRamBase, 0x40⟩], fun _ _ => 0⟩

/-- RAM whose first line starts in its middle, full of sevens. -/
def halfLineRam : UserMemory := ⟨[⟨defaultRamBase + 0x20, defaultRamSize - 0x20⟩], fun _ _ => 7⟩

end Rv8.Emu
