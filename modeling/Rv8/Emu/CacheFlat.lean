import Rv8.Emu.CacheSets
/-!
# The cache is transparent

A run of aligned accesses to RAM through the cache delivers what a plain memory of
bytes delivers. `Coherent` relates the two: a filled line holds the bytes of the
plain memory, and so does RAM wherever no line is dirty. It is kept by hits, fills,
write-backs and stores under both write policies; the counters that the cache keeps
in memory lie behind the addresses concerned.
-/

namespace Rv8.Emu

open Rv8.Lib TaggedCache

/-! ## Bytes in RAM -/

/-- Where the statistics start. -/
def statsBase : Nat := 0xC0000000

theorem leByte_toNat (b : UInt8) : leByte b.toNat 0 = b := by
  simp [leByte]

theorem ofNat_leValue_one (f : Nat → UInt8) : UInt8.ofNat (leValue f 1) = f 0 := by
  simp [leValue]

/-- The memories differ in the statistics at most. -/
structure OnlyStats (k : Nat) (m m' : UserMemory) : Prop where
  segments : m'.segments = m.segments
  host : ∀ k' o, ¬ (k' = k ∧ statsBase - defaultRamBase ≤ o ∧ o < defaultRamSize) → m'.host k' o = m.host k' o

theorem OnlyStats.rfl {k : Nat} {m : UserMemory} : OnlyStats k m m := ⟨Eq.refl _, fun _ _ _ => Eq.refl _⟩

theorem OnlyStats.trans {k : Nat} {m m' m'' : UserMemory} (h : OnlyStats k m m') (h' : OnlyStats k m' m'') :
    OnlyStats k m m'' :=
  ⟨h'.segments.trans h.segments, fun k' o ho => (h'.host k' o ho).trans (h.host k' o ho)⟩

/-- RAM as the cache expects it, in segment `k`. -/
def Ram (m : UserMemory) (k : Nat) : Prop := Flat m k defaultRamBase (defaultRamBase + defaultRamSize)

theorem Ram.congr {m m' : UserMemory} {k : Nat} (h : Ram m k) (hs : m'.segments = m.segments) : Ram m' k := by
  intro a hlo hhi
  have := h a hlo hhi
  unfold UserMemory.uva at this ⊢
  rwa [hs]

theorem onlyStats_countUp {m : UserMemory} {k : Nat} (h : Ram m k) {a : Nat} (hlo : statsBase ≤ a)
    (hhi : a ≤ 0xC0000020) : OnlyStats k m (countUp a m) := by
  have hb : statsBase = 0xC0000000 := rfl
  have hr : defaultRamBase = 0x80000000 := rfl
  have hs : defaultRamSize = 0x40000028 := rfl
  unfold countUp
  rw [h.load (by omega) (by omega)]
  simp only
  rw [h.store (by omega) (by omega), Option.getD_some]
  refine ⟨Eq.refl _, fun k' o ho => if_neg ?_⟩
  rintro ⟨rfl, h1, h2⟩
  exact ho ⟨Eq.refl _, by omega, by omega⟩

namespace TaggedCache

variable {P : CacheParam} {c : TaggedCache} {k : Nat}

/-- Slots of `n` bytes that share a byte are the same. -/
theorem slot_unique {i j n o : Nat} (ho : o < n) (h1 : j * n ≤ i * n + o) (h2 : i * n + o < j * n + n) : i = j := by
  have hi : i * n < (j + 1) * n := by rw [Nat.add_mul]; omega
  have hj : j * n < (i + 1) * n := by rw [Nat.add_mul]; omega
  have := Nat.lt_of_mul_lt_mul_right hi
  have := Nat.lt_of_mul_lt_mul_right hj
  omega

theorem pcln_byte (line : Nat) {o : Nat} (ho : o < P.lineSize) : P.pcln (line * P.lineSize + o) = line := by
  rw [P.pcln_eq, Nat.mul_comm, Nat.mul_add_div P.lineSize_pos, Nat.div_eq_of_lt ho, Nat.add_zero]

/-! ## Moving a line -/

/-- The line lies in RAM below the statistics. -/
def LineInRam (P : CacheParam) (line : Nat) : Prop :=
  defaultRamBase ≤ line * P.lineSize ∧ (line + 1) * P.lineSize ≤ statsBase

theorem allocate_addr {line o : Nat} (hl : line * P.lineSize < 0xD0000000) (ho : o < P.lineSize) :
    ((line * P.lineSize) >>> P.lineShift <<< P.lineShift + o) % 2 ^ P.xlen = line * P.lineSize + o := by
  have hx := P.two_pow_xlen
  have hle := P.lineSize_le
  rw [Nat.shiftLeft_eq, show (line * P.lineSize) >>> P.lineShift = line from pcln_mul line]
  exact Nat.mod_eq_of_lt (by unfold CacheParam.lineSize at *; omega)

theorem wp_allocate_load (hR : Ram c.mem k) {line index : Nat} (hl : LineInRam P line) :
    (allocate P (line * P.lineSize) .load index).wp
      (fun _ c' => c'.key = c.key ∧ c'.mem = c.mem ∧ ∀ j, c'.data j =
        if index * P.lineSize ≤ j ∧ j < index * P.lineSize + P.lineSize then
          c.mem.host k (line * P.lineSize + (j - index * P.lineSize) - defaultRamBase)
        else c.data j)
      (fun _ _ => False) c := by
  have hb : statsBase = 0xC0000000 := rfl
  have hr : defaultRamBase = 0x80000000 := rfl
  have hs : defaultRamSize = 0x40000028 := rfl
  obtain ⟨h1, h2⟩ := hl
  rw [Nat.add_mul] at h2
  have hlt : line * P.lineSize < 0xD0000000 := by omega
  unfold allocate
  refine Prog.wp_mono (Prog.wp_forRange (fun i (c' : TaggedCache) => c'.key = c.key ∧ c'.mem = c.mem ∧ ∀ j, c'.data j =
      if index * P.lineSize ≤ j ∧ j < index * P.lineSize + i then
        c.mem.host k (line * P.lineSize + (j - index * P.lineSize) - defaultRamBase)
      else c.data j) ⟨rfl, rfl, fun j => (if_neg (by omega)).symm⟩ ?_) (fun _ _ h => h) fun _ _ h => h
  -- one more byte: the slot `index * lineSize + i` gets it, the others stay
  rintro i s hi ⟨hkey, hmem, hdata⟩
  simp only [Prog.wp_bind, allocate_addr hlt hi]
  unfold Prog.wp memLoad
  rw [hmem, hR.load (by omega) (by omega)]
  refine ⟨hkey, hmem, fun j => ?_⟩
  simp only [Nat.shiftLeft_eq, ofNat_leValue_one]
  show Function.update s.data (index * P.lineSize + i) _ j = _
  by_cases hj : j = index * P.lineSize + i
  · subst hj
    rw [Function.update_self, if_pos (by omega), Nat.add_sub_cancel_left, Nat.add_zero]
  · rw [Function.update_of_ne hj, hdata]
    refine if_congr ?_ rfl rfl
    omega

theorem wp_allocate_store (hR : Ram c.mem k) {line index : Nat} (hl : LineInRam P line) :
    (allocate P (line * P.lineSize) .store index).wp
      (fun _ c' => c'.key = c.key ∧ c'.data = c.data ∧ c'.mem.segments = c.mem.segments ∧
        ∀ k' o, c'.mem.host k' o =
          if k' = k ∧ line * P.lineSize - defaultRamBase ≤ o ∧ o < line * P.lineSize - defaultRamBase + P.lineSize then
            c.data (index * P.lineSize + (o - (line * P.lineSize - defaultRamBase)))
          else c.mem.host k' o)
      (fun _ _ => False) c := by
  have hb : statsBase = 0xC0000000 := rfl
  have hr : defaultRamBase = 0x80000000 := rfl
  have hs : defaultRamSize = 0x40000028 := rfl
  obtain ⟨h1, h2⟩ := hl
  rw [Nat.add_mul] at h2
  have hlt : line * P.lineSize < 0xD0000000 := by omega
  unfold allocate
  refine Prog.wp_mono (Prog.wp_forRange (fun i (c' : TaggedCache) => c'.key = c.key ∧ c'.data = c.data ∧
      c'.mem.segments = c.mem.segments ∧ ∀ k' o, c'.mem.host k' o =
        if k' = k ∧ line * P.lineSize - defaultRamBase ≤ o ∧ o < line * P.lineSize - defaultRamBase + i then
          c.data (index * P.lineSize + (o - (line * P.lineSize - defaultRamBase)))
        else c.mem.host k' o) ⟨rfl, rfl, rfl, fun k' o => (if_neg (by omega)).symm⟩ ?_)
    (fun _ _ h => h) fun _ _ h => h
  rintro i s hi ⟨hkey, hdata, hseg, hhost⟩
  simp only [Prog.wp_bind, Prog.wp_get, allocate_addr hlt hi]
  unfold Prog.wp memStore
  rw [(hR.congr hseg).store (by omega) (by omega)]
  refine ⟨hkey, hdata, hseg, fun k' o => ?_⟩
  simp only [UserMemory.write, Nat.shiftLeft_eq, hdata]
  by_cases ho : k' = k ∧ o = line * P.lineSize + i - defaultRamBase
  · obtain ⟨hk, ho⟩ := ho
    rw [if_pos (by omega), if_pos (by omega), show o - (line * P.lineSize + i - defaultRamBase) = 0 by omega,
      leByte_toNat, show o - (line * P.lineSize - defaultRamBase) = i by omega]
    rfl
  · rw [if_neg (by omega), hhost]
    refine if_congr ?_ rfl rfl
    omega

/-! ## The relation to a plain memory -/

/-- The line differs from RAM. -/
def Dirty (ent : CacheEntry) : Prop := ent.state = cacheStateModified

/-- The cache, over a memory that was `mem0`, stands for the bytes `m` of RAM below the statistics. -/
structure Coherent (P : CacheParam) (k : Nat) (mem0 : UserMemory) (c : TaggedCache) (m : Nat → UInt8) : Prop where
  tagged : Tagged P c.key
  ram : Ram mem0 k
  segments : c.mem.segments = mem0.segments
  outside : ∀ k' o, (k' ≠ k ∨ defaultRamSize ≤ o) → c.mem.host k' o = mem0.host k' o
  line : ∀ i < P.numKeys, (c.key i).status ≠ .empty → LineInRam P (c.key i).pcln
  data : ∀ i < P.numKeys, (c.key i).status ≠ .empty → ∀ o < P.lineSize,
    c.data (i * P.lineSize + o) = m ((c.key i).pcln * P.lineSize + o)
  clean : ∀ a, defaultRamBase ≤ a → a < statsBase →
    (∀ i < P.numKeys, (c.key i).status ≠ .empty → (c.key i).pcln = P.pcln a → ¬ Dirty (c.key i)) →
    c.mem.host k (a - defaultRamBase) = m a
  through : P.writePolicy = .through → ∀ i < P.numKeys, ¬ Dirty (c.key i)
  empty : ∀ i < P.numKeys, (c.key i).status = .empty → ¬ Dirty (c.key i)

/-- Entries that agree on the line and on whether it is dirty. -/
def SameLine (e e' : CacheEntry) : Prop := SameTags e e' ∧ e.state = e'.state

theorem SameLine.rfl {e : CacheEntry} : SameLine e e := ⟨.rfl, Eq.refl _⟩

theorem SameLine.trans {e e' e'' : CacheEntry} (h : SameLine e e') (h' : SameLine e' e'') : SameLine e e'' :=
  ⟨h.1.trans h'.1, h.2.trans h'.2⟩

theorem SameLine.dirty {e e' : CacheEntry} (h : SameLine e e') : Dirty e ↔ Dirty e' := by
  unfold Dirty
  rw [h.2]

namespace Coherent

variable {mem0 : UserMemory} {c' : TaggedCache} {m : Nat → UInt8}

theorem ram' (h : Coherent P k mem0 c m) : Ram c.mem k := h.ram.congr h.segments

/-- Statuses, counters and statistics do not matter. -/
theorem congr (h : Coherent P k mem0 c m) (hkey : ∀ i, SameLine (c'.key i) (c.key i)) (hdata : c'.data = c.data)
    (hmem : OnlyStats k c.mem c'.mem) : Coherent P k mem0 c' m where
  tagged := h.tagged.congr fun i => (hkey i).1
  ram := h.ram
  segments := hmem.segments.trans h.segments
  outside := fun k' o ho => (hmem.host k' o (by omega)).trans (h.outside k' o ho)
  line := fun i hi he => by
    rw [(hkey i).1.1]
    exact h.line i hi ((hkey i).1.held.1 he)
  data := fun i hi he o ho => by
    rw [hdata, (hkey i).1.1]
    exact h.data i hi ((hkey i).1.held.1 he) o ho
  clean := fun a hlo hhi ha => by
    have hs : statsBase = 0xC0000000 := rfl
    rw [hmem.host _ _ (by omega)]
    refine h.clean a hlo hhi fun i hi he hp => ?_
    rw [← (hkey i).dirty]
    exact ha i hi ((hkey i).1.held.2 he) (by rw [(hkey i).1.1, hp])
  through := fun ht i hi => by
    rw [(hkey i).dirty]
    exact h.through ht i hi
  empty := fun i hi he => by
    rw [(hkey i).dirty]
    exact h.empty i hi ((hkey i).1.2.2.1 he)

/-- Where no other entry holds the line, RAM has the bytes of a line that is not dirty. -/
theorem host_of_clean (h : Coherent P k mem0 c m) {index line : Nat} (hl : LineInRam P line)
    (honly : OnlyAt P c.key index line) (hclean : ¬ Dirty (c.key index)) {o : Nat} (ho : o < P.lineSize) :
    c.mem.host k (line * P.lineSize + o - defaultRamBase) = m (line * P.lineSize + o) := by
  obtain ⟨h1, h2⟩ := hl
  rw [Nat.add_mul] at h2
  refine h.clean _ (by omega) (by omega) fun i hi he hp => ?_
  by_cases hii : i = index
  · subst hii
    exact hclean
  · exact absurd (hp.trans (pcln_byte line ho)) (honly i hi hii he)

/-- An entry that is not dirty takes over a line that no other entry holds, with its bytes of RAM. -/
theorem refill (h : Coherent P k mem0 c m) {index line : Nat} (hi : index < P.numKeys) (hl : LineInRam P line)
    (honly : OnlyAt P c.key index line) (hclean : ¬ Dirty (c.key index)) (hT : Tagged P c'.key)
    (hindex : (c'.key index).status ≠ .empty ∧ (c'.key index).pcln = line ∧ (c'.key index).state = (c.key index).state)
    (hother : ∀ j ≠ index, SameLine (c'.key j) (c.key j)) (hmem : OnlyStats k c.mem c'.mem)
    (hdata : ∀ j, c'.data j = if index * P.lineSize ≤ j ∧ j < index * P.lineSize + P.lineSize then
      c.mem.host k (line * P.lineSize + (j - index * P.lineSize) - defaultRamBase) else c.data j) :
    Coherent P k mem0 c' m where
  tagged := hT
  ram := h.ram
  segments := hmem.segments.trans h.segments
  outside := fun k' o ho => (hmem.host k' o (by omega)).trans (h.outside k' o ho)
  line := fun i hi he => by
    by_cases hii : i = index
    · subst hii
      rw [hindex.2.1]
      exact hl
    · rw [(hother i hii).1.1]
      exact h.line i hi ((hother i hii).1.held.1 he)
  data := fun i hi he o ho => by
    rw [hdata]
    by_cases hii : i = index
    · subst hii
      rw [if_pos (by omega), Nat.add_sub_cancel_left, hindex.2.1]
      exact h.host_of_clean hl honly hclean ho
    · -- another entry's part of `cache_data` is apart
      rw [if_neg, (hother i hii).1.1]
      · exact h.data i hi ((hother i hii).1.held.1 he) o ho
      · rintro ⟨h1, h2⟩
        exact hii (slot_unique ho h1 h2)
  clean := fun a hlo hhi ha => by
    have hs : statsBase = 0xC0000000 := rfl
    rw [hmem.host _ _ (by omega)]
    refine h.clean a hlo hhi fun i hi he hp => ?_
    by_cases hii : i = index
    · subst hii
      exact hclean
    · rw [← (hother i hii).dirty]
      exact ha i hi ((hother i hii).1.held.2 he) (by rw [(hother i hii).1.1, hp])
  through := fun ht i hi => by
    by_cases hii : i = index
    · subst hii
      rw [Dirty, hindex.2.2]
      exact hclean
    · rw [(hother i hii).dirty]
      exact h.through ht i hi
  empty := fun i hi he => by
    by_cases hii : i = index
    · subst hii
      exact absurd he hindex.1
    · rw [(hother i hii).dirty]
      exact h.empty i hi ((hother i hii).1.2.2.1 he)

/-- A dirty line that is stored back is not dirty any more. -/
theorem writeBack (h : Coherent P k mem0 c m) {index : Nat} (hi : index < P.numKeys)
    (he : (c.key index).status ≠ .empty)
    (hindex : SameTags (c'.key index) (c.key index) ∧ ¬ Dirty (c'.key index))
    (hother : ∀ j ≠ index, SameLine (c'.key j) (c.key j)) (hdata : c'.data = c.data)
    (hseg : c'.mem.segments = c.mem.segments)
    (hhost : ∀ k' o, c'.mem.host k' o =
      if k' = k ∧ (c.key index).pcln * P.lineSize - defaultRamBase ≤ o ∧
          o < (c.key index).pcln * P.lineSize - defaultRamBase + P.lineSize then
        c.data (index * P.lineSize + (o - ((c.key index).pcln * P.lineSize - defaultRamBase)))
      else c.mem.host k' o) : Coherent P k mem0 c' m := by
  have hb : statsBase = 0xC0000000 := rfl
  have hr : defaultRamBase = 0x80000000 := rfl
  have hs : defaultRamSize = 0x40000028 := rfl
  obtain ⟨h1, h2⟩ := h.line index hi he
  rw [Nat.add_mul] at h2
  have htags : ∀ j, SameTags (c'.key j) (c.key j) := fun j => by
    by_cases hj : j = index
    · exact hj ▸ hindex.1
    · exact (hother j hj).1
  refine ⟨h.tagged.congr htags, h.ram, hseg.trans h.segments, fun k' o ho => ?_, fun i hi he => ?_,
    fun i hi he o ho => ?_, fun a hlo hhi ha => ?_, fun ht i hi => ?_, fun i hi he => ?_⟩
  · rw [hhost, if_neg (by omega)]
    exact h.outside k' o ho
  · rw [(htags i).1]
    exact h.line i hi ((htags i).held.1 he)
  · rw [hdata, (htags i).1]
    exact h.data i hi ((htags i).held.1 he) o ho
  · rw [hhost]
    split
    · rename_i hin
      have := h.data index hi he (a - (c.key index).pcln * P.lineSize) (by omega)
      rw [show (c.key index).pcln * P.lineSize + (a - (c.key index).pcln * P.lineSize) = a by omega] at this
      rw [← this]
      exact congrArg c.data (by omega)
    · rename_i hin
      refine h.clean a hlo hhi fun i hi he hp => ?_
      by_cases hii : i = index
      · subst hii
        -- then `a` is a byte of the line
        have hd := Nat.div_add_mod a P.lineSize
        have hm := Nat.mod_lt a P.lineSize_pos
        rw [← P.pcln_eq, ← hp, Nat.mul_comm] at hd
        exact absurd ⟨rfl, by omega, by omega⟩ hin
      · rw [← (hother i hii).dirty]
        exact ha i hi ((htags i).held.2 he) (by rw [(htags i).1, hp])
  · by_cases hii : i = index
    · exact hii ▸ hindex.2
    · rw [(hother i hii).dirty]
      exact h.through ht i hi
  · by_cases hii : i = index
    · exact hii ▸ hindex.2
    · rw [(hother i hii).dirty]
      exact h.empty i hi ((htags i).2.2.1 he)

end Coherent

/-! ## Filling an entry -/

section Fill
variable {mem0 : UserMemory} {m : Nat → UInt8}

theorem stateBits_of_le (h : 3 ≤ P.lineShift) {state : Nat} (hs : state < 8) : stateBits P state = state := by
  have := Nat.pow_le_pow_right (n := 2) (by decide) h
  exact Nat.mod_eq_of_lt (by omega)

theorem sameLine_resetLru (index j : Nat) : SameLine ((resetLru P index c).key j) (c.key j) := by
  refine ⟨sameTags_resetLru .., ?_⟩
  have h : ((c.setKey index fun ent => { ent with lruCount := 0 }).key j).state = (c.key j).state := by
    by_cases hj : j = index
    · subst hj
      rw [setKey_self]
    · rw [setKey_of_ne hj]
  unfold resetLru updateLruCounters
  dsimp only
  split
  · exact h
  · exact h

theorem sameLine_setKey (c : TaggedCache) (index : Nat) (f : CacheEntry → CacheEntry)
    (h : SameLine (f (c.key index)) (c.key index)) (j : Nat) : SameLine ((c.setKey index f).key j) (c.key j) := by
  by_cases hj : j = index
  · subst hj
    rw [setKey_self]
    exact h
  · rw [setKey_of_ne hj]
    exact .rfl

theorem lineInRam_pcln {mpa : Nat} (hlo : defaultRamBase ≤ mpa) (hhi : mpa < statsBase) : LineInRam P (P.pcln mpa) := by
  -- the two bounds are multiples of the page, and so of the line
  have hbase : P.numEntries * 0x80000 * P.lineSize = defaultRamBase := by
    rw [Nat.mul_right_comm, Nat.mul_comm P.numEntries, P.line_mul_entries]
    rfl
  have hstats : P.numEntries * 0xC0000 * P.lineSize = statsBase := by
    rw [Nat.mul_right_comm, Nat.mul_comm P.numEntries, P.line_mul_entries]
    rfl
  rw [← hbase] at hlo
  rw [← hstats] at hhi
  unfold LineInRam
  rw [← hbase, ← hstats, P.pcln_eq]
  exact ⟨Nat.mul_le_mul_right _ ((Nat.le_div_iff_mul_le P.lineSize_pos).2 hlo),
    Nat.mul_le_mul_right _ ((Nat.div_lt_iff_lt_mul P.lineSize_pos).2 hhi)⟩

theorem shiftLeft_lt {line : Nat} (hl : LineInRam P line) : line <<< P.lineShift < 2 ^ P.xlen := by
  have hx := P.two_pow_xlen
  have hs : statsBase = 0xC0000000 := rfl
  have h := hl.2
  have hpos := P.lineSize_pos
  rw [Nat.add_mul] at h
  rw [Nat.shiftLeft_eq]
  show line * P.lineSize < _
  omega

theorem allocate_masked (mpa : Nat) (op : CacheOp) (index : Nat) :
    allocate P mpa op index = allocate P (P.pcln mpa * P.lineSize) op index := by
  unfold allocate
  rw [show (P.pcln mpa * P.lineSize) >>> P.lineShift = P.pcln mpa from pcln_mul _]
  rfl

/-- The entry is tagged with a line that no other holds and its bytes are loaded. -/
theorem wp_refill {c1 : TaggedCache} {mpa index : Nat} (h : Coherent P k mem0 c m) (hi : index < P.numKeys)
    (hset : P.setOf index = P.entry (P.pcln mpa)) (hlo : defaultRamBase ≤ mpa) (hhi : mpa < statsBase)
    (honly : OnlyAt P c.key index (P.pcln mpa)) (hclean : ¬ Dirty (c.key index))
    (hsame : ∀ j, SameLine (c1.key j) (c.key j)) (hdata : c1.data = c.data) {mem : UserMemory}
    (hmem : OnlyStats k c.mem mem) (last : LineStatus) :
    (allocate P mpa .load index).wp (fun _ c' => Coherent P k mem0 c' m ∧ HoldsLine P mpa (c'.key index))
      (fun _ _ => False) { c1.setKey index (tag P mpa) with lastAccess := last, mem } := by
  have hs : statsBase = 0xC0000000 := rfl
  have hl := lineInRam_pcln (P := P) hlo hhi
  have hm : mpa < 0xD0000000 := by omega
  have hT := tagged_retag h.tagged hm hset honly (fun j _ => (hsame j).1) (c1.key index)
  have htag := (tag_holds (P := P) hm (c1.key index)).1
  rw [allocate_masked]
  refine Prog.wp_mono (wp_allocate_load (h.ram'.congr hmem.segments) hl) ?_ fun _ _ hf => hf
  rintro - c' ⟨hkey, hmem', hdata'⟩
  have hkey' : c'.key = Function.update c1.key index (tag P mpa (c1.key index)) := hkey
  have hself : c'.key index = tag P mpa (c1.key index) := by rw [hkey', Function.update_self]
  refine ⟨h.refill hi hl honly hclean (hkey' ▸ hT) ?_ (fun j hj => ?_) (hmem' ▸ hmem) fun j => ?_, hself ▸ htag⟩
  · rw [hself]
    exact ⟨htag.1, htag.2, (hsame index).2⟩
  · rw [hkey', Function.update_of_ne hj]
    exact hsame j
  · rw [hdata']
    obtain ⟨h1, h2⟩ := hl
    rw [Nat.add_mul] at h2
    have hr : defaultRamBase = 0x80000000 := rfl
    refine if_ctx_congr Iff.rfl (fun hj => ?_) fun _ => by rw [setKey_data, hdata]
    exact hmem.host _ _ (by omega)

theorem wp_fill_coherent {c0 : TaggedCache} {mpa index : Nat} (h3 : 3 ≤ P.lineShift) (h : Coherent P k mem0 c0 m)
    (hlo : defaultRamBase ≤ mpa) (hhi : mpa < statsBase) (hL : Looked P mpa c0 index c) :
    (fill P mpa index).wp (fun _ c' => Coherent P k mem0 c' m ∧ HoldsLine P mpa (c'.key index))
      (fun _ _ => False) c := by
  have hi := hL.index_lt
  have hset := hL.set
  have honly := hL.only
  have stats {mem : UserMemory} {a : Nat} (hR : Ram mem k) (ha : statsBase ≤ a ∧ a ≤ 0xC0000020) :=
    onlyStats_countUp hR ha.1 ha.2
  unfold fill
  simp only [Prog.wp_bind, Prog.wp_get]
  rcases hL.found with ⟨⟨he, hl⟩, rfl⟩ | ⟨he, rfl⟩ | ⟨⟨he, -⟩, rfl⟩
  · -- a hit changes statuses and statistics only
    simp only [setKey_self, Prog.wp_bind, Prog.wp_modify, updateStats]
    refine ⟨h.congr (fun j => ?_) rfl (stats h.ram' (by decide)), by simp [HoldsLine, hl]⟩
    exact (sameLine_setKey (c0.setKey index fun ent => { ent with status := .hit }) index
      (fun ent => { ent with status := .filled }) ⟨⟨rfl, rfl, by simp⟩, rfl⟩ j).trans
      (sameLine_setKey _ _ _ ⟨⟨rfl, rfl, by simp [he]⟩, rfl⟩ j)
  · simp only [he, Prog.wp_bind, Prog.wp_modify, updateStats]
    exact wp_refill h hi hset hlo hhi honly (h.empty index hi he) (fun _ => .rfl) rfl (stats h.ram' (by decide)) _
  · -- whatever the write-back left, as long as the entry is clean
    have tail {c1 : TaggedCache} (h1 : Coherent P k mem0 c1 m) (htags : ∀ j, SameTags (c1.key j) (c0.key j))
        (hclean : ¬ Dirty (c1.key index)) :
        (allocate P mpa .load index).wp (fun _ c' => Coherent P k mem0 c' m ∧ HoldsLine P mpa (c'.key index))
          (fun _ _ => False)
          { (resetLru P index c1).setKey index (tag P mpa) with
            lastAccess := .mustEvict, mem := countUp 0xC0000020 (countUp 0xC0000018 c1.mem) } := by
      have hs := stats (a := 0xC0000018) h1.ram' (by decide)
      refine wp_refill h1 hi hset hlo hhi (fun j hj hne he' => ?_) hclean (fun _ => sameLine_resetLru ..) rfl
        (hs.trans (stats (h1.ram'.congr hs.segments) (by decide))) _
      rw [(htags j).1]
      exact honly j hj hne ((htags j).held.1 he')
    have hsame := sameLine_setKey c0 index (fun ent => { ent with status := .mustEvict })
      ⟨⟨rfl, rfl, by simp [he]⟩, rfl⟩
    have h1 : Coherent P k mem0 (c0.setKey index fun ent => { ent with status := .mustEvict }) m :=
      h.congr hsame rfl .rfl
    have hline := h.line index hi he
    simp only [setKey_self, Prog.wp_bind, Prog.wp_modify, Prog.wp_ite, updateStats]
    refine ⟨fun _ => ?_, fun hclean => tail h1 (fun j => (hsame j).1) ?_⟩
    · rw [Nat.mod_eq_of_lt (by exact shiftLeft_lt hline), Nat.shiftLeft_eq]
      refine Prog.wp_mono (wp_allocate_store (k := k) (by exact h1.ram') hline) ?_ fun _ _ hf => hf
      rintro - c' ⟨hkey, hdata, hseg, hhost⟩
      have hshared := sameTags_setKey (c0.setKey index fun ent => { ent with status := .mustEvict })
        index (fun ent => { ent with state := stateBits P cacheStateShared }) .rfl
      have hclean : ¬ Dirty (c'.key index) := by
        rw [hkey, setKey_self, Dirty, stateBits_of_le h3 (by decide)]
        show ¬ cacheStateShared = cacheStateModified
        decide
      refine tail (h1.writeBack hi (by simp) ⟨hkey ▸ hshared index, hclean⟩ (fun j hj => ?_) hdata hseg ?_)
        (fun j => hkey ▸ (hshared j).trans (hsame j).1) hclean
      · rw [hkey, setKey_of_ne hj]
        exact .rfl
      · rw [setKey_self]
        exact hhost
    · -- not written back, so the policy is write-through or the line is clean
      rw [setKey_self]
      intro hd
      cases hw : P.writePolicy with
      | through => exact h.through hw index hi hd
      | back => exact hclean ⟨hw, hd⟩

end Fill

/-! ## Loads and stores of a line -/

section Access
variable {mem0 : UserMemory} {m : Nat → UInt8} {n mpa index : Nat}

/-- A plain memory of bytes. -/
def flatLoad (m : Nat → UInt8) (n mpa : Nat) : Nat := leValue (fun i => m (mpa + i)) n

def flatStore (m : Nat → UInt8) (n mpa val : Nat) : Nat → UInt8 := fun a =>
  if mpa ≤ a ∧ a < mpa + n then leByte val (a - mpa) else m a

theorem mpa_eq (P : CacheParam) (mpa : Nat) : P.pcln mpa * P.lineSize + P.offset mpa = mpa := by
  rw [P.pcln_eq, P.offset_eq]
  exact Nat.div_add_mod' mpa P.lineSize

theorem not_crosses (h0 : 0 < n) (hoff : P.offset mpa + n ≤ P.lineSize) :
    ¬ Crosses P n (index <<< P.lineShift ||| P.offset mpa) := by
  unfold Crosses
  rw [not_not, dataIndex_shiftRight, dataIndex_eq, Nat.shiftRight_eq_div_pow]
  show (index * P.lineSize + P.offset mpa + (n - 1)) / P.lineSize = index
  rw [Nat.add_assoc, Nat.mul_comm, Nat.mul_add_div P.lineSize_pos, Nat.div_eq_of_lt (by omega), Nat.add_zero]

theorem dataIndex_le (hi : index < P.numKeys) (hoff : P.offset mpa + n ≤ P.lineSize) :
    (index <<< P.lineShift ||| P.offset mpa) + n ≤ P.size := by
  have := Nat.mul_le_mul_right P.lineSize (Nat.succ_le_of_lt hi)
  rw [Nat.succ_mul] at this
  unfold CacheParam.size
  rw [dataIndex_eq]
  omega

theorem wp_loadVal_coherent (h : Coherent P k mem0 c m) (hi : index < P.numKeys)
    (hl : HoldsLine P mpa (c.key index)) (h0 : 0 < n) (hoff : P.offset mpa + n ≤ P.lineSize) :
    (loadVal P n mpa (index <<< P.lineShift ||| P.offset mpa)).wp
      (fun v c' => v = flatLoad m n mpa ∧ Coherent P k mem0 c' m) (fun _ _ => False) c := by
  have hsize := dataIndex_le hi hoff
  unfold loadVal
  simp only [not_crosses h0 hoff, Prog.wp_bind, Prog.wp_ite, Prog.wp_undefined, Prog.wp_pure, Prog.wp_get]
  refine ⟨fun hf => hf.elim, fun _ => ⟨fun hf => by omega, fun _ => ⟨leValue_congr fun i hn => ?_, h⟩⟩⟩
  rw [dataIndex_eq, Nat.add_assoc, h.data index hi hl.1 _ (by omega), hl.2, ← Nat.add_assoc, mpa_eq]

theorem wp_storeVal (hR : Ram c.mem k) (hlo : defaultRamBase ≤ mpa) (hhi : mpa + n ≤ statsBase) {idx val : Nat}
    (hsize : idx + n ≤ P.size) :
    (storeVal P n mpa idx val).wp
      (fun _ c' => c'.key = c.key ∧
        (∀ j, c'.data j = if idx ≤ j ∧ j < idx + n then leByte val (j - idx) else c.data j) ∧
        c'.mem.segments = c.mem.segments ∧ ∀ k' o, c'.mem.host k' o =
          if P.writePolicy = .through ∧ k' = k ∧ mpa - defaultRamBase ≤ o ∧ o < mpa - defaultRamBase + n then
            leByte val (o - (mpa - defaultRamBase))
          else c.mem.host k' o)
      (fun _ _ => False) c := by
  have hx := P.two_pow_xlen
  have hb : statsBase = 0xC0000000 := rfl
  have hr : defaultRamBase = 0x80000000 := rfl
  have hs : defaultRamSize = 0x40000028 := rfl
  unfold storeVal
  simp only [Prog.wp_bind, Prog.wp_ite, Prog.wp_undefined]
  refine ⟨fun hf => by omega, fun _ => ?_⟩
  refine Prog.wp_mono (Prog.wp_forRange (fun i (c' : TaggedCache) => c'.key = c.key ∧
      (∀ j, c'.data j = if idx ≤ j ∧ j < idx + i then leByte val (j - idx) else c.data j) ∧
      c'.mem.segments = c.mem.segments ∧ ∀ k' o, c'.mem.host k' o =
        if P.writePolicy = .through ∧ k' = k ∧ mpa - defaultRamBase ≤ o ∧ o < mpa - defaultRamBase + i then
          leByte val (o - (mpa - defaultRamBase))
        else c.mem.host k' o) ?_ ?_) (fun _ _ h => h) fun _ _ h => h
  · exact ⟨rfl, fun j => (if_neg (by omega)).symm, rfl, fun k' o => (if_neg (by omega)).symm⟩
  rintro i s hi ⟨hkey, hdata, hseg, hhost⟩
  have hdata' : ∀ j, Function.update s.data (idx + i) (leByte val i) j =
      if idx ≤ j ∧ j < idx + (i + 1) then leByte val (j - idx) else c.data j := fun j => by
    by_cases hj : j = idx + i
    · subst hj
      rw [Function.update_self, if_pos (by omega), Nat.add_sub_cancel_left]
    · rw [Function.update_of_ne hj, hdata]
      exact if_congr (by omega) rfl rfl
  simp only [Prog.wp_bind, Prog.wp_modify, Prog.wp_ite, Prog.wp_pure]
  -- under write-through the byte goes to RAM as well
  refine ⟨fun ht => ?_, fun ht => ⟨hkey, hdata', hseg, fun k' o => ?_⟩⟩
  · unfold Prog.wp memStore
    dsimp only
    rw [Nat.mod_eq_of_lt (by omega), (hR.congr hseg).store (by omega) (by omega)]
    refine ⟨hkey, hdata', hseg, fun k' o => ?_⟩
    simp only [ht, true_and] at hhost
    simp only [UserMemory.write, ht, true_and]
    by_cases ho : k' = k ∧ o = mpa + i - defaultRamBase
    · rw [if_pos (by omega), if_pos (by omega), show o - (mpa + i - defaultRamBase) = 0 by omega, leByte_toNat,
        show o - (mpa - defaultRamBase) = i by omega]
    · rw [if_neg (by omega), hhost]
      exact if_congr (by omega) rfl rfl
  · rw [hhost]
    exact if_congr (by simp [ht]) rfl rfl

/-- A store within a line writes to no other line. -/
theorem flatStore_of_ne {m : Nat → UInt8} {val a : Nat} (hoff : P.offset mpa + n ≤ P.lineSize)
    (ha : P.pcln a ≠ P.pcln mpa) : flatStore m n mpa val a = m a := by
  refine if_neg ?_
  rintro ⟨h1, h2⟩
  have hmpa := mpa_eq P mpa
  have ha' := mpa_eq P a
  exact ha (slot_unique (P.offset_lt a) (by omega) (by omega))

/-- What a store to the line of entry `index` does to the cache, under either policy: the bytes go into
`cache_data`, and from there the entry turns dirty or RAM is written too. -/
structure Stored (P : CacheParam) (k n mpa val index : Nat) (c c' : TaggedCache) : Prop where
  own : SameTags (c'.key index) (c.key index)
  other : ∀ j ≠ index, SameLine (c'.key j) (c.key j)
  back : P.writePolicy = .back → Dirty (c'.key index)
  through : P.writePolicy = .through → (c'.key index).state = (c.key index).state
  data : ∀ j, c'.data j = if index * P.lineSize + P.offset mpa ≤ j ∧ j < index * P.lineSize + P.offset mpa + n then
    leByte val (j - (index * P.lineSize + P.offset mpa)) else c.data j
  segments : c'.mem.segments = c.mem.segments
  host : ∀ k' o, c'.mem.host k' o =
    if P.writePolicy = .through ∧ k' = k ∧ mpa - defaultRamBase ≤ o ∧ o < mpa - defaultRamBase + n then
      leByte val (o - (mpa - defaultRamBase)) else c.mem.host k' o

namespace Stored

variable {c' : TaggedCache} {val : Nat}

theorem tags (hst : Stored P k n mpa val index c c') (j : Nat) : SameTags (c'.key j) (c.key j) := by
  by_cases hj : j = index
  · exact hj ▸ hst.own
  · exact (hst.other j hj).1

/-- Each line has the bytes that the plain memory has now. -/
theorem line_data (hst : Stored P k n mpa val index c c') (h : Coherent P k mem0 c m) (hi : index < P.numKeys)
    (hl : HoldsLine P mpa (c.key index)) (hoff : P.offset mpa + n ≤ P.lineSize) {i o : Nat} (hi' : i < P.numKeys)
    (he : (c'.key i).status ≠ .empty) (ho : o < P.lineSize) :
    c'.data (i * P.lineSize + o) = flatStore m n mpa val ((c'.key i).pcln * P.lineSize + o) := by
  have hmpa := mpa_eq P mpa
  have he' := (hst.tags i).held.1 he
  rw [hst.data, (hst.tags i).1]
  by_cases hii : i = index
  · subst hii
    rw [hl.2, flatStore]
    by_cases hin : P.offset mpa ≤ o ∧ o < P.offset mpa + n
    · rw [if_pos (by omega), if_pos (by omega)]
      exact congrArg (leByte val) (by omega)
    · rw [if_neg (by omega), if_neg (by omega), h.data i hi he' o ho, hl.2]
  · -- the entry has another line, and its part of `cache_data` is apart
    have hne : (c.key i).pcln ≠ P.pcln mpa := by
      intro hp
      exact hii (h.tagged.unique i hi' index hi he' hl.1 (hp.trans hl.2.symm))
    rw [flatStore_of_ne hoff (by rwa [pcln_byte _ ho]), if_neg, h.data i hi' he' o ho]
    rintro ⟨h1, h2⟩
    exact hii (slot_unique ho (by omega) (by omega))

/-- RAM has the bytes of the lines that are not dirty. -/
theorem clean_host (hst : Stored P k n mpa val index c c') (h : Coherent P k mem0 c m) (hi : index < P.numKeys)
    (hl : HoldsLine P mpa (c.key index)) (hlo : defaultRamBase ≤ mpa) (hoff : P.offset mpa + n ≤ P.lineSize) {a : Nat}
    (hlo' : defaultRamBase ≤ a) (hhi' : a < statsBase)
    (ha : ∀ i < P.numKeys, (c'.key i).status ≠ .empty → (c'.key i).pcln = P.pcln a → ¬ Dirty (c'.key i)) :
    c'.mem.host k (a - defaultRamBase) = flatStore m n mpa val a := by
  rw [hst.host]
  cases hw : P.writePolicy with
  | back =>
    -- the line stored to is dirty, so `a` is in another one
    have hne : P.pcln a ≠ P.pcln mpa := by
      intro hp
      refine ha index hi (hst.own.held.2 hl.1) ?_ (hst.back hw)
      rw [hst.own.1, hl.2, hp]
    rw [if_neg (by simp), flatStore_of_ne hoff hne]
    refine h.clean a hlo' hhi' fun i hi he hp => ?_
    have hii : i ≠ index := by
      rintro rfl
      exact hne (hp.symm.trans hl.2)
    rw [← (hst.other i hii).dirty]
    exact ha i hi ((hst.tags i).held.2 he) (by rw [(hst.tags i).1, hp])
  | through =>
    rw [flatStore]
    by_cases hin : mpa ≤ a ∧ a < mpa + n
    · rw [if_pos ⟨rfl, rfl, by omega, by omega⟩, if_pos hin]
      exact congrArg (leByte val) (by omega)
    · rw [if_neg, if_neg hin]
      · exact h.clean a hlo' hhi' fun i hi _ _ => h.through hw i hi
      · rintro ⟨-, -, h1, h2⟩
        omega

/-- The cache stands for the plain memory after the store. -/
theorem coherent (hst : Stored P k n mpa val index c c') (h : Coherent P k mem0 c m) (hi : index < P.numKeys)
    (hl : HoldsLine P mpa (c.key index)) (hlo : defaultRamBase ≤ mpa) (hhi : mpa + n ≤ statsBase)
    (hoff : P.offset mpa + n ≤ P.lineSize) : Coherent P k mem0 c' (flatStore m n mpa val) where
  tagged := h.tagged.congr hst.tags
  ram := h.ram
  segments := hst.segments.trans h.segments
  outside := fun k' o ho => by
    have hb : statsBase = 0xC0000000 := rfl
    have hr : defaultRamBase = 0x80000000 := rfl
    have hs : defaultRamSize = 0x40000028 := rfl
    rw [hst.host, if_neg (by omega)]
    exact h.outside k' o ho
  line := fun i hi he => by
    rw [(hst.tags i).1]
    exact h.line i hi ((hst.tags i).held.1 he)
  data := fun i hi' he o ho => hst.line_data h hi hl hoff hi' he ho
  clean := fun a hlo' hhi' ha => hst.clean_host h hi hl hlo hoff hlo' hhi' ha
  through := fun ht i hi => by
    by_cases hii : i = index
    · subst hii
      rw [Dirty, hst.through ht]
      exact h.through ht i hi
    · rw [(hst.other i hii).dirty]
      exact h.through ht i hi
  empty := fun i hi he => by
    have he' := (hst.tags i).2.2.1 he
    have hii : i ≠ index := by
      rintro rfl
      exact hl.1 he'
    rw [(hst.other i hii).dirty]
    exact h.empty i hi he'

end Stored

/-- What the access means for the plain memory. -/
def flatAccess (op : CacheOp) (m : Nat → UInt8) (n mpa val : Nat) : Nat → UInt8 :=
  match op with
  | .load => m
  | .store => flatStore m n mpa val

theorem wp_accessCache_coherent {op : CacheOp} {val : Nat} (h3 : 3 ≤ P.lineShift) (h : Coherent P k mem0 c m)
    (hlo : defaultRamBase ≤ mpa) (hhi : mpa + n ≤ statsBase) (h0 : 0 < n) (hoff : P.offset mpa + n ≤ P.lineSize) :
    (accessCache P n mpa op val).wp
      (fun v c' => (op = .load → v = flatLoad m n mpa) ∧ Coherent P k mem0 c' (flatAccess op m n mpa val))
      (fun _ _ => False) c := by
  have hb : statsBase = 0xC0000000 := rfl
  unfold accessCache
  simp only [Prog.wp_bind]
  refine Prog.wp_mono (wp_lookupCacheLine h.tagged (by omega)) ?_ fun _ _ hf => hf.elim
  rintro index c1 ⟨-, hL⟩
  have hi := hL.index_lt
  refine Prog.wp_mono (wp_fill_coherent h3 h hlo (by omega) hL) ?_ fun _ _ hf => hf
  rintro - c2 ⟨h2, hl⟩
  cases op with
  | load =>
    exact Prog.wp_mono (wp_loadVal_coherent h2 hi hl h0 hoff) (fun _ _ hv => ⟨fun _ => hv.1, hv.2⟩) fun _ _ hf => hf
  | store =>
    have hsize : (index <<< P.lineShift ||| P.offset mpa) + n ≤ P.size := dataIndex_le hi hoff
    simp only [Prog.wp_bind, Prog.wp_ite, Prog.wp_modify, Prog.wp_pure]
    -- write-back marks the entry before it stores
    refine ⟨fun hw => ?_, fun hw => ?_⟩
    · refine Prog.wp_mono (wp_storeVal (k := k) (by exact h2.ram') hlo hhi hsize) ?_ fun _ _ hf => hf
      rintro - c' ⟨hkey, hdata, hseg, hhost⟩
      rw [dataIndex_eq] at hdata
      have hs := sameTags_setKey c2 index
        (fun ent => { ent with state := stateBits P cacheStateModified }) .rfl
      have hst : Stored P k n mpa val index c2 c' :=
        { own := hkey ▸ hs index
          other := fun j hj => by
            rw [hkey, setKey_of_ne hj]
            exact .rfl
          back := fun _ => by
            rw [hkey, setKey_self]
            exact stateBits_of_le h3 (by decide)
          through := fun ht => by
            rw [hw] at ht
            cases ht
          data := hdata
          segments := hseg
          host := hhost }
      exact ⟨by simp, hst.coherent h2 hi hl hlo hhi hoff⟩
    · refine Prog.wp_mono (wp_storeVal (k := k) h2.ram' hlo hhi hsize) ?_ fun _ _ hf => hf
      rintro - c' ⟨hkey, hdata, hseg, hhost⟩
      rw [dataIndex_eq] at hdata
      have hst : Stored P k n mpa val index c2 c' :=
        { own := hkey ▸ .rfl
          other := fun j _ => hkey ▸ .rfl
          back := fun ht => absurd ht hw
          through := fun _ => by rw [hkey]
          data := hdata
          segments := hseg
          host := hhost }
      exact ⟨by simp, hst.coherent h2 hi hl hlo hhi hoff⟩

/-- The access is in RAM below the statistics and in one line. -/
structure InLine (P : CacheParam) (n mpa : Nat) : Prop where
  pos : 0 < n
  lo : defaultRamBase ≤ mpa
  hi : mpa + n ≤ statsBase
  line : P.offset mpa + n ≤ P.lineSize

theorem Coherent.countUp (h : Coherent P k mem0 c m) {a : Nat} (ha : statsBase ≤ a ∧ a ≤ 0xC0000020) :
    Coherent P k mem0 { c with mem := TaggedCache.countUp a c.mem } m :=
  h.congr (fun _ => .rfl) rfl (onlyStats_countUp h.ram' ha.1 ha.2)

theorem wp_load_coherent (h3 : 3 ≤ P.lineShift) (h : Coherent P k mem0 c m) (hin : InLine P n mpa) :
    (load P n mpa).wp (fun v c' => v = flatLoad m n mpa ∧ Coherent P k mem0 c' m) (fun _ _ => False) c := by
  obtain ⟨h0, hlo, hhi, hoff⟩ := hin
  have hb : statsBase = 0xC0000000 := rfl
  have hsize : defaultRamBase + defaultRamSize = 0xC0000028 := rfl
  simp only [load, Prog.wp_bind, Prog.wp_ite, Prog.wp_modify, updateStats]
  refine ⟨fun hf => by omega, fun _ => ?_⟩
  refine Prog.wp_mono (wp_accessCache_coherent h3 (h.countUp (by decide)) hlo hhi h0 hoff) ?_ fun _ _ hf => hf
  exact fun v c' hv => ⟨hv.1 rfl, hv.2⟩

theorem wp_store_coherent (h3 : 3 ≤ P.lineShift) (h : Coherent P k mem0 c m) (hin : InLine P n mpa) (val : Nat) :
    (store P n mpa val).wp (fun _ c' => Coherent P k mem0 c' (flatStore m n mpa val)) (fun _ _ => False) c := by
  obtain ⟨h0, hlo, hhi, hoff⟩ := hin
  have hb : statsBase = 0xC0000000 := rfl
  have hsize : defaultRamBase + defaultRamSize = 0xC0000028 := rfl
  simp only [store, Prog.wp_bind, Prog.wp_ite, Prog.wp_modify, Prog.wp_pure, updateStats]
  refine ⟨fun hf => by omega, fun _ => ?_⟩
  refine Prog.wp_mono (wp_accessCache_coherent h3 (h.countUp (by decide)) hlo hhi h0 hoff) ?_ fun _ _ hf => hf
  exact fun _ c' hv => hv.2

end Access

end TaggedCache

/-! ## Runs -/

/-- The bytes of RAM in segment `k`, by address. -/
def ramBytes (mem : UserMemory) (k : Nat) : Nat → UInt8 := fun a => mem.host k (a - defaultRamBase)

theorem coherent_fresh (P : CacheParam) (h3 : 3 ≤ P.lineShift) {mem : UserMemory} {k : Nat} (hR : Ram mem k)
    (data : Nat → UInt8) (last : LineStatus) : Coherent P k mem (fresh P mem data last) (ramBytes mem k) := by
  have hclean : ∀ i, ¬ Dirty ((fresh P mem data last).key i) := fun i => by
    show ¬ stateBits P cacheStateShared = cacheStateModified
    rw [stateBits_of_le h3 (by decide)]
    decide
  exact ⟨Tagged.fresh P mem data last, hR, rfl, fun _ _ _ => rfl, fun _ _ he => absurd rfl he,
    fun _ _ he => absurd rfl he, fun _ _ _ _ => rfl, fun _ i _ => hclean i, fun i _ _ => hclean i⟩

/-- A size the bus has, with the address a multiple of it. -/
def Natural (n mpa : Nat) : Prop := (n = 1 ∨ n = 2 ∨ n = 4 ∨ n = 8) ∧ mpa % n = 0

/-- A naturally aligned access to RAM below the statistics. -/
def CacheStep.Aligned : CacheStep → Prop
  | .load n mpa => Natural n mpa ∧ defaultRamBase ≤ mpa ∧ mpa + n ≤ statsBase
  | .store n mpa _ => Natural n mpa ∧ defaultRamBase ≤ mpa ∧ mpa + n ≤ statsBase

/-- Lines are a multiple of eight bytes. -/
theorem Natural.inLine {P : CacheParam} {n mpa : Nat} (h3 : 3 ≤ P.lineShift) (h : Natural n mpa)
    (hlo : defaultRamBase ≤ mpa) (hhi : mpa + n ≤ statsBase) : InLine P n mpa := by
  obtain ⟨hn, hmod⟩ := h
  have hpos : 0 < n := by omega
  have h8 : n ∣ 8 := by rcases hn with rfl | rfl | rfl | rfl <;> decide
  have hline : n ∣ P.lineSize := h8.trans (pow_dvd_pow 2 h3)
  have hoff : n ∣ P.lineSize - P.offset mpa := by
    rw [P.offset_eq]
    exact Nat.dvd_sub hline ((Nat.dvd_mod_iff hline).2 (Nat.dvd_of_mod_eq_zero hmod))
  have hlt := P.offset_lt mpa
  have := Nat.le_of_dvd (by omega) hoff
  exact ⟨hpos, hlo, hhi, by omega⟩

/-- The values a plain memory delivers in a run, and its bytes in the end. -/
def flatRun : List CacheStep → (Nat → UInt8) → List (Option Nat) × (Nat → UInt8)
  | [], m => ([], m)
  | .load n mpa :: ops, m => (some (flatLoad m n mpa) :: (flatRun ops m).1, (flatRun ops m).2)
  | .store n mpa val :: ops, m =>
    (some 0 :: (flatRun ops (flatStore m n mpa val)).1, (flatRun ops (flatStore m n mpa val)).2)

theorem run_coherent {P : CacheParam} (h3 : 3 ≤ P.lineShift) {k : Nat} {mem0 : UserMemory} (ops : List CacheStep)
    (hops : ∀ op ∈ ops, op.Aligned) {c : TaggedCache} {m : Nat → UInt8} (h : Coherent P k mem0 c m) :
    ∃ c', CacheStep.run P ops c = some ((flatRun ops m).1, c') ∧ Coherent P k mem0 c' (flatRun ops m).2 := by
  induction ops generalizing c m with
  | nil => exact ⟨c, rfl, h⟩
  | cons op ops ih =>
    have hal := hops op List.mem_cons_self
    have ih := fun c m hc => ih (fun op' ho => hops op' (List.mem_cons_of_mem _ ho)) (c := c) (m := m) hc
    cases op with
    | load n mpa =>
      obtain ⟨hnat, hlo, hhi⟩ := hal
      obtain ⟨v, c1, hx, rfl, h1⟩ := Prog.exists_ok (wp_load_coherent h3 h (hnat.inLine h3 hlo hhi))
      obtain ⟨c', hrun, h'⟩ := ih c1 m h1
      exact ⟨c', by simp [CacheStep.run, CacheStep.step, CacheStep.exec, hx, hrun, flatRun], h'⟩
    | store n mpa val =>
      obtain ⟨hnat, hlo, hhi⟩ := hal
      obtain ⟨u, c1, hx, h1⟩ := Prog.exists_ok (wp_store_coherent h3 h (hnat.inLine h3 hlo hhi) val)
      obtain ⟨c', hrun, h'⟩ := ih c1 _ h1
      have hexec : (CacheStep.store n mpa val).exec P c = .ok 0 c1 := Prog.bind_ok hx
      exact ⟨c', by simp [CacheStep.run, CacheStep.step, hexec, hrun, flatRun], h'⟩

/-- Every run of aligned accesses to RAM delivers what a plain memory delivers. -/
theorem cache_transparent (P : CacheParam) (h3 : 3 ≤ P.lineShift) (mem : UserMemory) (k : Nat) (hR : Ram mem k)
    (data : Nat → UInt8) (last : LineStatus) (ops : List CacheStep) (hops : ∀ op ∈ ops, op.Aligned) :
    ∃ c, CacheStep.run P ops (fresh P mem data last) = some ((flatRun ops (ramBytes mem k)).1, c) := by
  obtain ⟨c, hrun, -⟩ := run_coherent h3 ops hops (coherent_fresh P h3 hR data last)
  exact ⟨c, hrun⟩

theorem ram_zeroRam : Ram zeroRam 0 := by
  intro a hlo hhi
  have hb : defaultRamBase = 0x80000000 := rfl
  have hs : defaultRamSize = 0x40000028 := rfl
  show (if _ then _ else _) = _
  exact if_pos ⟨hlo, .inl (by simp only; omega)⟩

/-- Three lines that compete for a set of two ways: the dirty one is evicted and comes back. -/
theorem cache_transparent_two_ways :
    ∃ c, CacheStep.run (cacheOfWays 1 .back)
      [.store 4 0x80000000 0xbeef, .load 8 0x80001000, .load 1 0x80002000, .load 2 0x80000000]
      (fresh (cacheOfWays 1 .back) zeroRam (fun _ => 0) .empty) = some ([some 0, some 0, some 0, some 0xbeef], c) := by
  obtain ⟨c, hrun⟩ := cache_transparent (cacheOfWays 1 .back) (by decide) zeroRam 0 ram_zeroRam (fun _ => 0) .empty
    [.store 4 0x80000000 0xbeef, .load 8 0x80001000, .load 1 0x80002000, .load 2 0x80000000]
    (by simp [CacheStep.Aligned, Natural, defaultRamBase, statsBase])
  exact ⟨c, hrun.trans (congrArg (fun vs => some (vs, c)) (by decide +kernel))⟩

end Rv8.Emu
