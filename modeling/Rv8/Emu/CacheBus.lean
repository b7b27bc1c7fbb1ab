import Rv8.Emu.CacheFlat
/-!
# The cache over any memory map

`Coherent` of `CacheFlat` takes RAM for whole, so that no fill and no write-back ever
fails. Here the memory behind the cache maps any addresses. A bus error ends an access
in the middle: between the tags of an entry and its bytes, or between the dirty flag
and the write-back. `Sound` is what is kept all the same, as long as an access finds
its own line mapped, and a load that runs into the next line either finds that line
mapped and a place for it, or nothing to lose there.
-/

namespace Rv8.Emu

open Rv8.Lib TaggedCache

/-! ## Bytes of a memory -/

/-- Some segment holds the address. -/
def Mapped (segments : List Segment) (a : Nat) : Prop := mpaToUva a segments 0 ≠ none

instance (segments : List Segment) (a : Nat) : Decidable (Mapped segments a) := inferInstanceAs (Decidable (_ ≠ _))

namespace UserMemory

variable {m m' : UserMemory} {n a b val : Nat}

/-- The byte at an address that is mapped. -/
def peek (m : UserMemory) (a : Nat) : UInt8 :=
  match m.uva a with
  | some u => m.host u.1 u.2
  | none => 0

theorem exists_uva (h : Mapped m.segments a) : ∃ u, m.uva a = some u := Option.ne_none_iff_exists'.1 h

theorem load_one (h : Mapped m.segments a) : m.load 1 a = some (m.peek a).toNat := by
  obtain ⟨u, hu⟩ := exists_uva h
  simp [load, peek, hu, leValue]

theorem load_none (h : ¬ Mapped m.segments a) : m.load n a = none := by
  unfold load uva
  rw [not_not.1 h]
  rfl

theorem store_none (h : ¬ Mapped m.segments a) : m.store n a val = none := by
  unfold store uva
  rw [not_not.1 h]
  rfl

/-- No two addresses have the same byte. -/
theorem uva_inj {k o o' : Nat} (ha : m.uva a = some (k, o)) (hb : m.uva b = some (k, o')) :
    ∃ base, base ≤ a ∧ base ≤ b ∧ o = a - base ∧ o' = b - base := by
  obtain ⟨i, seg, hk, hi, hle, rfl⟩ := mpaToUva_spec ha
  obtain ⟨j, seg', hk', hj, hle', rfl⟩ := mpaToUva_spec hb
  obtain rfl : i = j := by omega
  obtain rfl : seg = seg' := Option.some.inj (hi.symm.trans hj)
  exact ⟨seg.mpa, hle, hle', rfl, rfl⟩

/-- A store changes its own bytes only. -/
theorem peek_store_of_notMem (h : m.store n a val = some m') (hb : ¬ (a ≤ b ∧ b < a + n)) : m'.peek b = m.peek b := by
  obtain ⟨k, off, hu, rfl⟩ := store_spec h
  unfold peek
  rw [write_uva]
  cases hub : m.uva b with
  | none => rfl
  | some u =>
    obtain ⟨k', o⟩ := u
    refine if_neg ?_
    rintro ⟨rfl, h1, h2⟩
    obtain ⟨base, hla, hlb, rfl, rfl⟩ := uva_inj hu hub
    dsimp only at h1 h2
    omega

theorem store_segments (h : m.store n a val = some m') : m'.segments = m.segments := by
  obtain ⟨k, off, -, rfl⟩ := store_spec h
  rfl

theorem store_one (h : Mapped m.segments a) (byte : UInt8) : ∃ m', m.store 1 a byte.toNat = some m' ∧
    m'.segments = m.segments ∧ ∀ b, m'.peek b = if b = a then byte else m.peek b := by
  obtain ⟨⟨k, off⟩, hu⟩ := exists_uva h
  have hstore : m.store 1 a byte.toNat = some (m.write 1 byte.toNat k off) := by
    simp [store, hu]
  refine ⟨_, hstore, rfl, fun b => ?_⟩
  by_cases hb : b = a
  · subst hb
    unfold peek
    rw [write_uva, hu, if_pos rfl]
    simp [write, leByte_toNat]
  · rw [if_neg hb]
    exact peek_store_of_notMem hstore (by omega)

end UserMemory

open UserMemory

/-- The memories have one map and the same bytes below the statistics. -/
structure SameRam (m m' : UserMemory) : Prop where
  segments : m'.segments = m.segments
  peek : ∀ a, defaultRamBase ≤ a → a < statsBase → m'.peek a = m.peek a

theorem SameRam.rfl {m : UserMemory} : SameRam m m := ⟨Eq.refl _, fun _ _ _ => Eq.refl _⟩

theorem SameRam.trans {m m' m'' : UserMemory} (h : SameRam m m') (h' : SameRam m' m'') : SameRam m m'' :=
  ⟨h'.segments.trans h.segments, fun a hlo hhi => (h'.peek a hlo hhi).trans (h.peek a hlo hhi)⟩

theorem sameRam_store {m m' : UserMemory} {n a val : Nat} (h : m.store n a val = some m')
    (ha : a + n ≤ defaultRamBase ∨ statsBase ≤ a) : SameRam m m' :=
  ⟨store_segments h, fun b hlo hhi => peek_store_of_notMem h (by omega)⟩

theorem sameRam_countUp (m : UserMemory) {a : Nat} (ha : statsBase ≤ a) : SameRam m (countUp a m) := by
  unfold countUp
  cases m.load 8 a with
  | none => exact .rfl
  | some tempVal =>
    dsimp only
    cases hs : m.store 8 a ((tempVal + 1) % 2 ^ 64) with
    | none => exact .rfl
    | some m' => exact sameRam_store hs (.inr ha)

/-! ## Moving a line -/

/-- Every byte of the line is mapped. -/
def Whole (P : CacheParam) (segments : List Segment) (line : Nat) : Prop :=
  ∀ o < P.lineSize, Mapped segments (line * P.lineSize + o)

instance (P : CacheParam) (segments : List Segment) (line : Nat) : Decidable (Whole P segments line) :=
  inferInstanceAs (Decidable (∀ o < P.lineSize, _))

namespace TaggedCache

variable {P : CacheParam} {c : TaggedCache} {segs : List Segment}

/-- Addresses of lines the cache may hold do not wrap. -/
def LineInBus (P : CacheParam) (line : Nat) : Prop := defaultRamBase ≤ line * P.lineSize ∧ line * P.lineSize < 0xD0000000

/-- What a fill leaves: the bytes of a whole line, or a part of them and a bus error. -/
theorem wp_allocate_fill (hseg : c.mem.segments = segs) {line index : Nat} (hl : LineInBus P line) :
    (allocate P (line * P.lineSize) .load index).wp
      (fun _ c' => Whole P segs line ∧ c'.key = c.key ∧ c'.mem = c.mem ∧ ∀ j, c'.data j =
        if index * P.lineSize ≤ j ∧ j < index * P.lineSize + P.lineSize then
          c.mem.peek (line * P.lineSize + (j - index * P.lineSize))
        else c.data j)
      (fun _ c' => ¬ Whole P segs line ∧ c'.key = c.key ∧ c'.mem = c.mem ∧
        (∀ j, ¬ (index * P.lineSize ≤ j ∧ j < index * P.lineSize + P.lineSize) → c'.data j = c.data j) ∧
        (¬ Mapped segs (line * P.lineSize) → c'.data = c.data)) c := by
  unfold allocate
  refine Prog.wp_mono (Prog.wp_forRange (fun i (c' : TaggedCache) =>
      (∀ o < i, Mapped segs (line * P.lineSize + o)) ∧ c'.key = c.key ∧ c'.mem = c.mem ∧ ∀ j, c'.data j =
        if index * P.lineSize ≤ j ∧ j < index * P.lineSize + i then
          c.mem.peek (line * P.lineSize + (j - index * P.lineSize))
        else c.data j) ⟨fun o ho => by omega, rfl, rfl, fun j => (if_neg (by omega)).symm⟩ ?_) (fun _ _ h => h) fun _ _ h => h
  rintro i s hi ⟨hmapped, hkey, hmem, hdata⟩
  simp only [Prog.wp_bind, allocate_addr hl.2 hi]
  unfold Prog.wp memLoad
  by_cases hm : Mapped segs (line * P.lineSize + i)
  · rw [hmem, load_one (by rwa [hseg])]
    refine ⟨fun o ho => ?_, hkey, hmem, fun j => ?_⟩
    · rcases Nat.lt_succ_iff_lt_or_eq.1 ho with ho | rfl
      · exact hmapped o ho
      · exact hm
    · simp only [Nat.shiftLeft_eq, UInt8.ofNat_toNat]
      show Function.update s.data (index * P.lineSize + i) _ j = _
      by_cases hj : j = index * P.lineSize + i
      · subst hj
        rw [Function.update_self, if_pos (by omega), Nat.add_sub_cancel_left]
      · rw [Function.update_of_ne hj, hdata]
        exact if_congr (by omega) rfl rfl
  · rw [hmem, load_none (by rwa [hseg])]
    refine ⟨fun hw => hm (hw i hi), hkey, hmem, fun j hj => ?_, fun h0 => ?_⟩
    · rw [hdata]
      exact if_neg (by omega)
    · -- the first byte was the one that failed
      have hi0 : i = 0 := by
        by_contra hpos
        exact h0 (hmapped 0 (by omega))
      subst hi0
      funext j
      rw [hdata]
      exact if_neg (by omega)

/-- What a write-back leaves: the bytes of the line, in a memory that maps it. -/
theorem wp_allocate_writeBack (hseg : c.mem.segments = segs) {line index : Nat} (hl : LineInBus P line) :
    (allocate P (line * P.lineSize) .store index).wp
      (fun _ c' => Whole P segs line ∧ c'.key = c.key ∧ c'.data = c.data ∧ c'.mem.segments = segs ∧ ∀ a, c'.mem.peek a =
        if line * P.lineSize ≤ a ∧ a < line * P.lineSize + P.lineSize then
          c.data (index * P.lineSize + (a - line * P.lineSize))
        else c.mem.peek a)
      (fun _ _ => ¬ Whole P segs line) c := by
  unfold allocate
  refine Prog.wp_mono (Prog.wp_forRange (fun i (c' : TaggedCache) =>
      (∀ o < i, Mapped segs (line * P.lineSize + o)) ∧ c'.key = c.key ∧ c'.data = c.data ∧ c'.mem.segments = segs ∧
        ∀ a, c'.mem.peek a = if line * P.lineSize ≤ a ∧ a < line * P.lineSize + i then
          c.data (index * P.lineSize + (a - line * P.lineSize))
        else c.mem.peek a) ⟨fun o ho => by omega, rfl, rfl, hseg, fun a => (if_neg (by omega)).symm⟩ ?_)
    (fun _ _ h => h) fun _ _ h => h
  rintro i s hi ⟨hmapped, hkey, hdata, hseg', hpeek⟩
  simp only [Prog.wp_bind, Prog.wp_get, allocate_addr hl.2 hi]
  unfold Prog.wp memStore
  by_cases hm : Mapped segs (line * P.lineSize + i)
  · obtain ⟨m', hstore, hsegm, hp⟩ := store_one (m := s.mem) (a := line * P.lineSize + i) (by rwa [hseg'])
      (s.data (index <<< P.lineShift + i))
    rw [hstore]
    refine ⟨fun o ho => ?_, hkey, hdata, hsegm.trans hseg', fun a => ?_⟩
    · rcases Nat.lt_succ_iff_lt_or_eq.1 ho with ho | rfl
      · exact hmapped o ho
      · exact hm
    · simp only [hp, hpeek, hdata, Nat.shiftLeft_eq]
      by_cases ha : a = line * P.lineSize + i
      · subst ha
        rw [if_pos rfl, if_pos (by omega), Nat.add_sub_cancel_left]
        rfl
      · rw [if_neg ha]
        exact if_congr (by omega) rfl rfl
  · rw [store_none (by rwa [hseg'])]
    exact fun hw => hm (hw i hi)

/-! ## What is kept -/

/-- The cache, over a memory with the map `segs`, stands for the bytes `m` of RAM below the statistics. A line is held
only if it is whole. Nothing is said of the bytes of the statistics. -/
structure Sound (P : CacheParam) (segs : List Segment) (c : TaggedCache) (m : Nat → UInt8) : Prop where
  tagged : Tagged P c.key
  segments : c.mem.segments = segs
  line : ∀ i < P.numKeys, (c.key i).status ≠ .empty → LineInBus P (c.key i).pcln
  whole : ∀ i < P.numKeys, (c.key i).status ≠ .empty → Whole P segs (c.key i).pcln
  data : ∀ i < P.numKeys, (c.key i).status ≠ .empty → LineInRam P (c.key i).pcln → ∀ o < P.lineSize,
    c.data (i * P.lineSize + o) = m ((c.key i).pcln * P.lineSize + o)
  clean : ∀ a, defaultRamBase ≤ a → a < statsBase → Mapped segs a →
    (∀ i < P.numKeys, (c.key i).status ≠ .empty → (c.key i).pcln = P.pcln a → ¬ Dirty (c.key i)) → c.mem.peek a = m a
  through : P.writePolicy = .through → ∀ i < P.numKeys, ¬ Dirty (c.key i)
  empty : ∀ i < P.numKeys, (c.key i).status = .empty → ¬ Dirty (c.key i)

/-- The bytes of two flat memories agree below the statistics. -/
def SameBytes (m m' : Nat → UInt8) : Prop := ∀ a, defaultRamBase ≤ a → a < statsBase → m' a = m a

namespace Sound

variable {c' : TaggedCache} {m m' : Nat → UInt8}

theorem byte_in {line o : Nat} (hl : LineInRam P line) (ho : o < P.lineSize) :
    defaultRamBase ≤ line * P.lineSize + o ∧ line * P.lineSize + o < statsBase := by
  obtain ⟨h1, h2⟩ := hl
  rw [Nat.add_mul] at h2
  omega

/-- Statuses, counters and statistics do not matter, nor does the plain memory elsewhere. -/
theorem congr (h : Sound P segs c m) (hkey : ∀ i, SameLine (c'.key i) (c.key i)) (hdata : c'.data = c.data)
    (hmem : SameRam c.mem c'.mem) (hm : SameBytes m m') : Sound P segs c' m' where
  tagged := h.tagged.congr fun i => (hkey i).1
  segments := hmem.segments.trans h.segments
  line := fun i hi he => by
    rw [(hkey i).1.1]
    exact h.line i hi ((hkey i).1.held.1 he)
  whole := fun i hi he => by
    rw [(hkey i).1.1]
    exact h.whole i hi ((hkey i).1.held.1 he)
  data := fun i hi he hl o ho => by
    rw [(hkey i).1.1] at hl ⊢
    obtain ⟨h1, h2⟩ := byte_in hl ho
    rw [hdata, h.data i hi ((hkey i).1.held.1 he) hl o ho, hm _ h1 h2]
  clean := fun a hlo hhi ha hclean => by
    rw [hmem.peek a hlo hhi, hm a hlo hhi]
    refine h.clean a hlo hhi ha fun i hi he hp => ?_
    rw [← (hkey i).dirty]
    exact hclean i hi ((hkey i).1.held.2 he) (by rw [(hkey i).1.1, hp])
  through := fun ht i hi => by
    rw [(hkey i).dirty]
    exact h.through ht i hi
  empty := fun i hi he => by
    rw [(hkey i).dirty]
    exact h.empty i hi ((hkey i).1.2.2.1 he)

/-- The bytes of an empty entry may change. -/
theorem scramble (h : Sound P segs c m) {index : Nat} (hkey : c'.key = c.key) (hmem : c'.mem = c.mem)
    (hindex : (c.key index).status = .empty)
    (hdata : ∀ j, ¬ (index * P.lineSize ≤ j ∧ j < index * P.lineSize + P.lineSize) → c'.data j = c.data j) :
    Sound P segs c' m where
  tagged := hkey ▸ h.tagged
  segments := hmem ▸ h.segments
  line := hkey ▸ h.line
  whole := hkey ▸ h.whole
  data := fun i hi he hl o ho => by
    rw [hkey] at he hl ⊢
    rw [hdata, h.data i hi he hl o ho]
    rintro ⟨h1, h2⟩
    obtain rfl := slot_unique ho h1 h2
    exact he hindex
  clean := hkey ▸ hmem ▸ h.clean
  through := hkey ▸ h.through
  empty := hkey ▸ h.empty

/-- A dirty line that is stored back is not dirty any more. -/
theorem writeBack (h : Sound P segs c m) {index : Nat} (hi : index < P.numKeys) (he : (c.key index).status ≠ .empty)
    (hindex : SameTags (c'.key index) (c.key index) ∧ ¬ Dirty (c'.key index))
    (hother : ∀ j ≠ index, SameLine (c'.key j) (c.key j)) (hdata : c'.data = c.data) (hseg : c'.mem.segments = segs)
    (hout : ∀ a, ¬ ((c.key index).pcln * P.lineSize ≤ a ∧ a < (c.key index).pcln * P.lineSize + P.lineSize) →
      c'.mem.peek a = c.mem.peek a)
    (hin : LineInRam P (c.key index).pcln → ∀ o < P.lineSize,
      c'.mem.peek ((c.key index).pcln * P.lineSize + o) = c.data (index * P.lineSize + o)) : Sound P segs c' m := by
  have htags : ∀ j, SameTags (c'.key j) (c.key j) := fun j => by
    by_cases hj : j = index
    · exact hj ▸ hindex.1
    · exact (hother j hj).1
  refine ⟨h.tagged.congr htags, hseg, fun i hi he => ?_, fun i hi he => ?_, fun i hi he hl => ?_,
    fun a hlo hhi ha hclean => ?_, fun ht i hi => ?_, fun i hi he => ?_⟩
  · rw [(htags i).1]
    exact h.line i hi ((htags i).held.1 he)
  · rw [(htags i).1]
    exact h.whole i hi ((htags i).held.1 he)
  · rw [(htags i).1] at hl ⊢
    rw [hdata]
    exact h.data i hi ((htags i).held.1 he) hl
  · by_cases hina : P.pcln a = (c.key index).pcln
    · -- a byte of the line that went back
      have hl := lineInRam_pcln (P := P) hlo hhi
      rw [hina] at hl
      have hda := h.data index hi he hl (P.offset a) (P.offset_lt a)
      have hpa := hin hl (P.offset a) (P.offset_lt a)
      rw [← hina, mpa_eq] at hda hpa
      rw [hpa, hda]
    · rw [hout]
      · refine h.clean a hlo hhi ha fun i hi he hp => ?_
        have hii : i ≠ index := by
          rintro rfl
          exact hina hp.symm
        rw [← (hother i hii).dirty]
        exact hclean i hi ((htags i).held.2 he) (by rw [(htags i).1, hp])
      · rintro ⟨h1, h2⟩
        refine hina ?_
        have hb := pcln_byte (P := P) (c.key index).pcln (o := a - (c.key index).pcln * P.lineSize) (by omega)
        rwa [Nat.add_sub_cancel' h1] at hb
  · by_cases hii : i = index
    · exact hii ▸ hindex.2
    · rw [(hother i hii).dirty]
      exact h.through ht i hi
  · by_cases hii : i = index
    · exact hii ▸ hindex.2
    · rw [(hother i hii).dirty]
      exact h.empty i hi ((htags i).2.2.1 he)

/-- An entry that is not dirty takes over a line that no other entry holds, with its bytes if it is in RAM. -/
theorem refill (h : Sound P segs c m) {index line : Nat} (hi : index < P.numKeys) (hl : LineInBus P line)
    (honly : OnlyAt P c.key index line) (hclean : ¬ Dirty (c.key index)) (hT : Tagged P c'.key)
    (hindex : (c'.key index).status ≠ .empty ∧ (c'.key index).pcln = line ∧ (c'.key index).state = (c.key index).state)
    (hother : ∀ j ≠ index, SameLine (c'.key j) (c.key j)) (hmem : SameRam c.mem c'.mem)
    (hout : ∀ j, ¬ (index * P.lineSize ≤ j ∧ j < index * P.lineSize + P.lineSize) → c'.data j = c.data j)
    (hw : Whole P segs line) (hin : LineInRam P line → ∀ o < P.lineSize,
      c'.data (index * P.lineSize + o) = c.mem.peek (line * P.lineSize + o)) : Sound P segs c' m where
  tagged := hT
  segments := hmem.segments.trans h.segments
  line := fun i hi he => by
    by_cases hii : i = index
    · subst hii
      rw [hindex.2.1]
      exact hl
    · rw [(hother i hii).1.1]
      exact h.line i hi ((hother i hii).1.held.1 he)
  whole := fun i hi he => by
    by_cases hii : i = index
    · subst hii
      rw [hindex.2.1]
      exact hw
    · rw [(hother i hii).1.1]
      exact h.whole i hi ((hother i hii).1.held.1 he)
  data := fun i hi he hlr o ho => by
    by_cases hii : i = index
    · subst hii
      rw [hindex.2.1] at hlr ⊢
      obtain ⟨h1, h2⟩ := byte_in hlr ho
      rw [hin hlr o ho]
      -- no entry holds the line dirty, so memory has its bytes
      refine h.clean _ h1 h2 (hw o ho) fun j hj he' hp => ?_
      by_cases hji : j = i
      · exact hji ▸ hclean
      · exact absurd (hp.trans (pcln_byte line ho)) (honly j hj hji he')
    · rw [(hother i hii).1.1] at hlr ⊢
      rw [hout, h.data i hi ((hother i hii).1.held.1 he) hlr o ho]
      rintro ⟨h1, h2⟩
      exact hii (slot_unique ho h1 h2)
  clean := fun a hlo hhi ha hcl => by
    rw [hmem.peek a hlo hhi]
    refine h.clean a hlo hhi ha fun i hi he hp => ?_
    by_cases hii : i = index
    · exact hii ▸ hclean
    · rw [← (hother i hii).dirty]
      exact hcl i hi ((hother i hii).1.held.2 he) (by rw [(hother i hii).1.1, hp])
  through := fun ht i hi => by
    by_cases hii : i = index
    · subst hii
      rw [Dirty, hindex.2.2]
      exact hclean
    · rw [(hother i hii).dirty]
      exact h.through ht i hi
  empty := fun i hi he => by
    by_cases hii : i = index
    · subst hii
      exact absurd he hindex.1
    · rw [(hother i hii).dirty]
      exact h.empty i hi ((hother i hii).1.2.2.1 he)

end Sound

/-! ## Filling an entry -/

section Fill
variable {m : Nat → UInt8} {mpa index : Nat}

theorem shared_ne_modified (P : CacheParam) : stateBits P cacheStateShared ≠ cacheStateModified := by
  have hpos := P.line_pos
  unfold stateBits cacheStateShared cacheStateModified
  by_cases h3 : 3 ≤ P.lineShift
  · have hle : 2 ^ 3 ≤ 2 ^ P.lineShift := Nat.pow_le_pow_right (by decide) h3
    rw [Nat.mod_eq_of_lt (by omega)]
    decide
  · have hcases : P.lineShift = 1 ∨ P.lineShift = 2 := by omega
    rcases hcases with h | h <;> rw [h] <;> decide

theorem lineInBus_pcln (hlo : defaultRamBase ≤ mpa) (hhi : mpa < 0xD0000000) : LineInBus P (P.pcln mpa) := by
  have hbase : P.numEntries * 0x80000 * P.lineSize = defaultRamBase := by
    rw [Nat.mul_right_comm, Nat.mul_comm P.numEntries, P.line_mul_entries]
    rfl
  have heq := mpa_eq P mpa
  refine ⟨?_, by omega⟩
  rw [← hbase] at hlo ⊢
  rw [P.pcln_eq]
  exact Nat.mul_le_mul_right _ ((Nat.le_div_iff_mul_le P.lineSize_pos).2 hlo)

theorem shiftLeft_mod {line : Nat} (hl : LineInBus P line) : line <<< P.lineShift % 2 ^ P.xlen = line * P.lineSize := by
  have hx := P.two_pow_xlen
  have h := hl.2
  rw [Nat.shiftLeft_eq]
  exact Nat.mod_eq_of_lt (by unfold CacheParam.lineSize at *; omega)

/-- The entry holds the line of `mpa`, the others what they held, and the cache stands for `m`. -/
structure Loaded (P : CacheParam) (segs : List Segment) (mpa index : Nat) (c0 c : TaggedCache) (m : Nat → UInt8) : Prop where
  sound : Sound P segs c m
  holds : HoldsLine P mpa (c.key index)
  other : ∀ j ≠ index, SameTags (c.key j) (c0.key j)

theorem wp_refill_sound {c1 : TaggedCache} (h : Sound P segs c m) (hi : index < P.numKeys)
    (hset : P.setOf index = P.entry (P.pcln mpa)) (hlo : defaultRamBase ≤ mpa) (hhi : mpa < 0xD0000000)
    (honly : OnlyAt P c.key index (P.pcln mpa)) (hclean : ¬ Dirty (c.key index))
    (hsame : ∀ j, SameLine (c1.key j) (c.key j)) (hdata : c1.data = c.data) {mem : UserMemory}
    (hmem : SameRam c.mem mem) (last : LineStatus) (hw : Whole P segs (P.pcln mpa)) :
    (allocate P mpa .load index).wp (fun _ c' => Loaded P segs mpa index c c' m) (fun _ _ => False)
      { c1.setKey index (tag P mpa) with lastAccess := last, mem } := by
  have hl := lineInBus_pcln (P := P) hlo hhi
  have hT := tagged_retag h.tagged hhi hset honly (fun j _ => (hsame j).1) (c1.key index)
  have htag := (tag_holds (P := P) hhi (c1.key index)).1
  rw [allocate_masked]
  refine Prog.wp_mono (wp_allocate_fill (hmem.segments.trans h.segments) hl) ?_ fun _ c' hc => hc.1 hw
  rintro - c' ⟨-, hkey, hmem', hdata'⟩
  have hself : c'.key index = tag P mpa (c1.key index) := by
    rw [hkey, setKey_self]
  have hother {j : Nat} (hj : j ≠ index) : SameLine (c'.key j) (c.key j) := by
    rw [hkey, setKey_of_ne hj]
    exact hsame j
  refine ⟨h.refill hi hl honly hclean (hkey ▸ hT) ?_ (fun j hj => hother hj) (hmem' ▸ hmem) (fun j hj => ?_) hw
    (fun hlr o ho => ?_), hself ▸ htag, fun j hj => (hother hj).1⟩
  · rw [hself]
    exact ⟨htag.1, htag.2, (hsame index).2⟩
  · rw [hdata', if_neg hj, setKey_data, hdata]
  · obtain ⟨h1, h2⟩ := Sound.byte_in hlr ho
    rw [hdata', if_pos (by omega), Nat.add_sub_cancel_left]
    exact hmem.peek _ h1 h2

/-- A write-back of an entry that holds a line, with its state changed before or still to be changed. -/
theorem wp_writeBack_sound (h : Sound P segs c m) (hi : index < P.numKeys) (he : (c.key index).status ≠ .empty)
    {c1 : TaggedCache} (hdata1 : c1.data = c.data) (hmem1 : c1.mem = c.mem) :
    (allocate P ((c.key index).pcln * P.lineSize) .store index).wp
      (fun _ c' => c'.key = c1.key ∧ ∀ key, (∀ j ≠ index, key j = c.key j) → SameTags (key index) (c.key index) →
        ¬ Dirty (key index) → Sound P segs { c' with key } m)
      (fun _ _ => False) c1 := by
  refine Prog.wp_mono (wp_allocate_writeBack (hmem1 ▸ h.segments) (h.line index hi he)) ?_
    fun _ _ hc => hc (h.whole index hi he)
  rintro - c' ⟨-, hkey, hdata, hseg, hpeek⟩
  refine ⟨hkey, fun key hne hown hclean => ?_⟩
  refine h.writeBack hi he ⟨hown, hclean⟩ (fun j hj => ?_) (hdata.trans hdata1) hseg (fun a ha => ?_) (fun _ o ho => ?_)
  · rw [show TaggedCache.key { c' with key } j = key j from rfl, hne j hj]
    exact .rfl
  · show c'.mem.peek a = _
    rw [hpeek, if_neg ha, hmem1]
  · show c'.mem.peek _ = _
    rw [hpeek, if_pos (by omega), hdata1, Nat.add_sub_cancel_left]

theorem wp_fill_sound {c0 : TaggedCache} (h : Sound P segs c0 m) (hlo : defaultRamBase ≤ mpa) (hhi : mpa < 0xD0000000)
    (hwhole : Whole P segs (P.pcln mpa)) (hL : Looked P mpa c0 index c) :
    (fill P mpa index).wp (fun _ c' => Loaded P segs mpa index c0 c' m) (fun _ _ => False) c := by
  have hi := hL.index_lt
  have hset := hL.set
  have honly := hL.only
  have hm : SameBytes m m := fun _ _ _ => rfl
  have stats (mem : UserMemory) {a : Nat} (ha : statsBase ≤ a) := sameRam_countUp mem ha
  unfold fill
  simp only [Prog.wp_bind, Prog.wp_get]
  rcases hL.found with ⟨⟨he, hl⟩, rfl⟩ | ⟨he, rfl⟩ | ⟨⟨he, -⟩, rfl⟩
  · -- a hit changes statuses and statistics only
    have hsame (j : Nat) := (sameLine_setKey (c0.setKey index fun ent => { ent with status := .hit }) index
      (fun ent => { ent with status := .filled }) ⟨⟨rfl, rfl, by simp⟩, rfl⟩ j).trans
      (sameLine_setKey _ _ _ ⟨⟨rfl, rfl, by simp [he]⟩, rfl⟩ j)
    simp only [setKey_self, Prog.wp_bind, Prog.wp_modify, updateStats]
    exact ⟨h.congr hsame rfl (stats _ (by decide)) hm, by simp [HoldsLine, hl], fun j _ => (hsame j).1⟩
  · simp only [he, Prog.wp_bind, Prog.wp_modify, updateStats]
    exact wp_refill_sound h hi hset hlo hhi honly (h.empty index hi he) (fun _ => .rfl) rfl (stats _ (by decide)) _ hwhole
  · -- whatever the write-back left, as long as the entry is clean
    have tail {c1 : TaggedCache} (h1 : Sound P segs c1 m) (htags : ∀ j, SameTags (c1.key j) (c0.key j))
        (hclean : ¬ Dirty (c1.key index)) :
        (allocate P mpa .load index).wp (fun _ c' => Loaded P segs mpa index c0 c' m) (fun _ _ => False)
          { (resetLru P index c1).setKey index (tag P mpa) with
            lastAccess := .mustEvict, mem := countUp 0xC0000020 (countUp 0xC0000018 c1.mem) } := by
      have hs := (stats c1.mem (a := 0xC0000018) (by decide)).trans (stats _ (a := 0xC0000020) (by decide))
      refine Prog.wp_mono (wp_refill_sound h1 hi hset hlo hhi (fun j hj hne he' => ?_) hclean (fun _ => sameLine_resetLru ..) rfl
        hs _ hwhole) (fun _ c' hc => ⟨hc.sound, hc.holds, fun j hj => (hc.other j hj).trans (htags j)⟩) fun _ _ hc => hc
      rw [(htags j).1]
      exact honly j hj hne ((htags j).held.1 he')
    have hsame := sameLine_setKey c0 index (fun ent => { ent with status := .mustEvict })
      ⟨⟨rfl, rfl, by simp [he]⟩, rfl⟩
    have h1 : Sound P segs (c0.setKey index fun ent => { ent with status := .mustEvict }) m := h.congr hsame rfl .rfl hm
    simp only [setKey_self, Prog.wp_bind, Prog.wp_modify, Prog.wp_ite, updateStats]
    refine ⟨fun hd => ?_, fun hclean => tail h1 (fun j => (hsame j).1) ?_⟩
    · -- the state is changed first
      have hshared := sameTags_setKey (c0.setKey index fun ent => { ent with status := .mustEvict })
        index (fun ent => { ent with state := stateBits P cacheStateShared }) .rfl
      have hclean : ¬ Dirty (((c0.setKey index fun ent => { ent with status := .mustEvict }).setKey index
          fun ent => { ent with state := stateBits P cacheStateShared }).key index) := by
        rw [setKey_self]
        exact shared_ne_modified P
      have hpcln : ((c0.setKey index fun ent => { ent with status := .mustEvict }).key index).pcln = (c0.key index).pcln := by
        rw [setKey_self]
      rw [shiftLeft_mod (h.line index hi he)]
      rw [← hpcln]
      refine Prog.wp_mono (wp_writeBack_sound h1 hi (by simp) rfl rfl) ?_ fun _ _ hf => hf
      rintro - c' ⟨hkey, hsound⟩
      refine tail (hsound c'.key (fun j hj => ?_) (hkey ▸ hshared index) (hkey ▸ hclean))
        (fun j => hkey ▸ (hshared j).trans (hsame j).1) (hkey ▸ hclean)
      rw [hkey, setKey_of_ne hj]
    · -- not written back, so the policy is write-through or the line is clean
      rw [setKey_self]
      intro hd
      cases hw : P.writePolicy with
      | through => exact h.through hw index hi hd
      | back => exact hclean ⟨hw, hd⟩

end Fill

/-! ## Values that run into the next line -/

/-- The next line is whole and the entry after `index` a place for it. Or else it cannot be loaded, and there is nothing
to lose: that entry is empty, or the first byte already fails. -/
def NextSafe (P : CacheParam) (segs : List Segment) (key : Nat → CacheEntry) (mpa index : Nat) : Prop :=
  (Whole P segs (P.pcln mpa + 1) ∧ NextFits P key mpa index) ∨
    (¬ Whole P segs (P.pcln mpa + 1) ∧ index + 1 < P.numKeys ∧
      ((key (index + 1)).status = .empty ∨ ¬ Mapped segs ((P.pcln mpa + 1) * P.lineSize)))

section Next
variable {m : Nat → UInt8} {mpa index : Nat}

theorem NextSafe.index_lt (h : NextSafe P segs c.key mpa index) : index + 1 < P.numKeys := by
  rcases h with ⟨-, h⟩ | ⟨-, h, -⟩
  · exact h.index_lt
  · exact h

theorem nextLine_inBus (hlo : defaultRamBase ≤ mpa) (hhi : mpa < 0xC0001000) : LineInBus P (P.pcln mpa + 1) := by
  have hle := P.lineSize_le
  obtain ⟨h1, -⟩ := lineInBus_pcln (P := P) hlo (by omega)
  have heq := mpa_eq P mpa
  unfold LineInBus
  rw [Nat.add_mul]
  omega

/-- The load of the next line, once the entry has nothing that memory does not have. -/
theorem wp_loadNext {c1 : TaggedCache} (h : Sound P segs c m) (hlo : defaultRamBase ≤ mpa) (hhi : mpa < 0xC0001000)
    (hl : HoldsLine P mpa (c.key index)) (hN : NextSafe P segs c.key mpa index) (hclean : ¬ Dirty (c.key (index + 1)))
    (hsame : ∀ j, SameLine (c1.key j) (c.key j)) (hdata : c1.data = c.data) (hmem : c1.mem = c.mem) :
    (allocate P ((P.pcln mpa + 1) * P.lineSize) .load (index + 1)).wp
      (fun _ c' => Whole P segs (P.pcln mpa + 1) ∧
        ∀ last, Sound P segs { c'.setKey (index + 1) (tag P ((P.pcln mpa + 1) * P.lineSize)) with
          lastAccess := last, mem := countUp 0xC0000020 c'.mem } m ∧
        c'.key = c1.key)
      (fun _ c' => Sound P segs c' m ∧ ¬ Whole P segs (P.pcln mpa + 1)) c1 := by
  have hm : SameBytes m m := fun _ _ _ => rfl
  have hbus := nextLine_inBus (P := P) hlo hhi
  have h1 : Sound P segs c1 m := h.congr hsame hdata (hmem ▸ .rfl) hm
  refine Prog.wp_mono (wp_allocate_fill h1.segments hbus) ?_ ?_
  · rintro - c' ⟨hw, hkey, hmem', hdata'⟩
    rcases hN with ⟨-, hN⟩ | ⟨hnw, -⟩
    · refine ⟨hw, fun last => ⟨?_, hkey⟩⟩
      have honly : OnlyAt P c1.key (index + 1) (P.pcln mpa + 1) := by
        intro j hj hne he
        rw [(hsame j).1.1]
        by_cases hji : j = index
        · subst hji
          rw [hl.2]
          omega
        · exact hN.only j hj hji hne ((hsame j).1.held.1 he)
      have htag := (tag_holds (P := P) hbus.2 (c1.key (index + 1))).1
      have hT : Tagged P (Function.update c1.key (index + 1) (tag P ((P.pcln mpa + 1) * P.lineSize) (c1.key (index + 1)))) :=
        tagged_retag h1.tagged hbus.2 (by rw [pcln_mul]; exact hN.set) (by rw [pcln_mul]; exact honly) (fun j _ => .rfl) _
      have hkey' : (c'.setKey (index + 1) (tag P ((P.pcln mpa + 1) * P.lineSize))).key =
          Function.update c1.key (index + 1) (tag P ((P.pcln mpa + 1) * P.lineSize) (c1.key (index + 1))) := by
        unfold setKey
        rw [hkey]
      have hself : (c'.setKey (index + 1) (tag P ((P.pcln mpa + 1) * P.lineSize))).key (index + 1) =
          tag P ((P.pcln mpa + 1) * P.lineSize) (c1.key (index + 1)) := by
        rw [hkey', Function.update_self]
      rw [HoldsLine, pcln_mul] at htag
      refine h1.refill hN.index_lt hbus honly (fun hd => hclean ((hsame _).dirty.1 hd)) (hkey' ▸ hT) ?_ (fun j hj => ?_)
        (hmem' ▸ sameRam_countUp _ (by decide)) (fun j hj => ?_) hw (fun _ o ho => ?_)
      · dsimp only
        rw [hself]
        exact ⟨htag.1, htag.2, rfl⟩
      · dsimp only
        rw [hkey', Function.update_of_ne hj]
        exact .rfl
      · exact (hdata' j).trans (if_neg hj)
      · refine (hdata' _).trans ?_
        rw [if_pos (by omega), Nat.add_sub_cancel_left]
    · exact absurd hw hnw
  · rintro - c' ⟨hw, hkey, hmem', hdata', hfirst⟩
    rcases hN with ⟨hwhole, -⟩ | ⟨-, -, he | hm0⟩
    · exact absurd hwhole hw
    · exact ⟨h1.scramble hkey hmem' ((hsame _).1.2.2.2 he) hdata', hw⟩
    · exact ⟨h1.congr (fun j => hkey ▸ .rfl) (hfirst hm0) (hmem' ▸ .rfl) hm, hw⟩

/-- After the branch for the next line both lines are held side by side. -/
structure BothHeld (P : CacheParam) (segs : List Segment) (mpa index : Nat) (c : TaggedCache) (m : Nat → UInt8) : Prop where
  sound : Sound P segs c m
  first : HoldsLine P mpa (c.key index)
  next : HoldsLine P ((P.pcln mpa + 1) * P.lineSize) (c.key (index + 1))

theorem wp_fillNext_sound (h : Sound P segs c m) (hlo : defaultRamBase ≤ mpa) (hhi : mpa < 0xC0001000)
    (hl : HoldsLine P mpa (c.key index)) (hN : NextSafe P segs c.key mpa index) :
    (fillNext P mpa (index <<< P.lineShift ||| P.offset mpa)).wp (fun _ c' => BothHeld P segs mpa index c' m)
      (fun _ c' => Sound P segs c' m ∧ ¬ Whole P segs (P.pcln mpa + 1)) c := by
  have hlt := hN.index_lt
  have hbus := nextLine_inBus (P := P) hlo hhi
  -- the rest of the branch, from any state that holds the same lines with the entry clean
  have tail {c1 c2 : TaggedCache} (h1 : Sound P segs c1 m) (htags : ∀ j, SameTags (c1.key j) (c.key j))
      (hclean : ¬ Dirty (c1.key (index + 1))) (hsame : ∀ j, SameLine (c2.key j) (c1.key j)) (hdata : c2.data = c1.data)
      (hmem : c2.mem = c1.mem) :
      (allocate P ((P.pcln mpa + 1) * P.lineSize) .load (index + 1)).wp
        (fun _ c' => BothHeld P segs mpa index { c'.setKey (index + 1) (tag P ((P.pcln mpa + 1) * P.lineSize)) with
          lastAccess := .mustEvict, mem := countUp 0xC0000020 c'.mem } m)
        (fun _ c' => Sound P segs c' m ∧ ¬ Whole P segs (P.pcln mpa + 1)) c2 := by
    have hl1 : HoldsLine P mpa (c1.key index) := ⟨(htags index).held.2 hl.1, (htags index).1.trans hl.2⟩
    have hN1 : NextSafe P segs c1.key mpa index := by
      refine hN.imp (fun ⟨hw, hf⟩ => ⟨hw, hf.index_lt, hf.set, fun j hj hji hjn he => ?_⟩)
        fun ⟨hw, hlt, hlose⟩ => ⟨hw, hlt, hlose.imp_left (htags _).2.2.2⟩
      rw [(htags j).1]
      exact hf.only j hj hji hjn ((htags j).held.1 he)
    refine Prog.wp_mono (wp_loadNext h1 hlo hhi hl1 hN1 hclean hsame hdata hmem) ?_ fun _ _ hc => hc
    rintro - c' ⟨-, hc⟩
    obtain ⟨hsound, hkey⟩ := hc .mustEvict
    refine ⟨hsound, ?_, ?_⟩
    · dsimp only
      rw [setKey_of_ne (by omega), hkey]
      exact ⟨(hsame index).1.held.2 hl1.1, (hsame index).1.1.trans hl1.2⟩
    · dsimp only
      rw [setKey_self]
      exact (tag_holds hbus.2 _).1
  unfold fillNext
  simp only [dataIndex_shiftRight, next_line hhi, Prog.wp_bind, Prog.wp_ite, Prog.wp_undefined, Prog.wp_get,
    Prog.wp_modify, updateStats]
  refine ⟨fun hge => absurd hlt (by omega), fun _ => ⟨fun he => ⟨fun hd => ?_, fun hd => ?_⟩, fun he => ?_⟩⟩
  · -- a dirty line goes back first
    rw [shiftLeft_mod (h.line _ hlt he)]
    refine Prog.wp_mono (wp_writeBack_sound h hlt he rfl rfl) ?_ fun _ _ hf => hf.elim
    rintro - c' ⟨hkey, hsound⟩
    have hs := sameTags_setKey c' (index + 1) (fun ent => { ent with state := stateBits P cacheStateShared }) .rfl
    have hclean : ¬ Dirty ((c'.setKey (index + 1) fun ent => { ent with state := stateBits P cacheStateShared }).key
        (index + 1)) := by
      rw [setKey_self]
      exact shared_ne_modified P
    refine tail (hsound (c'.setKey (index + 1) fun ent => { ent with state := stateBits P cacheStateShared }).key
      (fun j hj => ?_) (hkey ▸ hs (index + 1)) hclean) (fun j => hkey ▸ hs j) hclean (fun j => sameLine_resetLru ..) rfl rfl
    rw [setKey_of_ne hj, hkey]
  · refine tail h (fun j => .rfl) (fun hdirty => ?_) (fun j => sameLine_resetLru ..) rfl rfl
    cases hw : P.writePolicy with
    | through => exact h.through hw _ hlt hdirty
    | back => exact hd ⟨hw, hdirty⟩
  · exact tail h (fun j => .rfl) (h.empty _ hlt (not_not.1 he)) (fun j => .rfl) rfl rfl

end Next

/-! ## Accesses -/

section Access
variable {m : Nat → UInt8} {n mpa index : Nat}

/-- A byte of a line that is held. -/
theorem Sound.byte (h : Sound P segs c m) (hi : index < P.numKeys) {line o : Nat}
    (hheld : (c.key index).status ≠ .empty ∧ (c.key index).pcln = line) (hl : LineInRam P line) (ho : o < P.lineSize) :
    c.data (index * P.lineSize + o) = m (line * P.lineSize + o) := by
  obtain ⟨he, rfl⟩ := hheld
  exact h.data index hi he hl o ho

/-- The load delivers what the plain memory delivers, if it is in RAM below the statistics. -/
theorem wp_loadVal_sound (h : Sound P segs c m) (hlo : defaultRamBase ≤ mpa) (hhi : mpa < 0xC0001000)
    (hi : index < P.numKeys) (hl : HoldsLine P mpa (c.key index)) (h0 : 0 < n)
    (hok : P.offset mpa + n ≤ P.lineSize ∨ (P.offset mpa + n ≤ 2 * P.lineSize ∧ NextSafe P segs c.key mpa index)) :
    (loadVal P n mpa (index <<< P.lineShift ||| P.offset mpa)).wp
      (fun v c' => Sound P segs c' m ∧ (mpa + n ≤ statsBase → v = flatLoad m n mpa))
      (fun _ c' => Sound P segs c' m ∧ P.lineSize < P.offset mpa + n ∧ ¬ Whole P segs (P.pcln mpa + 1)) c := by
  have heq := mpa_eq P mpa
  have hpos := P.lineSize_pos
  have hram (hn : mpa + n ≤ statsBase) : LineInRam P (P.pcln mpa) := lineInRam_pcln hlo (by omega)
  unfold loadVal
  simp only [Prog.wp_bind, Prog.wp_ite, Prog.wp_undefined, Prog.wp_pure, Prog.wp_get]
  by_cases hoff : P.offset mpa + n ≤ P.lineSize
  · have hsize := dataIndex_le hi hoff
    refine ⟨fun hc => absurd hc (not_crosses h0 hoff), fun _ => ⟨fun hf => by omega, fun _ => ⟨h, fun hn => ?_⟩⟩⟩
    refine leValue_congr fun i hin => ?_
    rw [dataIndex_eq, Nat.add_assoc, h.byte hi hl (hram hn) (by omega), ← Nat.add_assoc, heq]
  · obtain ⟨h2, hN⟩ := hok.resolve_left hoff
    have hlt := hN.index_lt
    have hsize : (index <<< P.lineShift ||| P.offset mpa) + n ≤ P.size := by
      have := Nat.mul_le_mul_right P.lineSize (Nat.succ_le_of_lt hlt)
      rw [Nat.succ_mul, Nat.add_mul] at this
      unfold CacheParam.size
      rw [dataIndex_eq]
      omega
    have hcross : Crosses P n (index <<< P.lineShift ||| P.offset mpa) := by
      unfold Crosses
      rw [dataIndex_shiftRight, dataIndex_eq, Nat.shiftRight_eq_div_pow]
      have hge : index + 1 ≤ (index * P.lineSize + P.offset mpa + (n - 1)) / P.lineSize := by
        rw [Nat.le_div_iff_mul_le hpos, Nat.add_mul]
        omega
      show (index * P.lineSize + P.offset mpa + (n - 1)) / P.lineSize ≠ index
      omega
    refine ⟨fun _ => ?_, fun hc => absurd hcross hc⟩
    refine Prog.wp_mono (wp_fillNext_sound h hlo hhi hl hN) ?_ fun _ _ hc => ⟨hc.1, by omega, hc.2⟩
    rintro - c' hb
    refine ⟨fun hf => by omega, fun _ => ⟨hb.sound, fun hn => leValue_congr fun i hin => ?_⟩⟩
    rw [dataIndex_eq]
    by_cases hin1 : P.offset mpa + i < P.lineSize
    · rw [Nat.add_assoc, hb.sound.byte hi hb.first (hram hn) hin1, ← Nat.add_assoc, heq]
    · -- the byte is in the next line, which is in RAM as well
      have hram' : LineInRam P (P.pcln mpa + 1) := by
        have hbus := (lineInBus_pcln (P := P) hlo (by omega)).1
        have hl1 : LineInRam P (P.pcln ((P.pcln mpa + 1) * P.lineSize)) :=
          lineInRam_pcln (by rw [Nat.add_mul]; omega) (by rw [Nat.add_mul]; omega)
        rwa [pcln_mul] at hl1
      have hnext := hb.next
      rw [HoldsLine, pcln_mul] at hnext
      have hd := hb.sound.byte hlt hnext hram' (o := P.offset mpa + i - P.lineSize) (by omega)
      rw [Nat.add_mul, Nat.add_mul] at hd
      rw [show index * P.lineSize + P.offset mpa + i = index * P.lineSize + 1 * P.lineSize + (P.offset mpa + i - P.lineSize) by
        omega, hd]
      exact congrArg m (by omega)

theorem wp_storeVal_bus (hseg : c.mem.segments = segs) (hhi : mpa + n < 0xD0000000) {idx val : Nat} (hsize : idx + n ≤ P.size) :
    (storeVal P n mpa idx val).wp
      (fun _ c' => c'.key = c.key ∧
        (∀ j, c'.data j = if idx ≤ j ∧ j < idx + n then leByte val (j - idx) else c.data j) ∧
        c'.mem.segments = segs ∧ ∀ a, c'.mem.peek a =
          if P.writePolicy = .through ∧ mpa ≤ a ∧ a < mpa + n then leByte val (a - mpa) else c.mem.peek a)
      (fun _ _ => ∃ a, mpa ≤ a ∧ a < mpa + n ∧ ¬ Mapped segs a) c := by
  have hx := P.two_pow_xlen
  unfold storeVal
  simp only [Prog.wp_bind, Prog.wp_ite, Prog.wp_undefined]
  refine ⟨fun hf => by omega, fun _ => ?_⟩
  refine Prog.wp_mono (Prog.wp_forRange (fun i (c' : TaggedCache) => c'.key = c.key ∧
      (∀ j, c'.data j = if idx ≤ j ∧ j < idx + i then leByte val (j - idx) else c.data j) ∧
      c'.mem.segments = segs ∧ ∀ a, c'.mem.peek a =
        if P.writePolicy = .through ∧ mpa ≤ a ∧ a < mpa + i then leByte val (a - mpa) else c.mem.peek a) ?_ ?_)
    (fun _ _ h => h) fun _ _ h => h
  · exact ⟨rfl, fun j => (if_neg (by omega)).symm, hseg, fun a => (if_neg (by omega)).symm⟩
  rintro i s hi ⟨hkey, hdata, hseg', hpeek⟩
  have hdata' : ∀ j, Function.update s.data (idx + i) (leByte val i) j =
      if idx ≤ j ∧ j < idx + (i + 1) then leByte val (j - idx) else c.data j := fun j => by
    by_cases hj : j = idx + i
    · subst hj
      rw [Function.update_self, if_pos (by omega), Nat.add_sub_cancel_left]
    · rw [Function.update_of_ne hj, hdata]
      exact if_congr (by omega) rfl rfl
  simp only [Prog.wp_bind, Prog.wp_modify, Prog.wp_ite, Prog.wp_pure]
  refine ⟨fun ht => ?_, fun ht => ⟨hkey, hdata', hseg', fun a => ?_⟩⟩
  · unfold Prog.wp memStore
    dsimp only
    rw [Nat.mod_eq_of_lt (by omega)]
    by_cases hm : Mapped segs (mpa + i)
    · obtain ⟨m', hstore, hsegm, hp⟩ := store_one (m := s.mem) (a := mpa + i) (by rwa [hseg']) (leByte val i)
      rw [hstore]
      refine ⟨hkey, hdata', hsegm.trans hseg', fun a => ?_⟩
      simp only [hp, hpeek, ht, true_and]
      by_cases ha : a = mpa + i
      · subst ha
        rw [if_pos rfl, if_pos (by omega), Nat.add_sub_cancel_left]
      · rw [if_neg ha]
        exact if_congr (by omega) rfl rfl
    · rw [store_none (by rwa [hseg'])]
      exact ⟨mpa + i, by omega, by omega, hm⟩
  · rw [hpeek]
    exact if_congr (by simp [ht]) rfl rfl

/-- The cache stands for the plain memory after a store to a line that is held. -/
theorem Sound.stored {c' : TaggedCache} {val : Nat} (h : Sound P segs c m) (hi : index < P.numKeys)
    (hl : HoldsLine P mpa (c.key index)) (hoff : P.offset mpa + n ≤ P.lineSize)
    (hown : SameTags (c'.key index) (c.key index)) (hother : ∀ j ≠ index, SameLine (c'.key j) (c.key j))
    (hback : P.writePolicy = .back → Dirty (c'.key index))
    (hthrough : P.writePolicy = .through → (c'.key index).state = (c.key index).state)
    (hdata : ∀ j, c'.data j = if index * P.lineSize + P.offset mpa ≤ j ∧ j < index * P.lineSize + P.offset mpa + n then
      leByte val (j - (index * P.lineSize + P.offset mpa)) else c.data j)
    (hseg : c'.mem.segments = segs)
    (hpeek : ∀ a, c'.mem.peek a = if P.writePolicy = .through ∧ mpa ≤ a ∧ a < mpa + n then leByte val (a - mpa)
      else c.mem.peek a) : Sound P segs c' (flatStore m n mpa val) := by
  have hmpa := mpa_eq P mpa
  have htags : ∀ j, SameTags (c'.key j) (c.key j) := fun j => by
    by_cases hj : j = index
    · exact hj ▸ hown
    · exact (hother j hj).1
  refine ⟨h.tagged.congr htags, hseg, fun i hi he => ?_, fun i hi he => ?_, fun i hi' he hlr o ho => ?_,
    fun a hlo hhi ha hclean => ?_, fun ht i hi => ?_, fun i hi he => ?_⟩
  · rw [(htags i).1]
    exact h.line i hi ((htags i).held.1 he)
  · rw [(htags i).1]
    exact h.whole i hi ((htags i).held.1 he)
  · have he' := (htags i).held.1 he
    rw [(htags i).1] at hlr ⊢
    have hd := h.data i hi' he' hlr
    rw [hdata]
    by_cases hii : i = index
    · subst hii
      rw [hl.2, flatStore]
      by_cases hin : P.offset mpa ≤ o ∧ o < P.offset mpa + n
      · rw [if_pos (by omega), if_pos (by omega)]
        exact congrArg (leByte val) (by omega)
      · rw [if_neg (by omega), if_neg (by omega), hd o ho, hl.2]
    · -- the entry has another line, and its part of `cache_data` is apart
      have hne : (c.key i).pcln ≠ P.pcln mpa := by
        intro hp
        exact hii (h.tagged.unique i hi' index hi he' hl.1 (hp.trans hl.2.symm))
      rw [flatStore_of_ne hoff (by rwa [pcln_byte _ ho]), if_neg, hd o ho]
      rintro ⟨h1, h2⟩
      exact hii (slot_unique ho (by omega) (by omega))
  · rw [hpeek]
    cases hw : P.writePolicy with
    | back =>
      -- the line stored to is dirty, so `a` is in another one
      have hne : P.pcln a ≠ P.pcln mpa := by
        intro hp
        refine hclean index hi (hown.held.2 hl.1) ?_ (hback hw)
        rw [hown.1, hl.2, hp]
      rw [if_neg (by simp), flatStore_of_ne hoff hne]
      refine h.clean a hlo hhi ha fun i hi he hp => ?_
      have hii : i ≠ index := by
        rintro rfl
        exact hne (hp.symm.trans hl.2)
      rw [← (hother i hii).dirty]
      exact hclean i hi ((htags i).held.2 he) (by rw [(htags i).1, hp])
    | through =>
      rw [flatStore]
      simp only [true_and]
      refine if_congr Iff.rfl rfl ?_
      exact h.clean a hlo hhi ha fun i hi _ _ => h.through hw i hi
  · by_cases hii : i = index
    · subst hii
      rw [Dirty, hthrough ht]
      exact h.through ht i hi
    · rw [(hother i hii).dirty]
      exact h.through ht i hi
  · have he' := (htags i).2.2.1 he
    have hii : i ≠ index := by
      rintro rfl
      exact hl.1 he'
    rw [(hother i hii).dirty]
    exact h.empty i hi he'

/-- What a load or store leaves behind its lookup and fill. Only a load of the next line fails. -/
theorem wp_accessCache_sound {op : CacheOp} {val : Nat} (hP : P.writePolicy = .back → 2 ≤ P.lineShift) (h : Sound P segs c m)
    (hlo : defaultRamBase ≤ mpa) (hhi : mpa < 0xC0001000) (h0 : 0 < n) (hwhole : Whole P segs (P.pcln mpa))
    (hok : P.offset mpa + n ≤ P.lineSize ∨ (op = .load ∧ P.offset mpa + n ≤ 2 * P.lineSize ∧
      ∀ index, lookupIndex P c.key mpa = some index → NextSafe P segs c.key mpa index)) :
    (accessCache P n mpa op val).wp
      (fun v c' => Sound P segs c' (flatAccess op m n mpa val) ∧ (op = .load → mpa + n ≤ statsBase → v = flatLoad m n mpa))
      (fun _ c' => Sound P segs c' m ∧ P.lineSize < P.offset mpa + n ∧ ¬ Whole P segs (P.pcln mpa + 1)) c := by
  have hle := P.lineSize_le
  unfold accessCache
  simp only [Prog.wp_bind]
  refine Prog.wp_mono (wp_lookupCacheLine h.tagged (by omega)) ?_ fun _ _ hf => hf.elim
  rintro index c1 ⟨hx, hL⟩
  have hi := hL.index_lt
  refine Prog.wp_mono (wp_fill_sound h hlo (by omega) hwhole hL) ?_ fun _ _ hf => hf.elim
  rintro - c2 hc
  obtain ⟨h2, hl, hother⟩ := hc
  cases op with
  | load =>
    have hok2 : P.offset mpa + n ≤ P.lineSize ∨ (P.offset mpa + n ≤ 2 * P.lineSize ∧ NextSafe P segs c2.key mpa index) := by
      rcases hok with hoff | ⟨-, hoff, hN⟩
      · exact .inl hoff
      refine .inr ⟨hoff, ?_⟩
      -- the other entries are as they were before the fill
      rcases hN index hx with ⟨hw, hf⟩ | ⟨hw, hlt, hlose⟩
      · refine .inl ⟨hw, hf.index_lt, hf.set, fun j hj hji hjn he => ?_⟩
        rw [(hother j hji).1]
        exact hf.only j hj hji hjn ((hother j hji).held.1 he)
      · exact .inr ⟨hw, hlt, hlose.imp_left (hother _ (by omega)).2.2.2⟩
    exact Prog.wp_mono (wp_loadVal_sound h2 hlo hhi hi hl h0 hok2) (fun _ _ hv => ⟨hv.1, fun _ => hv.2⟩) fun _ _ hc => hc
  | store =>
    have hoff : P.offset mpa + n ≤ P.lineSize := by
      rcases hok with hoff | ⟨hf, -⟩
      · exact hoff
      · cases hf
    have hsize : (index <<< P.lineShift ||| P.offset mpa) + n ≤ P.size := dataIndex_le hi hoff
    -- the bytes are in a whole line, so none of them fails
    have hmapped : ¬ ∃ a, mpa ≤ a ∧ a < mpa + n ∧ ¬ Mapped segs a := by
      rintro ⟨a, h1, h2, hm⟩
      have heq := mpa_eq P mpa
      have hbyte := hwhole (a - P.pcln mpa * P.lineSize) (by omega)
      rw [Nat.add_sub_cancel' (by omega)] at hbyte
      exact hm hbyte
    simp only [Prog.wp_bind, Prog.wp_ite, Prog.wp_modify, Prog.wp_pure]
    refine ⟨fun hw => ?_, fun hw => ?_⟩
    · -- write-back marks the entry before it stores
      have hseg2 : (c2.setKey index fun ent => { ent with state := stateBits P cacheStateModified }).mem.segments = segs :=
        h2.segments
      refine Prog.wp_mono (wp_storeVal_bus hseg2 (by omega) hsize) ?_ fun _ _ hc => absurd hc hmapped
      rintro - c' ⟨hkey, hdata, hseg, hpeek⟩
      rw [dataIndex_eq] at hdata
      have hs := sameTags_setKey c2 index (fun ent => { ent with state := stateBits P cacheStateModified }) .rfl
      refine ⟨h2.stored hi hl hoff (hkey ▸ hs index) (fun j hj => ?_) (fun _ => ?_) (fun ht => ?_) hdata hseg hpeek, fun hf => CacheOp.noConfusion hf⟩
      · rw [hkey, setKey_of_ne hj]
        exact .rfl
      · rw [hkey, setKey_self]
        have hpow : 2 ^ 2 ≤ 2 ^ P.lineShift := Nat.pow_le_pow_right (by decide) (hP hw)
        exact Nat.mod_eq_of_lt (by unfold cacheStateModified; omega)
      · rw [hw] at ht
        cases ht
    · refine Prog.wp_mono (wp_storeVal_bus h2.segments (by omega) hsize) ?_ fun _ _ hc => absurd hc hmapped
      rintro - c' ⟨hkey, hdata, hseg, hpeek⟩
      rw [dataIndex_eq] at hdata
      exact ⟨h2.stored hi hl hoff (hkey ▸ .rfl) (fun j _ => hkey ▸ .rfl) (fun ht => absurd ht hw) (fun _ => by rw [hkey])
        hdata hseg hpeek, fun hf => CacheOp.noConfusion hf⟩

/-- A line that is not whole cannot be loaded: it is not held, and its fill fails. -/
theorem wp_fill_notWhole {c0 : TaggedCache} (h : Sound P segs c0 m) (hlo : defaultRamBase ≤ mpa) (hhi : mpa < 0xD0000000)
    (hnot : ¬ Whole P segs (P.pcln mpa)) (hL : Looked P mpa c0 index c) :
    (fill P mpa index).wp (fun _ _ => False) (fun _ _ => True) c := by
  have hi := hL.index_lt
  have hl := lineInBus_pcln (P := P) hlo hhi
  have fails {c1 : TaggedCache} (hseg : c1.mem.segments = segs) :
      (allocate P mpa .load index).wp (fun _ _ => False) (fun _ _ => True) c1 := by
    rw [allocate_masked]
    exact Prog.wp_mono (wp_allocate_fill hseg hl) (fun _ _ hc => hnot hc.1) fun _ _ _ => trivial
  have stats (mem : UserMemory) {a : Nat} (ha : statsBase ≤ a) := (sameRam_countUp mem ha).segments
  unfold fill
  simp only [Prog.wp_bind, Prog.wp_get]
  rcases hL.found with ⟨⟨he, hline⟩, rfl⟩ | ⟨he, rfl⟩ | ⟨⟨he, -⟩, rfl⟩
  · exact absurd (hline ▸ h.whole index hi he) hnot
  · simp only [he, Prog.wp_bind, Prog.wp_modify, updateStats]
    exact fails ((stats _ (by decide)).trans h.segments)
  · simp only [setKey_self, Prog.wp_bind, Prog.wp_modify, Prog.wp_ite, updateStats]
    refine ⟨fun _ => ?_, fun _ => ?_⟩
    · rw [shiftLeft_mod (h.line index hi he)]
      refine Prog.wp_mono (wp_allocate_writeBack (by exact h.segments) (h.line index hi he)) ?_ fun _ _ _ => trivial
      rintro - c' ⟨-, -, -, hseg, -⟩
      exact fails ((stats _ (by decide)).trans ((stats _ (by decide)).trans hseg))
    · exact fails ((stats _ (by decide)).trans ((stats _ (by decide)).trans h.segments))

theorem wp_load_notWhole (h : Sound P segs c m) (hlo : defaultRamBase ≤ mpa) (hhi : mpa < statsBase)
    (hnot : ¬ Whole P segs (P.pcln mpa)) : (load P n mpa).wp (fun _ _ => False) (fun _ _ => True) c := by
  have hb : statsBase = 0xC0000000 := rfl
  have hsize : defaultRamBase + defaultRamSize = 0xC0000028 := rfl
  have hs : Sound P segs { c with mem := countUp 0xC0000000 c.mem } m :=
    h.congr (fun _ => .rfl) rfl (sameRam_countUp _ (by decide)) fun _ _ _ => rfl
  simp only [load, Prog.wp_bind, Prog.wp_ite, Prog.wp_modify, updateStats, accessCache]
  refine ⟨fun hf => by omega, fun _ => ?_⟩
  refine Prog.wp_mono (wp_lookupCacheLine hs.tagged (by omega)) ?_ fun _ _ hf => hf.elim
  rintro index c1 ⟨-, hL⟩
  exact Prog.wp_mono (wp_fill_notWhole hs hlo (by omega) hnot hL) (fun _ _ hf => hf.elim) fun _ _ _ => trivial

end Access

end TaggedCache

end Rv8.Emu
