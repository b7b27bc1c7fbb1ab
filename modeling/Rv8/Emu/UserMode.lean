import Rv8.Emu.StraddlingFetch
/-!
# What user mode can reach

A run of calls of `mmu_soft` that are made from user mode, through tables that user mode
cannot write. The accesses go through the TLBs, which may be warm. `Inv` ties both the TLBs
and the tables to the memory that the run starts from: an entry that is found grants what
the tables grant, and an entry of the tables has changed in its flags A and D at most.
-/

namespace Rv8.Emu

open Rv8.Lib

/-! ## Up to accessed and dirty -/

/-- An entry with A and D set. -/
def setAd (pte : Nat) : Nat := pte ||| adFlags .store

/-- Where a walk ends, of the leaf only `f` of its entry. -/
def WalkEnd.map (f : Nat → Nat) : WalkEnd → WalkEnd
  | .leaf mpa pte level => .leaf mpa (f pte) level
  | .fault => .fault
  | .undefined => .undefined

/-- `f` of an entry says all that a walk looks at. -/
def Tells (ptm : Ptm) (f : Nat → Nat) : Prop := ∀ pte pte', f pte = f pte' → SameLeaf ptm pte' pte

theorem testBit_adFlags {i : Nat} (h : i ≠ pteShiftA ∧ i ≠ pteShiftD) (op : MmuOp) : (adFlags op).testBit i = false := by
  have hA : pteFlagA.testBit i = false := by
    rw [pteFlagA, Nat.one_shiftLeft, Nat.testBit_two_pow]
    simpa using Ne.symm h.1
  have hD : pteFlagD.testBit i = false := by
    rw [pteFlagD, Nat.one_shiftLeft, Nat.testBit_two_pow]
    simpa using Ne.symm h.2
  unfold adFlags
  split
  · rw [Nat.testBit_or, hA, hD, Bool.or_self]
  · rw [Nat.or_zero, hA]

theorem testBit_setAd {i : Nat} (h : i ≠ pteShiftA ∧ i ≠ pteShiftD) (pte : Nat) : (setAd pte).testBit i = pte.testBit i := by
  rw [setAd, Nat.testBit_or, testBit_adFlags h, Bool.or_false]

theorem setAd_or_adFlags (pte : Nat) (op : MmuOp) : setAd (pte ||| adFlags op) = setAd pte := by
  unfold setAd
  rw [Nat.or_assoc]
  cases op <;> rfl

section SetAd
variable {pte pte' : Nat}

theorem testBit_of_setAd (h : setAd pte = setAd pte') {i : Nat} (hi : i ≠ pteShiftA ∧ i ≠ pteShiftD) :
    pte.testBit i = pte'.testBit i := by
  rw [← testBit_setAd hi pte, h, testBit_setAd hi pte']

theorem sameLeaf_of_setAd (ptm : Ptm) (h : setAd pte = setAd pte') : SameLeaf ptm pte' pte := by
  have hbit {i : Nat} (hi : i ≠ pteShiftA ∧ i ≠ pteShiftD) : pte.testBit i = pte'.testBit i := testBit_of_setAd h hi
  refine ⟨?_, ?_, ?_⟩
  · rw [isPointer_iff, isPointer_iff, hbit (by decide), hbit (by decide), hbit (by decide)]
  · unfold IsInvalid
    rw [hbit (by decide), hbit (by decide), hbit (by decide)]
  · rw [← ppn_or_adFlags ptm pte .store, ← ppn_or_adFlags ptm pte' .store]
    exact congrArg ptm.ppn h

theorem tells_setAd (ptm : Ptm) : Tells ptm setAd := fun _ _ => sameLeaf_of_setAd ptm

theorem tells_id (ptm : Ptm) : Tells ptm id := by
  intro pte pte' h
  obtain rfl : pte = pte' := h
  exact ⟨Iff.rfl, Iff.rfl, rfl⟩

theorem SameLeaf.table {ptm : Ptm} (R : Rv) (h : SameLeaf ptm pte pte') : ptm.table pte' R = ptm.table pte R := by
  have hppn := h.ppn
  cases ptm <;> simp only [Ptm.table, hppn]

end SetAd

/-! ## The tables -/

section Tables
variable (R : Rv) (ptm : Ptm) (m : UserMemory)

/-- The entries that a walk reads, with the one that is read after level 0. -/
def consulted (va : Nat) : Nat → Nat → List Nat
  | 0 => visitedTurn R ptm va m (visitedTurn R ptm va m (fun _ => []) (2 ^ R.xlen - 1)) 0
  | level + 1 => visitedTurn R ptm va m (consulted va level) (level + 1)

variable (sptbr : Nat)

/-- The address of an entry that some walk reads. -/
def TableEntry (a : Nat) : Prop :=
  ∃ va < 2 ^ R.xlen, a ∈ consulted R ptm m va (ptm.levels - 1) (rootTable R sptbr)

/-- The tables lead from `va` to the entry at `mpa`. -/
def LeadsTo (va mpa pte level : Nat) : Prop :=
  findFrom R ptm va m (ptm.levels - 1) (rootTable R sptbr) = .leaf mpa pte level

/-- The physical address that an entry gives to `va`. -/
def pagePa (va pte level : Nat) : Nat := pageTranslateOffset R ptm (ptm.ppn pte) va level % 2 ^ R.xlen

/-- `a` is the physical address of a byte that the tables map for user mode, with one of the flags `bits`. -/
def UserMapped (bits : List Nat) (a : Nat) : Prop :=
  ∃ va mpa pte level, va < 2 ^ R.xlen ∧ LeadsTo R ptm m sptbr va mpa pte level ∧ pte.testBit pteShiftU ∧
    (∃ i ∈ bits, pte.testBit i) ∧ a = pagePa R ptm va pte level

/-- The first byte of an entry that maps a page. It holds A and D. -/
def FlagByte (a : Nat) : Prop := ∃ va pte level, va < 2 ^ R.xlen ∧ LeadsTo R ptm m sptbr va a pte level

/-- What user mode can write lies apart from the tables. -/
def TablesGuarded : Prop :=
  ∀ a, TableEntry R ptm m sptbr a → ∀ i < ptm.pteSize, ¬ UserMapped R ptm m sptbr [pteShiftW] (a + i)

end Tables

/-- The entries at some addresses are the same, as far as `f` tells. -/
def SameEntries (ptm : Ptm) (f : Nat → Nat) (m m' : UserMemory) (as : List Nat) : Prop :=
  ∀ a ∈ as, (m'.load ptm.pteSize a).map f = (m.load ptm.pteSize a).map f

section Walks
variable {R : Rv} {ptm : Ptm} {f : Nat → Nat} {va : Nat} {m m' : UserMemory} {mpa pte lvl level table : Nat}

/-- What two memories hold at the entry that a turn reads, and at those that it leads to. -/
theorem SameEntries.cases {next : Nat → List Nat} (hf : Tells ptm f)
    (h : SameEntries ptm f m m' (visitedTurn R ptm va m next level table)) :
    let mpa := pteMpa R ptm va ((ptm.bits * level + pageShift) % 2 ^ R.xlen) table
    (m.load ptm.pteSize mpa = none ∧ m'.load ptm.pteSize mpa = none) ∨
      ∃ pte pte', m.load ptm.pteSize mpa = some pte ∧ m'.load ptm.pteSize mpa = some pte' ∧ f pte' = f pte ∧
        SameLeaf ptm pte pte' ∧ (IsPointer pte → SameEntries ptm f m m' (next (ptm.table pte R))) := by
  intro mpa
  have hhead : (m'.load ptm.pteSize mpa).map f = (m.load ptm.pteSize mpa).map f := h _ List.mem_cons_self
  cases hl : m.load ptm.pteSize mpa with
  | none =>
    rw [hl, Option.map_none, Option.map_eq_none_iff] at hhead
    exact .inl ⟨rfl, hhead⟩
  | some pte =>
    rw [hl, Option.map_some, Option.map_eq_some_iff] at hhead
    obtain ⟨pte', hl', had⟩ := hhead
    refine .inr ⟨pte, pte', rfl, hl', had, hf pte' pte had, fun hp a ha => ?_⟩
    exact h a (List.mem_cons_of_mem _ (by simpa [mpa, hl, hp] using ha))

/-- One turn over entries that are the same. -/
theorem findTurn_sameEntries (hf : Tells ptm f) {next next' : Nat → WalkEnd} {nextV : Nat → List Nat}
    (hnext : ∀ table, SameEntries ptm f m m' (nextV table) → (next' table).map f = (next table).map f)
    (h : SameEntries ptm f m m' (visitedTurn R ptm va m nextV level table)) :
    (findTurn R ptm va m' next' level table).map f = (findTurn R ptm va m next level table).map f := by
  have hentry := h.cases hf
  unfold findTurn
  dsimp only at hentry ⊢
  split
  · rfl
  rcases hentry with ⟨hl, hl'⟩ | ⟨pte, pte', hl, hl', had, hsame, htail⟩
  · rw [hl, hl']
  · rw [hl, hl']
    dsimp only
    simp only [hsame.pointer, hsame.invalid, hsame.ppn, hsame.table R]
    split
    · exact hnext _ (htail ‹_›)
    split
    · rfl
    split
    · rfl
    split
    · rfl
    · exact congrArg (WalkEnd.leaf _ · level) had

/-- The turn after level 0 reads no entry: its shift is out of range. -/
theorem findTurn_last (m : UserMemory) (next : Nat → WalkEnd) : findTurn R ptm va m next (2 ^ R.xlen - 2) table = .undefined := by
  have hshift : R.xlen ≤ (ptm.bits * (2 ^ R.xlen - 2) + pageShift) % 2 ^ R.xlen := by
    cases R <;> cases ptm <;> decide
  unfold findTurn
  exact if_pos hshift

theorem findFrom_sameEntries (hf : Tells ptm f) (h : SameEntries ptm f m m' (consulted R ptm m va level table)) :
    (findFrom R ptm va m' level table).map f = (findFrom R ptm va m level table).map f := by
  induction level generalizing table with
  | zero =>
    refine findTurn_sameEntries hf (fun table h => ?_) h
    refine findTurn_sameEntries hf (fun table _ => ?_) h
    rw [findTurn_last, findTurn_last]
  | succ level ih => exact findTurn_sameEntries hf (fun _ => ih) h

theorem visitedTurn_sameEntries (hf : Tells ptm f) {next next' : Nat → List Nat}
    (hnext : ∀ table, SameEntries ptm f m m' (next table) → next' table = next table)
    (h : SameEntries ptm f m m' (visitedTurn R ptm va m next level table)) :
    visitedTurn R ptm va m' next' level table = visitedTurn R ptm va m next level table := by
  have hentry := h.cases hf
  unfold visitedTurn
  dsimp only at hentry ⊢
  refine congrArg (List.cons _) ?_
  rcases hentry with ⟨hl, hl'⟩ | ⟨pte, pte', hl, hl', had, hsame, htail⟩
  · rw [hl, hl']
  · rw [hl, hl']
    dsimp only
    simp only [hsame.pointer, hsame.table R]
    split
    · exact hnext _ (htail ‹_›)
    · rfl

/-- Walks read the same entries then. -/
theorem consulted_sameEntries (hf : Tells ptm f) (h : SameEntries ptm f m m' (consulted R ptm m va level table)) :
    consulted R ptm m' va level table = consulted R ptm m va level table := by
  induction level generalizing table with
  | zero =>
    refine visitedTurn_sameEntries hf (fun table h => ?_) h
    exact visitedTurn_sameEntries hf (fun _ _ => rfl) h
  | succ level ih => exact visitedTurn_sameEntries hf (fun _ => ih) h

theorem consulted_dvd {a : Nat} (hal : table % 4096 = 0) (h : a ∈ consulted R ptm m va level table) : ptm.pteSize ∣ a := by
  induction level generalizing table with
  | zero =>
    refine mem_visitedTurn h (pteMpa_dvd _ _ _ hal) fun pte ha => ?_
    refine mem_visitedTurn ha (pteMpa_dvd _ _ _ (table_aligned ..)) fun _ hf => ?_
    exact absurd hf List.not_mem_nil
  | succ level ih => exact mem_visitedTurn h (pteMpa_dvd _ _ _ hal) fun _ => ih (table_aligned ..)

theorem leaf_mem_consulted (h : findFrom R ptm va m level table = .leaf mpa pte lvl) : mpa ∈ consulted R ptm m va level table := by
  have hmem := leaf_mem_visited h
  have hsub {next next' : Nat → List Nat} {level table : Nat} (hnext : ∀ table, next table ⊆ next' table) :
      visitedTurn R ptm va m next level table ⊆ visitedTurn R ptm va m next' level table := by
    unfold visitedTurn
    refine List.cons_subset_cons _ ?_
    split
    · split
      · exact hnext _
      · exact List.Subset.refl _
    · exact List.Subset.refl _
  have hall (level table : Nat) : visited R ptm va m level table ⊆ consulted R ptm m va level table := by
    induction level generalizing table with
    | zero => exact hsub fun _ => List.nil_subset _
    | succ level ih => exact hsub ih
  exact hall _ _ hmem

end Walks

/-! ## Memory -/

section Memory
variable {R : Rv} {m m' : UserMemory} {n k a b pte : Nat}

/-- Setting A and D changes the first byte of an entry only. -/
theorem host_store_adFlags {op : MmuOp} {off : Nat} (hl : m.load n a = some pte) (hu : m.uva a = some (k, off)) {k' o : Nat}
    (hne : (k', o) ≠ (k, off)) : (m.write n (pte ||| adFlags op) k off).host k' o = m.host k' o := by
  unfold UserMemory.write
  dsimp only
  split
  · next hin =>
    obtain ⟨rfl, hlo, hhi⟩ := hin
    have hpos : 0 < o - off := by
      rcases Nat.eq_zero_or_pos (o - off) with h0 | h0
      · exact absurd (by rw [show o = off by omega]) hne
      · exact h0
    have hpte : pte = leValue (fun i => m.host k' (off + i)) n := by
      unfold UserMemory.load at hl
      rw [hu] at hl
      exact (Option.some.inj hl).symm
    have hflags : adFlags op >>> (8 * (o - off)) = 0 := by
      refine Nat.shiftRight_eq_zero _ _ (Nat.lt_of_lt_of_le (?_ : _ < 2 ^ 8) (Nat.pow_le_pow_right (by decide) (by omega)))
      cases op <;> decide
    have hbyte : leByte (pte ||| adFlags op) (o - off) = leByte pte (o - off) := by
      unfold leByte
      rw [Nat.shiftRight_or_distrib, hflags, Nat.or_zero]
    rw [hbyte, hpte, leByte_leValue _ (by omega)]
    congr 1
    omega
  · rfl

theorem load_one (hl : m.load n a = some pte) (hn : 0 < n) : m.load 1 a = some (pte % 2 ^ 8) := by
  unfold UserMemory.load at hl ⊢
  obtain ⟨u, hu, rfl⟩ := Option.map_eq_some_iff.1 hl
  obtain ⟨n, rfl⟩ : ∃ n', n = 1 + n' := ⟨n - 1, by omega⟩
  have hlt := leValue_lt (fun i => m.host u.1 (u.2 + i)) 1
  rw [hu, Option.map_some, leValue_add, Nat.shiftLeft_eq, Nat.add_mul_mod_self_right, Nat.mod_eq_of_lt hlt]

/-- The other addresses keep their byte. -/
theorem load_one_store_adFlags {op : MmuOp} (hl : m.load n a = some pte) (hs : m.store n a (pte ||| adFlags op) = some m') (hb : b ≠ a) :
    m'.load 1 b = m.load 1 b := by
  obtain ⟨k, off, hu, rfl⟩ := UserMemory.store_spec hs
  unfold UserMemory.load
  rw [UserMemory.write_uva]
  cases hub : m.uva b with
  | none => rfl
  | some u =>
    rw [Option.map_some, Option.map_some]
    refine congrArg some (leValue_congr fun i hi => host_store_adFlags hl hu ?_)
    obtain rfl : i = 0 := by omega
    rintro h
    obtain ⟨hk, hoff⟩ := Prod.mk.inj h
    obtain ⟨j, seg, rfl, hj, hle, rfl⟩ := mpaToUva_spec hu
    obtain ⟨j', seg', hk', hj', hle', hoff'⟩ := mpaToUva_spec hub
    -- both are in one segment
    obtain rfl : j' = j := by omega
    obtain rfl : seg' = seg := Option.some.inj (hj'.symm.trans hj)
    omega

theorem setAd_mod_or (pte : Nat) (op : MmuOp) : setAd ((pte ||| adFlags op) % 2 ^ 8) = setAd (pte % 2 ^ 8) := by
  have hlt : adFlags op < 2 ^ 8 := by cases op <;> decide
  rw [Nat.or_mod_two_pow, Nat.mod_eq_of_lt hlt, setAd_or_adFlags]

end Memory

/-- A leaf is on a level of the tables. -/
theorem LeadsTo.level_lt {R : Rv} {ptm : Ptm} {m : UserMemory} {sptbr va mpa pte level : Nat}
    (h : LeadsTo R ptm m sptbr va mpa pte level) : level < 4 := by
  have hle := (findFrom_samePage rfl (levels_pred_lt ptm) h).2
  have hlevels : ptm.levels ≤ 4 := by cases ptm <;> decide
  have hlt := levels_pred_lt ptm
  omega

/-! ## Guarded memory -/

/-- What memory may have become: what user mode cannot write is as it was, but for A and D of entries that map a page. -/
structure Guarded (R : Rv) (ptm : Ptm) (m0 : UserMemory) (sptbr : Nat) (m : UserMemory) : Prop where
  segments : m.segments = m0.segments
  entries : ∀ a, TableEntry R ptm m0 sptbr a → (m.load ptm.pteSize a).map setAd = (m0.load ptm.pteSize a).map setAd
  bytes : ∀ a, ¬ UserMapped R ptm m0 sptbr [pteShiftW] a → ¬ FlagByte R ptm m0 sptbr a → m.load 1 a = m0.load 1 a
  flags : ∀ a, ¬ UserMapped R ptm m0 sptbr [pteShiftW] a → (m.load 1 a).map setAd = (m0.load 1 a).map setAd

namespace Guarded

variable {R : Rv} {ptm : Ptm} {m0 m m' : UserMemory} {sptbr va mpa pte level : Nat}

protected theorem refl (R : Rv) (ptm : Ptm) (m0 : UserMemory) (sptbr : Nat) : Guarded R ptm m0 sptbr m0 :=
  ⟨rfl, fun _ _ => rfl, fun _ _ _ => rfl, fun _ _ => rfl⟩

theorem sameEntries (h : Guarded R ptm m0 sptbr m) (hva : va < 2 ^ R.xlen) :
    SameEntries ptm setAd m0 m (consulted R ptm m0 va (ptm.levels - 1) (rootTable R sptbr)) :=
  fun a ha => h.entries a ⟨va, hva, ha⟩

/-- A walk ends at the entry that it ended at before. -/
theorem leadsTo (h : Guarded R ptm m0 sptbr m) (hva : va < 2 ^ R.xlen) (hw : LeadsTo R ptm m sptbr va mpa pte level) :
    ∃ pte0, LeadsTo R ptm m0 sptbr va mpa pte0 level ∧ setAd pte = setAd pte0 := by
  have hend := findFrom_sameEntries (tells_setAd ptm) (h.sameEntries hva)
  unfold LeadsTo at hw ⊢
  rw [hw] at hend
  cases hw0 : findFrom R ptm va m0 (ptm.levels - 1) (rootTable R sptbr) with
  | leaf mpa0 pte0 level0 =>
    rw [hw0] at hend
    obtain ⟨rfl, had, rfl⟩ := WalkEnd.leaf.inj hend
    exact ⟨pte0, rfl, had⟩
  | fault => rw [hw0] at hend; cases hend
  | undefined => rw [hw0] at hend; cases hend

theorem updatePte (h : Guarded R ptm m0 sptbr m) (hva : va < 2 ^ R.xlen) (hw : LeadsTo R ptm m sptbr va mpa pte level) {op : MmuOp}
    (hs : m.store ptm.pteSize mpa (pte ||| adFlags op) = some m') : Guarded R ptm m0 sptbr m' := by
  have hal := (rootTable_spec R sptbr).2
  have hsize : 0 < ptm.pteSize := by cases ptm <;> decide
  obtain ⟨hload, -, hdvd⟩ := findFrom_leaf hal hw
  obtain ⟨pte0, hw0, -⟩ := h.leadsTo hva hw
  have hflag : FlagByte R ptm m0 sptbr mpa := ⟨va, pte0, level, hva, hw0⟩
  have hload' : m'.load ptm.pteSize mpa = some (pte ||| adFlags op) := by
    have h10 : 2 ^ 10 ≤ 2 ^ (8 * ptm.pteSize) := by cases ptm <;> decide
    rw [UserMemory.load_store_self hs, Nat.mod_eq_of_lt]
    exact Nat.or_lt_two_pow (load_lt hload) (Nat.lt_of_lt_of_le (adFlags_lt op) h10)
  refine ⟨?_, ?_, ?_, ?_⟩
  · obtain ⟨k, off, -, rfl⟩ := UserMemory.store_spec hs
    exact h.segments
  · intro a ha
    rw [← h.entries a ha]
    by_cases hne : a = mpa
    · rw [hne, hload', hload, Option.map_some, Option.map_some, setAd_or_adFlags]
    · obtain ⟨va', -, ha⟩ := ha
      rw [UserMemory.load_store_of_ne hs hdvd (consulted_dvd hal ha) hne]
  · intro a hw ha
    rw [← h.bytes a hw ha]
    refine load_one_store_adFlags hload hs ?_
    rintro rfl
    exact ha hflag
  · intro a hw
    rw [← h.flags a hw]
    by_cases hne : a = mpa
    · rw [hne, load_one hload' hsize, load_one hload hsize, Option.map_some, Option.map_some, setAd_mod_or]
    · rw [load_one_store_adFlags hload hs hne]

/-- A store to bytes that user mode can write. -/
theorem store (h : Guarded R ptm m0 sptbr m) (hg : TablesGuarded R ptm m0 sptbr) {n pa val : Nat} (hn : 0 < n)
    (hw : ∀ i < n, UserMapped R ptm m0 sptbr [pteShiftW] (pa + i)) (hs : m.store n pa val = some m') :
    Guarded R ptm m0 sptbr m' := by
  refine ⟨?_, ?_, ?_, ?_⟩
  · obtain ⟨k, off, -, rfl⟩ := UserMemory.store_spec hs
    exact h.segments
  · intro a ha
    have hsize : 0 < ptm.pteSize := by cases ptm <;> decide
    rw [← h.entries a ha, UserMemory.load_store_of_apart hs]
    -- a byte of the entry that is stored to could be written
    by_contra hcon
    rcases Nat.le_total pa a with hle | hle
    · have hbyte := hw (a - pa) (by omega)
      rw [show pa + (a - pa) = a by omega] at hbyte
      exact hg a ha 0 (by omega) hbyte
    · have hbyte := hw 0 (by omega)
      refine hg a ha (pa - a) (by omega) ?_
      rwa [show a + (pa - a) = pa + 0 by omega]
  · intro a hna ha
    rw [← h.bytes a hna ha, UserMemory.load_store_of_apart hs]
    by_contra hcon
    have hbyte := hw (a - pa) (by omega)
    rw [show pa + (a - pa) = a by omega] at hbyte
    exact hna hbyte
  · intro a hna
    rw [← h.flags a hna, UserMemory.load_store_of_apart hs]
    by_contra hcon
    have hbyte := hw (a - pa) (by omega)
    rw [show pa + (a - pa) = a by omega] at hbyte
    exact hna hbyte

end Guarded

/-! ## The TLBs -/

section Tlbs
variable (R : Rv) (ptm : Ptm) (m0 : UserMemory) (sptbr pdid : Nat)

/-- The entry of a TLB and the physical address grant no more than the tables do. -/
def Grants (va : Nat) (ent : TlbEntry) (pa : Nat) : Prop :=
  (∀ i ∈ [pteShiftR, pteShiftW, pteShiftX], ent.pteb.testBit i = false) ∨
    ∃ mpa pte level, level < 4 ∧ LeadsTo R ptm m0 sptbr va mpa pte level ∧
      pa = pageTranslateOffset R ptm (ptm.ppn pte) va level ∧ ∀ i < 5, ent.pteb.testBit i = pte.testBit i

/-- What is found for user mode grants no more than the tables do. -/
def TlbGuarded (tlb : Tlb) : Prop :=
  ∀ va < 2 ^ R.xlen, ∀ ent, tlb.lookup pdid (sptbr >>> R.ppnBits) va = some ent →
    Grants R ptm m0 sptbr va ent (pageTranslateOffset R ptm ent.ppn va ent.ptel)

structure UserInv (s : Mmu UserMemory) : Prop where
  mem : Guarded R ptm m0 sptbr s.mem
  itlb : TlbGuarded R ptm m0 sptbr pdid s.l1Itlb
  dtlb : TlbGuarded R ptm m0 sptbr pdid s.l1Dtlb

end Tlbs

section Lookups
variable {R : Rv} {ptm : Ptm} {m0 : UserMemory} {sptbr pdid va mpa pte level : Nat} {s : Mmu UserMemory}

/-- Empty TLBs grant nothing. -/
theorem tlbGuarded_empty (R : Rv) (ptm : Ptm) (m0 : UserMemory) (sptbr pdid : Nat) : TlbGuarded R ptm m0 sptbr pdid (Tlb.empty R) := by
  intro va _ ent hl
  unfold Tlb.lookup at hl
  dsimp only at hl
  split at hl
  · cases hl
    refine .inl fun i _ => ?_
    exact Nat.zero_testBit i
  · cases hl

theorem UserInv.tlb (h : UserInv R ptm m0 sptbr pdid s) (op : MmuOp) : TlbGuarded R ptm m0 sptbr pdid (s.tlb op) := by
  cases op with
  | fetch => exact h.itlb
  | load | store => exact h.dtlb

/-- The number of a page fits the field of the TLB, as far as addresses go. -/
theorem pageTranslateOffset_ppn (va : Nat) {pte level : Nat} :
    pageTranslateOffset R ptm (ptm.ppn pte % 2 ^ R.ppnBits) va level = pageTranslateOffset R ptm (ptm.ppn pte) va level := by
  have hshift : (ptm.ppn pte % 2 ^ R.ppnBits) <<< pageShift % 2 ^ R.xlen = ptm.ppn pte <<< pageShift % 2 ^ R.xlen := by
    unfold pageShift
    rw [Nat.shiftLeft_eq, Nat.shiftLeft_eq]
    cases R with
    | rv32 =>
      simp only [Rv.ppnBits, Rv.xlen]
      omega
    | rv64 =>
      have hlt : ptm.ppn pte < 2 ^ 38 := by
        unfold Ptm.ppn
        refine Nat.lt_of_lt_of_le (Nat.mod_lt _ (Nat.two_pow_pos _)) (Nat.pow_le_pow_right (by decide) ?_)
        cases ptm <;> decide
      rw [Rv.ppnBits, Nat.mod_eq_of_lt hlt]
  unfold pageTranslateOffset
  dsimp only
  rw [hshift]

/-- What a walk found may be put into a TLB. -/
theorem TlbGuarded.insert {tlb : Tlb} (h : TlbGuarded R ptm m0 sptbr pdid tlb) (hva : va < 2 ^ R.xlen)
    (hw : LeadsTo R ptm m0 sptbr va mpa pte level) {pte' : Nat} (had : setAd pte' = setAd pte) :
    TlbGuarded R ptm m0 sptbr pdid
      (tlb.insert va (Tlb.entry R pdid (sptbr >>> R.ppnBits) va level (pteFlags pte') (ptm.ppn pte'))) := by
  intro va' hva' ent hl
  unfold Tlb.insert Tlb.lookup at hl
  dsimp only at hl
  by_cases hi : Tlb.index va' = Tlb.index va
  · rw [hi, Function.update_self] at hl
    split at hl
    · next hkey =>
      cases hl
      have hpage : va' >>> pageShift = va >>> pageShift := by
        have hvpn : (va >>> pageShift) % 2 ^ Tlb.vpnBits R = va' >>> pageShift := hkey.2.2
        rw [← hvpn]
        refine Nat.mod_eq_of_lt ?_
        rw [Nat.shiftRight_eq_div_pow]
        refine Nat.div_lt_of_lt_mul ?_
        rw [← pow_add]
        refine Nat.lt_of_lt_of_le hva (Nat.pow_le_pow_right (by decide) ?_)
        unfold Tlb.vpnBits
        omega
      have hw' := (findFrom_samePage hpage.symm (levels_pred_lt ptm) hw).1
      refine .inr ⟨mpa, pte, level, hw.level_lt, hw', ?_, ?_⟩
      · show pageTranslateOffset R ptm (ptm.ppn pte' % 2 ^ R.ppnBits) va' (level % 2 ^ 2) = _
        rw [pageTranslateOffset_ppn, (sameLeaf_of_setAd ptm had).ppn, Nat.mod_eq_of_lt (show level < 2 ^ 2 from hw.level_lt)]
      · intro i hi
        show (pteFlags pte' % 2 ^ 10).testBit i = _
        rw [pteFlags, Nat.mod_mod, Nat.testBit_mod_two_pow, decide_eq_true (by omega), Bool.true_and]
        refine testBit_of_setAd had ⟨?_, ?_⟩
        · unfold pteShiftA
          omega
        · unfold pteShiftD
          omega
    · cases hl
  · rw [Function.update_of_ne hi] at hl
    exact h va' hva' ent hl

theorem UserInv.insert (h : UserInv R ptm m0 sptbr pdid s) (hva : va < 2 ^ R.xlen) (hw : LeadsTo R ptm m0 sptbr va mpa pte level)
    {pte' : Nat} (had : setAd pte' = setAd pte) (op : MmuOp) :
    UserInv R ptm m0 sptbr pdid
      (s.setTlb op ((s.tlb op).insert va (Tlb.entry R pdid (sptbr >>> R.ppnBits) va level (pteFlags pte') (ptm.ppn pte')))) := by
  have htlb := (h.tlb op).insert hva hw had
  cases op with
  | fetch => exact ⟨h.mem, htlb, h.dtlb⟩
  | load | store => exact ⟨h.mem, h.itlb, htlb⟩

theorem UserInv.setMem {mem : UserMemory} (h : UserInv R ptm m0 sptbr pdid s) (hm : Guarded R ptm m0 sptbr mem) :
    UserInv R ptm m0 sptbr pdid { s with mem } := ⟨hm, h.itlb, h.dtlb⟩

end Lookups

/-! ## Translation -/

section Translation
variable {R : Rv} {ptm : Ptm} {m0 : UserMemory} {proc : Processor R.xlen} {op : MmuOp} {va : Nat} {s : Mmu UserMemory}

theorem walkPageTable_guarded (hva : va < 2 ^ R.xlen) (h : UserInv R ptm m0 proc.csrs.sptbr.toNat proc.pdid.toNat s) :
    (walkPageTable (mmuSoft R) R ptm proc op va).wlp
      (fun leaf s1 => UserInv R ptm m0 proc.csrs.sptbr.toNat proc.pdid.toNat s1 ∧
        ∃ mpa pte, LeadsTo R ptm m0 proc.csrs.sptbr.toNat va mpa pte leaf.level ∧ setAd leaf.pte = setAd pte ∧
          leaf.pa = pageTranslateOffset R ptm (ptm.ppn pte) va leaf.level)
      (fun _ s1 => UserInv R ptm m0 proc.csrs.sptbr.toNat proc.pdid.toNat s1) s := by
  have hwalk : walkFrom (mmuSoft R) R ptm op va (ptm.levels - 1) (rootTable R proc.csrs.sptbr.toNat) s.mem = _ := walkFrom_eq ..
  cases hf : findFrom R ptm va s.mem (ptm.levels - 1) (rootTable R proc.csrs.sptbr.toNat) with
  | fault =>
    rw [hf] at hwalk
    have hend : walkPageTable (mmuSoft R) R ptm proc op va s = .error (.raise (faultCause op) va) s := onMem_of_error hwalk
    unfold Prog.wlp
    rw [hend]
    exact h
  | undefined =>
    rw [hf] at hwalk
    have hend : walkPageTable (mmuSoft R) R ptm proc op va s = .undefined := onMem_of_undefined hwalk
    unfold Prog.wlp
    rw [hend]
    trivial
  | leaf mpa pte level =>
    rw [hf, finish_leaf] at hwalk
    have hend : walkPageTable (mmuSoft R) R ptm proc op va s = .ok _ { s with mem := _ } := onMem_of_ok hwalk
    unfold Prog.wlp
    rw [hend]
    obtain ⟨pte0, hw0, had⟩ := h.mem.leadsTo hva hf
    refine ⟨h.setMem ?_, mpa, pte0, hw0, ?_, ?_⟩
    · split
      · obtain ⟨m', hm'⟩ := UserMemory.store_of_load (pte ||| adFlags op) (findFrom_leaf (rootTable_spec R _).2 hf).1
        rw [hm', Option.getD_some]
        exact h.mem.updatePte hva hf hm'
      · exact h.mem
    · exact (setAd_or_adFlags pte op).trans had
    · show pageTranslateOffset R ptm (ptm.ppn pte) va level = _
      rw [(sameLeaf_of_setAd ptm had).ppn]

/-- What a translation for user mode leaves and grants. -/
def TranslatedTo (R : Rv) (ptm : Ptm) (m0 : UserMemory) (sptbr pdid va : Nat) (r : Nat × Option TlbEntry) (s : Mmu UserMemory) : Prop :=
  UserInv R ptm m0 sptbr pdid s ∧ (r.1 ≠ 0 → ∃ ent, r.2 = some ent ∧ Grants R ptm m0 sptbr va ent r.1)

theorem tlbMiss_guarded (tlbEnt : Option TlbEntry) (hva : va < 2 ^ R.xlen)
    (h : UserInv R ptm m0 proc.csrs.sptbr.toNat proc.pdid.toNat s) :
    (pageTranslateAddrTlbMiss (mmuSoft R) R ptm proc op va tlbEnt).wlp
      (TranslatedTo R ptm m0 proc.csrs.sptbr.toNat proc.pdid.toNat va)
      (fun _ s1 => UserInv R ptm m0 proc.csrs.sptbr.toNat proc.pdid.toNat s1) s := by
  unfold pageTranslateAddrTlbMiss
  rw [Prog.wlp_bind]
  refine Prog.wlp_mono (walkPageTable_guarded hva h) (fun leaf s1 hleaf => ?_) fun _ _ he => he
  obtain ⟨h1, mpa, pte, hw, had, hpa⟩ := hleaf
  rw [Prog.wlp_ite]
  constructor
  · intro _
    exact ⟨h1, fun h0 => absurd rfl h0⟩
  · intro _
    refine ⟨h1.insert hva hw had op, fun _ => ⟨_, rfl, .inr ⟨mpa, pte, leaf.level, ?_, hw, hpa, ?_⟩⟩⟩
    · exact hw.level_lt
    · intro i hi
      show (pteFlags leaf.pte % 2 ^ 10).testBit i = _
      rw [pteFlags, Nat.mod_mod, Nat.testBit_mod_two_pow, decide_eq_true (by omega), Bool.true_and]
      refine testBit_of_setAd had ⟨?_, ?_⟩
      · unfold pteShiftA
        omega
      · unfold pteShiftD
        omega

theorem wlp_gets {ε σ α : Type} {f : σ → α} {post : α → σ → Prop} {err : ε → σ → Prop} {s : σ} :
    Prog.wlp (.gets f) post err s ↔ post (f s) s := Iff.rfl

theorem translateAddr_guarded (hp : paging R proc op = some ptm) (hva : va < 2 ^ R.xlen)
    (h : UserInv R ptm m0 proc.csrs.sptbr.toNat proc.pdid.toNat s) :
    (translateAddr (mmuSoft R) R proc op va).wlp (TranslatedTo R ptm m0 proc.csrs.sptbr.toNat proc.pdid.toNat va)
      (fun _ s1 => UserInv R ptm m0 proc.csrs.sptbr.toNat proc.pdid.toNat s1) s := by
  rw [translateAddr_paged hp, pageTranslateAddr, Prog.wlp_bind, wlp_gets]
  cases hl : (s.tlb op).lookup proc.pdid.toNat (asid R proc) va with
  | none => exact tlbMiss_guarded none hva h
  | some ent =>
    rw [Prog.wlp_ite]
    constructor
    · intro _
      exact ⟨h, fun _ => ⟨ent, rfl, h.tlb op va hva ent hl⟩⟩
    · intro _
      exact tlbMiss_guarded (some ent) hva h

end Translation

/-! ## Calls -/

/-- A call that is made from user mode, through the tables of `sptbr`. Its address is a `UX`. -/
structure UserStep (R : Rv) (ptm : Ptm) (sptbr pdid : Nat) (step : MmuStep R) : Prop where
  mode : step.proc.mode = .U
  vm : RvVm.ofNat step.proc.vm = some (.paged ptm)
  sptbr : step.proc.csrs.sptbr.toNat = sptbr
  pdid : step.proc.pdid.toNat = pdid
  va : step.call.va < 2 ^ R.xlen
  size : step.call.size ∈ [1, 2, 4, 8]

theorem UserStep.paging {R : Rv} {ptm : Ptm} {sptbr pdid : Nat} {step : MmuStep R} (h : UserStep R ptm sptbr pdid step) (op : MmuOp) :
    paging R step.proc op = some ptm := by
  have hmode : effectiveMode R step.proc op = 0 := by
    simp [effectiveMode, h.mode, RvMode.toNat]
  simp [Emu.paging, hmode, h.vm, RvMode.toNat]

section Places
variable {R : Rv} {ptm : Ptm} {m0 : UserMemory} {sptbr va n i : Nat}

/-- An aligned access stays in its page. -/
theorem add_lt_page (hn : n ∈ [1, 2, 4, 8]) (hal : ¬ Misaligned n va) (hi : i < n) : va % 4096 + i < 4096 := by
  have hmod {k : Nat} (h : ¬ Misaligned (2 ^ k) va) : va % 2 ^ k = 0 := by
    rw [Misaligned, Nat.and_two_pow_sub_one_eq_mod] at h
    exact not_not.1 h
  simp only [List.mem_cons, List.not_mem_nil, or_false] at hn
  rcases hn with rfl | rfl | rfl | rfl
  · omega
  · have := hmod (k := 1) hal
    omega
  · have := hmod (k := 2) hal
    omega
  · have := hmod (k := 3) hal
    omega

theorem xlen_eq (R : Rv) : 2 ^ R.xlen = 4096 * 2 ^ (R.xlen - 12) := by
  cases R <;> rfl

theorem pageTranslateOffset_mod (ppn va : Nat) {level : Nat} (hlevel : level < 4) :
    pageTranslateOffset R ptm ppn va level % 4096 = va % 4096 := by
  have hb : ptm.bits * level ≤ 30 := by
    cases ptm <;> simp only [Ptm.bits] <;> omega
  have hx := two_pow_xlen_le R
  have hs : (ptm.bits * level + pageShift) % 2 ^ R.xlen = 12 + ptm.bits * level := by
    unfold pageShift
    rw [Nat.mod_eq_of_lt (by omega), Nat.add_comm]
  have hpage : (ppn <<< pageShift) % 2 ^ R.xlen % 4096 = 0 := by
    rw [xlen_eq, Nat.mod_mul_right_mod, Nat.shiftLeft_eq]
    exact Nat.mul_mod_left ppn 4096
  unfold pageTranslateOffset
  dsimp only
  rw [hs, Nat.and_two_pow_sub_one_eq_mod, Nat.add_mod, hpage, pow_add, Nat.zero_add, Nat.mod_mod]
  exact Nat.mod_mul_right_mod va 4096 _

theorem pagePa_add {pte level : Nat} (hlevel : level < 4) (h : va % 4096 + i < 4096) :
    pagePa R ptm (va + i) pte level = pagePa R ptm va pte level + i := by
  have hmod : pageTranslateOffset R ptm (ptm.ppn pte) va level % 4096 = va % 4096 := pageTranslateOffset_mod _ _ hlevel
  have hlt := Nat.mod_lt (pageTranslateOffset R ptm (ptm.ppn pte) va level) (Nat.two_pow_pos R.xlen)
  have hpage : pageTranslateOffset R ptm (ptm.ppn pte) va level % 2 ^ R.xlen % 4096 = va % 4096 := by
    rw [xlen_eq, Nat.mod_mul_right_mod, hmod]
  have hx := xlen_eq R
  unfold pagePa
  rw [pageTranslateOffset_samePage hlevel _ h, Nat.add_mod, Nat.mod_eq_of_lt (a := i) (by omega)]
  exact Nat.mod_eq_of_lt (by omega)

/-- The bytes of an aligned access are mapped as its first byte is. -/
theorem userMapped_add {bits : List Nat} {mpa pte level : Nat} (hva : va < 2 ^ R.xlen) (hn : n ∈ [1, 2, 4, 8])
    (hal : ¬ Misaligned n va) (hi : i < n) (hw : LeadsTo R ptm m0 sptbr va mpa pte level) (hu : pte.testBit pteShiftU)
    (hb : ∃ b ∈ bits, pte.testBit b) : UserMapped R ptm m0 sptbr bits (pagePa R ptm va pte level + i) := by
  have hpage := add_lt_page hn hal hi
  have hx := xlen_eq R
  refine ⟨va + i, mpa, pte, level, by omega, ?_, hu, hb, (pagePa_add hw.level_lt hpage).symm⟩
  exact (findFrom_samePage (shiftRight_samePage hpage) (levels_pred_lt ptm) hw).1

end Places

section Calls
variable {R : Rv} {ptm : Ptm} {m0 : UserMemory} {sptbr pdid : Nat} {step : MmuStep R} {s : Mmu UserMemory}

/-- A store that passes the check goes to bytes that user mode can write. -/
theorem Grants.stores {va pa n : Nat} {ent : TlbEntry} {proc : Processor R.xlen} (h : Grants R ptm m0 sptbr va ent pa)
    (hmode : proc.mode = .U) (hf : ¬ storeAccessFault proc proc.mode.toNat (some ent)) (hva : va < 2 ^ R.xlen)
    (hn : n ∈ [1, 2, 4, 8]) (hal : ¬ Misaligned n va) :
    ∀ i < n, UserMapped R ptm m0 sptbr [pteShiftW] (pa % 2 ^ R.xlen + i) := by
  have hbits : ent.pteb.testBit pteShiftW = true ∧ ent.pteb.testBit pteShiftU = true := by
    simpa [storeAccessFault, hmode, RvMode.toNat] using hf
  intro i hi
  rcases h with hnone | ⟨mpa, pte, level, -, hw, rfl, hsame⟩
  · have hfalse := hnone pteShiftW (by decide)
    rw [hbits.1] at hfalse
    cases hfalse
  · refine userMapped_add hva hn hal hi hw ?_ ⟨pteShiftW, List.mem_singleton_self _, ?_⟩
    · rw [← hsame _ (by decide)]
      exact hbits.2
    · rw [← hsame _ (by decide)]
      exact hbits.1

/-- A call that translates its address and then checks the page, where each part keeps the invariant. -/
theorem wlp_translated {α : Type} {c : Prop} [Decidable c] {e : MmuExit} {va : Nat} {t : MmuM UserMemory (Nat × Option TlbEntry)}
    {f : Nat × Option TlbEntry → MmuM UserMemory α} {g : α → MmuResult} {I : Mmu UserMemory → Prop} (h : I s)
    (ht : t.wlp (TranslatedTo R ptm m0 sptbr pdid va) (fun _ => I) s)
    (hf : ¬ c → ∀ r s1, TranslatedTo R ptm m0 sptbr pdid va r s1 → (f r).wlp (fun _ => I) (fun _ => I) s1) :
    ((if c then .throw e else t >>= f) >>= fun a => pure (g a)).wlp (fun _ => I) (fun _ => I) s := by
  rw [Prog.wlp_bind, Prog.wlp_ite, Prog.wlp_bind]
  constructor
  · intro _
    exact h
  · intro hc
    exact Prog.wlp_mono ht (hf hc) fun _ _ he => he

theorem wlp_onMem_read {α : Type} {m : Prog Unit UserMemory α} {e : MmuExit} {I : Mmu UserMemory → Prop} (h : I s)
    (hm : m.wp (fun _ mem => mem = s.mem) (fun _ mem => mem = s.mem) s.mem) :
    (Mmu.onMem m e).wlp (fun _ s1 => s1 = s) (fun _ => I) s := by
  refine Prog.wlp_of_wp (wp_onMem.2 (Prog.wp_mono hm (fun _ mem hmem => ?_) fun _ mem hmem => ?_))
  · rw [hmem]
  · rw [hmem]
    exact h

theorem wlp_onMem_store {n pa val : Nat} {e : MmuExit} (hg : TablesGuarded R ptm m0 sptbr) (h : UserInv R ptm m0 sptbr pdid s)
    (hn : 0 < n) (hw : ∀ i < n, UserMapped R ptm m0 sptbr [pteShiftW] (pa + i)) :
    (Mmu.onMem (UserMemory.busStore n pa val) e).wlp (fun _ => UserInv R ptm m0 sptbr pdid) (fun _ => UserInv R ptm m0 sptbr pdid) s := by
  refine Prog.wlp_of_wp (wp_onMem.2 (wp_store.2 ⟨fun m' hm' => ?_, fun _ => h⟩))
  exact h.setMem (h.mem.store hg hn hw hm')

theorem exec_guarded (hstep : UserStep R ptm sptbr pdid step) (hg : TablesGuarded R ptm m0 sptbr)
    (h : UserInv R ptm m0 sptbr pdid s) :
    (step.exec (mmuSoft R)).wlp (fun _ => UserInv R ptm m0 sptbr pdid) (fun _ => UserInv R ptm m0 sptbr pdid) s := by
  obtain ⟨proc, call⟩ := step
  obtain rfl := hstep.sptbr
  obtain rfl := hstep.pdid
  have hva := hstep.va
  have hsize := hstep.size
  have hpos : 0 < call.size := by
    simp only [List.mem_cons, List.not_mem_nil, or_false] at hsize
    omega
  have ht := translateAddr_guarded (hstep.paging call.op) hva h
  cases call with
  | instFetch pc pcOffset =>
    refine wlp_translated h ht fun hal r s1 hr => ?_
    rw [Prog.wlp_ite, Prog.wlp_ite]
    refine ⟨fun _ => hr.1, fun _ => ⟨fun _ => hr.1, fun _ => ?_⟩⟩
    exact Prog.wlp_mono (wlp_onMem_read hr.1 (wp_softInstBytes ..)) (fun _ _ he => he ▸ hr.1) fun _ _ he => he
  | load n va val =>
    refine wlp_translated h ht fun hal r s1 hr => ?_
    rw [Prog.wlp_ite, Prog.wlp_ite]
    refine ⟨fun _ => hr.1, fun _ => ⟨fun _ => hr.1, fun _ => ?_⟩⟩
    exact Prog.wlp_mono (wlp_onMem_read hr.1 (wp_busLoad ..)) (fun _ _ he => he ▸ hr.1) fun _ _ he => he
  | store n va val =>
    refine wlp_translated h ht fun hal r s1 hr => ?_
    rw [Prog.wlp_ite, Prog.wlp_ite]
    refine ⟨fun _ => hr.1, fun h0 => ⟨fun _ => hr.1, fun hf => ?_⟩⟩
    obtain ⟨ent, hent, hgr⟩ := hr.2 h0
    rw [hent] at hf
    exact wlp_onMem_store hg hr.1 hpos (hgr.stores hstep.mode hf hva hsize hal)
  | amo n aop va val1 val2 =>
    refine wlp_translated h ht fun hal r s1 hr => ?_
    rw [Prog.wlp_ite, Prog.wlp_ite]
    refine ⟨fun _ => hr.1, fun h0 => ⟨fun _ => hr.1, fun _ => ?_⟩⟩
    rw [Prog.wlp_bind]
    refine Prog.wlp_mono (wlp_onMem_read hr.1 (wp_busLoad ..)) (fun v s2 hs2 => ?_) fun _ _ he => he
    subst hs2
    rw [Prog.wlp_ite, Prog.wlp_bind]
    refine ⟨fun _ => hr.1, fun hf => ?_⟩
    obtain ⟨ent, hent, hgr⟩ := hr.2 h0
    rw [hent] at hf
    exact wlp_onMem_store hg hr.1 hpos (hgr.stores hstep.mode hf hva hsize hal)

/-- Whatever is run from user mode, the invariant holds after it. -/
theorem run_guarded {steps : List (MmuStep R)} (hsteps : ∀ step ∈ steps, UserStep R ptm sptbr pdid step)
    (hg : TablesGuarded R ptm m0 sptbr) (h : UserInv R ptm m0 sptbr pdid s) :
    (MmuStep.run (mmuSoft R) steps).wlp (fun _ => UserInv R ptm m0 sptbr pdid) (fun _ _ => False) s := by
  induction steps generalizing s with
  | nil => exact h
  | cons step steps ih =>
    have hexec := exec_guarded (hsteps step List.mem_cons_self) hg h
    have hrest {s1 : Mmu UserMemory} (h1 : UserInv R ptm m0 sptbr pdid s1) (r : Except MmuExit MmuResult) :
        (MmuStep.run (mmuSoft R) steps >>= fun rs => pure (r :: rs)).wlp (fun _ => UserInv R ptm m0 sptbr pdid)
          (fun _ _ => False) s1 := by
      rw [Prog.wlp_bind]
      exact ih (fun step hstep => hsteps step (List.mem_cons_of_mem _ hstep)) h1
    rw [MmuStep.run, Prog.wlp_bind, Prog.wlp_attempt]
    refine Prog.wlp_mono hexec (fun r s1 h1 => hrest h1 _) fun e s1 h1 => ?_
    cases e with
    | raise cause badaddr => exact hrest h1 _
    | panic => exact h1

end Calls

/-! ## A user with one gigapage -/

/-- Three pages of RAM. The first holds an sv39 root table, whose first entry maps the gigabyte of the second for user mode. -/
def userRam : UserMemory :=
  (UserMemory.mk [⟨0x80000000, 0x1000⟩, ⟨0x40000000, 0x1000⟩, ⟨0xa0000000, 0x1000⟩] fun _ _ => 0).write 8
    (0x40000 <<< 10 ||| 0x17) 0 0

def user (ppn : BitVec 64) : Processor 64 := { supervisor ppn with mode := .U }

section UserRam
variable {va mpa pte level : Nat}

theorem userRam_load {idx : Nat} (h : idx < 512) :
    userRam.load 8 (0x80000000 + idx * 8) = some (if idx = 0 then 0x10000017 else 0) := by
  by_cases h0 : idx = 0
  · subst h0
    decide +kernel
  · have hstore : (UserMemory.mk [⟨0x80000000, 0x1000⟩, ⟨0x40000000, 0x1000⟩, ⟨0xa0000000, 0x1000⟩] fun _ _ => 0).store 8 0x80000000
        (0x40000 <<< 10 ||| 0x17) = some userRam := rfl
    have hholds : Segment.Holds ⟨0x80000000, 0x1000⟩ (0x80000000 + idx * 8) := ⟨by simp, .inl (by simp; omega)⟩
    rw [UserMemory.load_store_of_ne hstore (by decide) (by omega) (by omega), if_neg h0]
    simp [UserMemory.load, UserMemory.uva, mpaToUva, hholds, leValue]

theorem userRam_uva (a : Nat) : userRam.uva a =
    if 0x80000000 ≤ a ∧ a < 0x80001000 then some (0, a - 0x80000000)
    else if 0x40000000 ≤ a ∧ a < 0x40001000 then some (1, a - 0x40000000)
    else if 0xa0000000 ≤ a ∧ a < 0xa0001000 then some (2, a - 0xa0000000) else none := by
  simp [UserMemory.uva, userRam, UserMemory.write, mpaToUva, Segment.Holds]

theorem userRam_low {a : Nat} (h : a < 4096) : userRam.load 8 a = none := by
  unfold UserMemory.load
  rw [userRam_uva, if_neg (by omega), if_neg (by omega), if_neg (by omega), Option.map_none]

theorem userRam_entry (va : Nat) :
    ∃ idx < 512, pteMpa .rv64 .sv39 va ((Ptm.sv39.bits * 2 + pageShift) % 2 ^ Rv.xlen .rv64) (rootTable .rv64 0x80000) = 0x80000000 + idx * 8 := by
  have hroot : rootTable .rv64 0x80000 = 0x80000000 := by decide
  have hidx : va >>> ((Ptm.sv39.bits * 2 + pageShift) % 2 ^ Rv.xlen .rv64) &&& (2 ^ Ptm.sv39.bits - 1) < 512 := by
    rw [Nat.and_two_pow_sub_one_eq_mod]
    exact Nat.mod_lt _ (by decide)
  refine ⟨_, hidx, ?_⟩
  unfold pteMpa
  rw [hroot]
  generalize va >>> _ &&& _ = idx at hidx ⊢
  refine Nat.mod_eq_of_lt ?_
  show 0x80000000 + idx * 8 < 2 ^ 64
  omega

theorem userRam_next (va : Nat) : pteMpa .rv64 .sv39 va ((Ptm.sv39.bits * 1 + pageShift) % 2 ^ Rv.xlen .rv64) (Ptm.sv39.table 0 .rv64) < 4096 := by
  have hidx : va >>> ((Ptm.sv39.bits * 1 + pageShift) % 2 ^ Rv.xlen .rv64) &&& (2 ^ Ptm.sv39.bits - 1) < 512 := by
    rw [Nat.and_two_pow_sub_one_eq_mod]
    exact Nat.mod_lt _ (by decide)
  have htable : Ptm.sv39.table 0 .rv64 = 0 := by decide
  unfold pteMpa
  rw [htable, Nat.zero_add]
  refine Nat.lt_of_le_of_lt (Nat.mod_le _ _) ?_
  simp only [Ptm.pteSize]
  omega

theorem userRam_tableEntry {a : Nat} (h : TableEntry .rv64 .sv39 userRam 0x80000 a) : a < 4096 ∨ (0x80000000 ≤ a ∧ a < 0x80001000) := by
  obtain ⟨va, -, ha⟩ := h
  obtain ⟨idx, hlt, hmpa⟩ := userRam_entry va
  have hload : userRam.load Ptm.sv39.pteSize (0x80000000 + idx * 8) = _ := userRam_load hlt
  have ha : a ∈ visitedTurn .rv64 .sv39 va userRam (consulted .rv64 .sv39 userRam va 1) 2 (rootTable .rv64 0x80000) := ha
  unfold visitedTurn at ha
  dsimp only at ha
  rw [hmpa, hload] at ha
  rcases List.mem_cons.1 ha with rfl | ha
  · exact .inr ⟨by omega, by omega⟩
  · dsimp only at ha
    by_cases h0 : idx = 0
    · rw [if_pos h0, if_neg (by decide)] at ha
      cases ha
    · rw [if_neg h0, if_pos (by decide)] at ha
      have ha : a ∈ visitedTurn .rv64 .sv39 va userRam (consulted .rv64 .sv39 userRam va 0) 1 (Ptm.sv39.table 0 .rv64) := ha
      have hnone : userRam.load Ptm.sv39.pteSize _ = none := userRam_low (userRam_next va)
      unfold visitedTurn at ha
      dsimp only at ha
      rw [hnone] at ha
      rcases List.mem_cons.1 ha with rfl | ha
      · exact .inl (userRam_next va)
      · cases ha

theorem userRam_leadsTo (h : LeadsTo .rv64 .sv39 userRam 0x80000 va mpa pte level) :
    mpa = 0x80000000 ∧ pte = 0x10000017 ∧ level = 2 := by
  obtain ⟨idx, hlt, hmpa⟩ := userRam_entry va
  have hload : userRam.load Ptm.sv39.pteSize (0x80000000 + idx * 8) = _ := userRam_load hlt
  have h : findTurn .rv64 .sv39 va userRam (findFrom .rv64 .sv39 va userRam 1) 2 (rootTable .rv64 0x80000) = .leaf mpa pte level := h
  unfold findTurn at h
  dsimp only at h
  rw [if_neg (by decide), hmpa, hload] at h
  dsimp only at h
  by_cases h0 : idx = 0
  · rw [if_pos h0, if_neg (by decide), if_neg (by decide), if_neg (by decide), if_neg (by decide)] at h
    obtain ⟨rfl, rfl, rfl⟩ := WalkEnd.leaf.inj h
    subst h0
    exact ⟨rfl, rfl, rfl⟩
  · rw [if_neg h0, if_pos (by decide)] at h
    have h : findTurn .rv64 .sv39 va userRam (findFrom .rv64 .sv39 va userRam 0) 1 (Ptm.sv39.table 0 .rv64) = .leaf mpa pte level := h
    have hnone : userRam.load Ptm.sv39.pteSize _ = none := userRam_low (userRam_next va)
    unfold findTurn at h
    dsimp only at h
    rw [if_neg (by decide), hnone] at h
    cases h

theorem userRam_mapped {bits : List Nat} {a : Nat} (h : UserMapped .rv64 .sv39 userRam 0x80000 bits a) :
    0x40000000 ≤ a ∧ a < 0x80000000 := by
  obtain ⟨va, mpa, pte, level, -, hw, -, -, rfl⟩ := h
  obtain ⟨-, rfl, rfl⟩ := userRam_leadsTo hw
  have hpage : pagePa .rv64 .sv39 va 0x10000017 2 = 0x40000000 + va % 2 ^ 30 := by
    have hppn : (Ptm.sv39.ppn 0x10000017 <<< pageShift) % 2 ^ Rv.xlen .rv64 = 0x40000000 := by decide
    have hshift : (Ptm.sv39.bits * 2 + pageShift) % 2 ^ Rv.xlen .rv64 = 30 := by decide
    unfold pagePa pageTranslateOffset
    dsimp only
    rw [hppn, hshift, Nat.and_two_pow_sub_one_eq_mod]
    exact Nat.mod_eq_of_lt (by simp only [Rv.xlen]; omega)
  rw [hpage]
  omega

theorem userRam_guarded : TablesGuarded .rv64 .sv39 userRam 0x80000 := by
  intro a ha i hi hmapped
  have hi : i < 8 := hi
  have hrange := userRam_mapped hmapped
  rcases userRam_tableEntry ha with h | h <;> omega

end UserRam

def userStore : MmuStep .rv64 := ⟨user 0x80000, .store 8 8 (2 ^ 64 - 1)⟩

theorem userStep_userStore : UserStep .rv64 .sv39 0x80000 0 userStore := ⟨rfl, rfl, rfl, rfl, by decide, by decide⟩

end Rv8.Emu
