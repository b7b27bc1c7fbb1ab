import Rv8.Emu.Walk
/-!
# The accessed and dirty flags

An access that goes through the page tables leaves the accessed flag of its leaf
set, and the dirty flag if it stores. The walk takes care of that. A hit in the TLB
need not: `page_translate_addr` uses an entry whose flags are *not* up to date and
walks again where they are. `HitOk` says when no such entry is found.
-/

namespace Rv8.Emu

open Rv8.Lib

/-! ## Walking again -/

section Again
variable {R : Rv} {ptm : Ptm} {va : Nat} {m m' : UserMemory} {mpa pte pte' lvl level table : Nat}

/-- The addresses of the entries read down to level 0. -/
def visitedTurn (R : Rv) (ptm : Ptm) (va : Nat) (m : UserMemory) (next : Nat → List Nat) (level table : Nat) : List Nat :=
  let mpa := pteMpa R ptm va ((ptm.bits * level + pageShift) % 2 ^ R.xlen) table
  mpa ::
    match m.load ptm.pteSize mpa with
    | some pte => if IsPointer pte then next (ptm.table pte R) else []
    | none => []

def visited (R : Rv) (ptm : Ptm) (va : Nat) (m : UserMemory) : Nat → Nat → List Nat
  | 0 => visitedTurn R ptm va m (fun _ => []) 0
  | level + 1 => visitedTurn R ptm va m (visited R ptm va m level) (level + 1)

/-- Entries that are the same but for their flags A and D. -/
structure SameLeaf (ptm : Ptm) (pte pte' : Nat) : Prop where
  pointer : IsPointer pte' ↔ IsPointer pte
  invalid : IsInvalid pte' ↔ IsInvalid pte
  ppn : ptm.ppn pte' = ptm.ppn pte

theorem sameLeaf_or_adFlags (ptm : Ptm) (pte : Nat) (op : MmuOp) : SameLeaf ptm pte (pte ||| adFlags op) := by
  have hbit (i : Nat) (hi : (adFlags op).testBit i = false) : (pte ||| adFlags op).testBit i = pte.testBit i := by
    rw [Nat.testBit_or, hi, Bool.or_false]
  have hV := hbit pteShiftV (by cases op <;> decide)
  have hR := hbit pteShiftR (by cases op <;> decide)
  have hW := hbit pteShiftW (by cases op <;> decide)
  have hX := hbit pteShiftX (by cases op <;> decide)
  refine ⟨?_, ?_, ppn_or_adFlags ptm pte op⟩
  · rw [isPointer_iff, isPointer_iff, hR, hW, hX]
  · unfold IsInvalid
    rw [hV, hR, hW]

theorem pteMpa_dvd (ptm : Ptm) (va shift : Nat) (hal : table % 4096 = 0) :
    ptm.pteSize ∣ pteMpa R ptm va shift table := by
  have h1 : ptm.pteSize ∣ 2 ^ R.xlen := by cases R <;> cases ptm <;> decide
  have h2 : ptm.pteSize ∣ 4096 := by cases ptm <;> decide
  unfold pteMpa
  rw [Nat.dvd_mod_iff h1]
  exact Nat.dvd_add (h2.trans (Nat.dvd_of_mod_eq_zero hal)) (Nat.dvd_mul_left ..)

theorem table_aligned (ptm : Ptm) (R : Rv) (pte : Nat) : ptm.table pte R % 4096 = 0 := by
  have hx : 4096 ∣ 2 ^ R.xlen := by cases R <;> decide
  have hs : (ptm.ppn pte <<< pageShift) % 4096 = 0 := by
    rw [Nat.shiftLeft_eq]
    exact Nat.mul_mod_left ..
  cases ptm with
  | sv32 =>
    have h32 : (BitVec.ofNat 32 (Ptm.sv32.ppn pte <<< pageShift)).toNat % 4096 = 0 := by
      rw [BitVec.toNat_ofNat, Nat.mod_mod_of_dvd _ (by decide)]
      exact hs
    show ((BitVec.ofNat 32 _).signExtend R.xlen).toNat % 4096 = 0
    rw [BitVec.toNat_signExtend, BitVec.toNat_setWidth, Nat.add_mod, Nat.mod_mod_of_dvd _ hx, h32]
    cases R <;> split <;> rfl
  | sv39 => exact (Nat.mod_mod_of_dvd _ hx).trans hs
  | sv48 => exact (Nat.mod_mod_of_dvd _ hx).trans hs

theorem findWrapped_ne_leaf : findWrapped R ptm va m table ≠ .leaf mpa pte lvl := by
  rw [findWrapped_eq]
  split
  · simp
  · split <;> simp

/-- A turn that ends at a leaf has found it itself or went on from a pointer. -/
theorem findTurn_leaf {next : Nat → WalkEnd} (h : findTurn R ptm va m next level table = .leaf mpa pte lvl) :
    ∃ ent, m.load ptm.pteSize (pteMpa R ptm va ((ptm.bits * level + pageShift) % 2 ^ R.xlen) table) = some ent ∧
      ((IsPointer ent ∧ next (ptm.table ent R) = .leaf mpa pte lvl) ∨
        (¬ IsPointer ent ∧ ent = pte ∧ mpa = pteMpa R ptm va ((ptm.bits * level + pageShift) % 2 ^ R.xlen) table)) := by
  unfold findTurn at h
  dsimp only at h
  split at h
  · cases h
  split at h
  · cases h
  rename_i ent hl
  refine ⟨ent, hl, ?_⟩
  by_cases hp : IsPointer ent
  · rw [if_pos hp] at h
    exact .inl ⟨hp, h⟩
  rw [if_neg hp] at h
  split at h
  · cases h
  split at h
  · cases h
  split at h
  · cases h
  obtain ⟨rfl, rfl, -⟩ := WalkEnd.leaf.inj h
  exact .inr ⟨hp, rfl, rfl⟩

/-- What a walk that ends at a leaf has read there. -/
theorem findFrom_leaf (hal : table % 4096 = 0) (h : findFrom R ptm va m level table = .leaf mpa pte lvl) :
    m.load ptm.pteSize mpa = some pte ∧ ¬ IsPointer pte ∧ ptm.pteSize ∣ mpa := by
  induction level generalizing table with
  | zero =>
    obtain ⟨ent, hl, ⟨-, hw⟩ | ⟨hp, rfl, rfl⟩⟩ := findTurn_leaf h
    · exact absurd hw findWrapped_ne_leaf
    · exact ⟨hl, hp, pteMpa_dvd _ _ _ hal⟩
  | succ level ih =>
    obtain ⟨ent, hl, ⟨-, hw⟩ | ⟨hp, rfl, rfl⟩⟩ := findTurn_leaf h
    · exact ih (table_aligned ..) hw
    · exact ⟨hl, hp, pteMpa_dvd _ _ _ hal⟩

theorem mem_visitedTurn {next : Nat → List Nat} {a : Nat} {good : Nat → Prop}
    (h : a ∈ visitedTurn R ptm va m next level table)
    (hhead : good (pteMpa R ptm va ((ptm.bits * level + pageShift) % 2 ^ R.xlen) table))
    (hnext : ∀ pte, a ∈ next (ptm.table pte R) → good a) : good a := by
  unfold visitedTurn at h
  obtain rfl | h := List.mem_cons.1 h
  · exact hhead
  split at h
  · split at h
    · exact hnext _ h
    · cases h
  · cases h

theorem visited_dvd {a : Nat} (hal : table % 4096 = 0) (h : a ∈ visited R ptm va m level table) :
    ptm.pteSize ∣ a := by
  induction level generalizing table with
  | zero => exact mem_visitedTurn h (pteMpa_dvd _ _ _ hal) fun _ hf => absurd hf List.not_mem_nil
  | succ level ih => exact mem_visitedTurn h (pteMpa_dvd _ _ _ hal) fun _ => ih (table_aligned ..)

theorem leaf_mem_visited (h : findFrom R ptm va m level table = .leaf mpa pte lvl) :
    mpa ∈ visited R ptm va m level table := by
  have hcons {next : Nat → List Nat} {level table ent : Nat}
      (hl : m.load ptm.pteSize (pteMpa R ptm va ((ptm.bits * level + pageShift) % 2 ^ R.xlen) table) = some ent)
      (hp : IsPointer ent) (ha : mpa ∈ next (ptm.table ent R)) : mpa ∈ visitedTurn R ptm va m next level table :=
    List.mem_cons_of_mem _ (by simpa [hl, hp] using ha)
  induction level generalizing table with
  | zero =>
    obtain ⟨ent, hl, ⟨-, hw⟩ | ⟨-, -, rfl⟩⟩ := findTurn_leaf h
    · exact absurd hw findWrapped_ne_leaf
    · exact List.mem_cons_self
  | succ level ih =>
    obtain ⟨ent, hl, ⟨hp, hw⟩ | ⟨-, -, rfl⟩⟩ := findTurn_leaf h
    · exact hcons hl hp (ih hw)
    · exact List.mem_cons_self

theorem findTurn_congr {next next' : Nat → WalkEnd} {nextV : Nat → List Nat} (hmpa : m.load ptm.pteSize mpa = some pte)
    (hp : ¬ IsPointer pte) (hleaf : m'.load ptm.pteSize mpa = some pte') (hsame : SameLeaf ptm pte pte')
    (hnext : ∀ table, (∀ a ∈ nextV table, a ≠ mpa → m'.load ptm.pteSize a = m.load ptm.pteSize a) →
      next table = .leaf mpa pte lvl → next' table = .leaf mpa pte' lvl)
    (hlinks : ∀ a ∈ visitedTurn R ptm va m nextV level table, a ≠ mpa → m'.load ptm.pteSize a = m.load ptm.pteSize a)
    (h : findTurn R ptm va m next level table = .leaf mpa pte lvl) :
    findTurn R ptm va m' next' level table = .leaf mpa pte' lvl := by
  obtain ⟨ent, hl, ⟨hptr, hw⟩ | ⟨-, rfl, hE⟩⟩ := findTurn_leaf h
  · -- the entry read here is a pointer, so it is not the leaf and has not changed
    have hE : pteMpa R ptm va ((ptm.bits * level + pageShift) % 2 ^ R.xlen) table ≠ mpa := by
      rintro rfl
      exact hp (Option.some.inj (hmpa.symm.trans hl) ▸ hptr)
    have hl' := (hlinks _ List.mem_cons_self hE).trans hl
    have hw' := hnext _ (fun a ha => hlinks a (List.mem_cons_of_mem _ (by simpa [hl, hptr] using ha))) hw
    unfold findTurn at h ⊢
    simp only [hl, hl', hptr, if_true] at h ⊢
    split
    · rename_i hx
      simp [hx] at h
    · exact hw'
  · subst hE
    unfold findTurn at h ⊢
    simp only [hmpa, hleaf, hsame.pointer, hsame.invalid, hsame.ppn, hp, if_false] at h ⊢
    split_ifs at h ⊢
    obtain ⟨-, -, rfl⟩ := WalkEnd.leaf.inj h
    rfl

/-- A walk ends where it did, as long as the pointers on its way stand and the leaf has kept its place. -/
theorem findFrom_congr (hal : table % 4096 = 0) (hleaf : m'.load ptm.pteSize mpa = some pte') (hsame : SameLeaf ptm pte pte')
    (hlinks : ∀ a ∈ visited R ptm va m level table, a ≠ mpa → m'.load ptm.pteSize a = m.load ptm.pteSize a)
    (h : findFrom R ptm va m level table = .leaf mpa pte lvl) :
    findFrom R ptm va m' level table = .leaf mpa pte' lvl := by
  obtain ⟨hmpa, hp, -⟩ := findFrom_leaf hal h
  clear hal
  induction level generalizing table with
  | zero => exact findTurn_congr hmpa hp hleaf hsame (fun _ _ hw => absurd hw findWrapped_ne_leaf) hlinks h
  | succ level ih => exact findTurn_congr hmpa hp hleaf hsame (fun _ => ih) hlinks h

end Again

/-! ## Translation -/

section Translation
variable {R : Rv} {ptm : Ptm} {proc : Processor R.xlen} {op : MmuOp} {va : Nat} {s s1 : Mmu UserMemory}

theorem or_and_self (a b : Nat) : (a ||| b) &&& b = b := by
  refine Nat.eq_of_testBit_eq fun i => ?_
  rw [Nat.testBit_and, Nat.testBit_or]
  cases a.testBit i <;> cases b.testBit i <;> rfl

theorem load_lt {m : UserMemory} {n a v : Nat} (h : m.load n a = some v) : v < 2 ^ (8 * n) := by
  unfold UserMemory.load at h
  obtain ⟨u, -, rfl⟩ := Option.map_eq_some_iff.1 h
  exact leValue_lt ..

theorem onMem_ok {α : Type} {m : Prog Unit UserMemory α} {e : MmuExit} {a : α} (h : Mmu.onMem m e s = .ok a s1) :
    ∃ mem, m s.mem = .ok a mem ∧ s1 = { s with mem } := by
  unfold Mmu.onMem Prog.onError Prog.zoom at h
  cases hm : m s.mem with
  | ok b mem =>
    rw [hm] at h
    obtain ⟨rfl, rfl⟩ := Outcome.ok.inj h
    exact ⟨mem, rfl, rfl⟩
  | error e' mem => rw [hm] at h; cases h
  | undefined => rw [hm] at h; cases h

/-- The tables lead to this entry. -/
def LeafPte (R : Rv) (ptm : Ptm) (va sptbr : Nat) (m : UserMemory) (pte : Nat) : Prop :=
  ∃ mpa level, findFrom R ptm va m (ptm.levels - 1) (rootTable R sptbr) = .leaf mpa pte level

/-- A walk leaves the flags of the leaf up to date, in memory too. -/
theorem walkPageTable_ok {leaf : Leaf} (h : walkPageTable (mmuSoft R) R ptm proc op va s = .ok leaf s1) :
    (∃ mem, s1 = { s with mem }) ∧ leaf.pte &&& adFlags op = adFlags op ∧
      LeafPte R ptm va proc.csrs.sptbr.toNat s1.mem leaf.pte := by
  have hal := (rootTable_spec R proc.csrs.sptbr.toNat).2
  obtain ⟨mem, hwalk, rfl⟩ := onMem_ok h
  rw [walkFrom_eq] at hwalk
  cases hf : findFrom R ptm va s.mem (ptm.levels - 1) (rootTable R proc.csrs.sptbr.toNat) with
  | fault => rw [hf] at hwalk; cases hwalk
  | undefined => rw [hf] at hwalk; cases hwalk
  | leaf mpa pte level =>
    rw [hf] at hwalk
    dsimp only [finish] at hwalk
    by_cases had : pte &&& adFlags op = adFlags op
    · -- nothing to write
      rw [if_neg (not_not.2 had)] at hwalk
      obtain ⟨rfl, rfl⟩ := Outcome.ok.inj hwalk
      refine ⟨⟨s.mem, rfl⟩, or_and_self .., mpa, level, ?_⟩
      dsimp only
      rwa [or_eq_of_and had]
    · obtain ⟨hload, -, hdvd⟩ := findFrom_leaf hal hf
      obtain ⟨m', hstore⟩ := UserMemory.store_of_load (pte ||| adFlags op) hload
      rw [if_pos had, hstore] at hwalk
      obtain ⟨rfl, rfl⟩ := Outcome.ok.inj hwalk
      refine ⟨⟨m', rfl⟩, or_and_self .., mpa, level, ?_⟩
      -- walking again in the memory that is left ends at the same place
      refine findFrom_congr hal ?_ (sameLeaf_or_adFlags ptm pte op) (fun a ha hne => ?_) hf
      · refine (UserMemory.load_store_self hstore).trans (congrArg some (Nat.mod_eq_of_lt ?_))
        have h10 : 2 ^ 10 ≤ 2 ^ (8 * ptm.pteSize) := by cases ptm <;> decide
        exact Nat.or_lt_two_pow (load_lt hload) (lt_of_lt_of_le (adFlags_lt op) h10)
      · exact UserMemory.load_store_of_ne hstore hdvd (visited_dvd hal ha) hne

theorem onMem_error {α : Type} {m : Prog Unit UserMemory α} {e e' : MmuExit}
    (h : Mmu.onMem m e s = .error e' s1) : ∃ mem, s1 = { s with mem } := by
  unfold Mmu.onMem Prog.onError Prog.zoom at h
  cases hm : m s.mem with
  | ok b mem => rw [hm] at h; cases h
  | error e' mem =>
    rw [hm] at h
    obtain ⟨rfl, rfl⟩ := Outcome.error.inj h
    exact ⟨mem, rfl⟩
  | undefined => rw [hm] at h; cases h

/-! ## The TLBs -/

theorem and_adFlags_iff (x : Nat) (op : MmuOp) :
    x &&& adFlags op = adFlags op ↔ x.testBit pteShiftA ∧ (op = .store → x.testBit pteShiftD) := by
  have hA : x &&& pteFlagA = (x.testBit pteShiftA).toNat * 64 := Nat.and_two_pow x 6
  have hD : x &&& pteFlagD = (x.testBit pteShiftD).toNat * 128 := Nat.and_two_pow x 7
  unfold adFlags
  rw [Nat.and_or_distrib_left, hA]
  cases op with
  | fetch | load =>
    simp only [reduceCtorEq, if_false, Nat.and_zero, Nat.or_zero, false_implies, and_true]
    cases x.testBit pteShiftA <;> decide
  | store =>
    simp only [if_true, hD, true_implies]
    cases x.testBit pteShiftA <;> cases x.testBit pteShiftD <;> decide

/-- Every entry is still empty or has the accessed flag. -/
def TlbOk (R : Rv) (tlb : Tlb) : Prop := ∀ i, tlb i = Tlb.reset R ∨ (tlb i).pteb.testBit pteShiftA

structure TlbsOk (R : Rv) (s : Mmu UserMemory) : Prop where
  itlb : TlbOk R s.l1Itlb
  dtlb : TlbOk R s.l1Dtlb

theorem TlbsOk.tlb (h : TlbsOk R s) (op : MmuOp) : TlbOk R (s.tlb op) := by
  cases op with
  | fetch => exact h.itlb
  | load | store => exact h.dtlb

theorem TlbsOk.insert (h : TlbsOk R s) (op : MmuOp) {ent : TlbEntry} (hent : ent.pteb.testBit pteShiftA) :
    TlbsOk R (s.setTlb op ((s.tlb op).insert va ent)) := by
  have hnew {tlb : Tlb} (ht : TlbOk R tlb) : TlbOk R (tlb.insert va ent) := fun i => by
    unfold Tlb.insert
    by_cases hi : i = Tlb.index va
    · subst hi
      rw [Function.update_self]
      exact .inr hent
    · rw [Function.update_of_ne hi]
      exact ht i
  cases op with
  | fetch => exact ⟨hnew h.itlb, h.dtlb⟩
  | load | store => exact ⟨h.itlb, hnew h.dtlb⟩

/-- The condition on a translation: what is looked up is not the key of an empty entry, and an entry that is
found for a store has the dirty flag. -/
def HitOk (R : Rv) (proc : Processor R.xlen) (op : MmuOp) (va : Nat) (s : Mmu UserMemory) : Prop :=
  ¬ (proc.pdid.toNat = 0 ∧ asid R proc = 2 ^ R.asidBits - 1 ∧ va >>> pageShift = 2 ^ Tlb.vpnBits R - 1) ∧
    (op = .store → ∀ ent, s.l1Dtlb.lookup proc.pdid.toNat (asid R proc) va = some ent → ent.pteb.testBit pteShiftD)

/-- Then an entry that is found has its flags up to date. -/
theorem HitOk.flags (h : HitOk R proc op va s) (hs : TlbsOk R s) {ent : TlbEntry}
    (hent : (s.tlb op).lookup proc.pdid.toNat (asid R proc) va = some ent) : ent.pteb &&& adFlags op = adFlags op := by
  rw [and_adFlags_iff]
  refine ⟨?_, fun hop => h.2 hop ent (by subst hop; exact hent)⟩
  unfold Tlb.lookup at hent
  dsimp only at hent
  split at hent
  · rename_i hkey
    obtain rfl := Option.some.inj hent
    refine (hs.tlb op (Tlb.index va)).resolve_left fun hreset => h.1 ?_
    rw [hreset] at hkey
    exact ⟨hkey.1.symm, hkey.2.1.symm, hkey.2.2.symm⟩
  · cases hent

theorem tlbMiss_ok {tlbEnt : Option TlbEntry} (hs : TlbsOk R s) {r : Nat × Option TlbEntry}
    (h : pageTranslateAddrTlbMiss (mmuSoft R) R ptm proc op va tlbEnt s = .ok r s1) :
    TlbsOk R s1 ∧ ∃ pte, LeafPte R ptm va proc.csrs.sptbr.toNat s1.mem pte ∧ pte &&& adFlags op = adFlags op := by
  obtain ⟨leaf, s2, hwalk, h⟩ := Prog.of_bind_ok h
  obtain ⟨⟨mem, rfl⟩, had, hleaf⟩ := walkPageTable_ok hwalk
  have hs2 : TlbsOk R { s with mem } := ⟨hs.itlb, hs.dtlb⟩
  dsimp only at h
  split at h
  · obtain ⟨-, rfl⟩ := Outcome.ok.inj h
    exact ⟨hs2, leaf.pte, hleaf, had⟩
  · obtain ⟨-, rfl⟩ := Outcome.ok.inj h
    refine ⟨hs2.insert op ?_, leaf.pte, by cases op <;> exact hleaf, had⟩
    show (pteFlags leaf.pte % 2 ^ 10).testBit pteShiftA
    unfold pteFlags
    rw [Nat.mod_mod, Nat.testBit_mod_two_pow, ((and_adFlags_iff _ _).1 had).1]
    rfl

theorem tlbMiss_error {tlbEnt : Option TlbEntry} {e : MmuExit}
    (h : pageTranslateAddrTlbMiss (mmuSoft R) R ptm proc op va tlbEnt s = .error e s1) : ∃ mem, s1 = { s with mem } := by
  obtain h | ⟨leaf, s2, hwalk, h⟩ := Prog.of_bind_error h
  · exact onMem_error h
  · dsimp only at h
    split at h
    · cases h
    · cases h

/-- A translation that finds no stale entry walks the tables. -/
theorem pageTranslateAddr_eq (ptm : Ptm) (hs : TlbsOk R s) (hhit : HitOk R proc op va s) :
    ∃ tlbEnt, pageTranslateAddr (mmuSoft R) R ptm proc op va s =
      pageTranslateAddrTlbMiss (mmuSoft R) R ptm proc op va tlbEnt s := by
  simp only [pageTranslateAddr, bind, Prog.gets]
  cases hl : (s.tlb op).lookup proc.pdid.toNat (asid R proc) va with
  | none => exact ⟨none, rfl⟩
  | some ent =>
    refine ⟨some ent, ?_⟩
    dsimp only
    rw [if_neg (not_not.2 (hhit.flags hs hl))]

/-- The paging mode that an access goes through. -/
def paging (R : Rv) (proc : Processor R.xlen) (op : MmuOp) : Option Ptm :=
  if effectiveMode R proc op ≥ RvMode.M.toNat then none
  else
    match RvVm.ofNat proc.vm with
    | some (.paged ptm) => some ptm
    | _ => none

theorem translateAddr_paged (h : paging R proc op = some ptm) :
    translateAddr (mmuSoft R) R proc op va = pageTranslateAddr (mmuSoft R) R ptm proc op va := by
  unfold paging at h
  unfold translateAddr
  split at h
  · cases h
  · rename_i hM
    rw [if_neg hM]
    split at h
    · rename_i hvm
      obtain rfl := Option.some.inj h
      rw [hvm]
    · cases h

theorem translateAddr_not_paged (va : Nat) (s : Mmu UserMemory) (h : paging R proc op = none) :
    translateAddr (mmuSoft R) R proc op va s = .ok (va, none) s ∨
      translateAddr (mmuSoft R) R proc op va s = .error .panic s := by
  unfold paging at h
  unfold translateAddr
  split at h
  · rename_i hM
    rw [if_pos hM]
    exact .inl rfl
  · rename_i hM
    rw [if_neg hM]
    cases hvm : RvVm.ofNat proc.vm with
    | none => exact .inr rfl
    | some vm =>
      cases vm with
      | mbare => exact .inl rfl
      | paged ptm => rw [hvm] at h; cases h

theorem translateAddr_ok (hs : TlbsOk R s) (hhit : paging R proc op ≠ none → HitOk R proc op va s)
    {r : Nat × Option TlbEntry} (h : translateAddr (mmuSoft R) R proc op va s = .ok r s1) :
    TlbsOk R s1 ∧ ∀ ptm, paging R proc op = some ptm →
      ∃ pte, LeafPte R ptm va proc.csrs.sptbr.toNat s1.mem pte ∧ pte &&& adFlags op = adFlags op := by
  cases hp : paging R proc op with
  | none =>
    rcases translateAddr_not_paged va s hp with h' | h'
    · obtain ⟨-, rfl⟩ := Outcome.ok.inj (h'.symm.trans h)
      exact ⟨hs, fun _ hn => nomatch hn⟩
    · cases h'.symm.trans h
  | some ptm =>
    obtain ⟨tlbEnt, heq⟩ := pageTranslateAddr_eq ptm hs (hhit (by simp [hp]))
    rw [translateAddr_paged hp, heq] at h
    obtain ⟨hs1, hleaf⟩ := tlbMiss_ok hs h
    exact ⟨hs1, fun ptm' h' => Option.some.inj h' ▸ hleaf⟩

theorem translateAddr_error (hs : TlbsOk R s) (hhit : paging R proc op ≠ none → HitOk R proc op va s) {e : MmuExit}
    (h : translateAddr (mmuSoft R) R proc op va s = .error e s1) : TlbsOk R s1 := by
  cases hp : paging R proc op with
  | none =>
    rcases translateAddr_not_paged va s hp with h' | h'
    · cases h'.symm.trans h
    · obtain ⟨-, rfl⟩ := Outcome.error.inj (h'.symm.trans h)
      exact hs
  | some ptm =>
    obtain ⟨tlbEnt, heq⟩ := pageTranslateAddr_eq ptm hs (hhit (by simp [hp]))
    rw [translateAddr_paged hp, heq] at h
    obtain ⟨mem, rfl⟩ := tlbMiss_error h
    exact ⟨hs.itlb, hs.dtlb⟩

end Translation

/-! ## Accesses -/

namespace MmuCall

def op : MmuCall → MmuOp
  | .instFetch .. => .fetch
  | .load .. => .load
  | .store .. | .amo .. => .store

def va : MmuCall → Nat
  | .instFetch pc _ => pc
  | .load _ va _ | .store _ va _ | .amo _ _ va _ _ => va

/-- The size that the address is a multiple of. -/
def size : MmuCall → Nat
  | .instFetch .. => 2
  | .load n .. | .store n .. | .amo n .. => n

end MmuCall

/-- What follows the translation leaves the TLBs alone, and the memory too unless it stores. -/
def Frame (op : MmuOp) (s s' : Mmu UserMemory) : Prop := ∃ mem, s' = { s with mem } ∧ (op ≠ .store → mem = s.mem)

/-- The same after an exception. -/
def Raised (op : MmuOp) (s : Mmu UserMemory) (e : MmuExit) (s' : Mmu UserMemory) : Prop := e ≠ .panic ∧ Frame op s s'

section Access
variable {R : Rv} {s s1 : Mmu UserMemory} {cause : RvCause} {badaddr : Nat}

theorem frame_rfl (op : MmuOp) (s : Mmu UserMemory) : Frame op s s := ⟨s.mem, rfl, fun _ => rfl⟩

theorem raised_rfl (op : MmuOp) (s : Mmu UserMemory) : Raised op s (.raise cause badaddr) s := ⟨nofun, frame_rfl op s⟩

theorem wp_onMem {α : Type} {m : Prog Unit UserMemory α} {e : MmuExit} {post : α → Mmu UserMemory → Prop}
    {err : MmuExit → Mmu UserMemory → Prop} :
    (Mmu.onMem m e).wp post err s ↔
      m.wp (fun a mem => post a { s with mem }) (fun _ mem => err e { s with mem }) s.mem := by
  unfold Mmu.onMem
  rw [Prog.wp_onError, Prog.wp_zoom]
  rfl

theorem wp_busLoad (n mpa : Nat) (m : UserMemory) :
    (UserMemory.busLoad n mpa).wp (fun _ m' => m' = m) (fun _ m' => m' = m) m := by
  unfold Prog.wp UserMemory.busLoad
  cases m.load n mpa <;> rfl

theorem wp_softInstBytes (mpa : Nat) (m : UserMemory) :
    (softInstBytes R UserMemory.busLoad mpa).wp (fun _ m' => m' = m) (fun _ m' => m' = m) m := by
  have load {α : Type} (n mpa : Nat) {f : Nat → Prog Unit UserMemory α}
      (hf : ∀ v, (f v).wp (fun _ m' => m' = m) (fun _ m' => m' = m) m) :
      (UserMemory.busLoad n mpa >>= f).wp (fun _ m' => m' = m) (fun _ m' => m' = m) m := by
    rw [Prog.wp_bind]
    exact Prog.wp_mono (wp_busLoad n mpa m) (fun v _ h => h ▸ hf v) fun _ _ h => h
  unfold softInstBytes
  refine load _ _ fun inst => ?_
  rw [Prog.wp_ite, Prog.wp_ite, Prog.wp_ite, Prog.wp_ite]
  refine ⟨fun _ => rfl, fun _ => ⟨fun _ => ?_, fun _ => ⟨fun _ => ?_, fun _ => ⟨fun _ => ?_, fun _ => rfl⟩⟩⟩⟩
  · exact load _ _ fun _ => rfl
  · exact load _ _ fun _ => load _ _ fun _ => rfl
  · exact load _ _ fun _ => load _ _ fun _ => load _ _ fun _ => rfl

/-- A read behind the translation, and what is done with the value. -/
theorem wp_read {α β : Type} {op : MmuOp} {m : Prog Unit UserMemory α} {f : α → MmuM UserMemory β}
    (hm : m.wp (fun _ mem => mem = s.mem) (fun _ mem => mem = s.mem) s.mem)
    (hf : ∀ a, (f a).wp (fun _ => Frame op s) (Raised op s) s) :
    (Mmu.onMem m (.raise cause badaddr) >>= f).wp (fun _ => Frame op s) (Raised op s) s := by
  rw [Prog.wp_bind, wp_onMem]
  refine Prog.wp_mono hm (fun a mem h => ?_) fun _ mem h => ?_
  · subst h
    exact hf a
  · subst h
    exact raised_rfl op s

theorem wp_write {β : Type} {n mpa val : Nat} (b : β) :
    (Mmu.onMem (UserMemory.busStore n mpa val) (.raise cause badaddr) >>= fun _ => pure b).wp
      (fun _ => Frame .store s) (Raised .store s) s := by
  rw [Prog.wp_bind, wp_onMem]
  unfold Prog.wp UserMemory.busStore
  cases s.mem.store n mpa val with
  | none => exact raised_rfl .store s
  | some mem => exact ⟨mem, rfl, fun h => absurd rfl h⟩

/-- A call that translates its address first, if that is aligned. -/
theorem aligned_cases {α : Type} {op : MmuOp} {n va : Nat} {t : MmuM UserMemory (Nat × Option TlbEntry)}
    {f : Nat × Option TlbEntry → MmuM UserMemory α} {g : α → MmuM UserMemory MmuResult}
    (hframe : ∀ r s, (f r >>= g).wp (fun _ => Frame op s) (Raised op s) s) :
    (∃ cause' badaddr', Misaligned n va ∧
      ((if Misaligned n va then .throw (.raise cause badaddr) else t >>= f) >>= g) = .throw (.raise cause' badaddr')) ∨
    (¬ Misaligned n va ∧ ∃ access,
      ((if Misaligned n va then .throw (.raise cause badaddr) else t >>= f) >>= g) = t >>= access ∧
      ∀ r s, (access r).wp (fun _ => Frame op s) (Raised op s) s) := by
  by_cases hm : Misaligned n va
  · rw [if_pos hm]
    exact .inl ⟨cause, badaddr, hm, rfl⟩
  · rw [if_neg hm]
    exact .inr ⟨hm, _, Prog.bind_assoc .., hframe⟩

/-- The two checks on the address that was found. -/
theorem wp_checked {α : Type} {op : MmuOp} {c d : Prop} [Decidable c] [Decidable d] {a : α}
    {m : MmuM UserMemory α} {g : α → MmuResult}
    (hm : (m >>= fun a => pure (g a)).wp (fun _ => Frame op s) (Raised op s) s) :
    ((if c then pure a else if d then .throw (.raise cause badaddr) else m) >>= fun a => pure (g a)).wp
      (fun _ => Frame op s) (Raised op s) s := by
  split
  · exact frame_rfl op s
  split
  · exact raised_rfl op s
  · exact hm

theorem exec_cases (step : MmuStep R) :
    (∃ cause badaddr, Misaligned step.call.size step.call.va ∧
      step.exec (mmuSoft R) = .throw (.raise cause badaddr)) ∨
    (¬ Misaligned step.call.size step.call.va ∧ ∃ access,
      step.exec (mmuSoft R) = translateAddr (mmuSoft R) R step.proc step.call.op step.call.va >>= access ∧
      ∀ r s, (access r).wp (fun _ => Frame step.call.op s) (Raised step.call.op s) s) := by
  obtain ⟨proc, call⟩ := step
  cases call with
  | instFetch pc pcOffset =>
    exact aligned_cases fun r s => wp_checked (wp_read (wp_softInstBytes ..) fun _ => frame_rfl ..)
  | load n va val => exact aligned_cases fun r s => wp_checked (wp_read (wp_busLoad ..) fun _ => frame_rfl ..)
  | store n va val => exact aligned_cases fun r s => wp_checked (wp_write ..)
  | amo n aop va val1 val2 =>
    refine aligned_cases fun r s => wp_checked ?_
    rw [Prog.bind_assoc]
    refine wp_read (wp_busLoad ..) fun _ => ?_
    split
    · exact raised_rfl ..
    · rw [Prog.bind_assoc]
      exact wp_write ..

end Access

/-! ## Runs -/

section Runs
variable {R : Rv}

/-- The state a call leaves, unless it ends the emulation. -/
def MmuStep.next (step : MmuStep R) (s : Mmu UserMemory) : Option (Mmu UserMemory) :=
  match step.exec (mmuSoft R) s with
  | .ok _ s' => some s'
  | .error (.raise _ _) s' => some s'
  | .error .panic _ => none
  | .undefined => none

/-- A condition holds of each step of a run in the state it is taken from. -/
def AlongRun (p : MmuStep R → Mmu UserMemory → Prop) : List (MmuStep R) → Mmu UserMemory → Prop
  | [], _ => True
  | step :: steps, s => p step s ∧ ∀ s', step.next s = some s' → AlongRun p steps s'

/-- The step translates its address, and leaves `s1` for the access that follows. -/
def Translates (step : MmuStep R) (s s1 : Mmu UserMemory) : Prop :=
  ¬ Misaligned step.call.size step.call.va ∧
    ∃ r, translateAddr (mmuSoft R) R step.proc step.call.op step.call.va s = .ok r s1

/-- What a step stores lies apart from the entries that map its address: only the MMU writes to the tables. -/
def TablesApart (step : MmuStep R) (s : Mmu UserMemory) : Prop :=
  ∀ ptm s1 s2, paging R step.proc step.call.op = some ptm → step.call.op = .store → Translates step s s1 →
    step.next s = some s2 →
    ∀ mpa ∈ visited R ptm step.call.va s1.mem (ptm.levels - 1) (rootTable R step.proc.csrs.sptbr.toNat),
      s2.mem.load ptm.pteSize mpa = s1.mem.load ptm.pteSize mpa

/-- The step finds no stale entry in the TLB. -/
def NoStaleHit (step : MmuStep R) (s : Mmu UserMemory) : Prop :=
  paging R step.proc step.call.op ≠ none → HitOk R step.proc step.call.op step.call.va s

/-- A step that translates its address leaves the leaf with A set, and D if it stores. -/
def AdSet (step : MmuStep R) (s : Mmu UserMemory) : Prop :=
  ∀ ptm s1, paging R step.proc step.call.op = some ptm → Translates step s s1 →
    ∃ s2 pte, step.next s = some s2 ∧ LeafPte R ptm step.call.va step.proc.csrs.sptbr.toNat s2.mem pte ∧
      pte.testBit pteShiftA ∧ (step.call.op = .store → pte.testBit pteShiftD)

/-- After the translation a step always ends. -/
theorem next_of_translates {step : MmuStep R} {s s1 : Mmu UserMemory} (h : Translates step s s1) :
    ∃ s2, step.next s = some s2 ∧ Frame step.call.op s1 s2 := by
  obtain ⟨hal, r, hr⟩ := h
  obtain ⟨-, -, hm, -⟩ | ⟨-, access, hexec, hframe⟩ := exec_cases step
  · exact absurd hm hal
  have hw := hframe r s1
  unfold Prog.wp at hw
  unfold MmuStep.next
  rw [hexec, Prog.bind_ok hr]
  cases ha : access r s1 with
  | ok a s2 => rw [ha] at hw; exact ⟨s2, rfl, hw⟩
  | error e s2 =>
    rw [ha] at hw
    cases e with
    | raise cause badaddr => exact ⟨s2, rfl, hw.2⟩
    | panic => exact absurd rfl hw.1
  | undefined => rw [ha] at hw; exact hw.elim

theorem tlbsOk_next {step : MmuStep R} {s s2 : Mmu UserMemory} (hs : TlbsOk R s) (hhit : NoStaleHit step s)
    (h : step.next s = some s2) : TlbsOk R s2 := by
  obtain ⟨cause, badaddr, -, hexec⟩ | ⟨hal, access, hexec, -⟩ := exec_cases step
  · unfold MmuStep.next at h
    rw [hexec] at h
    obtain rfl := Option.some.inj h
    exact hs
  cases ht : translateAddr (mmuSoft R) R step.proc step.call.op step.call.va s with
  | ok r s1 =>
    obtain ⟨s2', h', mem, rfl, -⟩ := next_of_translates ⟨hal, r, ht⟩
    obtain rfl := Option.some.inj (h'.symm.trans h)
    have hs1 := (translateAddr_ok hs hhit ht).1
    exact ⟨hs1.itlb, hs1.dtlb⟩
  | error e s1 =>
    have hs1 := translateAddr_error hs hhit ht
    unfold MmuStep.next at h
    rw [hexec, Prog.bind_error ht] at h
    cases e with
    | raise cause badaddr =>
      obtain rfl := Option.some.inj h
      exact hs1
    | panic => cases h
  | undefined =>
    unfold MmuStep.next at h
    rw [hexec, Prog.bind_undefined ht] at h
    cases h

theorem adSet_of_step {step : MmuStep R} {s : Mmu UserMemory} (hs : TlbsOk R s) (hhit : NoStaleHit step s)
    (htables : TablesApart step s) : AdSet step s := by
  intro ptm s1 hp ht
  obtain ⟨s2, hnext, hframe⟩ := next_of_translates ht
  obtain ⟨r, hr⟩ := ht.2
  obtain ⟨pte, ⟨mpa, level, hfind⟩, had⟩ := (translateAddr_ok hs hhit hr).2 ptm hp
  refine ⟨s2, pte, hnext, ?_, (and_adFlags_iff _ _).1 had⟩
  by_cases hop : step.call.op = .store
  · -- the entries on the way, the leaf among them, are as the translation left them
    have hkept := htables ptm s1 s2 hp hop ht hnext
    have hal := (rootTable_spec R step.proc.csrs.sptbr.toNat).2
    have hleaf := (hkept mpa (leaf_mem_visited hfind)).trans (findFrom_leaf hal hfind).1
    exact ⟨mpa, level, findFrom_congr hal hleaf ⟨Iff.rfl, Iff.rfl, rfl⟩ (fun a ha _ => hkept a ha) hfind⟩
  · obtain ⟨mem, rfl, hmem⟩ := hframe
    rw [hmem hop]
    exact ⟨mpa, level, hfind⟩

/-- Both TLBs as the constructor leaves them. -/
def emptyTlbs (R : Rv) (mem : UserMemory) : Mmu UserMemory := ⟨Tlb.empty R, Tlb.empty R, mem⟩

theorem adSet_along {steps : List (MmuStep R)} {s : Mmu UserMemory} (hs : TlbsOk R s)
    (htables : AlongRun TablesApart steps s) (hhit : AlongRun NoStaleHit steps s) : AlongRun AdSet steps s := by
  induction steps generalizing s with
  | nil => trivial
  | cons step steps ih =>
    refine ⟨adSet_of_step hs hhit.1 htables.1, fun s' hs' => ?_⟩
    exact ih (tlbsOk_next hs hhit.1 hs') (htables.2 s' hs') (hhit.2 s' hs')

/-- In every run from empty TLBs whose steps find no stale entry, each access leaves the flags of its leaf set. -/
theorem ad_set_of_run (R : Rv) (mem : UserMemory) (steps : List (MmuStep R))
    (htables : AlongRun TablesApart steps (emptyTlbs R mem)) (hhit : AlongRun NoStaleHit steps (emptyTlbs R mem)) :
    AlongRun AdSet steps (emptyTlbs R mem) :=
  adSet_along ⟨fun _ => .inl rfl, fun _ => .inl rfl⟩ htables hhit

/-- RAM whose first word is an sv39 root entry that maps a gigabyte onto RAM itself, with A and D clear. -/
def gigapageRam : UserMemory :=
  (UserMemory.mk [⟨defaultRamBase, defaultRamSize⟩] fun _ _ => 0).write 8 (0x80000 <<< 10 ||| 0xf) 0 0

def loadStep : MmuStep .rv64 := ⟨supervisor 0x80000, .load 8 0x1000 0⟩

def storeStep : MmuStep .rv64 := ⟨supervisor 0x80000, .store 8 0x1000 1⟩

theorem loadStep_translates : ∃ s1, Translates loadStep (emptyTlbs .rv64 gigapageRam) s1 := by
  have h : (translateAddr (mmuSoft .rv64) .rv64 (supervisor 0x80000) .load 0x1000
      (emptyTlbs .rv64 gigapageRam)).result.isSome := by decide +kernel
  obtain ⟨⟨r, s1⟩, hr⟩ := Option.isSome_iff_exists.1 h
  exact ⟨s1, by decide, r, Outcome.eq_ok hr⟩

theorem ad_set_two_loads :
    ∃ s2 pte, loadStep.next (emptyTlbs .rv64 gigapageRam) = some s2 ∧ LeafPte .rv64 .sv39 0x1000 0x80000 s2.mem pte ∧
      pte.testBit pteShiftA := by
  have hhit (s : Mmu UserMemory) : NoStaleHit loadStep s := fun _ => ⟨by decide, nofun⟩
  have htables (s : Mmu UserMemory) : TablesApart loadStep s := nofun
  obtain ⟨s1, ht⟩ := loadStep_translates
  obtain ⟨s2, pte, hnext, hleaf, hA, -⟩ := (ad_set_of_run .rv64 gigapageRam [loadStep, loadStep]
    ⟨htables _, fun _ _ => ⟨htables _, fun _ _ => trivial⟩⟩ ⟨hhit _, fun _ _ => ⟨hhit _, fun _ _ => trivial⟩⟩).1
    .sv39 s1 rfl ht
  exact ⟨s2, pte, hnext, hleaf, hA⟩

/-- A load and then a store to the same page: the store uses the entry of the load, and D stays clear. -/
theorem not_ad_set_load_store :
    AlongRun TablesApart [loadStep, storeStep] (emptyTlbs .rv64 gigapageRam) ∧
      ¬ AlongRun AdSet [loadStep, storeStep] (emptyTlbs .rv64 gigapageRam) := by
  have htrans : ((loadStep.next (emptyTlbs .rv64 gigapageRam)).map fun s =>
      (translateAddr (mmuSoft .rv64) .rv64 (supervisor 0x80000) .store 0x1000 s).result.map fun r =>
        (visited .rv64 .sv39 0x1000 r.2.mem 2 (rootTable .rv64 0x80000), r.2.mem.load 8 0x80000000)) =
      some (some ([0x80000000], some 0x2000004f)) := by decide +kernel
  have hload : ((loadStep.next (emptyTlbs .rv64 gigapageRam)).bind storeStep.next).map
      (fun s => s.mem.load 8 0x80000000) = some (some 0x2000004f) := by decide +kernel
  have hfind : ((loadStep.next (emptyTlbs .rv64 gigapageRam)).bind storeStep.next).map
      (fun s => findFrom .rv64 .sv39 0x1000 s.mem 2 (rootTable .rv64 0x80000)) =
        some (.leaf 0x80000000 0x2000004f 2) := by decide +kernel
  obtain ⟨s, hs, htrans⟩ := Option.map_eq_some_iff.1 htrans
  obtain ⟨⟨r, s1⟩, hr, hafter⟩ := Option.map_eq_some_iff.1 htrans
  obtain ⟨hvisited, hbefore⟩ := Prod.mk.inj hafter
  have ht : Translates storeStep s s1 := ⟨by decide, r, Outcome.eq_ok hr⟩
  rw [hs, Option.bind_some] at hload hfind
  refine ⟨⟨nofun, fun s' hs' => ⟨?_, fun _ _ => trivial⟩⟩, fun had => ?_⟩
  · obtain rfl := Option.some.inj (hs.symm.trans hs')
    rintro ptm s1' s2 hp - ⟨-, r', hr'⟩ hnext mpa hmpa
    obtain rfl : Ptm.sv39 = ptm := Option.some.inj hp
    obtain ⟨-, rfl⟩ := Outcome.ok.inj ((Outcome.eq_ok hr).symm.trans hr')
    have hmem : mpa ∈ visited .rv64 .sv39 0x1000 s1.mem 2 (rootTable .rv64 0x80000) := hmpa
    rw [hvisited] at hmem
    obtain rfl := List.mem_singleton.1 hmem
    rw [hnext, Option.map_some] at hload
    exact (Option.some.inj hload).trans hbefore.symm
  · obtain ⟨s2, pte, hnext, ⟨mpa, level, hleaf⟩, -, hD⟩ := (had.2 s hs).1 .sv39 s1 rfl ht
    rw [hnext, Option.map_some] at hfind
    obtain ⟨-, rfl, -⟩ := WalkEnd.leaf.inj (hleaf.symm.trans (Option.some.inj hfind))
    exact absurd (hD rfl) (by decide)

end Runs

end Rv8.Emu
