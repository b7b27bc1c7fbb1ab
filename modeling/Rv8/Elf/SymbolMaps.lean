import Rv8.Lib.OrderedMap
import Rv8.Elf.Checks
/-!
# Symbol lookup

The maps of an `elf_file` from names and addresses to the indices of symbols, as
`copy_from_symbol_table_sections` builds them, and the lookups by address.

A lookup of the nearest symbol looks for the first address that is not below the given
one and then steps back, unless it is there already. It tells by the index whether it is,
where the address would be meant.
-/

namespace Rv8.Elf

open Rv8.Lib ElfFile

/-! ## The maps -/

def addrKey (e : UInt64 × Nat) : Nat := e.1.toNat

/-- `addr_symbol_map` and `name_symbol_map`. The keys of the second are pointers to names, which it compares as strings;
here they are the names that were there when they were put in. -/
structure SymbolMaps where
  addr : OrderedMap addrKey
  name : List UInt8 → Option Nat

def SymbolMaps.empty : SymbolMaps := ⟨.empty, fun _ => none⟩

namespace ElfFile

section Maps
variable {σ : Type}

/-- The names and addresses of the symbols that have both, from the first symbol on. -/
def mapsOf (f : ElfFile) : Prog ElfPanic σ SymbolMaps :=
  if f.symtab = 0 ∨ f.strtab = 0 then pure .empty
  else
    Prog.iterate (fun i maps =>
      match f.symbols[i]? with
      | none => pure maps
      | some sym =>
        if sym.stValue = 0 then pure maps
        else do
          let name ← f.symName i
          if name = [] then pure maps
          else pure { addr := maps.addr.insert (sym.stValue, i), name := Function.update maps.name name (some i) })
      f.symbols.length .empty

end Maps

/-- `load(filename, headers_only)`, with the maps. -/
def loadMaps (self : ElfFile) (file : File) (headersOnly : Bool) : Prog ElfPanic Nat (ElfFile × SymbolMaps) := do
  let f ← loadHeaders self file
  if headersOnly then pure (f, .empty)
  else do
    let (shstrtab, symtab, strtab) := findTables f.ehdr f.shdrs f.shdrs.length
    let sections ← readSections file f.shdrs [phdrBound f.eiClass f.ehdr, shdrBound f.eiClass f.ehdr]
    let f ← ({ f with shstrtab, symtab, strtab, sections } : ElfFile).byteswapSymbolTable
    let f ← f.copyFromSymbolTableSections
    let maps ← f.mapsOf
    let f ← f.copyFromRelocationTableSections
    let f ← f.copyFromSectionNames
    pure (f, maps)

end ElfFile

namespace SymbolMaps

variable (maps : SymbolMaps)

/-- `sym_by_addr(addr)`; the symbol is given by its index. -/
def symByAddr (addr : UInt64) : Option Nat := (maps.addr.find addr.toNat).map Prod.snd

/-- `sym_by_nearest_addr(addr)` -/
def symByNearestAddr (addr : UInt64) : Option Nat :=
  match maps.addr.lowerBound addr.toNat with
  | (_, []) => none
  | (before, ai :: _) =>
    -- the index is compared with the address
    if ai.2 = addr.toNat then some ai.2
    else
      match before.getLast? with
      | some ai => some ai.2
      | none => some ai.2

end SymbolMaps

/-! ## What a loaded file has -/

section Loaded
variable {σ : Type} {f g : ElfFile} {maps : SymbolMaps}

/-- Each address leads to a symbol that has it. -/
def AddrsOf (symbols : List Sym64) (maps : SymbolMaps) : Prop :=
  ∀ e ∈ maps.addr.toList, (symbols[e.2]?).map Sym.stValue = some e.1

theorem yields_mapsOf (f : ElfFile) : Prog.Yields (AddrsOf f.symbols) (f.mapsOf : Prog ElfPanic σ SymbolMaps) := by
  have hempty : AddrsOf f.symbols .empty := fun e he => absurd he List.not_mem_nil
  refine Prog.yields_ite (Prog.yields_pure hempty) (Prog.yields_iterate hempty (fun i maps hmaps => ?_) _)
  cases hsym : f.symbols[i]? with
  | none => exact Prog.yields_pure hmaps
  | some sym =>
    refine Prog.yields_ite (Prog.yields_pure hmaps) (Prog.yields_bind fun name => ?_)
    refine Prog.yields_ite (Prog.yields_pure hmaps) (Prog.yields_pure ?_)
    intro e he
    rcases OrderedMap.mem_insert.1 he with rfl | ⟨he, -⟩
    · rw [hsym]
      rfl
    · exact hmaps e he

/-- A name that is found is found from any state. -/
theorem symName_of_ok {i : Nat} {name : List UInt8} {s s' : σ} (h : f.symName i s = .ok name s') :
    (f.symName i : Prog ElfPanic σ (List UInt8)) = pure name ∧ s' = s := by
  unfold symName at h ⊢
  split at h
  · rename_i hzero
    obtain ⟨rfl, rfl⟩ := Outcome.ok.inj h
    exact ⟨if_pos hzero, rfl⟩
  · rename_i hzero
    rw [if_neg hzero]
    cases hsym : f.symbols[i]? with
    | none =>
      rw [hsym] at h
      obtain ⟨rfl, rfl⟩ := Outcome.ok.inj h
      exact ⟨rfl, rfl⟩
    | some sym =>
      cases htab : f.shdrs[f.strtab]? with
      | none =>
        rw [hsym, htab] at h
        cases h
      | some tab =>
        rw [hsym, htab] at h
        dsimp only at h ⊢
        unfold stringAt offset at h ⊢
        cases hloc : locate (tab.shOffset + sym.stName.toUInt64) f.sections with
        | none =>
          rw [hloc] at h
          cases h
        | some p =>
          rw [hloc] at h
          rw [Prog.bind_ok (show (pure p : Prog ElfPanic σ (Nat × Nat)) s = .ok p s from rfl)] at h
          rw [Prog.pure_bind]
          cases hstr : cString ((f.bufOf p.1).drop p.2) with
          | none =>
            rw [hstr] at h
            cases h
          | some name' =>
            rw [hstr] at h
            obtain ⟨rfl, rfl⟩ := Outcome.ok.inj h
            exact ⟨rfl, rfl⟩

/-- The lookups of the names that go to the maps. -/
def nameLookups (symbols : List Sym64) (f : ElfFile) (n : Nat) : Prog ElfPanic σ Unit :=
  Prog.forRange n fun i =>
    if (symbols[i]?).map Sym.stValue ≠ some 0 then do
      let _ ← f.symName i
      pure ()
    else pure ()

theorem symName_of_nameLookups {n : Nat} {s s' : σ} (h : nameLookups f.symbols f n s = .ok () s') :
    s' = s ∧ ∀ i < n, (f.symbols[i]?).map Sym.stValue ≠ some 0 → ∃ name, (f.symName i : Prog ElfPanic σ _) = pure name := by
  induction n generalizing s' with
  | zero =>
    obtain ⟨-, rfl⟩ := Outcome.ok.inj h
    exact ⟨rfl, fun i hi => absurd hi (Nat.not_lt_zero i)⟩
  | succ n ih =>
    obtain ⟨_, s1, h1, h2⟩ := Prog.of_bind_ok h
    obtain ⟨rfl, hprev⟩ := ih h1
    dsimp only at h2
    have hlast : s' = s1 ∧ ((f.symbols[n]?).map Sym.stValue ≠ some 0 → ∃ name, (f.symName n : Prog ElfPanic σ _) = pure name) := by
      split at h2
      · obtain ⟨name, s2, hname, hend⟩ := Prog.of_bind_ok h2
        obtain ⟨heq, rfl⟩ := symName_of_ok hname
        exact ⟨(Outcome.ok.inj hend).2.symm, fun _ => ⟨name, heq⟩⟩
      · rename_i hzero
        exact ⟨(Outcome.ok.inj h2).2.symm, fun hne => absurd hne hzero⟩
    refine ⟨hlast.1, fun i hi hne => ?_⟩
    rcases Nat.lt_succ_iff_lt_or_eq.1 hi with hi | rfl
    · exact hprev i hi hne
    · exact hlast.2 hne

/-- Where the names have been looked up, the maps are built. -/
theorem exists_mapsOf {s : σ} (h : f.symtab ≠ 0 → f.strtab ≠ 0 → ∀ i < f.symbols.length,
      (f.symbols[i]?).map Sym.stValue ≠ some 0 → ∃ name, (f.symName i : Prog ElfPanic σ _) = pure name) :
    ∃ maps, f.mapsOf s = .ok maps s := by
  unfold mapsOf
  split
  · exact ⟨_, rfl⟩
  · rename_i htables
    obtain ⟨hsymtab, hstrtab⟩ := not_or.1 htables
    replace h := h hsymtab hstrtab
    generalize f.symbols.length = n at h
    induction n with
    | zero => exact ⟨_, rfl⟩
    | succ n ih =>
      obtain ⟨maps, hmaps⟩ := ih fun i hi => h i (Nat.lt_succ_of_lt hi)
      rw [Prog.iterate, Prog.bind_ok hmaps]
      have hn := h n (Nat.lt_succ_self n)
      cases hsym : f.symbols[n]? with
      | none => exact ⟨maps, rfl⟩
      | some sym =>
        dsimp only
        split
        · exact ⟨maps, rfl⟩
        · rename_i hne
          rw [hsym] at hn
          obtain ⟨name, hname⟩ := hn fun h0 => hne (Option.some.inj h0)
          rw [hname, Prog.pure_bind]
          split <;> exact ⟨_, rfl⟩

theorem names_of_copyFrom {g : ElfFile} {s s' : σ} (h : f.copyFromSymbolTableSections s = .ok g s') :
    g.symtab ≠ 0 → g.strtab ≠ 0 → ∀ i < g.symbols.length, (g.symbols[i]?).map Sym.stValue ≠ some 0 →
      ∃ name, (g.symName i : Prog ElfPanic σ _) = pure name := by
  unfold copyFromSymbolTableSections at h
  intro hsymtab hstrtab
  split at h
  · rename_i hzero
    obtain ⟨rfl, -⟩ := Outcome.ok.inj h
    exact absurd hzero hsymtab
  · obtain ⟨⟨shdr, n⟩, s1, -, h⟩ := Prog.of_bind_ok h
    obtain ⟨-, h⟩ := Prog.of_check_ok h
    obtain ⟨symbols, s2, -, h⟩ := Prog.of_bind_ok h
    dsimp only at h
    split at h
    · obtain ⟨_, s3, hnames, h⟩ := Prog.of_bind_ok h
      obtain ⟨rfl, -⟩ := Outcome.ok.inj h
      exact (symName_of_nameLookups (f := { f with symbols }) hnames).2
    · rename_i hzero
      obtain ⟨rfl, -⟩ := Outcome.ok.inj h
      exact absurd hstrtab hzero

/-- A load builds the maps of the file it loads. -/
theorem exists_loadMaps {self : ElfFile} {file : File} {pos pos' : Nat} (h : self.load file pos = .ok f pos') :
    ∃ maps, self.loadMaps file false pos = .ok (f, maps) pos' := by
  obtain ⟨f1, p1, h1, h⟩ := Prog.of_bind_ok h
  obtain ⟨sections, p2, h2, h⟩ := Prog.of_bind_ok h
  obtain ⟨f3, p3, h3, h⟩ := Prog.of_bind_ok h
  obtain ⟨f4, p4, h4, h⟩ := Prog.of_bind_ok h
  obtain ⟨f5, p5, h5, h⟩ := Prog.of_bind_ok h
  obtain ⟨maps, hmaps⟩ := exists_mapsOf (s := p4) (names_of_copyFrom h4)
  refine ⟨maps, ?_⟩
  unfold loadMaps
  rw [Prog.bind_ok h1, if_neg Bool.false_ne_true]
  dsimp only at h2 h3 ⊢
  rw [Prog.bind_ok h2, Prog.bind_ok h3, Prog.bind_ok h4, Prog.bind_ok hmaps, Prog.bind_ok h5, Prog.bind_ok h]
  rfl

theorem yields_symbols_copyFromSectionNames (f : ElfFile) :
    Prog.Yields (fun g => g.symbols = f.symbols) (f.copyFromSectionNames : Prog ElfPanic σ ElfFile) :=
  Prog.yields_ite (Prog.yields_pure rfl) (Prog.yields_bind fun _ => Prog.yields_pure rfl)

/-- The file that a load with the maps leaves is the loaded file, and its addresses lead to its symbols. -/
theorem of_loadMaps {self : ElfFile} {file : File} {pos pos' : Nat} (h : self.loadMaps file false pos = .ok (f, maps) pos') :
    self.load file pos = .ok f pos' ∧ AddrsOf f.symbols maps := by
  obtain ⟨f1, p1, h1, h⟩ := Prog.of_bind_ok h
  rw [if_neg Bool.false_ne_true] at h
  obtain ⟨sections, p2, h2, h⟩ := Prog.of_bind_ok h
  obtain ⟨f3, p3, h3, h⟩ := Prog.of_bind_ok h
  obtain ⟨f4, p4, h4, h⟩ := Prog.of_bind_ok h
  obtain ⟨maps', p5, h5, h⟩ := Prog.of_bind_ok h
  obtain ⟨f6, p6, h6, h⟩ := Prog.of_bind_ok h
  obtain ⟨f7, p7, h7, h⟩ := Prog.of_bind_ok h
  obtain ⟨heq, rfl⟩ := Outcome.ok.inj h
  obtain ⟨rfl, rfl⟩ := Prod.mk.inj heq
  obtain ⟨maps'', hmaps⟩ := exists_mapsOf (s := p4) (names_of_copyFrom h4)
  obtain ⟨rfl, rfl⟩ := Outcome.ok.inj (hmaps.symm.trans h5)
  refine ⟨?_, ?_⟩
  · unfold ElfFile.load readContents
    rw [Prog.bind_ok h1]
    dsimp only at h2 h3 ⊢
    rw [Prog.bind_ok h2, Prog.bind_ok h3, Prog.bind_ok h4, Prog.bind_ok h6, h7]
  · have hsyms : f7.symbols = f4.symbols := by
      refine (yields_symbols_copyFromSectionNames f6 p6 f7 p7 h7).trans ?_
      exact (yields_copyFromRelocationTableSections f4 p4 f6 p6 h6).2
    rw [hsyms]
    exact yields_mapsOf f4 p4 maps'' p4 h5

theorem addrsOf_loadMaps {self : ElfFile} {file : File} {headersOnly : Bool} {pos pos' : Nat}
    (h : self.loadMaps file headersOnly pos = .ok (f, maps) pos') : AddrsOf f.symbols maps := by
  cases headersOnly with
  | false => exact (of_loadMaps h).2
  | true =>
    obtain ⟨f1, p1, -, h⟩ := Prog.of_bind_ok h
    rw [if_pos rfl] at h
    obtain ⟨heq, -⟩ := Outcome.ok.inj h
    obtain ⟨-, rfl⟩ := Prod.mk.inj heq
    exact fun e he => absurd he List.not_mem_nil

end Loaded

/-! ## The nearest symbol -/

/-- `r` is a symbol with the greatest address up to `addr`, where there is one, and not one above `addr`. -/
structure NearestTo (symbols : List Sym64) (maps : SymbolMaps) (addr : UInt64) (r : Option Nat) : Prop where
  below : ∀ i, r = some i → ∃ sym, symbols[i]? = some sym ∧ sym.stValue ≤ addr
  nearest : (∃ e ∈ maps.addr.toList, e.1 ≤ addr) → ∃ e ∈ maps.addr.toList, ∃ sym, r = some e.2 ∧ symbols[e.2]? = some sym ∧
    sym.stValue ≤ addr ∧ ∀ e' ∈ maps.addr.toList, e'.1 ≤ addr → e'.1 ≤ sym.stValue

/-- The address is one of a symbol, and that is the lowest or its index is the same number; or the address is between those of
two symbols, and the index of the upper one is another number. Or there are no symbols. -/
def NearestHolds (maps : SymbolMaps) (addr : UInt64) : Prop :=
  maps.addr.toList = [] ∨
    ∃ e ∈ maps.addr.toList, addr ≤ e.1 ∧ (∀ e' ∈ maps.addr.toList, addr ≤ e'.1 → e.1 ≤ e'.1) ∧
      if e.1 = addr then e.2 = addr.toNat ∨ ∀ e' ∈ maps.addr.toList, addr ≤ e'.1
      else e.2 ≠ addr.toNat ∧ ∃ e' ∈ maps.addr.toList, e'.1 < addr

section Nearest
variable {symbols : List Sym64} {maps : SymbolMaps} (hsym : AddrsOf symbols maps) {addr : UInt64}
include hsym

/-- A mapped symbol that is the result. -/
theorem nearestTo_some_iff {e : UInt64 × Nat} (he : e ∈ maps.addr.toList) :
    NearestTo symbols maps addr (some e.2) ↔ e.1 ≤ addr ∧ ∀ e' ∈ maps.addr.toList, e'.1 ≤ addr → e'.1 ≤ e.1 := by
  obtain ⟨sym, hget, hval⟩ := Option.map_eq_some_iff.1 (hsym e he)
  constructor
  · intro h
    obtain ⟨sym', hget', hle⟩ := h.below e.2 rfl
    obtain rfl : sym' = sym := Option.some.inj (hget'.symm.trans hget)
    rw [hval] at hle
    obtain ⟨e2, he2, sym2, heq, hget2, -, hmax⟩ := h.nearest ⟨e, he, hle⟩
    rw [← Option.some.inj heq, hget] at hget2
    obtain rfl := Option.some.inj hget2
    exact ⟨hle, fun e' he' hle' => hval ▸ hmax e' he' hle'⟩
  · rintro ⟨hle, hmax⟩
    refine ⟨fun i hi => ?_, fun _ => ⟨e, he, sym, rfl, hget, hval ▸ hle, fun e' he' hle' => hval ▸ hmax e' he' hle'⟩⟩
    rw [← Option.some.inj hi]
    exact ⟨sym, hget, hval ▸ hle⟩

omit hsym in
theorem nearestTo_none_iff : NearestTo symbols maps addr none ↔ ∀ e ∈ maps.addr.toList, ¬ e.1 ≤ addr := by
  constructor
  · intro h e he hle
    obtain ⟨e', -, sym, heq, -⟩ := h.nearest ⟨e, he, hle⟩
    cases heq
  · intro h
    refine ⟨fun i hi => ?_, ?_⟩
    · cases hi
    · rintro ⟨e, he, hle⟩
      exact absurd hle (h e he)

omit hsym in
theorem addr_lt_of_mem {e : UInt64 × Nat} (he : e ∈ (maps.addr.lowerBound addr.toNat).1) : e.1 < addr := by
  have hlt : addrKey e < addr.toNat := OrderedMap.lt_of_mem_lowerBound he
  exact UInt64.lt_iff_toNat_lt.2 hlt

omit hsym in
theorem le_addr_of_mem {e : UInt64 × Nat} (he : e ∈ (maps.addr.lowerBound addr.toNat).2) : addr ≤ e.1 := by
  have hle : addr.toNat ≤ addrKey e := OrderedMap.le_of_mem_lowerBound he
  exact UInt64.le_iff_toNat_le.2 hle

omit hsym in
/-- The condition in terms of the first symbol that is not below the address. -/
theorem nearestHolds_iff {ai : UInt64 × Nat} {rest : List (UInt64 × Nat)} (h : (maps.addr.lowerBound addr.toNat).2 = ai :: rest) :
    NearestHolds maps addr ↔
      if ai.1 = addr then ai.2 = addr.toNat ∨ (maps.addr.lowerBound addr.toNat).1 = []
      else ai.2 ≠ addr.toNat ∧ (maps.addr.lowerBound addr.toNat).1 ≠ [] := by
  have hai : ai ∈ (maps.addr.lowerBound addr.toNat).2 := h ▸ List.mem_cons_self
  have hmem : ai ∈ maps.addr.toList := OrderedMap.mem_lowerBound_iff.2 (.inr hai)
  have hleast : ∀ e ∈ maps.addr.toList, addr ≤ e.1 → ai.1 ≤ e.1 := by
    intro e he hle
    rcases OrderedMap.mem_lowerBound_iff.1 he with he | he
    · exact absurd (addr_lt_of_mem he) (UInt64.not_lt.2 hle)
    · have hkey : addrKey ai ≤ addrKey e := OrderedMap.le_of_cons_lowerBound h he
      exact UInt64.le_iff_toNat_le.2 hkey
  have hlowest : (∀ e ∈ maps.addr.toList, addr ≤ e.1) ↔ (maps.addr.lowerBound addr.toNat).1 = [] := by
    refine ⟨fun hall => List.eq_nil_iff_forall_not_mem.2 fun e he => ?_, fun hnil e he => ?_⟩
    · exact UInt64.not_lt.2 (hall e (OrderedMap.mem_lowerBound_iff.2 (.inl he))) (addr_lt_of_mem he)
    · rcases OrderedMap.mem_lowerBound_iff.1 he with he | he
      · rw [hnil] at he
        cases he
      · exact le_addr_of_mem he
  have hbelow : (∃ e ∈ maps.addr.toList, e.1 < addr) ↔ (maps.addr.lowerBound addr.toNat).1 ≠ [] := by
    rw [ne_eq, ← hlowest]
    push Not
    simp only [UInt64.not_le]
  constructor
  · rintro (hnil | ⟨e, he, hle, hmin, hcase⟩)
    · rw [hnil] at hmem
      cases hmem
    · obtain rfl : e = ai := by
        have hkey : addrKey e = addrKey ai := congrArg UInt64.toNat (UInt64.le_antisymm (hmin ai hmem (le_addr_of_mem hai)) (hleast e he hle))
        have hfind := OrderedMap.find_of_mem he
        rw [hkey, OrderedMap.find_of_mem hmem] at hfind
        exact (Option.some.inj hfind).symm
      rwa [hlowest, hbelow] at hcase
  · intro hcase
    refine .inr ⟨ai, hmem, le_addr_of_mem hai, hleast, ?_⟩
    rwa [hlowest, hbelow]

omit hsym in
/-- Past all symbols none is found. -/
theorem nearest_iff_of_nil (hrest : (maps.addr.lowerBound addr.toNat).2 = []) :
    NearestTo symbols maps addr (maps.symByNearestAddr addr) ↔ NearestHolds maps addr := by
  have hnone : maps.symByNearestAddr addr = none := by
    unfold SymbolMaps.symByNearestAddr
    rw [← Prod.eta (maps.addr.lowerBound addr.toNat), hrest]
  have hall : ∀ e ∈ maps.addr.toList, e.1 < addr := by
    intro e he
    rcases OrderedMap.mem_lowerBound_iff.1 he with he | he
    · exact addr_lt_of_mem he
    · rw [hrest] at he
      cases he
  rw [hnone, nearestTo_none_iff]
  constructor
  · intro h
    exact .inl (List.eq_nil_iff_forall_not_mem.2 fun e he => h e he (UInt64.le_of_lt (hall e he)))
  · rintro (hnil | ⟨e, he, hle, -⟩)
    · rw [hnil]
      exact fun e he => absurd he List.not_mem_nil
    · exact absurd (hall e he) (UInt64.not_lt.2 hle)

/-- The first symbol that is not below the address is the nearest one if it is at the address. -/
theorem nearestTo_at_iff {ai : UInt64 × Nat} (hai : ai ∈ (maps.addr.lowerBound addr.toNat).2) :
    NearestTo symbols maps addr (some ai.2) ↔ ai.1 = addr := by
  rw [nearestTo_some_iff hsym (OrderedMap.mem_lowerBound_iff.2 (.inr hai))]
  refine ⟨fun h => UInt64.le_antisymm h.1 (le_addr_of_mem hai), fun h => ?_⟩
  rw [h]
  exact ⟨UInt64.le_refl _, fun e _ hle => hle⟩

/-- The last symbol below the address is the nearest one if there is none at it. -/
theorem nearestTo_before_iff {ai prev : UInt64 × Nat} {rest : List (UInt64 × Nat)} (hrest : (maps.addr.lowerBound addr.toNat).2 = ai :: rest)
    (hlast : (maps.addr.lowerBound addr.toNat).1.getLast? = some prev) : NearestTo symbols maps addr (some prev.2) ↔ ai.1 ≠ addr := by
  have hai : ai ∈ (maps.addr.lowerBound addr.toNat).2 := hrest ▸ List.mem_cons_self
  have hprev : prev ∈ (maps.addr.lowerBound addr.toNat).1 := List.mem_of_getLast? hlast
  rw [nearestTo_some_iff hsym (OrderedMap.mem_lowerBound_iff.2 (.inl hprev))]
  constructor
  · -- the symbol at the address is passed over
    intro h heq
    have hle := h.2 ai (OrderedMap.mem_lowerBound_iff.2 (.inr hai)) (UInt64.le_of_eq heq)
    rw [heq] at hle
    exact UInt64.not_lt.2 hle (addr_lt_of_mem hprev)
  · intro hne
    refine ⟨UInt64.le_of_lt (addr_lt_of_mem hprev), fun e he hle => ?_⟩
    rcases OrderedMap.mem_lowerBound_iff.1 he with he | he
    · have hkey : addrKey e ≤ addrKey prev := OrderedMap.le_of_getLast_lowerBound hlast he
      exact UInt64.le_iff_toNat_le.2 hkey
    · have heq : e.1 = addr := UInt64.le_antisymm hle (le_addr_of_mem he)
      have hkey : addrKey ai ≤ addrKey e := OrderedMap.le_of_cons_lowerBound hrest he
      exact absurd (UInt64.le_antisymm (heq ▸ UInt64.le_iff_toNat_le.2 hkey) (le_addr_of_mem hai)) hne

/-- Which lookups are right. -/
theorem nearest_iff : NearestTo symbols maps addr (maps.symByNearestAddr addr) ↔ NearestHolds maps addr := by
  cases hrest : (maps.addr.lowerBound addr.toNat).2 with
  | nil => exact nearest_iff_of_nil hrest
  | cons ai rest =>
    have hstay := nearestTo_at_iff hsym (hrest ▸ List.mem_cons_self : ai ∈ (maps.addr.lowerBound addr.toNat).2)
    rw [nearestHolds_iff hrest]
    unfold SymbolMaps.symByNearestAddr
    rw [← Prod.eta (maps.addr.lowerBound addr.toNat), hrest]
    dsimp only
    by_cases hindex : ai.2 = addr.toNat
    · rw [if_pos hindex, hstay]
      split <;> simp [*]
    rw [if_neg hindex]
    cases hlast : (maps.addr.lowerBound addr.toNat).1.getLast? with
    | none =>
      rw [List.getLast?_eq_none_iff.1 hlast]
      dsimp only
      rw [hstay]
      split <;> simp [*]
    | some prev =>
      have hne : (maps.addr.lowerBound addr.toNat).1 ≠ [] := List.ne_nil_of_mem (List.mem_of_getLast? hlast)
      dsimp only
      rw [nearestTo_before_iff hsym hrest hlast]
      split
      · rename_i heq
        exact iff_of_false (fun h => h heq) (not_or.2 ⟨hindex, hne⟩)
      · rename_i hne'
        exact iff_of_true hne' ⟨hindex, hne⟩

end Nearest

/-- The nearest symbol is found exactly where the address falls as `NearestHolds` says. -/
theorem symByNearestAddr_iff {self f : ElfFile} {file : File} {headersOnly : Bool} {pos : Nat} {maps : SymbolMaps}
    (h : self.loadMaps file headersOnly 0 = .ok (f, maps) pos) (addr : UInt64) :
    NearestTo f.symbols maps addr (maps.symByNearestAddr addr) ↔ NearestHolds maps addr :=
  nearest_iff (addrsOf_loadMaps h)

/-- A file with symbols at these addresses, all of one name. -/
def symbolsFile (addrs : List UInt64) : File :=
  let shdr (shType : UInt32) (shOffset shSize : UInt64) (shLink : UInt32) (shEntsize : UInt64) : Shdr64 :=
    { shName := 0, shType, shFlags := 0, shAddr := 0, shOffset, shSize, shLink, shInfo := 0, shAddralign := 0, shEntsize }
  let sym (stValue : UInt64) : Sym64 := { stName := 1, stInfo := 0, stOther := 0, stShndx := 0, stValue, stSize := 0 }
  File.writes
    [(0, writeEhdr elfData2Lsb .elf64 { (initObject .elf64).ehdr with eShoff := 64, eShnum := 3, eShstrndx := 0 }),
      (64, writeShdr elfData2Lsb .elf64 (shdr shtNull 0 0 0 0)),
      (128, writeShdr elfData2Lsb .elf64 (shdr shtSymtab 259 (UInt64.ofNat (24 * addrs.length)) 2 24)),
      (192, writeShdr elfData2Lsb .elf64 (shdr shtStrtab 256 3 0 0)),
      (256, [0, 102, 0]),
      (259, addrs.flatMap fun addr => (sym64Layout UInt64).encode (sym addr))]
    .empty

theorem loads_symbolsFile : ∃ f maps pos, (initObject .elf64).loadMaps (symbolsFile [0x1000, 0x2000]) false 0 = .ok (f, maps) pos ∧
    maps.addr.toList = [(0x1000, 0), (0x2000, 1)] := by
  have hok : ((initObject .elf64).loadMaps (symbolsFile [0x1000, 0x2000]) false 0).result.map (fun r => r.1.2.addr.toList) =
      some [(0x1000, 0), (0x2000, 1)] := by decide
  obtain ⟨⟨⟨f, maps⟩, pos⟩, hres, haddr⟩ := Option.map_eq_some_iff.1 hok
  exact ⟨f, maps, pos, Outcome.eq_ok hres, haddr⟩

theorem symByNearestAddr_iff_between : ∃ f maps pos,
    (initObject .elf64).loadMaps (symbolsFile [0x1000, 0x2000]) false 0 = .ok (f, maps) pos ∧
      NearestTo f.symbols maps 0x1800 (maps.symByNearestAddr 0x1800) := by
  obtain ⟨f, maps, pos, hload, haddr⟩ := loads_symbolsFile
  refine ⟨f, maps, pos, hload, (symByNearestAddr_iff hload 0x1800).2 ?_⟩
  unfold NearestHolds
  rw [haddr]
  decide

/-- Above the last symbol none is found, and at the address of a symbol the one below it. -/
theorem not_nearest_above : ∃ f maps pos,
    (initObject .elf64).loadMaps (symbolsFile [0x1000, 0x2000]) false 0 = .ok (f, maps) pos ∧
      maps.symByNearestAddr 0x2001 = none ∧ ¬ NearestTo f.symbols maps 0x2001 (maps.symByNearestAddr 0x2001) ∧
      maps.symByNearestAddr 0x2000 = some 0 ∧ ¬ NearestTo f.symbols maps 0x2000 (maps.symByNearestAddr 0x2000) := by
  obtain ⟨f, maps, pos, hload, haddr⟩ := loads_symbolsFile
  have hsym := addrsOf_loadMaps hload
  refine ⟨f, maps, pos, hload, ?_, ?_, ?_, ?_⟩
  · unfold SymbolMaps.symByNearestAddr OrderedMap.lowerBound
    rw [haddr]
    decide
  · rw [nearest_iff hsym]
    unfold NearestHolds
    rw [haddr]
    decide
  · unfold SymbolMaps.symByNearestAddr OrderedMap.lowerBound
    rw [haddr]
    decide
  · rw [nearest_iff hsym]
    unfold NearestHolds
    rw [haddr]
    decide

end Rv8.Elf
