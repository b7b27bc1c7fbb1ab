import Rv8.Elf.Sections
/-!
# What a file that loads is like

`load` compares sums of fields with the file size and with one another, but the sums are
taken modulo 2^64. It tests the link of the symbol table for being too large with the
wrong comparison, takes any section type with the bit of `SHT_RELA` for a relocation
table, and never compares the offset of a name with the size of its table. A file that
loads is well formed exactly if none of this happens to it.
-/

namespace Rv8.Elf

open Rv8.Lib ElfFile

/-! ## The fields of a file -/

section Fields
variable (file : File)

def fileClass : ElfClass := if file.byte 4 = elfClass32 then .elf32 else .elf64

def fileData : UInt8 := file.byte 5

def fileEhdr : Ehdr64 := readEhdr (fileClass file) (fileData file) (file.read 0 (fileClass file).ehdrSize)

def fileShdrs : List Shdr64 :=
  (List.range (fileEhdr file).eShnum.toNat).map fun i =>
    readShdr (fileClass file) (fileData file)
      (file.read ((fileEhdr file).eShoff.toNat + i * (fileClass file).shdrSize) (fileClass file).shdrSize)

/-- The indices of the table of section names, of the symbol table and of its string table. -/
def fileTables : Nat × Nat × Nat := findTables (fileEhdr file) (fileShdrs file) (fileShdrs file).length

def fileSymbols : List Sym64 :=
  if (fileTables file).2.1 = 0 then []
  else
    match (fileShdrs file)[(fileTables file).2.1]? with
    | none => []
    | some shdr =>
      (List.range (numSymbols shdr)).map fun i =>
        readSym (fileClass file) (bswap (fileData file) (fileClass file).symWidths
          (file.read (shdr.shOffset.toNat + i * (fileClass file).symSize) (fileClass file).symSize))

end Fields

/-- The bytes a section has in the file. -/
def Shdr64.range (shdr : Shdr64) : Range := (shdr.shOffset.toNat, if shdr.shType = shtNobits then 0 else shdr.shSize.toNat)

/-- The program headers, the section headers and the sections with bytes in the file. -/
def rangesOf (cls : ElfClass) (ehdr : Ehdr64) (shdrs : List Shdr64) : List Range :=
  (ehdr.ePhoff.toNat, ehdr.ePhnum.toNat * cls.phdrSize) :: (ehdr.eShoff.toNat, ehdr.eShnum.toNat * cls.shdrSize) ::
    (shdrs.filter fun shdr => shdr.shType ≠ shtNobits).map Shdr64.range

/-! ## Well-formed files -/

/-- The name at an offset of a string table lies in the buffer of that table. -/
def ElfFile.Resolves (f : ElfFile) (table : Nat) (name : UInt32) : Prop :=
  ∃ shdr pos, f.shdrs[table]? = some shdr ∧ locate (shdr.shOffset + name.toUInt64) f.sections = some (table, pos)

/-- What has been read of a file is laid out as it should be. -/
structure WellFormed (file : File) (f : ElfFile) : Prop where
  inside : ∀ r ∈ rangesOf f.eiClass f.ehdr f.shdrs, r.1 + r.2 < 2 ^ 64 ∧ r.1 + r.2 ≤ file.size
  apart : (rangesOf f.eiClass f.ehdr f.shdrs).Pairwise Range.Apart
  link : f.strtab ≠ 0 → f.strtab < f.shdrs.length
  count : f.symtab ≠ 0 → ∃ shdr, f.shdrs[f.symtab]? = some shdr ∧ shdr.shEntsize ≠ 0
  relocations : ∀ shdr ∈ f.shdrs, isRela shdr → shdr.shType = shtRela
  sectionNames : f.shstrtab ≠ 0 → ∀ shdr ∈ f.shdrs, f.Resolves f.shstrtab shdr.shName
  symbolNames : f.strtab ≠ 0 → ∀ sym ∈ f.symbols, f.Resolves f.strtab sym.stName

/-- The size of a section in the file. -/
def tableSize (file : File) (table : Nat) : Nat := (((fileShdrs file)[table]?).map fun shdr => shdr.range.2).getD 0

/-- The condition on the fields of the file: no sum wraps, the link is not one too large, no section type but `SHT_RELA` has bit
2, and the names start in their tables. -/
structure Unmistaken (file : File) : Prop where
  unwrapped : ∀ r ∈ rangesOf (fileClass file) (fileEhdr file) (fileShdrs file), r.1 + r.2 < 2 ^ 64
  link : (fileTables file).2.2 ≠ 0 → (fileTables file).2.2 ≠ (fileShdrs file).length
  types : ∀ shdr ∈ fileShdrs file, shdr.shType.toNat % 8 < 4 ∨ shdr.shType = shtRela
  sectionNames : (fileTables file).1 ≠ 0 → ∀ shdr ∈ fileShdrs file, shdr.shName.toNat < tableSize file (fileTables file).1
  symbolNames : (fileTables file).2.2 ≠ 0 → ∀ sym ∈ fileSymbols file, sym.stName.toNat < tableSize file (fileTables file).2.2

/-! ## The headers -/

theorem wp_fread {file : File} {n pos : Nat} {post : List UInt8 → Nat → Prop} {err : ElfPanic → Nat → Prop} :
    (fread file n).wp post err pos ↔
      (pos + n ≤ file.size → post (file.read pos n) (pos + n)) ∧ (¬ pos + n ≤ file.size → err .fread file.size) := by
  unfold Prog.wp fread
  by_cases h : pos + n ≤ file.size <;> simp [h]

theorem wp_readIdent {file : File} :
    (readIdent file).wp (fun r _ => r = (fileClass file, fileData file)) (fun _ _ => True) 0 := by
  have hclass : (file.read 0 16).getD 4 0 = file.byte 4 := by simp [File.read]
  have hdata : (file.read 0 16).getD 5 0 = file.byte 5 := by simp [File.read]
  simp only [readIdent, Prog.wp_bind, Prog.wp_ite, Prog.wp_throw, Prog.wp_pure, wp_fread, implies_true, true_and, and_true, Nat.zero_add,
    hclass, hdata]
  intro _ _ _
  refine ⟨fun h => ?_, fun h _ => ?_⟩
  · rw [fileClass, if_pos h, fileData]
  · rw [fileClass, if_neg h, fileData]

/-- A table that lies in the file is read as it is there. -/
theorem wp_readTable {α : Type} {file : File} (hsize : file.size < 2 ^ 63) {base : UInt64} {size n : Nat} {read : List UInt8 → α}
    (hin : base.toNat + n * size ≤ file.size) (err : ElfPanic → Nat → Prop) (pos : Nat) :
    (readTable file base size read n).wp
      (fun as _ => as = (List.range n).map fun i => read (file.read (base.toNat + i * size) size)) err pos := by
  refine Prog.wp_mono (Prog.wp_collect_eq (fun _ => True) _ trivial fun i s hi _ => ?_) (fun _ _ h => h.2) fun _ _ h => h
  have hle : i * size + size ≤ n * size := by
    rw [← Nat.succ_mul]
    exact Nat.mul_le_mul_right size hi
  have hseek : (base + UInt64.ofNat i * UInt64.ofNat size).toNat = base.toNat + i * size := by
    rw [← UInt64.ofNat_mul, UInt64.toNat_add, UInt64.toNat_ofNat_of_lt' (by simp only [UInt64.size]; omega),
      Nat.mod_eq_of_lt (by omega)]
  simp only [fseek, Prog.wp_bind, Prog.wp_modify, Prog.wp_pure, wp_fread, hseek]
  rw [if_pos (by omega)]
  exact ⟨fun _ => ⟨trivial, rfl⟩, fun h => absurd h (by omega)⟩

/-- The header has passed the checks that are made on it alone. -/
structure HeaderOk (file : File) (cls : ElfClass) (ehdr : Ehdr64) : Prop where
  phdrs : (phdrBound cls ehdr).2.toNat ≤ file.size
  shdrs : (shdrBound cls ehdr).2.toNat ≤ file.size
  apart : ¬ overlaps (phdrBound cls ehdr) (shdrBound cls ehdr)

theorem readTables_ok {file : File} {cls : ElfClass} {eiData : UInt8} {ehdr : Ehdr64} {pos pos' : Nat} {phdrs : List Phdr64}
    {shdrs : List Shdr64} (h : readTables file cls eiData ehdr pos = .ok (phdrs, shdrs) pos') :
    HeaderOk file cls ehdr ∧ ∃ p, readTable file ehdr.eShoff cls.shdrSize (readShdr cls eiData) ehdr.eShnum.toNat p = .ok shdrs pos' := by
  simp only [readTables] at h
  obtain ⟨hph, h⟩ := Prog.of_check_ok h
  obtain ⟨hsh, h⟩ := Prog.of_check_ok h
  obtain ⟨hover, h⟩ := Prog.of_check_ok h
  obtain ⟨-, h⟩ := Prog.of_check_ok h
  obtain ⟨_, p1, -, h⟩ := Prog.of_bind_ok h
  obtain ⟨_, p2, htable, h⟩ := Prog.of_bind_ok h
  obtain ⟨hp, rfl⟩ := Outcome.ok.inj h
  obtain ⟨rfl, rfl⟩ := Prod.mk.inj hp
  exact ⟨⟨by omega, by omega, hover⟩, p1, htable⟩

theorem toNat_bound {base : UInt64} {n : Nat} (h : base.toNat + n < 2 ^ 64) : (base + UInt64.ofNat n).toNat = base.toNat + n := by
  rw [UInt64.toNat_add, UInt64.toNat_ofNat_of_lt' (by simp only [UInt64.size]; omega), Nat.mod_eq_of_lt h]

/-- What the headers of a file that has been loaded are. -/
structure HeadersOf (file : File) (f : ElfFile) : Prop where
  eiClass : f.eiClass = fileClass file
  eiData : f.eiData = fileData file
  ehdr : f.ehdr = fileEhdr file
  ok : HeaderOk file f.eiClass f.ehdr
  shdrs : f.ehdr.eShoff.toNat + f.ehdr.eShnum.toNat * f.eiClass.shdrSize < 2 ^ 64 → f.shdrs = fileShdrs file

theorem loadHeaders_ok {self f : ElfFile} {file : File} (hsize : file.size < 2 ^ 63) {pos : Nat}
    (h : loadHeaders self file 0 = .ok f pos) : HeadersOf file f := by
  simp only [loadHeaders] at h
  obtain ⟨⟨cls, eiData⟩, p1, hident, h⟩ := Prog.of_bind_ok h
  obtain ⟨rfl, rfl⟩ := Prod.mk.inj ((Prog.wp_of_ok hident).1 wp_readIdent)
  obtain ⟨_, p2, hseek, h⟩ := Prog.of_bind_ok h
  obtain ⟨-, rfl⟩ := Outcome.ok.inj hseek
  obtain ⟨bs, p3, hread, h⟩ := Prog.of_bind_ok h
  obtain ⟨⟨phdrs, shdrs⟩, p4, htables, h⟩ := Prog.of_bind_ok h
  obtain ⟨rfl, -⟩ := Outcome.ok.inj h
  have hbs : bs = file.read 0 (fileClass file).ehdrSize := by
    have hwp : (fread file (fileClass file).ehdrSize).wp (fun bs _ => bs = file.read 0 (fileClass file).ehdrSize) (fun _ _ => True) 0 :=
      wp_fread.2 ⟨fun _ => rfl, fun _ => trivial⟩
    exact (Prog.wp_of_ok hread).1 hwp
  subst hbs
  obtain ⟨hok, p, htable⟩ := readTables_ok htables
  refine ⟨rfl, rfl, rfl, hok, fun hwrap => ?_⟩
  have hin := hok.shdrs
  rw [shdrBound, toNat_bound hwrap] at hin
  exact (Prog.wp_of_ok htable).1 (wp_readTable hsize hin (fun _ _ => True) p)

/-! ## The sections -/

/-- A section as it stands in the file. -/
def sectionOf (file : File) (shdr : Shdr64) : ElfSection :=
  ⟨[], shdr.shOffset, shdr.shSize, file.read shdr.range.1 shdr.range.2⟩

theorem Shdr64.range_nobits {shdr : Shdr64} (h : shdr.shType = shtNobits) : shdr.range.2 = 0 := if_pos h

theorem Shdr64.range_stored {shdr : Shdr64} (h : shdr.shType ≠ shtNobits) : shdr.range.2 = shdr.shSize.toNat := if_neg h

/-- What the checks on the sections leave. -/
structure SectionsOf (file : File) (shdrs : List Shdr64) (bounds : List Bound) (secs : List ElfSection) : Prop where
  ranges : secs.map ElfSection.range = shdrs.map Shdr64.range
  inside : ∀ shdr ∈ shdrs, shdr.shType ≠ shtNobits → (sectionBound shdr).2.toNat ≤ file.size
  apart : (bounds ++ (shdrs.filter fun shdr => shdr.shType ≠ shtNobits).map sectionBound).Pairwise fun b b' => ¬ overlaps b' b
  contents : (∀ shdr ∈ shdrs, shdr.shType ≠ shtNobits → shdr.shOffset.toNat < 2 ^ 63) → secs = shdrs.map (sectionOf file)

/-- The sections with bytes in the file pass the checks one after another. -/
theorem wp_readSections {file : File} {shdrs : List Shdr64} {bounds : List Bound} {pos : Nat}
    (hb : bounds.Pairwise fun b b' => ¬ overlaps b' b) :
    (readSections file shdrs bounds).wp (fun secs _ => SectionsOf file shdrs bounds secs) (fun _ _ => True) pos := by
  induction shdrs generalizing bounds pos with
  | nil => exact ⟨rfl, nofun, by simpa using hb, fun _ => rfl⟩
  | cons shdr shdrs ih =>
    simp only [readSections, Prog.wp_ite, Prog.wp_bind, Prog.wp_throw, Prog.wp_pure, fseek, Prog.wp_modify, wp_fread, implies_true,
      true_and, and_true]
    refine ⟨fun hbits => ?_, fun hbits hover hsize _ => ?_⟩
    · refine Prog.wp_mono (ih hb) ?_ fun _ _ _ => trivial
      rintro rest _ ⟨hranges, hinside, hapart, hcontents⟩
      have hrange := Shdr64.range_nobits hbits
      refine ⟨?_, ?_, by simpa [hbits] using hapart, fun hseek => ?_⟩
      · rw [List.map_cons, List.map_cons, hranges]
        exact congrArg (· :: _) (Prod.ext rfl hrange.symm)
      · intro shdr' hmem hne
        rcases List.mem_cons.1 hmem with rfl | hmem
        · exact absurd hbits hne
        · exact hinside shdr' hmem hne
      · rw [hcontents fun shdr' hmem => hseek shdr' (List.mem_cons_of_mem _ hmem), List.map_cons, sectionOf, hrange]
        rfl
    · have hb' : (bounds ++ [sectionBound shdr]).Pairwise fun b b' => ¬ overlaps b' b := by
        refine List.pairwise_append.2 ⟨hb, List.pairwise_singleton .., fun b hmem b' hmem' ho => hover ⟨b, hmem, ?_⟩⟩
        rwa [List.mem_singleton.1 hmem'] at ho
      refine Prog.wp_mono (ih hb') ?_ fun _ _ _ => trivial
      rintro rest _ ⟨hranges, hinside, hapart, hcontents⟩
      have hrange := Shdr64.range_stored hbits
      refine ⟨?_, ?_, by simpa [hbits] using hapart, fun hseek => ?_⟩
      · rw [List.map_cons, List.map_cons, hranges]
        exact congrArg (· :: _) (Prod.ext rfl (by rw [hrange]; exact File.length_read ..))
      · intro shdr' hmem hne
        rcases List.mem_cons.1 hmem with rfl | hmem
        · omega
        · exact hinside shdr' hmem hne
      · rw [hcontents fun shdr' hmem => hseek shdr' (List.mem_cons_of_mem _ hmem), List.map_cons, sectionOf, hrange,
          if_pos (hseek shdr List.mem_cons_self hbits)]
        rfl

/-! ## The contents -/

section Contents
variable {σ : Type}

theorem of_offset {f : ElfFile} {off : UInt64} {p : Nat × Nat} {s s' : σ} (h : f.offset off s = .ok p s') :
    locate off f.sections = some p := by
  unfold ElfFile.offset at h
  cases hloc : locate off f.sections with
  | none =>
    rw [hloc] at h
    cases h
  | some q =>
    rw [hloc] at h
    obtain ⟨rfl, -⟩ := Outcome.ok.inj h
    rfl

theorem of_bytesAt {f : ElfFile} {off : UInt64} {n : Nat} {bs : List UInt8} {s s' : σ} (h : f.bytesAt off n s = .ok bs s') :
    ∃ p, locate off f.sections = some p ∧ p.2 + n ≤ (f.bufOf p.1).length ∧ bs.length = n := by
  obtain ⟨p, s1, hp, h⟩ := Prog.of_bind_ok h
  by_cases hfit : p.2 + n ≤ (f.bufOf p.1).length
  · rw [if_pos hfit] at h
    obtain ⟨rfl, -⟩ := Outcome.ok.inj h
    refine ⟨p, of_offset hp, hfit, ?_⟩
    rw [List.length_take, List.length_drop]
    omega
  · rw [if_neg hfit] at h
    cases h

theorem yields_byteswapSymbolTable (f : ElfFile) :
    Prog.Yields (SameShape f) (f.byteswapSymbolTable : Prog ElfPanic σ ElfFile) := by
  unfold byteswapSymbolTable
  refine Prog.yields_ite (Prog.yields_pure (.refl f)) (Prog.yields_bind fun ⟨shdr, numSymbols⟩ =>
    Prog.yields_iterate (.refl f) (fun i g hg => ?_) _)
  intro s h s' heq
  obtain ⟨p, s1, hp, heq⟩ := Prog.of_bind_ok heq
  obtain ⟨bs, s2, hbs, heq⟩ := Prog.of_bind_ok heq
  obtain ⟨rfl, -⟩ := Outcome.ok.inj heq
  obtain ⟨p', hp', hfit, hlen⟩ := of_bytesAt hbs
  obtain rfl : p = p' := Option.some.inj ((of_offset hp).symm.trans hp')
  refine hg.trans (.setBuf g ?_)
  simp only [List.length_append, List.length_take, List.length_drop, length_bswap, hlen]
  omega

/-- The symbols that are read from a table. -/
structure SymbolsOf (f g : ElfFile) : Prop where
  eq : g = { f with symbols := g.symbols }
  none : f.symtab = 0 → g.symbols = []
  entsize : f.symtab ≠ 0 → ∃ shdr, f.shdrs[f.symtab]? = some shdr ∧ shdr.shEntsize.toNat = f.eiClass.symSize
  table : ∀ shdr sec, HasSymtab f shdr sec →
    g.symbols = (List.range (numSymbols shdr)).map fun i => readSym f.eiClass (chunk f.eiClass.symSize i sec.buf)

theorem of_symtabInfo {f : ElfFile} {r : Shdr64 × Nat} {s s' : σ} (h : f.symtabInfo s = .ok r s') :
    f.shdrs[f.symtab]? = some r.1 ∧ r.2 = numSymbols r.1 := by
  unfold symtabInfo at h
  cases hshdr : f.shdrs[f.symtab]? with
  | none =>
    rw [hshdr] at h
    cases h
  | some shdr =>
    simp only [hshdr] at h
    split at h
    · cases h
    · obtain ⟨rfl, -⟩ := Outcome.ok.inj h
      exact ⟨rfl, rfl⟩

theorem yields_copyFromSymbolTableSections (f : ElfFile) :
    Prog.Yields (SymbolsOf f) (f.copyFromSymbolTableSections : Prog ElfPanic σ ElfFile) := by
  intro s g s' h
  unfold copyFromSymbolTableSections at h
  by_cases hzero : f.symtab = 0
  · rw [if_pos hzero] at h
    obtain ⟨rfl, -⟩ := Outcome.ok.inj h
    exact ⟨rfl, fun _ => rfl, fun hne => absurd hzero hne, fun _ _ hsym => absurd hzero hsym.nonzero⟩
  · rw [if_neg hzero] at h
    obtain ⟨⟨shdr, n⟩, s1, hinfo, h⟩ := Prog.of_bind_ok h
    obtain ⟨hshdr, hn⟩ := of_symtabInfo hinfo
    obtain rfl : n = numSymbols shdr := hn
    obtain ⟨hent, h⟩ := Prog.of_check_ok h
    obtain ⟨symbols, s2, hcollect, h⟩ := Prog.of_bind_ok h
    have hg : g = { f with symbols } := by
      dsimp only at h
      split at h
      · obtain ⟨_, _, -, h⟩ := Prog.of_bind_ok h
        exact (Outcome.ok.inj h).1.symm
      · exact (Outcome.ok.inj h).1.symm
    subst hg
    refine ⟨rfl, fun h0 => absurd h0 hzero, fun _ => ⟨shdr, hshdr, not_not.1 hent⟩, fun shdr' sec hsym => ?_⟩
    obtain rfl : shdr = shdr' := Option.some.inj (hshdr.symm.trans hsym.header)
    rw [hsym.collect_symbols] at hcollect
    exact (Outcome.ok.inj hcollect).1.symm

/-- The same file up to names, relocations and the bytes of the sections. -/
def SameSymbols (f g : ElfFile) : Prop := SameShape f g ∧ g.symbols = f.symbols

theorem yields_copyFromRelocationTable (f : ElfFile) (i : Nat) :
    Prog.Yields (SameSymbols f) (f.copyFromRelocationTable i : Prog ElfPanic σ ElfFile) := by
  unfold copyFromRelocationTable
  by_cases hmod : (f.bufOf i).length % f.eiClass.relaSize = 0
  · simp only [ne_eq, hmod, not_true_eq_false, if_false]
    have hshape := SameShape.setBuf f (length_bswapTable hmod f.eiData f.eiClass.relaWidths)
    exact Prog.yields_pure ⟨⟨rfl, rfl, rfl, rfl, rfl, hshape.sections⟩, rfl⟩
  · simp only [ne_eq, hmod, not_false_eq_true, if_true]
    exact Prog.yields_undefined

theorem yields_copyFromRelocationTableSections (f : ElfFile) :
    Prog.Yields (SameSymbols f) (f.copyFromRelocationTableSections : Prog ElfPanic σ ElfFile) := by
  refine Prog.yields_iterate ⟨.refl f, rfl⟩ (fun i g hg => ?_) _
  cases g.shdrs[i]? with
  | none => exact Prog.yields_pure hg
  | some shdr =>
    refine Prog.yields_ite ?_ (Prog.yields_pure hg)
    intro s h s' heq
    obtain ⟨hshape, hsym⟩ := yields_copyFromRelocationTable g i s h s' heq
    exact ⟨hg.1.trans hshape, hsym.trans hg.2⟩

theorem yields_copyFromSectionNames {f : ElfFile} (hlen : f.sections.length = f.shdrs.length) :
    Prog.Yields (SameSymbols f) (f.copyFromSectionNames : Prog ElfPanic σ ElfFile) := by
  unfold copyFromSectionNames
  refine Prog.yields_ite (Prog.yields_pure ⟨.refl f, rfl⟩) ?_
  intro s g s' h
  obtain ⟨names, s1, hcollect, h⟩ := Prog.of_bind_ok h
  obtain ⟨rfl, -⟩ := Outcome.ok.inj h
  have hnames : names.length = f.shdrs.length := Prog.yields_collect _ _ s names s1 hcollect
  refine ⟨⟨rfl, rfl, rfl, rfl, rfl, ?_⟩, rfl⟩
  refine List.ext_getElem (by simp [hnames, hlen]) fun i hi hi' => ?_
  simp only [List.getElem_map, List.getElem_zipWith]
  rfl

/-- What is read from the sections leaves the headers and the places of the sections as they are. -/
theorem readContents_ok {f g : ElfFile} (hlen : f.sections.length = f.shdrs.length) {pos pos' : Nat}
    (h : f.readContents pos = .ok g pos') :
    SameShape f g ∧ ∃ f1 p, f.byteswapSymbolTable pos = .ok f1 p ∧ SymbolsOf f1 { f1 with symbols := g.symbols } := by
  obtain ⟨f1, p1, h1, h⟩ := Prog.of_bind_ok h
  obtain ⟨f2, p2, h2, h⟩ := Prog.of_bind_ok h
  obtain ⟨f3, p3, h3, h⟩ := Prog.of_bind_ok h
  have s1 := yields_byteswapSymbolTable f pos f1 p1 h1
  have s2 := yields_copyFromSymbolTableSections f1 p1 f2 p2 h2
  have s3 := yields_copyFromRelocationTableSections f2 p2 f3 p3 h3
  have s12 : SameShape f f2 := by
    rw [s2.eq]
    exact ⟨s1.eiClass, s1.eiData, s1.ehdr, s1.shdrs, s1.tables, s1.sections⟩
  have s13 := s12.trans s3.1
  have hlen3 : f3.sections.length = f3.shdrs.length := by
    have := congrArg List.length s13.sections
    rw [List.length_map, List.length_map] at this
    rw [this, hlen, s13.shdrs]
  have s4 := yields_copyFromSectionNames hlen3 p3 g pos' h
  refine ⟨s13.trans s4.1, f1, p1, h1, ?_⟩
  rw [s4.2, s3.2, ← s2.eq]
  exact s2

end Contents

/-! ## The tables -/

/-- What the search for the tables finds. -/
theorem findTables_spec (ehdr : Ehdr64) (shdrs : List Shdr64) {n : Nat} (h : n ≤ shdrs.length) :
    ((findTables ehdr shdrs n).1 ≠ 0 → (findTables ehdr shdrs n).1 < shdrs.length) ∧
    ((findTables ehdr shdrs n).2.1 ≠ 0 → ∃ shdr, shdrs[(findTables ehdr shdrs n).2.1]? = some shdr ∧ shdr.shType = shtSymtab) ∧
    (findTables ehdr shdrs n).2.2 ≤ shdrs.length := by
  induction n with
  | zero => exact ⟨fun h0 => absurd rfl h0, fun h0 => absurd rfl h0, Nat.zero_le _⟩
  | succ n ih =>
    obtain ⟨ih1, ih2, ih3⟩ := ih (by omega)
    rw [findTables, List.getElem?_eq_getElem (by omega)]
    dsimp only
    split
    · exact ⟨fun _ => h, ih2, ih3⟩
    · split
      · rename_i hsym
        refine ⟨ih1, fun _ => ⟨_, List.getElem?_eq_getElem (Nat.lt_of_succ_le h), hsym.2⟩, ?_⟩
        dsimp only
        split
        · omega
        · exact ih3
      · exact ⟨ih1, ih2, ih3⟩

theorem chunk_read (file : File) {o n m i : Nat} (h : i * m + m ≤ n) : chunk m i (file.read o n) = file.read (o + i * m) m := by
  refine List.ext_getElem? fun j => ?_
  rw [getElem?_chunk]
  split
  · simp only [File.read, List.getElem?_map]
    rw [List.getElem?_range (by omega), List.getElem?_range (by omega)]
    simp [Nat.add_assoc]
  · rw [List.getElem?_eq_none (by rw [File.length_read]; omega)]

/-! ## Ranges and bounds -/

/-- No sum of the layout is taken modulo 2^64. -/
def Unwrapped (f : ElfFile) : Prop := ∀ r ∈ rangesOf f.eiClass f.ehdr f.shdrs, r.1 + r.2 < 2 ^ 64

/-- The bound of a range. -/
def BoundOf (b : Bound) (r : Range) : Prop := b.1.toNat = r.1 ∧ b.2.toNat = r.1 + r.2

theorem apart_of_not_overlaps {b b' : Bound} {r r' : Range} (hr : BoundOf b r) (hr' : BoundOf b' r') (h : ¬ overlaps b' b) :
    r.Apart r' := by
  rintro x ⟨h1, h2, h3, h4⟩
  refine h ⟨?_, ?_⟩
  · rw [UInt64.lt_iff_toNat_lt, hr.2, hr'.1]
    omega
  · rw [UInt64.lt_iff_toNat_lt, hr.1, hr'.2]
    omega

section Bounds
variable {f : ElfFile} (h : Unwrapped f)
include h

theorem Unwrapped.phdrs : BoundOf (phdrBound f.eiClass f.ehdr) (f.ehdr.ePhoff.toNat, f.ehdr.ePhnum.toNat * f.eiClass.phdrSize) :=
  ⟨rfl, toNat_bound (h _ List.mem_cons_self)⟩

theorem Unwrapped.shdrs : BoundOf (shdrBound f.eiClass f.ehdr) (f.ehdr.eShoff.toNat, f.ehdr.eShnum.toNat * f.eiClass.shdrSize) :=
  ⟨rfl, toNat_bound (h _ (List.mem_cons_of_mem _ List.mem_cons_self))⟩

theorem Unwrapped.section {shdr : Shdr64} (hmem : shdr ∈ f.shdrs) (hbits : shdr.shType ≠ shtNobits) :
    BoundOf (sectionBound shdr) shdr.range := by
  have hlt := h shdr.range (List.mem_cons_of_mem _ (List.mem_cons_of_mem _ (List.mem_map_of_mem
    (List.mem_filter.2 ⟨hmem, decide_eq_true hbits⟩))))
  rw [Shdr64.range_stored hbits] at hlt
  refine ⟨rfl, ?_⟩
  rw [sectionBound, UInt64.toNat_add, Shdr64.range_stored hbits]
  exact Nat.mod_eq_of_lt hlt

end Bounds

/-! ## Files that load -/

structure Loaded (file : File) (f : ElfFile) : Prop where
  headers : HeadersOf file f
  tables : (f.shstrtab, f.symtab, f.strtab) = findTables f.ehdr f.shdrs f.shdrs.length
  ranges : f.sections.map ElfSection.range = f.shdrs.map Shdr64.range
  inside : ∀ shdr ∈ f.shdrs, shdr.shType ≠ shtNobits → (sectionBound shdr).2.toNat ≤ file.size
  apart : (phdrBound f.eiClass f.ehdr :: shdrBound f.eiClass f.ehdr ::
    (f.shdrs.filter fun shdr => shdr.shType ≠ shtNobits).map sectionBound).Pairwise fun b b' => ¬ overlaps b' b
  noSymbols : f.symtab = 0 → f.symbols = []
  entsize : f.symtab ≠ 0 → ∃ shdr, f.shdrs[f.symtab]? = some shdr ∧ shdr.shEntsize.toNat = f.eiClass.symSize
  symbols : Unwrapped f → f.symtab ≠ 0 → ∀ shdr, f.shdrs[f.symtab]? = some shdr →
    f.symbols = (List.range (numSymbols shdr)).map fun i =>
      readSym f.eiClass (bswap f.eiData f.eiClass.symWidths
        (file.read (shdr.shOffset.toNat + i * f.eiClass.symSize) f.eiClass.symSize))

theorem apart_ranges {f : ElfFile} (h : Unwrapped f) (hapart : (phdrBound f.eiClass f.ehdr :: shdrBound f.eiClass f.ehdr ::
    (f.shdrs.filter fun shdr => shdr.shType ≠ shtNobits).map sectionBound).Pairwise fun b b' => ¬ overlaps b' b) :
    (rangesOf f.eiClass f.ehdr f.shdrs).Pairwise Range.Apart := by
  have hstored {shdr : Shdr64} (hmem : shdr ∈ f.shdrs.filter fun shdr => shdr.shType ≠ shtNobits) :
      BoundOf (sectionBound shdr) shdr.range := by
    obtain ⟨hmem, hbits⟩ := List.mem_filter.1 hmem
    exact h.section hmem (of_decide_eq_true hbits)
  obtain ⟨hph, hrest⟩ := List.pairwise_cons.1 hapart
  obtain ⟨hsh, hsecs⟩ := List.pairwise_cons.1 hrest
  refine List.pairwise_cons.2 ⟨?_, List.pairwise_cons.2 ⟨?_, List.pairwise_map.2 ?_⟩⟩
  · intro r hr
    rcases List.mem_cons.1 hr with rfl | hr
    · exact apart_of_not_overlaps h.phdrs h.shdrs (hph _ List.mem_cons_self)
    · obtain ⟨shdr, hmem, rfl⟩ := List.mem_map.1 hr
      exact apart_of_not_overlaps h.phdrs (hstored hmem) (hph _ (List.mem_cons_of_mem _ (List.mem_map_of_mem hmem)))
  · intro r hr
    obtain ⟨shdr, hmem, rfl⟩ := List.mem_map.1 hr
    exact apart_of_not_overlaps h.shdrs (hstored hmem) (hsh _ (List.mem_map_of_mem hmem))
  · exact (List.pairwise_map.1 hsecs).imp_of_mem fun hmem hmem' hno => apart_of_not_overlaps (hstored hmem) (hstored hmem') hno

/-- Sections in memory lie where they lie in the file. -/
theorem placed_of_ranges {f : ElfFile} (h : Unwrapped f) (hranges : f.sections.map ElfSection.range = f.shdrs.map Shdr64.range)
    (hapart : (rangesOf f.eiClass f.ehdr f.shdrs).Pairwise Range.Apart) : Placed f.sections := by
  have hbelow : ∀ r ∈ f.shdrs.map Shdr64.range, r.1 + r.2 < 2 ^ 64 := by
    intro r hr
    obtain ⟨shdr, hmem, rfl⟩ := List.mem_map.1 hr
    by_cases hbits : shdr.shType = shtNobits
    · rw [Shdr64.range_nobits hbits]
      exact shdr.shOffset.toNat_lt
    · rw [← (h.section hmem hbits).2]
      exact (sectionBound shdr).2.toNat_lt
  have hpair : (f.shdrs.map Shdr64.range).Pairwise Range.Apart := by
    obtain ⟨-, hrest⟩ := List.pairwise_cons.1 hapart
    obtain ⟨-, hsecs⟩ := List.pairwise_cons.1 hrest
    rw [List.pairwise_map, List.pairwise_filter] at hsecs
    refine List.pairwise_map.2 (hsecs.imp fun {shdr shdr'} hstored => ?_)
    by_cases hbits : shdr.shType = shtNobits
    · have hempty : shdr.range = (shdr.shOffset.toNat, 0) := Prod.ext rfl (Shdr64.range_nobits hbits)
      rw [hempty]
      exact Range.apart_of_empty _ _
    · by_cases hbits' : shdr'.shType = shtNobits
      · have hempty : shdr'.range = (shdr'.shOffset.toNat, 0) := Prod.ext rfl (Shdr64.range_nobits hbits')
        rw [hempty]
        exact (Range.apart_of_empty _ _).symm
      · exact hstored (decide_eq_true hbits) (decide_eq_true hbits')
  rw [← hranges] at hbelow hpair
  exact ⟨fun s hs => hbelow s.range (List.mem_map_of_mem hs), List.pairwise_map.1 hpair⟩

theorem hasSymtab_of_sections {file : File} (hsize : file.size < 2 ^ 63) {f : ElfFile} {shdr : Shdr64} (hun : Unwrapped f)
    (htables : (f.shstrtab, f.symtab, f.strtab) = findTables f.ehdr f.shdrs f.shdrs.length) (hzero : f.symtab ≠ 0)
    (hshdr : f.shdrs[f.symtab]? = some shdr) (hent : shdr.shEntsize.toNat = f.eiClass.symSize)
    (hsecs : SectionsOf file f.shdrs [phdrBound f.eiClass f.ehdr, shdrBound f.eiClass f.ehdr] f.sections) :
    HasSymtab f shdr (sectionOf file shdr) ∧ shdr.range.2 = shdr.shSize.toNat := by
  have htype : shdr.shType ≠ shtNobits := by
    obtain ⟨-, hfound, -⟩ := findTables_spec f.ehdr f.shdrs (Nat.le_refl _)
    rw [← htables] at hfound
    obtain ⟨shdr', hshdr', htype⟩ := hfound hzero
    obtain rfl : shdr = shdr' := Option.some.inj (hshdr.symm.trans hshdr')
    rw [htype]
    decide
  have hcontents : f.sections = f.shdrs.map (sectionOf file) := by
    refine hsecs.contents fun shdr hmem hbits => ?_
    have hin := hsecs.inside shdr hmem hbits
    rw [(hun.section hmem hbits).2] at hin
    exact lt_of_le_of_lt ((Nat.le_add_right ..).trans hin) hsize
  refine ⟨⟨hzero, hshdr, hent, ?_, rfl, ?_, placed_of_ranges hun hsecs.ranges (apart_ranges hun hsecs.apart)⟩, Shdr64.range_stored htype⟩
  · rw [hcontents, List.getElem?_map, hshdr]
    rfl
  · rw [sectionOf, File.length_read, Shdr64.range_stored htype]

theorem SameShape.symtab {f g : ElfFile} (h : SameShape f g) : g.symtab = f.symtab := (Prod.mk.inj (Prod.mk.inj h.tables).2).1

theorem SameShape.unwrapped {f g : ElfFile} (h : SameShape f g) : Unwrapped g ↔ Unwrapped f := by
  rw [Unwrapped, Unwrapped, h.eiClass, h.ehdr, h.shdrs]

theorem HeadersOf.of_shape {file : File} {f g : ElfFile} (h : SameShape f g) (hf : HeadersOf file f) : HeadersOf file g := by
  refine ⟨h.eiClass.trans hf.eiClass, h.eiData.trans hf.eiData, h.ehdr.trans hf.ehdr, ?_, ?_⟩
  · rw [h.eiClass, h.ehdr]
    exact hf.ok
  · rw [h.eiClass, h.ehdr, h.shdrs]
    exact hf.shdrs

theorem loaded_of_readContents {file : File} (hsize : file.size < 2 ^ 63) {f g : ElfFile} {pos pos' : Nat} (hh : HeadersOf file f)
    (htables : (f.shstrtab, f.symtab, f.strtab) = findTables f.ehdr f.shdrs f.shdrs.length)
    (hsecs : SectionsOf file f.shdrs [phdrBound f.eiClass f.ehdr, shdrBound f.eiClass f.ehdr] f.sections)
    (h : f.readContents pos = .ok g pos') : Loaded file g := by
  have hlen : f.sections.length = f.shdrs.length := by
    simpa using congrArg List.length hsecs.ranges
  obtain ⟨shape, f1, p1, hswap, hsyms⟩ := readContents_ok hlen h
  have shape1 := yields_byteswapSymbolTable f pos f1 p1 hswap
  have hsymtab : g.symtab = f1.symtab := shape.symtab.trans shape1.symtab.symm
  refine ⟨hh.of_shape shape, ?_, ?_, ?_, ?_, fun h0 => hsyms.none (hsymtab ▸ h0), fun hne => ?_, fun hun hne shdr hshdr => ?_⟩
  · rw [shape.tables, shape.ehdr, shape.shdrs, htables]
  · rw [shape.sections, shape.shdrs, hsecs.ranges]
  · rw [shape.shdrs]
    exact hsecs.inside
  · rw [shape.eiClass, shape.ehdr, shape.shdrs]
    exact hsecs.apart
  · obtain ⟨shdr, hshdr, hent⟩ := hsyms.entsize (hsymtab ▸ hne)
    rw [shape1.shdrs, shape1.symtab, shape1.eiClass] at *
    rw [shape.shdrs, shape.symtab, shape.eiClass]
    exact ⟨shdr, hshdr, hent⟩
  · rw [shape.unwrapped] at hun
    rw [shape.symtab] at hne
    rw [shape.shdrs, shape.symtab] at hshdr
    obtain ⟨shdr', hshdr', hent⟩ := hsyms.entsize (shape1.symtab.symm ▸ hne)
    rw [shape1.shdrs, shape1.symtab] at hshdr'
    rw [shape1.eiClass] at hent
    obtain rfl : shdr = shdr' := Option.some.inj (hshdr.symm.trans hshdr')
    obtain ⟨hsym, hrange⟩ := hasSymtab_of_sections hsize hun htables hne hshdr hent hsecs
    have hle := hsym.numSymbols_le
    rw [hsym.byteswapSymbolTable_eq] at hswap
    obtain ⟨rfl, -⟩ := Outcome.ok.inj hswap
    have hval := hsyms.table _ _ (hsym.setBuf (length_swapFirst hle))
    rw [show g.symbols = _ from hval, shape.eiClass, shape.eiData]
    refine List.map_congr_left fun i hi => congrArg (readSym f.eiClass) ?_
    refine (hsym.chunk_swapped (List.mem_range.1 hi)).trans (congrArg (bswap f.eiData f.eiClass.symWidths) ?_)
    have hfit := hsym.fits (List.mem_range.1 hi)
    rw [hsym.size, ← hrange] at hfit
    exact chunk_read file hfit

theorem load_ok {self f : ElfFile} {file : File} (hsize : file.size < 2 ^ 63) {pos : Nat} (h : load self file 0 = .ok f pos) :
    Loaded file f := by
  obtain ⟨f0, p0, hheaders, h⟩ := Prog.of_bind_ok h
  obtain ⟨secs, p1, hread, h⟩ := Prog.of_bind_ok h
  have hh := loadHeaders_ok hsize hheaders
  have hs : SectionsOf file f0.shdrs [phdrBound f0.eiClass f0.ehdr, shdrBound f0.eiClass f0.ehdr] secs := by
    refine (Prog.wp_of_ok hread).1 (wp_readSections (List.pairwise_pair.2 fun ho => hh.ok.apart ?_))
    exact ⟨ho.2, ho.1⟩
  refine loaded_of_readContents hsize ?_ ?_ ?_ h
  · exact ⟨hh.eiClass, hh.eiData, hh.ehdr, hh.ok, hh.shdrs⟩
  · rfl
  · exact hs

/-! ## Well formed or not -/

namespace Loaded

variable {file : File} {f : ElfFile}

theorem shdrs (h : Loaded file f) (hun : Unwrapped f) : f.shdrs = fileShdrs file :=
  h.headers.shdrs (hun _ (List.mem_cons_of_mem _ List.mem_cons_self))

theorem tables_eq (h : Loaded file f) (hun : Unwrapped f) : (f.shstrtab, f.symtab, f.strtab) = fileTables file := by
  rw [h.tables, h.headers.ehdr, h.shdrs hun]
  rfl

theorem symbols_eq (h : Loaded file f) (hun : Unwrapped f) : f.symbols = fileSymbols file := by
  have htables := h.tables_eq hun
  rw [fileSymbols, ← htables]
  by_cases hzero : f.symtab = 0
  · rw [if_pos hzero, h.noSymbols hzero]
  · obtain ⟨shdr, hshdr, -⟩ := h.entsize hzero
    rw [if_neg hzero, ← h.shdrs hun]
    simp only [hshdr]
    rw [h.symbols hun hzero shdr hshdr, h.headers.eiClass, h.headers.eiData]

theorem unwrapped_iff (h : Loaded file f) :
    Unwrapped f ↔ ∀ r ∈ rangesOf (fileClass file) (fileEhdr file) (fileShdrs file), r.1 + r.2 < 2 ^ 64 := by
  constructor
  · intro hun
    rw [← h.shdrs hun, ← h.headers.ehdr, ← h.headers.eiClass]
    exact hun
  · intro hall
    have hshdrs : f.shdrs = fileShdrs file := by
      refine h.headers.shdrs ?_
      rw [h.headers.ehdr, h.headers.eiClass]
      exact hall _ (List.mem_cons_of_mem _ List.mem_cons_self)
    rw [Unwrapped, hshdrs, h.headers.ehdr, h.headers.eiClass]
    exact hall

/-- A name resolves exactly if it starts in its table. -/
theorem resolves_iff (h : Loaded file f) (hun : Unwrapped f) {table : Nat} (htable : table < f.shdrs.length) (name : UInt32) :
    f.Resolves table name ↔ name.toNat < tableSize file table := by
  have hshdr := List.getElem?_eq_getElem htable
  have hsize : tableSize file table = f.shdrs[table].range.2 := by
    rw [tableSize, ← h.shdrs hun, hshdr]
    rfl
  have hlen : table < f.sections.length := by
    have := congrArg List.length h.ranges
    simp only [List.length_map] at this
    omega
  have hsec := List.getElem?_eq_getElem hlen
  have hrange : f.sections[table].range = f.shdrs[table].range := by
    have := congrArg (·[table]?) h.ranges
    simpa [List.getElem?_map, hshdr, hsec] using this
  have hoff : f.sections[table].offset.toNat = f.shdrs[table].shOffset.toNat := congrArg Prod.fst hrange
  have hbuf : f.sections[table].buf.length = tableSize file table := (congrArg Prod.snd hrange).trans hsize.symm
  have hplaced := placed_of_ranges hun h.ranges (apart_ranges hun h.apart)
  have hbelow := hplaced.below _ (List.getElem_mem hlen)
  have hname : name.toUInt64.toNat = name.toNat := by simp
  have hlt := name.toNat_lt
  constructor
  · rintro ⟨shdr, pos, hshdr', hloc⟩
    obtain rfl := Option.some.inj (hshdr.symm.trans hshdr')
    obtain ⟨s, hs, hlo, hhi⟩ := of_locate hloc
    obtain rfl := Option.some.inj (hsec.symm.trans hs)
    obtain ⟨hlo, hhi⟩ := (holds_iff hbelow _).1 ⟨hlo, hhi⟩
    rw [UInt64.toNat_add, hname] at hlo hhi
    omega
  · intro hin
    have hadd : (f.shdrs[table].shOffset + name.toUInt64).toNat = f.shdrs[table].shOffset.toNat + name.toNat := by
      rw [UInt64.toNat_add, hname, Nat.mod_eq_of_lt (by omega)]
    exact ⟨_, _, hshdr, locate_of_placed hplaced hsec (by omega) (by omega)⟩

end Loaded

theorem isRela_iff (shdr : Shdr64) : (isRela shdr → shdr.shType = shtRela) ↔ shdr.shType.toNat % 8 < 4 ∨ shdr.shType = shtRela := by
  have hbit : isRela shdr ↔ ¬ shdr.shType.toNat % 8 < 4 := by
    have hlow : shdr.shType.toNat &&& 4 = shdr.shType.toNat % 8 &&& 4 := by
      rw [← Nat.mod_eq_of_lt (show shdr.shType.toNat &&& 4 < 2 ^ 3 from lt_of_le_of_lt Nat.and_le_right (by decide)),
        Nat.and_mod_two_pow]
    have hall : ∀ x, x < 8 → (x &&& 4 ≠ 0 ↔ ¬ x < 4) := by decide
    rw [isRela, Ne, ← UInt32.toNat_inj, UInt32.toNat_and]
    exact hlow ▸ hall _ (Nat.mod_lt _ (by decide))
  rw [hbit]
  tauto

/-- A file that loads is well formed exactly if none of its fields is mistaken. `off_t` is signed, so no file has 2^63 bytes. -/
theorem load_wellFormed_iff (self : ElfFile) {f : ElfFile} {file : File} (hsize : file.size < 2 ^ 63) {pos : Nat}
    (h : load self file 0 = .ok f pos) : WellFormed file f ↔ Unmistaken file := by
  have hl := load_ok hsize h
  obtain ⟨hshstrtab, hsymtab, hstrtab⟩ := findTables_spec f.ehdr f.shdrs (Nat.le_refl _)
  rw [← hl.tables] at hshstrtab hsymtab hstrtab
  constructor
  · intro hw
    have hun : Unwrapped f := fun r hr => (hw.inside r hr).1
    have ht := hl.tables_eq hun
    have hs := hl.shdrs hun
    refine ⟨hl.unwrapped_iff.1 hun, ?_, ?_, ?_, ?_⟩
    · rw [← ht, ← hs]
      exact fun hne => (hw.link hne).ne
    · rw [← hs]
      exact fun shdr hmem => (isRela_iff shdr).1 (hw.relocations shdr hmem)
    · rw [← ht, ← hs]
      exact fun hne shdr hmem => (hl.resolves_iff hun (hshstrtab hne) _).1 (hw.sectionNames hne shdr hmem)
    · rw [← ht, ← hl.symbols_eq hun]
      exact fun hne sym hmem => (hl.resolves_iff hun (hw.link hne) _).1 (hw.symbolNames hne sym hmem)
  · intro hm
    have hun := hl.unwrapped_iff.2 hm.unwrapped
    have ht := hl.tables_eq hun
    have hs := hl.shdrs hun
    have hlink : f.strtab ≠ 0 → f.strtab < f.shdrs.length := by
      intro hne
      have := hm.link
      rw [← ht, ← hs] at this
      exact lt_of_le_of_ne hstrtab (this hne)
    refine ⟨?_, apart_ranges hun hl.apart, hlink, ?_, ?_, ?_, ?_⟩
    · intro r hr
      refine ⟨hun r hr, ?_⟩
      rcases List.mem_cons.1 hr with rfl | hr
      · rw [← hun.phdrs.2]
        exact hl.headers.ok.phdrs
      · rcases List.mem_cons.1 hr with rfl | hr
        · rw [← hun.shdrs.2]
          exact hl.headers.ok.shdrs
        · obtain ⟨shdr, hmem, rfl⟩ := List.mem_map.1 hr
          obtain ⟨hmem, hbits⟩ := List.mem_filter.1 hmem
          rw [← (hun.section hmem (of_decide_eq_true hbits)).2]
          exact hl.inside shdr hmem (of_decide_eq_true hbits)
    · intro hne
      obtain ⟨shdr, hshdr, hent⟩ := hl.entsize hne
      refine ⟨shdr, hshdr, fun h0 => ?_⟩
      rw [h0] at hent
      exact absurd hent.symm (symSize_pos f.eiClass).ne'
    · intro shdr hmem
      exact (isRela_iff shdr).2 (hm.types shdr (hs ▸ hmem))
    · intro hne shdr hmem
      have := hm.sectionNames
      rw [← ht, ← hs] at this
      exact (hl.resolves_iff hun (hshstrtab hne) _).2 (this hne shdr hmem)
    · intro hne sym hmem
      have := hm.symbolNames
      rw [← ht, ← hl.symbols_eq hun] at this
      exact (hl.resolves_iff hun (hlink hne) _).2 (this hne sym hmem)

/-- A file with one section of 24 bytes. -/
def oneSection (shType : UInt32) : File :=
  File.writes
    [(0, writeEhdr elfData2Lsb .elf64 { (initObject .elf64).ehdr with eShoff := 64, eShnum := 1, eShstrndx := 0 }),
      (64, writeShdr elfData2Lsb .elf64 { shName := 0, shType, shFlags := 0, shAddr := 0, shOffset := 128, shSize := 24, shLink := 0,
                                          shInfo := 0, shAddralign := 0, shEntsize := 0 }),
      (128, List.replicate 24 0)]
    .empty

theorem load_wellFormed_iff_relocations : ∃ f pos, load (initObject .elf64) (oneSection shtRela) 0 = .ok f pos ∧
    WellFormed (oneSection shtRela) f := by
  have hok : (load (initObject .elf64) (oneSection shtRela) 0).result.isSome = true := by decide
  obtain ⟨⟨f, pos⟩, hres⟩ := Option.isSome_iff_exists.1 hok
  refine ⟨f, pos, Outcome.eq_ok hres, (load_wellFormed_iff _ (by decide) (Outcome.eq_ok hres)).2 ?_⟩
  exact ⟨by decide, by decide, by decide, by decide, by decide⟩

/-- A section of notes is read as relocations. -/
theorem not_wellFormed_note : ∃ f pos, (oneSection 7).size < 2 ^ 63 ∧ load (initObject .elf64) (oneSection 7) 0 = .ok f pos ∧
    ¬ WellFormed (oneSection 7) f := by
  have hok : ((load (initObject .elf64) (oneSection 7) 0).result.map fun r => (r.1.shdrs.map Shdr.shType, r.1.relocations.length)) =
      some ([7], 1) := by decide
  obtain ⟨⟨f, pos⟩, hres, hf⟩ := Option.map_eq_some_iff.1 hok
  refine ⟨f, pos, by decide, Outcome.eq_ok hres, fun hw => ?_⟩
  have htypes : (7 : UInt32) ∈ f.shdrs.map Shdr.shType := by
    rw [(Prod.mk.inj hf).1]
    exact List.mem_singleton_self 7
  obtain ⟨shdr, hmem, htype⟩ := List.mem_map.1 htypes
  have hrela := hw.relocations shdr hmem (by rw [isRela, htype]; decide)
  rw [htype] at hrela
  exact absurd hrela (by decide)

end Rv8.Elf
