import Rv8.Elf.Checks
import Rv8.Elf.Save
/-!
# An object comes back from its file

The file that is saved passes every check of `load`: the sections lie one after another
between the file header and the section headers. What is loaded has the symbols, the
relocations and the names of the object that was saved, since its tables were made from
them.
-/

namespace Rv8.Elf

open Rv8.Lib ElfFile

/-! ## Names -/

/-- A name is found where the table of names has it. -/
theorem drop_nameTable {names : List (List UInt8)} {k o start : Nat} {name : List UInt8} (hname : names[k]? = some name)
    (ho : (nameOffsets start names)[k]? = some o) :
    start ≤ o ∧ ∃ rest, (nameTable names).drop (o - start) = name ++ 0 :: rest := by
  induction names generalizing k start with
  | nil => cases hname
  | cons n names ih =>
    cases k with
    | zero =>
      obtain rfl := Option.some.inj hname
      obtain rfl := Option.some.inj ho
      refine ⟨Nat.le_refl _, nameTable names, ?_⟩
      rw [Nat.sub_self, List.drop_zero, nameTable, List.flatMap_cons, List.append_assoc]
      rfl
    | succ k =>
      obtain ⟨hle, rest, hrest⟩ := ih hname ho
      have hsub : o - start = (n ++ [0]).length + (o - (start + (n.length + 1))) := by
        rw [List.length_append, List.length_singleton]
        omega
      refine ⟨by omega, rest, ?_⟩
      rw [hsub, nameTable, List.flatMap_cons, ← List.drop_drop, List.drop_left]
      exact hrest

theorem cString_append {name rest : List UInt8} (h : 0 ∉ name) : cString (name ++ 0 :: rest) = some name := by
  have hmem : (0 : UInt8) ∈ name ++ 0 :: rest := List.mem_append_right _ List.mem_cons_self
  have hall : ∀ b ∈ name, decide (b ≠ 0) = true := fun b hb => decide_eq_true fun h0 => h (h0 ▸ hb)
  rw [cString, if_pos hmem, List.takeWhile_append_of_pos hall]
  simp

theorem lt_of_drop_eq {bs name rest : List UInt8} {o : Nat} (h : bs.drop o = name ++ 0 :: rest) : o < bs.length := by
  by_contra hge
  rw [List.drop_of_length_le (by omega)] at h
  simp at h

/-- A name is read from its table. -/
theorem stringAt_name {g : ElfFile} (hplaced : Placed g.sections) {table k : Nat} {sec : ElfSection}
    (hsec : g.sections[table]? = some sec) {ns : List (List UInt8)} (hbuf : sec.buf = nameTable ns) (hlen : (nameTable ns).length < 2 ^ 32)
    {name : List UInt8} {o : UInt32} (hname : ns[k]? = some name) (hnul : 0 ∉ name)
    (ho : ((nameOffsets 0 ns).map UInt32.ofNat)[k]? = some o) {σ : Type} :
    (g.stringAt (sec.offset + o.toUInt64) : Prog ElfPanic σ _) = pure name := by
  rw [List.getElem?_map] at ho
  obtain ⟨start, hstart, rfl⟩ := Option.map_eq_some_iff.1 ho
  obtain ⟨-, rest, hrest⟩ := drop_nameTable hname hstart
  rw [Nat.sub_zero] at hrest
  have hlt := lt_of_drop_eq hrest
  have hbelow := hplaced.below _ (List.mem_of_getElem? hsec)
  rw [hbuf] at hbelow
  have hoff : (sec.offset + (UInt32.ofNat start).toUInt64).toNat = sec.offset.toNat + start := by
    have hnat : (UInt32.ofNat start).toUInt64.toNat = start := by
      rw [UInt32.toNat_toUInt64, UInt32.toNat_ofNat_of_lt' (by simp only [UInt32.size]; omega)]
    rw [UInt64.toNat_add, hnat]
    exact Nat.mod_eq_of_lt (by omega)
  have hloc : locate (sec.offset + (UInt32.ofNat start).toUInt64) g.sections = some (table, start) := by
    rw [locate_of_placed hplaced hsec (by rw [hoff]; exact Nat.le_add_right ..) (by rw [hoff, hbuf]; omega), hoff,
      Nat.add_sub_cancel_left]
  refine stringAt_eq hloc ?_
  rw [bufOf_eq hsec, hbuf, hrest, cString_append hnul]

/-! ## Sections that keep apart load -/

theorem readSections_ok {file : File} {shdrs : List Shdr64} {bounds : List Bound} (hsize : file.size < 2 ^ 63)
    (hin : ∀ shdr ∈ shdrs, shdr.shType ≠ shtNobits → shdr.shOffset.toNat + shdr.shSize.toNat ≤ file.size)
    (hapart : (bounds ++ (shdrs.filter fun shdr => shdr.shType ≠ shtNobits).map sectionBound).Pairwise fun b b' => ¬ overlaps b' b)
    (pos : Nat) : ∃ pos', readSections file shdrs bounds pos = .ok (shdrs.map (sectionOf file)) pos' := by
  induction shdrs generalizing bounds pos with
  | nil => exact ⟨pos, rfl⟩
  | cons shdr shdrs ih =>
    have hin' : ∀ shdr ∈ shdrs, shdr.shType ≠ shtNobits → shdr.shOffset.toNat + shdr.shSize.toNat ≤ file.size :=
      fun shdr' hmem => hin shdr' (List.mem_cons_of_mem _ hmem)
    rw [readSections]
    by_cases hbits : shdr.shType = shtNobits
    · have hrest : (bounds ++ (shdrs.filter fun shdr => shdr.shType ≠ shtNobits).map sectionBound).Pairwise
          fun b b' => ¬ overlaps b' b := by simpa [hbits] using hapart
      obtain ⟨pos', hpos'⟩ := ih hin' hrest pos
      refine ⟨pos', ?_⟩
      rw [if_pos hbits, Prog.bind_ok hpos', List.map_cons, sectionOf, Shdr64.range_nobits hbits]
      rfl
    · have hfit := hin shdr List.mem_cons_self hbits
      have hbound : (sectionBound shdr).2.toNat = shdr.shOffset.toNat + shdr.shSize.toNat := by
        rw [sectionBound, UInt64.toNat_add]
        exact Nat.mod_eq_of_lt (by omega)
      have hover : ¬ ∃ b ∈ bounds, overlaps (sectionBound shdr) b := by
        rintro ⟨b, hb, ho⟩
        refine (List.pairwise_append.1 hapart).2.2 b hb (sectionBound shdr) ?_ ho
        exact List.mem_map_of_mem (List.mem_filter.2 ⟨List.mem_cons_self, decide_eq_true hbits⟩)
      have hread : fread file shdr.shSize.toNat shdr.shOffset.toNat =
          .ok (file.read shdr.shOffset.toNat shdr.shSize.toNat) (shdr.shOffset.toNat + shdr.shSize.toNat) := if_pos hfit
      have hrest : ((bounds ++ [sectionBound shdr]) ++ (shdrs.filter fun shdr => shdr.shType ≠ shtNobits).map sectionBound).Pairwise
          fun b b' => ¬ overlaps b' b := by simpa [hbits] using hapart
      obtain ⟨pos', hpos'⟩ := ih hin' hrest (shdr.shOffset.toNat + shdr.shSize.toNat)
      refine ⟨pos', ?_⟩
      have hseek : (fseek shdr.shOffset pos : Outcome ElfPanic Nat Unit) = .ok () shdr.shOffset.toNat := by
        rw [fseek, Prog.modify, if_pos (by omega)]
      simp only [if_neg hbits, if_neg hover, if_neg (show ¬ file.size < (sectionBound shdr).2.toNat by omega)]
      rw [Prog.bind_ok hseek, Prog.bind_ok hread, Prog.bind_ok hpos', List.map_cons, sectionOf, Shdr64.range_stored hbits]
      rfl

/-! ## The headers -/

/-- The first bytes of a 64 bit little-endian file. -/
def ident64 : Vector UInt8 16 := #v[0x7f, 0x45, 0x4c, 0x46, elfClass64, elfData2Lsb, 1, 0, 0, 0, 0, 0, 0, 0, 0, 0]

/-- An object whose tables are made of its names, symbols and relocations. -/
structure Complete (f : ElfFile) (names : List (List UInt8)) : Prop where
  ready : Ready f
  ident : f.ehdr.eIdent = ident64
  version : f.ehdr.eVersion = evCurrent
  nonempty : 0 < f.shdrs.length
  tables : findTables f.ehdr f.shdrs f.shdrs.length = (f.shstrtab, f.symtab, f.strtab)
  symbols : f.bufOf f.symtab = (sym64Layout UInt64).encodeAll f.symbols
  relocations : f.bufOf f.relaText = (relaLayout UInt64).encodeAll f.relocations
  relaText : f.relaText < f.shdrs.length ∧ ∀ i shdr, f.shdrs[i]? = some shdr → (isRela shdr ↔ i = f.relaText)
  sectionNames : f.bufOf f.shstrtab = nameTable (f.sections.map ElfSection.name)
  sectionOffsets : f.shdrs.map Shdr.shName = (nameOffsets 0 (f.sections.map ElfSection.name)).map UInt32.ofNat
  symbolNames : f.bufOf f.strtab = nameTable names
  symbolOffsets : f.symbols.map Sym.stName = (nameOffsets 0 names).map UInt32.ofNat
  terminated : ∀ name ∈ names ++ f.sections.map ElfSection.name, 0 ∉ name
  shstrtab : f.shstrtab ≠ 0 ∧ f.shstrtab < f.shdrs.length
  strtab : f.strtab ≠ 0 ∧ f.strtab < f.shdrs.length
  strings : (f.bufOf f.strtab).length < 2 ^ 32 ∧ (f.bufOf f.shstrtab).length < 2 ^ 32

/-- The search for the tables looks at types and links only. -/
theorem findTables_congr {ehdr ehdr' : Ehdr64} {shdrs shdrs' : List Shdr64} (hndx : ehdr'.eShstrndx = ehdr.eShstrndx)
    (h : shdrs'.map (fun shdr => (shdr.shType, shdr.shLink)) = shdrs.map fun shdr => (shdr.shType, shdr.shLink)) (n : Nat) :
    findTables ehdr' shdrs' n = findTables ehdr shdrs n := by
  have hlen : shdrs'.length = shdrs.length := by
    simpa using congrArg List.length h
  induction n with
  | zero => rfl
  | succ n ih =>
    have hget := congrArg (·[n]?) h
    simp only [List.getElem?_map] at hget
    rw [findTables, findTables, ih]
    cases hs : shdrs[n]? with
    | none =>
      rw [hs] at hget
      rw [Option.map_eq_none_iff.1 hget]
    | some shdr =>
      rw [hs] at hget
      obtain ⟨shdr', hs', heq⟩ := Option.map_eq_some_iff.1 hget
      obtain ⟨htype, hlink⟩ := Prod.mk.inj heq
      rw [hs']
      simp only [htype, hlink, hndx, hlen]

/-- What is in memory once the sections have been read. -/
def loaded (self f : ElfFile) : ElfFile :=
  { self with
    eiClass := .elf64, eiData := elfData2Lsb, ehdr := (settle f).ehdr, phdrs := [], shdrs := (settle f).shdrs, symbols := [],
    relocations := [], shstrtab := f.shstrtab, symtab := f.symtab, strtab := f.strtab,
    sections := (settle f).shdrs.map (sectionOf (savedFile f)) }

def loadedSymbols (self f : ElfFile) : ElfFile := { loaded self f with symbols := f.symbols }

def loadedRelocations (self f : ElfFile) : ElfFile := { loadedSymbols self f with relocations := f.relocations, relaText := f.relaText }

/-- What loading returns. -/
def reloaded (self f : ElfFile) : ElfFile :=
  { loadedRelocations self f with
    sections := List.zipWith (fun (s : ElfSection) name => { s with name }) (loaded self f).sections (f.sections.map ElfSection.name) }

section Load
variable {f : ElfFile} {names : List (List UInt8)} (h : Complete f names)
include h

namespace Complete

theorem size_lt : (savedFile f).size < 2 ^ 63 := by
  rw [h.ready.size_savedFile h.nonempty]
  exact h.ready.size

theorem read_ident : (savedFile f).read 0 16 = ident64.toList := by
  have htake : (savedFile f).read 0 16 = ((savedFile f).read 0 64).take 16 := by
    rw [File.read, File.read, ← List.map_take]
    rfl
  rw [htake, h.ready.read_ehdr]
  have hid : (settle f).ehdr.eIdent = ident64 := h.ident
  simp only [writeEhdr, bswap, Layout.encode, ehdrLayout, hid]
  rfl

theorem readIdent_eq : readIdent (savedFile f) 0 = .ok (.elf64, elfData2Lsb) 16 := by
  have hsize := h.ready.size_savedFile h.nonempty
  have hstart : 64 ≤ (laidOut f).2 := le_place h.ready.placeable 0 64
  have hread : fread (savedFile f) 16 0 = .ok ident64.toList 16 := by
    rw [fread, if_pos (by omega), h.read_ident]
  simp only [readIdent, if_neg (show ¬ (savedFile f).size < 16 by omega)]
  rw [Prog.bind_ok hread]
  rfl

theorem toNat_shnum : (settle f).ehdr.eShnum.toNat = f.shdrs.length := UInt16.toNat_ofNat_of_lt' h.ready.count

/-- The bounds of the tables of headers. -/
theorem bounds : (phdrBound .elf64 (settle f).ehdr) = (64, 64) ∧ (shdrBound .elf64 (settle f).ehdr).1.toNat = (laidOut f).2 ∧
    (shdrBound .elf64 (settle f).ehdr).2.toNat = (laidOut f).2 + f.shdrs.length * 64 := by
  have hsize := h.ready.size
  refine ⟨rfl, h.ready.toNat_shoff, ?_⟩
  rw [shdrBound, h.toNat_shnum, show ElfClass.elf64.shdrSize = 64 from rfl, toNat_bound (by rw [h.ready.toNat_shoff]; omega),
    h.ready.toNat_shoff]

theorem read_shdrs : (List.range f.shdrs.length).map (fun i =>
    readShdr .elf64 elfData2Lsb ((savedFile f).read ((settle f).ehdr.eShoff.toNat + i * 64) 64)) = (settle f).shdrs := by
  refine List.ext_getElem? fun i => ?_
  rw [List.getElem?_map]
  by_cases hi : i < f.shdrs.length
  · obtain ⟨p, hp⟩ := h.ready.exists_laidOut hi
    rw [List.getElem?_range hi, settle_shdrs hp, Option.map_some, h.ready.toNat_shoff, h.ready.read_shdr hp]
    exact congrArg some ((shdrLayout UInt64).decode_encode p.1)
  · rw [List.getElem?_eq_none (by simpa using hi), List.getElem?_eq_none (by rw [h.ready.length_shdrs]; omega)]
    rfl

theorem readTables_eq (pos : Nat) :
    ∃ pos', readTables (savedFile f) .elf64 elfData2Lsb (settle f).ehdr pos = .ok ([], (settle f).shdrs) pos' := by
  obtain ⟨hph, hsh1, hsh2⟩ := h.bounds
  have hsize := h.ready.size_savedFile h.nonempty
  have hstart : 64 ≤ (laidOut f).2 := le_place h.ready.placeable 0 64
  have hover : ¬ overlaps (phdrBound .elf64 (settle f).ehdr) (shdrBound .elf64 (settle f).ehdr) := by
    rw [hph]
    rintro ⟨-, hlt⟩
    rw [UInt64.lt_iff_toNat_lt, hsh1] at hlt
    exact absurd hlt (Nat.not_lt.2 hstart)
  have hphend : ¬ (savedFile f).size < (phdrBound .elf64 (settle f).ehdr).2.toNat := by
    rw [hph, hsize]
    exact Nat.not_lt.2 (hstart.trans (Nat.le_add_right ..))
  have hshend : ¬ (savedFile f).size < (shdrBound .elf64 (settle f).ehdr).2.toNat := by
    rw [hsh2, hsize]
    exact Nat.lt_irrefl _
  have hversion : ¬ (settle f).ehdr.eVersion ≠ evCurrent := not_not.2 h.version
  have hin : (settle f).ehdr.eShoff.toNat + f.shdrs.length * 64 ≤ (savedFile f).size := by
    rw [h.ready.toNat_shoff, hsize]
  obtain ⟨shdrs, pos', hread, rfl⟩ := Prog.exists_ok (wp_readTable (α := Shdr64) h.size_lt hin (fun _ _ => False) pos)
  refine ⟨pos', ?_⟩
  simp only [readTables, if_neg hphend, if_neg hshend, if_neg hover, if_neg hversion]
  refine (Prog.bind_ok (show readTable _ _ _ _ (settle f).ehdr.ePhnum.toNat pos = .ok [] pos from rfl)).trans ?_
  rw [h.toNat_shnum]
  refine (Prog.bind_ok hread).trans ?_
  rw [h.read_shdrs]
  rfl

theorem loadHeaders_eq (self : ElfFile) : ∃ pos, loadHeaders self (savedFile f) 0 =
    .ok { self with eiClass := .elf64, eiData := elfData2Lsb, ehdr := (settle f).ehdr, phdrs := [], shdrs := (settle f).shdrs,
                    symbols := [], relocations := [], sections := [], shstrtab := 0, symtab := 0, strtab := 0 } pos := by
  have hsize := h.ready.size_savedFile h.nonempty
  have hstart : 64 ≤ (laidOut f).2 := le_place h.ready.placeable 0 64
  have hread : fread (savedFile f) ElfClass.elf64.ehdrSize 0 = .ok (writeEhdr elfData2Lsb .elf64 (settle f).ehdr) 64 := by
    rw [show ElfClass.elf64.ehdrSize = 64 from rfl, fread, if_pos (by omega), h.ready.read_ehdr]
  have hehdr : readEhdr .elf64 elfData2Lsb (writeEhdr elfData2Lsb .elf64 (settle f).ehdr) = (settle f).ehdr :=
    (ehdrLayout UInt64).decode_encode _
  obtain ⟨pos, hpos⟩ := h.readTables_eq 64
  refine ⟨pos, ?_⟩
  rw [loadHeaders, Prog.bind_ok h.readIdent_eq]
  refine (Prog.bind_ok (show fseek 0 16 = .ok () 0 from rfl)).trans ((Prog.bind_ok hread).trans ?_)
  simp only [hehdr]
  rw [Prog.bind_ok hpos]
  rfl

/-! ## The sections -/

theorem sectionOf_eq {i : Nat} {p : Shdr64 × ElfSection} (hp : (laidOut f).1[i]? = some p) :
    sectionOf (savedFile f) p.1 = ⟨[], p.1.shOffset, p.1.shSize, p.2.buf⟩ := by
  rw [sectionOf, ElfSection.mk.injEq]
  refine ⟨rfl, rfl, rfl, ?_⟩
  by_cases hbits : p.1.shType = shtNobits
  · obtain ⟨q, hq, -, hbuf, hhdr⟩ := laidOut_kept hp
    have htype : p.1.shType = q.1.shType := (congrArg Shdr.shType hhdr :)
    rw [Shdr64.range_nobits hbits, hbuf, h.ready.nobits q (List.mem_of_getElem? hq) (htype ▸ hbits)]
    rfl
  · rw [Shdr64.range_stored hbits]
    exact h.ready.read_section hp hbits

theorem loaded_sections (self : ElfFile) {i : Nat} {p : Shdr64 × ElfSection} (hp : (laidOut f).1[i]? = some p) :
    (loaded self f).sections[i]? = some ⟨[], p.1.shOffset, p.1.shSize, p.2.buf⟩ := by
  rw [loaded, List.getElem?_map, settle_shdrs hp, Option.map_some, h.sectionOf_eq hp]

theorem findTables_eq : findTables (settle f).ehdr (settle f).shdrs (settle f).shdrs.length = (f.shstrtab, f.symtab, f.strtab) := by
  rw [h.ready.length_shdrs, ← h.tables]
  refine findTables_congr (show (settle f).ehdr.eShstrndx = f.ehdr.eShstrndx from rfl) ?_ _
  have hkeep := place_headers 0 (f.shdrs.zip f.sections) 64
  have hmap := congrArg (List.map fun shdr : Shdr64 => (shdr.shType, shdr.shLink)) hkeep
  rw [List.map_map, List.map_map] at hmap
  have hfst : (f.shdrs.zip f.sections).map Prod.fst = f.shdrs := List.map_fst_zip h.ready.length.ge
  conv_rhs => rw [← hfst]
  rw [settle, List.map_map, List.map_map]
  exact hmap

/-- No section overlaps another, the program headers or the section headers. -/
theorem sections_apart : ([phdrBound .elf64 (settle f).ehdr, shdrBound .elf64 (settle f).ehdr] ++
    ((settle f).shdrs.filter fun shdr => shdr.shType ≠ shtNobits).map sectionBound).Pairwise fun b b' => ¬ overlaps b' b := by
  obtain ⟨hph, hsh1, hsh2⟩ := h.bounds
  have hstart : 64 ≤ (laidOut f).2 := le_place h.ready.placeable 0 64
  have hbelow := h.ready.below
  have hbound {i : Nat} {p : Shdr64 × ElfSection} (hp : (laidOut f).1[i]? = some p) :
      (sectionBound p.1).2.toNat = p.1.shOffset.toNat + p.1.shSize.toNat := by
    have hstop := h.ready.file_stop hp
    rw [sectionBound, UInt64.toNat_add]
    exact Nat.mod_eq_of_lt (by omega)
  have hsec {shdr : Shdr64} (hmem : shdr ∈ (settle f).shdrs) : ∃ (i : Nat) (p : Shdr64 × ElfSection), (laidOut f).1[i]? = some p ∧ p.1 = shdr := by
    obtain ⟨p, hp, rfl⟩ := List.mem_map.1 hmem
    obtain ⟨i, hi⟩ := List.mem_iff_getElem?.1 hp
    exact ⟨i, p, hi, rfl⟩
  refine List.pairwise_append.2 ⟨List.pairwise_pair.2 ?_, List.pairwise_map.2 (List.Pairwise.filter _ ?_), fun b hb b' hb' => ?_⟩
  · rw [hph]
    rintro ⟨hlt, -⟩
    rw [UInt64.lt_iff_toNat_lt, hsh1] at hlt
    exact absurd hlt (Nat.not_lt.2 hstart)
  · refine List.pairwise_iff_getElem.2 fun i j hi hj hij ho => ?_
    have hi' : i < f.shdrs.length := h.ready.length_shdrs ▸ hi
    have hj' : j < f.shdrs.length := h.ready.length_shdrs ▸ hj
    obtain ⟨p, hp⟩ := h.ready.exists_laidOut hi'
    obtain ⟨q, hq⟩ := h.ready.exists_laidOut hj'
    have hp' : (settle f).shdrs[i] = p.1 := Option.some.inj ((List.getElem?_eq_getElem hi).symm.trans (settle_shdrs hp))
    have hq' : (settle f).shdrs[j] = q.1 := Option.some.inj ((List.getElem?_eq_getElem hj).symm.trans (settle_shdrs hq))
    rw [hp', hq'] at ho
    have hlt := ho.1
    rw [UInt64.lt_iff_toNat_lt, hbound hp] at hlt
    exact absurd hlt (Nat.not_lt.2 (h.ready.file_ordered hij hp hq))
  · obtain ⟨shdr, hmem, rfl⟩ := List.mem_map.1 hb'
    obtain ⟨i, p, hp, rfl⟩ := hsec (List.mem_filter.1 hmem).1
    have hstop := h.ready.file_stop hp
    rintro ⟨hlt, hlt'⟩
    rw [UInt64.lt_iff_toNat_lt] at hlt hlt'
    rw [hbound hp] at hlt'
    rcases List.mem_cons.1 hb with rfl | hb
    · rw [hph] at hlt hlt'
      have hlt : p.1.shOffset.toNat < 64 := hlt
      have hlt' : 64 < p.1.shOffset.toNat + p.1.shSize.toNat := hlt'
      rcases h.ready.file_start hp with hge | ⟨hzero, hsize⟩
      · omega
      · rw [hzero, hsize] at hlt'
        exact absurd hlt' (by decide)
    · obtain rfl := List.mem_singleton.1 hb
      rw [hsh1] at hlt'
      omega

theorem loaded_placed (self : ElfFile) : Placed (loaded self f).sections := by
  have hlen : (loaded self f).sections.length = f.shdrs.length := by
    rw [loaded, List.length_map, h.ready.length_shdrs]
  have hget {i : Nat} (hi : i < (loaded self f).sections.length) : ∃ p : Shdr64 × ElfSection, (laidOut f).1[i]? = some p ∧
      (loaded self f).sections[i] = ⟨[], p.1.shOffset, p.1.shSize, p.2.buf⟩ := by
    obtain ⟨p, hp⟩ := h.ready.exists_laidOut (hlen ▸ hi)
    exact ⟨p, hp, Option.some.inj ((List.getElem?_eq_getElem hi).symm.trans (h.loaded_sections self hp))⟩
  have hsize {i : Nat} {p : Shdr64 × ElfSection} (hp : (laidOut f).1[i]? = some p) : p.2.buf.length ≤ p.1.shSize.toNat := by
    rw [(h.ready.settled hp).size]
    exact h.ready.buf_le hp
  refine ⟨fun s hs => ?_, List.pairwise_iff_getElem.2 fun i j hi hj hij => ?_⟩
  · obtain ⟨i, hi, rfl⟩ := List.mem_iff_getElem.1 hs
    obtain ⟨p, hp, heq⟩ := hget hi
    have hle := hsize hp
    have hstop := h.ready.file_stop hp
    have hbelow := h.ready.below
    rw [heq]
    dsimp only
    omega
  · obtain ⟨p, hp, heq⟩ := hget hi
    obtain ⟨q, hq, heq'⟩ := hget hj
    have hle := hsize hp
    have hord := h.ready.file_ordered hij hp hq
    refine Range.apart_of_le ?_
    rw [heq, heq']
    show p.1.shOffset.toNat + p.2.buf.length ≤ q.1.shOffset.toNat
    omega

/-- The file passes all checks, and what is left is to read the contents. -/
theorem load_eq (self : ElfFile) : ∃ pos, load self (savedFile f) 0 = (loaded self f).readContents pos := by
  obtain ⟨pos, hheaders⟩ := h.loadHeaders_eq self
  have hin : ∀ shdr ∈ (settle f).shdrs, shdr.shType ≠ shtNobits → shdr.shOffset.toNat + shdr.shSize.toNat ≤ (savedFile f).size := by
    intro shdr hmem _
    obtain ⟨p, hp, rfl⟩ := List.mem_map.1 hmem
    obtain ⟨i, hi⟩ := List.mem_iff_getElem?.1 hp
    rw [h.ready.size_savedFile h.nonempty]
    exact (h.ready.file_stop hi).trans (Nat.le_add_right ..)
  obtain ⟨pos', hsecs⟩ := readSections_ok h.size_lt hin h.sections_apart pos
  refine ⟨pos', ?_⟩
  rw [load, Prog.bind_ok hheaders]
  simp only [h.findTables_eq]
  rw [Prog.bind_ok hsecs]
  rfl

/-! ## The contents -/

/-- The symbol table of the loaded file. -/
theorem loaded_hasSymtab (self : ElfFile) : ∃ p : Shdr64 × ElfSection, (laidOut f).1[f.symtab]? = some p ∧
    p.2.buf = (sym64Layout UInt64).encodeAll f.symbols ∧ numSymbols p.1 = f.symbols.length ∧
    HasSymtab (loaded self f) p.1 ⟨[], p.1.shOffset, p.1.shSize, p.2.buf⟩ := by
  obtain ⟨hzero, shdr, hshdr, hbits, hent⟩ := h.ready.symtab
  obtain ⟨p, hp, hhdr, hbuf, -⟩ := h.ready.exists_kept hshdr
  have htype : p.1.shType = shdr.shType := (congrArg Shdr.shType hhdr :)
  have hent' : p.1.shEntsize = 24 := (congrArg Shdr.shEntsize hhdr :).trans hent
  have hsize : p.2.buf.length = p.1.shSize.toNat := by
    rw [(h.ready.settled hp).stored (htype ▸ hbits), (h.ready.settled hp).size]
  have hcount : p.1.shSize.toNat = f.symbols.length * 24 := by
    rw [← hsize, hbuf, h.symbols]
    exact (sym64Layout UInt64).length_encodeAll f.symbols
  refine ⟨p, hp, hbuf.trans h.symbols, ?_, hzero, settle_shdrs hp, ?_, h.loaded_sections self hp, rfl, hsize, h.loaded_placed self⟩
  · rw [numSymbols, UInt64.toNat_div, hcount, hent']
    exact Nat.mul_div_cancel _ (by decide)
  · rw [hent']
    rfl

theorem length_names : f.symbols.length = names.length := by
  simpa [length_nameOffsets] using congrArg List.length h.symbolOffsets

/-- The name of a symbol, in any file whose sections lie like these. -/
theorem symName_eq (g : ElfFile) (hplaced : Placed g.sections) (hshdrs : g.shdrs = (settle f).shdrs) (hstrtab : g.strtab = f.strtab)
    (hsyms : g.symbols = f.symbols) (hsecs : ∀ (i : Nat) (p : Shdr64 × ElfSection), (laidOut f).1[i]? = some p →
      ∃ sec : ElfSection, g.sections[i]? = some sec ∧ sec.offset = p.1.shOffset ∧ sec.buf = p.2.buf) {i : Nat} {name : List UInt8} (hname : names[i]? = some name) {σ : Type} :
    (g.symName i : Prog ElfPanic σ _) = pure name := by
  obtain ⟨hzero, hlt⟩ := h.strtab
  obtain ⟨p, hp, -, hbuf, -⟩ := h.ready.exists_kept (List.getElem?_eq_getElem hlt)
  have hlen := h.strings.1
  rw [h.symbolNames] at hbuf hlen
  have hnul : 0 ∉ name := h.terminated name (List.mem_append_left _ (List.mem_of_getElem? hname))
  obtain ⟨sym, hsym, ho⟩ : ∃ sym, f.symbols[i]? = some sym ∧ ((nameOffsets 0 names).map UInt32.ofNat)[i]? = some sym.stName := by
    have hi : i < f.symbols.length := by
      rw [h.length_names]
      exact (List.getElem?_eq_some_iff.1 hname).1
    refine ⟨_, List.getElem?_eq_getElem hi, ?_⟩
    rw [← h.symbolOffsets, List.getElem?_map, List.getElem?_eq_getElem hi]
    rfl
  obtain ⟨sec, hsec, hoff, hsbuf⟩ := hsecs _ p hp
  simp only [symName, hstrtab, if_neg hzero, hsyms, hsym, hshdrs, settle_shdrs hp, ← hoff]
  exact stringAt_name hplaced hsec (hsbuf.trans hbuf) hlen hname hnul ho

theorem byteswapSymbolTable_loaded (self : ElfFile) {σ : Type} :
    ((loaded self f).byteswapSymbolTable : Prog ElfPanic σ _) = pure (loaded self f) := by
  obtain ⟨p, -, -, -, hsym⟩ := h.loaded_hasSymtab self
  have hlsb : (loaded self f).eiData ≠ elfData2Msb := show elfData2Lsb ≠ elfData2Msb by decide
  rw [hsym.byteswapSymbolTable_eq, swapFirst_lsb hlsb, ← bufOf_eq hsym.inside, setBuf_bufOf]

theorem copyFromSymbolTableSections_eq (self : ElfFile) {σ : Type} :
    ((loaded self f).copyFromSymbolTableSections : Prog ElfPanic σ _) = pure (loadedSymbols self f) := by
  obtain ⟨p, hp, hbuf, hcount, hsym⟩ := h.loaded_hasSymtab self
  have hcollect := hsym.collect_symbols (σ := σ)
  have hsymbols : (List.range (numSymbols p.1)).map (fun i => readSym (loaded self f).eiClass
      (chunk (loaded self f).eiClass.symSize i p.2.buf)) = f.symbols := by
    rw [hcount, hbuf]
    exact (sym64Layout UInt64).map_decode_encodeAll f.symbols
  rw [hsymbols] at hcollect
  rw [copyFromSymbolTableSections, if_neg hsym.nonzero, hsym.symtabInfo_eq, Prog.pure_bind]
  dsimp only
  rw [if_neg (not_not.2 hsym.entsize), hcollect, Prog.pure_bind]
  have hnames : (Prog.forRange f.symbols.length fun i =>
      if (f.symbols[i]?).map Sym.stValue ≠ some 0 then do
        let _ ← (loadedSymbols self f).symName i
        pure ()
      else pure () : Prog ElfPanic σ Unit) = pure () := by
    refine Prog.forRange_pure fun i hi => ?_
    obtain ⟨name, hname⟩ : ∃ name, names[i]? = some name := ⟨_, List.getElem?_eq_getElem (h.length_names ▸ hi)⟩
    have hsymName : ((loadedSymbols self f).symName i : Prog ElfPanic σ _) = pure name := by
      exact h.symName_eq (loadedSymbols self f) (h.loaded_placed self) rfl rfl rfl (fun i p hp => ⟨_, h.loaded_sections self hp, rfl, rfl⟩) hname
    rw [hsymName]
    split <;> rfl
  split
  · exact (congrArg (· >>= fun _ => pure (loadedSymbols self f)) hnames).trans rfl
  · rfl

theorem copyFromRelocationTable_eq (self : ElfFile) {σ : Type} :
    ((loadedSymbols self f).copyFromRelocationTable f.relaText : Prog ElfPanic σ _) =
      pure (loadedRelocations self f) := by
  obtain ⟨p, hp, -, hbuf, -⟩ := h.ready.exists_kept (List.getElem?_eq_getElem h.relaText.1)
  have hbuf' : (loadedSymbols self f).bufOf f.relaText =
      (relaLayout UInt64).encodeAll f.relocations := by
    rw [bufOf_eq (show (loadedSymbols self f).sections[f.relaText]? = _ from h.loaded_sections self hp)]
    exact hbuf.trans h.relocations
  have hlen : ((relaLayout UInt64).encodeAll f.relocations).length = f.relocations.length * 24 := (relaLayout UInt64).length_encodeAll _
  have hread : (List.range f.relocations.length).map (fun j => readRela .elf64 elfData2Lsb
      ((((relaLayout UInt64).encodeAll f.relocations).drop (j * 24)).take 24)) = f.relocations :=
    (relaLayout UInt64).map_decode_encodeAll f.relocations
  have hmod : ¬ ((relaLayout UInt64).encodeAll f.relocations).length % ElfClass.elf64.relaSize ≠ 0 := by
    rw [hlen, not_not]
    exact Nat.mul_mod_left ..
  have hdiv : ((relaLayout UInt64).encodeAll f.relocations).length / ElfClass.elf64.relaSize = f.relocations.length := by
    rw [hlen]
    exact Nat.mul_div_cancel _ (by decide)
  have hset := setBuf_bufOf (loadedRelocations self f) f.relaText
  rw [show (loadedRelocations self f).bufOf f.relaText = _ from hbuf'] at hset
  simp only [copyFromRelocationTable, hbuf', show (loadedSymbols self f).eiClass = .elf64 from rfl,
    show (loadedSymbols self f).eiData = elfData2Lsb from rfl, if_neg hmod, hdiv, bswapTable_lsb]
  simp only [show ElfClass.elf64.relaSize = 24 from rfl, hread]
  exact congrArg pure hset

theorem copyFromRelocationTableSections_eq (self : ElfFile) {σ : Type} :
    ((loadedSymbols self f).copyFromRelocationTableSections : Prog ElfPanic σ _) = pure (loadedRelocations self f) := by
  -- the table is read in the turn of `relaText`
  let g (i : Nat) : ElfFile := if i ≤ f.relaText then loadedSymbols self f else loadedRelocations self f
  have hstart : g 0 = loadedSymbols self f := if_pos (Nat.zero_le _)
  have hstop : g f.shdrs.length = loadedRelocations self f := if_neg (Nat.not_le.2 h.relaText.1)
  rw [copyFromRelocationTableSections, show (loadedSymbols self f).shdrs.length = f.shdrs.length from h.ready.length_shdrs, ← hstart, ← hstop]
  refine Prog.iterate_pure (g := g) fun i hi => ?_
  obtain ⟨p, hp, hhdr, -⟩ := h.ready.exists_kept (List.getElem?_eq_getElem hi)
  have htype : p.1.shType = f.shdrs[i].shType := (congrArg Shdr.shType hhdr :)
  have hrela : isRela p.1 ↔ i = f.relaText := by
    rw [isRela, htype]
    exact h.relaText.2 i _ (List.getElem?_eq_getElem hi)
  have hshdr : (g i).shdrs[i]? = some p.1 := by
    unfold g
    split <;> exact settle_shdrs hp
  rw [hshdr]
  simp only [g]
  rcases Nat.lt_trichotomy i f.relaText with hlt | rfl | hgt
  · rw [if_neg (fun hr => hlt.ne (hrela.1 hr)), if_pos hlt.le, if_pos (Nat.succ_le_of_lt hlt)]
  · rw [if_pos (hrela.2 rfl), if_pos (Nat.le_refl _), if_neg (Nat.not_le.2 (Nat.lt_succ_self _))]
    exact h.copyFromRelocationTable_eq self
  · rw [if_neg (fun hr => hgt.ne' (hrela.1 hr)), if_neg (Nat.not_le.2 hgt), if_neg (by omega)]

theorem copyFromSectionNames_eq (self : ElfFile) {σ : Type} :
    ((loadedRelocations self f).copyFromSectionNames : Prog ElfPanic σ _) = pure (reloaded self f) := by
  obtain ⟨hzero, hlt⟩ := h.shstrtab
  obtain ⟨q, hq, -, hbuf, -⟩ := h.ready.exists_kept (List.getElem?_eq_getElem hlt)
  have hlen := h.strings.2
  rw [h.sectionNames] at hbuf hlen
  have hnames : (Prog.collect (fun i => (loadedRelocations self f).shdrName i) f.shdrs.length : Prog ElfPanic σ _) =
      pure ((List.range f.shdrs.length).map fun i => (f.sections.map ElfSection.name).getD i []) := by
    refine Prog.collect_pure fun i hi => ?_
    obtain ⟨p, hp, hhdr, -, hname⟩ := h.ready.exists_kept (List.getElem?_eq_getElem hi)
    rw [← List.getElem?_map] at hname
    have ho : ((nameOffsets 0 (f.sections.map ElfSection.name)).map UInt32.ofNat)[i]? = some p.1.shName := by
      rw [← h.sectionOffsets, List.getElem?_map, List.getElem?_eq_getElem hi]
      exact congrArg some (congrArg Shdr.shName hhdr :).symm
    have hnul : 0 ∉ p.2.name := h.terminated _ (List.mem_append_right _ (List.mem_of_getElem? hname))
    have hzero' : ¬ (loadedRelocations self f).shstrtab = 0 := hzero
    have hi' : (loadedRelocations self f).shdrs[i]? = some p.1 := settle_shdrs hp
    have hq' : (loadedRelocations self f).shdrs[(loadedRelocations self f).shstrtab]? = some q.1 := settle_shdrs hq
    simp only [shdrName, if_neg hzero', hi', hq', List.getD_eq_getElem?_getD, hname, Option.getD_some]
    exact stringAt_name (h.loaded_placed self) (h.loaded_sections self hq) hbuf hlen hname hnul ho
  have hall : (List.range f.shdrs.length).map (fun i => (f.sections.map ElfSection.name).getD i []) = f.sections.map ElfSection.name := by
    refine List.ext_getElem (by simp [h.ready.length]) fun i hi hi' => ?_
    simp [List.getD_eq_getElem?_getD, List.getElem?_eq_getElem (show i < f.sections.length by simpa using hi')]
  rw [hall] at hnames
  rw [copyFromSectionNames, if_neg (show ¬ (loadedRelocations self f).shstrtab = 0 from hzero),
    show (loadedRelocations self f).shdrs.length = f.shdrs.length from h.ready.length_shdrs, hnames, Prog.pure_bind]
  rfl

/-- Loading what was saved succeeds. -/
theorem load_saved (self : ElfFile) : ∃ pos, load self (savedFile f) 0 = .ok (reloaded self f) pos := by
  obtain ⟨pos, hpos⟩ := h.load_eq self
  refine ⟨pos, hpos.trans ?_⟩
  rw [readContents, h.byteswapSymbolTable_loaded, Prog.pure_bind, h.copyFromSymbolTableSections_eq, Prog.pure_bind,
    h.copyFromRelocationTableSections_eq, Prog.pure_bind, h.copyFromSectionNames_eq]
  rfl

/-! ## What comes back -/

theorem reloaded_sections (self : ElfFile) {i : Nat} {p : Shdr64 × ElfSection} (hp : (laidOut f).1[i]? = some p) :
    (reloaded self f).sections[i]? = some ⟨p.2.name, p.1.shOffset, p.1.shSize, p.2.buf⟩ := by
  have hi : i < f.shdrs.length := h.ready.length_laidOut ▸ (List.getElem?_eq_some_iff.1 hp).1
  obtain ⟨q, hq, -, -, hname⟩ := h.ready.exists_kept (List.getElem?_eq_getElem hi)
  obtain rfl : p = q := Option.some.inj (hp.symm.trans hq)
  simp only [reloaded, List.getElem?_zipWith, h.loaded_sections self hp, List.getElem?_map, hname]

theorem length_reloaded (self : ElfFile) : (reloaded self f).sections.length = f.shdrs.length := by
  simp [reloaded, loaded, h.ready.length_shdrs, h.ready.length]

theorem symName_reloaded (self : ElfFile) {i : Nat} {name : List UInt8} (hname : names[i]? = some name) {σ : Type} :
    ((reloaded self f).symName i : Prog ElfPanic σ _) = pure name := by
  refine h.symName_eq (reloaded self f) ?_ rfl rfl rfl (fun i p hp => ⟨_, h.reloaded_sections self hp, rfl, rfl⟩) hname
  refine (h.loaded_placed self).of_ranges (List.ext_getElem? fun i => ?_)
  rw [List.getElem?_map, List.getElem?_map]
  by_cases hi : i < f.shdrs.length
  · obtain ⟨p, hp⟩ := h.ready.exists_laidOut hi
    rw [h.reloaded_sections self hp, h.loaded_sections self hp]
    rfl
  · rw [List.getElem?_eq_none (by rw [h.length_reloaded]; omega),
      List.getElem?_eq_none (by simp only [loaded, List.length_map, h.ready.length_shdrs]; omega)]

/-- The sections as they were saved. -/
theorem reloaded_saved (self : ElfFile) :
    (reloaded self f).sections.map (fun s => (s.name, s.size, s.buf)) = (settle f).sections.map fun s => (s.name, s.size, s.buf) := by
  refine List.ext_getElem? fun i => ?_
  rw [List.getElem?_map, List.getElem?_map]
  by_cases hi : i < f.shdrs.length
  · obtain ⟨p, hp⟩ := h.ready.exists_laidOut hi
    rw [h.reloaded_sections self hp, settle_sections hp, Option.map_some, Option.map_some, (h.ready.settled hp).size]
  · rw [List.getElem?_eq_none (by rw [h.length_reloaded]; omega),
      List.getElem?_eq_none (by rw [h.ready.length_sections]; omega)]

theorem bufOf_reloaded (self : ElfFile) (i : Nat) : (reloaded self f).bufOf i = f.bufOf i := by
  by_cases hi : i < f.shdrs.length
  · obtain ⟨p, hp, -, hbuf, -⟩ := h.ready.exists_kept (List.getElem?_eq_getElem hi)
    rw [bufOf_eq (h.reloaded_sections self hp), hbuf]
  · simp only [ElfFile.bufOf]
    rw [List.getElem?_eq_none (by rw [h.length_reloaded]; omega), List.getElem?_eq_none (by rw [h.ready.length]; omega)]

end Complete

end Load

/-! ## Objects of class 64 -/

/-- The size of the file of an object: the file header, the sections, two of them at a multiple of 8, and the section headers. The
bytes that the section without bits will have are counted too. -/
def objectSize (f : ElfFile) : Nat :=
  let up (o : Nat) := (o + 7) / 8 * 8
  let bss := ((f.sections[f.bss]?).map fun s => s.size.toNat).getD 0
  let relocations := up (64 + (f.bufOf f.text).length) + f.relocations.length * 24
  let names := relocations + (f.bufOf f.data).length + bss + (f.bufOf f.rodata).length + (nameTable (f.sections.map ElfSection.name)).length
  up names + f.symbols.length * 24 + (f.bufOf f.strtab).length + f.sections.length * 64

section Object
variable (info : UInt32) (c : Contents) (symbols : List Sym64) (relocations : List Rela64) (strings : List UInt8)

theorem prepared_headers : (preparedShdrs info relocations.length symbols.length).map (fun shdr => (shdr.shType, shdr.shAddr,
    shdr.shAddralign)) = [(0, 0, 0), (1, 0, 4), (4, 0, 8), (1, 0, 1), (8, 0, 1), (1, 0, 1), (3, 0, 1), (2, 0, 8), (3, 0, 1)] := rfl

theorem prepared_bufs : ((prepared info c symbols relocations strings).shdrs.zip
    (prepared info c symbols relocations strings).sections).map (fun p => (p.1.shType, p.2.buf)) =
    [(0, []), (1, c.text), (4, (relaLayout UInt64).encodeAll relocations), (1, c.data), (8, []), (1, c.rodata),
      (3, nameTable sectionNames), (2, (sym64Layout UInt64).encodeAll symbols), (3, strings)] := rfl

theorem prepared_flags : ((prepared info c symbols relocations strings).shdrs.zip
    (prepared info c symbols relocations strings).sections).map (fun p => (p.1.shType, p.1.shFlags)) =
    (initObject .elf64).shdrs.map fun shdr => (shdr.shType, shdr.shFlags) := rfl

theorem prepared_names : ((prepared info c symbols relocations strings).shdrs.zip
    (prepared info c symbols relocations strings).sections).map (fun p => p.2.name) = sectionNames := rfl

theorem prepared_sizes : ((prepared info c symbols relocations strings).shdrs.zip
    (prepared info c symbols relocations strings).sections).map (fun p => (p.1.shAddralign, placedSize p.1 p.2)) =
    [(0, 0), (4, c.text.length), (8, ((relaLayout UInt64).encodeAll relocations).length), (1, c.data.length), (1, c.bssSize.toNat),
      (1, c.rodata.length), (1, (nameTable sectionNames).length), (8, ((sym64Layout UInt64).encodeAll symbols).length),
      (1, strings.length)] := rfl

theorem prepared_tables : findTables (prepared info c symbols relocations strings).ehdr
    (prepared info c symbols relocations strings).shdrs 9 = (6, 7, 8) := by
  have hlinks : (prepared info c symbols relocations strings).shdrs.map (fun shdr => (shdr.shType, shdr.shLink)) =
      (initObject .elf64).shdrs.map fun shdr => (shdr.shType, shdr.shLink) := rfl
  rw [findTables_congr (show (prepared info c symbols relocations strings).ehdr.eShstrndx = (initObject .elf64).ehdr.eShstrndx from rfl)
    hlinks]
  decide

theorem alignNext_one (o : Nat) : alignNext 1 o = o := by
  simp [alignNext]

theorem prepared_end : (laidOut (prepared info c symbols relocations strings)).2 + 9 * 64 =
    objectSize (filled c symbols relocations strings) := by
  have hrela : ((relaLayout UInt64).encodeAll relocations).length = relocations.length * 24 := (relaLayout UInt64).length_encodeAll _
  have hsym : ((sym64Layout UInt64).encodeAll symbols).length = symbols.length * 24 := (sym64Layout UInt64).length_encodeAll _
  rw [laidOut, place_end, prepared_sizes]
  simp only [List.foldl_cons, List.foldl_nil, alignNext_one, hrela, hsym]
  rfl

variable (names : List (List UInt8))

theorem complete_prepared (hnames : ∀ name ∈ names, 0 ∉ name) (hoff : symbols.map Sym.stName = (nameOffsets 0 names).map UInt32.ofNat)
    (hlen : (nameTable names).length < 2 ^ 32) (hsize : objectSize (filled c symbols relocations (nameTable names)) < 2 ^ 63) :
    Complete (prepared info c symbols relocations (nameTable names)) names := by
  have hheaders : ∀ x ∈ ([(0, 0, 0), (1, 0, 4), (4, 0, 8), (1, 0, 1), (8, 0, 1), (1, 0, 1), (3, 0, 1), (2, 0, 8), (3, 0, 1)] :
      List (UInt32 × UInt64 × UInt64)), x.2.1 = 0 ∧ Alignment x.2.2 := by
    simp [Alignment]
  rw [← prepared_headers info symbols relocations] at hheaders
  have hbufs : ∀ x ∈ ([(0, []), (1, c.text), (4, (relaLayout UInt64).encodeAll relocations), (1, c.data), (8, []), (1, c.rodata),
      (3, nameTable sectionNames), (2, (sym64Layout UInt64).encodeAll symbols), (3, nameTable names)] : List (UInt32 × List UInt8)),
      x.1 = shtNobits → x.2 = [] := by
    simp [shtNobits]
  have hfirst := congrArg (·[0]?) (prepared_bufs info c symbols relocations (nameTable names))
  have hsymtab : ((prepared info c symbols relocations (nameTable names)).shdrs.map fun shdr => (shdr.shType, shdr.shEntsize))[7]? =
    some (shtSymtab, 24) := rfl
  have htypes : (prepared info c symbols relocations (nameTable names)).shdrs.map Shdr.shType = [0, 1, 4, 1, 8, 1, 3, 2, 3] := rfl
  rw [← prepared_bufs info c symbols relocations (nameTable names)] at hbufs
  have hready : Ready (prepared info c symbols relocations (nameTable names)) := by
    refine ⟨rfl, rfl, rfl, rfl, show 9 < 2 ^ 16 by decide, fun p hp => ?_, fun p hp => ?_, fun p hp hbits => ?_,
      ⟨show 7 ≠ 0 by decide, ?_⟩, ?_⟩
    · exact hheaders _ (List.mem_map_of_mem (List.of_mem_zip hp).1)
    · simp only [List.getElem?_map, hp] at hfirst
      obtain ⟨htype, hbuf⟩ := Prod.mk.inj (Option.some.inj hfirst)
      refine ⟨?_, hbuf⟩
      rw [htype]
      decide
    · exact hbufs _ (List.mem_map_of_mem hp) hbits
    · rw [List.getElem?_map] at hsymtab
      obtain ⟨shdr, hshdr, heq⟩ := Option.map_eq_some_iff.1 hsymtab
      obtain ⟨htype, hent⟩ := Prod.mk.inj heq
      refine ⟨shdr, hshdr, ?_, hent⟩
      rw [htype]
      decide
    · rw [← prepared_end info] at hsize
      exact hsize
  refine ⟨hready, rfl, rfl, show 0 < 9 by decide, prepared_tables .., rfl, rfl, ⟨show 2 < 9 by decide, fun i shdr hshdr => ?_⟩, rfl, rfl, rfl,
    hoff, fun name hmem => ?_, ⟨show 6 ≠ 0 by decide, show 6 < 9 by decide⟩, ⟨show 8 ≠ 0 by decide, show 8 < 9 by decide⟩, hlen, ?_⟩
  · have htype := congrArg (·[i]?) htypes
    simp only [List.getElem?_map, hshdr, Option.map_some] at htype
    have hi : i < 9 := (List.getElem?_eq_some_iff.1 htype.symm).1
    have hall : ∀ i, i < 9 → (([0, 1, 4, 1, 8, 1, 3, 2, 3] : List UInt32).getD i 0 &&& shtRela ≠ 0 ↔ i = 2) := by decide
    have hval : ([0, 1, 4, 1, 8, 1, 3, 2, 3] : List UInt32).getD i 0 = shdr.shType := by
      rw [List.getD_eq_getElem?_getD, ← htype]
      rfl
    rw [isRela, ← hval]
    exact hall i hi
  · rcases List.mem_append.1 hmem with hmem | hmem
    · exact hnames name hmem
    · have hall : ∀ name ∈ sectionNames, 0 ∉ name := by decide
      exact hall name hmem
  · show (nameTable sectionNames).length < 2 ^ 32
    decide

end Object

theorem filled_eq (ops : List ObjectOp) (c : Contents) : ∃ symbols relocations,
    object .elf64 ops c = filled c symbols relocations (nameTable (symbolNames ops)) ∧
    symbols.map Sym.stName = (nameOffsets 0 (symbolNames ops)).map UInt32.ofNat := by
  have hbuilt := built_build .elf64 ops
  obtain ⟨symbols, relocations, heq⟩ := object_eq ops c
  refine ⟨symbols, relocations, heq, ?_⟩
  have hsyms : (object .elf64 ops c).symbols = (build .elf64 ops).symbols := rfl
  rw [← hbuilt.offsets, ← hsyms, heq]
  rfl

theorem sameObject_filled {info : UInt32} {c : Contents} {symbols : List Sym64} {relocations : List Rela64} {names : List (List UInt8)}
    (h : Complete (prepared info c symbols relocations (nameTable names)) names) (self : ElfFile) :
    SameObject (filled c symbols relocations (nameTable names)) (settle (prepared info c symbols relocations (nameTable names)))
      (reloaded self (prepared info c symbols relocations (nameTable names))) names := by
  have hsaved := h.reloaded_saved self
  have hplaced := place_sections 0 ((prepared info c symbols relocations (nameTable names)).shdrs.zip
    (prepared info c symbols relocations (nameTable names)).sections) 64
  have hheaders := place_headers 0 ((prepared info c symbols relocations (nameTable names)).shdrs.zip
    (prepared info c symbols relocations (nameTable names)).sections) 64
  have hsizes := place_sizes 0 ((prepared info c symbols relocations (nameTable names)).shdrs.zip
    (prepared info c symbols relocations (nameTable names)).sections) 64
  refine ⟨rfl, ?_, ?_, ?_, fun i hi => ?_, ?_, rfl, fun i name hname => h.symName_reloaded self hname, rfl⟩
  · have hnames := congrArg (List.map fun x : List UInt8 × UInt64 × List UInt8 => x.1) hsaved
    rw [List.map_map, List.map_map] at hnames
    refine hnames.trans ?_
    rw [settle, List.map_map]
    have hfst := congrArg (List.map Prod.fst) hplaced
    rw [List.map_map, List.map_map] at hfst
    exact Eq.trans hfst (prepared_names info c symbols relocations (nameTable names))
  · have htypes := congrArg (List.map fun shdr : Shdr64 => (shdr.shType, shdr.shFlags)) hheaders
    rw [List.map_map, List.map_map] at htypes
    have hshdrs : (reloaded self (prepared info c symbols relocations (nameTable names))).shdrs =
      (settle (prepared info c symbols relocations (nameTable names))).shdrs := rfl
    rw [hshdrs, settle, List.map_map]
    exact Eq.trans htypes (prepared_flags info c symbols relocations (nameTable names))
  · have hcontents := congrArg (List.map fun x : List UInt8 × UInt64 × List UInt8 => x.2) hsaved
    rw [List.map_map, List.map_map] at hcontents
    exact hcontents
  · rw [h.bufOf_reloaded self]
    have hkept : i ∉ [2, 6, 7] := hi
    rcases i with _ | _ | _ | _ | _ | _ | _ | _ | _ | i
    any_goals rfl
    all_goals exact absurd (by decide) hkept
  · obtain ⟨p, hp⟩ := h.ready.exists_laidOut (show 4 < 9 by decide)
    have hbss : p.2.size = c.bssSize := by
      have hsize := congrArg (·[4]?) hsizes
      simp only [List.getElem?_map, show (place 0 _ 64).1[4]? = some p from hp] at hsize
      exact (Option.some.inj hsize).trans UInt64.ofNat_toNat
    have hsec := h.reloaded_sections self hp
    rw [(h.ready.settled hp).size, hbss] at hsec
    rw [show (filled c symbols relocations (nameTable names)).bss = 4 from rfl, hsec]
    rfl

end Rv8.Elf
