import Rv8.Elf.Object
/-!
# What is saved

Saving places the sections one after another behind the file header, each at its
alignment, and the section headers behind the last one. `place` is the same layout with
offsets that do not wrap. Where the file stays below 2^63 the two agree, no two parts of
the file share a byte, and each can be read back.
-/

namespace Rv8.Elf

open Rv8.Lib ElfFile

/-! ## Alignment -/

/-- The next offset that is a multiple of the alignment; there is none for the alignment 0. -/
def alignNext (a : UInt64) (o : Nat) : Nat := if a = 0 then o else (o + (a.toNat - 1)) / a.toNat * a.toNat

/-- The alignments of an object. -/
def Alignment (a : UInt64) : Prop := a = 0 ∨ a = 1 ∨ a = 4 ∨ a = 8

instance (a : UInt64) : Decidable (Alignment a) := inferInstanceAs (Decidable (_ ∨ _))

theorem le_alignNext {a : UInt64} (h : Alignment a) (o : Nat) : o ≤ alignNext a o ∧ alignNext a o ≤ o + 7 := by
  rcases h with rfl | rfl | rfl | rfl
  · exact ⟨Nat.le_refl _, Nat.le_add_right ..⟩
  · simp only [alignNext, show (1 : UInt64).toNat = 1 from rfl, show ¬ (1 : UInt64) = 0 by decide, if_false]
    omega
  · simp only [alignNext, show (4 : UInt64).toNat = 4 from rfl, show ¬ (4 : UInt64) = 0 by decide, if_false]
    omega
  · simp only [alignNext, show (8 : UInt64).toNat = 8 from rfl, show ¬ (8 : UInt64) = 0 by decide, if_false]
    omega

/-- A mask of high bits rounds down. -/
theorem and_high {k x m : Nat} (hx : x < 2 ^ 64) (hm : ∀ i, i < 64 → m.testBit i = decide (k ≤ i)) : x &&& m = x / 2 ^ k * 2 ^ k := by
  refine Nat.eq_of_testBit_eq fun i => ?_
  rw [← Nat.shiftRight_eq_div_pow, ← Nat.shiftLeft_eq, Nat.testBit_and, Nat.testBit_shiftLeft, Nat.testBit_shiftRight]
  rcases Nat.lt_or_ge i 64 with hi | hi
  · rw [hm i hi]
    by_cases hk : k ≤ i
    · simp [hk]
    · simp [hk]
  · have hzero (j : Nat) (hj : 64 ≤ j) : x.testBit j = false :=
      Nat.testBit_lt_two_pow (lt_of_lt_of_le hx (Nat.pow_le_pow_right (by decide) hj))
    rw [hzero i hi, Bool.false_and]
    by_cases hk : k ≤ i
    · simp [hzero (k + (i - k)) (by omega)]
    · simp [hk]

theorem toNat_align {a x : UInt64} (h : Alignment a) (ha : 0 < a) (hx : x.toNat + 7 < 2 ^ 64) :
    ((x + (a - 1)) &&& -a).toNat = alignNext a x.toNat := by
  rcases h with rfl | rfl | rfl | rfl
  · exact absurd ha (by decide)
  · have hadd : (x + (1 - 1)).toNat = x.toNat := by
      rw [UInt64.toNat_add]
      exact Nat.mod_eq_of_lt x.toNat_lt
    rw [UInt64.toNat_and, hadd, and_high x.toNat_lt (k := 0) (by decide)]
    simp [alignNext]
  · have hadd : (x + (4 - 1)).toNat = x.toNat + 3 := by
      rw [UInt64.toNat_add]
      exact Nat.mod_eq_of_lt (show x.toNat + 3 < 2 ^ 64 by omega)
    rw [UInt64.toNat_and, hadd, and_high (by omega) (k := 2) (by decide)]
    rfl
  · have hadd : (x + (8 - 1)).toNat = x.toNat + 7 := by
      rw [UInt64.toNat_add]
      exact Nat.mod_eq_of_lt hx
    rw [UInt64.toNat_and, hadd, and_high hx (k := 3) (by decide)]
    rfl

/-! ## Layout -/

/-- The size of a section when it is placed. -/
def placedSize (shdr : Shdr64) (sec : ElfSection) : Nat := if shdr.shType ≠ shtNobits then sec.buf.length else sec.size.toNat

/-- The section headers and sections with their places, and where the last one ends. -/
def place : Nat → List (Shdr64 × ElfSection) → Nat → List (Shdr64 × ElfSection) × Nat
  | _, [], o => ([], o)
  | i, (shdr, sec) :: rest, o =>
    let at_ := alignNext shdr.shAddralign o
    let size := placedSize shdr sec
    let placed := place (i + 1) rest (at_ + size)
    (({ shdr with shOffset := if i = 0 then 0 else UInt64.ofNat at_, shSize := UInt64.ofNat size },
      { sec with offset := UInt64.ofNat at_, size := UInt64.ofNat size }) :: placed.1, placed.2)

/-- Sections of an object that has no addresses yet. -/
def Placeable (l : List (Shdr64 × ElfSection)) : Prop := ∀ p ∈ l, p.1.shAddr = 0 ∧ Alignment p.1.shAddralign

theorem Placeable.tail {p : Shdr64 × ElfSection} {l : List (Shdr64 × ElfSection)} (h : Placeable (p :: l)) : Placeable l :=
  fun q hq => h q (List.mem_cons_of_mem p hq)

theorem le_place {l : List (Shdr64 × ElfSection)} (h : Placeable l) (i o : Nat) : o ≤ (place i l o).2 := by
  induction l generalizing i o with
  | nil => exact Nat.le_refl _
  | cons p l ih =>
    have hle := (le_alignNext (h p List.mem_cons_self).2 o).1
    exact hle.trans ((Nat.le_add_right ..).trans (ih h.tail ..))

/-- The offsets that are computed do not wrap. -/
theorem placeSections_eq {σ : Type} (phdrs : List Phdr64) {l : List (Shdr64 × ElfSection)} (h : Placeable l) {i o : Nat}
    (hend : (place i l o).2 < 2 ^ 63) :
    (placeSections phdrs i l (UInt64.ofNat o) : Prog ElfPanic σ _) = pure ((place i l o).1, UInt64.ofNat (place i l o).2) := by
  induction l generalizing i o with
  | nil => rfl
  | cons p l ih =>
    obtain ⟨shdr, sec⟩ := p
    obtain ⟨haddr, halign⟩ : shdr.shAddr = 0 ∧ Alignment shdr.shAddralign := h _ List.mem_cons_self
    have hle := le_alignNext halign o
    have hrest : alignNext shdr.shAddralign o + placedSize shdr sec ≤ (place i ((shdr, sec) :: l) o).2 := le_place h.tail ..
    have ho : (UInt64.ofNat o).toNat = o := UInt64.toNat_ofNat_of_lt' (by simp only [UInt64.size]; omega)
    have hsize : (if shdr.shType ≠ shtNobits then UInt64.ofNat sec.buf.length else sec.size) = UInt64.ofNat (placedSize shdr sec) := by
      unfold placedSize
      split
      · rfl
      · exact UInt64.ofNat_toNat.symm
    have hup (hpos : 0 < shdr.shAddralign) :
        (UInt64.ofNat o + (shdr.shAddralign - 1)) &&& -shdr.shAddralign = UInt64.ofNat (alignNext shdr.shAddralign o) := by
      rw [← UInt64.toNat_inj, toNat_align halign hpos (by omega), ho, UInt64.toNat_ofNat_of_lt' (by simp only [UInt64.size]; omega)]
    have hstay (hzero : ¬ 0 < shdr.shAddralign) : UInt64.ofNat o = UInt64.ofNat (alignNext shdr.shAddralign o) := by
      have hzero : shdr.shAddralign = 0 := by
        rcases halign with h0 | h0 | h0 | h0
        · exact h0
        · exact absurd (by rw [h0]; decide) hzero
        · exact absurd (by rw [h0]; decide) hzero
        · exact absurd (by rw [h0]; decide) hzero
      rw [alignNext, if_pos hzero]
    have hno : ¬ (shdr.shType = shtProgbits ∧ shdr.shAddr ≠ 0) := fun hne => hne.2 haddr
    simp only [placeSections]
    rw [if_neg hno]
    split
    · rename_i hpos
      rw [Prog.pure_bind, hup hpos, hsize, ← UInt64.ofNat_add, ih h.tail hend, Prog.pure_bind]
      rfl
    · rename_i hzero
      rw [Prog.pure_bind, hstay hzero, hsize, ← UInt64.ofNat_add, ih h.tail hend, Prog.pure_bind]
      rfl

/-- A header without what placing changes. -/
def unplaced (shdr : Shdr64) : Shdr64 := { shdr with shOffset := 0, shSize := 0 }

section Place
variable {l : List (Shdr64 × ElfSection)} (h : Placeable l) {i o : Nat} (hend : (place i l o).2 < 2 ^ 63)
include h hend

/-- A section that has been placed. -/
structure Settled (i o stop : Nat) (p : Shdr64 × ElfSection) : Prop where
  start : o ≤ p.2.offset.toNat
  stop : p.2.offset.toNat + p.2.size.toNat ≤ stop
  offset : i ≠ 0 → p.1.shOffset = p.2.offset
  size : p.1.shSize = p.2.size
  stored : p.1.shType ≠ shtNobits → p.2.buf.length = p.2.size.toNat

omit h hend in
theorem toNat_ofNat {n : Nat} (hn : n < 2 ^ 63) : (UInt64.ofNat n).toNat = n :=
  UInt64.toNat_ofNat_of_lt' (by simp only [UInt64.size]; omega)

theorem place_settled : ∀ p ∈ (place i l o).1, Settled i o (place i l o).2 p := by
  induction l generalizing i o with
  | nil => exact nofun
  | cons q l ih =>
    obtain ⟨shdr, sec⟩ := q
    have hle := (le_alignNext (h _ List.mem_cons_self).2 o).1
    have hrest : alignNext shdr.shAddralign o + placedSize shdr sec ≤ (place i ((shdr, sec) :: l) o).2 := le_place h.tail ..
    have hat : (UInt64.ofNat (alignNext shdr.shAddralign o)).toNat = alignNext shdr.shAddralign o := toNat_ofNat (by omega)
    have hsize : (UInt64.ofNat (placedSize shdr sec)).toNat = placedSize shdr sec := toNat_ofNat (by omega)
    intro p hp
    rcases List.mem_cons.1 hp with rfl | hp
    · refine ⟨?_, ?_, fun hi => if_neg hi, rfl, fun hbits => ?_⟩
      · exact hat.symm ▸ hle
      · rw [hat, hsize]
        exact hrest
      · rw [hsize]
        exact (if_pos hbits).symm
    · obtain ⟨hstart, hstop, hoffset, hps, hstored⟩ := ih h.tail hend p hp
      exact ⟨hle.trans ((Nat.le_add_right ..).trans hstart), hstop, fun _ => hoffset (Nat.succ_ne_zero i), hps, hstored⟩

/-- Each section ends before the next one starts. -/
theorem place_ordered : (place i l o).1.Pairwise fun p p' => p.2.offset.toNat + p.2.size.toNat ≤ p'.2.offset.toNat := by
  induction l generalizing i o with
  | nil => exact .nil
  | cons q l ih =>
    obtain ⟨shdr, sec⟩ := q
    have hrest : alignNext shdr.shAddralign o + placedSize shdr sec ≤ (place i ((shdr, sec) :: l) o).2 := le_place h.tail ..
    refine List.pairwise_cons.2 ⟨fun p hp => ?_, ih h.tail hend⟩
    have hstart := (place_settled h.tail hend p hp).start
    rwa [toNat_ofNat (n := alignNext shdr.shAddralign o) (by omega), toNat_ofNat (n := placedSize shdr sec) (by omega)]

omit h hend in
theorem place_sections (i : Nat) (l : List (Shdr64 × ElfSection)) (o : Nat) :
    (place i l o).1.map (fun p => (p.2.name, p.2.buf)) = l.map fun p => (p.2.name, p.2.buf) := by
  induction l generalizing i o with
  | nil => rfl
  | cons p l ih => exact congrArg (_ :: ·) (ih ..)

omit h hend in
/-- Where the last section ends depends on alignments and sizes only. -/
theorem place_end (i : Nat) (l : List (Shdr64 × ElfSection)) (o : Nat) : (place i l o).2 =
    (l.map fun p => (p.1.shAddralign, placedSize p.1 p.2)).foldl (fun o x => alignNext x.1 o + x.2) o := by
  induction l generalizing i o with
  | nil => rfl
  | cons p l ih => exact ih ..

omit h hend in
theorem place_sizes (i : Nat) (l : List (Shdr64 × ElfSection)) (o : Nat) :
    (place i l o).1.map (fun p => p.2.size) = l.map fun p => UInt64.ofNat (placedSize p.1 p.2) := by
  induction l generalizing i o with
  | nil => rfl
  | cons p l ih => exact congrArg (_ :: ·) (ih ..)

omit h hend in
/-- Placing changes nothing of a header but the offset and the size. -/
theorem place_headers (i : Nat) (l : List (Shdr64 × ElfSection)) (o : Nat) :
    (place i l o).1.map (fun p => unplaced p.1) = l.map fun p => unplaced p.1 := by
  induction l generalizing i o with
  | nil => rfl
  | cons p l ih => exact congrArg (_ :: ·) (ih ..)

end Place

/-! ## Writing -/

theorem seek_write {off : UInt64} (h : off.toNat < 2 ^ 63) (bs : List UInt8) (s : Out) :
    (seekOut off >>= fun _ => fwrite bs) s = .ok () ⟨s.file.write off.toNat bs, off.toNat + bs.length⟩ := by
  show Outcome.ok () _ = _
  simp only [if_pos h]

/-- A loop whose turns write. -/
theorem forRange_writes {f : Nat → Prog ElfPanic Out Unit} {w : Nat → List (Nat × List UInt8)} {n : Nat}
    (h : ∀ i s, i < n → ∃ pos, f i s = .ok () ⟨File.writes (w i) s.file, pos⟩) (s : Out) :
    ∃ pos, Prog.forRange n f s = .ok () ⟨File.writes ((List.range n).flatMap w) s.file, pos⟩ := by
  induction n with
  | zero => exact ⟨s.pos, rfl⟩
  | succ n ih =>
    obtain ⟨pos, hpos⟩ := ih fun i s hi => h i s (by omega)
    obtain ⟨pos', hpos'⟩ := h n ⟨_, pos⟩ (by omega)
    refine ⟨pos', ?_⟩
    rw [Prog.forRange, Prog.bind_ok hpos, hpos', List.range_succ, List.flatMap_append, File.writes_append, List.flatMap_singleton]

/-! ## The tables of an object -/

/-- The names of the sections. -/
def sectionNames : List (List UInt8) :=
  [[], nameBytes ".text", nameBytes ".rela.text", nameBytes ".data", nameBytes ".bss", nameBytes ".rodata", nameBytes ".shstrtab",
    nameBytes ".symtab", nameBytes ".strtab"]

/-- An object with its sections; the contents are in the order of the sections. -/
def withSections (bufs : List (List UInt8)) (bssSize symtabSize : UInt64) : List ElfSection :=
  List.zipWith (fun name (b : UInt64 × List UInt8) => ⟨name, 0, b.1, b.2⟩) sectionNames
    ([0, 0, 0, 0, bssSize, 0, 0, symtabSize, 0].zip bufs)

/-- An object of class 64, by what it is filled with. -/
def filled (c : Contents) (symbols : List Sym64) (relocations : List Rela64) (strings : List UInt8) : ElfFile :=
  { initObject .elf64 with
    sections := withSections [[], c.text, [], c.data, [], c.rodata, [], [], strings] c.bssSize 0
    symbols, relocations }

/-- The section headers when the tables have been copied. -/
def preparedShdrs (info : UInt32) (relocations symbols : Nat) : List Shdr64 :=
  ((initObject .elf64).copyToSectionNames.shdrs.modify 2 fun shdr =>
    { shdr with shEntsize := 24, shSize := UInt64.ofNat (24 * relocations) }).modify 7 fun shdr =>
    { shdr with shInfo := info, shEntsize := 24, shSize := UInt64.ofNat (symbols * 24) }

/-- The contents of the sections when the tables have been copied. -/
def preparedBufs (c : Contents) (symbols : List Sym64) (relocations : List Rela64) (strings : List UInt8) : List (List UInt8) :=
  [[], c.text, (relaLayout UInt64).encodeAll relocations, c.data, [], c.rodata, nameTable sectionNames,
    (sym64Layout UInt64).encodeAll symbols, strings]

def prepared (info : UInt32) (c : Contents) (symbols : List Sym64) (relocations : List Rela64) (strings : List UInt8) : ElfFile :=
  { initObject .elf64 with
    shdrs := preparedShdrs info relocations.length symbols.length
    sections := withSections (preparedBufs c symbols relocations strings) c.bssSize (UInt64.ofNat (symbols.length * 24))
    symbols, relocations }

theorem object_eq (ops : List ObjectOp) (c : Contents) : ∃ symbols relocations,
    object .elf64 ops c = filled c symbols relocations (nameTable (symbolNames ops)) := by
  obtain ⟨⟨symbols, relocations, heq⟩, -⟩ := built_build .elf64 ops
  refine ⟨symbols, relocations, ?_⟩
  rw [object, heq]
  rfl

theorem bswapTable_lsb (n : Nat) (ws : List Nat) (bs : List UInt8) : bswapTable elfData2Lsb n ws bs = bs := if_neg (by decide)

theorem copyToSectionNames_eq (c : Contents) (symbols : List Sym64) (relocations : List Rela64) (strings : List UInt8) :
    (filled c symbols relocations strings).copyToSectionNames =
    { initObject .elf64 with
      shdrs := (initObject .elf64).copyToSectionNames.shdrs
      sections := withSections [[], c.text, [], c.data, [], c.rodata, nameTable sectionNames, [], strings] c.bssSize 0
      symbols, relocations } := rfl

theorem copyToRelocationTableSections_eq (c : Contents) (symbols : List Sym64) (relocations : List Rela64) (strings : List UInt8) :
    ({ initObject .elf64 with
      shdrs := (initObject .elf64).copyToSectionNames.shdrs
      sections := withSections [[], c.text, [], c.data, [], c.rodata, nameTable sectionNames, [], strings] c.bssSize 0
      symbols, relocations } : ElfFile).copyToRelocationTableSections =
    { initObject .elf64 with
      shdrs := (initObject .elf64).copyToSectionNames.shdrs.modify 2 fun shdr =>
        { shdr with shEntsize := 24, shSize := UInt64.ofNat (24 * relocations.length) }
      sections := withSections [[], c.text, (relaLayout UInt64).encodeAll relocations, c.data, [], c.rodata, nameTable sectionNames, [],
        strings] c.bssSize 0
      symbols, relocations } := by
  rw [← bswapTable_lsb 24 ElfClass.elf64.relaWidths ((relaLayout UInt64).encodeAll relocations)]
  rfl

/-- The tables of an object are copied into its sections. -/
theorem copyTo_eq {σ : Type} (c : Contents) (symbols : List Sym64) (relocations : List Rela64) (strings : List UInt8) :
    ∃ info, ((filled c symbols relocations strings).copyToSectionNames.copyToRelocationTableSections.copyToSymbolTableSections :
      Prog ElfPanic σ _) = pure (prepared info c symbols relocations strings) := by
  rw [copyToSectionNames_eq, copyToRelocationTableSections_eq]
  unfold copyToSymbolTableSections
  rw [if_neg (show (initObject .elf64).symtab ≠ 0 by decide)]
  cases hfind : symbols.findIdx? fun s => elf64StBind s.stInfo = stbGlobal.toUInt8 with
  | none =>
    refine ⟨0, ?_⟩
    rfl
  | some i =>
    refine ⟨UInt32.ofNat i, ?_⟩
    rfl

/-! ## Saving -/

/-- The sections of a file without program headers in their places. -/
def laidOut (f : ElfFile) : List (Shdr64 × ElfSection) × Nat := place 0 (f.shdrs.zip f.sections) 64

/-- The file with everything in its place. -/
def settle (f : ElfFile) : ElfFile :=
  { f with
    shdrs := (laidOut f).1.map Prod.fst
    sections := (laidOut f).1.map Prod.snd
    ehdr := { f.ehdr with
      ePhnum := 0, eShnum := UInt16.ofNat f.shdrs.length, eEhsize := 64, ePhentsize := 56, eShentsize := 64, ePhoff := 64,
      eShoff := UInt64.ofNat (laidOut f).2 } }

theorem settle_shdrs {f : ElfFile} {i : Nat} {p : Shdr64 × ElfSection} (hp : (laidOut f).1[i]? = some p) : (settle f).shdrs[i]? = some p.1 := by
  rw [settle, List.getElem?_map, hp]
  rfl

theorem settle_sections {f : ElfFile} {i : Nat} {p : Shdr64 × ElfSection} (hp : (laidOut f).1[i]? = some p) :
    (settle f).sections[i]? = some p.2 := by
  rw [settle, List.getElem?_map, hp]
  rfl

/-- What placing keeps of a section and its header. -/
theorem laidOut_kept {f : ElfFile} {i : Nat} {p : Shdr64 × ElfSection} (hp : (laidOut f).1[i]? = some p) : ∃ q, (f.shdrs.zip f.sections)[i]? = some q ∧
    p.2.name = q.2.name ∧ p.2.buf = q.2.buf ∧ unplaced p.1 = unplaced q.1 := by
  have hsec := congrArg (·[i]?) (place_sections 0 (f.shdrs.zip f.sections) 64)
  have hhdr := congrArg (·[i]?) (place_headers 0 (f.shdrs.zip f.sections) 64)
  simp only [List.getElem?_map] at hsec hhdr
  rw [show (place 0 (f.shdrs.zip f.sections) 64).1[i]? = some p from hp] at hsec hhdr
  obtain ⟨q, hq, hval⟩ := Option.map_eq_some_iff.1 hsec.symm
  obtain ⟨q', hq', hval'⟩ := Option.map_eq_some_iff.1 hhdr.symm
  obtain rfl := Option.some.inj (hq.symm.trans hq')
  obtain ⟨hname, hbuf⟩ := Prod.mk.inj hval
  exact ⟨q, hq, hname.symm, hbuf.symm, hval'.symm⟩

/-- An object of class 64 whose tables have been copied. -/
structure Ready (f : ElfFile) : Prop where
  eiClass : f.eiClass = .elf64
  eiData : f.eiData = elfData2Lsb
  phdrs : f.phdrs = []
  length : f.sections.length = f.shdrs.length
  count : f.shdrs.length < 2 ^ 16
  placeable : Placeable (f.shdrs.zip f.sections)
  first : ∀ p, (f.shdrs.zip f.sections)[0]? = some p → p.1.shType ≠ shtNobits ∧ p.2.buf = []
  nobits : ∀ p ∈ f.shdrs.zip f.sections, p.1.shType = shtNobits → p.2.buf = []
  symtab : f.symtab ≠ 0 ∧ ∃ shdr, f.shdrs[f.symtab]? = some shdr ∧ shdr.shType ≠ shtNobits ∧ shdr.shEntsize = 24
  size : (laidOut f).2 + f.shdrs.length * 64 < 2 ^ 63

namespace Ready

variable {f : ElfFile} (h : Ready f)
include h

theorem below : (laidOut f).2 < 2 ^ 63 := lt_of_le_of_lt (Nat.le_add_right ..) h.size

theorem recalculateSectionOffsets_eq {σ : Type} : (f.recalculateSectionOffsets : Prog ElfPanic σ _) = pure (settle f) := by
  have hplace := placeSections_eq (σ := σ) f.phdrs h.placeable (i := 0) (o := 64) h.below
  simp only [recalculateSectionOffsets, h.eiClass, h.phdrs] at hplace ⊢
  refine (congrArg (· >>= _) hplace).trans ?_
  simp only [Prog.pure_bind, settle, laidOut, h.eiClass, h.phdrs]
  rfl

theorem length_laidOut : (laidOut f).1.length = f.shdrs.length := by
  have := congrArg List.length (place_sections 0 (f.shdrs.zip f.sections) 64)
  simpa [laidOut, h.length] using this

theorem exists_laidOut {i : Nat} (hi : i < f.shdrs.length) : ∃ p, (laidOut f).1[i]? = some p :=
  ⟨_, List.getElem?_eq_getElem (h.length_laidOut.symm ▸ hi)⟩

theorem length_shdrs : (settle f).shdrs.length = f.shdrs.length := by
  rw [settle, List.length_map, h.length_laidOut]

theorem settled {i : Nat} {p : Shdr64 × ElfSection} (hp : (laidOut f).1[i]? = some p) : Settled 0 64 (laidOut f).2 p :=
  place_settled h.placeable h.below p (List.mem_of_getElem? hp)

theorem length_sections : (settle f).sections.length = f.shdrs.length := by
  rw [settle, List.length_map, h.length_laidOut]

/-- A section without bytes in the file has none in memory, and its buffer is not longer than its size. -/
theorem buf_le {i : Nat} {p : Shdr64 × ElfSection} (hp : (laidOut f).1[i]? = some p) : p.2.buf.length ≤ p.2.size.toNat := by
  by_cases hbits : p.1.shType = shtNobits
  · obtain ⟨q, hq, -, hbuf, hhdr⟩ := laidOut_kept hp
    have htype : q.1.shType = shtNobits := (congrArg Shdr.shType hhdr.symm).trans hbits
    rw [hbuf, h.nobits q (List.mem_of_getElem? hq) htype]
    exact Nat.zero_le _
  · exact ((h.settled hp).stored hbits).le

theorem ordered {i j : Nat} {p q : Shdr64 × ElfSection} (hij : i < j) (hp : (laidOut f).1[i]? = some p) (hq : (laidOut f).1[j]? = some q) :
    p.2.offset.toNat + p.2.size.toNat ≤ q.2.offset.toNat := by
  obtain ⟨hi, rfl⟩ := List.getElem?_eq_some_iff.1 hp
  obtain ⟨hj, rfl⟩ := List.getElem?_eq_some_iff.1 hq
  exact List.pairwise_iff_getElem.1 (place_ordered h.placeable h.below) i j hi hj hij

theorem placed : Placed (settle f).sections := by
  refine ⟨fun s hs => ?_, List.pairwise_iff_getElem.2 fun i j hi hj hij => ?_⟩
  · obtain ⟨i, hi, rfl⟩ := List.mem_iff_getElem.1 hs
    have hp := List.getElem?_eq_getElem (show i < (laidOut f).1.length by simpa [settle] using hi)
    have hstop := (h.settled hp).stop
    have hle := h.buf_le hp
    have hbelow := h.below
    simp only [settle, List.getElem_map]
    omega
  · have hp := List.getElem?_eq_getElem (show i < (laidOut f).1.length by simpa [settle] using hi)
    have hq := List.getElem?_eq_getElem (show j < (laidOut f).1.length by simpa [settle] using hj)
    have hle := h.buf_le hp
    have hord := h.ordered hij hp hq
    refine Range.apart_of_le ?_
    simp only [settle, List.getElem_map, ElfSection.range]
    omega

/-- Every section but the first is where its header says. -/
theorem offset_eq {i : Nat} {p : Shdr64 × ElfSection} (hi : i ≠ 0) (hp : (laidOut f).1[i]? = some p) : p.1.shOffset = p.2.offset := by
  obtain ⟨k, rfl⟩ := Nat.exists_eq_succ_of_ne_zero hi
  have hplace := h.placeable
  have hbelow := h.below
  unfold laidOut at hp hbelow
  cases hl : f.shdrs.zip f.sections with
  | nil =>
    rw [hl] at hp
    cases hp
  | cons q l =>
    rw [hl] at hp hbelow hplace
    exact (place_settled hplace.tail hbelow p (List.mem_of_getElem? hp)).offset Nat.one_ne_zero

/-- The first section is empty, at the start of the file. -/
theorem first_eq {p : Shdr64 × ElfSection} (hp : (laidOut f).1[0]? = some p) : p.1.shOffset = 0 ∧ p.2.size.toNat = 0 := by
  refine ⟨?_, ?_⟩
  · unfold laidOut at hp
    cases hl : f.shdrs.zip f.sections with
    | nil =>
      rw [hl] at hp
      cases hp
    | cons q l =>
      rw [hl] at hp
      obtain rfl := Option.some.inj hp
      rfl
  · obtain ⟨q, hq, -, hbuf, hhdr⟩ := laidOut_kept hp
    obtain ⟨htype, hempty⟩ := h.first q hq
    have htype' : p.1.shType = q.1.shType := (congrArg Shdr.shType hhdr :)
    rw [← (h.settled hp).stored (htype' ▸ htype), hbuf, hempty]
    rfl

/-- In the file, too, each section ends before the next one starts, and the last before the section headers. -/
theorem file_ordered {i j : Nat} {p q : Shdr64 × ElfSection} (hij : i < j) (hp : (laidOut f).1[i]? = some p)
    (hq : (laidOut f).1[j]? = some q) : p.1.shOffset.toNat + p.1.shSize.toNat ≤ q.1.shOffset.toNat := by
  rw [(h.settled hp).size]
  by_cases hi : i = 0
  · subst hi
    obtain ⟨hoff, hsize⟩ := h.first_eq hp
    rw [hoff, hsize]
    exact Nat.zero_le _
  · rw [h.offset_eq hi hp, h.offset_eq (by omega) hq]
    exact h.ordered hij hp hq

theorem file_stop {i : Nat} {p : Shdr64 × ElfSection} (hp : (laidOut f).1[i]? = some p) :
    p.1.shOffset.toNat + p.1.shSize.toNat ≤ (laidOut f).2 := by
  rw [(h.settled hp).size]
  by_cases hi : i = 0
  · subst hi
    obtain ⟨hoff, hsize⟩ := h.first_eq hp
    rw [hoff, hsize]
    exact Nat.zero_le _
  · rw [h.offset_eq hi hp]
    exact (h.settled hp).stop

theorem file_start {i : Nat} {p : Shdr64 × ElfSection} (hp : (laidOut f).1[i]? = some p) :
    64 ≤ p.1.shOffset.toNat ∨ p.1.shOffset = 0 ∧ p.1.shSize.toNat = 0 := by
  by_cases hi : i = 0
  · subst hi
    rw [(h.settled hp).size]
    exact .inr (h.first_eq hp)
  · rw [h.offset_eq hi hp]
    exact .inl (h.settled hp).start

/-- The place of a section, by its header. -/
theorem exists_kept {i : Nat} {shdr : Shdr64} (hshdr : f.shdrs[i]? = some shdr) : ∃ p : Shdr64 × ElfSection,
    (laidOut f).1[i]? = some p ∧ unplaced p.1 = unplaced shdr ∧ p.2.buf = f.bufOf i ∧ (f.sections[i]?).map ElfSection.name = some p.2.name := by
  obtain ⟨p, hp⟩ := h.exists_laidOut (List.getElem?_eq_some_iff.1 hshdr).1
  obtain ⟨q, hq, hname, hbuf, hhdr⟩ := laidOut_kept hp
  obtain ⟨sec, hsec, rfl⟩ : ∃ sec, f.sections[i]? = some sec ∧ q = (shdr, sec) := by
    rw [List.getElem?_zip_eq_some, hshdr] at hq
    exact ⟨q.2, hq.2, Prod.ext (Option.some.inj hq.1).symm rfl⟩
  refine ⟨p, hp, hhdr, hbuf.trans (bufOf_eq hsec).symm, ?_⟩
  rw [hsec, hname]
  rfl

theorem hasSymtab : ∃ shdr sec, HasSymtab (settle f) shdr sec := by
  obtain ⟨hzero, shdr, hshdr, hbits, hent⟩ := h.symtab
  obtain ⟨p, hp, hhdr, -⟩ := h.exists_kept hshdr
  have htype : p.1.shType = shdr.shType := (congrArg Shdr.shType hhdr :)
  have hent' : p.1.shEntsize = shdr.shEntsize := (congrArg Shdr.shEntsize hhdr :)
  refine ⟨p.1, p.2, hzero, settle_shdrs hp, ?_, settle_sections hp, (h.offset_eq hzero hp).symm, ?_, h.placed⟩
  · rw [hent', hent, show (settle f).eiClass = .elf64 from h.eiClass]
    rfl
  · rw [(h.settled hp).stored (htype ▸ hbits), (h.settled hp).size]

theorem byteswapSymbolTable_eq {σ : Type} : ((settle f).byteswapSymbolTable : Prog ElfPanic σ _) = pure (settle f) := by
  obtain ⟨shdr, sec, hsym⟩ := h.hasSymtab
  have hlsb : (settle f).eiData ≠ elfData2Msb := by
    rw [show (settle f).eiData = elfData2Lsb from h.eiData]
    decide
  rw [hsym.byteswapSymbolTable_eq, swapFirst_lsb hlsb, ← bufOf_eq hsym.inside, setBuf_bufOf]

end Ready

/-! ## The file -/

def shdrWrite (g : ElfFile) (i : Nat) : Nat × List UInt8 :=
  (g.ehdr.eShoff.toNat + i * 64, ((g.shdrs[i]?).map (writeShdr elfData2Lsb .elf64)).getD [])

def sectionWrites (g : ElfFile) (i : Nat) : List (Nat × List UInt8) :=
  match g.shdrs[i]? with
  | none => []
  | some shdr => if shdr.shType = shtNobits then [] else [(shdr.shOffset.toNat, g.bufOf i)]

/-- What is written to a file, in order. -/
def fileWrites (g : ElfFile) : List (Nat × List UInt8) :=
  (0, writeEhdr elfData2Lsb .elf64 g.ehdr) ::
    ((List.range g.shdrs.length).flatMap (fun i => [shdrWrite g i]) ++ (List.range g.sections.length).flatMap (sectionWrites g))

/-- The file that is saved. -/
def savedFile (f : ElfFile) : File := File.writes (fileWrites (settle f)) .empty

theorem length_ehdr (ehdr : Ehdr64) : (writeEhdr elfData2Lsb .elf64 ehdr).length = 64 := (ehdrLayout UInt64).length_encode ehdr

namespace Ready

variable {f : ElfFile} (h : Ready f)
include h

theorem toNat_shoff : (settle f).ehdr.eShoff.toNat = (laidOut f).2 := toNat_ofNat h.below

theorem save_shdr {i : Nat} (hi : i < f.shdrs.length) (s : Out) :
    ∃ pos, (seekOut ((settle f).ehdr.eShoff + UInt64.ofNat i * UInt64.ofNat ElfClass.elf64.shdrSize) >>= fun _ =>
      fwrite ((((settle f).shdrs[i]?).map (writeShdr elfData2Lsb .elf64)).getD [])) s =
      .ok () ⟨File.writes [shdrWrite (settle f) i] s.file, pos⟩ := by
  have hsize := h.size
  have hmul : i * 64 < f.shdrs.length * 64 := by omega
  have hoff : ((settle f).ehdr.eShoff + UInt64.ofNat i * UInt64.ofNat ElfClass.elf64.shdrSize).toNat =
      (settle f).ehdr.eShoff.toNat + i * 64 := by
    rw [show ElfClass.elf64.shdrSize = 64 from rfl, ← UInt64.ofNat_mul, UInt64.toNat_add, toNat_ofNat (n := i * 64) (by omega)]
    exact Nat.mod_eq_of_lt (by rw [h.toNat_shoff]; omega)
  rw [seek_write (by rw [hoff, h.toNat_shoff]; omega), hoff]
  exact ⟨_, rfl⟩

theorem save_section {i : Nat} (hi : i < f.shdrs.length) (s : Out) :
    ∃ pos, (match (settle f).shdrs[i]? with
      | none => .undefined
      | some shdr =>
        if shdr.shType = shtNobits then pure ()
        else do
          seekOut shdr.shOffset
          if ((settle f).bufOf i).length < shdr.shSize.toNat then .undefined
          fwrite (((settle f).bufOf i).take shdr.shSize.toNat) : Prog ElfPanic Out Unit) s =
      .ok () ⟨File.writes (sectionWrites (settle f) i) s.file, pos⟩ := by
  obtain ⟨p, hp⟩ := h.exists_laidOut hi
  have hbelow := h.below
  have hstop := h.file_stop hp
  rw [sectionWrites, settle_shdrs hp]
  by_cases hbits : p.1.shType = shtNobits
  · simp only [if_pos hbits]
    exact ⟨s.pos, rfl⟩
  · have hlen : p.2.buf.length = p.1.shSize.toNat := by
      rw [(h.settled hp).stored hbits, (h.settled hp).size]
    simp only [if_neg hbits, bufOf_eq (settle_sections hp), hlen, Nat.lt_irrefl, if_false]
    rw [← hlen, List.take_length]
    exact ⟨_, seek_write (by omega) _ s⟩

/-- Saving writes the header, the section headers and the sections. -/
theorem save_eq {f0 : ElfFile}
    (hcopy : (f0.copyToSectionNames.copyToRelocationTableSections.copyToSymbolTableSections : Prog ElfPanic Out _) = pure f) :
    ∃ pos, save f0 ⟨.empty, 0⟩ = .ok (settle f) ⟨savedFile f, pos⟩ := by
  obtain ⟨p1, h1⟩ := forRange_writes (n := (settle f).shdrs.length) (fun i s hi => h.save_shdr (i := i) (h.length_shdrs ▸ hi) s)
    ⟨File.write .empty 0 (writeEhdr elfData2Lsb .elf64 (settle f).ehdr), 0 + (writeEhdr elfData2Lsb .elf64 (settle f).ehdr).length⟩
  obtain ⟨p2, h2⟩ := forRange_writes (n := (settle f).sections.length) (fun i s hi => h.save_section (i := i) (h.length_sections ▸ hi) s)
    ⟨File.writes ((List.range (settle f).shdrs.length).flatMap fun i => [shdrWrite (settle f) i])
      (File.write .empty 0 (writeEhdr elfData2Lsb .elf64 (settle f).ehdr)), p1⟩
  have hph : (settle f).phdrs = [] := h.phdrs
  have hcls : (settle f).eiClass = .elf64 := h.eiClass
  have hdata : (settle f).eiData = elfData2Lsb := h.eiData
  refine ⟨p2, ?_⟩
  simp only [save, hcopy, Prog.pure_bind, h.recalculateSectionOffsets_eq, h.byteswapSymbolTable_eq, hph, hcls, hdata]
  refine (Prog.bind_ok rfl).trans ((Prog.bind_ok rfl).trans ((Prog.bind_ok h1).trans ((Prog.bind_ok h2).trans ?_)))
  rw [savedFile, fileWrites, File.writes, File.writes_append]
  rfl

theorem length_shdrWrite {i : Nat} (hi : i < f.shdrs.length) : (shdrWrite (settle f) i).2.length = 64 := by
  obtain ⟨p, hp⟩ := h.exists_laidOut hi
  rw [shdrWrite, settle_shdrs hp]
  exact (shdrLayout UInt64).length_encode p.1

/-- The section that a write is for. -/
theorem of_sectionWrites {i : Nat} {w : Nat × List UInt8} (hi : i < f.shdrs.length) (hw : w ∈ sectionWrites (settle f) i) :
    ∃ p, (laidOut f).1[i]? = some p ∧ w.1 = p.1.shOffset.toNat ∧ w.2 = p.2.buf ∧ w.2.length = p.1.shSize.toNat := by
  obtain ⟨p, hp⟩ := h.exists_laidOut hi
  rw [sectionWrites, settle_shdrs hp] at hw
  dsimp only at hw
  split at hw
  · cases hw
  · rename_i hbits
    obtain rfl := List.mem_singleton.1 hw
    refine ⟨p, hp, rfl, bufOf_eq (settle_sections hp), ?_⟩
    rw [bufOf_eq (settle_sections hp), (h.settled hp).stored hbits, (h.settled hp).size]

/-- No two writes share a byte. -/
theorem fileWrites_apart : (fileWrites (settle f)).Pairwise fun w w' => File.Apart w.1 w.2.length w' := by
  have hstart : 64 ≤ (laidOut f).2 := le_place h.placeable 0 64
  refine List.pairwise_cons.2 ⟨fun w hw => ?_, List.pairwise_append.2 ⟨?_, ?_, fun w hw w' hw' => ?_⟩⟩
  · rw [length_ehdr]
    rcases List.mem_append.1 hw with hw | hw
    · obtain ⟨i, -, hw⟩ := List.mem_flatMap.1 hw
      obtain rfl := List.mem_singleton.1 hw
      left
      show 0 + 64 ≤ (settle f).ehdr.eShoff.toNat + i * 64
      rw [h.toNat_shoff]
      omega
    · obtain ⟨i, hi, hw⟩ := List.mem_flatMap.1 hw
      rw [List.mem_range, h.length_sections] at hi
      obtain ⟨p, hp, h1, -, h3⟩ := h.of_sectionWrites hi hw
      rcases h.file_start hp with hge | ⟨hzero, hsize⟩
      · exact .inl (by omega)
      · exact .inr (by rw [h1, h3, hzero, hsize]; rfl)
  · refine List.pairwise_flatMap.2 ⟨fun i _ => List.pairwise_singleton .., List.pairwise_lt_range.imp_of_mem fun {i j} hi _ hij => ?_⟩
    intro w hw w' hw'
    obtain rfl := List.mem_singleton.1 hw
    obtain rfl := List.mem_singleton.1 hw'
    rw [List.mem_range, h.length_shdrs] at hi
    rw [h.length_shdrWrite hi]
    left
    show (settle f).ehdr.eShoff.toNat + i * 64 + 64 ≤ (settle f).ehdr.eShoff.toNat + j * 64
    omega
  · refine List.pairwise_flatMap.2 ⟨fun i _ => ?_, List.pairwise_lt_range.imp_of_mem fun {i j} hi hj hij => ?_⟩
    · rw [sectionWrites]
      split
      · exact .nil
      · split
        · exact .nil
        · exact List.pairwise_singleton ..
    · intro w hw w' hw'
      rw [List.mem_range, h.length_sections] at hi hj
      obtain ⟨p, hp, h1, -, h3⟩ := h.of_sectionWrites hi hw
      obtain ⟨q, hq, h1', -, h3'⟩ := h.of_sectionWrites hj hw'
      have hord := h.file_ordered hij hp hq
      exact .inl (by omega)
  · obtain ⟨i, hi, hw⟩ := List.mem_flatMap.1 hw
    obtain rfl := List.mem_singleton.1 hw
    obtain ⟨j, hj, hw'⟩ := List.mem_flatMap.1 hw'
    rw [List.mem_range, h.length_sections] at hj
    obtain ⟨p, hp, h1, -, h3⟩ := h.of_sectionWrites hj hw'
    have hstop := h.file_stop hp
    right
    show w'.1 + w'.2.length ≤ (settle f).ehdr.eShoff.toNat + i * 64
    rw [h.toNat_shoff]
    omega

/-! ## Reading it back -/

theorem read_ehdr : (savedFile f).read 0 64 = writeEhdr elfData2Lsb .elf64 (settle f).ehdr := by
  have hread := File.read_writes h.fileWrites_apart (w := (0, writeEhdr elfData2Lsb .elf64 (settle f).ehdr)) List.mem_cons_self .empty
  rw [length_ehdr] at hread
  exact hread

theorem shdrWrite_mem {i : Nat} (hi : i < f.shdrs.length) : shdrWrite (settle f) i ∈ fileWrites (settle f) := by
  refine List.mem_cons_of_mem _ (List.mem_append_left _ (List.mem_flatMap.2 ⟨i, ?_, List.mem_singleton_self _⟩))
  rw [List.mem_range, h.length_shdrs]
  exact hi

theorem read_shdr {i : Nat} {p : Shdr64 × ElfSection} (hp : (laidOut f).1[i]? = some p) :
    (savedFile f).read ((laidOut f).2 + i * 64) 64 = writeShdr elfData2Lsb .elf64 p.1 := by
  have hi : i < f.shdrs.length := h.length_laidOut ▸ (List.getElem?_eq_some_iff.1 hp).1
  have hread := File.read_writes h.fileWrites_apart (h.shdrWrite_mem hi) .empty
  rw [h.length_shdrWrite hi, shdrWrite, settle_shdrs hp, h.toNat_shoff] at hread
  exact hread

theorem read_section {i : Nat} {p : Shdr64 × ElfSection} (hp : (laidOut f).1[i]? = some p) (hbits : p.1.shType ≠ shtNobits) :
    (savedFile f).read p.1.shOffset.toNat p.1.shSize.toNat = p.2.buf := by
  have hi : i < f.shdrs.length := h.length_laidOut ▸ (List.getElem?_eq_some_iff.1 hp).1
  have hlen : p.2.buf.length = p.1.shSize.toNat := by
    rw [(h.settled hp).stored hbits, (h.settled hp).size]
  have hmem : (p.1.shOffset.toNat, p.2.buf) ∈ fileWrites (settle f) := by
    refine List.mem_cons_of_mem _ (List.mem_append_right _ (List.mem_flatMap.2 ⟨i, ?_, ?_⟩))
    · rw [List.mem_range, h.length_sections]
      exact hi
    · rw [sectionWrites, settle_shdrs hp]
      simp only [if_neg hbits, bufOf_eq (settle_sections hp), List.mem_singleton]
  have hread := File.read_writes h.fileWrites_apart hmem .empty
  rw [hlen] at hread
  exact hread

/-- The section headers are at the end. -/
theorem size_savedFile (hpos : 0 < f.shdrs.length) : (savedFile f).size = (laidOut f).2 + f.shdrs.length * 64 := by
  have hstart : 64 ≤ (laidOut f).2 := le_place h.placeable 0 64
  refine Nat.le_antisymm (File.size_writes_le (fun w hw _ => ?_) (Nat.zero_le _)) ?_
  · rcases List.mem_cons.1 hw with rfl | hw
    · rw [length_ehdr]
      omega
    · rcases List.mem_append.1 hw with hw | hw
      · obtain ⟨i, hi, hw⟩ := List.mem_flatMap.1 hw
        obtain rfl := List.mem_singleton.1 hw
        rw [List.mem_range, h.length_shdrs] at hi
        rw [h.length_shdrWrite hi]
        show (settle f).ehdr.eShoff.toNat + i * 64 + 64 ≤ _
        rw [h.toNat_shoff]
        omega
      · obtain ⟨i, hi, hw⟩ := List.mem_flatMap.1 hw
        rw [List.mem_range, h.length_sections] at hi
        obtain ⟨p, hp, h1, -, h3⟩ := h.of_sectionWrites hi hw
        have hstop := h.file_stop hp
        omega
  · have hi : f.shdrs.length - 1 < f.shdrs.length := by omega
    have hlen := h.length_shdrWrite hi
    have hle := File.le_size_writes (h.shdrWrite_mem hi) (by intro hnil; rw [hnil] at hlen; cases hlen) .empty
    rw [hlen, shdrWrite, h.toNat_shoff] at hle
    refine Nat.le_trans ?_ hle
    show (laidOut f).2 + f.shdrs.length * 64 ≤ (laidOut f).2 + (f.shdrs.length - 1) * 64 + 64
    omega

end Ready

end Rv8.Elf
