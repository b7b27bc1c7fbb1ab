import Rv8.Elf.Sections
/-!
# Objects

What a program makes of `init_object` with calls of `add_symbol` and `add_reloc`, and then
by filling the sections. The only section that the calls write is the string table: it
holds the names one after another, and each symbol has the offset of its name there.

An object of class 32 cannot be saved. The symbol at index `i` goes to the byte `256 i` of
a buffer of 16 bytes for each symbol, and there is always a second one.
-/

namespace Rv8.Elf

open Rv8.Lib ElfFile

/-! ## Building -/

inductive ObjectOp
  | symbol (name : List UInt8) (stBind stType : UInt32) (stOther : UInt8) (stShndx : UInt16) (stValue : UInt64)
  | reloc (rOffset rSym rType rAddend : UInt64)
deriving DecidableEq

def ObjectOp.apply (f : ElfFile) : ObjectOp → ElfFile
  | .symbol name stBind stType stOther stShndx stValue => f.addSymbol name stBind stType stOther stShndx stValue
  | .reloc rOffset rSym rType rAddend => f.addReloc rOffset rSym rType rAddend

/-- The name an operation adds, if any. -/
def ObjectOp.names : ObjectOp → List (List UInt8)
  | .symbol name .. => [name]
  | .reloc .. => []

def build (cls : ElfClass) (ops : List ObjectOp) : ElfFile := ops.foldl ObjectOp.apply (initObject cls)

/-- The names of the symbols of `init_object`. -/
def initNames : List (List UInt8) := [[], nameBytes ".text", nameBytes ".data", nameBytes ".bss", nameBytes ".rodata"]

def symbolNames (ops : List ObjectOp) : List (List UInt8) := initNames ++ ops.flatMap ObjectOp.names

/-- What goes into the sections. -/
structure Contents where
  (text data rodata : List UInt8)
  bssSize : UInt64

def fill (f : ElfFile) (c : Contents) : ElfFile :=
  let f := f.setBuf f.text c.text
  let f := f.setBuf f.data c.data
  let f := f.setBuf f.rodata c.rodata
  { f with sections := f.sections.modify f.bss fun s => { s with size := c.bssSize } }

def object (cls : ElfClass) (ops : List ObjectOp) (c : Contents) : ElfFile := fill (build cls ops) c

/-! ## Round trips -/

/-- `g` has been loaded from the file that saving `f` wrote; `f'` is what saving made of `f`. Saving makes the contents of three
sections; all others are those of `f`. -/
structure SameObject (f f' g : ElfFile) (names : List (List UInt8)) : Prop where
  header : (g.eiClass, g.ehdr.eType, g.ehdr.eMachine) = (f.eiClass, f.ehdr.eType, f.ehdr.eMachine)
  sectionNames : g.sections.map ElfSection.name = f.sections.map ElfSection.name
  types : g.shdrs.map (fun shdr => (shdr.shType, shdr.shFlags)) = f.shdrs.map fun shdr => (shdr.shType, shdr.shFlags)
  saved : g.sections.map (fun s => (s.size, s.buf)) = f'.sections.map fun s => (s.size, s.buf)
  contents : ∀ i, i ∉ [f.relaText, f.shstrtab, f.symtab] → g.bufOf i = f.bufOf i
  bss : (g.sections[f.bss]?).map ElfSection.size = (f.sections[f.bss]?).map ElfSection.size
  symbols : g.symbols = f.symbols
  symbolNames : ∀ i name, names[i]? = some name → (g.symName i : Prog ElfPanic Nat _) = pure name
  relocations : g.relocations = f.relocations

/-- Saving succeeds, loading what was saved succeeds, and nothing has changed. -/
def RoundTrips (self f : ElfFile) (names : List (List UInt8)) : Prop :=
  ∃ f' o g pos, save f ⟨.empty, 0⟩ = .ok f' o ∧ load self o.file 0 = .ok g pos ∧ SameObject f f' g names

/-! ## The string table -/

theorem nameTable_append (names : List (List UInt8)) (name : List UInt8) :
    nameTable (names ++ [name]) = nameTable names ++ name ++ [0] := by
  simp [nameTable, List.flatMap_append]

theorem nameOffsets_append (names : List (List UInt8)) (name : List UInt8) (start : Nat) :
    nameOffsets start (names ++ [name]) = nameOffsets start names ++ [start + (nameTable names).length] := by
  induction names generalizing start with
  | nil => rfl
  | cons n names ih =>
    simp only [List.cons_append, nameOffsets, ih, nameTable, List.flatMap_cons, List.length_append, List.length_singleton]
    congr 3
    omega

/-- An object is the one it was built from up to its string table, symbols and relocations. -/
structure Built (base : ElfFile) (names : List (List UInt8)) (f : ElfFile) : Prop where
  eq : ∃ symbols relocations, f = { base.setBuf base.strtab (nameTable names) with symbols, relocations }
  offsets : f.symbols.map Sym.stName = (nameOffsets 0 names).map UInt32.ofNat

section Built
variable {base : ElfFile} (hsym : base.symtab ≠ 0) (hstr : base.strtab ≠ 0) (hsec : base.strtab < base.sections.length)
include hsym hstr hsec

/-- Adding to an object adds a name or none. -/
theorem Built.step {names : List (List UInt8)} {f : ElfFile} (h : Built base names f) (op : ObjectOp) :
    Built base (names ++ op.names) (op.apply f) := by
  obtain ⟨⟨symbols, relocations, heq⟩, hoff⟩ := h
  have hbuf : f.bufOf f.strtab = nameTable names := by
    rw [heq]
    simp [ElfFile.bufOf, ElfFile.setBuf, List.getElem?_eq_getElem hsec]
  have htab : ¬ (f.symtab = 0 ∨ f.strtab = 0) := by
    rw [heq]
    exact not_or.2 ⟨hsym, hstr⟩
  cases op with
  | reloc rOffset rSym rType rAddend =>
    rw [ObjectOp.names, List.append_nil, ObjectOp.apply, addReloc]
    exact ⟨⟨symbols, _, by rw [heq]⟩, hoff⟩
  | symbol name stBind stType stOther stShndx stValue =>
    simp only [ObjectOp.apply, addSymbol, if_neg htab, hbuf, ObjectOp.names]
    refine ⟨⟨f.symbols ++ [⟨UInt32.ofNat (nameTable names).length, elf64StInfo stBind stType, stOther, stShndx, stValue, 0⟩],
      relocations, ?_⟩, ?_⟩
    · have hset := setBuf_setBuf base base.strtab (nameTable names) (nameTable names ++ name ++ [0])
      rw [heq, nameTable_append, ← hset]
      rfl
    · simp [hoff, nameOffsets_append]

/-- What a run of operations leaves. -/
theorem Built.run {names : List (List UInt8)} {f : ElfFile} (h : Built base names f) (ops : List ObjectOp) :
    Built base (names ++ ops.flatMap ObjectOp.names) (ops.foldl ObjectOp.apply f) := by
  induction ops generalizing names f with
  | nil => simpa using h
  | cons op ops ih =>
    rw [List.flatMap_cons, ← List.append_assoc]
    exact ih (h.step hsym hstr hsec op)

end Built

theorem built_init (cls : ElfClass) : Built (initObject cls) initNames (initObject cls) := by
  refine ⟨⟨(initObject cls).symbols, (initObject cls).relocations, ?_⟩, ?_⟩
  · cases cls <;> rfl
  · cases cls <;> rfl

theorem built_build (cls : ElfClass) (ops : List ObjectOp) : Built (initObject cls) (symbolNames ops) (build cls ops) := by
  refine Built.run ?_ ?_ ?_ (built_init cls) ops
  · cases cls <;> decide
  · cases cls <;> decide
  · cases cls <;> decide

/-! ## Objects of class 32 -/

/-- One turn of the loop over the symbols of class 32. -/
def putSym32 {σ : Type} (symbols : List Sym64) (i : Nat) (buf : List UInt8) : Prog ElfPanic σ (List UInt8) :=
  let pos := i * ElfClass.elf32.symSize * ElfClass.elf32.symSize
  if pos + ElfClass.elf32.symSize ≤ buf.length then
    pure (buf.take pos ++ ((symbols[i]?).map fun s => (sym32Layout UInt32).encode (s.convert UInt64.toUInt32)).getD [] ++
      buf.drop (pos + ElfClass.elf32.symSize))
  else .undefined

section Class32
variable {σ : Type} {symbols : List Sym64}

/-- No turn makes the buffer longer. -/
theorem yields_putSym32 {i n : Nat} {buf : List UInt8} (h : buf.length ≤ n) :
    Prog.Yields (fun buf' => buf'.length ≤ n ∧ i * 16 * 16 + 16 ≤ n) (putSym32 symbols i buf : Prog ElfPanic σ (List UInt8)) := by
  have hsize : ElfClass.elf32.symSize = 16 := rfl
  intro s buf' s' hbuf'
  unfold putSym32 at hbuf'
  split at hbuf'
  · rename_i hfit
    obtain ⟨rfl, -⟩ := Outcome.ok.inj hbuf'
    have hsym : (((symbols[i]?).map fun s => (sym32Layout UInt32).encode (s.convert UInt64.toUInt32)).getD []).length ≤ 16 := by
      cases symbols[i]? with
      | none => exact Nat.zero_le _
      | some sym => exact ((sym32Layout UInt32).length_encode _).le
    rw [hsize] at hfit ⊢
    refine ⟨?_, by omega⟩
    simp only [List.length_append, List.length_take, List.length_drop]
    omega
  · cases hbuf'

/-- The last of two or more symbols does not fit. -/
theorem yields_putSyms32 (hlen : 2 ≤ symbols.length) {buf : List UInt8} (hbuf : buf.length ≤ symbols.length * 16) :
    Prog.Yields (fun _ => False) (Prog.iterate (putSym32 symbols) symbols.length buf : Prog ElfPanic σ (List UInt8)) := by
  obtain ⟨m, hm⟩ : ∃ m, symbols.length = m + 1 := ⟨symbols.length - 1, by omega⟩
  rw [hm] at hlen hbuf ⊢
  refine Prog.Yields.bind (R := fun buf' => buf'.length ≤ (m + 1) * 16) ?_ fun buf' hbuf' => ?_
  · refine Prog.yields_iterate (Q := fun b : List UInt8 => b.length ≤ (m + 1) * 16) hbuf (fun i b hb => ?_) m
    intro s b' s' h
    exact (yields_putSym32 hb s b' s' h).1
  · intro s b' s' h
    have := (yields_putSym32 hbuf' s b' s' h).2
    omega

theorem copyToSymbolTableSections_elf32 {f : ElfFile} (hcls : f.eiClass = .elf32) (hsym : f.symtab ≠ 0)
    (hlen : 2 ≤ f.symbols.length) : Prog.Yields (fun _ => False) (f.copyToSymbolTableSections : Prog ElfPanic σ ElfFile) := by
  have hresize (bs : List UInt8) (n : Nat) : (resize bs n).length ≤ n := by
    simp only [resize, List.length_append, List.length_take, List.length_replicate]
    omega
  unfold copyToSymbolTableSections
  rw [if_neg hsym]
  cases f.symbols.findIdx? fun s => elf64StBind s.stInfo = stbGlobal.toUInt8 with
  | none =>
    simp only [modifyShdr, hcls]
    exact Prog.Yields.bind (yields_putSyms32 hlen (hresize ..)) fun _ h => h.elim
  | some i =>
    simp only [modifyShdr, hcls]
    exact Prog.Yields.bind (yields_putSyms32 hlen (hresize ..)) fun _ h => h.elim

end Class32

/-- The names and relocations of an object that is saved are copied first; the rest stays. -/
theorem copyTo_frame (f : ElfFile) :
    f.copyToSectionNames.copyToRelocationTableSections.eiClass = f.eiClass ∧
    f.copyToSectionNames.copyToRelocationTableSections.symtab = f.symtab ∧
    f.copyToSectionNames.copyToRelocationTableSections.symbols = f.symbols := by
  have hnames : f.copyToSectionNames.eiClass = f.eiClass ∧ f.copyToSectionNames.symtab = f.symtab ∧
      f.copyToSectionNames.symbols = f.symbols := by
    unfold copyToSectionNames
    split <;> exact ⟨rfl, rfl, rfl⟩
  generalize f.copyToSectionNames = g at hnames
  unfold copyToRelocationTableSections
  split
  · exact hnames
  · dsimp only
    split <;> exact hnames

theorem length_nameOffsets (start : Nat) (names : List (List UInt8)) : (nameOffsets start names).length = names.length := by
  induction names generalizing start with
  | nil => rfl
  | cons name names ih => simp [nameOffsets, ih]

theorem length_symbols {base f : ElfFile} {names : List (List UInt8)} (h : Built base names f) : f.symbols.length = names.length := by
  simpa [length_nameOffsets] using congrArg List.length h.offsets

theorem save_elf32 (ops : List ObjectOp) (c : Contents) : Prog.Yields (fun _ => False) (save (object .elf32 ops c)) := by
  have hbuilt := built_build .elf32 ops
  have hlen := length_symbols hbuilt
  obtain ⟨⟨symbols, relocations, heq⟩, -⟩ := hbuilt
  have hcls : (object .elf32 ops c).eiClass = .elf32 := by
    rw [object, heq]
    rfl
  have hsym : (object .elf32 ops c).symtab = 7 := by
    rw [object, heq]
    rfl
  have hsyms : (object .elf32 ops c).symbols = (build .elf32 ops).symbols := rfl
  intro s f' s' hsave
  obtain ⟨f1, o1, hcopy, -⟩ := Prog.of_bind_ok hsave
  obtain ⟨hcls', hsym', hsyms'⟩ := copyTo_frame (object .elf32 ops c)
  refine copyToSymbolTableSections_elf32 (hcls'.trans hcls) ?_ ?_ s f1 o1 hcopy
  · rw [hsym', hsym]
    decide
  · rw [hsyms', hsyms, hlen, symbolNames, List.length_append]
    exact (show 2 ≤ initNames.length by decide).trans (Nat.le_add_right ..)

/-- No object of class 32 comes back from a file. -/
theorem not_roundTrips_elf32 (self : ElfFile) (ops : List ObjectOp) (c : Contents) :
    ¬ RoundTrips self (object .elf32 ops c) (symbolNames ops) := by
  rintro ⟨f', o, g, pos, hsave, -⟩
  exact save_elf32 ops c _ f' o hsave

theorem not_roundTrips_one_function :
    ¬ RoundTrips (initObject .elf32)
      (object .elf32 [.symbol (nameBytes "f") 1 2 0 1 0, .reloc 0 5 17 4] ⟨List.replicate 8 0, [], [], 0⟩)
      (symbolNames [.symbol (nameBytes "f") 1 2 0 1 0, .reloc 0 5 17 4]) := by
  rintro ⟨f', o, g, pos, hsave, -⟩
  exact save_elf32 _ _ _ f' o hsave

end Rv8.Elf
