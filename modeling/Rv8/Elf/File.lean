import Rv8.Elf.Format
import Rv8.Lib.Prog
/-!
# ELF files

`elf_file` of `elf-file.cc`: building an object, saving it and loading a file. A panic, a
failed assertion and a failed allocation all end the program, as an error. An access
outside a buffer and a division by zero are undefined.

The state of a load is the position in the file, that of a save the file. The maps from
names and addresses to symbols are left out, and so are file names and sizes.
-/

namespace Rv8.Elf

open Rv8.Lib

inductive ElfClass
  | elf32 | elf64
deriving DecidableEq

/-- Why the program ended; one for each message. -/
inductive ElfPanic
  | invalidFile | invalidMagic | invalidClass | invalidVersion | fread | phdrRange | shdrRange | headersOverlap
  | sectionOverlap | sectionRange | illegalOffset | assertion
deriving DecidableEq

structure ElfSection where
  name : List UInt8
  (offset size : UInt64)
  buf : List UInt8

structure ElfFile where
  eiClass : ElfClass
  eiData : UInt8
  ehdr : Ehdr64
  phdrs : List Phdr64
  shdrs : List Shdr64
  symbols : List Sym64
  relocations : List Rela64
  sections : List ElfSection
  (text relaText data bss rodata shstrtab symtab strtab : Nat)

namespace ElfClass

def ehdrSize : ElfClass → Nat
  | elf32 => (ehdrLayout UInt32).size
  | elf64 => (ehdrLayout UInt64).size

def phdrSize : ElfClass → Nat
  | elf32 => (phdr32Layout UInt32).size
  | elf64 => (phdr64Layout UInt64).size

def shdrSize : ElfClass → Nat
  | elf32 => (shdrLayout UInt32).size
  | elf64 => (shdrLayout UInt64).size

def symSize : ElfClass → Nat
  | elf32 => (sym32Layout UInt32).size
  | elf64 => (sym64Layout UInt64).size

def relaSize : ElfClass → Nat
  | elf32 => (relaLayout UInt32).size
  | elf64 => (relaLayout UInt64).size

/-- The fields of a symbol that are swapped; those of one byte have nothing to swap. -/
def symWidths : ElfClass → List Nat
  | elf32 => (sym32Layout UInt32).widths
  | elf64 => (sym64Layout UInt64).widths

/-- The fields of a relocation that are swapped; `elf_bswap_rela32` leaves the addend. -/
def relaWidths : ElfClass → List Nat
  | elf32 => (relaLayout UInt32).widths.take 2
  | elf64 => (relaLayout UInt64).widths

end ElfClass

/-- `do_swap` on a little-endian host. -/
def bswap (eiData : UInt8) (widths : List Nat) (bs : List UInt8) : List UInt8 :=
  if eiData = elfData2Msb then reverseFields widths bs else bs

/-- A table of records of size `n`, each swapped. -/
def bswapTable (eiData : UInt8) (n : Nat) (widths : List Nat) (bs : List UInt8) : List UInt8 :=
  if eiData = elfData2Msb then (List.range (bs.length / n)).flatMap fun j => reverseFields widths ((bs.drop (j * n)).take n) else bs

section Read
variable (cls : ElfClass) (eiData : UInt8) (bs : List UInt8)

def readEhdr : Ehdr64 :=
  match cls with
  | .elf32 => ((ehdrLayout UInt32).decode (bswap eiData (ehdrLayout UInt32).widths bs)).convert UInt32.toUInt64
  | .elf64 => (ehdrLayout UInt64).decode (bswap eiData (ehdrLayout UInt64).widths bs)

def readPhdr : Phdr64 :=
  match cls with
  | .elf32 => ((phdr32Layout UInt32).decode (bswap eiData (phdr32Layout UInt32).widths bs)).convert UInt32.toUInt64
  | .elf64 => (phdr64Layout UInt64).decode (bswap eiData (phdr64Layout UInt64).widths bs)

def readShdr : Shdr64 :=
  match cls with
  | .elf32 => ((shdrLayout UInt32).decode (bswap eiData (shdrLayout UInt32).widths bs)).convert UInt32.toUInt64
  | .elf64 => (shdrLayout UInt64).decode (bswap eiData (shdrLayout UInt64).widths bs)

/-- A symbol in a buffer that has been swapped already. -/
def readSym : Sym64 :=
  match cls with
  | .elf32 => ((sym32Layout UInt32).decode bs).convert UInt32.toUInt64
  | .elf64 => (sym64Layout UInt64).decode bs

def readRela : Rela64 :=
  match cls with
  | .elf32 => elfRela32ToRela64 ((relaLayout UInt32).decode (bswap eiData cls.relaWidths bs))
  | .elf64 => (relaLayout UInt64).decode (bswap eiData cls.relaWidths bs)

end Read

section Write
variable (eiData : UInt8)

def writeEhdr (cls : ElfClass) (h : Ehdr64) : List UInt8 :=
  match cls with
  | .elf32 => bswap eiData (ehdrLayout UInt32).widths ((ehdrLayout UInt32).encode (h.convert UInt64.toUInt32))
  | .elf64 => bswap eiData (ehdrLayout UInt64).widths ((ehdrLayout UInt64).encode h)

def writePhdr (cls : ElfClass) (h : Phdr64) : List UInt8 :=
  match cls with
  | .elf32 => bswap eiData (phdr32Layout UInt32).widths ((phdr32Layout UInt32).encode (h.convert UInt64.toUInt32))
  | .elf64 => bswap eiData (phdr64Layout UInt64).widths ((phdr64Layout UInt64).encode h)

def writeShdr (cls : ElfClass) (h : Shdr64) : List UInt8 :=
  match cls with
  | .elf32 => bswap eiData (shdrLayout UInt32).widths ((shdrLayout UInt32).encode (h.convert UInt64.toUInt32))
  | .elf64 => bswap eiData (shdrLayout UInt64).widths ((shdrLayout UInt64).encode h)

end Write

/-! ## Looking things up -/

/-- The first section whose buffer has the byte at this offset of the file, and the place in the buffer. -/
def locate (offset : UInt64) : List ElfSection → Option (Nat × Nat)
  | [] => none
  | s :: ss =>
    if s.offset ≤ offset ∧ offset < s.offset + UInt64.ofNat s.buf.length then some (0, (offset - s.offset).toNat)
    else (locate offset ss).map fun p => (p.1 + 1, p.2)

/-- The string at the start of a buffer, if it ends there. -/
def cString (bs : List UInt8) : Option (List UInt8) :=
  if 0 ∈ bs then some (bs.takeWhile (· ≠ 0)) else none

namespace ElfFile

section Lookup
variable {σ : Type}

/-- `offset(offset)`: a pointer into a section's buffer. -/
def offset (f : ElfFile) (off : UInt64) : Prog ElfPanic σ (Nat × Nat) :=
  match locate off f.sections with
  | some p => pure p
  | none => .throw .illegalOffset

def bufOf (f : ElfFile) (i : Nat) : List UInt8 := ((f.sections[i]?).map ElfSection.buf).getD []

def setBuf (f : ElfFile) (i : Nat) (buf : List UInt8) : ElfFile :=
  { f with sections := f.sections.modify i fun s => { s with buf } }

/-- The `n` bytes at an offset, if the buffer has that many. -/
def bytesAt (f : ElfFile) (off : UInt64) (n : Nat) : Prog ElfPanic σ (List UInt8) := do
  let p ← f.offset off
  if p.2 + n ≤ (f.bufOf p.1).length then pure (((f.bufOf p.1).drop p.2).take n) else .undefined

def stringAt (f : ElfFile) (off : UInt64) : Prog ElfPanic σ (List UInt8) := do
  let p ← f.offset off
  match cString ((f.bufOf p.1).drop p.2) with
  | some name => pure name
  | none => .undefined

def shdrName (f : ElfFile) (i : Nat) : Prog ElfPanic σ (List UInt8) :=
  if f.shstrtab = 0 then pure []
  else
    match f.shdrs[i]?, f.shdrs[f.shstrtab]? with
    | none, _ => pure []
    | some shdr, some tab => f.stringAt (tab.shOffset + shdr.shName.toUInt64)
    | some _, none => .undefined

def symName (f : ElfFile) (i : Nat) : Prog ElfPanic σ (List UInt8) :=
  if f.strtab = 0 then pure []
  else
    match f.symbols[i]?, f.shdrs[f.strtab]? with
    | none, _ => pure []
    | some sym, some tab => f.stringAt (tab.shOffset + sym.stName.toUInt64)
    | some _, none => .undefined

/-! ## Tables in memory -/

/-- The offset of a symbol in the file. -/
def symOffset (f : ElfFile) (symtab : Shdr64) (i : Nat) : UInt64 :=
  symtab.shOffset + UInt64.ofNat i * UInt64.ofNat f.eiClass.symSize

/-- The header of the symbol table and the number of symbols. -/
def symtabInfo (f : ElfFile) : Prog ElfPanic σ (Shdr64 × Nat) :=
  match f.shdrs[f.symtab]? with
  | none => .undefined
  | some shdr => if shdr.shEntsize = 0 then .undefined else pure (shdr, (shdr.shSize / shdr.shEntsize).toNat)

def byteswapSymbolTable (f : ElfFile) : Prog ElfPanic σ ElfFile :=
  if f.symtab = 0 then pure f
  else do
    let (shdr, numSymbols) ← f.symtabInfo
    Prog.iterate (fun i f => do
      let p ← f.offset (f.symOffset shdr i)
      let bs ← f.bytesAt (f.symOffset shdr i) f.eiClass.symSize
      let buf := f.bufOf p.1
      pure (f.setBuf p.1 (buf.take p.2 ++ bswap f.eiData f.eiClass.symWidths bs ++ buf.drop (p.2 + f.eiClass.symSize)))) numSymbols f

def copyFromSymbolTableSections (f : ElfFile) : Prog ElfPanic σ ElfFile :=
  if f.symtab = 0 then pure { f with symbols := [] }
  else do
    let (shdr, numSymbols) ← f.symtabInfo
    if shdr.shEntsize.toNat ≠ f.eiClass.symSize then .throw .assertion
    let symbols ← Prog.collect (fun i => do
      let bs ← f.bytesAt (f.symOffset shdr i) f.eiClass.symSize
      pure (readSym f.eiClass bs)) numSymbols
    let f := { f with symbols }
    if f.strtab ≠ 0 then
      -- the names go to the maps
      Prog.forRange symbols.length fun i =>
        if (symbols[i]?).map Sym.stValue ≠ some 0 then do
          let _ ← f.symName i
          pure ()
        else pure ()
    pure f

/-- The records in the buffer of a relocation section. The last one is read as a whole. -/
def copyFromRelocationTable (f : ElfFile) (i : Nat) : Prog ElfPanic σ ElfFile :=
  let n := f.eiClass.relaSize
  let buf := f.bufOf i
  if buf.length % n ≠ 0 then .undefined
  else
    let chunk (j : Nat) := (buf.drop (j * n)).take n
    let f := { f with
      relaText := i
      relocations := (List.range (buf.length / n)).map fun j => readRela f.eiClass f.eiData (chunk j) }
    pure (f.setBuf i (bswapTable f.eiData n f.eiClass.relaWidths buf))

/-- The test `sh_type & SHT_RELA`. -/
def isRela (shdr : Shdr64) : Prop := shdr.shType &&& shtRela ≠ 0

instance (shdr : Shdr64) : Decidable (isRela shdr) := inferInstanceAs (Decidable (_ ≠ _))

def copyFromRelocationTableSections (f : ElfFile) : Prog ElfPanic σ ElfFile :=
  Prog.iterate (fun i f =>
    match f.shdrs[i]? with
    | some shdr => if isRela shdr then f.copyFromRelocationTable i else pure f
    | none => pure f) f.shdrs.length f

def copyFromSectionNames (f : ElfFile) : Prog ElfPanic σ ElfFile :=
  if f.shstrtab = 0 then pure f
  else do
    let names ← Prog.collect (fun i => f.shdrName i) f.shdrs.length
    pure { f with sections := List.zipWith (fun (s : ElfSection) name => { s with name }) f.sections names }

end Lookup

/-! ## Loading -/

/-- A file offset beyond `LONG_MAX` is negative, and the seek fails. -/
def fseek (offset : UInt64) : Prog ElfPanic Nat Unit :=
  .modify fun pos => if offset.toNat < 2 ^ 63 then offset.toNat else pos

def fread (file : File) (n : Nat) : Prog ElfPanic Nat (List UInt8) := fun pos =>
  if pos + n ≤ file.size then .ok (file.read pos n) (pos + n) else .error .fread file.size

/-- `n` records of a table in the file. -/
def readTable {α : Type} (file : File) (base : UInt64) (size : Nat) (read : List UInt8 → α) (n : Nat) : Prog ElfPanic Nat (List α) :=
  Prog.collect (fun i => do
    fseek (base + UInt64.ofNat i * UInt64.ofNat size)
    let bs ← fread file size
    pure (read bs)) n

/-- `shstrtab`, `symtab` and `strtab` after the first `n` section headers. -/
def findTables (ehdr : Ehdr64) (shdrs : List Shdr64) : Nat → Nat × Nat × Nat
  | 0 => (0, 0, 0)
  | i + 1 =>
    let (shstrtab, symtab, strtab) := findTables ehdr shdrs i
    match shdrs[i]? with
    | none => (shstrtab, symtab, strtab)
    | some shdr =>
      if shstrtab = 0 ∧ shdr.shType = shtStrtab ∧ ehdr.eShstrndx.toNat = i then (i, symtab, strtab)
      else if symtab = 0 ∧ shdr.shType = shtSymtab then
        (shstrtab, i, if 0 < shdr.shLink.toNat ∧ ¬ shdrs.length < shdr.shLink.toNat then shdr.shLink.toNat else strtab)
      else (shstrtab, symtab, strtab)

abbrev Bound := UInt64 × UInt64

/-- The test for an overlap. -/
def overlaps (b b' : Bound) : Prop := b.1 < b'.2 ∧ b'.1 < b.2

instance (b b' : Bound) : Decidable (overlaps b b') := inferInstanceAs (Decidable (_ ∧ _))

def sectionBound (shdr : Shdr64) : Bound := (shdr.shOffset, shdr.shOffset + shdr.shSize)

def readSections (file : File) : List Shdr64 → List Bound → Prog ElfPanic Nat (List ElfSection)
  | [], _ => pure []
  | shdr :: shdrs, bounds =>
    if shdr.shType = shtNobits then do
      let sections ← readSections file shdrs bounds
      pure (⟨[], shdr.shOffset, shdr.shSize, []⟩ :: sections)
    else do
      if ∃ b ∈ bounds, overlaps (sectionBound shdr) b then .throw .sectionOverlap
      if file.size < (sectionBound shdr).2.toNat then .throw .sectionRange
      fseek shdr.shOffset
      let buf ← fread file shdr.shSize.toNat
      let sections ← readSections file shdrs (bounds ++ [sectionBound shdr])
      pure (⟨[], shdr.shOffset, shdr.shSize, buf⟩ :: sections)

/-- The class and the byte order. -/
def readIdent (file : File) : Prog ElfPanic Nat (ElfClass × UInt8) := do
  if file.size < 16 then .throw .invalidFile
  let ident ← fread file 16
  if ident.take 4 ≠ [0x7f, 0x45, 0x4c, 0x46] then .throw .invalidMagic
  let eiData := ident.getD 5 0
  if ident.getD 4 0 = elfClass32 then pure (.elf32, eiData)
  else if ident.getD 4 0 = elfClass64 then pure (.elf64, eiData)
  else .throw .invalidClass

def phdrBound (cls : ElfClass) (ehdr : Ehdr64) : Bound :=
  (ehdr.ePhoff, ehdr.ePhoff + UInt64.ofNat (ehdr.ePhnum.toNat * cls.phdrSize))

def shdrBound (cls : ElfClass) (ehdr : Ehdr64) : Bound :=
  (ehdr.eShoff, ehdr.eShoff + UInt64.ofNat (ehdr.eShnum.toNat * cls.shdrSize))

/-- The checks on the header, and the tables it points to. -/
def readTables (file : File) (cls : ElfClass) (eiData : UInt8) (ehdr : Ehdr64) : Prog ElfPanic Nat (List Phdr64 × List Shdr64) := do
  if file.size < (phdrBound cls ehdr).2.toNat then .throw .phdrRange
  if file.size < (shdrBound cls ehdr).2.toNat then .throw .shdrRange
  if overlaps (phdrBound cls ehdr) (shdrBound cls ehdr) then .throw .headersOverlap
  if ehdr.eVersion ≠ evCurrent then .throw .invalidVersion
  let phdrs ← readTable file ehdr.ePhoff cls.phdrSize (readPhdr cls eiData) ehdr.ePhnum.toNat
  let shdrs ← readTable file ehdr.eShoff cls.shdrSize (readShdr cls eiData) ehdr.eShnum.toNat
  pure (phdrs, shdrs)

/-- `load(filename, true)`. What `clear` does not reset is kept of the object the call is made on. -/
def loadHeaders (self : ElfFile) (file : File) : Prog ElfPanic Nat ElfFile := do
  let (cls, eiData) ← readIdent file
  fseek 0
  let bs ← fread file cls.ehdrSize
  let ehdr := readEhdr cls eiData bs
  let (phdrs, shdrs) ← readTables file cls eiData ehdr
  pure { self with eiClass := cls, eiData, ehdr, phdrs, shdrs, symbols := [], relocations := [], sections := [],
                   shstrtab := 0, symtab := 0, strtab := 0 }

/-- What is done with the sections once they are in memory. -/
def readContents (f : ElfFile) : Prog ElfPanic Nat ElfFile := do
  let f ← f.byteswapSymbolTable
  let f ← f.copyFromSymbolTableSections
  let f ← f.copyFromRelocationTableSections
  f.copyFromSectionNames

/-- `load(filename)` -/
def load (self : ElfFile) (file : File) : Prog ElfPanic Nat ElfFile := do
  let f ← loadHeaders self file
  let (shstrtab, symtab, strtab) := findTables f.ehdr f.shdrs f.shdrs.length
  let sections ← readSections file f.shdrs [phdrBound f.eiClass f.ehdr, shdrBound f.eiClass f.ehdr]
  ({ f with shstrtab, symtab, strtab, sections } : ElfFile).readContents

/-! ## Building an object -/

def addSection (f : ElfFile) (name : List UInt8) (shType : UInt32) (shFlags shAddralign : UInt64) : ElfFile :=
  { f with
    sections := f.sections ++ [⟨name, 0, 0, []⟩]
    shdrs := f.shdrs ++ [{ shName := 0, shType, shFlags, shAddr := 0, shOffset := 0, shSize := 0, shLink := 0, shInfo := 0,
                           shAddralign, shEntsize := 0 }] }

def addSymbol (f : ElfFile) (name : List UInt8) (stBind stType : UInt32) (stOther : UInt8) (stShndx : UInt16) (stValue : UInt64) :
    ElfFile :=
  if f.symtab = 0 ∨ f.strtab = 0 then f
  else
    { f.setBuf f.strtab (f.bufOf f.strtab ++ name ++ [0]) with
      symbols := f.symbols ++ [{ stName := UInt32.ofNat (f.bufOf f.strtab).length, stInfo := elf64StInfo stBind stType, stOther, stShndx,
                                 stValue, stSize := 0 }] }

def addReloc (f : ElfFile) (rOffset rSym rType rAddend : UInt64) : ElfFile :=
  { f with relocations := f.relocations ++ [{ rOffset, rInfo := elf64RInfo rSym rType, rAddend }] }

def modifyShdr (f : ElfFile) (i : Nat) (g : Shdr64 → Shdr64) : ElfFile := { f with shdrs := f.shdrs.modify i g }

/-- The bytes of a name of the source. -/
def nameBytes (s : String) : List UInt8 := s.toList.map fun c => UInt8.ofNat c.toNat

def initObject (cls : ElfClass) : ElfFile :=
  let f : ElfFile :=
    { eiClass := cls, eiData := elfData2Lsb,
      ehdr :=
        { eIdent := #v[0x7f, 0x45, 0x4c, 0x46, (if cls = .elf32 then elfClass32 else elfClass64), elfData2Lsb, 1,
                       0, 0, 0, 0, 0, 0, 0, 0, 0],
          eType := etRel, eMachine := emRiscv, eVersion := evCurrent, eEntry := 0, ePhoff := 0, eShoff := 0,
          eFlags := efRiscvFloatAbiDouble, eEhsize := 0, ePhentsize := 0, ePhnum := 0, eShentsize := 0, eShnum := 0, eShstrndx := 6 },
      phdrs := [], shdrs := [], symbols := [], relocations := [], sections := [], text := 1, relaText := 2, data := 3, bss := 4,
      rodata := 5, shstrtab := 6, symtab := 7, strtab := 8 }
  let f := f.addSection [] shtNull 0 0
  let f := f.addSection (nameBytes ".text") shtProgbits (shfAlloc ||| shfExecinstr) 4
  let f := f.addSection (nameBytes ".rela.text") shtRela shfInfoLink 8
  let f := f.addSection (nameBytes ".data") shtProgbits (shfAlloc ||| shfWrite) 1
  let f := f.addSection (nameBytes ".bss") shtNobits (shfAlloc ||| shfWrite) 1
  let f := f.addSection (nameBytes ".rodata") shtProgbits shfAlloc 1
  let f := f.addSection (nameBytes ".shstrtab") shtStrtab 0 1
  let f := f.addSection (nameBytes ".symtab") shtSymtab 0 8
  let f := f.addSection (nameBytes ".strtab") shtStrtab 0 1
  let f := f.modifyShdr f.relaText fun shdr => { shdr with shInfo := 1, shLink := UInt32.ofNat f.symtab }
  let f := f.modifyShdr f.symtab fun shdr => { shdr with shLink := UInt32.ofNat f.strtab }
  let f := f.addSymbol [] stbLocal sttNotype stvDefault shnUndef 0
  let f := f.addSymbol (nameBytes ".text") stbLocal sttSection stvDefault (UInt16.ofNat f.text) 0
  let f := f.addSymbol (nameBytes ".data") stbLocal sttSection stvDefault (UInt16.ofNat f.data) 0
  let f := f.addSymbol (nameBytes ".bss") stbLocal sttSection stvDefault (UInt16.ofNat f.bss) 0
  f.addSymbol (nameBytes ".rodata") stbLocal sttSection stvDefault (UInt16.ofNat f.rodata) 0

/-! ## Saving -/

/-- The names, each with its end. -/
def nameTable (names : List (List UInt8)) : List UInt8 := names.flatMap (· ++ [0])

/-- Where each name starts. -/
def nameOffsets (start : Nat) : List (List UInt8) → List Nat
  | [] => []
  | name :: names => start :: nameOffsets (start + (name.length + 1)) names

def copyToSectionNames (f : ElfFile) : ElfFile :=
  if f.shstrtab = 0 then f
  else
    let names := f.sections.map ElfSection.name
    { f.setBuf f.shstrtab (nameTable names) with
      shdrs := List.zipWith (fun (shdr : Shdr64) o => { shdr with shName := UInt32.ofNat o }) f.shdrs (nameOffsets 0 names) }

/-- `resize` -/
def resize (bs : List UInt8) (n : Nat) : List UInt8 := bs.take n ++ List.replicate (n - bs.length) 0

def copyToRelocationTableSections (f : ElfFile) : ElfFile :=
  if f.relaText = 0 then f
  else
    let n := f.eiClass.relaSize
    let size := n * f.relocations.length
    let f := f.modifyShdr f.relaText fun shdr => { shdr with shEntsize := UInt64.ofNat n, shSize := UInt64.ofNat size }
    let buf := resize (f.bufOf f.relaText) size
    match f.eiClass with
    | .elf32 =>
      let rela (j : Nat) := (relaLayout UInt32).decode (buf.drop (j * n))
      { f.setBuf f.relaText (bswapTable f.eiData n f.eiClass.relaWidths buf) with
        relocations := f.relocations.mapIdx fun j r => (elfRela64ToRela32 (rela j) r).2 }
    | .elf64 =>
      f.setBuf f.relaText (bswapTable f.eiData n f.eiClass.relaWidths ((relaLayout UInt64).encodeAll f.relocations))

section Save
variable {σ : Type}

/-- In the 32 bit case a pointer to symbols is advanced by as many symbols as there are bytes before the symbol. -/
def copyToSymbolTableSections (f : ElfFile) : Prog ElfPanic σ ElfFile :=
  if f.symtab = 0 then pure f
  else do
    let n := f.eiClass.symSize
    let size := f.symbols.length * n
    let f := match f.symbols.findIdx? fun s => elf64StBind s.stInfo = stbGlobal.toUInt8 with
      | some i => f.modifyShdr f.symtab fun shdr => { shdr with shInfo := UInt32.ofNat i }
      | none => f
    let f := f.modifyShdr f.symtab fun shdr => { shdr with shEntsize := UInt64.ofNat n, shSize := UInt64.ofNat size }
    let f := { f with sections := f.sections.modify f.symtab fun s => { s with size := UInt64.ofNat size } }
    let buf := resize (f.bufOf f.symtab) size
    match f.eiClass with
    | .elf32 =>
      let buf ← Prog.iterate (fun i buf =>
        let pos := i * n * n
        if pos + n ≤ buf.length then
          pure (buf.take pos ++ ((f.symbols[i]?).map fun s => (sym32Layout UInt32).encode (s.convert UInt64.toUInt32)).getD [] ++
            buf.drop (pos + n))
        else .undefined) f.symbols.length buf
      pure (f.setBuf f.symtab buf)
    | .elf64 => pure (f.setBuf f.symtab ((sym64Layout UInt64).encodeAll f.symbols))

/-- The section headers and sections with their places from `nextOffset` on, and where the last one ends. -/
def placeSections (phdrs : List Phdr64) :
    Nat → List (Shdr64 × ElfSection) → UInt64 → Prog ElfPanic σ (List (Shdr64 × ElfSection) × UInt64)
  | _, [], nextOffset => pure ([], nextOffset)
  | i, (shdr, sec) :: rest, nextOffset => do
    let nextOffset ← if shdr.shType = shtProgbits ∧ shdr.shAddr ≠ 0 then
        match phdrs with
        | [phdr] => pure ((shdr.shAddr - phdr.pVaddr) + phdr.pOffset)
        | _ => .throw .assertion
      else if 0 < shdr.shAddralign then pure ((nextOffset + (shdr.shAddralign - 1)) &&& -shdr.shAddralign)
      else pure nextOffset
    let size := if shdr.shType ≠ shtNobits then UInt64.ofNat sec.buf.length else sec.size
    let (placed, end_) ← placeSections phdrs (i + 1) rest (nextOffset + size)
    pure (({ shdr with shOffset := if i = 0 then 0 else nextOffset, shSize := size }, { sec with offset := nextOffset, size }) :: placed,
      end_)

def recalculateSectionOffsets (f : ElfFile) : Prog ElfPanic σ ElfFile := do
  let cls := f.eiClass
  let ePhnum := UInt16.ofNat f.phdrs.length
  let ePhoff := UInt64.ofNat cls.ehdrSize
  let (placed, end_) ← placeSections f.phdrs 0 (f.shdrs.zip f.sections) (ePhoff + UInt64.ofNat (ePhnum.toNat * cls.phdrSize))
  pure { f with
    shdrs := placed.map Prod.fst
    sections := placed.map Prod.snd
    ehdr := { f.ehdr with
      ePhnum, eShnum := UInt16.ofNat f.shdrs.length, eEhsize := UInt16.ofNat cls.ehdrSize, ePhentsize := UInt16.ofNat cls.phdrSize,
      eShentsize := UInt16.ofNat cls.shdrSize, ePhoff, eShoff := end_ } }

end Save

/-- The file being written and the position in it. -/
structure Out where
  file : File
  pos : Nat

def seekOut (offset : UInt64) : Prog ElfPanic Out Unit :=
  .modify fun o => { o with pos := if offset.toNat < 2 ^ 63 then offset.toNat else o.pos }

def fwrite (bs : List UInt8) : Prog ElfPanic Out Unit :=
  .modify fun o => { file := o.file.write o.pos bs, pos := o.pos + bs.length }

/-- `save(filename)`, from the empty file that opening it leaves. -/
def save (f : ElfFile) : Prog ElfPanic Out ElfFile := do
  let f := f.copyToSectionNames
  let f := f.copyToRelocationTableSections
  let f ← f.copyToSymbolTableSections
  let f ← f.recalculateSectionOffsets
  let cls := f.eiClass
  fwrite (writeEhdr f.eiData cls f.ehdr)
  Prog.forRange f.phdrs.length fun i => do
    seekOut (f.ehdr.ePhoff + UInt64.ofNat i * UInt64.ofNat cls.phdrSize)
    fwrite (((f.phdrs[i]?).map (writePhdr f.eiData cls)).getD [])
  Prog.forRange f.shdrs.length fun i => do
    seekOut (f.ehdr.eShoff + UInt64.ofNat i * UInt64.ofNat cls.shdrSize)
    fwrite (((f.shdrs[i]?).map (writeShdr f.eiData cls)).getD [])
  let f ← f.byteswapSymbolTable
  Prog.forRange f.sections.length fun i =>
    match f.shdrs[i]? with
    | none => .undefined
    | some shdr =>
      if shdr.shType = shtNobits then pure ()
      else do
        seekOut shdr.shOffset
        if (f.bufOf i).length < shdr.shSize.toNat then .undefined
        fwrite ((f.bufOf i).take shdr.shSize.toNat)
  f.byteswapSymbolTable

end ElfFile

end Rv8.Elf
