import Mathlib.Data.Char
import Mathlib.Data.List.Lex
import Mathlib.Data.Prod.Lex
import Rv8.Asm.Immediate
import Rv8.Lib.OrderedMap
import Rv8.Lib.Prog
import Rv8.Lib.Record
/-!
# The assembler and its linker

`assembler.h` and `assembler.cc`: sections that grow by appending, labels found by name
and by place, relocations by place, and `link`, which lays the sections out one after
another and then patches the place of every relocation. Offsets are `size_t`; a name is
the characters of a `std::string`. A read or write outside of a buffer is undefined, and
so is a section that does not exist; an assert of an encoder that fails ends the run.
-/

namespace Rv8.Asm

open Rv8.Lib

/-! ## Data -/

/-- `section_offset`, ordered as a pair. -/
structure SectionOffset where
  index : Nat
  offset : Nat

instance : LinearOrder SectionOffset :=
  LinearOrder.lift' (fun o => toLex (o.index, o.offset)) fun a b h => by
    cases a
    cases b
    simpa using h

abbrev Name := List Char

/-- The index of a section is its place in the list. -/
structure Section where
  name : Name
  offset : Nat := 0
  buf : File := .empty

structure Label where
  name : Name
  offset : SectionOffset
  num : Int := 0
deriving DecidableEq

/-- The relocations that `relocate` knows; it leaves the place of any other alone. -/
inductive RelaType where
  | jal | branch | hi20 | lo12_i | lo12_s | pcrel_hi20 | pcrel_lo12_i | pcrel_lo12_s | call | word32 | word64
  | other (type : Int)
deriving DecidableEq

structure Reloc where
  offset : SectionOffset
  name : Name
  relaType : RelaType
deriving DecidableEq

/-- Labels are shared by the two maps; one at an offset already taken stays in the map by name only. -/
structure Assembler where
  sections : List Section
  current : Nat
  labelsByName : OrderedMap Label.name
  labelsByOffset : OrderedMap Label.offset
  relocsByOffset : OrderedMap Reloc.offset
  named : ∀ l ∈ labelsByOffset.toList, labelsByName.find l.name = some l

inductive Abort
  | assert

abbrev AsmM := Prog Abort Assembler

/-! ## Numbers -/

def sizeT (x : Int) : Nat := (x % 2 ^ 64).toNat

def shnAbs : Nat := 0xfff1

/-- `strtoull` of a number without sign, read into an `s64`. -/
def strtoull (digits : Name) : Int := Int.bmod (min (Nat.ofDigitChars 10 digits 0) (2 ^ 64 - 1) : Nat) (2 ^ 64)

/-- `std::to_string` -/
def toString (n : Int) : Name := if n < 0 then '-' :: Nat.toDigits 10 n.natAbs else Nat.toDigits 10 n.natAbs

namespace Assembler

/-! ## Sections -/

def empty : Assembler where
  sections := []
  current := 0
  labelsByName := .empty
  labelsByOffset := .empty
  relocsByOffset := .empty
  named := nofun

def getSection (a : Assembler) (name : Name) : Assembler :=
  match a.sections.findIdx? fun s => s.name = name with
  | some i => { a with current := i }
  | none => { a with sections := a.sections ++ [{ name }], current := a.sections.length }

/-- The constructor. -/
def new : Assembler := (empty.getSection []).getSection ['.', 't', 'e', 'x', 't']

def currentOffset (a : Assembler) : SectionOffset := ⟨a.current, ((a.sections[a.current]?).map fun s => s.buf.size).getD 0⟩

/-- `append` of a value of `n` bytes, least significant first. -/
def append (a : Assembler) (n val : Nat) : Assembler :=
  { a with sections := a.sections.modify a.current fun s => { s with buf := s.buf.write s.buf.size (leBytes n val) } }

def addInst (a : Assembler) (inst : Nat) : Assembler := a.append (instLength inst) inst

/-! ## Labels and relocations -/

def lookupLabel (a : Assembler) (name : Name) : Option Label := a.labelsByName.find name

/-- The first label with the number among those behind the place. -/
def lookupLabelF (offset : SectionOffset) (num : Int) (found : Bool) : List Label → Option Label
  | [] => none
  | l :: ls =>
    let found := found || offset < l.offset
    if found ∧ l.num = num then some l else lookupLabelF offset num found ls

/-- The last label with the number up to the place. -/
def lookupLabelB (offset : SectionOffset) (num : Int) (found : Option Label) : List Label → Option Label
  | [] => found
  | l :: ls =>
    if offset < l.offset then found else lookupLabelB offset num (if l.num = num then some l else found) ls

def checkLocal (arg : Name) : Bool :=
  2 ≤ arg.length ∧ (arg.getLast? = some 'b' ∨ arg.getLast? = some 'f') ∧ arg.dropLast.all Char.isDigit

/-- `lookup_label(reloc, reloc->name)` -/
def lookupLabelOf (a : Assembler) (reloc : Reloc) : Option Label :=
  if checkLocal reloc.name ∧ reloc.name.getLast? = some 'f' then
    lookupLabelF reloc.offset (strtoull reloc.name.dropLast) false a.labelsByOffset.toList
  else if checkLocal reloc.name ∧ reloc.name.getLast? = some 'b' then
    lookupLabelB reloc.offset (strtoull reloc.name.dropLast) none a.labelsByOffset.toList
  else a.lookupLabel reloc.name

/-- A label that is new by name goes into both maps. -/
def insertLabel (a : Assembler) (l : Label) (h : a.lookupLabel l.name = none) : Assembler where
  sections := a.sections
  current := a.current
  labelsByName := a.labelsByName.insert l
  labelsByOffset := a.labelsByOffset.insert l
  relocsByOffset := a.relocsByOffset
  named := by
    intro l' hl'
    rcases OrderedMap.mem_insertList hl' with rfl | hold
    · exact a.labelsByName.find_insert_self l'
    · have hfind := a.named l' hold
      refine OrderedMap.find_insert_of_find hfind fun hname => ?_
      rw [hname] at hfind
      exact absurd (h.symm.trans hfind) nofun

def addLabelAt (a : Assembler) (name : Name) (offset : SectionOffset) (num : Int) : Assembler :=
  if h : a.lookupLabel name = none then a.insertLabel { name, offset, num } h else a

def addLabel (a : Assembler) (name : Name) : Assembler := a.addLabelAt name a.currentOffset 0

def numLabel (num : Int) (i : Nat) : Name := ['.', 'L'] ++ toString num ++ toString i

/-- Tries one name after another; among the first ones there is a free one, as `exists_numLabel` says. -/
def addLabelNum (a : Assembler) (num : Int) : Assembler :=
  match (List.range (a.labelsByName.toList.length + 1)).find? fun i => a.lookupLabel (numLabel num (i + 1)) = none with
  | some i => a.addLabelAt (numLabel num (i + 1)) a.currentOffset num
  | none => a

theorem numLabel_injective (num : Int) : Function.Injective (numLabel num) := by
  intro i j h
  have hd : Nat.toDigits 10 i = Nat.toDigits 10 j := List.append_cancel_left h
  have hv := congrArg (fun ds => Nat.ofDigitChars 10 ds 0) hd
  simpa only [Nat.ofDigitChars_ten_toDigits] using hv

/-- There are more names than labels. -/
theorem exists_numLabel (a : Assembler) (num : Int) :
    ∃ i ∈ List.range (a.labelsByName.toList.length + 1), a.lookupLabel (numLabel num (i + 1)) = none := by
  by_contra hno
  push Not at hno
  have hsub : (List.range (a.labelsByName.toList.length + 1)).map (fun i => numLabel num (i + 1)) ⊆
      a.labelsByName.toList.map Label.name := by
    intro name hname
    obtain ⟨i, hi, rfl⟩ := List.mem_map.1 hname
    obtain ⟨l, hl⟩ := Option.ne_none_iff_exists'.1 (hno i hi)
    exact List.mem_map.2 ⟨l, OrderedMap.mem_of_find hl, OrderedMap.key_of_find hl⟩
  have hnodup : ((List.range (a.labelsByName.toList.length + 1)).map fun i => numLabel num (i + 1)).Nodup :=
    List.nodup_range.map ((numLabel_injective num).comp (add_left_injective 1))
  have hlen := hnodup.length_le_of_subset hsub
  simp at hlen

def addConstant (a : Assembler) (name : Name) (value : Int) : Assembler := a.addLabelAt name ⟨shnAbs, sizeT value⟩ 0

def lookupReloc (a : Assembler) (offset : SectionOffset) : Option Reloc := a.relocsByOffset.find offset

def addReloc (a : Assembler) (name : Name) (relaType : RelaType) : Assembler :=
  if a.lookupReloc a.currentOffset ≠ none then a
  else { a with relocsByOffset := a.relocsByOffset.insert { offset := a.currentOffset, name, relaType } }

/-- `reloc->name = name` -/
def setRelocName (a : Assembler) (offset : SectionOffset) (name : Name) : Assembler :=
  { a with relocsByOffset := a.relocsByOffset.modify offset (fun r => { r with name }) fun _ => rfl }

end Assembler

/-! ## Buffers -/

open Prog

/-- `sections[i]` -/
def sectionAt (i : Nat) : AsmM Section := do
  match (← get).sections[i]? with
  | some s => pure s
  | none => undefined

def labelOffset (label : Label) : AsmM Nat := do
  let s ← sectionAt label.offset.index
  pure (sizeT (s.offset + label.offset.offset))

/-- A constant has no section. -/
def labelOff (label : Label) : AsmM Nat :=
  if label.offset.index = shnAbs then pure (sizeT label.offset.offset) else labelOffset label

def relocOffset (reloc : Reloc) : AsmM Nat := do
  let s ← sectionAt reloc.offset.index
  pure (sizeT (s.offset + reloc.offset.offset))

/-- A load of `n` bytes at a place in a buffer. -/
def loadAt (o : SectionOffset) (n : Nat) : AsmM Nat := do
  let s ← sectionAt o.index
  if o.offset + n ≤ s.buf.size then pure (leNat (s.buf.read o.offset n)) else undefined

def writeAt (a : Assembler) (o : SectionOffset) (bs : List UInt8) : Assembler :=
  { a with sections := a.sections.modify o.index fun s => { s with buf := s.buf.write o.offset bs } }

def storeAt (o : SectionOffset) (n val : Nat) : AsmM Unit := do
  let s ← sectionAt o.index
  if o.offset + n ≤ s.buf.size then modify (writeAt · o (leBytes n val)) else undefined

/-- The place `n` bytes on. -/
def SectionOffset.plus (o : SectionOffset) (n : Nat) : SectionOffset := ⟨o.index, o.offset + n⟩

/-- Reads 32 bits first, also where the instruction has 16. -/
def instFetch (o : SectionOffset) : AsmM (Nat × Nat) := do
  let inst ← loadAt o 4
  if inst &&& 0b11 ≠ 0b11 then pure (inst &&& 0xffff, 2)
  else if inst &&& 0b11100 ≠ 0b11100 then pure (inst, 4)
  else if inst &&& 0b111111 = 0b011111 then do
    let more ← loadAt (o.plus 4) 2
    pure (inst ||| more <<< 32, 6)
  else if inst &&& 0b1111111 = 0b0111111 then do
    let more ← loadAt (o.plus 4) 4
    pure (inst ||| more <<< 32, 8)
  else pure (0, 0)

def reencodeInst (dec : Decode) (o : SectionOffset) : AsmM Unit :=
  match encodeInst dec with
  | none => throw .assert
  | some inst =>
    if instLength inst = 2 then storeAt o 2 (inst &&& 0xffff)
    else if instLength inst = 4 then storeAt o 4 (inst &&& 0xffffffff)
    else pure ()

/-! ## Relocations -/

/-- `int upper = ((x + 0x800) >> 12) << 12` -/
def upper (x : Nat) : Int := s32 ((sizeT (x + 0x800) >>> 12) <<< 12 : Nat)

/-- `dec.imm = x - upper` -/
def lower (x : Nat) : Int := s32 (sizeT (x - upper x))

/-- Re-encodes with another immediate. -/
def patchImm (dec : Decode) (o : SectionOffset) (imm : Int) : AsmM Bool := do
  reencodeInst { dec with imm } o
  pure true

/-- The second instruction of a call sequence. -/
def patchNext (o : SectionOffset) (imm : Int) : AsmM Unit := do
  let (inst, _) ← instFetch o
  reencodeInst { decodeInst .rv64 inst with imm } o

/-- The `switch` of `relocate`: `labelOff` and `relocOff` are the addresses of the label and of the place. -/
def applyReloc (reloc : Reloc) (labelOff relocOff pcOffset : Nat) (dec : Decode) : AsmM Bool :=
  match reloc.relaType with
  | .jal | .branch => patchImm dec reloc.offset (s32 (sizeT (labelOff - relocOff)))
  | .hi20 => patchImm dec reloc.offset (upper labelOff)
  | .lo12_i | .lo12_s => patchImm dec reloc.offset (lower labelOff)
  | .pcrel_hi20 => patchImm dec reloc.offset (upper (sizeT (labelOff - relocOff)))
  | .pcrel_lo12_i | .pcrel_lo12_s => do
    -- the key is made of the section of the place and of the address of the label
    match (← get).lookupReloc ⟨reloc.offset.index, labelOff⟩ with
    | none => pure false
    | some hi => do
      let hiOff ← relocOffset hi
      match (← get).lookupLabel hi.name with
      | none => pure false
      | some target => do
        let targetOff ← labelOffset target
        patchImm dec reloc.offset (lower (sizeT (targetOff - hiOff)))
  | .call => do
    let x := sizeT (labelOff - relocOff)
    patchNext (reloc.offset.plus pcOffset) (lower x)
    patchImm dec reloc.offset (upper x)
  | .word32 => do
    storeAt reloc.offset 4 (labelOff % 2 ^ 32)
    pure true
  | .word64 => do
    storeAt reloc.offset 8 labelOff
    pure true
  | .other _ => pure true

/-- `relocate` of the relocation at a key of the map. -/
def relocate (key : SectionOffset) : AsmM Bool := do
  let a ← get
  match a.lookupReloc key with
  | none => undefined
  | some reloc =>
    match a.lookupLabelOf reloc with
    | none => pure false
    | some label => do
      modify (·.setRelocName key label.name)
      let labelOff ← labelOff label
      let relocOff ← relocOffset reloc
      let (inst, pcOffset) ← instFetch reloc.offset
      applyReloc reloc labelOff relocOff pcOffset (decodeInst .rv64 inst)

/-! ## Linking -/

def layoutFrom (offset : Nat) : List Section → List Section
  | [] => []
  | s :: ss => { s with offset } :: layoutFrom (sizeT (offset + s.buf.size)) ss

/-- Each section starts where the one before it ends. -/
def Assembler.layout (a : Assembler) : Assembler := { a with sections := layoutFrom 0 a.sections }

/-- Each key with what `relocate` returned. -/
def relocateAll : List SectionOffset → AsmM (List (SectionOffset × Bool))
  | [] => pure []
  | key :: keys => do
    let resolved ← relocate key
    let rest ← relocateAll keys
    pure ((key, resolved) :: rest)

/-- The relocations that were not resolved are the ones it prints. -/
def link : AsmM (List (SectionOffset × Bool)) := do
  let a ← get
  if a.sections = [] then undefined
  modify Assembler.layout
  relocateAll (a.relocsByOffset.toList.map Reloc.offset)

end Rv8.Asm
