import Rv8.Lib.Steps
import Rv8.Elf.SymbolMaps
/-!
# The symbol maps of an object

The calls that build an object, with the maps they keep. An added symbol goes into the
map of addresses as its index, at its address the other way round, so the objects of
`init_object` have an index for an address already.
-/

namespace Rv8.Elf

open Rv8.Lib ElfFile

/-! ## Building with the maps -/

/-- An `elf_file`, with its maps. -/
abbrev MappedFile := ElfFile × SymbolMaps

/-- `clear()` -/
def cleared (f : ElfFile) : MappedFile :=
  ({ f with
      eiData := 0
      ehdr := { eIdent := Vector.replicate 16 0, eType := 0, eMachine := 0, eVersion := 0, eEntry := 0, ePhoff := 0, eShoff := 0,
                eFlags := 0, eEhsize := 0, ePhentsize := 0, ePhnum := 0, eShentsize := 0, eShnum := 0, eShstrndx := 0 }
      phdrs := [], shdrs := [], symbols := [], relocations := [], sections := [], shstrtab := 0, symtab := 0, strtab := 0 },
    .empty)

section Calls
variable {σ : Type}

/-- `add_symbol`, with the maps. The name is looked up at an offset of the file, where a section may not have its place yet. -/
def addSymbolMaps (s : MappedFile) (name : List UInt8) (stBind stType : UInt32) (stOther : UInt8) (stShndx : UInt16)
    (stValue : UInt64) : Prog ElfPanic σ MappedFile :=
  let (f, maps) := s
  if f.symtab = 0 ∨ f.strtab = 0 then pure s
  else if f.strtab < f.sections.length then do
    let g := f.addSymbol name stBind stType stOther stShndx stValue
    let i := f.symbols.length
    let key ← g.symName i
    -- `addr_symbol_map[i] = st_value`
    pure (g, { addr := maps.addr.insert (UInt64.ofNat i, stValue.toNat), name := Function.update maps.name key (some i) })
  else .undefined

/-- The sections and tables of an object that has no symbols yet. -/
def bareObject (cls : ElfClass) : ElfFile := { initObject cls with symbols := [] }.setBuf 8 []

def initObjectMaps (cls : ElfClass) : Prog ElfPanic σ MappedFile := do
  let s : MappedFile := (bareObject cls, .empty)
  let s ← addSymbolMaps s [] stbLocal sttNotype stvDefault shnUndef 0
  let s ← addSymbolMaps s (nameBytes ".text") stbLocal sttSection stvDefault 1 0
  let s ← addSymbolMaps s (nameBytes ".data") stbLocal sttSection stvDefault 3 0
  let s ← addSymbolMaps s (nameBytes ".bss") stbLocal sttSection stvDefault 4 0
  addSymbolMaps s (nameBytes ".rodata") stbLocal sttSection stvDefault 5 0

def updateSymAddr (s : MappedFile) (oldAddr newAddr : UInt64) : Prog ElfPanic σ MappedFile :=
  if oldAddr = newAddr then pure s
  else
    match s.2.addr.find oldAddr.toNat with
    | none => pure s
    -- the index is read of the entry after that has been erased
    | some _ => .undefined

end Calls

inductive ObjectCall
  | initObject (cls : ElfClass)
  | addSymbol (name : List UInt8) (stBind stType : UInt32) (stOther : UInt8) (stShndx : UInt16) (stValue : UInt64)
  | append (section_ : Nat) (data : List UInt8)
  | addSection (name : List UInt8) (shType : UInt32) (shFlags shAddralign : UInt64)
  | updateSymAddr (oldAddr newAddr : UInt64)

def ObjectCall.run (s : MappedFile) : ObjectCall → Prog ElfPanic Unit MappedFile
  | .initObject cls => initObjectMaps cls
  | .addSymbol name stBind stType stOther stShndx stValue => addSymbolMaps s name stBind stType stOther stShndx stValue
  | .append i data => if i < s.1.sections.length then pure (s.1.setBuf i (s.1.bufOf i ++ data), s.2) else .undefined
  | .addSection name shType shFlags shAddralign => pure (s.1.addSection name shType shFlags shAddralign, s.2)
  | .updateSymAddr oldAddr newAddr => Elf.updateSymAddr s oldAddr newAddr

/-- What a call leaves, if it returns. -/
def objectStep (s : MappedFile) (c : ObjectCall) : Option MappedFile := (c.run s ()).result.map Prod.fst

/-! ## What the maps should keep -/

/-- The string that a symbol has in the string table. -/
def ElfFile.nameOf (f : ElfFile) (sym : Sym64) : Option (List UInt8) := cString ((f.bufOf f.strtab).drop sym.stName.toNat)

/-- Names and addresses lead to the symbols that have them. -/
structure MapsConsistent (s : MappedFile) : Prop where
  names : ∀ sym ∈ s.1.symbols, ∃ name i sym', s.1.nameOf sym = some name ∧ s.2.name name = some i ∧ s.1.symbols[i]? = some sym' ∧
    s.1.nameOf sym' = some name
  addrs : AddrsOf s.1.symbols s.2

/-- The symbol `i` is moved from one address to the other, and nothing else. -/
def Moved (s s' : MappedFile) (oldAddr newAddr : UInt64) (i : Nat) : Prop :=
  s'.1 = { s.1 with symbols := s.1.symbols.modify i fun sym => { sym with stValue := newAddr } } ∧
    s'.2.name = s.2.name ∧ s'.2.addr = (s.2.addr.erase oldAddr.toNat).insert (newAddr, i)

/-- An update moves the symbol at the old address, if one is there. -/
def UpdateRight (s : MappedFile) : ObjectCall → Prop
  | .updateSymAddr oldAddr newAddr =>
    ∃ s', objectStep s (.updateSymAddr oldAddr newAddr) = some s' ∧
      if oldAddr = newAddr then s' = s
      else
        match s.2.addr.find oldAddr.toNat with
        | none => s' = s
        | some e => Moved s s' oldAddr newAddr e.2
  | _ => True

/-! ## Before and after `init_object` -/

def ObjectCall.IsInit : ObjectCall → Prop
  | .initObject _ => True
  | _ => False

/-- There are no tables, and so no symbols. -/
structure Tableless (s : MappedFile) : Prop where
  tables : s.1.symtab = 0
  symbols : s.1.symbols = []
  addr : s.2.addr = .empty

theorem tableless_cleared (f : ElfFile) : Tableless (cleared f) := ⟨rfl, rfl, rfl⟩

namespace Tableless

variable {s s' : MappedFile} {c : ObjectCall} (h : Tableless s)
include h

theorem consistent : MapsConsistent s := by
  refine ⟨fun sym hsym => ?_, fun e he => ?_⟩
  · rw [h.symbols] at hsym
    cases hsym
  · rw [h.addr] at he
    cases he

theorem find (k : Nat) : s.2.addr.find k = none := by
  rw [h.addr]
  rfl

theorem step (hc : ¬ c.IsInit) (hstep : objectStep s c = some s') : Tableless s' := by
  obtain ⟨⟨r, _⟩, hrun, rfl⟩ := Option.map_eq_some_iff.1 hstep
  replace hrun := Outcome.eq_ok hrun
  cases c with
  | initObject cls => exact absurd trivial hc
  | addSymbol name stBind stType stOther stShndx stValue =>
    unfold ObjectCall.run addSymbolMaps at hrun
    dsimp only at hrun
    rw [if_pos (.inl h.tables)] at hrun
    obtain ⟨rfl, -⟩ := Outcome.ok.inj hrun
    exact h
  | append i data =>
    unfold ObjectCall.run at hrun
    dsimp only at hrun
    split at hrun
    · obtain ⟨rfl, -⟩ := Outcome.ok.inj hrun
      exact ⟨h.tables, h.symbols, h.addr⟩
    · cases hrun
  | addSection name shType shFlags shAddralign =>
    obtain ⟨rfl, -⟩ := Outcome.ok.inj hrun
    exact ⟨h.tables, h.symbols, h.addr⟩
  | updateSymAddr oldAddr newAddr =>
    unfold ObjectCall.run Elf.updateSymAddr at hrun
    dsimp only at hrun
    split at hrun
    · obtain ⟨rfl, -⟩ := Outcome.ok.inj hrun
      exact h
    · rw [h.find] at hrun
      obtain ⟨rfl, -⟩ := Outcome.ok.inj hrun
      exact h

theorem updateRight (c : ObjectCall) : UpdateRight s c := by
  cases c with
  | updateSymAddr oldAddr newAddr =>
    refine ⟨s, ?_, ?_⟩
    · unfold objectStep ObjectCall.run Elf.updateSymAddr
      dsimp only
      rw [h.find]
      split <;> rfl
    · rw [h.find]
      split <;> rfl
  | initObject | addSymbol | append | addSection => trivial

end Tableless

/-- An object is made whatever there was before. -/
theorem objectStep_initObject (s : MappedFile) (cls : ElfClass) :
    ∃ s', objectStep s (.initObject cls) = some s' ∧ s'.1 = initObject cls ∧
      s'.2.addr.toList = [(0, 0), (1, 0), (2, 0), (3, 0), (4, 0)] := by
  cases cls with
  | elf32 => exact ⟨_, rfl, rfl, rfl⟩
  | elf64 => exact ⟨_, rfl, rfl, rfl⟩

/-- The address 1 leads to the symbol 0, which is at the address 0. -/
theorem inconsistent_initObject {s : MappedFile} {cls : ElfClass} (hfile : s.1 = initObject cls)
    (haddr : s.2.addr.toList = [(0, 0), (1, 0), (2, 0), (3, 0), (4, 0)]) : ¬ MapsConsistent s := by
  intro h
  have hone := h.addrs (1, 0) (haddr ▸ by decide)
  rw [hfile] at hone
  cases cls with
  | elf32 => exact absurd hone (by decide)
  | elf64 => exact absurd hone (by decide)

/-- The maps stay consistent, and updates move what they should, exactly while no object is made. -/
theorem maps_consistent_iff (f : ElfFile) (cs : List ObjectCall) :
    Always objectStep MapsConsistent cs (cleared f) ∧ Along objectStep UpdateRight cs (cleared f) ↔
      Along objectStep (fun _ c => ¬ c.IsInit) cs (cleared f) := by
  have hkeep : ∀ s c s', Tableless s → ¬ ObjectCall.IsInit c → objectStep s c = some s' → Tableless s' :=
    fun s c s' h hc hstep => h.step hc hstep
  constructor
  · rintro ⟨hmaps, hupdates⟩
    refine hmaps.along hupdates hkeep (fun s c _ _ hafter => ?_) (tableless_cleared f)
    cases c with
    | initObject cls =>
      obtain ⟨s', hstep, hfile, haddr⟩ := objectStep_initObject s cls
      exact absurd (hafter s' hstep) (inconsistent_initObject hfile haddr)
    | addSymbol | append | addSection | updateSymAddr => exact not_false
  · intro hok
    refine ⟨(hok.always hkeep (tableless_cleared f)).mono fun s h => h.consistent, ?_⟩
    exact hok.imp hkeep (fun s c h _ => h.updateRight c) (tableless_cleared f)

theorem not_maps_consistent : ¬ Always objectStep MapsConsistent [.initObject .elf64] (cleared (initObject .elf64)) := by
  intro h
  obtain ⟨s', hstep, hfile, haddr⟩ := objectStep_initObject (cleared (initObject .elf64)) .elf64
  exact inconsistent_initObject hfile haddr (h.2 s' hstep)

end Rv8.Elf
