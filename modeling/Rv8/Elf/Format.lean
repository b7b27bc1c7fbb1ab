import Rv8.Lib.Record
/-!
# ELF records

The records of `elf.h`, with their 32 and 64 bit layouts, and the conversions of `elf.cc`
between them. A record is generic in the type of its addresses and offsets. Bytes are
swapped in place, on a little-endian host.
-/

namespace Rv8.Elf

open Rv8.Lib

/-! ## Constants -/

def elfClass32 : UInt8 := 1
def elfClass64 : UInt8 := 2
def elfData2Lsb : UInt8 := 1
def elfData2Msb : UInt8 := 2
def etRel : UInt16 := 1
def emRiscv : UInt16 := 243
def evCurrent : UInt32 := 1
def efRiscvFloatAbiDouble : UInt32 := 4

def shtNull : UInt32 := 0
def shtProgbits : UInt32 := 1
def shtSymtab : UInt32 := 2
def shtStrtab : UInt32 := 3
def shtRela : UInt32 := 4
def shtNobits : UInt32 := 8

def shfWrite : UInt64 := 1
def shfAlloc : UInt64 := 2
def shfExecinstr : UInt64 := 4
def shfInfoLink : UInt64 := 0x40

def stbLocal : UInt32 := 0
def stbGlobal : UInt32 := 1
def sttNotype : UInt32 := 0
def sttSection : UInt32 := 3
def stvDefault : UInt8 := 0
def shnUndef : UInt16 := 0

/-! ## Fields -/

/-- An unsigned type of some bytes. -/
class Scalar (α : Type) where
  width : Nat
  toNat : α → Nat
  ofNat : Nat → α
  ofNat_toNat : ∀ x, ofNat (toNat x) = x
  toNat_lt : ∀ x, toNat x < 256 ^ width

instance : Scalar UInt8 := ⟨1, UInt8.toNat, UInt8.ofNat, fun _ => UInt8.ofNat_toNat, UInt8.toNat_lt⟩
instance : Scalar UInt16 := ⟨2, UInt16.toNat, UInt16.ofNat, fun _ => UInt16.ofNat_toNat, UInt16.toNat_lt⟩
instance : Scalar UInt32 := ⟨4, UInt32.toNat, UInt32.ofNat, fun _ => UInt32.ofNat_toNat, UInt32.toNat_lt⟩
instance : Scalar UInt64 := ⟨8, UInt64.toNat, UInt64.ofNat, fun _ => UInt64.ofNat_toNat, UInt64.toNat_lt⟩

attribute [simp] Scalar.ofNat_toNat

/-! ## Records -/

structure Ehdr (A : Type) where
  eIdent : Vector UInt8 16
  (eType eMachine : UInt16)
  eVersion : UInt32
  (eEntry ePhoff eShoff : A)
  eFlags : UInt32
  (eEhsize ePhentsize ePhnum eShentsize eShnum eShstrndx : UInt16)

structure Phdr (A : Type) where
  (pType pFlags : UInt32)
  (pOffset pVaddr pPaddr pFilesz pMemsz pAlign : A)

structure Shdr (A : Type) where
  (shName shType : UInt32)
  (shFlags shAddr shOffset shSize : A)
  (shLink shInfo : UInt32)
  (shAddralign shEntsize : A)

structure Sym (A : Type) where
  stName : UInt32
  (stInfo stOther : UInt8)
  stShndx : UInt16
  (stValue stSize : A)

/-- The addend is signed; here are its bits. -/
structure Rela (A : Type) where
  (rOffset rInfo rAddend : A)

abbrev Ehdr64 := Ehdr UInt64
abbrev Phdr64 := Phdr UInt64
abbrev Shdr64 := Shdr UInt64
abbrev Sym64 := Sym UInt64
abbrev Rela64 := Rela UInt64
abbrev Sym32 := Sym UInt32
abbrev Rela32 := Rela UInt32

open Scalar

theorem ofFn_ident (v : Vector UInt8 16) (rest : List Nat) :
    (Vector.ofFn fun i : Fin 16 => (ofNat ((v.toList.map Scalar.toNat ++ rest)[i.val]?.getD 0) : UInt8)) = v := by
  refine Vector.ext fun i hi => ?_
  simp [List.getElem?_append_left]

section Layouts
variable (A : Type) [Scalar A]

def ehdrLayout : Layout (Ehdr A) where
  widths := List.replicate 16 (width UInt8) ++ [width UInt16, width UInt16, width UInt32, width A, width A, width A, width UInt32,
    width UInt16, width UInt16, width UInt16, width UInt16, width UInt16, width UInt16]
  values h := h.eIdent.toList.map Scalar.toNat ++ [toNat h.eType, toNat h.eMachine, toNat h.eVersion, toNat h.eEntry, toNat h.ePhoff,
    toNat h.eShoff, toNat h.eFlags, toNat h.eEhsize, toNat h.ePhentsize, toNat h.ePhnum, toNat h.eShentsize, toNat h.eShnum,
    toNat h.eShstrndx]
  make vs :=
    { eIdent := Vector.ofFn fun i => ofNat (vs.getD i.val 0), eType := ofNat (vs.getD 16 0), eMachine := ofNat (vs.getD 17 0),
      eVersion := ofNat (vs.getD 18 0), eEntry := ofNat (vs.getD 19 0), ePhoff := ofNat (vs.getD 20 0), eShoff := ofNat (vs.getD 21 0),
      eFlags := ofNat (vs.getD 22 0), eEhsize := ofNat (vs.getD 23 0), ePhentsize := ofNat (vs.getD 24 0),
      ePhnum := ofNat (vs.getD 25 0), eShentsize := ofNat (vs.getD 26 0), eShnum := ofNat (vs.getD 27 0),
      eShstrndx := ofNat (vs.getD 28 0) }
  make_values h := by simp [List.getD_eq_getElem?_getD, ofFn_ident]
  fits h := by
    refine List.rel_append (List.forall₂_iff_get.2 ⟨by simp, fun i hi hi' => ?_⟩) (by simp [toNat_lt])
    simp only [List.get_eq_getElem, List.getElem_replicate, List.getElem_map]
    exact toNat_lt _

/-- `Elf32_Phdr`: the flags stand near the end. -/
def phdr32Layout : Layout (Phdr A) where
  widths := [width UInt32, width A, width A, width A, width A, width A, width UInt32, width A]
  values h := [toNat h.pType, toNat h.pOffset, toNat h.pVaddr, toNat h.pPaddr, toNat h.pFilesz, toNat h.pMemsz, toNat h.pFlags,
    toNat h.pAlign]
  make vs :=
    { pType := ofNat (vs.getD 0 0), pOffset := ofNat (vs.getD 1 0), pVaddr := ofNat (vs.getD 2 0), pPaddr := ofNat (vs.getD 3 0),
      pFilesz := ofNat (vs.getD 4 0), pMemsz := ofNat (vs.getD 5 0), pFlags := ofNat (vs.getD 6 0), pAlign := ofNat (vs.getD 7 0) }
  make_values h := by simp
  fits h := by simp [toNat_lt]

/-- `Elf64_Phdr` -/
def phdr64Layout : Layout (Phdr A) where
  widths := [width UInt32, width UInt32, width A, width A, width A, width A, width A, width A]
  values h := [toNat h.pType, toNat h.pFlags, toNat h.pOffset, toNat h.pVaddr, toNat h.pPaddr, toNat h.pFilesz, toNat h.pMemsz,
    toNat h.pAlign]
  make vs :=
    { pType := ofNat (vs.getD 0 0), pFlags := ofNat (vs.getD 1 0), pOffset := ofNat (vs.getD 2 0), pVaddr := ofNat (vs.getD 3 0),
      pPaddr := ofNat (vs.getD 4 0), pFilesz := ofNat (vs.getD 5 0), pMemsz := ofNat (vs.getD 6 0), pAlign := ofNat (vs.getD 7 0) }
  make_values h := by simp
  fits h := by simp [toNat_lt]

def shdrLayout : Layout (Shdr A) where
  widths := [width UInt32, width UInt32, width A, width A, width A, width A, width UInt32, width UInt32, width A, width A]
  values h := [toNat h.shName, toNat h.shType, toNat h.shFlags, toNat h.shAddr, toNat h.shOffset, toNat h.shSize, toNat h.shLink,
    toNat h.shInfo, toNat h.shAddralign, toNat h.shEntsize]
  make vs :=
    { shName := ofNat (vs.getD 0 0), shType := ofNat (vs.getD 1 0), shFlags := ofNat (vs.getD 2 0), shAddr := ofNat (vs.getD 3 0),
      shOffset := ofNat (vs.getD 4 0), shSize := ofNat (vs.getD 5 0), shLink := ofNat (vs.getD 6 0), shInfo := ofNat (vs.getD 7 0),
      shAddralign := ofNat (vs.getD 8 0), shEntsize := ofNat (vs.getD 9 0) }
  make_values h := by simp
  fits h := by simp [toNat_lt]

/-- `Elf32_Sym` -/
def sym32Layout : Layout (Sym A) where
  widths := [width UInt32, width A, width A, width UInt8, width UInt8, width UInt16]
  values s := [toNat s.stName, toNat s.stValue, toNat s.stSize, toNat s.stInfo, toNat s.stOther, toNat s.stShndx]
  make vs :=
    { stName := ofNat (vs.getD 0 0), stValue := ofNat (vs.getD 1 0), stSize := ofNat (vs.getD 2 0), stInfo := ofNat (vs.getD 3 0),
      stOther := ofNat (vs.getD 4 0), stShndx := ofNat (vs.getD 5 0) }
  make_values s := by simp
  fits s := by simp [toNat_lt]

/-- `Elf64_Sym` -/
def sym64Layout : Layout (Sym A) where
  widths := [width UInt32, width UInt8, width UInt8, width UInt16, width A, width A]
  values s := [toNat s.stName, toNat s.stInfo, toNat s.stOther, toNat s.stShndx, toNat s.stValue, toNat s.stSize]
  make vs :=
    { stName := ofNat (vs.getD 0 0), stInfo := ofNat (vs.getD 1 0), stOther := ofNat (vs.getD 2 0), stShndx := ofNat (vs.getD 3 0),
      stValue := ofNat (vs.getD 4 0), stSize := ofNat (vs.getD 5 0) }
  make_values s := by simp
  fits s := by simp [toNat_lt]

def relaLayout : Layout (Rela A) where
  widths := [width A, width A, width A]
  values r := [toNat r.rOffset, toNat r.rInfo, toNat r.rAddend]
  make vs := { rOffset := ofNat (vs.getD 0 0), rInfo := ofNat (vs.getD 1 0), rAddend := ofNat (vs.getD 2 0) }
  make_values r := by simp
  fits r := by simp [toNat_lt]

end Layouts

/-! ## Packed fields -/

def elf64StBind (i : UInt8) : UInt8 := i >>> 4
def elf64StInfo (b t : UInt32) : UInt8 := ((b <<< 4) ||| (t &&& 0xf)).toUInt8

def elf32RSym (i : UInt32) : UInt32 := i >>> 8
def elf32RType (i : UInt32) : UInt32 := i &&& 0xff
def elf32RInfo (s t : UInt32) : UInt32 := (s <<< 8) ||| (t &&& 0xff)

def elf64RSym (i : UInt64) : UInt64 := i >>> 32
def elf64RType (i : UInt64) : UInt64 := i &&& 0xffffffff
def elf64RInfo (s t : UInt64) : UInt64 := (s <<< 32) ||| (t &&& 0xffffffff)

/-! ## Conversions

The templates assign the fields one by one; `f` is the integer conversion of the assignment. -/

section Convert
variable {A B : Type} (f : A → B)

def Ehdr.convert (h : Ehdr A) : Ehdr B :=
  { eIdent := h.eIdent, eType := h.eType, eMachine := h.eMachine, eVersion := h.eVersion, eEntry := f h.eEntry,
    ePhoff := f h.ePhoff, eShoff := f h.eShoff, eFlags := h.eFlags, eEhsize := h.eEhsize, ePhentsize := h.ePhentsize,
    ePhnum := h.ePhnum, eShentsize := h.eShentsize, eShnum := h.eShnum, eShstrndx := h.eShstrndx }

def Phdr.convert (h : Phdr A) : Phdr B :=
  { pType := h.pType, pFlags := h.pFlags, pOffset := f h.pOffset, pVaddr := f h.pVaddr, pPaddr := f h.pPaddr,
    pFilesz := f h.pFilesz, pMemsz := f h.pMemsz, pAlign := f h.pAlign }

def Shdr.convert (h : Shdr A) : Shdr B :=
  { shName := h.shName, shType := h.shType, shFlags := f h.shFlags, shAddr := f h.shAddr, shOffset := f h.shOffset,
    shSize := f h.shSize, shLink := h.shLink, shInfo := h.shInfo, shAddralign := f h.shAddralign, shEntsize := f h.shEntsize }

def Sym.convert (s : Sym A) : Sym B :=
  { stName := s.stName, stInfo := s.stInfo, stOther := s.stOther, stShndx := s.stShndx, stValue := f s.stValue,
    stSize := f s.stSize }

end Convert

/-- The addend is not converted. -/
def elfRela32ToRela64 (rela32 : Rela32) : Rela64 where
  rOffset := rela32.rOffset.toUInt64
  rInfo := elf64RInfo (elf32RSym rela32.rInfo).toUInt64 (elf32RType rela32.rInfo).toUInt64
  rAddend := 0

/-- `elf_rela64_to_rela32(&rela32, &rela64)`: the arguments of the template it calls are the wrong way round, so the 64 bit
record is assigned from the 32 bit one. What it returns are the two records after the call. -/
def elfRela64ToRela32 (rela32 : Rela32) (rela64 : Rela64) : Rela32 × Rela64 :=
  (rela32, { rela64 with
    rOffset := rela32.rOffset.toUInt64
    rInfo := (elf32RInfo (elf64RSym rela32.rInfo.toUInt64).toUInt32 (elf64RType rela32.rInfo.toUInt64).toUInt32).toUInt64 })

end Rv8.Elf
