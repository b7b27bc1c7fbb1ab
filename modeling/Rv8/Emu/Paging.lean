import Rv8.Emu.Processor
/-!
# Page tables and the TLB

The page-table entries and paging modes of `pte.h`, and the direct-mapped
`tagged_tlb` of `tlb-soft.h`. Entries and addresses are natural numbers; what is
assigned to a bit-field is cut to its width.
-/

namespace Rv8.Emu

/-! ## Parameters -/

/-- `param_rv32` and `param_rv64` -/
inductive Rv
  | rv32 | rv64
deriving DecidableEq

namespace Rv

def xlen : Rv → Nat
  | .rv32 => 32 | .rv64 => 64

def asidBits : Rv → Nat
  | .rv32 => 10 | .rv64 => 26

def ppnBits : Rv → Nat
  | .rv32 => 22 | .rv64 => 38

end Rv

def pageShift : Nat := 12

/-- The paged translation modes. -/
inductive Ptm
  | sv32 | sv39 | sv48
deriving DecidableEq

namespace Ptm

def levels : Ptm → Nat
  | .sv32 => 2 | .sv39 => 3 | .sv48 => 4

/-- The bits of a virtual address that index one level. -/
def bits : Ptm → Nat
  | .sv32 => 10 | .sv39 => 9 | .sv48 => 9

/-- The bytes of an entry. -/
def pteSize : Ptm → Nat
  | .sv32 => 4 | .sv39 => 8 | .sv48 => 8

/-- The width of the field `ppn` of an entry. -/
def ppnBits : Ptm → Nat
  | .sv32 => 22 | .sv39 => 38 | .sv48 => 38

end Ptm

/-! ## Page-table entries -/

def pteShiftV : Nat := 0
def pteShiftR : Nat := 1
def pteShiftW : Nat := 2
def pteShiftX : Nat := 3
def pteShiftU : Nat := 4
def pteShiftA : Nat := 6
def pteShiftD : Nat := 7
def pteFlagA : Nat := 1 <<< pteShiftA
def pteFlagD : Nat := 1 <<< pteShiftD

def pteFlags (pte : Nat) : Nat := pte % 2 ^ 10

namespace Ptm

variable (ptm : Ptm) (pte : Nat)

def ppn : Nat := (pte >>> 10) % 2 ^ ptm.ppnBits

/-- `ppn = pte.val.ppn << page_shift`. The field of sv32 is promoted to `int`, and the shifted value is
extended with its sign where `UX` has 64 bits. -/
def table (R : Rv) : Nat :=
  match ptm with
  | .sv32 => ((BitVec.ofNat 32 (ptm.ppn pte <<< pageShift)).signExtend R.xlen).toNat
  | .sv39 | .sv48 => (ptm.ppn pte <<< pageShift) % 2 ^ R.xlen

end Ptm

/-- None of R, W and X is set. -/
def IsPointer (pte : Nat) : Prop := (pte >>> pteShiftR ||| pte >>> pteShiftW ||| pte >>> pteShiftX) &&& 1 = 0

instance (pte : Nat) : Decidable (IsPointer pte) := inferInstanceAs (Decidable (_ = _))

/-- `pte.v = 0, or pte.r = 0 and pte.w = 1` -/
def IsInvalid (pte : Nat) : Prop :=
  ¬ pte.testBit pteShiftV ∨ (¬ pte.testBit pteShiftR ∧ pte.testBit pteShiftW)

instance (pte : Nat) : Decidable (IsInvalid pte) := inferInstanceAs (Decidable (_ ∨ _))

/-! ## TLB -/

structure TlbEntry where
  (ppn asid vpn ptel pteb pdid : Nat)
deriving DecidableEq

abbrev Tlb := Nat → TlbEntry

/-- The logarithm of the number of entries. -/
def tlbShift : Nat := 7

namespace Tlb

variable (R : Rv)

def vpnBits : Nat := R.xlen - pageShift

/-- `tagged_tlb_entry()` -/
def reset : TlbEntry where
  ppn := 2 ^ R.ppnBits - 1
  asid := 2 ^ R.asidBits - 1
  vpn := 2 ^ vpnBits R - 1
  ptel := 0
  pteb := 0
  pdid := 0

def empty : Tlb := fun _ => reset R

def index (va : Nat) : Nat := (va >>> pageShift) &&& (2 ^ tlbShift - 1)

def lookup (tlb : Tlb) (pdid asid va : Nat) : Option TlbEntry :=
  let ent := tlb (index va)
  if ent.pdid = pdid ∧ ent.asid = asid ∧ ent.vpn = va >>> pageShift then some ent else none

/-- `tagged_tlb_entry(pdid, asid, vpn, ptel, pteb, ppn)` -/
def entry (pdid asid va ptel pteb ppn : Nat) : TlbEntry where
  ppn := ppn % 2 ^ R.ppnBits
  asid := asid % 2 ^ R.asidBits
  vpn := (va >>> pageShift) % 2 ^ vpnBits R
  ptel := ptel % 2 ^ 2
  pteb := pteb % 2 ^ 10
  pdid := pdid % 2 ^ 32

def insert (tlb : Tlb) (va : Nat) (ent : TlbEntry) : Tlb := Function.update tlb (index va) ent

/-- `flush(pdid, asid)` -/
def flush (tlb : Tlb) (pdid asid : Nat) : Tlb := fun i =>
  if asid ≠ 0 ∧ (tlb i).pdid ≠ pdid ∧ (tlb i).asid ≠ asid then tlb i else reset R

end Tlb

end Rv8.Emu
