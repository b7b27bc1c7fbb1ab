import Rv8.Lib.Register
import Rv8.Asm.Codec
/-!
# The privileged processor and its control and status registers

The state `processor_priv` keeps for its control and status registers, the four
accessors of `processor-impl.h` (`set_csr`, `get_csr` and their `_hi` forms) and
`inst_csr` of `processor-priv-1.9.h`, which dispatches a CSR number to one of
them. The width of `ux` is the parameter `xlen`, 32 or 64 in the source.

The host floating-point environment is the one of the C11 branch of `fpu.h`. The
host clock, which `get_time` reads, is a parameter.
-/

namespace Rv8.Emu

open Rv8.Lib Rv8.Asm

/-! ## State -/

inductive RvMode
  | U | S | H | M
deriving DecidableEq, Inhabited

def RvMode.toNat : RvMode → Nat
  | .U => 0 | .S => 1 | .H => 2 | .M => 3

structure Csrs (xlen : Nat) where
  (time instret : BitVec 64)
  fcsr : BitVec 32
  (misa mvendorid marchid mimpid mhartid mstatus mtvec medeleg mideleg mip mie mhcounteren mscounteren
  mucounteren mscratch mepc mcause mbadaddr mbase mbound mibase mibound mdbase mdbound stvec sedeleg sideleg
  sscratch sepc scause sbadaddr sptbr : BitVec xlen)
deriving DecidableEq, Inhabited

/-- The directions of `fesetround`. -/
inductive Round
  | toNearest | towardZero | downward | upward
deriving DecidableEq, Inhabited

/-- The accrued exceptions and the rounding direction of the host. -/
structure Fenv where
  (divByZero inexact invalid overflow underflow : Bool)
  round : Round
deriving DecidableEq, Inhabited

structure Processor (xlen : Nat) where
  ireg : Nat → BitVec xlen
  pdid : BitVec xlen
  mode : RvMode
  csrs : Csrs xlen
  fenv : Fenv
deriving Inhabited

variable {xlen : Nat}

/-! What `R &reg` refers to in the calls of `inst_csr`. -/

namespace Csrs

def timeReg : Register (Csrs xlen) 64 := ⟨time, fun s v => { s with time := v }, fun _ _ => rfl, fun _ => rfl⟩
def instretReg : Register (Csrs xlen) 64 := ⟨instret, fun s v => { s with instret := v }, fun _ _ => rfl, fun _ => rfl⟩
def fcsrReg : Register (Csrs xlen) 32 := ⟨fcsr, fun s v => { s with fcsr := v }, fun _ _ => rfl, fun _ => rfl⟩
def misaReg : Register (Csrs xlen) xlen := ⟨misa, fun s v => { s with misa := v }, fun _ _ => rfl, fun _ => rfl⟩
def mvendoridReg : Register (Csrs xlen) xlen := ⟨mvendorid, fun s v => { s with mvendorid := v }, fun _ _ => rfl, fun _ => rfl⟩
def marchidReg : Register (Csrs xlen) xlen := ⟨marchid, fun s v => { s with marchid := v }, fun _ _ => rfl, fun _ => rfl⟩
def mimpidReg : Register (Csrs xlen) xlen := ⟨mimpid, fun s v => { s with mimpid := v }, fun _ _ => rfl, fun _ => rfl⟩
def mhartidReg : Register (Csrs xlen) xlen := ⟨mhartid, fun s v => { s with mhartid := v }, fun _ _ => rfl, fun _ => rfl⟩
def mstatusReg : Register (Csrs xlen) xlen := ⟨mstatus, fun s v => { s with mstatus := v }, fun _ _ => rfl, fun _ => rfl⟩
def mtvecReg : Register (Csrs xlen) xlen := ⟨mtvec, fun s v => { s with mtvec := v }, fun _ _ => rfl, fun _ => rfl⟩
def medelegReg : Register (Csrs xlen) xlen := ⟨medeleg, fun s v => { s with medeleg := v }, fun _ _ => rfl, fun _ => rfl⟩
def midelegReg : Register (Csrs xlen) xlen := ⟨mideleg, fun s v => { s with mideleg := v }, fun _ _ => rfl, fun _ => rfl⟩
def mipReg : Register (Csrs xlen) xlen := ⟨mip, fun s v => { s with mip := v }, fun _ _ => rfl, fun _ => rfl⟩
def mieReg : Register (Csrs xlen) xlen := ⟨mie, fun s v => { s with mie := v }, fun _ _ => rfl, fun _ => rfl⟩
def mhcounterenReg : Register (Csrs xlen) xlen := ⟨mhcounteren, fun s v => { s with mhcounteren := v }, fun _ _ => rfl, fun _ => rfl⟩
def mscounterenReg : Register (Csrs xlen) xlen := ⟨mscounteren, fun s v => { s with mscounteren := v }, fun _ _ => rfl, fun _ => rfl⟩
def mucounterenReg : Register (Csrs xlen) xlen := ⟨mucounteren, fun s v => { s with mucounteren := v }, fun _ _ => rfl, fun _ => rfl⟩
def mscratchReg : Register (Csrs xlen) xlen := ⟨mscratch, fun s v => { s with mscratch := v }, fun _ _ => rfl, fun _ => rfl⟩
def mepcReg : Register (Csrs xlen) xlen := ⟨mepc, fun s v => { s with mepc := v }, fun _ _ => rfl, fun _ => rfl⟩
def mcauseReg : Register (Csrs xlen) xlen := ⟨mcause, fun s v => { s with mcause := v }, fun _ _ => rfl, fun _ => rfl⟩
def mbadaddrReg : Register (Csrs xlen) xlen := ⟨mbadaddr, fun s v => { s with mbadaddr := v }, fun _ _ => rfl, fun _ => rfl⟩
def mbaseReg : Register (Csrs xlen) xlen := ⟨mbase, fun s v => { s with mbase := v }, fun _ _ => rfl, fun _ => rfl⟩
def mboundReg : Register (Csrs xlen) xlen := ⟨mbound, fun s v => { s with mbound := v }, fun _ _ => rfl, fun _ => rfl⟩
def mibaseReg : Register (Csrs xlen) xlen := ⟨mibase, fun s v => { s with mibase := v }, fun _ _ => rfl, fun _ => rfl⟩
def miboundReg : Register (Csrs xlen) xlen := ⟨mibound, fun s v => { s with mibound := v }, fun _ _ => rfl, fun _ => rfl⟩
def mdbaseReg : Register (Csrs xlen) xlen := ⟨mdbase, fun s v => { s with mdbase := v }, fun _ _ => rfl, fun _ => rfl⟩
def mdboundReg : Register (Csrs xlen) xlen := ⟨mdbound, fun s v => { s with mdbound := v }, fun _ _ => rfl, fun _ => rfl⟩
def stvecReg : Register (Csrs xlen) xlen := ⟨stvec, fun s v => { s with stvec := v }, fun _ _ => rfl, fun _ => rfl⟩
def sedelegReg : Register (Csrs xlen) xlen := ⟨sedeleg, fun s v => { s with sedeleg := v }, fun _ _ => rfl, fun _ => rfl⟩
def sidelegReg : Register (Csrs xlen) xlen := ⟨sideleg, fun s v => { s with sideleg := v }, fun _ _ => rfl, fun _ => rfl⟩
def sscratchReg : Register (Csrs xlen) xlen := ⟨sscratch, fun s v => { s with sscratch := v }, fun _ _ => rfl, fun _ => rfl⟩
def sepcReg : Register (Csrs xlen) xlen := ⟨sepc, fun s v => { s with sepc := v }, fun _ _ => rfl, fun _ => rfl⟩
def scauseReg : Register (Csrs xlen) xlen := ⟨scause, fun s v => { s with scause := v }, fun _ _ => rfl, fun _ => rfl⟩
def sbadaddrReg : Register (Csrs xlen) xlen := ⟨sbadaddr, fun s v => { s with sbadaddr := v }, fun _ _ => rfl, fun _ => rfl⟩
def sptbrReg : Register (Csrs xlen) xlen := ⟨sptbr, fun s v => { s with sptbr := v }, fun _ _ => rfl, fun _ => rfl⟩

end Csrs

/-! ## Host floating-point environment -/

def rvFcsrNX : BitVec 32 := 1
def rvFcsrUF : BitVec 32 := 2
def rvFcsrOF : BitVec 32 := 4
def rvFcsrDZ : BitVec 32 := 8
def rvFcsrNV : BitVec 32 := 16

namespace Processor

variable (s : Processor xlen)

/-- `if (dec.rd != rv_ireg_x0) ireg[dec.rd] = v` -/
def setRd (dec : Decode) (v : BitVec xlen) : Processor xlen :=
  if dec.rd ≠ rvIregZero then { s with ireg := fun r => if r = dec.rd then v else s.ireg r } else s

def fenvGetflags : Processor xlen :=
  let bit (b : Bool) (f : BitVec 32) : BitVec 32 := if b then f else 0
  let e := s.fenv
  let flags := bit e.divByZero rvFcsrDZ ||| bit e.inexact rvFcsrNX ||| bit e.invalid rvFcsrNV |||
    bit e.overflow rvFcsrOF ||| bit e.underflow rvFcsrUF
  { s with csrs.fcsr := s.csrs.fcsr ||| flags }

/-- The host exceptions whose flag is clear in `fcsr` are cleared. -/
def fenvClearflags : Processor xlen :=
  let kept (b : Bool) (f : BitVec 32) : Bool := b && s.csrs.fcsr &&& f != 0
  let e := s.fenv
  { s with fenv := { e with
      divByZero := kept e.divByZero rvFcsrDZ, inexact := kept e.inexact rvFcsrNX,
      invalid := kept e.invalid rvFcsrNV, overflow := kept e.overflow rvFcsrOF,
      underflow := kept e.underflow rvFcsrUF } }

/-- `rmm` rounds to nearest like `rne`; the host keeps its direction for the values above it. -/
def fenvSetrm : Processor xlen :=
  match ((s.csrs.fcsr >>> 5) &&& 7).toNat with
  | 0 => { s with fenv.round := .toNearest }
  | 1 => { s with fenv.round := .towardZero }
  | 2 => { s with fenv.round := .downward }
  | 3 => { s with fenv.round := .upward }
  | 4 => { s with fenv.round := .toNearest }
  | _ => s

end Processor

/-! ## Accessors -/

inductive CsrOp
  | rw | rs | rc
deriving DecidableEq

namespace Processor

variable (s : Processor xlen) (dec : Decode) (mode : RvMode) (op : CsrOp) (csr : Nat)

def setCsr {n : Nat} (reg : Register (Csrs xlen) n) (value : BitVec xlen) (writeMask : BitVec n := -1)
    (readMask : BitVec n := -1) (shift : Nat := 0) : Processor xlen :=
  let csrMode := (csr >>> 8) &&& 3
  let readonly := (csr >>> 12) &&& 1
  let r := reg.get s.csrs
  let s := s.setRd dec (if mode.toNat ≥ csrMode then ((r >>> shift) &&& readMask).setWidth xlen else 0)
  if readonly ≠ 0 then s else
  let v := (value.setWidth n &&& writeMask) <<< shift
  match op with
  | .rw => { s with csrs := reg.set s.csrs ((r &&& ~~~(writeMask <<< shift)) ||| v) }
  | .rs => if value ≠ 0 then { s with csrs := reg.set s.csrs (r ||| v) } else s
  | .rc => if value ≠ 0 then { s with csrs := reg.set s.csrs (r &&& ~~~v) } else s

def getCsr {n : Nat} (reg : Register (Csrs xlen) n) : Processor xlen :=
  let csrMode := (csr >>> 8) &&& 3
  s.setRd dec (if mode.toNat ≥ csrMode then (reg.get s.csrs).setWidth xlen else 0)

def setCsrHi (reg : Register (Csrs xlen) 64) (value : BitVec xlen) : Processor xlen :=
  let csrMode := (csr >>> 8) &&& 3
  let readonly := (csr >>> 12) &&& 1
  let r := reg.get s.csrs
  let s := s.setRd dec (if mode.toNat ≥ csrMode then ((r >>> 32).setWidth 32).signExtend xlen else 0)
  if readonly ≠ 0 then s else
  let v := value.setWidth 64 <<< 32
  match op with
  | .rw => { s with csrs := reg.set s.csrs (v ||| (r &&& 0xffffffff)) }
  | .rs => if value ≠ 0 then { s with csrs := reg.set s.csrs (r ||| v) } else s
  | .rc => if value ≠ 0 then { s with csrs := reg.set s.csrs (r &&& (~~~v ||| 0xffffffff)) } else s

def getCsrHi (reg : Register (Csrs xlen) 64) : Processor xlen :=
  let csrMode := (csr >>> 8) &&& 3
  s.setRd dec (if mode.toNat ≥ csrMode then ((reg.get s.csrs >>> 32).setWidth 32).signExtend xlen else 0)

end Processor

/-! ## `inst_csr` -/

/-- The cases of the switch in `inst_csr`. -/
inductive RvCsr
  | fflags | frm | fcsr | cycle | time | instret | cycleh | timeh | instreth | misa | mvendorid | marchid
  | mimpid | mhartid | mstatus | mtvec | medeleg | mideleg | mip | mie | mhcounteren | mscounteren
  | mucounteren | mscratch | mepc | mcause | mbadaddr | mbase | mbound | mibase | mibound | mdbase | mdbound
  | mcycle | minstret | mcycleh | minstreth | sstatus | stvec | sedeleg | sideleg | sip | sie | sscratch
  | sepc | scause | sbadaddr | sptbr
deriving DecidableEq

def rvCsr : RvCsr → Nat
  | .fflags => 0x001 | .frm => 0x002 | .fcsr => 0x003 | .cycle => 0xc00 | .time => 0xc01 | .instret => 0xc02
  | .cycleh => 0xc80 | .timeh => 0xc81 | .instreth => 0xc82 | .misa => 0x301 | .mvendorid => 0xf11
  | .marchid => 0xf12 | .mimpid => 0xf13 | .mhartid => 0xf14 | .mstatus => 0x300 | .mtvec => 0x305
  | .medeleg => 0x302 | .mideleg => 0x303 | .mip => 0x344 | .mie => 0x304 | .mhcounteren => 0x322
  | .mscounteren => 0x321 | .mucounteren => 0x320 | .mscratch => 0x340 | .mepc => 0x341 | .mcause => 0x342
  | .mbadaddr => 0x343 | .mbase => 0x380 | .mbound => 0x381 | .mibase => 0x382 | .mibound => 0x383
  | .mdbase => 0x384 | .mdbound => 0x385 | .mcycle => 0xb00 | .minstret => 0xb02 | .mcycleh => 0xb80
  | .minstreth => 0xb82 | .sstatus => 0x100 | .stvec => 0x105 | .sedeleg => 0x102 | .sideleg => 0x103
  | .sip => 0x144 | .sie => 0x104 | .sscratch => 0x140 | .sepc => 0x141 | .scause => 0x142
  | .sbadaddr => 0x143 | .sptbr => 0x180

def RvCsr.all : List RvCsr :=
  [.fflags, .frm, .fcsr, .cycle, .time, .instret, .cycleh, .timeh, .instreth, .misa, .mvendorid, .marchid
   , .mimpid, .mhartid, .mstatus, .mtvec, .medeleg, .mideleg, .mip, .mie, .mhcounteren, .mscounteren
   , .mucounteren, .mscratch, .mepc, .mcause, .mbadaddr, .mbase, .mbound, .mibase, .mibound, .mdbase, .mdbound
   , .mcycle, .minstret, .mcycleh, .minstreth, .sstatus, .stvec, .sedeleg, .sideleg, .sip, .sie, .sscratch
   , .sepc, .scause, .sbadaddr, .sptbr]

def RvCsr.ofNumber (csr : Nat) : Option RvCsr := RvCsr.all.find? (rvCsr · == csr)

def fflagsMask : BitVec 32 := 0x1f
def frmMask : BitVec 32 := 0x3
def fcsrMask : BitVec 32 := 0xff

section Masks
variable (xlen)

def misaRmask : BitVec xlen := -1
def misaWmask : BitVec xlen := BitVec.ofNat xlen (2 ^ (xlen - 2) - 1)
def mstatusRmask : BitVec xlen := -1
def mstatusWmask : BitVec xlen := BitVec.ofNat xlen (2 ^ (xlen - 1) - 1)
def sstatusRmask : BitVec xlen := BitVec.ofNat xlen (0b1011110000100110011 ||| 2 ^ (xlen - 1))
def sstatusWmask : BitVec xlen := BitVec.ofNat xlen 0b1011110000100110011
def miMask : BitVec xlen := -1
def siMask : BitVec xlen := BitVec.ofNat xlen 0b001100110011
def tvecRmask : BitVec xlen := -1
def tvecWmask : BitVec xlen := (-1 : BitVec xlen) <<< (2 : Nat)

end Masks

namespace Processor

variable (getTime : BitVec 64) (s : Processor xlen) (dec : Decode)

def instCsrCase (op : CsrOp) (csr : Nat) (value : BitVec xlen) : RvCsr → Processor xlen
  | .fflags => (s.fenvGetflags.setCsr dec .U op csr Csrs.fcsrReg value fflagsMask fflagsMask).fenvClearflags
  | .frm => (s.setCsr dec .U op csr Csrs.fcsrReg value frmMask frmMask 5).fenvSetrm
  | .fcsr => (s.fenvGetflags.setCsr dec .U op csr Csrs.fcsrReg value fcsrMask fcsrMask).fenvClearflags.fenvSetrm
  | .cycle => s.getCsr dec .U csr Csrs.instretReg
  | .time => { s with csrs.time := getTime : Processor xlen }.getCsr dec .U csr Csrs.timeReg
  | .instret => s.getCsr dec s.mode csr Csrs.instretReg
  | .cycleh => s.getCsrHi dec s.mode csr Csrs.instretReg
  | .timeh => s.getCsrHi dec s.mode csr Csrs.timeReg
  | .instreth => s.getCsrHi dec s.mode csr Csrs.instretReg
  | .misa => s.setCsr dec s.mode op csr Csrs.misaReg value (misaWmask xlen) (misaRmask xlen)
  | .mvendorid => s.getCsr dec s.mode csr Csrs.mvendoridReg
  | .marchid => s.getCsr dec s.mode csr Csrs.marchidReg
  | .mimpid => s.getCsr dec s.mode csr Csrs.mimpidReg
  | .mhartid => s.getCsr dec s.mode csr Csrs.mhartidReg
  | .mstatus => s.setCsr dec s.mode op csr Csrs.mstatusReg value (mstatusWmask xlen) (mstatusRmask xlen)
  | .mtvec => s.setCsr dec s.mode op csr Csrs.mtvecReg value (tvecRmask xlen) (tvecWmask xlen)
  | .medeleg => s.setCsr dec s.mode op csr Csrs.medelegReg value
  | .mideleg => s.setCsr dec s.mode op csr Csrs.midelegReg value
  | .mip => s.setCsr dec s.mode op csr Csrs.mipReg value (miMask xlen) (miMask xlen)
  | .mie => s.setCsr dec s.mode op csr Csrs.mieReg value (miMask xlen) (miMask xlen)
  | .mhcounteren => s.setCsr dec s.mode op csr Csrs.mhcounterenReg value
  | .mscounteren => s.setCsr dec s.mode op csr Csrs.mscounterenReg value
  | .mucounteren => s.setCsr dec s.mode op csr Csrs.mucounterenReg value
  | .mscratch => s.setCsr dec s.mode op csr Csrs.mscratchReg value
  | .mepc => s.setCsr dec s.mode op csr Csrs.mepcReg value
  | .mcause => s.setCsr dec s.mode op csr Csrs.mcauseReg value
  | .mbadaddr => s.setCsr dec s.mode op csr Csrs.mbadaddrReg value
  | .mbase => s.setCsr dec s.mode op csr Csrs.mbaseReg value
  | .mbound => s.setCsr dec s.mode op csr Csrs.mboundReg value
  | .mibase => s.setCsr dec s.mode op csr Csrs.mibaseReg value
  | .mibound => s.setCsr dec s.mode op csr Csrs.miboundReg value
  | .mdbase => s.setCsr dec s.mode op csr Csrs.mdbaseReg value
  | .mdbound => s.setCsr dec s.mode op csr Csrs.mdboundReg value
  | .mcycle => s.setCsr dec .U op csr Csrs.instretReg value
  | .minstret => s.setCsr dec s.mode op csr Csrs.instretReg value
  | .mcycleh => s.setCsrHi dec s.mode op csr Csrs.instretReg value
  | .minstreth => s.setCsrHi dec s.mode op csr Csrs.instretReg value
  | .sstatus => s.setCsr dec s.mode op csr Csrs.mstatusReg value (sstatusWmask xlen) (sstatusRmask xlen)
  | .stvec => s.setCsr dec s.mode op csr Csrs.stvecReg value (tvecRmask xlen) (tvecWmask xlen)
  | .sedeleg => s.setCsr dec s.mode op csr Csrs.sedelegReg value
  | .sideleg => s.setCsr dec s.mode op csr Csrs.sidelegReg value
  | .sip => s.setCsr dec s.mode op csr Csrs.mipReg value (siMask xlen) (siMask xlen)
  | .sie => s.setCsr dec s.mode op csr Csrs.mieReg value (siMask xlen) (siMask xlen)
  | .sscratch => s.setCsr dec s.mode op csr Csrs.sscratchReg value
  | .sepc => s.setCsr dec s.mode op csr Csrs.sepcReg value
  | .scause => s.setCsr dec s.mode op csr Csrs.scauseReg value
  | .sbadaddr => s.setCsr dec s.mode op csr Csrs.sbadaddrReg value
  | .sptbr => s.setCsr dec s.mode op csr Csrs.sptbrReg value

/-- The second component is the offset to the next instruction, or -1 for an illegal instruction. -/
def instCsr (op : CsrOp) (csr : Nat) (value : BitVec xlen) (pcOffset : BitVec 64) : Processor xlen × BitVec 64 :=
  match RvCsr.ofNumber csr with
  | some c => (instCsrCase getTime s dec op csr value c, pcOffset)
  | none => (s, -1)

/-- The CSR instructions of `inst_priv`. -/
def instPrivCsr (pcOffset : BitVec 64) : Option (Processor xlen × BitVec 64) :=
  let csr := dec.imm.toNat
  match dec.op with
  | .csrrw => some (instCsr getTime s dec .rw csr (s.ireg dec.rs1) pcOffset)
  | .csrrs => some (instCsr getTime s dec .rs csr (s.ireg dec.rs1) pcOffset)
  | .csrrc => some (instCsr getTime s dec .rc csr (s.ireg dec.rs1) pcOffset)
  | .csrrwi => some (instCsr getTime s dec .rw csr dec.rs1 pcOffset)
  | .csrrsi => some (instCsr getTime s dec .rs csr dec.rs1 pcOffset)
  | .csrrci => some (instCsr getTime s dec .rc csr dec.rs1 pcOffset)
  | _ => none

end Processor

end Rv8.Emu
