import Rv8.Emu.Arith
import Rv8.Emu.Privilege
/-!
# The interpreter

`exec_inst_rv32` and `exec_inst_rv64` of `interp.h`, which are one text with the width
as a parameter, the second with more cases. `action` says what a case of the switch
does, from the registers it reads; `Action.run` carries it out. A case of an extension
that the processor lacks does nothing.
-/

namespace Rv8.Emu

open Rv8.Lib Rv8.Asm

/-! ## Actions -/

/-- The template parameters `rvi`, `rvm`, `rva`, `rvf` and `rvd`. -/
inductive Ext
  | i | m | a | f | d
deriving DecidableEq

/-- What a case of the switch does. -/
inductive Action (R : Rv)
  /-- `proc.ireg[dec.rd] = (dec.rd == 0) ? 0 : v` -/
  | setRd (v : BitVec R.xlen)
  /-- Links and jumps. -/
  | jump (offset : BitVec R.xlen)
  | branch (taken : Bool)
  | load (n : Nat) (signed : Bool) (va : BitVec R.xlen)
  | store (n : Nat) (va : BitVec R.xlen) (val : Nat)
  /-- Load reserved, of a signed value. -/
  | lr (n : Nat) (va : BitVec R.xlen)
  | sc (n : Nat) (va : BitVec R.xlen) (val : Nat)
  | amo (n : Nat) (aop : AmoOp) (va : BitVec R.xlen) (val2 : Nat)
  | fload (fmt : FpFmt) (va : BitVec R.xlen)
  | fstore (fmt : FpFmt) (va : BitVec R.xlen) (val : BitVec fmt.width)
  /-- Assigns a floating-point register, after `fenv_setrm` if `setrm`. -/
  | setFrd (fmt : FpFmt) (setrm : Bool) (v : FpM (BitVec fmt.width))
  /-- Assigns `rd` what floating-point code computes, which runs only for `rd != 0`. -/
  | fpSetRd (setrm : Bool) (v : FpM (BitVec R.xlen))

namespace Hart

variable {R : Rv} (s : Hart R)

/-- `proc.ireg[rd] = (rd == 0) ? 0 : v` -/
def writeRd (rd : Nat) (v : BitVec R.xlen) : Hart R :=
  { s with ireg := fun r => if r = rd then if rd = 0 then 0 else v else s.ireg r }

theorem ireg_writeRd {rd : Nat} (hrd : rd ≠ 0) (v : BitVec R.xlen) : (s.writeRd rd v).ireg rd = v := (if_pos rfl).trans (if_neg hrd)

/-- `freg[rd].r.s.val = v` leaves the high half of the register. -/
def writeFrd (fmt : FpFmt) (rd : Nat) (v : BitVec fmt.width) : Hart R :=
  { s with freg := fun r => if r = rd then BitField.set ⟨0, fmt.width⟩ (s.freg r) v else s.freg r }

def readFrs (fmt : FpFmt) (r : Nat) : BitVec fmt.width := BitField.get ⟨0, fmt.width⟩ (s.freg r)

def fenvSetrm : Hart R := { s with toProcessor := s.toProcessor.fenvSetrm }

/-- Runs floating-point code on the environment of the hart. -/
def runFp {α : Type} (m : FpM α) : α × Hart R :=
  let r := m.run ⟨s.fenv, s.csrs.fcsr⟩
  (r.1, { s with fenv := r.2.fenv, csrs.fcsr := r.2.fcsr })

end Hart

/-! ## Running an action -/

section Run
variable {R : Rv} {σ : Type} (port : Port σ) (host : Host)

namespace Machine

def modifyHart (f : Hart R → Hart R) : Prog MmuExit (Machine R σ) Unit :=
  .modify fun s => { s with hart := f s.hart }

/-- A call on the MMU, which sees the processor as it is. -/
def onMmu {α : Type} (f : Processor R.xlen → MmuM σ α) : Prog MmuExit (Machine R σ) α := do
  let s ← .get
  (f s.hart.toProcessor).zoom (fun s => s.mmu) fun s mmu => { s with mmu }

def load (n : Nat) (va : BitVec R.xlen) : Prog MmuExit (Machine R σ) Nat :=
  onMmu fun proc => Emu.load port R proc n va.toNat (host.uninit % 2 ^ (8 * n))

def store (n : Nat) (va : BitVec R.xlen) (val : Nat) : Prog MmuExit (Machine R σ) Unit :=
  onMmu fun proc => Emu.store port R proc n va.toNat val

def amo (n : Nat) (aop : AmoOp) (va : BitVec R.xlen) (val2 : Nat) : Prog MmuExit (Machine R σ) Nat :=
  onMmu fun proc => Emu.amo port R proc n aop va.toNat (host.uninit % 2 ^ (8 * n)) val2

/-- Runs floating-point code on the environment of the hart. -/
def runFp {α : Type} (m : FpM α) : Prog MmuExit (Machine R σ) α := do
  let s ← .get
  modifyHart fun _ => (s.hart.runFp m).2
  pure (s.hart.runFp m).1

/-- What a store of a floating-point value hands to the memory. Where that is an integer, the value is converted. -/
def storedBits (fmt : FpFmt) (mpa : Nat) (val : BitVec fmt.width) : Prog MmuExit (Machine R σ) (BitVec fmt.width) :=
  if port.storesBits mpa then pure val else runFp (Host.onFenv (host.toInt fmt fmt.width false · val))

/-- `store<f32>` and `store<f64>`. -/
def fstore (fmt : FpFmt) (va : BitVec R.xlen) (val : BitVec fmt.width) : Prog MmuExit (Machine R σ) Unit := do
  match ← onMmu fun proc => storeAddr port R proc (fmt.width / 8) va.toNat with
  | none => pure ()
  | some mpa => do
    let bits ← storedBits port host fmt mpa val
    onMmu fun _ => Mmu.onMem (port.store (fmt.width / 8) mpa bits.toNat) (.raise .faultStore va.toNat)

end Machine

/-- The value of a local of `n` bytes in a register. -/
def extend (R : Rv) (n : Nat) (signed : Bool) (t : Nat) : BitVec R.xlen :=
  let t := BitVec.ofNat (8 * n) t
  if signed then t.signExtend R.xlen else t.setWidth R.xlen

def Action.run (dec : Decode) (pcOffset : BitVec R.xlen) : Action R → Prog MmuExit (Machine R σ) (BitVec R.xlen)
  | .setRd v => do
    Machine.modifyHart fun s => s.writeRd dec.rd v
    pure pcOffset
  | .jump offset => do
    Machine.modifyHart fun s => s.writeRd dec.rd (s.pc + pcOffset)
    pure offset
  | .branch taken => pure (if taken then BitVec.ofInt R.xlen dec.imm else pcOffset)
  | .load n signed va => do
    let t ← Machine.load port host n va
    Machine.modifyHart fun s => s.writeRd dec.rd (extend R n signed t)
    pure pcOffset
  | .store n va val => do
    Machine.store port n va val
    pure pcOffset
  | .lr n va => do
    Machine.modifyHart fun s => { s with lr := va }
    let t ← Machine.load port host n va
    Machine.modifyHart fun s => s.writeRd dec.rd (extend R n true t)
    pure pcOffset
  | .sc n va val => do
    let s ← .get
    if s.hart.lr ≠ va then do
      Machine.modifyHart fun s => s.writeRd dec.rd 1
      pure pcOffset
    else do
      Machine.store port n va val
      Machine.modifyHart fun s => s.writeRd dec.rd 0
      pure pcOffset
  | .amo n aop va val2 => do
    let t1 ← Machine.amo port host n aop va val2
    Machine.modifyHart fun s => s.writeRd dec.rd (extend R n true t1)
    pure pcOffset
  | .fload fmt va => do
    let t ← Machine.load port host (fmt.width / 8) va
    Machine.modifyHart fun s => s.writeFrd fmt dec.rd (BitVec.ofNat fmt.width t)
    pure pcOffset
  | .fstore fmt va val => do
    Machine.fstore port host fmt va val
    pure pcOffset
  | .setFrd fmt setrm v => do
    Machine.modifyHart fun s => if setrm then s.fenvSetrm else s
    Machine.modifyHart fun s => (s.runFp v).2.writeFrd fmt dec.rd (s.runFp v).1
    pure pcOffset
  | .fpSetRd setrm v => do
    Machine.modifyHart fun s => if setrm then s.fenvSetrm else s
    Machine.modifyHart fun s => if dec.rd = 0 then s.writeRd dec.rd 0 else (s.runFp v).2.writeRd dec.rd (s.runFp v).1
    pure pcOffset

end Run

/-! ## The switch -/

section Switch
variable {R : Rv} (host : Host) (s : Hart R) (dec : Decode)

/-- `r.w.val` or `r.wu.val` of an integer register. -/
def word (x : BitVec R.xlen) : BitVec 32 := x.setWidth 32

/-- An `s32` in a register. -/
def sext (x : BitVec 32) : BitVec R.xlen := x.signExtend R.xlen

def FpFmt.ext : FpFmt → Ext
  | .s => .f | .d => .d

/-! The shapes of the floating-point cases. -/

def fpFused (op : FusedOp) (fmt : FpFmt) : Option (Ext × Action R) :=
  some (fmt.ext, .setFrd fmt true (Host.onFenv
    (host.fused op fmt · (s.readFrs fmt dec.rs1) (s.readFrs fmt dec.rs2) (s.readFrs fmt dec.rs3))))

def fpArith (op : FpOp) (fmt : FpFmt) : Option (Ext × Action R) :=
  some (fmt.ext, .setFrd fmt true (Host.onFenv
    (host.arith op fmt · (s.readFrs fmt dec.rs1) (s.readFrs fmt dec.rs2))))

def fpCompare (compare : (fmt : FpFmt) → Fenv → BitVec fmt.width → BitVec fmt.width → Bool × Fenv) (fmt : FpFmt) :
    Option (Ext × Action R) :=
  some (fmt.ext, .fpSetRd false do
    let b ← Host.onFenv (compare fmt · (s.readFrs fmt dec.rs1) (s.readFrs fmt dec.rs2))
    pure (ofBit R.xlen b))

def fpSign (f : (fmt : FpFmt) → BitVec fmt.width → BitVec fmt.width → BitVec fmt.width) (fmt : FpFmt) :
    Option (Ext × Action R) :=
  some (fmt.ext, .setFrd fmt false (pure (f fmt (s.readFrs fmt dec.rs1) (s.readFrs fmt dec.rs2))))

/-- The case of the switch for an opcode, with the extension that guards it. -/
def action : RvOp → Option (Ext × Action R) :=
  let x1 := s.ireg dec.rs1
  let x2 := s.ireg dec.rs2
  let w1 := word x1
  let w2 := word x2
  let imm := BitVec.ofInt R.xlen dec.imm
  let shamt7 : Int := (x2 &&& 0b1111111).toNat
  let shamt5 : Int := (x2 &&& 0b11111).toNat
  let s1 := s.readFrs .s dec.rs1
  let s2 := s.readFrs .s dec.rs2
  let d1 := s.readFrs .d dec.rs1
  let d2 := s.readFrs .d dec.rs2
  -- the cases that only `exec_inst_rv64` has
  let rv64 (a : Ext × Action R) : Option (Ext × Action R) := if R = .rv64 then some a else none
  fun
  | .lui => some (.i, .setRd imm)
  | .auipc => some (.i, .setRd (s.pc + imm))
  | .jal => some (.i, .jump imm)
  | .jalr => some (.i, .jump ((x1 + imm - s.pc) &&& ~~~1))
  | .beq => some (.i, .branch (x1 = x2))
  | .bne => some (.i, .branch (x1 ≠ x2))
  | .blt => some (.i, .branch (x1.slt x2))
  | .bge => some (.i, .branch (!x1.slt x2))
  | .bltu => some (.i, .branch (x1 < x2))
  | .bgeu => some (.i, .branch (¬ x1 < x2))
  | .lb => some (.i, .load 1 true (x1 + imm))
  | .lh => some (.i, .load 2 true (x1 + imm))
  | .lw => some (.i, .load 4 true (x1 + imm))
  | .lbu => some (.i, .load 1 false (x1 + imm))
  | .lhu => some (.i, .load 2 false (x1 + imm))
  | .sb => some (.i, .store 1 (x1 + imm) (x2.toNat % 2 ^ 8))
  | .sh => some (.i, .store 2 (x1 + imm) (x2.toNat % 2 ^ 16))
  | .sw => some (.i, .store 4 (x1 + imm) w2.toNat)
  | .addi => some (.i, .setRd (x1 + imm))
  | .slti => some (.i, .setRd (ofBit R.xlen (x1.slt imm)))
  | .sltiu => some (.i, .setRd (ofBit R.xlen (x1 < imm)))
  | .xori => some (.i, .setRd (x1 ^^^ imm))
  | .ori => some (.i, .setRd (x1 ||| imm))
  | .andi => some (.i, .setRd (x1 &&& imm))
  | .slli => some (.i, .setRd (host.shift .shl x1 dec.imm))
  | .srli => some (.i, .setRd (host.shift .shr x1 dec.imm))
  | .srai => some (.i, .setRd (host.shift .sar x1 dec.imm))
  | .add => some (.i, .setRd (x1 + x2))
  | .sub => some (.i, .setRd (x1 - x2))
  | .sll => some (.i, .setRd (host.shift .shl x1 shamt7))
  | .slt => some (.i, .setRd (ofBit R.xlen (x1.slt x2)))
  | .sltu => some (.i, .setRd (ofBit R.xlen (x1 < x2)))
  | .xor => some (.i, .setRd (x1 ^^^ x2))
  | .srl => some (.i, .setRd (host.shift .shr x1 shamt7))
  | .sra => some (.i, .setRd (host.shift .sar x1 shamt7))
  | .or => some (.i, .setRd (x1 ||| x2))
  | .and => some (.i, .setRd (x1 &&& x2))
  | .lwu => rv64 (.i, .load 4 false (x1 + imm))
  | .ld => rv64 (.i, .load 8 true (x1 + imm))
  | .sd => rv64 (.i, .store 8 (x1 + imm) x2.toNat)
  | .addiw => rv64 (.i, .setRd (sext (w1 + BitVec.ofInt 32 dec.imm)))
  | .slliw => rv64 (.i, .setRd (sext (host.shift .shl w1 dec.imm)))
  | .srliw => rv64 (.i, .setRd (sext (host.shift .shr w1 dec.imm)))
  | .sraiw => rv64 (.i, .setRd (sext (host.shift .sar w1 dec.imm)))
  | .addw => rv64 (.i, .setRd (sext (w1 + w2)))
  | .subw => rv64 (.i, .setRd (sext (w1 - w2)))
  | .sllw => rv64 (.i, .setRd (sext (host.shift .shl w1 shamt5)))
  | .srlw => rv64 (.i, .setRd (sext (host.shift .shr w1 shamt5)))
  | .sraw => rv64 (.i, .setRd (sext (host.shift .sar w1 shamt5)))
  | .mul => some (.m, .setRd (x1 * x2))
  | .mulh => some (.m, .setRd (mulh x1 x2))
  | .mulhsu => some (.m, .setRd (mulhsu x1 x2))
  | .mulhu => some (.m, .setRd (mulhu x1 x2))
  | .div => some (.m, .setRd (div x1 x2))
  | .divu => some (.m, .setRd (divu x1 x2))
  | .rem => some (.m, .setRd (rem x1 x2))
  | .remu => some (.m, .setRd (remu x1 x2))
  | .mulw => rv64 (.m, .setRd (sext (w1 * w2)))
  | .divw => rv64 (.m, .setRd (sext (div w1 w2)))
  | .divuw => rv64 (.m, .setRd (sext (divu w1 w2)))
  | .remw => rv64 (.m, .setRd (sext (rem w1 w2)))
  | .remuw => rv64 (.m, .setRd (sext (remu w1 w2)))
  | .lr_w => some (.a, .lr 4 x1)
  | .sc_w => some (.a, .sc 4 x1 w2.toNat)
  | .amoswap_w => some (.a, .amo 4 .amoswap x1 w2.toNat)
  | .amoadd_w => some (.a, .amo 4 .amoadd x1 w2.toNat)
  | .amoxor_w => some (.a, .amo 4 .amoxor x1 w2.toNat)
  | .amoor_w => some (.a, .amo 4 .amoor x1 w2.toNat)
  | .amoand_w => some (.a, .amo 4 .amoand x1 w2.toNat)
  | .amomin_w => some (.a, .amo 4 .amomin x1 w2.toNat)
  | .amomax_w => some (.a, .amo 4 .amomax x1 w2.toNat)
  | .amominu_w => some (.a, .amo 4 .amominu x1 w2.toNat)
  | .amomaxu_w => some (.a, .amo 4 .amomaxu x1 w2.toNat)
  | .lr_d => rv64 (.a, .lr 8 x1)
  | .sc_d => rv64 (.a, .sc 8 x1 x2.toNat)
  | .amoswap_d => rv64 (.a, .amo 8 .amoswap x1 x2.toNat)
  | .amoadd_d => rv64 (.a, .amo 8 .amoadd x1 x2.toNat)
  | .amoxor_d => rv64 (.a, .amo 8 .amoxor x1 x2.toNat)
  | .amoor_d => rv64 (.a, .amo 8 .amoor x1 x2.toNat)
  | .amoand_d => rv64 (.a, .amo 8 .amoand x1 x2.toNat)
  | .amomin_d => rv64 (.a, .amo 8 .amomin x1 x2.toNat)
  | .amomax_d => rv64 (.a, .amo 8 .amomax x1 x2.toNat)
  | .amominu_d => rv64 (.a, .amo 8 .amominu x1 x2.toNat)
  | .amomaxu_d => rv64 (.a, .amo 8 .amomaxu x1 x2.toNat)
  | .flw => some (.f, .fload .s (x1 + imm))
  | .fsw => some (.f, .fstore .s (x1 + imm) s2)
  | .fmadd_s => fpFused host s dec .madd .s
  | .fmsub_s => fpFused host s dec .msub .s
  | .fnmsub_s => fpFused host s dec .nmsub .s
  | .fnmadd_s => fpFused host s dec .nmadd .s
  | .fadd_s => fpArith host s dec .add .s
  | .fsub_s => fpArith host s dec .sub .s
  | .fmul_s => fpArith host s dec .mul .s
  | .fdiv_s => fpArith host s dec .div .s
  | .fsgnj_s => fpSign s dec fsgnj .s
  | .fsgnjn_s => fpSign s dec fsgnjn .s
  | .fsgnjx_s => fpSign s dec fsgnjx .s
  | .fmin_s => some (.f, .setFrd .s false (Host.select .s (host.lt .s · s1 s2) s1 s2))
  | .fmax_s => some (.f, .setFrd .s false (Host.select .s (host.lt .s · s2 s1) s1 s2))
  | .fsqrt_s => some (.f, .setFrd .s true (Host.onFenv (host.sqrt .s · s1)))
  | .fle_s => fpCompare s dec host.le .s
  | .flt_s => fpCompare s dec host.lt .s
  | .feq_s => fpCompare s dec host.eq .s
  | .fcvt_w_s => some (.f, .fpSetRd true (sext <$> host.fcvt .s 32 s1))
  | .fcvt_wu_s => some (.f, .fpSetRd true (sext <$> host.fcvtu .s 32 s1))
  | .fcvt_s_w => some (.f, .setFrd .s true (Host.onFenv (host.ofInt .s · w1.toInt)))
  | .fcvt_s_wu => some (.f, .setFrd .s true (Host.onFenv (host.ofInt .s · w1.toNat)))
  | .fmv_x_s => some (.f, .setRd (sext (if FpFmt.s.isnan s1 then 0x7fc00000 else s1)))
  | .fclass_s => some (.f, .setRd (BitVec.ofNat R.xlen (FpFmt.s.classify s1)))
  | .fmv_s_x => some (.f, .setFrd .s false (pure w1))
  | .fcvt_l_s => rv64 (.f, .fpSetRd true (BitVec.setWidth R.xlen <$> host.fcvt .s 64 s1))
  | .fcvt_lu_s => rv64 (.f, .fpSetRd true (BitVec.setWidth R.xlen <$> host.fcvtu .s 64 s1))
  | .fcvt_s_l => rv64 (.f, .setFrd .s true (Host.onFenv (host.ofInt .s · x1.toInt)))
  | .fcvt_s_lu => rv64 (.f, .setFrd .s true (Host.onFenv (host.ofInt .s · x1.toNat)))
  | .fld => some (.d, .fload .d (x1 + imm))
  | .fsd => some (.d, .fstore .d (x1 + imm) d2)
  | .fmadd_d => fpFused host s dec .madd .d
  | .fmsub_d => fpFused host s dec .msub .d
  | .fnmsub_d => fpFused host s dec .nmsub .d
  | .fnmadd_d => fpFused host s dec .nmadd .d
  | .fadd_d => fpArith host s dec .add .d
  | .fsub_d => fpArith host s dec .sub .d
  | .fmul_d => fpArith host s dec .mul .d
  | .fdiv_d => fpArith host s dec .div .d
  | .fsgnj_d => fpSign s dec fsgnj .d
  | .fsgnjn_d => fpSign s dec fsgnjn .d
  | .fsgnjx_d => fpSign s dec fsgnjx .d
  | .fmin_d => some (.d, .setFrd .d false (Host.select .d (host.lt .d · d1 d2) d1 d2))
  | .fmax_d => some (.d, .setFrd .d false (Host.select .d (host.lt .d · d2 d1) d1 d2))
  | .fcvt_s_d => some (.d, .setFrd .s true (Host.onFenv (host.convert .d .s · d1)))
  | .fcvt_d_s => some (.d, .setFrd .d true (Host.onFenv (host.convert .s .d · s1)))
  | .fsqrt_d => some (.d, .setFrd .d true (Host.onFenv (host.sqrt .d · d1)))
  | .fle_d => fpCompare s dec host.le .d
  | .flt_d => fpCompare s dec host.lt .d
  | .feq_d => fpCompare s dec host.eq .d
  | .fcvt_w_d => some (.d, .fpSetRd true (sext <$> host.fcvt .d 32 d1))
  | .fcvt_wu_d => some (.d, .fpSetRd true (sext <$> host.fcvtu .d 32 d1))
  | .fcvt_d_w => some (.d, .setFrd .d true (Host.onFenv (host.ofInt .d · w1.toInt)))
  | .fcvt_d_wu => some (.d, .setFrd .d true (Host.onFenv (host.ofInt .d · w1.toNat)))
  | .fclass_d => some (.d, .setRd (BitVec.ofNat R.xlen (FpFmt.d.classify d1)))
  | .fcvt_l_d => rv64 (.d, .fpSetRd true (BitVec.setWidth R.xlen <$> host.fcvt .d 64 d1))
  | .fcvt_lu_d => rv64 (.d, .fpSetRd true (BitVec.setWidth R.xlen <$> host.fcvtu .d 64 d1))
  | .fmv_x_d => rv64 (.d, .setRd ((if FpFmt.d.isnan d1 then (0x7ff8000000000000 : BitVec 64) else d1).setWidth R.xlen))
  | .fcvt_d_l => rv64 (.d, .setFrd .d true (Host.onFenv (host.ofInt .d · x1.toInt)))
  | .fcvt_d_lu => rv64 (.d, .setFrd .d true (Host.onFenv (host.ofInt .d · x1.toNat)))
  | .fmv_d_x => rv64 (.d, .setFrd .d false (pure (x1.setWidth 64)))
  | _ => none

end Switch

/-! ## `exec_inst` -/

section Exec
variable {R : Rv} {σ : Type} (port : Port σ) (host : Host) (rv : Ext → Bool) (dec : Decode) (pcOffset : BitVec R.xlen)

/-- The offset to the next instruction, or -1 for an illegal instruction. -/
def execInst : Prog MmuExit (Machine R σ) (BitVec R.xlen) := do
  let s ← .get
  match action host s.hart dec dec.op with
  | none => pure Machine.illegal
  | some (ext, a) => if rv ext then a.run port host dec pcOffset else pure pcOffset

variable {port host rv dec pcOffset}

/-- An opcode without a case is illegal. -/
theorem execInst_of_none {s : Machine R σ} (ha : action host s.hart dec dec.op = none) :
    execInst port host rv dec pcOffset s = .ok Machine.illegal s := by
  show (match action host s.hart dec dec.op with
    | none => pure Machine.illegal
    | some (ext, a) => if rv ext then a.run port host dec pcOffset else pure pcOffset : Prog _ _ _) s = _
  rw [ha]
  rfl

theorem execInst_of_some {s : Machine R σ} {ext : Ext} {a : Action R} (ha : action host s.hart dec dec.op = some (ext, a)) :
    execInst port host rv dec pcOffset s =
      (if rv ext then a.run port host dec pcOffset else pure pcOffset : Prog MmuExit (Machine R σ) (BitVec R.xlen)) s := by
  show (match action host s.hart dec dec.op with
    | none => pure Machine.illegal
    | some (ext, a) => if rv ext then a.run port host dec pcOffset else pure pcOffset : Prog _ _ _) s = _
  rw [ha]

theorem execInst_of_action {s : Machine R σ} {ext : Ext} {a : Action R} (ha : action host s.hart dec dec.op = some (ext, a))
    (hext : rv ext = true) : execInst port host rv dec pcOffset s = a.run port host dec pcOffset s := by
  rw [execInst_of_some ha, if_pos hext]

theorem execInst_setRd {s : Machine R σ} {ext : Ext} {v : BitVec R.xlen}
    (ha : action host s.hart dec dec.op = some (ext, .setRd v)) (hext : rv ext = true) :
    execInst port host rv dec pcOffset s = .ok pcOffset { s with hart := s.hart.writeRd dec.rd v } :=
  execInst_of_action ha hext

theorem execInst_jump {s : Machine R σ} {ext : Ext} {offset : BitVec R.xlen}
    (ha : action host s.hart dec dec.op = some (ext, .jump offset)) (hext : rv ext = true) :
    execInst port host rv dec pcOffset s = .ok offset { s with hart := s.hart.writeRd dec.rd (s.hart.pc + pcOffset) } :=
  execInst_of_action ha hext

end Exec

section Widths
variable {σ : Type} (port : Port σ) (host : Host) (rv : Ext → Bool) (dec : Decode)

def execInstRv32 (pcOffset : BitVec 32) : Prog MmuExit (Machine .rv32 σ) (BitVec 32) :=
  execInst (R := .rv32) port host rv dec pcOffset

def execInstRv64 (pcOffset : BitVec 64) : Prog MmuExit (Machine .rv64 σ) (BitVec 64) :=
  execInst (R := .rv64) port host rv dec pcOffset

end Widths

end Rv8.Emu
