import Rv8.Asm.LoadImm
/-!
# Emitters

The functions of `jit.cc`, one for each opcode that is not compressed. They are
generated from one scheme: an argument is checked against the width of its type and
assigned to a field of a record, and the record is encoded. A function is so given by
its opcode and by the types and fields of its arguments.
-/

namespace Rv8.Asm

/-! ## The scheme -/

/-- `offset_t<W>`, `simm_t<W>` and `uimm_t<W>`; registers and flags are `uimm_t` as well. -/
inductive ArgType
  | offset (w : Nat)
  | simm (w : Nat)
  | uimm (w : Nat)
deriving DecidableEq

namespace ArgType

/-- The argument as the type keeps it. -/
def value : ArgType → BitVec 64 → Int
  | .offset _, a | .simm _, a => a.toInt
  | .uimm _, a => a.toNat

def valid : ArgType → BitVec 64 → Bool
  | .offset w, a | .simm w, a => simmValid w a.toInt
  | .uimm w, a => uimmValid w a.toNat

end ArgType

/-- The fields of the record that are assigned. -/
inductive Field
  | imm | rd | rs1 | rs2 | rs3 | rm | aq | rl | pred | succ
deriving DecidableEq

/-- `dec.field = v` -/
def Decode.assign (dec : Decode) (v : Int) : Field → Decode
  | .imm => { dec with imm := s32 v }
  | .rd => { dec with rd := u8 v }
  | .rs1 => { dec with rs1 := u8 v }
  | .rs2 => { dec with rs2 := u8 v }
  | .rs3 => { dec with rs3 := u8 v }
  | .rm => { dec with rm := bitField 3 v }
  | .aq => { dec with aq := bitField 1 v }
  | .rl => { dec with rl := bitField 1 v }
  | .pred => { dec with pred := bitField 4 v }
  | .succ => { dec with succ := bitField 4 v }

structure Param where
  type : ArgType
  field : Field
deriving DecidableEq

/-- An emit function. -/
structure Emit where
  op : RvOp
  params : List Param
deriving DecidableEq

namespace Emit

/-- The assignments, in the order of the arguments. -/
def record (e : Emit) (args : List (BitVec 64)) : Decode :=
  (e.params.zip args).foldl (fun dec a => dec.assign (a.1.type.value a.2) a.1.field) { op := e.op }

def run (e : Emit) (args : List (BitVec 64)) : Option Nat :=
  emitInst ((e.params.zip args).all fun a => a.1.type.valid a.2) (e.record args)

/-! The shapes of argument lists. -/

def rdImm20 (op : RvOp) : Emit := ⟨op, [⟨.uimm 5, .rd⟩, ⟨.simm 32, .imm⟩]⟩
def rdOimm20 (op : RvOp) : Emit := ⟨op, [⟨.uimm 5, .rd⟩, ⟨.offset 32, .imm⟩]⟩
def rdJimm20 (op : RvOp) : Emit := ⟨op, [⟨.uimm 5, .rd⟩, ⟨.offset 21, .imm⟩]⟩
def rdRs1Imm12 (op : RvOp) : Emit := ⟨op, [⟨.uimm 5, .rd⟩, ⟨.uimm 5, .rs1⟩, ⟨.simm 12, .imm⟩]⟩
def rs1Rs2Sbimm12 (op : RvOp) : Emit := ⟨op, [⟨.uimm 5, .rs1⟩, ⟨.uimm 5, .rs2⟩, ⟨.offset 13, .imm⟩]⟩
def rdRs1Oimm12 (op : RvOp) : Emit := ⟨op, [⟨.uimm 5, .rd⟩, ⟨.uimm 5, .rs1⟩, ⟨.offset 12, .imm⟩]⟩
def rs1Rs2Simm12 (op : RvOp) : Emit := ⟨op, [⟨.uimm 5, .rs1⟩, ⟨.uimm 5, .rs2⟩, ⟨.offset 12, .imm⟩]⟩
def rdRs1Shamt (w : Nat) (op : RvOp) : Emit := ⟨op, [⟨.uimm 5, .rd⟩, ⟨.uimm 5, .rs1⟩, ⟨.uimm w, .imm⟩]⟩
def rdRs1Rs2 (op : RvOp) : Emit := ⟨op, [⟨.uimm 5, .rd⟩, ⟨.uimm 5, .rs1⟩, ⟨.uimm 5, .rs2⟩]⟩
def predSucc (op : RvOp) : Emit := ⟨op, [⟨.uimm 4, .pred⟩, ⟨.uimm 4, .succ⟩]⟩
def noArgs (op : RvOp) : Emit := ⟨op, []⟩
def rdRs1AqRl (op : RvOp) : Emit := ⟨op, [⟨.uimm 5, .rd⟩, ⟨.uimm 5, .rs1⟩, ⟨.uimm 1, .aq⟩, ⟨.uimm 1, .rl⟩]⟩
def rdRs1Rs2AqRl (op : RvOp) : Emit := ⟨op, [⟨.uimm 5, .rd⟩, ⟨.uimm 5, .rs1⟩, ⟨.uimm 5, .rs2⟩, ⟨.uimm 1, .aq⟩, ⟨.uimm 1, .rl⟩]⟩
def rs1 (op : RvOp) : Emit := ⟨op, [⟨.uimm 5, .rs1⟩]⟩
def rdRs1Csr (op : RvOp) : Emit := ⟨op, [⟨.uimm 5, .rd⟩, ⟨.uimm 5, .rs1⟩, ⟨.uimm 12, .imm⟩]⟩
/-- Both the immediate and the number of the register are assigned to `imm`. -/
def rdZimmCsr (op : RvOp) : Emit := ⟨op, [⟨.uimm 5, .rd⟩, ⟨.uimm 5, .imm⟩, ⟨.uimm 12, .imm⟩]⟩
def rdRs1Rs2Rs3Rm (op : RvOp) : Emit := ⟨op, [⟨.uimm 5, .rd⟩, ⟨.uimm 5, .rs1⟩, ⟨.uimm 5, .rs2⟩, ⟨.uimm 5, .rs3⟩, ⟨.uimm 3, .rm⟩]⟩
def rdRs1Rs2Rm (op : RvOp) : Emit := ⟨op, [⟨.uimm 5, .rd⟩, ⟨.uimm 5, .rs1⟩, ⟨.uimm 5, .rs2⟩, ⟨.uimm 3, .rm⟩]⟩
def rdRs1Rm (op : RvOp) : Emit := ⟨op, [⟨.uimm 5, .rd⟩, ⟨.uimm 5, .rs1⟩, ⟨.uimm 3, .rm⟩]⟩
def rdRs1 (op : RvOp) : Emit := ⟨op, [⟨.uimm 5, .rd⟩, ⟨.uimm 5, .rs1⟩]⟩

/-! ## The functions -/

def lui : Emit := rdImm20 .lui
def auipc : Emit := rdOimm20 .auipc
def jal : Emit := rdJimm20 .jal
def jalr : Emit := rdRs1Imm12 .jalr
def beq : Emit := rs1Rs2Sbimm12 .beq
def bne : Emit := rs1Rs2Sbimm12 .bne
def blt : Emit := rs1Rs2Sbimm12 .blt
def bge : Emit := rs1Rs2Sbimm12 .bge
def bltu : Emit := rs1Rs2Sbimm12 .bltu
def bgeu : Emit := rs1Rs2Sbimm12 .bgeu
def lb : Emit := rdRs1Oimm12 .lb
def lh : Emit := rdRs1Oimm12 .lh
def lw : Emit := rdRs1Oimm12 .lw
def lbu : Emit := rdRs1Oimm12 .lbu
def lhu : Emit := rdRs1Oimm12 .lhu
def sb : Emit := rs1Rs2Simm12 .sb
def sh : Emit := rs1Rs2Simm12 .sh
def sw : Emit := rs1Rs2Simm12 .sw
def addi : Emit := rdRs1Imm12 .addi
def slti : Emit := rdRs1Imm12 .slti
def sltiu : Emit := rdRs1Imm12 .sltiu
def xori : Emit := rdRs1Imm12 .xori
def ori : Emit := rdRs1Imm12 .ori
def andi : Emit := rdRs1Imm12 .andi
def slli : Emit := rdRs1Shamt 7 .slli
def srli : Emit := rdRs1Shamt 7 .srli
def srai : Emit := rdRs1Shamt 7 .srai
def add : Emit := rdRs1Rs2 .add
def sub : Emit := rdRs1Rs2 .sub
def sll : Emit := rdRs1Rs2 .sll
def slt : Emit := rdRs1Rs2 .slt
def sltu : Emit := rdRs1Rs2 .sltu
def xor : Emit := rdRs1Rs2 .xor
def srl : Emit := rdRs1Rs2 .srl
def sra : Emit := rdRs1Rs2 .sra
def or : Emit := rdRs1Rs2 .or
def and : Emit := rdRs1Rs2 .and
def fence : Emit := predSucc .fence
def fence_i : Emit := noArgs .fence_i
def lwu : Emit := rdRs1Oimm12 .lwu
def ld : Emit := rdRs1Oimm12 .ld
def sd : Emit := rs1Rs2Simm12 .sd
def addiw : Emit := rdRs1Imm12 .addiw
def slliw : Emit := rdRs1Shamt 5 .slliw
def srliw : Emit := rdRs1Shamt 5 .srliw
def sraiw : Emit := rdRs1Shamt 5 .sraiw
def addw : Emit := rdRs1Rs2 .addw
def subw : Emit := rdRs1Rs2 .subw
def sllw : Emit := rdRs1Rs2 .sllw
def srlw : Emit := rdRs1Rs2 .srlw
def sraw : Emit := rdRs1Rs2 .sraw
def ldu : Emit := rdRs1Oimm12 .ldu
def lq : Emit := rdRs1Oimm12 .lq
def sq : Emit := rs1Rs2Simm12 .sq
def addid : Emit := rdRs1Imm12 .addid
def sllid : Emit := rdRs1Shamt 6 .sllid
def srlid : Emit := rdRs1Shamt 6 .srlid
def sraid : Emit := rdRs1Shamt 6 .sraid
def addd : Emit := rdRs1Rs2 .addd
def subd : Emit := rdRs1Rs2 .subd
def slld : Emit := rdRs1Rs2 .slld
def srld : Emit := rdRs1Rs2 .srld
def srad : Emit := rdRs1Rs2 .srad
def mul : Emit := rdRs1Rs2 .mul
def mulh : Emit := rdRs1Rs2 .mulh
def mulhsu : Emit := rdRs1Rs2 .mulhsu
def mulhu : Emit := rdRs1Rs2 .mulhu
def div : Emit := rdRs1Rs2 .div
def divu : Emit := rdRs1Rs2 .divu
def rem : Emit := rdRs1Rs2 .rem
def remu : Emit := rdRs1Rs2 .remu
def mulw : Emit := rdRs1Rs2 .mulw
def divw : Emit := rdRs1Rs2 .divw
def divuw : Emit := rdRs1Rs2 .divuw
def remw : Emit := rdRs1Rs2 .remw
def remuw : Emit := rdRs1Rs2 .remuw
def muld : Emit := rdRs1Rs2 .muld
def divd : Emit := rdRs1Rs2 .divd
def divud : Emit := rdRs1Rs2 .divud
def remd : Emit := rdRs1Rs2 .remd
def remud : Emit := rdRs1Rs2 .remud
def lr_w : Emit := rdRs1AqRl .lr_w
def sc_w : Emit := rdRs1Rs2AqRl .sc_w
def amoswap_w : Emit := rdRs1Rs2AqRl .amoswap_w
def amoadd_w : Emit := rdRs1Rs2AqRl .amoadd_w
def amoxor_w : Emit := rdRs1Rs2AqRl .amoxor_w
def amoor_w : Emit := rdRs1Rs2AqRl .amoor_w
def amoand_w : Emit := rdRs1Rs2AqRl .amoand_w
def amomin_w : Emit := rdRs1Rs2AqRl .amomin_w
def amomax_w : Emit := rdRs1Rs2AqRl .amomax_w
def amominu_w : Emit := rdRs1Rs2AqRl .amominu_w
def amomaxu_w : Emit := rdRs1Rs2AqRl .amomaxu_w
def lr_d : Emit := rdRs1AqRl .lr_d
def sc_d : Emit := rdRs1Rs2AqRl .sc_d
def amoswap_d : Emit := rdRs1Rs2AqRl .amoswap_d
def amoadd_d : Emit := rdRs1Rs2AqRl .amoadd_d
def amoxor_d : Emit := rdRs1Rs2AqRl .amoxor_d
def amoor_d : Emit := rdRs1Rs2AqRl .amoor_d
def amoand_d : Emit := rdRs1Rs2AqRl .amoand_d
def amomin_d : Emit := rdRs1Rs2AqRl .amomin_d
def amomax_d : Emit := rdRs1Rs2AqRl .amomax_d
def amominu_d : Emit := rdRs1Rs2AqRl .amominu_d
def amomaxu_d : Emit := rdRs1Rs2AqRl .amomaxu_d
def lr_q : Emit := rdRs1AqRl .lr_q
def sc_q : Emit := rdRs1Rs2AqRl .sc_q
def amoswap_q : Emit := rdRs1Rs2AqRl .amoswap_q
def amoadd_q : Emit := rdRs1Rs2AqRl .amoadd_q
def amoxor_q : Emit := rdRs1Rs2AqRl .amoxor_q
def amoor_q : Emit := rdRs1Rs2AqRl .amoor_q
def amoand_q : Emit := rdRs1Rs2AqRl .amoand_q
def amomin_q : Emit := rdRs1Rs2AqRl .amomin_q
def amomax_q : Emit := rdRs1Rs2AqRl .amomax_q
def amominu_q : Emit := rdRs1Rs2AqRl .amominu_q
def amomaxu_q : Emit := rdRs1Rs2AqRl .amomaxu_q
def ecall : Emit := noArgs .ecall
def ebreak : Emit := noArgs .ebreak
def uret : Emit := noArgs .uret
def sret : Emit := noArgs .sret
def hret : Emit := noArgs .hret
def mret : Emit := noArgs .mret
def dret : Emit := noArgs .dret
def sfence_vm : Emit := rs1 .sfence_vm
def wfi : Emit := noArgs .wfi
def csrrw : Emit := rdRs1Csr .csrrw
def csrrs : Emit := rdRs1Csr .csrrs
def csrrc : Emit := rdRs1Csr .csrrc
def csrrwi : Emit := rdZimmCsr .csrrwi
def csrrsi : Emit := rdZimmCsr .csrrsi
def csrrci : Emit := rdZimmCsr .csrrci
def flw : Emit := rdRs1Oimm12 .flw
def fsw : Emit := rs1Rs2Simm12 .fsw
def fmadd_s : Emit := rdRs1Rs2Rs3Rm .fmadd_s
def fmsub_s : Emit := rdRs1Rs2Rs3Rm .fmsub_s
def fnmsub_s : Emit := rdRs1Rs2Rs3Rm .fnmsub_s
def fnmadd_s : Emit := rdRs1Rs2Rs3Rm .fnmadd_s
def fadd_s : Emit := rdRs1Rs2Rm .fadd_s
def fsub_s : Emit := rdRs1Rs2Rm .fsub_s
def fmul_s : Emit := rdRs1Rs2Rm .fmul_s
def fdiv_s : Emit := rdRs1Rs2Rm .fdiv_s
def fsgnj_s : Emit := rdRs1Rs2 .fsgnj_s
def fsgnjn_s : Emit := rdRs1Rs2 .fsgnjn_s
def fsgnjx_s : Emit := rdRs1Rs2 .fsgnjx_s
def fmin_s : Emit := rdRs1Rs2 .fmin_s
def fmax_s : Emit := rdRs1Rs2 .fmax_s
def fsqrt_s : Emit := rdRs1Rm .fsqrt_s
def fle_s : Emit := rdRs1Rs2 .fle_s
def flt_s : Emit := rdRs1Rs2 .flt_s
def feq_s : Emit := rdRs1Rs2 .feq_s
def fcvt_w_s : Emit := rdRs1Rm .fcvt_w_s
def fcvt_wu_s : Emit := rdRs1Rm .fcvt_wu_s
def fcvt_s_w : Emit := rdRs1Rm .fcvt_s_w
def fcvt_s_wu : Emit := rdRs1Rm .fcvt_s_wu
def fmv_x_s : Emit := rdRs1 .fmv_x_s
def fclass_s : Emit := rdRs1 .fclass_s
def fmv_s_x : Emit := rdRs1 .fmv_s_x
def fcvt_l_s : Emit := rdRs1Rm .fcvt_l_s
def fcvt_lu_s : Emit := rdRs1Rm .fcvt_lu_s
def fcvt_s_l : Emit := rdRs1Rm .fcvt_s_l
def fcvt_s_lu : Emit := rdRs1Rm .fcvt_s_lu
def fld : Emit := rdRs1Oimm12 .fld
def fsd : Emit := rs1Rs2Simm12 .fsd
def fmadd_d : Emit := rdRs1Rs2Rs3Rm .fmadd_d
def fmsub_d : Emit := rdRs1Rs2Rs3Rm .fmsub_d
def fnmsub_d : Emit := rdRs1Rs2Rs3Rm .fnmsub_d
def fnmadd_d : Emit := rdRs1Rs2Rs3Rm .fnmadd_d
def fadd_d : Emit := rdRs1Rs2Rm .fadd_d
def fsub_d : Emit := rdRs1Rs2Rm .fsub_d
def fmul_d : Emit := rdRs1Rs2Rm .fmul_d
def fdiv_d : Emit := rdRs1Rs2Rm .fdiv_d
def fsgnj_d : Emit := rdRs1Rs2 .fsgnj_d
def fsgnjn_d : Emit := rdRs1Rs2 .fsgnjn_d
def fsgnjx_d : Emit := rdRs1Rs2 .fsgnjx_d
def fmin_d : Emit := rdRs1Rs2 .fmin_d
def fmax_d : Emit := rdRs1Rs2 .fmax_d
def fcvt_s_d : Emit := rdRs1Rm .fcvt_s_d
def fcvt_d_s : Emit := rdRs1Rm .fcvt_d_s
def fsqrt_d : Emit := rdRs1Rm .fsqrt_d
def fle_d : Emit := rdRs1Rs2 .fle_d
def flt_d : Emit := rdRs1Rs2 .flt_d
def feq_d : Emit := rdRs1Rs2 .feq_d
def fcvt_w_d : Emit := rdRs1Rm .fcvt_w_d
def fcvt_wu_d : Emit := rdRs1Rm .fcvt_wu_d
def fcvt_d_w : Emit := rdRs1Rm .fcvt_d_w
def fcvt_d_wu : Emit := rdRs1Rm .fcvt_d_wu
def fclass_d : Emit := rdRs1 .fclass_d
def fcvt_l_d : Emit := rdRs1Rm .fcvt_l_d
def fcvt_lu_d : Emit := rdRs1Rm .fcvt_lu_d
def fmv_x_d : Emit := rdRs1 .fmv_x_d
def fcvt_d_l : Emit := rdRs1Rm .fcvt_d_l
def fcvt_d_lu : Emit := rdRs1Rm .fcvt_d_lu
def fmv_d_x : Emit := rdRs1 .fmv_d_x
def flq : Emit := rdRs1Oimm12 .flq
def fsq : Emit := rs1Rs2Simm12 .fsq
def fmadd_q : Emit := rdRs1Rs2Rs3Rm .fmadd_q
def fmsub_q : Emit := rdRs1Rs2Rs3Rm .fmsub_q
def fnmsub_q : Emit := rdRs1Rs2Rs3Rm .fnmsub_q
def fnmadd_q : Emit := rdRs1Rs2Rs3Rm .fnmadd_q
def fadd_q : Emit := rdRs1Rs2Rm .fadd_q
def fsub_q : Emit := rdRs1Rs2Rm .fsub_q
def fmul_q : Emit := rdRs1Rs2Rm .fmul_q
def fdiv_q : Emit := rdRs1Rs2Rm .fdiv_q
def fsgnj_q : Emit := rdRs1Rs2 .fsgnj_q
def fsgnjn_q : Emit := rdRs1Rs2 .fsgnjn_q
def fsgnjx_q : Emit := rdRs1Rs2 .fsgnjx_q
def fmin_q : Emit := rdRs1Rs2 .fmin_q
def fmax_q : Emit := rdRs1Rs2 .fmax_q
def fcvt_s_q : Emit := rdRs1Rm .fcvt_s_q
def fcvt_q_s : Emit := rdRs1Rm .fcvt_q_s
def fcvt_d_q : Emit := rdRs1Rm .fcvt_d_q
def fcvt_q_d : Emit := rdRs1Rm .fcvt_q_d
def fsqrt_q : Emit := rdRs1Rm .fsqrt_q
def fle_q : Emit := rdRs1Rs2 .fle_q
def flt_q : Emit := rdRs1Rs2 .flt_q
def feq_q : Emit := rdRs1Rs2 .feq_q
def fcvt_w_q : Emit := rdRs1Rm .fcvt_w_q
def fcvt_wu_q : Emit := rdRs1Rm .fcvt_wu_q
def fcvt_q_w : Emit := rdRs1Rm .fcvt_q_w
def fcvt_q_wu : Emit := rdRs1Rm .fcvt_q_wu
def fclass_q : Emit := rdRs1 .fclass_q
def fcvt_l_q : Emit := rdRs1Rm .fcvt_l_q
def fcvt_lu_q : Emit := rdRs1Rm .fcvt_lu_q
def fcvt_q_l : Emit := rdRs1Rm .fcvt_q_l
def fcvt_q_lu : Emit := rdRs1Rm .fcvt_q_lu
def fmv_x_q : Emit := rdRs1 .fmv_x_q
def fmv_q_x : Emit := rdRs1 .fmv_q_x

/-- All of them. -/
def all : List Emit := [
  lui, auipc, jal, jalr, beq, bne, blt, bge, bltu, bgeu, lb, lh, lw, lbu, lhu, sb, sh, sw, addi, slti, sltiu, xori, ori,
  andi, slli, srli, srai, add, sub, sll, slt, sltu, xor, srl, sra, or, and, fence, fence_i, lwu, ld, sd, addiw, slliw,
  srliw, sraiw, addw, subw, sllw, srlw, sraw, ldu, lq, sq, addid, sllid, srlid, sraid, addd, subd, slld, srld, srad, mul,
  mulh, mulhsu, mulhu, div, divu, rem, remu, mulw, divw, divuw, remw, remuw, muld, divd, divud, remd, remud, lr_w, sc_w,
  amoswap_w, amoadd_w, amoxor_w, amoor_w, amoand_w, amomin_w, amomax_w, amominu_w, amomaxu_w, lr_d, sc_d, amoswap_d,
  amoadd_d, amoxor_d, amoor_d, amoand_d, amomin_d, amomax_d, amominu_d, amomaxu_d, lr_q, sc_q, amoswap_q, amoadd_q,
  amoxor_q, amoor_q, amoand_q, amomin_q, amomax_q, amominu_q, amomaxu_q, ecall, ebreak, uret, sret, hret, mret, dret,
  sfence_vm, wfi, csrrw, csrrs, csrrc, csrrwi, csrrsi, csrrci, flw, fsw, fmadd_s, fmsub_s, fnmsub_s, fnmadd_s, fadd_s,
  fsub_s, fmul_s, fdiv_s, fsgnj_s, fsgnjn_s, fsgnjx_s, fmin_s, fmax_s, fsqrt_s, fle_s, flt_s, feq_s, fcvt_w_s, fcvt_wu_s,
  fcvt_s_w, fcvt_s_wu, fmv_x_s, fclass_s, fmv_s_x, fcvt_l_s, fcvt_lu_s, fcvt_s_l, fcvt_s_lu, fld, fsd, fmadd_d, fmsub_d,
  fnmsub_d, fnmadd_d, fadd_d, fsub_d, fmul_d, fdiv_d, fsgnj_d, fsgnjn_d, fsgnjx_d, fmin_d, fmax_d, fcvt_s_d, fcvt_d_s,
  fsqrt_d, fle_d, flt_d, feq_d, fcvt_w_d, fcvt_wu_d, fcvt_d_w, fcvt_d_wu, fclass_d, fcvt_l_d, fcvt_lu_d, fmv_x_d, fcvt_d_l,
  fcvt_d_lu, fmv_d_x, flq, fsq, fmadd_q, fmsub_q, fnmsub_q, fnmadd_q, fadd_q, fsub_q, fmul_q, fdiv_q, fsgnj_q, fsgnjn_q,
  fsgnjx_q, fmin_q, fmax_q, fcvt_s_q, fcvt_q_s, fcvt_d_q, fcvt_q_d, fsqrt_q, fle_q, flt_q, feq_q, fcvt_w_q, fcvt_wu_q,
  fcvt_q_w, fcvt_q_wu, fclass_q, fcvt_l_q, fcvt_lu_q, fcvt_q_l, fcvt_q_lu, fmv_x_q, fmv_q_x]

end Emit

end Rv8.Asm
