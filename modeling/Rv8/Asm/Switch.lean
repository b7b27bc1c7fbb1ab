import Rv8.Lib.BitTree
import Rv8.Asm.Codec
/-!
# The opcode decision tree

`decode_inst_op` of `switch.h`: nested switches on groups of instruction bits,
with a test of the enabled extensions at each leaf. The tree is data, so that
it can be evaluated on a word and also explored path by path.
-/

namespace Rv8.Asm

open Rv8.Lib.BitTree

/-- The template parameters of `decode_inst_op`. -/
inductive Flag where
  | rv32 | rv64 | rv128 | rvi | rvm | rva | rvs | rvf | rvd | rvq | rvc
deriving DecidableEq, Repr

/-- An `if ... else if ...` chain over the flags; the opcode stays illegal when none applies. -/
abbrev Leaf := List (List Flag × RvOp)

def Leaf.op (l : Leaf) (enabled : Flag → Bool) : RvOp :=
  match l.find? fun c => c.1.all enabled with
  | some c => c.2
  | none => .illegal

def ifOp (flags : List Flag) (op : RvOp) : Decision Leaf := .leaf [(flags, op)]

def noOp : Decision Leaf := .leaf []

/-- `inst[6:2] = 11`: atomics. -/
def decodeAmo : Decision Leaf :=
  switch [(24, 0b11111000), (12, 0b00000111)] [
    (2, ifOp [.rva] .amoadd_w), (3, ifOp [.rva] .amoadd_d), (4, ifOp [.rva, .rv128] .amoadd_q),
    (10, ifOp [.rva] .amoswap_w), (11, ifOp [.rva] .amoswap_d), (12, ifOp [.rva, .rv128] .amoswap_q),
    (18, switch [(20, 0b11111)] [
      (0, ifOp [.rva] .lr_w)] noOp),
    (19, switch [(20, 0b11111)] [
      (0, ifOp [.rva] .lr_d)] noOp),
    (20, switch [(20, 0b11111)] [
      (0, ifOp [.rva, .rv128] .lr_q)] noOp),
    (26, ifOp [.rva] .sc_w), (27, ifOp [.rva] .sc_d), (28, ifOp [.rva, .rv128] .sc_q), (34, ifOp [.rva] .amoxor_w),
    (35, ifOp [.rva] .amoxor_d), (36, ifOp [.rva, .rv128] .amoxor_q), (66, ifOp [.rva] .amoor_w),
    (67, ifOp [.rva] .amoor_d), (68, ifOp [.rva, .rv128] .amoor_q), (98, ifOp [.rva] .amoand_w),
    (99, ifOp [.rva] .amoand_d), (100, ifOp [.rva, .rv128] .amoand_q), (130, ifOp [.rva] .amomin_w),
    (131, ifOp [.rva] .amomin_d), (132, ifOp [.rva, .rv128] .amomin_q), (162, ifOp [.rva] .amomax_w),
    (163, ifOp [.rva] .amomax_d), (164, ifOp [.rva, .rv128] .amomax_q), (194, ifOp [.rva] .amominu_w),
    (195, ifOp [.rva] .amominu_d), (196, ifOp [.rva, .rv128] .amominu_q), (226, ifOp [.rva] .amomaxu_w),
    (227, ifOp [.rva] .amomaxu_d), (228, ifOp [.rva, .rv128] .amomaxu_q)] noOp

/-- `inst[6:2] = 12`: register-register operations. -/
def decodeOp : Decision Leaf :=
  switch [(22, 0b1111111000), (12, 0b0000000111)] [
    (0, ifOp [.rvi] .add), (1, ifOp [.rvi] .sll), (2, ifOp [.rvi] .slt), (3, ifOp [.rvi] .sltu),
    (4, ifOp [.rvi] .xor), (5, ifOp [.rvi] .srl), (6, ifOp [.rvi] .or), (7, ifOp [.rvi] .and),
    (8, ifOp [.rvm] .mul), (9, ifOp [.rvm] .mulh), (10, ifOp [.rvm] .mulhsu), (11, ifOp [.rvm] .mulhu),
    (12, ifOp [.rvm] .div), (13, ifOp [.rvm] .divu), (14, ifOp [.rvm] .rem), (15, ifOp [.rvm] .remu),
    (256, ifOp [.rvi] .sub), (261, ifOp [.rvi] .sra)] noOp

/-- `inst[6:2] = 20`: floating point operations. -/
def decodeOpFp : Decision Leaf :=
  switch [(25, 0b1111111)] [
    (0, ifOp [.rvf] .fadd_s), (1, ifOp [.rvd] .fadd_d), (3, ifOp [.rvq] .fadd_q), (4, ifOp [.rvf] .fsub_s),
    (5, ifOp [.rvd] .fsub_d), (7, ifOp [.rvq] .fsub_q), (8, ifOp [.rvf] .fmul_s), (9, ifOp [.rvd] .fmul_d),
    (11, ifOp [.rvq] .fmul_q), (12, ifOp [.rvf] .fdiv_s), (13, ifOp [.rvd] .fdiv_d), (15, ifOp [.rvq] .fdiv_q),
    (16, switch [(12, 0b111)] [
      (0, ifOp [.rvf] .fsgnj_s), (1, ifOp [.rvf] .fsgnjn_s), (2, ifOp [.rvf] .fsgnjx_s)] noOp),
    (17, switch [(12, 0b111)] [
      (0, ifOp [.rvd] .fsgnj_d), (1, ifOp [.rvd] .fsgnjn_d), (2, ifOp [.rvd] .fsgnjx_d)] noOp),
    (19, switch [(12, 0b111)] [
      (0, ifOp [.rvq] .fsgnj_q), (1, ifOp [.rvq] .fsgnjn_q), (2, ifOp [.rvq] .fsgnjx_q)] noOp),
    (20, switch [(12, 0b111)] [
      (0, ifOp [.rvf] .fmin_s), (1, ifOp [.rvf] .fmax_s)] noOp),
    (21, switch [(12, 0b111)] [
      (0, ifOp [.rvd] .fmin_d), (1, ifOp [.rvd] .fmax_d)] noOp),
    (23, switch [(12, 0b111)] [
      (0, ifOp [.rvq] .fmin_q), (1, ifOp [.rvq] .fmax_q)] noOp),
    (32, switch [(20, 0b11111)] [
      (1, ifOp [.rvd] .fcvt_s_d), (3, ifOp [.rvq] .fcvt_s_q)] noOp),
    (33, switch [(20, 0b11111)] [
      (0, ifOp [.rvd] .fcvt_d_s), (3, ifOp [.rvq] .fcvt_d_q)] noOp),
    (35, switch [(20, 0b11111)] [
      (0, ifOp [.rvq] .fcvt_q_s), (1, ifOp [.rvq] .fcvt_q_d)] noOp),
    (44, switch [(20, 0b11111)] [
      (0, ifOp [.rvf] .fsqrt_s)] noOp),
    (45, switch [(20, 0b11111)] [
      (0, ifOp [.rvd] .fsqrt_d)] noOp),
    (47, switch [(20, 0b11111)] [
      (0, ifOp [.rvq] .fsqrt_q)] noOp),
    (80, switch [(12, 0b111)] [
      (0, ifOp [.rvf] .fle_s), (1, ifOp [.rvf] .flt_s), (2, ifOp [.rvf] .feq_s)] noOp),
    (81, switch [(12, 0b111)] [
      (0, ifOp [.rvd] .fle_d), (1, ifOp [.rvd] .flt_d), (2, ifOp [.rvd] .feq_d)] noOp),
    (83, switch [(12, 0b111)] [
      (0, ifOp [.rvq] .fle_q), (1, ifOp [.rvq] .flt_q), (2, ifOp [.rvq] .feq_q)] noOp),
    (96, switch [(20, 0b11111)] [
      (0, ifOp [.rvf] .fcvt_w_s), (1, ifOp [.rvf] .fcvt_wu_s), (2, ifOp [.rvf] .fcvt_l_s),
      (3, ifOp [.rvf] .fcvt_lu_s)] noOp),
    (97, switch [(20, 0b11111)] [
      (0, ifOp [.rvd] .fcvt_w_d), (1, ifOp [.rvd] .fcvt_wu_d), (2, ifOp [.rvd] .fcvt_l_d),
      (3, ifOp [.rvd] .fcvt_lu_d)] noOp),
    (99, switch [(20, 0b11111)] [
      (0, ifOp [.rvq] .fcvt_w_q), (1, ifOp [.rvq] .fcvt_wu_q), (2, ifOp [.rvq] .fcvt_l_q),
      (3, ifOp [.rvq] .fcvt_lu_q)] noOp),
    (104, switch [(20, 0b11111)] [
      (0, ifOp [.rvf] .fcvt_s_w), (1, ifOp [.rvf] .fcvt_s_wu), (2, ifOp [.rvf] .fcvt_s_l),
      (3, ifOp [.rvf] .fcvt_s_lu)] noOp),
    (105, switch [(20, 0b11111)] [
      (0, ifOp [.rvd] .fcvt_d_w), (1, ifOp [.rvd] .fcvt_d_wu), (2, ifOp [.rvd] .fcvt_d_l),
      (3, ifOp [.rvd] .fcvt_d_lu)] noOp),
    (107, switch [(20, 0b11111)] [
      (0, ifOp [.rvq] .fcvt_q_w), (1, ifOp [.rvq] .fcvt_q_wu), (2, ifOp [.rvq] .fcvt_q_l),
      (3, ifOp [.rvq] .fcvt_q_lu)] noOp),
    (112, switch [(17, 0b11111000), (12, 0b00000111)] [
      (0, ifOp [.rvf] .fmv_x_s), (1, ifOp [.rvf] .fclass_s)] noOp),
    (113, switch [(17, 0b11111000), (12, 0b00000111)] [
      (0, ifOp [.rvd] .fmv_x_d), (1, ifOp [.rvd] .fclass_d)] noOp),
    (115, switch [(17, 0b11111000), (12, 0b00000111)] [
      (0, ifOp [.rvq] .fmv_x_q), (1, ifOp [.rvq] .fclass_q)] noOp),
    (120, switch [(17, 0b11111000), (12, 0b00000111)] [
      (0, ifOp [.rvf] .fmv_s_x)] noOp),
    (121, switch [(17, 0b11111000), (12, 0b00000111)] [
      (0, ifOp [.rvd] .fmv_d_x)] noOp),
    (123, switch [(17, 0b11111000), (12, 0b00000111)] [
      (0, ifOp [.rvq] .fmv_q_x)] noOp)] noOp

/-- `inst[6:2] = 28`: system and CSR instructions. -/
def decodeSystem : Decision Leaf :=
  switch [(12, 0b111)] [
    (0, switch [(15, 0b11111111111100000), (7, 0b00000000000011111)] [
      (0, switch [(15, 0b11111)] [
        (0, ifOp [.rvs] .ecall)] noOp),
      (32, switch [(15, 0b11111)] [
        (0, ifOp [.rvs] .ebreak)] noOp),
      (64, switch [(15, 0b11111)] [
        (0, ifOp [.rvs] .uret)] noOp),
      (8256, switch [(15, 0b11111)] [
        (0, ifOp [.rvs] .sret)] noOp),
      (8320, ifOp [.rvs] .sfence_vm),
      (8352, switch [(15, 0b11111)] [
        (0, ifOp [.rvs] .wfi)] noOp),
      (16448, switch [(15, 0b11111)] [
        (0, ifOp [.rvs] .hret)] noOp),
      (24640, switch [(15, 0b11111)] [
        (0, ifOp [.rvs] .mret)] noOp),
      (63040, switch [(15, 0b11111)] [
        (0, ifOp [.rvs] .dret)] noOp)] noOp),
    (1, ifOp [.rvs] .csrrw), (2, ifOp [.rvs] .csrrs), (3, ifOp [.rvs] .csrrc), (5, ifOp [.rvs] .csrrwi),
    (6, ifOp [.rvs] .csrrsi), (7, ifOp [.rvs] .csrrci)] noOp

def decodeQuadrant0 : Decision Leaf :=
  switch [(13, 0b111)] [
    (0, ifOp [.rvc] .c_addi4spn), (1, ifOp [.rvc] .c_fld), (2, ifOp [.rvc] .c_lw),
    (3, .leaf [([.rvc, .rv32], .c_flw), ([.rvc, .rv64], .c_ld)]), (5, ifOp [.rvc] .c_fsd), (6, ifOp [.rvc] .c_sw),
    (7, .leaf [([.rvc, .rv32], .c_fsw), ([.rvc, .rv64], .c_sd)])] noOp

def decodeQuadrant1 : Decision Leaf :=
  switch [(13, 0b111)] [
    (0, switch [(2, 0b11111111111)] [
      (0, ifOp [.rvc] .c_nop)] (ifOp [.rvc] .c_addi)),
    (1, .leaf [([.rvc, .rv32], .c_jal), ([.rvc, .rv64], .c_addiw)]), (2, ifOp [.rvc] .c_li),
    (3, switch [(7, 0b11111)] [
      (2, ifOp [.rvc] .c_addi16sp)] (ifOp [.rvc] .c_lui)),
    (4, switch [(10, 0b11)] [
      (0, .leaf [([.rvc, .rv32], .c_srli), ([.rvc, .rv64], .c_srli)]),
      (1, .leaf [([.rvc, .rv32], .c_srai), ([.rvc, .rv64], .c_srai)]), (2, ifOp [.rvc] .c_andi),
      (3, switch [(10, 0b100), (5, 0b011)] [
        (0, ifOp [.rvc] .c_sub), (1, ifOp [.rvc] .c_xor), (2, ifOp [.rvc] .c_or), (3, ifOp [.rvc] .c_and),
        (4, ifOp [.rvc] .c_subw), (5, ifOp [.rvc] .c_addw)] noOp)] noOp),
    (5, ifOp [.rvc] .c_j), (6, ifOp [.rvc] .c_beqz), (7, ifOp [.rvc] .c_bnez)] noOp

def decodeQuadrant2 : Decision Leaf :=
  switch [(13, 0b111)] [
    (0, .leaf [([.rvc, .rv32], .c_slli), ([.rvc, .rv64], .c_slli)]), (1, ifOp [.rvc] .c_fldsp),
    (2, ifOp [.rvc] .c_lwsp), (3, .leaf [([.rvc, .rv32], .c_flwsp), ([.rvc, .rv64], .c_ldsp)]),
    (4, switch [(12, 0b1)] [
      (0, switch [(2, 0b11111)] [
        (0, ifOp [.rvc] .c_jr)] (ifOp [.rvc] .c_mv)),
      (1, switch [(2, 0b11111)] [
        (0, switch [(7, 0b11111)] [
          (0, ifOp [.rvc] .c_ebreak)] (ifOp [.rvc] .c_jalr))] (ifOp [.rvc] .c_add))] noOp),
    (5, ifOp [.rvc] .c_fsdsp), (6, ifOp [.rvc] .c_swsp),
    (7, .leaf [([.rvc, .rv32], .c_fswsp), ([.rvc, .rv64], .c_sdsp)])] noOp

/-- The 32-bit instructions. -/
def decodeQuadrant3 : Decision Leaf :=
  switch [(2, 0b11111)] [
    (0, switch [(12, 0b111)] [
      (0, ifOp [.rvi] .lb), (1, ifOp [.rvi] .lh), (2, ifOp [.rvi] .lw), (3, ifOp [.rvi] .ld), (4, ifOp [.rvi] .lbu),
      (5, ifOp [.rvi] .lhu), (6, ifOp [.rvi] .lwu), (7, ifOp [.rvi, .rv128] .ldu)] noOp),
    (1, switch [(12, 0b111)] [
      (2, ifOp [.rvf] .flw), (3, ifOp [.rvd] .fld), (4, ifOp [.rvq] .flq)] noOp),
    (3, switch [(12, 0b111)] [
      (0, ifOp [.rvi] .fence), (1, ifOp [.rvi] .fence_i), (2, ifOp [.rvi, .rv128] .lq)] noOp),
    (4, switch [(12, 0b111)] [
      (0, ifOp [.rvi] .addi),
      (1, switch [(27, 0b11111)] [
        (0, .leaf [([.rvi, .rv32], .slli), ([.rvi, .rv64], .slli), ([.rvi, .rv128], .slli)])] noOp),
      (2, ifOp [.rvi] .slti), (3, ifOp [.rvi] .sltiu), (4, ifOp [.rvi] .xori),
      (5, switch [(27, 0b11111)] [
        (0, .leaf [([.rvi, .rv32], .srli), ([.rvi, .rv64], .srli), ([.rvi, .rv128], .srli)]),
        (8, .leaf [([.rvi, .rv32], .srai), ([.rvi, .rv64], .srai), ([.rvi, .rv128], .srai)])] noOp),
      (6, ifOp [.rvi] .ori), (7, ifOp [.rvi] .andi)] noOp),
    (5, ifOp [.rvi] .auipc),
    (6, switch [(12, 0b111)] [
      (0, ifOp [.rvi] .addiw),
      (1, switch [(25, 0b1111111)] [
        (0, ifOp [.rvi] .slliw)] noOp),
      (5, switch [(25, 0b1111111)] [
        (0, ifOp [.rvi] .srliw), (32, ifOp [.rvi] .sraiw)] noOp)] noOp),
    (8, switch [(12, 0b111)] [
      (0, ifOp [.rvi] .sb), (1, ifOp [.rvi] .sh), (2, ifOp [.rvi] .sw), (3, ifOp [.rvi] .sd),
      (4, ifOp [.rvi, .rv128] .sq)] noOp),
    (9, switch [(12, 0b111)] [
      (2, ifOp [.rvf] .fsw), (3, ifOp [.rvd] .fsd), (4, ifOp [.rvq] .fsq)] noOp),
    (11, decodeAmo), (12, decodeOp), (13, ifOp [.rvi] .lui),
    (14, switch [(22, 0b1111111000), (12, 0b0000000111)] [
      (0, ifOp [.rvi] .addw), (1, ifOp [.rvi] .sllw), (5, ifOp [.rvi] .srlw), (8, ifOp [.rvm] .mulw),
      (12, ifOp [.rvm] .divw), (13, ifOp [.rvm] .divuw), (14, ifOp [.rvm] .remw), (15, ifOp [.rvm] .remuw),
      (256, ifOp [.rvi] .subw), (261, ifOp [.rvi] .sraw)] noOp),
    (16, switch [(25, 0b11)] [
      (0, ifOp [.rvf] .fmadd_s), (1, ifOp [.rvd] .fmadd_d), (3, ifOp [.rvq] .fmadd_q)] noOp),
    (17, switch [(25, 0b11)] [
      (0, ifOp [.rvf] .fmsub_s), (1, ifOp [.rvd] .fmsub_d), (3, ifOp [.rvq] .fmsub_q)] noOp),
    (18, switch [(25, 0b11)] [
      (0, ifOp [.rvf] .fnmsub_s), (1, ifOp [.rvd] .fnmsub_d), (3, ifOp [.rvq] .fnmsub_q)] noOp),
    (19, switch [(25, 0b11)] [
      (0, ifOp [.rvf] .fnmadd_s), (1, ifOp [.rvd] .fnmadd_d), (3, ifOp [.rvq] .fnmadd_q)] noOp),
    (20, decodeOpFp),
    (22, switch [(12, 0b111)] [
      (0, ifOp [.rvi, .rv128] .addid),
      (1, switch [(26, 0b111111)] [
        (0, ifOp [.rvi, .rv128] .sllid)] noOp),
      (5, switch [(26, 0b111111)] [
        (0, ifOp [.rvi, .rv128] .srlid), (16, ifOp [.rvi, .rv128] .sraid)] noOp)] noOp),
    (24, switch [(12, 0b111)] [
      (0, ifOp [.rvi] .beq), (1, ifOp [.rvi] .bne), (4, ifOp [.rvi] .blt), (5, ifOp [.rvi] .bge),
      (6, ifOp [.rvi] .bltu), (7, ifOp [.rvi] .bgeu)] noOp),
    (25, switch [(12, 0b111)] [
      (0, ifOp [.rvi] .jalr)] noOp),
    (27, ifOp [.rvi] .jal), (28, decodeSystem),
    (30, switch [(22, 0b1111111000), (12, 0b0000000111)] [
      (0, ifOp [.rvi, .rv128] .addd), (1, ifOp [.rvi, .rv128] .slld), (5, ifOp [.rvi, .rv128] .srld),
      (8, ifOp [.rvm, .rv128] .muld), (12, ifOp [.rvm, .rv128] .divd), (13, ifOp [.rvm, .rv128] .divud),
      (14, ifOp [.rvm, .rv128] .remd), (15, ifOp [.rvm, .rv128] .remud), (256, ifOp [.rvi, .rv128] .subd),
      (261, ifOp [.rvi, .rv128] .srad)] noOp)] noOp

def decodeTree : Decision Leaf :=
  switch [(0, 0b11)] [
    (0, decodeQuadrant0), (1, decodeQuadrant1), (2, decodeQuadrant2), (3, decodeQuadrant3)] noOp

def decodeInstOp (enabled : Flag → Bool) (inst : Nat) : RvOp := (decodeTree.eval inst).op enabled

/-- One width and all extensions. -/
def Xlen.flags (x : Xlen) : Flag → Bool
  | .rv32 => x = .rv32
  | .rv64 => x = .rv64
  | .rv128 => x = .rv128
  | _ => true

/-- `decode_inst` into a fresh record. -/
def decodeInst (x : Xlen) (inst : Nat) : Decode := decodeInstType { op := decodeInstOp x.flags inst } inst

/-! ## What a path through the tree says -/

theorem decodeTree_wf : decodeTree.wf = true := by decide +kernel

/-- The words that carry the fixed bits of `op`. -/
def opCube (op : RvOp) : Cube := ⟨rvInstMask op, rvInstMatch op⟩

/-- A path to an opcode tests all the fixed bits of the opcode. -/
def pathFixes (x : Xlen) (c : Cube) (l : Leaf) : Bool :=
  l.op x.flags = .illegal ∨ c.implies (opCube (l.op x.flags)) = true

theorem paths_fix_op_bits (x : Xlen) : decodeTree.allPaths (pathFixes x) .top = true := by
  cases x <;> decide +kernel

theorem decodeInstOp_mem {x : Xlen} {inst : Nat} (h : decodeInstOp x.flags inst ≠ .illegal) :
    (opCube (decodeInstOp x.flags inst)).Mem inst := by
  obtain ⟨c, hc, hp⟩ := Decision.allPaths_sound decodeTree_wf (paths_fix_op_bits x) (Cube.mem_top inst)
  simp only [pathFixes, Bool.decide_or, Bool.decide_eq_true, Bool.or_eq_true, decide_eq_true_eq] at hp
  exact Cube.mem_of_implies (hp.resolve_left h) hc

end Rv8.Asm
