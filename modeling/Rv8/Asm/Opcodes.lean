import Rv8.Asm.Switch
/-!
# The opcode table

`meta/opcodes`, the table the decision tree is generated from, and how the tree
relates to it. Each line of the table gives an opcode, the bits it fixes and
the extensions it belongs to; operand names, the codec and bits marked `ignore`
fix nothing and are left out.
-/

namespace Rv8.Asm

open Rv8.Lib.BitTree

structure OpcodeEntry where
  op : RvOp
  /-- The pairs `hi..lo=value`. -/
  bits : List (Nat × Nat × Nat)
  exts : List (Xlen × Flag)

def rv32 (f : Flag) : Xlen × Flag := (.rv32, f)
def rv64 (f : Flag) : Xlen × Flag := (.rv64, f)
def rv128 (f : Flag) : Xlen × Flag := (.rv128, f)
def rv32Up (f : Flag) : List (Xlen × Flag) := [rv32 f, rv64 f, rv128 f]
def rv64Up (f : Flag) : List (Xlen × Flag) := [rv64 f, rv128 f]

def opcodesRv32i : List OpcodeEntry := [
  ⟨.lui, [(6, 2, 0x0D), (1, 0, 3)], rv32Up .rvi⟩,
  ⟨.auipc, [(6, 2, 0x05), (1, 0, 3)], rv32Up .rvi⟩,
  ⟨.jal, [(6, 2, 0x1b), (1, 0, 3)], rv32Up .rvi⟩,
  ⟨.jalr, [(14, 12, 0), (6, 2, 0x19), (1, 0, 3)], rv32Up .rvi⟩,
  ⟨.beq, [(14, 12, 0), (6, 2, 0x18), (1, 0, 3)], rv32Up .rvi⟩,
  ⟨.bne, [(14, 12, 1), (6, 2, 0x18), (1, 0, 3)], rv32Up .rvi⟩,
  ⟨.blt, [(14, 12, 4), (6, 2, 0x18), (1, 0, 3)], rv32Up .rvi⟩,
  ⟨.bge, [(14, 12, 5), (6, 2, 0x18), (1, 0, 3)], rv32Up .rvi⟩,
  ⟨.bltu, [(14, 12, 6), (6, 2, 0x18), (1, 0, 3)], rv32Up .rvi⟩,
  ⟨.bgeu, [(14, 12, 7), (6, 2, 0x18), (1, 0, 3)], rv32Up .rvi⟩,
  ⟨.lb, [(14, 12, 0), (6, 2, 0x00), (1, 0, 3)], rv32Up .rvi⟩,
  ⟨.lh, [(14, 12, 1), (6, 2, 0x00), (1, 0, 3)], rv32Up .rvi⟩,
  ⟨.lw, [(14, 12, 2), (6, 2, 0x00), (1, 0, 3)], rv32Up .rvi⟩,
  ⟨.lbu, [(14, 12, 4), (6, 2, 0x00), (1, 0, 3)], rv32Up .rvi⟩,
  ⟨.lhu, [(14, 12, 5), (6, 2, 0x00), (1, 0, 3)], rv32Up .rvi⟩,
  ⟨.sb, [(14, 12, 0), (6, 2, 0x08), (1, 0, 3)], rv32Up .rvi⟩,
  ⟨.sh, [(14, 12, 1), (6, 2, 0x08), (1, 0, 3)], rv32Up .rvi⟩,
  ⟨.sw, [(14, 12, 2), (6, 2, 0x08), (1, 0, 3)], rv32Up .rvi⟩,
  ⟨.addi, [(14, 12, 0), (6, 2, 0x04), (1, 0, 3)], rv32Up .rvi⟩,
  ⟨.slti, [(14, 12, 2), (6, 2, 0x04), (1, 0, 3)], rv32Up .rvi⟩,
  ⟨.sltiu, [(14, 12, 3), (6, 2, 0x04), (1, 0, 3)], rv32Up .rvi⟩,
  ⟨.xori, [(14, 12, 4), (6, 2, 0x04), (1, 0, 3)], rv32Up .rvi⟩,
  ⟨.ori, [(14, 12, 6), (6, 2, 0x04), (1, 0, 3)], rv32Up .rvi⟩,
  ⟨.andi, [(14, 12, 7), (6, 2, 0x04), (1, 0, 3)], rv32Up .rvi⟩,
  ⟨.slli, [(31, 27, 0), (14, 12, 1), (6, 2, 0x04), (1, 0, 3)], [rv32 .rvi]⟩,
  ⟨.srli, [(31, 27, 0), (14, 12, 5), (6, 2, 0x04), (1, 0, 3)], [rv32 .rvi]⟩,
  ⟨.srai, [(31, 27, 8), (14, 12, 5), (6, 2, 0x04), (1, 0, 3)], [rv32 .rvi]⟩,
  ⟨.add, [(31, 25, 0), (14, 12, 0), (6, 2, 0x0C), (1, 0, 3)], rv32Up .rvi⟩,
  ⟨.sub, [(31, 25, 32), (14, 12, 0), (6, 2, 0x0C), (1, 0, 3)], rv32Up .rvi⟩,
  ⟨.sll, [(31, 25, 0), (14, 12, 1), (6, 2, 0x0C), (1, 0, 3)], rv32Up .rvi⟩,
  ⟨.slt, [(31, 25, 0), (14, 12, 2), (6, 2, 0x0C), (1, 0, 3)], rv32Up .rvi⟩,
  ⟨.sltu, [(31, 25, 0), (14, 12, 3), (6, 2, 0x0C), (1, 0, 3)], rv32Up .rvi⟩,
  ⟨.xor, [(31, 25, 0), (14, 12, 4), (6, 2, 0x0C), (1, 0, 3)], rv32Up .rvi⟩,
  ⟨.srl, [(31, 25, 0), (14, 12, 5), (6, 2, 0x0C), (1, 0, 3)], rv32Up .rvi⟩,
  ⟨.sra, [(31, 25, 32), (14, 12, 5), (6, 2, 0x0C), (1, 0, 3)], rv32Up .rvi⟩,
  ⟨.or, [(31, 25, 0), (14, 12, 6), (6, 2, 0x0C), (1, 0, 3)], rv32Up .rvi⟩,
  ⟨.and, [(31, 25, 0), (14, 12, 7), (6, 2, 0x0C), (1, 0, 3)], rv32Up .rvi⟩,
  ⟨.fence, [(14, 12, 0), (6, 2, 0x03), (1, 0, 3)], rv32Up .rvi⟩,
  ⟨.fence_i, [(14, 12, 1), (6, 2, 0x03), (1, 0, 3)], rv32Up .rvi⟩]

def opcodesRv64i : List OpcodeEntry := [
  ⟨.lwu, [(14, 12, 6), (6, 2, 0x00), (1, 0, 3)], rv64Up .rvi⟩,
  ⟨.ld, [(14, 12, 3), (6, 2, 0x00), (1, 0, 3)], rv64Up .rvi⟩,
  ⟨.sd, [(14, 12, 3), (6, 2, 0x08), (1, 0, 3)], rv64Up .rvi⟩,
  ⟨.slli, [(31, 27, 0), (14, 12, 1), (6, 2, 0x04), (1, 0, 3)], [rv64 .rvi]⟩,
  ⟨.srli, [(31, 27, 0), (14, 12, 5), (6, 2, 0x04), (1, 0, 3)], [rv64 .rvi]⟩,
  ⟨.srai, [(31, 27, 8), (14, 12, 5), (6, 2, 0x04), (1, 0, 3)], [rv64 .rvi]⟩,
  ⟨.addiw, [(14, 12, 0), (6, 2, 0x06), (1, 0, 3)], rv64Up .rvi⟩,
  ⟨.slliw, [(31, 25, 0), (14, 12, 1), (6, 2, 0x06), (1, 0, 3)], rv64Up .rvi⟩,
  ⟨.srliw, [(31, 25, 0), (14, 12, 5), (6, 2, 0x06), (1, 0, 3)], rv64Up .rvi⟩,
  ⟨.sraiw, [(31, 25, 32), (14, 12, 5), (6, 2, 0x06), (1, 0, 3)], rv64Up .rvi⟩,
  ⟨.addw, [(31, 25, 0), (14, 12, 0), (6, 2, 0x0E), (1, 0, 3)], rv64Up .rvi⟩,
  ⟨.subw, [(31, 25, 32), (14, 12, 0), (6, 2, 0x0E), (1, 0, 3)], rv64Up .rvi⟩,
  ⟨.sllw, [(31, 25, 0), (14, 12, 1), (6, 2, 0x0E), (1, 0, 3)], rv64Up .rvi⟩,
  ⟨.srlw, [(31, 25, 0), (14, 12, 5), (6, 2, 0x0E), (1, 0, 3)], rv64Up .rvi⟩,
  ⟨.sraw, [(31, 25, 32), (14, 12, 5), (6, 2, 0x0E), (1, 0, 3)], rv64Up .rvi⟩]

def opcodesRv128i : List OpcodeEntry := [
  ⟨.ldu, [(14, 12, 7), (6, 2, 0x00), (1, 0, 3)], [rv128 .rvi]⟩,
  ⟨.lq, [(14, 12, 2), (6, 2, 0x03), (1, 0, 3)], [rv128 .rvi]⟩,
  ⟨.sq, [(14, 12, 4), (6, 2, 0x08), (1, 0, 3)], [rv128 .rvi]⟩,
  ⟨.slli, [(31, 27, 0), (14, 12, 1), (6, 2, 0x04), (1, 0, 3)], [rv128 .rvi]⟩,
  ⟨.srli, [(31, 27, 0), (14, 12, 5), (6, 2, 0x04), (1, 0, 3)], [rv128 .rvi]⟩,
  ⟨.srai, [(31, 27, 8), (14, 12, 5), (6, 2, 0x04), (1, 0, 3)], [rv128 .rvi]⟩,
  ⟨.addid, [(14, 12, 0), (6, 2, 0x16), (1, 0, 3)], [rv128 .rvi]⟩,
  ⟨.sllid, [(31, 26, 0), (14, 12, 1), (6, 2, 0x16), (1, 0, 3)], [rv128 .rvi]⟩,
  ⟨.srlid, [(31, 26, 0), (14, 12, 5), (6, 2, 0x16), (1, 0, 3)], [rv128 .rvi]⟩,
  ⟨.sraid, [(31, 26, 16), (14, 12, 5), (6, 2, 0x16), (1, 0, 3)], [rv128 .rvi]⟩,
  ⟨.addd, [(31, 25, 0), (14, 12, 0), (6, 2, 0x1E), (1, 0, 3)], [rv128 .rvi]⟩,
  ⟨.subd, [(31, 25, 32), (14, 12, 0), (6, 2, 0x1E), (1, 0, 3)], [rv128 .rvi]⟩,
  ⟨.slld, [(31, 25, 0), (14, 12, 1), (6, 2, 0x1E), (1, 0, 3)], [rv128 .rvi]⟩,
  ⟨.srld, [(31, 25, 0), (14, 12, 5), (6, 2, 0x1E), (1, 0, 3)], [rv128 .rvi]⟩,
  ⟨.srad, [(31, 25, 32), (14, 12, 5), (6, 2, 0x1E), (1, 0, 3)], [rv128 .rvi]⟩]

def opcodesRv32m : List OpcodeEntry := [
  ⟨.mul, [(31, 25, 1), (14, 12, 0), (6, 2, 0x0C), (1, 0, 3)], rv32Up .rvm⟩,
  ⟨.mulh, [(31, 25, 1), (14, 12, 1), (6, 2, 0x0C), (1, 0, 3)], rv32Up .rvm⟩,
  ⟨.mulhsu, [(31, 25, 1), (14, 12, 2), (6, 2, 0x0C), (1, 0, 3)], rv32Up .rvm⟩,
  ⟨.mulhu, [(31, 25, 1), (14, 12, 3), (6, 2, 0x0C), (1, 0, 3)], rv32Up .rvm⟩,
  ⟨.div, [(31, 25, 1), (14, 12, 4), (6, 2, 0x0C), (1, 0, 3)], rv32Up .rvm⟩,
  ⟨.divu, [(31, 25, 1), (14, 12, 5), (6, 2, 0x0C), (1, 0, 3)], rv32Up .rvm⟩,
  ⟨.rem, [(31, 25, 1), (14, 12, 6), (6, 2, 0x0C), (1, 0, 3)], rv32Up .rvm⟩,
  ⟨.remu, [(31, 25, 1), (14, 12, 7), (6, 2, 0x0C), (1, 0, 3)], rv32Up .rvm⟩]

def opcodesRv64m : List OpcodeEntry := [
  ⟨.mulw, [(31, 25, 1), (14, 12, 0), (6, 2, 0x0E), (1, 0, 3)], rv64Up .rvm⟩,
  ⟨.divw, [(31, 25, 1), (14, 12, 4), (6, 2, 0x0E), (1, 0, 3)], rv64Up .rvm⟩,
  ⟨.divuw, [(31, 25, 1), (14, 12, 5), (6, 2, 0x0E), (1, 0, 3)], rv64Up .rvm⟩,
  ⟨.remw, [(31, 25, 1), (14, 12, 6), (6, 2, 0x0E), (1, 0, 3)], rv64Up .rvm⟩,
  ⟨.remuw, [(31, 25, 1), (14, 12, 7), (6, 2, 0x0E), (1, 0, 3)], rv64Up .rvm⟩]

def opcodesRv128m : List OpcodeEntry := [
  ⟨.muld, [(31, 25, 1), (14, 12, 0), (6, 2, 0x1E), (1, 0, 3)], [rv128 .rvm]⟩,
  ⟨.divd, [(31, 25, 1), (14, 12, 4), (6, 2, 0x1E), (1, 0, 3)], [rv128 .rvm]⟩,
  ⟨.divud, [(31, 25, 1), (14, 12, 5), (6, 2, 0x1E), (1, 0, 3)], [rv128 .rvm]⟩,
  ⟨.remd, [(31, 25, 1), (14, 12, 6), (6, 2, 0x1E), (1, 0, 3)], [rv128 .rvm]⟩,
  ⟨.remud, [(31, 25, 1), (14, 12, 7), (6, 2, 0x1E), (1, 0, 3)], [rv128 .rvm]⟩]

def opcodesRv32a : List OpcodeEntry := [
  ⟨.lr_w, [(24, 20, 0), (31, 29, 0), (28, 27, 2), (14, 12, 2), (6, 2, 0x0B), (1, 0, 3)], rv32Up .rva⟩,
  ⟨.sc_w, [(31, 29, 0), (28, 27, 3), (14, 12, 2), (6, 2, 0x0B), (1, 0, 3)], rv32Up .rva⟩,
  ⟨.amoswap_w, [(31, 29, 0), (28, 27, 1), (14, 12, 2), (6, 2, 0x0B), (1, 0, 3)], rv32Up .rva⟩,
  ⟨.amoadd_w, [(31, 29, 0), (28, 27, 0), (14, 12, 2), (6, 2, 0x0B), (1, 0, 3)], rv32Up .rva⟩,
  ⟨.amoxor_w, [(31, 29, 1), (28, 27, 0), (14, 12, 2), (6, 2, 0x0B), (1, 0, 3)], rv32Up .rva⟩,
  ⟨.amoor_w, [(31, 29, 2), (28, 27, 0), (14, 12, 2), (6, 2, 0x0B), (1, 0, 3)], rv32Up .rva⟩,
  ⟨.amoand_w, [(31, 29, 3), (28, 27, 0), (14, 12, 2), (6, 2, 0x0B), (1, 0, 3)], rv32Up .rva⟩,
  ⟨.amomin_w, [(31, 29, 4), (28, 27, 0), (14, 12, 2), (6, 2, 0x0B), (1, 0, 3)], rv32Up .rva⟩,
  ⟨.amomax_w, [(31, 29, 5), (28, 27, 0), (14, 12, 2), (6, 2, 0x0B), (1, 0, 3)], rv32Up .rva⟩,
  ⟨.amominu_w, [(31, 29, 6), (28, 27, 0), (14, 12, 2), (6, 2, 0x0B), (1, 0, 3)], rv32Up .rva⟩,
  ⟨.amomaxu_w, [(31, 29, 7), (28, 27, 0), (14, 12, 2), (6, 2, 0x0B), (1, 0, 3)], rv32Up .rva⟩]

def opcodesRv64a : List OpcodeEntry := [
  ⟨.lr_d, [(24, 20, 0), (31, 29, 0), (28, 27, 2), (14, 12, 3), (6, 2, 0x0B), (1, 0, 3)], rv64Up .rva⟩,
  ⟨.sc_d, [(31, 29, 0), (28, 27, 3), (14, 12, 3), (6, 2, 0x0B), (1, 0, 3)], rv64Up .rva⟩,
  ⟨.amoswap_d, [(31, 29, 0), (28, 27, 1), (14, 12, 3), (6, 2, 0x0B), (1, 0, 3)], rv64Up .rva⟩,
  ⟨.amoadd_d, [(31, 29, 0), (28, 27, 0), (14, 12, 3), (6, 2, 0x0B), (1, 0, 3)], rv64Up .rva⟩,
  ⟨.amoxor_d, [(31, 29, 1), (28, 27, 0), (14, 12, 3), (6, 2, 0x0B), (1, 0, 3)], rv64Up .rva⟩,
  ⟨.amoor_d, [(31, 29, 2), (28, 27, 0), (14, 12, 3), (6, 2, 0x0B), (1, 0, 3)], rv64Up .rva⟩,
  ⟨.amoand_d, [(31, 29, 3), (28, 27, 0), (14, 12, 3), (6, 2, 0x0B), (1, 0, 3)], rv64Up .rva⟩,
  ⟨.amomin_d, [(31, 29, 4), (28, 27, 0), (14, 12, 3), (6, 2, 0x0B), (1, 0, 3)], rv64Up .rva⟩,
  ⟨.amomax_d, [(31, 29, 5), (28, 27, 0), (14, 12, 3), (6, 2, 0x0B), (1, 0, 3)], rv64Up .rva⟩,
  ⟨.amominu_d, [(31, 29, 6), (28, 27, 0), (14, 12, 3), (6, 2, 0x0B), (1, 0, 3)], rv64Up .rva⟩,
  ⟨.amomaxu_d, [(31, 29, 7), (28, 27, 0), (14, 12, 3), (6, 2, 0x0B), (1, 0, 3)], rv64Up .rva⟩]

def opcodesRv128a : List OpcodeEntry := [
  ⟨.lr_q, [(24, 20, 0), (31, 29, 0), (28, 27, 2), (14, 12, 4), (6, 2, 0x0B), (1, 0, 3)], [rv128 .rva]⟩,
  ⟨.sc_q, [(31, 29, 0), (28, 27, 3), (14, 12, 4), (6, 2, 0x0B), (1, 0, 3)], [rv128 .rva]⟩,
  ⟨.amoswap_q, [(31, 29, 0), (28, 27, 1), (14, 12, 4), (6, 2, 0x0B), (1, 0, 3)], [rv128 .rva]⟩,
  ⟨.amoadd_q, [(31, 29, 0), (28, 27, 0), (14, 12, 4), (6, 2, 0x0B), (1, 0, 3)], [rv128 .rva]⟩,
  ⟨.amoxor_q, [(31, 29, 1), (28, 27, 0), (14, 12, 4), (6, 2, 0x0B), (1, 0, 3)], [rv128 .rva]⟩,
  ⟨.amoor_q, [(31, 29, 2), (28, 27, 0), (14, 12, 4), (6, 2, 0x0B), (1, 0, 3)], [rv128 .rva]⟩,
  ⟨.amoand_q, [(31, 29, 3), (28, 27, 0), (14, 12, 4), (6, 2, 0x0B), (1, 0, 3)], [rv128 .rva]⟩,
  ⟨.amomin_q, [(31, 29, 4), (28, 27, 0), (14, 12, 4), (6, 2, 0x0B), (1, 0, 3)], [rv128 .rva]⟩,
  ⟨.amomax_q, [(31, 29, 5), (28, 27, 0), (14, 12, 4), (6, 2, 0x0B), (1, 0, 3)], [rv128 .rva]⟩,
  ⟨.amominu_q, [(31, 29, 6), (28, 27, 0), (14, 12, 4), (6, 2, 0x0B), (1, 0, 3)], [rv128 .rva]⟩,
  ⟨.amomaxu_q, [(31, 29, 7), (28, 27, 0), (14, 12, 4), (6, 2, 0x0B), (1, 0, 3)], [rv128 .rva]⟩]

def opcodesRv32s : List OpcodeEntry := [
  ⟨.ecall, [(11, 7, 0), (19, 15, 0), (31, 20, 0x000), (14, 12, 0), (6, 2, 0x1C), (1, 0, 3)], rv32Up .rvs⟩,
  ⟨.ebreak, [(11, 7, 0), (19, 15, 0), (31, 20, 0x001), (14, 12, 0), (6, 2, 0x1C), (1, 0, 3)], rv32Up .rvs⟩,
  ⟨.uret, [(11, 7, 0), (19, 15, 0), (31, 20, 0x002), (14, 12, 0), (6, 2, 0x1C), (1, 0, 3)], rv32Up .rvs⟩,
  ⟨.sret, [(11, 7, 0), (19, 15, 0), (31, 20, 0x102), (14, 12, 0), (6, 2, 0x1C), (1, 0, 3)], rv32Up .rvs⟩,
  ⟨.hret, [(11, 7, 0), (19, 15, 0), (31, 20, 0x202), (14, 12, 0), (6, 2, 0x1C), (1, 0, 3)], rv32Up .rvs⟩,
  ⟨.mret, [(11, 7, 0), (19, 15, 0), (31, 20, 0x302), (14, 12, 0), (6, 2, 0x1C), (1, 0, 3)], rv32Up .rvs⟩,
  ⟨.dret, [(11, 7, 0), (19, 15, 0), (31, 20, 0x7b2), (14, 12, 0), (6, 2, 0x1C), (1, 0, 3)], rv32Up .rvs⟩,
  ⟨.sfence_vm, [(11, 7, 0), (31, 20, 0x104), (14, 12, 0), (6, 2, 0x1C), (1, 0, 3)], rv32Up .rvs⟩,
  ⟨.wfi, [(11, 7, 0), (19, 15, 0), (31, 20, 0x105), (14, 12, 0), (6, 2, 0x1C), (1, 0, 3)], rv32Up .rvs⟩,
  ⟨.csrrw, [(14, 12, 1), (6, 2, 0x1C), (1, 0, 3)], rv32Up .rvs⟩,
  ⟨.csrrs, [(14, 12, 2), (6, 2, 0x1C), (1, 0, 3)], rv32Up .rvs⟩,
  ⟨.csrrc, [(14, 12, 3), (6, 2, 0x1C), (1, 0, 3)], rv32Up .rvs⟩,
  ⟨.csrrwi, [(14, 12, 5), (6, 2, 0x1C), (1, 0, 3)], rv32Up .rvs⟩,
  ⟨.csrrsi, [(14, 12, 6), (6, 2, 0x1C), (1, 0, 3)], rv32Up .rvs⟩,
  ⟨.csrrci, [(14, 12, 7), (6, 2, 0x1C), (1, 0, 3)], rv32Up .rvs⟩]

def opcodesRv32f : List OpcodeEntry := [
  ⟨.flw, [(14, 12, 2), (6, 2, 0x01), (1, 0, 3)], rv32Up .rvf⟩,
  ⟨.fsw, [(14, 12, 2), (6, 2, 0x09), (1, 0, 3)], rv32Up .rvf⟩,
  ⟨.fmadd_s, [(26, 25, 0), (6, 2, 0x10), (1, 0, 3)], rv32Up .rvf⟩,
  ⟨.fmsub_s, [(26, 25, 0), (6, 2, 0x11), (1, 0, 3)], rv32Up .rvf⟩,
  ⟨.fnmsub_s, [(26, 25, 0), (6, 2, 0x12), (1, 0, 3)], rv32Up .rvf⟩,
  ⟨.fnmadd_s, [(26, 25, 0), (6, 2, 0x13), (1, 0, 3)], rv32Up .rvf⟩,
  ⟨.fadd_s, [(31, 27, 0x00), (26, 25, 0), (6, 2, 0x14), (1, 0, 3)], rv32Up .rvf⟩,
  ⟨.fsub_s, [(31, 27, 0x01), (26, 25, 0), (6, 2, 0x14), (1, 0, 3)], rv32Up .rvf⟩,
  ⟨.fmul_s, [(31, 27, 0x02), (26, 25, 0), (6, 2, 0x14), (1, 0, 3)], rv32Up .rvf⟩,
  ⟨.fdiv_s, [(31, 27, 0x03), (26, 25, 0), (6, 2, 0x14), (1, 0, 3)], rv32Up .rvf⟩,
  ⟨.fsgnj_s, [(31, 27, 0x04), (14, 12, 0), (26, 25, 0), (6, 2, 0x14), (1, 0, 3)], rv32Up .rvf⟩,
  ⟨.fsgnjn_s, [(31, 27, 0x04), (14, 12, 1), (26, 25, 0), (6, 2, 0x14), (1, 0, 3)], rv32Up .rvf⟩,
  ⟨.fsgnjx_s, [(31, 27, 0x04), (14, 12, 2), (26, 25, 0), (6, 2, 0x14), (1, 0, 3)], rv32Up .rvf⟩,
  ⟨.fmin_s, [(31, 27, 0x05), (14, 12, 0), (26, 25, 0), (6, 2, 0x14), (1, 0, 3)], rv32Up .rvf⟩,
  ⟨.fmax_s, [(31, 27, 0x05), (14, 12, 1), (26, 25, 0), (6, 2, 0x14), (1, 0, 3)], rv32Up .rvf⟩,
  ⟨.fsqrt_s, [(24, 20, 0), (31, 27, 0x0B), (26, 25, 0), (6, 2, 0x14), (1, 0, 3)], rv32Up .rvf⟩,
  ⟨.fle_s, [(31, 27, 0x14), (14, 12, 0), (26, 25, 0), (6, 2, 0x14), (1, 0, 3)], rv32Up .rvf⟩,
  ⟨.flt_s, [(31, 27, 0x14), (14, 12, 1), (26, 25, 0), (6, 2, 0x14), (1, 0, 3)], rv32Up .rvf⟩,
  ⟨.feq_s, [(31, 27, 0x14), (14, 12, 2), (26, 25, 0), (6, 2, 0x14), (1, 0, 3)], rv32Up .rvf⟩,
  ⟨.fcvt_w_s, [(24, 20, 0), (31, 27, 0x18), (26, 25, 0), (6, 2, 0x14), (1, 0, 3)], rv32Up .rvf⟩,
  ⟨.fcvt_wu_s, [(24, 20, 1), (31, 27, 0x18), (26, 25, 0), (6, 2, 0x14), (1, 0, 3)], rv32Up .rvf⟩,
  ⟨.fcvt_s_w, [(24, 20, 0), (31, 27, 0x1A), (26, 25, 0), (6, 2, 0x14), (1, 0, 3)], rv32Up .rvf⟩,
  ⟨.fcvt_s_wu, [(24, 20, 1), (31, 27, 0x1A), (26, 25, 0), (6, 2, 0x14), (1, 0, 3)], rv32Up .rvf⟩,
  ⟨.fmv_x_s, [(24, 20, 0), (31, 27, 0x1C), (14, 12, 0), (26, 25, 0), (6, 2, 0x14), (1, 0, 3)], rv32Up .rvf⟩,
  ⟨.fclass_s, [(24, 20, 0), (31, 27, 0x1C), (14, 12, 1), (26, 25, 0), (6, 2, 0x14), (1, 0, 3)], rv32Up .rvf⟩,
  ⟨.fmv_s_x, [(24, 20, 0), (31, 27, 0x1E), (14, 12, 0), (26, 25, 0), (6, 2, 0x14), (1, 0, 3)], rv32Up .rvf⟩]

def opcodesRv64f : List OpcodeEntry := [
  ⟨.fcvt_l_s, [(24, 20, 2), (31, 27, 0x18), (26, 25, 0), (6, 2, 0x14), (1, 0, 3)], rv64Up .rvf⟩,
  ⟨.fcvt_lu_s, [(24, 20, 3), (31, 27, 0x18), (26, 25, 0), (6, 2, 0x14), (1, 0, 3)], rv64Up .rvf⟩,
  ⟨.fcvt_s_l, [(24, 20, 2), (31, 27, 0x1A), (26, 25, 0), (6, 2, 0x14), (1, 0, 3)], rv64Up .rvf⟩,
  ⟨.fcvt_s_lu, [(24, 20, 3), (31, 27, 0x1A), (26, 25, 0), (6, 2, 0x14), (1, 0, 3)], rv64Up .rvf⟩]

def opcodesRv32d : List OpcodeEntry := [
  ⟨.fld, [(14, 12, 3), (6, 2, 0x01), (1, 0, 3)], rv32Up .rvd⟩,
  ⟨.fsd, [(14, 12, 3), (6, 2, 0x09), (1, 0, 3)], rv32Up .rvd⟩,
  ⟨.fmadd_d, [(26, 25, 1), (6, 2, 0x10), (1, 0, 3)], rv32Up .rvd⟩,
  ⟨.fmsub_d, [(26, 25, 1), (6, 2, 0x11), (1, 0, 3)], rv32Up .rvd⟩,
  ⟨.fnmsub_d, [(26, 25, 1), (6, 2, 0x12), (1, 0, 3)], rv32Up .rvd⟩,
  ⟨.fnmadd_d, [(26, 25, 1), (6, 2, 0x13), (1, 0, 3)], rv32Up .rvd⟩,
  ⟨.fadd_d, [(31, 27, 0x00), (26, 25, 1), (6, 2, 0x14), (1, 0, 3)], rv32Up .rvd⟩,
  ⟨.fsub_d, [(31, 27, 0x01), (26, 25, 1), (6, 2, 0x14), (1, 0, 3)], rv32Up .rvd⟩,
  ⟨.fmul_d, [(31, 27, 0x02), (26, 25, 1), (6, 2, 0x14), (1, 0, 3)], rv32Up .rvd⟩,
  ⟨.fdiv_d, [(31, 27, 0x03), (26, 25, 1), (6, 2, 0x14), (1, 0, 3)], rv32Up .rvd⟩,
  ⟨.fsgnj_d, [(31, 27, 0x04), (14, 12, 0), (26, 25, 1), (6, 2, 0x14), (1, 0, 3)], rv32Up .rvd⟩,
  ⟨.fsgnjn_d, [(31, 27, 0x04), (14, 12, 1), (26, 25, 1), (6, 2, 0x14), (1, 0, 3)], rv32Up .rvd⟩,
  ⟨.fsgnjx_d, [(31, 27, 0x04), (14, 12, 2), (26, 25, 1), (6, 2, 0x14), (1, 0, 3)], rv32Up .rvd⟩,
  ⟨.fmin_d, [(31, 27, 0x05), (14, 12, 0), (26, 25, 1), (6, 2, 0x14), (1, 0, 3)], rv32Up .rvd⟩,
  ⟨.fmax_d, [(31, 27, 0x05), (14, 12, 1), (26, 25, 1), (6, 2, 0x14), (1, 0, 3)], rv32Up .rvd⟩,
  ⟨.fcvt_s_d, [(24, 20, 1), (31, 27, 0x08), (26, 25, 0), (6, 2, 0x14), (1, 0, 3)], rv32Up .rvd⟩,
  ⟨.fcvt_d_s, [(24, 20, 0), (31, 27, 0x08), (26, 25, 1), (6, 2, 0x14), (1, 0, 3)], rv32Up .rvd⟩,
  ⟨.fsqrt_d, [(24, 20, 0), (31, 27, 0x0B), (26, 25, 1), (6, 2, 0x14), (1, 0, 3)], rv32Up .rvd⟩,
  ⟨.fle_d, [(31, 27, 0x14), (14, 12, 0), (26, 25, 1), (6, 2, 0x14), (1, 0, 3)], rv32Up .rvd⟩,
  ⟨.flt_d, [(31, 27, 0x14), (14, 12, 1), (26, 25, 1), (6, 2, 0x14), (1, 0, 3)], rv32Up .rvd⟩,
  ⟨.feq_d, [(31, 27, 0x14), (14, 12, 2), (26, 25, 1), (6, 2, 0x14), (1, 0, 3)], rv32Up .rvd⟩,
  ⟨.fcvt_w_d, [(24, 20, 0), (31, 27, 0x18), (26, 25, 1), (6, 2, 0x14), (1, 0, 3)], rv32Up .rvd⟩,
  ⟨.fcvt_wu_d, [(24, 20, 1), (31, 27, 0x18), (26, 25, 1), (6, 2, 0x14), (1, 0, 3)], rv32Up .rvd⟩,
  ⟨.fcvt_d_w, [(24, 20, 0), (31, 27, 0x1A), (26, 25, 1), (6, 2, 0x14), (1, 0, 3)], rv32Up .rvd⟩,
  ⟨.fcvt_d_wu, [(24, 20, 1), (31, 27, 0x1A), (26, 25, 1), (6, 2, 0x14), (1, 0, 3)], rv32Up .rvd⟩,
  ⟨.fclass_d, [(24, 20, 0), (31, 27, 0x1C), (14, 12, 1), (26, 25, 1), (6, 2, 0x14), (1, 0, 3)], rv32Up .rvd⟩]

def opcodesRv64d : List OpcodeEntry := [
  ⟨.fcvt_l_d, [(24, 20, 2), (31, 27, 0x18), (26, 25, 1), (6, 2, 0x14), (1, 0, 3)], rv64Up .rvd⟩,
  ⟨.fcvt_lu_d, [(24, 20, 3), (31, 27, 0x18), (26, 25, 1), (6, 2, 0x14), (1, 0, 3)], rv64Up .rvd⟩,
  ⟨.fmv_x_d, [(24, 20, 0), (31, 27, 0x1C), (14, 12, 0), (26, 25, 1), (6, 2, 0x14), (1, 0, 3)], rv64Up .rvd⟩,
  ⟨.fcvt_d_l, [(24, 20, 2), (31, 27, 0x1A), (26, 25, 1), (6, 2, 0x14), (1, 0, 3)], rv64Up .rvd⟩,
  ⟨.fcvt_d_lu, [(24, 20, 3), (31, 27, 0x1A), (26, 25, 1), (6, 2, 0x14), (1, 0, 3)], rv64Up .rvd⟩,
  ⟨.fmv_d_x, [(24, 20, 0), (31, 27, 0x1E), (14, 12, 0), (26, 25, 1), (6, 2, 0x14), (1, 0, 3)], rv64Up .rvd⟩]

def opcodesRv32q : List OpcodeEntry := [
  ⟨.flq, [(14, 12, 4), (6, 2, 0x01), (1, 0, 3)], rv32Up .rvq⟩,
  ⟨.fsq, [(14, 12, 4), (6, 2, 0x09), (1, 0, 3)], rv32Up .rvq⟩,
  ⟨.fmadd_q, [(26, 25, 3), (6, 2, 0x10), (1, 0, 3)], rv32Up .rvq⟩,
  ⟨.fmsub_q, [(26, 25, 3), (6, 2, 0x11), (1, 0, 3)], rv32Up .rvq⟩,
  ⟨.fnmsub_q, [(26, 25, 3), (6, 2, 0x12), (1, 0, 3)], rv32Up .rvq⟩,
  ⟨.fnmadd_q, [(26, 25, 3), (6, 2, 0x13), (1, 0, 3)], rv32Up .rvq⟩,
  ⟨.fadd_q, [(31, 27, 0x00), (26, 25, 3), (6, 2, 0x14), (1, 0, 3)], rv32Up .rvq⟩,
  ⟨.fsub_q, [(31, 27, 0x01), (26, 25, 3), (6, 2, 0x14), (1, 0, 3)], rv32Up .rvq⟩,
  ⟨.fmul_q, [(31, 27, 0x02), (26, 25, 3), (6, 2, 0x14), (1, 0, 3)], rv32Up .rvq⟩,
  ⟨.fdiv_q, [(31, 27, 0x03), (26, 25, 3), (6, 2, 0x14), (1, 0, 3)], rv32Up .rvq⟩,
  ⟨.fsgnj_q, [(31, 27, 0x04), (14, 12, 0), (26, 25, 3), (6, 2, 0x14), (1, 0, 3)], rv32Up .rvq⟩,
  ⟨.fsgnjn_q, [(31, 27, 0x04), (14, 12, 1), (26, 25, 3), (6, 2, 0x14), (1, 0, 3)], rv32Up .rvq⟩,
  ⟨.fsgnjx_q, [(31, 27, 0x04), (14, 12, 2), (26, 25, 3), (6, 2, 0x14), (1, 0, 3)], rv32Up .rvq⟩,
  ⟨.fmin_q, [(31, 27, 0x05), (14, 12, 0), (26, 25, 3), (6, 2, 0x14), (1, 0, 3)], rv32Up .rvq⟩,
  ⟨.fmax_q, [(31, 27, 0x05), (14, 12, 1), (26, 25, 3), (6, 2, 0x14), (1, 0, 3)], rv32Up .rvq⟩,
  ⟨.fcvt_s_q, [(24, 20, 3), (31, 27, 0x08), (26, 25, 0), (6, 2, 0x14), (1, 0, 3)], rv32Up .rvq⟩,
  ⟨.fcvt_q_s, [(24, 20, 0), (31, 27, 0x08), (26, 25, 3), (6, 2, 0x14), (1, 0, 3)], rv32Up .rvq⟩,
  ⟨.fcvt_d_q, [(24, 20, 3), (31, 27, 0x08), (26, 25, 1), (6, 2, 0x14), (1, 0, 3)], rv32Up .rvq⟩,
  ⟨.fcvt_q_d, [(24, 20, 1), (31, 27, 0x08), (26, 25, 3), (6, 2, 0x14), (1, 0, 3)], rv32Up .rvq⟩,
  ⟨.fsqrt_q, [(24, 20, 0), (31, 27, 0x0B), (26, 25, 3), (6, 2, 0x14), (1, 0, 3)], rv32Up .rvq⟩,
  ⟨.fle_q, [(31, 27, 0x14), (14, 12, 0), (26, 25, 3), (6, 2, 0x14), (1, 0, 3)], rv32Up .rvq⟩,
  ⟨.flt_q, [(31, 27, 0x14), (14, 12, 1), (26, 25, 3), (6, 2, 0x14), (1, 0, 3)], rv32Up .rvq⟩,
  ⟨.feq_q, [(31, 27, 0x14), (14, 12, 2), (26, 25, 3), (6, 2, 0x14), (1, 0, 3)], rv32Up .rvq⟩,
  ⟨.fcvt_w_q, [(24, 20, 0), (31, 27, 0x18), (26, 25, 3), (6, 2, 0x14), (1, 0, 3)], rv32Up .rvq⟩,
  ⟨.fcvt_wu_q, [(24, 20, 1), (31, 27, 0x18), (26, 25, 3), (6, 2, 0x14), (1, 0, 3)], rv32Up .rvq⟩,
  ⟨.fcvt_q_w, [(24, 20, 0), (31, 27, 0x1A), (26, 25, 3), (6, 2, 0x14), (1, 0, 3)], rv32Up .rvq⟩,
  ⟨.fcvt_q_wu, [(24, 20, 1), (31, 27, 0x1A), (26, 25, 3), (6, 2, 0x14), (1, 0, 3)], rv32Up .rvq⟩,
  ⟨.fclass_q, [(24, 20, 0), (31, 27, 0x1C), (14, 12, 1), (26, 25, 3), (6, 2, 0x14), (1, 0, 3)], rv32Up .rvq⟩]

def opcodesRv64q : List OpcodeEntry := [
  ⟨.fcvt_l_q, [(24, 20, 2), (31, 27, 0x18), (26, 25, 3), (6, 2, 0x14), (1, 0, 3)], rv64Up .rvq⟩,
  ⟨.fcvt_lu_q, [(24, 20, 3), (31, 27, 0x18), (26, 25, 3), (6, 2, 0x14), (1, 0, 3)], rv64Up .rvq⟩,
  ⟨.fcvt_q_l, [(24, 20, 2), (31, 27, 0x1A), (26, 25, 3), (6, 2, 0x14), (1, 0, 3)], rv64Up .rvq⟩,
  ⟨.fcvt_q_lu, [(24, 20, 3), (31, 27, 0x1A), (26, 25, 3), (6, 2, 0x14), (1, 0, 3)], rv64Up .rvq⟩]

def opcodesRv128q : List OpcodeEntry := [
  ⟨.fmv_x_q, [(24, 20, 0), (31, 27, 0x1C), (14, 12, 0), (26, 25, 3), (6, 2, 0x14), (1, 0, 3)], rv64Up .rvq⟩,
  ⟨.fmv_q_x, [(24, 20, 0), (31, 27, 0x1E), (14, 12, 0), (26, 25, 3), (6, 2, 0x14), (1, 0, 3)], rv64Up .rvq⟩]

def opcodesRv32c : List OpcodeEntry := [
  ⟨.c_addi4spn, [(1, 0, 0), (15, 13, 0)], [rv32 .rvc, rv64 .rvc]⟩,
  ⟨.c_fld, [(1, 0, 0), (15, 13, 1)], [rv32 .rvc, rv64 .rvc]⟩,
  ⟨.c_lw, [(1, 0, 0), (15, 13, 2)], [rv32 .rvc, rv64 .rvc]⟩,
  ⟨.c_flw, [(1, 0, 0), (15, 13, 3)], [rv32 .rvc]⟩,
  ⟨.c_fsd, [(1, 0, 0), (15, 13, 5)], [rv32 .rvc, rv64 .rvc]⟩,
  ⟨.c_sw, [(1, 0, 0), (15, 13, 6)], [rv32 .rvc, rv64 .rvc]⟩,
  ⟨.c_fsw, [(1, 0, 0), (15, 13, 7)], [rv32 .rvc]⟩,
  ⟨.c_nop, [(1, 0, 1), (15, 13, 0), (12, 12, 0), (11, 7, 0), (6, 2, 0)], [rv32 .rvc, rv64 .rvc]⟩,
  ⟨.c_addi, [(1, 0, 1), (15, 13, 0)], [rv32 .rvc, rv64 .rvc]⟩,
  ⟨.c_jal, [(1, 0, 1), (15, 13, 1)], [rv32 .rvc]⟩,
  ⟨.c_li, [(1, 0, 1), (15, 13, 2)], [rv32 .rvc, rv64 .rvc]⟩,
  ⟨.c_addi16sp, [(1, 0, 1), (15, 13, 3), (11, 7, 2)], [rv32 .rvc, rv64 .rvc]⟩,
  ⟨.c_lui, [(1, 0, 1), (15, 13, 3)], [rv32 .rvc, rv64 .rvc]⟩,
  ⟨.c_srli, [(1, 0, 1), (15, 13, 4), (11, 10, 0)], [rv32 .rvc]⟩,
  ⟨.c_srai, [(1, 0, 1), (15, 13, 4), (11, 10, 1)], [rv32 .rvc]⟩,
  ⟨.c_andi, [(1, 0, 1), (15, 13, 4), (11, 10, 2)], [rv32 .rvc, rv64 .rvc]⟩,
  ⟨.c_sub, [(1, 0, 1), (15, 13, 4), (12, 12, 0), (11, 10, 3), (6, 5, 0)], [rv32 .rvc, rv64 .rvc]⟩,
  ⟨.c_xor, [(1, 0, 1), (15, 13, 4), (12, 12, 0), (11, 10, 3), (6, 5, 1)], [rv32 .rvc, rv64 .rvc]⟩,
  ⟨.c_or, [(1, 0, 1), (15, 13, 4), (12, 12, 0), (11, 10, 3), (6, 5, 2)], [rv32 .rvc, rv64 .rvc]⟩,
  ⟨.c_and, [(1, 0, 1), (15, 13, 4), (12, 12, 0), (11, 10, 3), (6, 5, 3)], [rv32 .rvc, rv64 .rvc]⟩,
  ⟨.c_subw, [(1, 0, 1), (15, 13, 4), (12, 12, 1), (11, 10, 3), (6, 5, 0)], [rv32 .rvc, rv64 .rvc]⟩,
  ⟨.c_addw, [(1, 0, 1), (15, 13, 4), (12, 12, 1), (11, 10, 3), (6, 5, 1)], [rv32 .rvc, rv64 .rvc]⟩,
  ⟨.c_j, [(1, 0, 1), (15, 13, 5)], [rv32 .rvc, rv64 .rvc]⟩,
  ⟨.c_beqz, [(1, 0, 1), (15, 13, 6)], [rv32 .rvc, rv64 .rvc]⟩,
  ⟨.c_bnez, [(1, 0, 1), (15, 13, 7)], [rv32 .rvc, rv64 .rvc]⟩,
  ⟨.c_slli, [(1, 0, 2), (15, 13, 0)], [rv32 .rvc]⟩,
  ⟨.c_fldsp, [(1, 0, 2), (15, 13, 1)], [rv32 .rvc, rv64 .rvc]⟩,
  ⟨.c_lwsp, [(1, 0, 2), (15, 13, 2)], [rv32 .rvc, rv64 .rvc]⟩,
  ⟨.c_flwsp, [(1, 0, 2), (15, 13, 3)], [rv32 .rvc]⟩,
  ⟨.c_jr, [(1, 0, 2), (15, 13, 4), (12, 12, 0), (6, 2, 0)], [rv32 .rvc, rv64 .rvc]⟩,
  ⟨.c_mv, [(1, 0, 2), (15, 13, 4), (12, 12, 0)], [rv32 .rvc, rv64 .rvc]⟩,
  ⟨.c_ebreak, [(1, 0, 2), (15, 13, 4), (12, 12, 1), (11, 7, 0), (6, 2, 0)], [rv32 .rvc, rv64 .rvc]⟩,
  ⟨.c_jalr, [(1, 0, 2), (15, 13, 4), (12, 12, 1), (6, 2, 0)], [rv32 .rvc, rv64 .rvc]⟩,
  ⟨.c_add, [(1, 0, 2), (15, 13, 4), (12, 12, 1)], [rv32 .rvc, rv64 .rvc]⟩,
  ⟨.c_fsdsp, [(1, 0, 2), (15, 13, 5)], [rv32 .rvc, rv64 .rvc]⟩,
  ⟨.c_swsp, [(1, 0, 2), (15, 13, 6)], [rv32 .rvc, rv64 .rvc]⟩,
  ⟨.c_fswsp, [(1, 0, 2), (15, 13, 7)], [rv32 .rvc]⟩]

def opcodesRv64c : List OpcodeEntry := [
  ⟨.c_ld, [(1, 0, 0), (15, 13, 3)], [rv64 .rvc]⟩,
  ⟨.c_sd, [(1, 0, 0), (15, 13, 7)], [rv64 .rvc]⟩,
  ⟨.c_addiw, [(1, 0, 1), (15, 13, 1)], [rv64 .rvc]⟩,
  ⟨.c_srli, [(1, 0, 1), (15, 13, 4), (11, 10, 0)], [rv64 .rvc]⟩,
  ⟨.c_srai, [(1, 0, 1), (15, 13, 4), (11, 10, 1)], [rv64 .rvc]⟩,
  ⟨.c_slli, [(1, 0, 2), (15, 13, 0)], [rv64 .rvc]⟩,
  ⟨.c_ldsp, [(1, 0, 2), (15, 13, 3)], [rv64 .rvc]⟩,
  ⟨.c_sdsp, [(1, 0, 2), (15, 13, 7)], [rv64 .rvc]⟩]

def opcodesRv128c : List OpcodeEntry := [
  ⟨.c_lq, [(1, 0, 0), (15, 13, 1)], [rv128 .rvc]⟩,
  ⟨.c_sq, [(1, 0, 0), (15, 13, 5)], [rv128 .rvc]⟩,
  ⟨.c_lqsp, [(1, 0, 2), (15, 13, 1)], [rv128 .rvc]⟩,
  ⟨.c_sqsp, [(1, 0, 2), (15, 13, 5)], [rv128 .rvc]⟩]

def opcodes : List OpcodeEntry :=
  opcodesRv32i ++ opcodesRv64i ++ opcodesRv128i ++ opcodesRv32m ++ opcodesRv64m ++ opcodesRv128m ++ opcodesRv32a ++
    opcodesRv64a ++ opcodesRv128a ++ opcodesRv32s ++ opcodesRv32f ++ opcodesRv64f ++ opcodesRv32d ++
    opcodesRv64d ++ opcodesRv32q ++ opcodesRv64q ++ opcodesRv128q ++ opcodesRv32c ++ opcodesRv64c ++ opcodesRv128c

namespace OpcodeEntry

def mask (e : OpcodeEntry) : Nat := e.bits.foldr (fun b acc => (2 ^ (b.1 + 1) - 2 ^ b.2.1) ||| acc) 0

def «match» (e : OpcodeEntry) : Nat := e.bits.foldr (fun b acc => b.2.2 <<< b.2.1 ||| acc) 0

def cube (e : OpcodeEntry) : Cube := ⟨e.mask, e.match⟩

def Matches (e : OpcodeEntry) (inst : Nat) : Prop := inst &&& e.mask = e.match

instance (e : OpcodeEntry) (inst : Nat) : Decidable (e.Matches inst) := inferInstanceAs (Decidable (_ = _))

def widths (e : OpcodeEntry) : List Xlen := e.exts.map Prod.fst

/-- The entry lists two widths and `x` is not one of them. -/
def ForTwoOthers (e : OpcodeEntry) (x : Xlen) : Prop := e.widths.length = 2 ∧ x ∉ e.widths

instance (e : OpcodeEntry) (x : Xlen) : Decidable (e.ForTwoOthers x) := inferInstanceAs (Decidable (_ ∧ _))

end OpcodeEntry

/-! ## Every path of the tree -/

/-- A path ends in an opcode with an entry that lists the width or exactly the two others. -/
def pathHasEntry (x : Xlen) (_ : Cube) (l : Leaf) : Bool :=
  let o := l.op x.flags
  o = .illegal || opcodes.any fun e => e.op.ctorIdx.beq o.ctorIdx && (x ∈ e.widths ∨ e.ForTwoOthers x)

/-- A path ends in an opcode none of whose entries lists the width. -/
def pathHasNoEntry (x : Xlen) (_ : Cube) (l : Leaf) : Bool :=
  let o := l.op x.flags
  o ≠ .illegal && opcodes.all fun e => !(e.op.ctorIdx.beq o.ctorIdx && x ∈ e.widths)

/-- Every path and every entry, at one width. -/
structure TableOk (x : Xlen) : Prop where
  /-- The generated `rv_inst_mask` and `rv_inst_match` are those of the table. -/
  agree : (opcodes.all fun e => e.cube = opCube e.op) = true
  entry : decodeTree.allPaths (pathHasEntry x) .top = true
  legal : (opcodes.all fun e => x ∈ e.widths → decodeTree.allPaths (fun _ l => l.op x.flags ≠ .illegal) e.cube = true) = true
  others : (opcodes.all fun e => e.ForTwoOthers x → decodeTree.allPaths (pathHasNoEntry x) e.cube = true) = true

theorem table_ok (x : Xlen) : TableOk x := by
  cases x <;> constructor <;> decide +kernel

theorem RvOp.eq_of_ctorIdx_beq {a b : RvOp} (h : a.ctorIdx.beq b.ctorIdx = true) : a = b := by
  rw [← RvOp.ofNat_ctorIdx a, ← RvOp.ofNat_ctorIdx b, Nat.eq_of_beq_eq_true h]

section
variable {x : Xlen} {inst : Nat} {e : OpcodeEntry}

theorem mem_opCube_iff (he : e ∈ opcodes) : e.Matches inst ↔ (opCube e.op).Mem inst := by
  have h := List.all_eq_true.1 (table_ok .rv32).agree e he
  rw [decide_eq_true_eq] at h
  rw [← h]
  rfl

/-- A word that decodes matches an entry of the opcode for the width or for exactly the two others. -/
theorem entry_of_legal (h : decodeInstOp x.flags inst ≠ .illegal) :
    ∃ e ∈ opcodes, e.op = decodeInstOp x.flags inst ∧ e.Matches inst ∧ (x ∈ e.widths ∨ e.ForTwoOthers x) := by
  obtain ⟨c, -, hp⟩ := Decision.allPaths_sound decodeTree_wf (table_ok x).entry (Cube.mem_top inst)
  simp only [pathHasEntry, Bool.or_eq_true, decide_eq_true_eq, List.any_eq_true, Bool.and_eq_true] at hp
  obtain ⟨e, he, ho, hw⟩ := hp.resolve_left h
  obtain ho : e.op = decodeInstOp x.flags inst := RvOp.eq_of_ctorIdx_beq ho
  refine ⟨e, he, ho, (mem_opCube_iff he).2 ?_, hw⟩
  rw [ho]
  exact decodeInstOp_mem h

theorem legal_of_entry (he : e ∈ opcodes) (hx : x ∈ e.widths) (hm : e.Matches inst) :
    decodeInstOp x.flags inst ≠ .illegal := by
  have h := List.all_eq_true.1 (table_ok x).legal e he
  simp only [decide_eq_true_eq] at h
  obtain ⟨c, -, hp⟩ := Decision.allPaths_sound decodeTree_wf (h hx) hm
  exact of_decide_eq_true hp

/-- A word of an entry for the two other widths decodes to an opcode without an entry for this one. -/
theorem no_entry_of_others (he : e ∈ opcodes) (hx : e.ForTwoOthers x) (hm : e.Matches inst) :
    decodeInstOp x.flags inst ≠ .illegal ∧
      ∀ e' ∈ opcodes, e'.op = decodeInstOp x.flags inst → x ∉ e'.widths := by
  have h := List.all_eq_true.1 (table_ok x).others e he
  simp only [decide_eq_true_eq] at h
  obtain ⟨c, -, hp⟩ := Decision.allPaths_sound decodeTree_wf (h hx) hm
  simp only [pathHasNoEntry, Bool.and_eq_true, decide_eq_true_eq, List.all_eq_true, Bool.not_eq_true',
    Bool.and_eq_false_iff, decide_eq_false_iff_not] at hp
  refine ⟨hp.1, fun e' he' ho hx' => ?_⟩
  rcases hp.2 e' he' with hne | hne
  · rw [ho] at hne
    simp [decodeInstOp] at hne
  · exact hne hx'
end

/-! ## The tree against the table -/

/-- The tree decodes `inst` as the table says for the width `x`. -/
def DecodesTable (x : Xlen) (inst : Nat) : Prop :=
  (decodeInstOp x.flags inst ≠ .illegal →
    ∃ e ∈ opcodes, e.op = decodeInstOp x.flags inst ∧ e.Matches inst ∧ x ∈ e.widths) ∧
  (decodeInstOp x.flags inst = .illegal → ¬ ∃ e ∈ opcodes, e.Matches inst ∧ x ∈ e.widths)

/-- The tree has no width guard for an opcode listed for two widths. It follows the table exactly
on the words that no such opcode of the other two widths matches. -/
theorem decodes_table_iff (x : Xlen) (inst : Nat) :
    DecodesTable x inst ↔ ¬ ∃ e ∈ opcodes, e.ForTwoOthers x ∧ e.Matches inst := by
  constructor
  · rintro ⟨hl, -⟩ ⟨e, he, hx, hm⟩
    obtain ⟨hne, hno⟩ := no_entry_of_others he hx hm
    obtain ⟨e', he', ho, -, hx'⟩ := hl hne
    exact hno e' he' ho hx'
  · intro hno
    refine ⟨fun hl => ?_, ?_⟩
    · obtain ⟨e, he, ho, hm, hx⟩ := entry_of_legal hl
      exact ⟨e, he, ho, hm, hx.resolve_right fun h2 => hno ⟨e, he, h2, hm⟩⟩
    · rintro hi ⟨e, he, hm, hx⟩
      exact legal_of_entry he hx hm hi

/-- The word of `ld a0, 0(zero)` decodes as `ld` at width 32. -/
theorem not_decodes_table_ld_rv32 : ¬ DecodesTable .rv32 0x3503 := by
  rintro ⟨hl, -⟩
  have hop : decodeInstOp Xlen.rv32.flags 0x3503 = .ld := by decide
  have hno : (opcodes.all fun e => e.op = .ld → Xlen.rv32 ∉ e.widths) = true := by decide +kernel
  obtain ⟨e, he, ho, -, hx⟩ := hl (by rw [hop]; decide)
  have := List.all_eq_true.1 hno e he
  rw [decide_eq_true_eq] at this
  exact this (ho.trans hop) hx

end Rv8.Asm
