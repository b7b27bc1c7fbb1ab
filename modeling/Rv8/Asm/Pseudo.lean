import Rv8.Asm.EmitExact
import Mathlib.Tactic.FinCases
/-!
# Pseudo-instructions

`decode_pseudo_inst` lifts a record to the first pseudo-instruction whose constraints
hold, and `encode_pseudo` puts the constraints of another table back. An operand that
the display format hides comes back if a constraint pins it or if it is zero. That is
every operand but the immediates of `sext.w` and `ret`, whose constraints do not ask
for zero as those of `mv`, `jr` and `jalr` do.
-/

namespace Rv8.Asm

/-! ## Tables of the pseudo-instructions -/

def rvccJal : List RvcConstraint := [.rd_eq_ra]
def rvccJalr : List RvcConstraint := [.rd_eq_ra, .imm_eq_zero]
def rvccNop : List RvcConstraint := [.rd_eq_x0, .rs1_eq_x0, .imm_eq_zero]
def rvccMv : List RvcConstraint := [.imm_eq_zero]
def rvccNot : List RvcConstraint := [.imm_eq_n1]
def rvccNeg : List RvcConstraint := [.rs1_eq_x0]
def rvccNegw : List RvcConstraint := [.rs1_eq_x0]
def rvccSextW : List RvcConstraint := [.rs2_eq_x0]
def rvccSeqz : List RvcConstraint := [.imm_eq_p1]
def rvccSnez : List RvcConstraint := [.rs1_eq_x0]
def rvccSltz : List RvcConstraint := [.rs2_eq_x0]
def rvccSgtz : List RvcConstraint := [.rs1_eq_x0]
def rvccFmvS : List RvcConstraint := [.rs2_eq_rs1]
def rvccFabsS : List RvcConstraint := [.rs2_eq_rs1]
def rvccFnegS : List RvcConstraint := [.rs2_eq_rs1]
def rvccFmvD : List RvcConstraint := [.rs2_eq_rs1]
def rvccFabsD : List RvcConstraint := [.rs2_eq_rs1]
def rvccFnegD : List RvcConstraint := [.rs2_eq_rs1]
def rvccFmvQ : List RvcConstraint := [.rs2_eq_rs1]
def rvccFabsQ : List RvcConstraint := [.rs2_eq_rs1]
def rvccFnegQ : List RvcConstraint := [.rs2_eq_rs1]
def rvccBeqz : List RvcConstraint := [.rs2_eq_x0]
def rvccBnez : List RvcConstraint := [.rs2_eq_x0]
def rvccBlez : List RvcConstraint := [.rs1_eq_x0]
def rvccBgez : List RvcConstraint := [.rs2_eq_x0]
def rvccBltz : List RvcConstraint := [.rs2_eq_x0]
def rvccBgtz : List RvcConstraint := [.rs1_eq_x0]
def rvccBle : List RvcConstraint := []
def rvccBleu : List RvcConstraint := []
def rvccBgt : List RvcConstraint := []
def rvccBgtu : List RvcConstraint := []
def rvccJ : List RvcConstraint := [.rd_eq_x0]
def rvccRet : List RvcConstraint := [.rd_eq_x0, .rs1_eq_ra]
def rvccJr : List RvcConstraint := [.rd_eq_x0, .imm_eq_zero]
def rvccRdcycle : List RvcConstraint := [.rs1_eq_x0, .csr_eq_0xc00]
def rvccRdtime : List RvcConstraint := [.rs1_eq_x0, .csr_eq_0xc01]
def rvccRdinstret : List RvcConstraint := [.rs1_eq_x0, .csr_eq_0xc02]
def rvccRdcycleh : List RvcConstraint := [.rs1_eq_x0, .csr_eq_0xc80]
def rvccRdtimeh : List RvcConstraint := [.rs1_eq_x0, .csr_eq_0xc81]
def rvccRdinstreth : List RvcConstraint := [.rs1_eq_x0, .csr_eq_0xc80]
def rvccFrcsr : List RvcConstraint := [.rs1_eq_x0, .csr_eq_0x003]
def rvccFrrm : List RvcConstraint := [.rs1_eq_x0, .csr_eq_0x002]
def rvccFrflags : List RvcConstraint := [.rs1_eq_x0, .csr_eq_0x001]
def rvccFscsr : List RvcConstraint := [.csr_eq_0x003]
def rvccFsrm : List RvcConstraint := [.csr_eq_0x002]
def rvccFsflags : List RvcConstraint := [.csr_eq_0x001]
def rvccFsrmi : List RvcConstraint := [.csr_eq_0x002]
def rvccFsflagsi : List RvcConstraint := [.csr_eq_0x001]

/-- The candidates of an opcode, in the order of the table; an opcode without an entry has none. -/
def rvInstPseudo : RvOp → List RvCompData
  | .jal => [⟨.j, rvccJ⟩, ⟨.jal, rvccJal⟩]
  | .jalr => [⟨.ret, rvccRet⟩, ⟨.jr, rvccJr⟩, ⟨.jalr, rvccJalr⟩]
  | .beq => [⟨.beqz, rvccBeqz⟩]
  | .bne => [⟨.bnez, rvccBnez⟩]
  | .blt => [⟨.bltz, rvccBltz⟩, ⟨.bgtz, rvccBgtz⟩, ⟨.bgt, rvccBgt⟩]
  | .bge => [⟨.blez, rvccBlez⟩, ⟨.bgez, rvccBgez⟩, ⟨.ble, rvccBle⟩]
  | .bltu => [⟨.bgtu, rvccBgtu⟩]
  | .bgeu => [⟨.bleu, rvccBleu⟩]
  | .addi => [⟨.nop, rvccNop⟩, ⟨.mv, rvccMv⟩]
  | .sltiu => [⟨.seqz, rvccSeqz⟩]
  | .xori => [⟨.not, rvccNot⟩]
  | .sub => [⟨.neg, rvccNeg⟩]
  | .slt => [⟨.sltz, rvccSltz⟩, ⟨.sgtz, rvccSgtz⟩]
  | .sltu => [⟨.snez, rvccSnez⟩]
  | .addiw => [⟨.sext_w, rvccSextW⟩]
  | .subw => [⟨.negw, rvccNegw⟩]
  | .csrrw => [⟨.fscsr, rvccFscsr⟩, ⟨.fsrm, rvccFsrm⟩, ⟨.fsflags, rvccFsflags⟩]
  | .csrrs =>
    [⟨.rdcycle, rvccRdcycle⟩, ⟨.rdtime, rvccRdtime⟩, ⟨.rdinstret, rvccRdinstret⟩, ⟨.rdcycleh, rvccRdcycleh⟩,
      ⟨.rdtimeh, rvccRdtimeh⟩, ⟨.rdinstreth, rvccRdinstreth⟩, ⟨.frcsr, rvccFrcsr⟩, ⟨.frrm, rvccFrrm⟩,
      ⟨.frflags, rvccFrflags⟩]
  | .csrrwi => [⟨.fsrmi, rvccFsrmi⟩, ⟨.fsflagsi, rvccFsflagsi⟩]
  | .fsgnj_s => [⟨.fmv_s, rvccFmvS⟩]
  | .fsgnjn_s => [⟨.fneg_s, rvccFnegS⟩]
  | .fsgnjx_s => [⟨.fabs_s, rvccFabsS⟩]
  | .fsgnj_d => [⟨.fmv_d, rvccFmvD⟩]
  | .fsgnjn_d => [⟨.fneg_d, rvccFnegD⟩]
  | .fsgnjx_d => [⟨.fabs_d, rvccFabsD⟩]
  | .fsgnj_q => [⟨.fmv_q, rvccFmvQ⟩]
  | .fsgnjn_q => [⟨.fneg_q, rvccFnegQ⟩]
  | .fsgnjx_q => [⟨.fabs_q, rvccFabsQ⟩]
  | _ => []

def rvInstDepseudo : RvOp → Option RvCompData
  | .jal => some ⟨.jal, rvccJal⟩
  | .jalr => some ⟨.jalr, rvccJalr⟩
  | .nop => some ⟨.addi, rvccNop⟩
  | .mv => some ⟨.addi, rvccMv⟩
  | .not => some ⟨.xori, rvccNot⟩
  | .neg => some ⟨.sub, rvccNeg⟩
  | .negw => some ⟨.subw, rvccNegw⟩
  | .sext_w => some ⟨.addiw, rvccSextW⟩
  | .seqz => some ⟨.sltiu, rvccSeqz⟩
  | .snez => some ⟨.sltu, rvccSnez⟩
  | .sltz => some ⟨.slt, rvccSltz⟩
  | .sgtz => some ⟨.slt, rvccSgtz⟩
  | .fmv_s => some ⟨.fsgnj_s, rvccFmvS⟩
  | .fabs_s => some ⟨.fsgnjx_s, rvccFabsS⟩
  | .fneg_s => some ⟨.fsgnjn_s, rvccFnegS⟩
  | .fmv_d => some ⟨.fsgnj_d, rvccFmvD⟩
  | .fabs_d => some ⟨.fsgnjx_d, rvccFabsD⟩
  | .fneg_d => some ⟨.fsgnjn_d, rvccFnegD⟩
  | .fmv_q => some ⟨.fsgnj_q, rvccFmvQ⟩
  | .fabs_q => some ⟨.fsgnjx_q, rvccFabsQ⟩
  | .fneg_q => some ⟨.fsgnjn_q, rvccFnegQ⟩
  | .beqz => some ⟨.beq, rvccBeqz⟩
  | .bnez => some ⟨.bne, rvccBnez⟩
  | .blez => some ⟨.bge, rvccBlez⟩
  | .bgez => some ⟨.bge, rvccBgez⟩
  | .bltz => some ⟨.blt, rvccBltz⟩
  | .bgtz => some ⟨.blt, rvccBgtz⟩
  | .ble => some ⟨.bge, rvccBle⟩
  | .bleu => some ⟨.bgeu, rvccBleu⟩
  | .bgt => some ⟨.blt, rvccBgt⟩
  | .bgtu => some ⟨.bltu, rvccBgtu⟩
  | .j => some ⟨.jal, rvccJ⟩
  | .ret => some ⟨.jalr, rvccRet⟩
  | .jr => some ⟨.jalr, rvccJr⟩
  | .rdcycle => some ⟨.csrrs, rvccRdcycle⟩
  | .rdtime => some ⟨.csrrs, rvccRdtime⟩
  | .rdinstret => some ⟨.csrrs, rvccRdinstret⟩
  | .rdcycleh => some ⟨.csrrs, rvccRdcycleh⟩
  | .rdtimeh => some ⟨.csrrs, rvccRdtimeh⟩
  | .rdinstreth => some ⟨.csrrs, rvccRdinstreth⟩
  | .frcsr => some ⟨.csrrs, rvccFrcsr⟩
  | .frrm => some ⟨.csrrs, rvccFrrm⟩
  | .frflags => some ⟨.csrrs, rvccFrflags⟩
  | .fscsr => some ⟨.csrrw, rvccFscsr⟩
  | .fsrm => some ⟨.csrrw, rvccFsrm⟩
  | .fsflags => some ⟨.csrrw, rvccFsflags⟩
  | .fsrmi => some ⟨.csrrwi, rvccFsrmi⟩
  | .fsflagsi => some ⟨.csrrwi, rvccFsflagsi⟩
  | _ => none

/-! ## Lifting and its inverse -/

/-- The first candidate whose constraints hold takes the place of the opcode. -/
def decodePseudoInst (dec : Decode) : Option Decode :=
  ((rvInstPseudo dec.op).find? fun compData => constraintCheck dec compData.constraints).map fun compData =>
    { dec with op := compData.op, codec := rvInstCodec compData.op }

/-- One case of `constraint_set`. A constraint that is no equation sets nothing. -/
def constraintSets (dec : Decode) : RvcConstraint → Decode
  | .rd_eq_rs1 => { dec with rd := dec.rs1 }
  | .rd_eq_ra => { dec with rd := 1 }
  | .rd_eq_sp => { dec with rd := 2 }
  | .rd_eq_x0 => { dec with rd := 0 }
  | .rs1_eq_sp => { dec with rs1 := 2 }
  | .rs1_eq_x0 => { dec with rs1 := 0 }
  | .rs2_eq_x0 => { dec with rs2 := 0 }
  | .rs2_eq_rs1 => { dec with rs2 := dec.rs1 }
  | .rs1_eq_ra => { dec with rs1 := 1 }
  | .imm_eq_zero => { dec with imm := 0 }
  | .imm_eq_n1 => { dec with imm := -1 }
  | .imm_eq_p1 => { dec with imm := 1 }
  | .csr_eq_0x001 => { dec with imm := 0x001 }
  | .csr_eq_0x002 => { dec with imm := 0x002 }
  | .csr_eq_0x003 => { dec with imm := 0x003 }
  | .csr_eq_0xc00 => { dec with imm := 0xc00 }
  | .csr_eq_0xc01 => { dec with imm := 0xc01 }
  | .csr_eq_0xc02 => { dec with imm := 0xc02 }
  | .csr_eq_0xc80 => { dec with imm := 0xc80 }
  | .csr_eq_0xc81 => { dec with imm := 0xc81 }
  | .csr_eq_0xc82 => { dec with imm := 0xc82 }
  | _ => dec

def constraintSet (dec : Decode) (cs : List RvcConstraint) : Decode := cs.foldl constraintSets dec

def encodePseudo (dec : Decode) : Option Decode :=
  (rvInstDepseudo dec.op).map fun compData =>
    constraintSet { dec with op := compData.op, codec := rvInstCodec compData.op } compData.constraints

/-! ## What a format shows -/

def rvFmtNone : List Char := ['O', '\t']
def rvFmtRdImm : List Char := ['O', '\t', '0', ',', 'i']
def rvFmtRdOffset : List Char := ['O', '\t', '0', ',', 'o']
def rvFmtRdRs1Offset : List Char := ['O', '\t', '0', ',', '1', ',', 'i']
def rvFmtRs1Rs2Offset : List Char := ['O', '\t', '1', ',', '2', ',', 'o']
def rvFmtRdOffsetRs1 : List Char := ['O', '\t', '0', ',', 'i', '(', '1', ')']
def rvFmtRs2OffsetRs1 : List Char := ['O', '\t', '2', ',', 'i', '(', '1', ')']
def rvFmtRdRs1Imm : List Char := ['O', '\t', '0', ',', '1', ',', 'i']
def rvFmtRdRs1Rs2 : List Char := ['O', '\t', '0', ',', '1', ',', '2']
def rvFmtPredSucc : List Char := ['O', '\t', 'p', ',', 's']
def rvFmtAqrlRdRs1 : List Char := ['O', 'A', 'R', '\t', '0', ',', '(', '1', ')']
def rvFmtAqrlRdRs2Rs1 : List Char := ['O', 'A', 'R', '\t', '0', ',', '2', ',', '(', '1', ')']
def rvFmtRs1 : List Char := ['O', '\t', '1']
def rvFmtRdCsrRs1 : List Char := ['O', '\t', '0', ',', 'c', ',', '1']
def rvFmtRdCsrZimm : List Char := ['O', '\t', '0', ',', 'c', ',', '7']
def rvFmtFrdOffsetRs1 : List Char := ['O', '\t', '3', ',', 'i', '(', '1', ')']
def rvFmtFrs2OffsetRs1 : List Char := ['O', '\t', '5', ',', 'i', '(', '1', ')']
def rvFmtRmFrdFrs1Frs2Frs3 : List Char := ['O', '\t', 'r', ',', '3', ',', '4', ',', '5', ',', '6']
def rvFmtRmFrdFrs1Frs2 : List Char := ['O', '\t', 'r', ',', '3', ',', '4', ',', '5']
def rvFmtFrdFrs1Frs2 : List Char := ['O', '\t', '3', ',', '4', ',', '5']
def rvFmtRmFrdFrs1 : List Char := ['O', '\t', 'r', ',', '3', ',', '4']
def rvFmtRdFrs1Frs2 : List Char := ['O', '\t', '0', ',', '4', ',', '5']
def rvFmtRmRdFrs1 : List Char := ['O', '\t', 'r', ',', '0', ',', '4']
def rvFmtRmFrdRs1 : List Char := ['O', '\t', 'r', ',', '3', ',', '1']
def rvFmtRdFrs1 : List Char := ['O', '\t', '0', ',', '4']
def rvFmtFrdRs1 : List Char := ['O', '\t', '3', ',', '1']
def rvFmtRdRs1 : List Char := ['O', '\t', '0', ',', '1']
def rvFmtRdRs2 : List Char := ['O', '\t', '0', ',', '2']
def rvFmtRs1Offset : List Char := ['O', '\t', '1', ',', 'o']
def rvFmtRs2Offset : List Char := ['O', '\t', '2', ',', 'o']
def rvFmtRs2Rs1Offset : List Char := ['O', '\t', '2', ',', '1', ',', 'o']
def rvFmtOffset : List Char := ['O', '\t', 'o']
def rvFmtRd : List Char := ['O', '\t', '0']
def rvFmtRdZimm : List Char := ['O', '\t', '0', ',', '7']

def rvInstFormat : RvOp → List Char
  | .illegal | .fence_i | .ecall | .ebreak | .uret | .sret | .hret | .mret | .dret | .wfi | .c_nop | .c_ebreak
  | .nop | .ret => rvFmtNone
  | .lui | .c_lui => rvFmtRdImm
  | .auipc | .jal | .c_jal | .c_j => rvFmtRdOffset
  | .jalr | .c_jr | .c_jalr => rvFmtRdRs1Offset
  | .beq | .bne | .blt | .bge | .bltu | .bgeu | .c_beqz | .c_bnez => rvFmtRs1Rs2Offset
  | .lb | .lh | .lw | .lbu | .lhu | .lwu | .ld | .ldu | .lq | .c_lw | .c_lwsp | .c_ld | .c_ldsp | .c_lq
  | .c_lqsp => rvFmtRdOffsetRs1
  | .sb | .sh | .sw | .sd | .sq | .c_sw | .c_swsp | .c_sd | .c_sdsp | .c_sq | .c_sqsp => rvFmtRs2OffsetRs1
  | .addi | .slti | .sltiu | .xori | .ori | .andi | .slli | .srli | .srai | .addiw | .slliw | .srliw | .sraiw
  | .addid | .sllid | .srlid | .sraid | .c_addi4spn | .c_addi | .c_li | .c_addi16sp | .c_srli | .c_srai | .c_andi
  | .c_slli | .c_addiw => rvFmtRdRs1Imm
  | .add | .sub | .sll | .slt | .sltu | .xor | .srl | .sra | .or | .and | .addw | .subw | .sllw | .srlw | .sraw
  | .addd | .subd | .slld | .srld | .srad | .mul | .mulh | .mulhsu | .mulhu | .div | .divu | .rem | .remu | .mulw
  | .divw | .divuw | .remw | .remuw | .muld | .divd | .divud | .remd | .remud | .c_sub | .c_xor | .c_or | .c_and
  | .c_subw | .c_addw | .c_mv | .c_add => rvFmtRdRs1Rs2
  | .fence => rvFmtPredSucc
  | .lr_w | .lr_d | .lr_q => rvFmtAqrlRdRs1
  | .sc_w | .amoswap_w | .amoadd_w | .amoxor_w | .amoor_w | .amoand_w | .amomin_w | .amomax_w | .amominu_w
  | .amomaxu_w | .sc_d | .amoswap_d | .amoadd_d | .amoxor_d | .amoor_d | .amoand_d | .amomin_d | .amomax_d
  | .amominu_d | .amomaxu_d | .sc_q | .amoswap_q | .amoadd_q | .amoxor_q | .amoor_q | .amoand_q | .amomin_q
  | .amomax_q | .amominu_q | .amomaxu_q => rvFmtAqrlRdRs2Rs1
  | .sfence_vm | .jr => rvFmtRs1
  | .csrrw | .csrrs | .csrrc => rvFmtRdCsrRs1
  | .csrrwi | .csrrsi | .csrrci => rvFmtRdCsrZimm
  | .flw | .fld | .flq | .c_fld | .c_flw | .c_fldsp | .c_flwsp => rvFmtFrdOffsetRs1
  | .fsw | .fsd | .fsq | .c_fsd | .c_fsw | .c_fsdsp | .c_fswsp => rvFmtFrs2OffsetRs1
  | .fmadd_s | .fmsub_s | .fnmsub_s | .fnmadd_s | .fmadd_d | .fmsub_d | .fnmsub_d | .fnmadd_d | .fmadd_q | .fmsub_q
  | .fnmsub_q | .fnmadd_q => rvFmtRmFrdFrs1Frs2Frs3
  | .fadd_s | .fsub_s | .fmul_s | .fdiv_s | .fadd_d | .fsub_d | .fmul_d | .fdiv_d | .fadd_q | .fsub_q | .fmul_q
  | .fdiv_q => rvFmtRmFrdFrs1Frs2
  | .fsgnj_s | .fsgnjn_s | .fsgnjx_s | .fmin_s | .fmax_s | .fsgnj_d | .fsgnjn_d | .fsgnjx_d | .fmin_d | .fmax_d
  | .fsgnj_q | .fsgnjn_q | .fsgnjx_q | .fmin_q | .fmax_q => rvFmtFrdFrs1Frs2
  | .fsqrt_s | .fcvt_s_d | .fcvt_d_s | .fsqrt_d | .fcvt_s_q | .fcvt_q_s | .fcvt_d_q | .fcvt_q_d
  | .fsqrt_q => rvFmtRmFrdFrs1
  | .fle_s | .flt_s | .feq_s | .fle_d | .flt_d | .feq_d | .fle_q | .flt_q | .feq_q => rvFmtRdFrs1Frs2
  | .fcvt_w_s | .fcvt_wu_s | .fcvt_l_s | .fcvt_lu_s | .fcvt_w_d | .fcvt_wu_d | .fcvt_l_d | .fcvt_lu_d | .fcvt_w_q
  | .fcvt_wu_q | .fcvt_l_q | .fcvt_lu_q => rvFmtRmRdFrs1
  | .fcvt_s_w | .fcvt_s_wu | .fcvt_s_l | .fcvt_s_lu | .fcvt_d_w | .fcvt_d_wu | .fcvt_d_l | .fcvt_d_lu | .fcvt_q_w
  | .fcvt_q_wu | .fcvt_q_l | .fcvt_q_lu => rvFmtRmFrdRs1
  | .fmv_x_s | .fclass_s | .fclass_d | .fmv_x_d | .fclass_q | .fmv_x_q => rvFmtRdFrs1
  | .fmv_s_x | .fmv_d_x | .fmv_q_x => rvFmtFrdRs1
  | .mv | .not | .sext_w | .seqz | .sltz | .fmv_s | .fabs_s | .fneg_s | .fmv_d | .fabs_d | .fneg_d | .fmv_q
  | .fabs_q | .fneg_q | .fscsr | .fsrm | .fsflags => rvFmtRdRs1
  | .neg | .negw | .snez | .sgtz => rvFmtRdRs2
  | .beqz | .bnez | .bgez | .bltz => rvFmtRs1Offset
  | .blez | .bgtz => rvFmtRs2Offset
  | .ble | .bleu | .bgt | .bgtu => rvFmtRs2Rs1Offset
  | .j => rvFmtOffset
  | .rdcycle | .rdtime | .rdinstret | .rdcycleh | .rdtimeh | .rdinstreth | .frcsr | .frrm | .frflags => rvFmtRd
  | .fsrmi | .fsflagsi => rvFmtRdZimm

/-- The letters of a format that show an operand, except for the number of a control register. -/
def fmtField : Char → Option Field
  | '0' | '3' => some .rd
  | '1' | '4' | '7' => some .rs1
  | '2' | '5' => some .rs2
  | '6' => some .rs3
  | 'i' | 'o' => some .imm
  | 'r' => some .rm
  | 'p' => some .pred
  | 's' => some .succ
  | 'A' => some .aq
  | 'R' => some .rl
  | _ => none

/-- `to.field = from.field` -/
def Decode.copy (dec p : Decode) : Field → Decode
  | .imm => { dec with imm := p.imm }
  | .rd => { dec with rd := p.rd }
  | .rs1 => { dec with rs1 := p.rs1 }
  | .rs2 => { dec with rs2 := p.rs2 }
  | .rs3 => { dec with rs3 := p.rs3 }
  | .rm => { dec with rm := p.rm }
  | .aq => { dec with aq := p.aq }
  | .rl => { dec with rl := p.rl }
  | .pred => { dec with pred := p.pred }
  | .succ => { dec with succ := p.succ }

/-- What one letter of a format tells of `p`. -/
def showArg (p dec : Decode) (c : Char) : Decode :=
  if c = 'c' then { dec with imm := p.imm % 4096 } else (fmtField c).elim dec (dec.copy p)

/-- What the text of `p` tells: the opcode and the operands that its format shows. -/
def shown (p : Decode) : Decode := (rvInstFormat p.op).foldl (showArg p) { op := p.op }

/-- The registers and the immediate of the record come back from the text of its pseudo-instruction, if it has one. -/
def LosesNothing (d : Decode) : Prop :=
  ∀ p, decodePseudoInst d = some p → ∃ d', encodePseudo (shown p) = some d' ∧ d'.op = d.op ∧ d'.rd = d.rd ∧ d'.rs1 = d.rs1 ∧
    d'.rs2 = d.rs2 ∧ d'.rs3 = d.rs3 ∧ d'.imm = d.imm

/-! ## Fields that agree -/

theorem Decode.get_copy_self (dec p : Decode) (f : Field) : (dec.copy p f).get f = p.get f := by
  cases f <;> rfl

theorem Decode.get_copy_ne (dec p : Decode) {f g : Field} (h : f ≠ g) : (dec.copy p f).get g = dec.get g := by
  cases f <;> cases g <;> first | rfl | exact absurd rfl h

theorem Decode.op_copy (dec p : Decode) (f : Field) : (dec.copy p f).op = dec.op := by
  cases f <;> rfl

/-- A field comes out of the letters as the record has it if a letter shows it, and as it went in otherwise. -/
theorem get_foldl_showArg (p : Decode) (f : Field) {fmt : List Char} (hc : 'c' ∉ fmt) (dec : Decode) :
    (fmt.foldl (showArg p) dec).get f = if f ∈ fmt.filterMap fmtField then p.get f else dec.get f := by
  induction fmt generalizing dec with
  | nil => rfl
  | cons c fmt ih =>
    obtain ⟨hne, hc⟩ := not_or.1 (mt List.mem_cons.2 hc)
    rw [List.foldl_cons, ih hc, showArg, if_neg (Ne.symm hne)]
    cases hf : fmtField c with
    | none => rw [List.filterMap_cons_none hf, Option.elim_none]
    | some g =>
      rw [List.filterMap_cons_some hf, Option.elim_some]
      by_cases hg : f = g
      · subst hg
        rw [Decode.get_copy_self, ite_self, if_pos List.mem_cons_self]
      · rw [Decode.get_copy_ne _ _ (Ne.symm hg)]
        simp only [List.mem_cons, hg, false_or]

theorem op_foldl_showArg (p : Decode) (fmt : List Char) (dec : Decode) : (fmt.foldl (showArg p) dec).op = dec.op := by
  induction fmt generalizing dec with
  | nil => rfl
  | cons c fmt ih =>
    rw [List.foldl_cons, ih, showArg]
    split
    · rfl
    · cases fmtField c with
      | none => rfl
      | some g => exact dec.op_copy p g

theorem shown_op (p : Decode) : (shown p).op = p.op := op_foldl_showArg p _ _

/-- The field that a constraint sets. -/
def constraintField : RvcConstraint → Option Field
  | .rd_eq_rs1 | .rd_eq_ra | .rd_eq_sp | .rd_eq_x0 => some .rd
  | .rs1_eq_sp | .rs1_eq_x0 | .rs1_eq_ra => some .rs1
  | .rs2_eq_x0 | .rs2_eq_rs1 => some .rs2
  | .imm_eq_zero | .imm_eq_n1 | .imm_eq_p1 | .csr_eq_0x001 | .csr_eq_0x002 | .csr_eq_0x003 | .csr_eq_0xc00 | .csr_eq_0xc01
  | .csr_eq_0xc02 | .csr_eq_0xc80 | .csr_eq_0xc81 | .csr_eq_0xc82 => some .imm
  | _ => none

/-- The constraints that copy `rs1`. -/
def readsRs1 (c : RvcConstraint) : Bool := c = .rd_eq_rs1 ∨ c = .rs2_eq_rs1

theorem constraintSets_op (dec : Decode) (c : RvcConstraint) : (constraintSets dec c).op = dec.op := by
  cases c <;> rfl

theorem constraintSet_op (dec : Decode) (cs : List RvcConstraint) : (constraintSet dec cs).op = dec.op := by
  unfold constraintSet
  induction cs generalizing dec with
  | nil => rfl
  | cons c cs ih => exact (ih _).trans (constraintSets_op dec c)

section Agree
variable {d e : Decode} {c : RvcConstraint} {cs : List RvcConstraint} {f : Field}

theorem get_constraintSets_ne (h : constraintField c ≠ some f) : (constraintSets e c).get f = e.get f := by
  cases c <;> cases f <;> first | rfl | exact absurd rfl h

/-- A constraint that holds of a record sets its field as the record has it. -/
theorem get_constraintSets (hc : constraintHolds d c = true) (hr : readsRs1 c = true → e.get .rs1 = d.get .rs1)
    (h : constraintField c = some f) : (constraintSets e c).get f = d.get f := by
  cases c <;> cases h <;> simp_all [constraintHolds, constraintSets, Decode.get, readsRs1]

theorem get_constraintSet_of_forall_ne (h : ∀ c ∈ cs, constraintField c ≠ some f) : (constraintSet e cs).get f = e.get f := by
  unfold constraintSet
  induction cs generalizing e with
  | nil => rfl
  | cons c cs ih =>
    refine (ih fun b hb => h b (List.mem_cons_of_mem c hb)).trans ?_
    exact get_constraintSets_ne (h c List.mem_cons_self)

/-- The constraints that hold of a record set its own values, and leave what agrees with it. -/
theorem get_constraintSet (hcs : constraintCheck d cs = true) (hr : ∀ c ∈ cs, readsRs1 c = true → e.get .rs1 = d.get .rs1)
    (h : e.get f = d.get f ∨ ∃ c ∈ cs, constraintField c = some f) : (constraintSet e cs).get f = d.get f := by
  induction cs generalizing e with
  | nil =>
    rcases h with h | ⟨c, hc, -⟩
    · exact h
    · exact absurd hc List.not_mem_nil
  | cons c cs ih =>
    obtain ⟨hc, hcs⟩ : constraintHolds d c = true ∧ constraintCheck d cs = true := by
      simpa [constraintCheck] using hcs
    have hstep : ∀ g, e.get g = d.get g → (constraintSets e c).get g = d.get g := by
      intro g hg
      by_cases hfield : constraintField c = some g
      · exact get_constraintSets hc (hr c List.mem_cons_self) hfield
      · rw [get_constraintSets_ne hfield, hg]
    refine ih hcs (fun b hb hrb => hstep _ (hr b (List.mem_cons_of_mem c hb) hrb)) ?_
    rcases h with h | ⟨b, hb, hf⟩
    · exact .inl (hstep f h)
    rcases List.mem_cons.1 hb with rfl | hb
    · exact .inl (get_constraintSets hc (hr b List.mem_cons_self) hf)
    · exact .inr ⟨b, hb, hf⟩

end Agree

/-! ## The tables fit each other -/

/-- The operands of a pseudo-instruction. -/
def operandFields : List Field := [.rd, .rs1, .rs2, .rs3, .imm]

/-- The operands that no record of the format has. -/
def zeroFields : RvCodec → List Field
  | .uj => [.rs1, .rs2, .rs3]
  | .i | .i_csr => [.rs2, .rs3]
  | .sb => [.rd, .rs3]
  | .r => [.rs3, .imm]
  | _ => []

theorem get_of_mem_zeroFields {d : Decode} {codec : RvCodec} (h : FormatFits d codec) {f : Field} (hf : f ∈ zeroFields codec) :
    d.get f = 0 := by
  unfold zeroFields at hf
  split at hf <;> simp only [FormatFits, Plain] at h <;> fin_cases hf <;> simp only [Decode.get] <;> omega

/-- The operands of an entry that its pseudo-instruction shows or that its constraints set. -/
def RvCompData.tells (compData : RvCompData) (f : Field) : Prop :=
  f ∈ (rvInstFormat compData.op).filterMap fmtField ∨ ∃ c ∈ compData.constraints, constraintField c = some f

instance (compData : RvCompData) (f : Field) : Decidable (compData.tells f) :=
  inferInstanceAs (Decidable (f ∈ _ ∨ ∃ c ∈ compData.constraints, constraintField c = some f))

/-- Two entries keep an immediate back. -/
def RvCompData.hides (compData : RvCompData) (f : Field) : Prop := f = .imm ∧ (compData.op = .sext_w ∨ compData.op = .ret)

instance (compData : RvCompData) (f : Field) : Decidable (compData.hides f) :=
  inferInstanceAs (Decidable (f = .imm ∧ (compData.op = .sext_w ∨ compData.op = .ret)))

section Entry
variable {op : RvOp} {compData : RvCompData}

/-- What holds of every entry of the table. -/
structure RvCompData.Entry (op : RvOp) (compData : RvCompData) : Prop where
  depseudo : rvInstDepseudo compData.op = some ⟨op, compData.constraints⟩
  format : 'c' ∉ rvInstFormat compData.op
  rs1 : ∀ c ∈ compData.constraints, readsRs1 c = true → .rs1 ∈ (rvInstFormat compData.op).filterMap fmtField
  tells : ∀ f ∈ operandFields, compData.hides f ∨ compData.tells f ∨ f ∈ zeroFields (rvInstCodec op)
  hides : ∀ f ∈ operandFields, compData.hides f → ¬ compData.tells f

theorem entry_of_mem (h : compData ∈ rvInstPseudo op) : compData.Entry op := by
  unfold rvInstPseudo at h
  split at h <;> fin_cases h <;> exact ⟨rfl, by decide, by decide, by decide, by decide⟩

theorem rvInstDepseudo_of_mem (h : compData ∈ rvInstPseudo op) : rvInstDepseudo compData.op = some ⟨op, compData.constraints⟩ :=
  (entry_of_mem h).depseudo

theorem format_of_mem (h : compData ∈ rvInstPseudo op) : 'c' ∉ rvInstFormat compData.op := (entry_of_mem h).format

/-- A constraint that copies `rs1` has it from the text. -/
theorem rs1_of_mem (h : compData ∈ rvInstPseudo op) : ∀ c ∈ compData.constraints, readsRs1 c = true →
    .rs1 ∈ (rvInstFormat compData.op).filterMap fmtField := (entry_of_mem h).rs1

theorem tells_of_mem (h : compData ∈ rvInstPseudo op) : ∀ f ∈ operandFields,
    compData.hides f ∨ compData.tells f ∨ f ∈ zeroFields (rvInstCodec op) := (entry_of_mem h).tells

theorem not_tells_of_hides (h : compData ∈ rvInstPseudo op) : ∀ f ∈ operandFields, compData.hides f → ¬ compData.tells f :=
  (entry_of_mem h).hides

end Entry

/-! ## What comes back -/

section Record
variable {d p : Decode}

theorem entry_of_decodePseudoInst (h : decodePseudoInst d = some p) :
    ∃ compData ∈ rvInstPseudo d.op, constraintCheck d compData.constraints = true ∧
      p = { d with op := compData.op, codec := rvInstCodec compData.op } := by
  obtain ⟨compData, hfind, rfl⟩ := Option.map_eq_some_iff.1 h
  exact ⟨compData, List.mem_of_find?_eq_some hfind, by simpa using List.find?_some hfind, rfl⟩

variable {compData : RvCompData} (hmem : compData ∈ rvInstPseudo d.op)
include hmem

/-- The text of the pseudo-instruction, before the constraints are put back. -/
def shownAs (d : Decode) (compData : RvCompData) : Decode :=
  { shown { d with op := compData.op, codec := rvInstCodec compData.op } with op := d.op, codec := rvInstCodec d.op }

theorem encodePseudo_shown : encodePseudo (shown { d with op := compData.op, codec := rvInstCodec compData.op }) =
    some (constraintSet (shownAs d compData) compData.constraints) := by
  rw [encodePseudo, shown_op, rvInstDepseudo_of_mem hmem]
  rfl

theorem get_shownAs (f : Field) : (shownAs d compData).get f =
    if f ∈ (rvInstFormat compData.op).filterMap fmtField then d.get f else ({} : Decode).get f := by
  have h := get_foldl_showArg { d with op := compData.op, codec := rvInstCodec compData.op } f (format_of_mem hmem) { op := compData.op }
  cases f <;> exact h

theorem get_encodePseudo (hcheck : constraintCheck d compData.constraints = true) {f : Field}
    (h : compData.tells f ∨ d.get f = 0) : (constraintSet (shownAs d compData) compData.constraints).get f = d.get f := by
  refine get_constraintSet hcheck (fun c hc hr => ?_) ?_
  · rw [get_shownAs hmem, if_pos (rs1_of_mem hmem c hc hr)]
  · rcases h with (hshown | hset) | hzero
    · rw [get_shownAs hmem, if_pos hshown]
      exact .inl rfl
    · exact .inr hset
    · rw [get_shownAs hmem]
      split
      · exact .inl rfl
      · rw [hzero]
        cases f <;> exact .inl rfl

/-- The immediate that an entry hides comes back as zero. -/
theorem get_encodePseudo_of_hides {f : Field} (hf : f ∈ operandFields) (h : compData.hides f) :
    (constraintSet (shownAs d compData) compData.constraints).get f = 0 := by
  have htells := not_tells_of_hides hmem f hf h
  rw [get_constraintSet_of_forall_ne fun c hc hfield => htells (.inr ⟨c, hc, hfield⟩), get_shownAs hmem,
    if_neg fun hshown => htells (.inl hshown), h.1]
  rfl

/-! The two entries that hide an immediate. -/

theorem op_of_sext_w (h : compData.op = .sext_w) : d.op = .addiw := by
  have hop := rvInstDepseudo_of_mem hmem
  rw [h] at hop
  exact (congrArg RvCompData.op (Option.some.inj hop)).symm

theorem operands_of_ret (hcheck : constraintCheck d compData.constraints = true) (h : compData.op = .ret) :
    d.op = .jalr ∧ d.rd = 0 ∧ d.rs1 = 1 := by
  have hop := rvInstDepseudo_of_mem hmem
  rw [h] at hop
  obtain ⟨hjalr, hcs⟩ := RvCompData.mk.inj (Option.some.inj hop)
  rw [← hcs] at hcheck
  exact ⟨hjalr.symm, by simpa [constraintCheck, rvccRet, constraintHolds] using hcheck⟩

end Record

/-! ## The lifting of a record that fits its format -/

/-- The records that the lifting hides an immediate of: `addiw` becomes `sext.w`, and a jump to what `ra` points at `ret`. -/
def HidesImm (d : Decode) : Prop := d.op = .addiw ∨ d.op = .jalr ∧ d.rd = 0 ∧ d.rs1 = 1

section Fits
variable {d : Decode} (hfits : FormatFits d (rvInstCodec d.op))
include hfits

theorem decodePseudoInst_of_hidesImm (h : HidesImm d) :
    ∃ compData ∈ rvInstPseudo d.op, compData.hides .imm ∧
      decodePseudoInst d = some { d with op := compData.op, codec := rvInstCodec compData.op } := by
  rcases h with hop | ⟨hop, hrd, hrs1⟩
  · rw [hop] at hfits ⊢
    have hrs2 : d.rs2 = 0 := hfits.2.2.1
    refine ⟨⟨.sext_w, rvccSextW⟩, List.mem_singleton_self _, by decide, ?_⟩
    simp [decodePseudoInst, hop, rvInstPseudo, constraintCheck, rvccSextW, constraintHolds, hrs2]
  · rw [hop]
    refine ⟨⟨.ret, rvccRet⟩, List.mem_cons_self, by decide, ?_⟩
    simp [decodePseudoInst, hop, rvInstPseudo, constraintCheck, rvccRet, constraintHolds, hrd, hrs1]

theorem losesNothing_of_not_hidesImm (h : d.imm = 0 ∨ ¬ HidesImm d) : LosesNothing d := by
  intro p hp
  obtain ⟨compData, hmem, hcheck, rfl⟩ := entry_of_decodePseudoInst hp
  have hget : ∀ f ∈ operandFields, (constraintSet (shownAs d compData) compData.constraints).get f = d.get f := by
    intro f hf
    refine get_encodePseudo hmem hcheck ?_
    rcases tells_of_mem hmem f hf with ⟨rfl, hop⟩ | htells | hzero
    · refine .inr (h.resolve_right fun hhides => hhides ?_)
      exact hop.imp (op_of_sext_w hmem) (operands_of_ret hmem hcheck)
    · exact .inl htells
    · exact .inr (get_of_mem_zeroFields hfits hzero)
  refine ⟨_, encodePseudo_shown hmem, constraintSet_op _ _, ?_⟩
  simpa [operandFields, Decode.get] using hget

theorem losesNothing_iff : LosesNothing d ↔ d.imm = 0 ∨ ¬ HidesImm d := by
  refine ⟨fun h => ?_, losesNothing_of_not_hidesImm hfits⟩
  by_contra! himm
  obtain ⟨compData, hmem, hhides, hdecode⟩ := decodePseudoInst_of_hidesImm hfits himm.2
  obtain ⟨d', hencode, -, -, -, -, -, hd'⟩ := h _ hdecode
  rw [encodePseudo_shown hmem] at hencode
  have hzero := get_encodePseudo_of_hides hmem (f := .imm) (by decide) hhides
  rw [Option.some.inj hencode] at hzero
  exact himm.1 (hd'.symm.trans hzero)

end Fits

/-- Lifting a record to a pseudo-instruction loses nothing just where the record is no `addiw` and no jump to `imm(ra)`
without a link, or its immediate is 0. -/
theorem pseudo_losesNothing_iff (d : Decode) (hfits : FormatFits d (rvInstCodec d.op)) :
    LosesNothing d ↔ d.imm = 0 ∨ d.op ≠ .addiw ∧ ¬ (d.op = .jalr ∧ d.rd = 0 ∧ d.rs1 = 1) := by
  rw [losesNothing_iff hfits, HidesImm, not_or]

/-- `xori a0, a1, -1` is shown as `not a0, a1`. -/
theorem pseudo_losesNothing_iff_not : LosesNothing { op := .xori, rd := 10, rs1 := 11, imm := -1 } := by
  have hfits : FormatFits { op := .xori, rd := 10, rs1 := 11, imm := -1 } .i := by simp [FormatFits, Plain]
  exact (pseudo_losesNothing_iff _ hfits).2 (.inr (by decide))

/-- `addiw a0, a0, 5` is shown as `sext.w a0, a0`. -/
theorem not_losesNothing_addiw :
    ∃ d : Decode, FormatFits d (rvInstCodec d.op) ∧ (decodePseudoInst d).isSome = true ∧ ¬ LosesNothing d := by
  have hfits : FormatFits { op := .addiw, rd := 10, rs1 := 10, imm := 5 } .i := by simp [FormatFits, Plain]
  refine ⟨_, hfits, by decide, fun h => ?_⟩
  rcases (losesNothing_iff hfits).1 h with himm | hhides
  · exact absurd himm (by decide)
  · exact hhides (.inl rfl)

end Rv8.Asm
