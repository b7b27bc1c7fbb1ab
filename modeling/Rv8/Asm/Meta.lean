/-!
# Opcode tables

The opcode, codec and constraint enumerations of `meta.h` and the tables of
`meta.cc` that the decoder, the encoder and the (de)compressor index by opcode.
-/

namespace Rv8.Asm

/-- The register width an instruction is decoded for. -/
inductive Xlen where
  | rv32 | rv64 | rv128
deriving DecidableEq, Repr

/-! ## Enumerations -/

inductive RvCodec where
  | illegal | none | u | uj | i | i_sh5 | i_sh6 | i_sh7 | i_csr | s | sb | r | r_m | r4_m | r_a | r_l | r_f
  | cb | cb_imm | cb_sh5 | cb_sh6 | ci | ci_sh5 | ci_sh6 | ci_16sp | ci_lwsp | ci_ldsp | ci_lqsp | ci_li
  | ci_lui | ci_none | ciw_4spn | cj | cj_jal | cl_lw | cl_ld | cl_lq | cr | cr_mv | cr_jalr | cr_jr | cs
  | cs_sw | cs_sd | cs_sq | css_swsp | css_sdsp | css_sqsp
deriving DecidableEq, Repr

inductive RvOp where
  | illegal | lui | auipc | jal | jalr | beq | bne | blt | bge | bltu | bgeu | lb | lh | lw | lbu | lhu | sb
  | sh | sw | addi | slti | sltiu | xori | ori | andi | slli | srli | srai | add | sub | sll | slt | sltu | xor
  | srl | sra | or | and | fence | fence_i | lwu | ld | sd | addiw | slliw | srliw | sraiw | addw | subw | sllw
  | srlw | sraw | ldu | lq | sq | addid | sllid | srlid | sraid | addd | subd | slld | srld | srad | mul | mulh
  | mulhsu | mulhu | div | divu | rem | remu | mulw | divw | divuw | remw | remuw | muld | divd | divud | remd
  | remud | lr_w | sc_w | amoswap_w | amoadd_w | amoxor_w | amoor_w | amoand_w | amomin_w | amomax_w
  | amominu_w | amomaxu_w | lr_d | sc_d | amoswap_d | amoadd_d | amoxor_d | amoor_d | amoand_d | amomin_d
  | amomax_d | amominu_d | amomaxu_d | lr_q | sc_q | amoswap_q | amoadd_q | amoxor_q | amoor_q | amoand_q
  | amomin_q | amomax_q | amominu_q | amomaxu_q | ecall | ebreak | uret | sret | hret | mret | dret | sfence_vm
  | wfi | csrrw | csrrs | csrrc | csrrwi | csrrsi | csrrci | flw | fsw | fmadd_s | fmsub_s | fnmsub_s
  | fnmadd_s | fadd_s | fsub_s | fmul_s | fdiv_s | fsgnj_s | fsgnjn_s | fsgnjx_s | fmin_s | fmax_s | fsqrt_s
  | fle_s | flt_s | feq_s | fcvt_w_s | fcvt_wu_s | fcvt_s_w | fcvt_s_wu | fmv_x_s | fclass_s | fmv_s_x
  | fcvt_l_s | fcvt_lu_s | fcvt_s_l | fcvt_s_lu | fld | fsd | fmadd_d | fmsub_d | fnmsub_d | fnmadd_d | fadd_d
  | fsub_d | fmul_d | fdiv_d | fsgnj_d | fsgnjn_d | fsgnjx_d | fmin_d | fmax_d | fcvt_s_d | fcvt_d_s | fsqrt_d
  | fle_d | flt_d | feq_d | fcvt_w_d | fcvt_wu_d | fcvt_d_w | fcvt_d_wu | fclass_d | fcvt_l_d | fcvt_lu_d
  | fmv_x_d | fcvt_d_l | fcvt_d_lu | fmv_d_x | flq | fsq | fmadd_q | fmsub_q | fnmsub_q | fnmadd_q | fadd_q
  | fsub_q | fmul_q | fdiv_q | fsgnj_q | fsgnjn_q | fsgnjx_q | fmin_q | fmax_q | fcvt_s_q | fcvt_q_s | fcvt_d_q
  | fcvt_q_d | fsqrt_q | fle_q | flt_q | feq_q | fcvt_w_q | fcvt_wu_q | fcvt_q_w | fcvt_q_wu | fclass_q
  | fcvt_l_q | fcvt_lu_q | fcvt_q_l | fcvt_q_lu | fmv_x_q | fmv_q_x | c_addi4spn | c_fld | c_lw | c_flw | c_fsd
  | c_sw | c_fsw | c_nop | c_addi | c_jal | c_li | c_addi16sp | c_lui | c_srli | c_srai | c_andi | c_sub
  | c_xor | c_or | c_and | c_subw | c_addw | c_j | c_beqz | c_bnez | c_slli | c_fldsp | c_lwsp | c_flwsp | c_jr
  | c_mv | c_ebreak | c_jalr | c_add | c_fsdsp | c_swsp | c_fswsp | c_ld | c_sd | c_addiw | c_ldsp | c_sdsp
  | c_lq | c_sq | c_lqsp | c_sqsp | nop | mv | not | neg | negw | sext_w | seqz | snez | sltz | sgtz | fmv_s
  | fabs_s | fneg_s | fmv_d | fabs_d | fneg_d | fmv_q | fabs_q | fneg_q | beqz | bnez | blez | bgez | bltz
  | bgtz | ble | bleu | bgt | bgtu | j | ret | jr | rdcycle | rdtime | rdinstret | rdcycleh | rdtimeh
  | rdinstreth | frcsr | frrm | frflags | fscsr | fsrm | fsflags | fsrmi | fsflagsi
deriving DecidableEq, Repr

/-- `rvc_end` ends a C array of constraints; here the arrays are lists. -/
inductive RvcConstraint where
  | simm_6 | imm_6 | imm_7 | imm_8 | imm_9 | imm_10 | imm_12 | imm_18 | imm_nz | imm_x2 | imm_x4 | imm_x8
  | imm_x16 | rd_b3 | rs1_b3 | rs2_b3 | rd_eq_rs1 | rd_eq_ra | rd_eq_sp | rd_eq_x0 | rs1_eq_sp | rs1_eq_x0
  | rs2_eq_x0 | rd_ne_x0_x2 | rd_ne_x0 | rs1_ne_x0 | rs2_ne_x0 | rs2_eq_rs1 | rs1_eq_ra | imm_eq_zero
  | imm_eq_n1 | imm_eq_p1 | csr_eq_0x001 | csr_eq_0x002 | csr_eq_0x003 | csr_eq_0xc00 | csr_eq_0xc01
  | csr_eq_0xc02 | csr_eq_0xc80 | csr_eq_0xc81 | csr_eq_0xc82
deriving DecidableEq, Repr

/-! ## Codec, match and mask of each opcode -/

def rvInstCodec : RvOp → RvCodec
  | .illegal => .illegal
  | .lui | .auipc => .u
  | .jal | .j => .uj
  | .jalr | .lb | .lh | .lw | .lbu | .lhu | .addi | .slti | .sltiu | .xori | .ori | .andi | .lwu | .ld | .addiw
  | .ldu | .lq | .addid | .flw | .fld | .flq | .nop | .mv | .not | .sext_w | .seqz | .ret | .jr => .i
  | .beq | .bne | .blt | .bge | .bltu | .bgeu | .beqz | .bnez | .blez | .bgez | .bltz | .bgtz | .ble | .bleu
  | .bgt | .bgtu => .sb
  | .sb | .sh | .sw | .sd | .sq | .fsw | .fsd | .fsq => .s
  | .slli | .srli | .srai => .i_sh7
  | .add | .sub | .sll | .slt | .sltu | .xor | .srl | .sra | .or | .and | .addw | .subw | .sllw | .srlw | .sraw
  | .addd | .subd | .slld | .srld | .srad | .mul | .mulh | .mulhsu | .mulhu | .div | .divu | .rem | .remu
  | .mulw | .divw | .divuw | .remw | .remuw | .muld | .divd | .divud | .remd | .remud | .sfence_vm | .fsgnj_s
  | .fsgnjn_s | .fsgnjx_s | .fmin_s | .fmax_s | .fle_s | .flt_s | .feq_s | .fmv_x_s | .fclass_s | .fmv_s_x
  | .fsgnj_d | .fsgnjn_d | .fsgnjx_d | .fmin_d | .fmax_d | .fle_d | .flt_d | .feq_d | .fclass_d | .fmv_x_d
  | .fmv_d_x | .fsgnj_q | .fsgnjn_q | .fsgnjx_q | .fmin_q | .fmax_q | .fle_q | .flt_q | .feq_q | .fclass_q
  | .fmv_x_q | .fmv_q_x | .neg | .negw | .snez | .sltz | .sgtz | .fmv_s | .fabs_s | .fneg_s | .fmv_d | .fabs_d
  | .fneg_d | .fmv_q | .fabs_q | .fneg_q => .r
  | .fence => .r_f
  | .fence_i | .ecall | .ebreak | .uret | .sret | .hret | .mret | .dret | .wfi => .none
  | .slliw | .srliw | .sraiw => .i_sh5
  | .sllid | .srlid | .sraid => .i_sh6
  | .lr_w | .lr_d | .lr_q => .r_l
  | .sc_w | .amoswap_w | .amoadd_w | .amoxor_w | .amoor_w | .amoand_w | .amomin_w | .amomax_w | .amominu_w
  | .amomaxu_w | .sc_d | .amoswap_d | .amoadd_d | .amoxor_d | .amoor_d | .amoand_d | .amomin_d | .amomax_d
  | .amominu_d | .amomaxu_d | .sc_q | .amoswap_q | .amoadd_q | .amoxor_q | .amoor_q | .amoand_q | .amomin_q
  | .amomax_q | .amominu_q | .amomaxu_q => .r_a
  | .csrrw | .csrrs | .csrrc | .csrrwi | .csrrsi | .csrrci | .rdcycle | .rdtime | .rdinstret | .rdcycleh
  | .rdtimeh | .rdinstreth | .frcsr | .frrm | .frflags | .fscsr | .fsrm | .fsflags | .fsrmi
  | .fsflagsi => .i_csr
  | .fmadd_s | .fmsub_s | .fnmsub_s | .fnmadd_s | .fmadd_d | .fmsub_d | .fnmsub_d | .fnmadd_d | .fmadd_q
  | .fmsub_q | .fnmsub_q | .fnmadd_q => .r4_m
  | .fadd_s | .fsub_s | .fmul_s | .fdiv_s | .fsqrt_s | .fcvt_w_s | .fcvt_wu_s | .fcvt_s_w | .fcvt_s_wu
  | .fcvt_l_s | .fcvt_lu_s | .fcvt_s_l | .fcvt_s_lu | .fadd_d | .fsub_d | .fmul_d | .fdiv_d | .fcvt_s_d
  | .fcvt_d_s | .fsqrt_d | .fcvt_w_d | .fcvt_wu_d | .fcvt_d_w | .fcvt_d_wu | .fcvt_l_d | .fcvt_lu_d | .fcvt_d_l
  | .fcvt_d_lu | .fadd_q | .fsub_q | .fmul_q | .fdiv_q | .fcvt_s_q | .fcvt_q_s | .fcvt_d_q | .fcvt_q_d
  | .fsqrt_q | .fcvt_w_q | .fcvt_wu_q | .fcvt_q_w | .fcvt_q_wu | .fcvt_l_q | .fcvt_lu_q | .fcvt_q_l
  | .fcvt_q_lu => .r_m
  | .c_addi4spn => .ciw_4spn
  | .c_fld | .c_ld => .cl_ld
  | .c_lw | .c_flw => .cl_lw
  | .c_fsd | .c_sd => .cs_sd
  | .c_sw | .c_fsw => .cs_sw
  | .c_nop | .c_ebreak => .ci_none
  | .c_addi | .c_addiw => .ci
  | .c_jal => .cj_jal
  | .c_li => .ci_li
  | .c_addi16sp => .ci_16sp
  | .c_lui => .ci_lui
  | .c_srli | .c_srai => .cb_sh6
  | .c_andi => .cb_imm
  | .c_sub | .c_xor | .c_or | .c_and | .c_subw | .c_addw => .cs
  | .c_j => .cj
  | .c_beqz | .c_bnez => .cb
  | .c_slli => .ci_sh6
  | .c_fldsp | .c_ldsp => .ci_ldsp
  | .c_lwsp | .c_flwsp => .ci_lwsp
  | .c_jr => .cr_jr
  | .c_mv => .cr_mv
  | .c_jalr => .cr_jalr
  | .c_add => .cr
  | .c_fsdsp | .c_sdsp => .css_sdsp
  | .c_swsp | .c_fswsp => .css_swsp
  | .c_lq => .cl_lq
  | .c_sq => .cs_sq
  | .c_lqsp => .ci_lqsp
  | .c_sqsp => .css_sqsp

def rvInstMatch : RvOp → Nat
  | .illegal => 0x0 | .lui => 0x37 | .auipc => 0x17 | .jal => 0x6f | .jalr => 0x67 | .beq => 0x63
  | .bne => 0x1063 | .blt => 0x4063 | .bge => 0x5063 | .bltu => 0x6063 | .bgeu => 0x7063 | .lb => 0x3
  | .lh => 0x1003 | .lw => 0x2003 | .lbu => 0x4003 | .lhu => 0x5003 | .sb => 0x23 | .sh => 0x1023
  | .sw => 0x2023 | .addi => 0x13 | .slti => 0x2013 | .sltiu => 0x3013 | .xori => 0x4013 | .ori => 0x6013
  | .andi => 0x7013 | .slli => 0x1013 | .srli => 0x5013 | .srai => 0x40005013 | .add => 0x33
  | .sub => 0x40000033 | .sll => 0x1033 | .slt => 0x2033 | .sltu => 0x3033 | .xor => 0x4033 | .srl => 0x5033
  | .sra => 0x40005033 | .or => 0x6033 | .and => 0x7033 | .fence => 0xf | .fence_i => 0x100f | .lwu => 0x6003
  | .ld => 0x3003 | .sd => 0x3023 | .addiw => 0x1b | .slliw => 0x101b | .srliw => 0x501b | .sraiw => 0x4000501b
  | .addw => 0x3b | .subw => 0x4000003b | .sllw => 0x103b | .srlw => 0x503b | .sraw => 0x4000503b
  | .ldu => 0x7003 | .lq => 0x200f | .sq => 0x4023 | .addid => 0x5b | .sllid => 0x105b | .srlid => 0x505b
  | .sraid => 0x4000505b | .addd => 0x7b | .subd => 0x4000007b | .slld => 0x107b | .srld => 0x507b
  | .srad => 0x4000507b | .mul => 0x2000033 | .mulh => 0x2001033 | .mulhsu => 0x2002033 | .mulhu => 0x2003033
  | .div => 0x2004033 | .divu => 0x2005033 | .rem => 0x2006033 | .remu => 0x2007033 | .mulw => 0x200003b
  | .divw => 0x200403b | .divuw => 0x200503b | .remw => 0x200603b | .remuw => 0x200703b | .muld => 0x200007b
  | .divd => 0x200407b | .divud => 0x200507b | .remd => 0x200607b | .remud => 0x200707b | .lr_w => 0x1000202f
  | .sc_w => 0x1800202f | .amoswap_w => 0x800202f | .amoadd_w => 0x202f | .amoxor_w => 0x2000202f
  | .amoor_w => 0x4000202f | .amoand_w => 0x6000202f | .amomin_w => 0x8000202f | .amomax_w => 0xa000202f
  | .amominu_w => 0xc000202f | .amomaxu_w => 0xe000202f | .lr_d => 0x1000302f | .sc_d => 0x1800302f
  | .amoswap_d => 0x800302f | .amoadd_d => 0x302f | .amoxor_d => 0x2000302f | .amoor_d => 0x4000302f
  | .amoand_d => 0x6000302f | .amomin_d => 0x8000302f | .amomax_d => 0xa000302f | .amominu_d => 0xc000302f
  | .amomaxu_d => 0xe000302f | .lr_q => 0x1000402f | .sc_q => 0x1800402f | .amoswap_q => 0x800402f
  | .amoadd_q => 0x402f | .amoxor_q => 0x2000402f | .amoor_q => 0x4000402f | .amoand_q => 0x6000402f
  | .amomin_q => 0x8000402f | .amomax_q => 0xa000402f | .amominu_q => 0xc000402f | .amomaxu_q => 0xe000402f
  | .ecall => 0x73 | .ebreak => 0x100073 | .uret => 0x200073 | .sret => 0x10200073 | .hret => 0x20200073
  | .mret => 0x30200073 | .dret => 0x7b200073 | .sfence_vm => 0x10400073 | .wfi => 0x10500073
  | .csrrw => 0x1073 | .csrrs => 0x2073 | .csrrc => 0x3073 | .csrrwi => 0x5073 | .csrrsi => 0x6073
  | .csrrci => 0x7073 | .flw => 0x2007 | .fsw => 0x2027 | .fmadd_s => 0x43 | .fmsub_s => 0x47
  | .fnmsub_s => 0x4b | .fnmadd_s => 0x4f | .fadd_s => 0x53 | .fsub_s => 0x8000053 | .fmul_s => 0x10000053
  | .fdiv_s => 0x18000053 | .fsgnj_s => 0x20000053 | .fsgnjn_s => 0x20001053 | .fsgnjx_s => 0x20002053
  | .fmin_s => 0x28000053 | .fmax_s => 0x28001053 | .fsqrt_s => 0x58000053 | .fle_s => 0xa0000053
  | .flt_s => 0xa0001053 | .feq_s => 0xa0002053 | .fcvt_w_s => 0xc0000053 | .fcvt_wu_s => 0xc0100053
  | .fcvt_s_w => 0xd0000053 | .fcvt_s_wu => 0xd0100053 | .fmv_x_s => 0xe0000053 | .fclass_s => 0xe0001053
  | .fmv_s_x => 0xf0000053 | .fcvt_l_s => 0xc0200053 | .fcvt_lu_s => 0xc0300053 | .fcvt_s_l => 0xd0200053
  | .fcvt_s_lu => 0xd0300053 | .fld => 0x3007 | .fsd => 0x3027 | .fmadd_d => 0x2000043 | .fmsub_d => 0x2000047
  | .fnmsub_d => 0x200004b | .fnmadd_d => 0x200004f | .fadd_d => 0x2000053 | .fsub_d => 0xa000053
  | .fmul_d => 0x12000053 | .fdiv_d => 0x1a000053 | .fsgnj_d => 0x22000053 | .fsgnjn_d => 0x22001053
  | .fsgnjx_d => 0x22002053 | .fmin_d => 0x2a000053 | .fmax_d => 0x2a001053 | .fcvt_s_d => 0x40100053
  | .fcvt_d_s => 0x42000053 | .fsqrt_d => 0x5a000053 | .fle_d => 0xa2000053 | .flt_d => 0xa2001053
  | .feq_d => 0xa2002053 | .fcvt_w_d => 0xc2000053 | .fcvt_wu_d => 0xc2100053 | .fcvt_d_w => 0xd2000053
  | .fcvt_d_wu => 0xd2100053 | .fclass_d => 0xe2001053 | .fcvt_l_d => 0xc2200053 | .fcvt_lu_d => 0xc2300053
  | .fmv_x_d => 0xe2000053 | .fcvt_d_l => 0xd2200053 | .fcvt_d_lu => 0xd2300053 | .fmv_d_x => 0xf2000053
  | .flq => 0x4007 | .fsq => 0x4027 | .fmadd_q => 0x6000043 | .fmsub_q => 0x6000047 | .fnmsub_q => 0x600004b
  | .fnmadd_q => 0x600004f | .fadd_q => 0x6000053 | .fsub_q => 0xe000053 | .fmul_q => 0x16000053
  | .fdiv_q => 0x1e000053 | .fsgnj_q => 0x26000053 | .fsgnjn_q => 0x26001053 | .fsgnjx_q => 0x26002053
  | .fmin_q => 0x2e000053 | .fmax_q => 0x2e001053 | .fcvt_s_q => 0x40300053 | .fcvt_q_s => 0x46000053
  | .fcvt_d_q => 0x42300053 | .fcvt_q_d => 0x46100053 | .fsqrt_q => 0x5e000053 | .fle_q => 0xa6000053
  | .flt_q => 0xa6001053 | .feq_q => 0xa6002053 | .fcvt_w_q => 0xc6000053 | .fcvt_wu_q => 0xc6100053
  | .fcvt_q_w => 0xd6000053 | .fcvt_q_wu => 0xd6100053 | .fclass_q => 0xe6001053 | .fcvt_l_q => 0xc6200053
  | .fcvt_lu_q => 0xc6300053 | .fcvt_q_l => 0xd6200053 | .fcvt_q_lu => 0xd6300053 | .fmv_x_q => 0xe6000053
  | .fmv_q_x => 0xf6000053 | .c_addi4spn => 0x0 | .c_fld => 0x2000 | .c_lw => 0x4000 | .c_flw => 0x6000
  | .c_fsd => 0xa000 | .c_sw => 0xc000 | .c_fsw => 0xe000 | .c_nop => 0x1 | .c_addi => 0x1 | .c_jal => 0x2001
  | .c_li => 0x4001 | .c_addi16sp => 0x6101 | .c_lui => 0x6001 | .c_srli => 0x8001 | .c_srai => 0x8401
  | .c_andi => 0x8801 | .c_sub => 0x8c01 | .c_xor => 0x8c21 | .c_or => 0x8c41 | .c_and => 0x8c61
  | .c_subw => 0x9c01 | .c_addw => 0x9c21 | .c_j => 0xa001 | .c_beqz => 0xc001 | .c_bnez => 0xe001
  | .c_slli => 0x2 | .c_fldsp => 0x2002 | .c_lwsp => 0x4002 | .c_flwsp => 0x6002 | .c_jr => 0x8002
  | .c_mv => 0x8002 | .c_ebreak => 0x9002 | .c_jalr => 0x9002 | .c_add => 0x9002 | .c_fsdsp => 0xa002
  | .c_swsp => 0xc002 | .c_fswsp => 0xe002 | .c_ld => 0x6000 | .c_sd => 0xe000 | .c_addiw => 0x2001
  | .c_ldsp => 0x6002 | .c_sdsp => 0xe002 | .c_lq => 0x2000 | .c_sq => 0xa000 | .c_lqsp => 0x2002
  | .c_sqsp => 0xa002 | .nop => 0x0 | .mv => 0x0 | .not => 0x0 | .neg => 0x0 | .negw => 0x0 | .sext_w => 0x0
  | .seqz => 0x0 | .snez => 0x0 | .sltz => 0x0 | .sgtz => 0x0 | .fmv_s => 0x0 | .fabs_s => 0x0 | .fneg_s => 0x0
  | .fmv_d => 0x0 | .fabs_d => 0x0 | .fneg_d => 0x0 | .fmv_q => 0x0 | .fabs_q => 0x0 | .fneg_q => 0x0
  | .beqz => 0x0 | .bnez => 0x0 | .blez => 0x0 | .bgez => 0x0 | .bltz => 0x0 | .bgtz => 0x0 | .ble => 0x0
  | .bleu => 0x0 | .bgt => 0x0 | .bgtu => 0x0 | .j => 0x0 | .ret => 0x0 | .jr => 0x0 | .rdcycle => 0x0
  | .rdtime => 0x0 | .rdinstret => 0x0 | .rdcycleh => 0x0 | .rdtimeh => 0x0 | .rdinstreth => 0x0
  | .frcsr => 0x0 | .frrm => 0x0 | .frflags => 0x0 | .fscsr => 0x0 | .fsrm => 0x0 | .fsflags => 0x0
  | .fsrmi => 0x0 | .fsflagsi => 0x0

def rvInstMask : RvOp → Nat
  | .illegal => 0x0 | .lui => 0x7f | .auipc => 0x7f | .jal => 0x7f | .jalr => 0x707f | .beq => 0x707f
  | .bne => 0x707f | .blt => 0x707f | .bge => 0x707f | .bltu => 0x707f | .bgeu => 0x707f | .lb => 0x707f
  | .lh => 0x707f | .lw => 0x707f | .lbu => 0x707f | .lhu => 0x707f | .sb => 0x707f | .sh => 0x707f
  | .sw => 0x707f | .addi => 0x707f | .slti => 0x707f | .sltiu => 0x707f | .xori => 0x707f | .ori => 0x707f
  | .andi => 0x707f | .slli => 0xf800707f | .srli => 0xf800707f | .srai => 0xf800707f | .add => 0xfe00707f
  | .sub => 0xfe00707f | .sll => 0xfe00707f | .slt => 0xfe00707f | .sltu => 0xfe00707f | .xor => 0xfe00707f
  | .srl => 0xfe00707f | .sra => 0xfe00707f | .or => 0xfe00707f | .and => 0xfe00707f | .fence => 0x707f
  | .fence_i => 0x707f | .lwu => 0x707f | .ld => 0x707f | .sd => 0x707f | .addiw => 0x707f
  | .slliw => 0xfe00707f | .srliw => 0xfe00707f | .sraiw => 0xfe00707f | .addw => 0xfe00707f
  | .subw => 0xfe00707f | .sllw => 0xfe00707f | .srlw => 0xfe00707f | .sraw => 0xfe00707f | .ldu => 0x707f
  | .lq => 0x707f | .sq => 0x707f | .addid => 0x707f | .sllid => 0xfc00707f | .srlid => 0xfc00707f
  | .sraid => 0xfc00707f | .addd => 0xfe00707f | .subd => 0xfe00707f | .slld => 0xfe00707f
  | .srld => 0xfe00707f | .srad => 0xfe00707f | .mul => 0xfe00707f | .mulh => 0xfe00707f
  | .mulhsu => 0xfe00707f | .mulhu => 0xfe00707f | .div => 0xfe00707f | .divu => 0xfe00707f
  | .rem => 0xfe00707f | .remu => 0xfe00707f | .mulw => 0xfe00707f | .divw => 0xfe00707f | .divuw => 0xfe00707f
  | .remw => 0xfe00707f | .remuw => 0xfe00707f | .muld => 0xfe00707f | .divd => 0xfe00707f
  | .divud => 0xfe00707f | .remd => 0xfe00707f | .remud => 0xfe00707f | .lr_w => 0xf9f0707f
  | .sc_w => 0xf800707f | .amoswap_w => 0xf800707f | .amoadd_w => 0xf800707f | .amoxor_w => 0xf800707f
  | .amoor_w => 0xf800707f | .amoand_w => 0xf800707f | .amomin_w => 0xf800707f | .amomax_w => 0xf800707f
  | .amominu_w => 0xf800707f | .amomaxu_w => 0xf800707f | .lr_d => 0xf9f0707f | .sc_d => 0xf800707f
  | .amoswap_d => 0xf800707f | .amoadd_d => 0xf800707f | .amoxor_d => 0xf800707f | .amoor_d => 0xf800707f
  | .amoand_d => 0xf800707f | .amomin_d => 0xf800707f | .amomax_d => 0xf800707f | .amominu_d => 0xf800707f
  | .amomaxu_d => 0xf800707f | .lr_q => 0xf9f0707f | .sc_q => 0xf800707f | .amoswap_q => 0xf800707f
  | .amoadd_q => 0xf800707f | .amoxor_q => 0xf800707f | .amoor_q => 0xf800707f | .amoand_q => 0xf800707f
  | .amomin_q => 0xf800707f | .amomax_q => 0xf800707f | .amominu_q => 0xf800707f | .amomaxu_q => 0xf800707f
  | .ecall => 0xffffffff | .ebreak => 0xffffffff | .uret => 0xffffffff | .sret => 0xffffffff
  | .hret => 0xffffffff | .mret => 0xffffffff | .dret => 0xffffffff | .sfence_vm => 0xfff07fff
  | .wfi => 0xffffffff | .csrrw => 0x707f | .csrrs => 0x707f | .csrrc => 0x707f | .csrrwi => 0x707f
  | .csrrsi => 0x707f | .csrrci => 0x707f | .flw => 0x707f | .fsw => 0x707f | .fmadd_s => 0x600007f
  | .fmsub_s => 0x600007f | .fnmsub_s => 0x600007f | .fnmadd_s => 0x600007f | .fadd_s => 0xfe00007f
  | .fsub_s => 0xfe00007f | .fmul_s => 0xfe00007f | .fdiv_s => 0xfe00007f | .fsgnj_s => 0xfe00707f
  | .fsgnjn_s => 0xfe00707f | .fsgnjx_s => 0xfe00707f | .fmin_s => 0xfe00707f | .fmax_s => 0xfe00707f
  | .fsqrt_s => 0xfff0007f | .fle_s => 0xfe00707f | .flt_s => 0xfe00707f | .feq_s => 0xfe00707f
  | .fcvt_w_s => 0xfff0007f | .fcvt_wu_s => 0xfff0007f | .fcvt_s_w => 0xfff0007f | .fcvt_s_wu => 0xfff0007f
  | .fmv_x_s => 0xfff0707f | .fclass_s => 0xfff0707f | .fmv_s_x => 0xfff0707f | .fcvt_l_s => 0xfff0007f
  | .fcvt_lu_s => 0xfff0007f | .fcvt_s_l => 0xfff0007f | .fcvt_s_lu => 0xfff0007f | .fld => 0x707f
  | .fsd => 0x707f | .fmadd_d => 0x600007f | .fmsub_d => 0x600007f | .fnmsub_d => 0x600007f
  | .fnmadd_d => 0x600007f | .fadd_d => 0xfe00007f | .fsub_d => 0xfe00007f | .fmul_d => 0xfe00007f
  | .fdiv_d => 0xfe00007f | .fsgnj_d => 0xfe00707f | .fsgnjn_d => 0xfe00707f | .fsgnjx_d => 0xfe00707f
  | .fmin_d => 0xfe00707f | .fmax_d => 0xfe00707f | .fcvt_s_d => 0xfff0007f | .fcvt_d_s => 0xfff0007f
  | .fsqrt_d => 0xfff0007f | .fle_d => 0xfe00707f | .flt_d => 0xfe00707f | .feq_d => 0xfe00707f
  | .fcvt_w_d => 0xfff0007f | .fcvt_wu_d => 0xfff0007f | .fcvt_d_w => 0xfff0007f | .fcvt_d_wu => 0xfff0007f
  | .fclass_d => 0xfff0707f | .fcvt_l_d => 0xfff0007f | .fcvt_lu_d => 0xfff0007f | .fmv_x_d => 0xfff0707f
  | .fcvt_d_l => 0xfff0007f | .fcvt_d_lu => 0xfff0007f | .fmv_d_x => 0xfff0707f | .flq => 0x707f
  | .fsq => 0x707f | .fmadd_q => 0x600007f | .fmsub_q => 0x600007f | .fnmsub_q => 0x600007f
  | .fnmadd_q => 0x600007f | .fadd_q => 0xfe00007f | .fsub_q => 0xfe00007f | .fmul_q => 0xfe00007f
  | .fdiv_q => 0xfe00007f | .fsgnj_q => 0xfe00707f | .fsgnjn_q => 0xfe00707f | .fsgnjx_q => 0xfe00707f
  | .fmin_q => 0xfe00707f | .fmax_q => 0xfe00707f | .fcvt_s_q => 0xfff0007f | .fcvt_q_s => 0xfff0007f
  | .fcvt_d_q => 0xfff0007f | .fcvt_q_d => 0xfff0007f | .fsqrt_q => 0xfff0007f | .fle_q => 0xfe00707f
  | .flt_q => 0xfe00707f | .feq_q => 0xfe00707f | .fcvt_w_q => 0xfff0007f | .fcvt_wu_q => 0xfff0007f
  | .fcvt_q_w => 0xfff0007f | .fcvt_q_wu => 0xfff0007f | .fclass_q => 0xfff0707f | .fcvt_l_q => 0xfff0007f
  | .fcvt_lu_q => 0xfff0007f | .fcvt_q_l => 0xfff0007f | .fcvt_q_lu => 0xfff0007f | .fmv_x_q => 0xfff0707f
  | .fmv_q_x => 0xfff0707f | .c_addi4spn => 0xe003 | .c_fld => 0xe003 | .c_lw => 0xe003 | .c_flw => 0xe003
  | .c_fsd => 0xe003 | .c_sw => 0xe003 | .c_fsw => 0xe003 | .c_nop => 0xffff | .c_addi => 0xe003
  | .c_jal => 0xe003 | .c_li => 0xe003 | .c_addi16sp => 0xef83 | .c_lui => 0xe003 | .c_srli => 0xec03
  | .c_srai => 0xec03 | .c_andi => 0xec03 | .c_sub => 0xfc63 | .c_xor => 0xfc63 | .c_or => 0xfc63
  | .c_and => 0xfc63 | .c_subw => 0xfc63 | .c_addw => 0xfc63 | .c_j => 0xe003 | .c_beqz => 0xe003
  | .c_bnez => 0xe003 | .c_slli => 0xe003 | .c_fldsp => 0xe003 | .c_lwsp => 0xe003 | .c_flwsp => 0xe003
  | .c_jr => 0xf07f | .c_mv => 0xf003 | .c_ebreak => 0xffff | .c_jalr => 0xf07f | .c_add => 0xf003
  | .c_fsdsp => 0xe003 | .c_swsp => 0xe003 | .c_fswsp => 0xe003 | .c_ld => 0xe003 | .c_sd => 0xe003
  | .c_addiw => 0xe003 | .c_ldsp => 0xe003 | .c_sdsp => 0xe003 | .c_lq => 0xe003 | .c_sq => 0xe003
  | .c_lqsp => 0xe003 | .c_sqsp => 0xe003 | .nop => 0x0 | .mv => 0x0 | .not => 0x0 | .neg => 0x0 | .negw => 0x0
  | .sext_w => 0x0 | .seqz => 0x0 | .snez => 0x0 | .sltz => 0x0 | .sgtz => 0x0 | .fmv_s => 0x0 | .fabs_s => 0x0
  | .fneg_s => 0x0 | .fmv_d => 0x0 | .fabs_d => 0x0 | .fneg_d => 0x0 | .fmv_q => 0x0 | .fabs_q => 0x0
  | .fneg_q => 0x0 | .beqz => 0x0 | .bnez => 0x0 | .blez => 0x0 | .bgez => 0x0 | .bltz => 0x0 | .bgtz => 0x0
  | .ble => 0x0 | .bleu => 0x0 | .bgt => 0x0 | .bgtu => 0x0 | .j => 0x0 | .ret => 0x0 | .jr => 0x0
  | .rdcycle => 0x0 | .rdtime => 0x0 | .rdinstret => 0x0 | .rdcycleh => 0x0 | .rdtimeh => 0x0
  | .rdinstreth => 0x0 | .frcsr => 0x0 | .frrm => 0x0 | .frflags => 0x0 | .fscsr => 0x0 | .fsrm => 0x0
  | .fsflags => 0x0 | .fsrmi => 0x0 | .fsflagsi => 0x0

/-! ## Decompression -/

def rvInstDecompRv32 : RvOp → RvOp
  | .c_addi4spn => .addi | .c_fld => .fld | .c_lw => .lw | .c_flw => .flw | .c_fsd => .fsd | .c_sw => .sw
  | .c_fsw => .fsw | .c_nop => .addi | .c_addi => .addi | .c_jal => .jal | .c_li => .addi
  | .c_addi16sp => .addi | .c_lui => .lui | .c_srli => .srli | .c_srai => .srai | .c_andi => .andi
  | .c_sub => .sub | .c_xor => .xor | .c_or => .or | .c_and => .and | .c_subw => .subw | .c_addw => .addw
  | .c_j => .jal | .c_beqz => .beq | .c_bnez => .bne | .c_slli => .slli | .c_fldsp => .fld | .c_lwsp => .lw
  | .c_flwsp => .flw | .c_jr => .jalr | .c_mv => .addi | .c_ebreak => .ebreak | .c_jalr => .jalr
  | .c_add => .add | .c_fsdsp => .fsd | .c_swsp => .sw | .c_fswsp => .fsw | _ => .illegal

def rvInstDecompRv64 : RvOp → RvOp
  | .c_addi4spn => .addi | .c_fld => .fld | .c_lw => .lw | .c_fsd => .fsd | .c_sw => .sw | .c_nop => .addi
  | .c_addi => .addi | .c_li => .addi | .c_addi16sp => .addi | .c_lui => .lui | .c_srli => .srli
  | .c_srai => .srai | .c_andi => .andi | .c_sub => .sub | .c_xor => .xor | .c_or => .or | .c_and => .and
  | .c_subw => .subw | .c_addw => .addw | .c_j => .jal | .c_beqz => .beq | .c_bnez => .bne | .c_slli => .slli
  | .c_fldsp => .fld | .c_lwsp => .lw | .c_jr => .jalr | .c_mv => .addi | .c_ebreak => .ebreak
  | .c_jalr => .jalr | .c_add => .add | .c_fsdsp => .fsd | .c_swsp => .sw | .c_ld => .ld | .c_sd => .sd
  | .c_addiw => .addiw | .c_ldsp => .ld | .c_sdsp => .sd | _ => .illegal

def rvInstDecompRv128 : RvOp → RvOp
  | .c_lq => .lq | .c_sq => .sq | .c_lqsp => .lq | .c_sqsp => .sq | _ => .illegal

/-! ## Compression

Each compressible opcode has candidate compressed opcodes, tried in order, with the constraints
under which each applies. -/

@[simp] def rvccCAddi4spn : List RvcConstraint := [.imm_10, .imm_x4, .imm_nz, .rd_b3, .rs1_eq_sp]
@[simp] def rvccCFld : List RvcConstraint := [.imm_8, .imm_x8, .rd_b3, .rs1_b3]
@[simp] def rvccCLw : List RvcConstraint := [.imm_7, .imm_x4, .rd_b3, .rs1_b3]
@[simp] def rvccCFlw : List RvcConstraint := [.imm_7, .imm_x4, .rd_b3, .rs1_b3]
@[simp] def rvccCFsd : List RvcConstraint := [.imm_8, .imm_x8, .rs1_b3, .rs2_b3]
@[simp] def rvccCSw : List RvcConstraint := [.imm_7, .imm_x4, .rs1_b3, .rs2_b3]
@[simp] def rvccCFsw : List RvcConstraint := [.imm_7, .imm_x4, .rs1_b3, .rs2_b3]
@[simp] def rvccCNop : List RvcConstraint := [.rd_eq_x0, .rs1_eq_x0, .rs2_eq_x0]
@[simp] def rvccCAddi : List RvcConstraint := [.simm_6, .rd_ne_x0, .rd_eq_rs1]
@[simp] def rvccCJal : List RvcConstraint := [.imm_12, .imm_x2, .rd_eq_ra]
@[simp] def rvccCLi : List RvcConstraint := [.imm_6, .rd_ne_x0, .rs1_eq_x0]
@[simp] def rvccCAddi16sp : List RvcConstraint := [.imm_10, .imm_x4, .imm_nz, .rd_eq_sp, .rs1_eq_sp]
@[simp] def rvccCLui : List RvcConstraint := [.imm_18, .imm_nz, .rd_ne_x0_x2]
@[simp] def rvccCSrliRv32c : List RvcConstraint := [.imm_nz, .rd_eq_rs1, .rd_b3, .rs1_b3]
@[simp] def rvccCSraiRv32c : List RvcConstraint := [.imm_nz, .rd_eq_rs1, .rd_b3, .rs1_b3]
@[simp] def rvccCAndi : List RvcConstraint := [.imm_nz, .rd_eq_rs1, .rd_b3, .rs1_b3]
@[simp] def rvccCSub : List RvcConstraint := [.rd_eq_rs1, .rd_b3, .rs1_b3, .rs2_b3]
@[simp] def rvccCXor : List RvcConstraint := [.rd_eq_rs1, .rd_b3, .rs1_b3, .rs2_b3]
@[simp] def rvccCOr : List RvcConstraint := [.rd_eq_rs1, .rd_b3, .rs1_b3, .rs2_b3]
@[simp] def rvccCAnd : List RvcConstraint := [.rd_eq_rs1, .rd_b3, .rs1_b3, .rs2_b3]
@[simp] def rvccCSubw : List RvcConstraint := [.rd_eq_rs1, .rd_b3, .rs1_b3, .rs2_b3]
@[simp] def rvccCAddw : List RvcConstraint := [.rd_eq_rs1, .rd_b3, .rs1_b3, .rs2_b3]
@[simp] def rvccCJ : List RvcConstraint := [.imm_12, .imm_x2, .rd_eq_x0]
@[simp] def rvccCBeqz : List RvcConstraint := [.imm_9, .imm_x2, .rs1_b3, .rs2_eq_x0]
@[simp] def rvccCBnez : List RvcConstraint := [.imm_9, .imm_x2, .rs1_b3, .rs2_eq_x0]
@[simp] def rvccCSlliRv32c : List RvcConstraint := [.imm_nz, .rd_ne_x0, .rd_eq_rs1]
@[simp] def rvccCFldsp : List RvcConstraint := [.imm_9, .imm_x8, .rs1_eq_sp]
@[simp] def rvccCLwsp : List RvcConstraint := [.imm_8, .imm_x4, .rd_ne_x0, .rs1_eq_sp]
@[simp] def rvccCFlwsp : List RvcConstraint := [.imm_8, .imm_x4, .rs1_eq_sp]
@[simp] def rvccCJr : List RvcConstraint := [.rd_eq_x0, .rs1_ne_x0]
@[simp] def rvccCMv : List RvcConstraint := [.imm_eq_zero, .rd_ne_x0]
@[simp] def rvccCEbreak : List RvcConstraint := []
@[simp] def rvccCJalr : List RvcConstraint := [.rd_eq_ra, .rs1_ne_x0]
@[simp] def rvccCAdd : List RvcConstraint := [.rd_eq_rs1, .rd_ne_x0, .rs2_ne_x0]
@[simp] def rvccCFsdsp : List RvcConstraint := [.imm_9, .imm_x8, .rs1_eq_sp]
@[simp] def rvccCSwsp : List RvcConstraint := [.imm_8, .imm_x4, .rs1_eq_sp]
@[simp] def rvccCFswsp : List RvcConstraint := [.imm_8, .imm_x4, .rs1_eq_sp]
@[simp] def rvccCLd : List RvcConstraint := [.imm_8, .imm_x8, .rd_b3, .rs1_b3]
@[simp] def rvccCSd : List RvcConstraint := [.imm_8, .imm_x8, .rs1_b3, .rs2_b3]
@[simp] def rvccCAddiw : List RvcConstraint := [.imm_6, .rd_ne_x0, .rd_eq_rs1]
@[simp] def rvccCSrliRv64c : List RvcConstraint := [.imm_nz, .rd_eq_rs1, .rd_b3, .rs1_b3]
@[simp] def rvccCSraiRv64c : List RvcConstraint := [.imm_nz, .rd_eq_rs1, .rd_b3, .rs1_b3]
@[simp] def rvccCSlliRv64c : List RvcConstraint := [.imm_nz, .rd_ne_x0, .rd_eq_rs1]
@[simp] def rvccCLdsp : List RvcConstraint := [.imm_9, .imm_x8, .rd_ne_x0, .rs1_eq_sp]
@[simp] def rvccCSdsp : List RvcConstraint := [.imm_9, .imm_x8, .rs1_eq_sp]
@[simp] def rvccCLq : List RvcConstraint := [.imm_9, .imm_x16]
@[simp] def rvccCSq : List RvcConstraint := [.imm_9, .imm_x16]
@[simp] def rvccCLqsp : List RvcConstraint := [.imm_10, .imm_x16, .rs1_eq_sp]
@[simp] def rvccCSqsp : List RvcConstraint := [.imm_10, .imm_x16, .rs1_eq_sp]

structure RvCompData where
  op : RvOp
  constraints : List RvcConstraint

def rvInstCompRv32 : RvOp → List RvCompData
  | .lui => [⟨.c_lui, rvccCLui⟩]
  | .jal => [⟨.c_jal, rvccCJal⟩, ⟨.c_j, rvccCJ⟩]
  | .jalr => [⟨.c_jr, rvccCJr⟩, ⟨.c_jalr, rvccCJalr⟩]
  | .beq => [⟨.c_beqz, rvccCBeqz⟩]
  | .bne => [⟨.c_bnez, rvccCBnez⟩]
  | .lw => [⟨.c_lw, rvccCLw⟩, ⟨.c_lwsp, rvccCLwsp⟩]
  | .sw => [⟨.c_sw, rvccCSw⟩, ⟨.c_swsp, rvccCSwsp⟩]
  | .addi => [⟨.c_addi4spn, rvccCAddi4spn⟩, ⟨.c_nop, rvccCNop⟩, ⟨.c_addi, rvccCAddi⟩,
  ⟨.c_li, rvccCLi⟩, ⟨.c_addi16sp, rvccCAddi16sp⟩, ⟨.c_mv, rvccCMv⟩]
  | .andi => [⟨.c_andi, rvccCAndi⟩]
  | .slli => [⟨.c_slli, rvccCSlliRv32c⟩]
  | .srli => [⟨.c_srli, rvccCSrliRv32c⟩]
  | .srai => [⟨.c_srai, rvccCSraiRv32c⟩]
  | .add => [⟨.c_add, rvccCAdd⟩]
  | .sub => [⟨.c_sub, rvccCSub⟩]
  | .xor => [⟨.c_xor, rvccCXor⟩]
  | .or => [⟨.c_or, rvccCOr⟩]
  | .and => [⟨.c_and, rvccCAnd⟩]
  | .ebreak => [⟨.c_ebreak, rvccCEbreak⟩]
  | .flw => [⟨.c_flw, rvccCFlw⟩, ⟨.c_flwsp, rvccCFlwsp⟩]
  | .fsw => [⟨.c_fsw, rvccCFsw⟩, ⟨.c_fswsp, rvccCFswsp⟩]
  | .fld => [⟨.c_fld, rvccCFld⟩, ⟨.c_fldsp, rvccCFldsp⟩]
  | .fsd => [⟨.c_fsd, rvccCFsd⟩, ⟨.c_fsdsp, rvccCFsdsp⟩]
  | _ => []

def rvInstCompRv64 : RvOp → List RvCompData
  | .lui => [⟨.c_lui, rvccCLui⟩]
  | .jal => [⟨.c_j, rvccCJ⟩]
  | .jalr => [⟨.c_jr, rvccCJr⟩, ⟨.c_jalr, rvccCJalr⟩]
  | .beq => [⟨.c_beqz, rvccCBeqz⟩]
  | .bne => [⟨.c_bnez, rvccCBnez⟩]
  | .lw => [⟨.c_lw, rvccCLw⟩, ⟨.c_lwsp, rvccCLwsp⟩]
  | .sw => [⟨.c_sw, rvccCSw⟩, ⟨.c_swsp, rvccCSwsp⟩]
  | .addi => [⟨.c_addi4spn, rvccCAddi4spn⟩, ⟨.c_nop, rvccCNop⟩, ⟨.c_addi, rvccCAddi⟩,
  ⟨.c_li, rvccCLi⟩, ⟨.c_addi16sp, rvccCAddi16sp⟩, ⟨.c_mv, rvccCMv⟩]
  | .andi => [⟨.c_andi, rvccCAndi⟩]
  | .slli => [⟨.c_slli, rvccCSlliRv64c⟩]
  | .srli => [⟨.c_srli, rvccCSrliRv64c⟩]
  | .srai => [⟨.c_srai, rvccCSraiRv64c⟩]
  | .add => [⟨.c_add, rvccCAdd⟩]
  | .sub => [⟨.c_sub, rvccCSub⟩]
  | .xor => [⟨.c_xor, rvccCXor⟩]
  | .or => [⟨.c_or, rvccCOr⟩]
  | .and => [⟨.c_and, rvccCAnd⟩]
  | .ld => [⟨.c_ld, rvccCLd⟩, ⟨.c_ldsp, rvccCLdsp⟩]
  | .sd => [⟨.c_sd, rvccCSd⟩, ⟨.c_sdsp, rvccCSdsp⟩]
  | .addiw => [⟨.c_addiw, rvccCAddiw⟩]
  | .addw => [⟨.c_addw, rvccCAddw⟩]
  | .subw => [⟨.c_subw, rvccCSubw⟩]
  | .ebreak => [⟨.c_ebreak, rvccCEbreak⟩]
  | .fld => [⟨.c_fld, rvccCFld⟩, ⟨.c_fldsp, rvccCFldsp⟩]
  | .fsd => [⟨.c_fsd, rvccCFsd⟩, ⟨.c_fsdsp, rvccCFsdsp⟩]
  | _ => []

def rvInstCompRv128 : RvOp → List RvCompData
  | .lq => [⟨.c_lq, rvccCLq⟩, ⟨.c_lqsp, rvccCLqsp⟩]
  | .sq => [⟨.c_sq, rvccCSq⟩, ⟨.c_sqsp, rvccCSqsp⟩]
  | _ => []

end Rv8.Asm
