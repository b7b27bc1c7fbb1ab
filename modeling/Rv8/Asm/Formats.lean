import Rv8.Asm.Codec
/-!
# Instruction formats as sets of records

Which records a format can hold, for every codec: a record fits the format
exactly when some word decodes to it. Also what each encoder makes of a decoded
record.
-/

namespace Rv8.Asm

/-! ## Fields of the record -/

theorem bitField_eq {n : Nat} {v : Int} (h0 : 0 ≤ v) (h : v < 2 ^ n) : (bitField n v : Int) = v := by
  rw [bitField, Int.emod_eq_of_lt h0 h, Int.toNat_of_nonneg h0]

theorem u8_eq {v : Int} (h0 : 0 ≤ v) (h : v < 256) : (u8 v : Int) = v := bitField_eq h0 h

namespace ImmOperand

variable {o : ImmOperand}

theorem decode_nonneg (hs : o.isSigned = false) (inst : Nat) : 0 ≤ o.decode inst := by
  have h := (o.fits_decode inst).1
  rw [hs] at h
  exact h.1

theorem decode_lt (hs : o.isSigned = false) (inst : Nat) : o.decode inst < 2 ^ o.w := by
  have h := (o.fits_decode inst).1
  rw [hs] at h
  exact h.2

theorem s32_of_fits {v : Int} (h : o.Fits v) : s32 v = v := by
  have hw := o.ok.2.2.2.2.2
  have hl := o.low_lt
  obtain ⟨hr, -⟩ := h
  unfold s32
  split at hr
  · rename_i hs
    rw [if_pos hs] at hw
    have : (2 : Int) ^ (o.w - 1) ≤ 2 ^ 31 := pow_le_pow_right₀ (by norm_num) (by omega)
    apply Int.bmod_eq_of_le <;> norm_num <;> omega
  · rename_i hs
    rw [if_neg hs] at hw
    have : (2 : Int) ^ o.w ≤ 2 ^ 31 := pow_le_pow_right₀ (by norm_num) (by omega)
    apply Int.bmod_eq_of_le <;> norm_num <;> omega

theorem s32_decode (inst : Nat) : s32 (o.decode inst) = o.decode inst := s32_of_fits (o.fits_decode inst)

theorem bitField_decode {n : Nat} (hs : o.isSigned = false) (hw : o.w ≤ n) (inst : Nat) :
    (bitField n (o.decode inst) : Int) = o.decode inst :=
  bitField_eq (decode_nonneg hs inst) ((decode_lt hs inst).trans_le (pow_le_pow_right₀ (by norm_num) hw))

theorem u8_decode_b3 (hs : o.isSigned = false) (hw : o.w = 3) (inst : Nat) :
    (u8 (o.decode inst + 8) : Int) = o.decode inst + 8 := by
  have h := decode_lt hs inst
  have h0 := decode_nonneg hs inst
  rw [hw] at h
  exact u8_eq (by omega) (by omega)

/-! An operand that is read into a field and written back leaves its bits of the word. -/

theorem encode_s32 (inst : Nat) : o.encode (s32 (o.decode inst)) = inst &&& o.field := by
  rw [s32_decode, encode_decode]

theorem encode_bitField {n : Nat} (hs : o.isSigned = false) (hw : o.w ≤ n) (inst : Nat) :
    o.encode (bitField n (o.decode inst)) = inst &&& o.field := by
  rw [bitField_decode hs hw, encode_decode]

theorem encode_u8 (hs : o.isSigned = false) (hw : o.w ≤ 8) (inst : Nat) :
    o.encode (u8 (o.decode inst)) = inst &&& o.field := encode_bitField hs hw inst

/-- A three-bit register number has 8 added on decoding and again on encoding. -/
theorem encode_u8_b3 (hs : o.isSigned = false) (hw : o.w = 3) (inst : Nat) :
    o.encode (u8 (o.decode inst + 8) + 8) = inst &&& o.field := by
  rw [u8_decode_b3 hs hw, ← encode_decode]
  apply encode_congr
  rw [hw]
  omega

end ImmOperand

/-! ## The operands of a format -/

/-- The operands that the decoder of a codec reads. -/
def formatOperands : RvCodec → List ImmOperand
  | .illegal | .none | .ci_none => []
  | .u => [operandRd, operandImm20]
  | .uj => [operandRd, operandJimm20]
  | .i => [operandRd, operandRs1, operandImm12]
  | .i_sh5 => [operandRd, operandRs1, operandShamt5]
  | .i_sh6 => [operandRd, operandRs1, operandShamt6]
  | .i_sh7 => [operandRd, operandRs1, operandShamt7]
  | .i_csr => [operandRd, operandRs1, operandCsr12]
  | .s => [operandRs1, operandRs2, operandSimm12]
  | .sb => [operandRs1, operandRs2, operandSbimm12]
  | .r => [operandRd, operandRs1, operandRs2]
  | .r_m => [operandRd, operandRs1, operandRs2, operandRm]
  | .r4_m => [operandRd, operandRs1, operandRs2, operandRs3, operandRm]
  | .r_a => [operandRd, operandRs1, operandRs2, operandAq, operandRl]
  | .r_l => [operandRd, operandRs1, operandAq, operandRl]
  | .r_f => [operandPred, operandSucc]
  | .cb => [operandCrs1q, operandCimmb]
  | .cb_imm => [operandCrs1rdq, operandCimmi]
  | .cb_sh5 => [operandCrs1rdq, operandCimmsh5]
  | .cb_sh6 => [operandCrs1rdq, operandCimmsh6]
  | .ci => [operandCrs1rd, operandCimmi]
  | .ci_sh5 => [operandCrs1rd, operandCimmsh5]
  | .ci_sh6 => [operandCrs1rd, operandCimmsh6]
  | .ci_16sp => [operandCimm16sp]
  | .ci_lwsp => [operandCrd, operandCimmlwsp]
  | .ci_ldsp => [operandCrd, operandCimmldsp]
  | .ci_lqsp => [operandCrd, operandCimmlqsp]
  | .ci_li => [operandCrd, operandCimmi]
  | .ci_lui => [operandCrd, operandCimmui]
  | .ciw_4spn => [operandCrdq, operandCimm4spn]
  | .cj | .cj_jal => [operandCimmj]
  | .cl_lw => [operandCrdq, operandCrs1q, operandCimmw]
  | .cl_ld => [operandCrdq, operandCrs1q, operandCimmd]
  | .cl_lq => [operandCrdq, operandCrs1q, operandCimmq]
  | .cr => [operandCrs1rd, operandCrs2]
  | .cr_mv => [operandCrd, operandCrs2]
  | .cr_jalr | .cr_jr => [operandCrs1]
  | .cs => [operandCrs1rdq, operandCrs2q]
  | .cs_sw => [operandCrs1q, operandCrs2q, operandCimmw]
  | .cs_sd => [operandCrs1q, operandCrs2q, operandCimmd]
  | .cs_sq => [operandCrs1q, operandCrs2q, operandCimmq]
  | .css_swsp => [operandCrs2, operandCimmswsp]
  | .css_sdsp => [operandCrs2, operandCimmsdsp]
  | .css_sqsp => [operandCrs2, operandCimmsqsp]

/-- The bits of the word that they occupy. -/
def formatBits (codec : RvCodec) : Nat := ImmOperand.fields (formatOperands codec)

/-- The operands of a record, as its format stores them. -/
def formatValues (d : Decode) : RvCodec → List (ImmOperand × Int)
  | .illegal | .none | .ci_none => []
  | .u => [(operandRd, d.rd), (operandImm20, d.imm)]
  | .uj => [(operandRd, d.rd), (operandJimm20, d.imm)]
  | .i => [(operandRd, d.rd), (operandRs1, d.rs1), (operandImm12, d.imm)]
  | .i_sh5 => [(operandRd, d.rd), (operandRs1, d.rs1), (operandShamt5, d.imm)]
  | .i_sh6 => [(operandRd, d.rd), (operandRs1, d.rs1), (operandShamt6, d.imm)]
  | .i_sh7 => [(operandRd, d.rd), (operandRs1, d.rs1), (operandShamt7, d.imm)]
  | .i_csr => [(operandRd, d.rd), (operandRs1, d.rs1), (operandCsr12, d.imm)]
  | .s => [(operandRs1, d.rs1), (operandRs2, d.rs2), (operandSimm12, d.imm)]
  | .sb => [(operandRs1, d.rs1), (operandRs2, d.rs2), (operandSbimm12, d.imm)]
  | .r => [(operandRd, d.rd), (operandRs1, d.rs1), (operandRs2, d.rs2)]
  | .r_m => [(operandRd, d.rd), (operandRs1, d.rs1), (operandRs2, d.rs2), (operandRm, d.rm)]
  | .r4_m => [(operandRd, d.rd), (operandRs1, d.rs1), (operandRs2, d.rs2), (operandRs3, d.rs3), (operandRm, d.rm)]
  | .r_a => [(operandRd, d.rd), (operandRs1, d.rs1), (operandRs2, d.rs2), (operandAq, d.aq), (operandRl, d.rl)]
  | .r_l => [(operandRd, d.rd), (operandRs1, d.rs1), (operandAq, d.aq), (operandRl, d.rl)]
  | .r_f => [(operandPred, d.pred), (operandSucc, d.succ)]
  | .cb => [(operandCrs1q, d.rs1 - 8), (operandCimmb, d.imm)]
  | .cb_imm => [(operandCrs1rdq, d.rs1 - 8), (operandCimmi, d.imm)]
  | .cb_sh5 => [(operandCrs1rdq, d.rs1 - 8), (operandCimmsh5, d.imm)]
  | .cb_sh6 => [(operandCrs1rdq, d.rs1 - 8), (operandCimmsh6, d.imm)]
  | .ci => [(operandCrs1rd, d.rs1), (operandCimmi, d.imm)]
  | .ci_sh5 => [(operandCrs1rd, d.rs1), (operandCimmsh5, d.imm)]
  | .ci_sh6 => [(operandCrs1rd, d.rs1), (operandCimmsh6, d.imm)]
  | .ci_16sp => [(operandCimm16sp, d.imm)]
  | .ci_lwsp => [(operandCrd, d.rd), (operandCimmlwsp, d.imm)]
  | .ci_ldsp => [(operandCrd, d.rd), (operandCimmldsp, d.imm)]
  | .ci_lqsp => [(operandCrd, d.rd), (operandCimmlqsp, d.imm)]
  | .ci_li => [(operandCrd, d.rd), (operandCimmi, d.imm)]
  | .ci_lui => [(operandCrd, d.rd), (operandCimmui, d.imm)]
  | .ciw_4spn => [(operandCrdq, d.rd - 8), (operandCimm4spn, d.imm)]
  | .cj | .cj_jal => [(operandCimmj, d.imm)]
  | .cl_lw => [(operandCrdq, d.rd - 8), (operandCrs1q, d.rs1 - 8), (operandCimmw, d.imm)]
  | .cl_ld => [(operandCrdq, d.rd - 8), (operandCrs1q, d.rs1 - 8), (operandCimmd, d.imm)]
  | .cl_lq => [(operandCrdq, d.rd - 8), (operandCrs1q, d.rs1 - 8), (operandCimmq, d.imm)]
  | .cr => [(operandCrs1rd, d.rs1), (operandCrs2, d.rs2)]
  | .cr_mv => [(operandCrd, d.rd), (operandCrs2, d.rs1)]
  | .cr_jalr | .cr_jr => [(operandCrs1, d.rs1)]
  | .cs => [(operandCrs1rdq, d.rs1 - 8), (operandCrs2q, d.rs2 - 8)]
  | .cs_sw => [(operandCrs1q, d.rs1 - 8), (operandCrs2q, d.rs2 - 8), (operandCimmw, d.imm)]
  | .cs_sd => [(operandCrs1q, d.rs1 - 8), (operandCrs2q, d.rs2 - 8), (operandCimmd, d.imm)]
  | .cs_sq => [(operandCrs1q, d.rs1 - 8), (operandCrs2q, d.rs2 - 8), (operandCimmq, d.imm)]
  | .css_swsp => [(operandCrs2, d.rs2), (operandCimmswsp, d.imm)]
  | .css_sdsp => [(operandCrs2, d.rs2), (operandCimmsdsp, d.imm)]
  | .css_sqsp => [(operandCrs2, d.rs2), (operandCimmsqsp, d.imm)]

/-- The fields that only a few formats set are clear. -/
def Plain (d : Decode) : Prop := d.rs3 = 0 ∧ d.rm = 0 ∧ d.aq = 0 ∧ d.rl = 0 ∧ d.pred = 0 ∧ d.succ = 0

/-- The records that a format can hold. -/
def FormatFits (d : Decode) : RvCodec → Prop
  | .illegal | .none | .ci_none => d.rd = 0 ∧ d.rs1 = 0 ∧ d.rs2 = 0 ∧ d.imm = 0 ∧ Plain d
  | .u => d.rd < 32 ∧ d.rs1 = 0 ∧ d.rs2 = 0 ∧ -2147483648 ≤ d.imm ∧ d.imm < 2147483648 ∧ d.imm % 4096 = 0 ∧ Plain d
  | .uj => d.rd < 32 ∧ d.rs1 = 0 ∧ d.rs2 = 0 ∧ -1048576 ≤ d.imm ∧ d.imm < 1048576 ∧ d.imm % 2 = 0 ∧ Plain d
  | .i => d.rd < 32 ∧ d.rs1 < 32 ∧ d.rs2 = 0 ∧ -2048 ≤ d.imm ∧ d.imm < 2048 ∧ Plain d
  | .i_sh5 => d.rd < 32 ∧ d.rs1 < 32 ∧ d.rs2 = 0 ∧ 0 ≤ d.imm ∧ d.imm < 32 ∧ Plain d
  | .i_sh6 => d.rd < 32 ∧ d.rs1 < 32 ∧ d.rs2 = 0 ∧ 0 ≤ d.imm ∧ d.imm < 64 ∧ Plain d
  | .i_sh7 => d.rd < 32 ∧ d.rs1 < 32 ∧ d.rs2 = 0 ∧ 0 ≤ d.imm ∧ d.imm < 128 ∧ Plain d
  | .i_csr => d.rd < 32 ∧ d.rs1 < 32 ∧ d.rs2 = 0 ∧ 0 ≤ d.imm ∧ d.imm < 4096 ∧ Plain d
  | .s => d.rd = 0 ∧ d.rs1 < 32 ∧ d.rs2 < 32 ∧ -2048 ≤ d.imm ∧ d.imm < 2048 ∧ Plain d
  | .sb => d.rd = 0 ∧ d.rs1 < 32 ∧ d.rs2 < 32 ∧ -4096 ≤ d.imm ∧ d.imm < 4096 ∧ d.imm % 2 = 0 ∧ Plain d
  | .r => d.rd < 32 ∧ d.rs1 < 32 ∧ d.rs2 < 32 ∧ d.imm = 0 ∧ Plain d
  | .r_m =>
    d.rd < 32 ∧ d.rs1 < 32 ∧ d.rs2 < 32 ∧ d.imm = 0 ∧ d.rm < 8 ∧ d.rs3 = 0 ∧ d.aq = 0 ∧ d.rl = 0 ∧ d.pred = 0 ∧
      d.succ = 0
  | .r4_m =>
    d.rd < 32 ∧ d.rs1 < 32 ∧ d.rs2 < 32 ∧ d.rs3 < 32 ∧ d.imm = 0 ∧ d.rm < 8 ∧ d.aq = 0 ∧ d.rl = 0 ∧ d.pred = 0 ∧
      d.succ = 0
  | .r_a =>
    d.rd < 32 ∧ d.rs1 < 32 ∧ d.rs2 < 32 ∧ d.imm = 0 ∧ d.aq < 2 ∧ d.rl < 2 ∧ d.rs3 = 0 ∧ d.rm = 0 ∧ d.pred = 0 ∧
      d.succ = 0
  | .r_l =>
    d.rd < 32 ∧ d.rs1 < 32 ∧ d.rs2 = 0 ∧ d.imm = 0 ∧ d.aq < 2 ∧ d.rl < 2 ∧ d.rs3 = 0 ∧ d.rm = 0 ∧ d.pred = 0 ∧
      d.succ = 0
  | .r_f =>
    d.rd = 0 ∧ d.rs1 = 0 ∧ d.rs2 = 0 ∧ d.pred < 16 ∧ d.succ < 16 ∧ d.imm = 0 ∧ d.rs3 = 0 ∧ d.rm = 0 ∧ d.aq = 0 ∧
      d.rl = 0
  | .cb => d.rd = 0 ∧ 8 ≤ d.rs1 ∧ d.rs1 < 16 ∧ d.rs2 = 0 ∧ -256 ≤ d.imm ∧ d.imm < 256 ∧ d.imm % 2 = 0 ∧ Plain d
  | .cb_imm => d.rd = d.rs1 ∧ 8 ≤ d.rs1 ∧ d.rs1 < 16 ∧ d.rs2 = 0 ∧ -32 ≤ d.imm ∧ d.imm < 32 ∧ Plain d
  | .cb_sh5 => d.rd = d.rs1 ∧ 8 ≤ d.rs1 ∧ d.rs1 < 16 ∧ d.rs2 = 0 ∧ 0 ≤ d.imm ∧ d.imm < 32 ∧ Plain d
  | .cb_sh6 => d.rd = d.rs1 ∧ 8 ≤ d.rs1 ∧ d.rs1 < 16 ∧ d.rs2 = 0 ∧ 0 ≤ d.imm ∧ d.imm < 64 ∧ Plain d
  | .ci => d.rd = d.rs1 ∧ d.rs1 < 32 ∧ d.rs2 = 0 ∧ -32 ≤ d.imm ∧ d.imm < 32 ∧ Plain d
  | .ci_sh5 => d.rd = d.rs1 ∧ d.rs1 < 32 ∧ d.rs2 = 0 ∧ 0 ≤ d.imm ∧ d.imm < 32 ∧ Plain d
  | .ci_sh6 => d.rd = d.rs1 ∧ d.rs1 < 32 ∧ d.rs2 = 0 ∧ 0 ≤ d.imm ∧ d.imm < 64 ∧ Plain d
  | .ci_16sp => d.rd = 2 ∧ d.rs1 = 2 ∧ d.rs2 = 0 ∧ -512 ≤ d.imm ∧ d.imm < 512 ∧ d.imm % 16 = 0 ∧ Plain d
  | .ci_lwsp => d.rd < 32 ∧ d.rs1 = 2 ∧ d.rs2 = 0 ∧ 0 ≤ d.imm ∧ d.imm < 256 ∧ d.imm % 4 = 0 ∧ Plain d
  | .ci_ldsp => d.rd < 32 ∧ d.rs1 = 2 ∧ d.rs2 = 0 ∧ 0 ≤ d.imm ∧ d.imm < 512 ∧ d.imm % 8 = 0 ∧ Plain d
  | .ci_lqsp => d.rd < 32 ∧ d.rs1 = 2 ∧ d.rs2 = 0 ∧ 0 ≤ d.imm ∧ d.imm < 1024 ∧ d.imm % 16 = 0 ∧ Plain d
  | .ci_li => d.rd < 32 ∧ d.rs1 = 0 ∧ d.rs2 = 0 ∧ -32 ≤ d.imm ∧ d.imm < 32 ∧ Plain d
  | .ci_lui => d.rd < 32 ∧ d.rs1 = 0 ∧ d.rs2 = 0 ∧ -131072 ≤ d.imm ∧ d.imm < 131072 ∧ d.imm % 4096 = 0 ∧ Plain d
  | .ciw_4spn => 8 ≤ d.rd ∧ d.rd < 16 ∧ d.rs1 = 2 ∧ d.rs2 = 0 ∧ 0 ≤ d.imm ∧ d.imm < 1024 ∧ d.imm % 4 = 0 ∧ Plain d
  | .cj => d.rd = 0 ∧ d.rs1 = 0 ∧ d.rs2 = 0 ∧ -2048 ≤ d.imm ∧ d.imm < 2048 ∧ d.imm % 2 = 0 ∧ Plain d
  | .cj_jal => d.rd = 1 ∧ d.rs1 = 0 ∧ d.rs2 = 0 ∧ -2048 ≤ d.imm ∧ d.imm < 2048 ∧ d.imm % 2 = 0 ∧ Plain d
  | .cl_lw =>
    8 ≤ d.rd ∧ d.rd < 16 ∧ 8 ≤ d.rs1 ∧ d.rs1 < 16 ∧ d.rs2 = 0 ∧ 0 ≤ d.imm ∧ d.imm < 128 ∧ d.imm % 4 = 0 ∧ Plain d
  | .cl_ld =>
    8 ≤ d.rd ∧ d.rd < 16 ∧ 8 ≤ d.rs1 ∧ d.rs1 < 16 ∧ d.rs2 = 0 ∧ 0 ≤ d.imm ∧ d.imm < 256 ∧ d.imm % 8 = 0 ∧ Plain d
  | .cl_lq =>
    8 ≤ d.rd ∧ d.rd < 16 ∧ 8 ≤ d.rs1 ∧ d.rs1 < 16 ∧ d.rs2 = 0 ∧ 0 ≤ d.imm ∧ d.imm < 512 ∧ d.imm % 16 = 0 ∧ Plain d
  | .cr => d.rd = d.rs1 ∧ d.rs1 < 32 ∧ d.rs2 < 32 ∧ d.imm = 0 ∧ Plain d
  | .cr_mv => d.rd < 32 ∧ d.rs1 < 32 ∧ d.rs2 = 0 ∧ d.imm = 0 ∧ Plain d
  | .cr_jalr => d.rd = 1 ∧ d.rs1 < 32 ∧ d.rs2 = 0 ∧ d.imm = 0 ∧ Plain d
  | .cr_jr => d.rd = 0 ∧ d.rs1 < 32 ∧ d.rs2 = 0 ∧ d.imm = 0 ∧ Plain d
  | .cs => d.rd = d.rs1 ∧ 8 ≤ d.rs1 ∧ d.rs1 < 16 ∧ 8 ≤ d.rs2 ∧ d.rs2 < 16 ∧ d.imm = 0 ∧ Plain d
  | .cs_sw =>
    d.rd = 0 ∧ 8 ≤ d.rs1 ∧ d.rs1 < 16 ∧ 8 ≤ d.rs2 ∧ d.rs2 < 16 ∧ 0 ≤ d.imm ∧ d.imm < 128 ∧ d.imm % 4 = 0 ∧ Plain d
  | .cs_sd =>
    d.rd = 0 ∧ 8 ≤ d.rs1 ∧ d.rs1 < 16 ∧ 8 ≤ d.rs2 ∧ d.rs2 < 16 ∧ 0 ≤ d.imm ∧ d.imm < 256 ∧ d.imm % 8 = 0 ∧ Plain d
  | .cs_sq =>
    d.rd = 0 ∧ 8 ≤ d.rs1 ∧ d.rs1 < 16 ∧ 8 ≤ d.rs2 ∧ d.rs2 < 16 ∧ 0 ≤ d.imm ∧ d.imm < 512 ∧ d.imm % 16 = 0 ∧ Plain d
  | .css_swsp => d.rd = 0 ∧ d.rs1 = 2 ∧ d.rs2 < 32 ∧ 0 ≤ d.imm ∧ d.imm < 256 ∧ d.imm % 4 = 0 ∧ Plain d
  | .css_sdsp => d.rd = 0 ∧ d.rs1 = 2 ∧ d.rs2 < 32 ∧ 0 ≤ d.imm ∧ d.imm < 512 ∧ d.imm % 8 = 0 ∧ Plain d
  | .css_sqsp => d.rd = 0 ∧ d.rs1 = 2 ∧ d.rs2 < 32 ∧ 0 ≤ d.imm ∧ d.imm < 1024 ∧ d.imm % 16 = 0 ∧ Plain d

theorem formatValues_fst (d : Decode) (codec : RvCodec) : (formatValues d codec).map Prod.fst = formatOperands codec := by
  cases codec <;> rfl

theorem formatOperands_disjoint (codec : RvCodec) :
    (formatOperands codec).Pairwise fun o p => o.field &&& p.field = 0 := by
  cases codec <;> decide

/-! ## A record fits a format when a word decodes to it -/

section Ranges

-- the ranges of the operands as numbers
attribute [local simp] ImmOperand.Fits ImmOperand.low lowBit simmOperand uimmOperand operandRd operandImm20
  operandJimm20 operandRs1 operandImm12 operandShamt5 operandShamt6 operandShamt7 operandCsr12 operandRs2
  operandSimm12 operandSbimm12 operandRm operandRs3 operandAq operandRl operandPred operandSucc operandCrs1q
  operandCimmb operandCrs1rdq operandCimmi operandCimmsh5 operandCimmsh6 operandCrs1rd operandCimm16sp operandCrd
  operandCimmlwsp operandCimmldsp operandCimmlqsp operandCimmui operandCrdq operandCimm4spn operandCimmj
  operandCimmw operandCimmd operandCimmq operandCrs2 operandCrs1 operandCrs2q operandCimmswsp operandCimmsdsp
  operandCimmsqsp

theorem formatValues_fit {d : Decode} {codec : RvCodec} (h : FormatFits d codec) :
    ∀ a ∈ formatValues d codec, a.1.Fits a.2 := by
  -- for each codec both sides are bounds and remainders
  cases codec <;> simp [FormatFits, formatValues] at h ⊢ <;> omega

theorem formatFits_decodeType (op : RvOp) (c codec : RvCodec) (inst : Nat) :
    FormatFits (decodeType codec { op, codec := c } inst) codec := by
  -- each operand is in range, and the record only adds 8 to a three-bit register
  have hf : ∀ o ∈ formatOperands codec, o.Fits (o.decode inst) := fun o _ => o.fits_decode inst
  cases codec <;> simp [formatOperands] at hf <;>
    simp [decodeType, FormatFits, Plain, ImmOperand.s32_decode, u8, bitField] <;> omega

end Ranges

theorem decodeType_of_values {d : Decode} {codec : RvCodec} {inst : Nat} (h : FormatFits d codec)
    (hv : ∀ a ∈ formatValues d codec, a.1.decode inst = a.2) :
    decodeType codec { op := d.op, codec := d.codec } inst = d := by
  obtain ⟨⟩ := d
  cases codec <;> simp [FormatFits, Plain, formatValues] at h hv <;> simp [decodeType, ImmOperand.s32_decode] <;>
    simp [hv, h, u8, bitField] <;> omega

/-- A format holds exactly the records that its words decode to. -/
theorem formatFits_iff (d : Decode) (codec : RvCodec) :
    FormatFits d codec ↔ ∃ inst, inst &&& formatBits codec = inst ∧ decodeType codec { op := d.op, codec := d.codec } inst = d := by
  constructor
  · intro h
    obtain ⟨inst, hv, hin⟩ := ImmOperand.exists_word (l := formatValues d codec)
      (by rw [formatValues_fst]; exact formatOperands_disjoint codec) (formatValues_fit h)
    rw [formatValues_fst] at hin
    exact ⟨inst, hin, decodeType_of_values h hv⟩
  · rintro ⟨inst, -, hd⟩
    rw [← hd]
    exact formatFits_decodeType _ _ _ _

/-! ## Encoding a decoded record -/

/-- Encoding a decoded record gives the operand bits of the word. `encode_cs` is the exception: it
writes `rd` where the decoder reads `rs2`. -/
theorem encodeType_decodeType {codec : RvCodec} (hc : codec ≠ .cs) (dec : Decode) (inst : Nat) :
    encodeType codec (decodeType codec dec inst) = some (inst &&& formatBits codec) := by
  cases codec with
  | cs => exact absurd rfl hc
  | _ =>
    simp (disch := decide) [encodeType, decodeType, formatBits, formatOperands, ImmOperand.fields, Nat.and_or_distrib_left, Nat.or_assoc,
      ImmOperand.encode_s32, ImmOperand.encode_bitField, ImmOperand.encode_u8, ImmOperand.encode_u8_b3, guard]

/-- A decoder looks at no other bits. -/
theorem decodeType_congr {codec : RvCodec} (dec : Decode) {inst inst' : Nat}
    (h : inst &&& formatBits codec = inst' &&& formatBits codec) :
    decodeType codec dec inst = decodeType codec dec inst' := by
  have ho : ∀ o ∈ formatOperands codec, o.decode inst = o.decode inst' := by
    intro o ho
    apply o.decode_congr
    rw [← ImmOperand.fields_and_field ho, ← Nat.and_assoc, ← Nat.and_assoc]
    exact congrArg (· &&& o.field) h
  cases codec <;> simp only [formatOperands, List.forall_mem_cons, List.not_mem_nil, false_imp_iff, implies_true, and_true] at ho <;>
    simp [decodeType, ho]

@[simp] theorem decodeType_op (codec : RvCodec) (dec : Decode) (inst : Nat) : (decodeType codec dec inst).op = dec.op := by
  obtain ⟨⟩ := dec
  cases codec <;> rfl

end Rv8.Asm
