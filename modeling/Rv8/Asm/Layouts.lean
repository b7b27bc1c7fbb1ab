import Rv8.Asm.Formats
/-!
# Layouts

What `operands.h` says of each operand by itself, and of those that a codec uses
together: the places of an operand are the segments that its type lists, and no two
operands of a codec share one.
-/

namespace Rv8.Asm

/-! ## Segments -/

/-- The bits `K` down to `L` of the instruction. -/
def S.bits (s : S) : Nat := (2 ^ (s.k - s.l + 1) - 1) <<< s.l

/-- The bits of all segments of an operand. -/
def ImmOperand.bits (o : ImmOperand) : Nat := o.segs.foldr (fun s acc => s.bits ||| acc) 0

/-- The operands of `operands.h`. -/
def operands : List ImmOperand :=
  [operandRd, operandRs1, operandRs2, operandRs3, operandFrd, operandFrs1, operandFrs2, operandFrs3, operandAq, operandRl,
    operandPred, operandSucc, operandRm, operandImm20, operandOimm20, operandJimm20, operandImm12, operandOimm12, operandCsr12,
    operandSimm12, operandSbimm12, operandZimm, operandShamt5, operandShamt6, operandShamt7, operandCrd0, operandCrdq,
    operandCrs1q, operandCrs1rdq, operandCrs2q, operandCrd, operandCrs1, operandCrs1rd, operandCrs2, operandCfrdq, operandCfrs2q,
    operandCfrs2, operandCfrd, operandCimmsh5, operandCimmsh6, operandCimmi, operandCnzimmi, operandCimmui, operandCimmlwsp,
    operandCimmldsp, operandCimmlqsp, operandCimm16sp, operandCimmj, operandCimmb, operandCimmswsp, operandCimmsdsp,
    operandCimmsqsp, operandCimm4spn, operandCimmw, operandCimmd, operandCimmq]

/-- The operands that the file `codecs` lists for a codec, one row for the codec and each variant of its format. -/
def codecRows : RvCodec → List (List ImmOperand)
  | .illegal => []
  | .none => [[]]
  | .u => [[operandRd, operandImm20], [operandRd, operandOimm20]]
  | .uj => [[operandRd, operandJimm20]]
  | .i =>
    [[operandRd, operandRs1, operandImm12], [operandRd, operandRs1, operandImm12], [operandRd, operandRs1, operandOimm12],
      [operandFrd, operandRs1, operandOimm12]]
  | .i_sh5 => [[operandRd, operandRs1, operandShamt5]]
  | .i_sh6 => [[operandRd, operandRs1, operandShamt6]]
  | .i_sh7 => [[operandRd, operandRs1, operandShamt7]]
  | .i_csr => [[operandRd, operandRs1, operandCsr12], [operandRd, operandZimm, operandCsr12]]
  | .s => [[operandRs1, operandRs2, operandSimm12], [operandRs1, operandFrs2, operandSimm12]]
  | .sb => [[operandRs1, operandRs2, operandSbimm12]]
  | .r =>
    [[operandRd, operandRs1, operandRs2], [operandFrd, operandRs1], [operandRd, operandFrs1], [operandRd, operandFrs1,
      operandFrs2], [operandFrd, operandFrs1, operandFrs2], [operandRs1]]
  | .r_m =>
    [[operandFrd, operandFrs1, operandRm], [operandFrd, operandRs1, operandRm], [operandRd, operandFrs1, operandRm],
      [operandFrd, operandFrs1, operandFrs2, operandRm]]
  | .r4_m => [[operandFrd, operandFrs1, operandFrs2, operandFrs3, operandRm]]
  | .r_a => [[operandRd, operandRs1, operandRs2, operandAq, operandRl]]
  | .r_l => [[operandRd, operandRs1, operandAq, operandRl]]
  | .r_f => [[operandPred, operandSucc]]
  | .cb => [[operandCrs1q, operandCimmb]]
  | .cb_imm => [[operandCrs1rdq, operandCnzimmi]]
  | .cb_sh5 => [[operandCrs1rdq, operandCimmsh5]]
  | .cb_sh6 => [[operandCrs1rdq, operandCimmsh6]]
  | .ci => [[operandCrs1rd, operandCnzimmi]]
  | .ci_sh5 => [[operandCrs1rd, operandCimmsh5]]
  | .ci_sh6 => [[operandCrs1rd, operandCimmsh6]]
  | .ci_16sp => [[operandCrs1rd, operandCimm16sp]]
  | .ci_lwsp => [[operandCrd, operandCimmlwsp], [operandCfrd, operandCimmlwsp]]
  | .ci_ldsp => [[operandCrd, operandCimmldsp], [operandCfrd, operandCimmldsp]]
  | .ci_lqsp => [[operandCrd, operandCimmlqsp]]
  | .ci_li => [[operandCrs1rd, operandCimmi]]
  | .ci_lui => [[operandCrd, operandCimmui]]
  | .ci_none => [[]]
  | .ciw_4spn => [[operandCrdq, operandCimm4spn]]
  | .cj => [[operandCimmj]]
  | .cj_jal => [[operandCimmj]]
  | .cl_lw => [[operandCrdq, operandCrs1q, operandCimmw], [operandCfrdq, operandCrs1q, operandCimmw]]
  | .cl_ld => [[operandCrdq, operandCrs1q, operandCimmd], [operandCfrdq, operandCrs1q, operandCimmd]]
  | .cl_lq => [[operandCrdq, operandCrs1q, operandCimmq]]
  | .cr => [[operandCrs1rd, operandCrs2]]
  | .cr_mv => [[operandCrd, operandCrs2]]
  | .cr_jalr => [[operandCrd0, operandCrs1]]
  | .cr_jr => [[operandCrd0, operandCrs1]]
  | .cs => [[operandCrs1rdq, operandCrs2q]]
  | .cs_sw => [[operandCrs1q, operandCfrs2q, operandCimmw], [operandCrs1q, operandCrs2q, operandCimmw]]
  | .cs_sd => [[operandCrs1q, operandCfrs2q, operandCimmd], [operandCrs1q, operandCrs2q, operandCimmd]]
  | .cs_sq => [[operandCrs1q, operandCrs2q, operandCimmq]]
  | .css_swsp => [[operandCrs2, operandCimmswsp], [operandCfrs2, operandCimmswsp]]
  | .css_sdsp => [[operandCrs2, operandCimmsdsp], [operandCfrs2, operandCimmsdsp]]
  | .css_sqsp => [[operandCrs2, operandCimmsqsp]]

/-- The ranges of an operand fill its segments. -/
theorem field_eq_bits : ∀ o ∈ operands, o.field = o.bits := by decide

theorem formatOperands_segments (codec : RvCodec) :
    ((formatOperands codec).flatMap ImmOperand.segs).Pairwise fun s t => s.bits &&& t.bits = 0 := by
  cases codec <;> decide

theorem codecRows_segments (codec : RvCodec) :
    ∀ row ∈ codecRows codec, (row.flatMap ImmOperand.segs).Pairwise fun s t => s.bits &&& t.bits = 0 := by
  cases codec <;> decide

/-! ## Scattering and gathering -/

/-- Encoding and decoding undo each other on every operand, inside its segments, which no other operand of a codec has. -/
theorem operands_inverse :
    (∀ o ∈ operands,
      (∀ v, o.Fits v → o.decode (o.encode v) = v) ∧
        (∀ inst, o.encode (o.decode inst) = inst &&& o.bits) ∧ ∀ v, o.encode v &&& o.bits = o.encode v) ∧
      ∀ codec, ∀ row ∈ formatOperands codec :: codecRows codec,
        (row.flatMap ImmOperand.segs).Pairwise fun s t => s.bits &&& t.bits = 0 := by
  constructor
  · intro o ho
    rw [← field_eq_bits o ho]
    exact ⟨fun v hv => o.decode_encode hv, o.encode_decode, o.encode_and_field⟩
  · intro codec row hrow
    rcases List.mem_cons.1 hrow with rfl | hrow
    · exact formatOperands_segments codec
    · exact codecRows_segments codec row hrow

theorem operands_inverse_cimmj : operandCimmj.decode (operandCimmj.encode (-2046)) = -2046 :=
  (operands_inverse.1 operandCimmj (by simp [operands])).1 (-2046) (by decide)

end Rv8.Asm
