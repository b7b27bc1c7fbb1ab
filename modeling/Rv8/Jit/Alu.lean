import Rv8.Jit.Emitter
/-!
# Code for the ALU instructions

The emitters of `jit-emitter-rv64.h` for the integer instructions other than division,
and what the code they emit computes.
-/

namespace Rv8.Jit

open Rv8.Asm Rv8.Lib.X86

/-! ## Emitters -/

section Shapes
variable (d : JitDecode)

/-- `rd op= rs`, through `rax` if both are slots. -/
def emitOp (op : AluOp) (sz : Size) (rd rs : Nat) : Code :=
  if 0 < x86Reg rd ∨ 0 < x86Reg rs then [.alu op sz (loc rd) (loc rs)]
  else [.mov sz ax (rbpReg rs), .alu op sz (rbpReg rd) ax]

/-- `rd` is neither operand. -/
def emitThree (op : AluOp) : Code :=
  let rdx := x86Reg d.rd
  let rs1x := x86Reg d.rs1
  let rs2x := x86Reg d.rs2
  if rdx < 0 ∧ (rs1x < 0 ∨ rs2x < 0) then
    emitMvRaxRs1 d ++ [.alu op .q ax (loc d.rs2), .mov .q (rbpReg d.rd) ax]
  else
    emitMvRdRs1 d ++ (if 0 < rdx then [.alu op .q (gp rdx) (loc d.rs2)] else [.alu op .q (rbpReg d.rd) (gp rs2x)])

def emitCommutative (op : AluOp) : Code :=
  if d.rd = d.rs1 then emitOp op .q d.rd d.rs2
  else if d.rd = d.rs2 then emitOp op .q d.rd d.rs1
  else emitThree d op

/-- `rdx < 0` of the W instructions: the result is extended in `rax`. -/
def emitThroughEax (op : AluOp) : Code :=
  emitMvEaxRs1 d ++ [.alu op .d ax (loc d.rs2), .movsxd rax ax, .mov .q (rbpReg d.rd) ax]

/-- The last case of the W instructions. -/
def emitThreeW (op : AluOp) : Code :=
  emitMvRdRs1 d ++ [.alu op .d (gp (x86Reg d.rd)) (loc d.rs2)] ++ emitSx32Rd d

end Shapes

section Alu
variable (d : JitDecode)

def emitAdd : Code :=
  let rdx := x86Reg d.rd
  let rs1x := x86Reg d.rs1
  let rs2x := x86Reg d.rs2
  if d.rd = 0 then []
  else if d.rs1 = 0 then emitMvRdRs2 d
  else if d.rs2 = 0 then emitMvRdRs1 d
  else if d.rd = d.rs1 then emitOp .add .q d.rd d.rs2
  else if d.rd = d.rs2 then emitOp .add .q d.rd d.rs1
  else if 0 < rdx ∧ 0 < rs1x ∧ 0 < rs2x then [.lea .q (gpr rdx) (gp rs1x) (gp rs2x)]
  else emitThree d .add

def emitSub : Code :=
  if d.rd = 0 then []
  else if d.rs1 = 0 then emitMvRdRs2 d ++ [.neg .q (loc d.rd)]
  else if d.rs2 = 0 then emitMvRdRs1 d
  else if d.rd = d.rs1 then emitOp .sub .q d.rd d.rs2
  else if d.rd = d.rs2 then emitOp .sub .q d.rd d.rs1 ++ [.neg .q (loc d.rd)]
  else emitThree d .sub

def emitAnd : Code :=
  if d.rd = 0 then []
  else if d.rs1 = 0 ∨ d.rs2 = 0 then emitZeroRd d
  else emitCommutative d .and

/-- `emit_or` and `emit_xor` -/
def emitOrXor (op : AluOp) : Code :=
  if d.rd = 0 then []
  else if d.rs1 = 0 ∧ d.rs2 = 0 then emitZeroRd d
  else if d.rs1 = 0 then emitMvRdRs2 d
  else if d.rs2 = 0 then emitMvRdRs1 d
  else emitCommutative d op

def emitOr : Code := emitOrXor d .or

def emitXor : Code := emitOrXor d .xor

def emitMul : Code :=
  let rdx := x86Reg d.rd
  if d.rd = 0 then []
  else if d.rs1 = 0 ∨ d.rs2 = 0 then emitZeroRd d
  else if d.rd = d.rs1 ∧ 0 < rdx then [.alu .imul .q (gp rdx) (loc d.rs2)]
  else if d.rd = d.rs2 ∧ 0 < rdx then [.alu .imul .q (gp rdx) (loc d.rs1)]
  else if rdx < 0 then emitMvRaxRs1 d ++ [.alu .imul .q ax (loc d.rs2), .mov .q (rbpReg d.rd) ax]
  else emitMvRdRs1 d ++ [.alu .imul .q (gp rdx) (loc d.rs2)]

/-- The flags of `emit_slt` and `emit_sltu`. -/
def emitCmpRs1Rs2 : Code :=
  let rs1x := x86Reg d.rs1
  let rs2x := x86Reg d.rs2
  if 0 < rs1x ∧ 0 < rs2x then [.cmp .q (gp rs1x) (gp rs2x)]
  else
    (if d.rs1 = 0 then [.alu .xor .d ax ax] else [.mov .q ax (loc d.rs1)]) ++
      (if d.rs2 = 0 then [.cmp .q ax (.imm 0)] else [.cmp .q ax (loc d.rs2)])

/-- The condition as a number in `rd`. -/
def emitSetRd (c : Cond) : Code :=
  let rdx := x86Reg d.rd
  .setcc c rax :: if 0 < rdx then [.movzx (gpr rdx) rax] else [.movzx rax rax, .mov .q (rbpReg d.rd) ax]

def emitSlt : Code := if d.rd = 0 then [] else emitCmpRs1Rs2 d ++ emitSetRd d .l

def emitSltu : Code := if d.rd = 0 then [] else emitCmpRs1Rs2 d ++ emitSetRd d .b

/-- `emit_sll`, `emit_srl` and `emit_sra` -/
def emitShift (op : ShiftOp) : Code :=
  let rdx := x86Reg d.rd
  if d.rd = 0 then []
  else if d.rs1 = 0 then emitZeroRd d
  else if d.rs2 = 0 then emitMvRdRs1 d
  else if d.rd = d.rs1 then emitMvClRs2 d ++ [.shift op .q (loc d.rd) cx]
  else if rdx < 0 then emitMvClRs2 d ++ emitMvRaxRs1 d ++ [.shift op .q ax cx, .mov .q (rbpReg d.rd) ax]
  else emitMvClRs2 d ++ emitMvRdRs1 d ++ [.shift op .q (gp rdx) cx]

def emitSll : Code := emitShift d .shl

def emitSrl : Code := emitShift d .shr

def emitSra : Code := emitShift d .sar

end Alu

section AluW
variable (d : JitDecode)

def emitAddw : Code :=
  let rdx := x86Reg d.rd
  let rs1x := x86Reg d.rs1
  let rs2x := x86Reg d.rs2
  if d.rd = 0 then []
  else if d.rs1 = 0 then emitMvRdRs2Sx32 d
  else if d.rs2 = 0 then emitMvRdRs1Sx32 d
  else if d.rd = d.rs1 then emitOp .add .d d.rd d.rs2 ++ emitSx32Rd d
  else if d.rd = d.rs2 then emitOp .add .d d.rd d.rs1 ++ emitSx32Rd d
  else if 0 < rdx ∧ 0 < rs1x ∧ 0 < rs2x then .lea .d (gpr rdx) (gp rs1x) (gp rs2x) :: emitSx32Rd d
  else if rdx < 0 then emitThroughEax d .add
  else emitThreeW d .add

def emitSubw : Code :=
  let rdx := x86Reg d.rd
  if d.rd = 0 then []
  else if d.rs1 = 0 then (if d.rd ≠ d.rs2 then emitMvRdRs2 d else []) ++ [.neg .d (loc d.rd)] ++ emitSx32Rd d
  else if d.rs2 = 0 then emitMvRdRs1Sx32 d
  else if d.rd = d.rs1 then emitOp .sub .d d.rd d.rs2 ++ emitSx32Rd d
  else if d.rd = d.rs2 then emitOp .sub .d d.rd d.rs1 ++ [.neg .d (loc d.rd)] ++ emitSx32Rd d
  else if rdx < 0 then emitThroughEax d .sub
  else emitThreeW d .sub

def emitMulw : Code :=
  let rdx := x86Reg d.rd
  if d.rd = 0 then []
  else if d.rs1 = 0 ∨ d.rs2 = 0 then emitZeroRd d
  else if d.rd = d.rs1 ∧ 0 < rdx then [.alu .imul .d (gp rdx) (loc d.rs2)] ++ emitSx32Rd d
  else if d.rd = d.rs2 ∧ 0 < rdx then [.alu .imul .d (gp rdx) (loc d.rs1)] ++ emitSx32Rd d
  else if rdx < 0 then emitMvEaxRs1 d ++ [.alu .imul .d ax (loc d.rs2), .mov .d (rbpReg d.rd) ax] ++ emitSx32Rd d
  else emitThreeW d .imul

/-- `emit_sllw`, `emit_srlw` and `emit_sraw` -/
def emitShiftW (op : ShiftOp) : Code :=
  let rdx := x86Reg d.rd
  if d.rd = 0 then []
  else if d.rs1 = 0 then emitZeroRd d
  else if d.rs2 = 0 then emitMvRdRs1Sx32 d
  else if d.rd = d.rs1 then emitMvClRs2 d ++ [.shift op .d (loc d.rd) cx] ++ emitSx32Rd d
  else if rdx < 0 then
    emitMvClRs2 d ++ emitMvEaxRs1 d ++ [.shift op .d ax cx, .movsxd rax ax, .mov .q (rbpReg d.rd) ax]
  else emitMvClRs2 d ++ emitMvRdRs132 d ++ [.shift op .d (gp rdx) cx] ++ emitSx32Rd d

def emitSllw : Code := emitShiftW d .shl

def emitSrlw : Code := emitShiftW d .shr

def emitSraw : Code := emitShiftW d .sar

end AluW

section AluImm
variable (d : JitDecode)

def emitAddi : Code :=
  let rdx := x86Reg d.rd
  let rs1x := x86Reg d.rs1
  if d.rd = 0 then []
  else if d.rs1 = 0 then [.mov .q (loc d.rd) (.imm d.imm)]
  else if d.rd = d.rs1 then [.alu .add .q (loc d.rd) (.imm d.imm)]
  else if d.imm = 0 then emitMvRdRs1 d
  else if 0 < rdx ∧ 0 < rs1x then [.lea .q (gpr rdx) (gp rs1x) (.imm d.imm)]
  else emitMvRdRs1 d ++ [.alu .add .q (loc d.rd) (.imm d.imm)]

/-- `emit_slti` and `emit_sltiu`, by what they make of `x0`. -/
def emitSetLess (result : Bool) (c : Cond) : Code :=
  if d.rd = 0 then []
  else if d.rs1 = 0 then [.mov .q (loc d.rd) (.imm (if result then 1 else 0))]
  else .cmp .q (loc d.rs1) (.imm d.imm) :: emitSetRd d c

def emitSlti : Code := emitSetLess d (0 < d.imm.toInt) .l

def emitSltiu : Code := emitSetLess d (0 < (d.imm.signExtend 64).toNat) .b

def emitAndi : Code :=
  if d.rd = 0 then []
  else if d.rs1 = 0 then emitZeroRd d
  else if d.rd = d.rs1 then [.alu .and .q (loc d.rd) (.imm d.imm)]
  else emitMvRdRs1 d ++ [.alu .and .q (loc d.rd) (.imm d.imm)]

/-- `emit_ori` and `emit_xori` -/
def emitOriXori (op : AluOp) : Code :=
  if d.rd = 0 then []
  else if d.rs1 = 0 then [.mov .q (loc d.rd) (.imm d.imm)]
  else if d.rd = d.rs1 then [.alu op .q (loc d.rd) (.imm d.imm)]
  else emitMvRdRs1 d ++ [.alu op .q (loc d.rd) (.imm d.imm)]

def emitOri : Code := emitOriXori d .or

def emitXori : Code := emitOriXori d .xor

/-- `emit_slli`, `emit_srli` and `emit_srai` -/
def emitShiftImm (op : ShiftOp) : Code :=
  if d.rd = 0 then []
  else if d.rs1 = 0 then emitZeroRd d
  else if d.rd = d.rs1 then [.shift op .q (loc d.rd) (.imm d.imm)]
  else emitMvRdRs1 d ++ [.shift op .q (loc d.rd) (.imm d.imm)]

def emitSlli : Code := emitShiftImm d .shl

def emitSrli : Code := emitShiftImm d .shr

def emitSrai : Code := emitShiftImm d .sar

def emitAddiw : Code :=
  let rdx := x86Reg d.rd
  if d.rd = 0 then []
  else if d.rs1 = 0 then [.mov .d (loc d.rd) (.imm d.imm)] ++ emitSx32Rd d
  else if d.rd = d.rs1 then [.alu .add .d (loc d.rd) (.imm d.imm)] ++ emitSx32Rd d
  else if rdx < 0 then emitMvEaxRs1 d ++ [.alu .add .d ax (.imm d.imm), .movsxd rax ax, .mov .q (rbpReg d.rd) ax]
  else emitMvRdRs132 d ++ [.alu .add .d (gp rdx) (.imm d.imm)] ++ emitSx32Rd d

/-- `emit_slliw`, `emit_srliw` and `emit_sraiw` -/
def emitShiftImmW (op : ShiftOp) : Code :=
  let rdx := x86Reg d.rd
  if d.rd = 0 then []
  else if d.rs1 = 0 then emitZeroRd d
  else if d.rd = d.rs1 then [.shift op .d (loc d.rd) (.imm d.imm)] ++ emitSx32Rd d
  else if rdx < 0 then emitMvEaxRs1 d ++ [.shift op .d ax (.imm d.imm), .movsxd rax ax, .mov .q (rbpReg d.rd) ax]
  else emitMvRdRs132 d ++ [.shift op .d (gp rdx) (.imm d.imm)] ++ emitSx32Rd d

def emitSlliw : Code := emitShiftImmW d .shl

def emitSrliw : Code := emitShiftImmW d .shr

def emitSraiw : Code := emitShiftImmW d .sar

end AluImm

/-! ## What the shapes compute -/

section ShapeSpecs
variable {d : JitDecode} {s : HostState} (op : AluOp)

theorem computes_op (rd rs : Nat) : Computes (emitOp op .q rd rs) s rd (op.eval (guest s rd) (guest s rs)) := by
  unfold emitOp
  split
  · rw [Computes, ends_cons rfl rfl, ends_nil]
    intro r
    rw [guest_clobberFlags]
    exact sets_putQ s rd _ r
  · next h =>
    rw [not_or] at h
    rw [Computes, ends_cons rfl rfl, ends_cons rfl rfl, ends_nil, ← loc_of_not_pos h.1, ← loc_of_not_pos h.2]
    intro r
    rw [guest_clobberFlags, sets_putQ _ rd _ r]
    simp

theorem ends_op (rd rs : Nat) :
    Ends (emitOp op .d rd rs) s (SetsLow rd (op.eval ((guest s rd).setWidth 32) ((guest s rs).setWidth 32)) s) := by
  unfold emitOp
  split
  · rw [ends_cons rfl rfl, ends_nil, d_loc, d_loc]
    have hlow := setsLow_putD s rd (op.eval ((guest s rd).setWidth 32) ((guest s rs).setWidth 32))
    exact ⟨by rw [guest_clobberFlags, hlow.1], fun r hr => by rw [guest_clobberFlags, hlow.2 r hr]⟩
  · next h =>
    rw [not_or] at h
    rw [ends_cons rfl rfl, ends_cons rfl rfl, ends_nil, ← loc_of_not_pos h.1, ← loc_of_not_pos h.2]
    have hlow := setsLow_putD (s.putD (s.d (loc rs)) ax) rd
      (op.eval ((s.putD (s.d (loc rs)) ax).d (loc rd)) ((s.putD (s.d (loc rs)) ax).d ax))
    refine ⟨?_, ?_⟩
    · rw [guest_clobberFlags, hlow.1]
      simp
    · intro r hr
      rw [guest_clobberFlags, hlow.2 r hr, guest_putD_ax]

/-- `mov rax, rs1; op rax, rs2` -/
theorem ends_rax {rs1 rs2 : Nat} {code : Code} {P : HostState → Prop}
    (h : ∀ s' : HostState, s'.q ax = op.eval (guest s rs1) (guest s rs2) → (∀ r, guest s' r = guest s r) → Ends code s' P) :
    Ends ([.mov .q ax (loc rs1)] ++ .alu op .q ax (loc rs2) :: code) s P := by
  rw [List.singleton_append, ends_cons rfl rfl, ends_cons rfl rfl]
  apply h
  · simp
  · simp

theorem computes_three (hrd : d.rd ≠ 0) (h2 : d.rs2 ≠ 0) (hne : d.rd ≠ d.rs2) :
    Computes (emitThree d op) s d.rd (op.eval (guest s d.rs1) (guest s d.rs2)) := by
  unfold emitThree
  dsimp only
  split
  · next h =>
    have hslot : ¬ 0 < x86Reg d.rd := by omega
    apply ends_rax
    intro s' hax hs'
    exact sets_slot hslot hax hs'
  · next h =>
    refine (computes_mv d.rd d.rs1).append fun s' hs' => ?_
    have hplace : (if 0 < x86Reg d.rd then [.alu op .q (gp (x86Reg d.rd)) (loc d.rs2)] else
        [.alu op .q (rbpReg d.rd) (gp (x86Reg d.rs2))] : Code) = [.alu op .q (loc d.rd) (loc d.rs2)] := by
      split
      · next hpos => rw [← loc_of_pos hpos]
      · next hpos =>
        have hneg := x86Reg_neg hpos hrd
        have hrs2 : 0 < x86Reg d.rs2 := by
          by_contra hrs2
          exact h ⟨hneg, .inr (x86Reg_neg hrs2 h2)⟩
        rw [← loc_of_not_pos hpos, ← loc_of_pos hrs2]
    rw [hplace, ends_cons rfl rfl, ends_nil]
    refine hs'.trans fun r => ?_
    rw [guest_clobberFlags, sets_putQ s' d.rd _ r, q_loc, q_loc, hs'.guest_rd, hs'.guest_ne hne.symm]

end ShapeSpecs

theorem Computes.congr {code : Code} {s : HostState} {rd : Nat} {v w : BitVec 64} (h : Computes code s rd v) (hv : v = w) :
    Computes code s rd w := hv ▸ h

/-! ## What the emitters compute -/

section AluSpecs
variable {d : JitDecode} {s : HostState} (hrd : d.rd ≠ 0) (h0 : guest s 0 = 0#64)

include hrd h0

theorem computes_add : Computes (emitAdd d) s d.rd (guest s d.rs1 + guest s d.rs2) := by
  unfold emitAdd
  dsimp only
  rw [if_neg hrd]
  split
  · next h1 =>
    refine (computes_mv d.rd d.rs2).congr ?_
    rw [h1, h0, BitVec.zero_add]
  · split
    · next h2 =>
      refine (computes_mv d.rd d.rs1).congr ?_
      rw [h2, h0, BitVec.add_zero]
    · next h2 =>
      split
      · next h => exact (computes_op .add d.rd d.rs2).congr (by rw [h, AluOp.eval])
      · split
        · next h => exact (computes_op .add d.rd d.rs1).congr (by rw [h, AluOp.eval, BitVec.add_comm])
        · next hne =>
          split
          · next h =>
            rw [Computes, ends_cons rfl rfl, ends_nil, reg_gpr h.1, ← loc_of_pos h.2.1, ← loc_of_pos h.2.2]
            exact sets_putQ s d.rd _
          · exact computes_three .add hrd h2 hne

omit hrd h0 in
theorem computes_neg {v : BitVec 64} {code : Code} (h : Computes code s d.rd v) :
    Computes (code ++ [.neg .q (loc d.rd)]) s d.rd (-v) := by
  refine h.append fun s' hs' => ?_
  rw [ends_cons rfl rfl, ends_nil]
  refine hs'.trans fun r => ?_
  rw [guest_clobberFlags, sets_putQ s' d.rd _ r, q_loc, hs'.guest_rd]

theorem computes_sub : Computes (emitSub d) s d.rd (guest s d.rs1 - guest s d.rs2) := by
  unfold emitSub
  rw [if_neg hrd]
  split
  · next h1 =>
    refine (computes_neg (computes_mv d.rd d.rs2)).congr ?_
    rw [h1, h0, BitVec.zero_sub]
  · split
    · next h2 =>
      refine (computes_mv d.rd d.rs1).congr ?_
      rw [h2, h0, BitVec.sub_zero]
    · next h2 =>
      split
      · next h => exact (computes_op .sub d.rd d.rs2).congr (by rw [h, AluOp.eval])
      · split
        · next h =>
          refine (computes_neg (computes_op .sub d.rd d.rs1)).congr ?_
          rw [h, AluOp.eval, BitVec.neg_sub, BitVec.sub_eq_add_neg, BitVec.add_comm]
        · next hne => exact computes_three .sub hrd h2 hne

omit h0 in
theorem computes_commutative (op : AluOp) (hop : ∀ x y : BitVec 64, op.eval x y = op.eval y x) (h2 : d.rs2 ≠ 0) :
    Computes (emitCommutative d op) s d.rd (op.eval (guest s d.rs1) (guest s d.rs2)) := by
  unfold emitCommutative
  split
  · next h => exact (computes_op op d.rd d.rs2).congr (by rw [h])
  · split
    · next h => exact (computes_op op d.rd d.rs1).congr (by rw [h, hop])
    · next hne => exact computes_three op hrd h2 hne

theorem computes_and : Computes (emitAnd d) s d.rd (guest s d.rs1 &&& guest s d.rs2) := by
  unfold emitAnd
  rw [if_neg hrd]
  split
  · next h =>
    refine computes_zero.congr ?_
    rcases h with h | h
    · rw [h, h0, BitVec.zero_and]
    · rw [h, h0, BitVec.and_zero]
  · next h =>
    rw [not_or] at h
    exact computes_commutative hrd .and BitVec.and_comm h.2

theorem computes_orXor (op : AluOp) (hop : ∀ x y : BitVec 64, op.eval x y = op.eval y x)
    (hzero : ∀ x : BitVec 64, op.eval x 0#64 = x) : Computes (emitOrXor d op) s d.rd (op.eval (guest s d.rs1) (guest s d.rs2)) := by
  unfold emitOrXor
  rw [if_neg hrd]
  split
  · next h =>
    refine computes_zero.congr ?_
    rw [h.1, h.2, h0, hzero]
  · split
    · next h =>
      refine (computes_mv d.rd d.rs2).congr ?_
      rw [h, h0, hop, hzero]
    · split
      · next h =>
        refine (computes_mv d.rd d.rs1).congr ?_
        rw [h, h0, hzero]
      · next h => exact computes_commutative hrd op hop h

theorem computes_or : Computes (emitOr d) s d.rd (guest s d.rs1 ||| guest s d.rs2) :=
  computes_orXor hrd h0 .or BitVec.or_comm fun _ => BitVec.or_zero

theorem computes_xor : Computes (emitXor d) s d.rd (guest s d.rs1 ^^^ guest s d.rs2) :=
  computes_orXor hrd h0 .xor BitVec.xor_comm fun _ => BitVec.xor_zero

theorem computes_mul : Computes (emitMul d) s d.rd (guest s d.rs1 * guest s d.rs2) := by
  unfold emitMul
  dsimp only
  rw [if_neg hrd]
  split
  · next h =>
    refine computes_zero.congr ?_
    rcases h with h | h
    · rw [h, h0, BitVec.zero_mul]
    · rw [h, h0, BitVec.mul_zero]
  · split
    · next h =>
      have hop := computes_op (s := s) .imul d.rd d.rs2
      rw [emitOp, if_pos (.inl h.2), loc_of_pos h.2] at hop
      exact hop.congr (by rw [h.1, AluOp.eval])
    · split
      · next h =>
        have hop := computes_op (s := s) .imul d.rd d.rs1
        rw [emitOp, if_pos (.inl h.2), loc_of_pos h.2] at hop
        exact hop.congr (by rw [h.1, AluOp.eval, BitVec.mul_comm])
      · next hne1 hne2 =>
        split
        · next h =>
          have hslot : ¬ 0 < x86Reg d.rd := by omega
          apply ends_rax
          intro s' hax hs'
          exact sets_slot hslot hax hs'
        · next h =>
          have hpos : 0 < x86Reg d.rd := by
            rcases x86Reg_cases d.rd with hr | hr | hr
            · exact hr
            · exact absurd hr h
            · exact absurd hr hrd
          have hne : d.rs2 ≠ d.rd := fun heq => hne2 ⟨heq.symm, hpos⟩
          refine (computes_mv d.rd d.rs1).append fun s' hs' => ?_
          rw [← loc_of_pos hpos, ends_cons rfl rfl, ends_nil]
          refine hs'.trans fun r => ?_
          rw [guest_clobberFlags, sets_putQ s' d.rd _ r, q_loc, q_loc, hs'.guest_rd, hs'.guest_ne hne]
          rfl

omit hrd in
theorem ends_cmpRs1Rs2 :
    Ends (emitCmpRs1Rs2 d) s fun s' =>
      s'.flags = some (.cmp (guest s d.rs1) (guest s d.rs2)) ∧ ∀ r, guest s' r = guest s r := by
  unfold emitCmpRs1Rs2
  dsimp only
  split
  · next h =>
    rw [ends_cons rfl rfl, ends_nil, ← loc_of_pos h.1, ← loc_of_pos h.2]
    exact ⟨rfl, fun r => guest_setFlags s r _⟩
  · have hrs1 : Ends (if d.rs1 = 0 then [.alu .xor .d ax ax] else [.mov .q ax (loc d.rs1)]) s fun s' =>
        s'.q ax = guest s d.rs1 ∧ ∀ r, guest s' r = guest s r := by
      split
      · next h1 =>
        rw [ends_cons rfl rfl, ends_nil, AluOp.eval, BitVec.xor_self, h1, h0]
        exact ⟨by simp, by simp⟩
      · rw [ends_cons rfl rfl, ends_nil]
        exact ⟨by simp, by simp⟩
    refine hrs1.append ?_
    rintro s' ⟨hax, hs'⟩
    split
    · next h2 =>
      rw [ends_cons rfl rfl, ends_nil, hax, h2, h0]
      exact ⟨rfl, fun r => by rw [guest_setFlags, hs']⟩
    · rw [ends_cons rfl rfl, ends_nil, hax, q_loc, hs']
      exact ⟨rfl, fun r => by rw [guest_setFlags, hs']⟩

omit hrd h0 in
theorem computes_setRd {f : Flags} (hf : s.flags = some f) (c : Cond) :
    Computes (emitSetRd d c) s d.rd (if f.holds c then 1#64 else 0#64) := by
  unfold emitSetRd
  dsimp only
  have hset : (.setcc c rax : Ins Slot Label).step s = some (s.putByte (if f.holds c then 1 else 0) rax) := by
    simp [Ins.step, hf]
  have hval : (((if f.holds c then 1 else 0 : BitVec 8).setWidth 32).setWidth 64) = if f.holds c then 1#64 else 0#64 := by
    split <;> rfl
  rw [Computes, ends_cons rfl hset]
  split
  · next h =>
    rw [ends_cons rfl rfl, ends_nil, State.byte_putByte, reg_gpr h]
    intro r
    rw [sets_putD h _ r, hval]
    simp
  · next h =>
    rw [ends_cons rfl rfl, State.byte_putByte]
    exact sets_slot h (by rw [State.q_putD_reg, hval]) (by simp)

theorem computes_slt : Computes (emitSlt d) s d.rd (if (guest s d.rs1).slt (guest s d.rs2) then 1#64 else 0#64) := by
  unfold emitSlt
  rw [if_neg hrd]
  refine (ends_cmpRs1Rs2 h0).append ?_
  rintro s' ⟨hf, hs'⟩
  refine ((computes_setRd hf .l).congr (by rw [holds_cmp_l])).mono fun s'' hs'' r => ?_
  rw [hs'' r, hs']

theorem computes_sltu :
    Computes (emitSltu d) s d.rd (if decide (guest s d.rs1 < guest s d.rs2) then 1#64 else 0#64) := by
  unfold emitSltu
  rw [if_neg hrd]
  refine (ends_cmpRs1Rs2 h0).append ?_
  rintro s' ⟨hf, hs'⟩
  refine ((computes_setRd hf .b).congr (by rw [holds_cmp_b])).mono fun s'' hs'' r => ?_
  rw [hs'' r, hs']

omit hrd h0 in
/-- The shift count is in `rcx`. -/
theorem ends_mvCl {code : Code} {P : HostState → Prop}
    (h : ∀ s' : HostState, (s'.q cx).setWidth 8 = (guest s d.rs2).setWidth 8 → (∀ r, guest s' r = guest s r) → Ends code s' P) :
    Ends (emitMvClRs2 d ++ code) s P := by
  unfold emitMvClRs2
  rw [List.singleton_append, ends_cons rfl rfl]
  apply h
  · rw [State.q_putD_reg, d_loc, BitVec.setWidth_setWidth_of_le _ (by decide), BitVec.setWidth_setWidth_of_le _ (by decide)]
  · simp

omit h0 in
theorem pos_of_not_neg (h : ¬ x86Reg d.rd < 0) : 0 < x86Reg d.rd := by
  rcases x86Reg_cases d.rd with hr | hr | hr
  · exact hr
  · exact absurd hr h
  · exact absurd hr hrd

omit hrd h0 in
/-- `rd` is shifted by the count in `rcx`. -/
theorem sets_shift (op : ShiftOp) {s' : HostState} {c : BitVec 8} (hc : (s'.q cx).setWidth 8 = c) :
    Computes [.shift op .q (loc d.rd) cx] s' d.rd (op.eval (guest s' d.rd) c) := by
  rw [Computes, ends_cons rfl rfl, ends_nil, hc]
  intro r
  rw [guest_clobberFlags]
  exact sets_putQ s' d.rd _ r

theorem computes_shift (op : ShiftOp) :
    Computes (emitShift d op) s d.rd (op.eval (guest s d.rs1) ((guest s d.rs2).setWidth 8)) := by
  unfold emitShift
  dsimp only
  rw [if_neg hrd]
  split
  · next h1 =>
    refine computes_zero.congr ?_
    rw [h1, h0]
    cases op <;> simp [ShiftOp.eval]
  · split
    · next h2 =>
      refine (computes_mv d.rd d.rs1).congr ?_
      rw [h2, h0]
      cases op <;> simp [ShiftOp.eval]
    · split
      · next h =>
        apply ends_mvCl
        intro s' hcx hs'
        refine ((sets_shift op hcx).congr (by rw [hs', h])).mono fun s'' hs'' r => ?_
        rw [hs'' r, hs']
      · next hne =>
        split
        · next h =>
          have hslot : ¬ 0 < x86Reg d.rd := by omega
          rw [List.append_assoc]
          apply ends_mvCl
          intro s' hcx hs'
          unfold emitMvRaxRs1
          rw [List.singleton_append, ends_cons rfl rfl, ends_cons rfl rfl]
          refine sets_slot hslot ?_ ?_
          · simp [hs', hcx]
          · simp [hs']
        · next h =>
          have hpos := pos_of_not_neg hrd h
          rw [List.append_assoc]
          apply ends_mvCl
          intro s' hcx hs'
          unfold emitMvRdRs1 emitMv
          rw [if_neg hne, if_pos (.inl hpos), List.singleton_append, ends_cons rfl rfl, ← loc_of_pos hpos, q_loc, hs']
          have hsets := sets_putQ s' d.rd (guest s d.rs1)
          have hcx' : ((s'.putQ (guest s d.rs1) (loc d.rd)).q cx).setWidth 8 = (guest s d.rs2).setWidth 8 := by
            rw [State.q_putQ _ (loc_loc _), if_neg (loc_ne_cx d.rd).symm, hcx]
          refine ((sets_shift op hcx').congr (by rw [hsets.guest_rd])).mono fun s'' hs'' r => ?_
          rw [hsets.trans hs'' r, hs']

omit hrd h0 in
/-- `rd op= imm` after a move. -/
theorem computes_opImm (op : AluOp) (imm : BitVec 32) :
    Computes (emitMvRdRs1 d ++ [.alu op .q (loc d.rd) (.imm imm)]) s d.rd (op.eval (guest s d.rs1) (imm.signExtend 64)) := by
  refine (computes_mv d.rd d.rs1).append fun s' hs' => ?_
  rw [ends_cons rfl rfl, ends_nil]
  refine hs'.trans fun r => ?_
  rw [guest_clobberFlags, sets_putQ s' d.rd _ r, q_loc, hs'.guest_rd]
  rfl

omit hrd h0 in
theorem computes_opImm_rd (op : AluOp) (imm : BitVec 32) (h : d.rd = d.rs1) :
    Computes [.alu op .q (loc d.rd) (.imm imm)] s d.rd (op.eval (guest s d.rs1) (imm.signExtend 64)) := by
  have hop := computes_opImm (d := d) (s := s) op imm
  rwa [emitMvRdRs1, emitMv, if_pos h, List.nil_append] at hop

omit hrd h0 in
theorem computes_imm (imm : BitVec 32) : Computes [.mov .q (loc d.rd) (.imm imm)] s d.rd (imm.signExtend 64) := by
  rw [Computes, ends_cons rfl rfl, ends_nil]
  exact sets_putQ s d.rd _

theorem computes_addi : Computes (emitAddi d) s d.rd (guest s d.rs1 + d.imm.signExtend 64) := by
  unfold emitAddi
  dsimp only
  rw [if_neg hrd]
  split
  · next h1 =>
    refine (computes_imm d.imm).congr ?_
    rw [h1, h0, BitVec.zero_add]
  · split
    · next h => exact computes_opImm_rd .add d.imm h
    · split
      · next himm =>
        refine (computes_mv d.rd d.rs1).congr ?_
        rw [himm]
        simp
      · split
        · next h =>
          rw [Computes, ends_cons rfl rfl, ends_nil, reg_gpr h.1, ← loc_of_pos h.2]
          exact sets_putQ s d.rd _
        · exact computes_opImm .add d.imm

theorem computes_setLess {result : Bool} {c : Cond} (hzero : result = (Flags.cmp 0#64 (d.imm.signExtend 64)).holds c) :
    Computes (emitSetLess d result c) s d.rd
      (if (Flags.cmp (guest s d.rs1) (d.imm.signExtend 64)).holds c then 1#64 else 0#64) := by
  unfold emitSetLess
  rw [if_neg hrd]
  split
  · next h1 =>
    refine (computes_imm _).congr ?_
    rw [h1, h0, ← hzero]
    cases result <;> rfl
  · rw [Computes, ends_cons rfl rfl]
    refine (computes_setRd rfl c).mono fun s' hs' r => ?_
    rw [hs' r, guest_setFlags]
    rfl

theorem computes_slti : Computes (emitSlti d) s d.rd (if (guest s d.rs1).slt (d.imm.signExtend 64) then 1#64 else 0#64) := by
  refine (computes_setLess hrd h0 ?_).congr (by rw [holds_cmp_l])
  rw [holds_cmp_l, BitVec.slt_eq_decide, BitVec.toInt_signExtend_of_le (by decide)]
  rfl

theorem computes_sltiu :
    Computes (emitSltiu d) s d.rd (if decide (guest s d.rs1 < d.imm.signExtend 64) then 1#64 else 0#64) := by
  refine (computes_setLess hrd h0 ?_).congr (by rw [holds_cmp_b])
  rw [holds_cmp_b]
  rfl

theorem computes_andi : Computes (emitAndi d) s d.rd (guest s d.rs1 &&& d.imm.signExtend 64) := by
  unfold emitAndi
  rw [if_neg hrd]
  split
  · next h1 =>
    refine computes_zero.congr ?_
    rw [h1, h0, BitVec.zero_and]
  · split
    · next h => exact computes_opImm_rd .and d.imm h
    · exact computes_opImm .and d.imm

theorem computes_oriXori (op : AluOp) (hzero : ∀ x : BitVec 64, op.eval 0#64 x = x) :
    Computes (emitOriXori d op) s d.rd (op.eval (guest s d.rs1) (d.imm.signExtend 64)) := by
  unfold emitOriXori
  rw [if_neg hrd]
  split
  · next h1 =>
    refine (computes_imm d.imm).congr ?_
    rw [h1, h0, hzero]
  · split
    · next h => exact computes_opImm_rd op d.imm h
    · exact computes_opImm op d.imm

theorem computes_shiftImm (op : ShiftOp) :
    Computes (emitShiftImm d op) s d.rd (op.eval (guest s d.rs1) ((d.imm.signExtend 64).setWidth 8)) := by
  have hshift : Computes (emitMvRdRs1 d ++ [.shift op .q (loc d.rd) (.imm d.imm)]) s d.rd
      (op.eval (guest s d.rs1) ((d.imm.signExtend 64).setWidth 8)) := by
    refine (computes_mv d.rd d.rs1).append fun s' hs' => ?_
    rw [ends_cons rfl rfl, ends_nil]
    refine hs'.trans fun r => ?_
    rw [guest_clobberFlags, sets_putQ s' d.rd _ r, q_loc, hs'.guest_rd]
    rfl
  unfold emitShiftImm
  rw [if_neg hrd]
  split
  · next h1 =>
    refine computes_zero.congr ?_
    rw [h1, h0]
    cases op <;> simp [ShiftOp.eval]
  · split
    · next h => rwa [emitMvRdRs1, emitMv, if_pos h, List.nil_append] at hshift
    · exact hshift

end AluSpecs

/-! ## What the emitters of W instructions compute -/

section AluWSpecs
variable {d : JitDecode} {s : HostState}

/-- The low half of a guest register. -/
def guestW (s : HostState) (r : Nat) : BitVec 32 := (guest s r).setWidth 32

theorem guestW_zero {r : Nat} (h0 : guest s 0 = 0#64) (h : r = 0) : guestW s r = 0#32 := by
  rw [guestW, h, h0]
  rfl

/-- The result is extended in `rax` and put into the slot. -/
theorem ends_extend {s1 : HostState} {v : BitVec 32} (hslot : ¬ 0 < x86Reg d.rd) (hax : (s1.q ax).setWidth 32 = v)
    (hs : ∀ r, guest s1 r = guest s r) : Ends [.movsxd rax ax, .mov .q (rbpReg d.rd) ax] s1 (Sets d.rd (v.signExtend 64) s) := by
  rw [ends_cons rfl rfl]
  refine sets_slot hslot ?_ ?_
  · rw [State.q_putQ _ (loc_reg _), if_pos rfl, State.d_eq _ (loc_reg _), hax]
  · simpa using hs

theorem computes_throughEax (op : AluOp) (hslot : ¬ 0 < x86Reg d.rd) :
    Computes (emitThroughEax d op) s d.rd ((op.eval (guestW s d.rs1) (guestW s d.rs2)).signExtend 64) := by
  unfold emitThroughEax emitMvEaxRs1
  rw [Computes, List.singleton_append, ends_cons rfl rfl, ends_cons rfl rfl]
  refine ends_extend hslot ?_ ?_
  · simp [guestW]
  · simp

theorem SetsLow.clobberFlags {rd : Nat} {v : BitVec 32} {s' : HostState} (h : SetsLow rd v s s') : SetsLow rd v s s'.clobberFlags :=
  ⟨by rw [guest_clobberFlags, h.1], fun r hr => by rw [guest_clobberFlags, h.2 r hr]⟩

/-- `op rd, rs2` on the low halves, after the move of `rs1`. -/
theorem computes_threeW (op : AluOp) (hpos : 0 < x86Reg d.rd) (hne : d.rs2 ≠ d.rd) :
    Computes (emitThreeW d op) s d.rd ((op.eval (guestW s d.rs1) (guestW s d.rs2)).signExtend 64) := by
  unfold emitThreeW
  refine Ends.sx32 ((computes_mv d.rd d.rs1).append fun s' hs' => ?_)
  rw [← loc_of_pos hpos, ends_cons rfl rfl, ends_nil, d_loc, d_loc, hs'.guest_rd, hs'.guest_ne hne]
  exact hs'.low.trans_low (setsLow_putD s' d.rd _).clobberFlags

/-- From the slot of `rs2` to a register, `emit_mv_rd_rs2_sx_32` moves all of it. -/
theorem computes_mv2_sx32 :
    Computes (emitMvRdRs2Sx32 d) s d.rd
      (if 0 < x86Reg d.rd ∧ ¬ 0 < x86Reg d.rs2 then guest s d.rs2 else (guestW s d.rs2).signExtend 64) := by
  unfold emitMvRdRs2Sx32
  dsimp only
  split
  · next h =>
    split
    · next h2 =>
      rw [Computes, ends_cons rfl rfl, ends_nil, reg_gpr h, ← loc_of_pos h2, d_loc, if_neg fun hn => hn.2 h2]
      exact sets_putQ s d.rd _
    · next h2 =>
      rw [Computes, ends_cons rfl rfl, ends_nil, ← loc_of_pos h, ← loc_of_not_pos h2, if_pos ⟨h, h2⟩]
      exact sets_putQ s d.rd _
  · next h =>
    rw [Computes, ends_cons rfl rfl, d_loc, if_neg fun hn => h hn.1]
    exact sets_slot h (by simp [guestW]) (by simp)

variable (hrd : d.rd ≠ 0) (h0 : guest s 0 = 0#64)

include hrd h0

theorem computes_addw :
    Computes (emitAddw d) s d.rd
      (if d.rs1 = 0 ∧ 0 < x86Reg d.rd ∧ ¬ 0 < x86Reg d.rs2 then guest s d.rs2
        else (guestW s d.rs1 + guestW s d.rs2).signExtend 64) := by
  unfold emitAddw
  dsimp only
  rw [if_neg hrd]
  by_cases h1 : d.rs1 = 0
  · rw [if_pos h1]
    refine computes_mv2_sx32.congr ?_
    simp only [h1, true_and]
    rw [← h1, guestW_zero h0 h1, BitVec.zero_add]
  · rw [if_neg h1, if_neg (c := d.rs1 = 0 ∧ _ ∧ _) fun h => h1 h.1]
    split
    · next h2 =>
      refine computes_mv_sx32.congr ?_
      rw [guestW_zero h0 h2, BitVec.add_zero]
      rfl
    · split
      · next h =>
        refine (Ends.sx32 (ends_op .add d.rd d.rs2)).congr ?_
        rw [h]
        rfl
      · split
        · next h =>
          refine (Ends.sx32 (ends_op .add d.rd d.rs1)).congr ?_
          rw [h, AluOp.eval, BitVec.add_comm]
          rfl
        · next hne =>
          split
          · next h =>
            have hlea : Ends [.lea .d (gpr (x86Reg d.rd)) (gp (x86Reg d.rs1)) (gp (x86Reg d.rs2))] s
                (SetsLow d.rd (guestW s d.rs1 + guestW s d.rs2) s) := by
              rw [ends_cons rfl rfl, ends_nil, reg_gpr h.1, ← loc_of_pos h.2.1, ← loc_of_pos h.2.2, d_loc, d_loc]
              exact setsLow_putD s d.rd _
            exact hlea.sx32
          · split
            · next h => exact computes_throughEax .add (by omega)
            · next h => exact computes_threeW .add (pos_of_not_neg hrd h) (Ne.symm hne)

theorem computes_subw : Computes (emitSubw d) s d.rd ((guestW s d.rs1 - guestW s d.rs2).signExtend 64) := by
  unfold emitSubw
  dsimp only
  rw [if_neg hrd]
  have hneg : ∀ {code : Code} {v : BitVec 32}, Ends code s (SetsLow d.rd v s) →
      Ends (code ++ [.neg .d (loc d.rd)]) s (SetsLow d.rd (-v) s) := by
    intro code v h
    refine h.append fun s' hs' => ?_
    rw [ends_cons rfl rfl, ends_nil, d_loc, hs'.1]
    exact hs'.trans_low (setsLow_putD s' d.rd _).clobberFlags
  split
  · next h1 =>
    have hmv : Ends (if d.rd ≠ d.rs2 then emitMvRdRs2 d else []) s (SetsLow d.rd (guestW s d.rs2) s) := by
      split
      · exact (computes_mv d.rd d.rs2).mono fun s' hs' => hs'.low
      · next h =>
        rw [not_not] at h
        rw [ends_nil, h]
        exact ⟨rfl, fun _ _ => rfl⟩
    refine (Ends.sx32 (hneg hmv)).congr ?_
    rw [guestW_zero h0 h1, BitVec.zero_sub]
  · split
    · next h2 =>
      refine computes_mv_sx32.congr ?_
      rw [guestW_zero h0 h2, BitVec.sub_zero]
      rfl
    · split
      · next h =>
        refine (Ends.sx32 (ends_op .sub d.rd d.rs2)).congr ?_
        rw [h]
        rfl
      · split
        · next h =>
          refine (Ends.sx32 (hneg (ends_op .sub d.rd d.rs1))).congr ?_
          rw [h, AluOp.eval, BitVec.neg_sub, BitVec.sub_eq_add_neg, BitVec.add_comm]
          rfl
        · next hne =>
          split
          · next h => exact computes_throughEax .sub (by omega)
          · next h => exact computes_threeW .sub (pos_of_not_neg hrd h) (Ne.symm hne)

theorem computes_mulw : Computes (emitMulw d) s d.rd ((guestW s d.rs1 * guestW s d.rs2).signExtend 64) := by
  unfold emitMulw
  dsimp only
  rw [if_neg hrd]
  split
  · next h =>
    refine computes_zero.congr ?_
    rcases h with h | h
    · rw [guestW_zero h0 h, BitVec.zero_mul]
      rfl
    · rw [guestW_zero h0 h, BitVec.mul_zero]
      rfl
  · split
    · next h =>
      have hop := ends_op (s := s) .imul d.rd d.rs2
      rw [emitOp, if_pos (.inl h.2), loc_of_pos h.2] at hop
      refine (Ends.sx32 hop).congr ?_
      rw [h.1]
      rfl
    · split
      · next h =>
        have hop := ends_op (s := s) .imul d.rd d.rs1
        rw [emitOp, if_pos (.inl h.2), loc_of_pos h.2] at hop
        refine (Ends.sx32 hop).congr ?_
        rw [h.1, AluOp.eval, BitVec.mul_comm]
        rfl
      · next hne =>
        split
        · next h =>
          have hslot : ¬ 0 < x86Reg d.rd := by omega
          refine Ends.sx32 ?_
          unfold emitMvEaxRs1
          rw [List.singleton_append, ends_cons rfl rfl, ends_cons rfl rfl, ends_cons rfl rfl, ends_nil, ← loc_of_not_pos hslot]
          refine ⟨?_, ?_⟩
          · rw [(setsLow_putD _ d.rd _).1]
            simp [guestW, AluOp.eval]
          · intro r hr
            rw [(setsLow_putD _ d.rd _).2 r hr]
            simp
        · next h =>
          have hpos := pos_of_not_neg hrd h
          exact computes_threeW .imul hpos fun heq => hne ⟨heq.symm, hpos⟩

omit hrd h0 in
/-- The low half of `rd` is shifted. -/
theorem setsLow_shift (op : ShiftOp) {s' : HostState} {count : Operand Slot} {v : BitVec 32} {c : BitVec 8}
    (hs' : SetsLow d.rd v s s') (hc : (s'.q count).setWidth 8 = c) :
    Ends [.shift op .d (loc d.rd) count] s' (SetsLow d.rd (op.eval v c) s) := by
  rw [ends_cons rfl rfl, ends_nil, d_loc, hs'.1, hc]
  exact hs'.trans_low (setsLow_putD s' d.rd _).clobberFlags

omit hrd h0 in
theorem eval_zero_shift (op : ShiftOp) (c : BitVec 8) : op.eval 0#32 c = 0#32 := by
  cases op <;> simp [ShiftOp.eval]

theorem computes_shiftW (op : ShiftOp) :
    Computes (emitShiftW d op) s d.rd ((op.eval (guestW s d.rs1) ((guest s d.rs2).setWidth 8)).signExtend 64) := by
  unfold emitShiftW
  dsimp only
  rw [if_neg hrd]
  split
  · next h1 =>
    refine computes_zero.congr ?_
    rw [guestW_zero h0 h1, eval_zero_shift]
    rfl
  · split
    · next h2 =>
      refine computes_mv_sx32.congr ?_
      rw [h2, h0]
      cases op <;> simp [ShiftOp.eval, guestW]
    · split
      · next h =>
        refine Ends.sx32 (ends_mvCl fun s' hcx hs' => ?_)
        have hlow : SetsLow d.rd (guestW s d.rs1) s s' := ⟨by rw [hs', h]; rfl, fun r _ => hs' r⟩
        exact setsLow_shift op hlow hcx
      · next hne =>
        split
        · next h =>
          have hslot : ¬ 0 < x86Reg d.rd := by omega
          rw [List.append_assoc]
          apply ends_mvCl
          intro s' hcx hs'
          unfold emitMvEaxRs1
          rw [List.singleton_append, ends_cons rfl rfl, ends_cons rfl rfl]
          refine ends_extend hslot ?_ ?_
          · simp [hs', hcx, guestW]
          · simp [hs']
        · next h =>
          have hpos := pos_of_not_neg hrd h
          refine Ends.sx32 ?_
          rw [List.append_assoc]
          apply ends_mvCl
          intro s' hcx hs'
          unfold emitMvRdRs132 emitMv
          rw [if_neg hne, if_pos (.inl hpos), List.singleton_append, ends_cons rfl rfl, ← loc_of_pos hpos, d_loc, hs']
          have hlow := setsLow_putD s' d.rd (guestW s d.rs1)
          refine setsLow_shift op ⟨hlow.1, fun r hr => (hlow.2 r hr).trans (hs' r)⟩ ?_
          rw [State.q_putD_of_ne _ (loc_ne_cx d.rd).symm, hcx]

theorem computes_addiw : Computes (emitAddiw d) s d.rd ((guestW s d.rs1 + d.imm).signExtend 64) := by
  have hop : ∀ {s' : HostState} {v : BitVec 32}, SetsLow d.rd v s s' →
      Ends [.alu .add .d (loc d.rd) (.imm d.imm)] s' (SetsLow d.rd (v + d.imm) s) := by
    intro s' v hs'
    rw [ends_cons rfl rfl, ends_nil, d_loc, hs'.1]
    exact hs'.trans_low (setsLow_putD s' d.rd _).clobberFlags
  unfold emitAddiw
  dsimp only
  rw [if_neg hrd]
  split
  · next h1 =>
    refine Computes.congr (Ends.sx32 (v := d.imm) ?_) (by rw [guestW_zero h0 h1, BitVec.zero_add])
    rw [ends_cons rfl rfl, ends_nil]
    exact setsLow_putD s d.rd _
  · split
    · next h =>
      refine Ends.sx32 (hop ⟨?_, fun _ _ => rfl⟩)
      rw [h]
      rfl
    · next hne =>
      split
      · next h =>
        have hslot : ¬ 0 < x86Reg d.rd := by omega
        unfold emitMvEaxRs1
        rw [Computes, List.singleton_append, ends_cons rfl rfl, ends_cons rfl rfl]
        refine ends_extend hslot ?_ ?_
        · simp [guestW, AluOp.eval]
        · simp
      · next h =>
        rw [← loc_of_pos (pos_of_not_neg hrd h)]
        exact Ends.sx32 ((ends_mv_low hne).append fun s' hs' => hop hs')

theorem computes_shiftImmW (op : ShiftOp) :
    Computes (emitShiftImmW d op) s d.rd
      ((op.eval (guestW s d.rs1) ((d.imm.signExtend 64).setWidth 8)).signExtend 64) := by
  unfold emitShiftImmW
  dsimp only
  rw [if_neg hrd]
  split
  · next h1 =>
    refine computes_zero.congr ?_
    rw [guestW_zero h0 h1, eval_zero_shift]
    rfl
  · split
    · next h =>
      refine Ends.sx32 (setsLow_shift op ⟨?_, fun _ _ => rfl⟩ rfl)
      rw [h]
      rfl
    · next hne =>
      split
      · next h =>
        have hslot : ¬ 0 < x86Reg d.rd := by omega
        unfold emitMvEaxRs1
        rw [Computes, List.singleton_append, ends_cons rfl rfl, ends_cons rfl rfl]
        refine ends_extend hslot ?_ ?_
        · simp [guestW]
        · simp
      · next h =>
        rw [← loc_of_pos (pos_of_not_neg hrd h)]
        exact Ends.sx32 ((ends_mv_low hne).append fun s' hs' => setsLow_shift op hs' rfl)

end AluWSpecs

end Rv8.Jit
