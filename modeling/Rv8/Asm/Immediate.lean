import Rv8.Asm.Compressed
/-!
# Another immediate in a decoded instruction

What encoding makes of a decoded instruction whose immediate was replaced. Encoders
mask and never complain about the range of the immediate, so the instruction comes
back from decoding exactly when its format holds the new value.
-/

namespace Rv8.Asm

open Rv8.Lib.BitTree

/-! ## Lengths -/

def instLength (inst : Nat) : Nat :=
  if inst &&& 0b11 ≠ 0b11 then 2
  else if inst &&& 0b11100 ≠ 0b11100 then 4
  else if inst &&& 0b111111 = 0b011111 then 6
  else if inst &&& 0b1111111 = 0b0111111 then 8
  else 0

theorem instLength_eq_two {inst : Nat} : instLength inst = 2 ↔ inst &&& 0b11 ≠ 0b11 := by
  unfold instLength
  split_ifs with h1 h2 h3 h4 <;> simp [h1]

theorem instLength_eq_four {inst : Nat} : instLength inst = 4 ↔ inst &&& 0b11 = 0b11 ∧ inst &&& 0b11100 ≠ 0b11100 := by
  unfold instLength
  split_ifs with h1 h2 h3 h4 <;> simp_all

/-- The length of the words that carry the fixed bits of `op`. -/
def opLength (op : RvOp) : Nat := if rvInstMatch op &&& 0b11 = 0b11 then 4 else 2

/-- The fixed bits of an opcode say how long it is, and the word is no longer than that. -/
def fixesLength (op : RvOp) : Bool :=
  rvInstMask op &&& 0b11 = 0b11 && (rvInstMatch op &&& 0b11 ≠ 0b11 || rvInstMask op &&& 0b11100 = 0b11100 && rvInstMatch op &&& 0b11100 ≠ 0b11100) &&
    rvInstMatch op < 256 ^ opLength op && formatBits (rvInstCodec op) < 256 ^ opLength op

theorem paths_fix_length : decodeTree.allPaths (fun _ l => l.op Xlen.rv64.flags = .illegal || fixesLength (l.op Xlen.rv64.flags)) .top = true := by
  decide +kernel

section
variable {inst : Nat} (h : decodeInstOp Xlen.rv64.flags inst ≠ .illegal)
include h

theorem fixesLength_decodeInstOp : fixesLength (decodeInstOp Xlen.rv64.flags inst) = true := by
  obtain ⟨c, -, hp⟩ := Decision.allPaths_sound decodeTree_wf paths_fix_length (Cube.mem_top inst)
  change (decodeInstOp Xlen.rv64.flags inst = .illegal || fixesLength (decodeInstOp Xlen.rv64.flags inst) : Bool) = true at hp
  simp only [Bool.or_eq_true, decide_eq_true_eq] at hp
  exact hp.resolve_left h

end

theorem instLength_of_mem {op : RvOp} (hf : fixesLength op = true) {inst : Nat} (hm : (opCube op).Mem inst) :
    instLength inst = opLength op := by
  have hm : inst &&& rvInstMask op = rvInstMatch op := hm
  simp only [fixesLength, Bool.and_eq_true, Bool.or_eq_true, decide_eq_true_eq] at hf
  obtain ⟨⟨⟨hlow, hlen⟩, -⟩, -⟩ := hf
  have h3 : inst &&& 0b11 = rvInstMatch op &&& 0b11 := by rw [← hm, Nat.and_assoc, hlow]
  unfold opLength
  by_cases hc : rvInstMatch op &&& 0b11 = 0b11
  · obtain ⟨hmask, hmatch⟩ := hlen.resolve_left (fun hn => hn hc)
    have h28 : inst &&& 0b11100 = rvInstMatch op &&& 0b11100 := by rw [← hm, Nat.and_assoc, hmask]
    rw [if_pos hc, instLength_eq_four, h3, h28]
    exact ⟨hc, hmatch⟩
  · rw [if_neg hc, instLength_eq_two, h3]
    exact hc

/-! ## Formats with an immediate -/

def hasImm : RvCodec → Bool
  | .illegal | .none | .r | .r_m | .r4_m | .r_a | .r_l | .r_f | .ci_none | .cr | .cr_mv | .cr_jalr | .cr_jr | .cs => false
  | _ => true

theorem imm_eq_zero_of_not_hasImm {d : Decode} {codec : RvCodec} (hc : hasImm codec = false) (hf : FormatFits d codec) : d.imm = 0 := by
  cases codec <;> simp only [hasImm, reduceCtorEq] at hc <;> simp only [FormatFits] at hf <;> omega

/-- Words with the fixed bits of an opcode that are another opcode: `c.nop` among those of `c.addi`,
`c.addi16sp` among those of `c.lui`. -/
def inner : RvOp → Option Cube
  | .c_addi => some ⟨0xffff, 0x0001⟩
  | .c_lui => some ⟨0x0f80, 0x0100⟩
  | _ => none

/-- Operand bits and fixed bits are apart, and the tree finds the opcode from its fixed bits, but for the inner words. -/
def replaceable (op : RvOp) : Bool :=
  formatBits (rvInstCodec op) &&& rvInstMask op = 0 && rvInstMatch op &&& rvInstMask op = rvInstMatch op &&
    decodeTree.allPaths (fun c l => l.op Xlen.rv64.flags = op || (inner op).any c.implies) (opCube op)

theorem paths_replaceable : decodeTree.allPaths
    (fun _ l => l.op Xlen.rv64.flags = .illegal || !hasImm (rvInstCodec (l.op Xlen.rv64.flags)) || replaceable (l.op Xlen.rv64.flags)) .top = true ∧
      decodeTree.allPaths (fun _ l => l.op Xlen.rv64.flags = .c_addi16sp) (opCube .c_addi16sp) = true := by
  decide +kernel

theorem replaceable_decodeInstOp {inst : Nat} (h : decodeInstOp Xlen.rv64.flags inst ≠ .illegal)
    (hi : hasImm (rvInstCodec (decodeInstOp Xlen.rv64.flags inst)) = true) : replaceable (decodeInstOp Xlen.rv64.flags inst) = true := by
  obtain ⟨c, -, hp⟩ := Decision.allPaths_sound decodeTree_wf paths_replaceable.1 (Cube.mem_top inst)
  change (decodeInstOp Xlen.rv64.flags inst = .illegal || !hasImm (rvInstCodec (decodeInstOp Xlen.rv64.flags inst)) ||
    replaceable (decodeInstOp Xlen.rv64.flags inst) : Bool) = true at hp
  simp only [Bool.or_eq_true, decide_eq_true_eq, Bool.not_eq_true', hi, Bool.true_eq_false, or_false] at hp
  exact hp.resolve_left h

/-- A word with the fixed bits of an opcode that holds immediates is that opcode or an inner word. -/
theorem op_or_inner {op : RvOp} (hr : replaceable op = true) {inst : Nat} (hm : (opCube op).Mem inst) :
    decodeInstOp Xlen.rv64.flags inst = op ∨ ∃ c ∈ inner op, c.Mem inst := by
  simp only [replaceable, Bool.and_eq_true, decide_eq_true_eq] at hr
  obtain ⟨c, hc, hp⟩ := Decision.allPaths_sound decodeTree_wf hr.2 hm
  simp only [Bool.or_eq_true, decide_eq_true_eq, Option.any_eq_true] at hp
  rcases hp with hp | ⟨c', hc', hp⟩
  · exact .inl hp
  · exact .inr ⟨c', hc', Cube.mem_of_implies hp hc⟩

/-- `c.lui` with the stack pointer is `c.addi16sp`. -/
theorem rd_of_lui {inst : Nat} (h : decodeInstOp Xlen.rv64.flags inst = .c_lui) : ¬ (⟨0x0f80, 0x0100⟩ : Cube).Mem inst := by
  intro hrd
  have hm : (opCube .c_lui).Mem inst := by
    have hd : decodeInstOp Xlen.rv64.flags inst ≠ .illegal := by rw [h]; decide
    have := decodeInstOp_mem hd
    rwa [h] at this
  have hsp : (opCube .c_addi16sp).Mem inst := Cube.mem_inter hm hrd
  obtain ⟨c, -, hp⟩ := Decision.allPaths_sound decodeTree_wf paths_replaceable.2 hsp
  have hop : decodeInstOp Xlen.rv64.flags inst = .c_addi16sp := of_decide_eq_true hp
  rw [h] at hop
  cases hop

/-! ## The two low bits -/

theorem encode_low {o : ImmOperand} (h : o.field &&& 3 = 0) (v : Int) : o.encode v &&& 3 = 0 := by
  rw [← o.encode_and_field, Nat.and_assoc, h, Nat.and_zero]

/-- No encoder writes the bits that tell the length. -/
theorem encodeType_low {codec : RvCodec} {d : Decode} {bits : Nat} (h : encodeType codec d = some bits) : bits &&& 3 = 0 := by
  cases codec <;> simp [encodeType, Option.bind_eq_some_iff] at h <;> obtain ⟨-, -, -, rfl⟩ := h <;>
    simp (disch := decide) [Nat.and_or_distrib_right, encode_low]

/-- A 16-bit instruction is encoded in 16 bits, whatever its immediate. -/
theorem instLength_encodeInst {inst inst' : Nat} {d : Decode} (hop : d.op = decodeInstOp Xlen.rv64.flags inst) (h3 : inst &&& 3 ≠ 3)
    (he : encodeInst d = some inst') : instLength inst' = 2 := by
  obtain ⟨bits, hb, rfl⟩ := Option.map_eq_some_iff.1 he
  have hlow : (rvInstMatch d.op ||| bits) &&& 3 = rvInstMatch d.op &&& 3 := by
    rw [Nat.and_or_distrib_right, encodeType_low hb, Nat.or_zero]
  rw [instLength_eq_two, hlow, hop]
  by_cases hill : decodeInstOp Xlen.rv64.flags inst = .illegal
  · rw [hill]
    decide
  · have hf := fixesLength_decodeInstOp hill
    have hm : inst &&& rvInstMask _ = rvInstMatch _ := decodeInstOp_mem hill
    simp only [fixesLength, Bool.and_eq_true, decide_eq_true_eq] at hf
    rw [← hm, Nat.and_assoc, hf.1.1.1]
    exact h3

/-! ## Replacing the immediate -/

/-- The values that can take the place of the immediate: those of the format, where the format has
one. `encode_cs` loses a register whatever the value, and `c.addi` to `x0` of nothing is `c.nop`. -/
def CanHold (dec : Decode) (imm : Int) : Prop :=
  dec.op ≠ .illegal ∧ rvInstCodec dec.op ≠ .cs ∧ FormatFits { dec with imm } (rvInstCodec dec.op) ∧
    (dec.op = .c_addi → dec.rd = 0 → imm ≠ 0)

theorem decodeInst_op (inst : Nat) : (decodeInst .rv64 inst).op = decodeInstOp Xlen.rv64.flags inst := decodeInstType_op _ _

theorem decodeInst_codec (inst : Nat) : (decodeInst .rv64 inst).codec = rvInstCodec (decodeInstOp Xlen.rv64.flags inst) := by
  unfold decodeInst decodeInstType
  cases rvInstCodec (decodeInstOp Xlen.rv64.flags inst) <;> rfl

section
variable {inst : Nat}

/-- The immediate the instruction has already. -/
theorem encode_same (h : decodeInstOp Xlen.rv64.flags inst ≠ .illegal) (hcs : rvInstCodec (decodeInstOp Xlen.rv64.flags inst) ≠ .cs)
    (hlt : inst < 256 ^ instLength inst) :
    ∃ inst', encodeInst (decodeInst .rv64 inst) = some inst' ∧ decodeInst .rv64 inst' = decodeInst .rv64 inst ∧ inst' < 256 ^ instLength inst := by
  refine ⟨_, encodeInst_decodeInst h hcs, ?_, Nat.and_le_left.trans_lt hlt⟩
  have hlen := instLength_of_mem (fixesLength_decodeInstOp h) (decodeInstOp_mem h)
  have hmod : inst &&& 3 = inst % 4 := Nat.and_two_pow_sub_one_eq_mod inst 2
  by_cases h3 : inst % 4 = 3
  · have h4 : instLength inst = 4 := by
      rw [hlen, opLength, if_pos]
      have hm : inst &&& rvInstMask _ = rvInstMatch _ := decodeInstOp_mem h
      have hf := fixesLength_decodeInstOp h
      simp only [fixesLength, Bool.and_eq_true, decide_eq_true_eq] at hf
      rw [← hm, Nat.and_assoc, hf.1.1.1, hmod, h3]
    rw [h4] at hlt
    obtain ⟨-, -, hop⟩ := decodeInstOp_used hlt h3 h
    refine decodeInst_congr hop ?_
    rw [Nat.and_assoc, used_and_format]
  · have h2 : instLength inst = 2 := instLength_eq_two.2 (by rwa [hmod])
    rw [h2] at hlt
    rw [(compressed_op h3 h).1, Nat.and_two_pow_sub_one_eq_mod, Nat.mod_eq_of_lt (b := 2 ^ 16) hlt]

/-- A word of `c.nop`, read as `c.addi`. -/
theorem addi_of_nop {w : Nat} (hw : (⟨0xffff, 0x0001⟩ : Cube).Mem w) :
    (decodeInstType { op := .c_addi } w).rd = 0 ∧ (decodeInstType { op := .c_addi } w).imm = 0 := by
  have hbits : w &&& formatBits .ci = 1 &&& formatBits .ci := by
    have hw : w &&& 0xffff = 0x0001 := hw
    rw [show formatBits .ci = 0xffff &&& formatBits .ci by decide, ← Nat.and_assoc, hw, ← Nat.and_assoc]
    rfl
  have hd : decodeInstType { op := .c_addi } w = decodeInstType { op := .c_addi } 1 := decodeType_congr _ hbits
  rw [hd]
  exact ⟨by decide, by decide⟩

/-- Which words of `c.lui` name the stack pointer. -/
theorem lui_rd_iff {w : Nat} : (decodeInstType { op := .c_lui } w).rd = 2 ↔ (⟨0x0f80, 0x0100⟩ : Cube).Mem w := by
  have hrd : ((decodeInstType { op := .c_lui } w).rd : Int) = operandCrd.decode w :=
    ImmOperand.bitField_decode (o := operandCrd) (n := 8) (by decide) (by decide) w
  constructor
  · intro h
    have henc := operandCrd.encode_decode w
    rw [← hrd, h] at henc
    exact henc.symm.trans (by decide)
  · intro h
    have hdec : operandCrd.decode w = operandCrd.decode 0x0100 := operandCrd.decode_congr ((show w &&& 0x0f80 = 0x0100 from h).trans (by decide))
    rw [hdec, show operandCrd.decode 0x0100 = 2 by decide] at hrd
    exact_mod_cast hrd

/-- The word of a record that fits is not one of the inner words: `c.lui` keeps its register, and
`c.addi` would have to be one to `x0` of nothing. -/
theorem op_of_replaced {imm : Int} {w : Nat} (hr : replaceable (decodeInstOp Xlen.rv64.flags inst) = true)
    (hnop : decodeInstOp Xlen.rv64.flags inst = .c_addi → (decodeInst .rv64 inst).rd = 0 → imm ≠ 0)
    (hm : (opCube (decodeInstOp Xlen.rv64.flags inst)).Mem w)
    (hd : decodeInstType { op := decodeInstOp Xlen.rv64.flags inst } w = { decodeInst .rv64 inst with imm }) :
    decodeInstOp Xlen.rv64.flags w = decodeInstOp Xlen.rv64.flags inst := by
  rcases op_or_inner hr hm with hop | ⟨c, hc, hw⟩
  · exact hop
  · generalize hop : decodeInstOp Xlen.rv64.flags inst = op at *
    unfold inner at hc
    split at hc
    · obtain rfl := Option.some.inj hc
      obtain ⟨hrd, himm⟩ := addi_of_nop hw
      rw [hd] at hrd himm
      exact absurd himm (hnop rfl hrd)
    · obtain rfl := Option.some.inj hc
      have hrd := lui_rd_iff.2 hw
      rw [hd] at hrd
      have hinst : (decodeInstType { op := decodeInstOp Xlen.rv64.flags inst } inst).rd = 2 := hrd
      rw [hop] at hinst
      exact absurd (lui_rd_iff.1 hinst) (rd_of_lui hop)
    · cases hc

/-- A value the instruction can hold comes back: the encoder fails no assert, and the word it gives
has the length of the old one and decodes to the old operands with the new immediate. -/
theorem encode_replaced {imm : Int} (hlt : inst < 256 ^ instLength inst) (h : CanHold (decodeInst .rv64 inst) imm) :
    ∃ inst', encodeInst { decodeInst .rv64 inst with imm } = some inst' ∧
      decodeInst .rv64 inst' = { decodeInst .rv64 inst with imm } ∧ instLength inst' = instLength inst ∧ inst' < 256 ^ instLength inst := by
  unfold CanHold at h
  rw [decodeInst_op] at h
  obtain ⟨hop, hcs, hfit, hnop⟩ := h
  have hold : FormatFits (decodeInst .rv64 inst) (rvInstCodec (decodeInstOp Xlen.rv64.flags inst)) := formatFits_decodeType _ _ _ _
  have hfl := fixesLength_decodeInstOp hop
  have hlen := instLength_of_mem hfl (decodeInstOp_mem hop)
  -- the length follows from the opcode
  suffices hs : ∃ inst', encodeInst { decodeInst .rv64 inst with imm } = some inst' ∧
      decodeInst .rv64 inst' = { decodeInst .rv64 inst with imm } ∧ inst' < 256 ^ instLength inst by
    obtain ⟨inst', he, hd, hlt'⟩ := hs
    have hop' : decodeInstOp Xlen.rv64.flags inst' = decodeInstOp Xlen.rv64.flags inst := by
      rw [← decodeInst_op, hd, ← decodeInst_op]
    have hd' : decodeInstOp Xlen.rv64.flags inst' ≠ .illegal := by rw [hop']; exact hop
    have hm' := decodeInstOp_mem hd'
    rw [hop'] at hm'
    exact ⟨inst', he, hd, (instLength_of_mem hfl hm').trans hlen.symm, hlt'⟩
  by_cases hv : imm = (decodeInst .rv64 inst).imm
  · subst hv
    exact encode_same hop hcs hlt
  · have hi : hasImm (rvInstCodec (decodeInstOp Xlen.rv64.flags inst)) = true := by
      by_contra hi
      rw [Bool.not_eq_true] at hi
      exact hv ((imm_eq_zero_of_not_hasImm hi hfit).trans (imm_eq_zero_of_not_hasImm hi hold).symm)
    have hr := replaceable_decodeInstOp hop hi
    have hr' := hr
    simp only [replaceable, Bool.and_eq_true, decide_eq_true_eq] at hr'
    obtain ⟨⟨hapart, hmask⟩, -⟩ := hr'
    obtain ⟨w, hin, hm, hd, hd'⟩ := exists_word_of_fits (d := { decodeInst .rv64 inst with imm })
      (by rw [decodeInst_op]; exact hapart) (by rw [decodeInst_op]; exact hmask) (by rw [decodeInst_op]; exact decodeInst_codec inst)
      (by rw [decodeInst_op]; exact hfit)
    rw [decodeInst_op] at hin hm hd hd'
    have hop' := op_of_replaced hr hnop hm hd'
    refine ⟨rvInstMatch (decodeInstOp Xlen.rv64.flags inst) ||| w, ?_, ?_, ?_⟩
    · have he := encodeInst_decodeInstType hcs w
      rwa [hd, hin] at he
    · rw [decodeInst, hop', hd']
    · simp only [fixesLength, Bool.and_eq_true, decide_eq_true_eq] at hfl
      rw [hlen, show (256 : Nat) = 2 ^ 8 by norm_num, ← pow_mul] at *
      refine Nat.or_lt_two_pow hfl.1.2 ?_
      rw [← hin]
      exact Nat.and_le_right.trans_lt hfl.2

end

end Rv8.Asm
