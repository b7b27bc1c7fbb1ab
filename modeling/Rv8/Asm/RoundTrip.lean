import Rv8.Asm.Formats
import Rv8.Asm.Switch
/-!
# Encoding undoes decoding: 32-bit instructions

The decision tree fixes the bits of the opcode, the format covers the others,
so encoding a decoded record gives back the word; only the fences leave bits
unused, and these do not matter to the tree.
-/

namespace Rv8.Asm

open Rv8.Lib.BitTree

theorem mod_four_and (a b : Nat) : (a &&& b) % 4 = a % 4 &&& b % 4 := Nat.and_mod_two_pow (n := 2)

theorem decodeInstType_eq (dec : Decode) (inst : Nat) :
    decodeInstType dec inst = decodeType (rvInstCodec dec.op) { dec with codec := rvInstCodec dec.op } inst := rfl

theorem decodeInstType_op (dec : Decode) (inst : Nat) : (decodeInstType dec inst).op = dec.op := decodeType_op _ _ _

theorem encodeInst_decodeInstType {op : RvOp} (hc : rvInstCodec op ≠ .cs) (inst : Nat) :
    encodeInst (decodeInstType { op } inst) = some (rvInstMatch op ||| inst &&& formatBits (rvInstCodec op)) := by
  unfold encodeInst
  rw [decodeInstType_op, decodeInstType_eq, encodeType_decodeType hc]
  rfl

/-! ## 32-bit instructions -/

/-- The fixed bits of the opcode and the operand bits of its format. -/
def usedBits (op : RvOp) : Nat := rvInstMask op ||| formatBits (rvInstCodec op)

theorem usedBits_eq (op : RvOp) : usedBits op = rvInstMask op ||| formatBits (rvInstCodec op) := rfl

theorem used_and_mask (op : RvOp) : usedBits op &&& rvInstMask op = rvInstMask op := by
  rw [usedBits_eq, Nat.and_or_distrib_right, Nat.and_self, Nat.or_comm, and_or_self]

theorem used_and_format (op : RvOp) :
    usedBits op &&& formatBits (rvInstCodec op) = formatBits (rvInstCodec op) := by
  rw [usedBits_eq, Nat.and_or_distrib_right, Nat.and_self, and_or_self]

theorem encodeInst_decodeInst {x : Xlen} {inst : Nat} (h : decodeInstOp x.flags inst ≠ .illegal)
    (hc : rvInstCodec (decodeInstOp x.flags inst) ≠ .cs) :
    encodeInst (decodeInst x inst) = some (inst &&& usedBits (decodeInstOp x.flags inst)) := by
  rw [decodeInst, encodeInst_decodeInstType hc, usedBits_eq, Nat.and_or_distrib_left]
  have hm : inst &&& rvInstMask _ = rvInstMatch _ := decodeInstOp_mem h
  rw [hm]

/-- A word that decodes to the same opcode and has the same operand bits gives the same record. -/
theorem decodeInst_congr {x : Xlen} {inst inst' : Nat} (hop : decodeInstOp x.flags inst' = decodeInstOp x.flags inst)
    (h : inst' &&& formatBits (rvInstCodec (decodeInstOp x.flags inst)) =
      inst &&& formatBits (rvInstCodec (decodeInstOp x.flags inst))) :
    decodeInst x inst' = decodeInst x inst := by
  unfold decodeInst
  rw [hop, decodeInstType_eq, decodeInstType_eq, decodeType_congr _ h]

/-- The fixed bits and the operand bits of a 32-bit opcode fill the word, the two fences aside: they
leave bits unused. -/
def pathFillsWord (x : Xlen) (_ : Cube) (l : Leaf) : Bool :=
  let o := l.op x.flags
  o = .illegal || rvInstCodec o ≠ .cs && usedBits o % 4 = 3 && (usedBits o = 2 ^ 32 - 1 || o = .fence || o = .fence_i)

theorem paths_32 (x : Xlen) : decodeTree.allPaths (pathFillsWord x) ⟨3, 3⟩ = true ∧
    decodeTree.allPaths (fun _ l => l.op x.flags = .fence) (opCube .fence) = true ∧
    decodeTree.allPaths (fun _ l => l.op x.flags = .fence_i) (opCube .fence_i) = true := by
  cases x <;> decide +kernel

theorem decodeInstOp_of_fence {x : Xlen} {inst : Nat} (h : (opCube .fence).Mem inst) :
    decodeInstOp x.flags inst = .fence := by
  obtain ⟨c, -, hp⟩ := Decision.allPaths_sound decodeTree_wf (paths_32 x).2.1 h
  exact of_decide_eq_true hp

theorem decodeInstOp_of_fence_i {x : Xlen} {inst : Nat} (h : (opCube .fence_i).Mem inst) :
    decodeInstOp x.flags inst = .fence_i := by
  obtain ⟨c, -, hp⟩ := Decision.allPaths_sound decodeTree_wf (paths_32 x).2.2 h
  exact of_decide_eq_true hp

theorem opCube_mem_used {op : RvOp} {inst : Nat} (h : (opCube op).Mem inst) : (opCube op).Mem (inst &&& usedBits op) := by
  change inst &&& usedBits op &&& rvInstMask op = rvInstMatch op
  rw [Nat.and_assoc, used_and_mask]
  exact h

/-- Dropping the bits a 32-bit opcode does not use keeps the opcode. -/
theorem decodeInstOp_used {x : Xlen} {inst : Nat} (hlt : inst < 2 ^ 32) (h3 : inst % 4 = 3)
    (h : decodeInstOp x.flags inst ≠ .illegal) :
    rvInstCodec (decodeInstOp x.flags inst) ≠ .cs ∧ usedBits (decodeInstOp x.flags inst) % 4 = 3 ∧
      decodeInstOp x.flags (inst &&& usedBits (decodeInstOp x.flags inst)) = decodeInstOp x.flags inst := by
  have hmem : (⟨3, 3⟩ : Cube).Mem inst := (Nat.and_two_pow_sub_one_eq_mod inst 2).trans h3
  have hop := opCube_mem_used (decodeInstOp_mem h)
  obtain ⟨c, -, hp⟩ := Decision.allPaths_sound decodeTree_wf (paths_32 x).1 hmem
  change (decodeInstOp x.flags inst = .illegal || _ : Bool) = true at hp
  simp only [Bool.or_eq_true, Bool.and_eq_true, decide_eq_true_eq] at hp
  obtain ⟨⟨hcs, hlow⟩, hfill⟩ := hp.resolve_left h
  refine ⟨hcs, hlow, ?_⟩
  -- either the whole word is used, or the opcode is one of the two fences
  rcases hfill with (hfull | hf) | hf
  · change usedBits (decodeInstOp x.flags inst) = _ at hfull
    rw [hfull, Nat.and_two_pow_sub_one_eq_mod, Nat.mod_eq_of_lt hlt]
  · change decodeInstOp x.flags inst = _ at hf
    rw [hf] at hop ⊢
    exact decodeInstOp_of_fence hop
  · change decodeInstOp x.flags inst = _ at hf
    rw [hf] at hop ⊢
    exact decodeInstOp_of_fence_i hop

/-- Encoding a decoded 32-bit instruction fails no assert and gives a 32-bit word that decodes to
the same record. -/
theorem encode_decode_32 (x : Xlen) (inst : Nat) (hlt : inst < 2 ^ 32) (h3 : inst % 4 = 3)
    (h : decodeInstOp x.flags inst ≠ .illegal) :
    ∃ inst', encodeInst (decodeInst x inst) = some inst' ∧ inst' < 2 ^ 32 ∧ inst' % 4 = 3 ∧
      decodeInst x inst' = decodeInst x inst := by
  obtain ⟨hcs, hlow, hop⟩ := decodeInstOp_used hlt h3 h
  refine ⟨_, encodeInst_decodeInst h hcs, Nat.and_le_left.trans_lt hlt, ?_, decodeInst_congr hop ?_⟩
  · rw [mod_four_and, h3, hlow]
    rfl
  · rw [Nat.and_assoc, used_and_format]

theorem encode_decode_32_addi : (0x00150513 < 2 ^ 32 ∧ 0x00150513 % 4 = 3 ∧ decodeInstOp Xlen.rv64.flags 0x00150513 ≠ .illegal) ∧
    ∃ inst', encodeInst (decodeInst .rv64 0x00150513) = some inst' ∧ inst' < 2 ^ 32 ∧ inst' % 4 = 3 ∧
      decodeInst .rv64 inst' = decodeInst .rv64 0x00150513 :=
  ⟨by decide, encode_decode_32 .rv64 0x00150513 (by decide) (by decide) (by decide)⟩

end Rv8.Asm
