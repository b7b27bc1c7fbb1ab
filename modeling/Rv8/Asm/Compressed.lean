import Rv8.Asm.RoundTrip
/-!
# Encoding undoes decoding: 16-bit instructions

A 16-bit word goes through the same tables twice: encoded again as it is, and
decompressed and encoded as a 32-bit word. Both work but for two slips of the
source: `encode_cs` writes `rd` into the field of `rs2`, and the decompression
table of RV128 has no entry for the opcodes that RV128 decodes.
-/

namespace Rv8.Asm

open Rv8.Lib.BitTree

/-- The bits that the opcodes of the format `cs` have in common: `c.sub`, `c.xor`, `c.or`, `c.and`,
`c.subw` and `c.addw`. -/
def csCube : Cube := ⟨0xec03, 0x8c01⟩

/-- Fixed bits and operand bits fill the 16 bits, and `cs` opcodes are the words of `csCube`. -/
def path16 (x : Xlen) (c : Cube) (l : Leaf) : Bool :=
  let o := l.op x.flags
  o = .illegal || usedBits o = 2 ^ 16 - 1 && (if rvInstCodec o = .cs then c.implies csCube else c.conflicts csCube)

theorem paths_16 (x : Xlen) : decodeTree.allPaths (path16 x) ⟨3, 0⟩ = true ∧
    decodeTree.allPaths (path16 x) ⟨3, 1⟩ = true ∧ decodeTree.allPaths (path16 x) ⟨3, 2⟩ = true := by
  cases x <;> decide +kernel

/-- What holds on the paths of the three quadrants holds of every 16-bit word. -/
theorem paths_of_compressed {p : Cube → Leaf → Bool} {inst : Nat} (h3 : inst % 4 ≠ 3)
    (h : decodeTree.allPaths p ⟨3, 0⟩ = true ∧ decodeTree.allPaths p ⟨3, 1⟩ = true ∧ decodeTree.allPaths p ⟨3, 2⟩ = true) :
    ∃ c : Cube, c.Mem inst ∧ p c (decodeTree.eval inst) = true := by
  have hmod : inst &&& 3 = inst % 4 := Nat.and_two_pow_sub_one_eq_mod inst 2
  obtain ⟨h0, h1, h2⟩ := h
  rcases (by omega : inst % 4 = 0 ∨ inst % 4 = 1 ∨ inst % 4 = 2) with hq | hq | hq
  · exact Decision.allPaths_sound decodeTree_wf h0 (hmod.trans hq)
  · exact Decision.allPaths_sound decodeTree_wf h1 (hmod.trans hq)
  · exact Decision.allPaths_sound decodeTree_wf h2 (hmod.trans hq)

section
variable {x : Xlen} {inst : Nat}

theorem compressed_op (h3 : inst % 4 ≠ 3) (h : decodeInstOp x.flags inst ≠ .illegal) :
    usedBits (decodeInstOp x.flags inst) = 2 ^ 16 - 1 ∧
      (rvInstCodec (decodeInstOp x.flags inst) = .cs ↔ csCube.Mem inst) := by
  obtain ⟨c, hc, hp⟩ := paths_of_compressed h3 (paths_16 x)
  change (decodeInstOp x.flags inst = .illegal || _ : Bool) = true at hp
  simp only [Bool.or_eq_true, Bool.and_eq_true, decide_eq_true_eq] at hp
  obtain ⟨hu, hcs⟩ := hp.resolve_left h
  refine ⟨hu, ?_⟩
  change (if rvInstCodec (decodeInstOp x.flags inst) = .cs then _ else _ : Bool) = true at hcs
  split at hcs
  · rename_i hcodec
    exact iff_of_true hcodec (Cube.mem_of_implies hcs hc)
  · rename_i hcodec
    exact iff_of_false hcodec (Cube.not_mem_of_conflicts hcs hc)

/-! ## Encoded again as 16 bits -/

theorem encodeInst_compressed (hlt : inst < 2 ^ 16) (h3 : inst % 4 ≠ 3) (h : decodeInstOp x.flags inst ≠ .illegal)
    (hcs : rvInstCodec (decodeInstOp x.flags inst) ≠ .cs) : encodeInst (decodeInst x inst) = some inst := by
  rw [encodeInst_decodeInst h hcs, (compressed_op h3 h).1, Nat.and_two_pow_sub_one_eq_mod, Nat.mod_eq_of_lt hlt]

theorem operandCrs1rdq_decode (inst : Nat) : operandCrs1rdq.decode inst = (inst >>> 7 % 8 : Nat) := by
  change (operandCrs1rdq.implDecode inst : Int) = _
  rw [ImmOperand.implDecode_eq]
  change (((inst >>> 7 % 2 ^ 3) <<< 0 ||| 0 : Nat) : Int) = _
  simp

theorem operandCrs2q_decode (inst : Nat) : operandCrs2q.decode inst = (inst >>> 2 % 8 : Nat) := by
  change (operandCrs2q.implDecode inst : Int) = _
  rw [ImmOperand.implDecode_eq]
  change (((inst >>> 2 % 2 ^ 3) <<< 0 ||| 0 : Nat) : Int) = _
  simp

/-- `encode_cs` writes the register of `rd` into the field of `rs2`. -/
theorem encodeType_cs (dec : Decode) (inst : Nat) :
    encodeType .cs (decodeType .cs dec inst) =
      some (operandCrs2q.encode (operandCrs1rdq.decode inst) ||| inst &&& operandCrs1rdq.field) := by
  have hrd : operandCrdq.encode (u8 (operandCrs1rdq.decode inst + 8) + 8) =
      operandCrs2q.encode (operandCrs1rdq.decode inst) := by
    rw [ImmOperand.u8_decode_b3 (by decide) (by decide)]
    apply operandCrs2q.encode_congr
    change _ % 2 ^ 3 = _ % 2 ^ 3
    omega
  have hrs1 : operandCrs1q.encode (u8 (operandCrs1rdq.decode inst + 8) + 8) = inst &&& operandCrs1rdq.field :=
    ImmOperand.encode_u8_b3 (o := operandCrs1rdq) (by decide) (by decide) inst
  simp [encodeType, decodeType, guard, hrd, hrs1]

theorem mod_four_or (a b : Nat) : (a ||| b) % 4 = a % 4 ||| b % 4 := Nat.or_mod_two_pow (n := 2)

theorem match_and_format_cs {op : RvOp} (h : rvInstCodec op = .cs) : rvInstMatch op &&& formatBits .cs = 0 := by
  cases op <;> first | decide | exact absurd h (by decide)

/-- The fields of a record that a round trip has to keep. -/
def SameOperands (d d' : Decode) : Prop := d.op = d'.op ∧ d.rd = d'.rd ∧ d.rs1 = d'.rs1 ∧ d.rs2 = d'.rs2 ∧ d.imm = d'.imm

/-- Encoded as 16 bits, the word decodes to the same operands. -/
def RoundTrips (x : Xlen) (inst : Nat) : Prop :=
  ∃ inst', encodeInst (decodeInst x inst) = some inst' ∧ inst' < 2 ^ 16 ∧ inst' % 4 ≠ 3 ∧
    SameOperands (decodeInst x inst') (decodeInst x inst)

theorem roundTrips_of_not_cs (hlt : inst < 2 ^ 16) (h3 : inst % 4 ≠ 3) (h : decodeInstOp x.flags inst ≠ .illegal)
    (hcs : rvInstCodec (decodeInstOp x.flags inst) ≠ .cs) : RoundTrips x inst :=
  ⟨inst, encodeInst_compressed hlt h3 h hcs, hlt, h3, rfl, rfl, rfl, rfl, rfl⟩

theorem encodeInst_cs (hcs : rvInstCodec (decodeInstOp x.flags inst) = .cs) :
    encodeInst (decodeInst x inst) = some (rvInstMatch (decodeInstOp x.flags inst) |||
      (operandCrs2q.encode (operandCrs1rdq.decode inst) ||| inst &&& operandCrs1rdq.field)) := by
  unfold encodeInst decodeInst
  rw [decodeInstType_op, decodeInstType, hcs, encodeType_cs]
  rfl

/-- The `rs2` that is read back is the old `rd`. -/
theorem decode_rs2_of_cs {op : RvOp} (hcs : rvInstCodec op = .cs) :
    operandCrs2q.decode (rvInstMatch op ||| (operandCrs2q.encode (operandCrs1rdq.decode inst) ||| inst &&& operandCrs1rdq.field)) =
      operandCrs1rdq.decode inst := by
  have hfit : operandCrs2q.Fits (operandCrs1rdq.decode inst) := operandCrs1rdq.fits_decode inst
  have hmatch : rvInstMatch op &&& operandCrs2q.field = 0 := by
    have hin : operandCrs2q ∈ formatOperands .cs := by simp [formatOperands]
    have hm : rvInstMatch op &&& ImmOperand.fields (formatOperands .cs) = 0 := match_and_format_cs hcs
    rw [← ImmOperand.fields_and_field hin, ← Nat.and_assoc, hm, Nat.zero_and]
  refine (operandCrs2q.decode_congr ?_).trans (operandCrs2q.decode_encode hfit)
  rw [Nat.and_or_distrib_right, Nat.and_or_distrib_right, hmatch, Nat.and_assoc inst,
    show operandCrs1rdq.field &&& operandCrs2q.field = 0 by decide, Nat.and_zero, Nat.or_zero, Nat.zero_or]

theorem match_low_cs {op : RvOp} (h : rvInstCodec op = .cs) : rvInstMatch op % 4 = 1 := by
  cases op <;> first | decide | exact absurd h (by decide)

/-- The encoder keeps the low bits of the word. -/
theorem encodeInst_low (hlt : inst < 2 ^ 16) (h3 : inst % 4 ≠ 3) (h : decodeInstOp x.flags inst ≠ .illegal) {inst' : Nat}
    (he : encodeInst (decodeInst x inst) = some inst') : inst' % 4 ≠ 3 := by
  by_cases hcs : rvInstCodec (decodeInstOp x.flags inst) = .cs
  · obtain rfl := Option.some.inj ((encodeInst_cs hcs).symm.trans he)
    rw [← ImmOperand.encode_and_field, mod_four_or, mod_four_or, mod_four_and, mod_four_and, match_low_cs hcs,
      show operandCrs2q.field % 4 = 0 by decide, show operandCrs1rdq.field % 4 = 0 by decide, Nat.and_zero, Nat.and_zero]
    decide
  · obtain rfl := Option.some.inj ((encodeInst_compressed hlt h3 h hcs).symm.trans he)
    exact h3

theorem decodeInst_rs2_cs (hcs : rvInstCodec (decodeInstOp x.flags inst) = .cs) :
    (decodeInst x inst).rs2 = u8 (operandCrs2q.decode inst + 8) := by
  unfold decodeInst decodeInstType
  rw [hcs]
  rfl

theorem roundTrips_cs_iff (hlt : inst < 2 ^ 16) (h3 : inst % 4 ≠ 3) (h : decodeInstOp x.flags inst ≠ .illegal)
    (hcs : rvInstCodec (decodeInstOp x.flags inst) = .cs) :
    RoundTrips x inst ↔ inst >>> 2 % 8 = inst >>> 7 % 8 := by
  have henc := encodeInst_cs hcs
  constructor
  · -- `rs2` is read back as the old `rd`, so the two were equal
    rintro ⟨inst', he, -, -, hop, -, -, hrs2, -⟩
    obtain rfl := Option.some.inj (henc.symm.trans he)
    simp only [decodeInst, decodeInstType_op] at hop
    rw [decodeInst_rs2_cs hcs, decodeInst_rs2_cs (by rw [hop]; exact hcs), decode_rs2_of_cs hcs] at hrs2
    have h1 := ImmOperand.u8_decode_b3 (o := operandCrs1rdq) (by decide) (by decide) inst
    have h2 := ImmOperand.u8_decode_b3 (o := operandCrs2q) (by decide) (by decide) inst
    rw [hrs2, h2, operandCrs1rdq_decode, operandCrs2q_decode] at h1
    omega
  · -- equal registers make the wrong field right, and the word comes out as it was
    intro heq
    have hsame : operandCrs1rdq.decode inst = operandCrs2q.decode inst := by
      rw [operandCrs1rdq_decode, operandCrs2q_decode, heq]
    refine ⟨inst, ?_, hlt, h3, rfl, rfl, rfl, rfl, rfl⟩
    have hm : inst &&& rvInstMask _ = rvInstMatch _ := decodeInstOp_mem h
    have hbits : formatBits .cs = operandCrs2q.field ||| operandCrs1rdq.field := by decide
    rw [henc, hsame, ImmOperand.encode_decode, ← hm, ← Nat.and_or_distrib_left, ← Nat.and_or_distrib_left, ← hbits, ← hcs]
    change some (inst &&& usedBits _) = _
    rw [(compressed_op h3 h).1, Nat.and_two_pow_sub_one_eq_mod, Nat.mod_eq_of_lt hlt]

/-! ## Decompressed and encoded as 32 bits -/

/-- A record of the first format also fits the second. -/
def widens : RvCodec → RvCodec → Bool
  | .ci_none, .none | .ci_none, .i | .ciw_4spn, .i | .ci, .i | .ci_li, .i | .ci_16sp, .i | .cb_imm, .i
  | .cl_lw, .i | .cl_ld, .i | .ci_lwsp, .i | .ci_ldsp, .i | .cr_jr, .i | .cr_jalr, .i | .cr_mv, .i
  | .cs_sw, .s | .cs_sd, .s | .css_swsp, .s | .css_sdsp, .s | .cb, .sb | .ci_lui, .u | .cj, .uj | .cj_jal, .uj
  | .ci_sh6, .i_sh7 | .cb_sh6, .i_sh7 | .cr, .r | .cs, .r => true
  | _, _ => false

theorem FormatFits.widen {d : Decode} {c c' : RvCodec} (hw : widens c c' = true) (h : FormatFits d c) (op : RvOp) (codec : RvCodec) :
    FormatFits { d with op, codec } c' := by
  unfold widens at hw
  split at hw <;> first | exact absurd hw Bool.false_ne_true | (simp only [FormatFits, Plain] at h ⊢; omega)

theorem widens_decompRv64 (op : RvOp) (h : rvInstDecompRv64 op ≠ .illegal) :
    widens (rvInstCodec op) (rvInstCodec (rvInstDecompRv64 op)) = true := by
  cases op <;> first | rfl | exact absurd rfl h

/-- A decompressed record fits the format of its opcode. -/
theorem formatFits_decompressInstRv64 (inst : Nat) : FormatFits (decompressInstRv64 (decodeInst .rv64 inst))
    (rvInstCodec (decompressInstRv64 (decodeInst .rv64 inst)).op) := by
  have hop : (decodeInst .rv64 inst).op = decodeInstOp Xlen.rv64.flags inst := decodeInstType_op _ _
  have hfits : FormatFits (decodeInst .rv64 inst) (rvInstCodec (decodeInst .rv64 inst).op) := by
    rw [hop]
    exact formatFits_decodeType _ _ _ _
  unfold decompressInstRv64 decompressInst
  dsimp only
  split
  · next hdecomp => exact hfits.widen (widens_decompRv64 _ hdecomp) _ _
  · exact hfits

/-- The table `rv_inst_decomp_rvXX`. -/
def Xlen.decomp : Xlen → RvOp → RvOp
  | .rv32 => rvInstDecompRv32
  | .rv64 => rvInstDecompRv64
  | .rv128 => rvInstDecompRv128

theorem Xlen.decompress_eq (x : Xlen) (dec : Decode) : x.decompress dec = decompressInst x.decomp dec := by
  cases x <;> rfl

/-- What makes `op` encodable as a 32-bit word: operand bits and fixed bits are apart, and the tree
finds `op` from the fixed bits alone. -/
def encodable (x : Xlen) (op : RvOp) : Bool :=
  rvInstCodec op ≠ .cs && formatBits (rvInstCodec op) &&& rvInstMask op = 0 &&
    rvInstMatch op &&& rvInstMask op = rvInstMatch op && rvInstMatch op % 4 = 3 && rvInstMatch op < 2 ^ 32 &&
    formatBits (rvInstCodec op) < 2 ^ 32 && decodeTree.allPaths (fun _ l => l.op x.flags = op) (opCube op)

def pathDecomp (x : Xlen) (_ : Cube) (l : Leaf) : Bool :=
  let o := l.op x.flags
  o = .illegal || x.decomp o ≠ .illegal && widens (rvInstCodec o) (rvInstCodec (x.decomp o)) && encodable x (x.decomp o)

def pathNoDecomp (_ : Cube) (l : Leaf) : Bool :=
  rvInstDecompRv128 (l.op Xlen.rv128.flags) = .illegal

theorem paths_decomp :
    (∀ x : Xlen, x ≠ .rv128 → decodeTree.allPaths (pathDecomp x) ⟨3, 0⟩ = true ∧
      decodeTree.allPaths (pathDecomp x) ⟨3, 1⟩ = true ∧ decodeTree.allPaths (pathDecomp x) ⟨3, 2⟩ = true) ∧
    decodeTree.allPaths pathNoDecomp ⟨3, 0⟩ = true ∧
      decodeTree.allPaths pathNoDecomp ⟨3, 1⟩ = true ∧ decodeTree.allPaths pathNoDecomp ⟨3, 2⟩ = true := by
  refine ⟨fun x hx => ?_, by decide +kernel⟩
  cases x
  · decide +kernel
  · decide +kernel
  · exact absurd rfl hx

theorem encodable_spec {op : RvOp} (h : encodable x op = true) :
    rvInstCodec op ≠ .cs ∧ formatBits (rvInstCodec op) &&& rvInstMask op = 0 ∧
      rvInstMatch op &&& rvInstMask op = rvInstMatch op ∧ rvInstMatch op % 4 = 3 ∧ rvInstMatch op < 2 ^ 32 ∧
      formatBits (rvInstCodec op) < 2 ^ 32 ∧ ∀ inst, (opCube op).Mem inst → decodeInstOp x.flags inst = op := by
  simp only [encodable, Bool.and_eq_true, decide_eq_true_eq] at h
  obtain ⟨⟨⟨⟨⟨⟨h1, h2⟩, h3⟩, h4⟩, h5⟩, h6⟩, h7⟩ := h
  refine ⟨h1, h2, h3, h4, h5, h6, fun inst hm => ?_⟩
  obtain ⟨c, -, hp⟩ := Decision.allPaths_sound decodeTree_wf h7 hm
  exact of_decide_eq_true hp

/-- A record that fits its format is read from the operand bits of some word, whether or not the
fixed bits of the opcode stand beside them. -/
theorem exists_word_of_fits {d : Decode} (hapart : formatBits (rvInstCodec d.op) &&& rvInstMask d.op = 0)
    (hmask : rvInstMatch d.op &&& rvInstMask d.op = rvInstMatch d.op) (hcodec : d.codec = rvInstCodec d.op)
    (hf : FormatFits d (rvInstCodec d.op)) :
    ∃ inst, inst &&& formatBits (rvInstCodec d.op) = inst ∧ (opCube d.op).Mem (rvInstMatch d.op ||| inst) ∧
      decodeInstType { op := d.op } inst = d ∧ decodeInstType { op := d.op } (rvInstMatch d.op ||| inst) = d := by
  obtain ⟨inst, hin, hdec⟩ := (formatFits_iff d _).1 hf
  rw [hcodec] at hdec
  refine ⟨inst, hin, ?_, hdec, ?_⟩
  · change (rvInstMatch d.op ||| inst) &&& rvInstMask d.op = rvInstMatch d.op
    rw [Nat.and_or_distrib_right, hmask, ← hin, Nat.and_assoc, hapart, Nat.and_zero, Nat.or_zero]
  · have hbits : (rvInstMatch d.op ||| inst) &&& formatBits (rvInstCodec d.op) = inst &&& formatBits (rvInstCodec d.op) := by
      rw [Nat.and_or_distrib_right, ← hmask, Nat.and_assoc, Nat.and_comm (rvInstMask _), hapart, Nat.and_zero, Nat.zero_or]
    exact (decodeType_congr _ hbits).trans hdec

/-- A record that fits the format of an encodable opcode survives encoding and decoding. -/
theorem encode_of_fits {d : Decode} (he : encodable x d.op = true) (hcodec : d.codec = rvInstCodec d.op)
    (hf : FormatFits d (rvInstCodec d.op)) :
    ∃ inst', encodeInst d = some inst' ∧ inst' < 2 ^ 32 ∧ inst' % 4 = 3 ∧ decodeInst x inst' = d := by
  obtain ⟨hcs, hapart, hmask, hlow, hmlt, hflt, htree⟩ := encodable_spec he
  obtain ⟨inst, hin, hmem, hd, hd'⟩ := exists_word_of_fits hapart hmask hcodec hf
  refine ⟨rvInstMatch d.op ||| inst, ?_, ?_, ?_, ?_⟩
  · have h := encodeInst_decodeInstType hcs inst
    rwa [hd, hin] at h
  · refine Nat.or_lt_two_pow hmlt ?_
    rw [← hin]
    exact Nat.and_le_right.trans_lt hflt
  · rw [mod_four_or, hlow]
    rcases (by omega : inst % 4 = 0 ∨ inst % 4 = 1 ∨ inst % 4 = 2 ∨ inst % 4 = 3) with h | h | h | h <;> rw [h] <;> rfl
  · rw [decodeInst, htree _ hmem, hd']

/-- Decompressed, the word encodes to 32 bits that decode to the decompressed record. -/
def RoundTripsDecompressed (x : Xlen) (inst : Nat) : Prop :=
  ∃ inst', encodeInst (x.decompress (decodeInst x inst)) = some inst' ∧ inst' < 2 ^ 32 ∧ inst' % 4 = 3 ∧
    decodeInst x inst' = x.decompress (decodeInst x inst)

theorem roundTrips_decompressed (hx : x ≠ .rv128) (h3 : inst % 4 ≠ 3) (h : decodeInstOp x.flags inst ≠ .illegal) :
    RoundTripsDecompressed x inst := by
  obtain ⟨c, -, hp⟩ := paths_of_compressed h3 (paths_decomp.1 x hx)
  change (decodeInstOp x.flags inst = .illegal || _ : Bool) = true at hp
  simp only [Bool.or_eq_true, Bool.and_eq_true, decide_eq_true_eq] at hp
  obtain ⟨⟨hne, hw⟩, he⟩ := hp.resolve_left h
  have hop : (decodeInst x inst).op = decodeInstOp x.flags inst := decodeInstType_op _ _
  have hdec : x.decompress (decodeInst x inst) =
      { decodeInst x inst with op := x.decomp (decodeInstOp x.flags inst), codec := rvInstCodec (x.decomp (decodeInstOp x.flags inst)) } := by
    rw [Xlen.decompress_eq, decompressInst, hop]
    exact if_pos hne
  have hf : FormatFits (decodeInst x inst) (rvInstCodec (decodeInstOp x.flags inst)) := formatFits_decodeType _ _ _ _
  unfold RoundTripsDecompressed
  rw [hdec]
  exact encode_of_fits he rfl (hf.widen hw _ _)

/-- On RV128 nothing is decompressed, so the word encodes to 16 bits. -/
theorem not_roundTrips_decompressed (hlt : inst < 2 ^ 16) (h3 : inst % 4 ≠ 3) (h : decodeInstOp Xlen.rv128.flags inst ≠ .illegal) :
    ¬ RoundTripsDecompressed .rv128 inst := by
  rintro ⟨inst', he, -, hlow, -⟩
  obtain ⟨c, -, hp⟩ := paths_of_compressed h3 paths_decomp.2
  have hop : (decodeInst .rv128 inst).op = decodeInstOp Xlen.rv128.flags inst := decodeInstType_op _ _
  have hill : rvInstDecompRv128 (decodeInst .rv128 inst).op = .illegal := by rw [hop]; exact of_decide_eq_true hp
  have hdec : Xlen.rv128.decompress (decodeInst .rv128 inst) = decodeInst .rv128 inst := by
    rw [Xlen.decompress_eq, decompressInst]
    exact if_neg (not_not.2 hill)
  rw [hdec] at he
  exact encodeInst_low hlt h3 h he hlow

/-! ## Both -/

/-- On RV32 and RV64 every legal 16-bit word survives both round trips, but for the `cs` words with
two different registers. On RV128 none survives the second. -/
theorem compressed_round_trips_iff (x : Xlen) (inst : Nat) (hlt : inst < 2 ^ 16) (h3 : inst % 4 ≠ 3)
    (h : decodeInstOp x.flags inst ≠ .illegal) :
    RoundTrips x inst ∧ RoundTripsDecompressed x inst ↔
      x ≠ .rv128 ∧ (inst &&& 0xec03 = 0x8c01 → inst >>> 2 % 8 = inst >>> 7 % 8) := by
  have hcs := (compressed_op h3 h).2
  constructor
  · rintro ⟨h1, h2⟩
    refine ⟨?_, fun hm => (roundTrips_cs_iff hlt h3 h (hcs.2 hm)).1 h1⟩
    rintro rfl
    exact not_roundTrips_decompressed hlt h3 h h2
  · rintro ⟨hx, heq⟩
    refine ⟨?_, roundTrips_decompressed hx h3 h⟩
    by_cases hm : csCube.Mem inst
    · exact (roundTrips_cs_iff hlt h3 h (hcs.2 hm)).2 (heq hm)
    · exact roundTrips_of_not_cs hlt h3 h fun hc => hm (hcs.1 hc)
end

theorem compressed_round_trips_c_sub : (0x8c01 < 2 ^ 16 ∧ 0x8c01 % 4 ≠ 3 ∧ decodeInstOp Xlen.rv64.flags 0x8c01 ≠ .illegal) ∧
    (RoundTrips .rv64 0x8c01 ∧ RoundTripsDecompressed .rv64 0x8c01 ↔
      Xlen.rv64 ≠ .rv128 ∧ (0x8c01 &&& 0xec03 = 0x8c01 → 0x8c01 >>> 2 % 8 = 0x8c01 >>> 7 % 8)) :=
  ⟨by decide, compressed_round_trips_iff .rv64 0x8c01 (by decide) (by decide) (by decide)⟩

/-- `c.sub s0, s1`: the encoder writes `c.sub s0, s0`. -/
theorem not_round_trips_c_sub : decodeInstOp Xlen.rv64.flags 0x8c05 = .c_sub ∧ ¬ RoundTrips .rv64 0x8c05 := by
  refine ⟨by decide, ?_⟩
  rw [roundTrips_cs_iff (by decide) (by decide) (by decide) (by decide)]
  decide

end Rv8.Asm
