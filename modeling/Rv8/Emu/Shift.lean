import Rv8.Emu.IllegalInstruction
/-!
# Shifts

The interpreter masks the amount of `sll`, `srl` and `sra` with seven bits at either
width, and the decoder takes the seven bits of `slli`, `srli` and `srai` as it finds
them. Both are the masks of a 128-bit machine: an amount from the width up to 127
reaches the shift of the host, whose result C leaves open.
-/

namespace Rv8.Emu

open Rv8.Lib Rv8.Lib.BitTree Rv8.Asm

/-! ## Shifts of the host -/

namespace ShiftOp

/-- The shift as arithmetic: a product, a quotient and a quotient that rounds down. -/
def value {n : Nat} (x : BitVec n) (k : Nat) : ShiftOp → BitVec n
  | shl => BitVec.ofNat n (x.toNat * 2 ^ k)
  | shr => BitVec.ofNat n (x.toNat / 2 ^ k)
  | sar => BitVec.ofInt n (x.toInt / 2 ^ k)

def regOp : ShiftOp → RvOp
  | shl => .sll | shr => .srl | sar => .sra

def immOp : ShiftOp → RvOp
  | shl => .slli | shr => .srli | sar => .srai

/-- The compressed form of `immOp`. -/
def compressedOp : ShiftOp → RvOp
  | shl => .c_slli | shr => .c_srli | sar => .c_srai

end ShiftOp

theorem Host.shift_of_lt (host : Host) (op : ShiftOp) {n k : Nat} (x : BitVec n) (hk : k < n) : host.shift op x k = op.value x k := by
  unfold Host.shift
  rw [if_pos ⟨Int.natCast_nonneg k, by exact_mod_cast hk⟩]
  cases op with
  | shl =>
    apply BitVec.eq_of_toNat_eq
    show (x <<< k).toNat = _
    rw [BitVec.toNat_shiftLeft, Nat.shiftLeft_eq, ShiftOp.value, BitVec.toNat_ofNat]
  | shr =>
    apply BitVec.eq_of_toNat_eq
    show (x >>> k).toNat = _
    rw [BitVec.toNat_ushiftRight, Nat.shiftRight_eq_div_pow, ShiftOp.value, BitVec.toNat_ofNat]
    exact (Nat.mod_eq_of_lt (Nat.lt_of_le_of_lt (Nat.div_le_self ..) x.isLt)).symm
  | sar =>
    show BitVec.ofInt n (x.toInt >>> k) = BitVec.ofInt n (x.toInt / 2 ^ k)
    rw [Int.shiftRight_eq_div_pow, Nat.cast_pow, Nat.cast_ofNat]

/-- Beyond the width a host may return anything. -/
theorem Host.exists_shift_ne (op : ShiftOp) {n k : Nat} (hn : 0 < n) (x v : BitVec n) (hk : n ≤ k) :
    ∃ host : Host, host.shift op x k ≠ v := by
  have hout (host : Host) : host.shift op x k = host.shiftOut op n x k := by
    unfold Host.shift
    exact if_neg (by omega)
  by_cases hv : v = 0
  · refine ⟨{ (default : Host) with shiftOut := fun _ _ _ _ => -1 }, ?_⟩
    rw [hout, hv]
    exact fun h => hn.ne' (BitVec.neg_one_eq_zero_iff.1 h)
  · refine ⟨default, ?_⟩
    rw [hout]
    exact fun h => hv h.symm

/-! ## Instructions -/

/-- Whatever the host does beyond the width, the case of the switch assigns `rd` the value of `rs1` shifted by `k`. -/
def Shifts {R : Rv} (s : Hart R) (dec : Decode) (op : ShiftOp) (k : Nat) : Prop :=
  ∀ host, action host s dec dec.op = some (.i, .setRd (op.value (s.ireg dec.rs1) k))

section Switch
variable {R : Rv} {s : Hart R} {dec : Decode} {op : ShiftOp}

theorem Rv.xlen_pos (R : Rv) : 0 < R.xlen := by
  cases R <;> decide

/-- A case that shifts by `k` is right, at an amount below the width, exactly when `k` is that amount. -/
theorem shifts_iff {k j : Nat} (hcase : ∀ host, action host s dec dec.op = some (.i, .setRd (host.shift op (s.ireg dec.rs1) k)))
    (hj : k < R.xlen → k = j) : Shifts s dec op j ↔ k < R.xlen := by
  constructor
  · intro h
    by_contra hk
    obtain ⟨host, hne⟩ := Host.exists_shift_ne op R.xlen_pos (s.ireg dec.rs1) (op.value (s.ireg dec.rs1) j) (Nat.le_of_not_lt hk)
    have heq := (hcase host).symm.trans (h host)
    injection heq with heq
    injection heq with _ heq
    injection heq with heq
    exact hne heq
  · intro hk host
    rw [hcase, Host.shift_of_lt _ _ _ hk, hj hk]

theorem toNat_and_shamt7 (x : BitVec R.xlen) : (x &&& 0b1111111).toNat = x.toNat % 128 := by
  have hmask : (0b1111111 : BitVec R.xlen).toNat = 2 ^ 7 - 1 := by cases R <;> rfl
  rw [BitVec.toNat_and, hmask, Nat.and_two_pow_sub_one_eq_mod]

/-- The amount of a register shift is what seven bits of `rs2` say. -/
theorem shifts_reg_iff (op : ShiftOp) (hop : dec.op = op.regOp) :
    Shifts s dec op ((s.ireg dec.rs2).toNat % R.xlen) ↔ (s.ireg dec.rs2).toNat % 128 < R.xlen := by
  refine shifts_iff (fun host => ?_) fun hk => ?_
  · rw [hop, ← toNat_and_shamt7]
    cases op <;> rfl
  · have hdvd : R.xlen ∣ 128 := by cases R <;> decide
    rw [← Nat.mod_mod_of_dvd _ hdvd, Nat.mod_eq_of_lt hk]

theorem shifts_imm_iff {k : Nat} (hop : dec.op = op.immOp) (himm : dec.imm = k) : Shifts s dec op k ↔ k < R.xlen := by
  refine shifts_iff (fun host => ?_) fun _ => rfl
  rw [hop, ← himm]
  cases op <;> rfl

end Switch

/-! ## Decoded amounts -/

/-- The amount in a word: inst[26:20], or inst[12] and inst[6:2] of a compressed one. -/
def shamt (inst : Nat) : Nat := if inst % 4 = 3 then inst >>> 20 % 128 else inst >>> 12 % 2 * 32 + inst >>> 2 % 32

theorem operandShamt7_decode (inst : Nat) : operandShamt7.decode inst = (inst >>> 20 % 128 : Nat) := by
  change (operandShamt7.implDecode inst : Int) = _
  rw [ImmOperand.implDecode_eq]
  change (((inst >>> 20 % 2 ^ 7) <<< 0 ||| 0 : Nat) : Int) = _
  simp

theorem operandCimmsh6_decode (inst : Nat) : operandCimmsh6.decode inst = (inst >>> 12 % 2 * 32 + inst >>> 2 % 32 : Nat) := by
  change (operandCimmsh6.implDecode inst : Int) = _
  rw [ImmOperand.implDecode_eq]
  change (((inst >>> 12 % 2 ^ 1) <<< 5 ||| ((inst >>> 2 % 2 ^ 5) <<< 0 ||| 0) : Nat) : Int) = _
  rw [Nat.or_zero, Nat.shiftLeft_zero, ← Nat.shiftLeft_add_eq_or_of_lt (Nat.mod_lt _ (by decide)), Nat.shiftLeft_eq]
  rfl

/-- Every path to a shift by an immediate, plain or compressed, tests its fixed bits. -/
def pathShifts (c : Cube) (l : Asm.Leaf) : Bool :=
  List.all l fun e => e.2 ∉ [RvOp.slli, .srli, .srai, .c_slli, .c_srli, .c_srai] || c.implies (opCube e.2)

theorem paths_shifts : decodeTree.allPaths pathShifts .top = true := by decide +kernel

theorem exists_mem_leaf {l : Asm.Leaf} {enabled : Flag → Bool} (h : l.op enabled ≠ .illegal) : ∃ e ∈ l, e.2 = l.op enabled := by
  unfold Asm.Leaf.op at h ⊢
  cases hf : List.find? (fun c => c.1.all enabled) l with
  | none => simp [hf] at h
  | some e => exact ⟨e, List.mem_of_find?_eq_some hf, rfl⟩

theorem opCube_mem_of_shift (enabled : Flag → Bool) (inst : Nat)
    (h : decodeInstOp enabled inst ∈ [RvOp.slli, .srli, .srai, .c_slli, .c_srli, .c_srai]) :
    (opCube (decodeInstOp enabled inst)).Mem inst := by
  have hne : decodeInstOp enabled inst ≠ .illegal := fun hi => by simp [hi] at h
  obtain ⟨c, hc, hp⟩ := Decision.allPaths_sound decodeTree_wf paths_shifts (Cube.mem_top inst)
  obtain ⟨e, he, hop⟩ := exists_mem_leaf hne
  have himp := List.all_eq_true.1 hp e he
  rw [show e.2 = decodeInstOp enabled inst from hop] at himp
  simp only [h, not_true_eq_false, decide_false, Bool.false_or] at himp
  exact Cube.mem_of_implies himp hc

/-- The low bits of a shift say whether it is compressed. -/
theorem mod_four_of_mem {op : RvOp} {inst : Nat} (h : (opCube op).Mem inst) (hm : rvInstMask op % 4 = 3) :
    inst % 4 = rvInstMatch op % 4 := by
  have hand : inst &&& rvInstMask op = rvInstMatch op := h
  rw [← hand, mod_four_and, hm]
  exact ((Nat.and_two_pow_sub_one_eq_mod _ 2).trans (Nat.mod_mod _ _)).symm

theorem decomp_eq_immOp {R : Rv} {o : RvOp} {op : ShiftOp} (h : R.decomp o = op.immOp) : o = op.compressedOp := by
  cases R <;> cases op <;> cases o <;> first | rfl | exact absurd h (by decide)

/-- The decoder takes the amount from the word as it is. -/
theorem instDecode_shamt {R : Rv} {isa : Isa} {prev : Decode} {inst : Nat} {op : ShiftOp}
    (h : (instDecode R isa prev inst).op = op.immOp) : (instDecode R isa prev inst).imm = shamt inst := by
  rw [instDecode_op] at h
  rw [instDecode_imm]
  dsimp only at h
  split at h
  · have ho := decomp_eq_immOp h
    have hmem := opCube_mem_of_shift (isa.flags R) inst (by rw [ho]; cases op <;> decide)
    rw [ho] at hmem ⊢
    have himm : (decodeInstType { prev with op := op.compressedOp } inst).imm = s32 (operandCimmsh6.decode inst) := by
      have hcodec : rvInstCodec op.compressedOp = .ci_sh6 ∨ rvInstCodec op.compressedOp = .cb_sh6 := by cases op <;> decide
      unfold decodeInstType
      dsimp only
      rcases hcodec with hcodec | hcodec <;> rw [hcodec] <;> simp only [decodeType, decodeCiSh6, decodeCbSh6]
    have hmod : inst % 4 ≠ 3 := by
      rw [mod_four_of_mem hmem (by cases op <;> rfl)]
      cases op <;> decide
    rw [himm, ImmOperand.s32_decode, operandCimmsh6_decode, shamt, if_neg hmod]
  · have hmem := opCube_mem_of_shift (isa.flags R) inst (by rw [h]; cases op <;> decide)
    rw [h] at hmem ⊢
    have himm : (decodeInstType { prev with op := op.immOp } inst).imm = s32 (operandShamt7.decode inst) := by
      have hcodec : rvInstCodec op.immOp = .i_sh7 := by cases op <;> rfl
      unfold decodeInstType
      dsimp only
      rw [hcodec]
      simp only [decodeType, decodeISh7]
    have hmod : inst % 4 = 3 := by
      rw [mod_four_of_mem hmem (by cases op <;> rfl)]
      cases op <;> rfl
    rw [himm, ImmOperand.s32_decode, operandShamt7_decode, shamt, if_pos hmod]

/-! ## The amount modulo the width -/

/-- An instruction shifts by `rs2` modulo the width, or by a decoded amount below the width. -/
def ShiftsModulo {R : Rv} (s : Hart R) (dec : Decode) : Prop :=
  (∀ op : ShiftOp, dec.op = op.regOp → Shifts s dec op ((s.ireg dec.rs2).toNat % R.xlen)) ∧
    ∀ op : ShiftOp, dec.op = op.immOp → ∃ k : Nat, dec.imm = k ∧ k < R.xlen ∧ Shifts s dec op k

theorem exists_shifts_imm_iff {R : Rv} {s : Hart R} {dec : Decode} (op : ShiftOp) (k : Nat) (hop : dec.op = op.immOp)
    (himm : dec.imm = k) : (∃ j : Nat, dec.imm = j ∧ j < R.xlen ∧ Shifts s dec op j) ↔ k < R.xlen := by
  constructor
  · rintro ⟨j, hj, hlt, -⟩
    have hjk : (j : Int) = k := hj.symm.trans himm
    rwa [← Int.ofNat.inj hjk]
  · intro hlt
    exact ⟨k, himm, hlt, (shifts_imm_iff hop himm).2 hlt⟩

/-- A word shifts modulo the width exactly when the seven bits of the amount, in `rs2` or in the word, say less than
the width. -/
theorem shifts_modulo_xlen_iff {R : Rv} (isa : Isa) (s : Hart R) (prev : Decode) (inst : Nat) :
    let dec := instDecode R isa prev inst
    ShiftsModulo s dec ↔
      ((∃ op : ShiftOp, dec.op = op.regOp) → (s.ireg dec.rs2).toNat % 128 < R.xlen) ∧
        ((∃ op : ShiftOp, dec.op = op.immOp) → shamt inst < R.xlen) := by
  dsimp only
  refine and_congr ?_ ?_
  · rw [forall_exists_index]
    exact forall₂_congr fun op hop => shifts_reg_iff op hop
  · rw [forall_exists_index]
    exact forall₂_congr fun op hop => exists_shifts_imm_iff op _ hop (instDecode_shamt hop)

/-- 64 in `x2`. -/
def shiftState : Hart .rv64 := { (default : Hart .rv64) with ireg := fun r => if r = 2 then 64 else 0 }

/-- `sll x1, x1, x2` leaves the result to the host, and so does `slli x1, x1, 64`, which the decoder accepts. -/
theorem not_shifts_modulo_xlen :
    ¬ ShiftsModulo shiftState (instDecode .rv64 .i {} 0x002090b3) ∧
      ¬ ShiftsModulo shiftState (instDecode .rv64 .i {} 0x04009093) := by
  constructor
  · intro h
    exact absurd ((shifts_reg_iff .shl rfl).1 (h.1 .shl rfl)) (by decide)
  · intro h
    exact absurd ((exists_shifts_imm_iff .shl 64 rfl rfl).1 (h.2 .shl rfl)) (by decide)

end Rv8.Emu
