import Rv8.Asm.Compressed
import Rv8.Jit.MulHigh
/-!
# Emitted code against the interpreter

For every arithmetic instruction the emitted code and `exec_inst_rv64` are run on the
same registers. The interpreter shifts by up to 127, which C leaves open from the width
on; what is compared is an interpreter whose host takes the count modulo 64, as the host
that the code is emitted for does.
-/

namespace Rv8.Jit

open Rv8.Asm Rv8.Lib.X86

/-- The cases of `jit_emitter_rv64::emit` for arithmetic. -/
def emitAlu (d : JitDecode) : RvOp → Option Code
  | .addi => some (emitAddi d)
  | .slti => some (emitSlti d)
  | .sltiu => some (emitSltiu d)
  | .xori => some (emitXori d)
  | .ori => some (emitOri d)
  | .andi => some (emitAndi d)
  | .slli => some (emitSlli d)
  | .srli => some (emitSrli d)
  | .srai => some (emitSrai d)
  | .add => some (emitAdd d)
  | .sub => some (emitSub d)
  | .sll => some (emitSll d)
  | .slt => some (emitSlt d)
  | .sltu => some (emitSltu d)
  | .xor => some (emitXor d)
  | .srl => some (emitSrl d)
  | .sra => some (emitSra d)
  | .or => some (emitOr d)
  | .and => some (emitAnd d)
  | .addiw => some (emitAddiw d)
  | .slliw => some (emitSlliw d)
  | .srliw => some (emitSrliw d)
  | .sraiw => some (emitSraiw d)
  | .addw => some (emitAddw d)
  | .subw => some (emitSubw d)
  | .sllw => some (emitSllw d)
  | .srlw => some (emitSrlw d)
  | .sraw => some (emitSraw d)
  | .mul => some (emitMul d)
  | .mulh => some (emitMulh d)
  | .mulhsu => some (emitMulhsu d)
  | .mulhu => some (emitMulhu d)
  | .div => some (emitDiv d)
  | .divu => some (emitDivu d)
  | .rem => some (emitRem d)
  | .remu => some (emitRemu d)
  | .mulw => some (emitMulw d)
  | .divw => some (emitDivw d)
  | .divuw => some (emitDivuw d)
  | .remw => some (emitRemw d)
  | .remuw => some (emitRemuw d)
  | _ => none

/-! ## Shifts -/

/-- Shift counts are taken modulo 64. -/
def MasksShifts (host : Emu.Host) : Prop :=
  ∀ (op : Emu.ShiftOp) (x : BitVec 64) (k : Nat), 64 ≤ k → k < 128 → host.shiftOut op 64 x k = host.shift op x (k - 64 : Nat)

/-- The operation of the interpreter for one of the host. -/
def emuShift : ShiftOp → Emu.ShiftOp
  | .shl => .shl
  | .shr => .shr
  | .sar => .sar

/-- Immediates of shifts are in the range of their field. -/
def ShamtFits (imm : BitVec 32) : RvOp → Prop
  | .slli | .srli | .srai => imm.toNat < 128
  | .slliw | .srliw | .sraiw => imm.toNat < 32
  | _ => True

theorem shamtFits_of_format {op : RvOp} {dec : Decode} (h : FormatFits dec (rvInstCodec op)) : ShamtFits (BitVec.ofInt 32 dec.imm) op := by
  have hlt : ∀ {n : Nat}, 0 ≤ dec.imm → dec.imm < n → n ≤ 128 → (BitVec.ofInt 32 dec.imm).toNat < n := by
    intro n h0 h hn
    rw [BitVec.toNat_ofInt]
    omega
  cases op with
  | slli | srli | srai => exact hlt h.2.2.2.1 h.2.2.2.2.1 (by decide)
  | slliw | srliw | sraiw => exact hlt h.2.2.2.1 h.2.2.2.2.1 (by decide)
  | _ => trivial

/-- What the decoder leaves is in range, decompressed or not. -/
theorem shamtFits_decode (inst : Nat) :
    ShamtFits (BitVec.ofInt 32 (decompressInstRv64 (decodeInst .rv64 inst)).imm) (decompressInstRv64 (decodeInst .rv64 inst)).op :=
  shamtFits_of_format (formatFits_decompressInstRv64 inst)

section Shifts
variable {host : Emu.Host}

theorem shift_of_lt {n : Nat} (op : ShiftOp) (x : BitVec n) {c : BitVec 8} {k : Nat} (hk : k < n) (hc : c.toNat % n = k) :
    host.shift (emuShift op) x k = op.eval x c := by
  unfold Emu.Host.shift
  rw [if_pos ⟨by omega, by omega⟩, Int.toNat_natCast]
  cases op <;> simp [emuShift, ShiftOp.eval, hc]

/-- A count of seven bits. -/
theorem shift_masked (h : MasksShifts host) (op : ShiftOp) (x : BitVec 64) {c : BitVec 8} {k : Nat} (hk : k < 128)
    (hc : c.toNat % 64 = k % 64) : host.shift (emuShift op) x k = op.eval x c := by
  by_cases hlt : k < 64
  · exact shift_of_lt op x hlt (by omega)
  · have hout : host.shift (emuShift op) x k = host.shiftOut (emuShift op) 64 x k := by
      unfold Emu.Host.shift
      rw [if_neg (by omega)]
    rw [hout, h _ x k (by omega) hk]
    exact shift_of_lt op x (by omega) (by omega)

theorem toInt_of_lt {imm : BitVec 32} (h : imm.toNat < 128) : imm.toInt = (imm.toNat : Nat) := by
  rw [BitVec.toInt_eq_toNat_of_lt]
  omega

/-- The count of a shift by an immediate, as the byte that is emitted. -/
theorem toNat_imm8 {imm : BitVec 32} (h : imm.toNat < 128) : ((imm.signExtend 64).setWidth 8).toNat = imm.toNat := by
  have hsx : imm.signExtend 64 = imm.setWidth 64 := by
    apply BitVec.signExtend_eq_setWidth_of_msb_false
    rw [BitVec.msb_eq_decide, decide_eq_false_iff_not]
    omega
  rw [hsx, BitVec.setWidth_setWidth_of_le _ (by decide), BitVec.toNat_setWidth]
  omega

theorem shift_imm64 (h : MasksShifts host) (op : ShiftOp) (x : BitVec 64) {imm : BitVec 32} (hf : imm.toNat < 128) :
    host.shift (emuShift op) x imm.toInt = op.eval x ((imm.signExtend 64).setWidth 8) := by
  rw [toInt_of_lt hf]
  exact shift_masked h op x hf (by rw [toNat_imm8 hf])

theorem shift_imm32 (op : ShiftOp) (x : BitVec 32) {imm : BitVec 32} (hf : imm.toNat < 32) :
    host.shift (emuShift op) x imm.toInt = op.eval x ((imm.signExtend 64).setWidth 8) := by
  rw [toInt_of_lt (by omega)]
  exact shift_of_lt op x hf (by rw [toNat_imm8 (by omega), Nat.mod_eq_of_lt hf])

theorem toNat_and_ones (y : BitVec 64) (n : Nat) (hn : n < 64) : (y &&& BitVec.ofNat 64 (2 ^ n - 1)).toNat = y.toNat % 2 ^ n := by
  have hpow : 2 ^ n < 2 ^ 64 := Nat.pow_lt_pow_right (by decide) hn
  rw [BitVec.toNat_and, BitVec.toNat_ofNat, Nat.mod_eq_of_lt (by omega), Nat.and_two_pow_sub_one_eq_mod]

theorem shift_reg64 (h : MasksShifts host) (op : ShiftOp) (x y : BitVec 64) :
    host.shift (emuShift op) x ((y &&& 0b1111111).toNat : Nat) = op.eval x (y.setWidth 8) := by
  have hand : (y &&& 0b1111111).toNat = y.toNat % 2 ^ 7 := toNat_and_ones y 7 (by decide)
  rw [hand]
  refine shift_masked h op x (by omega) ?_
  rw [BitVec.toNat_setWidth]
  omega

theorem shift_reg32 (op : ShiftOp) (x : BitVec 32) (y : BitVec 64) :
    host.shift (emuShift op) x ((y &&& 0b11111).toNat : Nat) = op.eval x (y.setWidth 8) := by
  have hand : (y &&& 0b11111).toNat = y.toNat % 2 ^ 5 := toNat_and_ones y 5 (by decide)
  rw [hand]
  refine shift_of_lt op x (by omega) ?_
  rw [BitVec.toNat_setWidth]
  omega

end Shifts

/-! ## Agreement -/

/-- Where the code for an instruction is right, by the registers it is executed with. -/
def AluRight (d : JitDecode) (x : Nat → BitVec 64) (op : RvOp) : Prop :=
  d.rd = 0 ∨
    match op with
    | .addw => d.rs1 = 0 ∧ 0 < x86Reg d.rd ∧ ¬ 0 < x86Reg d.rs2 → x d.rs2 = (low .d (x d.rs2)).signExtend 64
    | .div => SdivRight .q d x
    | .rem => SremRight .q d x
    | .divu => UdivRight .q d x
    | .remu => UremRight .q d x
    | .divw => SdivRight .d d x
    | .remw => SremRight .d d x
    | .divuw => UdivRight .d d x
    | .remuw => UremRight .d d x
    | _ => True

section Agreement
variable {σ : Type} (port : Emu.Port σ) (host : Emu.Host) (rv : Emu.Ext → Bool) (op : RvOp) (d : JitDecode) (code : Code)
  (s : HostState) (m : Emu.Machine .rv64 σ)

/-- The code ends, with the registers that the interpreter leaves. -/
def Agrees : Prop :=
  ∃ s' offset m', exec code none s = .done s' ∧
    Emu.execInstRv64 port host rv (d.dec op) (BitVec.ofNat 64 d.length) m = .ok offset m' ∧ guest s' = m'.hart.ireg

end Agreement

section Instructions
variable {σ : Type} {port : Emu.Port σ} {host : Emu.Host} {rv : Emu.Ext → Bool} {op : RvOp} {d : JitDecode} {code : Code}
  {s : HostState} {m : Emu.Machine .rv64 σ}

/-- An instruction that assigns `v` to `rd`, for the condition under which the code does. -/
theorem agrees_iff {ext : Emu.Ext} {v : BitVec 64} {P : Prop} (hs : guest s = m.hart.ireg) (h0 : guest s 0 = 0#64)
    (ha : Emu.action host m.hart (d.dec op) op = some (ext, .setRd v)) (hext : rv ext = true) (hzero : d.rd = 0 → code = [])
    (hright : d.rd ≠ 0 → (Computes code s d.rd v ↔ P)) : Agrees port host rv op d code s m ↔ d.rd = 0 ∨ P := by
  have hinst : Emu.execInstRv64 port host rv (d.dec op) (BitVec.ofNat 64 d.length) m =
      .ok (BitVec.ofNat 64 d.length) { m with hart := m.hart.writeRd d.rd v } := Emu.execInst_setRd ha hext
  unfold Agrees
  rw [hinst]
  by_cases hrd : d.rd = 0
  · refine iff_of_true ⟨s, _, _, ?_, rfl, ?_⟩ (.inl hrd)
    · rw [hzero hrd, exec_nil]
    · funext r
      show guest s r = if r = d.rd then if d.rd = 0 then 0 else v else m.hart.ireg r
      rw [hrd, if_pos rfl, ← hs]
      split
      · next hr =>
        rw [hr, h0]
        rfl
      · rfl
  · have hsets : ∀ s', guest s' = (m.hart.writeRd d.rd v).ireg ↔ Sets d.rd v s s' := by
      intro s'
      refine funext_iff.trans (forall_congr' fun r => ?_)
      show guest s' r = (if r = d.rd then if d.rd = 0 then 0 else v else m.hart.ireg r) ↔ _
      rw [if_neg hrd, ← hs]
    rw [← (hright hrd).trans (or_iff_right hrd).symm]
    constructor
    · rintro ⟨s', offset, m', he, hm, hg⟩
      cases hm
      exact ⟨s', he, (hsets s').mp hg⟩
    · rintro ⟨s', he, hg⟩
      exact ⟨s', _, _, he, rfl, (hsets s').mpr hg⟩

theorem computes_addw_iff (hrd : d.rd ≠ 0) (h0 : guest s 0 = 0#64) :
    Computes (emitAddw d) s d.rd ((guestW s d.rs1 + guestW s d.rs2).signExtend 64) ↔
      (d.rs1 = 0 ∧ 0 < x86Reg d.rd ∧ ¬ 0 < x86Reg d.rs2 → guest s d.rs2 = (low .d (guest s d.rs2)).signExtend 64) := by
  have hadd := Ends.gives (P := fun v => Sets d.rd v s) (computes_addw hrd h0)
  rw [hadd.computes_iff, Option.some_inj]
  by_cases hmv : d.rs1 = 0 ∧ 0 < x86Reg d.rd ∧ ¬ 0 < x86Reg d.rs2
  · rw [if_pos hmv, guestW_zero h0 hmv.1, BitVec.zero_add]
    exact ⟨fun h _ => h, fun h => h hmv⟩
  · rw [if_neg hmv]
    exact iff_of_true rfl fun h => absurd h hmv

theorem guestN_q (r : Nat) : guestN .q s r = guest s r := BitVec.setWidth_eq _

theorem agrees_of_computes {ext : Emu.Ext} {v : BitVec 64} (hs : guest s = m.hart.ireg) (h0 : guest s 0 = 0#64)
    (ha : Emu.action host m.hart (d.dec op) op = some (ext, .setRd v)) (hext : rv ext = true) (hzero : d.rd = 0 → code = [])
    (hright : d.rd ≠ 0 → Computes code s d.rd v) : Agrees port host rv op d code s m ↔ d.rd = 0 ∨ True :=
  agrees_iff hs h0 ha hext hzero fun hrd => iff_of_true (hright hrd) trivial

/-- The emitted code computes what the interpreter computes, on the same registers, exactly where it is right. -/
theorem alu_agrees_iff (hhost : MasksShifts host) (hi : rv .i = true) (hm : rv .m = true) (hcode : emitAlu d op = some code)
    (hshamt : ShamtFits d.imm op) (h0 : m.hart.ireg 0 = 0) (hs : guest s = m.hart.ireg) :
    Agrees port host rv op d code s m ↔ AluRight d m.hart.ireg op := by
  -- the machine is one with the registers of the host
  obtain ⟨⟨⟨ireg, _⟩, _⟩, _⟩ := m
  subst hs
  have hx0 : guest s 0 = 0#64 := h0
  unfold emitAlu at hcode
  split at hcode
  · cases hcode
    refine agrees_of_computes rfl hx0 rfl hi (fun h => if_pos h) fun hrd => ?_
    exact computes_addi hrd hx0
  · cases hcode
    refine agrees_of_computes rfl hx0 rfl hi (fun h => if_pos h) fun hrd => ?_
    exact computes_slti hrd hx0
  · cases hcode
    refine agrees_of_computes rfl hx0 rfl hi (fun h => if_pos h) fun hrd => ?_
    exact computes_sltiu hrd hx0
  · cases hcode
    refine agrees_of_computes rfl hx0 rfl hi (fun h => if_pos h) fun hrd => ?_
    exact computes_oriXori hrd hx0 .xor fun x => BitVec.zero_xor
  · cases hcode
    refine agrees_of_computes rfl hx0 rfl hi (fun h => if_pos h) fun hrd => ?_
    exact computes_oriXori hrd hx0 .or fun x => BitVec.zero_or
  · cases hcode
    refine agrees_of_computes rfl hx0 rfl hi (fun h => if_pos h) fun hrd => ?_
    exact computes_andi hrd hx0
  · cases hcode
    refine agrees_of_computes rfl hx0 rfl hi (fun h => if_pos h) fun hrd => ?_
    exact (computes_shiftImm hrd hx0 .shl).congr (shift_imm64 hhost .shl _ hshamt).symm
  · cases hcode
    refine agrees_of_computes rfl hx0 rfl hi (fun h => if_pos h) fun hrd => ?_
    exact (computes_shiftImm hrd hx0 .shr).congr (shift_imm64 hhost .shr _ hshamt).symm
  · cases hcode
    refine agrees_of_computes rfl hx0 rfl hi (fun h => if_pos h) fun hrd => ?_
    exact (computes_shiftImm hrd hx0 .sar).congr (shift_imm64 hhost .sar _ hshamt).symm
  · cases hcode
    refine agrees_of_computes rfl hx0 rfl hi (fun h => if_pos h) fun hrd => ?_
    exact computes_add hrd hx0
  · cases hcode
    refine agrees_of_computes rfl hx0 rfl hi (fun h => if_pos h) fun hrd => ?_
    exact computes_sub hrd hx0
  · cases hcode
    refine agrees_of_computes rfl hx0 rfl hi (fun h => if_pos h) fun hrd => ?_
    exact (computes_shift hrd hx0 .shl).congr (shift_reg64 hhost .shl _ _).symm
  · cases hcode
    refine agrees_of_computes rfl hx0 rfl hi (fun h => if_pos h) fun hrd => ?_
    exact computes_slt hrd hx0
  · cases hcode
    refine agrees_of_computes rfl hx0 rfl hi (fun h => if_pos h) fun hrd => ?_
    exact computes_sltu hrd hx0
  · cases hcode
    refine agrees_of_computes rfl hx0 rfl hi (fun h => if_pos h) fun hrd => ?_
    exact computes_xor hrd hx0
  · cases hcode
    refine agrees_of_computes rfl hx0 rfl hi (fun h => if_pos h) fun hrd => ?_
    exact (computes_shift hrd hx0 .shr).congr (shift_reg64 hhost .shr _ _).symm
  · cases hcode
    refine agrees_of_computes rfl hx0 rfl hi (fun h => if_pos h) fun hrd => ?_
    exact (computes_shift hrd hx0 .sar).congr (shift_reg64 hhost .sar _ _).symm
  · cases hcode
    refine agrees_of_computes rfl hx0 rfl hi (fun h => if_pos h) fun hrd => ?_
    exact computes_or hrd hx0
  · cases hcode
    refine agrees_of_computes rfl hx0 rfl hi (fun h => if_pos h) fun hrd => ?_
    exact computes_and hrd hx0
  · cases hcode
    refine agrees_of_computes rfl hx0 rfl hi (fun h => if_pos h) fun hrd => ?_
    refine (computes_addiw hrd hx0).congr ?_
    show _ = (guestW s d.rs1 + BitVec.ofInt 32 d.imm.toInt).signExtend 64
    rw [BitVec.ofInt_toInt]
  · cases hcode
    refine agrees_of_computes rfl hx0 rfl hi (fun h => if_pos h) fun hrd => ?_
    exact (computes_shiftImmW hrd hx0 .shl).congr (congrArg (BitVec.signExtend 64) (shift_imm32 .shl _ hshamt).symm)
  · cases hcode
    refine agrees_of_computes rfl hx0 rfl hi (fun h => if_pos h) fun hrd => ?_
    exact (computes_shiftImmW hrd hx0 .shr).congr (congrArg (BitVec.signExtend 64) (shift_imm32 .shr _ hshamt).symm)
  · cases hcode
    refine agrees_of_computes rfl hx0 rfl hi (fun h => if_pos h) fun hrd => ?_
    exact (computes_shiftImmW hrd hx0 .sar).congr (congrArg (BitVec.signExtend 64) (shift_imm32 .sar _ hshamt).symm)
  · cases hcode
    refine agrees_iff rfl hx0 rfl hi (fun h => if_pos h) fun hrd => ?_
    exact computes_addw_iff hrd hx0
  · cases hcode
    refine agrees_of_computes rfl hx0 rfl hi (fun h => if_pos h) fun hrd => ?_
    exact computes_subw hrd hx0
  · cases hcode
    refine agrees_of_computes rfl hx0 rfl hi (fun h => if_pos h) fun hrd => ?_
    exact (computes_shiftW hrd hx0 .shl).congr (congrArg (BitVec.signExtend 64) (shift_reg32 .shl _ _).symm)
  · cases hcode
    refine agrees_of_computes rfl hx0 rfl hi (fun h => if_pos h) fun hrd => ?_
    exact (computes_shiftW hrd hx0 .shr).congr (congrArg (BitVec.signExtend 64) (shift_reg32 .shr _ _).symm)
  · cases hcode
    refine agrees_of_computes rfl hx0 rfl hi (fun h => if_pos h) fun hrd => ?_
    exact (computes_shiftW hrd hx0 .sar).congr (congrArg (BitVec.signExtend 64) (shift_reg32 .sar _ _).symm)
  · cases hcode
    refine agrees_of_computes rfl hx0 rfl hm (fun h => if_pos h) fun hrd => ?_
    exact computes_mul hrd hx0
  · cases hcode
    refine agrees_of_computes rfl hx0 rfl hm (fun h => if_pos h) fun hrd => ?_
    exact computes_mulh hrd hx0
  · cases hcode
    refine agrees_of_computes rfl hx0 rfl hm (fun h => if_pos h) fun hrd => ?_
    exact computes_mulhsu hrd hx0
  · cases hcode
    refine agrees_of_computes rfl hx0 rfl hm (fun h => if_pos h) fun hrd => ?_
    exact computes_mulhu hrd hx0
  · cases hcode
    refine agrees_iff rfl hx0 rfl hm (fun h => if_pos h) fun hrd => ?_
    have hdiv := computes_sdiv_iff .q hrd hx0
    rw [BitVec.signExtend_eq, guestN_q, guestN_q] at hdiv
    exact hdiv
  · cases hcode
    refine agrees_iff rfl hx0 rfl hm (fun h => if_pos h) fun hrd => ?_
    have hdiv := computes_udiv_iff .q hrd hx0
    rw [BitVec.signExtend_eq, guestN_q, guestN_q] at hdiv
    exact hdiv
  · cases hcode
    refine agrees_iff rfl hx0 rfl hm (fun h => if_pos h) fun hrd => ?_
    have hdiv := computes_srem_iff .q hrd hx0
    rw [BitVec.signExtend_eq, guestN_q, guestN_q] at hdiv
    exact hdiv
  · cases hcode
    refine agrees_iff rfl hx0 rfl hm (fun h => if_pos h) fun hrd => ?_
    have hdiv := computes_urem_iff .q hrd hx0
    rw [BitVec.signExtend_eq, guestN_q, guestN_q] at hdiv
    exact hdiv
  · cases hcode
    refine agrees_of_computes rfl hx0 rfl hm (fun h => if_pos h) fun hrd => ?_
    exact computes_mulw hrd hx0
  · cases hcode
    refine agrees_iff rfl hx0 rfl hm (fun h => if_pos h) fun hrd => ?_
    exact computes_sdiv_iff .d hrd hx0
  · cases hcode
    refine agrees_iff rfl hx0 rfl hm (fun h => if_pos h) fun hrd => ?_
    exact computes_udiv_iff .d hrd hx0
  · cases hcode
    refine agrees_iff rfl hx0 rfl hm (fun h => if_pos h) fun hrd => ?_
    exact computes_srem_iff .d hrd hx0
  · cases hcode
    refine agrees_iff rfl hx0 rfl hm (fun h => if_pos h) fun hrd => ?_
    exact computes_urem_iff .d hrd hx0
  · cases hcode

end Instructions

/-! ## Inputs -/

/-- A state of the host with the registers of a guest. -/
def hostOf (x : Nat → BitVec 64) : HostState where
  gpr := fun h => x (rvReg h)
  mem := fun
    | .ireg r => x r
    | .pc => 0

theorem guest_hostOf (x : Nat → BitVec 64) : guest (hostOf x) = x := by
  funext r
  unfold guest loc
  split
  · next h =>
    show x (rvReg (gpr (x86Reg r))) = x r
    rw [rvReg_x86Reg h]
  · rfl

/-- A host that takes shift counts modulo the width. -/
def maskingHost : Emu.Host := { (default : Emu.Host) with shiftOut := fun op _ x k => (default : Emu.Host).shift op x (k - 64) }

theorem masksShifts_maskingHost : MasksShifts maskingHost := by
  intro op x k h64 h128
  have hk : (k : Int) - 64 = (k - 64 : Nat) := by omega
  show (default : Emu.Host).shift op x (k - 64) = maskingHost.shift op x (k - 64 : Nat)
  unfold Emu.Host.shift
  rw [hk, if_pos ⟨by omega, by omega⟩, if_pos ⟨by omega, by omega⟩]

/-- A machine with two registers that are not 0. -/
def twoRegisters (r1 : Nat) (v1 : BitVec 64) (r2 : Nat) (v2 : BitVec 64) : Emu.Machine .rv64 Emu.UserMemory :=
  Emu.bareMachine { (default : Emu.Hart .rv64) with ireg := fun r => if r = r1 then v1 else if r = r2 then v2 else 0 }

/-- `divw a0, a1, a2` of -7 by 2. -/
theorem alu_agrees_divw :
    Agrees (Emu.mmuSoft .rv64) maskingHost (fun _ => true) .divw { rd := 10, rs1 := 11, rs2 := 12 }
      (emitDivw { rd := 10, rs1 := 11, rs2 := 12 }) (hostOf (twoRegisters 11 (-7) 12 2).hart.ireg) (twoRegisters 11 (-7) 12 2) := by
  refine Iff.mpr (alu_agrees_iff masksShifts_maskingHost rfl rfl rfl ?_ rfl (guest_hostOf _)) (.inr ?_)
  · trivial
  · show WholeZero .d _ _
    intro _ h
    exact absurd h (by decide)

/-- `rem a0, a1, zero` of 5. -/
theorem not_alu_agrees_rem :
    ¬ Agrees (Emu.mmuSoft .rv64) maskingHost (fun _ => true) .rem { rd := 10, rs1 := 11, rs2 := 0 }
      (emitRem { rd := 10, rs1 := 11, rs2 := 0 }) (hostOf (twoRegisters 11 5 12 0).hart.ireg) (twoRegisters 11 5 12 0) := by
  rintro ⟨s', offset, m', hcode, hinst, heq⟩
  have hjit : guest s' 10 = -1 := by
    cases hcode
    rfl
  have hinterp : m'.hart.ireg 10 = 5 := by
    cases hinst
    rfl
  rw [heq, hinterp] at hjit
  exact absurd hjit (by decide : (5 : BitVec 64) ≠ -1)

end Rv8.Jit
