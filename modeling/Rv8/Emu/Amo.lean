import Rv8.Emu.BareAccess
/-!
# Atomic memory operations

`amo_fn` works on registers, into which both operands are sign-extended. Sign
extension keeps both orders and the low bits, so what is stored is the operation on the
words of memory.
-/

namespace Rv8.Emu

open Rv8.Lib Rv8.Asm

/-! ## Sign extension -/

section SignExtension
variable {w v : Nat} (x y : BitVec w)

theorem setWidth_signExtend_self (h : w ≤ v) : (x.signExtend v).setWidth w = x := by
  apply BitVec.eq_of_getLsbD_eq
  intro i hi
  have hv : i < v := by omega
  simp [BitVec.getElem_signExtend, hi, hv]

theorem slt_signExtend (h : w ≤ v) : (x.signExtend v).slt (y.signExtend v) = x.slt y := by
  unfold BitVec.slt
  rw [BitVec.toInt_signExtend_of_le h, BitVec.toInt_signExtend_of_le h]

/-- The words with the sign bit set come after the others, and stay there. -/
theorem signExtend_lt_iff (h : w ≤ v) : x.signExtend v < y.signExtend v ↔ x < y := by
  have hx := x.isLt
  have hy := y.isLt
  have hpow : 2 ^ w ≤ 2 ^ v := Nat.pow_le_pow_right (by decide) h
  rw [BitVec.lt_def, BitVec.lt_def, BitVec.toNat_signExtend, BitVec.toNat_signExtend, BitVec.toNat_setWidth_of_le h,
    BitVec.toNat_setWidth_of_le h]
  by_cases hmx : x.msb = true <;> by_cases hmy : y.msb = true
  · rw [if_pos hmx, if_pos hmy]
    omega
  · have := BitVec.msb_eq_true_iff_two_mul_ge.1 hmx
    have := BitVec.msb_eq_false_iff_two_mul_lt.1 (Bool.eq_false_of_not_eq_true hmy)
    rw [if_pos hmx, if_neg hmy]
    omega
  · have := BitVec.msb_eq_false_iff_two_mul_lt.1 (Bool.eq_false_of_not_eq_true hmx)
    have := BitVec.msb_eq_true_iff_two_mul_ge.1 hmy
    rw [if_neg hmx, if_pos hmy]
    omega
  · rw [if_neg hmx, if_neg hmy]
    omega

end SignExtension

/-! ## The operations -/

/-- What an operation makes of the word in memory and of its operand. -/
def AmoOp.Computes {w : Nat} (op : AmoOp) (x y r : BitVec w) : Prop :=
  match op with
  | .amoswap => r = y
  | .amoadd => r.toNat = (x.toNat + y.toNat) % 2 ^ w
  | .amoxor => ∀ i, r.getLsbD i = (x.getLsbD i ^^ y.getLsbD i)
  | .amoor => ∀ i, r.getLsbD i = (x.getLsbD i || y.getLsbD i)
  | .amoand => ∀ i, r.getLsbD i = (x.getLsbD i && y.getLsbD i)
  | .amomin => r.toInt = min x.toInt y.toInt
  | .amomax => r.toInt = max x.toInt y.toInt
  | .amominu => r.toNat = min x.toNat y.toNat
  | .amomaxu => r.toNat = max x.toNat y.toNat

section Operations
variable {w v : Nat} (op : AmoOp) (x y : BitVec w)

theorem amoFn_computes : op.Computes x y (amoFn op x y) := by
  cases op with
  | amoswap => rfl
  | amoadd => exact BitVec.toNat_add x y
  | amoxor => exact fun i => BitVec.getLsbD_xor
  | amoor => exact fun i => BitVec.getLsbD_or
  | amoand => exact fun i => BitVec.getLsbD_and
  | amomin =>
    show (if y.slt x then y else x).toInt = min x.toInt y.toInt
    split
    · next h =>
      rw [BitVec.slt_iff_toInt_lt] at h
      omega
    · next h =>
      rw [BitVec.slt_iff_toInt_lt] at h
      omega
  | amomax =>
    show (if x.slt y then y else x).toInt = max x.toInt y.toInt
    split
    · next h =>
      rw [BitVec.slt_iff_toInt_lt] at h
      omega
    · next h =>
      rw [BitVec.slt_iff_toInt_lt] at h
      omega
  | amominu =>
    show (if y < x then y else x).toNat = min x.toNat y.toNat
    split
    · next h =>
      rw [BitVec.lt_def] at h
      omega
    · next h =>
      rw [BitVec.lt_def] at h
      omega
  | amomaxu =>
    show (if x < y then y else x).toNat = max x.toNat y.toNat
    split
    · next h =>
      rw [BitVec.lt_def] at h
      omega
    · next h =>
      rw [BitVec.lt_def] at h
      omega

/-- A choice between two registers is one between their words. -/
theorem setWidth_ite {c d : Prop} [Decidable c] [Decidable d] (h : w ≤ v) (hcd : c ↔ d) :
    (if c then y.signExtend v else x.signExtend v).setWidth w = if d then y else x := by
  by_cases hd : d
  · rw [if_pos hd, if_pos (hcd.2 hd)]
    exact setWidth_signExtend_self y h
  · rw [if_neg hd, if_neg (mt hcd.1 hd)]
    exact setWidth_signExtend_self x h

/-- The operation on registers gives the word that the operation on words gives. -/
theorem setWidth_amoFn (h : w ≤ v) : (amoFn op (x.signExtend v) (y.signExtend v)).setWidth w = amoFn op x y := by
  have hx := setWidth_signExtend_self x h
  have hy := setWidth_signExtend_self y h
  cases op with
  | amoswap => exact hy
  | amoadd =>
    refine (BitVec.setWidth_add _ _ h).trans ?_
    rw [hx, hy]
    rfl
  | amoxor =>
    refine BitVec.setWidth_xor.trans ?_
    rw [hx, hy]
    rfl
  | amoor =>
    refine BitVec.setWidth_or.trans ?_
    rw [hx, hy]
    rfl
  | amoand =>
    refine BitVec.setWidth_and.trans ?_
    rw [hx, hy]
    rfl
  | amomin => exact setWidth_ite x y h (by rw [slt_signExtend _ _ h])
  | amomax => exact setWidth_ite x y h (by rw [slt_signExtend _ _ h])
  | amominu => exact setWidth_ite x y h (signExtend_lt_iff y x h)
  | amomaxu => exact setWidth_ite x y h (signExtend_lt_iff x y h)

theorem amoVal_eq (R : Rv) {n : Nat} (h : 8 * n ≤ R.xlen) (val1 val2 : Nat) :
    amoVal R n op val1 val2 = (amoFn op (BitVec.ofNat (8 * n) val1) (BitVec.ofNat (8 * n) val2)).toNat := by
  rw [← setWidth_amoFn op _ _ h, BitVec.toNat_setWidth]
  rfl

end Operations

/-! ## The instructions -/

def AmoOp.w : AmoOp → RvOp
  | amoswap => .amoswap_w
  | amoadd => .amoadd_w
  | amoxor => .amoxor_w
  | amoor => .amoor_w
  | amoand => .amoand_w
  | amomin => .amomin_w
  | amomax => .amomax_w
  | amominu => .amominu_w
  | amomaxu => .amomaxu_w

def AmoOp.d : AmoOp → RvOp
  | amoswap => .amoswap_d
  | amoadd => .amoadd_d
  | amoxor => .amoxor_d
  | amoor => .amoor_d
  | amoand => .amoand_d
  | amomin => .amomin_d
  | amomax => .amomax_d
  | amominu => .amominu_d
  | amomaxu => .amomaxu_d

/-- The opcode is the AMO of the operation on `n` bytes, which for 8 only RV64 has. -/
def AmoOp.Inst (R : Rv) (aop : AmoOp) (n : Nat) (op : RvOp) : Prop := (n = 4 ∧ op = aop.w) ∨ (R = .rv64 ∧ n = 8 ∧ op = aop.d)

section Instructions
variable {R : Rv} {host : Host} {rv : Ext → Bool} {dec : Decode} {n : Nat} {aop : AmoOp}

theorem AmoOp.Inst.size {op : RvOp} (h : aop.Inst R n op) : (∃ e, n = 2 ^ e) ∧ 0 < n ∧ 8 * n ≤ R.xlen := by
  rcases h with ⟨rfl, -⟩ | ⟨rfl, rfl, -⟩
  · exact ⟨⟨2, rfl⟩, by decide, by cases R <;> decide⟩
  · exact ⟨⟨3, rfl⟩, by decide, by decide⟩

/-- The case of the switch for an AMO takes the low bits of `rs2`. -/
theorem AmoOp.Inst.action (h : aop.Inst R n dec.op) (s : Hart R) :
    action host s dec dec.op = some (.a, .amo n aop (s.ireg dec.rs1) ((s.ireg dec.rs2).setWidth (8 * n)).toNat) := by
  rcases h with ⟨rfl, hop⟩ | ⟨rfl, rfl, hop⟩
  · rw [hop]
    cases aop <;> rfl
  · have hval : ((s.ireg dec.rs2).setWidth (8 * 8)).toNat = (s.ireg dec.rs2).toNat := congrArg BitVec.toNat (BitVec.setWidth_eq _)
    rw [hop, hval]
    cases aop <;> rfl

/-- Every AMO, on an aligned address in RAM that is not translated. -/
theorem amo_exact (hrv : rv .a = true) (hinst : aop.Inst R n dec.op) (pcOffset : BitVec R.xlen) (s : Machine R UserMemory)
    (hplain : s.Plain .store n (s.hart.ireg dec.rs1)) :
    ∃ (s' : Machine R UserMemory) (old new : BitVec (8 * n)),
      execInst (mmuSoft R) host rv dec pcOffset s = .ok pcOffset s' ∧
      s.mmu.mem.load n (s.hart.ireg dec.rs1).toNat = some old.toNat ∧
      s'.mmu.mem.load n (s.hart.ireg dec.rs1).toNat = some new.toNat ∧
      aop.Computes old ((s.hart.ireg dec.rs2).setWidth (8 * n)) new ∧
      s'.hart = s.hart.writeRd dec.rd (old.signExtend R.xlen) ∧
      UserMemory.ChangesOnly n (s.hart.ireg dec.rs1).toNat s.mmu.mem s'.mmu.mem := by
  obtain ⟨⟨e, hn⟩, hpos, hle⟩ := hinst.size
  set va := s.hart.ireg dec.rs1
  set val2 : BitVec (8 * n) := (s.hart.ireg dec.rs2).setWidth (8 * n)
  obtain ⟨v, hlt, hload⟩ := hplain.held.exists_load hpos
  obtain ⟨mem, hstore⟩ := hplain.held.exists_store hpos (amoVal R n aop v val2.toNat)
  have hamo := hplain.amo hn host hload hstore
  have hval : amoVal R n aop v val2.toNat = (amoFn aop (BitVec.ofNat (8 * n) v) val2).toNat := by
    rw [amoVal_eq aop R hle, BitVec.ofNat_toNat, BitVec.setWidth_eq]
  refine ⟨{ s.withMem mem with hart := s.hart.writeRd dec.rd (extend R n true v) }, BitVec.ofNat (8 * n) v, amoFn aop (BitVec.ofNat (8 * n) v) val2, ?_, ?_, ?_, amoFn_computes _ _ _, rfl, ?_⟩
  · rw [execInst_of_action (hinst.action s.hart) hrv]
    exact Prog.bind_ok hamo
  · rw [hload, BitVec.toNat_ofNat, Nat.mod_eq_of_lt hlt]
  · rw [← hval]
    refine (UserMemory.load_store_self hstore).trans ?_
    rw [hval, Nat.mod_eq_of_lt (BitVec.isLt _)]
  · exact hplain.held.changesOnly hstore

/-- -1 in memory and 1 in `x2`. -/
def minMachine : Machine .rv64 UserMemory where
  hart := { (default : Hart .rv64) with ireg := fun r => if r = 1 then 0x80000000 else if r = 2 then 1 else 0 }
  mmu := emptyTlbs .rv64 ⟨[⟨defaultRamBase, defaultRamSize⟩], fun _ o => if o < 4 then 0xff else 0⟩

theorem amo_exact_amomin :
    ∃ (s' : Machine .rv64 UserMemory) (old new : BitVec 32),
      execInst (mmuSoft .rv64) default (fun _ => true) { op := .amomin_w, rd := 3, rs1 := 1, rs2 := 2 } 4 minMachine = .ok 4 s' ∧
      minMachine.mmu.mem.load 4 0x80000000 = some old.toNat ∧
      s'.mmu.mem.load 4 0x80000000 = some new.toNat ∧
      AmoOp.amomin.Computes old 1 new ∧
      s'.hart = minMachine.hart.writeRd 3 (old.signExtend 64) ∧
      UserMemory.ChangesOnly 4 0x80000000 minMachine.mmu.mem s'.mmu.mem :=
  amo_exact (n := 4) rfl (.inl ⟨rfl, rfl⟩) 4 minMachine ⟨by decide, by decide, .inr rfl, ⟨0, 0, by decide⟩⟩

end Instructions

end Rv8.Emu
