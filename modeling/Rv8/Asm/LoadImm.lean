import Rv8.Asm.Assembler
/-!
# Loading a constant

`load_imm` of `assembler.cc`, with the emitters of `jit.cc` that it uses. A value of 32
bits is loaded by a `lui` and an `addi`. A longer one is loaded without its lowest
twelve bits and the zeros above them, shifted up, and completed by an `addi`.
-/

namespace Rv8.Asm

open Rv8.Lib

/-! ## Emitters -/

/-- `simm_t<W>::valid` -/
def simmValid (w : Nat) (imm : Int) : Bool := imm ≤ 2 ^ (w - 1) - 1 && -(2 ^ (w - 1)) ≤ imm

/-- `uimm_t<W>::valid` -/
def uimmValid (w imm : Nat) : Bool := imm ≤ 2 ^ w - 1

/-- The word of the record, or 0 where an operand is not valid. -/
def emitInst (valid : Bool) (dec : Decode) : Option Nat := if !valid then some 0 else encodeInst dec

def emitLui (rd : Nat) (imm20 : Int) : Option Nat :=
  emitInst (uimmValid 5 rd && simmValid 32 imm20) { op := .lui, rd, imm := imm20 }

def emitAddi (rd rs1 : Nat) (imm12 : Int) : Option Nat :=
  emitInst (uimmValid 5 rd && uimmValid 5 rs1 && simmValid 12 imm12) { op := .addi, rd, rs1, imm := imm12 }

def emitSlli (rd rs1 shamt7 : Nat) : Option Nat :=
  emitInst (uimmValid 5 rd && uimmValid 5 rs1 && uimmValid 7 shamt7) { op := .slli, rd, rs1, imm := shamt7 }

/-! ## The recursion -/

def bitextend {n : Nat} (val : BitVec n) (b : Nat) : BitVec n :=
  let mask := (1 : BitVec n) <<< (b - 1)
  let val := val &&& ((1 : BitVec n) <<< b - 1)
  (val ^^^ mask) - mask

def ispow2 {n : Nat} (val : BitVec n) : Bool := val != 0 && !((val &&& (val - 1)) != 0)

/-- The test of `load_imm_r` for a value of 32 bits. -/
def Narrow (val : BitVec 64) : Prop := val &&& ~~~0x7fffffff = 0 ∨ val &&& ~~~0x7fffffff = ~~~0x7fffffff

instance (val : BitVec 64) : Decidable (Narrow val) := inferInstanceAs (Decidable (_ ∨ _))

section Bits
variable {val : BitVec 64}

theorem xor_two_pow_of_lt {a i : Nat} (h : a < 2 ^ i) : a ^^^ 2 ^ i = a + 2 ^ i := by
  refine Nat.eq_of_testBit_eq fun j => ?_
  have hor : a + 2 ^ i = 2 ^ i ||| a := by
    have := Nat.two_pow_add_eq_or_of_lt h 1
    rw [Nat.mul_one] at this
    omega
  rw [hor, Nat.testBit_xor, Nat.testBit_or, Nat.testBit_two_pow]
  by_cases hj : i = j
  · subst hj
    simp [Nat.testBit_lt_two_pow h]
  · simp [hj]

/-- The sign of the lowest twelve bits is extended. -/
theorem toInt_bitextend : (bitextend val 12).toInt = val.toInt.bmod 4096 := by
  have hmask : ((1 : BitVec 64) <<< 11).toNat = 2 ^ 11 := by decide
  have hand : (val &&& ((1 : BitVec 64) <<< 12 - 1)).toNat = val.toNat % 4096 := Nat.and_two_pow_sub_one_eq_mod val.toNat 12
  have hlow : val.toInt % 4096 = (val.toNat % 4096 : Nat) := by
    rw [BitVec.toInt_eq_toNat_cond]
    split <;> omega
  unfold bitextend
  dsimp only
  generalize val &&& ((1 : BitVec 64) <<< 12 - 1) = masked at hand ⊢
  generalize val.toNat % 4096 = l at hand hlow
  have hl : l < 4096 := by omega
  have hxor : (masked ^^^ (1 : BitVec 64) <<< 11).toNat = if l < 2048 then l + 2048 else l - 2048 := by
    rw [BitVec.toNat_xor, hand, hmask]
    split
    · next h => exact xor_two_pow_of_lt h
    · next h =>
      have hback := xor_two_pow_of_lt (a := l - 2048) (i := 11) (by omega)
      have heq : l = (l - 2048) ^^^ 2 ^ 11 := by omega
      rw [heq, Nat.xor_assoc, Nat.xor_self, Nat.xor_zero, ← heq]
  show ((masked ^^^ (1 : BitVec 64) <<< 11) - (1 : BitVec 64) <<< 11).toInt = _
  rw [BitVec.toInt_eq_toNat_cond, BitVec.toNat_sub, hxor, hmask, Int.bmod_def]
  split <;> split <;> split <;> omega

theorem narrow_iff : Narrow val ↔ -(2 ^ 31) ≤ val.toInt ∧ val.toInt < 2 ^ 31 := by
  have hlt := val.isLt
  have hones : (~~~0x7fffffff : BitVec 64) = BitVec.allOnes 64 <<< 31 := by decide
  have hand : (val &&& ~~~(0x7fffffff : BitVec 64)).toNat = val.toNat / 2 ^ 31 * 2 ^ 31 := by
    rw [hones, ← BitVec.shiftLeft_ushiftRight, BitVec.toNat_shiftLeft, BitVec.toNat_ushiftRight, Nat.shiftRight_eq_div_pow,
      Nat.shiftLeft_eq, Nat.mod_eq_of_lt (by omega)]
  have hneg : (~~~0x7fffffff : BitVec 64).toNat = 2 ^ 64 - 2 ^ 31 := by decide
  have hzero : (0 : BitVec 64).toNat = 0 := rfl
  unfold Narrow
  rw [← BitVec.toNat_inj, ← BitVec.toNat_inj, hand, hneg, hzero, BitVec.toInt_eq_toNat_cond]
  split <;> omega

theorem ispow2_iff : ispow2 val = true ↔ ∃ k, val.toNat = 2 ^ k := by
  have hpow := Nat.ne_zero_and_sub_one_eq_zero_iff_isPowerOfTwo (n := val.toNat)
  have hone : val ≠ 0 → (val - 1).toNat = val.toNat - 1 := fun h => by bv_omega
  have hne : val ≠ 0 ↔ val.toNat ≠ 0 := by rw [Ne, Ne, ← BitVec.toNat_inj]; rfl
  unfold ispow2
  rw [Bool.and_eq_true, bne_iff_ne, Bool.not_eq_true', bne_eq_false_iff_eq, ← Nat.isPowerOfTwo, ← hpow, ← hne]
  refine and_congr_right fun h => ?_
  rw [← BitVec.toNat_inj, BitVec.toNat_and, hone h]
  rfl

end Bits

section Rest
variable {val hi : BitVec 64}

/-- A word is odd above its trailing zeros. -/
theorem exists_odd (hne : hi ≠ 0) : ∃ m, hi.toNat = 2 ^ hi.ctz.toNat * m ∧ m % 2 = 1 := by
  have hlow : hi.toNat % 2 ^ hi.ctz.toNat = 0 := by
    refine Nat.eq_of_testBit_eq fun i => ?_
    rw [Nat.testBit_mod_two_pow, Nat.zero_testBit]
    by_cases h : i < hi.ctz.toNat
    · rw [BitVec.testBit_toNat, BitVec.getLsbD_false_of_lt_ctz h, Bool.and_false]
    · rw [decide_eq_false h, Bool.false_and]
  have hbit := BitVec.getLsbD_true_ctz_of_ne_zero hne
  rw [← BitVec.testBit_toNat, Nat.testBit_eq_decide_div_mod_eq, decide_eq_true_eq] at hbit
  exact ⟨_, (Nat.mul_div_cancel' (Nat.dvd_of_mod_eq_zero hlow)).symm, hbit⟩

/-- Shifted down to its lowest bit, a value is odd, and nothing is lost. -/
theorem toInt_sshiftRight_ctz (hne : hi ≠ 0) (hlow : hi.toNat % 4096 = 0) :
    12 + (hi >>> 12).ctz.toNat < 64 ∧
    hi.toInt = 2 ^ (12 + (hi >>> 12).ctz.toNat) * (hi.sshiftRight (12 + (hi >>> 12).ctz.toNat)).toInt ∧
    (hi.sshiftRight (12 + (hi >>> 12).ctz.toNat)).toInt % 2 = 1 := by
  have hlt := hi.isLt
  have hnat : (hi >>> 12).toNat = hi.toNat / 4096 := by rw [BitVec.toNat_ushiftRight, Nat.shiftRight_eq_div_pow]
  have hupper : hi >>> 12 ≠ 0 := fun h => by
    have hzero : (hi >>> 12).toNat = 0 := by rw [h]; rfl
    exact hne (BitVec.eq_of_toNat_eq (by simp; omega))
  obtain ⟨m, hm, hodd⟩ := exists_odd hupper
  have hk := BitVec.two_pow_ctz_le_toNat_of_ne_zero hupper
  generalize (hi >>> 12).ctz.toNat = k at hm hk ⊢
  have hk52 : k < 52 := (Nat.pow_lt_pow_iff_right (by decide : 1 < 2)).1 (by omega : 2 ^ k < 2 ^ 52)
  have hhi : hi.toNat = 2 ^ (12 + k) * m := by
    rw [Nat.pow_add, Nat.mul_assoc, ← hm, hnat]
    omega
  have hword : (18446744073709551616 : Int) = 2 ^ (12 + k) * (2 * 2 ^ (51 - k)) := by
    have hexp : 64 = 12 + k + (51 - k + 1) := by omega
    rw [← Int.pow_succ', ← Int.pow_add, ← hexp]
    rfl
  -- the sign takes away a multiple of the word, which is even above the zeros
  obtain ⟨c, hc⟩ : ∃ c : Int, hi.toInt = 2 ^ (12 + k) * (m - 2 * (c * 2 ^ (51 - k))) := by
    rw [BitVec.toInt_eq_toNat_cond, hhi]
    split
    · exact ⟨0, by push_cast; ring⟩
    · refine ⟨1, ?_⟩
      push_cast
      rw [hword]
      ring
  have hquot : (hi.sshiftRight (12 + k)).toInt = m - 2 * (c * 2 ^ (51 - k)) := by
    rw [BitVec.toInt_sshiftRight, Int.shiftRight_eq_div_pow, hc]
    push_cast
    exact Int.mul_ediv_cancel_left _ (by positivity)
  rw [hquot]
  exact ⟨by omega, hc, by omega⟩

theorem sub_bmod_emod (x : Int) : (x - x.bmod 4096) % 4096 = 0 := by
  have := Int.bmod_emod (x := x) (m := 4096)
  omega

/-- What `load_imm_r` leaves for the upper part of a long value, unless the difference is 2^63. -/
theorem toInt_sub_bitextend (val : BitVec 64) : (val - bitextend val 12).toInt = val.toInt - val.toInt.bmod 4096 ∨
    val.toInt - val.toInt.bmod 4096 = 2 ^ 63 ∧ (val - bitextend val 12).toInt = -2 ^ 63 := by
  have hlow := Int.le_bmod (x := val.toInt) (m := 4096) (by decide)
  have hhigh := Int.bmod_lt (x := val.toInt) (m := 4096) (by decide)
  have := val.le_toInt
  have := val.toInt_lt
  have hmod := sub_bmod_emod val.toInt
  rw [BitVec.toInt_sub, toInt_bitextend, Int.bmod_def (_ - _)]
  split <;> omega

theorem toNat_sub_bitextend_mod (val : BitVec 64) : (val - bitextend val 12).toNat % 4096 = 0 := by
  have hmod := sub_bmod_emod val.toInt
  have hrest := toInt_sub_bitextend val
  rw [BitVec.toInt_eq_toNat_cond] at hrest
  split at hrest <;> omega

theorem sub_bitextend_ne_zero (h : ¬ Narrow val) : val - bitextend val 12 ≠ 0 := by
  intro hzero
  rw [narrow_iff] at h
  have hlow := Int.le_bmod (x := val.toInt) (m := 4096) (by decide)
  have hhigh := Int.bmod_lt (x := val.toInt) (m := 4096) (by decide)
  have hrest := toInt_sub_bitextend val
  rw [hzero] at hrest
  have : (0 : BitVec 64).toInt = 0 := rfl
  omega

/-- The recursion is on a value of fewer bits. -/
theorem natAbs_rest_lt (h : ¬ Narrow val) :
    ((val - bitextend val 12).sshiftRight (12 + ((val - bitextend val 12) >>> 12).ctz.toNat)).toInt.natAbs < val.toInt.natAbs := by
  obtain ⟨-, hshift, -⟩ := toInt_sshiftRight_ctz (sub_bitextend_ne_zero h) (toNat_sub_bitextend_mod val)
  have hlow := Int.le_bmod (x := val.toInt) (m := 4096) (by decide)
  have hhigh := Int.bmod_lt (x := val.toInt) (m := 4096) (by decide)
  have hrest := toInt_sub_bitextend val
  rw [narrow_iff] at h
  generalize ((val - bitextend val 12) >>> 12).ctz.toNat = k at hshift ⊢
  generalize (val - bitextend val 12) = hi at hshift hrest ⊢
  have hmul : hi.toInt.natAbs = 2 ^ (12 + k) * (hi.sshiftRight (12 + k)).toInt.natAbs := by
    rw [hshift, Int.natAbs_mul, Int.natAbs_pow]
    rfl
  have hpow : 2 ^ 12 ≤ 2 ^ (12 + k) := Nat.pow_le_pow_right (by decide) (Nat.le_add_right 12 k)
  have hle := Nat.mul_le_mul_right (hi.sshiftRight (12 + k)).toInt.natAbs hpow
  omega

end Rest

/-! ## Loading -/

/-- The words that `load_imm_r` gives to `add_inst`, one after the other. -/
def loadImmR (rd : Nat) (val : BitVec 64) : Option (List Nat) :=
  if Narrow val then do
    let upper := (val.sshiftRight 12) <<< 12
    let lui ← emitLui rd upper.toInt
    let val := val - upper
    if val ≠ 0 then do
      let addi ← emitAddi rd rd (bitextend val 12).toInt
      pure [lui, addi]
    else pure [lui]
  else do
    let lo := bitextend val 12
    let hi := val - lo
    let shift := 12 + (hi >>> 12).ctz.toNat
    let insts ← loadImmR rd (hi.sshiftRight shift)
    let slli ← emitSlli rd rd shift
    if lo ≠ 0 then do
      let addi ← emitAddi rd rd (s32 (bitextend lo 12).toInt)
      pure (insts ++ [slli, addi])
    else pure (insts ++ [slli])
termination_by val.toInt.natAbs
decreasing_by
  next h => exact natAbs_rest_lt h

def loadImm (rd : Nat) (val : BitVec 64) : Option (List Nat) :=
  if val.toInt ≥ -2048 ∧ val.toInt ≤ 2047 then do
    let addi ← emitAddi rd 0 (s32 val.toInt)
    pure [addi]
  else if ispow2 val then do
    let addi ← emitAddi rd 0 1
    let slli ← emitSlli rd rd val.ctz.toNat
    pure [addi, slli]
  else loadImmR rd val

/-- `load_imm` -/
def Assembler.loadImm (a : Assembler) (rd : Nat) (val : BitVec 64) : Option Assembler :=
  (Asm.loadImm rd val).map fun insts => insts.foldl addInst a

/-! ## In the buffer -/

/-- The bytes of words, one after the other. -/
def instBytes (insts : List Nat) : List UInt8 := insts.flatMap fun inst => leBytes (instLength inst) inst

theorem size_write_end (f : File) (bs : List UInt8) : (f.write f.size bs).size = f.size + bs.length := by
  unfold File.write
  dsimp only
  split
  · next h => simp [h]
  · exact Nat.max_eq_right (Nat.le_add_right _ _)

/-- What `add_inst` has written is the words' bytes, behind what was there. -/
theorem foldl_addInst (insts : List Nat) (a : Assembler) {x : Section} (hx : a.sections[a.current]? = some x) :
    ∃ y : Section, (insts.foldl Assembler.addInst a).sections[a.current]? = some y ∧
      y.buf.read 0 (x.buf.size + (instBytes insts).length) = x.buf.read 0 x.buf.size ++ instBytes insts := by
  induction insts generalizing a x with
  | nil => exact ⟨x, hx, by simp [instBytes]⟩
  | cons inst insts ih =>
    have hnext : (a.addInst inst).sections[(a.addInst inst).current]? =
        some { x with buf := x.buf.write x.buf.size (leBytes (instLength inst) inst) } := by
      show (a.sections.modify a.current _)[a.current]? = _
      rw [List.getElem?_modify_eq, hx]
      rfl
    obtain ⟨y, hy, hread⟩ := ih (a.addInst inst) hnext
    refine ⟨y, hy, ?_⟩
    have hbytes : instBytes (inst :: insts) = leBytes (instLength inst) inst ++ instBytes insts := List.flatMap_cons
    generalize leBytes (instLength inst) inst = bs at hread hbytes
    have hwrite : (x.buf.write x.buf.size bs).read 0 (x.buf.size + bs.length) = x.buf.read 0 x.buf.size ++ bs := by
      rw [File.read_add, Nat.zero_add, File.read_write_same, File.read_write_of_disjoint _ (.inl (by rw [Nat.zero_add]))]
    dsimp only at hread
    rw [size_write_end, hwrite] at hread
    rw [hbytes, List.length_append, ← Nat.add_assoc, hread, List.append_assoc]

theorem loadImm_text {a a' : Assembler} {x : Section} (hx : a.sections[a.current]? = some x) {rd : Nat} {val : BitVec 64}
    (h : a.loadImm rd val = some a') :
    ∃ insts y, loadImm rd val = some insts ∧ a'.sections[a.current]? = some y ∧
      y.buf.read 0 (x.buf.size + (instBytes insts).length) = x.buf.read 0 x.buf.size ++ instBytes insts := by
  obtain ⟨insts, hinsts, rfl⟩ := Option.map_eq_some_iff.1 h
  obtain ⟨y, hy, hread⟩ := foldl_addInst insts a hx
  exact ⟨insts, y, hinsts, hy, hread⟩

end Rv8.Asm
