import Rv8.Emu.Arith
import Rv8.Lib.Limbs
/-!
# 128-bit arithmetic

The operators of `operators.h` on `u128` and `s128`, which are a pair of words each.
The two types share their text, apart from the comparisons, which read the upper word
as a signed one in `s128`, the right shifts, and the product, which compares. A signed
word wraps around, as the program is built with `-fwrapv`.
-/

namespace Rv8.Asm

open Rv8.Lib Emu

/-- `r.d` -/
abbrev Wide := Limbs 64

/-- Whether `PREDICATED_SHIFT` is defined. If it is, a host also evaluates shifts by a word or more. -/
inductive Build
  | branching
  | predicated (host : Host)

namespace Wide

variable (x y : Wide)

/-! ## Constructors -/

/-- `__u128(u64 lo)` and `__s128(u64 lo)` -/
def ofU64 (lo : BitVec 64) : Wide := ⟨~~~((lo >>> 63) - 1), lo⟩

def ofBool (b : Bool) : Wide := ofU64 (ofBit 64 b)

/-! ## What the two types share -/

def eq : Bool := x.lo == y.lo && x.hi == y.hi
def ne : Bool := x.lo != y.lo || x.hi != y.hi

def and : Wide := ⟨x.hi &&& y.hi, x.lo &&& y.lo⟩
def or : Wide := ⟨x.hi ||| y.hi, x.lo ||| y.lo⟩
def xor : Wide := ⟨x.hi ^^^ y.hi, x.lo ^^^ y.lo⟩
def not : Wide := ⟨~~~x.hi, ~~~x.lo⟩

def andS32 (k : BitVec 32) : Wide := ⟨x.hi, x.lo &&& k.signExtend 64⟩
def orS32 (k : BitVec 32) : Wide := ⟨x.hi, x.lo ||| k.signExtend 64⟩
def xorS32 (k : BitVec 32) : Wide := ⟨x.hi, x.lo ^^^ k.signExtend 64⟩

def add : Wide :=
  let lo := x.lo + y.lo
  let c := ofBit 64 (lo < x.lo)
  ⟨x.hi + y.hi + c, lo⟩

def sub : Wide :=
  let lo := x.lo - y.lo
  let b := ofBit 64 (lo > x.lo)
  ⟨x.hi - y.hi - b, lo⟩

def neg : Wide := add (not x) (ofU64 1)

/-- `u64 s = shamt & 127` -/
def amount (shamt : BitVec 32) : BitVec 64 := (shamt &&& 127).signExtend 64

/-- A shift of a word by a word. -/
def shiftBy (host : Host) (op : ShiftOp) (v s : BitVec 64) : BitVec 64 := host.shift op v s.toNat

def shl (build : Build) (shamt : BitVec 32) : Wide :=
  let s := amount shamt
  match build with
  | .predicated host =>
    let sg0 := ofBit 64 (s > 0)
    let sl64 := ofBit 64 (s < 64)
    let sge64 := ofBit 64 (s ≥ 64)
    let hi0 := -sl64 &&& shiftBy host .shl x.hi s
    let hi1 := -(sg0 &&& sl64) &&& shiftBy host .shr x.lo (64 - s)
    let hi2 := -sge64 &&& shiftBy host .shl x.lo (s - 64)
    let lo := -sl64 &&& shiftBy host .shl x.lo s
    ⟨hi0 ||| hi1 ||| hi2, lo⟩
  | .branching =>
    if s = 0 then x
    else if s < 64 then ⟨x.hi <<< s ||| x.lo >>> (64 - s), x.lo <<< s⟩
    else ⟨x.lo <<< (s - 64), 0⟩

/-! ## Comparisons, by that of the upper words -/

section Comparisons
variable (less : BitVec 64 → BitVec 64 → Bool)

def lt : Bool := less x.hi y.hi || (x.hi == y.hi && decide (x.lo < y.lo))
def gt : Bool := less y.hi x.hi || (x.hi == y.hi && decide (x.lo > y.lo))
def ge : Bool := less y.hi x.hi || (x.hi == y.hi && decide (x.lo ≥ y.lo))
def le : Bool := less x.hi y.hi || (x.hi == y.hi && decide (x.lo ≤ y.lo))

def mul (build : Build) : Wide :=
  let z0 := ofU64 (x.lo * y.lo)
  let z1 := ofU64 (x.hi * y.lo)
  let z2 := ofU64 (x.lo * y.hi)
  let z4 := add z1 z2
  let c1 := ofBool (lt z4 z1 less)
  add (shl (add z4 c1) build 64) z0

end Comparisons

end Wide

/-! ## `u128` -/

namespace U128

open Wide

variable (x y : Wide) (build : Build)

def lt : Bool := Wide.lt x y BitVec.ult
def gt : Bool := Wide.gt x y BitVec.ult
def ge : Bool := Wide.ge x y BitVec.ult
def le : Bool := Wide.le x y BitVec.ult

def shr (shamt : BitVec 32) : Wide :=
  let s := amount shamt
  match build with
  | .predicated host =>
    let sg0 := ofBit 64 (s > 0)
    let sl64 := ofBit 64 (s < 64)
    let sge64 := ofBit 64 (s ≥ 64)
    let hi := -sl64 &&& shiftBy host .shr x.hi s
    let lo0 := -sl64 &&& shiftBy host .shr x.lo s
    let lo1 := -(sg0 &&& sl64) &&& shiftBy host .shl x.hi (64 - s)
    let lo2 := -sge64 &&& shiftBy host .shr x.hi (s - 64)
    ⟨hi, lo0 ||| lo1 ||| lo2⟩
  | .branching =>
    if s = 0 then x
    else if s < 64 then ⟨x.hi >>> s, x.lo >>> s ||| x.hi <<< (64 - s)⟩
    else ⟨0, x.hi >>> (s - 64)⟩

def mul : Wide := Wide.mul x y BitVec.ult build

end U128

/-! ## `s128` -/

namespace S128

open Wide

variable (x y : Wide) (build : Build)

def lt : Bool := Wide.lt x y BitVec.slt
def gt : Bool := Wide.gt x y BitVec.slt
def ge : Bool := Wide.ge x y BitVec.slt
def le : Bool := Wide.le x y BitVec.slt

def shr (shamt : BitVec 32) : Wide :=
  let s := amount shamt
  match build with
  | .predicated host =>
    let sg0 := ofBit 64 (s > 0)
    let sl64 := ofBit 64 (s < 64)
    let sge64 := ofBit 64 (s ≥ 64)
    let hi0 := -sl64 &&& shiftBy host .sar x.hi s
    -- `-!sl64` is an `int`
    let hi1 := (-ofBit 32 (sl64 = 0)).signExtend 64 &&& -(x.hi >>> 63)
    let lo0 := -sl64 &&& shiftBy host .shr x.lo s
    let lo1 := -(sg0 &&& sl64) &&& shiftBy host .shl x.hi (64 - s)
    let lo2 := -sge64 &&& shiftBy host .sar x.hi (s - 64)
    ⟨hi0 ||| hi1, lo0 ||| lo1 ||| lo2⟩
  | .branching =>
    if s = 0 then x
    else if s < 64 then ⟨x.hi.sshiftRight s.toNat, x.lo >>> s ||| x.hi <<< (64 - s)⟩
    else ⟨-(x.hi >>> 63), x.hi.sshiftRight (s - 64).toNat⟩

def mul : Wide := Wide.mul x y BitVec.slt build

end S128

/-! ## Values -/

namespace Wide

variable {x y : Wide}

theorem ofBit_decide (n : Nat) {p : Prop} [Decidable p] : ofBit n (decide p) = if p then 1 else 0 := by
  unfold ofBit
  by_cases h : p <;> simp [h]

/-- The sign bit of a word. -/
theorem ushiftRight_top (u : BitVec 64) : u >>> 63 = if u.msb then 1 else 0 := by
  have hlt := u.isLt
  apply BitVec.eq_of_toNat_eq
  rw [BitVec.toNat_ushiftRight, Nat.shiftRight_eq_div_pow]
  cases hm : u.msb with
  | false =>
    have h := BitVec.msb_eq_false_iff_two_mul_lt.1 hm
    show u.toNat / 2 ^ 63 = 0
    omega
  | true =>
    have h := BitVec.msb_eq_true_iff_two_mul_ge.1 hm
    show u.toNat / 2 ^ 63 = 1
    omega

theorem ofU64_eq (u : BitVec 64) : ofU64 u = ⟨if u.msb then BitVec.allOnes 64 else 0, u⟩ := by
  unfold ofU64
  rw [ushiftRight_top]
  cases u.msb <;> rfl

theorem val_ofU64 (u : BitVec 64) : (ofU64 u).val = u.signExtend 128 := by
  rw [ofU64_eq]
  exact Limbs.val_signExtend u

theorem val_ofBool (b : Bool) : (ofBool b).val = if b then 1 else 0 := by
  cases b <;> decide

theorem val_add : (add x y).val = x.val + y.val := by
  rw [← Limbs.val_add]
  unfold add
  dsimp only
  rw [ofBit_decide]

theorem val_sub : (sub x y).val = x.val - y.val := by
  rw [← Limbs.val_sub]
  unfold sub
  dsimp only
  rw [ofBit_decide]

theorem val_neg : (neg x).val = -x.val := by
  have hone : (ofU64 1).val = 1 := by decide
  unfold neg
  rw [val_add, hone, BitVec.neg_eq_not_add]
  exact congrArg (· + 1) Limbs.val_not

theorem eq_iff : eq x y = true ↔ x = y := by
  unfold eq
  rw [Limbs.ext_iff]
  simp [and_comm]

theorem ne_iff : ne x y = true ↔ x ≠ y := by
  have hnot : ne x y = !eq x y := (Bool.not_and _ _).symm
  rw [hnot, Bool.not_eq_true', ← Bool.not_eq_true, eq_iff]

/-! ## Shifts -/

theorem toNat_amount (shamt : BitVec 32) : ((amount shamt).toNat : Int) = shamt.toInt % 128 := by
  have hand : (shamt &&& 127).toNat = shamt.toNat % 128 := Nat.and_two_pow_sub_one_eq_mod shamt.toNat 7
  have hmsb : (shamt &&& 127).msb = false := by
    rw [BitVec.msb_eq_decide, hand]
    simp only [decide_eq_false_iff_not]
    omega
  unfold amount
  rw [BitVec.signExtend_eq_setWidth_of_msb_false hmsb, BitVec.toNat_setWidth, hand, BitVec.toInt_eq_toNat_cond]
  split <;> omega

theorem amount_lt (shamt : BitVec 32) : (amount shamt).toNat < 128 := by
  have := toNat_amount shamt
  omega

/-- A mask of a condition. -/
theorem mask_and {p : Prop} [Decidable p] (v : BitVec 64) : -ofBit 64 (decide p) &&& v = if p then v else 0 := by
  rw [ofBit_decide]
  by_cases h : p
  · rw [if_pos h, if_pos h]
    show BitVec.allOnes 64 &&& v = v
    exact BitVec.allOnes_and
  · rw [if_neg h, if_neg h]
    exact BitVec.zero_and

/-- The three masks of a shift choose between a word, two words and a third one. -/
theorem select_masks (s a b c : BitVec 64) :
    (-ofBit 64 (decide (s < 64)) &&& a) ||| (-(ofBit 64 (decide (s > 0)) &&& ofBit 64 (decide (s < 64))) &&& b) |||
      (-ofBit 64 (decide (s ≥ 64)) &&& c) = if s = 0 then a else if s < 64 then a ||| b else c := by
  have hand : ofBit 64 (decide (s > 0)) &&& ofBit 64 (decide (s < 64)) = ofBit 64 (decide (s > 0 ∧ s < 64)) := by
    rw [ofBit_decide, ofBit_decide, ofBit_decide]
    by_cases hp : s > 0
    · by_cases hq : s < 64
      · rw [if_pos hp, if_pos hq, if_pos ⟨hp, hq⟩]
        decide
      · have hboth : ¬ (s > 0 ∧ s < 64) := fun h => hq h.2
        rw [if_pos hp, if_neg hq, if_neg hboth]
        decide
    · have hboth : ¬ (s > 0 ∧ s < 64) := fun h => hp h.1
      rw [if_neg hp, if_neg hboth]
      exact BitVec.zero_and
  rw [hand, mask_and, mask_and, mask_and]
  by_cases hlt : s < 64
  · have hge : ¬ s ≥ 64 := by bv_omega
    by_cases h0 : s = 0
    · have hpos : ¬ (s > 0 ∧ s < 64) := fun h => by bv_omega
      rw [if_pos hlt, if_neg hpos, if_neg hge, if_pos h0]
      simp
    · have hpos : s > 0 ∧ s < 64 := ⟨by bv_omega, hlt⟩
      rw [if_pos hlt, if_pos hpos, if_neg hge, if_neg h0, if_pos hlt]
      simp
  · have hge : s ≥ 64 := by bv_omega
    have h0 : ¬ s = 0 := fun h => by bv_omega
    rw [if_neg hlt, if_neg (fun h => hlt h.2), if_pos hge, if_neg h0, if_neg hlt]
    simp

theorem shiftBy_lt {host : Host} {op : ShiftOp} {v s : BitVec 64} (hs : s.toNat < 64) :
    shiftBy host op v s = match op with
      | .shl => v <<< s
      | .shr => v >>> s
      | .sar => v.sshiftRight s.toNat := by
  unfold shiftBy Host.shift
  rw [if_pos (by omega)]
  cases op <;> rfl

theorem shl_predicated (host : Host) (shamt : BitVec 32) : shl x (.predicated host) shamt = shl x .branching shamt := by
  have hs := amount_lt shamt
  unfold shl
  dsimp only
  generalize amount shamt = s at hs ⊢
  rw [select_masks, mask_and]
  by_cases h0 : s = 0
  · subst h0
    rw [if_pos rfl, if_pos rfl, if_pos (by decide), shiftBy_lt (by decide), shiftBy_lt (by decide)]
    simp
  rw [if_neg h0, if_neg h0]
  by_cases hlt : s < 64
  · rw [if_pos hlt, if_pos hlt, if_pos hlt, shiftBy_lt (by bv_omega), shiftBy_lt (by bv_omega), shiftBy_lt (by bv_omega)]
  · rw [if_neg hlt, if_neg hlt, if_neg hlt, shiftBy_lt (by bv_omega)]

theorem shl_eq (build : Build) (shamt : BitVec 32) : shl x build shamt = shl x .branching shamt := by
  cases build with
  | branching => rfl
  | predicated host => exact shl_predicated host shamt

theorem val_shl (build : Build) (shamt : BitVec 32) : (shl x build shamt).val = x.val <<< (amount shamt).toNat := by
  rw [shl_eq]
  unfold shl
  dsimp only
  have hs := amount_lt shamt
  generalize amount shamt = s at hs ⊢
  by_cases h0 : s = 0
  · subst h0
    rw [if_pos rfl]
    exact (BitVec.shiftLeft_zero _).symm
  rw [if_neg h0]
  by_cases hlt : s < 64
  · have hsub : (64 - s).toNat = 64 - s.toNat := by bv_omega
    rw [if_pos hlt, ← Limbs.val_shl_lt (by bv_omega : s.toNat < 64), ← hsub]
    rfl
  · have hsub : (s - 64).toNat = s.toNat - 64 := by bv_omega
    rw [if_neg hlt, ← Limbs.val_shl_ge (by bv_omega : 64 ≤ s.toNat), ← hsub]
    rfl

end Wide

open Wide

theorem U128.shr_eq (x : Wide) (build : Build) (shamt : BitVec 32) : U128.shr x build shamt = U128.shr x .branching shamt := by
  cases build with
  | branching => rfl
  | predicated host =>
    have hs := amount_lt shamt
    unfold U128.shr
    dsimp only
    generalize amount shamt = s at hs ⊢
    rw [select_masks, mask_and]
    by_cases h0 : s = 0
    · subst h0
      rw [if_pos rfl, if_pos rfl, if_pos (by decide), shiftBy_lt (by decide), shiftBy_lt (by decide)]
      simp
    rw [if_neg h0, if_neg h0]
    by_cases hlt : s < 64
    · rw [if_pos hlt, if_pos hlt, if_pos hlt, shiftBy_lt (by bv_omega), shiftBy_lt (by bv_omega), shiftBy_lt (by bv_omega)]
    · rw [if_neg hlt, if_neg hlt, if_neg hlt, shiftBy_lt (by bv_omega)]

theorem U128.val_shr (x : Wide) (build : Build) (shamt : BitVec 32) : (U128.shr x build shamt).val = x.val >>> (amount shamt).toNat := by
  rw [U128.shr_eq]
  unfold U128.shr
  dsimp only
  have hs := amount_lt shamt
  generalize amount shamt = s at hs ⊢
  by_cases h0 : s = 0
  · subst h0
    rw [if_pos rfl]
    exact (BitVec.ushiftRight_zero _).symm
  rw [if_neg h0]
  by_cases hlt : s < 64
  · have hsub : (64 - s).toNat = 64 - s.toNat := by bv_omega
    rw [if_pos hlt, ← Limbs.val_ushr_lt (by bv_omega : s.toNat < 64), ← hsub]
    rfl
  · have hsub : (s - 64).toNat = s.toNat - 64 := by bv_omega
    rw [if_neg hlt, ← Limbs.val_ushr_ge (by bv_omega : 64 ≤ s.toNat), ← hsub]
    rfl

theorem neg_ushiftRight (v : BitVec 64) : -(v >>> 63) = if v.msb then BitVec.allOnes 64 else 0 := by
  have hshr : v >>> 63 = if v.msb then 1 else 0 := ushiftRight_top v
  rw [hshr]
  cases v.msb <;> decide

theorem S128.shr_eq (x : Wide) (build : Build) (shamt : BitVec 32) : S128.shr x build shamt = S128.shr x .branching shamt := by
  cases build with
  | branching => rfl
  | predicated host =>
    have hs := amount_lt shamt
    unfold S128.shr
    dsimp only
    generalize amount shamt = s at hs ⊢
    have hfill : (-ofBit 32 (decide (ofBit 64 (decide (s < 64)) = 0))).signExtend 64 &&& -(x.hi >>> 63) =
        if s < 64 then (0 : BitVec 64) else -(x.hi >>> 63) := by
      by_cases hlt : s < 64
      · rw [if_pos hlt, decide_eq_true hlt]
        exact BitVec.zero_and
      · rw [if_neg hlt, decide_eq_false hlt]
        exact BitVec.allOnes_and
    rw [select_masks, mask_and, hfill]
    by_cases h0 : s = 0
    · subst h0
      rw [if_pos rfl, if_pos rfl, if_pos (by decide), if_pos (by decide), shiftBy_lt (by decide), shiftBy_lt (by decide)]
      simp
    rw [if_neg h0, if_neg h0]
    by_cases hlt : s < 64
    · rw [if_pos hlt, if_pos hlt, if_pos hlt, if_pos hlt, shiftBy_lt (by bv_omega), shiftBy_lt (by bv_omega), shiftBy_lt (by bv_omega)]
      simp
    · rw [if_neg hlt, if_neg hlt, if_neg hlt, if_neg hlt, shiftBy_lt (by bv_omega)]
      simp

theorem S128.val_shr (x : Wide) (build : Build) (shamt : BitVec 32) :
    (S128.shr x build shamt).val = x.val.sshiftRight (amount shamt).toNat := by
  rw [S128.shr_eq]
  unfold S128.shr
  dsimp only
  have hs := amount_lt shamt
  generalize amount shamt = s at hs ⊢
  by_cases h0 : s = 0
  · subst h0
    rw [if_pos rfl]
    exact (BitVec.sshiftRight_zero).symm
  rw [if_neg h0]
  by_cases hlt : s < 64
  · have hsub : (64 - s).toNat = 64 - s.toNat := by bv_omega
    rw [if_pos hlt, ← Limbs.val_sshr_lt (by bv_omega : s.toNat < 64), ← hsub]
    rfl
  · have hsub : (s - 64).toNat = s.toNat - 64 := by bv_omega
    rw [if_neg hlt, ← Limbs.val_sshr_ge (by bv_omega : 64 ≤ s.toNat) (by decide), ← hsub, neg_ushiftRight]

end Rv8.Asm
