import Mathlib.Tactic.Ring
import Mathlib.Tactic.Linarith
import Mathlib.Data.Int.ModEq
/-!
# Words of two limbs

A word of `2 * w` bits as two words of `w` bits. Carries and borrows go from the lower
limb to the upper one, comparisons are lexicographic, and a shift by less than a limb
moves bits between the two.
-/

namespace Rv8.Lib

@[ext]
structure Limbs (w : Nat) where
  (hi lo : BitVec w)
deriving DecidableEq

namespace Limbs

variable {w : Nat} (x y : Limbs w)

/-- The word that the limbs stand for. -/
def val : BitVec (w + w) := x.hi ++ x.lo

theorem toNat_val : x.val.toNat = x.hi.toNat * 2 ^ w + x.lo.toNat := by
  unfold val
  rw [BitVec.toNat_append, ← Nat.shiftLeft_add_eq_or_of_lt x.lo.isLt, Nat.shiftLeft_eq]

theorem val_inj : x.val = y.val ↔ x = y := by
  refine ⟨fun h => ?_, fun h => h ▸ rfl⟩
  have hnat := congrArg BitVec.toNat h
  rw [toNat_val, toNat_val] at hnat
  have hlo : x.lo.toNat = y.lo.toNat := by
    have := congrArg (· % 2 ^ w) hnat
    simpa [Nat.mul_add_mod_of_lt] using this
  have hhi : x.hi.toNat * 2 ^ w = y.hi.toNat * 2 ^ w := by omega
  exact Limbs.ext (BitVec.toNat_inj.1 (Nat.mul_right_cancel (Nat.two_pow_pos w) hhi)) (BitVec.toNat_inj.1 hlo)

/-- A value above its lower limb is a word of two limbs again. -/
theorem mul_add_mod (h l n : Nat) : (h * n + l) % (n * n) = (h + l / n) % n * n + l % n := by
  rcases Nat.eq_zero_or_pos n with rfl | hn
  · simp
  · rw [Nat.mod_mul, Nat.mul_add_mod_self_right, Nat.add_comm (h * n), Nat.add_mul_div_right _ _ hn, Nat.add_comm h, Nat.mul_comm n,
      Nat.add_comm]

theorem val_eq_iff {h l : Nat} {v : BitVec (w + w)} (hv : v.toNat = (h * 2 ^ w + l) % 2 ^ (w + w)) :
    x.val = v ↔ x.hi.toNat = (h + l / 2 ^ w) % 2 ^ w ∧ x.lo.toNat = l % 2 ^ w := by
  have hmod {a : Nat} : a % 2 ^ w < 2 ^ w := Nat.mod_lt _ (Nat.two_pow_pos w)
  have hword : v = val ⟨BitVec.ofNat w (h + l / 2 ^ w), BitVec.ofNat w l⟩ := by
    apply BitVec.eq_of_toNat_eq
    rw [hv, toNat_val, Nat.pow_add, mul_add_mod, BitVec.toNat_ofNat, BitVec.toNat_ofNat]
  rw [hword, val_inj, Limbs.ext_iff, ← BitVec.toNat_inj, ← BitVec.toNat_inj, BitVec.toNat_ofNat, BitVec.toNat_ofNat]

/-! ## Bits -/

section Bits
variable {x y}

theorem val_not : val ⟨~~~x.hi, ~~~x.lo⟩ = ~~~x.val := BitVec.not_append.symm

theorem val_and : val ⟨x.hi &&& y.hi, x.lo &&& y.lo⟩ = x.val &&& y.val := BitVec.and_append.symm

theorem val_or : val ⟨x.hi ||| y.hi, x.lo ||| y.lo⟩ = x.val ||| y.val := BitVec.or_append.symm

theorem val_xor : val ⟨x.hi ^^^ y.hi, x.lo ^^^ y.lo⟩ = x.val ^^^ y.val := BitVec.xor_append.symm

end Bits

/-! ## Sums and differences -/

section Sums
variable {x y}

/-- A sum has a carry where it is below a summand. -/
theorem add_lt_iff (a b : BitVec w) : a + b < a ↔ 2 ^ w ≤ a.toNat + b.toNat := by
  have ha := a.isLt
  have hb := b.isLt
  rw [BitVec.lt_def, BitVec.toNat_add]
  by_cases h : 2 ^ w ≤ a.toNat + b.toNat
  · rw [Nat.mod_eq_sub_mod h, Nat.mod_eq_of_lt (by omega)]
    omega
  · rw [Nat.mod_eq_of_lt (by omega)]
    omega

theorem val_add : val ⟨x.hi + y.hi + (if x.lo + y.lo < x.lo then 1 else 0), x.lo + y.lo⟩ = x.val + y.val := by
  have hx := x.lo.isLt
  have hy := y.lo.isLt
  have hsum : (x.val + y.val).toNat = ((x.hi.toNat + y.hi.toNat) * 2 ^ w + (x.lo.toNat + y.lo.toNat)) % 2 ^ (w + w) := by
    rw [BitVec.toNat_add, toNat_val, toNat_val]
    congr 1
    ring
  have hcarry : (if x.lo + y.lo < x.lo then 1 else 0 : BitVec w).toNat = (x.lo.toNat + y.lo.toNat) / 2 ^ w % 2 ^ w := by
    by_cases h : x.lo + y.lo < x.lo
    · have hone : (x.lo.toNat + y.lo.toNat) / 2 ^ w = 1 := by
        have := (add_lt_iff _ _).1 h
        rw [Nat.div_eq_of_lt_le] <;> omega
      rw [if_pos h, hone]
      exact BitVec.toNat_ofNat 1 w
    · have hzero : (x.lo.toNat + y.lo.toNat) / 2 ^ w = 0 := Nat.div_eq_of_lt (by rw [add_lt_iff] at h; omega)
      rw [if_neg h, hzero, Nat.zero_mod]
      exact BitVec.toNat_zero
  refine (val_eq_iff _ hsum).2 ⟨?_, BitVec.toNat_add _ _⟩
  rw [BitVec.toNat_add, BitVec.toNat_add, hcarry, Nat.add_mod_mod, Nat.mod_add_mod]

/-- What is borrowed comes back as a carry when `y` is added again. -/
theorem val_sub : val ⟨x.hi - y.hi - (if x.lo < x.lo - y.lo then 1 else 0), x.lo - y.lo⟩ = x.val - y.val := by
  rw [BitVec.eq_sub_iff_add_eq, ← val_add]
  dsimp only
  rw [BitVec.sub_add_cancel x.lo y.lo]
  generalize (if x.lo < x.lo - y.lo then 1 else 0 : BitVec w) = b
  rw [BitVec.add_assoc, BitVec.add_comm y.hi b, ← BitVec.add_assoc, BitVec.sub_add_cancel, BitVec.sub_add_cancel]

end Sums

/-! ## Orders -/

section Orders
variable {x y}

/-- Numbers of two digits are in the order of their upper digits, and then of the lower ones. -/
theorem mul_add_lt_iff {a b c d n : Int} (hb0 : 0 ≤ b) (hb : b < n) (hd0 : 0 ≤ d) (hd : d < n) :
    a * n + b < c * n + d ↔ a < c ∨ (a = c ∧ b < d) := by
  constructor
  · intro h
    rcases lt_trichotomy a c with hac | rfl | hac
    · exact .inl hac
    · exact .inr ⟨rfl, by omega⟩
    · nlinarith
  · rintro (hac | ⟨rfl, h⟩)
    · nlinarith
    · omega

theorem val_lt_iff : x.val < y.val ↔ x.hi < y.hi ∨ (x.hi = y.hi ∧ x.lo < y.lo) := by
  have hlex := mul_add_lt_iff (a := x.hi.toNat) (c := y.hi.toNat) (Int.natCast_nonneg x.lo.toNat) (by exact_mod_cast x.lo.isLt)
    (Int.natCast_nonneg y.lo.toNat) (by exact_mod_cast y.lo.isLt : _ < (2 : Int) ^ w)
  rw [BitVec.lt_def, toNat_val, toNat_val, BitVec.lt_def, BitVec.lt_def, ← BitVec.toNat_inj]
  exact_mod_cast hlex

theorem toInt_val (hw : 0 < w) : x.val.toInt = x.hi.toInt * 2 ^ w + x.lo.toNat := by
  have hw0 : ¬ (w == 0) = true := by simp [hw.ne']
  unfold val
  rw [BitVec.toInt_append, if_neg hw0, Int.mul_comm]

theorem val_slt_iff (hw : 0 < w) : x.val.slt y.val ↔ x.hi.slt y.hi ∨ (x.hi = y.hi ∧ x.lo < y.lo) := by
  have hlex := mul_add_lt_iff (a := x.hi.toInt) (c := y.hi.toInt) (Int.natCast_nonneg x.lo.toNat) (by exact_mod_cast x.lo.isLt)
    (Int.natCast_nonneg y.lo.toNat) (by exact_mod_cast y.lo.isLt : _ < (2 : Int) ^ w)
  rw [BitVec.slt_iff_toInt_lt, toInt_val hw, toInt_val hw, BitVec.slt_iff_toInt_lt, BitVec.lt_def, ← BitVec.toInt_inj, hlex, Nat.cast_lt]

end Orders

/-! ## Shifts -/

section Shifts
variable {x} {s : Nat}

theorem getLsbD_val (i : Nat) : x.val.getLsbD i = if i < w then x.lo.getLsbD i else x.hi.getLsbD (i - w) := by
  unfold val
  rw [BitVec.getLsbD_append]

theorem val_shl_lt (hs : s < w) : val ⟨x.hi <<< s ||| x.lo >>> (w - s), x.lo <<< s⟩ = x.val <<< s := by
  apply BitVec.eq_of_getLsbD_eq
  intro i hi
  rw [BitVec.getLsbD_shiftLeft, getLsbD_val, getLsbD_val]
  by_cases hiw : i < w
  · have hsub : i - s < w := by omega
    simp [hi, hiw, hsub]
  · have his : ¬ i < s := by omega
    have hlow : w - s + (i - w) = i - s := by omega
    by_cases hlo : i - s < w
    · have hsmall : i - w < s := by omega
      simp [hi, hiw, his, hlo, hlow, hsmall]
    · have hlarge : ¬ i - w < s := by omega
      have hlt : i - w < w := by omega
      have hsub : i - w - s = i - s - w := by omega
      have hout : x.lo.getLsbD (i - s) = false := BitVec.getLsbD_of_ge _ _ (by omega)
      rw [if_neg hiw, if_neg hlo, BitVec.getLsbD_or, BitVec.getLsbD_shiftLeft, BitVec.getLsbD_ushiftRight, hlow, hout, hsub]
      simp only [hi, his, hlarge, hlt, decide_true, decide_false, Bool.not_false, Bool.true_and, Bool.or_false]

theorem val_shl_ge (hs : w ≤ s) : val ⟨x.lo <<< (s - w), 0⟩ = x.val <<< s := by
  apply BitVec.eq_of_getLsbD_eq
  intro i hi
  rw [BitVec.getLsbD_shiftLeft, getLsbD_val, getLsbD_val]
  by_cases hiw : i < w
  · have his : i < s := by omega
    simp [hiw, his]
  · by_cases his : i < s
    · have hsmall : i - w < s - w := by omega
      simp [hiw, his, hsmall]
    · have hlarge : ¬ i - w < s - w := by omega
      have hlt : i - w < w := by omega
      have hlo : i - s < w := by omega
      have hsub : i - w - (s - w) = i - s := by omega
      simp [hi, hiw, his, hlarge, hlt, hlo, hsub]

/-- What both right shifts by less than a limb leave in the lower limb. -/
theorem getLsbD_shr_lt (hs : s < w) {i : Nat} (hi : i < w) :
    (x.lo >>> s ||| x.hi <<< (w - s)).getLsbD i = x.val.getLsbD (s + i) := by
  rw [BitVec.getLsbD_or, BitVec.getLsbD_ushiftRight, BitVec.getLsbD_shiftLeft, getLsbD_val]
  by_cases hlo : s + i < w
  · have hsmall : i < w - s := by omega
    simp [hlo, hsmall]
  · have hlarge : ¬ i < w - s := by omega
    have hsub : i - (w - s) = s + i - w := by omega
    have hout : x.lo.getLsbD (s + i) = false := BitVec.getLsbD_of_ge _ _ (by omega)
    simp [hi, hlo, hlarge, hsub, hout]

theorem val_ushr_lt (hs : s < w) : val ⟨x.hi >>> s, x.lo >>> s ||| x.hi <<< (w - s)⟩ = x.val >>> s := by
  apply BitVec.eq_of_getLsbD_eq
  intro i hi
  rw [BitVec.getLsbD_ushiftRight, getLsbD_val]
  by_cases hiw : i < w
  · rw [if_pos hiw]
    exact getLsbD_shr_lt hs hiw
  · have hlarge : ¬ s + i < w := by omega
    have hsub : s + (i - w) = s + i - w := by omega
    rw [getLsbD_val]
    simp [hiw, hlarge, hsub]

theorem val_ushr_ge (hs : w ≤ s) : val ⟨0, x.hi >>> (s - w)⟩ = x.val >>> s := by
  apply BitVec.eq_of_getLsbD_eq
  intro i hi
  have hlarge : ¬ s + i < w := by omega
  rw [BitVec.getLsbD_ushiftRight, getLsbD_val, getLsbD_val]
  by_cases hiw : i < w
  · have hsub : s - w + i = s + i - w := by omega
    simp [hiw, hlarge, hsub]
  · have hout : x.hi.getLsbD (s + i - w) = false := BitVec.getLsbD_of_ge _ _ (by omega)
    simp [hiw, hlarge, hout]

theorem msb_val (hw : 0 < w) : x.val.msb = x.hi.msb := by
  unfold val
  rw [BitVec.msb_append, if_neg (by simp [hw.ne'])]

theorem val_sshr_lt (hs : s < w) : val ⟨x.hi.sshiftRight s, x.lo >>> s ||| x.hi <<< (w - s)⟩ = x.val.sshiftRight s := by
  apply BitVec.eq_of_getLsbD_eq
  intro i hi
  have hge : ¬ w + w ≤ i := by omega
  rw [BitVec.getLsbD_sshiftRight, getLsbD_val, msb_val (by omega)]
  by_cases hiw : i < w
  · have hlt : s + i < w + w := by omega
    rw [if_pos hiw]
    simp only [hge, hlt, decide_false, Bool.not_false, Bool.true_and, if_true]
    exact getLsbD_shr_lt hs hiw
  · have hle : ¬ w ≤ i - w := by omega
    simp only [hiw, hge, hle, BitVec.getLsbD_sshiftRight, decide_false, Bool.not_false, Bool.true_and, if_false]
    by_cases hin : s + (i - w) < w
    · have hlt : s + i < w + w := by omega
      have hlarge : ¬ s + i < w := by omega
      have hsub : s + (i - w) = s + i - w := by omega
      rw [if_pos hin, if_pos hlt, getLsbD_val, if_neg hlarge, hsub]
    · rw [if_neg hin, if_neg (by omega)]

/-- A shift of a signed word by a limb or more leaves its sign in the upper limb. -/
theorem val_sshr_ge (hs : w ≤ s) (hw : 0 < w) :
    val ⟨if x.hi.msb then BitVec.allOnes w else 0, x.hi.sshiftRight (s - w)⟩ = x.val.sshiftRight s := by
  apply BitVec.eq_of_getLsbD_eq
  intro i hi
  have hge : ¬ w + w ≤ i := by omega
  have hlarge : ¬ s + i < w := by omega
  rw [BitVec.getLsbD_sshiftRight, getLsbD_val, msb_val hw]
  by_cases hiw : i < w
  · have hle : ¬ w ≤ i := by omega
    have hsub : s - w + i = s + i - w := by omega
    simp only [hiw, hge, hle, BitVec.getLsbD_sshiftRight, decide_false, Bool.not_false, Bool.true_and, if_true]
    by_cases hin : s - w + i < w
    · rw [if_pos hin, if_pos (by omega), getLsbD_val, if_neg hlarge, hsub]
    · rw [if_neg hin, if_neg (by omega)]
  · have hlt : ¬ s + i < w + w := by omega
    have hin : i - w < w := by omega
    cases hm : x.hi.msb <;> simp [hiw, hge, hlt, hin]

end Shifts

/-! ## Limbs as words -/

theorem val_signExtend (u : BitVec w) : val ⟨if u.msb then BitVec.allOnes w else 0, u⟩ = u.signExtend (w + w) := by
  apply BitVec.eq_of_getLsbD_eq
  intro i hi
  rw [getLsbD_val, BitVec.getLsbD_signExtend]
  by_cases hiw : i < w
  · simp [hi, hiw]
  · have hlt : i - w < w := by omega
    cases hm : u.msb <;> simp [hi, hiw, hlt]

theorem val_eq_ofInt : x.val = BitVec.ofInt (w + w) (x.hi.toNat * 2 ^ w + x.lo.toNat) := by
  have hnat : ((x.hi.toNat : Int) * 2 ^ w + x.lo.toNat) = ((x.hi.toNat * 2 ^ w + x.lo.toNat : Nat) : Int) := by
    push_cast
    rfl
  rw [hnat, BitVec.ofInt_natCast, ← toNat_val, BitVec.ofNat_toNat, BitVec.setWidth_eq]

end Limbs

end Rv8.Lib
