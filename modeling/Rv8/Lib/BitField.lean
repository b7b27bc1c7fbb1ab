import Mathlib.Data.BitVec
/-!
# Bit-fields of a word

A `BitField` is a range of bits. Its assignment cuts the value to the width of the
field and leaves every other bit alone. Fields that share no bit do not see each
other's assignments.
-/

namespace Rv8.Lib

structure BitField where
  (lo width : Nat)
deriving DecidableEq

namespace BitField

variable {n : Nat} (f g : BitField)

def get (x : BitVec n) : BitVec f.width := x.extractLsb' f.lo f.width

/-- The bits of the field in a word of `n` bits. -/
def mask (n : Nat) : BitVec n := (BitVec.allOnes f.width).setWidth n <<< f.lo

def set (x : BitVec n) (v : BitVec f.width) : BitVec n := (x &&& ~~~(f.mask n)) ||| (v.setWidth n <<< f.lo)

/-- No bit belongs to both fields. -/
def Disjoint : Prop := f.lo + f.width ≤ g.lo ∨ g.lo + g.width ≤ f.lo

instance : Decidable (f.Disjoint g) := inferInstanceAs (Decidable (_ ∨ _))

theorem getLsbD_mask (i : Nat) : (f.mask n).getLsbD i = (decide (i < n) && decide (f.lo ≤ i) && decide (i < f.lo + f.width)) := by
  unfold mask
  simp only [BitVec.getLsbD_shiftLeft, BitVec.getLsbD_setWidth, BitVec.getLsbD_allOnes]
  by_cases hn : i < n <;> by_cases hl : f.lo ≤ i <;> by_cases hw : i < f.lo + f.width <;> simp [hn, hl, hw] <;> omega

theorem getLsbD_set (x : BitVec n) (v : BitVec f.width) (i : Nat) :
    (f.set x v).getLsbD i =
      if f.lo ≤ i ∧ i < f.lo + f.width then decide (i < n) && v.getLsbD (i - f.lo) else x.getLsbD i := by
  unfold set
  simp only [BitVec.getLsbD_or, BitVec.getLsbD_and, BitVec.getLsbD_not, getLsbD_mask, BitVec.getLsbD_shiftLeft,
    BitVec.getLsbD_setWidth]
  have hv : ∀ j, f.width ≤ j → v.getLsbD j = false := by
    intro j hj
    exact BitVec.getLsbD_of_ge v j hj
  have hx : ∀ j, n ≤ j → x.getLsbD j = false := by
    intro j hj
    exact BitVec.getLsbD_of_ge x j hj
  split
  · next h =>
    have hlt : i - f.lo < n ∨ ¬ i < n := by omega
    rcases hlt with hlt | hlt
    · simp [h.1, h.2, hlt, Nat.not_lt.2 h.1]
    · simp [hlt]
  · next h =>
    rw [not_and_or] at h
    rcases h with h | h
    · have hi : i < f.lo := by omega
      by_cases hn : i < n
      · simp [hn, h, hi]
      · simp [hn, hx i (by omega)]
    · by_cases hn : i < n
      · simp [hn, h, hv (i - f.lo) (by omega)]
      · simp [hn, hx i (by omega)]

@[simp] theorem get_set (hf : f.lo + f.width ≤ n) (x : BitVec n) (v : BitVec f.width) : f.get (f.set x v) = v := by
  apply BitVec.eq_of_getLsbD_eq
  intro i hi
  unfold get
  rw [BitVec.getLsbD_extractLsb', getLsbD_set, if_pos (by omega), Nat.add_sub_cancel_left]
  simp [hi, show f.lo + i < n by omega]

theorem get_set_of_disjoint {f g : BitField} (h : f.Disjoint g) (x : BitVec n) (v : BitVec f.width) :
    g.get (f.set x v) = g.get x := by
  apply BitVec.eq_of_getLsbD_eq
  intro i hi
  unfold get Disjoint at *
  rw [BitVec.getLsbD_extractLsb', BitVec.getLsbD_extractLsb', getLsbD_set, if_neg (by omega)]

end BitField

end Rv8.Lib
