import Mathlib.Data.BitVec
/-!
# Registers of a state and masked writes

A `Register` is a reference to an `n`-bit field of a state, with the two laws a
reference obeys. The masked updates are the ones hardware registers have: replace,
set or clear the bits under a mask. Each leaves the register as it was exactly when
the bits it would change agree already.
-/

namespace Rv8.Lib

/-- A reference to an `n`-bit field of `σ`. -/
structure Register (σ : Type) (n : Nat) where
  get : σ → BitVec n
  set : σ → BitVec n → σ
  get_set : ∀ s v, get (set s v) = v
  set_get : ∀ s, set s (get s) = s

namespace Register

variable {σ : Type} {n : Nat} (r : Register σ n)

/-- A write shows unless it writes what was there. -/
theorem set_eq_self_iff (s : σ) (v : BitVec n) : r.set s v = s ↔ v = r.get s := by
  constructor
  · intro h
    have hv := r.get_set s v
    rw [h] at hv
    exact hv.symm
  · rintro rfl
    exact r.set_get s

end Register

/-! ## Masked writes -/

section Masked
variable {n : Nat} (reg mask value : BitVec n)

/-- Replace the bits under `mask`. -/
def maskedReplace : BitVec n := (reg &&& ~~~mask) ||| (value &&& mask)

/-- Set the bits of `value` under `mask`. -/
def maskedSet : BitVec n := reg ||| (value &&& mask)

/-- Clear the bits of `value` under `mask`. -/
def maskedClear : BitVec n := reg &&& ~~~(value &&& mask)

theorem eq_iff_getLsbD (x y : BitVec n) : x = y ↔ ∀ i < n, x.getLsbD i = y.getLsbD i := by
  constructor
  · rintro rfl i _
    rfl
  · intro h
    exact BitVec.eq_of_getLsbD_eq h

theorem maskedReplace_eq_self_iff : maskedReplace reg mask value = reg ↔ (value ^^^ reg) &&& mask = 0 := by
  unfold maskedReplace
  rw [eq_iff_getLsbD, eq_iff_getLsbD]
  refine forall₂_congr fun i hi => ?_
  simp only [BitVec.getLsbD_or, BitVec.getLsbD_and, BitVec.getLsbD_not, BitVec.getLsbD_xor, hi]
  cases reg.getLsbD i <;> cases mask.getLsbD i <;> cases value.getLsbD i <;> simp

theorem maskedSet_eq_self_iff : maskedSet reg mask value = reg ↔ value &&& mask &&& ~~~reg = 0 := by
  unfold maskedSet
  rw [eq_iff_getLsbD, eq_iff_getLsbD]
  refine forall₂_congr fun i hi => ?_
  simp only [BitVec.getLsbD_or, BitVec.getLsbD_and, BitVec.getLsbD_not, hi]
  cases reg.getLsbD i <;> cases mask.getLsbD i <;> cases value.getLsbD i <;> simp

theorem maskedClear_eq_self_iff : maskedClear reg mask value = reg ↔ value &&& mask &&& reg = 0 := by
  unfold maskedClear
  rw [eq_iff_getLsbD, eq_iff_getLsbD]
  refine forall₂_congr fun i hi => ?_
  simp only [BitVec.getLsbD_and, BitVec.getLsbD_not, hi]
  cases reg.getLsbD i <;> cases mask.getLsbD i <;> cases value.getLsbD i <;> simp

end Masked

end Rv8.Lib
