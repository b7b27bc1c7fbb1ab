import Mathlib.Data.List.GetD
import Mathlib.Data.List.Induction
import Mathlib.Tactic.Ring
/-!
# Binary digits

The number that a list of digits stands for, the highest digit first. Lists one after
another are the first number shifted by the length of the second.
-/

namespace Rv8.Lib.Digits

def value (bs : List Bool) : Nat := bs.foldl (fun v b => 2 * v + b.toNat) 0

variable {bs cs : List Bool}

@[simp] theorem value_nil : value [] = 0 := rfl

theorem value_concat (bs : List Bool) (b : Bool) : value (bs ++ [b]) = 2 * value bs + b.toNat := by
  simp [value]

theorem value_append (bs cs : List Bool) : value (bs ++ cs) = value bs * 2 ^ cs.length + value cs := by
  induction cs using List.reverseRecOn with
  | nil => simp
  | append_singleton cs c ih =>
    rw [← List.append_assoc, value_concat, ih, value_concat, List.length_append, List.length_singleton, pow_succ]
    ring

theorem value_lt (bs : List Bool) : value bs < 2 ^ bs.length := by
  induction bs using List.reverseRecOn with
  | nil => exact Nat.one_pos
  | append_singleton bs b ih =>
    rw [value_concat, List.length_append, List.length_singleton, pow_succ]
    have hb : b.toNat ≤ 1 := Bool.toNat_le b
    omega

/-- The digit `j` from the lowest. -/
theorem testBit_value (bs : List Bool) (j : Nat) : (value bs).testBit j = bs.reverse.getD j false := by
  induction bs using List.reverseRecOn generalizing j with
  | nil => simp
  | append_singleton bs b ih =>
    rw [value_concat, List.reverse_append, List.reverse_singleton, List.singleton_append]
    have hdiv : (2 * value bs + b.toNat) / 2 = value bs := by
      have hb : b.toNat ≤ 1 := Bool.toNat_le b
      omega
    cases j with
    | zero =>
      rw [List.getD_cons_zero, Nat.testBit_zero]
      cases b <;> simp [Nat.add_mod]
    | succ j => rw [List.getD_cons_succ, Nat.testBit_succ, hdiv, ih]

theorem testBit_value_map_range (n : Nat) (f : Nat → Bool) (j : Nat) :
    (value ((List.range n).map f)).testBit j = (decide (j < n) && f (n - 1 - j)) := by
  rw [testBit_value]
  by_cases hj : j < n
  · rw [List.getD_eq_getElem _ _ (by simpa using hj), List.getElem_reverse]
    simp [hj]
  · rw [List.getD_eq_default _ _ (by simpa using hj), decide_eq_false hj, Bool.false_and]

/-- Two numbers side by side, without a carry. -/
theorem value_append_eq_or (bs cs : List Bool) : value (bs ++ cs) = value bs <<< cs.length ||| value cs := by
  rw [value_append, ← Nat.shiftLeft_eq, Nat.shiftLeft_add_eq_or_of_lt (value_lt cs)]

end Rv8.Lib.Digits
