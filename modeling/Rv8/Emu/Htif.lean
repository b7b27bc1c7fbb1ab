import Mathlib.Data.BitVec
import Rv8.Lib.Prog
/-!
# The host-target interface

`htif_mmio_device` of `device-htif.h`: a guest writes a command to `tohost`, and the
device handles it at once. A 64-bit guest writes it in one store, a 32-bit guest in two
halves, and the device looks at `tohost` after each of them.
-/

namespace Rv8.Emu

open Rv8.Lib

/-- The registers, and the characters written to the console, the last one first. -/
structure Htif where
  (tohost fromhost : BitVec 64)
  console : List (BitVec 8)

namespace Htif

/-- `proc.raise(P::internal_cause_poweroff, proc.pc)` leaves the store and the run loop. -/
inductive Raise
  | poweroff

def device_command (device command : BitVec 8) : BitVec 64 := (device.setWidth 64 <<< 56) ||| (command.setWidth 64 <<< 48)

def device (var : BitVec 64) : BitVec 8 := (var >>> 56).setWidth 8

def command (var : BitVec 64) : BitVec 8 := ((var >>> 48) &&& 0xff).setWidth 8

/-- `handle_output`. -/
def handleOutput : Prog Raise Htif Unit := fun d =>
  if d.tohost = 1 then .error .poweroff d
  else if device d.tohost = 1 then
    if command d.tohost = 0 then .ok () { d with tohost := 0, fromhost := device_command (device d.tohost) (command d.tohost) }
    else if command d.tohost = 1 then
      .ok () { tohost := 0, fromhost := device_command (device d.tohost) (command d.tohost)
               console := (d.tohost &&& 0xff).setWidth 8 :: d.console }
    else .ok () d
  else .ok () d

/-- `(x & (u64(-1) << 32)) | val` -/
def setLow (x : BitVec 64) (val : BitVec 32) : BitVec 64 := (x &&& (BitVec.allOnes 64 <<< 32)) ||| val.setWidth 64

/-- `(x & (u64(-1) >> 32)) | (u64(val) << 32)` -/
def setHigh (x : BitVec 64) (val : BitVec 32) : BitVec 64 := (x &&& (BitVec.allOnes 64 >>> 32)) ||| (val.setWidth 64 <<< 32)

/-- `store_32`. -/
def store32 (va : Nat) (val : BitVec 32) : Prog Raise Htif Unit := do
  if va = 0 then
    .modify fun d => { d with tohost := setLow d.tohost val }
    handleOutput
  else if va = 4 then
    .modify fun d => { d with tohost := setHigh d.tohost val }
    handleOutput
  else if va = 8 then .modify fun d => { d with fromhost := setLow d.fromhost val }
  else if va = 12 then .modify fun d => { d with fromhost := setHigh d.fromhost val }
  else pure ()

/-- `store_64`. -/
def store64 (va : Nat) (val : BitVec 64) : Prog Raise Htif Unit := do
  if va = 0 then
    .modify fun d => { d with tohost := val }
    handleOutput
  else if va = 8 then .modify fun d => { d with fromhost := val }
  else pure ()

/-! ## Halves -/

def low (v : BitVec 64) : BitVec 32 := v.setWidth 32

def high (v : BitVec 64) : BitVec 32 := (v >>> 32).setWidth 32

theorem getLsbD_setLow (x : BitVec 64) (val : BitVec 32) {i : Nat} (hi : i < 64) :
    (setLow x val).getLsbD i = if i < 32 then val.getLsbD i else x.getLsbD i := by
  unfold setLow
  simp only [BitVec.getLsbD_or, BitVec.getLsbD_and, BitVec.getLsbD_setWidth, BitVec.getLsbD_shiftLeft, BitVec.getLsbD_allOnes]
  by_cases h : i < 32
  · simp [h, hi]
  · simp [h, hi, BitVec.getLsbD_of_ge val i (by omega), show i - 32 < 64 by omega]

theorem getLsbD_setHigh (x : BitVec 64) (val : BitVec 32) {i : Nat} (hi : i < 64) :
    (setHigh x val).getLsbD i = if i < 32 then x.getLsbD i else val.getLsbD (i - 32) := by
  unfold setHigh
  simp only [BitVec.getLsbD_or, BitVec.getLsbD_and, BitVec.getLsbD_setWidth, BitVec.getLsbD_shiftLeft, BitVec.getLsbD_ushiftRight,
    BitVec.getLsbD_allOnes]
  by_cases h : i < 32
  · simp [h, show 32 + i < 64 by omega]
  · simp [h, hi, show ¬ 32 + i < 64 by omega, show i - 32 < 64 by omega]

theorem getLsbD_high (v : BitVec 64) {i : Nat} (h : 32 ≤ i) (hi : i < 64) : (high v).getLsbD (i - 32) = v.getLsbD i := by
  unfold high
  rw [BitVec.getLsbD_setWidth, BitVec.getLsbD_ushiftRight, show 32 + (i - 32) = i by omega]
  simp [show i - 32 < 32 by omega]

theorem getLsbD_low (v : BitVec 64) {i : Nat} (h : i < 32) : (low v).getLsbD i = v.getLsbD i := by
  unfold low
  simp [h]

/-- The low half first, then the high half, make the command. -/
theorem setHigh_setLow (v : BitVec 64) : setHigh (setLow 0 (low v)) (high v) = v := by
  apply BitVec.eq_of_getLsbD_eq
  intro i hi
  rw [getLsbD_setHigh _ _ hi]
  split
  · next h => rw [getLsbD_setLow _ _ hi, if_pos h, getLsbD_low v h]
  · next h => exact getLsbD_high v (by omega) hi

/-- So do the halves the other way round. -/
theorem setLow_setHigh (v : BitVec 64) : setLow (setHigh 0 (high v)) (low v) = v := by
  apply BitVec.eq_of_getLsbD_eq
  intro i hi
  rw [getLsbD_setLow _ _ hi]
  split
  · next h => exact getLsbD_low v h
  · next h => rw [getLsbD_setHigh _ _ hi, if_neg h, getLsbD_high v (by omega) hi]

theorem setLow_zero (val : BitVec 32) : setLow 0 val = val.setWidth 64 := by
  unfold setLow
  simp

/-- Device and command are in the high half. -/
theorem device_setHigh (v : BitVec 64) : device (setHigh 0 (high v)) = device v := by
  unfold device
  apply BitVec.eq_of_getLsbD_eq
  intro i hi
  rw [BitVec.getLsbD_setWidth, BitVec.getLsbD_setWidth, BitVec.getLsbD_ushiftRight, BitVec.getLsbD_ushiftRight,
    getLsbD_setHigh _ _ (by omega), if_neg (by omega), getLsbD_high v (by omega) (by omega)]

theorem command_setHigh (v : BitVec 64) : command (setHigh 0 (high v)) = command v := by
  unfold command
  apply BitVec.eq_of_getLsbD_eq
  intro i hi
  rw [BitVec.getLsbD_setWidth, BitVec.getLsbD_setWidth, BitVec.getLsbD_and, BitVec.getLsbD_and, BitVec.getLsbD_ushiftRight,
    BitVec.getLsbD_ushiftRight, getLsbD_setHigh _ _ (by omega), if_neg (by omega), getLsbD_high v (by omega) (by omega)]

theorem device_setLow (val : BitVec 32) : device (setLow 0 val) = 0 := by
  unfold device
  apply BitVec.eq_of_getLsbD_eq
  intro i hi
  rw [BitVec.getLsbD_setWidth, BitVec.getLsbD_ushiftRight, getLsbD_setLow _ _ (by omega), if_neg (by omega)]
  simp

theorem setHigh_ne_one (val : BitVec 32) : setHigh 0 val ≠ 1 := by
  intro h
  have hbit := getLsbD_setHigh 0 val (show 0 < 64 by decide)
  rw [h] at hbit
  simp at hbit

theorem setLow_eq_one_iff (val : BitVec 32) : setLow 0 val = 1 ↔ val = 1 := by
  rw [setLow_zero, ← BitVec.toNat_inj, ← BitVec.toNat_inj, BitVec.toNat_setWidth_of_le (by decide)]
  exact Iff.rfl

theorem setLow_eq_zero_iff (val : BitVec 32) : setLow 0 val = 0 ↔ val = 0 := by
  rw [setLow_zero, ← BitVec.toNat_inj, ← BitVec.toNat_inj, BitVec.toNat_setWidth_of_le (by decide)]
  exact Iff.rfl

/-! ## What is handled -/

/-- A command of the console, which is device 1. -/
def Handled (v : BitVec 64) : Prop := device v = 1 ∧ (command v = 0 ∨ command v = 1)

instance (v : BitVec 64) : Decidable (Handled v) := inferInstanceAs (Decidable (_ ∧ _))

/-- The state after the command is handled. -/
def answer (d : Htif) : Htif where
  tohost := 0
  fromhost := device_command (device d.tohost) (command d.tohost)
  console := if command d.tohost = 1 then (d.tohost &&& 0xff).setWidth 8 :: d.console else d.console

theorem handleOutput_of_ne {d : Htif} (h : d.tohost ≠ 1) :
    handleOutput d = .ok () (if Handled d.tohost then answer d else d) := by
  unfold handleOutput
  rw [if_neg h]
  by_cases hd : device d.tohost = 1
  · rw [if_pos hd]
    by_cases h0 : command d.tohost = 0
    · have hv : Handled d.tohost := ⟨hd, .inl h0⟩
      rw [if_pos h0, if_pos hv]
      unfold answer
      rw [h0]
      rfl
    · rw [if_neg h0]
      by_cases h1 : command d.tohost = 1
      · have hv : Handled d.tohost := ⟨hd, .inr h1⟩
        rw [if_pos h1, if_pos hv]
        unfold answer
        rw [if_pos h1]
      · have hv : ¬ Handled d.tohost := fun hv => hv.2.elim h0 h1
        rw [if_neg h1, if_neg hv]
  · have hv : ¬ Handled d.tohost := fun hv => hd hv.1
    rw [if_neg hd, if_neg hv]

theorem handleOutput_of_one {d : Htif} (h : d.tohost = 1) : handleOutput d = .error .poweroff d := if_pos h

theorem Handled.ne_one {v : BitVec 64} (h : Handled v) : v ≠ 1 := by
  rintro rfl
  exact absurd h (by decide)

theorem handled_setHigh (v : BitVec 64) : Handled (setHigh 0 (high v)) ↔ Handled v := by
  unfold Handled
  rw [device_setHigh, command_setHigh]

theorem not_handled_setLow (val : BitVec 32) : ¬ Handled (setLow 0 val) := by
  rintro ⟨h, -⟩
  rw [device_setLow] at h
  exact absurd h (by decide)

/-! ## Two halves against one store -/

def lowFirst (v : BitVec 64) : Prog Raise Htif Unit := do
  store32 0 (low v)
  store32 4 (high v)

def highFirst (v : BitVec 64) : Prog Raise Htif Unit := do
  store32 4 (high v)
  store32 0 (low v)

/-- The low half alone is taken for the power-off command, or for none. -/
theorem lowFirst_eq {d : Htif} (h : d.tohost = 0) (v : BitVec 64) :
    lowFirst v d = if low v = 1 then .error .poweroff { d with tohost := 1 } else store64 0 v d := by
  have hfirst : store32 0 (low v) d = handleOutput { d with tohost := setLow 0 (low v) } := by
    rw [← h]
    rfl
  have hone := setLow_eq_one_iff (low v)
  split
  · next hv =>
    rw [← hone] at hv
    refine Prog.bind_error (hfirst.trans ?_)
    rw [hv]
    rfl
  · next hv =>
    rw [← hone] at hv
    have hok := handleOutput_of_ne (d := { d with tohost := setLow 0 (low v) }) hv
    rw [if_neg (not_handled_setLow _)] at hok
    refine (Prog.bind_ok (hfirst.trans hok)).trans ?_
    show handleOutput { d with tohost := setHigh (setLow 0 (low v)) (high v) } = _
    rw [setHigh_setLow]
    rfl

/-- The high half alone is a command to the console if the whole is, with a character of 0. -/
theorem highFirst_eq {d : Htif} (h : d.tohost = 0) (v : BitVec 64) :
    highFirst v d =
      if Handled v then handleOutput { answer { d with tohost := setHigh 0 (high v) } with tohost := setLow 0 (low v) }
      else store64 0 v d := by
  have hfirst : store32 4 (high v) d = handleOutput { d with tohost := setHigh 0 (high v) } := by
    rw [← h]
    rfl
  have hok := hfirst.trans (handleOutput_of_ne (d := { d with tohost := setHigh 0 (high v) }) (setHigh_ne_one _))
  refine (Prog.bind_ok hok).trans ?_
  simp only [handled_setHigh]
  split
  · rfl
  · show handleOutput { d with tohost := setLow (setHigh 0 (high v)) (low v) } = _
    rw [setLow_setHigh]
    rfl

theorem lowFirst_iff {d : Htif} (h : d.tohost = 0) (v : BitVec 64) :
    lowFirst v d = store64 0 v d ↔ (low v = 1 → high v = 0) := by
  rw [lowFirst_eq h]
  split
  · next hv =>
    constructor
    · intro heq _
      by_contra hne
      have hone : v ≠ 1 := by
        rintro rfl
        exact hne (by decide)
      have hok := heq.trans (handleOutput_of_ne (d := { d with tohost := v }) hone)
      cases hok
    · intro hhigh
      have hone : v = 1 := by
        rw [← setHigh_setLow v, hv, hhigh hv]
        decide
      subst hone
      rfl
  · next hv => exact iff_of_true rfl fun h => absurd h hv

theorem highFirst_iff {d : Htif} (h : d.tohost = 0) (v : BitVec 64) :
    highFirst v d = store64 0 v d ↔ (Handled v → low v = 0) := by
  rw [highFirst_eq h]
  split
  · next hv =>
    have hstore : store64 0 v d = .ok () (answer { d with tohost := v }) := by
      refine (handleOutput_of_ne (d := { d with tohost := v }) hv.ne_one).trans ?_
      rw [if_pos hv]
    rw [hstore]
    constructor
    · intro heq _
      by_cases hone : low v = 1
      · rw [handleOutput_of_one ((setLow_eq_one_iff _).2 hone)] at heq
        cases heq
      · rw [handleOutput_of_ne fun h => hone ((setLow_eq_one_iff _).1 h), if_neg (not_handled_setLow _)] at heq
        exact (setLow_eq_zero_iff _).1 (congrArg Htif.tohost (Outcome.ok.inj heq).2)
    · intro hlow
      have hzero : setLow 0 (low v) = 0 := (setLow_eq_zero_iff _).2 (hlow hv)
      have hhigh : setHigh 0 (high v) = v := by
        have hv := setHigh_setLow v
        rwa [hzero] at hv
      have hnone : ¬ Handled 0 := by decide
      have hne : (0 : BitVec 64) ≠ 1 := by decide
      rw [hzero, hhigh]
      refine (handleOutput_of_ne (d := { answer { d with tohost := v } with tohost := 0 }) hne).trans ?_
      exact congrArg (Outcome.ok ()) (if_neg hnone)
  · next hv => exact iff_of_true rfl fun h => absurd h hv

/-- Both orders do what one store does exactly if neither half alone passes for a command: the low half is 1 only in the
power-off command, and a command to the console has a low half of 0. -/
theorem halves_iff {d : Htif} (h : d.tohost = 0) (v : BitVec 64) :
    (lowFirst v d = store64 0 v d ∧ highFirst v d = store64 0 v d) ↔
      (low v = 1 → high v = 0) ∧ (Handled v → low v = 0) :=
  and_congr (lowFirst_iff h v) (highFirst_iff h v)

def fresh : Htif := ⟨0, 0, []⟩

/-- The power-off command. -/
theorem halves_iff_poweroff : lowFirst 1 fresh = store64 0 1 fresh ∧ highFirst 1 fresh = store64 0 1 fresh :=
  (halves_iff rfl 1).2 ⟨by decide, by decide⟩

/-- Printing an A, the high half first, prints a NUL. -/
theorem not_halves_print : ¬ ∀ (d : Htif) (v : BitVec 64), d.tohost = 0 →
    lowFirst v d = store64 0 v d ∧ highFirst v d = store64 0 v d := by
  intro h
  have hlow := (highFirst_iff rfl _).1 (h fresh 0x0101000000000041 rfl).2
  exact absurd (hlow (by decide)) (by decide)

end Htif

end Rv8.Emu
