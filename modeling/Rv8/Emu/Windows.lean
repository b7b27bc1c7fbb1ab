import Rv8.Emu.Memory
import Rv8.Lib.Footprint
/-!
# The register windows of the timer and of the interrupt signals

`timer_mmio_device` and `mipi_mmio_device` keep one register for each hart in an array
and let the guest access the array in any width. An access is a function of the bytes
from the first register on. The segment a device declares holds as many bytes as the
array has bits, so most of the window lies behind the array: behind the compare
registers of the timer stand its claimed flags, behind those and behind the registers
of the other device stands whatever else the host keeps there.
-/

namespace Rv8.Emu

open Rv8.Lib

/-! ## Arrays of bytes seen in other widths -/

/-- The accesses `load_8` to `load_64` and `store_8` to `store_64`. -/
inductive Width
  | w8 | w16 | w32 | w64
deriving DecidableEq

/-- An offset is shifted by so much to make an index. -/
def Width.shift : Width → Nat
  | .w8 => 0
  | .w16 => 1
  | .w32 => 2
  | .w64 => 3

def Width.bytes (w : Width) : Nat := 2 ^ w.shift

abbrev Bytes := Nat → UInt8

/-- The bytes of cell `index` of the array. -/
def cell (w : Width) (index : Nat) : Set Nat := {b | w.bytes * index ≤ b ∧ b < w.bytes * index + w.bytes}

/-- `*(as_u8() + index)`, and so on. -/
def peek (w : Width) (index : Nat) (m : Bytes) : Nat := leValue (fun i => m (w.bytes * index + i)) w.bytes

/-- `*(as_u8() + index) = val`, and so on. -/
def poke (w : Width) (index val : Nat) (m : Bytes) : Bytes := fun b =>
  if w.bytes * index ≤ b ∧ b < w.bytes * index + w.bytes then leByte val (b - w.bytes * index) else m b

variable {w : Width} {index val : Nat} {S : Set Nat}

theorem first_mem_cell : w.bytes * index ∈ cell w index := ⟨Nat.le_refl _, Nat.lt_add_of_pos_right (Nat.two_pow_pos _)⟩

theorem leValue_eq_zero {f : Nat → UInt8} {n : Nat} (h : leValue f n = 0) : ∀ i < n, f i = 0 := by
  induction n with
  | zero => exact fun i hi => absurd hi (Nat.not_lt_zero i)
  | succ n ih =>
    rw [leValue, Nat.add_eq_zero_iff, Nat.shiftLeft_eq_zero_iff] at h
    intro i hi
    rcases Nat.lt_succ_iff_lt_or_eq.1 hi with hi | rfl
    · exact ih h.1 i hi
    · exact UInt8.toNat_inj.1 h.2

/-- Reading a cell depends on each of its bytes. -/
theorem peek_readsOnly_iff : ReadsOnly (peek w index) S ↔ cell w index ⊆ S := by
  constructor
  · intro h b hb
    by_contra hS
    -- two storages that differ in byte `b` only
    have heq := h (fun _ => 0) (fun b' => if b' = b then 1 else 0) fun b' hb' => by
      rw [if_neg]
      rintro rfl
      exact hS hb'
    have hzero : peek w index (fun _ => 0) = 0 := by
      cases w <;> simp [peek, Width.bytes, Width.shift, leValue]
    have hbyte := leValue_eq_zero (heq.symm.trans hzero) (b - w.bytes * index) (by have := hb.1; have := hb.2; omega)
    have hself : w.bytes * index + (b - w.bytes * index) = b := by have := hb.1; omega
    rw [hself] at hbyte
    exact absurd ((if_pos rfl).symm.trans hbyte) (by decide)
  · intro h m m' heq
    refine leValue_congr fun i hi => heq _ (h ?_)
    exact ⟨by omega, by omega⟩

theorem poke_writesOnly (h : cell w index ⊆ S) : WritesOnly (poke w index val) S := by
  intro m b hb
  exact if_neg fun hc => hb (h hc)

/-- Whatever was done before, the last write to a cell shows in each of its bytes. -/
theorem cell_subset_of_writesOnly {f : Bytes → Bytes} (h : WritesOnly (fun m => poke w index val (f m)) S) :
    cell w index ⊆ S := by
  intro b hb
  by_contra hS
  have hkept : leByte val (b - w.bytes * index) = leByte val (b - w.bytes * index) + 1 :=
    (if_pos hb).symm.trans (h (fun _ => leByte val (b - w.bytes * index) + 1) b hS)
  simp at hkept

theorem peek_poke (m : Bytes) (hval : val < 2 ^ (8 * w.bytes)) : peek w index (poke w index val m) = val := by
  unfold peek
  refine (leValue_congr (g := leByte val) fun i hi => ?_).trans ?_
  · exact (if_pos ⟨by omega, by omega⟩).trans (by rw [Nat.add_sub_cancel_left])
  · rw [leValue_leByte, Nat.mod_eq_of_lt hval]

/-! ## The devices -/

section Window
variable (total : Nat) (w : Width) (va : Nat)

/-- The test of each load and store: `va < total_size`, `va < total_size - 1`, `- 3` and `- 7`. -/
def Tested : Prop := va < total - (w.bytes - 1)

instance : Decidable (Tested total w va) := inferInstanceAs (Decidable (_ < _))

/-- The loads of both devices. -/
def windowLoad (m : Bytes) : Nat := if Tested total w va then peek w (va >>> w.shift) m else 0

end Window

namespace Timer

variable (NUM_HARTS : Nat)

/-- `sizeof(u64) << 3`. -/
def bits_per_word : Nat := 8 <<< 3

def total_size : Nat := bits_per_word * NUM_HARTS

/-- `load_8` to `load_64`. -/
def load (w : Width) (va : Nat) : Bytes → Nat := windowLoad (total_size NUM_HARTS) w va

/-- `claimed[i] = val`: the flags follow the compare registers. -/
def setClaimed (i val : Nat) : Bytes → Bytes := poke .w64 (NUM_HARTS + i) val

/-- `store_8` to `store_64`. -/
def store (w : Width) (va val : Nat) (m : Bytes) : Bytes :=
  if Tested (total_size NUM_HARTS) w va then setClaimed NUM_HARTS (va >>> 3) 0 (poke w (va >>> w.shift) val m) else m

/-- The compare register of a hart, empty where there is no such hart. -/
def timecmp (hart : Nat) : Set Nat := {b | hart < NUM_HARTS ∧ b ∈ cell .w64 hart}

/-- The claimed flag of a hart. -/
def claimed (hart : Nat) : Set Nat := {b | hart < NUM_HARTS ∧ b ∈ cell .w64 (NUM_HARTS + hart)}

end Timer

namespace Mipi

variable (NUM_HARTS : Nat)

/-- `sizeof(u32) << 3`. -/
def bits_per_word : Nat := 4 <<< 3

def total_size : Nat := bits_per_word * NUM_HARTS

/-- `load_8` to `load_64`. -/
def load (w : Width) (va : Nat) : Bytes → Nat := windowLoad (total_size NUM_HARTS) w va

/-- `store_8` to `store_64`. -/
def store (w : Width) (va val : Nat) (m : Bytes) : Bytes :=
  if Tested (total_size NUM_HARTS) w va then poke w (va >>> w.shift) val m else m

/-- `signal_ipi`. Its index is `num_harts`, not `hart_id`, and `value` is not used. -/
def signal_ipi (hart_id : Nat) (_value : Nat) (m : Bytes) : Bytes :=
  if NUM_HARTS ≤ hart_id then m
  else poke .w32 NUM_HARTS (peek .w32 NUM_HARTS m ||| 1 <<< (hart_id &&& (bits_per_word - 1))) m

/-- The register of a hart, empty where there is no such hart. -/
def hart (hart_id : Nat) : Set Nat := {b | hart_id < NUM_HARTS ∧ b ∈ cell .w32 hart_id}

end Mipi

/-! ## Which accesses stay with their hart -/

inductive WindowAccess
  | timerLoad (w : Width) (va : Nat)
  | timerStore (w : Width) (va val : Nat)
  | mipiLoad (w : Width) (va : Nat)
  | mipiStore (w : Width) (va val : Nat)
  | signalIpi (hart_id value : Nat)

namespace WindowAccess

variable (NUM_HARTS : Nat)

/-- The offset lies in the declared segment, the hart exists. -/
def Valid : WindowAccess → Prop
  | timerLoad _ va => va < Timer.total_size NUM_HARTS
  | timerStore _ va _ => va < Timer.total_size NUM_HARTS
  | mipiLoad _ va => va < Mipi.total_size NUM_HARTS
  | mipiStore _ va _ => va < Mipi.total_size NUM_HARTS
  | signalIpi hart_id _ => hart_id < NUM_HARTS

/-- Only the register of the hart the offset belongs to is touched, and by a store to the timer the claimed flag of that hart. -/
def Confined : WindowAccess → Prop
  | timerLoad w va => ReadsOnly (Timer.load NUM_HARTS w va) (Timer.timecmp NUM_HARTS (va / 8))
  | timerStore w va val =>
    WritesOnly (Timer.store NUM_HARTS w va val) (Timer.timecmp NUM_HARTS (va / 8) ∪ Timer.claimed NUM_HARTS (va / 8))
  | mipiLoad w va => ReadsOnly (Mipi.load NUM_HARTS w va) (Mipi.hart NUM_HARTS (va / 4))
  | mipiStore w va val => WritesOnly (Mipi.store NUM_HARTS w va val) (Mipi.hart NUM_HARTS (va / 4))
  | signalIpi hart_id value => WritesOnly (Mipi.signal_ipi NUM_HARTS hart_id value) (Mipi.hart NUM_HARTS hart_id)

/-- The offset is one of the array's bytes, 8 or 4 for each hart, or too near the end of the segment for the width. A
64-bit access never fits the 32-bit registers. -/
def Fits : WindowAccess → Prop
  | timerLoad w va => va < 8 * NUM_HARTS ∨ Timer.total_size NUM_HARTS < va + w.bytes
  | timerStore w va _ => va < 8 * NUM_HARTS ∨ Timer.total_size NUM_HARTS < va + w.bytes
  | mipiLoad w va => va < 4 * NUM_HARTS ∧ w ≠ .w64 ∨ Mipi.total_size NUM_HARTS < va + w.bytes
  | mipiStore w va _ => va < 4 * NUM_HARTS ∧ w ≠ .w64 ∨ Mipi.total_size NUM_HARTS < va + w.bytes
  | signalIpi _ _ => False

end WindowAccess

section Confined
variable {NUM_HARTS va : Nat}

theorem tested_iff {total : Nat} : Tested total w va ↔ va + w.bytes ≤ total := by
  have hpos : 0 < w.bytes := Nat.two_pow_pos _
  unfold Tested
  omega

theorem cell_subset_timecmp_iff : cell w (va >>> w.shift) ⊆ Timer.timecmp NUM_HARTS (va / 8) ↔ va < 8 * NUM_HARTS := by
  constructor
  · intro h
    have := (h first_mem_cell).1
    omega
  · intro h b hb
    refine ⟨by omega, ?_⟩
    cases w <;> simp only [cell, Width.bytes, Width.shift, Set.mem_ofPred_eq, Nat.shiftRight_eq_div_pow] at hb ⊢ <;> omega

theorem cell_subset_hart_iff :
    cell w (va >>> w.shift) ⊆ Mipi.hart NUM_HARTS (va / 4) ↔ va < 4 * NUM_HARTS ∧ w ≠ .w64 := by
  constructor
  · intro h
    have hhart := (h first_mem_cell).1
    refine ⟨by omega, ?_⟩
    rintro rfl
    -- bytes 0 and 4 of one 64-bit cell belong to two registers
    have hmid : 8 * (va >>> 3) + 4 ∈ cell .w64 (va >>> 3) := ⟨Nat.le_add_right _ _, Nat.add_lt_add_left (by decide) _⟩
    have hlow := (h first_mem_cell).2
    have hhigh := (h hmid).2
    simp only [cell, Width.bytes, Width.shift, Set.mem_ofPred_eq] at hlow hhigh
    omega
  · rintro ⟨h, hw⟩ b hb
    refine ⟨by omega, ?_⟩
    cases w <;> simp only [cell, Width.bytes, Width.shift, Set.mem_ofPred_eq, Nat.shiftRight_eq_div_pow] at hb ⊢ <;>
      first | exact absurd rfl hw | omega

theorem windowLoad_readsOnly_iff {total : Nat} :
    ReadsOnly (windowLoad total w va) S ↔ cell w (va >>> w.shift) ⊆ S ∨ total < va + w.bytes := by
  by_cases h : Tested total w va
  · have heq : windowLoad total w va = peek w (va >>> w.shift) := funext fun m => if_pos h
    rw [heq, peek_readsOnly_iff, or_iff_left (by rw [tested_iff] at h; omega)]
  · have heq : windowLoad total w va = fun _ => 0 := funext fun m => if_neg h
    rw [heq]
    refine iff_of_true (readsOnly_const 0 S) (.inr ?_)
    rw [tested_iff] at h
    omega

theorem setClaimed_writesOnly (h : va < 8 * NUM_HARTS) :
    WritesOnly (Timer.setClaimed NUM_HARTS (va >>> 3) val) (Timer.claimed NUM_HARTS (va / 8)) := by
  refine poke_writesOnly fun b hb => ⟨by omega, ?_⟩
  rw [Nat.shiftRight_eq_div_pow] at hb
  exact hb

theorem timer_store_writesOnly_iff :
    WritesOnly (Timer.store NUM_HARTS w va val) (Timer.timecmp NUM_HARTS (va / 8) ∪ Timer.claimed NUM_HARTS (va / 8)) ↔
      va < 8 * NUM_HARTS ∨ Timer.total_size NUM_HARTS < va + w.bytes := by
  by_cases ht : Tested (Timer.total_size NUM_HARTS) w va
  · rw [or_iff_left (by rw [tested_iff] at ht; omega)]
    have heq : Timer.store NUM_HARTS w va val =
        fun m => Timer.setClaimed NUM_HARTS (va >>> 3) 0 (poke w (va >>> w.shift) val m) := funext fun m => if_pos ht
    rw [heq]
    constructor
    · -- the write of the flag alone is outside every register and flag
      intro hw
      have hcell := cell_subset_of_writesOnly hw
      have hhart : va / 8 < NUM_HARTS := (hcell first_mem_cell).elim And.left And.left
      omega
    · intro hlt
      have hreg : WritesOnly (poke w (va >>> w.shift) val) _ := poke_writesOnly (cell_subset_timecmp_iff.2 hlt)
      exact ((setClaimed_writesOnly hlt).mono Set.subset_union_right).comp (hreg.mono Set.subset_union_left)
  · have heq : Timer.store NUM_HARTS w va val = fun m => m := funext fun m => if_neg ht
    rw [heq]
    refine iff_of_true (writesOnly_id _) (.inr ?_)
    rw [tested_iff] at ht
    omega

theorem mipi_store_writesOnly_iff :
    WritesOnly (Mipi.store NUM_HARTS w va val) (Mipi.hart NUM_HARTS (va / 4)) ↔
      va < 4 * NUM_HARTS ∧ w ≠ .w64 ∨ Mipi.total_size NUM_HARTS < va + w.bytes := by
  by_cases ht : Tested (Mipi.total_size NUM_HARTS) w va
  · have heq : Mipi.store NUM_HARTS w va val = poke w (va >>> w.shift) val := funext fun m => if_pos ht
    rw [heq, or_iff_left (by rw [tested_iff] at ht; omega), ← cell_subset_hart_iff]
    exact ⟨fun h => cell_subset_of_writesOnly (f := fun m => m) h, poke_writesOnly⟩
  · have heq : Mipi.store NUM_HARTS w va val = fun m => m := funext fun m => if_neg ht
    rw [heq]
    refine iff_of_true (writesOnly_id _) (.inr ?_)
    rw [tested_iff] at ht
    omega

/-- A signal sets a bit behind the registers, whichever hart it is for. -/
theorem signal_ipi_not_writesOnly {hart_id value : Nat} (h : hart_id < NUM_HARTS) :
    ¬ WritesOnly (Mipi.signal_ipi NUM_HARTS hart_id value) (Mipi.hart NUM_HARTS hart_id) := by
  intro hw
  have hbit : hart_id &&& (Mipi.bits_per_word - 1) < 32 := Nat.lt_succ_of_le Nat.and_le_right
  have hzero : peek .w32 NUM_HARTS (fun _ => 0) = 0 := by simp [peek, Width.bytes, Width.shift, leValue]
  have heq : Mipi.signal_ipi NUM_HARTS hart_id value (fun _ => 0) =
      poke .w32 NUM_HARTS (1 <<< (hart_id &&& (Mipi.bits_per_word - 1))) fun _ => 0 := by
    unfold Mipi.signal_ipi
    rw [if_neg (by omega), hzero, Nat.zero_or]
  have hread : peek .w32 NUM_HARTS (Mipi.signal_ipi NUM_HARTS hart_id value fun _ => 0) =
      1 <<< (hart_id &&& (Mipi.bits_per_word - 1)) := by
    rw [heq, peek_poke]
    rw [Nat.one_shiftLeft]
    exact Nat.pow_lt_pow_right (by decide) hbit
  -- the bytes behind the registers would have to be as they were
  have hkept : peek .w32 NUM_HARTS (Mipi.signal_ipi NUM_HARTS hart_id value fun _ => 0) = 0 := by
    rw [← hzero]
    refine leValue_congr fun i hi => hw _ _ ?_
    rintro ⟨-, -, hhi⟩
    simp only [Width.bytes, Width.shift] at hi hhi
    omega
  rw [hread, Nat.one_shiftLeft] at hkept
  exact absurd hkept (Nat.two_pow_pos _).ne'

end Confined

/-- An access stays with its hart exactly if its offset is one of the register array, or the access is refused. -/
theorem windowAccess_confined_iff {NUM_HARTS : Nat} (a : WindowAccess) (h : a.Valid NUM_HARTS) :
    a.Confined NUM_HARTS ↔ a.Fits NUM_HARTS := by
  cases a with
  | timerLoad w va => exact windowLoad_readsOnly_iff.trans (or_congr_left cell_subset_timecmp_iff)
  | timerStore w va val => exact timer_store_writesOnly_iff
  | mipiLoad w va => exact windowLoad_readsOnly_iff.trans (or_congr_left cell_subset_hart_iff)
  | mipiStore w va val => exact mipi_store_writesOnly_iff
  | signalIpi hart_id value => exact iff_of_false (signal_ipi_not_writesOnly h) id

/-- A 64-bit store to the compare register of hart 1 of 4. -/
theorem windowAccess_confined_iff_timer :
    (WindowAccess.timerStore .w64 8 1000).Confined 4 ∧ (WindowAccess.timerStore .w64 8 1000).Fits 4 :=
  have hfits : (WindowAccess.timerStore .w64 8 1000).Fits 4 := .inl (by decide)
  have hvalid : (WindowAccess.timerStore .w64 8 1000).Valid 4 := show 8 < Timer.total_size 4 by decide
  ⟨(windowAccess_confined_iff _ hvalid).2 hfits, hfits⟩

/-- Offset 32 of the timer of 4 harts lies in the segment; a store there writes a claimed flag and what follows the device. -/
theorem not_confined_timer : ¬ ∀ (NUM_HARTS : Nat) (a : WindowAccess), a.Valid NUM_HARTS → a.Confined NUM_HARTS := by
  intro h
  have hvalid : 32 < Timer.total_size 4 := by decide
  have hkept := h 4 (.timerStore .w64 32 1) hvalid (fun _ => 0) 32 (by rintro (h | h) <;> exact absurd h.1 (by decide))
  exact absurd hkept (by decide)

end Rv8.Emu
