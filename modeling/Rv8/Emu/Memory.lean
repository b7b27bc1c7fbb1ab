import Mathlib.Tactic.Linarith
import Rv8.Lib.Prog
/-!
# Physical memory

`user_memory` of `mmu-memory.h`: a list of segments of the physical address space,
each mapped to bytes of the host. An access goes to the first segment that holds its
first byte, and the bytes that follow are taken from the same mapping. Values are
little-endian. The segments are plain memory (`mmap_memory_segment`); devices, which
derive from the same bus, are not modelled here.
-/

namespace Rv8.Emu

open Rv8.Lib

/-! ## Little-endian values -/

/-- The value of the `n` bytes of `f`. -/
def leValue (f : Nat → UInt8) : Nat → Nat
  | 0 => 0
  | n + 1 => leValue f n + (f n).toNat <<< (8 * n)

/-- Byte `i` of a value. -/
def leByte (val i : Nat) : UInt8 := UInt8.ofNat (val >>> (8 * i))

theorem leValue_zero (f : Nat → UInt8) : leValue f 0 = 0 := rfl

theorem leValue_succ (f : Nat → UInt8) (n : Nat) : leValue f (n + 1) = leValue f n + (f n).toNat <<< (8 * n) := rfl

theorem leValue_congr {f g : Nat → UInt8} {n : Nat} (h : ∀ i < n, f i = g i) : leValue f n = leValue g n := by
  induction n with
  | zero => rfl
  | succ n ih => rw [leValue_succ, leValue_succ, ih fun i hi => h i (by omega), h n (by omega)]

theorem leValue_lt (f : Nat → UInt8) (n : Nat) : leValue f n < 2 ^ (8 * n) := by
  induction n with
  | zero => simp [leValue_zero]
  | succ n ih =>
    have := (f n).toNat_lt
    rw [leValue_succ, Nat.shiftLeft_eq, Nat.mul_succ, pow_add]
    nlinarith [Nat.two_pow_pos (8 * n)]

theorem leValue_add (f : Nat → UInt8) (n k : Nat) :
    leValue f (n + k) = leValue f n + leValue (fun i => f (n + i)) k <<< (8 * n) := by
  induction k with
  | zero => simp [leValue_zero]
  | succ k ih =>
    rw [← Nat.add_assoc, leValue_succ, ih, leValue_succ, Nat.mul_add, Nat.add_assoc]
    simp only [Nat.shiftLeft_eq, pow_add, Nat.add_mul, Nat.mul_assoc, Nat.mul_comm (2 ^ (8 * n))]

/-- The bytes of a value make the value again. -/
theorem leValue_leByte (val n : Nat) : leValue (leByte val) n = val % 2 ^ (8 * n) := by
  induction n with
  | zero => simp [leValue_zero, Nat.mod_one]
  | succ n ih =>
    rw [leValue_succ, ih, Nat.mul_succ, pow_add, Nat.mod_mul, Nat.shiftLeft_eq, Nat.mul_comm (2 ^ (8 * n))]
    simp [leByte, Nat.shiftRight_eq_div_pow]

/-! ## Segments -/

structure Segment where
  (mpa size : Nat)

/-- `mpa >= seg->mpa && ((mpa < seg->mpa + seg->size) || (seg->mpa + seg->size == 0))`, in 64 bits. -/
def Segment.Holds (seg : Segment) (mpa : Nat) : Prop :=
  seg.mpa ≤ mpa ∧ (mpa < (seg.mpa + seg.size) % 2 ^ 64 ∨ (seg.mpa + seg.size) % 2 ^ 64 = 0)

instance (seg : Segment) (mpa : Nat) : Decidable (seg.Holds mpa) := inferInstanceAs (Decidable (_ ∧ _))

/-- The host bytes of a segment are given by its position in the list and the offset from its base. -/
structure UserMemory where
  segments : List Segment
  host : Nat → Nat → UInt8

/-- The first segment that holds `mpa`, counted from `k`, and the offset in it. -/
def mpaToUva (mpa : Nat) : List Segment → Nat → Option (Nat × Nat)
  | [], _ => none
  | seg :: segments, k => if seg.Holds mpa then some (k, mpa - seg.mpa) else mpaToUva mpa segments (k + 1)

namespace UserMemory

variable (m : UserMemory) (n mpa val : Nat)

def uva : Option (Nat × Nat) := mpaToUva mpa m.segments 0

/-- `load_8`, `load_16`, `load_32` and `load_64` for `n` of 1, 2, 4 and 8. -/
def load : Option Nat := (m.uva mpa).map fun u => leValue (fun i => m.host u.1 (u.2 + i)) n

/-- The bytes `off`, …, `off + n - 1` of segment `k` replaced by those of `val`. -/
def write (k off : Nat) : UserMemory :=
  { m with host := fun k' o => if k' = k ∧ off ≤ o ∧ o < off + n then leByte val (o - off) else m.host k' o }

/-- `store_8`, `store_16`, `store_32` and `store_64` for `n` of 1, 2, 4 and 8. -/
def store : Option UserMemory := (m.uva mpa).map fun u => m.write n val u.1 u.2

@[simp] theorem write_uva (k off : Nat) : (m.write n val k off).uva mpa = m.uva mpa := rfl

end UserMemory

/-! ## Reading back -/

theorem mpaToUva_spec {mpa k off : Nat} {segments : List Segment} {first : Nat}
    (h : mpaToUva mpa segments first = some (k, off)) :
    ∃ i seg, k = first + i ∧ segments[i]? = some seg ∧ seg.mpa ≤ mpa ∧ off = mpa - seg.mpa := by
  induction segments generalizing first with
  | nil => exact absurd h (by simp [mpaToUva])
  | cons seg segments ih =>
    unfold mpaToUva at h
    split at h
    · rename_i hs
      obtain ⟨rfl, rfl⟩ := Prod.mk.inj (Option.some.inj h)
      exact ⟨0, seg, rfl, rfl, hs.1, rfl⟩
    · obtain ⟨i, seg', rfl, hi, hle, hoff⟩ := ih h
      exact ⟨i + 1, seg', by omega, hi, hle, hoff⟩

namespace UserMemory

variable {m m' : UserMemory} {n k a b val : Nat}

theorem store_spec (h : m.store n a val = some m') : ∃ k off, m.uva a = some (k, off) ∧ m' = m.write n val k off := by
  unfold store at h
  cases hu : m.uva a with
  | none => simp [hu] at h
  | some u => exact ⟨u.1, u.2, rfl, by simpa [hu] using h.symm⟩

/-- What can be loaded can be stored. -/
theorem store_of_load (val : Nat) {v : Nat} (h : m.load n a = some v) : ∃ m', m.store n a val = some m' := by
  unfold load at h
  unfold store
  cases hu : m.uva a with
  | none =>
    rw [hu] at h
    cases h
  | some u => exact ⟨_, rfl⟩

theorem load_store_self (h : m.store n a val = some m') : m'.load n a = some (val % 2 ^ (8 * n)) := by
  obtain ⟨k, off, hu, rfl⟩ := store_spec h
  unfold load
  rw [write_uva, hu, Option.map_some, ← leValue_leByte]
  refine congrArg some (leValue_congr fun i hi => ?_)
  exact (if_pos ⟨rfl, by omega, by omega⟩).trans (by rw [Nat.add_sub_cancel_left])

/-- Other slots of the same size keep their value. -/
theorem load_store_of_ne (h : m.store n a val = some m') (ha : n ∣ a) (hb : n ∣ b) (hne : b ≠ a) :
    m'.load n b = m.load n b := by
  obtain ⟨k, off, hu, rfl⟩ := store_spec h
  unfold load
  rw [write_uva]
  cases hub : m.uva b with
  | none => rfl
  | some u =>
    obtain ⟨k', off'⟩ := u
    rw [Option.map_some, Option.map_some]
    refine congrArg some (leValue_congr fun i hi => if_neg ?_)
    rintro ⟨hk, h1, h2⟩
    obtain ⟨j, seg, rfl, hj, hle, rfl⟩ := mpaToUva_spec hu
    obtain ⟨j', seg', rfl, hj', hle', rfl⟩ := mpaToUva_spec hub
    -- both lie in one segment, a slot apart
    obtain rfl : j' = j := by simpa using hk
    obtain rfl : seg' = seg := Option.some.inj (hj'.symm.trans hj)
    obtain ⟨x, rfl⟩ := ha
    obtain ⟨y, rfl⟩ := hb
    dsimp only at h1 h2
    rcases Nat.lt_or_gt_of_ne (fun hxy : y = x => hne (hxy ▸ rfl)) with hlt | hlt
    · have := Nat.mul_le_mul_left n hlt
      rw [Nat.mul_succ] at this
      omega
    · have := Nat.mul_le_mul_left n hlt
      rw [Nat.mul_succ] at this
      omega

/-- A store elsewhere does not change what is loaded. -/
theorem load_store_of_apart (h : m.store n a val = some m') (hab : b + k ≤ a ∨ a + n ≤ b) : m'.load k b = m.load k b := by
  obtain ⟨i, off, hu, rfl⟩ := store_spec h
  unfold load
  rw [write_uva]
  cases hub : m.uva b with
  | none => rfl
  | some u =>
    obtain ⟨i', off'⟩ := u
    rw [Option.map_some, Option.map_some]
    refine congrArg some (leValue_congr fun o ho => if_neg ?_)
    rintro ⟨hi, h1, h2⟩
    dsimp only at hi h1 h2
    obtain ⟨j, seg, rfl, hj, hle, rfl⟩ := mpaToUva_spec hu
    obtain ⟨j', seg', hi', hj', hle', rfl⟩ := mpaToUva_spec hub
    -- both are in one segment
    obtain rfl : j' = j := by omega
    obtain rfl : seg' = seg := Option.some.inj (hj'.symm.trans hj)
    omega

/-- The `n` bytes from `a` on are mapped in order. -/
def HoldsBytes (m : UserMemory) (n a : Nat) : Prop := ∃ k off, ∀ i < n, m.uva (a + i) = some (k, off + i)

/-- Memory is changed in the `n` bytes from `a` on, and nowhere else. -/
structure ChangesOnly (n a : Nat) (m m' : UserMemory) : Prop where
  segments : m'.segments = m.segments
  bytes : ∀ b, b < a ∨ a + n ≤ b → m'.load 1 b = m.load 1 b
  host : ∀ k off, (∀ i < n, m.uva (a + i) ≠ some (k, off)) → m'.host k off = m.host k off

theorem HoldsBytes.exists_load (h : m.HoldsBytes n a) (hn : 0 < n) : ∃ v < 2 ^ (8 * n), m.load n a = some v := by
  obtain ⟨k, off, h⟩ := h
  refine ⟨leValue (fun i => m.host k (off + i)) n, leValue_lt _ _, ?_⟩
  unfold load
  rw [← Nat.add_zero a, h 0 hn]
  rfl

theorem HoldsBytes.exists_store (h : m.HoldsBytes n a) (hn : 0 < n) (val : Nat) : ∃ m', m.store n a val = some m' := by
  obtain ⟨k, off, h⟩ := h
  refine ⟨m.write n val k off, ?_⟩
  unfold store
  rw [← Nat.add_zero a, h 0 hn]
  rfl

theorem HoldsBytes.changesOnly (h : m.HoldsBytes n a) (hs : m.store n a val = some m') : ChangesOnly n a m m' := by
  obtain ⟨k, off, hu, rfl⟩ := store_spec hs
  refine ⟨rfl, fun b hb => load_store_of_apart hs (by omega), fun k' off' hne => if_neg ?_⟩
  rintro ⟨rfl, hlo, hhi⟩
  obtain ⟨k0, off0, h⟩ := h
  have hfirst := h 0 (by omega)
  rw [Nat.add_zero, hu] at hfirst
  obtain ⟨rfl, rfl⟩ := Prod.mk.inj (Option.some.inj hfirst)
  refine hne (off' - off) (by omega) ?_
  rw [h _ (by omega)]
  congr 2
  omega

end UserMemory

/-! ## A flat range of addresses -/

/-- The addresses from `lo` up to `hi` are mapped in order by segment `k`. -/
def Flat (m : UserMemory) (k lo hi : Nat) : Prop := ∀ a, lo ≤ a → a < hi → m.uva a = some (k, a - lo)

namespace Flat

variable {m : UserMemory} {k lo hi : Nat}

theorem load (h : Flat m k lo hi) {n a : Nat} (hlo : lo ≤ a) (hhi : a < hi) :
    m.load n a = some (leValue (fun i => m.host k (a + i - lo)) n) := by
  unfold UserMemory.load
  rw [h a hlo hhi, Option.map_some]
  refine congrArg some (leValue_congr fun i _ => ?_)
  rw [show a - lo + i = a + i - lo by omega]

theorem store (h : Flat m k lo hi) {n a val : Nat} (hlo : lo ≤ a) (hhi : a < hi) :
    m.store n a val = some (m.write n val k (a - lo)) := by
  unfold UserMemory.store
  rw [h a hlo hhi, Option.map_some]

end Flat

end Rv8.Emu
