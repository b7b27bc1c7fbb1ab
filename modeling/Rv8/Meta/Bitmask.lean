import Mathlib.Data.List.Chain
import Rv8.Lib.Digits
/-!
# Gathering bits

The expression that `format_bitmask` prints for a list of bit positions. The positions
are taken in runs; a term for each shifts its bits to where they belong in the value and
masks them, and the terms are put together with `|`.
-/

namespace Rv8.Meta

open Rv8.Lib

/-! ## Runs of positions -/

structure Bitrange where
  (msb lsb : Int)
deriving DecidableEq

/-- The loop of `bitmask_to_bitrange`; `back` is the last range so far. -/
def pushBits (back : Bitrange) : List Int → List Bitrange
  | [] => [back]
  | bit :: bits => if bit + 1 = back.lsb then pushBits { back with lsb := bit } bits else back :: pushBits ⟨bit, bit⟩ bits

def bitmaskToBitrange : List Int → List Bitrange
  | [] => []
  | bit :: bits => pushBits ⟨bit, bit⟩ bits

/-- From the highest down. -/
def Bitrange.positions (r : Bitrange) : List Int := (List.range (r.msb - r.lsb + 1).toNat).map fun k : Nat => r.msb - k

/-! ## The expression -/

/-- `((var >> shift) & 0bmask)` -/
structure Term where
  shift : Int
  mask : List Bool

def rangeTerm (total : Nat) (rangeStart : Int) (r : Bitrange) : Term :=
  let rangeEnd := rangeStart - (r.msb - r.lsb)
  { shift := r.msb - rangeStart + 1
    -- `i` goes from `total` down to 1
    mask := (List.range total).map fun k : Nat => let i : Int := total - k; i ≤ rangeStart ∧ rangeEnd ≤ i }

def rangeTerms (total : Nat) : Int → List Bitrange → List Term
  | _, [] => []
  | rangeStart, r :: rs => rangeTerm total rangeStart r :: rangeTerms total (rangeStart - ((r.msb - r.lsb) + 1)) rs

def bitmaskTerms (bits : List Int) : List Term := rangeTerms bits.length bits.length (bitmaskToBitrange bits)

def Term.format (var : String) (t : Term) : String :=
  "((" ++ var ++ " >> " ++ toString t.shift ++ ") & 0b" ++ String.ofList (t.mask.map fun b => if b then '1' else '0') ++ ")"

def Bitrange.format (r : Bitrange) : String :=
  if r.msb = r.lsb then toString r.msb else toString r.msb ++ ":" ++ toString r.lsb

def formatBitmask (bits : List Int) (var : String) (comment : Bool) : String :=
  " | ".intercalate ((bitmaskTerms bits).map (Term.format var)) ++
    if comment then " /* " ++ var ++ "[" ++ "|".intercalate ((bitmaskToBitrange bits).map Bitrange.format) ++ "] */" else ""

section Eval
variable {w : Nat}

/-- The value of a term. A shift that is negative or not below the width is undefined, and the mask has to be a number of
that width. -/
def Term.eval (t : Term) (var : BitVec w) : Option (BitVec w) :=
  if 0 ≤ t.shift ∧ t.shift < w ∧ Digits.value t.mask < 2 ^ w then
    some (var >>> t.shift.toNat &&& BitVec.ofNat w (Digits.value t.mask))
  else none

/-- The value of the expression; that of no terms is 0. -/
def evalTerms (var : BitVec w) : List Term → Option (BitVec w)
  | [] => some 0
  | t :: ts => do
    let a ← t.eval var
    let b ← evalTerms var ts
    return a ||| b

end Eval

/-! ## The runs make up the list -/

@[simp] theorem Bitrange.positions_single (bit : Int) : Bitrange.positions ⟨bit, bit⟩ = [bit] := by
  simp [positions]

theorem Bitrange.single_le (bit : Int) : (⟨bit, bit⟩ : Bitrange).lsb ≤ (⟨bit, bit⟩ : Bitrange).msb := le_rfl

/-- A range that is one bit longer. -/
theorem Bitrange.positions_concat {r : Bitrange} (h : r.lsb ≤ r.msb) {bit : Int} (hbit : bit + 1 = r.lsb) :
    Bitrange.positions { r with lsb := bit } = r.positions ++ [bit] := by
  have hlen : (r.msb - bit + 1).toNat = (r.msb - r.lsb + 1).toNat + 1 := by omega
  have hlast : r.msb - ((r.msb - r.lsb + 1).toNat : Int) = bit := by omega
  unfold positions
  dsimp only
  rw [hlen, List.range_succ, List.map_append, List.map_singleton, hlast]

theorem length_positions (r : Bitrange) : r.positions.length = (r.msb - r.lsb + 1).toNat := by
  simp [Bitrange.positions]

theorem mem_positions {r : Bitrange} {p : Int} : p ∈ r.positions ↔ r.lsb ≤ p ∧ p ≤ r.msb := by
  constructor
  · intro h
    obtain ⟨k, hk, rfl⟩ := List.mem_map.1 h
    have hk := List.mem_range.1 hk
    omega
  · rintro ⟨hlsb, hmsb⟩
    exact List.mem_map.2 ⟨(r.msb - p).toNat, List.mem_range.2 (by omega), by omega⟩

theorem map_positions {α : Type} (r : Bitrange) (f : Int → α) :
    r.positions.map f = (List.range r.positions.length).map fun k : Nat => f (r.msb - k) := by
  rw [length_positions, Bitrange.positions, List.map_map]
  rfl

/-- Ranges that cannot be put together. -/
def Apart (r s : Bitrange) : Prop := s.msb + 1 ≠ r.lsb

theorem pushBits_spec {back : Bitrange} (hback : back.lsb ≤ back.msb) (bits : List Int) :
    (pushBits back bits).flatMap Bitrange.positions = back.positions ++ bits ∧ (∀ r ∈ pushBits back bits, r.lsb ≤ r.msb) ∧
      (pushBits back bits).IsChain Apart ∧ ((pushBits back bits).head?).map Bitrange.msb = some back.msb := by
  induction bits generalizing back with
  | nil => simpa [pushBits] using hback
  | cons bit bits ih =>
    unfold pushBits
    split
    · rename_i hnext
      have hgrown : ({ back with lsb := bit } : Bitrange).lsb ≤ ({ back with lsb := bit } : Bitrange).msb := by
        dsimp only
        omega
      obtain ⟨hflat, hle, hchain, hhead⟩ := ih hgrown
      refine ⟨?_, hle, hchain, hhead⟩
      rw [hflat, Bitrange.positions_concat hback hnext, List.append_assoc, List.singleton_append]
    · rename_i hgap
      obtain ⟨hflat, hle, hchain, hhead⟩ := ih (Bitrange.single_le bit)
      refine ⟨?_, ?_, ?_, rfl⟩
      · rw [List.flatMap_cons, hflat, Bitrange.positions_single, List.singleton_append]
      · intro r hr
        rcases List.mem_cons.1 hr with rfl | hr
        · exact hback
        · exact hle r hr
      · refine List.isChain_cons.2 ⟨fun s hs => ?_, hchain⟩
        rw [hs] at hhead
        rw [Apart, Option.some.inj hhead]
        exact hgap

/-! ## The value of the expression -/

section Value
variable {w : Nat}

/-- The digits of a mask are those of its range. -/
theorem testBit_mask {total left : Nat} {r : Bitrange} (hle : r.lsb ≤ r.msb) (hleft : left + r.positions.length ≤ total) (j : Nat) :
    (Digits.value (rangeTerm total (left + r.positions.length : Nat) r).mask).testBit j =
      decide (left ≤ j ∧ j < left + r.positions.length) := by
  rw [length_positions] at hleft ⊢
  unfold rangeTerm
  dsimp only
  rw [Digits.testBit_value_map_range, ← Bool.decide_and, decide_eq_decide]
  omega

/-- A term puts the bits of its range above the positions that are left. -/
theorem eval_rangeTerm {total left : Nat} {r : Bitrange} (hle : r.lsb ≤ r.msb) (hleft : left + r.positions.length ≤ total)
    (htotal : total ≤ w) (hmsb : r.msb < w) (hshift : 0 ≤ (rangeTerm total (left + r.positions.length : Nat) r).shift) (var : BitVec w) :
    ∃ v, (rangeTerm total (left + r.positions.length : Nat) r).eval var = some v ∧
      v.toNat = Digits.value (r.positions.map fun p => var.getLsbD p.toNat) <<< left := by
  have hmask := testBit_mask hle hleft
  have hlen := length_positions r
  have hs : (rangeTerm total (left + r.positions.length : Nat) r).shift = r.msb - (left + r.positions.length : Nat) + 1 := rfl
  have hsize : Digits.value (rangeTerm total (left + r.positions.length : Nat) r).mask < 2 ^ w := by
    refine Nat.lt_pow_two_of_testBit _ fun j hj => ?_
    rw [hmask]
    exact decide_eq_false (by omega)
  refine ⟨_, if_pos ⟨hshift, by omega, hsize⟩, Nat.eq_of_testBit_eq fun j => ?_⟩
  rw [BitVec.testBit_toNat, BitVec.getLsbD_and, BitVec.getLsbD_ushiftRight, BitVec.getLsbD_ofNat, hmask, Nat.testBit_shiftLeft,
    map_positions, Digits.testBit_value_map_range]
  by_cases hj : left ≤ j ∧ j < left + r.positions.length
  · -- the bit comes from the same place of the word
    have hbit : (r.msb - (r.positions.length - 1 - (j - left) : Nat)).toNat =
        (rangeTerm total (left + r.positions.length : Nat) r).shift.toNat + j := by
      omega
    rw [hbit]
    simp [hj, (hj.2.trans_le hleft).trans_le htotal, show j - left < r.positions.length by omega]
  · rw [decide_eq_false hj, Bool.and_false, Bool.and_false, ← Bool.and_assoc, ← Bool.decide_and, decide_eq_false (by omega), Bool.false_and]

/-- The terms of some ranges give the bits at their positions. -/
theorem eval_rangeTerms {total : Nat} (htotal : total ≤ w) (var : BitVec w) {rs : List Bitrange} (hle : ∀ r ∈ rs, r.lsb ≤ r.msb)
    (hlen : (rs.flatMap Bitrange.positions).length ≤ total) (hmsb : ∀ r ∈ rs, r.msb < w)
    (hshift : ∀ t ∈ rangeTerms total (rs.flatMap Bitrange.positions).length rs, 0 ≤ t.shift) :
    ∃ v, evalTerms var (rangeTerms total (rs.flatMap Bitrange.positions).length rs) = some v ∧
      v.toNat = Digits.value ((rs.flatMap Bitrange.positions).map fun p => var.getLsbD p.toNat) := by
  induction rs with
  | nil => exact ⟨0, rfl, by simp⟩
  | cons r rs ih =>
    have hr := hle r List.mem_cons_self
    have hlenr := length_positions r
    rw [List.flatMap_cons, List.length_append, Nat.add_comm] at hlen hshift ⊢
    have hstart : (((rs.flatMap Bitrange.positions).length + r.positions.length : Nat) : Int) - ((r.msb - r.lsb) + 1) =
        (rs.flatMap Bitrange.positions).length := by
      omega
    rw [rangeTerms, hstart] at hshift ⊢
    obtain ⟨hfirst, hrest⟩ := List.forall_mem_cons.1 hshift
    obtain ⟨a, ha, hav⟩ := eval_rangeTerm hr hlen htotal (hmsb r List.mem_cons_self) hfirst var
    obtain ⟨b, hb, hbv⟩ := ih (fun s hs => hle s (List.mem_cons_of_mem r hs)) (by omega)
      (fun s hs => hmsb s (List.mem_cons_of_mem r hs)) hrest
    refine ⟨a ||| b, ?_, ?_⟩
    · rw [evalTerms, ha, hb]
      rfl
    · rw [BitVec.toNat_or, hav, hbv, List.map_append, Digits.value_append_eq_or, List.length_map]

/-- The terms of a list of positions. -/
theorem eval_bitmaskTerms {bits : List Int} (var : BitVec w) (hbits : ∀ p ∈ bits, p < w) (hshift : ∀ t ∈ bitmaskTerms bits, 0 ≤ t.shift) :
    ∃ v, evalTerms var (bitmaskTerms bits) = some v ∧ v.toNat = Digits.value (bits.map fun p => var.getLsbD p.toNat) := by
  cases bits with
  | nil => exact ⟨0, rfl, by simp⟩
  | cons bit bits =>
    obtain ⟨hflat, hle, -, hhead⟩ := pushBits_spec (Bitrange.single_le bit) bits
    rw [Bitrange.positions_single, List.singleton_append] at hflat
    change ∀ r ∈ bitmaskToBitrange (bit :: bits), _ at hle
    change (bitmaskToBitrange (bit :: bits)).flatMap _ = _ at hflat
    have hmsb : ∀ r ∈ bitmaskToBitrange (bit :: bits), r.msb < w := by
      intro r hr
      exact hbits r.msb (hflat ▸ List.mem_flatMap.2 ⟨r, hr, mem_positions.2 ⟨hle r hr, le_rfl⟩⟩)
    have htotal : (bit :: bits).length ≤ w := by
      -- the mask of the first term is as long as the list, and its shift starts at the highest position
      cases hrs : bitmaskToBitrange (bit :: bits) with
      | nil =>
        rw [hrs] at hflat
        cases hflat
      | cons r rs =>
        have hfirst := hshift (rangeTerm (bit :: bits).length (bit :: bits).length r) (by rw [bitmaskTerms, hrs]; exact List.mem_cons_self)
        have hr := hmsb r (hrs ▸ List.mem_cons_self)
        unfold rangeTerm at hfirst
        dsimp only at hfirst
        omega
    have heval := eval_rangeTerms htotal var hle (by rw [hflat]) hmsb (by rw [hflat]; exact hshift)
    rw [hflat] at heval
    exact heval

end Value

/-- Positions that fall and are not negative leave room for those after them. -/
theorem length_le_of_falling {p : Int} {ps : List Int} (h : (p :: ps).Pairwise (· > ·)) (hpos : ∀ q ∈ p :: ps, 0 ≤ q) :
    ((p :: ps).length : Int) ≤ p + 1 := by
  induction ps generalizing p with
  | nil =>
    have hp := hpos p List.mem_cons_self
    simpa using hp
  | cons q ps ih =>
    have hrest := ih (List.pairwise_cons.1 h).2 fun r hr => hpos r (List.mem_cons_of_mem p hr)
    have hlt := (List.pairwise_cons.1 h).1 q List.mem_cons_self
    rw [List.length_cons]
    omega

theorem shift_rangeTerms (total : Nat) {rs : List Bitrange} (hle : ∀ r ∈ rs, r.lsb ≤ r.msb)
    (h : (rs.flatMap Bitrange.positions).Pairwise (· > ·)) (hpos : ∀ p ∈ rs.flatMap Bitrange.positions, 0 ≤ p) :
    ∀ t ∈ rangeTerms total (rs.flatMap Bitrange.positions).length rs, 0 ≤ t.shift := by
  induction rs with
  | nil => exact fun t ht => absurd ht List.not_mem_nil
  | cons r rs ih =>
    have hr := hle r List.mem_cons_self
    obtain ⟨k, hk⟩ : ∃ k, (r.msb - r.lsb + 1).toNat = k + 1 := ⟨(r.msb - r.lsb).toNat, by omega⟩
    have hlen := length_positions r
    have hhead : r.positions = r.msb :: r.positions.tail := by
      rw [Bitrange.positions, hk, List.range_succ_eq_map]
      simp
    rw [List.flatMap_cons] at h hpos
    have hstart : (((r :: rs).flatMap Bitrange.positions).length : Int) - ((r.msb - r.lsb) + 1) = (rs.flatMap Bitrange.positions).length := by
      rw [List.flatMap_cons, List.length_append]
      omega
    rw [rangeTerms, hstart]
    intro t ht
    rcases List.mem_cons.1 ht with rfl | ht
    · rw [hhead, List.cons_append] at h hpos
      have hroom := length_le_of_falling h hpos
      rw [← List.cons_append, ← hhead, ← List.flatMap_cons] at hroom
      unfold rangeTerm
      dsimp only
      omega
    · exact ih (fun s hs => hle s (List.mem_cons_of_mem r hs)) (List.pairwise_append.1 h).2.1
        (fun p hp => hpos p (List.mem_append_right _ hp)) t ht

/-- The shifts for positions that fall are defined. -/
theorem shift_bitmaskTerms {bits : List Int} (h : bits.Pairwise (· > ·)) (hpos : ∀ p ∈ bits, 0 ≤ p) :
    ∀ t ∈ bitmaskTerms bits, 0 ≤ t.shift := by
  cases bits with
  | nil => exact fun t ht => absurd ht List.not_mem_nil
  | cons bit bits =>
    obtain ⟨hflat, hle, -, -⟩ := pushBits_spec (Bitrange.single_le bit) bits
    rw [Bitrange.positions_single, List.singleton_append] at hflat
    rw [← hflat] at h hpos
    have hshift := shift_rangeTerms (bit :: bits).length hle h hpos
    rwa [hflat] at hshift

/-- The expression gives the digits at the positions, and its terms are for the maximal runs of them. -/
theorem formatBitmask_gathers {bits : List Int} (hbits : bits.Pairwise (· > ·)) :
    (∀ (w : Nat) (var : BitVec w), (∀ p ∈ bits, p < w) → (∀ t ∈ bitmaskTerms bits, 0 ≤ t.shift) →
      (evalTerms var (bitmaskTerms bits)).map BitVec.toNat = some (Digits.value (bits.map fun p => var.getLsbD p.toNat))) ∧
      (bitmaskToBitrange bits).flatMap Bitrange.positions = bits ∧
      (∀ r ∈ bitmaskToBitrange bits, r.lsb ≤ r.msb) ∧ (bitmaskToBitrange bits).IsChain fun r s => s.msb + 1 < r.lsb := by
  refine ⟨fun w var hw hshift => ?_, ?_⟩
  · obtain ⟨v, hv, hval⟩ := eval_bitmaskTerms var hw hshift
    rw [hv, Option.map_some, hval]
  · cases bits with
    | nil => exact ⟨rfl, fun r hr => absurd hr List.not_mem_nil, .nil⟩
    | cons bit bits =>
      obtain ⟨hflat, hle, hchain, -⟩ := pushBits_spec (Bitrange.single_le bit) bits
      rw [Bitrange.positions_single, List.singleton_append] at hflat
      refine ⟨hflat, hle, ?_⟩
      change (pushBits ⟨bit, bit⟩ bits).IsChain _
      refine List.isChain_iff_getElem.2 fun i hi => ?_
      -- the next range is below, and does not follow at once
      rw [← hflat] at hbits
      have hgap := List.isChain_iff_getElem.1 hchain i hi
      have hdown := List.pairwise_iff_getElem.1 (List.pairwise_flatMap.1 hbits).2 i (i + 1) (by omega) hi (by omega)
      have hr := hle _ (List.getElem_mem (by omega : i < (pushBits ⟨bit, bit⟩ bits).length))
      have hs := hle _ (List.getElem_mem hi)
      have hlt := hdown _ (mem_positions.2 ⟨le_rfl, hr⟩) _ (mem_positions.2 ⟨hs, le_rfl⟩)
      unfold Apart at hgap
      exact lt_of_le_of_ne (by omega) hgap

/-- Two runs of a word of 16 bits. -/
theorem formatBitmask_gathers_two : (evalTerms (0b1010000000010010 : BitVec 16) (bitmaskTerms [15, 14, 13, 1, 0])).map BitVec.toNat =
    some (Digits.value [true, false, true, true, false]) :=
  (formatBitmask_gathers (show ([15, 14, 13, 1, 0] : List Int).Pairwise (· > ·) by decide)).1 16 _ (by decide) (by decide)

example : formatBitmask [15, 14, 13, 1, 0] "inst" true = "((inst >> 11) & 0b11100) | ((inst >> 0) & 0b00011) /* inst[15:13|1:0] */" := by
  decide

end Rv8.Meta
