import Rv8.Lib.Steps
import Rv8.Emu.Paging
/-!
# The break of a program

`abi_sys_brk` of `unknown-abi.h` on the memory of a proxy process. The heap grows by
mapping pages from its end on. It shrinks to whatever address is not above that end, as
signed numbers compare.
-/

namespace Rv8.Emu

open Rv8.Lib

/-! ## The system call -/

/-- `proxy_memory` -/
structure ProxyMemory where
  segments : List (BitVec 64 × BitVec 64)
  (heapBegin heapEnd brk : BitVec 64)
deriving DecidableEq

def roundUp (addr : BitVec 64) : BitVec 64 := (addr + 4096 - 1) &&& ~~~(4096 - 1)

/-- A call has the value of `a0`, and what becomes of the mapping if it asks for one. -/
structure BrkCall (R : Rv) where
  a0 : BitVec R.xlen
  mapped : Bool

section Call
variable {R : Rv}

def BrkCall.newBrk (c : BrkCall R) : BitVec 64 := c.a0.signExtend 64

/-- `mmap(heap_end, len)` can map the range only if it is one: it has a page, and it ends in the address space. -/
def ProxyMemory.Maps (m : ProxyMemory) (c : BrkCall R) (len : BitVec 64) : Prop :=
  c.mapped = true ∧ len ≠ 0 ∧ m.heapEnd.toNat + len.toNat ≤ 2 ^ 64

instance (m : ProxyMemory) (c : BrkCall R) (len : BitVec 64) : Decidable (m.Maps c len) := inferInstanceAs (Decidable (_ ∧ _ ∧ _))

def enomem : Int := 12

/-- The memory and `a0` after the call. -/
def abiSysBrk (m : ProxyMemory) (c : BrkCall R) : ProxyMemory × BitVec R.xlen :=
  let newBrk := c.newBrk
  let newHeapEnd := roundUp newBrk
  if newBrk = 0 then (m, m.brk.setWidth R.xlen)
  else if newBrk.sle m.heapEnd then ({ m with brk := newBrk }, newBrk.setWidth R.xlen)
  else
    let len := newHeapEnd - m.heapEnd
    if m.Maps c len then
      ({ m with segments := m.segments ++ [(m.heapEnd, len)], heapEnd := newHeapEnd, brk := newBrk }, newBrk.setWidth R.xlen)
    else (m, BitVec.ofInt R.xlen (-enomem))

def brkStep (m : ProxyMemory) (c : BrkCall R) : Option ProxyMemory := some (abiSysBrk m c).1

/-- The call asks for a mapping, and gets none. -/
def BrkFails (m : ProxyMemory) (c : BrkCall R) : Prop :=
  c.newBrk ≠ 0 ∧ ¬ c.newBrk.sle m.heapEnd ∧ ¬ m.Maps c (roundUp c.newBrk - m.heapEnd)

instance (m : ProxyMemory) (c : BrkCall R) : Decidable (BrkFails m c) := inferInstanceAs (Decidable (_ ∧ _ ∧ _))

end Call

/-! ## A valid heap -/

/-- The segments lie end to end from one address to the other. -/
def Tiles (start : Nat) : List (BitVec 64 × BitVec 64) → Nat → Prop
  | [], stop => start = stop
  | seg :: segs, stop => seg.1.toNat = start ∧ 0 < seg.2.toNat ∧ Tiles (start + seg.2.toNat) segs stop

/-- The break lies in the heap, whose pages above the initial end are those of the recorded segments. -/
structure ValidHeap (init m : ProxyMemory) : Prop where
  begin_eq : m.heapBegin = init.heapBegin
  begin_le : m.heapBegin.toNat ≤ m.brk.toNat
  le_end : m.brk.toNat ≤ m.heapEnd.toNat
  aligned : m.heapEnd.toNat % 4096 = 0
  tiles : ∃ segs, m.segments = init.segments ++ segs ∧ Tiles init.heapEnd.toNat segs m.heapEnd.toNat

section Valid
variable {R : Rv}

/-- A call that fails changes nothing; another one returns the break. -/
def BrkAnswers (m : ProxyMemory) (c : BrkCall R) : Prop :=
  if BrkFails m c then abiSysBrk m c = (m, BitVec.ofInt R.xlen (-enomem)) else (abiSysBrk m c).2 = (abiSysBrk m c).1.brk.setWidth R.xlen

/-- The argument is 0 or in the heap, or it is above the end as a signed number, and the rounding does not wrap to 0 if the pages
are mapped. -/
def BrkInRange (m : ProxyMemory) (c : BrkCall R) : Prop :=
  c.newBrk = 0 ∨ m.heapBegin.toNat ≤ c.newBrk.toNat ∧ c.newBrk.toNat ≤ m.heapEnd.toNat ∨
    ¬ c.newBrk.sle m.heapEnd ∧ (BrkFails m c ∨ roundUp c.newBrk ≠ 0)

end Valid

theorem Tiles.concat {start stop : Nat} {segs : List (BitVec 64 × BitVec 64)} {seg : BitVec 64 × BitVec 64} (h : Tiles start segs stop)
    (haddr : seg.1.toNat = stop) (hpos : 0 < seg.2.toNat) : Tiles start (segs ++ [seg]) (stop + seg.2.toNat) := by
  induction segs generalizing start with
  | nil =>
    obtain rfl := h
    exact ⟨haddr, hpos, rfl⟩
  | cons s segs ih => exact ⟨h.1, h.2.1, ih h.2.2⟩

theorem toNat_page (x : BitVec 64) : (x &&& (~~~(4096 - 1) : BitVec 64)).toNat = x.toNat / 4096 * 4096 := by
  have hmask : ∀ i : Fin 64, (~~~(4096 - 1) : BitVec 64).getLsbD i = decide (12 ≤ i.val) := by decide
  have hshift : x &&& (~~~(4096 - 1) : BitVec 64) = x >>> 12 <<< 12 := by
    refine BitVec.eq_of_getLsbD_eq fun i hi => ?_
    rw [BitVec.getLsbD_and, hmask ⟨i, hi⟩, BitVec.getLsbD_shiftLeft, BitVec.getLsbD_ushiftRight]
    by_cases h12 : 12 ≤ i
    · simp [h12, hi, show 12 + (i - 12) = i by omega]
    · simp [h12, show i < 12 by omega]
  have hlt := x.isLt
  rw [hshift, BitVec.toNat_shiftLeft, BitVec.toNat_ushiftRight, Nat.shiftLeft_eq, Nat.shiftRight_eq_div_pow]
  omega

/-- Rounding up goes to the next page, or wraps to 0. -/
theorem roundUp_spec (addr : BitVec 64) :
    (roundUp addr).toNat % 4096 = 0 ∧
      (roundUp addr = 0 ∧ 2 ^ 64 < addr.toNat + 4096 ∨ addr.toNat ≤ (roundUp addr).toNat ∧ (roundUp addr).toNat < addr.toNat + 4096) := by
  have hadd : (addr + 4096 - 1).toNat = (addr.toNat + 4095) % 2 ^ 64 := by
    have hlt := addr.isLt
    rw [BitVec.toNat_sub, BitVec.toNat_add]
    change (2 ^ 64 - 1 + (addr.toNat + 4096) % 2 ^ 64) % 2 ^ 64 = _
    omega
  have hround : (roundUp addr).toNat = (addr.toNat + 4095) % 2 ^ 64 / 4096 * 4096 := by
    rw [roundUp, toNat_page, hadd]
  have hlt := addr.isLt
  refine ⟨by omega, ?_⟩
  by_cases hwrap : addr.toNat + 4095 < 2 ^ 64
  · right
    omega
  · left
    refine ⟨BitVec.eq_of_toNat_eq ?_, by omega⟩
    change _ = 0
    omega

section Step
variable {R : Rv} {init m : ProxyMemory} (h : ValidHeap init m) (c : BrkCall R)
include h

/-- A mapping that is there lies above the end. -/
theorem ValidHeap.end_lt (hmaps : m.Maps c (roundUp c.newBrk - m.heapEnd)) (hround : roundUp c.newBrk ≠ 0) :
    m.heapEnd.toNat + (roundUp c.newBrk - m.heapEnd).toNat = (roundUp c.newBrk).toNat ∧ 0 < (roundUp c.newBrk - m.heapEnd).toNat ∧
      m.heapEnd.toNat < c.newBrk.toNat ∧ c.newBrk.toNat ≤ (roundUp c.newBrk).toNat := by
  obtain ⟨-, hlen, hfits⟩ := hmaps
  obtain ⟨hpage, hspec⟩ := roundUp_spec c.newBrk
  have haligned := h.aligned
  have hend := m.heapEnd.isLt
  have hnew := (roundUp c.newBrk).isLt
  have hpos : (roundUp c.newBrk).toNat ≠ 0 := fun h0 => hround (BitVec.eq_of_toNat_eq h0)
  have hlen0 : (roundUp c.newBrk - m.heapEnd).toNat ≠ 0 := fun h0 => hlen (BitVec.eq_of_toNat_eq h0)
  obtain ⟨hle, hlt⟩ := hspec.resolve_left fun h0 => hround h0.1
  rw [BitVec.toNat_sub] at hfits hlen0 ⊢
  omega

/-- The last page does not lie below an end of pages. -/
theorem ValidHeap.roundUp_ne_zero (hzero : c.newBrk ≠ 0) (hhi : c.newBrk.toNat ≤ m.heapEnd.toNat) : roundUp c.newBrk ≠ 0 := by
  intro hround
  have haligned := h.aligned
  have hend := m.heapEnd.isLt
  rcases (roundUp_spec c.newBrk).2 with ⟨-, htop⟩ | ⟨hle, -⟩
  · omega
  · rw [hround] at hle
    exact hzero (BitVec.eq_of_toNat_eq (Nat.le_zero.1 hle))

/-- A mapping adds its segment at the end. -/
theorem ValidHeap.grow (hmaps : m.Maps c (roundUp c.newBrk - m.heapEnd)) (hround : roundUp c.newBrk ≠ 0) :
    ValidHeap init { m with
      segments := m.segments ++ [(m.heapEnd, roundUp c.newBrk - m.heapEnd)]
      heapEnd := roundUp c.newBrk
      brk := c.newBrk } := by
  obtain ⟨hsum, hpos, hlt, hle⟩ := h.end_lt c hmaps hround
  obtain ⟨segs, hsegs, htiles⟩ := h.tiles
  refine ⟨h.begin_eq, ?_, hle, (roundUp_spec _).1, segs ++ [(m.heapEnd, roundUp c.newBrk - m.heapEnd)], ?_, ?_⟩
  · exact h.begin_le.trans (h.le_end.trans hlt.le)
  · dsimp only
    rw [hsegs, List.append_assoc]
  · dsimp only
    rw [← hsum]
    exact htiles.concat rfl hpos

/-- A step keeps the heap valid exactly if its argument is in range. -/
theorem ValidHeap.step_iff : ValidHeap init (abiSysBrk m c).1 ↔ BrkInRange m c := by
  unfold abiSysBrk
  dsimp only
  split
  · rename_i hzero
    exact iff_of_true h (.inl hzero)
  · rename_i hzero
    split
    · rename_i hle
      constructor
      · intro h'
        exact .inr (.inl ⟨h'.begin_le, h'.le_end⟩)
      · rintro (hz | ⟨hlo, hhi⟩ | ⟨hgt, -⟩)
        · exact absurd hz hzero
        · exact ⟨h.begin_eq, hlo, hhi, h.aligned, h.tiles⟩
        · exact absurd hle hgt
    · rename_i hgt
      split
      · rename_i hmaps
        constructor
        · intro h'
          refine .inr (.inr ⟨hgt, .inr fun hround => hzero ?_⟩)
          have hle := h'.le_end
          dsimp only at hle
          rw [hround] at hle
          exact BitVec.eq_of_toNat_eq (Nat.le_zero.1 hle)
        · intro hok
          have hround : roundUp c.newBrk ≠ 0 := by
            rcases hok with hz | ⟨-, hhi⟩ | ⟨-, hfails | hround⟩
            · exact absurd hz hzero
            · exact h.roundUp_ne_zero c hzero hhi
            · exact absurd hmaps hfails.2.2
            · exact hround
          exact h.grow c hmaps hround
      · rename_i hmaps
        exact iff_of_true h (.inr (.inr ⟨hgt, .inl ⟨hzero, hgt, hmaps⟩⟩))

end Step

theorem brkAnswers {R : Rv} (m : ProxyMemory) (c : BrkCall R) : BrkAnswers m c := by
  unfold BrkAnswers abiSysBrk
  dsimp only
  by_cases hzero : c.newBrk = 0
  · rw [if_pos hzero, if_neg fun hfails => hfails.1 hzero]
  · rw [if_neg hzero]
    by_cases hle : c.newBrk.sle m.heapEnd = true
    · rw [if_pos hle, if_neg fun hfails => hfails.2.1 hle]
    · rw [if_neg hle]
      by_cases hmaps : m.Maps c (roundUp c.newBrk - m.heapEnd)
      · rw [if_pos hmaps, if_neg fun hfails => hfails.2.2 hmaps]
      · rw [if_neg hmaps, if_pos ⟨hzero, hle, hmaps⟩]

/-- The answer is the break also after a failure only if the break looks like the error. -/
theorem answer_eq_brk_iff {R : Rv} (m : ProxyMemory) (c : BrkCall R) :
    (abiSysBrk m c).2 = (abiSysBrk m c).1.brk.setWidth R.xlen ↔
      (BrkFails m c → m.brk.setWidth R.xlen = BitVec.ofInt R.xlen (-enomem)) := by
  have hanswers := brkAnswers m c
  unfold BrkAnswers at hanswers
  split at hanswers
  · rename_i hfails
    rw [hanswers]
    exact ⟨fun heq _ => heq.symm, fun himp => (himp hfails).symm⟩
  · rename_i hfails
    exact iff_of_true hanswers fun h => absurd h hfails

/-- The heap stays valid, with the right answers, exactly if it is valid at first and each argument is in range. The answer is always
the break exactly if no call fails, or the break looks like the error where one does. -/
theorem brk_valid_iff {R : Rv} (init : ProxyMemory) (cs : List (BrkCall R)) :
    (Always brkStep (ValidHeap init) cs init ∧ Along brkStep BrkAnswers cs init ↔
      ValidHeap init init ∧ Along brkStep BrkInRange cs init) ∧
      (Along brkStep (fun m (c : BrkCall R) => (abiSysBrk m c).2 = (abiSysBrk m c).1.brk.setWidth R.xlen) cs init ↔
        Along brkStep (fun m c => BrkFails m c → m.brk.setWidth R.xlen = BitVec.ofInt R.xlen (-enomem)) cs init) := by
  have hanswers : ∀ m, Along brkStep BrkAnswers cs m := by
    induction cs with
    | nil => exact fun _ => trivial
    | cons c cs ih => exact fun m => ⟨brkAnswers m c, fun m' _ => ih m'⟩
  have hvalid : Always brkStep (ValidHeap init) cs init ↔ ValidHeap init init ∧ Along brkStep BrkInRange cs init := by
    refine always_iff_along (fun m c => ⟨_, rfl⟩) fun m c m' hm hstep => ?_
    rw [← Option.some.inj hstep]
    exact hm.step_iff c
  constructor
  · rw [and_iff_left (hanswers init), hvalid]
  · simp only [answer_eq_brk_iff]

/-- The heap that a test program starts with. -/
def testHeap : ProxyMemory := { segments := [], heapBegin := 0x10000000, heapEnd := 0x10000000, brk := 0x10000000 }

/-- A break below the heap is taken, and with registers of 32 bits one in the upper half of the address space. -/
theorem not_valid_below : ValidHeap testHeap testHeap ∧
    ¬ Always brkStep (ValidHeap testHeap) [(⟨0x1000, true⟩ : BrkCall .rv64)] testHeap ∧
      ¬ Always brkStep (ValidHeap testHeap) [(⟨0x80000000, true⟩ : BrkCall .rv32)] testHeap := by
  have hvalid : ValidHeap testHeap testHeap := ⟨rfl, le_rfl, le_rfl, by decide, [], rfl, rfl⟩
  refine ⟨hvalid, fun h => ?_, fun h => ?_⟩
  · exact absurd (h.2 _ rfl).begin_le (by decide)
  · exact absurd (h.2 _ rfl).le_end (by decide)

end Rv8.Emu
