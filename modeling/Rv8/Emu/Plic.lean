import Mathlib.Data.BitVec
import Rv8.Lib.Log
import Rv8.Lib.Steps
/-!
# The interrupt controller

`plic_mmio_device` of `device-plic.h`: a mask of the sources that are raised and a mask
of those that are being served, 32 bits each, although the device is made for 64
sources. A claim takes the lowest source that is raised and not served, a completion
hands it back. What the accesses should mean is read off the log of a run.
-/

namespace Rv8.Emu

open Rv8.Lib

structure Plic where
  (pending served : BitVec 32)

namespace Plic

def NUM_IRQS : Nat := 64

/-- As constructed. -/
def fresh : Plic := ⟨0, 0⟩

section Device

-- `1 << n` for an `n` of 32 or more: the shift is undefined, so any word may come of it
variable (wide : Nat → BitVec 32)

/-- `1 << n`. -/
def shl (n : Nat) : BitVec 32 := if n < 32 then (1 : BitVec 32) <<< n else wide n

variable (d : Plic)

/-- `set_irq`. -/
def setIrq (irq : Nat) (val : BitVec 32) : Plic :=
  if val ≠ 0 then { d with pending := d.pending ||| shl wide irq } else { d with pending := d.pending &&& ~~~shl wide irq }

/-- `pending & ~served`. -/
def mask : BitVec 32 := d.pending &&& ~~~d.served

/-- `irq_pending`. -/
def irqPending : Bool := d.mask > 0

/-- The body of both claim registers. -/
def claim : BitVec 32 × Plic :=
  if d.mask ≠ 0 then
    let i := d.mask.ctz
    (i + 1, { d with served := d.served ||| (1 : BitVec 32) <<< i.toNat })
  else (0, d)

/-- The body of both completion registers. -/
def complete {w : Nat} (val : BitVec w) : Plic :=
  if (val - 1).toNat < 32 then { d with served := d.served &&& ~~~((1 : BitVec 32) <<< (val - 1).toNat) } else d

/-- `load_32`. -/
def load32 (va : Nat) : BitVec 32 × Plic := if va = 4 then d.claim else (0, d)

/-- `load_64`. -/
def load64 (va : Nat) : BitVec 64 × Plic := if va = 0 then (d.claim.1.setWidth 64, d.claim.2) else (0, d)

/-- `store_32`. -/
def store32 (va : Nat) (val : BitVec 32) : Plic := if va = 4 then d.complete val else d

/-- `store_64`. -/
def store64 (va : Nat) (val : BitVec 64) : Plic := if va = 0 then d.complete val else d

/-! ## Runs -/

inductive Access
  | setIrq (irq : Nat) (val : BitVec 32)
  | load32 (va : Nat)
  | load64 (va : Nat)
  | store32 (va : Nat) (val : BitVec 32)
  | store64 (va : Nat) (val : BitVec 64)
deriving DecidableEq

/-- What the access returns, 0 where it returns nothing, and the device after it. -/
def access : Access → BitVec 64 × Plic
  | .setIrq irq val => (0, d.setIrq wide irq val)
  | .load32 va => ((d.load32 va).1.setWidth 64, (d.load32 va).2)
  | .load64 va => d.load64 va
  | .store32 va val => (0, d.store32 va val)
  | .store64 va val => (0, d.store64 va val)

end Device

/-- An access and what it returned. -/
structure Event where
  access : Access
  value : BitVec 64

/-- One access, kept in the log. -/
def step (wide : Nat → BitVec 32) (s : Logged Plic Event) (a : Access) : Option (Logged Plic Event) :=
  let r := s.state.access wide a
  some { state := r.2, log := ⟨a, r.1⟩ :: s.log }

def start : Logged Plic Event := ⟨fresh, []⟩

/-! ## What a log says of a source -/

/-- A read of a claim register, in its 32-bit or its 64-bit form. -/
def Access.IsClaim : Access → Prop
  | .load32 va => va = 4
  | .load64 va => va = 0
  | _ => False

def Access.IsSet (a : Access) : Prop := ∃ irq val, a = .setIrq irq val

/-- The claim of source `i`: its identifier is `i + 1`. -/
def Event.Claims (e : Event) (i : Nat) : Prop := e.access.IsClaim ∧ e.value.toNat = i + 1

/-- A write of the identifier of source `i` to a completion register. -/
def Access.Completes (i : Nat) : Access → Prop
  | .store32 va val => va = 4 ∧ val.toNat = i + 1
  | .store64 va val => va = 0 ∧ val.toNat = i + 1
  | _ => False

/-- The source was last set with a value other than 0. -/
def Raised (i : Nat) : List Event → Prop
  | [] => False
  | ⟨.setIrq irq val, _⟩ :: log => if irq = i then val ≠ 0 else Raised i log
  | _ :: log => Raised i log

/-- The source was claimed and has not been completed since. -/
def Claimed (i : Nat) : List Event → Prop
  | [] => False
  | e :: log => e.Claims i ∨ Claimed i log ∧ ¬ e.access.Completes i

/-- The access is about source `i`. -/
def Event.Changes (e : Event) (i : Nat) : Prop :=
  (∃ val, e.access = .setIrq i val) ∨ e.Claims i ∨ e.access.Completes i

/-! ## The protocol -/

/-- What holds in a state of a run, for the claim that may come next and for those that were made. -/
structure Protocol (wide : Nat → BitVec 32) (s : Logged Plic Event) : Prop where
  source : ∀ a, a.IsClaim → ∀ i, (s.state.access wide a).1.toNat = i + 1 → Raised i s.log ∧ ¬ Claimed i s.log
  none : ∀ a, a.IsClaim → (s.state.access wide a).1 = 0 → ∀ i, ¬ (Raised i s.log ∧ ¬ Claimed i s.log)
  pending : ∀ a, a.IsClaim → (s.state.irqPending = true ↔ (s.state.access wide a).1 ≠ 0)
  once : ∀ later e between e' before i, s.log = later ++ e :: between ++ e' :: before → e.Claims i → e'.Claims i →
    ∃ c ∈ between, c.access.Completes i

/-- An access leaves the sources it is not about as they were. -/
def Frame (wide : Nat → BitVec 32) (s : Logged Plic Event) (a : Access) : Prop :=
  ∀ i, ¬ (⟨a, (s.state.access wide a).1⟩ : Event).Changes i →
    (s.state.access wide a).2.pending.getLsbD i = s.state.pending.getLsbD i ∧
    (s.state.access wide a).2.served.getLsbD i = s.state.served.getLsbD i

def Correct (wide : Nat → BitVec 32) (as : List Access) : Prop :=
  Always (step wide) (Protocol wide) as start ∧ Along (step wide) (Frame wide) as start

/-- The source is one of the device's. -/
def Access.Valid : Access → Prop
  | .setIrq irq _ => irq < NUM_IRQS
  | _ => True

/-- The source has a bit in the masks. -/
def Access.HasBit : Access → Prop
  | .setIrq irq _ => irq < 32
  | _ => True

/-! ## One access -/

section Steps
variable {wide : Nat → BitVec 32} {d : Plic} {i : Nat}

/-- The device says of each source what the log says. -/
structure Agrees (d : Plic) (log : List Event) : Prop where
  pending : ∀ i, d.pending.getLsbD i = true ↔ Raised i log
  served : ∀ i, d.served.getLsbD i = true ↔ Claimed i log

theorem getLsbD_bit {n : Nat} (hn : n < 32) (i : Nat) : ((1 : BitVec 32) <<< n).getLsbD i = decide (n = i) := by
  refine (BitVec.getLsbD_twoPow n i).trans ?_
  simp [hn]

theorem getLsbD_or_bit (x : BitVec 32) {n : Nat} (hn : n < 32) (i : Nat) :
    (x ||| (1 : BitVec 32) <<< n).getLsbD i = if n = i then true else x.getLsbD i := by
  rw [BitVec.getLsbD_or, getLsbD_bit hn]
  by_cases h : n = i <;> simp [h]

theorem getLsbD_and_not_bit (x : BitVec 32) {n : Nat} (hn : n < 32) (i : Nat) :
    (x &&& ~~~((1 : BitVec 32) <<< n)).getLsbD i = if n = i then false else x.getLsbD i := by
  rw [BitVec.getLsbD_and, BitVec.getLsbD_not, getLsbD_bit hn]
  by_cases h : n = i
  · simp [h]
  · by_cases hi : i < 32
    · simp [h, hi]
    · simp [h, hi, BitVec.getLsbD_of_ge x i (by omega)]

theorem getLsbD_mask (i : Nat) : d.mask.getLsbD i = true ↔ d.pending.getLsbD i = true ∧ ¬ d.served.getLsbD i = true := by
  unfold mask
  rw [BitVec.getLsbD_and, BitVec.getLsbD_not]
  by_cases hi : i < 32
  · simp [hi]
  · simp [hi, BitVec.getLsbD_of_ge d.pending i (by omega)]

theorem setIrq_pending {irq : Nat} (h : irq < 32) (val : BitVec 32) (i : Nat) :
    (d.setIrq wide irq val).pending.getLsbD i = if irq = i then decide (val ≠ 0) else d.pending.getLsbD i := by
  unfold setIrq shl
  rw [if_pos h]
  by_cases hv : val = 0
  · rw [if_neg (not_not.2 hv)]
    rw [getLsbD_and_not_bit d.pending h]
    simp [hv]
  · rw [if_pos hv]
    rw [getLsbD_or_bit d.pending h, decide_eq_true hv]

@[simp] theorem setIrq_served (irq : Nat) (val : BitVec 32) : (d.setIrq wide irq val).served = d.served := by
  unfold setIrq
  split <;> rfl

/-- Either nothing is left to claim, or the lowest source that is goes to the claim. -/
theorem claim_cases (d : Plic) :
    (d.mask = 0 ∧ d.claim = (0, d)) ∨
    ∃ n < 32, d.mask.getLsbD n = true ∧ d.claim.1.toNat = n + 1 ∧
      d.claim.2 = { d with served := d.served ||| (1 : BitVec 32) <<< n } := by
  by_cases h : d.mask = 0
  · refine .inl ⟨h, ?_⟩
    unfold claim
    rw [if_neg (not_not.2 h)]
  · have hlt : d.mask.ctz.toNat < 32 := BitVec.ctz_lt_iff_ne_zero.2 h
    refine .inr ⟨d.mask.ctz.toNat, hlt, BitVec.getLsbD_true_ctz_of_ne_zero h, ?_, ?_⟩
    · unfold claim
      rw [if_pos h]
      simp
      omega
    · unfold claim
      rw [if_pos h]

theorem complete_pending {w : Nat} (val : BitVec w) : (d.complete val).pending = d.pending := by
  unfold complete
  split <;> rfl

theorem complete_served {w : Nat} (hw : 32 ≤ w) (val : BitVec w) (i : Nat) :
    (d.complete val).served.getLsbD i = if val.toNat = i + 1 then false else d.served.getLsbD i := by
  have hlt := val.isLt
  have hpow : 2 ^ 32 ≤ 2 ^ w := Nat.pow_le_pow_right (by omega) hw
  have hone : (1 : BitVec w).toNat = 1 := by
    rw [show (1 : BitVec w) = BitVec.ofNat w 1 from rfl, BitVec.toNat_ofNat]
    exact Nat.mod_eq_of_lt (by omega)
  have hsub : (val - 1).toNat = if val.toNat = 0 then 2 ^ w - 1 else val.toNat - 1 := by
    rw [BitVec.toNat_sub, hone]
    split
    · rw [Nat.mod_eq_of_lt] <;> omega
    · rw [show 2 ^ w - 1 + val.toNat = val.toNat - 1 + 2 ^ w by omega, Nat.add_mod_right, Nat.mod_eq_of_lt (by omega)]
  unfold complete
  split
  · next h =>
    rw [getLsbD_and_not_bit d.served h]
    rw [hsub] at h ⊢
    split at h
    · omega
    · next h0 =>
      rw [if_neg h0]
      exact if_congr (by omega) rfl rfl
  · next h =>
    rw [hsub] at h
    split
    · next hi =>
      rw [if_neg (by omega)] at h
      exact BitVec.getLsbD_of_ge d.served i (by omega)
    · rfl

theorem raised_cons {e : Event} (h : ¬ e.access.IsSet) (log : List Event) (i : Nat) : Raised i (e :: log) ↔ Raised i log := by
  obtain ⟨a, v⟩ := e
  cases a with
  | setIrq irq val => exact absurd ⟨irq, val, rfl⟩ h
  | _ => rfl

theorem access_of_isClaim {a : Access} (h : a.IsClaim) (d : Plic) : d.access wide a = (d.claim.1.setWidth 64, d.claim.2) := by
  cases a with
  | load32 va =>
    obtain rfl : va = 4 := h
    rfl
  | load64 va =>
    obtain rfl : va = 0 := h
    rfl
  | setIrq irq val => exact h.elim
  | store32 va val => exact h.elim
  | store64 va val => exact h.elim

theorem claim_value (d : Plic) : (d.claim.1.setWidth 64).toNat = d.claim.1.toNat :=
  BitVec.toNat_setWidth_of_le (by decide)

/-- What an access does to the device: it claims, sets a source, completes one, or leaves the device alone. -/
theorem access_cases (wide : Nat → BitVec 32) (d : Plic) (a : Access) :
    (a.IsClaim ∧ (d.access wide a).2 = d.claim.2) ∨
    (∃ irq val, a = .setIrq irq val) ∨
    (¬ a.IsClaim ∧ ¬ a.IsSet ∧ ∃ w, 32 ≤ w ∧ ∃ val : BitVec w,
      (∀ i, a.Completes i ↔ val.toNat = i + 1) ∧ (d.access wide a).2 = d.complete val) ∨
    (¬ a.IsClaim ∧ ¬ a.IsSet ∧ (∀ i, ¬ a.Completes i) ∧ (d.access wide a).2 = d) := by
  by_cases hc : a.IsClaim
  · exact .inl ⟨hc, by rw [access_of_isClaim hc]⟩
  right
  cases a with
  | setIrq irq val => exact .inl ⟨irq, val, rfl⟩
  | load32 va => exact .inr (.inr ⟨hc, nofun, fun _ => id, congrArg Prod.snd (if_neg hc : d.load32 va = (0, d))⟩)
  | load64 va => exact .inr (.inr ⟨hc, nofun, fun _ => id, congrArg Prod.snd (if_neg hc : d.load64 va = (0, d))⟩)
  | store32 va val =>
    by_cases hva : va = 4
    · exact .inr (.inl ⟨hc, nofun, 32, Nat.le_refl 32, val, fun i => and_iff_right hva, if_pos hva⟩)
    · exact .inr (.inr ⟨hc, nofun, fun i hi => hva hi.1, if_neg hva⟩)
  | store64 va val =>
    by_cases hva : va = 0
    · exact .inr (.inl ⟨hc, nofun, 64, by decide, val, fun i => and_iff_right hva, if_pos hva⟩)
    · exact .inr (.inr ⟨hc, nofun, fun i hi => hva hi.1, if_neg hva⟩)

theorem not_completes {a : Access} (h : a.IsClaim ∨ a.IsSet) (i : Nat) : ¬ a.Completes i := by
  rintro hc
  cases a with
  | store32 va val =>
    rcases h with h | ⟨irq, val, h⟩
    · exact h
    · cases h
  | store64 va val =>
    rcases h with h | ⟨irq, val, h⟩
    · exact h
    · cases h
  | _ => exact hc

theorem not_isSet {a : Access} (h : a.IsClaim) : ¬ a.IsSet := by
  rintro ⟨irq, val, rfl⟩
  exact h

namespace Agrees

variable {log : List Event}

theorem mask (h : Agrees d log) (i : Nat) : d.mask.getLsbD i = true ↔ Raised i log ∧ ¬ Claimed i log := by
  rw [getLsbD_mask, h.pending, h.served]

/-- An access that neither claims nor completes nor sets a source leaves the masks as they are. -/
theorem other {e : Event} (h : Agrees d log) (hset : ¬ e.access.IsSet) (hclaim : ∀ i, ¬ e.Claims i)
    (hcomplete : ∀ i, ¬ e.access.Completes i) : Agrees d (e :: log) where
  pending i := by rw [h.pending, raised_cons hset]
  served i := by
    rw [h.served]
    exact ⟨fun hc => .inr ⟨hc, hcomplete i⟩, fun hc => hc.elim (fun he => absurd he (hclaim i)) And.left⟩

theorem setIrq {irq : Nat} (h : Agrees d log) (hirq : irq < 32) (val : BitVec 32) (v : BitVec 64) :
    Agrees (d.setIrq wide irq val) (⟨.setIrq irq val, v⟩ :: log) where
  pending i := by
    rw [setIrq_pending hirq]
    unfold Raised
    split
    · exact decide_eq_true_iff
    · exact h.pending i
  served i := by
    rw [setIrq_served, h.served]
    exact ⟨fun hc => .inr ⟨hc, id⟩, fun hc => hc.elim (fun he => he.1.elim) And.left⟩

theorem claim {e : Event} (h : Agrees d log) (hc : e.access.IsClaim) (hv : e.value.toNat = d.claim.1.toNat) :
    Agrees d.claim.2 (e :: log) := by
  have hset := not_isSet hc
  have hcomplete := not_completes (.inl hc)
  have hclaims : ∀ i, e.Claims i ↔ d.claim.1.toNat = i + 1 := by
    intro i
    rw [← hv]
    exact ⟨And.right, fun hi => ⟨hc, hi⟩⟩
  rcases claim_cases d with ⟨-, heq⟩ | ⟨n, hn, -, hval, hd⟩
  · rw [heq]
    refine h.other hset ?_ hcomplete
    intro i hi
    rw [hclaims, heq] at hi
    simp at hi
  · rw [hd]
    constructor
    · intro i
      rw [raised_cons hset]
      exact h.pending i
    · intro i
      have hclaim : e.Claims i ↔ n = i := by
        rw [hclaims, hval]
        omega
      unfold Claimed
      rw [hclaim, getLsbD_or_bit _ hn]
      split
      · next hi => exact iff_of_true rfl (.inl hi)
      · next hi =>
        rw [h.served]
        exact ⟨fun hc => .inr ⟨hc, hcomplete i⟩, fun hc => hc.elim (fun he => absurd he hi) And.left⟩

theorem complete {e : Event} {w : Nat} (hw : 32 ≤ w) {val : BitVec w} (h : Agrees d log) (hclaim : ¬ e.access.IsClaim)
    (hset : ¬ e.access.IsSet) (hc : ∀ i, e.access.Completes i ↔ val.toNat = i + 1) :
    Agrees (d.complete val) (e :: log) where
  pending i := by rw [complete_pending, h.pending, raised_cons hset]
  served i := by
    rw [complete_served hw]
    unfold Claimed
    rw [hc]
    split
    · next hi =>
      refine iff_of_false Bool.false_ne_true ?_
      rintro (he | he)
      · exact hclaim he.1
      · exact he.2 hi
    · next hi =>
      rw [h.served]
      exact ⟨fun hcl => .inr ⟨hcl, hi⟩, fun hcl => hcl.elim (fun he => absurd he.1 hclaim) And.left⟩

/-- The masks go on agreeing with the log, whatever is accessed next. -/
theorem access {a : Access} (h : Agrees d log) (ha : a.HasBit) :
    Agrees (d.access wide a).2 (⟨a, (d.access wide a).1⟩ :: log) := by
  rcases access_cases wide d a with ⟨hc, -⟩ | ⟨irq, val, rfl⟩ | ⟨hc, hset, w, hw, val, hval, hd⟩ | ⟨hc, hset, hcomplete, hd⟩
  · rw [access_of_isClaim hc]
    exact h.claim hc (claim_value d)
  · exact h.setIrq ha val 0
  · rw [hd]
    exact h.complete hw hc hset hval
  · rw [hd]
    exact h.other hset (fun i hi => hc hi.1) hcomplete

theorem claim_source (h : Agrees d log) (hv : d.claim.1.toNat = i + 1) : Raised i log ∧ ¬ Claimed i log := by
  rcases claim_cases d with ⟨-, heq⟩ | ⟨n, -, hbit, hval, -⟩
  · rw [heq] at hv
    simp at hv
  · obtain rfl : n = i := by omega
    exact (h.mask n).1 hbit

theorem claim_zero (h : Agrees d log) (hv : d.claim.1 = 0) (i : Nat) : ¬ (Raised i log ∧ ¬ Claimed i log) := by
  rcases claim_cases d with ⟨hmask, -⟩ | ⟨n, -, -, hval, -⟩
  · rw [← h.mask, hmask]
    simp
  · rw [hv] at hval
    simp at hval

end Agrees

theorem irqPending_iff (d : Plic) : d.irqPending = true ↔ d.claim.1 ≠ 0 := by
  have hpos : d.irqPending = true ↔ d.mask ≠ 0 := by
    unfold irqPending
    rw [decide_eq_true_iff, gt_iff_lt, BitVec.lt_def]
    exact Nat.pos_iff_ne_zero.trans (not_congr (BitVec.toNat_inj (y := 0)))
  rw [hpos]
  rcases claim_cases d with ⟨hmask, heq⟩ | ⟨n, -, hbit, hval, -⟩
  · rw [heq]
    exact iff_of_false (not_not.2 hmask) (not_not.2 rfl)
  · refine iff_of_true ?_ ?_
    · intro h0
      simp [h0] at hbit
    · intro h0
      simp [h0] at hval

/-- An access with a source of the masks touches the bits of its own source only. -/
theorem frame {s : Logged Plic Event} {a : Access} (ha : a.HasBit) : Frame wide s a := by
  intro i hi
  rcases access_cases wide s.state a with ⟨hc, hd⟩ | ⟨irq, val, rfl⟩ | ⟨-, -, w, hw, val, hval, hd⟩ | ⟨-, -, -, hd⟩
  · have hclaims : ¬ s.state.claim.1.toNat = i + 1 := by
      intro hv
      refine hi (.inr (.inl ⟨hc, ?_⟩))
      simp only [access_of_isClaim hc]
      rw [claim_value, hv]
    simp only [hd]
    rcases claim_cases s.state with ⟨-, heq⟩ | ⟨n, hn, -, hv, hd⟩
    · rw [heq]
      exact ⟨rfl, rfl⟩
    · rw [hd]
      exact ⟨rfl, by rw [getLsbD_or_bit _ hn, if_neg (by omega)]⟩
  · have hne : irq ≠ i := by
      rintro rfl
      exact hi (.inl ⟨val, rfl⟩)
    refine ⟨?_, congrArg (·.getLsbD i) (setIrq_served irq val)⟩
    exact (setIrq_pending ha val i).trans (if_neg hne)
  · have hne : ¬ val.toNat = i + 1 := fun hv => hi (.inr (.inr ((hval i).2 hv)))
    simp only [hd]
    exact ⟨congrArg (·.getLsbD i) (complete_pending val), (complete_served hw val i).trans (if_neg hne)⟩
  · rw [hd]
    exact ⟨rfl, rfl⟩

end Steps

/-! ## Whole runs -/

/-- Every claim of the log found its source unclaimed. -/
def Exclusive : List Event → Prop
  | [] => True
  | e :: log => (∀ i, e.Claims i → ¬ Claimed i log) ∧ Exclusive log

theorem Exclusive.append {later log : List Event} (h : Exclusive (later ++ log)) : Exclusive log := by
  induction later with
  | nil => exact h
  | cons e later ih => exact ih h.2

theorem claimed_append {between : List Event} {e : Event} {before : List Event} {i : Nat} (he : e.Claims i)
    (hnone : ∀ c ∈ between, ¬ c.access.Completes i) : Claimed i (between ++ e :: before) := by
  induction between with
  | nil => exact .inl he
  | cons c between ih =>
    refine .inr ⟨ih fun c' hc' => hnone c' (List.mem_cons_of_mem c hc'), ?_⟩
    exact hnone c List.mem_cons_self

/-- Between two claims of a source there is a completion of it. -/
theorem Exclusive.once {log later between before : List Event} {e e' : Event} {i : Nat} (h : Exclusive log)
    (hlog : log = later ++ e :: between ++ e' :: before) (he : e.Claims i) (he' : e'.Claims i) :
    ∃ c ∈ between, c.access.Completes i := by
  by_contra hnone
  push Not at hnone
  rw [hlog, List.append_assoc] at h
  exact h.append.1 i he (claimed_append he' hnone)

section Runs
variable {wide : Nat → BitVec 32}

/-- What every state of a run satisfies. -/
structure Inv (s : Logged Plic Event) : Prop where
  agrees : Agrees s.state s.log
  exclusive : Exclusive s.log

theorem inv_start : Inv start where
  agrees := ⟨fun i => by simp [start, fresh, Raised], fun i => by simp [start, fresh, Claimed]⟩
  exclusive := trivial

theorem inv_step {s s' : Logged Plic Event} {a : Access} (h : Inv s) (ha : a.HasBit) (hs : step wide s a = some s') :
    Inv s' := by
  obtain rfl := Option.some.inj hs
  refine ⟨h.agrees.access ha, ?_, h.exclusive⟩
  rintro i ⟨hc, hv⟩
  simp only [access_of_isClaim hc] at hv
  rw [claim_value] at hv
  exact (h.agrees.claim_source hv).2

theorem Inv.protocol {s : Logged Plic Event} (h : Inv s) : Protocol wide s where
  source a ha i hv := by
    rw [access_of_isClaim ha, claim_value] at hv
    exact h.agrees.claim_source hv
  none a ha hv i := by
    rw [access_of_isClaim ha] at hv
    have hzero : s.state.claim.1.toNat = 0 := (claim_value s.state).symm.trans (congrArg BitVec.toNat hv)
    exact h.agrees.claim_zero (BitVec.eq_of_toNat_eq hzero) i
  pending a ha := by
    rw [access_of_isClaim ha, irqPending_iff, not_iff_not, ← BitVec.toNat_inj, ← BitVec.toNat_inj, claim_value]
    exact Iff.rfl
  once later e between e' before i hlog he he' := h.exclusive.once hlog he he'

theorem correct_of_hasBit {as : List Access} (h : ∀ a ∈ as, a.HasBit) : Correct wide as := by
  have hok : Along (step wide) (fun _ a => a.HasBit) as start := Along.of_forall h start
  constructor
  · refine (hok.always ?_ inv_start).mono fun s hs => hs.protocol
    intro s a s' hI ha hs
    exact inv_step hI ha hs
  · refine Along.imp (I := fun _ => True) ?_ ?_ trivial hok
    · exact fun _ _ _ _ _ _ => trivial
    · intro s a _ ha
      exact frame ha

example : (((fresh.setIrq (fun _ => 0) 3 1).load32 4).1, ((fresh.setIrq (fun _ => 0) 3 1).load32 4).2.claim.1) = (4, 0) := by
  decide +kernel

/-- Source 3 is raised, claimed, and completed. -/
theorem correct_of_hasBit_source3 : Correct (fun _ => 0) [.setIrq 3 1, .load32 4, .store32 4 4] :=
  correct_of_hasBit (by simp [Access.HasBit])

/-- Source 32 is one of the device's but has no bit. Whatever its shift gives, it is lost or another source is claimed for it. -/
theorem not_correct_source32 : ¬ ∃ wide, ∀ as : List Access, (∀ a ∈ as, a.Valid) → Correct wide as := by
  rintro ⟨wide, h⟩
  have hrun := (h [.setIrq 32 1] (by simp [Access.Valid, NUM_IRQS])).1.2 _ rfl
  have hproto : Protocol wide ⟨fresh.setIrq wide 32 1, [⟨.setIrq 32 1, 0⟩]⟩ := hrun.head
  have hclaim : (Access.load32 4).IsClaim := rfl
  rcases claim_cases (fresh.setIrq wide 32 1) with ⟨-, heq⟩ | ⟨n, hn, -, hval, -⟩
  · refine hproto.none _ hclaim ?_ 32 ⟨?_, ?_⟩
    · rw [access_of_isClaim hclaim, heq]
      rfl
    · simp [Raised]
    · simp [Claimed, Event.Claims, Access.IsClaim]
  · have hraised := (hproto.source _ hclaim n (by rw [access_of_isClaim hclaim, claim_value, hval])).1
    simp only [Raised] at hraised
    rw [if_neg (by omega)] at hraised
    exact hraised

end Runs

end Plic

end Rv8.Emu
