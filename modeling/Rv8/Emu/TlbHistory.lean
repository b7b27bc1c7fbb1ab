import Rv8.Emu.Paging
/-!
# Histories of a TLB

`tagged_tlb` of `tlb-soft.h` at any power of two for its size, and `flush`. An
abstract TLB keeps, for each index, the insertion that is still in force. The code
keeps an entry instead, with the greatest tags where there is none, so a lookup of
these tags finds an entry that nobody inserted. And where `flush` is to remove the
entries of one address space in one domain, it removes those with either tag.
-/

namespace Rv8.Emu

/-! ## A TLB of any size -/

namespace Tlb

section Sized
variable (R : Rv) (k : Nat) (tlb : Tlb)

/-- The index into `2 ^ k` entries. -/
def indexOf (va : Nat) : Nat := (va >>> pageShift) &&& (2 ^ k - 1)

def lookupIn (pdid asid va : Nat) : Option TlbEntry :=
  let ent := tlb (indexOf k va)
  if ent.pdid = pdid ∧ ent.asid = asid ∧ ent.vpn = va >>> pageShift then some ent else none

def insertIn (va : Nat) (ent : TlbEntry) : Tlb := Function.update tlb (indexOf k va) ent

/-- `flush(pdid)` -/
def flushPdid (pdid : Nat) : Tlb := fun i => if (tlb i).pdid ≠ pdid then tlb i else reset R

end Sized

/-- The TLBs of the MMU have 128 entries. -/
theorem lookupIn_tlbShift : lookupIn tlbShift = lookup := rfl

theorem insertIn_tlbShift : insertIn tlbShift = insert := rfl

end Tlb

/-! ## Operations -/

/-- The arguments of `insert`. -/
structure TlbInsert (R : Rv) where
  (pdid asid va ptel pteb ppn : BitVec R.xlen)

namespace TlbInsert

variable {R : Rv} (ins : TlbInsert R)

def entry : TlbEntry :=
  Tlb.entry R ins.pdid.toNat ins.asid.toNat ins.va.toNat ins.ptel.toNat ins.pteb.toNat ins.ppn.toNat

def vpn : Nat := ins.va.toNat >>> pageShift

/-- The arguments fit the fields of an entry. The page number always does. -/
structure Fits : Prop where
  pdid : ins.pdid.toNat < 2 ^ 32
  asid : ins.asid.toNat < 2 ^ R.asidBits
  ptel : ins.ptel.toNat < 2 ^ 2
  pteb : ins.pteb.toNat < 2 ^ 10
  ppn : ins.ppn.toNat < 2 ^ R.ppnBits

end TlbInsert

inductive TlbOp (R : Rv)
  | insert (ins : TlbInsert R)
  | lookup (pdid asid va : BitVec R.xlen)
  | flushPdid (pdid : BitVec R.xlen)
  | flush (pdid asid : BitVec R.xlen)

section Runs
variable {R : Rv} (k : Nat)

def TlbOp.step (tlb : Tlb) : TlbOp R → Tlb
  | .insert ins => tlb.insertIn k ins.va.toNat ins.entry
  | .lookup .. => tlb
  | .flushPdid pdid => tlb.flushPdid R pdid.toNat
  | .flush pdid asid => tlb.flush R pdid.toNat asid.toNat

/-- A fresh TLB after some operations. -/
def tlbAfter (ops : List (TlbOp R)) : Tlb := ops.foldl (TlbOp.step k) (Tlb.empty R)

/-! ## The abstract TLB -/

/-- A flush that is to remove what was inserted. Without an address space it removes everything. -/
def TlbOp.Covers (ins : TlbInsert R) : TlbOp R → Prop
  | .insert _ | .lookup .. => False
  | .flushPdid pdid => ins.pdid = pdid
  | .flush pdid asid => asid = 0 ∨ (ins.pdid = pdid ∧ ins.asid = asid)

instance (ins : TlbInsert R) : (op : TlbOp R) → Decidable (op.Covers ins)
  | .insert _ | .lookup .. => inferInstanceAs (Decidable False)
  | .flushPdid pdid => inferInstanceAs (Decidable (ins.pdid = pdid))
  | .flush pdid asid => inferInstanceAs (Decidable (asid = 0 ∨ (ins.pdid = pdid ∧ ins.asid = asid)))

/-- The insertion in force at each index. -/
abbrev LiveTlb (R : Rv) := Nat → Option (TlbInsert R)

def LiveTlb.step (live : LiveTlb R) : TlbOp R → LiveTlb R
  | .insert ins => Function.update live (Tlb.indexOf k ins.va.toNat) (some ins)
  | op => fun i => (live i).filter fun ins => ¬ op.Covers ins

def liveAfter (ops : List (TlbOp R)) : LiveTlb R := ops.foldl (LiveTlb.step k) fun _ => none

/-- An operation after which an insertion is no longer in force. -/
def TlbOp.Evicts (ins : TlbInsert R) : TlbOp R → Prop
  | .insert ins' => Tlb.indexOf k ins'.va.toNat = Tlb.indexOf k ins.va.toNat
  | op => op.Covers ins

/-! ## What is asked of a TLB -/

/-- Whatever a lookup returns was inserted with the same tags, and not evicted since. -/
def LookupSound (ops : List (TlbOp R)) (pdid asid va : BitVec R.xlen) : Prop :=
  ∀ ent, (tlbAfter k ops).lookupIn k pdid.toNat asid.toNat va.toNat = some ent →
    ∃ ins ops1 ops2, ops = ops1 ++ .insert ins :: ops2 ∧ (∀ op ∈ ops2, ¬ op.Evicts k ins) ∧
      ins.pdid = pdid ∧ ins.asid = asid ∧ ins.vpn = va.toNat >>> pageShift ∧
      ent.ppn = ins.ppn.toNat ∧ ent.ptel = ins.ptel.toNat ∧ ent.pteb = ins.pteb.toNat

/-- A flush removes the entries with both tags, and no others. -/
def FlushExact (tlb : Tlb) (pdid asid : BitVec R.xlen) : Prop :=
  ∀ i, tlb.flush R pdid.toNat asid.toNat i =
    if (tlb i).pdid = pdid.toNat ∧ (tlb i).asid = asid.toNat then Tlb.reset R else tlb i

/-- An operation does what is asked of it after others. -/
def TlbOp.Meets (ops : List (TlbOp R)) : TlbOp R → Prop
  | .insert _ | .flushPdid _ => True
  | .lookup pdid asid va => LookupSound k ops pdid asid va
  | .flush pdid asid => asid ≠ 0 → FlushExact (tlbAfter k ops) pdid asid

/-! ## When it does so -/

/-- The tags of an empty entry. -/
def EmptyKey (pdid asid va : BitVec R.xlen) : Prop :=
  pdid = 0 ∧ asid.toNat = 2 ^ R.asidBits - 1 ∧ va.toNat >>> pageShift = 2 ^ Tlb.vpnBits R - 1

/-- The condition on an operation: what is inserted fits, no empty entry is looked up by its tags, and a flush
finds no entry with one of its tags only. -/
def TlbOp.Ok (live : LiveTlb R) : TlbOp R → Prop
  | .insert ins => ins.Fits
  | .lookup pdid asid va => EmptyKey pdid asid va → live (Tlb.indexOf k va.toNat) ≠ none
  | .flushPdid _ => True
  | .flush pdid asid => asid ≠ 0 → ∀ i ins, live i = some ins → (ins.pdid = pdid ↔ ins.asid = asid)

def OpsOk : LiveTlb R → List (TlbOp R) → Prop
  | _, [] => True
  | live, op :: ops => op.Ok k live ∧ OpsOk (live.step k op) ops

end Runs

/-! ## What is in force -/

section Live
variable {R : Rv} {k : Nat} {ops : List (TlbOp R)}

theorem liveAfter_snoc (ops : List (TlbOp R)) (op : TlbOp R) : liveAfter k (ops ++ [op]) = (liveAfter k ops).step k op := by
  unfold liveAfter
  rw [List.foldl_append]
  rfl

theorem tlbAfter_snoc (ops : List (TlbOp R)) (op : TlbOp R) : tlbAfter k (ops ++ [op]) = op.step k (tlbAfter k ops) := by
  unfold tlbAfter
  rw [List.foldl_append]
  rfl

/-- What is in force after an operation was inserted by it, or was in force before and is not evicted. -/
theorem step_live {live : LiveTlb R} {op : TlbOp R} {i : Nat} {ins : TlbInsert R} (h : live.step k op i = some ins) :
    (op = .insert ins ∧ Tlb.indexOf k ins.va.toNat = i) ∨
      (live i = some ins ∧ (Tlb.indexOf k ins.va.toNat = i → ¬ op.Evicts k ins)) := by
  cases op with
  | insert ins' =>
    by_cases hi : i = Tlb.indexOf k ins'.va.toNat
    · subst hi
      obtain rfl : ins' = ins := by simpa [LiveTlb.step] using h
      exact .inl ⟨rfl, rfl⟩
    · refine .inr ⟨by simpa [LiveTlb.step, Function.update_of_ne hi] using h, ?_⟩
      rintro rfl he
      exact hi he.symm
  | lookup pdid asid va => exact .inr (by simpa [LiveTlb.step, TlbOp.Covers, TlbOp.Evicts] using h)
  | flushPdid pdid =>
    obtain ⟨hl, hc⟩ := Option.filter_eq_some_iff.1 h
    have hkeep : ¬ TlbOp.Covers ins (.flushPdid pdid) := of_decide_eq_true hc
    exact .inr ⟨hl, fun _ => hkeep⟩
  | flush pdid asid =>
    obtain ⟨hl, hc⟩ := Option.filter_eq_some_iff.1 h
    have hkeep : ¬ TlbOp.Covers ins (.flush pdid asid) := of_decide_eq_true hc
    exact .inr ⟨hl, fun _ => hkeep⟩

/-- What is in force was inserted and not evicted since. -/
theorem liveAfter_history {i : Nat} {ins : TlbInsert R} (h : liveAfter k ops i = some ins) :
    Tlb.indexOf k ins.va.toNat = i ∧ ∃ ops1 ops2, ops = ops1 ++ .insert ins :: ops2 ∧ ∀ op ∈ ops2, ¬ op.Evicts k ins := by
  induction ops using List.reverseRecOn with
  | nil => cases h
  | append_singleton ops op ih =>
    rw [liveAfter_snoc] at h
    rcases step_live h with ⟨rfl, hi⟩ | ⟨hl, hkeep⟩
    · exact ⟨hi, ops, [], rfl, by simp⟩
    · obtain ⟨hi, ops1, ops2, rfl, hev⟩ := ih hl
      refine ⟨hi, ops1, ops2 ++ [op], by simp, fun op' hop => ?_⟩
      rcases List.mem_append.1 hop with hop | hop
      · exact hev op' hop
      · obtain rfl := List.mem_singleton.1 hop
        exact hkeep hi

end Live

/-! ## The entries against what is in force -/

/-- The entry that stands for what is in force. -/
def entryOf (R : Rv) : Option (TlbInsert R) → TlbEntry
  | none => Tlb.reset R
  | some ins => ins.entry

/-- The TLB holds what is in force, and that fits. -/
structure Holds {R : Rv} (tlb : Tlb) (live : LiveTlb R) : Prop where
  entry : ∀ i, tlb i = entryOf R (live i)
  fits : ∀ i ins, live i = some ins → ins.Fits

section Entries
variable {R : Rv} {k : Nat} {ins : TlbInsert R}

theorem TlbInsert.vpn_lt (ins : TlbInsert R) : ins.vpn < 2 ^ Tlb.vpnBits R := by
  have hx : 2 ^ R.xlen = 2 ^ pageShift * 2 ^ Tlb.vpnBits R := by cases R <;> rfl
  unfold TlbInsert.vpn
  rw [Nat.shiftRight_eq_div_pow]
  exact Nat.div_lt_of_lt_mul (hx ▸ ins.va.isLt)

theorem TlbInsert.Fits.entry_eq (h : ins.Fits) :
    ins.entry = ⟨ins.ppn.toNat, ins.asid.toNat, ins.vpn, ins.ptel.toNat, ins.pteb.toNat, ins.pdid.toNat⟩ := by
  unfold TlbInsert.entry Tlb.entry
  rw [Nat.mod_eq_of_lt h.ppn, Nat.mod_eq_of_lt h.asid, Nat.mod_eq_of_lt h.ptel, Nat.mod_eq_of_lt h.pteb, Nat.mod_eq_of_lt h.pdid]
  rw [show (ins.va.toNat >>> pageShift) % 2 ^ Tlb.vpnBits R = ins.vpn from Nat.mod_eq_of_lt ins.vpn_lt]

theorem holds_empty (R : Rv) : Holds (Tlb.empty R) (fun _ => none : LiveTlb R) := ⟨fun _ => rfl, nofun⟩

variable {tlb : Tlb} {live : LiveTlb R}

/-- An operation that resets an entry exactly where it covers the insertion it stands for. -/
theorem Holds.filter (h : Holds tlb live) {op : TlbOp R} {tlb' : Tlb}
    (hnone : ∀ i, tlb i = Tlb.reset R → tlb' i = Tlb.reset R)
    (hsome : ∀ i ins, live i = some ins → tlb' i = if op.Covers ins then Tlb.reset R else tlb i) :
    Holds tlb' fun i => (live i).filter fun ins => ¬ op.Covers ins := by
  refine ⟨fun i => ?_, fun i ins hl => h.fits i ins (Option.filter_eq_some_iff.1 hl).1⟩
  have hent := h.entry i
  cases hl : live i with
  | none =>
    rw [hl] at hent
    exact hnone i hent
  | some ins =>
    rw [hl] at hent
    rw [hsome i ins hl, hent, Option.filter_some]
    by_cases hc : op.Covers ins <;> simp [hc, entryOf]

theorem Holds.step (h : Holds tlb live) {op : TlbOp R} (hok : op.Ok k live) : Holds (op.step k tlb) (live.step k op) := by
  have hent {i : Nat} {ins : TlbInsert R} (hl : live i = some ins) : tlb i =
      ⟨ins.ppn.toNat, ins.asid.toNat, ins.vpn, ins.ptel.toNat, ins.pteb.toNat, ins.pdid.toNat⟩ := by
    rw [h.entry i, hl]
    exact (h.fits i ins hl).entry_eq
  cases op with
  | insert ins =>
    refine ⟨fun i => ?_, fun i ins' hl => ?_⟩
    · by_cases hi : i = Tlb.indexOf k ins.va.toNat
      · subst hi
        simp [TlbOp.step, LiveTlb.step, Tlb.insertIn, entryOf]
      · simp [TlbOp.step, LiveTlb.step, Tlb.insertIn, Function.update_of_ne hi, h.entry i]
    · rcases step_live hl with ⟨heq, -⟩ | ⟨hl, -⟩
      · obtain rfl := TlbOp.insert.inj heq
        exact hok
      · exact h.fits i ins' hl
  | lookup pdid asid va => exact h.filter (fun _ => id) fun i ins hl => by simp [TlbOp.step, TlbOp.Covers]
  | flushPdid pdid =>
    refine h.filter (fun i hi => ?_) fun i ins hl => ?_
    · simp [TlbOp.step, Tlb.flushPdid, hi]
    · simp [TlbOp.step, Tlb.flushPdid, hent hl, TlbOp.Covers, BitVec.toNat_inj]
  | flush pdid asid =>
    refine h.filter (fun i hi => ?_) fun i ins hl => ?_
    · simp [TlbOp.step, Tlb.flush, hi]
    · by_cases h0 : asid = 0
      · simp [TlbOp.step, Tlb.flush, TlbOp.Covers, h0]
      · have hboth := hok h0 i ins hl
        have h0' : asid.toNat ≠ 0 := fun hz => h0 (BitVec.eq_of_toNat_eq hz)
        have h0z : ¬ asid = 0#R.xlen := h0
        simp [TlbOp.step, Tlb.flush, hent hl, TlbOp.Covers, BitVec.toNat_inj, h0', h0z, hboth]

end Entries

/-! ## Operations in a run -/

section Meets
variable {R : Rv} {k : Nat} {ops : List (TlbOp R)}

theorem opsOk_append {live : LiveTlb R} {ops1 ops2 : List (TlbOp R)} (h : OpsOk k live (ops1 ++ ops2)) :
    OpsOk k live ops1 ∧ OpsOk k (ops1.foldl (LiveTlb.step k) live) ops2 := by
  induction ops1 generalizing live with
  | nil => exact ⟨trivial, h⟩
  | cons op ops ih =>
    obtain ⟨hop, hrest⟩ := h
    exact ⟨⟨hop, (ih hrest).1⟩, (ih hrest).2⟩

theorem holds_after (h : OpsOk k (fun _ => none) ops) : Holds (tlbAfter k ops) (liveAfter k ops) := by
  induction ops using List.reverseRecOn with
  | nil => exact holds_empty R
  | append_singleton ops op ih =>
    obtain ⟨hops, hop, -⟩ := opsOk_append h
    rw [tlbAfter_snoc, liveAfter_snoc]
    exact (ih hops).step hop

theorem lookupSound_of_holds {pdid asid va : BitVec R.xlen} (h : Holds (tlbAfter k ops) (liveAfter k ops))
    (hok : TlbOp.Ok k (liveAfter k ops) (.lookup pdid asid va)) : LookupSound k ops pdid asid va := by
  intro ent hent
  unfold Tlb.lookupIn at hent
  dsimp only at hent
  split at hent
  · rename_i hkey
    obtain rfl := Option.some.inj hent
    have hslot := h.entry (Tlb.indexOf k va.toNat)
    cases hl : liveAfter k ops (Tlb.indexOf k va.toNat) with
    | none =>
      -- the tags of an empty entry
      rw [hl] at hslot
      rw [hslot] at hkey
      obtain ⟨hp, ha, hv⟩ := hkey
      exact absurd hl (hok ⟨BitVec.eq_of_toNat_eq hp.symm, ha.symm, hv.symm⟩)
    | some ins =>
      rw [hl] at hslot
      have heq := hslot.trans (h.fits _ ins hl).entry_eq
      rw [heq] at hkey ⊢
      obtain ⟨-, ops1, ops2, hops, hev⟩ := liveAfter_history hl
      exact ⟨ins, ops1, ops2, hops, hev, BitVec.eq_of_toNat_eq hkey.1, BitVec.eq_of_toNat_eq hkey.2.1, hkey.2.2, rfl, rfl, rfl⟩
  · cases hent

theorem flushExact_of_holds {tlb : Tlb} {live : LiveTlb R} {pdid asid : BitVec R.xlen} (h : Holds tlb live) (h0 : asid ≠ 0)
    (hok : TlbOp.Ok k live (.flush pdid asid)) : FlushExact tlb pdid asid := by
  intro i
  have h0' : asid.toNat ≠ 0 := fun hz => h0 (BitVec.eq_of_toNat_eq hz)
  have hslot := h.entry i
  unfold Tlb.flush
  cases hl : live i with
  | none =>
    rw [hl] at hslot
    rw [hslot]
    split <;> split <;> rfl
  | some ins =>
    rw [hl] at hslot
    rw [hslot.trans (h.fits i ins hl).entry_eq]
    have hboth := hok h0 i ins hl
    simp [BitVec.toNat_inj, h0', hboth]

end Meets

/-- In a run where what is inserted fits, no empty entry is looked up by its tags and no flush finds an entry with
one of its tags only, every lookup is sound and every flush exact. -/
theorem tlb_meets {R : Rv} {k : Nat} {ops : List (TlbOp R)} (hok : OpsOk k (fun _ => none) ops) :
    ∀ ops1 op ops2, ops = ops1 ++ op :: ops2 → op.Meets k ops1 := by
  rintro ops1 op ops2 rfl
  obtain ⟨hops, hop, -⟩ := opsOk_append hok
  have hholds := holds_after hops
  cases op with
  | insert ins => trivial
  | lookup pdid asid va => exact lookupSound_of_holds hholds hop
  | flushPdid pdid => trivial
  | flush pdid asid => exact fun h0 => flushExact_of_holds hholds h0 hop

/-- Two pages of two address spaces in one domain. -/
def twoSpaces : List (TlbOp .rv64) :=
  [.insert ⟨0, 1, 0x10000, 0, 0xff, 1⟩, .insert ⟨0, 2, 0x11000, 0, 0xff, 2⟩]

theorem tlb_meets_lookup : LookupSound 7 twoSpaces 0 1 0x10000 := by
  have hok : OpsOk 7 (fun _ => none) (twoSpaces ++ [.lookup 0 1 0x10000]) := by
    refine ⟨⟨?_, ?_, ?_, ?_, ?_⟩, ⟨?_, ?_, ?_, ?_, ?_⟩, fun _ => ?_, trivial⟩
    all_goals decide
  exact tlb_meets hok twoSpaces _ [] rfl

/-- The flush of one of them removes both. And in a fresh TLB the greatest tags are found. -/
theorem not_tlb_meets_twoSpaces :
    ¬ TlbOp.Meets 7 twoSpaces (.flush 0 1) ∧
      ¬ TlbOp.Meets 7 ([] : List (TlbOp .rv64)) (.lookup 0 0x3ffffff 0xfffffffffffff000) := by
  constructor
  · intro h
    exact absurd (h (by decide) 0x11) (by decide)
  · intro h
    obtain ⟨ins, ops1, ops2, hops, -⟩ := h (Tlb.reset .rv64) (by decide)
    cases ops1 <;> cases hops

end Rv8.Emu
