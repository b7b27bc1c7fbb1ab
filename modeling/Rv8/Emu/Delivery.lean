import Rv8.Emu.Permissions
/-!
# Accesses that happen or trap

The calls of `mmu_soft` take a physical address of 0 for a failed translation, which
has raised its exception. But 0 is also an address: that of virtual address 0 where
nothing is translated, and that of the first page where a table maps it. Such an
access is dropped, and nothing is raised.
-/

namespace Rv8.Emu

open Rv8.Lib

/-! ## Where an address leads -/

/-- What the TLB and the page tables make of a virtual address. -/
inductive Destination
  /-- A physical address, and the memory with the flags of the page up to date. -/
  | physical (pa : Nat) (mem : UserMemory)
  | fault
  | undefined
  /-- `panic("unsupported vm mode")` -/
  | unsupported

section Destination
variable (R : Rv) (ptm : Ptm) (proc : Processor R.xlen) (op : MmuOp) (va : Nat) (s : Mmu UserMemory)

def Destination.ofWalk : Outcome Unit UserMemory Leaf → Destination
  | .ok leaf mem => .physical leaf.pa mem
  | .error _ _ => .fault
  | .undefined => .undefined

/-- By the tables of `sptbr`. -/
def walkDestination : Destination :=
  .ofWalk (finish R ptm va s.mem op (findFrom R ptm va s.mem (ptm.levels - 1) (rootTable R proc.csrs.sptbr.toNat)))

def pagedDestination : Destination :=
  match (s.tlb op).lookup proc.pdid.toNat (asid R proc) va with
  | some ent =>
    if ent.pteb &&& adFlags op ≠ adFlags op then .physical (pageTranslateOffset R ptm ent.ppn va ent.ptel) s.mem
    else walkDestination R ptm proc op va s
  | none => walkDestination R ptm proc op va s

def destination : Destination :=
  if effectiveMode R proc op ≥ RvMode.M.toNat then .physical va s.mem
  else
    match RvVm.ofNat proc.vm with
    | some .mbare => .physical va s.mem
    | some (.paged ptm) => pagedDestination R ptm proc op va s
    | none => .unsupported

end Destination

/-- The translation is left as the destination says. -/
def TranslatesTo (op : MmuOp) (va : Nat) : Destination → Outcome MmuExit (Mmu UserMemory) (Nat × Option TlbEntry) → Prop
  | .physical pa mem, o => ∃ tlbEnt s1, o = .ok (pa, tlbEnt) s1 ∧ s1.mem = mem
  | .fault, o => ∃ s1, o = .error (.raise (faultCause op) va) s1
  | .undefined, o => o = .undefined
  | .unsupported, o => ∃ s1, o = .error .panic s1

section Translation
variable {R : Rv} {ptm : Ptm} {proc : Processor R.xlen} {op : MmuOp} {va : Nat} {s : Mmu UserMemory}

theorem setTlb_mem (s : Mmu UserMemory) (op : MmuOp) (tlb : Tlb) : (s.setTlb op tlb).mem = s.mem := by
  cases op <;> rfl

theorem tlbMiss_translatesTo (tlbEnt : Option TlbEntry) :
    TranslatesTo op va (walkDestination R ptm proc op va s) (pageTranslateAddrTlbMiss (mmuSoft R) R ptm proc op va tlbEnt s) := by
  unfold walkDestination
  rw [← walkFrom_eq]
  cases hw : walkFrom (mmuSoft R) R ptm op va (ptm.levels - 1) (rootTable R proc.csrs.sptbr.toNat) s.mem with
  | ok leaf mem =>
    have hwalk : walkPageTable (mmuSoft R) R ptm proc op va s = .ok leaf { s with mem } := onMem_of_ok hw
    rw [tlbMiss_walk tlbEnt hwalk]
    split
    · next h0 =>
      refine ⟨tlbEnt, { s with mem }, ?_, rfl⟩
      rw [h0]
    · exact ⟨_, _, rfl, setTlb_mem ..⟩
  | error e mem =>
    have hwalk : walkPageTable (mmuSoft R) R ptm proc op va s = .error (.raise (faultCause op) va) { s with mem } := onMem_of_error hw
    exact ⟨_, Prog.bind_error hwalk⟩
  | undefined =>
    have hwalk : walkPageTable (mmuSoft R) R ptm proc op va s = .undefined := onMem_of_undefined hw
    exact Prog.bind_undefined hwalk

theorem pageTranslateAddr_translatesTo :
    TranslatesTo op va (pagedDestination R ptm proc op va s) (pageTranslateAddr (mmuSoft R) R ptm proc op va s) := by
  unfold pagedDestination
  simp only [pageTranslateAddr, bind, Prog.gets]
  cases (s.tlb op).lookup proc.pdid.toNat (asid R proc) va with
  | none => exact tlbMiss_translatesTo none
  | some ent =>
    dsimp only
    split
    · exact ⟨some ent, s, rfl, rfl⟩
    · exact tlbMiss_translatesTo (some ent)

variable (R proc op va s) in
theorem translateAddr_translatesTo :
    TranslatesTo op va (destination R proc op va s) (translateAddr (mmuSoft R) R proc op va s) := by
  unfold destination translateAddr
  split
  · exact ⟨none, s, rfl, rfl⟩
  · cases RvVm.ofNat proc.vm with
    | none => exact ⟨s, rfl⟩
    | some vm =>
      cases vm with
      | mbare => exact ⟨none, s, rfl, rfl⟩
      | paged ptm => exact pageTranslateAddr_translatesTo

end Translation

/-! ## What an access is to do -/

/-- The length of the instruction that starts with a parcel. -/
def parcelLength (parcel : Nat) : Option Nat :=
  if parcel &&& 0b11 ≠ 0b11 then some 2
  else if parcel &&& 0b11100 ≠ 0b11100 then some 4
  else if parcel &&& 0b111111 = 0b011111 then some 6
  else if parcel &&& 0b1111111 = 0b0111111 then some 8
  else none

/-- The first parcels side by side. -/
def joined (parcel : Nat → Nat) : Nat → Nat
  | 0 => 0
  | k + 1 => joined parcel k ||| parcel k <<< (16 * k)

/-- The memory holds an instruction of this length at the address. -/
def InstAt (R : Rv) (m : UserMemory) (pa inst length : Nat) : Prop :=
  ∃ parcel : Nat → Nat, (∀ i < length / 2, m.load 2 ((pa + 2 * i) % 2 ^ R.xlen) = some (parcel i)) ∧
    parcelLength (parcel 0) = some length ∧ inst = joined parcel (length / 2)

/-- The bytes asked for are taken from, or delivered to, the physical address. -/
def Happens (R : Rv) (pa : Nat) (m : UserMemory) (call : MmuCall) (r : MmuResult) (m' : UserMemory) : Prop :=
  match call, r with
  | .instFetch .., .inst inst length => InstAt R m pa inst length ∧ m' = m
  | .load n .., .value val => m.load n (pa % 2 ^ R.xlen) = some val ∧ m' = m
  | .store n _ val, .stored => m.store n (pa % 2 ^ R.xlen) val = some m'
  | .amo n aop _ _ val2, .value val1 =>
    m.load n (pa % 2 ^ R.xlen) = some val1 ∧ m.store n (pa % 2 ^ R.xlen) (amoVal R n aop val1 val2) = some m'
  | _, _ => False

/-- The call raises an exception, or the access happens where its address leads. -/
def TrapsOrHappens {R : Rv} (step : MmuStep R) (s : Mmu UserMemory) : Prop :=
  (step.exec (mmuSoft R)).wp
    (fun r s' => ∃ pa mem, destination R step.proc step.call.op step.call.va s = .physical pa mem ∧
      Happens R pa mem step.call r s'.mem)
    (fun e _ => e ≠ .panic) s

/-- An access at address 0 that leaves the memory and the variables of the caller as they are. -/
def ChangesNothing (R : Rv) (m : UserMemory) : MmuCall → Prop
  | .instFetch _ pcOffset => pcOffset = 2 ∧ m.load 2 0 = some 0
  | .load n _ val => m.load n 0 = some val
  | .store n _ val => m.store n 0 val = some m
  | .amo n aop _ val1 val2 => m.load n 0 = some val1 ∧ m.store n 0 (amoVal R n aop val1 val2) = some m

/-- The address leads to an exception, or to a physical address that is not 0. -/
def Delivers {R : Rv} (step : MmuStep R) : Destination → Prop
  | .physical pa mem => pa = 0 → ChangesNothing R mem step.call
  | .fault => True
  | .undefined => False
  | .unsupported => False

/-! ## The calls -/

theorem wp_load {n a : Nat} {m : UserMemory} {post : Nat → UserMemory → Prop} {err : Unit → UserMemory → Prop} :
    (UserMemory.busLoad n a).wp post err m ↔ (∀ v, m.load n a = some v → post v m) ∧ (m.load n a = none → err () m) := by
  cases hl : m.load n a with
  | none => simp [Prog.wp_of_error (busLoad_none hl)]
  | some v => simp [Prog.wp_of_ok (busLoad_some hl)]

theorem wp_store {n a val : Nat} {m : UserMemory} {post : Unit → UserMemory → Prop} {err : Unit → UserMemory → Prop} :
    (UserMemory.busStore n a val).wp post err m ↔
      (∀ m', m.store n a val = some m' → post () m') ∧ (m.store n a val = none → err () m) := by
  unfold Prog.wp UserMemory.busStore
  cases m.store n a val <;> simp

/-- What is read as an instruction is one. -/
theorem wp_instAt (R : Rv) (pa : Nat) (m : UserMemory) :
    (softInstBytes R UserMemory.busLoad pa).wp (fun r m' => InstAt R m pa r.1 r.2 ∧ m' = m) (fun _ _ => True) m := by
  unfold softInstBytes
  simp only [Prog.wp_bind, Prog.wp_ite, wp_load, Prog.wp_pure]
  refine ⟨fun p0 h0 => ?_, fun _ => trivial⟩
  refine ⟨fun c2 => ?_, fun c2 => ⟨fun c4 => ?_, fun c4 => ⟨fun c6 => ?_, fun c6 => ⟨fun c8 => ?_, fun c8 => trivial⟩⟩⟩⟩
  · refine ⟨⟨fun _ => p0, fun i hi => ?_, if_pos c2, ?_⟩, trivial⟩
    · obtain rfl : i = 0 := by omega
      exact h0
    · simp [joined]
  · refine ⟨fun p1 h1 => ⟨⟨fun i => if i = 0 then p0 else p1, fun i hi => ?_, ?_, ?_⟩, trivial⟩, fun _ => trivial⟩
    · rcases i with _ | _ | i
      · exact h0
      · exact h1
      · omega
    · simp [parcelLength, c2, c4]
    · simp [joined]
  · refine ⟨fun p1 h1 => ⟨fun p2 h2 => ⟨⟨fun i => if i = 0 then p0 else if i = 1 then p1 else p2, fun i hi => ?_, ?_, ?_⟩, trivial⟩,
      fun _ => trivial⟩, fun _ => trivial⟩
    · rcases i with _ | _ | _ | i
      · exact h0
      · exact h1
      · exact h2
      · omega
    · simp [parcelLength, c2, c4, c6]
    · simp [joined]
  · refine ⟨fun p1 h1 => ⟨fun p2 h2 => ⟨fun p3 h3 => ⟨⟨fun i => if i = 0 then p0 else if i = 1 then p1 else
      if i = 2 then p2 else p3, fun i hi => ?_, ?_, ?_⟩, trivial⟩, fun _ => trivial⟩, fun _ => trivial⟩, fun _ => trivial⟩
    · rcases i with _ | _ | _ | _ | i
      · exact h0
      · exact h1
      · exact h2
      · exact h3
      · omega
    · simp [parcelLength, c2, c4, c6, c8]
    · simp [joined]

section Calls
variable {R : Rv} {step : MmuStep R} {s s1 : Mmu UserMemory} {pa : Nat} {mem : UserMemory} {tlbEnt : Option TlbEntry}

/-- A call that only wraps what it got returns where the rest of it does. -/
theorem wp_wrapped {α β : Type} {m : MmuM UserMemory α} {f : α → β} {post : β → Mmu UserMemory → Prop}
    {err : MmuExit → Mmu UserMemory → Prop} :
    (m >>= fun a => pure (f a)).wp post err s ↔ m.wp (fun a => post (f a)) err s := by
  rw [Prog.wp_bind]
  rfl

theorem wp_aligned {α : Type} {op : MmuOp} {n va : Nat} {proc : Processor R.xlen} {cause : RvCause}
    {f : Nat × Option TlbEntry → MmuM UserMemory α} {post : α → Mmu UserMemory → Prop}
    {err : MmuExit → Mmu UserMemory → Prop} (hal : ¬ Misaligned n va)
    (ht : translateAddr (mmuSoft R) R proc op va s = .ok (pa, tlbEnt) s1) :
    Prog.wp (if Misaligned n va then .throw (.raise cause va) else translateAddr (mmuSoft R) R proc op va >>= f) post err s ↔
      (f (pa, tlbEnt)).wp post err s1 := by
  rw [if_neg hal, Prog.wp_bind, Prog.wp_of_ok ht]

/-- At an address that is not 0 the access happens, or is refused with an exception. -/
theorem exec_happens (hal : ¬ Misaligned step.call.size step.call.va)
    (ht : translateAddr (mmuSoft R) R step.proc step.call.op step.call.va s = .ok (pa, tlbEnt) s1) (h0 : pa ≠ 0) :
    (step.exec (mmuSoft R)).wp (fun r s' => Happens R pa s1.mem step.call r s'.mem) (fun e _ => e ≠ .panic) s := by
  have hraise (cause : RvCause) (va : Nat) : MmuExit.raise cause va ≠ .panic := nofun
  obtain ⟨proc, call⟩ := step
  cases call with
  | instFetch pc pcOffset =>
    refine wp_wrapped.2 ((wp_aligned hal ht).2 ?_)
    dsimp only
    rw [if_neg h0, Prog.wp_ite]
    refine ⟨fun _ => hraise _ _, fun _ => wp_onMem.2 ?_⟩
    exact Prog.wp_mono (wp_instAt R pa s1.mem) (fun _ _ h => h) fun _ _ _ => hraise _ _
  | load n va val =>
    refine wp_wrapped.2 ((wp_aligned hal ht).2 ?_)
    dsimp only
    rw [if_neg h0, Prog.wp_ite]
    refine ⟨fun _ => hraise _ _, fun _ => wp_onMem.2 (wp_load.2 ⟨fun v hv => ⟨hv, rfl⟩, fun _ => hraise _ _⟩)⟩
  | store n va val =>
    refine wp_wrapped.2 ((wp_aligned hal ht).2 ?_)
    dsimp only
    rw [if_neg h0, Prog.wp_ite]
    refine ⟨fun _ => hraise _ _, fun _ => wp_onMem.2 (wp_store.2 ⟨fun m' hm' => hm', fun _ => hraise _ _⟩)⟩
  | amo n aop va val1 val2 =>
    refine wp_wrapped.2 ((wp_aligned hal ht).2 ?_)
    dsimp only
    rw [if_neg h0, Prog.wp_ite, Prog.wp_bind]
    refine ⟨fun _ => hraise _ _, fun _ => wp_onMem.2 (wp_load.2 ⟨fun v hv => ?_, fun _ => hraise _ _⟩)⟩
    rw [Prog.wp_ite, Prog.wp_bind]
    refine ⟨fun _ => hraise _ _, fun _ => wp_onMem.2 (wp_store.2 ⟨fun m' hm' => ⟨hv, hm'⟩, fun _ => hraise _ _⟩)⟩

theorem parcel_zero_of_joined {parcel : Nat → Nat} {k : Nat} (h : joined parcel (k + 1) = 0) : parcel 0 = 0 := by
  induction k with
  | zero => simpa [joined] using h
  | succ k ih => exact ih (Nat.or_eq_zero_iff.1 h).1

theorem parcelLength_pos {parcel length : Nat} (h : parcelLength parcel = some length) : 0 < length / 2 := by
  unfold parcelLength at h
  split_ifs at h <;> simp only [Option.some.injEq] at h <;> omega

theorem instAt_zero_iff {m : UserMemory} {length : Nat} : InstAt R m 0 0 length ↔ length = 2 ∧ m.load 2 0 = some 0 := by
  constructor
  · rintro ⟨parcel, hload, hlen, hinst⟩
    obtain ⟨k, hk⟩ := Nat.exists_eq_succ_of_ne_zero (parcelLength_pos hlen).ne'
    rw [hk] at hinst
    have h0 := parcel_zero_of_joined hinst.symm
    rw [h0] at hlen
    obtain rfl : 2 = length := Option.some.inj hlen
    exact ⟨rfl, by simpa [h0] using hload 0 (by omega)⟩
  · rintro ⟨rfl, h⟩
    refine ⟨fun _ => 0, fun i hi => ?_, rfl, rfl⟩
    obtain rfl : i = 0 := by omega
    simpa using h

theorem happens_zero_iff (call : MmuCall) : Happens R 0 mem call call.untouched mem ↔ ChangesNothing R mem call := by
  cases call with
  | instFetch pc pcOffset => simp [Happens, MmuCall.untouched, ChangesNothing, instAt_zero_iff]
  | load n va val => simp [Happens, MmuCall.untouched, ChangesNothing]
  | store n va val => simp [Happens, MmuCall.untouched, ChangesNothing]
  | amo n aop va val1 val2 => simp [Happens, MmuCall.untouched, ChangesNothing]

end Calls

/-- A call raises an exception or its access happens unless its address leads to physical address 0, the walk runs
below the last level, or the mode is not supported. At 0 it still seems to happen if it changes nothing. -/
theorem trapsOrHappens_iff {R : Rv} (step : MmuStep R) (s : Mmu UserMemory) :
    TrapsOrHappens step s ↔
      Misaligned step.call.size step.call.va ∨ Delivers step (destination R step.proc step.call.op step.call.va s) := by
  unfold TrapsOrHappens
  obtain ⟨cause, badaddr, hmis, hexec⟩ | ⟨hal, access, hexec, -⟩ := exec_cases step
  · refine ⟨fun _ => .inl hmis, fun _ => ?_⟩
    rw [hexec]
    exact (nofun : MmuExit.raise cause badaddr ≠ .panic)
  rw [or_iff_right hal]
  have ht := translateAddr_translatesTo R step.proc step.call.op step.call.va s
  cases hd : destination R step.proc step.call.op step.call.va s with
  | physical pa mem =>
    rw [hd] at ht
    obtain ⟨tlbEnt, s1, ht, rfl⟩ := ht
    by_cases h0 : pa = 0
    · subst h0
      rw [Prog.wp_of_ok (exec_zero hal ht)]
      simp [Delivers, ← happens_zero_iff]
    · refine ⟨fun _ h => absurd h h0, fun _ => ?_⟩
      exact Prog.wp_mono (exec_happens hal ht h0) (fun r s' h => ⟨pa, s1.mem, rfl, h⟩) fun _ _ h => h
  | fault =>
    rw [hd] at ht
    obtain ⟨s1, ht⟩ := ht
    rw [hexec, Prog.wp_of_error (Prog.bind_error ht)]
    simp [Delivers]
  | undefined =>
    rw [hd] at ht
    rw [hexec]
    simp [Delivers, Prog.wp_of_undefined (Prog.bind_undefined ht)]
  | unsupported =>
    rw [hd] at ht
    obtain ⟨s1, ht⟩ := ht
    rw [hexec, Prog.wp_of_error (Prog.bind_error ht)]
    simp [Delivers]

/-- A load from address 0 in machine mode. -/
def zeroLoadStep : MmuStep .rv64 := ⟨{ supervisor 0x80000 with mode := .M }, .load 8 0 0⟩

/-- With RAM at `defaultRamBase` only, the load is neither made nor refused. -/
theorem not_trapsOrHappens_zero : ¬ TrapsOrHappens zeroLoadStep (emptyTlbs .rv64 gigapageRam) := by
  have ht : translateAddr (mmuSoft .rv64) .rv64 zeroLoadStep.proc .load 0 (emptyTlbs .rv64 gigapageRam) =
      .ok (0, none) (emptyTlbs .rv64 gigapageRam) := rfl
  have hal : ¬ Misaligned zeroLoadStep.call.size zeroLoadStep.call.va := by decide
  unfold TrapsOrHappens
  rw [Prog.wp_of_ok (exec_zero hal ht)]
  rintro ⟨pa, mem, hd, hload, -⟩
  obtain ⟨rfl, rfl⟩ := Destination.physical.inj hd
  exact absurd hload (by decide)

end Rv8.Emu
