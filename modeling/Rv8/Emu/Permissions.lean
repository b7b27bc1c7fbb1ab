import Rv8.Emu.AccessedDirty
/-!
# Permissions of pages

A translation is made for the effective privilege, which is `mpp` in machine mode with
`mprv` set. The permissions of the page it ends at are then checked for the current
mode. The two checks differ only for `mpp` at user level: machine mode passes pages
that a user may not see, and `pum` keeps it out of pages that a user may.
-/

namespace Rv8.Emu

open Rv8.Lib

/-! ## What a page grants -/

section Grants
variable {xlen : Nat} (proc : Processor xlen) (ent : TlbEntry)

/-- `mpp` in machine mode with `mprv` set, except for fetches, and else the current mode. -/
def effectivePrivilege (op : MmuOp) : Nat := if proc.mode = .M ∧ proc.mprv ∧ op ≠ .fetch then proc.mpp else proc.mode.toNat

/-- The bits R, W and X of the page allow the access. -/
def Granted : MmuCall → Prop
  | .instFetch .. => ent.pteb.testBit pteShiftX
  | .load .. => ent.pteb.testBit pteShiftR ∨ (ent.pteb.testBit pteShiftX ∧ proc.mxr)
  | .store .. => ent.pteb.testBit pteShiftW
  | .amo .. => (ent.pteb.testBit pteShiftR ∨ (ent.pteb.testBit pteShiftX ∧ proc.mxr)) ∧ ent.pteb.testBit pteShiftW

/-- The page does not allow the access at a privilege level. A page of the user is closed to the levels above for
fetches, and with `pum` also for data. -/
def PageForbiddenAt (level : Nat) (call : MmuCall) : Prop :=
  ¬ Granted proc ent call ∨
    if ent.pteb.testBit pteShiftU then level > RvMode.U.toNat ∧ (call.op = .fetch ∨ proc.pum) else level < RvMode.S.toNat

def PageForbidden (call : MmuCall) : Prop := PageForbiddenAt proc ent (effectivePrivilege proc call.op) call

/-- The check that a call makes. -/
def accessFault (level : Nat) : MmuCall → Bool
  | .instFetch .. => fetchAccessFault level (some ent)
  | .load .. => loadAccessFault proc level (some ent)
  | .store .. => storeAccessFault proc level (some ent)
  | .amo .. => loadAccessFault proc level (some ent) || storeAccessFault proc level (some ent)

theorem accessFault_iff (level : Nat) (call : MmuCall) : accessFault proc ent level call = true ↔ PageForbiddenAt proc ent level call := by
  unfold PageForbiddenAt
  cases call with
  | instFetch pc pcOffset =>
    cases hx : ent.pteb.testBit pteShiftX <;> cases hu : ent.pteb.testBit pteShiftU <;>
      simp [accessFault, fetchAccessFault, Granted, MmuCall.op, hx, hu]
  | load n va val =>
    cases hr : ent.pteb.testBit pteShiftR <;> cases hx : ent.pteb.testBit pteShiftX <;> cases hm : proc.mxr <;>
      cases hu : ent.pteb.testBit pteShiftU <;> simp [accessFault, loadAccessFault, Granted, MmuCall.op, hr, hx, hm, hu]
  | store n va val =>
    cases hw : ent.pteb.testBit pteShiftW <;> cases hu : ent.pteb.testBit pteShiftU <;>
      simp [accessFault, storeAccessFault, Granted, MmuCall.op, hw, hu]
  | amo n aop va val1 val2 =>
    cases hr : ent.pteb.testBit pteShiftR <;> cases hx : ent.pteb.testBit pteShiftX <;> cases hm : proc.mxr <;>
      cases hw : ent.pteb.testBit pteShiftW <;> cases hu : ent.pteb.testBit pteShiftU <;>
        simp [accessFault, loadAccessFault, storeAccessFault, Granted, MmuCall.op, hr, hx, hm, hw, hu]

end Grants

/-! ## The page that a translation ends at -/

section Found
variable (R : Rv) (ptm : Ptm) (proc : Processor R.xlen) (op : MmuOp) (va : Nat) (s : Mmu UserMemory)

/-- The leaf of a translation, the address it gives and the state it leaves: an entry of the TLB that is taken as
it is, or the entry that a walk ends at. -/
inductive Found : TlbEntry → Nat → Mmu UserMemory → Prop
  | hit {ent : TlbEntry} : (s.tlb op).lookup proc.pdid.toNat (asid R proc) va = some ent →
      ent.pteb &&& adFlags op ≠ adFlags op → Found ent (pageTranslateOffset R ptm ent.ppn va ent.ptel) s
  | walk {leaf : Leaf} {s' : Mmu UserMemory} :
      (∀ ent, (s.tlb op).lookup proc.pdid.toNat (asid R proc) va = some ent → ent.pteb &&& adFlags op = adFlags op) →
      walkPageTable (mmuSoft R) R ptm proc op va s = .ok leaf s' →
      Found (Tlb.entry R proc.pdid.toNat (asid R proc) va leaf.level (pteFlags leaf.pte) (ptm.ppn leaf.pte)) leaf.pa
        (if leaf.pa = 0 then s'
          else s'.setTlb op ((s'.tlb op).insert va
            (Tlb.entry R proc.pdid.toNat (asid R proc) va leaf.level (pteFlags leaf.pte) (ptm.ppn leaf.pte))))

end Found

section Translation
variable {R : Rv} {ptm : Ptm} {proc : Processor R.xlen} {op : MmuOp} {va : Nat} {s s1 : Mmu UserMemory} {ent : TlbEntry} {pa : Nat}

theorem tlbMiss_walk {leaf : Leaf} {s' : Mmu UserMemory} (tlbEnt : Option TlbEntry)
    (h : walkPageTable (mmuSoft R) R ptm proc op va s = .ok leaf s') :
    pageTranslateAddrTlbMiss (mmuSoft R) R ptm proc op va tlbEnt s =
      if leaf.pa = 0 then .ok (0, tlbEnt) s'
      else
        let ent := Tlb.entry R proc.pdid.toNat (asid R proc) va leaf.level (pteFlags leaf.pte) (ptm.ppn leaf.pte)
        .ok (leaf.pa, some ent) (s'.setTlb op ((s'.tlb op).insert va ent)) := by
  unfold pageTranslateAddrTlbMiss
  rw [Prog.bind_ok h]
  split <;> rfl

theorem Found.translateAddr (hp : paging R proc op = some ptm) (h : Found R ptm proc op va s ent pa s1) :
    ∃ tlbEnt, translateAddr (mmuSoft R) R proc op va s = .ok (pa, tlbEnt) s1 ∧ (pa ≠ 0 → tlbEnt = some ent) := by
  rw [translateAddr_paged hp]
  simp only [pageTranslateAddr, bind, Prog.gets]
  cases h with
  | hit hl had =>
    rw [hl]
    dsimp only
    rw [if_pos had]
    exact ⟨some ent, rfl, fun _ => rfl⟩
  | walk hl hw =>
    have hmiss (tlbEnt : Option TlbEntry) := tlbMiss_walk tlbEnt hw
    cases hlook : (s.tlb op).lookup proc.pdid.toNat (asid R proc) va with
    | none =>
      dsimp only
      rw [hmiss]
      split
      · next h0 => exact ⟨none, by rw [h0], fun hne => absurd h0 hne⟩
      · exact ⟨_, rfl, fun _ => rfl⟩
    | some e =>
      dsimp only
      rw [if_neg (not_not.2 (hl e hlook)), hmiss]
      split
      · next h0 => exact ⟨some e, by rw [h0], fun hne => absurd h0 hne⟩
      · exact ⟨_, rfl, fun _ => rfl⟩

end Translation

/-! ## Accesses -/

/-- The memory behind the page answers the access. -/
def Answers (R : Rv) (pa : Nat) (m : UserMemory) : MmuCall → Prop
  | .instFetch .. => ∃ r m', (mmuSoft R).instBytes pa m = .ok r m'
  | .load n .. => ∃ v m', (mmuSoft R).load n (pa % 2 ^ R.xlen) m = .ok v m'
  | .store n _ val => ∃ m', (mmuSoft R).store n (pa % 2 ^ R.xlen) val m = .ok () m'
  | .amo n aop _ _ val2 => ∃ v m1 m', (mmuSoft R).load n (pa % 2 ^ R.xlen) m = .ok v m1 ∧
      (mmuSoft R).store n (pa % 2 ^ R.xlen) (amoVal R n aop v val2) m1 = .ok () m'

/-- What a call returns that leaves the variables of its caller as they are. -/
def MmuCall.untouched : MmuCall → MmuResult
  | .instFetch _ pcOffset => .inst 0 pcOffset
  | .load _ _ val => .value val
  | .store .. => .stored
  | .amo _ _ _ val1 _ => .value val1

/-- The step raises an access fault. -/
def Faults {R : Rv} (step : MmuStep R) (s : Mmu UserMemory) : Prop :=
  ∃ s', step.exec (mmuSoft R) s = .error (.raise (faultCause step.call.op) step.call.va) s'

section Access
variable {R : Rv} {proc : Processor R.xlen} {s s1 : Mmu UserMemory} {pa : Nat} {ent : TlbEntry} {tlbEnt : Option TlbEntry}

theorem onMem_of_ok {α : Type} {m : Prog Unit UserMemory α} {e : MmuExit} {a : α} {mem : UserMemory} (h : m s.mem = .ok a mem) :
    Mmu.onMem m e s = .ok a { s with mem } := by
  unfold Mmu.onMem Prog.onError Prog.zoom
  rw [h]

theorem onMem_of_error {α : Type} {m : Prog Unit UserMemory α} {e : MmuExit} {e' : Unit} {mem : UserMemory}
    (h : m s.mem = .error e' mem) : Mmu.onMem m e s = .error e { s with mem } := by
  unfold Mmu.onMem Prog.onError Prog.zoom
  rw [h]
  rfl

theorem onMem_of_undefined {α : Type} {m : Prog Unit UserMemory α} {e : MmuExit} (h : m s.mem = .undefined) :
    Mmu.onMem m e s = .undefined := by
  unfold Mmu.onMem Prog.onError Prog.zoom
  rw [h]

/-- A call that is not misaligned goes on with the address it translated. -/
theorem aligned_translated {α : Type} {op : MmuOp} {n va : Nat} {cause : RvCause}
    {f : Nat × Option TlbEntry → MmuM UserMemory α} (hal : ¬ Misaligned n va)
    (ht : translateAddr (mmuSoft R) R proc op va s = .ok (pa, tlbEnt) s1) :
    (if Misaligned n va then .throw (.raise cause va) else translateAddr (mmuSoft R) R proc op va >>= f) s =
      f (pa, tlbEnt) s1 := by
  rw [if_neg hal]
  exact Prog.bind_ok ht

/-- A value that is only wrapped does not decide whether a call fails. -/
theorem bind_pure_error_iff {α β : Type} {m : MmuM UserMemory α} {f : α → β} {e : MmuExit} :
    (∃ s', (m >>= fun a => pure (f a)) s = .error e s') ↔ ∃ s', m s = .error e s' := by
  cases hm : m s with
  | ok a t =>
    rw [Prog.bind_ok hm]
    simp [pure]
  | error e' t => simp [Prog.bind_error hm]
  | undefined => simp [Prog.bind_undefined hm]

end Access

section Steps
variable {R : Rv} {step : MmuStep R} {s s1 : Mmu UserMemory} {pa : Nat} {ent : TlbEntry} {tlbEnt : Option TlbEntry}

/-- An address that translates to 0 is taken for a failed translation: the call returns at once. -/
theorem exec_zero (hal : ¬ Misaligned step.call.size step.call.va)
    (ht : translateAddr (mmuSoft R) R step.proc step.call.op step.call.va s = .ok (0, tlbEnt) s1) :
    step.exec (mmuSoft R) s = .ok step.call.untouched s1 := by
  obtain ⟨proc, call⟩ := step
  unfold MmuStep.exec
  cases call with
  | instFetch pc pcOffset =>
    refine Prog.bind_ok (a := (0, pcOffset)) ?_
    exact aligned_translated hal ht
  | load n va val =>
    refine Prog.bind_ok (a := val) ?_
    exact aligned_translated hal ht
  | store n va val =>
    refine Prog.bind_ok (a := ()) ?_
    exact aligned_translated hal ht
  | amo n aop va val1 val2 =>
    refine Prog.bind_ok (a := val1) ?_
    exact aligned_translated hal ht

theorem not_faults_zero (hal : ¬ Misaligned step.call.size step.call.va)
    (ht : translateAddr (mmuSoft R) R step.proc step.call.op step.call.va s = .ok (0, tlbEnt) s1) : ¬ Faults step s := by
  rintro ⟨s', h⟩
  cases (exec_zero hal ht).symm.trans h

/-- Where the memory answers, the check for the current mode decides. -/
theorem faults_iff_accessFault (hal : ¬ Misaligned step.call.size step.call.va)
    (ht : translateAddr (mmuSoft R) R step.proc step.call.op step.call.va s = .ok (pa, some ent) s1) (h0 : pa ≠ 0)
    (hmem : Answers R pa s1.mem step.call) :
    Faults step s ↔ accessFault step.proc ent step.proc.mode.toNat step.call = true := by
  obtain ⟨proc, call⟩ := step
  unfold Faults MmuStep.exec
  cases call with
  | instFetch pc pcOffset =>
    obtain ⟨r, m', hm⟩ := hmem
    dsimp only [MmuCall.size, MmuCall.va, MmuCall.op] at hal ht ⊢
    rw [bind_pure_error_iff, instFetch, aligned_translated hal ht]
    dsimp only [accessFault]
    rw [if_neg h0]
    cases fetchAccessFault proc.mode.toNat (some ent) with
    | true => simp [Prog.throw, faultCause]
    | false => simp [onMem_of_ok hm]
  | load n va val =>
    obtain ⟨r, m', hm⟩ := hmem
    dsimp only [MmuCall.size, MmuCall.va, MmuCall.op] at hal ht ⊢
    rw [bind_pure_error_iff, load, aligned_translated hal ht]
    dsimp only [accessFault]
    rw [if_neg h0]
    cases loadAccessFault proc proc.mode.toNat (some ent) with
    | true => simp [Prog.throw, faultCause]
    | false => simp [onMem_of_ok hm]
  | store n va val =>
    obtain ⟨m', hm⟩ := hmem
    dsimp only [MmuCall.size, MmuCall.va, MmuCall.op] at hal ht ⊢
    rw [bind_pure_error_iff, store, aligned_translated hal ht]
    dsimp only [accessFault]
    rw [if_neg h0]
    cases storeAccessFault proc proc.mode.toNat (some ent) with
    | true => simp [Prog.throw, faultCause]
    | false => simp [onMem_of_ok hm]
  | amo n aop va val1 val2 =>
    obtain ⟨v, m1, m', hl, hs⟩ := hmem
    dsimp only [MmuCall.size, MmuCall.va, MmuCall.op] at hal ht ⊢
    rw [bind_pure_error_iff, amo, aligned_translated hal ht]
    dsimp only [accessFault]
    rw [if_neg h0]
    cases loadAccessFault proc proc.mode.toNat (some ent) with
    | true => simp [Prog.throw, faultCause]
    | false =>
      simp only [Bool.false_eq_true, if_false, Bool.false_or]
      rw [Prog.bind_ok (onMem_of_ok hl)]
      cases storeAccessFault proc proc.mode.toNat (some ent) with
      | true => simp [Prog.throw, faultCause]
      | false =>
        simp only [Bool.false_eq_true, if_false, iff_false]
        rintro ⟨s', h⟩
        rw [Prog.bind_ok (onMem_of_ok hs)] at h
        cases h

end Steps

/-! ## The level that is checked -/

/-- Machine mode accesses data for the user: the page allows the kind of access, and is not a user's page that the
machine may access too. -/
def Misjudged {xlen : Nat} (proc : Processor xlen) (ent : TlbEntry) (call : MmuCall) : Prop :=
  proc.mode = .M ∧ proc.mpp = RvMode.U.toNat ∧ Granted proc ent call ∧ (ent.pteb.testBit pteShiftU → proc.pum)

section Levels
variable {R : Rv} {proc : Processor R.xlen} {op : MmuOp} {ptm : Ptm}

/-- Paged accesses are made below machine mode, or for the mode in `mpp`. -/
theorem effectivePrivilege_of_paging (hp : paging R proc op = some ptm) :
    (proc.mode ≠ .M ∧ effectivePrivilege proc op = proc.mode.toNat) ∨
      (proc.mode = .M ∧ op ≠ .fetch ∧ proc.mpp ≤ RvMode.S.toNat ∧ effectivePrivilege proc op = proc.mpp) := by
  by_cases hM : proc.mode = .M
  · refine .inr ⟨hM, ?_⟩
    have heff : ¬ effectiveMode R proc op ≥ RvMode.M.toNat := by
      intro h
      unfold paging at hp
      rw [if_pos h] at hp
      cases hp
    by_cases hmprv : proc.mode.toNat ≥ RvMode.M.toNat ∧ proc.mprv ∧ op ≠ .fetch ∧ proc.mpp ≤ RvMode.S.toNat
    · refine ⟨hmprv.2.2.1, hmprv.2.2.2, ?_⟩
      exact if_pos ⟨hM, hmprv.2.1, hmprv.2.2.1⟩
    · unfold effectiveMode at heff
      rw [if_neg hmprv, hM] at heff
      exact absurd (Nat.le_refl _) heff
  · exact .inl ⟨hM, if_neg fun h => hM h.1⟩

/-- The check for the current mode differs from the check for the effective privilege for machine mode alone. -/
theorem forbiddenAt_mode_iff {call : MmuCall} (ent : TlbEntry) (hp : paging R proc call.op = some ptm) :
    (PageForbiddenAt proc ent proc.mode.toNat call ↔ PageForbidden proc ent call) ↔ ¬ Misjudged proc ent call := by
  unfold PageForbidden Misjudged
  rcases effectivePrivilege_of_paging hp with ⟨hM, heff⟩ | ⟨hM, hop, hmpp, heff⟩
  · simp [heff, hM]
  · have hcases : proc.mpp = RvMode.U.toNat ∨ proc.mpp = RvMode.S.toNat := by
      have hle : proc.mpp ≤ 1 := hmpp
      show proc.mpp = 0 ∨ proc.mpp = 1
      omega
    rw [heff, hM]
    unfold PageForbiddenAt
    rcases hcases with h | h
    · by_cases hg : Granted proc ent call <;> cases hu : ent.pteb.testBit pteShiftU <;> cases hpum : proc.pum <;>
        simp [h, hg, hop, RvMode.toNat]
    · cases hu : ent.pteb.testBit pteShiftU <;> simp [h, RvMode.toNat]

end Levels

/-- A paged access raises an access fault exactly when the page forbids it for the effective privilege, unless it is
misjudged for machine mode, or forbidden at an address that translates to 0. -/
theorem faults_iff_forbidden {R : Rv} (step : MmuStep R) {ptm : Ptm} {s s1 : Mmu UserMemory} {ent : TlbEntry} {pa : Nat}
    (hal : ¬ Misaligned step.call.size step.call.va) (hp : paging R step.proc step.call.op = some ptm)
    (hf : Found R ptm step.proc step.call.op step.call.va s ent pa s1) (hmem : pa ≠ 0 → Answers R pa s1.mem step.call) :
    (Faults step s ↔ PageForbidden step.proc ent step.call) ↔
      if pa = 0 then ¬ PageForbidden step.proc ent step.call else ¬ Misjudged step.proc ent step.call := by
  obtain ⟨tlbEnt, ht, hent⟩ := hf.translateAddr hp
  by_cases h0 : pa = 0
  · subst h0
    have hno := not_faults_zero hal ht
    simp [hno]
  · rw [if_neg h0]
    rw [hent h0] at ht
    rw [faults_iff_accessFault hal ht h0 (hmem h0), accessFault_iff]
    exact forbiddenAt_mode_iff ent hp

/-- A load from the page of `gigapageRam` in machine mode, with `mprv` set and `mpp` at user level. -/
def userLoadStep : MmuStep .rv64 :=
  ⟨{ supervisor 0x80000 with mode := .M, csrs.mstatus := 9 <<< 24 ||| 1 <<< 17 }, .load 8 0x1000 0⟩

/-- A load from the page of `gigapageRam` ends at its entry, which is not a user's page, and the memory answers. -/
theorem found_gigapageRam (proc : Processor 64) (hptbr : proc.csrs.sptbr = 0x80000) (hpdid : proc.pdid = 0) :
    ∃ ent s1, Found .rv64 .sv39 proc .load 0x1000 (emptyTlbs .rv64 gigapageRam) ent 0x80001000 s1 ∧ ent.pteb = 0x4f ∧
      Answers .rv64 0x80001000 s1.mem (.load 8 0x1000 0) := by
  have hw : (walkPageTable (mmuSoft .rv64) .rv64 .sv39 (supervisor 0x80000) .load 0x1000
      (emptyTlbs .rv64 gigapageRam)).result.map (fun r => (r.1, (r.2.mem.load 8 0x80001000).isSome)) =
        some (⟨0x80001000, 0x2000004f, 2⟩, true) := by
    decide +kernel
  obtain ⟨⟨leaf, s'⟩, hr, hl⟩ := Option.map_eq_some_iff.1 hw
  obtain ⟨rfl, hload⟩ := Prod.mk.inj hl
  have hwalk : walkPageTable (mmuSoft .rv64) .rv64 .sv39 proc .load 0x1000 (emptyTlbs .rv64 gigapageRam) =
      .ok ⟨0x80001000, 0x2000004f, 2⟩ s' := by
    unfold walkPageTable
    rw [hptbr]
    exact Outcome.eq_ok hr
  have hmiss : ((emptyTlbs .rv64 gigapageRam).tlb .load).lookup proc.pdid.toNat (asid .rv64 proc) 0x1000 = none := by
    unfold asid
    rw [hptbr, hpdid]
    decide
  refine ⟨_, _, .walk (fun ent h => ?_) hwalk, rfl, ?_⟩
  · cases hmiss.symm.trans h
  · obtain ⟨v, hv⟩ := Option.isSome_iff_exists.1 hload
    exact ⟨v, _, busLoad_some hv⟩

theorem faults_iff_forbidden_supervisor :
    ∃ ent s1, Found .rv64 .sv39 loadStep.proc .load 0x1000 (emptyTlbs .rv64 gigapageRam) ent 0x80001000 s1 ∧
      (Faults loadStep (emptyTlbs .rv64 gigapageRam) ↔ PageForbidden loadStep.proc ent loadStep.call) := by
  obtain ⟨ent, s1, hf, -, hmem⟩ := found_gigapageRam loadStep.proc rfl rfl
  refine ⟨ent, s1, hf, (faults_iff_forbidden loadStep (by decide) rfl hf fun _ => hmem).2 ?_⟩
  rw [if_neg (by decide)]
  rintro ⟨hM, -⟩
  exact absurd hM (by decide)

/-- Machine mode loads for the user from a page that the user may not access. -/
theorem not_faults_forbidden :
    ∃ ent s1, paging .rv64 userLoadStep.proc .load = some .sv39 ∧
      Found .rv64 .sv39 userLoadStep.proc .load 0x1000 (emptyTlbs .rv64 gigapageRam) ent 0x80001000 s1 ∧
      PageForbidden userLoadStep.proc ent userLoadStep.call ∧ ¬ Faults userLoadStep (emptyTlbs .rv64 gigapageRam) := by
  obtain ⟨ent, s1, hf, hpteb, hmem⟩ := found_gigapageRam userLoadStep.proc rfl rfl
  refine ⟨ent, s1, rfl, hf, ?_, ?_⟩
  · refine .inr ?_
    rw [hpteb]
    decide
  · have hrun : (userLoadStep.exec (mmuSoft .rv64) (emptyTlbs .rv64 gigapageRam)).result.isSome := by decide +kernel
    obtain ⟨⟨r, s'⟩, hr⟩ := Option.isSome_iff_exists.1 hrun
    rintro ⟨t, ht⟩
    rw [Outcome.eq_ok hr] at ht
    cases ht

end Rv8.Emu
