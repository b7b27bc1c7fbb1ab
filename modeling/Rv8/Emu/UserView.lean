import Rv8.Emu.UserMode
/-!
# What user mode can observe

Two runs of the same calls from user mode, over memories that agree on what user mode can
see: the tables, the pages that are mapped for user mode to read or execute, and the few
bytes behind an executable page, since a fetch takes the parcels of an instruction from
consecutive physical addresses. The calls return the same in both.
-/

namespace Rv8.Emu

open Rv8.Lib

/-! ## What is visible -/

/-- The bytes of the host that an access of `n` bytes at `a` touches. -/
def cells (m : UserMemory) (n a : Nat) : Set (Nat × Nat) := { c | ∃ k off, m.uva a = some (k, off) ∧ ∃ i < n, c = (k, off + i) }

section Visible
variable (R : Rv) (ptm : Ptm) (m : UserMemory) (sptbr : Nat)

/-- A page is mapped for user mode at an address that an access of `n` bytes may have. -/
structure UserPage (n va pte level : Nat) : Prop where
  fits : va < 2 ^ R.xlen
  size : n ∈ [1, 2, 4, 8]
  aligned : ¬ Misaligned n va
  leads : ∃ mpa, LeadsTo R ptm m sptbr va mpa pte level
  user : pte.testBit pteShiftU

/-- The bytes of the host that a call from user mode may depend on. -/
inductive Visible : Set (Nat × Nat)
  | entry {a : Nat} {c : Nat × Nat} : TableEntry R ptm m sptbr a → c ∈ cells m ptm.pteSize a → Visible c
  | data {n va pte level : Nat} {c : Nat × Nat} : UserPage R ptm m sptbr n va pte level →
      (pte.testBit pteShiftR ∨ pte.testBit pteShiftX) → c ∈ cells m n (pagePa R ptm va pte level) → Visible c
  | inst {va pte level j : Nat} {c : Nat × Nat} : UserPage R ptm m sptbr 2 va pte level → pte.testBit pteShiftX → j < 4 →
      c ∈ cells m 2 ((pageTranslateOffset R ptm (ptm.ppn pte) va level + 2 * j) % 2 ^ R.xlen) → Visible c

end Visible

/-- Memories with the same map and the same bytes in `V`. -/
structure SameCells (V : Set (Nat × Nat)) (m m' : UserMemory) : Prop where
  segments : m'.segments = m.segments
  host : ∀ c ∈ V, m'.host c.1 c.2 = m.host c.1 c.2

structure SameView (V : Set (Nat × Nat)) (s t : Mmu UserMemory) : Prop where
  itlb : t.l1Itlb = s.l1Itlb
  dtlb : t.l1Dtlb = s.l1Dtlb
  mem : SameCells V s.mem t.mem

namespace SameCells

variable {V : Set (Nat × Nat)} {m m' m1 : UserMemory} {n a val : Nat}

theorem uva (h : SameCells V m m') (a : Nat) : m'.uva a = m.uva a := by
  unfold UserMemory.uva
  rw [h.segments]

theorem load (h : SameCells V m m') (hc : cells m n a ⊆ V) : m'.load n a = m.load n a := by
  unfold UserMemory.load
  rw [h.uva a]
  cases hu : m.uva a with
  | none => rfl
  | some u =>
    rw [Option.map_some, Option.map_some]
    refine congrArg some (leValue_congr fun i hi => ?_)
    exact h.host (u.1, u.2 + i) (hc ⟨u.1, u.2, hu, i, hi, rfl⟩)

/-- The same store to both keeps them in agreement. -/
theorem store (h : SameCells V m m') (hs : m.store n a val = some m1) : ∃ m1', m'.store n a val = some m1' ∧ SameCells V m1 m1' := by
  obtain ⟨k, off, hu, rfl⟩ := UserMemory.store_spec hs
  refine ⟨m'.write n val k off, ?_, h.segments, ?_⟩
  · unfold UserMemory.store
    rw [h.uva a, hu, Option.map_some]
  · intro c hc
    unfold UserMemory.write
    dsimp only
    rw [h.host c hc]

theorem store_none (h : SameCells V m m') (hs : m.store n a val = none) : m'.store n a val = none := by
  unfold UserMemory.store at hs ⊢
  rw [Option.map_eq_none_iff] at hs ⊢
  rw [h.uva a, hs]

end SameCells

/-! ## Calls on the memory -/

section Calls
variable {V : Set (Nat × Nat)} {m m' : UserMemory} {s t : Mmu UserMemory} {n a val : Nat}

theorem rel_busLoad (h : SameCells V m m') (hc : cells m n a ⊆ V) :
    (UserMemory.busLoad n a m).Rel (fun m1 m1' => m1 = m ∧ m1' = m') (UserMemory.busLoad n a m') := by
  have hload := h.load hc
  cases hl : m.load n a with
  | none =>
    rw [busLoad_none hl, busLoad_none (hload.trans hl)]
    exact ⟨rfl, rfl, rfl⟩
  | some v =>
    rw [busLoad_some hl, busLoad_some (hload.trans hl)]
    exact ⟨rfl, rfl, rfl⟩

theorem rel_busStore (h : SameCells V m m') : (UserMemory.busStore n a val m).Rel (SameCells V) (UserMemory.busStore n a val m') := by
  cases hs : m.store n a val with
  | none =>
    have hs' := h.store_none hs
    unfold UserMemory.busStore
    rw [hs, hs']
    exact ⟨rfl, h⟩
  | some m1 =>
    obtain ⟨m1', hs', h1⟩ := h.store hs
    rw [busStore_some hs, busStore_some hs']
    exact ⟨rfl, h1⟩

/-- The parcels of an instruction are the same in both memories. -/
theorem rel_softInstBytes {R : Rv} {pa : Nat} (h : SameCells V m m') (hc : ∀ j < 4, cells m 2 ((pa + 2 * j) % 2 ^ R.xlen) ⊆ V) :
    (softInstBytes R UserMemory.busLoad pa m).Rel (fun m1 m1' => m1 = m ∧ m1' = m') (softInstBytes R UserMemory.busLoad pa m') := by
  have hparcel {α : Type} (j : Nat) (hj : j < 4) {f : Nat → Prog Unit UserMemory α}
      (hf : ∀ v, (f v m).Rel (fun m1 m1' => m1 = m ∧ m1' = m') (f v m')) :
      ((UserMemory.busLoad 2 ((pa + 2 * j) % 2 ^ R.xlen) >>= f) m).Rel (fun m1 m1' => m1 = m ∧ m1' = m')
        ((UserMemory.busLoad 2 ((pa + 2 * j) % 2 ^ R.xlen) >>= f) m') := by
    refine Prog.rel_bind (rel_busLoad h (hc j hj)) fun v s' t' _ hst => ?_
    obtain ⟨rfl, rfl⟩ := hst
    exact hf v
  unfold softInstBytes
  refine hparcel 0 (by decide) fun inst => ?_
  split
  · exact ⟨rfl, rfl, rfl⟩
  split
  · exact hparcel 1 (by decide) fun _ => ⟨rfl, rfl, rfl⟩
  split
  · exact hparcel 1 (by decide) fun _ => hparcel 2 (by decide) fun _ => ⟨rfl, rfl, rfl⟩
  split
  · exact hparcel 1 (by decide) fun _ => hparcel 2 (by decide) fun _ => hparcel 3 (by decide) fun _ => ⟨rfl, rfl, rfl⟩
  · exact ⟨rfl, rfl, rfl⟩

/-- A call on the memory of two states, whatever it does to what they agree on. -/
theorem rel_onMem {α : Type} {x : Prog Unit UserMemory α} {e : MmuExit} {Q : UserMemory → UserMemory → Prop} (h : SameView V s t)
    (hx : (x s.mem).Rel Q (x t.mem)) (hQ : ∀ m m', Q m m' → SameCells V m m') :
    (Mmu.onMem x e s).Rel (SameView V) (Mmu.onMem x e t) := by
  cases hs : x s.mem with
  | undefined =>
    rw [onMem_of_undefined hs]
    trivial
  | ok a m =>
    cases ht : x t.mem with
    | ok b m' =>
      rw [hs, ht] at hx
      obtain ⟨rfl, hm⟩ := hx
      rw [onMem_of_ok hs, onMem_of_ok ht]
      exact ⟨rfl, h.itlb, h.dtlb, hQ m m' hm⟩
    | error e' m' => rw [hs, ht] at hx; exact hx.elim
    | undefined => rw [hs, ht] at hx; exact hx.elim
  | error e' m =>
    cases ht : x t.mem with
    | ok b m' => rw [hs, ht] at hx; exact hx.elim
    | error e'' m' =>
      rw [hs, ht] at hx
      obtain ⟨rfl, hm⟩ := hx
      rw [onMem_of_error hs, onMem_of_error ht]
      exact ⟨rfl, h.itlb, h.dtlb, hQ m m' hm⟩
    | undefined => rw [hs, ht] at hx; exact hx.elim

/-- A call that reads only. -/
theorem rel_onMem_read {α : Type} {x : Prog Unit UserMemory α} {e : MmuExit} (h : SameView V s t)
    (hx : (x s.mem).Rel (fun m m' => m = s.mem ∧ m' = t.mem) (x t.mem)) : (Mmu.onMem x e s).Rel (SameView V) (Mmu.onMem x e t) := by
  refine rel_onMem h hx fun m m' hm => ?_
  obtain ⟨rfl, rfl⟩ := hm
  exact h.mem

end Calls

/-! ## Translation -/

section Translation
variable {R : Rv} {ptm : Ptm} {m0 : UserMemory} {proc : Processor R.xlen} {op : MmuOp} {va sptbr pdid : Nat} {s t : Mmu UserMemory}

/-- A walk ends at the same entry in both memories. -/
theorem SameCells.findFrom {m m' : UserMemory} (h : SameCells (Visible R ptm m0 sptbr) m m') (hm : Guarded R ptm m0 sptbr m)
    (hva : va < 2 ^ R.xlen) :
    findFrom R ptm va m' (ptm.levels - 1) (rootTable R sptbr) = findFrom R ptm va m (ptm.levels - 1) (rootTable R sptbr) := by
  have hsame : SameEntries ptm id m m' (consulted R ptm m va (ptm.levels - 1) (rootTable R sptbr)) := by
    intro a ha
    rw [consulted_sameEntries (tells_setAd ptm) (hm.sameEntries hva)] at ha
    refine congrArg (Option.map id) (h.load fun c hc => ?_)
    refine .entry ⟨va, hva, ha⟩ ?_
    unfold cells UserMemory.uva at hc ⊢
    rwa [hm.segments] at hc
  have hmap : ∀ e : WalkEnd, e.map id = e := by
    intro e
    cases e <;> rfl
  have hend := findFrom_sameEntries (tells_id ptm) hsame
  rwa [hmap, hmap] at hend

theorem rel_walkPageTable (hva : va < 2 ^ R.xlen) (hm : Guarded R ptm m0 proc.csrs.sptbr.toNat s.mem)
    (h : SameView (Visible R ptm m0 proc.csrs.sptbr.toNat) s t) :
    (walkPageTable (mmuSoft R) R ptm proc op va s).Rel (SameView (Visible R ptm m0 proc.csrs.sptbr.toNat))
      (walkPageTable (mmuSoft R) R ptm proc op va t) := by
  refine rel_onMem h ?_ fun _ _ hm => hm
  rw [walkFrom_eq, walkFrom_eq, h.mem.findFrom hm hva]
  cases findFrom R ptm va s.mem (ptm.levels - 1) (rootTable R proc.csrs.sptbr.toNat) with
  | fault => exact ⟨rfl, h.mem⟩
  | undefined => trivial
  | leaf mpa pte level =>
    rw [finish_leaf, finish_leaf]
    refine ⟨rfl, ?_⟩
    split
    · cases hs : s.mem.store ptm.pteSize mpa (pte ||| adFlags op) with
      | none =>
        rw [h.mem.store_none hs]
        exact h.mem
      | some m1 =>
        obtain ⟨m1', hs', h1⟩ := h.mem.store hs
        rw [hs']
        exact h1
    · exact h.mem

theorem SameView.tlb {V : Set (Nat × Nat)} (h : SameView V s t) (op : MmuOp) : t.tlb op = s.tlb op := by
  cases op with
  | fetch => exact h.itlb
  | load | store => exact h.dtlb

theorem SameView.setTlb {V : Set (Nat × Nat)} (h : SameView V s t) (op : MmuOp) (tlb : Tlb) :
    SameView V (s.setTlb op tlb) (t.setTlb op tlb) := by
  cases op with
  | fetch => exact ⟨rfl, h.dtlb, h.mem⟩
  | load | store => exact ⟨h.itlb, rfl, h.mem⟩

theorem rel_tlbMiss (tlbEnt : Option TlbEntry) (hva : va < 2 ^ R.xlen) (hm : Guarded R ptm m0 proc.csrs.sptbr.toNat s.mem)
    (h : SameView (Visible R ptm m0 proc.csrs.sptbr.toNat) s t) :
    (pageTranslateAddrTlbMiss (mmuSoft R) R ptm proc op va tlbEnt s).Rel (SameView (Visible R ptm m0 proc.csrs.sptbr.toNat))
      (pageTranslateAddrTlbMiss (mmuSoft R) R ptm proc op va tlbEnt t) := by
  refine Prog.rel_bind (rel_walkPageTable hva hm h) fun leaf s' t' _ h' => ?_
  split
  · exact ⟨rfl, h'⟩
  · refine ⟨rfl, ?_⟩
    dsimp only
    rw [h'.tlb op]
    exact h'.setTlb op _

theorem rel_translateAddr (hp : paging R proc op = some ptm) (hva : va < 2 ^ R.xlen)
    (hm : Guarded R ptm m0 proc.csrs.sptbr.toNat s.mem) (h : SameView (Visible R ptm m0 proc.csrs.sptbr.toNat) s t) :
    (translateAddr (mmuSoft R) R proc op va s).Rel (SameView (Visible R ptm m0 proc.csrs.sptbr.toNat))
      (translateAddr (mmuSoft R) R proc op va t) := by
  rw [translateAddr_paged hp]
  simp only [pageTranslateAddr, bind, Prog.gets]
  rw [h.tlb op]
  cases (s.tlb op).lookup proc.pdid.toNat (asid R proc) va with
  | none => exact rel_tlbMiss none hva hm h
  | some ent =>
    dsimp only
    split
    · exact ⟨rfl, h⟩
    · exact rel_tlbMiss (some ent) hva hm h

end Translation

/-! ## Runs -/

section Grants
variable {R : Rv} {ptm : Ptm} {m0 m : UserMemory} {proc : Processor R.xlen} {sptbr va pa n : Nat} {ent : TlbEntry}

theorem cells_segments (h : m.segments = m0.segments) (n a : Nat) : cells m n a = cells m0 n a := by
  unfold cells UserMemory.uva
  rw [h]

theorem Grants.page (h : Grants R ptm m0 sptbr va ent pa) (hva : va < 2 ^ R.xlen) (hn : n ∈ [1, 2, 4, 8]) (hal : ¬ Misaligned n va)
    (hu : ent.pteb.testBit pteShiftU) (hb : ∃ i ∈ [pteShiftR, pteShiftW, pteShiftX], ent.pteb.testBit i) :
    ∃ pte level, UserPage R ptm m0 sptbr n va pte level ∧ pa = pageTranslateOffset R ptm (ptm.ppn pte) va level ∧
      ∀ i < 5, ent.pteb.testBit i = pte.testBit i := by
  rcases h with hnone | ⟨mpa, pte, level, -, hw, hpa, hsame⟩
  · obtain ⟨i, hi, hbit⟩ := hb
    rw [hnone i hi] at hbit
    cases hbit
  · refine ⟨pte, level, ⟨hva, hn, hal, ⟨mpa, hw⟩, ?_⟩, hpa, hsame⟩
    rw [← hsame _ (by decide)]
    exact hu

/-- A load that passes the check reads visible bytes. -/
theorem Grants.loads (h : Grants R ptm m0 sptbr va ent pa) (hmode : proc.mode = .U) (hm : m.segments = m0.segments)
    (hf : ¬ loadAccessFault proc proc.mode.toNat (some ent)) (hva : va < 2 ^ R.xlen) (hn : n ∈ [1, 2, 4, 8])
    (hal : ¬ Misaligned n va) : cells m n (pa % 2 ^ R.xlen) ⊆ Visible R ptm m0 sptbr := by
  have hbits : (ent.pteb.testBit pteShiftR = false → ent.pteb.testBit pteShiftX = true ∧ proc.mxr = true) ∧
      ent.pteb.testBit pteShiftU = true := by
    simpa [loadAccessFault, hmode, RvMode.toNat] using hf
  have hread : ent.pteb.testBit pteShiftR ∨ ent.pteb.testBit pteShiftX := by
    cases hr : ent.pteb.testBit pteShiftR with
    | true => exact .inl rfl
    | false => exact .inr (hbits.1 hr).1
  have hb : ∃ i ∈ [pteShiftR, pteShiftW, pteShiftX], ent.pteb.testBit i := by
    rcases hread with hr | hx
    · exact ⟨_, by simp, hr⟩
    · exact ⟨pteShiftX, by simp, hx⟩
  obtain ⟨pte, level, hpage, rfl, hsame⟩ := h.page hva hn hal hbits.2 hb
  rw [hsame _ (by decide), hsame _ (by decide)] at hread
  rw [cells_segments hm]
  exact fun c hc => .data hpage hread hc

/-- So does a fetch. -/
theorem Grants.fetches (h : Grants R ptm m0 sptbr va ent pa) (hmode : proc.mode = .U) (hm : m.segments = m0.segments)
    (hf : ¬ fetchAccessFault proc.mode.toNat (some ent)) (hva : va < 2 ^ R.xlen) (hal : ¬ Misaligned 2 va) :
    ∀ j < 4, cells m 2 ((pa + 2 * j) % 2 ^ R.xlen) ⊆ Visible R ptm m0 sptbr := by
  have hbits : ent.pteb.testBit pteShiftX = true ∧ ent.pteb.testBit pteShiftU = true := by
    simpa [fetchAccessFault, hmode, RvMode.toNat] using hf
  obtain ⟨pte, level, hpage, rfl, hsame⟩ := h.page hva (n := 2) (by decide) hal hbits.2 ⟨pteShiftX, by simp, hbits.1⟩
  intro j hj
  rw [cells_segments hm]
  refine fun c hc => .inst hpage ?_ hj hc
  rw [← hsame _ (by decide)]
  exact hbits.1

end Grants

section Runs
variable {R : Rv} {ptm : Ptm} {m0 : UserMemory} {sptbr pdid : Nat} {step : MmuStep R} {s t : Mmu UserMemory}

/-- Two runs of a call that translates its address and then checks the page. -/
theorem rel_translated {α : Type} {c : Prop} [Decidable c] {e : MmuExit} {va : Nat} {x : MmuM UserMemory (Nat × Option TlbEntry)}
    {f : Nat × Option TlbEntry → MmuM UserMemory α} {g : α → MmuResult} {V : Set (Nat × Nat)} {I : Mmu UserMemory → Prop}
    (h : SameView V s t) (hx : (x s).Rel (SameView V) (x t)) (ht : x.wlp (TranslatedTo R ptm m0 sptbr pdid va) (fun _ => I) s)
    (hf : ¬ c → ∀ r s1 t1, TranslatedTo R ptm m0 sptbr pdid va r s1 → SameView V s1 t1 → (f r s1).Rel (SameView V) (f r t1)) :
    (((if c then .throw e else x >>= f) >>= fun a => pure (g a)) s).Rel (SameView V)
      (((if c then .throw e else x >>= f) >>= fun a => pure (g a)) t) := by
  refine Prog.rel_bind ?_ fun a s' t' _ h' => ⟨rfl, h'⟩
  by_cases hc : c
  · rw [if_pos hc]
    exact ⟨rfl, h⟩
  · rw [if_neg hc]
    exact Prog.rel_bind hx fun r s1 t1 hr h1 => hf hc r s1 t1 (Prog.wlp_of_ok ht hr) h1

theorem rel_exec (hstep : UserStep R ptm sptbr pdid step) (hs : UserInv R ptm m0 sptbr pdid s)
    (h : SameView (Visible R ptm m0 sptbr) s t) :
    (step.exec (mmuSoft R) s).Rel (SameView (Visible R ptm m0 sptbr)) (step.exec (mmuSoft R) t) := by
  obtain ⟨proc, call⟩ := step
  obtain rfl := hstep.sptbr
  obtain rfl := hstep.pdid
  have hva := hstep.va
  have hsize := hstep.size
  have ht := translateAddr_guarded (hstep.paging call.op) hva hs
  have hx := rel_translateAddr (hstep.paging call.op) hva hs.mem h
  cases call with
  | instFetch pc pcOffset =>
    refine rel_translated h hx ht fun hal r s1 t1 hr h1 => ?_
    dsimp only
    split
    · exact ⟨rfl, h1⟩
    split
    · exact ⟨rfl, h1⟩
    · next h0 hf =>
      obtain ⟨ent, hent, hgr⟩ := hr.2 h0
      rw [hent] at hf
      exact rel_onMem_read h1 (rel_softInstBytes h1.mem (hgr.fetches hstep.mode hr.1.mem.segments hf hva hal))
  | load n va val =>
    refine rel_translated h hx ht fun hal r s1 t1 hr h1 => ?_
    dsimp only
    split
    · exact ⟨rfl, h1⟩
    split
    · exact ⟨rfl, h1⟩
    · next h0 hf =>
      obtain ⟨ent, hent, hgr⟩ := hr.2 h0
      rw [hent] at hf
      exact rel_onMem_read h1 (rel_busLoad h1.mem (hgr.loads hstep.mode hr.1.mem.segments hf hva hsize hal))
  | store n va val =>
    refine rel_translated h hx ht fun hal r s1 t1 hr h1 => ?_
    dsimp only
    split
    · exact ⟨rfl, h1⟩
    split
    · exact ⟨rfl, h1⟩
    · exact rel_onMem h1 (rel_busStore h1.mem) fun _ _ hm => hm
  | amo n aop va val1 val2 =>
    refine rel_translated h hx ht fun hal r s1 t1 hr h1 => ?_
    dsimp only
    split
    · exact ⟨rfl, h1⟩
    split
    · exact ⟨rfl, h1⟩
    · next h0 hf =>
      obtain ⟨ent, hent, hgr⟩ := hr.2 h0
      rw [hent] at hf
      refine Prog.rel_bind ?_ fun v s2 t2 _ h2 => ?_
      · exact rel_onMem_read h1 (rel_busLoad h1.mem (hgr.loads hstep.mode hr.1.mem.segments hf hva hsize hal))
      · split
        · exact ⟨rfl, h2⟩
        · exact Prog.rel_bind (rel_onMem h2 (rel_busStore h2.mem) fun _ _ hm => hm) fun _ _ _ _ h3 => ⟨rfl, h3⟩

theorem rel_run {steps : List (MmuStep R)} (hsteps : ∀ step ∈ steps, UserStep R ptm sptbr pdid step) (hg : TablesGuarded R ptm m0 sptbr)
    (hs : UserInv R ptm m0 sptbr pdid s) (h : SameView (Visible R ptm m0 sptbr) s t) :
    (MmuStep.run (mmuSoft R) steps s).Rel (SameView (Visible R ptm m0 sptbr)) (MmuStep.run (mmuSoft R) steps t) := by
  induction steps generalizing s t with
  | nil => exact ⟨rfl, h⟩
  | cons step steps ih =>
    have hexec := exec_guarded (hsteps step List.mem_cons_self) hg hs
    rw [MmuStep.run]
    refine Prog.rel_bind (Prog.rel_attempt (rel_exec (hsteps step List.mem_cons_self) hs h)) fun r s1 t1 hr h1 => ?_
    have hattempt : ((step.exec (mmuSoft R)).attempt : Prog Empty _ _).wlp (fun _ => UserInv R ptm m0 sptbr pdid) (fun _ _ => False) s :=
      (Prog.wlp_attempt _).2 hexec
    have hinv := Prog.wlp_of_ok hattempt hr
    have hrest : ((MmuStep.run (mmuSoft R) steps >>= fun rs => pure (r :: rs)) s1).Rel (SameView (Visible R ptm m0 sptbr))
        ((MmuStep.run (mmuSoft R) steps >>= fun rs => pure (r :: rs)) t1) :=
      Prog.rel_bind (ih (fun step hmem => hsteps step (List.mem_cons_of_mem _ hmem)) hinv h1) fun _ _ _ _ h2 => ⟨rfl, h2⟩
    split
    · exact ⟨rfl, h1⟩
    · exact hrest

end Runs

/-- The same RAM with another byte in the page that is not mapped. -/
def secretRam : UserMemory := userRam.write 1 0xff 2 0

theorem visible_userRam {c : Nat × Nat} (h : Visible .rv64 .sv39 userRam 0x80000 c) : c.1 ≠ 2 := by
  have huva {a k off : Nat} (hu : userRam.uva a = some (k, off)) (ha : a < 0xa0000000) : k ≠ 2 := by
    rw [userRam_uva] at hu
    split at hu
    · cases hu
      decide
    split at hu
    · cases hu
      decide
    · rw [if_neg (by omega)] at hu
      cases hu
  cases h with
  | entry ha hc =>
    obtain ⟨k, off, hu, i, -, rfl⟩ := hc
    have := userRam_tableEntry ha
    exact huva hu (by omega)
  | @data n va pte level c hpage hread hc =>
    obtain ⟨k, off, hu, i, -, rfl⟩ := hc
    obtain ⟨mpa, hw⟩ := hpage.leads
    have hmapped : UserMapped .rv64 .sv39 userRam 0x80000 [pteShiftR, pteShiftX] (pagePa .rv64 .sv39 va pte level) :=
      ⟨va, mpa, pte, level, hpage.fits, hw, hpage.user, by simpa using hread, rfl⟩
    have := userRam_mapped hmapped
    exact huva hu (by omega)
  | inst hpage hx =>
    obtain ⟨mpa, hw⟩ := hpage.leads
    obtain ⟨-, rfl, -⟩ := userRam_leadsTo hw
    exact absurd hx (by decide)

end Rv8.Emu
