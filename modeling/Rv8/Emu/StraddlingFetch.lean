import Mathlib.Tactic.IntervalCases
import Rv8.Emu.Fetch
import Rv8.Emu.Delivery
/-!
# Fetches across a page

`inst_fetch` of `mmu_soft` translates the address of the first parcel, and reads the
others from the physical addresses that follow. Past the end of the page these are the
addresses of another page, which need not be the one that the tables give to the rest
of the instruction, and whose permissions nobody checks.
-/

namespace Rv8.Emu

open Rv8.Lib Rv8.Asm

/-! ## Parcels by their own addresses -/

/-- What a fetch finds at an address: the physical address, the entry with the permissions if the address is paged,
and the memory with the flags of the page up to date. -/
inductive FetchPage
  | found (pa : Nat) (ent : Option TlbEntry) (mem : UserMemory)
  | fault
  | undefined
  | unsupported

section FetchPage
variable (R : Rv) (ptm : Ptm) (proc : Processor R.xlen) (va : Nat) (s : Mmu UserMemory)

def walkFetchPage : FetchPage :=
  match finish R ptm va s.mem .fetch (findFrom R ptm va s.mem (ptm.levels - 1) (rootTable R proc.csrs.sptbr.toNat)) with
  | .ok leaf mem =>
    .found leaf.pa (some (Tlb.entry R proc.pdid.toNat (asid R proc) va leaf.level (pteFlags leaf.pte) (ptm.ppn leaf.pte))) mem
  | .error _ _ => .fault
  | .undefined => .undefined

def pagedFetchPage : FetchPage :=
  match (s.tlb .fetch).lookup proc.pdid.toNat (asid R proc) va with
  | some ent =>
    if ent.pteb &&& adFlags .fetch ≠ adFlags .fetch then .found (pageTranslateOffset R ptm ent.ppn va ent.ptel) (some ent) s.mem
    else walkFetchPage R ptm proc va s
  | none => walkFetchPage R ptm proc va s

def fetchPage : FetchPage :=
  if effectiveMode R proc .fetch ≥ RvMode.M.toNat then .found va none s.mem
  else
    match RvVm.ofNat proc.vm with
    | some .mbare => .found va none s.mem
    | some (.paged ptm) => pagedFetchPage R ptm proc va s
    | none => .unsupported

/-- The parcel at an address, where the page is mapped and may be executed. -/
def ownParcel : Option Nat :=
  match fetchPage R proc va s with
  | .found pa ent mem => if fetchAccessFault proc.mode.toNat ent then none else mem.load 2 (pa % 2 ^ R.xlen)
  | _ => none

/-- The parcels of the instruction at an address, each of them translated. -/
def ownParcels (pc off : Nat) : Option Nat := ownParcel R proc ((pc + off) % 2 ^ R.xlen) s

end FetchPage

section Spec
variable (R : Rv) (proc : Processor R.xlen) (s : Mmu UserMemory) (pc pcOffset : Nat)

/-- A fetch of the instruction, or the exception where there is none. -/
def fetched (r : Option (Nat × Nat)) (s1 : Mmu UserMemory) : Outcome MmuExit (Mmu UserMemory) (Nat × Nat) :=
  match r with
  | some inst => .ok inst s1
  | none => .error (.raise .faultFetch pc) s1

/-- The fetch gives the parcels that are found at their own addresses, and raises where one of them is not. -/
def FetchesOwnParcels : Prop :=
  ∃ s1, instFetch (mmuSoft R) R proc pc pcOffset s = fetched pc (instOfParcels (ownParcels R proc s pc)) s1

/-- The parcels of the instruction that lie past the page are the same in the page that physically follows, or both ways
one of its parcels is missing. -/
def PageContinues : Prop :=
  match fetchPage R proc pc s with
  | .found pa ent mem =>
    fetchAccessFault proc.mode.toNat ent = true ∨
      ∀ inst, mem.load 2 (pa % 2 ^ R.xlen) = some inst →
        (∀ i < instLength inst / 2, 4096 ≤ pc % 4096 + 2 * i →
          mem.load 2 ((pa + 2 * i) % 2 ^ R.xlen) = ownParcels R proc s pc (2 * i)) ∨
        ((∃ i < instLength inst / 2, mem.load 2 ((pa + 2 * i) % 2 ^ R.xlen) = none) ∧
          ∃ i < instLength inst / 2, ownParcels R proc s pc (2 * i) = none)
  | .fault => True
  | .undefined | .unsupported => False

end Spec

/-! ## Addresses of one page -/

section SamePage
variable {R : Rv} {ptm : Ptm} {m : UserMemory} {va va' level table : Nat}

theorem pteMpa_samePage (h : va >>> pageShift = va' >>> pageShift) {shift : Nat} (hs : pageShift ≤ shift) (ppn : Nat) :
    pteMpa R ptm va shift ppn = pteMpa R ptm va' shift ppn := by
  obtain ⟨k, rfl⟩ := Nat.exists_eq_add_of_le hs
  unfold pteMpa
  rw [Nat.shiftRight_add, Nat.shiftRight_add, h]

theorem findTurn_samePage (h : va >>> pageShift = va' >>> pageShift) (hlevel : level < ptm.levels) {next next' : Nat → WalkEnd}
    {a b c : Nat} (hnext : ∀ ppn, next ppn = .leaf a b c → next' ppn = .leaf a b c ∧ c ≤ level)
    (hleaf : findTurn R ptm va m next level table = .leaf a b c) :
    findTurn R ptm va' m next' level table = .leaf a b c ∧ c ≤ level := by
  unfold findTurn at hleaf ⊢
  dsimp only at hleaf ⊢
  rw [shift_mod hlevel] at hleaf ⊢
  rw [pteMpa_samePage h (Nat.le_add_left _ _)] at hleaf
  split at hleaf
  · cases hleaf
  rename_i hs
  rw [if_neg hs]
  cases hload : m.load ptm.pteSize (pteMpa R ptm va' (ptm.bits * level + pageShift) table) with
  | none =>
    rw [hload] at hleaf
    cases hleaf
  | some pte =>
    rw [hload] at hleaf
    dsimp only at hleaf ⊢
    by_cases hp : IsPointer pte
    · rw [if_pos hp] at hleaf ⊢
      exact hnext _ hleaf
    · rw [if_neg hp] at hleaf ⊢
      refine ⟨hleaf, ?_⟩
      split at hleaf
      · cases hleaf
      split at hleaf
      · cases hleaf
      split at hleaf
      · cases hleaf
      · exact (WalkEnd.leaf.inj hleaf).2.2.symm.le

theorem findFrom_samePage (h : va >>> pageShift = va' >>> pageShift) (hlevel : level < ptm.levels) {a b c : Nat}
    (hleaf : findFrom R ptm va m level table = .leaf a b c) :
    findFrom R ptm va' m level table = .leaf a b c ∧ c ≤ level := by
  induction level generalizing table with
  | zero => exact findTurn_samePage h hlevel (fun ppn hw => absurd hw findWrapped_ne_leaf) hleaf
  | succ level ih =>
    refine findTurn_samePage h hlevel (fun ppn hw => ?_) hleaf
    obtain ⟨hleaf', hle⟩ := ih (by omega) hw
    exact ⟨hleaf', by omega⟩

/-- Within a page the physical address goes on with the virtual one. -/
theorem pageTranslateOffset_samePage (hlevel : level < 4) (ppn : Nat) {off : Nat} (h : va % 4096 + off < 4096) :
    pageTranslateOffset R ptm ppn (va + off) level = pageTranslateOffset R ptm ppn va level + off := by
  have hb : ptm.bits * level ≤ 30 := by
    cases ptm <;> simp only [Ptm.bits] <;> omega
  have hx := two_pow_xlen_le R
  have hs : (ptm.bits * level + pageShift) % 2 ^ R.xlen = ptm.bits * level + 12 :=
    Nat.mod_eq_of_lt (by unfold pageShift; omega)
  have hpow : 2 ^ (ptm.bits * level + 12) = 4096 * 2 ^ (ptm.bits * level) :=
    (pow_add 2 _ 12).trans (Nat.mul_comm _ _)
  have hpage : va % 2 ^ (ptm.bits * level + 12) % 4096 = va % 4096 :=
    Nat.mod_mod_of_dvd va (hpow ▸ Nat.dvd_mul_right 4096 _)
  have hlt := Nat.mod_lt va (Nat.two_pow_pos (ptm.bits * level + 12))
  have hoff : va % 2 ^ (ptm.bits * level + 12) + off < 2 ^ (ptm.bits * level + 12) := by omega
  unfold pageTranslateOffset
  dsimp only
  rw [hs, Nat.and_two_pow_sub_one_eq_mod, Nat.and_two_pow_sub_one_eq_mod, Nat.add_assoc, Nat.add_mod va off,
    Nat.mod_eq_of_lt (a := off) (by omega), Nat.mod_eq_of_lt hoff]

theorem shiftRight_samePage {off : Nat} (h : va % 4096 + off < 4096) : va >>> pageShift = (va + off) >>> pageShift := by
  unfold pageShift
  rw [Nat.shiftRight_eq_div_pow, Nat.shiftRight_eq_div_pow]
  omega

variable {proc : Processor R.xlen} {s : Mmu UserMemory} {pa off : Nat} {ent : Option TlbEntry} {mem : UserMemory}

theorem finish_leaf (R : Rv) (ptm : Ptm) (va : Nat) (m : UserMemory) (op : MmuOp) (mpa pte level : Nat) :
    finish R ptm va m op (.leaf mpa pte level) =
      .ok ⟨pageTranslateOffset R ptm (ptm.ppn pte) va level, pte ||| adFlags op, level⟩
        (if pte &&& adFlags op ≠ adFlags op then (m.store ptm.pteSize mpa (pte ||| adFlags op)).getD m else m) :=
  (apply_ite (Outcome.ok _) (pte &&& adFlags op ≠ adFlags op) _ _).symm

theorem entry_samePage (h : va >>> pageShift = va' >>> pageShift) (pdid asid ptel pteb ppn : Nat) :
    Tlb.entry R pdid asid va ptel pteb ppn = Tlb.entry R pdid asid va' ptel pteb ppn := by
  unfold Tlb.entry
  rw [h]

theorem lookup_samePage (h : va >>> pageShift = va' >>> pageShift) (tlb : Tlb) (pdid asid : Nat) :
    tlb.lookup pdid asid va = tlb.lookup pdid asid va' := by
  unfold Tlb.lookup Tlb.index
  rw [h]

theorem walkFetchPage_samePage (h : va % 4096 + off < 4096) (hf : walkFetchPage R ptm proc va s = .found pa ent mem) :
    walkFetchPage R ptm proc (va + off) s = .found (pa + off) ent mem := by
  have hpage := shiftRight_samePage h
  have hlevels : ptm.levels ≤ 4 ∧ 0 < ptm.levels := by cases ptm <;> decide
  unfold walkFetchPage at hf ⊢
  cases hw : findFrom R ptm va s.mem (ptm.levels - 1) (rootTable R proc.csrs.sptbr.toNat) with
  | fault => rw [hw] at hf; cases hf
  | undefined => rw [hw] at hf; cases hf
  | leaf mpa pte level =>
    obtain ⟨hw', hle⟩ := findFrom_samePage hpage (by omega) hw
    rw [hw, finish_leaf] at hf
    rw [hw', finish_leaf]
    obtain ⟨rfl, rfl, rfl⟩ := FetchPage.found.inj hf
    dsimp only
    rw [pageTranslateOffset_samePage (by omega) _ h, entry_samePage hpage]

/-- The level of an entry is a field of two bits. -/
def PtelsFit (tlb : Tlb) : Prop := ∀ i, (tlb i).ptel < 2 ^ 2

theorem PtelsFit.lookup {tlb : Tlb} (h : PtelsFit tlb) {pdid asid : Nat} {e : TlbEntry} (hl : tlb.lookup pdid asid va = some e) :
    e.ptel < 4 := by
  unfold Tlb.lookup at hl
  dsimp only at hl
  split at hl
  · exact Option.some.inj hl ▸ h _
  · cases hl

theorem fetchPage_samePage (hfit : PtelsFit s.l1Itlb) (h : va % 4096 + off < 4096) (hf : fetchPage R proc va s = .found pa ent mem) :
    fetchPage R proc (va + off) s = .found (pa + off) ent mem := by
  unfold fetchPage at hf ⊢
  split at hf
  · rename_i hm
    obtain ⟨rfl, rfl, rfl⟩ := FetchPage.found.inj hf
    rw [if_pos hm]
  rename_i hm
  rw [if_neg hm]
  cases hvm : RvVm.ofNat proc.vm with
  | none => rw [hvm] at hf; cases hf
  | some vm =>
    rw [hvm] at hf
    cases vm with
    | mbare =>
      obtain ⟨rfl, rfl, rfl⟩ := FetchPage.found.inj hf
      rfl
    | paged ptm =>
      dsimp only at hf ⊢
      unfold pagedFetchPage at hf ⊢
      rw [← lookup_samePage (shiftRight_samePage h)]
      cases hl : (s.tlb .fetch).lookup proc.pdid.toNat (asid R proc) va with
      | none =>
        rw [hl] at hf
        exact walkFetchPage_samePage h hf
      | some e =>
        rw [hl] at hf
        dsimp only at hf ⊢
        split at hf
        · rename_i hflags
          obtain ⟨rfl, rfl, rfl⟩ := FetchPage.found.inj hf
          rw [if_pos hflags, pageTranslateOffset_samePage (hfit.lookup hl) _ h]
        · rename_i hflags
          rw [if_neg hflags]
          exact walkFetchPage_samePage h hf

/-- Only the start of a page has the physical address 0. -/
theorem pageTranslateOffset_ne_zero (hlevel : level < 4) (ppn : Nat) (h : va % 4096 ≠ 0) :
    pageTranslateOffset R ptm ppn va level ≠ 0 := by
  have hva : va - va % 4096 + va % 4096 = va := Nat.sub_add_cancel (Nat.mod_le va 4096)
  have hoff : pageTranslateOffset R ptm ppn (va - va % 4096 + va % 4096) level =
      pageTranslateOffset R ptm ppn (va - va % 4096) level + va % 4096 := pageTranslateOffset_samePage hlevel ppn (by omega)
  rw [hva] at hoff
  omega

theorem walkFetchPage_ne_zero (h : va % 4096 ≠ 0) (hf : walkFetchPage R ptm proc va s = .found pa ent mem) : pa ≠ 0 := by
  have hlevels : ptm.levels ≤ 4 ∧ 0 < ptm.levels := by cases ptm <;> decide
  unfold walkFetchPage at hf
  cases hw : findFrom R ptm va s.mem (ptm.levels - 1) (rootTable R proc.csrs.sptbr.toNat) with
  | fault => rw [hw] at hf; cases hf
  | undefined => rw [hw] at hf; cases hf
  | leaf mpa pte level =>
    have hle := (findFrom_samePage rfl (by omega) hw).2
    rw [hw, finish_leaf] at hf
    obtain ⟨rfl, -, -⟩ := FetchPage.found.inj hf
    exact pageTranslateOffset_ne_zero (by omega) _ h

theorem fetchPage_ne_zero (hfit : PtelsFit s.l1Itlb) (h : va % 4096 ≠ 0) (hf : fetchPage R proc va s = .found pa ent mem) :
    pa ≠ 0 := by
  have hbare (heq : FetchPage.found va none s.mem = .found pa ent mem) : pa ≠ 0 := by
    obtain ⟨rfl, -, -⟩ := FetchPage.found.inj heq
    rintro rfl
    exact h rfl
  unfold fetchPage at hf
  split at hf
  · exact hbare hf
  cases hvm : RvVm.ofNat proc.vm with
  | none => rw [hvm] at hf; cases hf
  | some vm =>
    rw [hvm] at hf
    cases vm with
    | mbare => exact hbare hf
    | paged ptm =>
      dsimp only at hf
      unfold pagedFetchPage at hf
      cases hl : (s.tlb .fetch).lookup proc.pdid.toNat (asid R proc) va with
      | none =>
        rw [hl] at hf
        exact walkFetchPage_ne_zero h hf
      | some e =>
        rw [hl] at hf
        dsimp only at hf
        split at hf
        · obtain ⟨rfl, -, -⟩ := FetchPage.found.inj hf
          exact pageTranslateOffset_ne_zero (hfit.lookup hl) _ h
        · exact walkFetchPage_ne_zero h hf

end SamePage

/-! ## The call -/

/-- The translation is left as the page says. An address that is not 0 comes with its entry. -/
def TranslatesAs (va : Nat) : FetchPage → Outcome MmuExit (Mmu UserMemory) (Nat × Option TlbEntry) → Prop
  | .found pa ent mem, o => pa ≠ 0 → ∃ s1, o = .ok (pa, ent) s1 ∧ s1.mem = mem
  | .fault, o => ∃ s1, o = .error (.raise .faultFetch va) s1
  | .undefined, o => o = .undefined
  | .unsupported, o => ∃ s1, o = .error .panic s1

section Call
variable {R : Rv} {ptm : Ptm} {proc : Processor R.xlen} {va pc : Nat} {s : Mmu UserMemory}

theorem tlbMiss_translatesAs (tlbEnt : Option TlbEntry) :
    TranslatesAs va (walkFetchPage R ptm proc va s) (pageTranslateAddrTlbMiss (mmuSoft R) R ptm proc .fetch va tlbEnt s) := by
  unfold walkFetchPage
  rw [← walkFrom_eq]
  cases hw : walkFrom (mmuSoft R) R ptm .fetch va (ptm.levels - 1) (rootTable R proc.csrs.sptbr.toNat) s.mem with
  | ok leaf mem =>
    have hwalk : walkPageTable (mmuSoft R) R ptm proc .fetch va s = .ok leaf { s with mem } := onMem_of_ok hw
    refine fun h0 : leaf.pa ≠ 0 => ?_
    rw [tlbMiss_walk tlbEnt hwalk, if_neg h0]
    exact ⟨_, rfl, rfl⟩
  | error e mem =>
    have hwalk : walkPageTable (mmuSoft R) R ptm proc .fetch va s = .error (.raise .faultFetch va) { s with mem } := onMem_of_error hw
    exact ⟨_, Prog.bind_error hwalk⟩
  | undefined =>
    have hwalk : walkPageTable (mmuSoft R) R ptm proc .fetch va s = .undefined := onMem_of_undefined hw
    exact Prog.bind_undefined hwalk

theorem translateAddr_translatesAs (R : Rv) (proc : Processor R.xlen) (va : Nat) (s : Mmu UserMemory) :
    TranslatesAs va (fetchPage R proc va s) (translateAddr (mmuSoft R) R proc .fetch va s) := by
  unfold fetchPage translateAddr
  split
  · exact fun _ => ⟨s, rfl, rfl⟩
  cases RvVm.ofNat proc.vm with
  | none => exact ⟨s, rfl⟩
  | some vm =>
    cases vm with
    | mbare => exact fun _ => ⟨s, rfl, rfl⟩
    | paged ptm =>
      dsimp only
      unfold pagedFetchPage
      simp only [pageTranslateAddr, bind, Prog.gets]
      cases (s.tlb .fetch).lookup proc.pdid.toNat (asid R proc) va with
      | none => exact tlbMiss_translatesAs none
      | some ent =>
        dsimp only
        split
        · exact fun _ => ⟨s, rfl, rfl⟩
        · exact tlbMiss_translatesAs (some ent)

theorem instOfParcels_eq_iff {p q : Nat → Option Nat} (hp : Short p) (hq : Short q) (h0 : p 0 = q 0) :
    instOfParcels p = instOfParcels q ↔ ∀ inst, p 0 = some inst →
      (∀ i < instLength inst / 2, p (2 * i) = q (2 * i)) ∨
        ((∃ i < instLength inst / 2, p (2 * i) = none) ∧ ∃ i < instLength inst / 2, q (2 * i) = none) := by
  unfold instOfParcels
  rw [← h0]
  cases p 0 with
  | none => simp
  | some inst =>
    rw [Option.bind_some, Option.bind_some]
    simp only [Option.some.injEq, forall_eq']
    rw [← parcels_eq_iff hp hq]
    by_cases hlen : instLength inst = 0
    · rw [if_pos hlen, if_pos hlen, hlen]
      exact ⟨fun _ => rfl, fun _ => rfl⟩
    · rw [if_neg hlen, if_neg hlen]
      refine ⟨fun h => Option.map_injective (fun a b hab => ?_) h, congrArg _⟩
      exact (Prod.mk.inj hab).1

theorem short_ownParcels (R : Rv) (proc : Processor R.xlen) (s : Mmu UserMemory) (pc : Nat) :
    Short (ownParcels R proc s pc) := by
  intro off v hv
  unfold ownParcels ownParcel at hv
  split at hv
  · rename_i pa ent mem hf
    split at hv
    · cases hv
    · exact short_load mem (fun _ => pa % 2 ^ R.xlen) 0 v hv
  · cases hv

theorem ownParcels_found (hfit : PtelsFit s.l1Itlb) (hpc : pc < 2 ^ R.xlen) {pa off : Nat} {ent : Option TlbEntry} {mem : UserMemory}
    (hf : fetchPage R proc pc s = .found pa ent mem) (hoff : pc % 4096 + off < 4096) :
    ownParcels R proc s pc off =
      if fetchAccessFault proc.mode.toNat ent then none else mem.load 2 ((pa + off) % 2 ^ R.xlen) := by
  have hlt : pc + off < 2 ^ R.xlen := by
    cases R <;> simp only [Rv.xlen] at hpc ⊢ <;> omega
  unfold ownParcels ownParcel
  rw [Nat.mod_eq_of_lt hlt, fetchPage_samePage hfit hoff hf]

theorem not_misaligned_two (h : pc % 2 = 0) : ¬ Misaligned 2 pc := by
  unfold Misaligned
  rw [Nat.and_two_pow_sub_one_eq_mod pc 1]
  omega

/-- The fetch from a page that is found and may be executed. -/
theorem instFetch_found (heven : pc % 2 = 0) (pcOffset : Nat) {pa : Nat} {ent : Option TlbEntry} {s1 : Mmu UserMemory}
    (hpa : pa ≠ 0) (ht : translateAddr (mmuSoft R) R proc .fetch pc s = .ok (pa, ent) s1)
    (hx : ¬ fetchAccessFault proc.mode.toNat ent = true) :
    instFetch (mmuSoft R) R proc pc pcOffset s =
      fetched pc (instOfParcels fun off => s1.mem.load 2 ((pa + off) % 2 ^ R.xlen)) s1 := by
  unfold instFetch
  refine (aligned_translated (not_misaligned_two heven) ht).trans ?_
  dsimp only
  rw [if_neg hpa, if_neg hx]
  have hbytes : (mmuSoft R).instBytes pa s1.mem = _ := softInstBytes_eq R pa s1.mem
  unfold Mmu.onMem Prog.onError Prog.zoom
  dsimp only
  rw [hbytes]
  cases instOfParcels fun off => s1.mem.load 2 ((pa + off) % 2 ^ R.xlen) <;> rfl

theorem exists_fetched_iff {a b : Option (Nat × Nat)} {s1 : Mmu UserMemory} :
    (∃ s2, fetched pc a s1 = fetched pc b s2) ↔ a = b := by
  cases a <;> cases b <;> simp [fetched]

theorem fetchesOwnParcels_found (hfit : PtelsFit s.l1Itlb) (hlt : pc < 2 ^ R.xlen) (heven : pc % 2 = 0)
    (hspan : 4096 < pc % 4096 + 8) (pcOffset : Nat) {pa : Nat} {ent : Option TlbEntry} {mem : UserMemory}
    (hf : fetchPage R proc pc s = .found pa ent mem) :
    FetchesOwnParcels R proc s pc pcOffset ↔ PageContinues R proc s pc := by
  have hpa := fetchPage_ne_zero hfit (by omega) hf
  have htrans := translateAddr_translatesAs R proc pc s
  rw [hf] at htrans
  obtain ⟨s1, ht, rfl⟩ := htrans hpa
  have hown {off : Nat} (hoff : pc % 4096 + off < 4096) := ownParcels_found hfit hlt hf hoff
  have hfirst : pc % 4096 + 0 < 4096 := by omega
  have h0 := hown hfirst
  unfold FetchesOwnParcels PageContinues
  rw [hf]
  dsimp only
  by_cases hx : fetchAccessFault proc.mode.toNat ent = true
  · -- neither reads a parcel
    have hnone : instOfParcels (ownParcels R proc s pc) = none := by
      unfold instOfParcels
      rw [h0, if_pos hx, Option.bind_none]
    rw [hnone]
    refine iff_of_true ⟨s1, ?_⟩ (.inl hx)
    unfold instFetch
    refine (aligned_translated (not_misaligned_two heven) ht).trans ?_
    dsimp only
    rw [if_neg hpa, if_pos hx]
    rfl
  · rw [instFetch_found heven pcOffset hpa ht hx]
    rw [exists_fetched_iff, instOfParcels_eq_iff (short_load _ _) (short_ownParcels R proc s pc) (by rw [h0, if_neg hx])]
    simp only [Nat.add_zero, hx, Bool.false_eq_true, false_or]
    refine forall₂_congr fun inst hinst => or_congr_left' fun _ => ?_
    refine ⟨fun h i hi _ => h i hi, fun h i hi => ?_⟩
    by_cases hpast : 4096 ≤ pc % 4096 + 2 * i
    · exact h i hi hpast
    · rw [hown (Nat.not_le.1 hpast), if_neg hx]

/-- Where the first page is not found, none of the parcels counts. -/
theorem instOfParcels_own_none (hlt : pc < 2 ^ R.xlen) (hf : fetchPage R proc pc s = .fault) :
    instOfParcels (ownParcels R proc s pc) = none := by
  have h0 : ownParcels R proc s pc 0 = none := by
    unfold ownParcels ownParcel
    rw [Nat.add_zero, Nat.mod_eq_of_lt hlt, hf]
  unfold instOfParcels
  rw [h0, Option.bind_none]

theorem instFetch_of_translateAddr (heven : pc % 2 = 0) {o : Outcome MmuExit (Mmu UserMemory) (Nat × Nat)} (pcOffset : Nat)
    (h : ∀ f : Nat × Option TlbEntry → MmuM UserMemory (Nat × Nat), (translateAddr (mmuSoft R) R proc .fetch pc >>= f) s = o) :
    instFetch (mmuSoft R) R proc pc pcOffset s = o := by
  unfold instFetch
  rw [if_neg (not_misaligned_two heven)]
  exact h _

/-- Exactly if the physical page goes on with the parcels of the next page, the fetch gives them. -/
theorem fetches_own_parcels_iff (R : Rv) (proc : Processor R.xlen) (s : Mmu UserMemory) (pc pcOffset : Nat)
    (hfit : PtelsFit s.l1Itlb) (hlt : pc < 2 ^ R.xlen) (heven : pc % 2 = 0) (hspan : 4096 < pc % 4096 + 8) :
    FetchesOwnParcels R proc s pc pcOffset ↔ PageContinues R proc s pc := by
  cases hf : fetchPage R proc pc s with
  | found pa ent mem => exact fetchesOwnParcels_found hfit hlt heven hspan pcOffset hf
  | fault =>
    have htrans := translateAddr_translatesAs R proc pc s
    rw [hf] at htrans
    obtain ⟨s1, ht⟩ := htrans
    have hfetch := instFetch_of_translateAddr heven pcOffset fun f => Prog.bind_error (f := f) ht
    unfold PageContinues FetchesOwnParcels
    rw [hf, hfetch, instOfParcels_own_none hlt hf]
    exact iff_of_true ⟨s1, rfl⟩ trivial
  | undefined =>
    have htrans := translateAddr_translatesAs R proc pc s
    rw [hf] at htrans
    have hfetch := instFetch_of_translateAddr heven pcOffset fun f => Prog.bind_undefined (f := f) htrans
    unfold PageContinues FetchesOwnParcels
    rw [hf, hfetch]
    refine iff_of_false (fun h => ?_) id
    obtain ⟨s1, h⟩ := h
    cases hr : instOfParcels (ownParcels R proc s pc) <;> rw [hr] at h <;> cases h
  | unsupported =>
    have htrans := translateAddr_translatesAs R proc pc s
    rw [hf] at htrans
    obtain ⟨s1, ht⟩ := htrans
    have hfetch := instFetch_of_translateAddr heven pcOffset fun f => Prog.bind_error (f := f) ht
    unfold PageContinues FetchesOwnParcels
    rw [hf, hfetch]
    refine iff_of_false (fun h => ?_) id
    obtain ⟨s2, h⟩ := h
    cases hr : instOfParcels (ownParcels R proc s pc) <;> rw [hr] at h <;> cases h

/-- A next page that may be executed and physically follows is read as its own. -/
theorem pageContinues_of_contiguous {pa : Nat} {ent : Option TlbEntry} {mem : UserMemory}
    (hf : fetchPage R proc pc s = .found pa ent mem)
    (hnext : ∀ off < 8, 4096 ≤ pc % 4096 + off → ∃ ent', fetchPage R proc ((pc + off) % 2 ^ R.xlen) s = .found (pa + off) ent' mem ∧
      fetchAccessFault proc.mode.toNat ent' = false) : PageContinues R proc s pc := by
  unfold PageContinues
  rw [hf]
  refine .inr fun inst _ => .inl fun i hi hpast => ?_
  have hlen := instLength_mem inst
  simp only [List.mem_cons, List.not_mem_nil, or_false] at hlen
  obtain ⟨ent', hf', hx⟩ := hnext (2 * i) (by omega) hpast
  unfold ownParcels ownParcel
  rw [hf']
  dsimp only
  rw [hx]
  rfl

theorem fetchPage_walk (hp : paging R proc .fetch = some ptm)
    (hmiss : (s.tlb .fetch).lookup proc.pdid.toNat (asid R proc) va = none) :
    fetchPage R proc va s = walkFetchPage R ptm proc va s := by
  unfold paging at hp
  unfold fetchPage
  split at hp
  · cases hp
  rename_i hm
  rw [if_neg hm]
  split at hp
  · rename_i hvm
    obtain rfl := Option.some.inj hp
    rw [hvm]
    dsimp only
    unfold pagedFetchPage
    rw [hmiss]
  · cases hp

theorem walkFetchPage_leaf {mpa pte level : Nat}
    (hfind : findFrom R ptm va s.mem (ptm.levels - 1) (rootTable R proc.csrs.sptbr.toNat) = .leaf mpa pte level)
    (hflags : pte &&& adFlags .fetch = adFlags .fetch) :
    walkFetchPage R ptm proc va s = .found (pageTranslateOffset R ptm (ptm.ppn pte) va level)
      (some (Tlb.entry R proc.pdid.toNat (asid R proc) va level (pteFlags (pte ||| adFlags .fetch)) (ptm.ppn (pte ||| adFlags .fetch))))
      s.mem := by
  unfold walkFetchPage
  rw [hfind, finish_leaf, if_neg (not_not.2 hflags)]

end Call

/-- Two gigabytes of virtual addresses that both lead to RAM, with the first half of an instruction at the end of the
first. -/
def foldedRam : UserMemory :=
  (UserMemory.mk [⟨defaultRamBase, defaultRamSize⟩] fun _ _ => 0)
    |>.write 8 (0x80000 <<< 10 ||| 0xcf) 0 0
    |>.write 8 (0x80000 <<< 10 ||| 0xcf) 0 8
    |>.write 2 0x13 0 0x3ffffffe

theorem fetchPage_foldedRam {va mpa : Nat} (hl : (Tlb.empty .rv64).lookup 0 0 va = none)
    (hfind : findFrom .rv64 .sv39 va foldedRam 2 0x80000000 = .leaf mpa 0x200000cf 2) :
    ∃ ent, fetchPage .rv64 (supervisor 0x80000) va (emptyTlbs .rv64 foldedRam) =
        .found (pageTranslateOffset .rv64 .sv39 0x80000 va 2) (some ent) foldedRam ∧
      fetchAccessFault (supervisor 0x80000).mode.toNat (some ent) = false := by
  have hpaging : paging .rv64 (supervisor 0x80000) .fetch = some .sv39 := rfl
  have hmiss : ((emptyTlbs .rv64 foldedRam).tlb .fetch).lookup (supervisor 0x80000).pdid.toNat (asid .rv64 (supervisor 0x80000)) va =
      none := hl
  have hfind' : findFrom .rv64 .sv39 va (emptyTlbs .rv64 foldedRam).mem (Ptm.sv39.levels - 1)
      (rootTable .rv64 (supervisor 0x80000).csrs.sptbr.toNat) = .leaf mpa 0x200000cf 2 := hfind
  have hflags : 0x200000cf &&& adFlags .fetch = adFlags .fetch := by decide
  have hppn : Ptm.sv39.ppn 0x200000cf = 0x80000 := by decide
  have hpage := (fetchPage_walk hpaging hmiss).trans (walkFetchPage_leaf hfind' hflags)
  rw [hppn] at hpage
  have hx : (pteFlags (0x200000cf ||| adFlags .fetch) % 2 ^ 10).testBit pteShiftX = true := by decide
  have hu : (pteFlags (0x200000cf ||| adFlags .fetch) % 2 ^ 10).testBit pteShiftU = false := by decide
  have hmode : ¬ (supervisor 0x80000).mode.toNat < RvMode.S.toNat := by decide
  refine ⟨_, hpage, ?_⟩
  simp only [fetchAccessFault, Tlb.entry, hx, hu, hmode, decide_false, Bool.not_true, Bool.false_or, Bool.false_eq_true, if_false]

theorem fetches_own_parcels_iff_folded :
    FetchesOwnParcels .rv64 (supervisor 0x80000) (emptyTlbs .rv64 foldedRam) 0x3ffffffe 0 ↔
      PageContinues .rv64 (supervisor 0x80000) (emptyTlbs .rv64 foldedRam) 0x3ffffffe :=
  fetches_own_parcels_iff .rv64 (supervisor 0x80000) (emptyTlbs .rv64 foldedRam) 0x3ffffffe 0 (fun i => Nat.zero_lt_succ 3)
    (by decide) (by decide) (by decide)

theorem not_fetches_own_parcels_folded :
    ¬ FetchesOwnParcels .rv64 (supervisor 0x80000) (emptyTlbs .rv64 foldedRam) 0x3ffffffe 0 := by
  have hfind1 : findFrom .rv64 .sv39 0x3ffffffe foldedRam 2 0x80000000 = .leaf 0x80000000 0x200000cf 2 := by decide
  have hfind2 : findFrom .rv64 .sv39 0x40000000 foldedRam 2 0x80000000 = .leaf 0x80000008 0x200000cf 2 := by decide
  obtain ⟨ent1, hfirst, hx1⟩ := fetchPage_foldedRam (by decide) hfind1
  obtain ⟨ent2, hsecond, hx2⟩ := fetchPage_foldedRam (by decide) hfind2
  have hown : ownParcels .rv64 (supervisor 0x80000) (emptyTlbs .rv64 foldedRam) 0x3ffffffe 2 = some 0xcf := by
    have hva : (0x3ffffffe + 2) % 2 ^ Rv.rv64.xlen = 0x40000000 := rfl
    have hread : foldedRam.load 2 (pageTranslateOffset .rv64 .sv39 0x80000 0x40000000 2 % 2 ^ Rv.rv64.xlen) = some 0xcf := by decide
    unfold ownParcels ownParcel
    rw [hva, hsecond]
    dsimp only
    rw [hx2, if_neg Bool.false_ne_true]
    exact hread
  have hphys : foldedRam.load 2 0xc0000000 = some 0 := by decide
  have hfit : PtelsFit (emptyTlbs .rv64 foldedRam).l1Itlb := fun i => Nat.zero_lt_succ 3
  rw [fetchesOwnParcels_found hfit (by decide) (by decide) (by decide) 0 hfirst]
  unfold PageContinues
  rw [hfirst]
  intro h
  rcases h with hx | hparcels
  · exact absurd (hx.symm.trans hx1) (by decide)
  · rcases hparcels 0x13 (by decide) with hsame | ⟨⟨i, hi, hnone⟩, -⟩
    · have heq := hphys.symm.trans ((hsame 1 (by decide) (by decide)).trans hown)
      exact absurd heq (by decide)
    · have hi2 : i < 2 := hi
      interval_cases i
      · exact absurd hnone (by decide)
      · exact absurd (hphys.symm.trans hnone) (by decide)

end Rv8.Emu
