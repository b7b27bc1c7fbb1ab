import Rv8.Emu.AccessedDirty
import Rv8.Emu.CacheFlat
/-!
# The MMU with a cache

`mmu_soft_cache` does what `mmu_soft` does as long as its two differences do not
show: no walk has to update the flags of an entry, and no read of an instruction
runs into the next cache line. A simulation between the two ports carries over to
every run, whatever the ports are. The plain port is first restricted to the
accesses concerned (`inRam`, `checked`), and is undefined for all others.
-/

namespace Rv8.Emu

open Rv8.Lib Prog
open TaggedCache (flatLoad flatStore InLine)

/-! ## Runs over related ports -/

section Ports
variable {σ τ : Type} {Q : σ → τ → Prop} {p : Port σ} {q : Port τ} {R : Rv}

structure PortSim (Q : σ → τ → Prop) (p : Port σ) (q : Port τ) : Prop where
  load : ∀ n mpa, Sim Q (p.load n mpa) (q.load n mpa)
  store : ∀ n mpa val, Sim Q (p.store n mpa val) (q.store n mpa val)
  updatePte : ∀ n mpa pte, Sim Q (p.updatePte n mpa pte) (q.updatePte n mpa pte)
  instBytes : ∀ mpa, Sim Q (p.instBytes mpa) (q.instBytes mpa)

/-- The TLBs are the same. -/
structure MmuRel (Q : σ → τ → Prop) (s : Mmu σ) (t : Mmu τ) : Prop where
  itlb : s.l1Itlb = t.l1Itlb
  dtlb : s.l1Dtlb = t.l1Dtlb
  mem : Q s.mem t.mem

namespace PortSim

variable (h : PortSim Q p q) (proc : Processor R.xlen) (op : MmuOp) (va : Nat)
include h

theorem walkTurn {ptm : Ptm} {next : Nat → Prog Unit σ Leaf} {next' : Nat → Prog Unit τ Leaf}
    (hnext : ∀ ppn, Sim Q (next ppn) (next' ppn)) (level ppn : Nat) :
    Sim Q (walkTurn p R ptm op va next level ppn) (Emu.walkTurn q R ptm op va next' level ppn) := by
  refine sim_ite (sim_undefined _) (sim_bind (h.load _ _) fun pte => ?_)
  refine sim_ite (hnext _) (sim_ite (sim_throw ()) (sim_ite ?_ (hnext _)))
  refine sim_ite (sim_undefined _) (sim_ite (sim_throw ()) (sim_ite ?_ (sim_pure _)))
  exact sim_bind (h.updatePte _ _ _) fun _ => sim_pure _

theorem walkFrom (ptm : Ptm) (level ppn : Nat) :
    Sim Q (walkFrom p R ptm op va level ppn) (Emu.walkFrom q R ptm op va level ppn) := by
  induction level generalizing ppn with
  | zero => exact h.walkTurn op va (h.walkTurn op va (h.walkTurn op va (fun _ => sim_undefined _) _) _) 0 ppn
  | succ level ih => exact h.walkTurn op va ih (level + 1) ppn

omit h in
theorem onMem {α : Type} {m : Prog Unit σ α} {n : Prog Unit τ α} (hm : Sim Q m n) (e : MmuExit) :
    Sim (MmuRel Q) (Mmu.onMem m e) (Mmu.onMem n e) := by
  refine sim_onError (sim_zoom hm (fun s t hst => hst.mem) fun s t s' t' hst hR => ?_) fun _ => sim_throw e
  exact ⟨hst.itlb, hst.dtlb, hR⟩

theorem pageTranslateAddrTlbMiss (ptm : Ptm) (tlbEnt : Option TlbEntry) :
    Sim (MmuRel Q) (pageTranslateAddrTlbMiss p R ptm proc op va tlbEnt)
      (Emu.pageTranslateAddrTlbMiss q R ptm proc op va tlbEnt) := by
  refine sim_bind (onMem (h.walkFrom op va ptm _ _) _) fun leaf => sim_ite (sim_pure _) ?_
  refine sim_bind (sim_modify fun s t hst => ?_) fun _ => sim_pure _
  cases op with
  | fetch => exact ⟨by simp only [Mmu.setTlb, Mmu.tlb, hst.itlb], hst.dtlb, hst.mem⟩
  | load | store => exact ⟨hst.itlb, by simp only [Mmu.setTlb, Mmu.tlb, hst.dtlb], hst.mem⟩

theorem pageTranslateAddr (ptm : Ptm) :
    Sim (MmuRel Q) (pageTranslateAddr p R ptm proc op va) (Emu.pageTranslateAddr q R ptm proc op va) := by
  refine sim_bind (sim_gets fun s t hst => ?_) fun tlb => ?_
  · cases op with
    | fetch => exact hst.itlb
    | load | store => exact hst.dtlb
  · cases tlb.lookup proc.pdid.toNat (asid R proc) va with
    | none => exact h.pageTranslateAddrTlbMiss proc op va ptm none
    | some ent => exact sim_ite (sim_pure _) (h.pageTranslateAddrTlbMiss proc op va ptm _)

theorem translateAddr : Sim (MmuRel Q) (translateAddr p R proc op va) (Emu.translateAddr q R proc op va) := by
  refine sim_ite (sim_pure _) ?_
  cases RvVm.ofNat proc.vm with
  | none => exact sim_throw _
  | some vm =>
    cases vm with
    | mbare => exact sim_pure _
    | paged ptm => exact h.pageTranslateAddr proc op va ptm

theorem exec (step : MmuStep R) : Sim (MmuRel Q) (step.exec p) (step.exec q) := by
  obtain ⟨proc, call⟩ := step
  cases call with
  | instFetch pc pcOffset =>
    refine sim_bind (sim_ite (sim_throw _) (sim_bind (h.translateAddr _ _ _) fun r => ?_)) fun _ => sim_pure _
    exact sim_ite (sim_pure _) (sim_ite (sim_throw _) (onMem (h.instBytes _) _))
  | load n va val =>
    refine sim_bind (sim_ite (sim_throw _) (sim_bind (h.translateAddr _ _ _) fun r => ?_)) fun _ => sim_pure _
    exact sim_ite (sim_pure _) (sim_ite (sim_throw _) (onMem (h.load _ _) _))
  | store n va val =>
    refine sim_bind (sim_ite (sim_throw _) (sim_bind (h.translateAddr _ _ _) fun r => ?_)) fun _ => sim_pure _
    exact sim_ite (sim_pure _) (sim_ite (sim_throw _) (onMem (h.store _ _ _) _))
  | amo n aop va val1 val2 =>
    refine sim_bind (sim_ite (sim_throw _) (sim_bind (h.translateAddr _ _ _) fun r => ?_)) fun _ => sim_pure _
    refine sim_ite (sim_pure _) (sim_ite (sim_throw _) (sim_bind (onMem (h.load _ _) _) fun _ => ?_))
    exact sim_ite (sim_throw _) (sim_bind (onMem (h.store _ _ _) _) fun _ => sim_pure _)

/-- Related ports give the same results in every run. -/
theorem run (steps : List (MmuStep R)) : Sim (MmuRel Q) (MmuStep.run p steps) (MmuStep.run q steps) := by
  induction steps with
  | nil => exact sim_pure _
  | cons step steps ih =>
    refine sim_bind (sim_attempt (h.exec step)) fun r => ?_
    split
    · exact sim_pure _
    · exact sim_bind ih fun _ => sim_pure _

end PortSim

end Ports

/-! ## The accesses concerned -/

/-- A naturally aligned access to RAM below the statistics. -/
def InRam (n mpa : Nat) : Prop := Natural n mpa ∧ defaultRamBase ≤ mpa ∧ mpa + n ≤ statsBase

instance (n mpa : Nat) : Decidable (Natural n mpa) := inferInstanceAs (Decidable (_ ∧ _))

instance (n mpa : Nat) : Decidable (InRam n mpa) := inferInstanceAs (Decidable (_ ∧ _))

/-- Four bytes from `mpa` on lie in one line. -/
def FitsLine (P : CacheParam) (mpa : Nat) : Prop := P.offset mpa + 4 ≤ P.lineSize

instance (P : CacheParam) (mpa : Nat) : Decidable (FitsLine P mpa) := inferInstanceAs (Decidable (_ ≤ _))

def ramLoad (n mpa : Nat) : Prog Unit UserMemory Nat := if InRam n mpa then UserMemory.busLoad n mpa else .undefined

def ramStore (n mpa val : Nat) : Prog Unit UserMemory Unit :=
  if InRam n mpa then UserMemory.busStore n mpa val else .undefined

/-- `mmu_soft` as long as it stays in RAM. -/
def inRam (R : Rv) : Port UserMemory where
  load := ramLoad
  store := ramStore
  updatePte := fun n mpa pte => do
    ramStore n mpa pte
    pure pte
  instBytes := softInstBytes R ramLoad
  storesBits _ := false

/-- The instruction is read as long as the words that `mmu_soft_cache` reads lie in one line each. -/
def checkedInstBytes (R : Rv) (P : CacheParam) (mpa : Nat) : Prog Unit UserMemory (Nat × Nat) := do
  let inst ← ramLoad 2 (mpa % 2 ^ R.xlen)
  if ¬ FitsLine P (mpa % 2 ^ R.xlen) ∨ (inst &&& 0b1111111 = 0b0111111 ∧ ¬ FitsLine P ((mpa + 4) % 2 ^ R.xlen)) then .undefined
  else softInstBytes R ramLoad mpa

/-- `inRam` as long as no walk has flags to update either. -/
def checked (R : Rv) (P : CacheParam) : Port UserMemory where
  load := ramLoad
  store := ramStore
  updatePte := fun _ _ _ => .undefined
  instBytes := checkedInstBytes R P
  storesBits _ := false

/-! ## The plain side -/

section Plain
variable {R : Rv} {P : CacheParam}

theorem sim_guard {σ τ α : Type} {Q : σ → τ → Prop} {c : Prop} [Decidable c] {m : Prog Unit σ α} {n : Prog Unit τ α}
    (h : c → Sim Q m n) : Sim Q (if c then m else .undefined) n := by
  by_cases hc : c
  · rw [if_pos hc]
    exact h hc
  · rw [if_neg hc]
    exact sim_undefined n

theorem sim_rfl {σ α : Type} (m : Prog Unit σ α) : Sim Eq m m := by
  rintro s _ rfl
  cases m s with
  | ok a s' => exact ⟨rfl, rfl⟩
  | error e s' => exact ⟨rfl, rfl⟩
  | undefined => trivial

theorem sim_softInstBytes {σ τ : Type} {Q : σ → τ → Prop} {load : Nat → Nat → Prog Unit σ Nat}
    {load' : Nat → Nat → Prog Unit τ Nat} (h : ∀ n mpa, Sim Q (load n mpa) (load' n mpa)) (mpa : Nat) :
    Sim Q (softInstBytes R load mpa) (softInstBytes R load' mpa) := by
  refine sim_bind (h _ _) fun _ => sim_ite (sim_pure _) (sim_ite ?_ (sim_ite ?_ (sim_ite ?_ (sim_throw _))))
  · exact sim_bind (h _ _) fun _ => sim_pure _
  · exact sim_bind (h _ _) fun _ => sim_bind (h _ _) fun _ => sim_pure _
  · exact sim_bind (h _ _) fun _ => sim_bind (h _ _) fun _ => sim_bind (h _ _) fun _ => sim_pure _

theorem sim_ramLoad (n mpa : Nat) : Sim Eq (ramLoad n mpa) (UserMemory.busLoad n mpa) := sim_guard fun _ => sim_rfl _

theorem sim_ramStore (n mpa val : Nat) : Sim Eq (ramStore n mpa val) (UserMemory.busStore n mpa val) :=
  sim_guard fun _ => sim_rfl _

theorem ramLoad_keeps (n mpa : Nat) (m : UserMemory) :
    ramLoad n mpa m = .undefined ∨ (∃ v, ramLoad n mpa m = .ok v m) ∨ ramLoad n mpa m = .error () m := by
  unfold ramLoad
  split
  · unfold UserMemory.busLoad
    cases m.load n mpa with
    | none => exact .inr (.inr rfl)
    | some v => exact .inr (.inl ⟨v, rfl⟩)
  · exact .inl rfl

theorem checkedInstBytes_cases (R : Rv) (P : CacheParam) (mpa : Nat) (m : UserMemory) :
    checkedInstBytes R P mpa m = .undefined ∨
      (checkedInstBytes R P mpa m = softInstBytes R ramLoad mpa m ∧
        ∀ inst m', ramLoad 2 (mpa % 2 ^ R.xlen) m = .ok inst m' → FitsLine P (mpa % 2 ^ R.xlen) ∧
          (inst &&& 0b1111111 = 0b0111111 → FitsLine P ((mpa + 4) % 2 ^ R.xlen))) := by
  obtain hl | ⟨v, hl⟩ | hl := ramLoad_keeps 2 (mpa % 2 ^ R.xlen) m
  · exact .inl (bind_undefined hl)
  · unfold checkedInstBytes
    rw [bind_ok hl]
    split
    · exact .inl rfl
    · rename_i hc
      rw [not_or, not_and, not_not, not_not] at hc
      refine .inr ⟨rfl, fun inst m' h' => ?_⟩
      obtain ⟨rfl, -⟩ := Outcome.ok.inj (hl.symm.trans h')
      exact hc
  · refine .inr ⟨(bind_error hl).trans (bind_error hl).symm, fun inst m' h' => ?_⟩
    cases hl.symm.trans h'

/-- A run in which all checks pass is a run of `mmu_soft`. -/
theorem checked_sim (R : Rv) (P : CacheParam) : PortSim Eq (checked R P) (mmuSoft R) where
  load := sim_ramLoad
  store := sim_ramStore
  updatePte := fun _ _ _ => sim_undefined _
  instBytes := fun mpa => by
    rintro m _ rfl
    show Outcome.Rel Eq (checkedInstBytes R P mpa m) (softInstBytes R UserMemory.busLoad mpa m)
    obtain h | ⟨h, -⟩ := checkedInstBytes_cases R P mpa m
    · rw [h]
      trivial
    · rw [h]
      exact sim_softInstBytes sim_ramLoad mpa m m rfl

end Plain

/-! ## The cached side -/

/-- The cache stands for the plain memory, and what lies outside its RAM is the same. -/
structure Agree (P : CacheParam) (k : Nat) (mem0 m : UserMemory) (c : TaggedCache) : Prop where
  ram : Ram m k
  coherent : TaggedCache.Coherent P k mem0 c (ramBytes m k)
  outside : ∀ k' o, (k' ≠ k ∨ statsBase - defaultRamBase ≤ o) → m.host k' o = mem0.host k' o

/-- Only the bytes of RAM matter. -/
theorem TaggedCache.Coherent.congr_bytes {P : CacheParam} {k : Nat} {mem0 : UserMemory} {c : TaggedCache}
    {b b' : Nat → UInt8} (h : Coherent P k mem0 c b) (hb : ∀ a, defaultRamBase ≤ a → a < statsBase → b' a = b a) :
    Coherent P k mem0 c b' where
  tagged := h.tagged
  ram := h.ram
  segments := h.segments
  outside := h.outside
  line := h.line
  data := fun i hi he o ho => by
    obtain ⟨hlo, hhi⟩ := h.line i hi he
    rw [Nat.add_mul] at hhi
    rw [hb _ (by omega) (by omega)]
    exact h.data i hi he o ho
  clean := fun a hlo hhi ha => (h.clean a hlo hhi ha).trans (hb a hlo hhi).symm
  through := h.through
  empty := h.empty

section Cached
variable {R : Rv} {P : CacheParam} {k : Nat} {mem0 m : UserMemory} {c : TaggedCache} {n mpa : Nat}

theorem InRam.inLine (h3 : 3 ≤ P.lineShift) (h : InRam n mpa) : InLine P n mpa := h.1.inLine h3 h.2.1 h.2.2

theorem busLoad_ram (hR : Ram m k) (h : InRam n mpa) :
    UserMemory.busLoad n mpa m = .ok (flatLoad (ramBytes m k) n mpa) m := by
  have hs : defaultRamBase + defaultRamSize = 0xC0000028 := rfl
  have hb : statsBase = 0xC0000000 := rfl
  obtain ⟨⟨hn, -⟩, hlo, hhi⟩ := h
  exact busLoad_some (hR.load hlo (by omega))

theorem sim_load (h3 : 3 ≤ P.lineShift) (n mpa : Nat) :
    Sim (Agree P k mem0) (ramLoad n mpa) (TaggedCache.load P n mpa) := by
  refine sim_guard fun hin m c hA => ?_
  obtain ⟨v, c', hload, rfl, hc'⟩ := exists_ok (TaggedCache.wp_load_coherent h3 hA.coherent (hin.inLine h3))
  rw [busLoad_ram hA.ram hin, hload]
  exact ⟨rfl, hA.ram, hc', hA.outside⟩

theorem sim_store (h3 : 3 ≤ P.lineShift) (n mpa val : Nat) :
    Sim (Agree P k mem0) (ramStore n mpa val) (TaggedCache.store P n mpa val) := by
  have hs : defaultRamBase + defaultRamSize = 0xC0000028 := rfl
  have hb : statsBase = 0xC0000000 := rfl
  refine sim_guard fun hin m c hA => ?_
  obtain ⟨u, c', hstore, hc'⟩ := exists_ok (TaggedCache.wp_store_coherent h3 hA.coherent (hin.inLine h3) val)
  obtain ⟨⟨hn, -⟩, hlo, hhi⟩ := hin
  rw [busStore_some (hA.ram.store hlo (by omega)), hstore]
  refine ⟨rfl, hA.ram.congr rfl, hc'.congr_bytes fun a ha ha' => ?_, fun k' o ho => ?_⟩
  · show (if _ then _ else _) = flatStore (ramBytes m k) n mpa val a
    unfold flatStore
    by_cases hin : mpa ≤ a ∧ a < mpa + n
    · rw [if_pos hin, if_pos ⟨rfl, by omega, by omega⟩]
      exact congrArg (leByte val) (by omega)
    · rw [if_neg hin, if_neg (by omega)]
      rfl
  · exact (if_neg (by omega)).trans (hA.outside k' o ho)

/-! ## Instructions -/

theorem flatLoad_lt (b : Nat → UInt8) (n a : Nat) : flatLoad b n a < 2 ^ (8 * n) := leValue_lt ..

/-- A word is its two halves. -/
theorem flatLoad_four (b : Nat → UInt8) (a : Nat) :
    flatLoad b 4 a = flatLoad b 2 a ||| flatLoad b 2 (a + 2) <<< 16 := by
  rw [Nat.or_comm, ← Nat.shiftLeft_add_eq_or_of_lt (flatLoad_lt b 2 a), Nat.add_comm]
  simp only [flatLoad, Nat.add_assoc]
  exact leValue_add _ 2 2

/-- The length is read off the low half. -/
theorem or_shiftLeft_and (x y mask : Nat) (h : mask < 2 ^ 16) : (x ||| y <<< 16) &&& mask = x &&& mask := by
  refine Nat.eq_of_testBit_eq fun i => ?_
  rw [Nat.testBit_and, Nat.testBit_or, Nat.testBit_shiftLeft, Nat.testBit_and]
  by_cases hi : i < 16
  · simp [Nat.not_le.2 hi]
  · rw [Nat.testBit_lt_two_pow (lt_of_lt_of_le h (Nat.pow_le_pow_right (by decide) (Nat.not_lt.1 hi)))]
    simp

/-- A read of the plain side, where the check passes. -/
theorem rel_ramLoad {α τ : Type} {Q : UserMemory → τ → Prop} (hR : Ram m k) {f : Nat → Prog Unit UserMemory α}
    {o : Outcome Unit τ α} (h : InRam n mpa → (f (flatLoad (ramBytes m k) n mpa) m).Rel Q o) :
    ((ramLoad n mpa >>= f) m).Rel Q o := by
  by_cases hin : InRam n mpa
  · have hl : ramLoad n mpa m = .ok (flatLoad (ramBytes m k) n mpa) m := by
      unfold ramLoad
      rw [if_pos hin]
      exact busLoad_ram hR hin
    rw [bind_ok hl]
    exact h hin
  · have hl : ramLoad n mpa m = .undefined := by
      unfold ramLoad
      rw [if_neg hin]
      rfl
    rw [bind_undefined hl]
    trivial

/-- A read of the cached side. -/
theorem Agree.load (h3 : 3 ≤ P.lineShift) (hA : Agree P k mem0 m c) (hin : InLine P n mpa) :
    ∃ c', TaggedCache.load P n mpa c = .ok (flatLoad (ramBytes m k) n mpa) c' ∧ Agree P k mem0 m c' := by
  obtain ⟨v, c', hload, rfl, hc'⟩ := exists_ok (TaggedCache.wp_load_coherent h3 hA.coherent hin)
  exact ⟨c', hload, hA.ram, hc', hA.outside⟩

theorem FitsLine.inLine (h : FitsLine P mpa) (hin : InRam 2 mpa) : InLine P 4 mpa := by
  obtain ⟨-, hlo, hhi⟩ := hin
  have hl := TaggedCache.lineInRam_pcln (P := P) hlo (by omega)
  have hm := TaggedCache.mpa_eq P mpa
  have hend := hl.2
  unfold FitsLine at h
  rw [Nat.add_mul] at hend
  exact ⟨by decide, hlo, by omega, h⟩

theorem add_mod_xlen (R : Rv) (mpa d : Nat) (h : mpa % 2 ^ R.xlen + d < 2 ^ 32) :
    (mpa + d) % 2 ^ R.xlen = mpa % 2 ^ R.xlen + d := by
  cases R <;> simp only [Rv.xlen] at * <;> omega

theorem sim_instBytes (h3 : 3 ≤ P.lineShift) (mpa : Nat) :
    Sim (Agree P k mem0) (checkedInstBytes R P mpa) (cacheInstBytes R (TaggedCache.load P) mpa) := by
  intro m c hA
  have hb : statsBase = 0xC0000000 := rfl
  obtain h | ⟨h, hfits⟩ := checkedInstBytes_cases R P mpa m
  · rw [h]
    trivial
  rw [h]
  refine rel_ramLoad hA.ram fun hin => ?_
  rw [Nat.add_zero] at hin ⊢
  have hR := hA.ram
  -- `x` is the first parcel, which decides the length on both sides
  generalize hx : flatLoad (ramBytes m k) 2 (mpa % 2 ^ R.xlen) = x
  have hlt : x < 2 ^ 16 := hx ▸ flatLoad_lt _ 2 _
  obtain ⟨hfit, hfit4⟩ := hfits x m (by unfold ramLoad; rw [if_pos hin, busLoad_ram hR hin, hx])
  obtain ⟨c1, hload, hA1⟩ := hA.load h3 (hfit.inLine hin)
  have h2 : (mpa + 2) % 2 ^ R.xlen = mpa % 2 ^ R.xlen + 2 := add_mod_xlen R mpa 2 (by have := hin.2.2; omega)
  unfold cacheInstBytes
  rw [bind_ok hload, flatLoad_four, hx]
  simp only [or_shiftLeft_and _ _ _ (show 0b11 < 2 ^ 16 by decide), or_shiftLeft_and _ _ _ (show 0b11100 < 2 ^ 16 by decide),
    or_shiftLeft_and _ _ _ (show 0b111111 < 2 ^ 16 by decide), or_shiftLeft_and _ _ _ (show 0b1111111 < 2 ^ 16 by decide),
    or_shiftLeft_and _ _ _ (show 0xffff < 2 ^ 16 by decide)]
  by_cases hc : x &&& 0b11 ≠ 0b11
  · rw [if_pos hc, if_pos hc]
    refine ⟨congrArg (·, 2) ?_, hA1⟩
    rw [show 0xffff = 2 ^ 16 - 1 from rfl, Nat.and_two_pow_sub_one_eq_mod, Nat.mod_eq_of_lt hlt]
  rw [if_neg hc, if_neg hc]
  by_cases h32 : x &&& 0b11100 ≠ 0b11100
  · rw [if_pos h32, if_pos h32]
    refine rel_ramLoad hR fun _ => ?_
    rw [h2]
    exact ⟨rfl, hA1⟩
  rw [if_neg h32, if_neg h32]
  by_cases h48 : x &&& 0b111111 = 0b011111
  · rw [if_pos h48, if_pos h48]
    refine rel_ramLoad hR fun _ => rel_ramLoad hR fun hin4 => ?_
    obtain ⟨c2, hload4, hA2⟩ := hA1.load h3 (hin4.inLine h3)
    rw [bind_ok hload4, h2]
    exact ⟨rfl, hA2⟩
  rw [if_neg h48, if_neg h48]
  by_cases h64 : x &&& 0b1111111 = 0b0111111
  · rw [if_pos h64, if_pos h64]
    refine rel_ramLoad hR fun _ => rel_ramLoad hR fun hin4 => rel_ramLoad hR fun _ => ?_
    obtain ⟨c2, hload4, hA2⟩ := hA1.load h3 ((hfit4 h64).inLine hin4)
    -- the last two parcels are one word here
    have h6 : (mpa + 6) % 2 ^ R.xlen = (mpa + 4) % 2 ^ R.xlen + 2 := add_mod_xlen R (mpa + 4) 2 (by have := hin4.2.2; omega)
    rw [bind_ok hload4, h2, h6, flatLoad_four _ ((mpa + 4) % 2 ^ R.xlen)]
    refine ⟨congrArg (·, 8) ?_, hA2⟩
    rw [Nat.shiftLeft_or_distrib, ← Nat.shiftLeft_add, ← Nat.or_assoc]
  · rw [if_neg h64, if_neg h64]
    exact ⟨rfl, hA1⟩

/-- A run in which all checks pass goes the same way through the cache. -/
theorem checked_sim_cache (R : Rv) (h3 : 3 ≤ P.lineShift) :
    PortSim (Agree P k mem0) (checked R P) (mmuSoftCache R P) where
  load := sim_load h3
  store := sim_store h3
  updatePte := fun _ _ _ => sim_undefined _
  instBytes := sim_instBytes h3

/-! ## Runs -/

/-- The bytes of RAM once each dirty line is written back. -/
def writtenBack (P : CacheParam) (k : Nat) (c : TaggedCache) (a : Nat) : UInt8 :=
  match (List.range P.numKeys).find? fun i =>
      (c.key i).status ≠ .empty ∧ (c.key i).state = cacheStateModified ∧ (c.key i).pcln = P.pcln a with
  | some i => c.data (i * P.lineSize + P.offset a)
  | none => c.mem.host k (a - defaultRamBase)

theorem TaggedCache.Coherent.writtenBack {b : Nat → UInt8} (h : Coherent P k mem0 c b) {a : Nat}
    (hlo : defaultRamBase ≤ a) (hhi : a < statsBase) : writtenBack P k c a = b a := by
  unfold Emu.writtenBack
  cases hf : (List.range P.numKeys).find? fun i =>
      (c.key i).status ≠ .empty ∧ (c.key i).state = cacheStateModified ∧ (c.key i).pcln = P.pcln a with
  | some i =>
    have hkey := List.find?_some hf
    obtain ⟨he, -, hp⟩ := of_decide_eq_true hkey
    have hi := List.mem_range.1 (List.mem_of_find?_eq_some hf)
    refine (h.data i hi he _ (P.offset_lt a)).trans ?_
    rw [hp, mpa_eq]
  | none =>
    refine h.clean a hlo hhi fun i hi he hp hd => ?_
    have := List.find?_eq_none.1 hf i (List.mem_range.2 hi)
    exact this (decide_eq_true ⟨he, hd, hp⟩)

end Cached

/-- In every run whose accesses stay in RAM, whose walks find their flags set and whose instructions are read
within lines, the two MMUs deliver the same, raise the same, and leave the same memory behind. -/
theorem cached_mmu_agrees (R : Rv) (P : CacheParam) (h3 : 3 ≤ P.lineShift) (mem : UserMemory) (k : Nat) (hR : Ram mem k)
    (data : Nat → UInt8) (last : LineStatus) (itlb dtlb : Tlb) (steps : List (MmuStep R))
    (hok : MmuStep.run (checked R P) steps ⟨itlb, dtlb, mem⟩ ≠ .undefined) :
    ∃ rs s t, MmuStep.run (mmuSoft R) steps ⟨itlb, dtlb, mem⟩ = .ok rs s ∧
      MmuStep.run (mmuSoftCache R P) steps ⟨itlb, dtlb, TaggedCache.fresh P mem data last⟩ = .ok rs t ∧
      (∀ a, defaultRamBase ≤ a → a < statsBase → writtenBack P k t.mem a = ramBytes s.mem k a) ∧
      ∀ k' o, (k' ≠ k ∨ defaultRamSize ≤ o) → t.mem.mem.host k' o = s.mem.host k' o := by
  have hs : defaultRamBase + defaultRamSize = 0xC0000028 := rfl
  have hb : statsBase = 0xC0000000 := rfl
  have hA : Agree P k mem mem (TaggedCache.fresh P mem data last) :=
    ⟨hR, coherent_fresh P h3 hR data last, fun _ _ _ => rfl⟩
  -- the checked run is followed by both MMUs, so they follow each other
  obtain hm | ⟨rs, s', s, hm, hsoft, -, -, hmem⟩ | ⟨e, -⟩ :=
    ((checked_sim R P).run steps).cases (s := ⟨itlb, dtlb, mem⟩) (t := ⟨itlb, dtlb, mem⟩) ⟨rfl, rfl, rfl⟩
  · exact absurd hm hok
  · obtain hm' | ⟨rs', s'', t, hm', hcache, -, -, hA'⟩ | ⟨e, -⟩ :=
      ((checked_sim_cache R h3).run steps).cases (s := ⟨itlb, dtlb, mem⟩)
        (t := ⟨itlb, dtlb, TaggedCache.fresh P mem data last⟩) ⟨rfl, rfl, hA⟩
    · exact absurd hm' hok
    · obtain ⟨rfl, rfl⟩ := Outcome.ok.inj (hm.symm.trans hm')
      refine ⟨rs, s, t, hsoft, hcache, fun a hlo hhi => ?_, fun k' o ho => ?_⟩
      · rw [← hmem]
        exact hA'.coherent.writtenBack hlo hhi
      · rw [← hmem, hA'.outside k' o (by omega)]
        exact hA'.coherent.outside k' o ho
    · exact e.elim
  · exact e.elim

/-- The cache of `mmu_soft_cache_rv64`. -/
def cacheTypeRv64 : CacheParam := cacheOfWays 3 .through

/-- The table of `gigapageRam` with A and D set. -/
def flaggedRam : UserMemory :=
  (UserMemory.mk [⟨defaultRamBase, defaultRamSize⟩] fun _ _ => 0).write 8 (0x80000 <<< 10 ||| 0xcf) 0 0

theorem cached_mmu_agrees_paged :
    ∃ rs s t, MmuStep.run (mmuSoft .rv64) [storeStep, ⟨supervisor 0x80000, .instFetch 0x1000 0⟩, loadStep]
        ⟨Tlb.empty .rv64, Tlb.empty .rv64, flaggedRam⟩ = .ok rs s ∧
      MmuStep.run (mmuSoftCache .rv64 cacheTypeRv64) [storeStep, ⟨supervisor 0x80000, .instFetch 0x1000 0⟩, loadStep]
        ⟨Tlb.empty .rv64, Tlb.empty .rv64, TaggedCache.fresh cacheTypeRv64 flaggedRam (fun _ => 0) .empty⟩ = .ok rs t ∧
      writtenBack cacheTypeRv64 0 t.mem 0x80001000 = ramBytes s.mem 0 0x80001000 := by
  have hdef : (MmuStep.run (checked .rv64 cacheTypeRv64)
      [storeStep, ⟨supervisor 0x80000, .instFetch 0x1000 0⟩, loadStep]
      ⟨Tlb.empty .rv64, Tlb.empty .rv64, flaggedRam⟩).result.isSome := by decide +kernel
  obtain ⟨rs, s, t, hs, ht, hmem, -⟩ := cached_mmu_agrees .rv64 cacheTypeRv64 (by decide) flaggedRam 0
    (ram_zeroRam.congr rfl) (fun _ => 0) .empty (Tlb.empty .rv64) (Tlb.empty .rv64)
    [storeStep, ⟨supervisor 0x80000, .instFetch 0x1000 0⟩, loadStep] (fun h => by rw [h] at hdef; cases hdef)
  exact ⟨rs, s, t, hs, ht, hmem _ (by decide) (by decide)⟩

/-- A load through an entry with A clear: `mmu_soft` sets the flag in memory, `mmu_soft_cache` does not. -/
theorem not_agree_accessed_flag :
    (MmuStep.run (inRam .rv64) [loadStep] (emptyTlbs .rv64 gigapageRam)).result.isSome ∧
    ∃ rs s rs' t, MmuStep.run (mmuSoft .rv64) [loadStep] (emptyTlbs .rv64 gigapageRam) = .ok rs s ∧
      MmuStep.run (mmuSoftCache .rv64 cacheTypeRv64) [loadStep]
        ⟨Tlb.empty .rv64, Tlb.empty .rv64, TaggedCache.fresh cacheTypeRv64 gigapageRam (fun _ => 0) .empty⟩ = .ok rs' t ∧
      writtenBack cacheTypeRv64 0 t.mem 0x80000000 ≠ ramBytes s.mem 0 0x80000000 := by
  have hsoft : (MmuStep.run (mmuSoft .rv64) [loadStep] (emptyTlbs .rv64 gigapageRam)).result.map
      (fun r => ramBytes r.2.mem 0 0x80000000) = some 0x4f := by decide +kernel
  have hcache : (MmuStep.run (mmuSoftCache .rv64 cacheTypeRv64) [loadStep]
      ⟨Tlb.empty .rv64, Tlb.empty .rv64, TaggedCache.fresh cacheTypeRv64 gigapageRam (fun _ => 0) .empty⟩).result.map
      (fun r => writtenBack cacheTypeRv64 0 r.2.mem 0x80000000) = some 0x0f := by decide +kernel
  obtain ⟨⟨rs, s⟩, hs, hbyte⟩ := Option.map_eq_some_iff.1 hsoft
  obtain ⟨⟨rs', t⟩, ht, hbyte'⟩ := Option.map_eq_some_iff.1 hcache
  refine ⟨by decide +kernel, rs, s, rs', t, Outcome.eq_ok hs, Outcome.eq_ok ht, ?_⟩
  rw [hbyte, hbyte']
  decide

end Rv8.Emu
