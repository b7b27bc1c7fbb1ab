import Rv8.Emu.Mmu
/-!
# The page walk

`walk_page_table` of `mmu_soft` reads entries until it comes to one that ends the
walk, and only then writes. `findFrom` is the reading part, as a function of memory,
and `specWalk` is the walk of the privileged specification.

The code takes an entry without R, W and X for a pointer before it looks at V, and
its loop does not stop after level 0. `WalkOk` says when that does no harm.
-/

namespace Rv8.Emu

open Rv8.Lib

/-! ## Reading the tables -/

/-- Where the loop is left. -/
inductive WalkEnd
  | fault
  | undefined
  | leaf (mpa pte level : Nat)
deriving DecidableEq

section Find
variable (R : Rv) (ptm : Ptm) (va : Nat) (m : UserMemory)

def findTurn (next : Nat → WalkEnd) (level ppn : Nat) : WalkEnd :=
  let shift := (ptm.bits * level + pageShift) % 2 ^ R.xlen
  if R.xlen ≤ shift then .undefined
  else
    match m.load ptm.pteSize (pteMpa R ptm va shift ppn) with
    | none => .fault
    | some pte =>
      if IsPointer pte then next (ptm.table pte R)
      else if IsInvalid pte then .fault
      else
        let superpage := (shift + 2 ^ R.xlen - pageShift) % 2 ^ R.xlen
        if 31 ≤ superpage then .undefined
        else if (2 ^ superpage - 1) &&& ptm.ppn pte ≠ 0 then .fault
        else .leaf (pteMpa R ptm va shift ppn) pte level

def findWrapped : Nat → WalkEnd :=
  findTurn R ptm va m (findTurn R ptm va m (fun _ => .undefined) (2 ^ R.xlen - 2)) (2 ^ R.xlen - 1)

def findFrom : Nat → Nat → WalkEnd
  | 0 => findTurn R ptm va m (findWrapped R ptm va m) 0
  | level + 1 => findTurn R ptm va m (findFrom level) (level + 1)

/-- What is left to do then: the flags of a leaf are brought up to date. -/
def finish (op : MmuOp) : WalkEnd → Outcome Unit UserMemory Leaf
  | .fault => .error () m
  | .undefined => .undefined
  | .leaf mpa pte level =>
    let leaf := ⟨pageTranslateOffset R ptm (ptm.ppn pte) va level, pte ||| adFlags op, level⟩
    if pte &&& adFlags op ≠ adFlags op then .ok leaf ((m.store ptm.pteSize mpa (pte ||| adFlags op)).getD m)
    else .ok leaf m

end Find

section Equation
variable {R : Rv} {ptm : Ptm} {op : MmuOp} {va : Nat} {m : UserMemory}

theorem adFlags_lt (op : MmuOp) : adFlags op < 2 ^ 10 := by
  cases op <;> decide

theorem ppn_or_adFlags (ptm : Ptm) (pte : Nat) (op : MmuOp) : ptm.ppn (pte ||| adFlags op) = ptm.ppn pte := by
  unfold Ptm.ppn
  rw [Nat.shiftRight_or_distrib, Nat.shiftRight_eq_zero _ _ (adFlags_lt op), Nat.or_zero]

theorem isPointer_iff (pte : Nat) :
    IsPointer pte ↔ ¬ pte.testBit pteShiftR ∧ ¬ pte.testBit pteShiftW ∧ ¬ pte.testBit pteShiftX := by
  unfold IsPointer
  rw [Nat.and_one_is_mod, ← Nat.mod_two_ne_one, ne_eq, ← decide_eq_true_iff (p := _ % 2 = 1), ← Nat.testBit_zero]
  simp only [Nat.testBit_or, Nat.testBit_shiftRight, Nat.add_zero]
  cases pte.testBit pteShiftR <;> cases pte.testBit pteShiftW <;> cases pte.testBit pteShiftX <;> decide

/-- What is neither a pointer nor invalid is a leaf. -/
theorem readable_or_executable {pte : Nat} (hp : ¬ IsPointer pte) (hi : ¬ IsInvalid pte) :
    pte.testBit pteShiftR ∨ pte.testBit pteShiftX := by
  rw [isPointer_iff] at hp
  unfold IsInvalid at hi
  tauto

theorem or_eq_of_and {a b : Nat} (h : a &&& b = b) : a ||| b = a := by
  rw [← h]
  refine Nat.eq_of_testBit_eq fun i => ?_
  rw [Nat.testBit_or, Nat.testBit_and]
  cases a.testBit i <;> rfl

theorem busLoad_some {n a v : Nat} (h : m.load n a = some v) : UserMemory.busLoad n a m = .ok v m := by
  unfold UserMemory.busLoad
  rw [h]

theorem busLoad_none {n a : Nat} (h : m.load n a = none) : UserMemory.busLoad n a m = .error () m := by
  unfold UserMemory.busLoad
  rw [h]

theorem busStore_some {n a val : Nat} {m' : UserMemory} (h : m.store n a val = some m') :
    UserMemory.busStore n a val m = .ok () m' := by
  unfold UserMemory.busStore
  rw [h]

theorem walkTurn_eq {next : Nat → Prog Unit UserMemory Leaf} {next' : Nat → WalkEnd}
    (hnext : ∀ ppn, next ppn m = finish R ptm va m op (next' ppn)) (level ppn : Nat) :
    walkTurn (mmuSoft R) R ptm op va next level ppn m = finish R ptm va m op (findTurn R ptm va m next' level ppn) := by
  unfold walkTurn findTurn
  dsimp only
  split
  · rfl
  · cases hl : m.load ptm.pteSize (pteMpa R ptm va ((ptm.bits * level + pageShift) % 2 ^ R.xlen) ppn) with
    | none => exact Prog.bind_error (busLoad_none hl)
    | some pte =>
      refine (Prog.bind_ok (busLoad_some hl)).trans ?_
      dsimp only
      by_cases hp : IsPointer pte
      · rw [if_pos hp, if_pos hp]
        exact hnext _
      rw [if_neg hp, if_neg hp]
      by_cases hi : IsInvalid pte
      · rw [if_pos hi, if_pos hi]
        rfl
      -- the loop has no third case: what is left is a leaf
      rw [if_neg hi, if_neg hi, if_pos (readable_or_executable hp hi)]
      split
      · rfl
      split
      · rfl
      unfold finish
      dsimp only
      split
      · -- the entry was just read, so it can be written
        obtain ⟨m', hm'⟩ := UserMemory.store_of_load (pte ||| adFlags op) hl
        rw [hm', Option.getD_some, ← ppn_or_adFlags ptm pte op]
        exact Prog.bind_ok (Prog.bind_ok (busStore_some hm'))
      · rw [or_eq_of_and (not_not.1 (by assumption))]
        rfl

theorem walkWrapped_eq (ppn : Nat) :
    walkWrapped (mmuSoft R) R ptm op va ppn m = finish R ptm va m op (findWrapped R ptm va m ppn) :=
  walkTurn_eq (fun ppn => walkTurn_eq (fun _ => rfl) (2 ^ R.xlen - 2) ppn) (2 ^ R.xlen - 1) ppn

theorem walkFrom_eq (level ppn : Nat) :
    walkFrom (mmuSoft R) R ptm op va level ppn m = finish R ptm va m op (findFrom R ptm va m level ppn) := by
  induction level generalizing ppn with
  | zero => exact walkTurn_eq walkWrapped_eq 0 ppn
  | succ level ih => exact walkTurn_eq ih (level + 1) ppn

end Equation

/-! ## The specification -/

section Spec
variable (R : Rv) (ptm : Ptm) (va : Nat) (m : UserMemory)

/-- One level of the walk from the table at an address. Nothing lies above the addresses of the bus. -/
def specTurn (next : Nat → Option Nat) (level table : Nat) : Option Nat :=
  let mpa := table + va / 2 ^ (ptm.bits * level + 12) % 2 ^ ptm.bits * ptm.pteSize
  if 2 ^ R.xlen ≤ mpa then none
  else
    match m.load ptm.pteSize mpa with
    | none => none
    | some pte =>
      if ¬ pte.testBit pteShiftV ∨ (¬ pte.testBit pteShiftR ∧ pte.testBit pteShiftW) then none
      else if ¬ pte.testBit pteShiftR ∧ ¬ pte.testBit pteShiftW ∧ ¬ pte.testBit pteShiftX then
        next (ptm.ppn pte * 4096)
      else if ptm.ppn pte % 2 ^ (ptm.bits * level) ≠ 0 then none
      else some (ptm.ppn pte * 4096 + va % 2 ^ (ptm.bits * level + 12))

/-- The physical address that the tables give to `va`. -/
def specWalk : Nat → Nat → Option Nat
  | 0 => specTurn R ptm va m (fun _ => none) 0
  | level + 1 => specTurn R ptm va m (specWalk level) (level + 1)

/-- The root table of `sptbr`. -/
def specRoot (sptbr : Nat) : Nat := sptbr % 2 ^ R.ppnBits * 4096

/-! ## When the code follows it -/

/-- The address of the entry that the code reads at a level. -/
def entryMpa (level table : Nat) : Nat := pteMpa R ptm va (ptm.bits * level + pageShift) table

def DeadTurn (next : Nat → Prop) (level table : Nat) : Prop :=
  match m.load ptm.pteSize (entryMpa R ptm va level table) with
  | none => True
  | some pte =>
    if IsPointer pte then next (ptm.table pte R)
    else IsInvalid pte ∨ ptm.ppn pte % 2 ^ (ptm.bits * level) ≠ 0

/-- The entry read after level 0 is no pointer, and invalid. -/
def DeadWrapped (table : Nat) : Prop :=
  match m.load ptm.pteSize (pteMpa R ptm va (pageShift - ptm.bits) table) with
  | none => True
  | some pte => ¬ IsPointer pte ∧ IsInvalid pte

/-- The pointers, valid or not, lead to an entry that cannot be read, or is invalid or misaligned. -/
def DeadEnd : Nat → Nat → Prop
  | 0 => DeadTurn R ptm va m (DeadWrapped R ptm va m) 0
  | level + 1 => DeadTurn R ptm va m (DeadEnd level) (level + 1)

def GoodTurn (next : Nat → Prop) (level table : Nat) : Prop :=
  match m.load ptm.pteSize (entryMpa R ptm va level table) with
  | none => True
  | some pte =>
    if IsPointer pte then
      pte.testBit pteShiftV ∧ ptm.table pte R = ptm.ppn pte * 4096 ∧ next (ptm.table pte R)
    else IsInvalid pte ∨ ptm.ppn pte % 2 ^ (ptm.bits * level) ≠ 0 ∨ ptm.ppn pte * 4096 < 2 ^ R.xlen

/-- Every pointer on the way is valid and above level 0, and no address is cut. -/
def GoodLinks : Nat → Nat → Prop
  | 0 => GoodTurn R ptm va m (fun _ => False) 0
  | level + 1 => GoodTurn R ptm va m (GoodLinks level) (level + 1)

/-- The condition on the tables: all pointers are good, or they lead nowhere. The second is not enough for
sv32 on RV64, where the code reads other tables than the specification. -/
def WalkOk (sptbr : Nat) : Prop :=
  ¬ (R = .rv32 ∧ ptm = .sv48) ∧
    ((rootTable R sptbr = specRoot R sptbr ∧ GoodLinks R ptm va m (ptm.levels - 1) (rootTable R sptbr)) ∨
      (¬ (R = .rv64 ∧ ptm = .sv32) ∧ DeadEnd R ptm va m (ptm.levels - 1) (rootTable R sptbr)))

end Spec

/-- What the specification asks of a call of `walk_page_table`. -/
def Refines (op : MmuOp) (va : Nat) (spec : Option Nat) : Outcome MmuExit (Mmu UserMemory) Leaf → Prop
  | .ok leaf _ => spec = some leaf.pa
  | .error e _ => e = .raise (faultCause op) va ∧ spec = none
  | .undefined => False

/-- The same of the reading part. -/
def RefinesEnd (R : Rv) (ptm : Ptm) (va : Nat) (spec : Option Nat) : WalkEnd → Prop
  | .leaf _ pte level => spec = some (pageTranslateOffset R ptm (ptm.ppn pte) va level)
  | .fault => spec = none
  | .undefined => False

/-! ## One turn -/

section Turn
variable {R : Rv} {ptm : Ptm} {va : Nat} {m : UserMemory} {level table : Nat}

theorem bits_mul_le (h : level < ptm.levels) : ptm.bits * level ≤ 27 := by
  cases ptm <;> simp only [Ptm.levels, Ptm.bits] at * <;> omega

theorem two_pow_xlen_le (R : Rv) : 2 ^ 32 ≤ 2 ^ R.xlen := by
  cases R <;> decide

theorem shift_lt (hsv : ¬ (R = .rv32 ∧ ptm = .sv48)) (h : level < ptm.levels) :
    ptm.bits * level + pageShift < R.xlen := by
  unfold pageShift
  cases R <;> cases ptm <;> simp [Ptm.levels, Ptm.bits, Rv.xlen] at * <;> omega

theorem shift_mod (h : level < ptm.levels) :
    (ptm.bits * level + pageShift) % 2 ^ R.xlen = ptm.bits * level + pageShift := by
  have := bits_mul_le h
  have := two_pow_xlen_le R
  exact Nat.mod_eq_of_lt (by unfold pageShift; omega)

theorem findTurn_eq (hsv : ¬ (R = .rv32 ∧ ptm = .sv48)) (h : level < ptm.levels) (next : Nat → WalkEnd) :
    findTurn R ptm va m next level table =
      match m.load ptm.pteSize (entryMpa R ptm va level table) with
      | none => .fault
      | some pte =>
        if IsPointer pte then next (ptm.table pte R)
        else if IsInvalid pte ∨ ptm.ppn pte % 2 ^ (ptm.bits * level) ≠ 0 then .fault
        else .leaf (entryMpa R ptm va level table) pte level := by
  have hb := bits_mul_le h
  have hx := two_pow_xlen_le R
  have hs : (ptm.bits * level + pageShift + 2 ^ R.xlen - pageShift) % 2 ^ R.xlen = ptm.bits * level := by
    rw [Nat.add_right_comm, Nat.add_sub_cancel, Nat.add_mod_right]
    exact Nat.mod_eq_of_lt (by omega)
  unfold findTurn
  dsimp only
  rw [shift_mod h, if_neg (Nat.not_le.2 (shift_lt hsv h)), hs]
  show (match m.load ptm.pteSize (entryMpa R ptm va level table) with | none => _ | some pte => _) = _
  cases m.load ptm.pteSize (entryMpa R ptm va level table) with
  | none => rfl
  | some pte =>
    have h31 : ¬ 31 ≤ ptm.bits * level := by omega
    dsimp only
    rw [Nat.and_comm, Nat.and_two_pow_sub_one_eq_mod]
    simp only [h31, if_false]
    by_cases hi : IsInvalid pte
    · simp only [hi, true_or, if_true]
    · simp only [hi, false_or, if_false]
      rfl

/-- After level 0 a pointer is followed once more, but no leaf can be taken. -/
theorem findWrapped_eq (table : Nat) :
    findWrapped R ptm va m table =
      match m.load ptm.pteSize (pteMpa R ptm va (pageShift - ptm.bits) table) with
      | none => .fault
      | some pte => if ¬ IsPointer pte ∧ IsInvalid pte then .fault else .undefined := by
  have h1 : (ptm.bits * (2 ^ R.xlen - 1) + pageShift) % 2 ^ R.xlen = pageShift - ptm.bits := by
    cases R <;> cases ptm <;> decide
  have h2 : R.xlen ≤ (ptm.bits * (2 ^ R.xlen - 2) + pageShift) % 2 ^ R.xlen := by
    cases R <;> cases ptm <;> decide
  have h3 : ¬ R.xlen ≤ pageShift - ptm.bits := by
    cases R <;> cases ptm <;> decide
  have h4 : 31 ≤ (pageShift - ptm.bits + 2 ^ R.xlen - pageShift) % 2 ^ R.xlen := by
    cases R <;> cases ptm <;> decide
  unfold findWrapped findTurn
  dsimp only
  rw [h1, if_neg h3]
  cases m.load ptm.pteSize (pteMpa R ptm va (pageShift - ptm.bits) table) with
  | none => rfl
  | some pte =>
    dsimp only
    rw [if_pos h2, if_pos h4]
    by_cases hp : IsPointer pte <;> by_cases hi : IsInvalid pte <;> simp [hp, hi]

theorem findWrapped_fault_iff : findWrapped R ptm va m table = .fault ↔ DeadWrapped R ptm va m table := by
  rw [findWrapped_eq]
  unfold DeadWrapped
  cases m.load ptm.pteSize (pteMpa R ptm va (pageShift - ptm.bits) table) with
  | none => simp
  | some pte =>
    dsimp only
    split <;> simp_all

theorem findTurn_fault_iff (hsv : ¬ (R = .rv32 ∧ ptm = .sv48)) (h : level < ptm.levels) {next : Nat → WalkEnd}
    {dead : Nat → Prop} (hnext : ∀ table, next table = .fault ↔ dead table) :
    findTurn R ptm va m next level table = .fault ↔ DeadTurn R ptm va m dead level table := by
  rw [findTurn_eq hsv h]
  unfold DeadTurn
  cases m.load ptm.pteSize (entryMpa R ptm va level table) with
  | none => simp
  | some pte =>
    dsimp only
    by_cases hp : IsPointer pte
    · rw [if_pos hp, if_pos hp]
      exact hnext _
    · rw [if_neg hp, if_neg hp]
      split <;> simp_all

theorem findFrom_fault_iff (hsv : ¬ (R = .rv32 ∧ ptm = .sv48)) (h : level < ptm.levels) :
    findFrom R ptm va m level table = .fault ↔ DeadEnd R ptm va m level table := by
  induction level generalizing table with
  | zero => exact findTurn_fault_iff hsv h fun _ => findWrapped_fault_iff
  | succ level ih => exact findTurn_fault_iff hsv h fun _ => ih (by omega)

theorem entryMpa_eq (ptm : Ptm) (va level : Nat) (hlt : table < 2 ^ R.xlen) (hal : table % 4096 = 0) :
    entryMpa R ptm va level table = table + va / 2 ^ (ptm.bits * level + 12) % 2 ^ ptm.bits * ptm.pteSize ∧
      entryMpa R ptm va level table < 2 ^ R.xlen := by
  have hv : va / 2 ^ (ptm.bits * level + 12) % 2 ^ ptm.bits * ptm.pteSize < 4096 := by
    have := Nat.mod_lt (va / 2 ^ (ptm.bits * level + 12)) (Nat.two_pow_pos ptm.bits)
    cases ptm <;> simp only [Ptm.bits, Ptm.pteSize] at * <;> omega
  have hx : 2 ^ R.xlen % 4096 = 0 := by cases R <;> decide
  have hlt' : table + va / 2 ^ (ptm.bits * level + 12) % 2 ^ ptm.bits * ptm.pteSize < 2 ^ R.xlen := by omega
  unfold entryMpa pteMpa
  rw [Nat.and_two_pow_sub_one_eq_mod, Nat.shiftRight_eq_div_pow]
  exact ⟨Nat.mod_eq_of_lt hlt', Nat.mod_lt _ (Nat.two_pow_pos _)⟩

/-- From a table on the bus the specification reads the same entry. -/
theorem specTurn_eq (hlt : table < 2 ^ R.xlen) (hal : table % 4096 = 0) (next : Nat → Option Nat) :
    specTurn R ptm va m next level table =
      match m.load ptm.pteSize (entryMpa R ptm va level table) with
      | none => none
      | some pte =>
        if IsInvalid pte then none
        else if IsPointer pte then next (ptm.ppn pte * 4096)
        else if ptm.ppn pte % 2 ^ (ptm.bits * level) ≠ 0 then none
        else some (ptm.ppn pte * 4096 + va % 2 ^ (ptm.bits * level + 12)) := by
  obtain ⟨he, hlt'⟩ := entryMpa_eq ptm va level hlt hal
  unfold specTurn
  simp only [← he, Nat.not_le.2 hlt', if_false, ← isPointer_iff]
  rfl

theorem specWalk_off (hoff : 2 ^ R.xlen ≤ table) : specWalk R ptm va m level table = none := by
  cases level with
  | zero => exact if_pos (by omega)
  | succ level => exact if_pos (by omega)

theorem table_lt (R : Rv) (pte : Nat) : ptm.table pte R < 2 ^ R.xlen := by
  cases ptm with
  | sv32 => exact BitVec.isLt _
  | sv39 => exact Nat.mod_lt _ (Nat.two_pow_pos _)
  | sv48 => exact Nat.mod_lt _ (Nat.two_pow_pos _)

/-- A table address that is cut lies off the bus. -/
theorem off_of_table_ne (hsv : ¬ (R = .rv64 ∧ ptm = .sv32)) {pte : Nat}
    (hne : ptm.table pte R ≠ ptm.ppn pte * 4096) : 2 ^ R.xlen ≤ ptm.ppn pte * 4096 := by
  have hmod : ptm.table pte R = (ptm.ppn pte * 4096) % 2 ^ R.xlen := by
    rw [show ptm.ppn pte * 4096 = ptm.ppn pte <<< pageShift from (Nat.shiftLeft_eq _ 12).symm]
    cases ptm with
    | sv32 =>
      cases R with
      | rv32 =>
        show ((BitVec.ofNat 32 _).signExtend 32).toNat = _
        rw [BitVec.signExtend_eq, BitVec.toNat_ofNat]
        rfl
      | rv64 => exact absurd ⟨rfl, rfl⟩ hsv
    | sv39 => rfl
    | sv48 => rfl
  by_contra hlt
  exact hne (hmod.trans (Nat.mod_eq_of_lt (by omega)))

/-- The code's address of a leaf, whose base is cut to the width. -/
theorem pageTranslateOffset_eq (h : level < ptm.levels) (ppn : Nat) :
    pageTranslateOffset R ptm ppn va level = (ppn * 4096) % 2 ^ R.xlen + va % 2 ^ (ptm.bits * level + 12) := by
  unfold pageTranslateOffset
  dsimp only
  rw [shift_mod h, Nat.and_two_pow_sub_one_eq_mod, Nat.shiftLeft_eq]
  rfl

/-! ## The whole walk -/

theorem goodTurn_refines (hsv : ¬ (R = .rv32 ∧ ptm = .sv48)) (h : level < ptm.levels) (hlt : table < 2 ^ R.xlen)
    (hal : table % 4096 = 0) {next : Nat → WalkEnd} {specNext : Nat → Option Nat} {good : Nat → Prop}
    (hnext : ∀ table, table < 2 ^ R.xlen → table % 4096 = 0 → good table →
      RefinesEnd R ptm va (specNext table) (next table))
    (hgood : GoodTurn R ptm va m good level table) :
    RefinesEnd R ptm va (specTurn R ptm va m specNext level table) (findTurn R ptm va m next level table) := by
  rw [findTurn_eq hsv h, specTurn_eq hlt hal]
  unfold GoodTurn at hgood
  cases hl : m.load ptm.pteSize (entryMpa R ptm va level table) with
  | none => exact rfl
  | some pte =>
    rw [hl] at hgood
    dsimp only at hgood ⊢
    by_cases hp : IsPointer pte
    · rw [if_pos hp] at hgood
      obtain ⟨hv, htable, hgood⟩ := hgood
      -- with V set the specification descends as well
      have hi : ¬ IsInvalid pte := by
        have := (isPointer_iff pte).1 hp
        unfold IsInvalid
        tauto
      rw [if_pos hp, if_neg hi, if_pos hp, ← htable]
      exact hnext _ (table_lt R pte) (by omega) hgood
    · simp only [hp, if_false] at hgood ⊢
      by_cases hi : IsInvalid pte
      · simp only [hi, true_or, if_true]
        exact rfl
      by_cases hm : ptm.ppn pte % 2 ^ (ptm.bits * level) ≠ 0
      · simp only [hi, false_or, if_false]
        rw [if_pos hm, if_pos hm]
        exact rfl
      simp only [hi, hm, false_or, if_false] at hgood ⊢
      show some _ = some _
      rw [pageTranslateOffset_eq h, Nat.mod_eq_of_lt hgood]

theorem goodLinks_refines (hsv : ¬ (R = .rv32 ∧ ptm = .sv48)) (h : level < ptm.levels) (hlt : table < 2 ^ R.xlen)
    (hal : table % 4096 = 0) (hgood : GoodLinks R ptm va m level table) :
    RefinesEnd R ptm va (specWalk R ptm va m level table) (findFrom R ptm va m level table) := by
  induction level generalizing table with
  | zero => exact goodTurn_refines hsv h hlt hal (fun _ _ _ hf => hf.elim) hgood
  | succ level ih => exact goodTurn_refines hsv h hlt hal (fun _ => ih (by omega)) hgood

theorem specTurn_of_deadTurn {next : Nat → Option Nat} {dead : Nat → Prop} (hlt : table < 2 ^ R.xlen)
    (hal : table % 4096 = 0) (hnext : ∀ pte, dead (ptm.table pte R) → next (ptm.ppn pte * 4096) = none)
    (hdead : DeadTurn R ptm va m dead level table) : specTurn R ptm va m next level table = none := by
  rw [specTurn_eq hlt hal]
  unfold DeadTurn at hdead
  cases hl : m.load ptm.pteSize (entryMpa R ptm va level table) with
  | none => rfl
  | some pte =>
    rw [hl] at hdead
    dsimp only at hdead ⊢
    by_cases hi : IsInvalid pte
    · rw [if_pos hi]
    rw [if_neg hi]
    by_cases hp : IsPointer pte
    · rw [if_pos hp] at hdead ⊢
      exact hnext pte hdead
    · rw [if_neg hp] at hdead ⊢
      exact if_pos (hdead.resolve_left hi)

/-- Where the code ends in a fault, so does the specification. -/
theorem specWalk_of_deadEnd (hsv : ¬ (R = .rv64 ∧ ptm = .sv32)) (hlt : table < 2 ^ R.xlen) (hal : table % 4096 = 0)
    (hdead : DeadEnd R ptm va m level table) : specWalk R ptm va m level table = none := by
  induction level generalizing table with
  | zero => exact specTurn_of_deadTurn hlt hal (fun _ _ => rfl) hdead
  | succ level ih =>
    refine specTurn_of_deadTurn hlt hal (fun pte hd => ?_) hdead
    by_cases ht : ptm.table pte R = ptm.ppn pte * 4096
    · rw [← ht]
      exact ih (table_lt R pte) (by omega) hd
    · -- the two read different tables, but the one of the specification is off the bus
      exact specWalk_off (off_of_table_ne hsv ht)

theorem fault_of_refinesEnd_none {e : WalkEnd} (h : RefinesEnd R ptm va none e) : e = .fault := by
  cases e with
  | fault => rfl
  | undefined => exact h.elim
  | leaf mpa pte level => exact absurd h (by simp [RefinesEnd])

theorem goodTurn_of_refines (hsv : ¬ (R = .rv32 ∧ ptm = .sv48)) (h : level < ptm.levels) (hlt : table < 2 ^ R.xlen)
    (hal : table % 4096 = 0) {next : Nat → WalkEnd} {specNext : Nat → Option Nat} {good dead : Nat → Prop}
    (hfault : ∀ table, next table = .fault ↔ dead table)
    (hoff : ∀ pte, ptm.table pte R ≠ ptm.ppn pte * 4096 → specNext (ptm.ppn pte * 4096) = none)
    (hnext : ∀ table, table < 2 ^ R.xlen → table % 4096 = 0 → RefinesEnd R ptm va (specNext table) (next table) →
      good table ∨ dead table)
    (href : RefinesEnd R ptm va (specTurn R ptm va m specNext level table) (findTurn R ptm va m next level table)) :
    GoodTurn R ptm va m good level table ∨ DeadTurn R ptm va m dead level table := by
  rw [findTurn_eq hsv h, specTurn_eq hlt hal] at href
  unfold GoodTurn DeadTurn
  cases hl : m.load ptm.pteSize (entryMpa R ptm va level table) with
  | none => exact .inl trivial
  | some pte =>
    rw [hl] at href
    dsimp only at href ⊢
    by_cases hp : IsPointer pte
    · simp only [hp, if_true] at href ⊢
      by_cases hi : IsInvalid pte
      · -- V is clear: the specification faults here, so the code must do so further down
        rw [if_pos hi] at href
        exact .inr ((hfault _).1 (fault_of_refinesEnd_none href))
      rw [if_neg hi] at href
      by_cases ht : ptm.table pte R = ptm.ppn pte * 4096
      · rw [← ht] at href
        refine (hnext _ (table_lt R pte) (by omega) href).imp_left fun hg => ⟨?_, ht, hg⟩
        exact not_not.1 (not_or.1 hi).1
      · rw [hoff pte ht] at href
        exact .inr ((hfault _).1 (fault_of_refinesEnd_none href))
    · simp only [hp, if_false] at href ⊢
      by_cases hi : IsInvalid pte
      · exact .inl (.inl hi)
      by_cases hm : ptm.ppn pte % 2 ^ (ptm.bits * level) ≠ 0
      · exact .inl (.inr (.inl hm))
      -- two leaves with one address: the base is not cut
      simp only [hi, hm, false_or, if_false] at href
      have heq := Option.some.inj href
      rw [pageTranslateOffset_eq h, Nat.add_right_cancel_iff] at heq
      exact .inl (.inr (.inr (heq ▸ Nat.mod_lt _ (Nat.two_pow_pos _))))

/-- The walk does not keep to the specification by chance. -/
theorem goodLinks_of_refines (hsv : ¬ (R = .rv32 ∧ ptm = .sv48)) (hsv' : ¬ (R = .rv64 ∧ ptm = .sv32))
    (h : level < ptm.levels) (hlt : table < 2 ^ R.xlen) (hal : table % 4096 = 0)
    (href : RefinesEnd R ptm va (specWalk R ptm va m level table) (findFrom R ptm va m level table)) :
    GoodLinks R ptm va m level table ∨ DeadEnd R ptm va m level table := by
  induction level generalizing table with
  | zero =>
    refine goodTurn_of_refines hsv h hlt hal (fun _ => findWrapped_fault_iff) (fun _ _ => rfl) ?_ href
    exact fun _ _ _ href => .inr (findWrapped_fault_iff.1 (fault_of_refinesEnd_none href))
  | succ level ih =>
    have hl : level < ptm.levels := by omega
    exact goodTurn_of_refines hsv h hlt hal (fun _ => findFrom_fault_iff hsv hl)
      (fun _ ht => specWalk_off (off_of_table_ne hsv' ht)) (fun _ => ih hl) href

end Turn

/-! ## The call -/

section Call
variable {R : Rv} {ptm : Ptm} {va : Nat}

theorem refines_walkPageTable_iff (proc : Processor R.xlen) (op : MmuOp) (s : Mmu UserMemory) (spec : Option Nat) :
    Refines op va spec (walkPageTable (mmuSoft R) R ptm proc op va s) ↔
      RefinesEnd R ptm va spec
        (findFrom R ptm va s.mem (ptm.levels - 1) (rootTable R proc.csrs.sptbr.toNat)) := by
  unfold walkPageTable Mmu.onMem Prog.onError Prog.zoom
  rw [walkFrom_eq]
  cases findFrom R ptm va s.mem (ptm.levels - 1) (rootTable R proc.csrs.sptbr.toNat) with
  | fault => exact ⟨fun h => h.2, fun h => ⟨rfl, h⟩⟩
  | undefined => exact Iff.rfl
  | leaf mpa pte level =>
    unfold finish
    dsimp only
    by_cases hf : pte &&& adFlags op ≠ adFlags op
    · rw [if_pos hf]
      exact Iff.rfl
    · rw [if_neg hf]
      exact Iff.rfl

theorem off_of_rootTable_ne {sptbr : Nat} (hne : rootTable R sptbr ≠ specRoot R sptbr) :
    2 ^ R.xlen ≤ specRoot R sptbr := by
  by_contra hlt
  refine hne ?_
  unfold rootTable specRoot at *
  rw [Nat.and_two_pow_sub_one_eq_mod, Nat.shiftLeft_eq]
  exact Nat.mod_eq_of_lt (by unfold pageShift; omega)

theorem rootTable_spec (R : Rv) (sptbr : Nat) : rootTable R sptbr < 2 ^ R.xlen ∧ rootTable R sptbr % 4096 = 0 := by
  refine ⟨Nat.mod_lt _ (Nat.two_pow_pos _), ?_⟩
  unfold rootTable
  rw [Nat.shiftLeft_eq]
  have hx : 4096 ∣ 2 ^ R.xlen := by cases R <;> decide
  rw [Nat.mod_mod_of_dvd _ hx]
  exact Nat.mul_mod_left ..

theorem levels_pred_lt (ptm : Ptm) : ptm.levels - 1 < ptm.levels := by
  cases ptm <;> decide

/-- On RV32 the first shift of sv48 exceeds the width. -/
theorem findFrom_rv32_sv48 (m : UserMemory) (table : Nat) : findFrom .rv32 .sv48 va m 3 table = .undefined := by
  unfold findFrom findTurn
  exact if_pos (by decide)

/-- The walk keeps to the specification where all pointers on its way are good, or where they lead nowhere.
Apart from sv32 on RV64, it does so only there. -/
theorem walk_refines_iff (R : Rv) (ptm : Ptm) (proc : Processor R.xlen) (op : MmuOp) (va : Nat) (s : Mmu UserMemory) :
    (WalkOk R ptm va s.mem proc.csrs.sptbr.toNat →
      Refines op va (specWalk R ptm va s.mem (ptm.levels - 1) (specRoot R proc.csrs.sptbr.toNat))
        (walkPageTable (mmuSoft R) R ptm proc op va s)) ∧
    (¬ (R = .rv64 ∧ ptm = .sv32) →
      Refines op va (specWalk R ptm va s.mem (ptm.levels - 1) (specRoot R proc.csrs.sptbr.toNat))
        (walkPageTable (mmuSoft R) R ptm proc op va s) →
      WalkOk R ptm va s.mem proc.csrs.sptbr.toNat) := by
  have hlevel := levels_pred_lt ptm
  obtain ⟨hlt, hal⟩ := rootTable_spec R proc.csrs.sptbr.toNat
  rw [refines_walkPageTable_iff]
  refine ⟨?_, fun hsv' href => ?_⟩
  · rintro ⟨hsv, ⟨hroot, hgood⟩ | ⟨hsv', hdead⟩⟩
    · rw [← hroot]
      exact goodLinks_refines hsv hlevel hlt hal hgood
    · rw [(findFrom_fault_iff hsv hlevel).2 hdead]
      show specWalk .. = none
      by_cases hroot : rootTable R proc.csrs.sptbr.toNat = specRoot R proc.csrs.sptbr.toNat
      · rw [← hroot]
        exact specWalk_of_deadEnd hsv' hlt hal hdead
      · exact specWalk_off (off_of_rootTable_ne hroot)
  · -- an undefined walk meets nothing
    have hsv : ¬ (R = .rv32 ∧ ptm = .sv48) := by
      rintro ⟨rfl, rfl⟩
      rw [show Ptm.sv48.levels - 1 = 3 from rfl, findFrom_rv32_sv48] at href
      exact href
    refine ⟨hsv, ?_⟩
    by_cases hroot : rootTable R proc.csrs.sptbr.toNat = specRoot R proc.csrs.sptbr.toNat
    · rw [← hroot] at href
      exact (goodLinks_of_refines hsv hsv' hlevel hlt hal href).imp (fun hg => ⟨hroot, hg⟩) fun hd => ⟨hsv', hd⟩
    · rw [specWalk_off (off_of_rootTable_ne hroot)] at href
      exact .inr ⟨hsv', (findFrom_fault_iff hsv hlevel).1 (fault_of_refinesEnd_none href)⟩

/-- A root table at the start of RAM, whose first entry points to the page after it with V clear. There the
first entry maps two megabytes. -/
def clearedPointerRam : UserMemory :=
  (UserMemory.mk [⟨defaultRamBase, defaultRamSize⟩] fun _ _ => 0)
    |>.write 8 (0x80001 <<< 10) 0 0
    |>.write 8 (0x80000 <<< 10 ||| 0xcf) 0 0x1000

/-- Supervisor mode with sv39 and the root table at `ppn`. -/
def supervisor (ppn : BitVec 64) : Processor 64 :=
  { (default : Processor 64) with
    mode := .S, csrs := { (default : Csrs 64) with mstatus := 9 <<< 24, sptbr := ppn } }

theorem not_refines_cleared_pointer :
    ¬ Refines .load 0 (specWalk .rv64 .sv39 0 clearedPointerRam 2 (specRoot .rv64 0x80000))
      (walkPageTable (mmuSoft .rv64) .rv64 .sv39 (supervisor 0x80000) .load 0
        ⟨Tlb.empty .rv64, Tlb.empty .rv64, clearedPointerRam⟩) := by
  intro h
  have href := (refines_walkPageTable_iff ..).1 h
  have hspec : specWalk .rv64 .sv39 0 clearedPointerRam 2 (specRoot .rv64 0x80000) = none := by decide +kernel
  have hfind : findFrom .rv64 .sv39 0 clearedPointerRam 2 (rootTable .rv64 0x80000) =
      .leaf 0x80001000 (0x80000 <<< 10 ||| 0xcf) 1 := by decide +kernel
  rw [hspec] at href
  exact absurd ((fault_of_refinesEnd_none href).symm.trans hfind) (by simp)

end Call

end Rv8.Emu
