import Rv8.Emu.Walk
/-!
# The turns of the page walk

The loop of `walk_page_table` counts an unsigned `level` down and goes on while it is
at least 0, so it never ends by its condition. What ends it is an entry that is no
pointer. Here the loop is a sequence of turns, each of which reads one entry, whatever
the memory behind the walk is. It stays within the levels of the paging mode unless the
entries it comes to are pointers down to level 0.
-/

namespace Rv8.Emu

open Rv8.Lib

/-! ## Turns -/

/-- The variables of the loop at the start of a turn. -/
structure WalkVars (σ : Type) where
  (level ppn : Nat)
  mem : σ

section Turns
variable {σ : Type} (port : Port σ) (R : Rv) (ptm : Ptm) (va : Nat)

/-- `shift = PTM::bits * level + page_shift` -/
def walkShift (level : Nat) : Nat := (ptm.bits * level + pageShift) % 2 ^ R.xlen

/-- The shift of the superpage check, `shift - page_shift`. -/
def superpageShift (level : Nat) : Nat := (walkShift R ptm level + 2 ^ R.xlen - pageShift) % 2 ^ R.xlen

/-- `level--` -/
def levelPred (level : Nat) : Nat := (level + 2 ^ R.xlen - 1) % 2 ^ R.xlen

/-- The variables of the next turn, where a turn goes on: the entry it reads is a pointer. -/
def WalkVars.next (w : WalkVars σ) : Option (WalkVars σ) :=
  if R.xlen ≤ walkShift R ptm w.level then none
  else
    match port.load ptm.pteSize (pteMpa R ptm va (walkShift R ptm w.level) w.ppn) w.mem with
    | .ok pte mem => if IsPointer pte then some ⟨levelPred R w.level, ptm.table pte R, mem⟩ else none
    | .error _ _ => none
    | .undefined => none

/-- The variables of turn `n`, where the loop gets there. -/
def WalkVars.turn (w : WalkVars σ) : Nat → Option (WalkVars σ)
  | 0 => some w
  | n + 1 => (w.next port R ptm va).bind fun w' => w'.turn n

/-- The loop is entered with the top level and the root table. -/
def walkStart (sptbr : Nat) (mem : σ) : WalkVars σ := ⟨ptm.levels - 1, rootTable R sptbr, mem⟩

/-- The loop from any turn on. -/
def walkAt (op : MmuOp) (w : WalkVars σ) : Outcome Unit σ Leaf :=
  if w.level = 2 ^ R.xlen - 2 then walkTurn port R ptm op va (fun _ => .undefined) (2 ^ R.xlen - 2) w.ppn w.mem
  else if w.level = 2 ^ R.xlen - 1 then walkWrapped port R ptm op va w.ppn w.mem
  else walkFrom port R ptm op va w.level w.ppn w.mem

/-- The loop reads at most as many entries as there are levels, and no shift amount reaches the width of what is
shifted. Where the flags of an entry are brought up to date, that is the entry just read. -/
def WalkBounded (w : WalkVars σ) : Prop :=
  ∀ n v, w.turn port R ptm va n = some v →
    n < ptm.levels ∧ walkShift R ptm v.level < R.xlen ∧ superpageShift R ptm v.level < 31

/-- The entries that lead down from a table are pointers at every level, at level 0 too. -/
def PointerPath : Nat → Nat → σ → Prop
  | 0, table, mem =>
    ∃ pte mem', port.load ptm.pteSize (entryMpa R ptm va 0 table) mem = .ok pte mem' ∧ IsPointer pte
  | level + 1, table, mem =>
    ∃ pte mem', port.load ptm.pteSize (entryMpa R ptm va (level + 1) table) mem = .ok pte mem' ∧ IsPointer pte ∧
      PointerPath level (ptm.table pte R) mem'

end Turns

section Loop
variable {σ : Type} {port : Port σ} {R : Rv} {ptm : Ptm} {va : Nat}

/-- What a turn that goes on has read. -/
theorem WalkVars.next_eq_some_iff {w w' : WalkVars σ} :
    w.next port R ptm va = some w' ↔ walkShift R ptm w.level < R.xlen ∧
      ∃ pte mem, port.load ptm.pteSize (pteMpa R ptm va (walkShift R ptm w.level) w.ppn) w.mem = .ok pte mem ∧
        IsPointer pte ∧ w' = ⟨levelPred R w.level, ptm.table pte R, mem⟩ := by
  unfold next
  split
  · rename_i hs
    exact ⟨nofun, fun h => absurd h.1 (Nat.not_lt.2 hs)⟩
  rename_i hs
  rw [not_le] at hs
  cases port.load ptm.pteSize (pteMpa R ptm va (walkShift R ptm w.level) w.ppn) w.mem with
  | ok pte mem =>
    by_cases hp : IsPointer pte
    · simp [hs, hp, eq_comm]
    · simp [hp]
  | error e mem => simp
  | undefined => simp

/-! ## The loop goes through the turns -/

theorem levelPred_succ {level : Nat} (h : level + 1 < 2 ^ R.xlen) : levelPred R (level + 1) = level := by
  unfold levelPred
  rw [Nat.add_right_comm, Nat.add_sub_cancel, Nat.add_mod_right]
  exact Nat.mod_eq_of_lt (by omega)

theorem levelPred_zero (R : Rv) : levelPred R 0 = 2 ^ R.xlen - 1 := by
  cases R <;> rfl

theorem walkTurn_of_next {op : MmuOp} {w w' : WalkVars σ} (h : w.next port R ptm va = some w') (next : Nat → Prog Unit σ Leaf) :
    walkTurn port R ptm op va next w.level w.ppn w.mem = next w'.ppn w'.mem := by
  obtain ⟨hs, pte, mem, hload, hp, rfl⟩ := WalkVars.next_eq_some_iff.1 h
  unfold walkShift at hs hload
  unfold walkTurn
  dsimp only
  rw [if_neg (Nat.not_le.2 hs)]
  refine (Prog.bind_ok hload).trans ?_
  rw [if_pos hp]

/-- A turn that does not go on ends the loop, whatever would follow. -/
theorem walkTurn_of_last {op : MmuOp} {w : WalkVars σ} (h : w.next port R ptm va = none) (next next' : Nat → Prog Unit σ Leaf) :
    walkTurn port R ptm op va next w.level w.ppn w.mem = walkTurn port R ptm op va next' w.level w.ppn w.mem := by
  unfold WalkVars.next walkShift at h
  unfold walkTurn
  dsimp only
  split
  · rfl
  rename_i hs
  rw [if_neg hs] at h
  cases hload : port.load ptm.pteSize (pteMpa R ptm va ((ptm.bits * w.level + pageShift) % 2 ^ R.xlen) w.ppn) w.mem with
  | error e mem => exact (Prog.bind_error hload).trans (Prog.bind_error hload).symm
  | undefined => exact (Prog.bind_undefined hload).trans (Prog.bind_undefined hload).symm
  | ok pte mem =>
    refine (Prog.bind_ok hload).trans (Eq.trans ?_ (Prog.bind_ok hload).symm)
    rw [hload] at h
    have hp : ¬ IsPointer pte := fun hp => nomatch (if_pos hp).symm.trans h
    rw [if_neg hp, if_neg hp]
    by_cases hi : IsInvalid pte
    · rw [if_pos hi, if_pos hi]
    · rw [if_neg hi, if_neg hi, if_pos (readable_or_executable hp hi), if_pos (readable_or_executable hp hi)]

theorem walkAt_level {op : MmuOp} {level : Nat} (h : level < 2 ^ R.xlen - 2) (ppn : Nat) (mem : σ) :
    walkAt port R ptm va op ⟨level, ppn, mem⟩ = walkFrom port R ptm op va level ppn mem := by
  unfold walkAt
  dsimp only
  rw [if_neg (by omega), if_neg (by omega)]

theorem walkAt_wrapped {op : MmuOp} (ppn : Nat) (mem : σ) :
    walkAt port R ptm va op ⟨2 ^ R.xlen - 1, ppn, mem⟩ = walkWrapped port R ptm op va ppn mem := by
  have hx := two_pow_xlen_le R
  unfold walkAt
  dsimp only
  rw [if_neg (by omega), if_pos rfl]

/-- The levels of the loop: those of the mode, and the first one after level 0. -/
def WalkVars.InLoop (R : Rv) (ptm : Ptm) (w : WalkVars σ) : Prop := w.level < ptm.levels ∨ w.level = 2 ^ R.xlen - 1

theorem levels_lt (R : Rv) (ptm : Ptm) : ptm.levels < 2 ^ R.xlen - 2 := by
  cases R <;> cases ptm <;> decide

/-- Where a turn goes on, the loop goes on with the variables of the next. -/
theorem walkAt_next {op : MmuOp} {w w' : WalkVars σ} (hin : w.InLoop R ptm) (h : w.next port R ptm va = some w') :
    walkAt port R ptm va op w = walkAt port R ptm va op w' := by
  have hx := two_pow_xlen_le R
  have hl := levels_lt R ptm
  have hlevel : w'.level = levelPred R w.level := by
    obtain ⟨-, pte, mem, -, -, rfl⟩ := WalkVars.next_eq_some_iff.1 h
    rfl
  obtain ⟨level, ppn, mem⟩ := w
  obtain ⟨level', ppn', mem'⟩ := w'
  dsimp only at hlevel
  rcases hin with hlt | hwrap
  · dsimp only at hlt
    rw [walkAt_level (by omega)]
    cases level with
    | zero =>
      rw [levelPred_zero] at hlevel
      rw [hlevel, walkAt_wrapped]
      exact walkTurn_of_next h _
    | succ level =>
      rw [levelPred_succ (by omega)] at hlevel
      rw [hlevel, walkAt_level (by omega)]
      exact walkTurn_of_next h _
  · dsimp only at hwrap
    subst hwrap
    have hpred : levelPred R (2 ^ R.xlen - 1) = 2 ^ R.xlen - 2 := by
      cases R <;> rfl
    rw [hpred] at hlevel
    rw [walkAt_wrapped, walkAt, if_pos hlevel]
    exact walkTurn_of_next h _

/-- Where a turn does not go on, the loop ends in it. -/
theorem walkAt_last {op : MmuOp} {w : WalkVars σ} (hin : w.InLoop R ptm) (h : w.next port R ptm va = none)
    (next : Nat → Prog Unit σ Leaf) : walkAt port R ptm va op w = walkTurn port R ptm op va next w.level w.ppn w.mem := by
  have hl := levels_lt R ptm
  obtain ⟨level, ppn, mem⟩ := w
  rcases hin with hlt | hwrap
  · dsimp only at hlt
    rw [walkAt_level (by omega)]
    cases level with
    | zero => exact walkTurn_of_last h _ _
    | succ level => exact walkTurn_of_last h _ _
  · dsimp only at hwrap
    subst hwrap
    rw [walkAt_wrapped]
    exact walkTurn_of_last h _ _

/-- A call of `walk_page_table` is the loop from its first turn on. -/
theorem walkPageTable_eq (proc : Processor R.xlen) (op : MmuOp) :
    walkPageTable port R ptm proc op va =
      Mmu.onMem (fun mem => walkAt port R ptm va op (walkStart R ptm proc.csrs.sptbr.toNat mem)) (.raise (faultCause op) va) := by
  have hl := levels_lt R ptm
  have hat : (fun mem => walkAt port R ptm va op (walkStart R ptm proc.csrs.sptbr.toNat mem)) =
      walkFrom port R ptm op va (ptm.levels - 1) (rootTable R proc.csrs.sptbr.toNat) :=
    funext fun mem => walkAt_level (by omega) _ mem
  rw [hat]
  rfl

/-! ## When the loop is bounded -/

variable {level table : Nat} {mem : σ}

theorem pointerPath_of_turn (hlevel : level < ptm.levels) {n : Nat} {v : WalkVars σ}
    (h : (⟨level, table, mem⟩ : WalkVars σ).turn port R ptm va n = some v) :
    (n ≤ level ∧ v.level = level - n) ∨ PointerPath port R ptm va level table mem := by
  have hl := levels_lt R ptm
  induction level generalizing n table mem with
  | zero =>
    cases n with
    | zero => exact .inl ⟨Nat.le_refl _, (congrArg WalkVars.level (Option.some.inj h)).symm⟩
    | succ n =>
      obtain ⟨w', hnext, -⟩ := Option.bind_eq_some_iff.1 h
      obtain ⟨-, pte, mem', hload, hp, -⟩ := WalkVars.next_eq_some_iff.1 hnext
      rw [walkShift, shift_mod hlevel] at hload
      exact .inr ⟨pte, mem', hload, hp⟩
  | succ level ih =>
    cases n with
    | zero => exact .inl ⟨Nat.zero_le _, (congrArg WalkVars.level (Option.some.inj h)).symm⟩
    | succ n =>
      obtain ⟨w', hnext, hrest⟩ := Option.bind_eq_some_iff.1 h
      obtain ⟨-, pte, mem', hload, hp, rfl⟩ := WalkVars.next_eq_some_iff.1 hnext
      rw [walkShift, shift_mod hlevel] at hload
      rw [levelPred_succ (by omega)] at hrest
      rcases ih (by omega) hrest with ⟨hn, hv⟩ | hpath
      · exact .inl ⟨by omega, by omega⟩
      · exact .inr ⟨pte, mem', hload, hp, hpath⟩

theorem exists_turn_of_pointerPath (hsv : ¬ (R = .rv32 ∧ ptm = .sv48)) (hlevel : level < ptm.levels)
    (h : PointerPath port R ptm va level table mem) :
    ∃ v, (⟨level, table, mem⟩ : WalkVars σ).turn port R ptm va (level + 1) = some v := by
  have hl := levels_lt R ptm
  have hs : walkShift R ptm level = ptm.bits * level + pageShift := shift_mod hlevel
  have hlt : walkShift R ptm level < R.xlen := hs ▸ shift_lt hsv hlevel
  induction level generalizing table mem with
  | zero =>
    obtain ⟨pte, mem', hload, hp⟩ := h
    refine ⟨_, Option.bind_eq_some_iff.2 ⟨_, WalkVars.next_eq_some_iff.2 ⟨hlt, pte, mem', ?_, hp, rfl⟩, rfl⟩⟩
    rw [hs]
    exact hload
  | succ level ih =>
    obtain ⟨pte, mem', hload, hp, hpath⟩ := h
    have hlevel' : level < ptm.levels := by omega
    have hs' : walkShift R ptm level = ptm.bits * level + pageShift := shift_mod hlevel'
    obtain ⟨v, hv⟩ := ih hlevel' hpath hs' (hs' ▸ shift_lt hsv hlevel')
    have hload' : port.load ptm.pteSize (pteMpa R ptm va (walkShift R ptm (level + 1)) table) mem = .ok pte mem' := by
      rw [hs]
      exact hload
    refine ⟨v, Option.bind_eq_some_iff.2 ⟨_, WalkVars.next_eq_some_iff.2 ⟨hlt, pte, mem', hload', hp, rfl⟩, ?_⟩⟩
    dsimp only
    rw [levelPred_succ (by omega)]
    exact hv

theorem shifts_ok (hsv : ¬ (R = .rv32 ∧ ptm = .sv48)) (hlevel : level < ptm.levels) :
    walkShift R ptm level < R.xlen ∧ superpageShift R ptm level < 31 := by
  have hb := bits_mul_le hlevel
  have hx := two_pow_xlen_le R
  have hs : walkShift R ptm level = ptm.bits * level + pageShift := shift_mod hlevel
  refine ⟨hs ▸ shift_lt hsv hlevel, ?_⟩
  unfold superpageShift
  rw [hs, Nat.add_right_comm, Nat.add_sub_cancel, Nat.add_mod_right, Nat.mod_eq_of_lt (by omega)]
  omega

theorem walkBounded_iff (port : Port σ) (R : Rv) (ptm : Ptm) (va sptbr : Nat) (mem : σ) :
    WalkBounded port R ptm va (walkStart R ptm sptbr mem) ↔
      ¬ (R = .rv32 ∧ ptm = .sv48) ∧ ¬ PointerPath port R ptm va (ptm.levels - 1) (rootTable R sptbr) mem := by
  have hpos : 0 < ptm.levels := by cases ptm <;> decide
  constructor
  · intro h
    have hsv : ¬ (R = .rv32 ∧ ptm = .sv48) := by
      rintro ⟨rfl, rfl⟩
      -- the shift of the top level is 39
      have htop : ¬ walkShift .rv32 .sv48 3 < Rv.rv32.xlen := by decide
      exact htop (h 0 _ rfl).2.1
    refine ⟨hsv, fun hpath => ?_⟩
    obtain ⟨v, hv⟩ := exists_turn_of_pointerPath hsv (by omega) hpath
    have hn := (h _ v hv).1
    omega
  · rintro ⟨hsv, hpath⟩ n v hv
    rcases pointerPath_of_turn (by omega) hv with ⟨hn, hlevel⟩ | hpath'
    · exact ⟨by omega, shifts_ok hsv (by omega)⟩
    · exact absurd hpath' hpath

/-- The walks of both MMUs are bounded, exactly if sv48 is not used on RV32 and the tables have no pointer at level 0
on the path of the address. -/
theorem walk_page_table_bounded_iff (R : Rv) (ptm : Ptm) (va sptbr : Nat) :
    (∀ m, WalkBounded (mmuSoft R) R ptm va (walkStart R ptm sptbr m) ↔
      ¬ (R = .rv32 ∧ ptm = .sv48) ∧ ¬ PointerPath (mmuSoft R) R ptm va (ptm.levels - 1) (rootTable R sptbr) m) ∧
    (∀ P c, WalkBounded (mmuSoftCache R P) R ptm va (walkStart R ptm sptbr c) ↔
      ¬ (R = .rv32 ∧ ptm = .sv48) ∧ ¬ PointerPath (mmuSoftCache R P) R ptm va (ptm.levels - 1) (rootTable R sptbr) c) :=
  ⟨fun m => walkBounded_iff (mmuSoft R) R ptm va sptbr m, fun P c => walkBounded_iff (mmuSoftCache R P) R ptm va sptbr c⟩

end Loop

/-- A table at the start of RAM whose first entry is a pointer to the table itself. -/
def cyclicTable : UserMemory :=
  (UserMemory.mk [⟨defaultRamBase, defaultRamSize⟩] fun _ _ => 0).write 8 (0x80000 <<< 10 ||| 1) 0 0

theorem not_walk_page_table_bounded_cyclic :
    ¬ WalkBounded (mmuSoft .rv64) .rv64 .sv39 0 (walkStart .rv64 .sv39 0x80000 cyclicTable) := by
  have hload : cyclicTable.load 8 0x80000000 = some 0x20000001 := by decide
  have hread (level : Nat) : (mmuSoft .rv64).load 8 (entryMpa .rv64 .sv39 0 level 0x80000000) cyclicTable =
      .ok 0x20000001 cyclicTable := by
    have hmpa : entryMpa .rv64 .sv39 0 level 0x80000000 = 0x80000000 := by
      simp [entryMpa, pteMpa, Rv.xlen]
    rw [hmpa]
    exact busLoad_some hload
  have hp : IsPointer 0x20000001 := by decide
  intro h
  exact ((walkBounded_iff ..).1 h).2 ⟨_, _, hread 2, hp, _, _, hread 1, hp, _, _, hread 0, hp⟩

end Rv8.Emu
