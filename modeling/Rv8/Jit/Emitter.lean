import Rv8.Jit.Fusion
import Rv8.Lib.X86
/-!
# Registers of the emitter

`jit_emitter_rv64` of `jit-emitter-rv64.h` keeps twelve guest registers in registers of
the host and the others where the processor has them, at an offset from `rbp`. Code that
is emitted for one instruction is executed from a state of the host; what it does to the
guest is read through this map.

The source has a case for each place an operand can be. Where two cases emit the same
instruction, here it is emitted once, for `loc` of the operand.
-/

namespace Rv8.Jit

open Rv8.Asm Rv8.Lib.X86

/-- The members of the processor that emitted code accesses. -/
inductive Slot
  | ireg (r : Nat)
  | pc
deriving DecidableEq

/-- Labels inside of the code for one instruction and the places it leaves for. -/
inductive Label
  | div1 | div2 | umul | out
  /-- Another instruction of the trace. -/
  | inst (pc : BitVec 64)
  /-- The entry of another trace. -/
  | trace (pc : BitVec 64)
  | jmpTramp (pc : BitVec 64)
  | exitTramp (pc : BitVec 64)
  | lookupTraceFast
deriving DecidableEq

abbrev Code := List (Ins Slot Label)

/-- A state of the host while a trace is executed. -/
abbrev HostState := State Slot

/-! ## The register map -/

def x86Reg : Nat → Int
  | 0 => 0
  | 1 => 2
  | 2 => 3
  | 5 => 6
  | 6 => 7
  | 10 => 8
  | 11 => 9
  | 12 => 10
  | 13 => 11
  | 14 => 12
  | 15 => 13
  | 16 => 14
  | 17 => 15
  | _ => -1

def gpr (x : Int) : Reg := ⟨x.toNat % 16, Nat.mod_lt _ (by decide)⟩

/-- `x86::gpq` and `x86::gpd`; the instruction has the size. -/
def gp (x : Int) : Operand Slot := .reg (gpr x)

/-- `rbp_reg_q` and `rbp_reg_d` -/
def rbpReg (r : Nat) : Operand Slot := .mem (.ireg r)

/-- The host register of a guest register if there is one, else its slot. -/
def loc (r : Nat) : Operand Slot := if 0 < x86Reg r then gp (x86Reg r) else rbpReg r

/-- The guest register file. -/
def guest (s : HostState) (r : Nat) : BitVec 64 := s.q (loc r)

abbrev ax : Operand Slot := .reg rax
abbrev cx : Operand Slot := .reg rcx
abbrev dx : Operand Slot := .reg rdx

/-- The guest register that a register of the host is for. -/
def rvReg (h : Reg) : Nat :=
  match h.val with
  | 2 => 1
  | 3 => 2
  | 6 => 5
  | 7 => 6
  | 0 | 1 | 4 | 5 => 32
  | n => n + 2

theorem rvReg_x86Reg {r : Nat} (h : 0 < x86Reg r) : rvReg (gpr (x86Reg r)) = r := by
  unfold gpr x86Reg at *
  split at h <;> first | rfl | omega

theorem loc_eq_iff {r r' : Nat} : loc r = loc r' ↔ r = r' := by
  refine ⟨?_, fun h => h ▸ rfl⟩
  intro h
  unfold loc gp rbpReg at h
  split at h
  · next hr =>
    split at h
    · next hr' =>
      rw [← rvReg_x86Reg hr, ← rvReg_x86Reg hr', Operand.reg.inj h]
    · cases h
  · split at h
    · cases h
    · simpa using h

theorem loc_loc (r : Nat) : (loc r).Loc := by
  unfold loc
  split <;> trivial

/-- `rax` and `rcx` are for no guest register. -/
theorem loc_ne_scratch (r : Nat) : loc r ≠ ax ∧ loc r ≠ cx := by
  unfold loc
  split
  · next hr =>
    have hrv := rvReg_x86Reg hr
    unfold gp
    constructor
    · intro h
      rw [Operand.reg.inj h] at hrv
      subst hrv
      exact absurd hr (by decide)
    · intro h
      rw [Operand.reg.inj h] at hrv
      subst hrv
      exact absurd hr (by decide)
  · exact ⟨by simp [rbpReg], by simp [rbpReg]⟩

@[simp] theorem loc_ne_ax (r : Nat) : loc r ≠ ax := (loc_ne_scratch r).1

@[simp] theorem loc_ne_cx (r : Nat) : loc r ≠ cx := (loc_ne_scratch r).2

theorem loc_ra : loc rvIregRa = dx := rfl

/-! ## Moves -/

section Moves
variable (d : JitDecode)

def emitSx32Rd : Code :=
  let rdx := x86Reg d.rd
  if 0 < rdx then [.movsxd (gpr rdx) (gp rdx)] else [.movsxd rcx (rbpReg d.rd), .mov .q (rbpReg d.rd) cx]

def emitZeroRd : Code :=
  let rdx := x86Reg d.rd
  if 0 < rdx then [.alu .xor .d (gp rdx) (gp rdx)] else [.mov .q (rbpReg d.rd) (.imm 0)]

def emitMvRaxRs1 : Code := [.mov .q ax (loc d.rs1)]

/-- `mov eax, rs1`, as it is written out in the emitters of W instructions. -/
def emitMvEaxRs1 : Code := [.mov .d ax (loc d.rs1)]

/-- The moves between guest registers, through `rax` from slot to slot. -/
def emitMv (sz : Size) (rd rs : Nat) : Code :=
  if rd = rs then []
  else if 0 < x86Reg rd ∨ 0 < x86Reg rs then [.mov sz (loc rd) (loc rs)]
  else [.mov sz ax (rbpReg rs), .mov sz (rbpReg rd) ax]

def emitMvRdRs1 : Code := emitMv .q d.rd d.rs1

def emitMvRdRs132 : Code := emitMv .d d.rd d.rs1

def emitMvRdRs2 : Code := emitMv .q d.rd d.rs2

def emitMvRdRs1Sx32 : Code :=
  let rdx := x86Reg d.rd
  if 0 < rdx then [.movsxd (gpr rdx) (loc d.rs1)]
  else [.movsxd rax (loc d.rs1), .mov .q (rbpReg d.rd) ax]

/-- From a slot to a register this is `mov` and not `movsxd`. -/
def emitMvRdRs2Sx32 : Code :=
  let rdx := x86Reg d.rd
  let rs2x := x86Reg d.rs2
  if 0 < rdx then
    if 0 < rs2x then [.movsxd (gpr rdx) (gp rs2x)] else [.mov .q (gp rdx) (rbpReg d.rs2)]
  else [.movsxd rax (loc d.rs2), .mov .q (rbpReg d.rd) ax]

def emitMvClRs2 : Code := [.mov .d cx (loc d.rs2)]

end Moves

/-! ## What code does to the guest -/

/-- Guest register `rd` becomes `v` and the others stay. -/
def Sets (rd : Nat) (v : BitVec 64) (s s' : HostState) : Prop := ∀ r, guest s' r = if r = rd then v else guest s r

/-- The low half of guest register `rd` becomes `v` and the others stay. -/
def SetsLow (rd : Nat) (v : BitVec 32) (s s' : HostState) : Prop :=
  (guest s' rd).setWidth 32 = v ∧ ∀ r, r ≠ rd → guest s' r = guest s r

/-- The code ends in a state of which `P` holds. -/
def Ends (code : Code) (s : HostState) (P : HostState → Prop) : Prop := ∃ s', exec code none s = .done s' ∧ P s'

abbrev Computes (code : Code) (s : HostState) (rd : Nat) (v : BitVec 64) : Prop := Ends code s (Sets rd v s)

section Rules
variable {code code' : Code} {s : HostState} {P Q : HostState → Prop} {rd : Nat}

@[simp] theorem ends_nil : Ends [] s P ↔ P s := by
  simp [Ends]

theorem Ends.append (h : Ends code s P) (h' : ∀ s', P s' → Ends code' s' Q) : Ends (code ++ code') s Q := by
  obtain ⟨s1, he1, hp⟩ := h
  obtain ⟨s2, he2, hq⟩ := h' s1 hp
  exact ⟨s2, (exec_append_of_done _ _ _ he1).trans he2, hq⟩

theorem Ends.mono (h : Ends code s P) (h' : ∀ s', P s' → Q s') : Ends code s Q := by
  obtain ⟨s1, he1, hp⟩ := h
  exact ⟨s1, he1, h' s1 hp⟩

/-- The first instruction is executed. -/
theorem ends_cons {i : Ins Slot Label} (h : i.straight = true) {s1 : HostState} (hs : i.step s = some s1) :
    Ends (i :: code) s P ↔ Ends code s1 P := by
  unfold Ends
  rw [exec_straight _ _ h, hs]
  rfl

theorem Sets.guest_rd {v : BitVec 64} {s' : HostState} (h : Sets rd v s s') : guest s' rd = v := by
  rw [h rd, if_pos rfl]

theorem Sets.guest_ne {v : BitVec 64} {s' : HostState} (h : Sets rd v s s') {r : Nat} (hr : r ≠ rd) : guest s' r = guest s r := by
  rw [h r, if_neg hr]

/-- Writing a register twice leaves the second value. -/
theorem Sets.trans {v w : BitVec 64} {s' s'' : HostState} (h : Sets rd v s s') (h' : Sets rd w s' s'') : Sets rd w s s'' := by
  intro r
  rw [h' r, h r]
  split <;> rfl

theorem SetsLow.trans {v : BitVec 32} {w : BitVec 64} {s' s'' : HostState} (h : SetsLow rd v s s') (h' : Sets rd w s' s'') :
    Sets rd w s s'' := by
  intro r
  rw [h' r]
  split
  · rfl
  · next hr => exact h.2 r hr

theorem SetsLow.trans_low {v w : BitVec 32} {s' s'' : HostState} (h : SetsLow rd v s s') (h' : SetsLow rd w s' s'') :
    SetsLow rd w s s'' :=
  ⟨h'.1, fun r hr => (h'.2 r hr).trans (h.2 r hr)⟩

theorem Sets.low {v : BitVec 64} {s' : HostState} (h : Sets rd v s s') : SetsLow rd (v.setWidth 32) s s' :=
  ⟨by rw [h.guest_rd], fun _ hr => h.guest_ne hr⟩

end Rules

section Writes
variable (s : HostState) (rd r : Nat)

theorem sets_putQ (v : BitVec 64) : Sets rd v s (s.putQ v (loc rd)) := by
  intro r
  unfold guest
  rw [State.q_putQ _ (loc_loc rd)]
  simp only [loc_eq_iff]

theorem setsLow_putD (v : BitVec 32) : SetsLow rd v s (s.putD v (loc rd)) := by
  refine ⟨State.setWidth_q_putD _ (loc_loc rd) v, ?_⟩
  intro r hr
  exact State.q_putD_of_ne _ (fun h => hr (loc_eq_iff.mp h)) v

@[simp] theorem guest_putQ_ax (v : BitVec 64) : guest (s.putQ v ax) r = guest s r := by
  unfold guest
  rw [State.q_putQ _ (loc_reg _), if_neg (loc_ne_scratch r).1]

@[simp] theorem guest_putQ_cx (v : BitVec 64) : guest (s.putQ v cx) r = guest s r := by
  unfold guest
  rw [State.q_putQ _ (loc_reg _), if_neg (loc_ne_scratch r).2]

@[simp] theorem guest_putD_ax (v : BitVec 32) : guest (s.putD v ax) r = guest s r :=
  State.q_putD_of_ne _ (loc_ne_scratch r).1 v

@[simp] theorem guest_putD_cx (v : BitVec 32) : guest (s.putD v cx) r = guest s r :=
  State.q_putD_of_ne _ (loc_ne_scratch r).2 v

@[simp] theorem guest_clobberFlags : guest s.clobberFlags r = guest s r := State.q_clobberFlags s

@[simp] theorem guest_setFlags (f : Flags) : guest (s.setFlags f) r = guest s r := State.q_setFlags s f

@[simp] theorem guest_putByte_rax (v : BitVec 8) : guest (s.putByte v rax) r = guest s r :=
  State.q_putByte_of_ne s rax (loc_ne_ax r) v

@[simp] theorem q_loc : s.q (loc r) = guest s r := rfl

@[simp] theorem d_loc : s.d (loc r) = (guest s r).setWidth 32 := State.d_eq _ (loc_loc r)

end Writes

section Places
variable {r : Nat}

theorem loc_of_pos (h : 0 < x86Reg r) : loc r = gp (x86Reg r) := if_pos h

theorem loc_of_not_pos (h : ¬ 0 < x86Reg r) : loc r = rbpReg r := if_neg h

/-- Only `x0` has neither a register nor a negative number. -/
theorem x86Reg_cases (r : Nat) : 0 < x86Reg r ∨ x86Reg r < 0 ∨ r = 0 := by
  unfold x86Reg
  split <;> omega

theorem x86Reg_neg (h : ¬ 0 < x86Reg r) (h0 : r ≠ 0) : x86Reg r < 0 := by
  rcases x86Reg_cases r with hr | hr | hr
  · exact absurd hr h
  · exact hr
  · exact absurd hr h0

end Places

section MoveSpecs
variable {d : JitDecode} {s : HostState}

/-- What was computed in `rax` is put into the slot of `rd`. -/
theorem sets_slot {rd : Nat} {v : BitVec 64} {s1 : HostState} (hrd : ¬ 0 < x86Reg rd) (hax : s1.q ax = v)
    (hs : ∀ r, guest s1 r = guest s r) : Ends [.mov .q (rbpReg rd) ax] s1 (Sets rd v s) := by
  rw [ends_cons rfl rfl, ends_nil, hax, ← loc_of_not_pos hrd]
  intro r
  rw [sets_putQ s1 rd v r, hs r]

theorem computes_mv (rd rs : Nat) : Computes (emitMv .q rd rs) s rd (guest s rs) := by
  unfold emitMv
  split
  · next h =>
    rw [Computes, ends_nil]
    intro r
    split
    · next hr => rw [hr, h]
    · rfl
  · split
    · rw [Computes, ends_cons rfl rfl, ends_nil]
      exact sets_putQ s rd _
    · next h =>
      rw [not_or] at h
      rw [Computes, ends_cons rfl rfl, ← loc_of_not_pos h.2]
      exact sets_slot h.1 (by simp) (by simp)

theorem ends_mv_low {rd rs : Nat} (hrd : rd ≠ rs) :
    Ends (emitMv .d rd rs) s (SetsLow rd ((guest s rs).setWidth 32) s) := by
  unfold emitMv
  rw [if_neg hrd]
  split
  · rw [ends_cons rfl rfl, ends_nil, d_loc]
    exact setsLow_putD s rd _
  · next h =>
    rw [not_or] at h
    rw [ends_cons rfl rfl, ends_cons rfl rfl, ends_nil, ← loc_of_not_pos h.1, ← loc_of_not_pos h.2]
    have hlow := setsLow_putD (s.putD (s.d (loc rs)) ax) rd ((s.putD (s.d (loc rs)) ax).d ax)
    rw [State.d_eq _ (loc_reg _), State.setWidth_q_putD _ (loc_reg _)] at hlow ⊢
    refine ⟨?_, ?_⟩
    · rw [hlow.1, d_loc]
    · intro r hr
      rw [hlow.2 r hr, guest_putD_ax]

theorem reg_gpr {r : Nat} (h : 0 < x86Reg r) : Operand.reg (gpr (x86Reg r)) = loc r := (loc_of_pos h).symm

/-- A doubleword in a host register clears the high half of the guest register. -/
theorem sets_putD {rd : Nat} (h : 0 < x86Reg rd) (v : BitVec 32) : Sets rd (v.setWidth 64) s (s.putD v (loc rd)) := by
  intro r
  by_cases hr : r = rd
  · rw [if_pos hr, hr, loc_of_pos h]
    unfold guest
    rw [loc_of_pos h]
    exact State.q_putD_reg s _ v
  · rw [if_neg hr]
    exact (setsLow_putD s rd v).2 r hr

/-- The sign extension of the low half of `rd`. -/
theorem computes_sx32 : Computes (emitSx32Rd d) s d.rd (((guest s d.rd).setWidth 32).signExtend 64) := by
  unfold emitSx32Rd
  dsimp only
  split
  · next h =>
    rw [Computes, ends_cons rfl rfl, ends_nil, ← loc_of_pos h, d_loc]
    rw [reg_gpr h]
    exact sets_putQ s d.rd _
  · next h =>
    rw [Computes, ends_cons rfl rfl, ends_cons rfl rfl, ends_nil, ← loc_of_not_pos h, d_loc]
    intro r
    rw [sets_putQ _ _ _ r, State.q_putQ _ (loc_reg _), if_pos rfl, guest_putQ_cx]

/-- Code that leaves the low half of a result in `rd` is followed by its sign extension. -/
theorem Ends.sx32 {code : Code} {v : BitVec 32} (h : Ends code s (SetsLow d.rd v s)) :
    Computes (code ++ emitSx32Rd d) s d.rd (v.signExtend 64) := by
  refine h.append fun s' hlow => ?_
  have hsx := computes_sx32 (d := d) (s := s')
  rw [hlow.1] at hsx
  exact hsx.mono fun s'' hs'' => hlow.trans hs''

theorem computes_zero : Computes (emitZeroRd d) s d.rd 0#64 := by
  unfold emitZeroRd
  dsimp only
  split
  · next h =>
    rw [Computes, ends_cons rfl rfl, ends_nil, ← loc_of_pos h]
    intro r
    rw [guest_clobberFlags, sets_putD h _ r, AluOp.eval, BitVec.xor_self]
    rfl
  · next h =>
    rw [Computes, ends_cons rfl rfl, ends_nil, ← loc_of_not_pos h]
    exact sets_putQ s d.rd _

theorem computes_mv_sx32 : Computes (emitMvRdRs1Sx32 d) s d.rd (((guest s d.rs1).setWidth 32).signExtend 64) := by
  unfold emitMvRdRs1Sx32
  dsimp only
  split
  · next h =>
    rw [Computes, ends_cons rfl rfl, ends_nil, d_loc]
    rw [reg_gpr h]
    exact sets_putQ s d.rd _
  · next h =>
    rw [Computes, ends_cons rfl rfl, d_loc]
    exact sets_slot h (by simp) (by simp)

end MoveSpecs

end Rv8.Jit
