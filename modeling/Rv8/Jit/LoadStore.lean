import Rv8.Jit.Jump
import Rv8.Lib.X86Memory
/-!
# Loads, stores and addresses

`emit_ld` and its family, `emit_sd` and its family, and the instructions that only put a
number into a register: `lui`, `auipc` and the fused `la`. The emitter never sets
`use_mmu`, so an access is one instruction at the address of the guest.
-/

namespace Rv8.Jit

open Rv8.Asm Rv8.Lib.X86

abbrev TraceCode := List (Piece Slot Label)

/-! ## The emitters -/

section Emit
variable (d : JitDecode)

/-- The register of the address, where that of `rs1` has to be fetched. -/
def emitBase : TraceCode := if 0 < x86Reg d.rs1 then [] else [.code [.mov .q ax (rbpReg d.rs1)]]

def baseReg : Reg := if 0 < x86Reg d.rs1 then gpr (x86Reg d.rs1) else rax

def emitLoad (n : Nat) (signed : Bool) : TraceCode :=
  if d.rd = 0 then []
  else if 0 < x86Reg d.rd then emitBase d ++ [.load n signed (gpr (x86Reg d.rd)) (baseReg d) d.imm]
  else emitBase d ++ [.load n signed rax (baseReg d) d.imm, .code [.mov .q (rbpReg d.rd) ax]]

def emitLd : TraceCode := emitLoad d 8 true

def emitLw : TraceCode := emitLoad d 4 true

def emitLwu : TraceCode := emitLoad d 4 false

def emitLh : TraceCode := emitLoad d 2 true

def emitLhu : TraceCode := emitLoad d 2 false

def emitLb : TraceCode := emitLoad d 1 true

def emitLbu : TraceCode := emitLoad d 1 false

def emitStore (n : Nat) : TraceCode :=
  if d.rs2 = 0 then emitBase d ++ [.store n (baseReg d) d.imm (.imm 0)]
  else if 0 < x86Reg d.rs2 then emitBase d ++ [.store n (baseReg d) d.imm (gp (x86Reg d.rs2))]
  else .code [.mov .q cx (rbpReg d.rs2)] :: emitBase d ++ [.store n (baseReg d) d.imm cx]

def emitSd : TraceCode := emitStore d 8

def emitSw : TraceCode := emitStore d 4

def emitSh : TraceCode := emitStore d 2

def emitSb : TraceCode := emitStore d 1

def emitLui : Code := if d.rd = 0 then [] else [.mov .q (loc d.rd) (.imm d.imm)]

/-- A slot is given the low half of the address. -/
def emitAuipc : Code :=
  let rdx := x86Reg d.rd
  if d.rd = 0 then []
  else if 0 < rdx then [.movabs (gpr rdx) d.jumpPc]
  else [.mov .q (rbpReg d.rd) (.imm (d.jumpPc.setWidth 32))]

def emitLa : Code := if d.rd = 0 then [] else emitAddr d.rd d.rd d.jumpPc

/-- The cases of `emit` for loads and stores. -/
def emitAccess : RvOp → Option TraceCode
  | .ld => some (emitLd d)
  | .lw => some (emitLw d)
  | .lwu => some (emitLwu d)
  | .lh => some (emitLh d)
  | .lhu => some (emitLhu d)
  | .lb => some (emitLb d)
  | .lbu => some (emitLbu d)
  | .sd => some (emitSd d)
  | .sw => some (emitSw d)
  | .sh => some (emitSh d)
  | .sb => some (emitSb d)
  | _ => none

end Emit

/-! ## What they do -/

section Specs
variable {M : Type} {mem : DataMemory M} {d : JitDecode} {s : HostState} {m : M}

/-- The address of an access. -/
def accessVa (d : JitDecode) (x : Nat → BitVec 64) : BitVec 64 := x d.rs1 + d.imm.signExtend 64

def accessAddr (d : JitDecode) (x : Nat → BitVec 64) : Nat := (accessVa d x).toNat

variable (mem d s m) in
theorem execPieces_emitBase (ps : TraceCode) :
    ∃ s', execPieces mem (emitBase d ++ ps) none s m = execPieces mem ps none s' m ∧ (∀ r, guest s' r = guest s r) ∧
      s'.q cx = s.q cx ∧ s'.address (baseReg d) d.imm = accessAddr d (guest s) := by
  unfold emitBase baseReg State.address accessAddr accessVa
  split
  · next h =>
    refine ⟨s, rfl, fun r => rfl, rfl, ?_⟩
    rw [State.gpr_eq_q, reg_gpr h, q_loc]
  · next h =>
    refine ⟨s.putQ (s.q (rbpReg d.rs1)) ax, execPieces_code rfl, by simp, ?_, ?_⟩
    · rw [State.q_putQ _ (loc_reg _), if_neg (by decide)]
    · rw [State.gpr_eq_q, State.q_putQ _ (loc_reg _), if_pos rfl, ← loc_of_not_pos h, q_loc]

variable (mem) in
/-- What was loaded is put into the register. -/
theorem execPieces_emitLoad {n v : Nat} (signed : Bool) (hrd : d.rd ≠ 0) (h : mem.load n (accessAddr d (guest s)) m = some v) :
    ∃ s', execPieces mem (emitLoad d n signed) none s m = .done s' m ∧ Sets d.rd (fill n signed v) s s' := by
  unfold emitLoad
  rw [if_neg hrd]
  split
  · next hpos =>
    obtain ⟨s1, hbase, hguest, -, haddr⟩ := execPieces_emitBase mem d s m
      [.load n signed (gpr (x86Reg d.rd)) (baseReg d) d.imm]
    refine ⟨s1.putQ (fill n signed v) (loc d.rd), ?_, ?_⟩
    · rw [hbase, execPieces_load (haddr ▸ h), reg_gpr hpos, execPieces_nil]
    · intro r
      rw [sets_putQ s1 d.rd _ r, hguest]
  · next hpos =>
    obtain ⟨s1, hbase, hguest, -, haddr⟩ := execPieces_emitBase mem d s m
      [.load n signed rax (baseReg d) d.imm, .code [.mov .q (rbpReg d.rd) ax]]
    have hax : (s1.putQ (fill n signed v) ax).q ax = fill n signed v := (s1.q_putQ (loc_reg _) _).trans (if_pos rfl)
    obtain ⟨s2, hexec, hsets⟩ := sets_slot (s := s1) hpos hax (by simp)
    refine ⟨s2, ?_, ?_⟩
    · rw [hbase, execPieces_load (haddr ▸ h), execPieces_code hexec, execPieces_nil]
    · intro r
      rw [hsets r, hguest]

variable (mem) in
theorem execPieces_emitLoad_signal {n : Nat} (signed : Bool) (hrd : d.rd ≠ 0) (h : mem.load n (accessAddr d (guest s)) m = none) :
    ∃ s', execPieces mem (emitLoad d n signed) none s m = .signal s' m := by
  unfold emitLoad
  rw [if_neg hrd]
  have hload : ∀ (dst : Reg) (ps : TraceCode),
      ∃ s', execPieces mem (emitBase d ++ .load n signed dst (baseReg d) d.imm :: ps) none s m = .signal s' m := by
    intro dst ps
    obtain ⟨s1, hbase, -, -, haddr⟩ := execPieces_emitBase mem d s m
      (.load n signed dst (baseReg d) d.imm :: ps)
    exact ⟨s1, hbase.trans (execPieces_load_signal (haddr ▸ h))⟩
  split
  · exact hload _ []
  · exact hload _ _

variable (mem m d) in
/-- The registers stay, and the low bytes of `rs2` go to the address or to a signal. -/
theorem execPieces_emitStore (n : Nat) (h0 : guest s 0 = 0#64) :
    ∃ s', (∀ r, guest s' r = guest s r) ∧ execPieces mem (emitStore d n) none s m =
      match mem.store n (accessAddr d (guest s)) ((guest s d.rs2).toNat % 2 ^ (8 * n)) m with
      | some m' => .done s' m'
      | none => .signal s' m := by
  -- the last piece, once the source and the base are in place
  have hstore : ∀ {src : Operand Slot} {s1 : HostState}, s1.address (baseReg d) d.imm = accessAddr d (guest s) →
      s1.q src = guest s d.rs2 → execPieces mem ([.store n (baseReg d) d.imm src] : TraceCode) none s1 m =
        match mem.store n (accessAddr d (guest s)) ((guest s d.rs2).toNat % 2 ^ (8 * n)) m with
        | some m' => .done s1 m'
        | none => .signal s1 m := by
    intro src s1 haddr hsrc
    rw [← haddr, ← hsrc]
    cases h : mem.store n (s1.address (baseReg d) d.imm) ((s1.q src).toNat % 2 ^ (8 * n)) m with
    | some m' => exact execPieces_store h
    | none => exact execPieces_store_signal h
  unfold emitStore
  split
  · next h2 =>
    obtain ⟨s1, hbase, hguest, -, haddr⟩ := execPieces_emitBase mem d s m
      [.store n (baseReg d) d.imm (.imm 0)]
    refine ⟨s1, hguest, hbase.trans (hstore haddr ?_)⟩
    rw [h2, h0]
    rfl
  · split
    · next hpos =>
      obtain ⟨s1, hbase, hguest, -, haddr⟩ := execPieces_emitBase mem d s m
        [.store n (baseReg d) d.imm (gp (x86Reg d.rs2))]
      refine ⟨s1, hguest, hbase.trans (hstore haddr ?_)⟩
      rw [← loc_of_pos hpos, q_loc, hguest]
    · next hpos =>
      have hmov : exec ([.mov .q cx (rbpReg d.rs2)] : Code) none s = .done (s.putQ (guest s d.rs2) cx) := by
        rw [← loc_of_not_pos hpos]
        rfl
      obtain ⟨s1, hbase, hguest, hcx, haddr⟩ := execPieces_emitBase mem d (s.putQ (guest s d.rs2) cx) m
        [.store n (baseReg d) d.imm cx]
      have hguest' : ∀ r, guest s1 r = guest s r := fun r => (hguest r).trans (guest_putQ_cx s r _)
      have haddr' : s1.address (baseReg d) d.imm = accessAddr d (guest s) :=
        haddr.trans (congrArg (accessAddr d) (funext fun r => guest_putQ_cx s r _))
      refine ⟨s1, hguest', ?_⟩
      rw [List.cons_append, execPieces_code hmov, hbase]
      refine hstore haddr' (hcx.trans ?_)
      rw [State.q_putQ _ (loc_reg _), if_pos rfl]

theorem computes_lui (hrd : d.rd ≠ 0) : Computes (emitLui d) s d.rd (d.imm.signExtend 64) := by
  unfold emitLui
  rw [if_neg hrd, Computes, ends_cons rfl rfl, ends_nil]
  exact sets_putQ s d.rd _

/-- An address that a slot can be given. -/
def SlotFits (rd : Nat) (addr : BitVec 64) : Prop := 0 < x86Reg rd ∨ (addr.setWidth 32).signExtend 64 = addr

instance (rd : Nat) (addr : BitVec 64) : Decidable (SlotFits rd addr) := inferInstanceAs (Decidable (_ ∨ _))

theorem computes_auipc (hrd : d.rd ≠ 0) (h : SlotFits d.rd d.jumpPc) : Computes (emitAuipc d) s d.rd d.jumpPc := by
  unfold emitAuipc
  dsimp only
  rw [if_neg hrd]
  split
  · next hpos =>
    rw [Computes, ends_cons rfl rfl, ends_nil, reg_gpr hpos]
    exact sets_putQ s d.rd _
  · next hpos =>
    have hmov : s.q (.imm (d.jumpPc.setWidth 32)) = d.jumpPc := h.resolve_left hpos
    rw [Computes, ends_cons rfl rfl, ends_nil, ← loc_of_not_pos hpos, hmov]
    exact sets_putQ s d.rd _

theorem computes_emitAddr {rd : Nat} (addr : BitVec 64) : Computes (emitAddr rd rd addr) s rd addr := by
  refine (ends_emitAddr (Decidable.em _) addr).mono fun s' hs' => ?_
  have hsets := hs'.1
  rwa [ite_self] at hsets

theorem computes_la (hrd : d.rd ≠ 0) : Computes (emitLa d) s d.rd d.jumpPc := by
  unfold emitLa
  rw [if_neg hrd]
  exact computes_emitAddr d.jumpPc

end Specs

end Rv8.Jit
