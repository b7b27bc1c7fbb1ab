import Rv8.Jit.Alu
/-!
# Jumps

`emit_branch`, `emit_jal`, `emit_jalr` and `emit_call` of `jit-emitter-rv64.h`. The code
for a jump goes on to the instruction that was recorded next: a branch is left the other
way, and a return where its address is not that of the call. The end of a trace stores
the pc of its last instruction, and so do the stubs behind the epilog, from which the
next trace is looked up.
-/

namespace Rv8.Jit

open Rv8.Asm Rv8.Lib.X86

/-! ## The emitter -/

/-- The members of the emitter that jumps access. A map from a pc to a label is the list of its pcs. -/
structure Emitter where
  (labels jmpTrampLabels exitTrampLabels : List (BitVec 64) := [])
  /-- The pc of each jump that is to be fixed up. -/
  jmpFixupLabels : List (BitVec 64) := []
  /-- The last one comes first. -/
  callstack : List (BitVec 64) := []
  termPc : BitVec 64 := 0
  /-- Whether there is a trace for a pc. -/
  lookupTraceSlow : BitVec 64 → Bool := fun _ => false

/-- What is emitted for an instruction, and what is returned. -/
structure EmittedJump where
  code : Code
  emitter : Emitter
  more : Bool := true

def emitPc (newPc : BitVec 64) : Code :=
  if newPc.toNat < 2 ^ 32 - 1 then [.mov .q (.mem .pc) (.imm (newPc.setWidth 32))]
  else [.movabs rax newPc, .mov .q (.mem .pc) ax]

/-- An address is put into a guest register, or into the slot of `slot`. -/
def emitAddr (rd slot : Nat) (addr : BitVec 64) : Code :=
  if 0 < x86Reg rd then [.movabs (gpr (x86Reg rd)) addr] else [.movabs rax addr, .mov .q (rbpReg slot) ax]

def emitCmp (d : JitDecode) : Code :=
  if d.rs1 = 0 then [.alu .xor .d ax ax, .cmp .q ax (loc d.rs2)]
  else if d.rs2 = 0 then [.cmp .q (loc d.rs1) (.imm 0)]
  else if 0 < x86Reg d.rs1 ∨ 0 < x86Reg d.rs2 then [.cmp .q (loc d.rs1) (loc d.rs2)]
  else [.mov .q ax (rbpReg d.rs1), .cmp .q ax (rbpReg d.rs2)]

namespace Emitter

variable (e : Emitter) (pc : BitVec 64)

def createExitTramp : Emitter :=
  if pc ∈ e.exitTrampLabels then e else { e with exitTrampLabels := pc :: e.exitTrampLabels }

def createJumpTramp : Emitter :=
  if pc ∈ e.jmpTrampLabels then e else { e with jmpTrampLabels := pc :: e.jmpTrampLabels }

/-- `emit_jump_fixup` and `emit_branch_fixup`, without the jump and the label behind it. -/
def fixup : Emitter := { e.createJumpTramp pc with jmpFixupLabels := pc :: e.jmpFixupLabels }

/-- Where the trace is left for a pc that is not in it. -/
def leaveFor : Label × Emitter := if e.lookupTraceSlow pc then (.trace pc, e) else (.jmpTramp pc, e.fixup pc)

/-- The code of `end()`. -/
def emitEnd : Code := if e.termPc ≠ 0 then emitPc e.termPc else []

end Emitter

/-! ## Branches -/

section Branches
variable (e : Emitter) (d : JitDecode)

def JitDecode.jumpPc : BitVec 64 := d.pc + d.imm.signExtend 64

def JitDecode.nextPc : BitVec 64 := d.pc + BitVec.ofNat 64 d.length

/-- `cond` is whether the branch is taken when the trace is recorded. -/
def emitBranch (cond : Bool) (bf ibf : Cond) : EmittedJump :=
  let branchPc := d.jumpPc
  let contPc := d.nextPc
  if branchPc ∈ e.labels ∧ contPc ∈ e.labels then
    { code := emitCmp d ++ [.jcc bf (.inst branchPc), .jmp (.inst contPc)], emitter := e }
  else if cond = true ∧ branchPc ∈ e.labels then
    let out := e.leaveFor contPc
    { code := emitCmp d ++ [.jcc bf (.inst branchPc), .jmp out.1], emitter := { out.2 with termPc := 0 } }
  else if cond = false ∧ contPc ∈ e.labels then
    let out := e.leaveFor branchPc
    { code := emitCmp d ++ [.jcc ibf (.inst contPc), .jmp out.1], emitter := { out.2 with termPc := 0 } }
  else if cond = true then
    let out := e.leaveFor contPc
    { code := emitCmp d ++ [.jcc ibf out.1], emitter := { out.2 with termPc := branchPc } }
  else
    let out := e.leaveFor branchPc
    { code := emitCmp d ++ [.jcc bf out.1], emitter := { out.2 with termPc := contPc } }

variable (x : Nat → BitVec 64)

def emitBne : EmittedJump := emitBranch e d (x d.rs1 ≠ x d.rs2) .ne .e

def emitBeq : EmittedJump := emitBranch e d (x d.rs1 = x d.rs2) .e .ne

def emitBlt : EmittedJump := emitBranch e d ((x d.rs1).slt (x d.rs2)) .l .ge

def emitBge : EmittedJump := emitBranch e d (!(x d.rs1).slt (x d.rs2)) .ge .l

def emitBltu : EmittedJump := emitBranch e d (x d.rs1 < x d.rs2) .b .ae

def emitBgeu : EmittedJump := emitBranch e d (¬ x d.rs1 < x d.rs2) .ae .b

end Branches

/-! ## Jumps and calls -/

section Jumps
variable (e : Emitter) (d : JitDecode)

def emitJal : EmittedJump :=
  let e := { e with termPc := d.jumpPc }
  if d.rd = 0 then { code := [], emitter := e }
  else
    let linkAddr := d.nextPc
    { code := emitAddr d.rd d.rd linkAddr, emitter := { e with callstack := linkAddr :: e.callstack } }

/-- The target of a jump through a register goes to the pc; that through `x0` stays in `eax`. -/
def emitTarget : Code :=
  let rs1x := x86Reg d.rs1
  if d.rs1 = 0 then (if d.imm = 0 then [.alu .xor .d ax ax] else [.mov .d ax (.imm d.imm)])
  else if 0 < rs1x then
    if d.imm = 0 then [.mov .q (.mem .pc) (gp rs1x)]
    else [.lea .q rax (gp rs1x) (.imm d.imm), .mov .q (.mem .pc) ax]
  else [.mov .q ax (rbpReg d.rs1), .alu .add .q ax (.imm d.imm), .mov .q (.mem .pc) ax]

/-- A jump whose target is looked up. -/
def emitIndirect : EmittedJump :=
  let linkAddr := d.nextPc
  { code := emitTarget d ++ (if d.rd = 0 then [] else emitAddr d.rd d.rd linkAddr) ++ [.jmp .lookupTraceFast]
    emitter := { e with termPc := 0 }
    more := false }

/-- A return is predicted to be that of the last call. -/
def emitReturn (linkAddr : BitVec 64) (callstack : List (BitVec 64)) : EmittedJump :=
  { code := [.cmp .q (gp (x86Reg rvIregRa)) (.imm (linkAddr.setWidth 32)), .jcc .ne (.exitTramp d.pc)]
    emitter := { e.createExitTramp d.pc with callstack, termPc := 0 } }

def emitJalr : EmittedJump :=
  if d.rd = 0 ∧ d.rs1 = rvIregRa then
    match e.callstack with
    | linkAddr :: callstack => emitReturn e d linkAddr callstack
    | [] => emitIndirect e d
  else emitIndirect e d

/-- The temporary that has no register goes to the slot of `rs1`, which fusion leaves at 0. -/
def emitCall : EmittedJump :=
  let termPc := d.jumpPc
  let linkAddr := d.nextPc + 4
  { code := (if d.rd = rvIregRa then [] else emitAddr d.rd d.rs1 termPc) ++ emitAddr rvIregRa d.rd linkAddr
    emitter := { e with termPc, callstack := linkAddr :: e.callstack } }

/-- The cases of `emit` for jumps; `x` are the registers when the trace is recorded. -/
def emitJump (x : Nat → BitVec 64) : Option EmittedJump :=
  match d.op with
  | .rv .jal => some (emitJal e d)
  | .rv .jalr => some (emitJalr e d)
  | .rv .beq => some (emitBeq e d x)
  | .rv .bne => some (emitBne e d x)
  | .rv .blt => some (emitBlt e d x)
  | .rv .bge => some (emitBge e d x)
  | .rv .bltu => some (emitBltu e d x)
  | .rv .bgeu => some (emitBgeu e d x)
  | .call => some (emitCall e d)
  | _ => none

end Jumps

/-! ## Leaving the trace -/

/-- The pc of the processor, which a trace stores when it is left. -/
def pcSlot (s : HostState) : BitVec 64 := s.q (.mem .pc)

/-- Where the guest has come to behind the code for an instruction. -/
structure Arrival where
  pc : BitVec 64
  state : HostState
  /-- The instruction is still to be executed. -/
  before : Bool := false

section Arrive
variable (e : Emitter) (patched : BitVec 64 → Bool) (next : Option (BitVec 64))

/-- Code that ends with the pc in its slot. -/
def arriveBy (code : Code) (before : Bool) (s : HostState) : Option Arrival :=
  match exec code none s with
  | .done s' => some { pc := pcSlot s', state := s', before }
  | _ => none

/-- At the end of the code comes the instruction at `next`, or else that of the trace. Behind the epilog are the stubs for
the labels that were created; the jumps to a stub that were fixed up go to the trace for its pc. -/
def arrive : Outcome Slot Label → Option Arrival
  | .done s =>
    match next with
    | some pc => some { pc, state := s }
    | none => arriveBy e.emitEnd false s
  | .left (.inst pc) s => if pc ∈ e.labels then some { pc, state := s } else none
  | .left (.trace pc) s => if e.lookupTraceSlow pc then some { pc, state := s } else none
  | .left (.jmpTramp pc) s =>
    if pc ∈ e.jmpFixupLabels ∧ patched pc then some { pc, state := s }
    else if pc ∈ e.jmpTrampLabels then arriveBy (emitPc pc) false s
    else none
  | .left (.exitTramp pc) s => if pc ∈ e.exitTrampLabels then arriveBy (emitPc pc) true s else none
  | .left .lookupTraceFast s => some { pc := pcSlot s, state := s }
  | _ => none

end Arrive

/-! ## What is stored -/

/-- The pcs that `emit_pc` stores. The others are taken for negative ones. -/
def PcFits (pc : BitVec 64) : Prop := pc.toNat < 2 ^ 31 ∨ 2 ^ 32 - 1 ≤ pc.toNat

instance (pc : BitVec 64) : Decidable (PcFits pc) := inferInstanceAs (Decidable (_ ∨ _))

/-- What `emit_pc` leaves in the slot. -/
def storedPc (pc : BitVec 64) : BitVec 64 := if PcFits pc then pc else (pc.setWidth 32).signExtend 64

/-- What `end()` leaves in the slot for the pc of the last instruction. -/
def endPc (termPc old : BitVec 64) : BitVec 64 := if termPc = 0 then old else storedPc termPc

/-- The guest is not changed, and `pc` is in the slot. -/
def Stays (pc : BitVec 64) (s s' : HostState) : Prop := pcSlot s' = pc ∧ guest s' = guest s

section Stored
variable {pc : BitVec 64} {s : HostState}

/-- Between 2^31 and 2^32 sign extension takes 2^32 off. -/
theorem signExtend_setWidth (h : ¬ PcFits pc) : (pc.setWidth 32).signExtend 64 + 0x100000000#64 = pc := by
  unfold PcFits at h
  apply BitVec.eq_of_toInt_eq
  rw [BitVec.toInt_add, BitVec.toInt_signExtend_of_le (by decide), BitVec.toInt_setWidth, BitVec.toInt_eq_toNat_bmod pc,
    Int.bmod_def, Int.bmod_def, Int.bmod_def]
  have hconst : (0x100000000#64).toInt = 4294967296 := by decide
  omega

theorem signExtend_setWidth_of_lt (h : pc.toNat < 2 ^ 31) : (pc.setWidth 32).signExtend 64 = pc := by
  apply BitVec.eq_of_toInt_eq
  rw [BitVec.toInt_signExtend_of_le (by decide), BitVec.toInt_setWidth, BitVec.toInt_eq_toNat_bmod pc, Int.bmod_def, Int.bmod_def]
  omega

theorem storedPc_eq_iff {pc' : BitVec 64} : storedPc pc = pc' ↔ if PcFits pc then pc = pc' else pc = pc' + 0x100000000#64 := by
  unfold storedPc
  split
  · rfl
  · next h =>
    have hsum := signExtend_setWidth h
    constructor
    · intro heq
      rw [← heq, hsum]
    · intro heq
      exact (BitVec.add_left_inj _).mp (hsum.trans heq)

theorem storedPc_self : storedPc pc = pc ↔ PcFits pc := by
  rw [storedPc_eq_iff]
  split
  · next h => exact iff_of_true rfl h
  · next h => exact iff_of_false (by bv_omega) h

theorem loc_ne_pc (r : Nat) : loc r ≠ .mem .pc := by
  unfold loc gp rbpReg
  split <;> simp

section Slot
variable (s) (v : BitVec 64) (w : BitVec 32)

@[simp] theorem pcSlot_putQ_pc : pcSlot (s.putQ v (.mem .pc)) = v := (s.q_putQ (loc_mem _) v).trans (if_pos rfl)

@[simp] theorem pcSlot_putQ_reg (r : Reg) : pcSlot (s.putQ v (.reg r)) = pcSlot s := rfl

@[simp] theorem pcSlot_putQ_loc (r : Nat) : pcSlot (s.putQ v (loc r)) = pcSlot s :=
  (s.q_putQ (loc_loc r) v).trans (if_neg (loc_ne_pc r).symm)

@[simp] theorem pcSlot_putD_reg (r : Reg) : pcSlot (s.putD w (.reg r)) = pcSlot s := rfl

@[simp] theorem pcSlot_setFlags (f : Flags) : pcSlot (s.setFlags f) = pcSlot s := rfl

@[simp] theorem pcSlot_clobberFlags : pcSlot s.clobberFlags = pcSlot s := rfl

@[simp] theorem guest_putQ_pc (r : Nat) : guest (s.putQ v (.mem .pc)) r = guest s r :=
  (s.q_putQ (loc_mem _) v).trans (if_neg (loc_ne_pc r))

end Slot

theorem Stays.of_guest {s' : HostState} (hpc : pcSlot s' = pc) (h : ∀ r, guest s' r = guest s r) : Stays pc s s' := ⟨hpc, funext h⟩

theorem ends_emitPc : Ends (emitPc pc) s (Stays (storedPc pc) s) := by
  unfold emitPc
  split
  · next h =>
    rw [ends_cons rfl rfl, ends_nil]
    have hstored : storedPc pc = (pc.setWidth 32).signExtend 64 := by
      unfold storedPc
      split
      · next hfits => exact (signExtend_setWidth_of_lt (hfits.resolve_right (by omega))).symm
      · rfl
    rw [hstored]
    exact .of_guest (by simp) (by simp)
  · next h =>
    rw [ends_cons rfl rfl, ends_cons rfl rfl, ends_nil, storedPc_self.mpr (.inr (by omega))]
    exact .of_guest (by simp) (by simp)

end Stored

/-! ## What the code does -/

/-- The guest has come to `pc` behind the instruction, with the registers `g`. -/
def Arrives (e : Emitter) (patched : BitVec 64 → Bool) (next : Option (BitVec 64)) (o : Outcome Slot Label)
    (g : Nat → BitVec 64) (pc : BitVec 64) : Prop :=
  ∃ s, arrive e patched next o = some { pc, state := s } ∧ guest s = g

section Arrives
variable (e : Emitter) (patched : BitVec 64 → Bool) (next : Option (BitVec 64)) (s : HostState)

theorem arriveBy_emitPc (pc : BitVec 64) (before : Bool) :
    ∃ s', arriveBy (emitPc pc) before s = some { pc := storedPc pc, state := s', before } ∧ guest s' = guest s := by
  obtain ⟨s', hexec, hpc, hguest⟩ : Ends (emitPc pc) s (Stays (storedPc pc) s) := ends_emitPc
  refine ⟨s', ?_, hguest⟩
  unfold arriveBy
  rw [hexec, ← hpc]

theorem arrives_done : Arrives e patched next (.done s) (guest s) (next.getD (endPc e.termPc (pcSlot s))) := by
  cases next with
  | some pc => exact ⟨s, rfl, rfl⟩
  | none =>
    unfold Arrives endPc
    show ∃ s', arriveBy e.emitEnd false s = some { pc := if e.termPc = 0 then pcSlot s else storedPc e.termPc, state := s' } ∧ _
    unfold Emitter.emitEnd
    by_cases hterm : e.termPc = 0
    · rw [if_neg (not_not.mpr hterm), if_pos hterm]
      exact ⟨s, rfl, rfl⟩
    · rw [if_pos hterm, if_neg hterm]
      exact arriveBy_emitPc s e.termPc false

@[simp] theorem labels_leaveFor (pc : BitVec 64) : (e.leaveFor pc).2.labels = e.labels := by
  unfold Emitter.leaveFor Emitter.fixup Emitter.createJumpTramp
  split
  · rfl
  · split <;> rfl

theorem mem_createJumpTramp (pc : BitVec 64) : pc ∈ (e.createJumpTramp pc).jmpTrampLabels := by
  unfold Emitter.createJumpTramp
  split
  · next h => exact h
  · exact List.mem_cons_self

theorem mem_createExitTramp (pc : BitVec 64) : pc ∈ (e.createExitTramp pc).exitTrampLabels := by
  unfold Emitter.createExitTramp
  split
  · next h => exact h
  · exact List.mem_cons_self

theorem arrives_leaveFor (pc termPc : BitVec 64) :
    Arrives { (e.leaveFor pc).2 with termPc } patched next (.left (e.leaveFor pc).1 s) (guest s)
      (if e.lookupTraceSlow pc = true ∨ patched pc = true then pc else storedPc pc) := by
  unfold Emitter.leaveFor
  by_cases hslow : e.lookupTraceSlow pc = true
  · rw [if_pos hslow, if_pos (.inl hslow)]
    exact ⟨s, if_pos hslow, rfl⟩
  · rw [if_neg hslow]
    have hfixup : pc ∈ (e.fixup pc).jmpFixupLabels := List.mem_cons_self
    by_cases hpatched : patched pc = true
    · rw [if_pos (.inr hpatched)]
      exact ⟨s, if_pos ⟨hfixup, hpatched⟩, rfl⟩
    · rw [if_neg (not_or.mpr ⟨hslow, hpatched⟩)]
      obtain ⟨s', harrive, hguest⟩ := arriveBy_emitPc s pc false
      have hstub : pc ∈ (e.fixup pc).jmpTrampLabels := mem_createJumpTramp e pc
      exact ⟨s', ((if_neg fun h => hpatched h.2).trans (if_pos hstub)).trans harrive, hguest⟩

end Arrives

section Code
variable {d : JitDecode} {s : HostState}

theorem ends_emitCmp (h0 : guest s 0 = 0#64) :
    Ends (emitCmp d) s fun s' => s'.flags = some (.cmp (guest s d.rs1) (guest s d.rs2)) ∧ Stays (pcSlot s) s s' := by
  unfold emitCmp
  split
  · next h1 =>
    rw [ends_cons rfl rfl, ends_cons rfl rfl, ends_nil, h1, h0, AluOp.eval, BitVec.xor_self]
    exact ⟨by simp, .of_guest (by simp) (by simp)⟩
  · split
    · next h2 =>
      rw [ends_cons rfl rfl, ends_nil, h2, h0]
      exact ⟨rfl, .of_guest rfl (by simp)⟩
    · split
      · rw [ends_cons rfl rfl, ends_nil]
        exact ⟨rfl, .of_guest rfl (by simp)⟩
      · next h =>
        rw [not_or] at h
        rw [ends_cons rfl rfl, ends_cons rfl rfl, ends_nil, ← loc_of_not_pos h.1, ← loc_of_not_pos h.2]
        exact ⟨by simp, .of_guest (by simp) (by simp)⟩

theorem ends_emitAddr {rd slot : Nat} (h : 0 < x86Reg rd ∨ ¬ 0 < x86Reg slot) (addr : BitVec 64) :
    Ends (emitAddr rd slot addr) s fun s' =>
      Sets (if 0 < x86Reg rd then rd else slot) addr s s' ∧ pcSlot s' = pcSlot s := by
  unfold emitAddr
  split
  · next hrd =>
    rw [ends_cons rfl rfl, ends_nil, reg_gpr hrd]
    exact ⟨sets_putQ s rd addr, by simp⟩
  · next hrd =>
    rw [ends_cons rfl rfl, ends_cons rfl rfl, ends_nil, ← loc_of_not_pos (h.resolve_left hrd)]
    refine ⟨?_, by simp⟩
    intro r
    rw [sets_putQ _ slot _ r, State.q_putQ _ (loc_reg _), if_pos rfl, guest_putQ_ax]

theorem ends_emitTarget :
    Ends (emitTarget d) s (Stays (if d.rs1 = 0 then pcSlot s else guest s d.rs1 + d.imm.signExtend 64) s) := by
  unfold emitTarget
  dsimp only
  split
  · split
    · rw [ends_cons rfl rfl, ends_nil]
      exact .of_guest (by simp) (by simp)
    · rw [ends_cons rfl rfl, ends_nil]
      exact .of_guest (by simp) (by simp)
  · split
    · next hrs1 =>
      split
      · next himm =>
        rw [ends_cons rfl rfl, ends_nil, ← loc_of_pos hrs1, himm]
        exact .of_guest (by simp) (by simp)
      · rw [ends_cons rfl rfl, ends_cons rfl rfl, ends_nil, ← loc_of_pos hrs1]
        exact .of_guest (by simp) (by simp)
    · next hrs1 =>
      rw [ends_cons rfl rfl, ends_cons rfl rfl, ends_cons rfl rfl, ends_nil, ← loc_of_not_pos hrs1]
      exact .of_guest (by simp [AluOp.eval]) (by simp)

theorem exec_emitCmp (h0 : guest s 0 = 0#64) :
    ∃ s', Stays (pcSlot s) s s' ∧ ∀ c l code, exec (emitCmp d ++ .jcc c l :: code) none s =
      exec code (if (Flags.cmp (guest s d.rs1) (guest s d.rs2)).holds c then some l else none) s' := by
  obtain ⟨s', hexec, hflags, hstays⟩ := ends_emitCmp (d := d) h0
  refine ⟨s', hstays, fun c l code => ?_⟩
  rw [exec_append_of_done _ _ _ hexec, exec_jcc _ _ _ hflags]

/-- The address of a jump that is looked up. -/
theorem exec_emitIndirect (e : Emitter) (h0 : guest s 0 = 0#64) :
    ∃ s', exec (emitIndirect e d).code none s = .left .lookupTraceFast s' ∧
      pcSlot s' = (if d.rs1 = 0 then pcSlot s else guest s d.rs1 + d.imm.signExtend 64) ∧
      guest s' d.rd = if d.rd = 0 then 0#64 else d.nextPc := by
  have hlink : Ends (emitTarget d ++ if d.rd = 0 then [] else emitAddr d.rd d.rd d.nextPc) s fun s' =>
      pcSlot s' = (if d.rs1 = 0 then pcSlot s else guest s d.rs1 + d.imm.signExtend 64) ∧
        guest s' d.rd = if d.rd = 0 then 0#64 else d.nextPc := by
    refine ends_emitTarget.append ?_
    rintro s1 ⟨hpc, hguest⟩
    by_cases hrd : d.rd = 0
    · rw [if_pos hrd, if_pos hrd, ends_nil, hguest, hrd]
      exact ⟨hpc, h0⟩
    · rw [if_neg hrd, if_neg hrd]
      refine (ends_emitAddr (Decidable.em _) d.nextPc).mono ?_
      rintro s2 ⟨hsets, hslot⟩
      rw [ite_self] at hsets
      exact ⟨hslot.trans hpc, hsets.guest_rd⟩
  obtain ⟨s', hexec, hs'⟩ := hlink
  refine ⟨s', ?_, hs'⟩
  show exec ((emitTarget d ++ _) ++ _) none s = _
  rw [exec_append_of_done _ _ _ hexec]
  rfl

end Code

/-! ## Branches -/

section Branch
variable {d : JitDecode} {s : HostState} (e : Emitter) (patched : BitVec 64 → Bool) (next : Option (BitVec 64))

/-- Where a branch leads, or else the instruction behind it. -/
def JitDecode.branchTo (d : JitDecode) (taken : Bool) : BitVec 64 := if taken then d.jumpPc else d.nextPc

/-- The pc that a branch gets to: that of an instruction of the trace or of another one where there is such code. -/
def branchPc (d : JitDecode) (old : BitVec 64) (cond taken : Bool) : BitVec 64 :=
  let pc := d.branchTo taken
  if taken = cond then (if pc ∈ e.labels then pc else next.getD (endPc pc old))
  else if (d.jumpPc ∈ e.labels ∧ d.nextPc ∈ e.labels) ∨ e.lookupTraceSlow pc = true ∨ patched pc = true then pc
  else storedPc pc

theorem branchPc_inside {old : BitVec 64} {cond taken : Bool} (h : taken = cond) (hin : d.branchTo taken ∈ e.labels) :
    branchPc e patched next d old cond taken = d.branchTo taken := by
  unfold branchPc
  dsimp only
  rw [if_pos h, if_pos hin]

theorem branchPc_both {old : BitVec 64} {cond taken : Bool} (hboth : d.jumpPc ∈ e.labels ∧ d.nextPc ∈ e.labels) :
    branchPc e patched next d old cond taken = d.branchTo taken := by
  have hin : d.branchTo taken ∈ e.labels := by
    cases taken with
    | true => exact hboth.1
    | false => exact hboth.2
  unfold branchPc
  dsimp only
  rw [if_pos hin]
  split
  · rfl
  · exact if_pos (.inl hboth)

theorem branchPc_on {old : BitVec 64} {cond taken : Bool} (h : taken = cond) (hout : d.branchTo taken ∉ e.labels) :
    branchPc e patched next d old cond taken = next.getD (endPc (d.branchTo taken) old) := by
  unfold branchPc
  dsimp only
  rw [if_pos h, if_neg hout]

theorem branchPc_other {old : BitVec 64} {cond taken : Bool} (h : taken ≠ cond)
    (hboth : ¬ (d.jumpPc ∈ e.labels ∧ d.nextPc ∈ e.labels)) :
    branchPc e patched next d old cond taken =
      if e.lookupTraceSlow (d.branchTo taken) = true ∨ patched (d.branchTo taken) = true then d.branchTo taken
      else storedPc (d.branchTo taken) := by
  unfold branchPc
  dsimp only
  rw [if_neg h]
  simp only [hboth, false_or]

theorem arrives_emitBranch (cond : Bool) {bf ibf : Cond} {taken : Bool} (h0 : guest s 0 = 0#64)
    (hbf : (Flags.cmp (guest s d.rs1) (guest s d.rs2)).holds bf = taken)
    (hibf : (Flags.cmp (guest s d.rs1) (guest s d.rs2)).holds ibf = !taken) :
    Arrives (emitBranch e d cond bf ibf).emitter patched next (exec (emitBranch e d cond bf ibf).code none s) (guest s)
      (branchPc e patched next d (pcSlot s) cond taken) := by
  obtain ⟨s', ⟨hslot, hguest⟩, hexec⟩ := exec_emitCmp (d := d) h0
  have hinst : ∀ e' pc, e'.labels = e.labels → pc ∈ e.labels → Arrives e' patched next (.left (.inst pc) s') (guest s) pc :=
    fun e' pc hlabels hin => ⟨s', if_pos (hlabels ▸ hin), hguest⟩
  have hleave := arrives_leaveFor e patched next s'
  have hdone := fun e' => arrives_done e' patched next s'
  rw [hguest] at hleave hdone
  rw [hslot] at hdone
  unfold emitBranch
  dsimp only
  split
  · -- Both ways are in the trace.
    next hboth =>
    rw [hexec, hbf]
    rw [branchPc_both e patched next hboth]
    cases taken with
    | true => exact hinst _ _ rfl hboth.1
    | false => exact hinst _ _ rfl hboth.2
  · next hboth =>
    split
    · next h =>
      obtain ⟨rfl, hin⟩ := h
      rw [hexec, hbf]
      cases taken with
      | true =>
        have hto : d.branchTo true ∈ e.labels := hin
        rw [branchPc_inside e patched next rfl hto]
        exact hinst _ _ (labels_leaveFor e _) hin
      | false =>
        rw [branchPc_other e patched next (by decide) hboth]
        exact hleave _ _
    · next hjump =>
      split
      · next h =>
        obtain ⟨rfl, hin⟩ := h
        rw [hexec, hibf]
        cases taken with
        | true =>
          rw [branchPc_other e patched next (by decide) hboth]
          exact hleave _ _
        | false =>
          have hto : d.branchTo false ∈ e.labels := hin
          rw [branchPc_inside e patched next rfl hto]
          exact hinst _ _ (labels_leaveFor e _) hin
      · next hnext =>
        split
        · next h =>
          subst h
          rw [hexec, hibf]
          cases taken with
          | true =>
            have hto : d.branchTo true ∉ e.labels := fun hin => hjump ⟨rfl, hin⟩
            rw [branchPc_on e patched next rfl hto]
            exact hdone _
          | false =>
            rw [branchPc_other e patched next (by decide) hboth]
            exact hleave _ _
        · next h =>
          obtain rfl : cond = false := Bool.not_eq_true _ ▸ h
          rw [hexec, hbf]
          cases taken with
          | true =>
            rw [branchPc_other e patched next (by decide) hboth]
            exact hleave _ _
          | false =>
            have hto : d.branchTo false ∉ e.labels := fun hin => hnext ⟨rfl, hin⟩
            rw [branchPc_on e patched next rfl hto]
            exact hdone _

end Branch

/-! ## Jumps and calls -/

section Jump
variable {d : JitDecode} {s : HostState} (e : Emitter) (patched : BitVec 64 → Bool) (next : Option (BitVec 64))

/-- Code that goes on, with a value in a guest register. -/
theorem arrives_of_ends {code : Code} {r : Nat} {v : BitVec 64} (h : Ends code s fun s' => guest s' r = v ∧ pcSlot s' = pcSlot s) :
    ∃ g, Arrives e patched next (exec code none s) g (next.getD (endPc e.termPc (pcSlot s))) ∧ g r = v := by
  obtain ⟨s', hexec, hr, hslot⟩ := h
  rw [hexec, ← hslot]
  exact ⟨guest s', arrives_done e patched next s', hr⟩

theorem arrives_emitJal (h0 : guest s 0 = 0#64) :
    ∃ g, Arrives (emitJal e d).emitter patched next (exec (emitJal e d).code none s) g (next.getD (endPc d.jumpPc (pcSlot s))) ∧
      g d.rd = if d.rd = 0 then 0#64 else d.nextPc := by
  unfold emitJal
  dsimp only
  split
  · next hrd =>
    apply arrives_of_ends
    rw [ends_nil, hrd]
    exact ⟨h0, rfl⟩
  · apply arrives_of_ends
    refine (ends_emitAddr (Decidable.em _) d.nextPc).mono ?_
    rintro s' ⟨hsets, hslot⟩
    rw [ite_self] at hsets
    exact ⟨hsets.guest_rd, hslot⟩

theorem arrives_emitCall (hrs1 : d.rs1 = 0) :
    ∃ g, Arrives (emitCall e d).emitter patched next (exec (emitCall e d).code none s) g
        (next.getD (endPc d.jumpPc (pcSlot s))) ∧ g rvIregRa = d.nextPc + 4 := by
  have hra : 0 < x86Reg rvIregRa := by decide
  have htemp : Ends (if d.rd = rvIregRa then [] else emitAddr d.rd d.rs1 d.jumpPc) s fun s' => pcSlot s' = pcSlot s := by
    split
    · rw [ends_nil]
    · have hslot : ¬ 0 < x86Reg d.rs1 := by
        rw [hrs1]
        decide
      exact (ends_emitAddr (.inr hslot) d.jumpPc).mono fun s' hs' => hs'.2
  apply arrives_of_ends
  refine htemp.append fun s1 hs1 => (ends_emitAddr (.inl hra) (d.nextPc + 4)).mono ?_
  rintro s' ⟨hsets, hslot⟩
  rw [if_pos hra] at hsets
  exact ⟨hsets.guest_rd, hslot.trans hs1⟩

theorem arrives_emitIndirect (h0 : guest s 0 = 0#64) :
    ∃ g, Arrives (emitIndirect e d).emitter patched next (exec (emitIndirect e d).code none s) g
        (if d.rs1 = 0 then pcSlot s else guest s d.rs1 + d.imm.signExtend 64) ∧
      g d.rd = if d.rd = 0 then 0#64 else d.nextPc := by
  obtain ⟨s', hexec, hpc, hlink⟩ := exec_emitIndirect (d := d) e h0
  rw [hexec, ← hpc]
  exact ⟨guest s', ⟨s', rfl, rfl⟩, hlink⟩

/-- The comparison is with the low half of the link, sign-extended. -/
theorem exec_emitReturn (linkAddr : BitVec 64) (callstack : List (BitVec 64)) :
    ∃ s', Stays (pcSlot s) s s' ∧ exec (emitReturn e d linkAddr callstack).code none s =
      if guest s rvIregRa = (linkAddr.setWidth 32).signExtend 64 then .done s' else .left (.exitTramp d.pc) s' := by
  refine ⟨s.setFlags (.cmp (guest s rvIregRa) ((linkAddr.setWidth 32).signExtend 64)), .of_guest rfl (by simp), ?_⟩
  unfold emitReturn
  rw [exec_straight _ _ rfl]
  show exec ([.jcc .ne (.exitTramp d.pc)] : Code) none (s.setFlags (.cmp (guest s rvIregRa) ((linkAddr.setWidth 32).signExtend 64))) = _
  rw [exec_jcc _ _ _ rfl, holds_cmp_ne]
  by_cases h : guest s rvIregRa = (linkAddr.setWidth 32).signExtend 64
  · rw [if_pos h, decide_eq_true h]
    rfl
  · rw [if_neg h, decide_eq_false h]
    rfl

theorem arrives_emitReturn {linkAddr : BitVec 64} (callstack : List (BitVec 64))
    (hra : guest s rvIregRa = (linkAddr.setWidth 32).signExtend 64) :
    Arrives (emitReturn e d linkAddr callstack).emitter patched next (exec (emitReturn e d linkAddr callstack).code none s) (guest s)
      (next.getD (pcSlot s)) := by
  obtain ⟨s', ⟨hslot, hguest⟩, hexec⟩ := exec_emitReturn (d := d) (s := s) e linkAddr callstack
  rw [hexec, if_pos hra, ← hguest, ← hslot]
  exact arrives_done _ patched next s'

/-- Where the prediction fails, the trace is left in front of the return. -/
theorem arrive_emitReturn {linkAddr : BitVec 64} (callstack : List (BitVec 64))
    (hra : guest s rvIregRa ≠ (linkAddr.setWidth 32).signExtend 64) :
    ∃ s', arrive (emitReturn e d linkAddr callstack).emitter patched next
        (exec (emitReturn e d linkAddr callstack).code none s) =
      some { pc := storedPc d.pc, state := s', before := true } ∧ guest s' = guest s := by
  obtain ⟨s1, ⟨-, hguest⟩, hexec⟩ := exec_emitReturn (d := d) (s := s) e linkAddr callstack
  obtain ⟨s', harrive, hguest'⟩ := arriveBy_emitPc s1 d.pc true
  rw [hexec, if_neg hra]
  exact ⟨s', (if_pos (mem_createExitTramp e d.pc)).trans harrive, hguest'.trans hguest⟩

end Jump

end Rv8.Jit
