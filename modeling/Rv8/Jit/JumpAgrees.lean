import Rv8.Emu.Runloop
import Rv8.Jit.Agrees
import Rv8.Jit.Jump
/-!
# Agreement of jumps

The code for a jump, from a state of the host with the registers of the guest, against
the interpreter on the instructions that the jump was handed over for. The trace was
recorded from another state at the same pc; it goes on with what was executed next, or
it ends.
-/

namespace Rv8.Jit

open Rv8.Asm Rv8.Lib.X86

/-! ## The interpreter -/

section Interpret
variable {σ : Type} (port : Emu.Port σ) (host : Emu.Host) (rv : Emu.Ext → Bool)

/-- The interpreter executes instructions in order. -/
def interpret : List JitDecode → Emu.Machine .rv64 σ → Option (Emu.Machine .rv64 σ)
  | [], m => some m
  | d :: ds, m =>
    match d.op with
    | .rv op =>
      match Emu.execInstRv64 port host rv (d.dec op) (BitVec.ofNat 64 d.length) m with
      | .ok offset m' => interpret ds (m'.retire offset)
      | _ => none
    | _ => none

theorem ireg_writeRd_self (h : Emu.Hart .rv64) (rd : Nat) {v v' : BitVec 64} (hv : v = v') :
    (h.writeRd rd v).ireg rd = if rd = 0 then 0#64 else v' := hv ▸ if_pos rfl

variable {rv} {d : JitDecode} {op : RvOp} {m : Emu.Machine .rv64 σ}

theorem interpret_cons (ds : List JitDecode) (hd : d.op = .rv op) {offset : BitVec 64} {m' : Emu.Machine .rv64 σ}
    (h : Emu.execInstRv64 port host rv (d.dec op) (BitVec.ofNat 64 d.length) m = .ok offset m') :
    interpret port host rv (d :: ds) m = interpret port host rv ds (m'.retire offset) := by
  rw [interpret, hd]
  dsimp only
  rw [h]

theorem interpret_branch (hi : rv .i = true) (hd : d.op = .rv op) {b : Bool}
    (ha : Emu.action host m.hart (d.dec op) op = some (.i, .branch b)) :
    interpret port host rv [d] m = some (m.retire (if b then d.imm.signExtend 64 else BitVec.ofNat 64 d.length)) :=
  interpret_cons port host [] hd (Emu.execInst_of_action ha hi)

theorem interpret_jump (ds : List JitDecode) (hi : rv .i = true) (hd : d.op = .rv op) {offset : BitVec 64}
    (ha : Emu.action host m.hart (d.dec op) op = some (.i, .jump offset)) :
    interpret port host rv (d :: ds) m = interpret port host rv ds
      (Emu.Machine.retire { m with hart := m.hart.writeRd d.rd (m.hart.pc + BitVec.ofNat Emu.Rv.rv64.xlen d.length) } offset) :=
  interpret_cons port host ds hd (Emu.execInst_jump ha hi)

theorem interpret_setRd (ds : List JitDecode) (hi : rv .i = true) (hd : d.op = .rv op) {v : BitVec 64}
    (ha : Emu.action host m.hart (d.dec op) op = some (.i, .setRd v)) :
    interpret port host rv (d :: ds) m = interpret port host rv ds
      (Emu.Machine.retire { m with hart := m.hart.writeRd d.rd v } (BitVec.ofNat 64 d.length)) :=
  interpret_cons port host ds hd (Emu.execInst_setRd ha hi)

end Interpret

/-! ## Agreement -/

/-- The register that a jump puts its link into. -/
def linkReg (d : JitDecode) : Nat :=
  match d.op with
  | .rv .jal | .rv .jalr => d.rd
  | .call => rvIregRa
  | _ => 0

section Agreement
variable {σ : Type} (port : Emu.Port σ) (host : Emu.Host) (rv : Emu.Ext → Bool) (e : Emitter) (patched : BitVec 64 → Bool)
  (goesOn : Bool) (ds : List JitDecode) (d : JitDecode) (s : HostState) (recorded m : Emu.Machine .rv64 σ)

/-- The guest has come to where the interpreter has, with the same link. Where the trace was left in front of the
instruction, the interpreter has yet to execute it. -/
def Arrival.Agrees (a : Arrival) : Prop :=
  if a.before then a.pc = m.hart.pc ∧ guest a.state = m.hart.ireg
  else ∃ m', interpret port host rv ds m = some m' ∧ a.pc = m'.hart.pc ∧ guest a.state (linkReg d) = m'.hart.ireg (linkReg d)

/-- The pc of the instruction that was recorded next, in a trace that goes on. -/
def nextRecorded : Option (BitVec 64) :=
  if goesOn then (interpret port host rv ds recorded).map fun r => r.hart.pc else none

/-- The code that is emitted for `d`, which `ds` were fused to, agrees with the interpreter. -/
def JumpAgrees : Prop :=
  ∃ em a, emitJump e d recorded.hart.ireg = some em ∧
    arrive em.emitter patched (nextRecorded port host rv goesOn ds recorded) (exec em.code none s) = some a ∧
    a.Agrees port host rv ds d m

end Agreement

/-! ## Where the code is right -/

section Right
variable (e : Emitter) (patched : BitVec 64 → Bool) (goesOn : Bool) (old : BitVec 64) (y x : Nat → BitVec 64)

/-- `end()` leaves `pc` in the slot, the pc of the last instruction being `termPc`: none is stored for 0, and what is
stored may be 2^32 less. -/
def EndsAt (termPc pc : BitVec 64) : Prop :=
  if termPc = 0 then old = pc else if PcFits termPc then termPc = pc else termPc = pc + 0x100000000#64

/-- The condition of a branch. -/
def taken (d : JitDecode) : RvOp → Bool
  | .beq => x d.rs1 = x d.rs2
  | .bne => x d.rs1 ≠ x d.rs2
  | .blt => (x d.rs1).slt (x d.rs2)
  | .bge => !(x d.rs1).slt (x d.rs2)
  | .bltu => x d.rs1 < x d.rs2
  | .bgeu => ¬ x d.rs1 < x d.rs2
  | _ => false

/-- The way that was recorded is in the trace, or it is the end of the trace; for the other way there is code or its pc is one
that can be stored. -/
def BranchRight (d : JitDecode) (op : RvOp) : Prop :=
  let pc := d.branchTo (taken x d op)
  if taken x d op = taken y d op then pc ∈ e.labels ∨ goesOn = true ∨ EndsAt old pc pc
  else (d.jumpPc ∈ e.labels ∧ d.nextPc ∈ e.labels) ∨ e.lookupTraceSlow pc = true ∨ patched pc = true ∨ PcFits pc

def JalRight (d : JitDecode) : Prop := goesOn = true ∨ EndsAt old d.jumpPc d.jumpPc

/-- `jalr` clears the lowest bit of the offset from `pc`. -/
def jalrTarget (pc target : BitVec 64) : BitVec 64 := pc + ((target - pc) &&& ~~~1)

/-- A predicted return goes where the recorded one went, and stops at a pc that can be stored; any other jump is not through `x0`
and its target is as far from the pc as it has to be. -/
def JalrRight (d : JitDecode) : Prop :=
  let target := x d.rs1 + d.imm.signExtend 64
  match (if d.rd = 0 ∧ d.rs1 = rvIregRa then e.callstack else []) with
  | linkAddr :: _ =>
    if x rvIregRa = (linkAddr.setWidth 32).signExtend 64 then
      (if goesOn then jalrTarget d.pc (y rvIregRa + d.imm.signExtend 64) else old) = jalrTarget d.pc target
    else PcFits d.pc
  | [] => if d.rs1 = 0 then old = jalrTarget d.pc target else target.getLsbD 0 = d.pc.getLsbD 0

/-- What the second of two fused instructions computes from the first. -/
def fusedSum (a j : JitDecode) : BitVec 64 := (if a.rd = 0 then 0 else a.pc + a.imm.signExtend 64) + j.imm.signExtend 64

def CallRight (d a j : JitDecode) : Prop :=
  let linkAddr := d.nextPc + 4
  match j.op with
  | .rv .jalr => goesOn = true ∨ EndsAt old d.jumpPc (jalrTarget (a.pc + 4) (fusedSum a j))
  | _ => fusedSum a j = linkAddr ∧ (goesOn = true ∨ EndsAt old d.jumpPc linkAddr)

/-- Where the code for a jump is right, by what it is emitted and executed with. -/
def JumpRight (ds : List JitDecode) (d : JitDecode) : Prop :=
  match d.op, ds with
  | .rv .jal, _ => JalRight goesOn old d
  | .rv .jalr, _ => JalrRight e goesOn old y x d
  | .rv op, _ => BranchRight e patched goesOn old y x d op
  | .call, [a, j] => CallRight goesOn old d a j
  | _, _ => False

end Right

theorem endPc_eq_iff {termPc old pc : BitVec 64} : endPc termPc old = pc ↔ EndsAt old termPc pc := by
  unfold endPc EndsAt
  split
  · rfl
  · exact storedPc_eq_iff

section Proofs
variable {σ : Type} {port : Emu.Port σ} {host : Emu.Host} {rv : Emu.Ext → Bool} {e : Emitter} {patched : BitVec 64 → Bool}
  {goesOn : Bool} {ds : List JitDecode} {d : JitDecode} {s : HostState} {recorded m : Emu.Machine .rv64 σ}

theorem nextRecorded_getD {r : Emu.Machine .rv64 σ} (hr : interpret port host rv ds recorded = some r) (pc : BitVec 64) :
    (nextRecorded port host rv goesOn ds recorded).getD pc = if goesOn then r.hart.pc else pc := by
  unfold nextRecorded
  rw [hr]
  cases goesOn <;> rfl

theorem jumpAgrees_iff {em : EmittedJump} {g : Nat → BitVec 64} {pc : BitVec 64} {m' : Emu.Machine .rv64 σ}
    (hem : emitJump e d recorded.hart.ireg = some em)
    (harrive : Arrives em.emitter patched (nextRecorded port host rv goesOn ds recorded) (exec em.code none s) g pc)
    (hm : interpret port host rv ds m = some m') :
    JumpAgrees port host rv e patched goesOn ds d s recorded m ↔
      pc = m'.hart.pc ∧ g (linkReg d) = m'.hart.ireg (linkReg d) := by
  obtain ⟨s', ha, rfl⟩ := harrive
  constructor
  · rintro ⟨em', a, hem', ha', hagrees⟩
    obtain rfl : em = em' := Option.some.inj (hem.symm.trans hem')
    obtain rfl := Option.some.inj (ha.symm.trans ha')
    obtain ⟨m'', hm'', hagrees⟩ := hagrees
    rw [hm] at hm''
    cases hm''
    exact hagrees
  · intro hagrees
    exact ⟨em, _, hem, ha, m', hm, hagrees⟩

/-- Once the guest has arrived with the right link, what is left is the pc. -/
theorem jumpAgrees_iff_pc {em : EmittedJump} {g : Nat → BitVec 64} {pc : BitVec 64} {m' : Emu.Machine .rv64 σ}
    (hem : emitJump e d recorded.hart.ireg = some em)
    (harrive : Arrives em.emitter patched (nextRecorded port host rv goesOn ds recorded) (exec em.code none s) g pc)
    (hm : interpret port host rv ds m = some m') (hlink : g (linkReg d) = m'.hart.ireg (linkReg d)) :
    JumpAgrees port host rv e patched goesOn ds d s recorded m ↔ pc = m'.hart.pc := by
  rw [jumpAgrees_iff hem harrive hm, and_iff_left hlink]

theorem jumpAgrees_iff_before {em : EmittedJump} {pc : BitVec 64} (hem : emitJump e d recorded.hart.ireg = some em)
    (harrive : ∃ s', arrive em.emitter patched (nextRecorded port host rv goesOn ds recorded) (exec em.code none s) =
      some { pc, state := s', before := true } ∧ guest s' = m.hart.ireg) :
    JumpAgrees port host rv e patched goesOn ds d s recorded m ↔ pc = m.hart.pc := by
  obtain ⟨s', ha, hguest⟩ := harrive
  constructor
  · rintro ⟨em', a, hem', ha', hagrees⟩
    obtain rfl : em = em' := Option.some.inj (hem.symm.trans hem')
    obtain rfl := Option.some.inj (ha.symm.trans ha')
    exact hagrees.1
  · intro hpc
    exact ⟨em, _, hem, ha, hpc, hguest⟩

/-! ## Branches -/

theorem pc_branch {b : Bool} (hpc : m.hart.pc = d.pc) :
    (m.retire (if b then d.imm.signExtend 64 else BitVec.ofNat 64 d.length)).hart.pc = d.branchTo b := by
  show m.hart.pc + _ = _
  rw [hpc]
  cases b <;> rfl

/-- The conditions that `emit_branch` is given, for a branch that is taken and for one that is not. -/
inductive Conds : RvOp → Cond → Cond → Prop
  | beq : Conds .beq .e .ne
  | bne : Conds .bne .ne .e
  | blt : Conds .blt .l .ge
  | bge : Conds .bge .ge .l
  | bltu : Conds .bltu .b .ae
  | bgeu : Conds .bgeu .ae .b

namespace Conds

variable {op : RvOp} {bf ibf : Cond} (h : Conds op bf ibf)
include h

theorem emitJump (hd : d.op = .rv op) (x : Nat → BitVec 64) :
    Jit.emitJump e d x = some (emitBranch e d (taken x d op) bf ibf) := by
  unfold Jit.emitJump
  rw [hd]
  cases h <;> rfl

theorem action : Emu.action host m.hart (d.dec op) op = some (.i, .branch (taken m.hart.ireg d op)) := by
  cases h <;> rfl

theorem holds_bf (x : Nat → BitVec 64) : (Flags.cmp (x d.rs1) (x d.rs2)).holds bf = taken x d op := by
  cases h with
  | beq => exact holds_cmp_e _ _
  | bne => exact (holds_cmp_ne _ _).trans decide_not.symm
  | blt => exact holds_cmp_l _ _
  | bge => exact holds_cmp_ge _ _
  | bltu => exact holds_cmp_b _ _
  | bgeu => exact (holds_cmp_ae _ _).trans decide_not.symm

theorem holds_ibf (f : Flags) : f.holds ibf = !f.holds bf := by
  cases h with
  | beq => rfl
  | bne => exact (Bool.not_not _).symm
  | blt =>
    unfold Flags.holds
    cases f.sf <;> cases f.of <;> rfl
  | bge =>
    unfold Flags.holds
    cases f.sf <;> cases f.of <;> rfl
  | bltu => rfl
  | bgeu => exact (Bool.not_not _).symm

end Conds

theorem branch_agrees_iff {op : RvOp} {bf ibf : Cond} (hc : Conds op bf ibf) (hi : rv .i = true) (hd : d.op = .rv op)
    (hpc : m.hart.pc = d.pc) (hpc' : recorded.hart.pc = d.pc) (h0 : guest s 0 = 0#64) (hs : guest s = m.hart.ireg) :
    JumpAgrees port host rv e patched goesOn [d] d s recorded m ↔
      BranchRight e patched goesOn (pcSlot s) recorded.hart.ireg m.hart.ireg d op := by
  have hbf := hc.holds_bf (d := d) (guest s)
  have harrive := arrives_emitBranch e patched (nextRecorded port host rv goesOn [d] recorded) (taken recorded.hart.ireg d op) h0 hbf
    ((hc.holds_ibf _).trans (congrArg _ hbf))
  have hm := interpret_branch port host hi hd (hc.action (m := m))
  have hr := interpret_branch port host hi hd (hc.action (m := recorded))
  rw [jumpAgrees_iff_pc (hc.emitJump hd _) harrive hm (congrFun hs _), pc_branch hpc, ← hs]
  unfold BranchRight
  dsimp only
  by_cases htaken : taken (guest s) d op = taken recorded.hart.ireg d op
  · rw [if_pos htaken]
    by_cases hin : d.branchTo (taken (guest s) d op) ∈ e.labels
    · rw [branchPc_inside e patched _ htaken hin]
      exact iff_of_true rfl (.inl hin)
    · rw [branchPc_on e patched _ htaken hin, nextRecorded_getD hr, pc_branch hpc', ← htaken, or_iff_right hin]
      cases goesOn with
      | true => exact iff_of_true rfl (.inl rfl)
      | false =>
        rw [or_iff_right (by decide)]
        exact endPc_eq_iff
  · rw [if_neg htaken]
    by_cases hboth : d.jumpPc ∈ e.labels ∧ d.nextPc ∈ e.labels
    · rw [branchPc_both e patched _ hboth]
      exact iff_of_true rfl (.inl hboth)
    · rw [branchPc_other e patched _ htaken hboth, or_iff_right hboth, ← or_assoc]
      split
      · next hcode => exact iff_of_true rfl (.inl hcode)
      · next hcode => rw [or_iff_right hcode, storedPc_self]

/-! ## Jumps and calls -/

variable (port host) in
/-- A jump that the interpreter executes. -/
theorem interpret_link {op : RvOp} (hi : rv .i = true) (hd : d.op = .rv op) {offset : BitVec 64}
    (ha : Emu.action host m.hart (d.dec op) op = some (.i, .jump offset)) (hpc : m.hart.pc = d.pc) :
    ∃ m', interpret port host rv [d] m = some m' ∧ m'.hart.pc = d.pc + offset ∧
      m'.hart.ireg d.rd = if d.rd = 0 then 0#64 else d.nextPc := by
  refine ⟨_, interpret_jump port host [] hi hd ha, congrArg (fun pc : BitVec 64 => pc + offset) hpc,
    ireg_writeRd_self m.hart d.rd ?_⟩
  exact congrArg (fun pc : BitVec 64 => pc + BitVec.ofNat 64 d.length) hpc

theorem linkReg_of {op : RvOp} (hd : d.op = .rv op) (hop : op = .jal ∨ op = .jalr) : linkReg d = d.rd := by
  unfold linkReg
  rw [hd]
  rcases hop with rfl | rfl <;> rfl

theorem jal_agrees_iff (hi : rv .i = true) (hd : d.op = .rv .jal) (hpc : m.hart.pc = d.pc) (hpc' : recorded.hart.pc = d.pc)
    (h0 : guest s 0 = 0#64) :
    JumpAgrees port host rv e patched goesOn [d] d s recorded m ↔ JalRight goesOn (pcSlot s) d := by
  obtain ⟨m', hm, hmpc, hmlink⟩ := interpret_link port host hi hd rfl hpc
  obtain ⟨r, hr, hrpc, -⟩ := interpret_link port host hi hd rfl hpc'
  have hem : emitJump e d recorded.hart.ireg = some (emitJal e d) := by
    unfold emitJump
    rw [hd]
  obtain ⟨g, harrive, hlink⟩ := arrives_emitJal (d := d) e patched (nextRecorded port host rv goesOn [d] recorded) h0
  rw [jumpAgrees_iff_pc hem harrive hm (by rw [linkReg_of hd (.inl rfl), hlink, hmlink]), nextRecorded_getD hr, hrpc, hmpc]
  unfold JalRight
  cases goesOn with
  | true => exact iff_of_true rfl (.inl rfl)
  | false =>
    rw [or_iff_right (by decide)]
    exact endPc_eq_iff

variable (port host) in
theorem interpret_jalr (hi : rv .i = true) (hd : d.op = .rv .jalr) (hpc : m.hart.pc = d.pc) {x : Nat → BitVec 64}
    (hx : m.hart.ireg = x) :
    ∃ m', interpret port host rv [d] m = some m' ∧
      m'.hart.pc = jalrTarget d.pc (x d.rs1 + d.imm.signExtend 64) ∧
      m'.hart.ireg d.rd = if d.rd = 0 then 0#64 else d.nextPc := by
  obtain ⟨m', hm, hmpc, hmlink⟩ := interpret_link port host hi hd rfl hpc
  refine ⟨m', hm, hmpc.trans ?_, hmlink⟩
  exact congrArg₂ (fun x pc : BitVec 64 => d.pc + ((x + d.imm.signExtend 64 - pc) &&& ~~~1)) (congrFun hx d.rs1) hpc

/-- The target keeps its lowest bit in the slot. -/
theorem eq_jalrTarget_iff {pc target : BitVec 64} : target = jalrTarget pc target ↔ target.getLsbD 0 = pc.getLsbD 0 := by
  have hoffset : (target - pc).getLsbD 0 = (target.getLsbD 0 ^^ pc.getLsbD 0) := by
    have hsum : (pc + (target - pc)).getLsbD 0 = (pc.getLsbD 0 ^^ (target - pc).getLsbD 0) := getLsbD_zero_add _ _
    have htarget : pc + (target - pc) = target := by bv_omega
    rw [htarget] at hsum
    rw [hsum]
    cases pc.getLsbD 0 <;> simp
  unfold jalrTarget
  constructor
  · intro h
    have heven := even_and_not_one (target - pc)
    have hsub : (target - pc) &&& ~~~1 = target - pc := by
      have := (BitVec.add_right_inj _).mp (h.symm.trans (by bv_omega : target = pc + (target - pc)))
      exact this
    rw [hsub, hoffset] at heven
    simpa using heven
  · intro h
    rw [and_not_one (by rw [hoffset, h, Bool.xor_self])]
    bv_omega

theorem indirect_agrees_iff (hi : rv .i = true) (hd : d.op = .rv .jalr) (hpc : m.hart.pc = d.pc) (h0 : guest s 0 = 0#64)
    (hs : guest s = m.hart.ireg) (hem : emitJump e d recorded.hart.ireg = some (emitIndirect e d)) :
    JumpAgrees port host rv e patched goesOn [d] d s recorded m ↔
      if d.rs1 = 0 then pcSlot s = jalrTarget d.pc (guest s d.rs1 + d.imm.signExtend 64)
      else (guest s d.rs1 + d.imm.signExtend 64).getLsbD 0 = d.pc.getLsbD 0 := by
  obtain ⟨m', hm, hmpc, hmlink⟩ := interpret_jalr port host hi hd hpc hs.symm
  obtain ⟨g, harrive, hlink⟩ := arrives_emitIndirect (d := d) e patched (nextRecorded port host rv goesOn [d] recorded) h0
  rw [jumpAgrees_iff_pc hem harrive hm (by rw [linkReg_of hd (.inr rfl), hlink, hmlink]), hmpc]
  split
  · rfl
  · exact eq_jalrTarget_iff

theorem jalr_agrees_iff (hi : rv .i = true) (hd : d.op = .rv .jalr) (hpc : m.hart.pc = d.pc) (hpc' : recorded.hart.pc = d.pc)
    (h0 : guest s 0 = 0#64) (hs : guest s = m.hart.ireg) :
    JumpAgrees port host rv e patched goesOn [d] d s recorded m ↔
      JalrRight e goesOn (pcSlot s) recorded.hart.ireg m.hart.ireg d := by
  have hem : emitJump e d recorded.hart.ireg = some (emitJalr e d) := by
    unfold emitJump
    rw [hd]
  unfold JalrRight
  rw [← hs]
  dsimp only
  by_cases hret : d.rd = 0 ∧ d.rs1 = rvIregRa
  · rw [if_pos hret]
    rcases hcall : e.callstack with - | ⟨linkAddr, callstack⟩
    · have hem' : emitJalr e d = emitIndirect e d := by
        unfold emitJalr
        rw [if_pos hret, hcall]
      exact indirect_agrees_iff hi hd hpc h0 hs (hem.trans (congrArg some hem'))
    · have hem' : emitJalr e d = emitReturn e d linkAddr callstack := by
        unfold emitJalr
        rw [if_pos hret, hcall]
      rw [hem'] at hem
      dsimp only
      split
      · next hra =>
        obtain ⟨m', hm, hmpc, hmlink⟩ := interpret_jalr port host hi hd hpc hs.symm
        obtain ⟨r, hr, hrpc, -⟩ := interpret_jalr port host hi hd hpc' rfl
        have harrive := arrives_emitReturn (d := d) e patched (nextRecorded port host rv goesOn [d] recorded) callstack hra
        rw [jumpAgrees_iff_pc hem harrive hm (by rw [linkReg_of hd (.inr rfl), hmlink, hret.1]; exact h0), nextRecorded_getD hr,
          hrpc, hmpc, hret.2]
        exact Iff.rfl
      · next hra =>
        refine (jumpAgrees_iff_before hem (hs ▸ arrive_emitReturn e patched _ callstack hra)).trans ?_
        rw [hpc, storedPc_self]
  · rw [if_neg hret]
    have hem' : emitJalr e d = emitIndirect e d := if_neg hret
    exact indirect_agrees_iff hi hd hpc h0 hs (hem.trans (congrArg some hem'))

section Call
variable {a j : JitDecode}

variable (port host) in
theorem interpret_auipc (hi : rv .i = true) (ha : a.op = .rv .auipc) (hlen : a.length = 4) (hpc : m.hart.pc = a.pc) :
    ∃ m1, (∀ ds, interpret port host rv (a :: ds) m = interpret port host rv ds m1) ∧ m1.hart.pc = a.pc + 4#64 ∧
      m1.hart.ireg a.rd = if a.rd = 0 then 0#64 else a.pc + a.imm.signExtend 64 := by
  refine ⟨_, fun ds => interpret_setRd port host ds hi ha rfl, ?_, ireg_writeRd_self m.hart a.rd ?_⟩
  · rw [hlen]
    exact congrArg (fun pc : BitVec 64 => pc + 4#64) hpc
  · exact congrArg (fun pc : BitVec 64 => pc + a.imm.signExtend 64) hpc

variable (port host) in
/-- An `auipc` and a `jalr` go to a target that depends on no register. -/
theorem interpret_auipc_jalr (h : Traced [a, j]) (hi : rv .i = true) (ha : a.op = .rv .auipc) (hj : j.op = .rv .jalr)
    (hrs1 : a.rd = j.rs1) (hra : j.rd = rvIregRa) (hpc : m.hart.pc = a.pc) :
    ∃ m', interpret port host rv [a, j] m = some m' ∧ m'.hart.pc = jalrTarget (a.pc + 4) (fusedSum a j) ∧
      m'.hart.ireg rvIregRa = a.pc + 4#64 + BitVec.ofNat 64 j.length := by
  have hlen := (h.auipc a (by simp) ha).1
  have hjpc := h.follows [] a j [] rfl (.inl ha)
  rw [hlen] at hjpc
  obtain ⟨m1, hm1, hpc1, hreg1⟩ := interpret_auipc port host hi ha hlen hpc
  obtain ⟨m', hm', hpc', hlink⟩ := interpret_jalr port host hi hj (hpc1.trans hjpc.symm) rfl
  rw [← hrs1, hreg1, hjpc] at hpc'
  rw [hra, if_neg (by decide)] at hlink
  refine ⟨m', (hm1 [j]).trans hm', hpc', hlink.trans ?_⟩
  unfold JitDecode.nextPc
  rw [hjpc]

variable (port host) in
theorem interpret_auipc_addi (h : Traced [a, j]) (hi : rv .i = true) (ha : a.op = .rv .auipc) (hj : j.op = .rv .addi)
    (hrs1 : a.rd = j.rs1) (hra : j.rd = rvIregRa) (hpc : m.hart.pc = a.pc) :
    ∃ m', interpret port host rv [a, j] m = some m' ∧ m'.hart.pc = a.pc + 4#64 + BitVec.ofNat 64 j.length ∧
      m'.hart.ireg rvIregRa = fusedSum a j := by
  have hlen := (h.auipc a (by simp) ha).1
  obtain ⟨m1, hm1, hpc1, hreg1⟩ := interpret_auipc port host hi ha hlen hpc
  refine ⟨_, (hm1 [j]).trans (interpret_setRd port host [] hi hj rfl), ?_, ?_⟩
  · exact congrArg (fun pc : BitVec 64 => pc + BitVec.ofNat 64 j.length) hpc1
  · have hne : ¬ rvIregRa = 0 := by decide
    rw [hra]
    refine (ireg_writeRd_self m1.hart rvIregRa ?_).trans (if_neg hne)
    have hreg := (congrArg m1.hart.ireg hrs1.symm).trans hreg1
    exact congrArg (fun x : BitVec 64 => x + j.imm.signExtend 64) hreg

theorem call_agrees_iff (h : Traced [a, j]) (hi : rv .i = true) (ha : a.op = .rv .auipc)
    (hj : j.op = .rv .jalr ∨ (j.op = .rv .addi ∧ a.rd ≠ j.rd)) (hrs1 : a.rd = j.rs1) (hra : j.rd = rvIregRa)
    (hpc : m.hart.pc = a.pc) (hpc' : recorded.hart.pc = a.pc) {imm : BitVec 32}
    (hd : d = { pc := a.pc, inst := j.inst, op := .call, rd := j.rs1, imm }) :
    JumpAgrees port host rv e patched goesOn [a, j] d s recorded m ↔ CallRight goesOn (pcSlot s) d a j := by
  have hop : d.op = .call := by rw [hd]
  have hem : emitJump e d recorded.hart.ireg = some (emitCall e d) := by
    unfold emitJump
    rw [hop]
  have hlink : linkReg d = rvIregRa := by
    unfold linkReg
    rw [hop]
  have hnext : d.nextPc + 4 = a.pc + 4#64 + BitVec.ofNat 64 j.length := by
    rw [hd]
    show a.pc + BitVec.ofNat 64 j.length + 4#64 = _
    bv_omega
  obtain ⟨g, harrive, hg⟩ := arrives_emitCall (d := d) (s := s) e patched (nextRecorded port host rv goesOn [a, j] recorded)
    (by rw [hd])
  unfold CallRight
  dsimp only
  rcases hj with hj | ⟨hj, -⟩
  · obtain ⟨m', hm, hmpc, hmlink⟩ := interpret_auipc_jalr port host h hi ha hj hrs1 hra hpc
    obtain ⟨r, hr, hrpc, -⟩ := interpret_auipc_jalr port host h hi ha hj hrs1 hra hpc'
    rw [jumpAgrees_iff_pc hem harrive hm (by rw [hlink, hg, hmlink, hnext]), nextRecorded_getD hr, hrpc, hmpc, hj]
    cases goesOn with
    | true => exact iff_of_true rfl (.inl rfl)
    | false => exact endPc_eq_iff.trans (or_iff_right (by decide)).symm
  · obtain ⟨m', hm, hmpc, hmlink⟩ := interpret_auipc_addi port host h hi ha hj hrs1 hra hpc
    obtain ⟨r, hr, hrpc, -⟩ := interpret_auipc_addi port host h hi ha hj hrs1 hra hpc'
    rw [jumpAgrees_iff hem harrive hm, nextRecorded_getD hr, hrpc, hmpc, hlink, hg, hmlink, ← hnext, hj, and_comm]
    refine and_congr eq_comm ?_
    cases goesOn with
    | true => exact iff_of_true rfl (.inl rfl)
    | false => exact endPc_eq_iff.trans (or_iff_right (by decide)).symm

end Call

/-- The code for a jump agrees with the interpreter, from every state of the two at its pc, exactly where it is right. -/
theorem jump_agrees_iff {em : EmittedJump} (hi : rv .i = true) (h : Traced ds) (hfuses : Fuses ds d)
    (hdecoded : ∀ i ∈ ds, ∃ op, i.op = .rv op) (hem : emitJump e d recorded.hart.ireg = some em) (hpc : m.hart.pc = d.pc)
    (hpc' : recorded.hart.pc = d.pc) (h0 : m.hart.ireg 0 = 0) (hs : guest s = m.hart.ireg) :
    JumpAgrees port host rv e patched goesOn ds d s recorded m ↔
      JumpRight e patched goesOn (pcSlot s) recorded.hart.ireg m.hart.ireg ds d := by
  have hx0 : guest s 0 = 0#64 := by
    rw [hs, h0]
    rfl
  cases hfuses with
  | plain d =>
    unfold JumpRight
    unfold emitJump at hem
    split at hem
    · next hd =>
      rw [hd]
      exact jal_agrees_iff hi hd hpc hpc' hx0
    · next hd =>
      rw [hd]
      exact jalr_agrees_iff hi hd hpc hpc' hx0 hs
    · next hd =>
      rw [hd]
      exact branch_agrees_iff .beq hi hd hpc hpc' hx0 hs
    · next hd =>
      rw [hd]
      exact branch_agrees_iff .bne hi hd hpc hpc' hx0 hs
    · next hd =>
      rw [hd]
      exact branch_agrees_iff .blt hi hd hpc hpc' hx0 hs
    · next hd =>
      rw [hd]
      exact branch_agrees_iff .bge hi hd hpc hpc' hx0 hs
    · next hd =>
      rw [hd]
      exact branch_agrees_iff .bltu hi hd hpc hpc' hx0 hs
    · next hd =>
      rw [hd]
      exact branch_agrees_iff .bgeu hi hd hpc hpc' hx0 hs
    · next hd =>
      obtain ⟨op, hop⟩ := hdecoded d (by simp)
      rw [hd] at hop
      cases hop
    · cases hem
  | call ha hj hrs1 hra => exact call_agrees_iff h hi ha hj hrs1 hra hpc hpc' rfl
  | la ha hj hrd hrs1 => cases hem
  | zextw ha himm hj hrd hrs1 himm' => cases hem
  | addiwz ha hars1 hb hbrd hbrs1 hbimm hj hrd hrs1 himm => cases hem

end Proofs

/-! ## Inputs -/

/-- A machine with one register that is not 0. -/
def guestAt (pc : BitVec 64) (r : Nat) (v : BitVec 64) : Emu.Machine .rv64 Emu.UserMemory :=
  Emu.bareMachine { (default : Emu.Hart .rv64) with pc, ireg := fun r' => if r' = r then v else 0 }

/-- A host that has entered a trace at `pc`. -/
def hostAt (pc : BitVec 64) (m : Emu.Machine .rv64 Emu.UserMemory) : HostState := (hostOf m.hart.ireg).putQ pc (.mem .pc)

theorem guest_hostAt (pc : BitVec 64) (m : Emu.Machine .rv64 Emu.UserMemory) : guest (hostAt pc m) = m.hart.ireg := by
  funext r
  exact (guest_putQ_pc _ pc r).trans (congrFun (guest_hostOf _) r)

/-- `beqz a0, 0x1008`, recorded with 5 in `a0`. -/
def beqzA0 : JitDecode := { pc := 0x1000, inst := 0x50463, imm := 8, op := .rv .beq, rs1 := 10 }

theorem traced_beqzA0 : Traced [beqzA0] where
  follows pre a d post h := by
    have hlen := congrArg List.length h
    simp only [List.length_append, List.length_cons, List.length_nil] at hlen
    omega
  length := by decide
  auipc := by decide

/-- The branch is taken where the trace goes on behind it. -/
theorem jump_agrees_beqz :
    JumpAgrees (Emu.mmuSoft .rv64) maskingHost (fun _ => true) { labels := [0x1000] } (fun _ => false) true [beqzA0] beqzA0
      (hostAt 0x1000 (guestAt 0x1000 10 0)) (guestAt 0x1000 10 5) (guestAt 0x1000 10 0) := by
  refine (jump_agrees_iff rfl traced_beqzA0 (.plain beqzA0) ?_ rfl rfl rfl rfl (guest_hostAt _ _)).mpr ?_
  · simp [beqzA0]
  · simp only [JumpRight, beqzA0]
    unfold BranchRight
    split
    · next h => exact absurd h (by decide)
    · exact .inr (.inr (.inr (by decide)))

/-- `jr 0x100(zero)` -/
def jrZero : JitDecode := { pc := 0x1000, inst := 0x10000067, imm := 0x100, op := .rv .jalr }

/-- The trace for 0x1000 is looked up again, and not one for 0x100. -/
theorem not_jump_agrees_jr :
    ¬ JumpAgrees (Emu.mmuSoft .rv64) maskingHost (fun _ => true) { labels := [0x1000] } (fun _ => false) false [jrZero] jrZero
      (hostAt 0x1000 (guestAt 0x1000 10 5)) (guestAt 0x1000 10 5) (guestAt 0x1000 10 5) := by
  rintro ⟨em, a, hem, ha, hagrees⟩
  cases hem
  have hjit : a.pc = 0x1000 := by
    cases ha
    rfl
  have hafter : a.before = false := by
    cases ha
    rfl
  unfold Arrival.Agrees at hagrees
  rw [hafter] at hagrees
  obtain ⟨m', hm, hpc, -⟩ := hagrees
  have hinterp : m'.hart.pc = 0x100 := by
    cases hm
    rfl
  rw [hjit, hinterp] at hpc
  exact absurd hpc (by decide : (0x1000 : BitVec 64) ≠ 0x100)

end Rv8.Jit
