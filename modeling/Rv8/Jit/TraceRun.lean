import Rv8.Jit.Trace
/-!
# An instruction of a trace against the interpreter

From the registers and the memory of the interpreter, the code for an instruction gets to
those that the interpreter gets to, at the pc it gets to, or stops at a signal where the
interpreter does. A fused instruction stands for two of the program.
-/

namespace Rv8.Jit

open Rv8.Asm Rv8.Lib.X86

/-! ## Arithmetic -/

section Arithmetic
variable {host : Emu.Host} {op : RvOp} {d : JitDecode} {code : Code} {s : HostState} {hart : Emu.Hart .rv64}

/-- The code leaves the registers that an assignment of the interpreter leaves. -/
def Assigns (host : Emu.Host) (hart : Emu.Hart .rv64) (d : JitDecode) (op : RvOp) (code : Code) (s : HostState) : Prop :=
  ∃ ext v, (ext = .i ∨ ext = .m) ∧ Emu.action host hart (d.dec op) op = some (ext, .setRd v) ∧
    Ends code s fun s' => guest s' = setReg (regs hart) d.rd v

/-- An assignment, or nothing for `x0`. -/
theorem ends_writeRd {v : BitVec 64} (h0 : guest s 0 = 0#64) (hs : guest s = regs hart) (hzero : d.rd = 0 → code = [])
    (h : d.rd ≠ 0 → Computes code s d.rd v) : Ends code s fun s' => guest s' = setReg (regs hart) d.rd v := by
  by_cases hrd : d.rd = 0
  · rw [hzero hrd, hrd, ends_nil, hs, setReg_zero]
    rw [← hs]
    exact h0
  · refine (h hrd).mono fun s' hsets => ?_
    funext r
    rw [hsets r, hs]
    exact (setReg_of_ne hrd v r).symm

theorem alu_of {ext : Emu.Ext} {v : BitVec 64} (h0 : guest s 0 = 0#64) (hs : guest s = regs hart) (hext : ext = .i ∨ ext = .m)
    (ha : Emu.action host hart (d.dec op) op = some (ext, .setRd v)) (hzero : d.rd = 0 → code = [])
    (h : d.rd ≠ 0 → Computes code s d.rd v) : Assigns host hart d op code s :=
  ⟨ext, v, hext, ha, ends_writeRd h0 hs hzero h⟩

/-- One case for each arithmetic instruction. -/
theorem assigns_emitAlu (hhost : MasksShifts host) (hcode : emitAlu d op = some code) (hshamt : ShamtFits d.imm op)
    (h0 : guest s 0 = 0#64) (hs : guest s = regs hart) (hright : AluRight d (regs hart) op) : Assigns host hart d op code s := by
  obtain ⟨⟨ireg, _⟩, _⟩ := hart
  subst hs
  unfold emitAlu at hcode
  split at hcode
  · cases hcode
    refine alu_of h0 rfl (.inl rfl) rfl (fun h => if_pos h) fun hrd => ?_
    exact computes_addi hrd h0
  · cases hcode
    refine alu_of h0 rfl (.inl rfl) rfl (fun h => if_pos h) fun hrd => ?_
    exact computes_slti hrd h0
  · cases hcode
    refine alu_of h0 rfl (.inl rfl) rfl (fun h => if_pos h) fun hrd => ?_
    exact computes_sltiu hrd h0
  · cases hcode
    refine alu_of h0 rfl (.inl rfl) rfl (fun h => if_pos h) fun hrd => ?_
    exact computes_oriXori hrd h0 .xor fun x => BitVec.zero_xor
  · cases hcode
    refine alu_of h0 rfl (.inl rfl) rfl (fun h => if_pos h) fun hrd => ?_
    exact computes_oriXori hrd h0 .or fun x => BitVec.zero_or
  · cases hcode
    refine alu_of h0 rfl (.inl rfl) rfl (fun h => if_pos h) fun hrd => ?_
    exact computes_andi hrd h0
  · cases hcode
    refine alu_of h0 rfl (.inl rfl) rfl (fun h => if_pos h) fun hrd => ?_
    exact (computes_shiftImm hrd h0 .shl).congr (shift_imm64 hhost .shl _ hshamt).symm
  · cases hcode
    refine alu_of h0 rfl (.inl rfl) rfl (fun h => if_pos h) fun hrd => ?_
    exact (computes_shiftImm hrd h0 .shr).congr (shift_imm64 hhost .shr _ hshamt).symm
  · cases hcode
    refine alu_of h0 rfl (.inl rfl) rfl (fun h => if_pos h) fun hrd => ?_
    exact (computes_shiftImm hrd h0 .sar).congr (shift_imm64 hhost .sar _ hshamt).symm
  · cases hcode
    refine alu_of h0 rfl (.inl rfl) rfl (fun h => if_pos h) fun hrd => ?_
    exact computes_add hrd h0
  · cases hcode
    refine alu_of h0 rfl (.inl rfl) rfl (fun h => if_pos h) fun hrd => ?_
    exact computes_sub hrd h0
  · cases hcode
    refine alu_of h0 rfl (.inl rfl) rfl (fun h => if_pos h) fun hrd => ?_
    exact (computes_shift hrd h0 .shl).congr (shift_reg64 hhost .shl _ _).symm
  · cases hcode
    refine alu_of h0 rfl (.inl rfl) rfl (fun h => if_pos h) fun hrd => ?_
    exact computes_slt hrd h0
  · cases hcode
    refine alu_of h0 rfl (.inl rfl) rfl (fun h => if_pos h) fun hrd => ?_
    exact computes_sltu hrd h0
  · cases hcode
    refine alu_of h0 rfl (.inl rfl) rfl (fun h => if_pos h) fun hrd => ?_
    exact computes_xor hrd h0
  · cases hcode
    refine alu_of h0 rfl (.inl rfl) rfl (fun h => if_pos h) fun hrd => ?_
    exact (computes_shift hrd h0 .shr).congr (shift_reg64 hhost .shr _ _).symm
  · cases hcode
    refine alu_of h0 rfl (.inl rfl) rfl (fun h => if_pos h) fun hrd => ?_
    exact (computes_shift hrd h0 .sar).congr (shift_reg64 hhost .sar _ _).symm
  · cases hcode
    refine alu_of h0 rfl (.inl rfl) rfl (fun h => if_pos h) fun hrd => ?_
    exact computes_or hrd h0
  · cases hcode
    refine alu_of h0 rfl (.inl rfl) rfl (fun h => if_pos h) fun hrd => ?_
    exact computes_and hrd h0
  · cases hcode
    refine alu_of h0 rfl (.inl rfl) rfl (fun h => if_pos h) fun hrd => ?_
    refine (computes_addiw hrd h0).congr ?_
    show _ = (guestW s d.rs1 + BitVec.ofInt 32 d.imm.toInt).signExtend 64
    rw [BitVec.ofInt_toInt]
  · cases hcode
    refine alu_of h0 rfl (.inl rfl) rfl (fun h => if_pos h) fun hrd => ?_
    exact (computes_shiftImmW hrd h0 .shl).congr (congrArg (BitVec.signExtend 64) (shift_imm32 .shl _ hshamt).symm)
  · cases hcode
    refine alu_of h0 rfl (.inl rfl) rfl (fun h => if_pos h) fun hrd => ?_
    exact (computes_shiftImmW hrd h0 .shr).congr (congrArg (BitVec.signExtend 64) (shift_imm32 .shr _ hshamt).symm)
  · cases hcode
    refine alu_of h0 rfl (.inl rfl) rfl (fun h => if_pos h) fun hrd => ?_
    exact (computes_shiftImmW hrd h0 .sar).congr (congrArg (BitVec.signExtend 64) (shift_imm32 .sar _ hshamt).symm)
  · cases hcode
    refine alu_of h0 rfl (.inl rfl) rfl (fun h => if_pos h) fun hrd => ?_
    exact (computes_addw_iff hrd h0).mpr (hright.resolve_left hrd)
  · cases hcode
    refine alu_of h0 rfl (.inl rfl) rfl (fun h => if_pos h) fun hrd => ?_
    exact computes_subw hrd h0
  · cases hcode
    refine alu_of h0 rfl (.inl rfl) rfl (fun h => if_pos h) fun hrd => ?_
    exact (computes_shiftW hrd h0 .shl).congr (congrArg (BitVec.signExtend 64) (shift_reg32 .shl _ _).symm)
  · cases hcode
    refine alu_of h0 rfl (.inl rfl) rfl (fun h => if_pos h) fun hrd => ?_
    exact (computes_shiftW hrd h0 .shr).congr (congrArg (BitVec.signExtend 64) (shift_reg32 .shr _ _).symm)
  · cases hcode
    refine alu_of h0 rfl (.inl rfl) rfl (fun h => if_pos h) fun hrd => ?_
    exact (computes_shiftW hrd h0 .sar).congr (congrArg (BitVec.signExtend 64) (shift_reg32 .sar _ _).symm)
  · cases hcode
    refine alu_of h0 rfl (.inr rfl) rfl (fun h => if_pos h) fun hrd => ?_
    exact computes_mul hrd h0
  · cases hcode
    refine alu_of h0 rfl (.inr rfl) rfl (fun h => if_pos h) fun hrd => ?_
    exact computes_mulh hrd h0
  · cases hcode
    refine alu_of h0 rfl (.inr rfl) rfl (fun h => if_pos h) fun hrd => ?_
    exact computes_mulhsu hrd h0
  · cases hcode
    refine alu_of h0 rfl (.inr rfl) rfl (fun h => if_pos h) fun hrd => ?_
    exact computes_mulhu hrd h0
  · cases hcode
    refine alu_of h0 rfl (.inr rfl) rfl (fun h => if_pos h) fun hrd => ?_
    have hdiv := computes_sdiv_iff .q hrd h0
    rw [BitVec.signExtend_eq, guestN_q, guestN_q] at hdiv
    exact hdiv.mpr (hright.resolve_left hrd)
  · cases hcode
    refine alu_of h0 rfl (.inr rfl) rfl (fun h => if_pos h) fun hrd => ?_
    have hdiv := computes_udiv_iff .q hrd h0
    rw [BitVec.signExtend_eq, guestN_q, guestN_q] at hdiv
    exact hdiv.mpr (hright.resolve_left hrd)
  · cases hcode
    refine alu_of h0 rfl (.inr rfl) rfl (fun h => if_pos h) fun hrd => ?_
    have hdiv := computes_srem_iff .q hrd h0
    rw [BitVec.signExtend_eq, guestN_q, guestN_q] at hdiv
    exact hdiv.mpr (hright.resolve_left hrd)
  · cases hcode
    refine alu_of h0 rfl (.inr rfl) rfl (fun h => if_pos h) fun hrd => ?_
    have hdiv := computes_urem_iff .q hrd h0
    rw [BitVec.signExtend_eq, guestN_q, guestN_q] at hdiv
    exact hdiv.mpr (hright.resolve_left hrd)
  · cases hcode
    refine alu_of h0 rfl (.inr rfl) rfl (fun h => if_pos h) fun hrd => ?_
    exact computes_mulw hrd h0
  · cases hcode
    refine alu_of h0 rfl (.inr rfl) rfl (fun h => if_pos h) fun hrd => ?_
    exact (computes_sdiv_iff .d hrd h0).mpr (hright.resolve_left hrd)
  · cases hcode
    refine alu_of h0 rfl (.inr rfl) rfl (fun h => if_pos h) fun hrd => ?_
    exact (computes_udiv_iff .d hrd h0).mpr (hright.resolve_left hrd)
  · cases hcode
    refine alu_of h0 rfl (.inr rfl) rfl (fun h => if_pos h) fun hrd => ?_
    exact (computes_srem_iff .d hrd h0).mpr (hright.resolve_left hrd)
  · cases hcode
    refine alu_of h0 rfl (.inr rfl) rfl (fun h => if_pos h) fun hrd => ?_
    exact (computes_urem_iff .d hrd h0).mpr (hright.resolve_left hrd)
  · cases hcode

end Arithmetic

/-! ## Where an instruction is right -/

def JumpOp (op : RvOp) : Bool := op ∈ [.jal, .jalr, .beq, .bne, .blt, .bge, .bltu, .bgeu]

/-- Where it does not go on, the trace leaves `pc`, whatever the slot has held. -/
def EndsRight (goesOn : Bool) (termPc pc : BitVec 64) : Prop := goesOn = true ∨ ∀ old, EndsAt old termPc pc

section Right
variable {σ : Type} (px : Emu.ProxyHost .rv64 σ) (host : Emu.Host) (isa : Emu.Isa) (patched : BitVec 64 → Bool) (p : Placed)
  (m : Emu.Proxied .rv64 σ)

/-- The conditions of one instruction. A load to `x0` is not emitted, so it must not be one that is stopped by a signal. -/
structure PlainRight (d : JitDecode) (op : RvOp) : Prop where
  alu : AluRight d (regs m.hart) op
  auipc : op = .auipc → d.rd = 0 ∨ SlotFits d.rd d.jumpPc
  load : ∀ n signed va, Emu.action host m.hart (d.dec op) op = some (.i, .load n signed va) → d.rd = 0 →
    (px.load n va.toNat m.mem).isSome
  jump : JumpOp op = true → ∀ old, JumpRight p.emitter patched p.goesOn old p.handed.ireg (regs m.hart) [d] d
  next : JumpOp op = false → EndsRight p.goesOn d.nextPc d.nextPc

/-- What an instruction of a trace needs where it is executed: the program still has it in memory, and its code is right. A call
leaves what `auipc` leaves only in `ra`. -/
structure Placed.Right : Prop where
  holds : ∀ i ∈ p.handed.insts, Holds px isa m.mem i
  plain : ∀ op, p.handed.d.op = .rv op → PlainRight px host patched p m p.handed.d op
  la : ∀ a j, p.handed.insts = [a, j] → p.handed.d.op = .la →
    (a.rd = 0 ∨ p.handed.d.jumpPc = fusedSum a j) ∧ EndsRight p.goesOn (p.handed.d.nextPc + 4) (p.handed.d.nextPc + 4)
  call : ∀ a j, p.handed.insts = [a, j] → p.handed.d.op = .call →
    j.op = .rv .jalr ∧ a.rd = rvIregRa ∧ ∀ old, CallRight p.goesOn old p.handed.d a j

end Right

/-! ## One instruction -/

/-- The memory of the process, as the code and the proxy access it. -/
def dataMemory {σ : Type} (px : Emu.ProxyHost .rv64 σ) : DataMemory σ := ⟨px.load, px.store⟩

/-- Code without an access leaves the memory as it is. -/
def withMemory {A L M : Type} (mem : M) : Outcome A L → PiecesOutcome A L M
  | .done s => .done s mem
  | .left l s => .left l s mem
  | .fault => .fault

theorem execPieces_code_eq {A L M : Type} [DecidableEq A] [DecidableEq L] {mem : DataMemory M} (is : List (Ins A L)) (s : State A)
    (m : M) : execPieces mem [.code is] none s m = withMemory m (exec is none s) := by
  rw [execPieces]
  cases exec is none s <;> rfl

/-- Where the instruction of the trace behind this one is. -/
def Placed.next (p : Placed) : Option (BitVec 64) := if p.goesOn then some p.handed.afterPc else none

section Simulates
variable {σ : Type} (px : Emu.ProxyHost .rv64 σ) (host : Emu.Host) (isa : Emu.Isa) (patched : BitVec 64 → Bool)

/-- The code of the instruction gets to where the interpreter gets to, or both are stopped. -/
def Placed.Simulates (p : Placed) (s : HostState) (m : Emu.Proxied .rv64 σ) : Prop :=
  (∃ o a mem, execPieces (dataMemory px) p.emitted.code none s m.mem = withMemory mem o ∧
    arrive p.emitted.emitter patched p.next o = some a ∧ Executes px host isa m a.pc (guest a.state) mem) ∨
  ∃ s', execPieces (dataMemory px) p.emitted.code none s m.mem = .signal s' m.mem ∧ Signals px host isa m

variable {px host isa patched} {p : Placed} {s : HostState} {m : Emu.Proxied .rv64 σ} {pc : BitVec 64} {x : Nat → BitVec 64}
  {mem : σ} {code : Code}

/-- The registers come to be those of the interpreter, and the trace goes on behind the instruction. -/
theorem simulates_of_done {s' : HostState} (hcode : execPieces (dataMemory px) p.emitted.code none s m.mem = .done s' mem)
    (hs : guest s' = x) (hexec : Executes px host isa m pc x mem) (hafter : p.handed.afterPc = pc)
    (hnext : EndsRight p.goesOn p.emitted.emitter.termPc pc) : p.Simulates px host isa patched s m := by
  obtain ⟨s2, ha, hg⟩ := arrives_done p.emitted.emitter patched p.next s'
  have hpc : p.next.getD (endPc p.emitted.emitter.termPc (pcSlot s')) = pc := by
    unfold Placed.next
    rcases Bool.eq_false_or_eq_true p.goesOn with hon | hon
    · rw [hon]
      exact hafter
    · rw [hon]
      exact endPc_eq_iff.mpr ((hnext.resolve_left (by simp [hon])) _)
  refine .inl ⟨.done s', _, mem, hcode, ha, ?_⟩
  dsimp only
  rw [hpc, hg, hs]
  exact hexec

theorem simulates_of_ends (hcode : p.emitted.code = [.code code]) (hends : Ends code s fun s' => guest s' = x)
    (hexec : Executes px host isa m pc x m.mem) (hafter : p.handed.afterPc = pc)
    (hnext : EndsRight p.goesOn p.emitted.emitter.termPc pc) : p.Simulates px host isa patched s m := by
  obtain ⟨s', he, hs⟩ := hends
  refine simulates_of_done ?_ hs hexec hafter hnext
  rw [hcode, execPieces_code_eq, he]
  rfl

theorem simulates_of_arrive {em : EmittedJump} {a : Arrival} (hcode : p.emitted = ⟨[.code em.code], em.emitter, em.more⟩)
    (ha : arrive em.emitter patched p.next (exec em.code none s) = some a)
    (hexec : Executes px host isa m a.pc (guest a.state) m.mem) : p.Simulates px host isa patched s m := by
  refine .inl ⟨exec em.code none s, a, m.mem, ?_, ?_, hexec⟩
  · rw [hcode]
    exact execPieces_code_eq ..
  · rw [hcode]
    exact ha

theorem simulates_of_arrives {em : EmittedJump} (hcode : p.emitted = ⟨[.code em.code], em.emitter, em.more⟩)
    (h : Arrives em.emitter patched p.next (exec em.code none s) x pc) (hexec : Executes px host isa m pc x m.mem) :
    p.Simulates px host isa patched s m := by
  obtain ⟨s', ha, rfl⟩ := h
  exact simulates_of_arrive hcode ha hexec

/-! ### Plain instructions -/

/-- The cases of the switch. -/
inductive CaseOf (e : Emitter) (d : JitDecode) (ireg : Nat → BitVec 64) : EmittedInst → Prop
  | lui : d.op = .rv .lui → CaseOf e d ireg (e.goOn d [.code (emitLui d)])
  | auipc : d.op = .rv .auipc → CaseOf e d ireg (e.goOn d [.code (emitAuipc d)])
  | alu {op : RvOp} {code : Code} : d.op = .rv op → emitAlu d op = some code → CaseOf e d ireg (e.goOn d [.code code])
  | access {op : RvOp} {code : TraceCode} : d.op = .rv op → emitAccess d op = some code → CaseOf e d ireg (e.goOn d code)
  | la : d.op = .la → CaseOf e d ireg { code := [.code (emitLa d)], emitter := { e with termPc := d.nextPc + 4 } }
  | jump {em : EmittedJump} : emitJump e d ireg = some em →
      CaseOf e d ireg { code := [.code em.code], emitter := em.emitter, more := em.more }

theorem caseOf_emitCase {e : Emitter} {d : JitDecode} {ireg : Nat → BitVec 64} {em : EmittedInst}
    (h : emitCase e d ireg = some em) : CaseOf e d ireg em := by
  have hjump : ((emitJump e d ireg).map fun em => { code := [.code em.code], emitter := em.emitter, more := em.more : EmittedInst }) =
      some em → CaseOf e d ireg em := by
    intro h
    obtain ⟨ej, hj, rfl⟩ := Option.map_eq_some_iff.mp h
    exact .jump hj
  unfold emitCase at h
  dsimp only at h
  split at h
  · next hop =>
    cases h
    exact .lui hop
  · next hop =>
    cases h
    exact .auipc hop
  · next op _ _ hop =>
    split at h
    · next code hcode =>
      cases h
      exact .alu hop hcode
    · next code _ hcode =>
      cases h
      exact .access hop hcode
    · exact hjump h
  · next hop =>
    cases h
    exact .la hop
  · exact hjump h

theorem jumpOp_of_emitAlu {d : JitDecode} {op : RvOp} {code : Code} (h : emitAlu d op = some code) : JumpOp op = false := by
  cases op <;> first | rfl | cases h

theorem jumpOp_of_emitAccess {d : JitDecode} {op : RvOp} {code : TraceCode} (h : emitAccess d op = some code) : JumpOp op = false := by
  cases op <;> first | rfl | cases h

theorem afterPc_plain {h : Handover} {op : RvOp} (hop : h.d.op = .rv op) (hjump : JumpOp op = false) : h.afterPc = h.d.nextPc := by
  unfold Handover.afterPc
  dsimp only
  rw [hop]
  cases op <;> first | rfl | cases hjump

/-- A load or a store, and the access that the interpreter makes. -/
inductive AccessOf (host : Emu.Host) (hart : Emu.Hart .rv64) (d : JitDecode) (op : RvOp) : TraceCode → Prop
  | load (n : Nat) (signed : Bool) :
      Emu.action host hart (d.dec op) op = some (.i, .load n signed (accessVa d (regs hart))) →
      AccessOf host hart d op (emitLoad d n signed)
  | store (n : Nat) :
      Emu.action host hart (d.dec op) op =
        some (.i, .store n (accessVa d (regs hart)) ((regs hart d.rs2).toNat % 2 ^ (8 * n))) →
      AccessOf host hart d op (emitStore d n)

variable (host) in
theorem accessOf_emitAccess (hart : Emu.Hart .rv64) {d : JitDecode} {op : RvOp} {code : TraceCode}
    (h : emitAccess d op = some code) : AccessOf host hart d op code := by
  unfold emitAccess at h
  split at h
  · cases h
    exact .load 8 true rfl
  · cases h
    exact .load 4 true rfl
  · cases h
    exact .load 4 false rfl
  · cases h
    exact .load 2 true rfl
  · cases h
    exact .load 2 false rfl
  · cases h
    exact .load 1 true rfl
  · cases h
    exact .load 1 false rfl
  · cases h
    have hval : (regs hart d.rs2).toNat % 2 ^ (8 * 8) = (regs hart d.rs2).toNat := Nat.mod_eq_of_lt (regs hart d.rs2).isLt
    exact .store 8 (congrArg (fun v => some (Emu.Ext.i, Emu.Action.store 8 _ v)) hval.symm)
  · cases h
    have hval : (regs hart d.rs2).toNat % 2 ^ (8 * 4) = ((regs hart d.rs2).setWidth 32).toNat := (BitVec.toNat_setWidth _ _).symm
    exact .store 4 (congrArg (fun v => some (Emu.Ext.i, Emu.Action.store 4 _ v)) hval.symm)
  · cases h
    exact .store 2 rfl
  · cases h
    exact .store 1 rfl
  · cases h

section Plain
variable {d : JitDecode} {op : RvOp} (hd : p.handed.d = d) (hop : d.op = .rv op) (hi : isa.ext .i = true)
  (hholds : Holds px isa m.mem d) (hpc : m.hart.pc = d.pc) (h0 : regs m.hart 0 = 0#64) (hs : guest s = regs m.hart)
include hd hop hi hholds hpc h0 hs

omit hi h0 hs in
theorem simulates_assign {ext : Emu.Ext} {v : BitVec 64} {e : Emitter} (hext : isa.ext ext = true)
    (hright : PlainRight px host patched p m d op) (hem : p.emitted = e.goOn d [.code code]) (hjump : JumpOp op = false)
    (ha : Emu.action host m.hart (d.dec op) op = some (ext, .setRd v))
    (hends : Ends code s fun s' => guest s' = setReg (regs m.hart) d.rd v) : p.Simulates px host isa patched s m := by
  have hafter : p.handed.afterPc = d.nextPc := (afterPc_plain (hd ▸ hop) hjump).trans (congrArg JitDecode.nextPc hd)
  have hnext : EndsRight p.goesOn p.emitted.emitter.termPc d.nextPc := by
    rw [hem]
    exact hright.next hjump
  exact simulates_of_ends (by rw [hem]; rfl) hends (executes_setRd hholds hop hext hpc ha) hafter hnext

theorem simulates_access {e : Emitter} {code : TraceCode} (hright : PlainRight px host patched p m d op)
    (hem : p.emitted = e.goOn d code) (hcode : emitAccess d op = some code) : p.Simulates px host isa patched s m := by
  have hjump := jumpOp_of_emitAccess hcode
  have hafter : p.handed.afterPc = d.nextPc := (afterPc_plain (hd ▸ hop) hjump).trans (congrArg JitDecode.nextPc hd)
  have hnext : EndsRight p.goesOn p.emitted.emitter.termPc d.nextPc := by
    rw [hem]
    exact hright.next hjump
  have hpcode : p.emitted.code = code := by rw [hem]; rfl
  have hx0 : guest s 0 = 0#64 := hs ▸ h0
  have haddr : (accessVa d (regs m.hart)).toNat = accessAddr d (guest s) := by
    rw [hs]
    rfl
  cases accessOf_emitAccess host m.hart hcode with
  | load n signed ha =>
    cases hload : px.load n (accessAddr d (guest s)) m.mem with
    | some v =>
      have hexec := executes_load hholds hop hi hpc ha (haddr ▸ hload)
      by_cases hrd : d.rd = 0
      · have hnothing : execPieces (dataMemory px) p.emitted.code none s m.mem = .done s m.mem := by
          rw [hpcode]
          unfold emitLoad
          rw [if_pos hrd]
          rfl
        refine simulates_of_done hnothing ?_ hexec hafter hnext
        rw [hs, hrd, setReg_zero h0]
      · obtain ⟨s', hdone, hsets⟩ := execPieces_emitLoad (dataMemory px) signed hrd hload
        refine simulates_of_done (hpcode ▸ hdone) ?_ hexec hafter hnext
        funext r
        rw [hsets r, hs]
        exact (setReg_of_ne hrd _ r).symm
    | none =>
      have hrd : d.rd ≠ 0 := by
        intro hrd
        have hsome : (px.load n (accessAddr d (guest s)) m.mem).isSome := haddr ▸ hright.load n signed _ ha hrd
        rw [hload] at hsome
        cases hsome
      obtain ⟨s', hsig⟩ := execPieces_emitLoad_signal (dataMemory px) signed hrd hload
      exact .inr ⟨s', hpcode ▸ hsig, signals_load hholds hop hi hpc ha (haddr ▸ hload)⟩
  | store n ha =>
    obtain ⟨s', hguest, hexec⟩ := execPieces_emitStore (dataMemory px) d m.mem n hx0
    have hval : (regs m.hart d.rs2).toNat % 2 ^ (8 * n) = (guest s d.rs2).toNat % 2 ^ (8 * n) := by rw [hs]
    rw [hval] at ha
    cases hstore : px.store n (accessAddr d (guest s)) ((guest s d.rs2).toNat % 2 ^ (8 * n)) m.mem with
    | some mem =>
      have hmem : (dataMemory px).store n (accessAddr d (guest s)) ((guest s d.rs2).toNat % 2 ^ (8 * n)) m.mem = some mem := hstore
      refine simulates_of_done ?_ (hs ▸ funext hguest)
        (executes_store hholds hop hi hpc ha (haddr ▸ hstore)) hafter hnext
      rw [hpcode, hexec, hmem]
    | none =>
      have hmem : (dataMemory px).store n (accessAddr d (guest s)) ((guest s d.rs2).toNat % 2 ^ (8 * n)) m.mem = none := hstore
      refine .inr ⟨s', ?_, signals_store hholds hop hi hpc ha (haddr ▸ hstore)⟩
      rw [hpcode, hexec, hmem]

end Plain

/-! ### Jumps -/

theorem signExtend_ne_illegal {imm : BitVec 32} (h : imm.toInt % 2 = 0) : imm.signExtend 64 ≠ -1 := by
  intro heq
  have hint := congrArg BitVec.toInt heq
  have hneg : (-1 : BitVec 64).toInt = -1 := by decide
  rw [BitVec.toInt_signExtend_of_le (by decide), hneg] at hint
  omega

theorem even_ne_illegal (x : BitVec 64) : x &&& ~~~1 ≠ -1 := by
  intro heq
  have hbit := even_and_not_one x
  rw [heq] at hbit
  exact absurd hbit (by decide)

/-- The branch gets to where it is to go. -/
theorem branchPc_right {e : Emitter} {goesOn : Bool} {old : BitVec 64} {y x : Nat → BitVec 64} {d : JitDecode} {op : RvOp}
    (h : BranchRight e patched goesOn old y x d op) :
    branchPc e patched (if goesOn then some (d.branchTo (taken y d op)) else none) d old (taken y d op) (taken x d op) =
      d.branchTo (taken x d op) := by
  unfold BranchRight at h
  dsimp only at h
  split at h
  · next htaken =>
    by_cases hin : d.branchTo (taken x d op) ∈ e.labels
    · exact branchPc_inside e patched _ htaken hin
    · rw [branchPc_on e patched _ htaken hin]
      rcases Bool.eq_false_or_eq_true goesOn with hon | hon
      · rw [hon, htaken]
        rfl
      · rw [hon]
        exact endPc_eq_iff.mpr ((h.resolve_left hin).resolve_left (by simp [hon]))
  · next htaken =>
    by_cases hboth : d.jumpPc ∈ e.labels ∧ d.nextPc ∈ e.labels
    · exact branchPc_both e patched _ hboth
    · rw [branchPc_other e patched _ htaken hboth]
      split
      · rfl
      · next hcode =>
        rw [not_or] at hcode
        exact storedPc_self.mpr (((h.resolve_left hboth).resolve_left hcode.1).resolve_left hcode.2)

section Jumps
variable {d : JitDecode} {op : RvOp} {em : EmittedJump} (hd : p.handed.d = d) (hop : d.op = .rv op) (hi : isa.ext .i = true)
  (hholds : Holds px isa m.mem d) (hpc : m.hart.pc = d.pc) (h0 : regs m.hart 0 = 0#64) (hs : guest s = regs m.hart)
  (hem : emitJump p.emitter d p.handed.ireg = some em) (hcode : p.emitted = ⟨[.code em.code], em.emitter, em.more⟩)
include hd hop hi hholds hpc h0 hs hem hcode

theorem simulates_branch {bf ibf : Cond} (hc : Conds op bf ibf)
    (hright : ∀ old, BranchRight p.emitter patched p.goesOn old p.handed.ireg (regs m.hart) d op) (heven : d.imm.toInt % 2 = 0) :
    p.Simulates px host isa patched s m := by
  have hx0 : guest s 0 = 0#64 := hs ▸ h0
  have hbf := hc.holds_bf (d := d) (guest s)
  obtain rfl := Option.some.inj (hem.symm.trans (hc.emitJump hop p.handed.ireg))
  have harrive := arrives_emitBranch p.emitter patched p.next (taken p.handed.ireg d op) hx0 hbf
    ((hc.holds_ibf _).trans (congrArg _ hbf))
  have hnext : p.next = if p.goesOn then some (d.branchTo (taken p.handed.ireg d op)) else none := by
    unfold Placed.next Handover.afterPc
    dsimp only
    rw [hd, hop]
    cases hc <;> rfl
  rw [hs] at harrive
  rw [hnext, branchPc_right (hright _), ← hnext] at harrive
  have ha : Emu.action host m.hart (d.dec op) op = some (.i, .branch (taken (regs m.hart) d op)) := by cases hc <;> rfl
  have hexec := executes_branch hholds hop hi hpc ha (signExtend_ne_illegal heven)
  exact simulates_of_arrives hcode harrive hexec

theorem simulates_jal (hjal : op = .jal) (hright : ∀ old, JalRight p.goesOn old d) (heven : d.imm.toInt % 2 = 0) :
    p.Simulates px host isa patched s m := by
  subst hjal
  have hx0 : guest s 0 = 0#64 := hs ▸ h0
  have hemit : emitJump p.emitter d p.handed.ireg = some (emitJal p.emitter d) := by
    unfold emitJump
    rw [hop]
  obtain rfl := Option.some.inj (hem.symm.trans hemit)
  have hends : Ends (emitJal p.emitter d).code s fun s' => guest s' = setReg (regs m.hart) d.rd d.nextPc := by
    refine ends_writeRd hx0 hs ?_ ?_
    · intro hrd
      unfold emitJal
      dsimp only
      rw [if_pos hrd]
    · intro hrd
      unfold emitJal
      dsimp only
      rw [if_neg hrd]
      exact computes_emitAddr d.nextPc
  have hafter : p.handed.afterPc = d.jumpPc := by
    unfold Handover.afterPc
    dsimp only
    rw [hd, hop]
  have hterm : p.emitted.emitter.termPc = d.jumpPc := by
    rw [hcode]
    unfold emitJal
    dsimp only
    split <;> rfl
  have hnext : EndsRight p.goesOn p.emitted.emitter.termPc d.jumpPc := by
    rw [hterm]
    by_cases hon : p.goesOn = true
    · exact .inl hon
    · exact .inr fun old => (hright old).resolve_left hon
  exact simulates_of_ends (by rw [hcode]) hends (executes_jump hholds hop hi hpc rfl (signExtend_ne_illegal heven)) hafter hnext

omit hd hem hcode h0 hs in
/-- The interpreter goes to the target, on the parity of the pc. -/
theorem executes_jalr (hjalr : op = .jalr) :
    Executes px host isa m (jalrTarget d.pc (accessVa d (regs m.hart))) (setReg (regs m.hart) d.rd d.nextPc) m.mem := by
  subst hjalr
  have hjump : Executes px host isa m _ _ _ := executes_jump hholds hop hi hpc rfl (even_ne_illegal _)
  rw [hpc] at hjump
  exact hjump

omit hd in
theorem simulates_indirect (hjalr : op = .jalr) (hind : em = emitIndirect p.emitter d) (hrs1 : d.rs1 ≠ 0)
    (hright : (accessVa d (guest s)).getLsbD 0 = d.pc.getLsbD 0) : p.Simulates px host isa patched s m := by
  subst hind
  have hx0 : guest s 0 = 0#64 := hs ▸ h0
  have hends : Ends (emitTarget d ++ if d.rd = 0 then [] else emitAddr d.rd d.rd d.nextPc) s fun s' =>
      pcSlot s' = accessVa d (guest s) ∧ guest s' = setReg (regs m.hart) d.rd d.nextPc := by
    refine ends_emitTarget.append ?_
    rintro s1 ⟨hslot, hguest⟩
    rw [if_neg hrs1] at hslot
    by_cases hrd : d.rd = 0
    · rw [if_pos hrd, ends_nil, hrd, setReg_zero h0, hguest]
      exact ⟨hslot, hs⟩
    · rw [if_neg hrd]
      refine (ends_emitAddr (Decidable.em _) d.nextPc).mono ?_
      rintro s2 ⟨hsets, hslot'⟩
      rw [ite_self] at hsets
      refine ⟨hslot'.trans hslot, ?_⟩
      funext r
      rw [hsets r, hguest, hs]
      exact (setReg_of_ne hrd _ r).symm
  obtain ⟨s', hdone, hslot, hguest⟩ := hends
  have hexec : exec (emitIndirect p.emitter d).code none s = .left .lookupTraceFast s' := by
    show exec ((emitTarget d ++ _) ++ _) none s = _
    rw [exec_append_of_done _ _ _ hdone]
    rfl
  have harrive : Arrives (emitIndirect p.emitter d).emitter patched p.next (exec (emitIndirect p.emitter d).code none s)
      (setReg (regs m.hart) d.rd d.nextPc) (accessVa d (guest s)) := by
    rw [hexec, ← hslot]
    exact ⟨s', rfl, hguest⟩
  refine simulates_of_arrives hcode harrive ?_
  rw [eq_jalrTarget_iff.mpr hright, hs]
  exact executes_jalr hop hi hholds hpc hjalr

theorem simulates_return (hjalr : op = .jalr) {linkAddr : BitVec 64} {callstack : List (BitVec 64)}
    (hret : em = emitReturn p.emitter d linkAddr callstack) (hrd : d.rd = 0) (hrs1 : d.rs1 = rvIregRa)
    (hright : if guest s rvIregRa = (linkAddr.setWidth 32).signExtend 64 then
      (∀ old, (if p.goesOn then jalrTarget d.pc (p.handed.ireg rvIregRa + d.imm.signExtend 64) else old) =
        jalrTarget d.pc (accessVa d (regs m.hart))) else PcFits d.pc) : p.Simulates px host isa patched s m := by
  subst hret
  split at hright
  · next hra =>
    have harrive := arrives_emitReturn p.emitter patched p.next callstack (d := d) hra
    have hto : p.next.getD (pcSlot s) = jalrTarget d.pc (accessVa d (regs m.hart)) := by
      rw [← hright (pcSlot s)]
      unfold Placed.next Handover.afterPc
      dsimp only
      rw [hd, hop, hjalr]
      dsimp only
      rw [hrs1]
      cases p.goesOn <;> rfl
    rw [hto, hs] at harrive
    refine simulates_of_arrives hcode harrive ?_
    have hexec : Executes px host isa m _ _ _ := executes_jalr hop hi hholds hpc hjalr
    rwa [hrd, setReg_zero h0] at hexec
  · next hra =>
    obtain ⟨s', harrive, hguest⟩ := arrive_emitReturn p.emitter patched p.next callstack (d := d) hra
    refine simulates_of_arrive hcode harrive ?_
    exact ⟨m, .refl m, hpc.trans (storedPc_self.mpr hright).symm, (hguest.trans hs).symm, rfl⟩

theorem simulates_jalr (hjalr : op = .jalr)
    (hright : ∀ old, JalrRight p.emitter p.goesOn old p.handed.ireg (regs m.hart) d) : p.Simulates px host isa patched s m := by
  have hemit : emitJump p.emitter d p.handed.ireg = some (emitJalr p.emitter d) := by
    unfold emitJump
    rw [hop, hjalr]
  have hem' := Option.some.inj (hem.symm.trans hemit)
  -- what is looked up is not at `x0`, since no slot would do
  have hindirect (hnone : (if d.rd = 0 ∧ d.rs1 = rvIregRa then p.emitter.callstack else []) = [])
      (hind : em = emitIndirect p.emitter d) : p.Simulates px host isa patched s m := by
    have hlookup : ∀ old, if d.rs1 = 0 then old = jalrTarget d.pc (accessVa d (regs m.hart))
        else (accessVa d (regs m.hart)).getLsbD 0 = d.pc.getLsbD 0 := by
      intro old
      have h := hright old
      unfold JalrRight at h
      rw [hnone] at h
      exact h
    have hrs1 : d.rs1 ≠ 0 := by
      intro hrs1
      have heq := hlookup (jalrTarget d.pc (accessVa d (regs m.hart)) + 1)
      rw [if_pos hrs1] at heq
      bv_omega
    have hparity := hlookup 0
    rw [if_neg hrs1] at hparity
    exact simulates_indirect hop hi hholds hpc h0 hs hem hcode hjalr hind hrs1 (hs ▸ hparity)
  by_cases hret : d.rd = 0 ∧ d.rs1 = rvIregRa
  · rcases hcall : p.emitter.callstack with - | ⟨linkAddr, callstack⟩
    · refine hindirect (by rw [if_pos hret, hcall]) (hem'.trans ?_)
      unfold emitJalr
      rw [if_pos hret, hcall]
    · have hreturn : em = emitReturn p.emitter d linkAddr callstack := by
        rw [hem']
        unfold emitJalr
        rw [if_pos hret, hcall]
      refine simulates_return hd hop hi hholds hpc h0 hs hem hcode hjalr hreturn hret.1 hret.2 ?_
      have hright' := hright
      unfold JalrRight at hright'
      rw [if_pos hret, hcall, ← hs] at hright'
      dsimp only at hright'
      split
      · next hra =>
        intro old
        have h := hright' old
        rw [if_pos hra] at h
        rwa [← hs]
      · next hra =>
        have h := hright' 0
        rwa [if_neg hra] at h
  · refine hindirect (if_neg hret) (hem'.trans ?_)
    exact if_neg hret

theorem simulates_jump (hright : PlainRight px host patched p m d op) : p.Simulates px host isa patched s m := by
  have heven : Emu.RvOp.hasTarget op = true → d.imm.toInt % 2 = 0 := hholds.even hop
  have hjump := hright.jump
  unfold JumpRight at hjump
  rw [hop] at hjump
  have hcase := hem
  unfold emitJump at hcase
  rw [hop] at hcase
  split at hcase
  · next heq =>
    cases heq
    exact simulates_jal hd hop hi hholds hpc h0 hs hem hcode rfl (hjump rfl) (heven rfl)
  · next heq =>
    cases heq
    exact simulates_jalr hd hop hi hholds hpc h0 hs hem hcode rfl (hjump rfl)
  · next heq =>
    cases heq
    exact simulates_branch hd hop hi hholds hpc h0 hs hem hcode .beq (hjump rfl) (heven rfl)
  · next heq =>
    cases heq
    exact simulates_branch hd hop hi hholds hpc h0 hs hem hcode .bne (hjump rfl) (heven rfl)
  · next heq =>
    cases heq
    exact simulates_branch hd hop hi hholds hpc h0 hs hem hcode .blt (hjump rfl) (heven rfl)
  · next heq =>
    cases heq
    exact simulates_branch hd hop hi hholds hpc h0 hs hem hcode .bge (hjump rfl) (heven rfl)
  · next heq =>
    cases heq
    exact simulates_branch hd hop hi hholds hpc h0 hs hem hcode .bltu (hjump rfl) (heven rfl)
  · next heq =>
    cases heq
    exact simulates_branch hd hop hi hholds hpc h0 hs hem hcode .bgeu (hjump rfl) (heven rfl)
  · next heq => cases heq
  · cases hcase

end Jumps

/-! ### Fused instructions -/

theorem Executes.trans {pc' : BitVec 64} {x' : Nat → BitVec 64} {mem' : σ} (h : Executes px host isa m pc x mem)
    (h' : ∀ m1 : Emu.Proxied .rv64 σ, m1.hart.pc = pc → regs m1.hart = x → m1.mem = mem → Executes px host isa m1 pc' x' mem') :
    Executes px host isa m pc' x' mem' := by
  obtain ⟨m1, hran, hpc, hx, hmem⟩ := h
  obtain ⟨m2, hran', hm2⟩ := h' m1 hpc hx hmem
  exact ⟨m2, hran.trans hran', hm2⟩

theorem executes_auipc {d : JitDecode} (hop : d.op = .rv .auipc) (hi : isa.ext .i = true) (hholds : Holds px isa m.mem d)
    (hpc : m.hart.pc = d.pc) : Executes px host isa m d.nextPc (setReg (regs m.hart) d.rd d.jumpPc) m.mem := by
  have ha : Emu.action host m.hart (d.dec .auipc) .auipc = some (.i, .setRd d.jumpPc) :=
    congrArg (fun pc : BitVec 64 => some (Emu.Ext.i, Emu.Action.setRd (R := .rv64) (pc + d.imm.signExtend 64))) hpc
  exact executes_setRd hholds hop hi hpc ha

section Fused
variable {a j d : JitDecode} (hd : p.handed.d = d) (hinsts : p.handed.insts = [a, j]) (ha : a.op = .rv .auipc)
  (htraced : Traced [a, j]) (hrs1 : a.rd = j.rs1) (hdpc : d.pc = a.pc) (hdinst : d.inst = j.inst) (hdrd : d.rd = j.rs1)
  (hi : isa.ext .i = true) (hholds : ∀ i ∈ [a, j], Holds px isa m.mem i) (hpc : m.hart.pc = d.pc) (h0 : regs m.hart 0 = 0#64)
  (hs : guest s = regs m.hart)
include htraced ha

theorem nextPc_auipc : a.nextPc = a.pc + 4#64 ∧ j.pc = a.nextPc := by
  have hlen := (htraced.auipc a (by simp) ha).1
  unfold JitDecode.nextPc
  refine ⟨by rw [hlen], htraced.follows [] a j [] rfl (.inl ha)⟩

include hd hinsts hrs1 hdpc hdinst hdrd hi hholds hpc h0 hs

omit hinsts in
theorem simulates_la (hop : d.op = .la) (hj : j.op = .rv .addi) (hrd : a.rd = j.rd)
    (hem : p.emitted = { code := [.code (emitLa d)], emitter := { p.emitter with termPc := d.nextPc + 4 } })
    (hright : (a.rd = 0 ∨ d.jumpPc = fusedSum a j) ∧ EndsRight p.goesOn (d.nextPc + 4) (d.nextPc + 4)) :
    p.Simulates px host isa patched s m := by
  have hx0 : guest s 0 = 0#64 := hs ▸ h0
  obtain ⟨hanext, hjpc⟩ := nextPc_auipc ha htraced
  have hafter : p.handed.afterPc = d.nextPc + 4 := by
    unfold Handover.afterPc
    dsimp only
    rw [hd, hop]
  have hnextPc : d.nextPc + 4 = j.nextPc := by
    show d.pc + BitVec.ofNat 64 (instLength d.inst) + 4 = j.pc + BitVec.ofNat 64 (instLength j.inst)
    rw [hdpc, hdinst, hjpc, hanext]
    bv_omega
  have hends : Ends (emitLa d) s fun s' => guest s' = setReg (regs m.hart) j.rd (fusedSum a j) := by
    rw [← hrd, hrs1, ← hdrd]
    refine ends_writeRd hx0 hs (fun h => if_pos h) fun hne => ?_
    have hla := computes_la (s := s) hne
    rwa [hright.1.resolve_left (by rwa [hrs1, ← hdrd])] at hla
  have hexec : Executes px host isa m (d.nextPc + 4) (setReg (regs m.hart) j.rd (fusedSum a j)) m.mem := by
    rw [hnextPc]
    refine (executes_auipc ha hi (hholds a (by simp)) (hpc.trans hdpc)).trans fun m1 hpc1 hx1 hmem1 => ?_
    have hexec1 : Executes px host isa m1 _ _ _ := executes_setRd (hmem1 ▸ hholds j (by simp)) hj hi (hpc1.trans hjpc.symm)
      (v := accessVa j (regs m1.hart)) rfl
    rw [hmem1] at hexec1
    have hregs : setReg (regs m1.hart) j.rd (accessVa j (regs m1.hart)) = setReg (regs m.hart) j.rd (fusedSum a j) := by
      have hsum : j.rd ≠ 0 → accessVa j (regs m1.hart) = fusedSum a j := by
        intro hne
        unfold accessVa fusedSum
        rw [hx1, ← hrs1, if_neg (hrd ▸ hne), setReg_of_ne (hrd ▸ hne), if_pos rfl]
        rfl
      by_cases hz : j.rd = 0
      · rw [hrd, hz, setReg_zero h0] at hx1
        rw [hz, setReg_zero h0, hx1, setReg_zero h0]
      · rw [hsum hz, hx1, hrd, setReg_setReg]
    rwa [hregs] at hexec1
  refine simulates_of_ends (by rw [hem]) hends hexec hafter ?_
  rw [hem]
  exact hright.2

omit h0 in
theorem simulates_call (hop : d.op = .call) (hj : j.op = .rv .jalr) (hra : a.rd = rvIregRa) (hlink : j.rd = rvIregRa)
    (hem : p.emitted = ⟨[.code (emitCall p.emitter d).code], (emitCall p.emitter d).emitter, true⟩)
    (hright : ∀ old, CallRight p.goesOn old d a j) : p.Simulates px host isa patched s m := by
  obtain ⟨hanext, hjpc⟩ := nextPc_auipc ha htraced
  have hdra : d.rd = rvIregRa := hdrd.trans (hrs1.symm.trans hra)
  have hafter : p.handed.afterPc = jalrTarget (a.pc + 4) (fusedSum a j) := by
    unfold Handover.afterPc
    dsimp only
    rw [hd, hop, hinsts]
    exact if_pos hj
  have hlinkPc : d.nextPc + 4 = j.nextPc := by
    show d.pc + BitVec.ofNat 64 (instLength d.inst) + 4 = j.pc + BitVec.ofNat 64 (instLength j.inst)
    rw [hdpc, hdinst, hjpc, hanext]
    bv_omega
  have hne : rvIregRa ≠ 0 := by decide
  have hends : Ends (emitCall p.emitter d).code s fun s' => guest s' = setReg (regs m.hart) rvIregRa j.nextPc := by
    have hcode : (emitCall p.emitter d).code = emitAddr rvIregRa rvIregRa (d.nextPc + 4) := by
      unfold emitCall
      dsimp only
      rw [if_pos hdra, hdra]
      rfl
    rw [hcode]
    refine (computes_emitAddr (d.nextPc + 4)).mono fun s' hsets => ?_
    funext r
    rw [hsets r, hlinkPc, hs, setReg_of_ne hne]
  have hexec : Executes px host isa m (jalrTarget (a.pc + 4) (fusedSum a j)) (setReg (regs m.hart) rvIregRa j.nextPc) m.mem := by
    refine (executes_auipc ha hi (hholds a (by simp)) (hpc.trans hdpc)).trans fun m1 hpc1 hx1 hmem1 => ?_
    have hexec1 : Executes px host isa m1 _ _ _ := executes_jalr hj hi (hmem1 ▸ hholds j (by simp)) (hpc1.trans hjpc.symm) rfl
    have hsum : accessVa j (regs m1.hart) = fusedSum a j := by
      unfold accessVa fusedSum
      rw [hx1, ← hrs1, hra, setReg_of_ne hne, if_pos rfl, if_neg hne]
      rfl
    rwa [hsum, hmem1, hjpc, hanext, hx1, hra, hlink, setReg_setReg] at hexec1
  refine simulates_of_ends (by rw [hem]) hends hexec hafter ?_
  rw [hem]
  show EndsRight p.goesOn d.jumpPc _
  have hcall : ∀ old, p.goesOn = true ∨ EndsAt old d.jumpPc (jalrTarget (a.pc + 4) (fusedSum a j)) := by
    intro old
    have h := hright old
    unfold CallRight at h
    rw [hj] at h
    exact h
  by_cases hon : p.goesOn = true
  · exact .inl hon
  · exact .inr fun old => (hcall old).resolve_left hon

end Fused

/-! ### Any instruction -/

theorem even_of_holds {d : JitDecode} {op : RvOp} (hholds : Holds px isa m.mem d) (hop : d.op = .rv op)
    (htarget : Emu.RvOp.hasTarget op = true) : d.imm.toInt % 2 = 0 := hholds.even hop htarget

/-- What is emitted for an instruction simulates it. -/
theorem simulates (hhost : MasksShifts host) (hi : isa.ext .i = true) (hm : isa.ext .m = true)
    (hfuses : Fuses p.handed.insts p.handed.d) (hdecoded : ∀ i ∈ p.handed.insts, ∃ op, i.op = .rv op) (htraced : Traced p.handed.insts)
    (hcase : emitCase p.emitter p.handed.d p.handed.ireg = some p.emitted) (hright : p.Right px host isa patched m)
    (hpc : m.hart.pc = p.pc) (h0 : regs m.hart 0 = 0#64) (hs : guest s = regs m.hart) : p.Simulates px host isa patched s m := by
  obtain ⟨e, ⟨insts, d, ireg⟩, emitted, goesOn⟩ := p
  dsimp only at hfuses hdecoded htraced hcase
  have hx0 : guest s 0 = 0#64 := hs ▸ h0
  cases hfuses with
  | plain =>
    obtain ⟨op, hop⟩ := hdecoded d (by simp)
    have hholds := hright.holds d (by simp)
    have hplain := hright.plain op hop
    have hemitted : ∀ {em : EmittedInst}, emitCase e d ireg = some em → emitted = em := fun h => Option.some.inj (hcase.symm.trans h)
    cases caseOf_emitCase hcase with
    | lui hlui =>
      obtain rfl : op = .lui := JitOp.rv.inj (hop.symm.trans hlui)
      refine simulates_assign rfl hop hholds hpc hi hplain rfl rfl rfl (ends_writeRd hx0 hs (fun h => if_pos h) fun hrd => ?_)
      exact computes_lui hrd
    | auipc hauipc =>
      obtain rfl : op = .auipc := JitOp.rv.inj (hop.symm.trans hauipc)
      have ha : Emu.action host m.hart (d.dec .auipc) .auipc = some (.i, .setRd d.jumpPc) :=
        congrArg (fun pc : BitVec 64 => some (Emu.Ext.i, Emu.Action.setRd (R := .rv64) (pc + d.imm.signExtend 64))) hpc
      refine simulates_assign rfl hop hholds hpc hi hplain rfl rfl ha (ends_writeRd hx0 hs (fun h => if_pos h) fun hrd => ?_)
      exact computes_auipc hrd ((hplain.auipc rfl).resolve_left hrd)
    | alu halu hcode =>
      obtain rfl := JitOp.rv.inj (hop.symm.trans halu)
      obtain ⟨ext, v, hext, ha, hends⟩ := assigns_emitAlu hhost hcode (hholds.shamtFits hop) hx0 hs hplain.alu
      have hisa : isa.ext ext = true := by
        rcases hext with rfl | rfl
        · exact hi
        · exact hm
      exact simulates_assign rfl hop hholds hpc hisa hplain rfl (jumpOp_of_emitAlu hcode) ha hends
    | access haccess hcode =>
      obtain rfl := JitOp.rv.inj (hop.symm.trans haccess)
      exact simulates_access rfl hop hi hholds hpc h0 hs hplain rfl hcode
    | la hla =>
      rw [hop] at hla
      cases hla
    | jump hem => exact simulates_jump rfl hop hi hholds hpc h0 hs hem rfl hplain
  | la ha hj hrd hrs1 =>
    cases hcase
    exact simulates_la rfl ha htraced hrs1 rfl rfl rfl hi hright.holds hpc h0 hs rfl hj hrd rfl (hright.la _ _ rfl rfl)
  | call ha hj hrs1 hra =>
    obtain ⟨hjalr, hard, hcall⟩ := hright.call _ _ rfl rfl
    cases hcase
    exact simulates_call rfl rfl ha htraced hrs1 rfl rfl rfl hi hright.holds hpc hs rfl hjalr hard hra rfl hcall
  | zextw ha himm hj hrd hrs1 himm' => cases hcase
  | addiwz ha hars1 hb hbrd hbrs1 hbimm hj hrd hrs1 himm => cases hcase

end Simulates

end Rv8.Jit
