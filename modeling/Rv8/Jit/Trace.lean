import Mathlib.Logic.Relation
import Rv8.Emu.IllegalInstruction
import Rv8.Emu.Proxy
import Rv8.Jit.JumpAgrees
import Rv8.Jit.LoadStore
/-!
# Traces

`emit` of `jit-emitter-rv64.h` over the instructions that `jit_trace` hands to it, up to
the first one that it does not take, and the loop of the interpreter that the code
stands for: an instruction is fetched, decoded and executed in the memory of the proxy.

The code has a label for each instruction. A jump back is to such a label, and a trace is
also entered at the label of its first instruction.
-/

namespace Rv8.Jit

open Rv8.Asm Rv8.Lib.X86

/-! ## Emitting a trace -/

/-- What the emitter is handed: an instruction, those of the program it stands for, and the registers at that time. -/
structure Handover where
  insts : List JitDecode
  d : JitDecode
  ireg : Nat → BitVec 64

structure EmittedInst where
  code : TraceCode
  emitter : Emitter
  more : Bool := true

section Emit
variable (e : Emitter) (d : JitDecode)

/-- Code that the next instruction follows. -/
def Emitter.goOn (code : TraceCode) : EmittedInst := { code, emitter := { e with termPc := d.nextPc } }

def Emitter.addLabel (pc : BitVec 64) : Emitter := { e with labels := pc :: e.labels }

/-- The switch of `emit`. The code for `zextw` and `addiwz` has an instruction that x86-64 lacks, and is left out. -/
def emitCase (ireg : Nat → BitVec 64) : Option EmittedInst :=
  let jump := (emitJump e d ireg).map fun em => { code := [.code em.code], emitter := em.emitter, more := em.more : EmittedInst }
  match d.op with
  | .rv .lui => some (e.goOn d [.code (emitLui d)])
  | .rv .auipc => some (e.goOn d [.code (emitAuipc d)])
  | .rv op =>
    match emitAlu d op, emitAccess d op with
    | some code, _ => some (e.goOn d [.code code])
    | none, some code => some (e.goOn d code)
    | none, none => jump
  | .la => some { code := [.code (emitLa d)], emitter := { e with termPc := d.nextPc + 4 } }
  | _ => jump

end Emit

/-- An instruction of a trace, with the emitter behind its label and whether there is another one after it. -/
structure Placed where
  emitter : Emitter
  handed : Handover
  emitted : EmittedInst
  goesOn : Bool

def Placed.pc (p : Placed) : BitVec 64 := p.handed.d.pc

def Placed.code (p : Placed) : TraceCode := .code [.bind (.inst p.pc)] :: p.emitted.code

/-- `tail` is the label of an instruction that is not taken. -/
structure Trace where
  placed : List Placed := []
  tail : TraceCode := []
  emitter : Emitter

/-- The code up to the epilog. -/
def Trace.code (t : Trace) : TraceCode := t.placed.flatMap Placed.code ++ (t.tail ++ [.code t.emitter.emitEnd])

/-- A pc that has a label ends the trace. -/
def emitTrace (e : Emitter) : List Handover → Trace
  | [] => { emitter := e }
  | h :: hs =>
    if h.d.pc ∈ e.labels then { emitter := e }
    else
      match emitCase (e.addLabel h.d.pc) h.d h.ireg with
      | none => { tail := [.code [.bind (.inst h.d.pc)]], emitter := e.addLabel h.d.pc }
      | some em =>
        let t := if em.more then emitTrace em.emitter hs else { emitter := em.emitter }
        { t with placed := ⟨e.addLabel h.d.pc, h, em, !t.placed.isEmpty⟩ :: t.placed }

/-- The pc of the processor behind the instruction, when the trace is recorded. -/
def Handover.afterPc (h : Handover) : BitVec 64 :=
  let d := h.d
  match d.op, h.insts with
  | .rv .jal, _ => d.jumpPc
  | .rv .jalr, _ => jalrTarget d.pc (h.ireg d.rs1 + d.imm.signExtend 64)
  | .rv op, _ => d.branchTo (taken h.ireg d op)
  | .call, [a, j] => if j.op = .rv .jalr then jalrTarget (a.pc + 4) (fusedSum a j) else d.nextPc + 4
  | _, _ => d.nextPc + 4

/-- Each instruction is handed over at the pc that the one before it has led to. -/
def Recorded (hs : List Handover) : Prop := hs.IsChain fun h h' => h'.d.pc = h.afterPc

/-! ## The interpreter -/

section Interpreter
variable {σ : Type} (px : Emu.ProxyHost .rv64 σ) (host : Emu.Host) (isa : Emu.Isa)

/-- `P::pc += new_offset; P::instret++` -/
def retireProxied (offset : BitVec Emu.Rv.rv64.xlen) (m : Emu.Proxied .rv64 σ) : Emu.Proxied .rv64 σ :=
  { m with hart.pc := m.hart.pc + offset, hart.csrs.instret := m.hart.csrs.instret + 1 }

/-- One instruction of the program. -/
def interpretNext : Lib.Prog Emu.ProxyRaise (Emu.Proxied .rv64 σ) Unit := do
  let m ← .get
  let fetched ← px.instFetch m.hart.pc.toNat
  let offset ← Emu.execInstOn px.bus host isa.ext (Emu.instDecode .rv64 isa {} fetched.1) (BitVec.ofNat 64 fetched.2)
  if offset ≠ (Emu.Machine.illegal : BitVec Emu.Rv.rv64.xlen) then .modify (retireProxied offset) else .throw .illegalInstruction

/-- The memory holds the instruction at its pc; the format that the decoder notes is not kept. -/
structure Holds (mem : σ) (d : JitDecode) : Prop where
  fetch : ∀ hart, px.instFetch d.pc.toNat ⟨hart, mem⟩ = .ok (d.inst, d.length) ⟨hart, mem⟩
  decode : ∃ op, d.op = .rv op ∧ ∃ codec, Emu.instDecode .rv64 isa {} d.inst = { d.dec op with codec }

/-- The interpreter gets from one state to another, in any number of instructions that only change what a trace may. -/
structure Ran (m m' : Emu.Proxied .rv64 σ) : Prop where
  steps : Relation.ReflTransGen (fun m m' => interpretNext px host isa m = .ok () m') m m'
  rest : m'.hart = { m.hart with ireg := m'.hart.ireg, pc := m'.hart.pc, csrs.instret := m'.hart.csrs.instret }
  zero : m.hart.ireg 0 = 0 → m'.hart.ireg 0 = 0

end Interpreter

section Steps
variable {σ : Type} {px : Emu.ProxyHost .rv64 σ} {host : Emu.Host} {isa : Emu.Isa} {m m' m'' : Emu.Proxied .rv64 σ}
  {d : JitDecode} {op : RvOp} {ext : Emu.Ext}

theorem Ran.refl (m : Emu.Proxied .rv64 σ) : Ran px host isa m m := ⟨.refl, rfl, id⟩

theorem Ran.trans (h : Ran px host isa m m') (h' : Ran px host isa m' m'') : Ran px host isa m m'' where
  steps := h.steps.trans h'.steps
  rest := by rw [h'.rest, h.rest]
  zero := fun h0 => h'.zero (h.zero h0)

variable (isa) in
/-- The format of what is decoded. -/
theorem formatFits_instDecode (inst : Nat) :
    FormatFits (Emu.instDecode .rv64 isa {} inst) (rvInstCodec (Emu.instDecode .rv64 isa {} inst).op) := by
  have hop := decodeInstType_op { op := decodeInstOp (isa.flags .rv64) inst } inst
  have hfits : FormatFits (decodeInstType { op := decodeInstOp (isa.flags .rv64) inst } inst)
      (rvInstCodec (decodeInstType { op := decodeInstOp (isa.flags .rv64) inst } inst).op) := by
    rw [hop]
    exact formatFits_decodeType _ _ _ _
  unfold Emu.instDecode
  dsimp only
  split
  · unfold Emu.Rv.decompress decompressInstRv64 decompressInst
    dsimp only
    split
    · next hdecomp => exact hfits.widen (widens_decompRv64 _ hdecomp) _ _
    · exact hfits
  · exact hfits

/-- What the memory holds has the immediates that the decoder gives. -/
theorem Holds.shamtFits {mem : σ} (h : Holds px isa mem d) (hop : d.op = .rv op) : ShamtFits d.imm op := by
  obtain ⟨op', hop', codec, hdec⟩ := h.decode
  obtain rfl : op = op' := by
    rw [hop] at hop'
    exact JitOp.rv.inj hop'
  have hfits := formatFits_instDecode isa d.inst
  rw [hdec] at hfits
  have himm := shamtFits_of_format hfits
  rwa [show (d.dec op).imm = d.imm.toInt from rfl, BitVec.ofInt_toInt] at himm

theorem Holds.even {mem : σ} (h : Holds px isa mem d) (hop : d.op = .rv op) : Emu.EvenTarget (d.dec op) := by
  obtain ⟨op', hop', codec, hdec⟩ := h.decode
  obtain rfl : op = op' := by
    rw [hop] at hop'
    exact JitOp.rv.inj hop'
  have heven := Emu.evenTarget_instDecode .rv64 isa {} d.inst
  rw [hdec] at heven
  exact heven

theorem runOn_codec {ε τ : Type} {bus : Emu.Bus .rv64 ε τ} {dec : Decode} {pcOffset : BitVec 64} {s : τ} (codec : RvCodec)
    (a : Emu.Action .rv64) : a.runOn bus { dec with codec } pcOffset s = a.runOn bus dec pcOffset s := by
  cases a <;> rfl

theorem execInstOn_of_action {ε τ : Type} {bus : Emu.Bus .rv64 ε τ} {rv : Emu.Ext → Bool} {dec : Decode} {pcOffset : BitVec 64} {s : τ}
    {a : Emu.Action .rv64} (ha : Emu.action host (bus.hart s) dec dec.op = some (ext, a)) (hext : rv ext = true) :
    Emu.execInstOn bus host rv dec pcOffset s = a.runOn bus dec pcOffset s := by
  unfold Emu.execInstOn
  rw [Lib.Prog.bind_ok (show Lib.Prog.get s = .ok s s from rfl), ha]
  dsimp only
  rw [if_pos hext]

section Execute
variable {a : Emu.Action .rv64} (h : Holds px isa m.mem d) (hop : d.op = .rv op)
  (ha : Emu.action host m.hart (d.dec op) op = some (ext, a)) (hext : isa.ext ext = true)
include h hop ha hext

/-- What is fetched is executed as the case of the switch. -/
theorem execInstOn_of_holds : Emu.execInstOn px.bus host isa.ext (Emu.instDecode .rv64 isa {} d.inst) (BitVec.ofNat 64 d.length) m =
    a.runOn px.bus (d.dec op) (BitVec.ofNat 64 d.length) m := by
  obtain ⟨op', hop', codec, hdec⟩ := h.decode
  obtain rfl : op = op' := by
    rw [hop] at hop'
    exact JitOp.rv.inj hop'
  rw [hdec, ← runOn_codec codec a]
  exact execInstOn_of_action ha hext

variable (hpc : m.hart.pc = d.pc)
include hpc

theorem interpretNext_ok {offset : BitVec Emu.Rv.rv64.xlen}
    (hrun : a.runOn px.bus (d.dec op) (BitVec.ofNat 64 d.length) m = .ok offset m') (hoff : offset ≠ Emu.Machine.illegal) :
    interpretNext px host isa m = .ok () (retireProxied offset m') := by
  have hfetch : px.instFetch m.hart.pc.toNat m = .ok (d.inst, d.length) m := hpc ▸ h.fetch m.hart
  have hexec := (execInstOn_of_holds h hop ha hext).trans hrun
  refine (Lib.Prog.bind_ok rfl).trans ((Lib.Prog.bind_ok hfetch).trans ((Lib.Prog.bind_ok hexec).trans ?_))
  rw [if_pos hoff]
  rfl

theorem interpretNext_error {err : Emu.ProxyRaise}
    (hrun : a.runOn px.bus (d.dec op) (BitVec.ofNat 64 d.length) m = .error err m') :
    interpretNext px host isa m = .error err m' := by
  have hfetch : px.instFetch m.hart.pc.toNat m = .ok (d.inst, d.length) m := hpc ▸ h.fetch m.hart
  have hexec := (execInstOn_of_holds h hop ha hext).trans hrun
  exact (Lib.Prog.bind_ok rfl).trans ((Lib.Prog.bind_ok hfetch).trans (Lib.Prog.bind_error hexec))

end Execute

/-! ## One instruction -/

def regs (hart : Emu.Hart .rv64) : Nat → BitVec 64 := hart.ireg

/-- An assignment of the interpreter to a register, which spares `x0`. -/
def setReg (x : Nat → BitVec 64) (rd : Nat) (v : BitVec 64) : Nat → BitVec 64 :=
  fun r => if r = rd then if rd = 0 then 0 else v else x r

theorem setReg_zero {x : Nat → BitVec 64} (h0 : x 0 = 0#64) (v : BitVec 64) : setReg x 0 v = x := by
  funext r
  unfold setReg
  split
  · next hr =>
    rw [if_pos rfl, hr]
    exact h0.symm
  · rfl

theorem setReg_of_ne {x : Nat → BitVec 64} {rd : Nat} (hrd : rd ≠ 0) (v : BitVec 64) (r : Nat) :
    setReg x rd v r = if r = rd then v else x r := by
  unfold setReg
  rw [if_neg hrd]

theorem setReg_setReg (x : Nat → BitVec 64) (rd : Nat) (v w : BitVec 64) : setReg (setReg x rd v) rd w = setReg x rd w := by
  funext r
  unfold setReg
  split <;> rfl

theorem length_le (d : JitDecode) : d.length ≤ 8 := by
  unfold JitDecode.length instLength
  split
  · decide
  · split
    · decide
    · split
      · decide
      · split <;> decide

theorem length_ne_illegal (d : JitDecode) : BitVec.ofNat Emu.Rv.rv64.xlen d.length ≠ Emu.Machine.illegal := by
  intro h
  have hnat := congrArg BitVec.toNat h
  have hle := length_le d
  have hillegal : (Emu.Machine.illegal : BitVec Emu.Rv.rv64.xlen).toNat = 2 ^ 64 - 1 := by decide
  have hlen : (BitVec.ofNat Emu.Rv.rv64.xlen d.length).toNat = d.length := by
    rw [BitVec.toNat_ofNat]
    exact Nat.mod_eq_of_lt (by omega : d.length < 2 ^ 64)
  rw [hillegal, hlen] at hnat
  omega

/-- The interpreter executes the instruction and comes to `pc` with the registers `x` and the memory `mem`. -/
def Executes (px : Emu.ProxyHost .rv64 σ) (host : Emu.Host) (isa : Emu.Isa) (m : Emu.Proxied .rv64 σ) (pc : BitVec 64)
    (x : Nat → BitVec 64) (mem : σ) : Prop :=
  ∃ m', Ran px host isa m m' ∧ m'.hart.pc = pc ∧ regs m'.hart = x ∧ m'.mem = mem

/-- The interpreter is stopped by a signal, in this instruction. -/
def Signals (px : Emu.ProxyHost .rv64 σ) (host : Emu.Host) (isa : Emu.Isa) (m : Emu.Proxied .rv64 σ) : Prop :=
  ∃ m', interpretNext px host isa m = .error .signal m' ∧ m'.mem = m.mem

theorem Ran.of_step {offset : BitVec Emu.Rv.rv64.xlen} {rd : Nat} {v : BitVec 64} {mem : σ}
    (h : interpretNext px host isa m = .ok () (retireProxied offset ⟨m.hart.writeRd rd v, mem⟩)) :
    Ran px host isa m (retireProxied offset ⟨m.hart.writeRd rd v, mem⟩) where
  steps := .single h
  rest := rfl
  zero h0 := by
    show (m.hart.writeRd rd v).ireg 0 = 0
    unfold Emu.Hart.writeRd
    dsimp only
    split
    · next hrd => exact if_pos hrd.symm
    · exact h0

theorem Ran.of_step_kept {offset : BitVec Emu.Rv.rv64.xlen} {mem : σ}
    (h : interpretNext px host isa m = .ok () (retireProxied offset ⟨m.hart, mem⟩)) :
    Ran px host isa m (retireProxied offset ⟨m.hart, mem⟩) := ⟨.single h, rfl, id⟩

theorem hostLoad_ok {n addr v : Nat} (h : px.load n addr m.mem = some v) : px.hostLoad n addr m = .ok v m := by
  unfold Emu.ProxyHost.hostLoad
  rw [h]

theorem hostLoad_signal {n addr : Nat} (h : px.load n addr m.mem = none) : px.hostLoad n addr m = .error .signal m := by
  unfold Emu.ProxyHost.hostLoad
  rw [h]

theorem hostStore_ok {n addr val : Nat} {mem : σ} (h : px.store n addr val m.mem = some mem) :
    px.hostStore n addr val m = .ok () ⟨m.hart, mem⟩ := by
  unfold Emu.ProxyHost.hostStore
  rw [h]

theorem hostStore_signal {n addr val : Nat} (h : px.store n addr val m.mem = none) :
    px.hostStore n addr val m = .error .signal m := by
  unfold Emu.ProxyHost.hostStore
  rw [h]

section Cases
variable (h : Holds px isa m.mem d) (hop : d.op = .rv op) (hext : isa.ext ext = true) (hpc : m.hart.pc = d.pc)
include h hop hext hpc

theorem executes_setRd {v : BitVec 64} (ha : Emu.action host m.hart (d.dec op) op = some (ext, .setRd v)) :
    Executes px host isa m d.nextPc (setReg (regs m.hart) d.rd v) m.mem :=
  ⟨_, .of_step (interpretNext_ok h hop ha hext hpc rfl (length_ne_illegal d)),
    congrArg (fun pc : BitVec 64 => pc + BitVec.ofNat 64 d.length) hpc, rfl, rfl⟩

theorem executes_jump {offset : BitVec 64} (ha : Emu.action host m.hart (d.dec op) op = some (ext, .jump offset))
    (hoff : offset ≠ -1) :
    Executes px host isa m (d.pc + offset) (setReg (regs m.hart) d.rd d.nextPc) m.mem := by
  have hnext : m.hart.pc + BitVec.ofNat Emu.Rv.rv64.xlen d.length = d.nextPc :=
    congrArg (fun pc : BitVec 64 => pc + BitVec.ofNat 64 d.length) hpc
  have hstep := interpretNext_ok h hop ha hext hpc rfl hoff
  refine ⟨_, .of_step hstep, congrArg (fun pc : BitVec 64 => pc + offset) hpc, ?_, rfl⟩
  show setReg (regs m.hart) d.rd (m.hart.pc + BitVec.ofNat Emu.Rv.rv64.xlen d.length) = _
  rw [hnext]

theorem executes_branch {b : Bool} (ha : Emu.action host m.hart (d.dec op) op = some (ext, .branch b))
    (heven : d.imm.signExtend 64 ≠ -1) :
    Executes px host isa m (d.branchTo b) (regs m.hart) m.mem := by
  have hoff : (if b then d.imm.signExtend 64 else BitVec.ofNat 64 d.length) ≠ (Emu.Machine.illegal : BitVec Emu.Rv.rv64.xlen) := by
    cases b with
    | true => exact heven
    | false => exact length_ne_illegal d
  refine ⟨_, .of_step_kept (interpretNext_ok h hop ha hext hpc rfl hoff), ?_, rfl, rfl⟩
  have hto := congrArg (fun pc : BitVec 64 => pc + if b then d.imm.signExtend 64 else BitVec.ofNat 64 d.length) hpc
  refine hto.trans ?_
  cases b <;> rfl

theorem executes_load {n v : Nat} {signed : Bool} {va : BitVec 64}
    (ha : Emu.action host m.hart (d.dec op) op = some (ext, .load n signed va)) (hload : px.load n va.toNat m.mem = some v) :
    Executes px host isa m d.nextPc (setReg (regs m.hart) d.rd (fill n signed v)) m.mem := by
  have hbus : px.bus.load n va m = .ok v m := hostLoad_ok hload
  have hrun : (Emu.Action.load n signed va : Emu.Action .rv64).runOn px.bus (d.dec op) (BitVec.ofNat 64 d.length) m =
      .ok (BitVec.ofNat 64 d.length) ⟨m.hart.writeRd d.rd (fill n signed v), m.mem⟩ := (Lib.Prog.bind_ok hbus).trans rfl
  exact ⟨_, .of_step (interpretNext_ok h hop ha hext hpc hrun (length_ne_illegal d)),
    congrArg (fun pc : BitVec 64 => pc + BitVec.ofNat 64 d.length) hpc, rfl, rfl⟩

theorem signals_load {n : Nat} {signed : Bool} {va : BitVec 64}
    (ha : Emu.action host m.hart (d.dec op) op = some (ext, .load n signed va)) (hload : px.load n va.toNat m.mem = none) :
    Signals px host isa m := by
  have hbus : px.bus.load n va m = .error .signal m := hostLoad_signal hload
  exact ⟨_, interpretNext_error h hop ha hext hpc (Lib.Prog.bind_error hbus), rfl⟩

theorem executes_store {n val : Nat} {va : BitVec 64} {mem : σ}
    (ha : Emu.action host m.hart (d.dec op) op = some (ext, .store n va val)) (hstore : px.store n va.toNat val m.mem = some mem) :
    Executes px host isa m d.nextPc (regs m.hart) mem := by
  have hbus : px.bus.store n va val m = .ok () ⟨m.hart, mem⟩ := hostStore_ok hstore
  have hrun : (Emu.Action.store n va val : Emu.Action .rv64).runOn px.bus (d.dec op) (BitVec.ofNat 64 d.length) m =
      .ok (BitVec.ofNat 64 d.length) ⟨m.hart, mem⟩ := (Lib.Prog.bind_ok hbus).trans rfl
  exact ⟨_, .of_step_kept (interpretNext_ok h hop ha hext hpc hrun (length_ne_illegal d)),
    congrArg (fun pc : BitVec 64 => pc + BitVec.ofNat 64 d.length) hpc, rfl, rfl⟩

theorem signals_store {n val : Nat} {va : BitVec 64}
    (ha : Emu.action host m.hart (d.dec op) op = some (ext, .store n va val)) (hstore : px.store n va.toNat val m.mem = none) :
    Signals px host isa m := by
  have hbus : px.bus.store n va val m = .error .signal m := hostStore_signal hstore
  exact ⟨_, interpretNext_error h hop ha hext hpc (Lib.Prog.bind_error hbus), rfl⟩

end Cases

end Steps

end Rv8.Jit
