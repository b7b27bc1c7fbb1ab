import Rv8.Asm.Switch
import Rv8.Emu.Interp
/-!
# The run loop

`processor_runloop` of `processor-runloop.h` over the processor models of
`processor-model.h`: an instruction is fetched, looked up in a direct-mapped cache of
decoded instructions, executed by the interpreter or else by `inst_priv`, and retired;
where both return -1 it is illegal. What is raised on the way goes to `trap`. The
breakpoints of the debugger are left out.
-/

namespace Rv8.Emu

open Rv8.Lib Rv8.Asm

/-! ## Processor models -/

/-- `RV_I`, `RV_IMA`, `RV_IMAC`, `RV_IMAFD` and `RV_IMAFDC` -/
inductive Isa
  | i | ima | imac | imafd | imafdc
deriving DecidableEq

namespace Isa

def ext : Isa → Ext → Bool
  | .i => fun e => e = .i
  | .ima | .imac => fun e => e = .i ∨ e = .m ∨ e = .a
  | .imafd | .imafdc => fun _ => true

def compressed : Isa → Bool
  | .i | .ima | .imafd => false
  | .imac | .imafdc => true

theorem ext_i (isa : Isa) : isa.ext .i = true := by
  cases isa <;> rfl

def flags (isa : Isa) (R : Rv) : Flag → Bool
  | .rv32 => R = .rv32
  | .rv64 => R = .rv64
  | .rv128 => false
  | .rvi => isa.ext .i
  | .rvm => isa.ext .m
  | .rva => isa.ext .a
  | .rvs => true
  | .rvf => isa.ext .f
  | .rvd => isa.ext .d
  | .rvq => false
  | .rvc => isa.compressed

end Isa

def Rv.decompress : Rv → Decode → Decode
  | .rv32 => decompressInstRv32
  | .rv64 => decompressInstRv64

/-- `inst_decode` into a record that is already there. -/
def instDecode (R : Rv) (isa : Isa) (dec : Decode) (inst : Nat) : Decode :=
  let dec := decodeInstType { dec with op := decodeInstOp (isa.flags R) inst } inst
  if isa.compressed then R.decompress dec else dec

/-! ## Cache of decoded instructions -/

def instCacheSize : Nat := 8191

structure InstCacheEnt where
  inst : Nat := 0
  dec : Decode := {}

/-- The members of the run loop and the local `dec` that outlive an instruction. -/
structure InstCache where
  ent : Nat → InstCacheEnt := fun _ => {}
  dec : Decode := {}

/-- Leaves the record to execute in `dec`. -/
def InstCache.lookup (R : Rv) (isa : Isa) (c : InstCache) (inst : Nat) : InstCache :=
  let key := inst % instCacheSize
  if (c.ent key).inst = inst then { c with dec := (c.ent key).dec }
  else
    let dec := instDecode R isa c.dec inst
    { ent := Function.update c.ent key { inst, dec }, dec }

/-- `step` is entered anew: its local is constructed again. -/
def InstCache.enter (c : InstCache) : InstCache := { c with dec := {} }

/-! ## Executing a decoded instruction -/

/-- What reaches the `setjmp` of `step`. -/
inductive Raise
  | mmu (e : MmuExit)
  | illegalInstruction
deriving DecidableEq

section Execute
variable {R : Rv} {σ : Type} (port : Port σ) (host : Host) (isa : Isa) (getTime : BitVec 64)

namespace Machine

/-- `P::pc += new_offset; P::instret++` -/
def retire (s : Machine R σ) (offset : BitVec R.xlen) : Machine R σ :=
  { s with hart := { s.hart with pc := s.hart.pc + offset, csrs.instret := s.hart.csrs.instret + 1 } }

/-- `inst_exec`, then `inst_priv`, then an illegal instruction. -/
def execute (dec : Decode) (pcOffset : BitVec R.xlen) : Prog Raise (Machine R σ) Unit := do
  let newOffset ← (execInst port host isa.ext dec pcOffset).onError fun e => .throw (.mmu e)
  if newOffset ≠ illegal then .modify fun s => s.retire newOffset
  else do
    let newOffset ← .modifyGet fun s => (s.instPriv getTime dec pcOffset).swap
    if newOffset ≠ illegal then .modify fun s => s.retire newOffset
    else .throw .illegalInstruction

variable {port host isa getTime}

section Equations
variable {dec : Decode} {pcOffset off : BitVec R.xlen} {s s1 : Machine R σ}

theorem execute_of_ne_illegal (h : execInst port host isa.ext dec pcOffset s = .ok off s1) (hi : off ≠ illegal) :
    execute port host isa getTime dec pcOffset s = .ok () (s1.retire off) := by
  have hexec : ((execInst port host isa.ext dec pcOffset).onError fun e => .throw (.mmu e) : Prog Raise _ _) s =
      .ok off s1 := by
    unfold Prog.onError
    rw [h]
  unfold execute
  rw [Prog.bind_ok hexec, if_pos hi]
  rfl

/-- An assignment to `rd` and the next instruction. -/
theorem execute_setRd {ext : Ext} {v : BitVec R.xlen} (ha : action host s.hart dec dec.op = some (ext, .setRd v))
    (hext : isa.ext ext = true) (hi : pcOffset ≠ illegal) :
    execute port host isa getTime dec pcOffset s = .ok () (retire { s with hart := s.hart.writeRd dec.rd v } pcOffset) :=
  execute_of_ne_illegal (execInst_setRd ha hext) hi

/-- Where the interpreter returns -1, `inst_priv` decides. -/
theorem execute_of_illegal (h : execInst port host isa.ext dec pcOffset s = .ok illegal s1) :
    execute port host isa getTime dec pcOffset s =
      (if (s1.instPriv getTime dec pcOffset).2 ≠ illegal then .modify fun t => t.retire (s1.instPriv getTime dec pcOffset).2
        else .throw .illegalInstruction : Prog _ _ _) (s1.instPriv getTime dec pcOffset).1 := by
  have hexec : ((execInst port host isa.ext dec pcOffset).onError fun e => .throw (.mmu e) : Prog Raise _ _) s =
      .ok illegal s1 := by
    unfold Prog.onError
    rw [h]
  unfold execute
  rw [Prog.bind_ok hexec, if_neg (by simp)]
  rfl

theorem execute_of_error {e : MmuExit} (h : execInst port host isa.ext dec pcOffset s = .error e s1) :
    execute port host isa getTime dec pcOffset s = .error (.mmu e) s1 := by
  unfold execute
  apply Prog.bind_error
  unfold Prog.onError
  rw [h]
  rfl

theorem execute_of_undefined (h : execInst port host isa.ext dec pcOffset s = .undefined) :
    execute port host isa getTime dec pcOffset s = .undefined := by
  unfold execute
  apply Prog.bind_undefined
  unfold Prog.onError
  rw [h]

end Equations

end Machine

end Execute

/-! ## The loop -/

structure Runloop (R : Rv) (σ : Type) where
  machine : Machine R σ
  cache : InstCache
  /-- The local `pc_offset`, which a fetch may leave as it was. -/
  pcOffset : BitVec R.xlen

/-- How `step` is left. -/
inductive StepExit
  | trap (e : TrapExit)
  | panic
deriving DecidableEq

namespace Hart

variable {R : Rv} (s : Hart R)

/-- `resetvec` -/
def resetvec : BitVec R.xlen := 0x1000

def reset : Hart R :=
  { s with
    mode := .M
    csrs.mstatus := setStatus .mie 0 (setStatus .mprv 0 (setStatus .vm 0 s.csrs.mstatus))
    csrs.mcause := 0
    pc := resetvec }

end Hart

section Loop
variable {R : Rv} {σ : Type} (port : Port σ) (host : Host) (isa : Isa)

namespace Runloop

def onMachine {ε α : Type} (m : Prog ε (Machine R σ) α) : Prog ε (Runloop R σ) α :=
  m.zoom (fun s => s.machine) fun s machine => { s with machine }

def onHart {α : Type} (m : Prog TrapExit (Hart R) α) : Prog StepExit (Runloop R σ) α :=
  (m.zoom (fun s : Runloop R σ => s.machine.hart) fun s hart => { s with machine := { s.machine with hart } }).onError
    fun e => .throw (.trap e)

/-- One turn of the loop, up to what it raises. -/
def turn (getTime : BitVec 64) : Prog Raise (Runloop R σ) Unit := do
  let s ← .get
  let fetched ← (onMachine (Machine.onMmu fun proc =>
    instFetch port R proc s.machine.hart.pc.toNat s.pcOffset.toNat)).onError fun e => .throw (.mmu e)
  .modify fun s => { s with cache := s.cache.lookup R isa fetched.1, pcOffset := BitVec.ofNat R.xlen fetched.2 }
  let s ← .get
  onMachine (Machine.execute port host isa getTime s.cache.dec s.pcOffset)

/-- `raise` stores the bad address and jumps to `trap`. -/
def raised (badaddr : BitVec R.xlen) (cause : TrapCause) : Prog StepExit (Runloop R σ) Unit := do
  .modify fun s => { s with machine.hart.badaddr := badaddr }
  let s ← .get
  let _ ← onHart (trap s.cache.dec.op (.sync cause))
  pure ()

def handle : Raise → Prog StepExit (Runloop R σ) Unit
  | .mmu (.raise cause badaddr) => raised (BitVec.ofNat R.xlen badaddr) (.mem cause)
  | .mmu .panic => .throw .panic
  | .illegalInstruction => do
    let s ← .get
    raised s.machine.hart.pc .illegalInstruction

/-- What happens in the course of a run. -/
inductive Event
  /-- `step` is called, and polls the devices. -/
  | call (time : BitVec 64) (lines : IntrLines)
  | turn (getTime : BitVec 64)
  /-- The signal that resets the processor, whose cause `trap` ignores. -/
  | reset

def next : Event → Prog StepExit (Runloop R σ) Unit
  | .call time lines => do
    .modify fun s => { s with
      machine.hart.csrs.time := time
      cache := s.cache.enter
      pcOffset := BitVec.ofNat R.xlen host.uninit }
    let _ ← onHart (isr lines)
    pure ()
  | .turn getTime => (turn port host isa getTime).onError handle
  | .reset => .modify fun s => { s with machine.hart := { s.machine.hart.reset with badaddr := s.machine.hart.pc } }

/-- A processor as constructed, seeded and reset: every register but `x0` may hold anything. -/
structure Started (s : Runloop R σ) : Prop where
  x0 : s.machine.hart.ireg 0 = 0
  cache : s.cache = {}
  reset : ∃ hart : Hart R, s.machine.hart = hart.reset

/-- The states of every run. `step` may be left into the debugger and entered again. -/
inductive Reachable : Runloop R σ → Prop
  | start {s : Runloop R σ} : Started s → Reachable s
  | ok {s s' : Runloop R σ} (e : Event) : Reachable s → next port host isa e s = .ok () s' → Reachable s'
  | error {s s' : Runloop R σ} (e : Event) (x : StepExit) : Reachable s → next port host isa e s = .error x s' → Reachable s'

end Runloop

end Loop

end Rv8.Emu
