import Rv8.Lib.BitField
import Rv8.Emu.Mmu
/-!
# Traps, interrupts and privileged instructions

The hart of `processor-base.h` and `processor-priv-1.9.h`: `strap` and `mtrap`, which
enter a handler, `trap` and `isr`, which choose one, and `inst_priv`, which executes
the instructions the interpreter does not know. `raise` leaves by `longjmp`, so a
raised cause is an error here.

What the devices answer to `isr` and the host clock are parameters. Of `log`, only
the flags that start the debugger are kept.
-/

namespace Rv8.Emu

open Rv8.Lib Rv8.Asm

/-! ## State -/

/-- The members `debugging` and `log` that a trap reads. -/
structure Debug where
  (debugging trapCli ebreakCli : Bool)
deriving DecidableEq, Inhabited

structure Hart (R : Rv) extends Processor R.xlen where
  (pc lr badaddr : BitVec R.xlen)
  freg : Nat → BitVec 64
  debug : Debug
deriving Inhabited

structure Machine (R : Rv) (σ : Type) where
  hart : Hart R
  mmu : Mmu σ

/-- A machine without memory. -/
def bareMachine {R : Rv} (hart : Hart R) : Machine R UserMemory where
  hart
  mmu := { l1Itlb := Tlb.empty R, l1Dtlb := Tlb.empty R, mem := ⟨[], fun _ _ => 0⟩ }

theorem Rv.le_xlen (R : Rv) : 32 ≤ R.xlen := by
  cases R <;> decide

/-- The values that a 2-bit field holds. -/
def RvMode.ofField (v : BitVec 2) : RvMode :=
  match v.toNat with
  | 0 => .U | 1 => .S | 2 => .H | _ => .M

theorem RvMode.ofField_ofNat (m : RvMode) : RvMode.ofField (BitVec.ofNat 2 m.toNat) = m := by
  cases m <;> rfl

/-! ## Bit-fields of `mstatus`, `mip` and `mie` -/

/-- The fields of `mstatus` that traps, returns and `reset` assign. -/
inductive StatusField
  | sie | mie | spie | mpie | spp | mpp | mprv | vm
deriving DecidableEq

def StatusField.bits : StatusField → BitField
  | .sie => ⟨1, 1⟩ | .mie => ⟨3, 1⟩ | .spie => ⟨5, 1⟩ | .mpie => ⟨7, 1⟩ | .spp => ⟨8, 1⟩ | .mpp => ⟨11, 2⟩
  | .mprv => ⟨17, 1⟩ | .vm => ⟨24, 4⟩

/-- The interrupt sources `isr` polls, in its order. -/
inductive IntrSource
  | external | timer | software
deriving DecidableEq

namespace IntrSource

/-- `rv_intr_s_*`, which is also the place of its bit in `mip` and `mie`. -/
def sIntr : IntrSource → Nat
  | .external => 9 | .timer => 5 | .software => 1

/-- `rv_intr_m_*` -/
def mIntr : IntrSource → Nat
  | .external => 11 | .timer => 7 | .software => 3

end IntrSource

/-! ## Causes -/

/-- The synchronous causes that are raised or that `trap` puts in their place. -/
inductive TrapCause
  | mem (cause : RvCause)
  | illegalInstruction | breakpoint | userEcall | supervisorEcall | hypervisorEcall | machineEcall
deriving DecidableEq

/-- `rv_cause_*` -/
def TrapCause.number : TrapCause → Nat
  | .mem .misalignedFetch => 0 | .mem .faultFetch => 1 | .illegalInstruction => 2 | .breakpoint => 3
  | .mem .misalignedLoad => 4 | .mem .faultLoad => 5 | .mem .misalignedStore => 6 | .mem .faultStore => 7
  | .userEcall => 8 | .supervisorEcall => 9 | .hypervisorEcall => 10 | .machineEcall => 11

/-- What `trap` is called with. -/
inductive RaisedCause
  | reset
  | sync (cause : TrapCause)
deriving DecidableEq

/-- Who handles a trap: `strap` or `mtrap` enters it, `sret` or `mret` leaves it. -/
inductive Handler
  | S | M
deriving DecidableEq

def Handler.mode : Handler → RvMode
  | .S => .S | .M => .M

/-- How a trap is left before its end: into the debugger, after a handler was entered or not, or for good. -/
inductive TrapExit
  | cli (entered : Option Handler)
  | terminate
deriving DecidableEq

/-! ## `strap` and `mtrap` -/

section Fields
variable {n : Nat}

def getStatus (f : StatusField) (x : BitVec n) : BitVec f.bits.width := f.bits.get x

def setStatus (f : StatusField) (v : BitVec f.bits.width) (x : BitVec n) : BitVec n := f.bits.set x v

/-- A 1-bit field of `mip`. -/
def setBit (i : Nat) (b : Bool) (x : BitVec n) : BitVec n := BitField.set ⟨i, 1⟩ x (BitVec.ofBool b)

end Fields

namespace Hart

variable {R : Rv} (s : Hart R)

def status (f : StatusField) : BitVec f.bits.width := getStatus f s.csrs.mstatus

/-- `cause | (interrupt ? (1ULL << (P::xlen - 1)) : 0ULL)` -/
def xcause (cause : Nat) (interrupt : Bool) : BitVec R.xlen :=
  BitVec.ofNat R.xlen cause ||| if interrupt then 1 <<< (R.xlen - 1) else 0

/-- The assignments of `strap`. The mode is cut to the one bit of `spp`. -/
def enterS (cause : Nat) (interrupt : Bool) : Hart R :=
  { s with
    csrs.sepc := s.pc
    csrs.scause := xcause cause interrupt
    csrs.mstatus := setStatus .sie 0 (setStatus .spie (s.status .sie)
      (setStatus .spp (BitVec.ofNat 1 s.mode.toNat) s.csrs.mstatus))
    mode := .S
    pc := s.csrs.stvec }

/-- The assignments of `mtrap`. -/
def enterM (cause : Nat) (interrupt : Bool) : Hart R :=
  { s with
    csrs.mepc := s.pc
    csrs.mcause := xcause cause interrupt
    csrs.mstatus := setStatus .mie 0 (setStatus .mpie (s.status .mie)
      (setStatus .mpp (BitVec.ofNat 2 s.mode.toNat) s.csrs.mstatus))
    mode := .M
    pc := s.csrs.mtvec }

def enter (h : Handler) (cause : Nat) (interrupt : Bool) : Hart R :=
  match h with
  | .S => s.enterS cause interrupt
  | .M => s.enterM cause interrupt

end Hart

variable {R : Rv}

/-- `P::raise(P::internal_cause_cli, P::pc)` -/
def raiseCli (entered : Option Handler) : Prog TrapExit (Hart R) (Option Handler) := do
  .modify fun s => { s with badaddr := s.pc }
  .throw (.cli entered)

/-- `strap` and `mtrap`. The value returned is the handler that was entered. -/
def xtrap (h : Handler) (cause : Nat) (interrupt : Bool) : Prog TrapExit (Hart R) (Option Handler) := do
  .modify fun s => s.enter h cause interrupt
  let s ← .get
  if s.debug.debugging ∧ s.debug.trapCli then raiseCli (some h)
  else pure (some h)

def strap (cause : Nat) (interrupt : Bool) : Prog TrapExit (Hart R) (Option Handler) := xtrap .S cause interrupt

def mtrap (cause : Nat) (interrupt : Bool) : Prog TrapExit (Hart R) (Option Handler) := xtrap .M cause interrupt

/-! ## `isr` -/

/-- What the devices answer when they are polled. -/
structure IntrLines where
  (eip tip sip : Bool)
deriving DecidableEq

def IntrLines.pending (lines : IntrLines) : IntrSource → Bool
  | .external => lines.eip | .timer => lines.tip | .software => lines.sip

namespace Hart

variable (s : Hart R) (src : IntrSource)

/-- `P::mstatus.r.mie && P::mie.r.m*ie` -/
def EnabledM : Prop := s.status .mie = 1 ∧ s.csrs.mie.getLsbD src.mIntr

/-- `P::mstatus.r.sie && P::mie.r.s*ie` -/
def EnabledS : Prop := s.status .sie = 1 ∧ s.csrs.mie.getLsbD src.sIntr

instance : Decidable (s.EnabledM src) := inferInstanceAs (Decidable (_ ∧ _))

instance : Decidable (s.EnabledS src) := inferInstanceAs (Decidable (_ ∧ _))

/-- Both pending bits of a source follow the device. -/
def setPending (b : Bool) : Hart R := { s with csrs.mip := setBit src.sIntr b (setBit src.mIntr b s.csrs.mip) }

end Hart

/-- The block of `isr` for one source, `next` being those that follow. -/
def service (lines : IntrLines) (src : IntrSource) (next : Prog TrapExit (Hart R) (Option Handler)) :
    Prog TrapExit (Hart R) (Option Handler) := do
  .modify fun s => s.setPending src (lines.pending src)
  let s ← .get
  if lines.pending src then
    if s.EnabledM src then mtrap src.mIntr true
    else if s.EnabledS src then strap src.sIntr true
    else next
  else next

def isr (lines : IntrLines) : Prog TrapExit (Hart R) (Option Handler) :=
  service lines .external <| service lines .timer <| service lines .software <| pure none

/-! ## `trap` -/

/-- Translates the causes that are caught as illegal instructions. -/
def translateCause (op : RvOp) (mode : RvMode) (cause : TrapCause) : TrapCause :=
  if cause = .illegalInstruction then
    match op, mode with
    | .ebreak, _ => .breakpoint
    | .ecall, .U => .userEcall
    | .ecall, .S => .supervisorEcall
    | .ecall, .H => .hypervisorEcall
    | .ecall, .M => .machineEcall
    | _, _ => cause
  else cause

/-- `P::medeleg & deleg`, where `1 << cause` is an `int`. -/
def Delegated (medeleg : BitVec R.xlen) (cause : TrapCause) : Prop :=
  medeleg &&& ((1 : BitVec 32) <<< cause.number).signExtend R.xlen ≠ 0

instance (medeleg : BitVec R.xlen) (cause : TrapCause) : Decidable (Delegated medeleg cause) :=
  inferInstanceAs (Decidable (_ ≠ _))

namespace Hart

variable (s : Hart R) (cause : TrapCause)

/-- Only faults of fetches, loads and stores set a bad address. -/
def setSbadaddr : Hart R :=
  match cause with
  | .mem _ => { s with csrs.sbadaddr := s.badaddr }
  | _ => s

def setMbadaddr : Hart R :=
  match cause with
  | .mem _ => { s with csrs.mbadaddr := s.badaddr }
  | _ => s

def clearSip : Hart R :=
  { s with csrs.mip := setBit 1 false (setBit 9 false (setBit 5 false s.csrs.mip)) }

def clearMip : Hart R :=
  { s with csrs.mip := setBit 3 false (setBit 11 false (setBit 7 false s.csrs.mip)) }

end Hart

def trap (op : RvOp) : RaisedCause → Prog TrapExit (Hart R) (Option Handler)
  | .reset => pure none
  | .sync raised => do
    let s ← .get
    let cause := translateCause op s.mode raised
    if op = .ebreak then
      if s.debug.ebreakCli then raiseCli none else .throw .terminate
    else if Delegated s.csrs.medeleg cause then do
      .modify fun s => (s.setSbadaddr cause).clearSip
      strap cause.number false
    else do
      .modify fun s => (s.setMbadaddr cause).clearMip
      mtrap cause.number false

/-! ## `inst_priv` -/

namespace Hart

variable (s : Hart R)

/-- The assignments of `sret` and the offset it returns. -/
def sret : Hart R × BitVec R.xlen :=
  ({ s with
      mode := RvMode.ofField ((s.status .spp).setWidth 2)
      csrs.mstatus := setStatus .spie 0 (setStatus .sie (s.status .spie) (setStatus .spp 0 s.csrs.mstatus)) },
    s.csrs.sepc - s.pc)

def mret : Hart R × BitVec R.xlen :=
  ({ s with
      mode := RvMode.ofField (s.status .mpp)
      csrs.mstatus := setStatus .mpie 0 (setStatus .mie (s.status .mpie) (setStatus .mpp 0 s.csrs.mstatus)) },
    s.csrs.mepc - s.pc)

end Hart

namespace Machine

variable {σ : Type} (getTime : BitVec 64) (s : Machine R σ) (dec : Decode) (pcOffset : BitVec R.xlen)

/-- The offset of an illegal instruction. -/
def illegal : BitVec R.xlen := -1

/-- A case that runs in `mode` and above. -/
def privileged (mode : RvMode) (r : Machine R σ × BitVec R.xlen) : Machine R σ × BitVec R.xlen :=
  if s.hart.mode.toNat ≥ mode.toNat then r else (s, illegal)

def sfenceVm : Machine R σ :=
  let pdid := s.hart.pdid.toNat
  let asid := asid R s.hart.toProcessor
  { s with mmu := { s.mmu with l1Itlb := s.mmu.l1Itlb.flush R pdid asid, l1Dtlb := s.mmu.l1Dtlb.flush R pdid asid } }

/-- `wait_for_interrupt` sleeps and changes nothing here. -/
def instPriv : Machine R σ × BitVec R.xlen :=
  match s.hart.toProcessor.instPrivCsr getTime dec (pcOffset.setWidth 64) with
  | some (p, off) => ({ s with hart := { s.hart with toProcessor := p } }, off.setWidth R.xlen)
  | none =>
    match dec.op with
    | .sret => s.privileged .S ({ s with hart := s.hart.sret.1 }, s.hart.sret.2)
    | .mret => s.privileged .M ({ s with hart := s.hart.mret.1 }, s.hart.mret.2)
    | .sfence_vm => s.privileged .S (s.sfenceVm, pcOffset)
    | .wfi => s.privileged .S (s, pcOffset)
    | .fence => (s, pcOffset)
    | .fence_i => (s, pcOffset)
    | _ => (s, illegal)

end Machine

/-! ## What a trap leaves alone -/

/-- The registers that neither `trap` nor `isr` assigns are the same in both states. -/
structure Hart.SameUntrapped (s t : Hart R) : Prop where
  ireg : t.ireg = s.ireg
  lr : t.lr = s.lr
  instret : t.csrs.instret = s.csrs.instret
  mtvec : t.csrs.mtvec = s.csrs.mtvec
  stvec : t.csrs.stvec = s.csrs.stvec

section Untrapped
open Prog
variable (s0 : Hart R)

theorem Hart.SameUntrapped.refl (s : Hart R) : s.SameUntrapped s := ⟨rfl, rfl, rfl, rfl, rfl⟩

theorem keeps_raiseCli (entered : Option Handler) : Keeps s0.SameUntrapped (raiseCli entered) := by
  refine keeps_bind (keeps_modify fun s hs => ?_) fun _ => keeps_throw _
  exact ⟨hs.ireg, hs.lr, hs.instret, hs.mtvec, hs.stvec⟩

theorem keeps_xtrap (h : Handler) (cause : Nat) (interrupt : Bool) : Keeps s0.SameUntrapped (xtrap h cause interrupt) := by
  refine keeps_bind (keeps_modify fun s hs => ?_) fun _ => ?_
  · cases h <;> exact ⟨hs.ireg, hs.lr, hs.instret, hs.mtvec, hs.stvec⟩
  · exact keeps_bind keeps_get fun s => keeps_ite (keeps_raiseCli _ _) (keeps_pure _)

theorem keeps_service (lines : IntrLines) (src : IntrSource) {next : Prog TrapExit (Hart R) (Option Handler)}
    (h : Keeps s0.SameUntrapped next) : Keeps s0.SameUntrapped (service lines src next) := by
  refine keeps_bind (keeps_modify fun s hs => ?_) fun _ => keeps_bind keeps_get fun s => ?_
  · exact ⟨hs.ireg, hs.lr, hs.instret, hs.mtvec, hs.stvec⟩
  · apply keeps_ite
    · exact keeps_ite (keeps_xtrap _ _ _ _) (keeps_ite (keeps_xtrap _ _ _ _) h)
    · exact h

theorem keeps_isr (lines : IntrLines) : Keeps s0.SameUntrapped (isr lines) :=
  keeps_service _ _ _ (keeps_service _ _ _ (keeps_service _ _ _ (keeps_pure _)))

theorem keeps_trap (op : RvOp) (cause : RaisedCause) : Keeps s0.SameUntrapped (trap op cause) := by
  cases cause with
  | reset => exact keeps_pure _
  | sync raised =>
    refine keeps_bind keeps_get fun s => ?_
    apply keeps_ite
    · exact keeps_ite (keeps_raiseCli _ _) (keeps_throw _)
    · apply keeps_ite
      · refine keeps_bind (keeps_modify fun s hs => ?_) fun _ => keeps_xtrap _ _ _ _
        unfold Hart.setSbadaddr
        split <;> exact ⟨hs.ireg, hs.lr, hs.instret, hs.mtvec, hs.stvec⟩
      · refine keeps_bind (keeps_modify fun s hs => ?_) fun _ => keeps_xtrap _ _ _ _
        unfold Hart.setMbadaddr
        split <;> exact ⟨hs.ireg, hs.lr, hs.instret, hs.mtvec, hs.stvec⟩

end Untrapped

end Rv8.Emu
