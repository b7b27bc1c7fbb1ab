import Rv8.Emu.FloatCsr
import Rv8.Emu.Frame
/-!
# The proxy processor

`processor_proxy` with the MMU of `mmu-proxy.h`: programs of user level run in the
memory of the host process, and `ecall` hands a system call over to the host. A trap
ends the program, as does a signal for an access to memory that is not mapped.
-/

namespace Rv8.Emu

open Rv8.Lib Rv8.Asm Prog

variable {R : Rv} {σ : Type}

/-- The memory of the process, and `proxy_syscall`. What is not mapped or does not come back has no value. -/
structure ProxyHost (R : Rv) (σ : Type) where
  load : Nat → Nat → σ → Option Nat
  store : Nat → Nat → Nat → σ → Option σ
  syscall : (Nat → BitVec R.xlen) → σ → Option ((Nat → BitVec R.xlen) × σ)

structure Proxied (R : Rv) (σ : Type) where
  hart : Hart R
  mem : σ

/-- How an instruction is left. `raise` jumps back to `step`, and a system call may end the process. -/
inductive ProxyRaise
  | signal | exit | hotspot | illegalInstruction
deriving DecidableEq

def memoryTop : Rv → Nat
  | .rv32 => 0x80000000
  | .rv64 => 0x7f0000000000

namespace ProxyHost

variable (px : ProxyHost R σ)

def hostLoad (n addr : Nat) : Prog ProxyRaise (Proxied R σ) Nat := fun s =>
  match px.load n addr s.mem with
  | some v => .ok v s
  | none => .error .signal s

def hostStore (n addr val : Nat) : Prog ProxyRaise (Proxied R σ) Unit := fun s =>
  match px.store n addr val s.mem with
  | some mem => .ok () { s with mem }
  | none => .error .signal s

/-- Only `amo` masks its address. -/
def bus : Bus R ProxyRaise (Proxied R σ) where
  hart s := s.hart
  setHart s hart := { s with hart }
  load n va := px.hostLoad n va.toNat
  store n va val := px.hostStore n va.toNat val
  amo n aop va val2 := do
    let addr := va.toNat &&& (memoryTop R - 1)
    let val1 ← px.hostLoad n addr
    px.hostStore n addr (amoVal R n aop val1 val2)
    pure val1
  fstore fmt va val := px.hostStore (fmt.width / 8) va.toNat val.toNat

/-- `riscv::inst_fetch`, which gives the instruction and its length, or 0 twice. -/
def instFetch (pc : Nat) : Prog ProxyRaise (Proxied R σ) (Nat × Nat) := do
  let inst ← px.hostLoad 4 pc
  if inst &&& 0b11 ≠ 0b11 then pure (inst &&& 0xffff, 2)
  else if inst &&& 0b11100 ≠ 0b11100 then pure (inst, 4)
  else if inst &&& 0b111111 = 0b011111 then do
    let inst4 ← px.hostLoad 2 ((pc + 4) % 2 ^ 64)
    pure (inst ||| inst4 <<< 32, 6)
  else if inst &&& 0b1111111 = 0b0111111 then do
    let inst4 ← px.hostLoad 4 ((pc + 4) % 2 ^ 64)
    pure (inst ||| inst4 <<< 32, 8)
  else pure (0, 0)

/-- `inst_priv` of `processor_proxy` -/
def instPriv (getTime : BitVec 64) (dec : Decode) (pcOffset : BitVec R.xlen) : Prog ProxyRaise (Proxied R σ) (BitVec R.xlen) := fun s =>
  if dec.op = .ecall then
    match px.syscall s.hart.ireg s.mem with
    | some (ireg, mem) => .ok pcOffset { s with hart.ireg := ireg, mem }
    | none => .error .exit s
  else
    match s.hart.toProcessor.instPrivProxy getTime dec (pcOffset.setWidth 64) with
    | some (p, off) => .ok (off.setWidth R.xlen) { s with hart.toProcessor := p }
    | none => .ok Machine.illegal s

end ProxyHost

/-! ## The counter -/

section Counter
variable (px : ProxyHost R σ)

theorem keeps_hostLoad (I : Proxied R σ → Prop) (n addr : Nat) : Keeps I (px.hostLoad n addr) := by
  intro s hs
  unfold ProxyHost.hostLoad
  cases px.load n addr s.mem with
  | some v => exact hs
  | none => exact hs

theorem keeps_hostStore (I : Hart R → Prop) (n addr val : Nat) : Keeps (fun s => I s.hart) (px.hostStore n addr val) := by
  intro s hs
  unfold ProxyHost.hostStore
  cases px.store n addr val s.mem with
  | some mem => exact hs
  | none => exact hs

theorem ProxyHost.bus_frames (I : Hart R → Prop) : px.bus.Frames I where
  hart_setHart _ _ := rfl
  load n va := keeps_hostLoad px _ n va.toNat
  store n va val := keeps_hostStore px I n va.toNat val
  amo _ _ _ _ := keeps_bind (keeps_hostLoad px _ _ _) fun _ => keeps_bind (keeps_hostStore px I _ _ _) fun _ => keeps_pure _
  fstore fmt va val := keeps_hostStore px I (fmt.width / 8) va.toNat val.toNat

theorem keeps_instFetchProxy (I : Proxied R σ → Prop) (pc : Nat) : Keeps I (px.instFetch pc) := by
  refine keeps_bind (keeps_hostLoad px I 4 pc) fun inst => ?_
  refine keeps_ite (keeps_pure _) (keeps_ite (keeps_pure _) (keeps_ite ?_ (keeps_ite ?_ (keeps_pure _))))
  · exact keeps_bind (keeps_hostLoad px I _ _) fun _ => keeps_pure _
  · exact keeps_bind (keeps_hostLoad px I _ _) fun _ => keeps_pure _

/-- The CSRs of user level stand for `fcsr`, or are only read. -/
theorem Processor.instret_instCsrProxy {xlen : Nat} (getTime : BitVec 64) (s : Processor xlen) (dec : Decode) (op : CsrOp) (csr : Nat)
    (value : BitVec xlen) (pcOffset : BitVec 64) :
    (instCsrProxy getTime s dec op csr value pcOffset).1.csrs.instret = s.csrs.instret := by
  have hcase {c : RvCsr} (hn : RvCsr.ofNumber csr = some c) (hw : (window c : Option (Window xlen)) = none) :
      (s.instCsrCase getTime dec op csr value c).csrs.instret = s.csrs.instret := by
    have hlt : csr < 2 ^ 12 := rvCsr_of_ofNumber hn ▸ rvCsr_lt c
    refine Processor.get_instCsrCase Csrs.instret (fun _ _ => rfl) (fun _ _ => rfl) s dec op hlt getTime value c fun w hwin => ?_
    rw [hw] at hwin
    cases hwin
  unfold instCsrProxy
  split
  · next hn => exact hcase hn rfl
  · next hn => exact hcase hn rfl
  · next hn => exact hcase hn rfl
  · exact congrArg Csrs.instret (setRd_csrs ..)
  · next hn => exact hcase hn rfl
  · exact congrArg Csrs.instret (setRd_csrs ..)
  · exact congrArg Csrs.instret (setRd_csrs ..)
  · exact congrArg Csrs.instret (setRd_csrs ..)
  · exact congrArg Csrs.instret (setRd_csrs ..)
  · rfl

theorem Processor.instret_instPrivProxy {xlen : Nat} {s : Processor xlen} {getTime : BitVec 64} {dec : Decode} {pcOffset : BitVec 64}
    {r : Processor xlen × BitVec 64} (hp : s.instPrivProxy getTime dec pcOffset = some r) : r.1.csrs.instret = s.csrs.instret := by
  unfold instPrivProxy at hp
  split at hp <;> cases hp <;> exact instret_instCsrProxy ..

theorem keeps_instPrivProxy (getTime : BitVec 64) (dec : Decode) (pcOffset : BitVec R.xlen) (v : BitVec 64) :
    Keeps (fun s => s.hart.csrs.instret = v) (px.instPriv getTime dec pcOffset) := by
  intro s hs
  unfold ProxyHost.instPriv
  split
  · cases px.syscall s.hart.ireg s.mem with
    | some r => exact hs
    | none => exact hs
  · cases hp : s.hart.toProcessor.instPrivProxy getTime dec (pcOffset.setWidth 64) with
    | some r => exact (Processor.instret_instPrivProxy hp).trans hs
    | none => exact hs

end Counter

section Defined
variable (px : ProxyHost R σ)

theorem defined_hostLoad (n addr : Nat) : Defined (px.hostLoad n addr) := by
  intro s h
  unfold ProxyHost.hostLoad at h
  split at h <;> cases h

theorem defined_hostStore (n addr val : Nat) : Defined (px.hostStore n addr val) := by
  intro s h
  unfold ProxyHost.hostStore at h
  split at h <;> cases h

theorem ProxyHost.bus_defined : px.bus.Defined where
  load n va := defined_hostLoad px n va.toNat
  store n va val := defined_hostStore px n va.toNat val
  amo _ _ _ _ :=
    defined_bind (defined_hostLoad px _ _) fun _ => defined_bind (defined_hostStore px _ _ _) fun _ => defined_pure _
  fstore fmt va val := defined_hostStore px (fmt.width / 8) va.toNat val.toNat

theorem defined_instFetchProxy (pc : Nat) : Defined (px.instFetch pc) := by
  refine defined_bind (defined_hostLoad px 4 pc) fun inst => ?_
  refine defined_ite (defined_pure _) (defined_ite (defined_pure _) (defined_ite ?_ (defined_ite ?_ (defined_pure _))))
  · exact defined_bind (defined_hostLoad px _ _) fun _ => defined_pure _
  · exact defined_bind (defined_hostLoad px _ _) fun _ => defined_pure _

theorem defined_instPrivProxy (getTime : BitVec 64) (dec : Decode) (pcOffset : BitVec R.xlen) :
    Defined (px.instPriv getTime dec pcOffset) := by
  intro s h
  unfold ProxyHost.instPriv at h
  split at h <;> split at h <;> cases h

end Defined

end Rv8.Emu
