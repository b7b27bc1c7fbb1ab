import Rv8.Emu.Frame
import Rv8.Emu.Runloop
/-!
# `x0` stays zero

Every assignment of the interpreter to an integer register stores 0 for `rd = 0`, and
the CSR accessors skip it. So each part of the emulator keeps `x0`, whatever the
register fields of the instruction are, and with them every run does.
-/

namespace Rv8.Emu

open Rv8.Lib Rv8.Asm Prog

variable {R : Rv} {σ : Type}

def Hart.ZeroX0 (s : Hart R) : Prop := s.ireg 0 = 0

def Machine.ZeroX0 (s : Machine R σ) : Prop := s.hart.ZeroX0

def Runloop.ZeroX0 (s : Runloop R σ) : Prop := s.machine.ZeroX0

/-! ## The interpreter

An instruction leaves every register but its `rd`, and of `x0` the value 0. -/

/-- The register is not the one that is assigned, or it is `x0` and clear. -/
theorem Hart.sparedAt_ireg {rd r : Nat} {v : BitVec R.xlen} (h : rd = r → r = 0 ∧ v = 0) :
    Hart.SparedAt rd fun s : Hart R => s.ireg r = v where
  writeRd := by
    intro s hs w
    unfold writeRd
    by_cases hrd : r = rd
    · obtain ⟨h0, hv⟩ := h hrd.symm
      simp [← hrd, h0, hv]
    · simp only [if_neg hrd]
      exact hs
  writeFrd hs _ _ _ := hs
  fenv hs _ _ := hs

theorem keeps_execInst (port : Port σ) (host : Host) (rv : Ext → Bool) (dec : Decode) (pcOffset : BitVec R.xlen) :
    Keeps Machine.ZeroX0 (execInst port host rv dec pcOffset) :=
  keeps_execInst_of_spared port host (Hart.sparedAt_ireg fun _ => ⟨rfl, rfl⟩) (fun _ _ hs => hs) rv pcOffset

/-! ## CSR instructions -/

namespace Processor

variable {xlen : Nat}

def ZeroX0 (s : Processor xlen) : Prop := s.ireg 0 = 0

variable (s : Processor xlen) {dec : Decode} {r : Nat} (h : dec.rd = r → r = 0)
include h

theorem ireg_setRd (v : BitVec xlen) : (s.setRd dec v).ireg r = s.ireg r := by
  unfold setRd
  by_cases hrd : dec.rd ≠ rvIregZero
  · rw [if_pos hrd]
    exact if_neg fun hr => hrd (hr.symm.trans (h hr.symm))
  · rw [if_neg hrd]

theorem ireg_setCsr (mode : RvMode) (op : CsrOp) (csr : Nat) {n : Nat} (reg : Register (Csrs xlen) n) (value : BitVec xlen)
    (wmask rmask : BitVec n) (shift : Nat) : (s.setCsr dec mode op csr reg value wmask rmask shift).ireg r = s.ireg r :=
  (congrFun (setCsr_iregs ..) r).trans (ireg_setRd s h _)

theorem ireg_setCsrHi (mode : RvMode) (op : CsrOp) (csr : Nat) (reg : Register (Csrs xlen) 64) (value : BitVec xlen) :
    (s.setCsrHi dec mode op csr reg value).ireg r = s.ireg r :=
  (congrFun (setCsrHi_iregs ..) r).trans (ireg_setRd s h _)

theorem ireg_instCsrCase (getTime : BitVec 64) (op : CsrOp) (csr : Nat) (value : BitVec xlen) (c : RvCsr) :
    (s.instCsrCase getTime dec op csr value c).ireg r = s.ireg r := by
  cases c
  case fflags => exact ireg_setCsr s.fenvGetflags h ..
  case frm => exact (congrFun (fenvSetrm_ireg _) r).trans (ireg_setCsr s h ..)
  case fcsr => exact (congrFun (fenvSetrm_ireg _) r).trans (ireg_setCsr s.fenvGetflags h ..)
  case cycle | instret | mvendorid | marchid | mimpid | mhartid | cycleh | timeh | instreth => exact ireg_setRd s h _
  case time => exact ireg_setRd { s with csrs.time := getTime } h _
  case mcycleh | minstreth => exact ireg_setCsrHi s h ..
  all_goals exact ireg_setCsr s h ..

theorem ireg_instCsr (getTime : BitVec 64) (op : CsrOp) (csr : Nat) (value : BitVec xlen) (pcOffset : BitVec 64) :
    (s.instCsr getTime dec op csr value pcOffset).1.ireg r = s.ireg r := by
  unfold instCsr
  split
  · exact ireg_instCsrCase s h ..
  · rfl

end Processor

/-! ## Privileged instructions, traps and interrupts -/

theorem Processor.ireg_instPrivCsr {xlen : Nat} {getTime : BitVec 64} {s p : Processor xlen} {dec : Decode} {pcOffset off : BitVec 64}
    {r : Nat} (h : dec.rd = r → r = 0) (hp : s.instPrivCsr getTime dec pcOffset = some (p, off)) : p.ireg r = s.ireg r := by
  unfold instPrivCsr at hp
  split at hp <;> simp only [Option.some.injEq, reduceCtorEq] at hp
  all_goals
    have hfst := congrArg Prod.fst hp
    subst hfst
    exact ireg_instCsr s h ..

theorem Machine.ireg_instPriv (getTime : BitVec 64) (s : Machine R σ) {dec : Decode} {r : Nat} (h : dec.rd = r → r = 0)
    (pcOffset : BitVec R.xlen) : (s.instPriv getTime dec pcOffset).1.hart.ireg r = s.hart.ireg r := by
  have hpriv {mode : RvMode} {res : Machine R σ × BitVec R.xlen} (hres : res.1.hart.ireg = s.hart.ireg) :
      (s.privileged mode res).1.hart.ireg r = s.hart.ireg r := by
    unfold privileged
    split
    · exact congrFun hres r
    · rfl
  unfold instPriv
  split
  · next p off hp => exact Processor.ireg_instPrivCsr h hp
  · split
    · exact hpriv rfl
    · exact hpriv rfl
    · exact hpriv rfl
    · exact hpriv rfl
    all_goals rfl

theorem Hart.zeroX0_of_sameUntrapped (s t : Hart R) (h : s.SameUntrapped t) (hs : s.ZeroX0) : t.ZeroX0 :=
  (congrFun h.ireg 0).trans hs

theorem zeroX0_isr (lines : IntrLines) : Keeps Hart.ZeroX0 (isr (R := R) lines) :=
  keeps_of_relation (fun s => keeps_isr s lines) Hart.SameUntrapped.refl Hart.zeroX0_of_sameUntrapped

theorem zeroX0_trap (op : RvOp) (cause : RaisedCause) : Keeps Hart.ZeroX0 (trap (R := R) op cause) :=
  keeps_of_relation (fun s => keeps_trap s op cause) Hart.SameUntrapped.refl Hart.zeroX0_of_sameUntrapped

/-! ## Runs -/

section Runs
variable (port : Port σ) (host : Host) (isa : Isa)

theorem Machine.keeps_execute_ireg (getTime : BitVec 64) {dec : Decode} {r : Nat} {v : BitVec R.xlen} (h : dec.rd = r → r = 0 ∧ v = 0)
    (pcOffset : BitVec R.xlen) : Keeps (fun s : Machine R σ => s.hart.ireg r = v) (execute port host isa getTime dec pcOffset) := by
  have hexec := keeps_execInst_of_spared port host (Hart.sparedAt_ireg h) (fun _ _ hs => hs) isa.ext pcOffset
  refine keeps_bind (keeps_onError hexec fun _ => keeps_throw _) fun off => ?_
  apply keeps_ite
  · exact keeps_modify fun _ hs => hs
  · refine keeps_bind (keeps_modifyGet fun s hs => ?_) fun off => ?_
    · exact (Machine.ireg_instPriv getTime s (fun hr => (h hr).1) pcOffset).trans hs
    · exact keeps_ite (keeps_modify fun _ hs => hs) (keeps_throw _)

theorem Machine.keeps_execute (getTime : BitVec 64) (dec : Decode) (pcOffset : BitVec R.xlen) :
    Keeps Machine.ZeroX0 (execute port host isa getTime dec pcOffset) :=
  keeps_execute_ireg port host isa getTime (fun _ => ⟨rfl, rfl⟩) pcOffset

namespace Runloop

theorem keeps_onMachine {ε α : Type} {m : Prog ε (Machine R σ) α} (h : Keeps Machine.ZeroX0 m) :
    Keeps Runloop.ZeroX0 (onMachine m) := keeps_zoom h (fun _ hs => hs) fun _ _ _ ht => ht

theorem keeps_onHart {α : Type} {m : Prog TrapExit (Hart R) α} (h : Keeps Hart.ZeroX0 m) :
    Keeps Runloop.ZeroX0 (onHart (σ := σ) m) :=
  keeps_onError (keeps_zoom h (fun _ hs => hs) fun _ _ _ ht => ht) fun _ => keeps_throw _

theorem keeps_turn (getTime : BitVec 64) : Keeps Runloop.ZeroX0 (turn (R := R) port host isa getTime) := by
  refine keeps_bind keeps_get fun s => ?_
  refine keeps_bind (keeps_onError (keeps_onMachine (Machine.keeps_onMmu_hart Hart.ZeroX0 _)) fun _ => keeps_throw _) fun fetched => ?_
  refine keeps_bind (keeps_modify fun _ hs => hs) fun _ => keeps_bind keeps_get fun s => ?_
  exact keeps_onMachine (Machine.keeps_execute port host isa getTime _ _)

theorem keeps_raised (badaddr : BitVec R.xlen) (cause : TrapCause) :
    Keeps Runloop.ZeroX0 (raised (σ := σ) badaddr cause) := by
  refine keeps_bind (keeps_modify fun _ hs => hs) fun _ => keeps_bind keeps_get fun s => ?_
  exact keeps_bind (keeps_onHart (zeroX0_trap _ _)) fun _ => keeps_pure _

theorem keeps_handle (r : Raise) : Keeps Runloop.ZeroX0 (handle (R := R) (σ := σ) r) := by
  match r with
  | .mmu (.raise cause badaddr) => exact keeps_raised _ _
  | .mmu .panic => exact keeps_throw _
  | .illegalInstruction => exact keeps_bind keeps_get fun s => keeps_raised _ _

theorem keeps_next (e : Event) : Keeps Runloop.ZeroX0 (next (R := R) port host isa e) := by
  cases e with
  | call time lines =>
    refine keeps_bind (keeps_modify fun _ hs => hs) fun _ => ?_
    exact keeps_bind (keeps_onHart (zeroX0_isr lines)) fun _ => keeps_pure _
  | turn getTime => exact keeps_onError (keeps_turn port host isa getTime) keeps_handle
  | reset => exact keeps_modify fun _ hs => hs

theorem zeroX0_of_reachable {s : Runloop R σ} (h : Reachable port host isa s) : s.ZeroX0 := by
  induction h with
  | start hs => exact hs.x0
  | ok e _ hn ih =>
    have hk := keeps_next port host isa e _ ih
    rw [hn] at hk
    exact hk
  | error e x _ hn ih =>
    have hk := keeps_next port host isa e _ ih
    rw [hn] at hk
    exact hk

end Runloop

end Runs

/-- An instruction with arbitrary fields keeps `x0` at 0, in the interpreter of either width and in `inst_csr`,
and so does every run of either processor from reset. -/
theorem x0_always_zero (port : Port σ) (host : Host) :
    (∀ rv dec pcOffset (s : Machine .rv32 σ), s.ZeroX0 → (execInstRv32 port host rv dec pcOffset s).Leaves Machine.ZeroX0) ∧
    (∀ rv dec pcOffset (s : Machine .rv64 σ), s.ZeroX0 → (execInstRv64 port host rv dec pcOffset s).Leaves Machine.ZeroX0) ∧
    (∀ xlen getTime dec op csr value pcOffset (s : Processor xlen), s.ZeroX0 →
      (s.instCsr getTime dec op csr value pcOffset).1.ZeroX0) ∧
    ∀ R isa (s : Runloop R σ), Runloop.Reachable port host isa s → s.ZeroX0 := by
  refine ⟨?_, ?_, ?_, ?_⟩
  · intro rv dec pcOffset s hs
    exact keeps_execInst (R := .rv32) port host rv dec pcOffset s hs
  · intro rv dec pcOffset s hs
    exact keeps_execInst (R := .rv64) port host rv dec pcOffset s hs
  · intro xlen getTime dec op csr value pcOffset s hs
    exact (Processor.ireg_instCsr s (fun _ => rfl) getTime op csr value pcOffset).trans hs
  · intro R isa s hs
    exact Runloop.zeroX0_of_reachable port host isa hs

theorem x0_always_zero_addi :
    ((bareMachine (R := .rv64) default).hart.ireg 0 = 0) ∧
      (execInstRv64 (mmuSoft .rv64) default (fun _ => true) { op := .addi, rd := 0, rs1 := 0, imm := 5 } 4
        (bareMachine (R := .rv64) default)).Leaves Machine.ZeroX0 :=
  ⟨rfl, (x0_always_zero (mmuSoft .rv64) default).2.1 _ _ _ _ rfl⟩

end Rv8.Emu
