import Mathlib.Tactic.IntervalCases
import Rv8.Lib.Steps
import Rv8.Emu.Csr
import Rv8.Emu.Privilege
/-!
# The floating-point CSRs

`fflags`, `frm` and `fcsr` are views of one register, and part of it is kept by the
host. Both `inst_csr` of `processor-priv-1.9.h` and that of `processor-proxy.h` give
`frm` a mask of two bits, while the rounding mode has three. So the top bit of the
rounding mode shows in `fcsr` alone, and cannot be written through `frm`.
-/

namespace Rv8.Emu

open Rv8.Lib Rv8.Asm

/-! ## The proxy processor -/

namespace Processor

variable {xlen : Nat}

/-- `inst_csr` of `processor_proxy`, which has the CSRs of user level only. `cpu_cycle_clock` is a parameter. -/
def instCsrProxy (clock : BitVec 64) (s : Processor xlen) (dec : Decode) (op : CsrOp) (csr : Nat) (value : BitVec xlen)
    (pcOffset : BitVec 64) : Processor xlen × BitVec 64 :=
  match RvCsr.ofNumber csr with
  | some .fflags =>
    ((s.fenvGetflags.setCsr dec .U op csr Csrs.fcsrReg value fflagsMask fflagsMask).fenvClearflags, pcOffset)
  | some .frm => ((s.setCsr dec .U op csr Csrs.fcsrReg value frmMask frmMask 5).fenvSetrm, pcOffset)
  | some .fcsr =>
    ((s.fenvGetflags.setCsr dec .U op csr Csrs.fcsrReg value fcsrMask fcsrMask).fenvClearflags.fenvSetrm, pcOffset)
  | some .cycle => (s.getCsr dec .U csr Csrs.instretReg, pcOffset)
  | some .time => ({ s with csrs.time := clock : Processor xlen }.getCsr dec .U csr Csrs.timeReg, pcOffset)
  | some .instret => (s.getCsr dec .U csr Csrs.instretReg, pcOffset)
  | some .cycleh => (s.getCsrHi dec .U csr Csrs.instretReg, pcOffset)
  | some .timeh => (s.getCsrHi dec .U csr Csrs.timeReg, pcOffset)
  | some .instreth => (s.getCsrHi dec .U csr Csrs.instretReg, pcOffset)
  | _ => (s, -1)

/-- The cases of `inst_priv` of `processor_proxy` that go to `inst_csr`. -/
def instPrivProxy (clock : BitVec 64) (s : Processor xlen) (dec : Decode) (pcOffset : BitVec 64) :
    Option (Processor xlen × BitVec 64) :=
  let csr := dec.imm.toNat
  match dec.op with
  | .csrrw => some (instCsrProxy clock s dec .rw csr (s.ireg dec.rs1) pcOffset)
  | .csrrs => some (instCsrProxy clock s dec .rs csr (s.ireg dec.rs1) pcOffset)
  | .csrrc => some (instCsrProxy clock s dec .rc csr (s.ireg dec.rs1) pcOffset)
  | .csrrwi => some (instCsrProxy clock s dec .rw csr dec.rs1 pcOffset)
  | .csrrsi => some (instCsrProxy clock s dec .rs csr dec.rs1 pcOffset)
  | .csrrci => some (instCsrProxy clock s dec .rc csr dec.rs1 pcOffset)
  | _ => none

end Processor

/-! ## Instructions -/

/-- `processor_privileged` and `processor_proxy` -/
inductive ProcKind
  | privileged | proxy
deriving DecidableEq

inductive FpCsr
  | fflags | frm | fcsr
deriving DecidableEq

def FpCsr.csr : FpCsr → RvCsr
  | .fflags => .fflags | .frm => .frm | .fcsr => .fcsr

/-- The six instructions. -/
inductive CsrInst
  | csrrw | csrrs | csrrc | csrrwi | csrrsi | csrrci
deriving DecidableEq

def CsrInst.op : CsrInst → RvOp
  | .csrrw => .csrrw | .csrrs => .csrrs | .csrrc => .csrrc
  | .csrrwi => .csrrwi | .csrrsi => .csrrsi | .csrrci => .csrrci

/-- An instruction on a floating-point CSR, and the integer registers it finds. -/
structure FpCsrEvent (xlen : Nat) where
  ireg : Nat → BitVec xlen
  inst : CsrInst
  csr : FpCsr
  (rd rs1 : Nat)

namespace FpCsrEvent

variable {xlen : Nat} (e : FpCsrEvent xlen)

def dec : Decode := { op := e.inst.op, rd := e.rd, rs1 := e.rs1, imm := rvCsr e.csr.csr }

def value : BitVec xlen :=
  match e.inst with
  | .csrrw | .csrrs | .csrrc => e.ireg e.rs1
  | .csrrwi | .csrrsi | .csrrci => e.rs1

def csrOp : CsrOp := Emu.csrOp e.inst.op

/-- The processor after the instruction. The clocks are not read. -/
def next (k : ProcKind) (s : Processor xlen) : Processor xlen :=
  let s := { s with ireg := e.ireg }
  let r := match k with
    | .privileged => s.instPrivCsr 0 e.dec 4
    | .proxy => s.instPrivProxy 0 e.dec 4
  (r.map Prod.fst).getD s

end FpCsrEvent

/-- What `csrrsi ra, csr, 0` reads. -/
def readFp {xlen : Nat} (k : ProcKind) (s : Processor xlen) (c : FpCsr) : Nat :=
  let e : FpCsrEvent xlen := { ireg := s.ireg, inst := .csrrsi, csr := c, rd := 1, rs1 := 0 }
  ((e.next k s).ireg 1).toNat

/-! ## What is wanted -/

section Wanted
variable {xlen : Nat}

def CsrOp.apply {n : Nat} (old v : BitVec n) : CsrOp → BitVec n
  | .rw => v
  | .rs => old ||| v
  | .rc => old &&& ~~~v

/-- The rounding mode that an instruction writes through `frm` or `fcsr`, all three bits of it. -/
def FpCsrEvent.writeRm (e : FpCsrEvent xlen) (rm : BitVec 3) : BitVec 3 :=
  match e.csr with
  | .fflags => rm
  | .frm => e.csrOp.apply rm (e.value.extractLsb' 0 3)
  | .fcsr => e.csrOp.apply rm (e.value.extractLsb' 5 3)

/-- A processor, and the rounding mode that was last written. -/
structure FpCsrState (xlen : Nat) where
  proc : Processor xlen
  rm : BitVec 3

def FpCsrState.step (k : ProcKind) (s : FpCsrState xlen) (e : FpCsrEvent xlen) : Option (FpCsrState xlen) :=
  some ⟨e.next k s.proc, e.writeRm s.rm⟩

/-- The rounding mode in `fcsr`, with which a run starts. -/
def FpCsrState.start (s : Processor xlen) : FpCsrState xlen := ⟨s, s.csrs.fcsr.extractLsb' 5 3⟩

/-- The three views agree, `frm` reads what was written last, and whatever is written next through `frm` or `fflags`
leaves the other. -/
structure FpCsrState.ViewsAgree (k : ProcKind) (s : FpCsrState xlen) : Prop where
  fcsr : readFp k s.proc .fcsr = readFp k s.proc .frm * 32 + readFp k s.proc .fflags
  frm : readFp k s.proc .frm = s.rm.toNat
  fflags_of_frm : ∀ e : FpCsrEvent xlen, e.csr = .frm → readFp k (e.next k s.proc) .fflags = readFp k s.proc .fflags
  frm_of_fflags : ∀ e : FpCsrEvent xlen, e.csr = .fflags → readFp k (e.next k s.proc) .frm = readFp k s.proc .frm

/-- The instruction sets the top bit of the rounding mode. -/
def FpCsrEvent.SetsTopBit (e : FpCsrEvent xlen) : Prop :=
  e.csrOp ≠ .rc ∧ ((e.csr = .frm ∧ e.value.getLsbD 2) ∨ (e.csr = .fcsr ∧ e.value.getLsbD 7))

instance (e : FpCsrEvent xlen) : Decidable e.SetsTopBit := inferInstanceAs (Decidable (_ ∧ _))

end Wanted

/-! ## The flags of the host -/

namespace Fenv

/-- The exceptions, as `fcsr` has them. -/
def flags (e : Fenv) : BitVec 32 :=
  let bit (b : Bool) (f : BitVec 32) : BitVec 32 := if b then f else 0
  bit e.divByZero rvFcsrDZ ||| bit e.inexact rvFcsrNX ||| bit e.invalid rvFcsrNV ||| bit e.overflow rvFcsrOF |||
    bit e.underflow rvFcsrUF

theorem getLsbD_bit {k : Nat} (hk : k < 32) (b : Bool) (i : Nat) :
    (if b then BitVec.twoPow 32 k else 0).getLsbD i = (b && decide (i = k)) := by
  cases b
  · simp
  · simp [hk, eq_comm]

theorem getLsbD_flags (e : Fenv) (i : Nat) :
    e.flags.getLsbD i = (e.divByZero && decide (i = 3) || e.inexact && decide (i = 0) || e.invalid && decide (i = 4) ||
      e.overflow && decide (i = 2) || e.underflow && decide (i = 1)) := by
  have hflags : e.flags = (if e.divByZero then BitVec.twoPow 32 3 else 0) ||| (if e.inexact then BitVec.twoPow 32 0 else 0) |||
      (if e.invalid then BitVec.twoPow 32 4 else 0) ||| (if e.overflow then BitVec.twoPow 32 2 else 0) |||
      (if e.underflow then BitVec.twoPow 32 1 else 0) := rfl
  rw [hflags]
  simp only [BitVec.getLsbD_or]
  rw [getLsbD_bit (by decide), getLsbD_bit (by decide), getLsbD_bit (by decide), getLsbD_bit (by decide), getLsbD_bit (by decide)]

/-- The host has flags in the five low bits only. -/
theorem getLsbD_flags_of_le (e : Fenv) {i : Nat} (h : 5 ≤ i) : e.flags.getLsbD i = false := by
  rw [getLsbD_flags]
  simp [show i ≠ 3 by omega, show i ≠ 0 by omega, show i ≠ 4 by omega, show i ≠ 2 by omega, show i ≠ 1 by omega]

end Fenv

namespace Processor

variable {xlen : Nat} (s : Processor xlen)

theorem fenvClearflags_ireg : s.fenvClearflags.ireg = s.ireg := rfl

/-- The register with the exceptions of the host. -/
def fullFcsr : BitVec 32 := s.csrs.fcsr ||| s.fenv.flags

theorem fullFcsr_fenvSetrm : s.fenvSetrm.fullFcsr = s.fullFcsr := by
  unfold fenvSetrm
  split <;> rfl

theorem and_twoPow_ne_zero {k : Nat} (hk : k < 32) (x : BitVec 32) : (x &&& BitVec.twoPow 32 k != 0) = x.getLsbD k := by
  rw [BitVec.and_twoPow]
  cases x.getLsbD k with
  | false => rfl
  | true =>
    have hne : BitVec.twoPow 32 k ≠ 0 := by
      intro h
      have := congrArg (BitVec.getLsbD · k) h
      simp [hk] at this
    simpa using hne

/-- After `fenv_clearflags` the host keeps nothing that the register lacks. -/
theorem fullFcsr_clearflags : s.fenvClearflags.fullFcsr = s.csrs.fcsr := by
  refine BitVec.eq_of_getLsbD_eq fun i _ => ?_
  have hkept {k : Nat} (hk : k < 32) (b : Bool) : (b && s.csrs.fcsr &&& BitVec.twoPow 32 k != 0) = (b && s.csrs.fcsr.getLsbD k) := by
    rw [and_twoPow_ne_zero hk]
  have hflags : s.fenvClearflags.fenv.flags.getLsbD i =
      (s.fenv.divByZero && s.csrs.fcsr.getLsbD 3 && decide (i = 3) || s.fenv.inexact && s.csrs.fcsr.getLsbD 0 && decide (i = 0) ||
        s.fenv.invalid && s.csrs.fcsr.getLsbD 4 && decide (i = 4) || s.fenv.overflow && s.csrs.fcsr.getLsbD 2 && decide (i = 2) ||
        s.fenv.underflow && s.csrs.fcsr.getLsbD 1 && decide (i = 1)) := by
    rw [Fenv.getLsbD_flags]
    unfold fenvClearflags
    dsimp only
    rw [show rvFcsrDZ = BitVec.twoPow 32 3 from rfl, show rvFcsrNX = BitVec.twoPow 32 0 from rfl,
      show rvFcsrNV = BitVec.twoPow 32 4 from rfl, show rvFcsrOF = BitVec.twoPow 32 2 from rfl,
      show rvFcsrUF = BitVec.twoPow 32 1 from rfl, hkept (by decide), hkept (by decide), hkept (by decide), hkept (by decide),
      hkept (by decide)]
  show (s.csrs.fcsr ||| s.fenvClearflags.fenv.flags).getLsbD i = _
  rw [BitVec.getLsbD_or, hflags]
  rcases i with _ | _ | _ | _ | _ | i
  · cases s.csrs.fcsr.getLsbD 0 <;> simp
  · cases s.csrs.fcsr.getLsbD 1 <;> simp
  · cases s.csrs.fcsr.getLsbD 2 <;> simp
  · cases s.csrs.fcsr.getLsbD 3 <;> simp
  · cases s.csrs.fcsr.getLsbD 4 <;> simp
  · simp

end Processor

section Masked
variable {n : Nat} (reg mask value : BitVec n)

/-- The masked update of an instruction. -/
def CsrOp.masked : CsrOp → BitVec n
  | .rw => maskedReplace reg mask value
  | .rs => maskedSet reg mask value
  | .rc => maskedClear reg mask value

theorem CsrOp.getLsbD_masked (op : CsrOp) {i : Nat} (hi : i < n) :
    (op.masked reg mask value).getLsbD i = if mask.getLsbD i then
      match op with
      | .rw => value.getLsbD i
      | .rs => reg.getLsbD i || value.getLsbD i
      | .rc => reg.getLsbD i && !value.getLsbD i
    else reg.getLsbD i := by
  cases op <;> simp only [masked, maskedReplace, maskedSet, maskedClear, BitVec.getLsbD_or, BitVec.getLsbD_and, BitVec.getLsbD_not, hi] <;>
    cases mask.getLsbD i <;> simp

end Masked

theorem Window.written_eq_masked {xlen : Nat} {w : Window xlen} (op : CsrOp) (value : BitVec xlen) (c : Csrs xlen) :
    w.written op value c = op.masked (w.reg.get c) w.mask (value.setWidth w.n <<< w.shift) := by
  cases op <;> rfl

/-! ## What an instruction leaves -/

/-- The bits of the register that a view may write, and where its lowest bit is. -/
def FpCsr.mask : FpCsr → BitVec 32
  | .fflags => fflagsMask | .frm => frmMask <<< 5 | .fcsr => fcsrMask

def FpCsr.shift : FpCsr → Nat
  | .fflags | .fcsr => 0 | .frm => 5

namespace FpCsrEvent

variable {xlen : Nat} (k : ProcKind) (e : FpCsrEvent xlen) (s : Processor xlen)

/-- Both processors have the same cases. -/
theorem next_eq : e.next k s = { s with ireg := e.ireg : Processor xlen }.instCsrCase 0 e.dec e.csrOp (rvCsr e.csr.csr) e.value e.csr.csr := by
  obtain ⟨ireg, inst, csr, rd, rs1⟩ := e
  cases k <;> cases inst <;> cases csr <;> rfl

theorem written_eq {t s' : Processor xlen} {mask : BitVec 32} {shift : Nat}
    (hw : t.Writes e.csrOp e.value ⟨32, Csrs.fcsrReg, mask, shift⟩ s') :
    s'.csrs.fcsr = e.csrOp.masked t.csrs.fcsr mask (e.value.setWidth 32 <<< shift) := by
  rw [hw.1]
  exact Window.written_eq_masked e.csrOp e.value t.csrs

theorem fullFcsr_next :
    (e.next k s).fullFcsr = e.csrOp.masked s.fullFcsr e.csr.mask (e.value.setWidth 32 <<< e.csr.shift) := by
  have hlt := rvCsr_lt e.csr.csr
  rw [next_eq]
  cases hc : e.csr with
  | fflags =>
    rw [hc] at hlt
    refine (Processor.fullFcsr_clearflags _).trans ?_
    exact e.written_eq (Processor.writes_setCsr _ e.dec .U _ _ e.value hlt Csrs.fcsrReg fflagsMask fflagsMask)
  | fcsr =>
    rw [hc] at hlt
    refine (Processor.fullFcsr_fenvSetrm _).trans ((Processor.fullFcsr_clearflags _).trans ?_)
    exact e.written_eq (Processor.writes_setCsr _ e.dec .U _ _ e.value hlt Csrs.fcsrReg fcsrMask fcsrMask)
  | frm =>
    rw [hc] at hlt
    have hw := Processor.writes_setCsrAt { s with ireg := e.ireg } e.dec .U e.csrOp _ e.value hlt Csrs.fcsrReg frmMask frmMask 5
    refine (Processor.fullFcsr_fenvSetrm _).trans ?_
    unfold Processor.fullFcsr
    rw [e.written_eq hw, hw.2]
    refine BitVec.eq_of_getLsbD_eq fun i hi => ?_
    rw [BitVec.getLsbD_or, CsrOp.getLsbD_masked _ _ _ _ hi, CsrOp.getLsbD_masked _ _ _ _ hi, BitVec.getLsbD_or]
    -- the bits of `frm` are none of the host's
    have hmask : (frmMask <<< 5).getLsbD i = true → s.fenv.flags.getLsbD i = false := by
      intro hm
      refine s.fenv.getLsbD_flags_of_le (Nat.le_of_not_lt fun h5 => ?_)
      rw [BitVec.getLsbD_shiftLeft] at hm
      simp [h5] at hm
    show _ = if (frmMask <<< 5).getLsbD i = true then _ else _
    by_cases hm : (frmMask <<< 5).getLsbD i = true
    · rw [if_pos hm, if_pos hm, hmask hm, Bool.or_false, Bool.or_false]
      rfl
    · rw [if_neg hm, if_neg hm]

end FpCsrEvent

/-! ## What is read -/

section Reads
variable {R : Rv} (k : ProcKind) (s : Processor R.xlen)

/-- The three CSRs are open to user mode. -/
theorem FpCsr.user (c : FpCsr) : (rvCsr c.csr >>> 8) &&& 3 ≤ RvMode.U.toNat := by
  cases c <;> decide

theorem toNat_setWidth_xlen (x : BitVec 32) : (x.setWidth R.xlen).toNat = x.toNat := by
  rw [BitVec.toNat_setWidth, Nat.mod_eq_of_lt]
  exact lt_of_lt_of_le x.isLt (Nat.pow_le_pow_right (by decide) R.le_xlen)

theorem toNat_and_lowOnes (x : BitVec 32) {m : BitVec 32} {j : Nat} (hm : m.toNat = 2 ^ j - 1) : (x &&& m).toNat = x.toNat % 2 ^ j := by
  rw [BitVec.toNat_and, hm, Nat.and_two_pow_sub_one_eq_mod]

theorem readFp_fflags : readFp k s .fflags = s.fullFcsr.toNat % 32 := by
  unfold readFp
  dsimp only
  rw [FpCsrEvent.next_eq]
  refine (congrArg BitVec.toNat ((congrFun (Processor.fenvClearflags_ireg _) 1).trans (Processor.setCsr_ireg s.fenvGetflags _ .U _ _ _
    Csrs.fcsrReg fflagsMask fflagsMask 0 Nat.one_ne_zero FpCsr.fflags.user))).trans ?_
  rw [toNat_setWidth_xlen, BitVec.ushiftRight_zero]
  exact toNat_and_lowOnes s.fullFcsr (j := 5) rfl

theorem readFp_fcsr : readFp k s .fcsr = s.fullFcsr.toNat % 256 := by
  unfold readFp
  dsimp only
  rw [FpCsrEvent.next_eq]
  refine (congrArg BitVec.toNat ((congrFun (Processor.fenvSetrm_ireg _) 1).trans (Processor.setCsr_ireg s.fenvGetflags _ .U _ _ _
    Csrs.fcsrReg fcsrMask fcsrMask 0 Nat.one_ne_zero FpCsr.fcsr.user))).trans ?_
  rw [toNat_setWidth_xlen, BitVec.ushiftRight_zero]
  exact toNat_and_lowOnes s.fullFcsr (j := 8) rfl

theorem readFp_frm : readFp k s .frm = s.fullFcsr.toNat / 32 % 4 := by
  have hhost : s.csrs.fcsr >>> 5 = s.fullFcsr >>> 5 := by
    refine BitVec.eq_of_getLsbD_eq fun i _ => ?_
    unfold Processor.fullFcsr
    rw [BitVec.getLsbD_ushiftRight, BitVec.getLsbD_ushiftRight, BitVec.getLsbD_or, s.fenv.getLsbD_flags_of_le (by omega),
      Bool.or_false]
  unfold readFp
  dsimp only
  rw [FpCsrEvent.next_eq]
  refine (congrArg BitVec.toNat ((congrFun (Processor.fenvSetrm_ireg _) 1).trans (Processor.setCsr_ireg s _ .U _ _ _
    Csrs.fcsrReg frmMask frmMask 5 Nat.one_ne_zero FpCsr.frm.user))).trans ?_
  rw [toNat_setWidth_xlen]
  show (s.csrs.fcsr >>> 5 &&& frmMask).toNat = _
  rw [hhost, toNat_and_lowOnes _ (j := 2) rfl, BitVec.toNat_ushiftRight, Nat.shiftRight_eq_div_pow]
  rfl

end Reads

/-! ## Runs -/

section Runs
variable {R : Rv} {k : ProcKind}

/-- The top bit of the rounding mode is clear, and the mode is the one that was written. -/
def FpCsrState.Small (s : FpCsrState R.xlen) : Prop := s.proc.fullFcsr.getLsbD 7 = false ∧ s.rm = s.proc.fullFcsr.extractLsb' 5 3

theorem getLsbD_seven (x : BitVec 32) : x.getLsbD 7 = false ↔ x.toNat / 128 % 2 = 0 := by
  unfold BitVec.getLsbD
  rw [Nat.testBit_eq_decide_div_mod_eq, decide_eq_false_iff_not]
  omega

theorem FpCsrEvent.fflags_next_frm {e : FpCsrEvent R.xlen} (he : e.csr = .frm) (s : Processor R.xlen) :
    readFp k (e.next k s) .fflags = readFp k s .fflags := by
  have hlow : (e.next k s).fullFcsr &&& fflagsMask = s.fullFcsr &&& fflagsMask := by
    refine BitVec.eq_of_getLsbD_eq fun i hi => ?_
    rw [e.fullFcsr_next, BitVec.getLsbD_and, BitVec.getLsbD_and, CsrOp.getLsbD_masked _ _ _ _ hi, he]
    interval_cases i <;> simp [FpCsr.mask, frmMask, fflagsMask]
  have hmod (x : BitVec 32) : x.toNat % 32 = (x &&& fflagsMask).toNat := (toNat_and_lowOnes x (j := 5) rfl).symm
  rw [readFp_fflags, readFp_fflags, hmod, hmod, hlow]

theorem FpCsrEvent.frm_next_fflags {e : FpCsrEvent R.xlen} (he : e.csr = .fflags) (s : Processor R.xlen) :
    readFp k (e.next k s) .frm = readFp k s .frm := by
  have hhigh : (e.next k s).fullFcsr >>> 5 = s.fullFcsr >>> 5 := by
    refine BitVec.eq_of_getLsbD_eq fun i hi => ?_
    rw [BitVec.getLsbD_ushiftRight, BitVec.getLsbD_ushiftRight, e.fullFcsr_next]
    by_cases h : 5 + i < 32
    · rw [CsrOp.getLsbD_masked _ _ _ _ h, he, if_neg]
      have hm : fflagsMask.getLsbD (5 + i) = false := by
        interval_cases i <;> rfl
      simp [FpCsr.mask, hm]
    · rw [BitVec.getLsbD_of_ge _ _ (by omega), BitVec.getLsbD_of_ge _ _ (by omega)]
  have hdiv (x : BitVec 32) : x.toNat / 32 = (x >>> 5).toNat := by
    rw [BitVec.toNat_ushiftRight, Nat.shiftRight_eq_div_pow]
  rw [readFp_frm, readFp_frm, hdiv, hdiv, hhigh]

theorem FpCsrState.viewsAgree_iff (s : FpCsrState R.xlen) : s.ViewsAgree k ↔ s.Small := by
  have hrm : s.rm = s.proc.fullFcsr.extractLsb' 5 3 ↔ s.rm.toNat = s.proc.fullFcsr.toNat / 32 % 8 := by
    rw [← BitVec.toNat_inj, BitVec.extractLsb'_toNat, Nat.shiftRight_eq_div_pow]
  unfold Small
  rw [getLsbD_seven, hrm]
  constructor
  · rintro ⟨hfcsr, hfrm, -, -⟩
    rw [readFp_fcsr, readFp_frm, readFp_fflags] at hfcsr
    rw [readFp_frm] at hfrm
    omega
  · rintro ⟨htop, hrm⟩
    refine ⟨?_, ?_, fun e he => e.fflags_next_frm he _, fun e he => e.frm_next_fflags he _⟩
    · rw [readFp_fcsr, readFp_frm, readFp_fflags]
      omega
    · rw [readFp_frm]
      omega

theorem FpCsrState.small_next_iff {s : FpCsrState R.xlen} (hs : s.Small) (e : FpCsrEvent R.xlen) :
    FpCsrState.Small ⟨e.next k s.proc, e.writeRm s.rm⟩ ↔ ¬ e.SetsTopBit := by
  obtain ⟨htop, hrm⟩ := hs
  have hbit (i : Nat) (hi : i < 3) : s.rm.getLsbD i = s.proc.fullFcsr.getLsbD (5 + i) := by
    rw [hrm, BitVec.getLsbD_extractLsb']
    simp [hi]
  have hbit0 := hbit 0 (by decide)
  have hbit1 := hbit 1 (by decide)
  have hbit2 := hbit 2 (by decide)
  have hnext (i : Nat) (hi : i < 32) := CsrOp.getLsbD_masked s.proc.fullFcsr e.csr.mask (e.value.setWidth 32 <<< e.csr.shift) e.csrOp hi
  have hlen : (∀ i < 3, (e.writeRm s.rm).getLsbD i = (e.next k s.proc).fullFcsr.getLsbD (5 + i)) ↔
      e.writeRm s.rm = (e.next k s.proc).fullFcsr.extractLsb' 5 3 := by
    rw [eq_iff_getLsbD]
    refine forall₂_congr fun i hi => ?_
    rw [BitVec.getLsbD_extractLsb']
    simp [hi]
  unfold Small
  dsimp only
  have hthree (p : Nat → Prop) : (∀ i < 3, p i) ↔ p 0 ∧ p 1 ∧ p 2 := by
    constructor
    · intro h
      exact ⟨h 0 (by decide), h 1 (by decide), h 2 (by decide)⟩
    · rintro ⟨h0, h1, h2⟩ i hi
      interval_cases i <;> assumption
  rw [← hlen, hthree, e.fullFcsr_next, hnext 7 (by decide), hnext 5 (by decide), hnext 6 (by decide)]
  unfold FpCsrEvent.SetsTopBit FpCsrEvent.writeRm
  simp only [BitVec.getLsbD_eq_getElem, Nat.reduceAdd, Nat.reduceLT] at htop hbit0 hbit1 hbit2
  cases hc : e.csr <;> cases ho : e.csrOp <;>
    simp [FpCsr.mask, FpCsr.shift, CsrOp.apply, fflagsMask, frmMask, fcsrMask, hbit0, hbit1, hbit2, htop]

/-- In the start and after each instruction the views agree, exactly if the top bit of the rounding mode is clear in
the start, as it is in a processor that was constructed, and no instruction sets it. -/
theorem float_csrs_agree_iff (k : ProcKind) (s : Processor R.xlen) (evs : List (FpCsrEvent R.xlen)) :
    Always (FpCsrState.step k) (FpCsrState.ViewsAgree k) evs (.start s) ↔
      s.csrs.fcsr.getLsbD 7 = false ∧ ∀ e ∈ evs, ¬ e.SetsTopBit := by
  have hviews : (FpCsrState.ViewsAgree k : FpCsrState R.xlen → Prop) = FpCsrState.Small := by
    funext s
    exact propext s.viewsAgree_iff
  have hhost : ∀ i < 3, s.fullFcsr.getLsbD (5 + i) = s.csrs.fcsr.getLsbD (5 + i) := by
    intro i _
    unfold Processor.fullFcsr
    rw [BitVec.getLsbD_or, s.fenv.getLsbD_flags_of_le (by omega), Bool.or_false]
  have hstart : FpCsrState.Small (.start s) ↔ s.csrs.fcsr.getLsbD 7 = false := by
    unfold FpCsrState.Small FpCsrState.start
    dsimp only
    rw [hhost 2 (by decide)]
    refine and_iff_left (BitVec.eq_of_getLsbD_eq fun i hi => ?_)
    rw [BitVec.getLsbD_extractLsb', BitVec.getLsbD_extractLsb', hhost i hi]
  have htotal : ∀ (s : FpCsrState R.xlen) (e : FpCsrEvent R.xlen), ∃ s', s.step k e = some s' := fun s e => ⟨_, rfl⟩
  have hall : Along (FpCsrState.step k) (fun _ e => ¬ FpCsrEvent.SetsTopBit e) evs (.start s) ↔ ∀ e ∈ evs, ¬ e.SetsTopBit :=
    along_forall_iff htotal
  rw [hviews, ← hstart, ← hall]
  apply always_iff_along htotal
  rintro s e s' hs he
  obtain rfl := Option.some.inj he
  exact FpCsrState.small_next_iff hs e

end Runs

/-- `csrrwi x0, frm, 4`, which asks for the mode `rmm`. -/
def csrrwiFrm : FpCsrEvent 64 := { ireg := fun _ => 0, inst := .csrrwi, csr := .frm, rd := 0, rs1 := 4 }

theorem not_float_csrs_agree_rmm :
    ¬ Always (FpCsrState.step .privileged) (FpCsrState.ViewsAgree .privileged) [csrrwiFrm] (.start (default : Processor 64)) ∧
      ¬ Always (FpCsrState.step .proxy) (FpCsrState.ViewsAgree .proxy) [csrrwiFrm] (.start (default : Processor 64)) := by
  constructor
  · intro h
    exact absurd (h.2 _ rfl).frm (by decide)
  · intro h
    exact absurd (h.2 _ rfl).frm (by decide)

end Rv8.Emu
