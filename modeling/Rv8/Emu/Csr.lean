import Rv8.Emu.Processor
/-!
# Privilege of CSR accesses

`set_csr` compares the mode with the one the CSR number asks for only to decide
what it reads into `rd`. It then writes the register in any mode, since the bit it
tests for a read-only CSR, bit 12, is clear in every number of 12 bits. A forbidden
access therefore leaves the registers alone exactly when what it writes is what the
register holds already, or when the switch sends it to `get_csr`.
-/

namespace Rv8.Emu

open Rv8.Lib Rv8.Asm

variable {xlen : Nat}

/-! ## Forbidden accesses -/

/-- `csrrs` and `csrrc` write unless `rs1`, or the immediate in its place, is 0. -/
def wouldWrite (dec : Decode) : Prop :=
  match dec.op with
  | .csrrs | .csrrc | .csrrsi | .csrrci => dec.rs1 ≠ 0
  | _ => True

/-- The mode is below bits 9:8 of the number, or a write meets a number whose bits 11:10 are set. -/
def Forbidden (s : Processor xlen) (dec : Decode) : Prop :=
  let csr := dec.imm.toNat
  s.mode.toNat < (csr >>> 8) &&& 3 ∨ (wouldWrite dec ∧ (csr >>> 10) &&& 3 = 3)

/-- No CSR differs, nor the flags and the rounding mode the host keeps for `fcsr`. -/
def SameCsrs (s s' : Processor xlen) : Prop := s'.csrs = s.csrs ∧ s'.fenv = s.fenv

/-! ## What an access writes -/

/-- The register an access writes, the bits of it that it may change and where the operand goes. -/
structure Window (xlen : Nat) where
  n : Nat
  reg : Register (Csrs xlen) n
  mask : BitVec n
  shift : Nat

/-- A register that `set_csr` writes under `mask`. -/
def Window.of {n : Nat} (reg : Register (Csrs xlen) n) (mask : BitVec n := -1) : Window xlen := ⟨n, reg, mask, 0⟩

/-- The high half of a counter, which `set_csr_hi` writes. -/
def Window.hi (reg : Register (Csrs xlen) 64) : Window xlen := ⟨64, reg, ~~~0xffffffff, 32⟩

/-- Every bit the operand would change has the value it would get. -/
def Window.Idle (w : Window xlen) (op : CsrOp) (value : BitVec xlen) (c : Csrs xlen) : Prop :=
  let v := value.setWidth w.n <<< w.shift
  match op with
  | .rw => (v ^^^ w.reg.get c) &&& w.mask = 0
  | .rs => v &&& w.mask &&& ~~~(w.reg.get c) = 0
  | .rc => v &&& w.mask &&& w.reg.get c = 0

/-- The registers behind the CSRs above user level that `inst_csr` writes; the others it only reads. -/
def window : RvCsr → Option (Window xlen)
  | .misa => some (.of Csrs.misaReg (misaWmask xlen))
  | .mstatus => some (.of Csrs.mstatusReg (mstatusWmask xlen))
  | .mtvec => some (.of Csrs.mtvecReg (tvecRmask xlen))
  | .medeleg => some (.of Csrs.medelegReg)
  | .mideleg => some (.of Csrs.midelegReg)
  | .mip => some (.of Csrs.mipReg (miMask xlen))
  | .mie => some (.of Csrs.mieReg (miMask xlen))
  | .mhcounteren => some (.of Csrs.mhcounterenReg)
  | .mscounteren => some (.of Csrs.mscounterenReg)
  | .mucounteren => some (.of Csrs.mucounterenReg)
  | .mscratch => some (.of Csrs.mscratchReg)
  | .mepc => some (.of Csrs.mepcReg)
  | .mcause => some (.of Csrs.mcauseReg)
  | .mbadaddr => some (.of Csrs.mbadaddrReg)
  | .mbase => some (.of Csrs.mbaseReg)
  | .mbound => some (.of Csrs.mboundReg)
  | .mibase => some (.of Csrs.mibaseReg)
  | .mibound => some (.of Csrs.miboundReg)
  | .mdbase => some (.of Csrs.mdbaseReg)
  | .mdbound => some (.of Csrs.mdboundReg)
  | .mcycle | .minstret => some (.of Csrs.instretReg)
  | .mcycleh | .minstreth => some (.hi Csrs.instretReg)
  | .sstatus => some (.of Csrs.mstatusReg (sstatusWmask xlen))
  | .stvec => some (.of Csrs.stvecReg (tvecRmask xlen))
  | .sedeleg => some (.of Csrs.sedelegReg)
  | .sideleg => some (.of Csrs.sidelegReg)
  | .sip => some (.of Csrs.mipReg (siMask xlen))
  | .sie => some (.of Csrs.mieReg (siMask xlen))
  | .sscratch => some (.of Csrs.sscratchReg)
  | .sepc => some (.of Csrs.sepcReg)
  | .scause => some (.of Csrs.scauseReg)
  | .sbadaddr => some (.of Csrs.sbadaddrReg)
  | .sptbr => some (.of Csrs.sptbrReg)
  | _ => none

def csrOp : RvOp → CsrOp
  | .csrrs | .csrrsi => .rs
  | .csrrc | .csrrci => .rc
  | _ => .rw

def csrValue (s : Processor xlen) (dec : Decode) : BitVec xlen :=
  match dec.op with
  | .csrrwi | .csrrsi | .csrrci => dec.rs1
  | _ => s.ireg dec.rs1

/-- The access finds nothing to change: the CSR is not implemented, is one that is only read (`time`, which
is refreshed on every read, at the moment it holds), or holds what is written. -/
def Inert (getTime : BitVec 64) (s : Processor xlen) (dec : Decode) : Prop :=
  match RvCsr.ofNumber dec.imm.toNat with
  | none => True
  | some .time => getTime = s.csrs.time
  | some c => ∀ w ∈ window c, w.Idle (csrOp dec.op) (csrValue s dec) s.csrs

/-! ## The accessors -/

namespace Processor

variable (s : Processor xlen) (dec : Decode) (mode : RvMode) (op : CsrOp) (csr : Nat)

@[simp] theorem setRd_csrs (v : BitVec xlen) : (s.setRd dec v).csrs = s.csrs := by
  unfold setRd
  split <;> rfl

@[simp] theorem setRd_fenv (v : BitVec xlen) : (s.setRd dec v).fenv = s.fenv := by
  unfold setRd
  split <;> rfl

theorem fenvSetrm_csrs : s.fenvSetrm.csrs = s.csrs := by
  unfold fenvSetrm
  split <;> rfl

theorem fenvSetrm_ireg : s.fenvSetrm.ireg = s.ireg := by
  unfold fenvSetrm
  split <;> rfl

theorem sameCsrs_getCsr {n : Nat} (reg : Register (Csrs xlen) n) : SameCsrs s (s.getCsr dec mode csr reg) :=
  ⟨setRd_csrs .., setRd_fenv ..⟩

theorem sameCsrs_getCsrHi (reg : Register (Csrs xlen) 64) : SameCsrs s (s.getCsrHi dec mode csr reg) :=
  ⟨setRd_csrs .., setRd_fenv ..⟩

end Processor

theorem getLsbD_hiMask {i : Nat} (hi : i < 64) : (~~~(0xffffffff : BitVec 64)).getLsbD i = decide (32 ≤ i) := by
  have hb : (0xffffffff : BitVec 64).getLsbD i = decide (i < 32) := by
    show (BitVec.ofNat 64 (2 ^ 32 - 1)).getLsbD i = _
    rw [BitVec.getLsbD_ofNat, Nat.testBit_two_pow_sub_one]
    simp [hi]
  rw [BitVec.getLsbD_not, hb]
  rcases Nat.lt_or_ge i 32 with h | h
  · simp [h, hi]
  · simp [h, hi, Nat.not_lt.2 h]

namespace Window

variable (w : Window xlen) (op : CsrOp) (value : BitVec xlen) (c : Csrs xlen)

/-- The value an access leaves in its register. -/
def written : BitVec w.n :=
  let v := value.setWidth w.n <<< w.shift
  match op with
  | .rw => maskedReplace (w.reg.get c) w.mask v
  | .rs => maskedSet (w.reg.get c) w.mask v
  | .rc => maskedClear (w.reg.get c) w.mask v

theorem written_eq_iff : w.written op value c = w.reg.get c ↔ w.Idle op value c := by
  cases op with
  | rw => exact maskedReplace_eq_self_iff _ _ _
  | rs => exact maskedSet_eq_self_iff _ _ _
  | rc => exact maskedClear_eq_self_iff _ _ _

/-- `set_csr` and `set_csr_hi` skip the write of `csrrs` and `csrrc` when the operand is 0. -/
theorem written_zero (h : op ≠ .rw) : w.written op 0 c = w.reg.get c := by
  rw [written_eq_iff]
  cases op with
  | rw => exact absurd rfl h
  | rs => simp [Idle]
  | rc => simp [Idle]

end Window

namespace Processor

variable (s : Processor xlen) (dec : Decode) (mode : RvMode) (op : CsrOp) (csr : Nat) (value : BitVec xlen)

/-- The state `s'` differs from `s` at most in `ireg` and in what the access writes. -/
def Writes (w : Window xlen) (s' : Processor xlen) : Prop :=
  s'.csrs = w.reg.set s.csrs (w.written op value s.csrs) ∧ s'.fenv = s.fenv

theorem sameCsrs_iff_idle {w : Window xlen} {s' : Processor xlen} (h : s.Writes op value w s') :
    SameCsrs s s' ↔ w.Idle op value s.csrs := by
  rw [SameCsrs, h.1, h.2, w.reg.set_eq_self_iff, w.written_eq_iff]
  simp

theorem csr_readonly (h : csr < 2 ^ 12) : (csr >>> 12) &&& 1 = 0 := by
  rw [Nat.shiftRight_eq_div_pow, Nat.div_eq_of_lt h]
  rfl

/-- The write of `csrrs` and `csrrc`, which is skipped when the operand is 0. -/
theorem writes_unless_zero {s1 : Processor xlen} (w : Window xlen) (hop : op ≠ .rw) (h1 : s1.csrs = s.csrs) (h2 : s1.fenv = s.fenv)
    {v : BitVec w.n} (hv : v = w.written op value s.csrs) :
    s.Writes op value w (if value ≠ 0 then { s1 with csrs := w.reg.set s.csrs v } else s1) := by
  subst hv
  split
  · exact ⟨rfl, h2⟩
  · rename_i h0
    rw [not_not] at h0
    subst h0
    exact ⟨by rw [h1, w.written_zero op s.csrs hop, w.reg.set_get], h2⟩

theorem writes_setCsrAt (h : csr < 2 ^ 12) {n : Nat} (reg : Register (Csrs xlen) n) (wmask rmask : BitVec n) (shift : Nat) :
    s.Writes op value ⟨n, reg, wmask <<< shift, shift⟩ (s.setCsr dec mode op csr reg value wmask rmask shift) := by
  have hs : (value.setWidth n &&& wmask) <<< shift = value.setWidth n <<< shift &&& wmask <<< shift :=
    BitVec.shiftLeft_and_distrib ..
  unfold setCsr
  simp only [csr_readonly csr h, ne_eq, not_true_eq_false, if_false, hs, setRd_csrs]
  cases op with
  | rw => exact ⟨rfl, setRd_fenv ..⟩
  | rs => exact s.writes_unless_zero .rs value ⟨n, reg, _, shift⟩ (by decide) (setRd_csrs ..) (setRd_fenv ..) rfl
  | rc => exact s.writes_unless_zero .rc value ⟨n, reg, _, shift⟩ (by decide) (setRd_csrs ..) (setRd_fenv ..) rfl

theorem writes_setCsr (h : csr < 2 ^ 12) {n : Nat} (reg : Register (Csrs xlen) n) (wmask rmask : BitVec n) :
    s.Writes op value (.of reg wmask) (s.setCsr dec mode op csr reg value wmask rmask) := by
  have hw := s.writes_setCsrAt dec mode op csr value h reg wmask rmask 0
  rwa [BitVec.shiftLeft_zero] at hw

theorem setRd_ireg (hrd : dec.rd ≠ rvIregZero) (v : BitVec xlen) : (s.setRd dec v).ireg dec.rd = v := by
  unfold setRd
  rw [if_pos hrd]
  exact if_pos rfl

/-- The write of the register comes after that of `rd`. -/
theorem setCsr_iregs {n : Nat} (reg : Register (Csrs xlen) n) (wmask rmask : BitVec n) (shift : Nat) :
    (s.setCsr dec mode op csr reg value wmask rmask shift).ireg =
      (s.setRd dec (if mode.toNat ≥ (csr >>> 8) &&& 3 then ((reg.get s.csrs >>> shift) &&& rmask).setWidth xlen else 0)).ireg := by
  unfold setCsr
  dsimp only
  split
  · rfl
  · cases op with
    | rw => rfl
    | rs => dsimp only; split <;> rfl
    | rc => dsimp only; split <;> rfl

theorem setCsrHi_iregs (reg : Register (Csrs xlen) 64) :
    (s.setCsrHi dec mode op csr reg value).ireg =
      (s.setRd dec (if mode.toNat ≥ (csr >>> 8) &&& 3 then ((reg.get s.csrs >>> 32).setWidth 32).signExtend xlen else 0)).ireg := by
  unfold setCsrHi
  dsimp only
  split
  · rfl
  · cases op with
    | rw => rfl
    | rs => dsimp only; split <;> rfl
    | rc => dsimp only; split <;> rfl

/-- What `set_csr` reads where the mode allows it. -/
theorem setCsr_ireg {n : Nat} (reg : Register (Csrs xlen) n) (wmask rmask : BitVec n) (shift : Nat) (hrd : dec.rd ≠ rvIregZero)
    (hmode : (csr >>> 8) &&& 3 ≤ mode.toNat) :
    (s.setCsr dec mode op csr reg value wmask rmask shift).ireg dec.rd = ((reg.get s.csrs >>> shift) &&& rmask).setWidth xlen := by
  rw [setCsr_iregs, setRd_ireg _ _ hrd, if_pos hmode]

/-- The operand of `set_csr_hi` lies in the high half. -/
theorem shiftLeft_and_hi (v : BitVec 64) : v <<< 32 &&& ~~~(0xffffffff : BitVec 64) = v <<< 32 := by
  rw [eq_iff_getLsbD]
  intro i hi
  rw [BitVec.getLsbD_and, getLsbD_hiMask hi]
  rcases Nat.lt_or_ge i 32 with h | h <;> simp [h]

theorem writes_setCsrHi (h : csr < 2 ^ 12) (reg : Register (Csrs xlen) 64) :
    s.Writes op value (.hi reg) (s.setCsrHi dec mode op csr reg value) := by
  have hm := shiftLeft_and_hi (value.setWidth 64)
  unfold setCsrHi
  simp only [csr_readonly csr h, ne_eq, not_true_eq_false, if_false, setRd_csrs]
  cases op with
  | rw =>
    refine ⟨congrArg (reg.set s.csrs) ?_, setRd_fenv ..⟩
    show _ = maskedReplace (reg.get s.csrs) (~~~0xffffffff) (value.setWidth 64 <<< 32)
    rw [maskedReplace, hm, BitVec.not_not, BitVec.or_comm]
  | rs =>
    refine s.writes_unless_zero .rs value (.hi reg) (by decide) (setRd_csrs ..) (setRd_fenv ..) ?_
    show _ = maskedSet (reg.get s.csrs) (~~~0xffffffff) (value.setWidth 64 <<< 32)
    rw [maskedSet, hm]
  | rc =>
    refine s.writes_unless_zero .rc value (.hi reg) (by decide) (setRd_csrs ..) (setRd_fenv ..) ?_
    show _ = maskedClear (reg.get s.csrs) (~~~0xffffffff) (value.setWidth 64 <<< 32)
    rw [maskedClear, BitVec.not_and, BitVec.not_not]

end Processor

/-! ## `inst_csr` -/

theorem rvCsr_lt (c : RvCsr) : rvCsr c < 2 ^ 12 := by
  cases c <;> decide

theorem rvCsr_of_ofNumber {csr : Nat} {c : RvCsr} (h : RvCsr.ofNumber csr = some c) : rvCsr c = csr := by
  simpa using List.find?_some h

theorem RvCsr.ofNumber_rvCsr (c : RvCsr) : RvCsr.ofNumber (rvCsr c) = some c := by
  cases c <;> rfl

/-- The floating-point CSRs are open to every mode and to writes. -/
theorem not_forbidden_of_fp {s : Processor xlen} {dec : Decode} {c : RvCsr} (hc : rvCsr c = dec.imm.toNat)
    (h : c = .fflags ∨ c = .frm ∨ c = .fcsr) : ¬ Forbidden s dec := by
  unfold Forbidden
  rw [← hc]
  rcases h with rfl | rfl | rfl <;> simp [rvCsr]

/-- What a switch case changes, floating-point CSRs apart. -/
theorem sameCsrs_instCsrCase_iff (getTime : BitVec 64) (s : Processor xlen) (dec : Decode) (op : CsrOp) (csr : Nat)
    (value : BitVec xlen) (h : csr < 2 ^ 12) (c : RvCsr) (ht : c ≠ .time)
    (hf : ¬ (c = .fflags ∨ c = .frm ∨ c = .fcsr)) :
    SameCsrs s (s.instCsrCase getTime dec op csr value c) ↔ ∀ w ∈ window c, w.Idle op value s.csrs := by
  have hs {w : Window xlen} {s' : Processor xlen} (hw : s.Writes op value w s') :
      SameCsrs s s' ↔ ∀ w' ∈ some w, w'.Idle op value s.csrs := by
    simpa using s.sameCsrs_iff_idle op value hw
  have hg {s' : Processor xlen} (hw : SameCsrs s s') :
      SameCsrs s s' ↔ ∀ w' ∈ (none : Option (Window xlen)), w'.Idle op value s.csrs := by
    simpa using hw
  cases c
  case fflags | frm | fcsr => simp at hf
  case time => exact absurd rfl ht
  case cycle | instret | mvendorid | marchid | mimpid | mhartid => exact hg (s.sameCsrs_getCsr ..)
  case cycleh | timeh | instreth => exact hg (s.sameCsrs_getCsrHi ..)
  case mcycleh | minstreth => exact hs (s.writes_setCsrHi (h := h) ..)
  -- all others go through `set_csr` without a shift
  all_goals exact hs (s.writes_setCsr (h := h) ..)

/-- A read of `time` stores the clock first. -/
theorem sameCsrs_time_iff (getTime : BitVec 64) (s : Processor xlen) (dec : Decode) (op : CsrOp) (csr : Nat)
    (value : BitVec xlen) : SameCsrs s (s.instCsrCase getTime dec op csr value .time) ↔ getTime = s.csrs.time := by
  have hset := Csrs.timeReg.set_eq_self_iff s.csrs getTime
  have hget := Processor.sameCsrs_getCsr { s with csrs.time := getTime } dec .U csr Csrs.timeReg
  unfold Processor.instCsrCase SameCsrs
  rw [hget.1, hget.2]
  exact ⟨fun h => hset.1 h.1, fun h => ⟨hset.2 h, rfl⟩⟩

/-- The six instructions are `inst_csr` with an operation and an operand. -/
theorem instPrivCsr_eq {getTime : BitVec 64} {s s' : Processor xlen} {dec : Decode} {pcOffset off : BitVec 64}
    (h : s.instPrivCsr getTime dec pcOffset = some (s', off)) :
    s' = (s.instCsr getTime dec (csrOp dec.op) dec.imm.toNat (csrValue s dec) pcOffset).1 := by
  unfold Processor.instPrivCsr at h
  unfold csrOp csrValue
  split at h <;> simp_all

/-- A forbidden CSR instruction leaves every CSR unchanged exactly when it finds nothing to change. -/
theorem csr_privilege_iff (getTime : BitVec 64) (s s' : Processor xlen) (dec : Decode) (pcOffset off : BitVec 64)
    (h : s.instPrivCsr getTime dec pcOffset = some (s', off)) :
    (Forbidden s dec → SameCsrs s s') ↔ (Forbidden s dec → Inert getTime s dec) := by
  refine forall_congr' fun hforb => ?_
  rw [instPrivCsr_eq h, Processor.instCsr, Inert]
  -- a number that the switch does not know changes nothing
  cases hc : RvCsr.ofNumber dec.imm.toNat with
  | none => simp [SameCsrs]
  | some c =>
    have hn := rvCsr_of_ofNumber hc
    have hlt : dec.imm.toNat < 2 ^ 12 := hn ▸ rvCsr_lt c
    by_cases ht : c = .time
    · subst ht
      exact sameCsrs_time_iff getTime s dec (csrOp dec.op) dec.imm.toNat (csrValue s dec)
    · rw [sameCsrs_instCsrCase_iff getTime s dec _ _ _ hlt c ht fun hf => not_forbidden_of_fp hn hf hforb]
      split <;> simp_all

/-- User mode with 5 in `a0`. -/
def userState (mscratch : BitVec 64) : Processor 64 :=
  { (default : Processor 64) with
    ireg := fun r => if r = 10 then 5 else 0, mode := .U, csrs := { (default : Csrs 64) with mscratch } }

def csrrwMscratch : Decode := { op := .csrrw, rs1 := 10, imm := 0x340 }

theorem csr_privilege_mscratch_same :
    ∃ s' off, (userState 5).instPrivCsr 0 csrrwMscratch 4 = some (s', off) ∧
      Forbidden (userState 5) csrrwMscratch ∧ SameCsrs (userState 5) s' := by
  have hf : Forbidden (userState 5) csrrwMscratch := .inl (by decide)
  refine ⟨_, _, rfl, hf, (csr_privilege_iff 0 (userState 5) _ csrrwMscratch 4 4 rfl).2 (fun _ => ?_) hf⟩
  rintro w ⟨⟩
  rfl

theorem not_sameCsrs_mscratch :
    ∃ s' off, (userState 0).instPrivCsr 0 csrrwMscratch 4 = some (s', off) ∧
      Forbidden (userState 0) csrrwMscratch ∧ ¬ SameCsrs (userState 0) s' := by
  refine ⟨_, _, rfl, .inl (by decide), fun h => ?_⟩
  exact absurd (congrArg Csrs.mscratch h.1) (by decide)

end Rv8.Emu
