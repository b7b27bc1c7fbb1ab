import Rv8.Emu.FloatCsr
/-!
# Views of a register

Two families of CSRs show part of a register. On RV32 the 64-bit `instret` lies
behind four CSRs, two for each half. `set_csr_hi` writes the high half through its
own shifts. `set_csr` takes its masks in the width of the counter, all ones when the
call gives none, so that replacing the low half clears the high one too; and
`mcycle` is read with the rights of user mode, which has none, and reads 0.

`sstatus`, `sip` and `sie` show machine registers through two masks. They confine
what an instruction changes in every mode, and what it reads.
-/

namespace Rv8.Emu

open Rv8.Lib Rv8.Asm

/-- What an instruction makes of a register that reads `old`. -/
def CsrOp.result {n : Nat} (op : CsrOp) (old value : BitVec n) : BitVec n :=
  match op with
  | .rw => value
  | .rs => old ||| value
  | .rc => old &&& ~~~value

/-! ## Counter halves -/

inductive CounterCsr
  | mcycle | minstret | mcycleh | minstreth
deriving DecidableEq

namespace CounterCsr

def csr : CounterCsr → RvCsr
  | mcycle => .mcycle | minstret => .minstret | mcycleh => .mcycleh | minstreth => .minstreth

/-- The CSR is the high half of its counter. -/
def High (c : CounterCsr) : Prop := c = mcycleh ∨ c = minstreth

instance (c : CounterCsr) : Decidable c.High := inferInstanceAs (Decidable (_ ∨ _))

/-- The half of the counter behind the CSR. -/
def half (c : CounterCsr) (x : BitVec 64) : BitVec 32 := if c.High then x.extractLsb' 32 32 else x.extractLsb' 0 32

/-- The half behind its counterpart. -/
def otherHalf (c : CounterCsr) (x : BitVec 64) : BitVec 32 := if c.High then x.extractLsb' 0 32 else x.extractLsb' 32 32

variable (c : CounterCsr) (s : Processor 32) (dec : Decode)

/-- An instruction reads and updates its half of the counter and leaves the other one alone. -/
structure HalfAccess (s' : Processor 32) : Prop where
  reads : dec.rd ≠ rvIregZero → s'.ireg dec.rd = c.half s.csrs.instret
  updates : c.half s'.csrs.instret = (csrOp dec.op).result (c.half s.csrs.instret) (csrValue s dec)
  keeps : c.otherHalf s'.csrs.instret = c.otherHalf s.csrs.instret

/-- The mode that the case of the CSR passes on. -/
def mode : RvMode := if c = mcycle then .U else s.mode

/-- `rd` is not written, or machine mode reads it, or there is nothing to read. -/
def Shown : Prop := dec.rd = rvIregZero ∨ c.mode s = .M ∨ c.half s.csrs.instret = 0

/-- The instruction does not replace a low half while the high one is in use. -/
def Split : Prop := c.High ∨ csrOp dec.op ≠ .rw ∨ c.otherHalf s.csrs.instret = 0

instance : Decidable (c.Shown s dec) := inferInstanceAs (Decidable (_ ∨ _ ∨ _))
instance : Decidable (c.Split s dec) := inferInstanceAs (Decidable (_ ∨ _ ∨ _))

end CounterCsr

section Masks
variable (op : CsrOp)

theorem getLsbD_neg_one {n i : Nat} (hi : i < n) : (-1 : BitVec n).getLsbD i = true := by
  show (-1#n).getLsbD i = true
  rw [BitVec.neg_one_eq_allOnes, BitVec.getLsbD_allOnes, decide_eq_true hi]

theorem CsrOp.getLsbD_result {n : Nat} (old value : BitVec n) {i : Nat} (hi : i < n) :
    (op.result old value).getLsbD i =
      match op with
      | .rw => value.getLsbD i
      | .rs => old.getLsbD i || value.getLsbD i
      | .rc => old.getLsbD i && !value.getLsbD i := by
  cases op <;> simp [result, hi]

/-- In the mask the masked result is the whole one. -/
theorem CsrOp.getLsbD_masked_of_mask {n : Nat} (old mask value : BitVec n) {i : Nat} (hi : i < n) (hm : mask.getLsbD i = true) :
    (op.masked old mask value).getLsbD i = (op.result old value).getLsbD i := by
  rw [CsrOp.getLsbD_result _ _ _ hi]
  refine (CsrOp.getLsbD_masked _ _ _ _ hi).trans ((if_pos hm).trans ?_)
  cases op with
  | rw => rfl
  | rs => rfl
  | rc => rfl

variable (x y : BitVec 64) (v : BitVec 32)

theorem lo_masked_low : (op.masked x (-1) (v.setWidth 64)).extractLsb' 0 32 = op.result (x.extractLsb' 0 32) v := by
  refine BitVec.eq_of_getLsbD_eq fun i hi => ?_
  rw [BitVec.getLsbD_extractLsb', CsrOp.getLsbD_masked _ _ _ _ (by omega), CsrOp.getLsbD_result _ _ _ hi,
    getLsbD_neg_one (by omega), if_pos rfl]
  cases op <;> simp [hi, show i < 64 by omega]

/-- The operand has no bits to put in place of those the mask takes out. -/
theorem hi_masked_low :
    (op.masked x (-1) (v.setWidth 64)).extractLsb' 32 32 = if op = .rw then 0 else x.extractLsb' 32 32 := by
  refine BitVec.eq_of_getLsbD_eq fun i hi => ?_
  rw [BitVec.getLsbD_extractLsb', CsrOp.getLsbD_masked _ _ _ _ (by omega), getLsbD_neg_one (by omega), if_pos rfl]
  cases op <;> simp [hi]

theorem hi_masked_high :
    (op.masked x (~~~0xffffffff) (v.setWidth 64 <<< 32)).extractLsb' 32 32 = op.result (x.extractLsb' 32 32) v := by
  refine BitVec.eq_of_getLsbD_eq fun i hi => ?_
  rw [BitVec.getLsbD_extractLsb', CsrOp.getLsbD_masked _ _ _ _ (by omega), CsrOp.getLsbD_result _ _ _ hi, getLsbD_hiMask (by omega)]
  cases op <;> simp [hi, show 32 + i < 64 by omega]

theorem lo_masked_high : (op.masked x (~~~0xffffffff) y).extractLsb' 0 32 = x.extractLsb' 0 32 := by
  refine BitVec.eq_of_getLsbD_eq fun i hi => ?_
  rw [BitVec.getLsbD_extractLsb', CsrOp.getLsbD_masked _ _ _ _ (by omega), getLsbD_hiMask (by omega)]
  simp [hi]

theorem extractLsb'_zero_eq_setWidth : x.extractLsb' 0 32 = x.setWidth 32 := by
  refine BitVec.eq_of_getLsbD_eq fun i hi => ?_
  simp [hi]

theorem extractLsb'_eq_ushiftRight : x.extractLsb' 32 32 = (x >>> 32).setWidth 32 := by
  refine BitVec.eq_of_getLsbD_eq fun i hi => ?_
  simp [hi]

end Masks

namespace CounterCsr

variable (c : CounterCsr) (s : Processor 32) (dec : Decode) (op : CsrOp) (value : BitVec 32) (getTime : BitVec 64)

/-- The state after the instruction. -/
def next : Processor 32 := s.instCsrCase getTime dec op (rvCsr c.csr) value c.csr

theorem csr_mode : (rvCsr c.csr >>> 8) &&& 3 = 3 := by
  cases c <;> rfl

theorem mode_ge_iff : (c.mode s).toNat ≥ (rvCsr c.csr >>> 8) &&& 3 ↔ c.mode s = .M := by
  rw [c.csr_mode]
  cases c.mode s <;> simp [RvMode.toNat]

theorem next_ireg (hrd : dec.rd ≠ rvIregZero) :
    (c.next s dec op value getTime).ireg dec.rd = if c.mode s = .M then c.half s.csrs.instret else 0 := by
  have hset (v : BitVec 32) : (s.setRd dec (if (c.mode s).toNat ≥ (rvCsr c.csr >>> 8) &&& 3 then v else 0)).ireg dec.rd =
      if c.mode s = .M then v else 0 := by
    rw [Processor.setRd_ireg _ _ hrd]
    exact if_congr (c.mode_ge_iff s) rfl rfl
  have hlow : (s.csrs.instret >>> (0 : Nat) &&& -1).setWidth 32 = s.csrs.instret.extractLsb' 0 32 := by
    rw [extractLsb'_zero_eq_setWidth, BitVec.ushiftRight_zero]
    exact congrArg _ BitVec.and_allOnes
  have hhigh : ((s.csrs.instret >>> 32).setWidth 32).signExtend 32 = s.csrs.instret.extractLsb' 32 32 := by
    rw [extractLsb'_eq_ushiftRight, BitVec.signExtend_eq]
  cases c with
  | mcycle | minstret =>
    refine (congrFun (Processor.setCsr_iregs ..) _).trans ((hset _).trans ?_)
    exact if_congr Iff.rfl hlow rfl
  | mcycleh | minstreth =>
    refine (congrFun (Processor.setCsrHi_iregs ..) _).trans ((hset _).trans ?_)
    exact if_congr Iff.rfl hhigh rfl

theorem next_instret :
    (c.next s dec op value getTime).csrs.instret = if c.High then op.masked s.csrs.instret (~~~0xffffffff) (value.setWidth 64 <<< 32)
      else op.masked s.csrs.instret (-1) (value.setWidth 64) := by
  have hlt := rvCsr_lt c.csr
  have hlow {s' : Processor 32} (hw : s.Writes op value (.of Csrs.instretReg) s') :
      s'.csrs.instret = op.masked s.csrs.instret (-1) (value.setWidth 64) := by
    rw [hw.1]
    exact (Window.written_eq_masked ..).trans (congrArg (op.masked _ _ ·) (BitVec.shiftLeft_zero _))
  have hhigh {s' : Processor 32} (hw : s.Writes op value (.hi Csrs.instretReg) s') :
      s'.csrs.instret = op.masked s.csrs.instret (~~~0xffffffff) (value.setWidth 64 <<< 32) := by
    rw [hw.1]
    exact Window.written_eq_masked ..
  cases c with
  | mcycle => exact hlow (s.writes_setCsr dec .U op _ value hlt Csrs.instretReg (-1) (-1))
  | minstret => exact hlow (s.writes_setCsr dec s.mode op _ value hlt Csrs.instretReg (-1) (-1))
  | mcycleh | minstreth => exact hhigh (s.writes_setCsrHi dec s.mode op _ value hlt Csrs.instretReg)

theorem reads_next_iff :
    (dec.rd ≠ rvIregZero → (c.next s dec op value getTime).ireg dec.rd = c.half s.csrs.instret) ↔ c.Shown s dec := by
  rw [Shown, or_iff_not_imp_left]
  refine forall_congr' fun hrd => ?_
  rw [next_ireg _ _ _ _ _ _ hrd]
  by_cases hm : c.mode s = .M
  · simp [hm]
  · simp [hm, eq_comm]

theorem half_next : c.half (c.next s dec op value getTime).csrs.instret = op.result (c.half s.csrs.instret) value := by
  rw [next_instret]
  unfold half
  by_cases hh : c.High
  · rw [if_pos hh, if_pos hh, if_pos hh, hi_masked_high]
  · rw [if_neg hh, if_neg hh, if_neg hh, lo_masked_low]

theorem otherHalf_next_iff :
    c.otherHalf (c.next s dec op value getTime).csrs.instret = c.otherHalf s.csrs.instret ↔
      c.High ∨ op ≠ .rw ∨ c.otherHalf s.csrs.instret = 0 := by
  rw [next_instret]
  unfold otherHalf
  by_cases hh : c.High
  · rw [if_pos hh, if_pos hh, if_pos hh, lo_masked_high]
    simp [hh]
  · rw [if_neg hh, if_neg hh, if_neg hh, hi_masked_low]
    by_cases hop : op = .rw
    · simp [hop, hh, eq_comm]
    · simp [hop]

end CounterCsr

/-- An access to a counter keeps to its half exactly when the mode may read it, unless there is nothing to be
read, and it does not replace the low half of a counter that has run past 32 bits. -/
theorem counter_halves_iff (getTime : BitVec 64) (s s' : Processor 32) (dec : Decode) (pcOffset off : BitVec 64)
    (c : CounterCsr) (hc : dec.imm.toNat = rvCsr c.csr) (h : s.instPrivCsr getTime dec pcOffset = some (s', off)) :
    c.HalfAccess s dec s' ↔ c.Shown s dec ∧ c.Split s dec := by
  rw [instPrivCsr_eq h, Processor.instCsr, hc, RvCsr.ofNumber_rvCsr]
  have hreads := c.reads_next_iff s dec (csrOp dec.op) (csrValue s dec) getTime
  have hkeeps := c.otherHalf_next_iff s dec (csrOp dec.op) (csrValue s dec) getTime
  constructor
  · rintro ⟨hr, -, hk⟩
    exact ⟨hreads.1 hr, hkeeps.1 hk⟩
  · rintro ⟨hr, hk⟩
    exact ⟨hreads.2 hr, c.half_next .., hkeeps.2 hk⟩

/-- Machine mode with 7 in `a0`. -/
def countedState (instret : BitVec 64) : Processor 32 :=
  { (default : Processor 32) with
    ireg := fun r => if r = 10 then 7 else 0, mode := .M, csrs := { (default : Csrs 32) with instret } }

/-- `csrrw a1, csr, a0` -/
def csrrwA1 (c : CounterCsr) : Decode := { op := .csrrw, rd := 11, rs1 := 10, imm := rvCsr c.csr }

theorem counter_halves_minstreth :
    ∃ s' off, (countedState 0x100000005).instPrivCsr 0 (csrrwA1 .minstreth) 4 = some (s', off) ∧
      CounterCsr.minstreth.HalfAccess (countedState 0x100000005) (csrrwA1 .minstreth) s' :=
  ⟨_, _, rfl, (counter_halves_iff 0 _ _ _ 4 _ .minstreth rfl rfl).2 (by decide)⟩

theorem not_counter_halves_minstret :
    ∃ s' off, (countedState 0x100000005).instPrivCsr 0 (csrrwA1 .minstret) 4 = some (s', off) ∧
      ¬ CounterCsr.minstret.HalfAccess (countedState 0x100000005) (csrrwA1 .minstret) s' := by
  refine ⟨_, _, rfl, fun h => ?_⟩
  exact absurd h.keeps (by decide)

/-! ## Supervisor views -/

inductive SupervisorCsr
  | sstatus | sip | sie
deriving DecidableEq

namespace SupervisorCsr

variable {xlen : Nat} (v : SupervisorCsr) (s : Processor xlen) (dec : Decode)

def csr : SupervisorCsr → RvCsr
  | sstatus => .sstatus | sip => .sip | sie => .sie

/-- The machine register behind the view. -/
def reg : SupervisorCsr → Register (Csrs xlen) xlen
  | sstatus => Csrs.mstatusReg | sip => Csrs.mipReg | sie => Csrs.mieReg

def wmask (xlen : Nat) : SupervisorCsr → BitVec xlen
  | sstatus => sstatusWmask xlen | sip | sie => siMask xlen

def rmask (xlen : Nat) : SupervisorCsr → BitVec xlen
  | sstatus => sstatusRmask xlen | sip | sie => siMask xlen

/-- What an instruction does to the register, to `rd` and to the rest of the state, and what the next one on
the view reads: `shown` of the masked result. -/
structure Confined (shown : BitVec xlen → BitVec xlen) (s' : Processor xlen) : Prop where
  inside : ∀ i, (v.reg.get s'.csrs).getLsbD i ≠ (v.reg.get s.csrs).getLsbD i → (v.wmask xlen).getLsbD i = true
  result : ∀ i, (v.wmask xlen).getLsbD i = true →
    (v.reg.get s'.csrs).getLsbD i = ((csrOp dec.op).result (v.reg.get s.csrs) (csrValue s dec)).getLsbD i
  csrs : s'.csrs = v.reg.set s.csrs (v.reg.get s'.csrs)
  iregs : ∀ r, r ≠ dec.rd ∨ dec.rd = rvIregZero → s'.ireg r = s.ireg r
  rest : { s' with csrs := s.csrs, ireg := s.ireg } = s
  rd : dec.rd ≠ rvIregZero → s'.ireg dec.rd &&& ~~~(v.rmask xlen) = 0
  readBack : ∀ getTime pcOffset (dec' : Decode) (s'' : Processor xlen) off,
    dec'.imm.toNat = rvCsr v.csr → dec'.rd ≠ rvIregZero → s'.instPrivCsr getTime dec' pcOffset = some (s'', off) →
    s''.ireg dec'.rd = shown ((csrOp dec.op).masked (v.reg.get s.csrs) (v.wmask xlen) (csrValue s dec))

/-- What a read shows of a register: the bits of the read mask, and to user mode nothing. -/
def shown (x : BitVec xlen) : BitVec xlen := if s.mode = .U then 0 else x &&& v.rmask xlen

variable (op : CsrOp) (value : BitVec xlen) (getTime : BitVec 64)

/-- The state after the instruction. -/
def next : Processor xlen := s.setCsr dec s.mode op (rvCsr v.csr) v.reg value (v.wmask xlen) (v.rmask xlen)

theorem instCsrCase_eq : s.instCsrCase getTime dec op (rvCsr v.csr) value v.csr = v.next s dec op value := by
  cases v <;> rfl

theorem mode_ge_iff : s.mode.toNat ≥ (rvCsr v.csr >>> 8) &&& 3 ↔ s.mode ≠ .U := by
  cases v <;> cases s.mode <;> decide

theorem next_iregs : (v.next s dec op value).ireg = (s.setRd dec (v.shown s (v.reg.get s.csrs))).ireg := by
  have hread : (if s.mode.toNat ≥ (rvCsr v.csr >>> 8) &&& 3 then
      ((v.reg.get s.csrs >>> (0 : Nat)) &&& v.rmask xlen).setWidth xlen else 0) = v.shown s (v.reg.get s.csrs) := by
    rw [shown, if_congr (v.mode_ge_iff s) rfl rfl, ite_not, BitVec.ushiftRight_zero, BitVec.setWidth_eq]
  exact (Processor.setCsr_iregs ..).trans (congrArg (fun w => (s.setRd dec w).ireg) hread)

theorem next_reg : v.reg.get (v.next s dec op value).csrs = op.masked (v.reg.get s.csrs) (v.wmask xlen) value := by
  have hw := s.writes_setCsr dec s.mode op _ value (rvCsr_lt v.csr) v.reg (v.wmask xlen) (v.rmask xlen)
  unfold next
  rw [hw.1]
  refine (v.reg.get_set _ _).trans ((Window.written_eq_masked ..).trans (congrArg (op.masked _ _ ·) ?_))
  exact (BitVec.shiftLeft_zero _).trans (BitVec.setWidth_eq _)

theorem next_csrs : (v.next s dec op value).csrs = v.reg.set s.csrs (v.reg.get (v.next s dec op value).csrs) := by
  have hw := s.writes_setCsr dec s.mode op _ value (rvCsr_lt v.csr) v.reg (v.wmask xlen) (v.rmask xlen)
  unfold next
  rw [hw.1]
  exact congrArg _ (v.reg.get_set _ _).symm

theorem next_rest : { v.next s dec op value with csrs := s.csrs, ireg := s.ireg } = s := by
  have hrd (w : BitVec xlen) : { s.setRd dec w with csrs := s.csrs, ireg := s.ireg } = s := by
    unfold Processor.setRd
    split <;> rfl
  unfold next Processor.setCsr
  dsimp only
  split
  · exact hrd _
  · cases op with
    | rw => exact hrd _
    | rs => dsimp only; split <;> exact hrd _
    | rc => dsimp only; split <;> exact hrd _

theorem readBack_next {s' s'' : Processor xlen} {dec' : Decode} {pcOffset off : BitVec 64} (hc : dec'.imm.toNat = rvCsr v.csr)
    (hrd : dec'.rd ≠ rvIregZero) (h : s'.instPrivCsr getTime dec' pcOffset = some (s'', off)) :
    s''.ireg dec'.rd = v.shown s' (v.reg.get s'.csrs) := by
  rw [instPrivCsr_eq h, Processor.instCsr, hc, RvCsr.ofNumber_rvCsr]
  dsimp only
  rw [instCsrCase_eq, next_iregs, Processor.setRd_ireg _ _ hrd]

theorem shown_and_not_rmask (x : BitVec xlen) : v.shown s x &&& ~~~(v.rmask xlen) = 0 := by
  unfold shown
  split
  · exact BitVec.zero_and
  · rw [BitVec.and_assoc, BitVec.and_not_self]
    exact BitVec.and_zero

theorem confined_next : v.Confined s dec (v.shown s) (v.next s dec (csrOp dec.op) (csrValue s dec)) where
  inside i := by
    rw [next_reg]
    intro hne
    by_contra hm
    by_cases hi : i < xlen
    · rw [CsrOp.getLsbD_masked _ _ _ _ hi, if_neg hm] at hne
      exact hne rfl
    · rw [BitVec.getLsbD_of_ge _ _ (Nat.le_of_not_lt hi), BitVec.getLsbD_of_ge _ _ (Nat.le_of_not_lt hi)] at hne
      exact hne rfl
  result i hm := by
    have hi : i < xlen := BitVec.lt_of_getLsbD hm
    rw [next_reg]
    exact CsrOp.getLsbD_masked_of_mask _ _ _ _ hi hm
  csrs := v.next_csrs ..
  iregs r hr := by
    rw [next_iregs, Processor.setRd]
    split
    · next hrd => exact if_neg (hr.resolve_right hrd)
    · rfl
  rest := v.next_rest ..
  rd hrd := by
    rw [next_iregs, Processor.setRd_ireg _ _ hrd, shown_and_not_rmask]
  readBack getTime pcOffset dec' s'' off hc hrd h := by
    have hrest := congrArg Processor.mode (v.next_rest s dec (csrOp dec.op) (csrValue s dec))
    have hmode : (v.next s dec (csrOp dec.op) (csrValue s dec)).mode = s.mode := hrest
    rw [v.readBack_next getTime hc hrd h, next_reg, shown, shown, hmode]

end SupervisorCsr

/-- The views confine what instructions on them do, and show it to every mode but the user's. -/
theorem supervisor_views_confine {R : Rv} (getTime : BitVec 64) (s s' : Processor R.xlen) (dec : Decode) (pcOffset off : BitVec 64)
    (v : SupervisorCsr) (hc : dec.imm.toNat = rvCsr v.csr) (h : s.instPrivCsr getTime dec pcOffset = some (s', off)) :
    v.Confined s dec (v.shown s) s' := by
  rw [instPrivCsr_eq h, Processor.instCsr, hc, RvCsr.ofNumber_rvCsr]
  dsimp only
  rw [SupervisorCsr.instCsrCase_eq]
  exact v.confined_next s dec

/-- 2, the bit of `ssip` and of `sstatus.sie`, in `a0`. -/
def viewState (mode : RvMode) : Processor 64 :=
  { (default : Processor 64) with ireg := fun r => if r = 10 then 2 else 0, mode }

/-- `csrrw a1, csr, a0` -/
def csrrwView (v : SupervisorCsr) : Decode := { op := .csrrw, rd := 11, rs1 := 10, imm := rvCsr v.csr }

theorem supervisor_views_confine_sstatus :
    ∃ s' off, (viewState .S).instPrivCsr 0 (csrrwView .sstatus) 4 = some (s', off) ∧
      SupervisorCsr.sstatus.Confined (viewState .S) (csrrwView .sstatus) (SupervisorCsr.sstatus.shown (viewState .S)) s' :=
  ⟨_, _, rfl, supervisor_views_confine (R := .rv64) 0 _ _ _ 4 _ .sstatus rfl rfl⟩

/-- In user mode the same instruction again reads 0, not the bit that the first one set. -/
theorem not_supervisor_views_shown :
    ∃ s' off, (viewState .U).instPrivCsr 0 (csrrwView .sstatus) 4 = some (s', off) ∧
      ¬ SupervisorCsr.sstatus.Confined (viewState .U) (csrrwView .sstatus)
        (fun x => x &&& SupervisorCsr.sstatus.rmask 64) s' := by
  refine ⟨_, _, rfl, fun h => ?_⟩
  exact absurd (h.readBack 0 4 (csrrwView .sstatus) _ _ rfl (by decide) rfl) (by decide)

end Rv8.Emu
