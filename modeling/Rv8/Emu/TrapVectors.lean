import Rv8.Lib.Steps
import Rv8.Emu.Csr
import Rv8.Emu.Frame
import Rv8.Emu.Trap
import Rv8.Emu.IllegalInstruction
/-!
# Trap vectors

Runs of privileged instructions, traps and interrupts, and what they leave in `mtvec`
and `stvec`. `inst_csr` has a mask for what is written to a trap vector and one for
what is read, but passes them to `set_csr` the other way round, so the two low bits are
stored and then hidden from whoever reads the register. A trap jumps to what is stored.
-/

namespace Rv8.Emu

open Rv8.Lib Rv8.Asm

variable {R : Rv} {σ : Type}

/-! ## Runs -/

inductive VectorEvent (R : Rv)
  /-- An instruction that `inst_priv` executes, or rejects. -/
  | priv (getTime : BitVec 64) (dec : Decode) (pcOffset : BitVec R.xlen)
  | trap (op : RvOp) (cause : RaisedCause)
  | isr (lines : IntrLines)
  /-- What other instructions leave in the integer registers and `pc`. -/
  | other (ireg : Nat → BitVec R.xlen) (pc : BitVec R.xlen)

namespace Machine

variable (s : Machine R σ)

def vectorNext : VectorEvent R → Machine R σ
  | .priv getTime dec pcOffset => (s.instPriv getTime dec pcOffset).1
  | .trap op cause => { s with hart := (Emu.trap op cause).left s.hart }
  | .isr lines => { s with hart := (Emu.isr lines).left s.hart }
  | .other ireg pc => { s with hart := { s.hart with ireg, pc } }

def vectorStep (e : VectorEvent R) : Option (Machine R σ) := some (s.vectorNext e)

end Machine

/-! ## What is wanted -/

/-- The CSR of a handler's vector. -/
def Handler.tvecCsr : Handler → RvCsr
  | .S => .stvec | .M => .mtvec

namespace Hart

variable (s : Hart R)

def AlignedVectors : Prop := ∀ h : Handler, 4 ∣ (s.tvec h).toNat

/-- A trap or an interrupt that enters a handler sets `pc` to a multiple of 4. -/
def AlignedEntry : Prop :=
  ∀ h s', (∃ op cause, Entered h s' (trap op cause s)) ∨ (∃ lines, Entered h s' (isr lines s)) → 4 ∣ s'.pc.toNat

end Hart

/-- An instruction that may read a vector reads what is stored. -/
def Machine.ReadsVectors (s : Machine R σ) : Prop :=
  ∀ (h : Handler) getTime dec pcOffset, RvOp.isCsr dec.op = true → dec.imm.toNat = rvCsr h.tvecCsr → dec.rd ≠ rvIregZero →
    h.mode.toNat ≤ s.hart.mode.toNat → (s.instPriv getTime dec pcOffset).1.hart.ireg dec.rd = s.hart.tvec h

/-- What is wanted of every state. -/
structure Machine.VectorsOk (s : Machine R σ) : Prop where
  aligned : s.hart.AlignedVectors
  entry : s.hart.AlignedEntry
  reads : s.ReadsVectors

/-- An instruction that would set one of the two low bits of a vector. -/
def Machine.SetsLowBits (s : Machine R σ) : VectorEvent R → Prop
  | .priv _ dec _ => RvOp.isCsr dec.op = true ∧ (∃ h : Handler, dec.imm.toNat = rvCsr h.tvecCsr) ∧ csrOp dec.op ≠ .rc ∧
      ¬ 4 ∣ (csrValue s.hart.toProcessor dec).toNat
  | _ => False

/-! ## Alignment -/

section Bits
variable {n : Nat}

theorem four_dvd_iff (x : BitVec n) : 4 ∣ x.toNat ↔ x.getLsbD 0 = false ∧ x.getLsbD 1 = false := by
  unfold BitVec.getLsbD
  rw [Nat.testBit_succ x.toNat 0, Nat.testBit_zero, Nat.testBit_zero, decide_eq_false_iff_not, decide_eq_false_iff_not]
  omega

theorem four_dvd_or (x y : BitVec n) : 4 ∣ (x ||| y).toNat ↔ 4 ∣ x.toNat ∧ 4 ∣ y.toNat := by
  simp only [four_dvd_iff, BitVec.getLsbD_or, Bool.or_eq_false_iff]
  tauto

theorem four_dvd_and {x : BitVec n} (h : 4 ∣ x.toNat) (y : BitVec n) : 4 ∣ (x &&& y).toNat := by
  rw [four_dvd_iff] at h ⊢
  simp only [BitVec.getLsbD_and, h.1, h.2, Bool.false_and, and_self]

/-- The mask that reads go through shows all of an aligned vector. -/
theorem and_tvecWmask {x : BitVec n} (h : 4 ∣ x.toNat) : x &&& tvecWmask n = x := by
  rw [four_dvd_iff] at h
  refine BitVec.eq_of_getLsbD_eq fun i hi => ?_
  unfold tvecWmask
  rcases i with _ | _ | i
  · simp [h.1]
  · simp [h.2]
  · rw [show (-1 : BitVec n) = BitVec.allOnes n from BitVec.neg_one_eq_allOnes]
    simp [hi]

end Bits

/-! ## What an instruction leaves in a vector -/

/-- The register of a handler's vector. -/
def Csrs.tvecReg {xlen : Nat} : Handler → Register (Csrs xlen) xlen
  | .S => stvecReg | .M => mtvecReg

theorem Hart.tvec_eq (s : Hart R) (h : Handler) : s.tvec h = (Csrs.tvecReg h).get s.csrs := by
  cases h <;> rfl

namespace Processor

variable {xlen : Nat} (s : Processor xlen) (dec : Decode) (op : CsrOp) (csr : Nat) (getTime : BitVec 64) (value : BitVec xlen)

/-- No case of the switch assigns a vector but that of its own CSR. -/
theorem tvec_instCsrCase (hcsr : csr < 2 ^ 12) {c : RvCsr} {h : Handler} (hc : c ≠ h.tvecCsr) :
    (Csrs.tvecReg h).get (s.instCsrCase getTime dec op csr value c).csrs = (Csrs.tvecReg h).get s.csrs := by
  refine get_instCsrCase (Csrs.tvecReg h).get ?_ ?_ s dec op hcsr getTime value c ?_
  · intro _ _
    cases h <;> rfl
  · intro _ _
    cases h <;> rfl
  · intro w hw
    cases h <;> cases c <;> first | exact absurd rfl hc | (cases hw <;> rfl)

/-- The operand goes into a vector as it is. -/
theorem tvec_instCsrCase_self (hcsr : csr < 2 ^ 12) (h : Handler) :
    (Csrs.tvecReg h).get (s.instCsrCase getTime dec op csr value h.tvecCsr).csrs =
      match op with
      | .rw => value
      | .rs => (Csrs.tvecReg h).get s.csrs ||| value
      | .rc => (Csrs.tvecReg h).get s.csrs &&& ~~~value := by
  have hw : s.Writes op value (.of (Csrs.tvecReg h) (tvecRmask xlen)) (s.instCsrCase getTime dec op csr value h.tvecCsr) := by
    cases h <;> exact s.writes_setCsr (h := hcsr) ..
  refine ((congrArg (Csrs.tvecReg h).get hw.1).trans (Register.get_set ..)).trans ?_
  unfold Window.written Window.of
  cases op <;> simp [maskedReplace, maskedSet, maskedClear, tvecRmask, BitVec.neg_one_eq_allOnes]

end Processor

theorem Handler.tvecCsr_mode (h : Handler) : (rvCsr h.tvecCsr >>> 8) &&& 3 = h.mode.toNat := by
  cases h <;> rfl

/-! ## One event -/

namespace Machine

variable {s : Machine R σ} {getTime : BitVec 64} {dec : Decode} {pcOffset : BitVec R.xlen}

theorem instPriv_isCsr (hc : RvOp.isCsr dec.op = true) :
    (s.instPriv getTime dec pcOffset).1.hart = { s.hart with
      toProcessor := (s.hart.toProcessor.instCsr getTime dec (csrOp dec.op) dec.imm.toNat (csrValue s.hart.toProcessor dec)
        (pcOffset.setWidth 64)).1 } := by
  obtain ⟨op, value, hp⟩ := instPrivCsr_of_isCsr getTime hc s.hart.toProcessor (pcOffset.setWidth 64)
  have heq : (s.hart.toProcessor.instCsr getTime dec op dec.imm.toNat value (pcOffset.setWidth 64)).1 =
      (s.hart.toProcessor.instCsr getTime dec (csrOp dec.op) dec.imm.toNat (csrValue s.hart.toProcessor dec)
        (pcOffset.setWidth 64)).1 := instPrivCsr_eq hp
  unfold instPriv
  rw [hp, ← heq]

theorem tvec_instPriv_csr (hc : RvOp.isCsr dec.op = true) {h : Handler} (hn : dec.imm.toNat = rvCsr h.tvecCsr) :
    (s.instPriv getTime dec pcOffset).1.hart.tvec h =
      match csrOp dec.op with
      | .rw => csrValue s.hart.toProcessor dec
      | .rs => s.hart.tvec h ||| csrValue s.hart.toProcessor dec
      | .rc => s.hart.tvec h &&& ~~~(csrValue s.hart.toProcessor dec) := by
  rw [instPriv_isCsr hc, Hart.tvec_eq, Hart.tvec_eq, hn]
  unfold Processor.instCsr
  rw [RvCsr.ofNumber_rvCsr]
  exact Processor.tvec_instCsrCase_self _ _ _ _ _ _ (rvCsr_lt _) h

theorem tvec_instPriv_other {h : Handler} (hn : RvOp.isCsr dec.op = true → dec.imm.toNat ≠ rvCsr h.tvecCsr) :
    (s.instPriv getTime dec pcOffset).1.hart.tvec h = s.hart.tvec h := by
  cases hc : RvOp.isCsr dec.op with
  | true =>
    rw [instPriv_isCsr hc, Hart.tvec_eq, Hart.tvec_eq]
    unfold Processor.instCsr
    cases hm : RvCsr.ofNumber dec.imm.toNat with
    | none => rfl
    | some c =>
      have hcsr : dec.imm.toNat < 2 ^ 12 := rvCsr_of_ofNumber hm ▸ rvCsr_lt c
      refine Processor.tvec_instCsrCase _ _ _ _ _ _ hcsr fun he => hn hc ?_
      rw [← he, rvCsr_of_ofNumber hm]
  | false =>
    rw [Hart.tvec_eq, Hart.tvec_eq]
    refine get_instPriv (Csrs.tvecReg h).get (fun _ _ => ?_) getTime s dec pcOffset fun p off hp => ?_
    · cases h <;> rfl
    · rw [instPrivCsr_of_not_isCsr getTime hc] at hp
      cases hp

/-- An instruction that reads an aligned vector reads what is stored. -/
theorem readsVectors (hs : s.hart.AlignedVectors) : s.ReadsVectors := by
  intro h getTime dec pcOffset hc hn hrd hmode
  rw [instPriv_isCsr hc, hn]
  unfold Processor.instCsr
  rw [RvCsr.ofNumber_rvCsr, ← and_tvecWmask (hs h)]
  have hm : (rvCsr h.tvecCsr >>> 8) &&& 3 ≤ s.hart.mode.toNat := by rwa [h.tvecCsr_mode]
  have hread : ∀ reg : Register (Csrs R.xlen) R.xlen,
      (s.hart.toProcessor.setCsr dec s.hart.mode (csrOp dec.op) (rvCsr h.tvecCsr) reg (csrValue s.hart.toProcessor dec)
        (tvecRmask R.xlen) (tvecWmask R.xlen)).ireg dec.rd = reg.get s.hart.csrs &&& tvecWmask R.xlen := by
    intro reg
    rw [Processor.setCsr_ireg _ _ _ _ _ _ _ _ _ 0 hrd hm, BitVec.setWidth_eq, BitVec.ushiftRight_zero]
  cases h
  · exact hread Csrs.stvecReg
  · exact hread Csrs.mtvecReg

end Machine

theorem Hart.alignedEntry {s : Hart R} (hs : s.AlignedVectors) : s.AlignedEntry := by
  have hpc {h : Handler} {s' t : Hart R} {k : Handler} {o : Outcome TrapExit (Hart R) (Option Handler)} (he : Entered h s' o)
      (hk : Entered k t o) (ht : Hart.Takes k s t) : 4 ∣ s'.pc.toNat := by
    obtain ⟨rfl, rfl⟩ := Entered.unique he hk
    rw [ht.pc]
    exact hs h
  rintro h s' (⟨op, cause, he⟩ | ⟨lines, he⟩)
  · by_cases hop : op = .ebreak ∨ cause = .reset
    · exact absurd he (not_entered_trap hop h s s')
    · rw [not_or] at hop
      cases cause with
      | reset => exact absurd rfl hop.2
      | sync raised =>
        obtain ⟨t, hk, ht⟩ := exists_takes_trap hop.1 raised s
        exact hpc he hk ht
  · cases hi : s.interrupt lines with
    | none => exact absurd he (not_entered_isr hi h s')
    | some src =>
      obtain ⟨t, hk, ht⟩ := exists_takes_isr hi
      exact hpc he hk ht

theorem Machine.vectorsOk_iff (s : Machine R σ) : s.VectorsOk ↔ s.hart.AlignedVectors :=
  ⟨fun h => h.aligned, fun h => ⟨h, Hart.alignedEntry h, s.readsVectors h⟩⟩

theorem Hart.tvec_left {s : Hart R} {m : Prog TrapExit (Hart R) (Option Handler)} (hm : Prog.Keeps s.SameUntrapped m) (h : Handler) :
    (m.left s).tvec h = s.tvec h := by
  have ht := Prog.left_of_keeps hm (.refl s)
  cases h
  · exact ht.stvec
  · exact ht.mtvec

theorem Machine.alignedVectors_next_iff {s : Machine R σ} (hs : s.hart.AlignedVectors) (e : VectorEvent R) :
    (s.vectorNext e).hart.AlignedVectors ↔ ¬ s.SetsLowBits e := by
  have hkeep {s' : Machine R σ} (h : ∀ h, s'.hart.tvec h = s.hart.tvec h) : s'.hart.AlignedVectors := by
    intro k
    rw [h k]
    exact hs k
  cases e with
  | priv getTime dec pcOffset =>
    constructor
    · rintro hal ⟨hc, ⟨h, hn⟩, hop, hv⟩
      have hh := hal h
      rw [vectorNext, tvec_instPriv_csr hc hn] at hh
      cases ho : csrOp dec.op with
      | rw => simp only [ho] at hh; exact hv hh
      | rs => simp only [ho] at hh; exact hv ((four_dvd_or _ _).1 hh).2
      | rc => exact hop ho
    · intro hno h
      rw [vectorNext]
      by_cases hn : RvOp.isCsr dec.op = true ∧ dec.imm.toNat = rvCsr h.tvecCsr
      · have hv : csrOp dec.op = .rc ∨ 4 ∣ (csrValue s.hart.toProcessor dec).toNat := by
          by_contra hor
          rw [not_or] at hor
          exact hno ⟨hn.1, ⟨h, hn.2⟩, hor⟩
        rw [tvec_instPriv_csr hn.1 hn.2]
        cases ho : csrOp dec.op with
        | rw => exact hv.resolve_left (by rw [ho]; decide)
        | rs => exact (four_dvd_or _ _).2 ⟨hs h, hv.resolve_left (by rw [ho]; decide)⟩
        | rc => exact four_dvd_and (hs h) _
      · rw [tvec_instPriv_other fun hc hn' => hn ⟨hc, hn'⟩]
        exact hs h
  | trap op cause => exact iff_of_true (hkeep fun h => Hart.tvec_left (keeps_trap _ op cause) h) not_false
  | isr lines => exact iff_of_true (hkeep fun h => Hart.tvec_left (keeps_isr _ lines) h) not_false
  | other ireg pc => exact iff_of_true (hkeep fun h => by cases h <;> rfl) not_false

/-! ## Whole runs -/

/-- From reset on, the vectors are aligned, traps go to aligned addresses and reads show what is stored exactly if
the vectors were aligned before, which `reset` does not see to, and no instruction sets their low bits. -/
theorem vectors_ok_iff (hart : Hart R) (mmu : Mmu σ) (evs : List (VectorEvent R)) :
    Always Machine.vectorStep Machine.VectorsOk evs ⟨hart.reset, mmu⟩ ↔
      hart.AlignedVectors ∧ Along Machine.vectorStep (fun s e => ¬ s.SetsLowBits e) evs ⟨hart.reset, mmu⟩ := by
  have hok : (Machine.VectorsOk : Machine R σ → Prop) = fun s => s.hart.AlignedVectors := by
    funext s
    exact propext s.vectorsOk_iff
  have hreset : hart.reset.AlignedVectors ↔ hart.AlignedVectors :=
    forall_congr' fun h => by cases h <;> rfl
  rw [hok, ← hreset]
  apply always_iff_along
  · intro s e
    exact ⟨_, rfl⟩
  · rintro s e s' hs he
    obtain rfl := Option.some.inj he
    exact Machine.alignedVectors_next_iff hs e

/-- `csrrwi x0, mtvec, 1` -/
def csrrwiMtvec : Decode := { op := .csrrwi, rs1 := 1, imm := 0x305 }

theorem not_vectors_ok_csrrwi :
    (default : Hart .rv64).AlignedVectors ∧
      ¬ Always Machine.vectorStep Machine.VectorsOk [.priv 0 csrrwiMtvec 4] (bareMachine (default : Hart .rv64).reset) := by
  refine ⟨fun h => by cases h <;> decide, fun h => ?_⟩
  have hm := (h.2 _ rfl).aligned .M
  exact absurd hm (by decide)

end Rv8.Emu
