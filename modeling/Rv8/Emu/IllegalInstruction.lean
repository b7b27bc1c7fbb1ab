import Rv8.Asm.Opcodes
import Rv8.Emu.InstCache
import Rv8.Emu.Trap
/-!
# Illegal instructions

`inst_exec` and `inst_priv` return the offset -1 for an instruction they do not know.
The offset is also what jumps compute, but every jump and branch is even: the
immediates have no low bit and `jalr` clears it. Only `sret` and `mret` can compute -1,
from a saved address right before their own, and have changed the mode by then.
-/

namespace Rv8.Emu

open Rv8.Lib Rv8.Asm Prog

variable {R : Rv} {σ : Type}

/-! ## Offsets of the interpreter -/

/-- An offset comes from `pc_offset`, a jump or a taken branch. -/
def Action.Offset (dec : Decode) (pcOffset : BitVec R.xlen) (a : Action R) (off : BitVec R.xlen) : Prop :=
  off = pcOffset ∨ a = .jump off ∨ (a = .branch true ∧ off = BitVec.ofInt R.xlen dec.imm)

theorem Action.yields_run (port : Port σ) (host : Host) (dec : Decode) (pcOffset : BitVec R.xlen) (a : Action R) :
    Yields (a.Offset dec pcOffset) (a.run port host dec pcOffset) := by
  have hpure : Yields (a.Offset dec pcOffset) (pure pcOffset : Prog MmuExit (Machine R σ) _) := yields_pure (.inl rfl)
  cases a with
  | setRd v => exact yields_bind fun _ => hpure
  | jump offset => exact yields_bind fun _ => yields_pure (.inr (.inl rfl))
  | branch taken =>
    cases taken with
    | false => exact hpure
    | true => exact yields_pure (.inr (.inr ⟨rfl, rfl⟩))
  | load n signed va => exact yields_bind fun _ => yields_bind fun _ => hpure
  | store n va val => exact yields_bind fun _ => hpure
  | lr n va => exact yields_bind fun _ => yields_bind fun _ => yields_bind fun _ => hpure
  | sc n va val =>
    refine yields_bind fun s => yields_ite ?_ ?_
    · exact yields_bind fun _ => hpure
    · exact yields_bind fun _ => yields_bind fun _ => hpure
  | amo n aop va val2 => exact yields_bind fun _ => yields_bind fun _ => hpure
  | fload fmt va => exact yields_bind fun _ => yields_bind fun _ => hpure
  | fstore fmt va val => exact yields_bind fun _ => hpure
  | setFrd fmt setrm v => exact yields_bind fun _ => yields_bind fun _ => hpure
  | fpSetRd setrm v => exact yields_bind fun _ => yields_bind fun _ => hpure

def Action.isJump : Action R → Bool
  | .jump _ => true
  | _ => false

def Action.isBranch : Action R → Bool
  | .branch _ => true
  | _ => false

/-- The instructions whose target is the immediate. -/
def RvOp.hasTarget (op : RvOp) : Bool := op ∈ [.jal, .beq, .bne, .blt, .bge, .bltu, .bgeu]

theorem isJump_action (host : Host) (s : Hart R) (dec : Decode) (op : RvOp) :
    (action host s dec op).any (fun a => a.2.isJump) = (op = .jal || op = .jalr) := by
  cases R <;> cases op <;> rfl

theorem isBranch_action (host : Host) (s : Hart R) (dec : Decode) (op : RvOp) :
    (action host s dec op).any (fun a => a.2.isBranch) = true → RvOp.hasTarget op = true := by
  cases R <;> cases op <;> first | exact fun _ => rfl | nofun

theorem even_ne_illegal {x : BitVec R.xlen} (h : x.getLsbD 0 = false) : x ≠ Machine.illegal := by
  rintro rfl
  cases R <;> exact absurd h (by decide)

theorem ofInt_ne_illegal {imm : Int} (h : imm % 2 = 0) : BitVec.ofInt R.xlen imm ≠ Machine.illegal := by
  apply even_ne_illegal
  have hd : (2 : Int) ∣ ((2 ^ R.xlen : Nat) : Int) := by
    cases R <;> decide
  have hmod : imm % ((2 ^ R.xlen : Nat) : Int) % 2 = 0 := by
    rw [Int.emod_emod_of_dvd _ hd]
    exact h
  unfold BitVec.getLsbD
  rw [BitVec.toNat_ofInt, Nat.testBit_zero]
  simp only [decide_eq_false_iff_not]
  omega

/-- The jumps and branches of a decoded record go to even offsets. -/
def EvenTarget (dec : Decode) : Prop := RvOp.hasTarget dec.op = true → dec.imm % 2 = 0

/-- An instruction that the interpreter knows does not return -1. -/
theorem Action.offset_ne_illegal {host : Host} {s : Hart R} {dec : Decode} {pcOffset off : BitVec R.xlen} {ext : Ext}
    {a : Action R} (ha : action host s dec dec.op = some (ext, a)) (heven : EvenTarget dec) (hoff : pcOffset ≠ Machine.illegal)
    (h : a.Offset dec pcOffset off) : off ≠ Machine.illegal := by
  rcases h with rfl | rfl | ⟨rfl, rfl⟩
  · exact hoff
  · have hj := isJump_action host s dec dec.op
    rw [ha] at hj
    simp only [Option.any_some, isJump, Bool.true_eq, Bool.or_eq_true, decide_eq_true_eq] at hj
    rcases hj with hop | hop
    · have himm := heven (by rw [hop]; rfl)
      rw [hop] at ha
      cases ha
      exact ofInt_ne_illegal himm
    · rw [hop] at ha
      cases ha
      -- `& ~1`
      apply even_ne_illegal
      rw [BitVec.getLsbD_and, BitVec.getLsbD_not]
      cases R <;> simp [Rv.xlen]
  · have hb := isBranch_action host s dec dec.op
    rw [ha] at hb
    exact ofInt_ne_illegal (heven (hb rfl))

/-- The interpreter returns -1 for an opcode it has no case for, and then has done nothing. -/
theorem execInst_illegal {port : Port σ} {host : Host} {rv : Ext → Bool} {dec : Decode} {pcOffset : BitVec R.xlen}
    {s s' : Machine R σ} (heven : EvenTarget dec) (hoff : pcOffset ≠ Machine.illegal)
    (h : execInst port host rv dec pcOffset s = .ok Machine.illegal s') : action host s.hart dec dec.op = none ∧ s' = s := by
  cases ha : action host s.hart dec dec.op with
  | none =>
    rw [execInst_of_none ha] at h
    cases h
    exact ⟨rfl, rfl⟩
  | some p =>
    obtain ⟨ext, a⟩ := p
    rw [execInst_of_some ha] at h
    have hy : Yields (a.Offset dec pcOffset) (if rv ext then a.run port host dec pcOffset else pure pcOffset) :=
      yields_ite (a.yields_run port host dec pcOffset) (yields_pure (.inl rfl))
    exact absurd rfl (Action.offset_ne_illegal ha heven hoff (hy _ _ _ h))

/-! ## Decoded records -/

/-- The formats whose immediate is the offset of a jump or a branch. -/
theorem even_of_fits {dec : Decode} {codec : RvCodec} (h : FormatFits dec codec)
    (hc : codec ∈ [.uj, .sb, .cb, .cj, .cj_jal]) : dec.imm % 2 = 0 := by
  simp only [List.mem_cons, List.not_mem_nil, or_false] at hc
  rcases hc with rfl | rfl | rfl | rfl | rfl
  · exact h.2.2.2.2.2.1
  · exact h.2.2.2.2.2.1
  · exact h.2.2.2.2.2.2.1
  · exact h.2.2.2.2.2.1
  · exact h.2.2.2.2.2.1

theorem codec_of_hasTarget {op : RvOp} (h : RvOp.hasTarget op = true) :
    rvInstCodec op ∈ [RvCodec.uj, .sb, .cb, .cj, .cj_jal] := by
  cases op <;> first | decide | exact absurd h (by decide)

theorem codec_of_decomp_hasTarget {op : RvOp}
    (h : RvOp.hasTarget (rvInstDecompRv32 op) = true ∨ RvOp.hasTarget (rvInstDecompRv64 op) = true) :
    rvInstCodec op ∈ [RvCodec.uj, .sb, .cb, .cj, .cj_jal] := by
  cases op <;> first | decide | exact absurd h (by decide)

theorem even_decodeInstType (dec : Decode) (op : RvOp) (inst : Nat)
    (hc : rvInstCodec op ∈ [RvCodec.uj, .sb, .cb, .cj, .cj_jal]) : (decodeInstType { dec with op } inst).imm % 2 = 0 := by
  have hsame := sameDecoded_decodeInstType op dec inst
  have hne : rvInstCodec (decodeInstType { dec with op } inst).op ≠ .illegal := by
    rw [decodeInstType_op]
    rintro hi
    rw [show rvInstCodec op = .illegal from hi] at hc
    exact absurd hc (by decide)
  rw [(hsame.fields hne).2.2.2]
  exact even_of_fits (formatFits_decodeType op (rvInstCodec op) (rvInstCodec op) inst) hc

def Rv.decomp : Rv → RvOp → RvOp
  | .rv32 => rvInstDecompRv32
  | .rv64 => rvInstDecompRv64

theorem Rv.decompress_eq (R : Rv) (dec : Decode) : R.decompress dec = decompressInst R.decomp dec := by
  cases R <;> rfl

theorem decompressInst_imm (decomp : RvOp → RvOp) (dec : Decode) : (decompressInst decomp dec).imm = dec.imm := by
  by_cases h : decomp dec.op = .illegal <;> simp [decompressInst, h]

theorem decompressInst_op (decomp : RvOp → RvOp) (dec : Decode) :
    (decompressInst decomp dec).op = if decomp dec.op = .illegal then dec.op else decomp dec.op := by
  by_cases h : decomp dec.op = .illegal <;> simp [decompressInst, h]

section InstDecode
variable (R : Rv) (isa : Isa) (dec : Decode) (inst : Nat)

theorem instDecode_imm :
    (instDecode R isa dec inst).imm = (decodeInstType { dec with op := decodeInstOp (isa.flags R) inst } inst).imm := by
  unfold instDecode
  split
  · rw [Rv.decompress_eq, decompressInst_imm]
  · rfl

/-- The opcode, decompressed where it can be and the processor has compressed instructions. -/
theorem instDecode_op :
    (instDecode R isa dec inst).op =
      let op := decodeInstOp (isa.flags R) inst
      if isa.compressed = true ∧ R.decomp op ≠ .illegal then R.decomp op else op := by
  unfold instDecode
  by_cases hc : isa.compressed = true
  · rw [if_pos hc, Rv.decompress_eq, decompressInst_op, decodeInstType_op]
    by_cases hd : R.decomp (decodeInstOp (isa.flags R) inst) = .illegal <;> simp [hc, hd]
  · rw [if_neg hc, decodeInstType_op]
    simp [hc]

theorem evenTarget_instDecode : EvenTarget (instDecode R isa dec inst) := by
  unfold EvenTarget
  rw [instDecode_imm, instDecode_op]
  intro ht
  apply even_decodeInstType
  dsimp only at ht
  split at ht
  · apply codec_of_decomp_hasTarget
    cases R with
    | rv32 => exact .inl ht
    | rv64 => exact .inr ht
  · exact codec_of_hasTarget ht

end InstDecode

/-! ## Privileged instructions -/

/-- A return to the address right before its own. -/
def ReturnsBack (s : Hart R) (op : RvOp) : Prop :=
  (op = .sret ∧ s.mode.toNat ≥ RvMode.S.toNat ∧ s.csrs.sepc = s.pc - 1) ∨
    (op = .mret ∧ s.mode.toNat ≥ RvMode.M.toNat ∧ s.csrs.mepc = s.pc - 1)

/-- The instructions of `inst_csr`. -/
def RvOp.isCsr (op : RvOp) : Bool := op ∈ [.csrrw, .csrrs, .csrrc, .csrrwi, .csrrsi, .csrrci]

/-- The instructions that `inst_priv` knows, where it executes them. -/
def Privileged (s : Hart R) (dec : Decode) : Prop :=
  if RvOp.isCsr dec.op = true then (RvCsr.ofNumber dec.imm.toNat).isSome = true
  else
    match dec.op with
    | .sret | .sfence_vm | .wfi => s.mode.toNat ≥ RvMode.S.toNat
    | .mret => s.mode.toNat ≥ RvMode.M.toNat
    | .fence | .fence_i => True
    | _ => False

section Priv
variable (getTime : BitVec 64) {s : Machine R σ} {dec : Decode} (pcOffset : BitVec R.xlen)

theorem instPrivCsr_of_isCsr (h : RvOp.isCsr dec.op = true) (p : Processor R.xlen) (off : BitVec 64) :
    ∃ op value, p.instPrivCsr getTime dec off = some (p.instCsr getTime dec op dec.imm.toNat value off) := by
  unfold Processor.instPrivCsr
  simp only [RvOp.isCsr, List.mem_cons, List.not_mem_nil, or_false, decide_eq_true_eq] at h
  rcases h with h | h | h | h | h | h <;> rw [h] <;> exact ⟨_, _, rfl⟩

theorem instPrivCsr_of_not_isCsr (h : RvOp.isCsr dec.op = false) (p : Processor R.xlen) (off : BitVec 64) :
    p.instPrivCsr getTime dec off = none := by
  unfold Processor.instPrivCsr
  split
  all_goals first | rfl | (next hop => rw [hop] at h; exact absurd h (by decide))

theorem setWidth_setWidth (x : BitVec R.xlen) : (x.setWidth 64).setWidth R.xlen = x := by
  cases R
  · exact BitVec.setWidth_setWidth_of_le x (by decide)
  · exact BitVec.setWidth_setWidth_of_le x (by decide)

theorem setWidth_neg_one : (-1 : BitVec 64).setWidth R.xlen = Machine.illegal := by
  cases R <;> decide

/-- A CSR instruction is illegal where there is no such CSR. -/
theorem instPriv_csr (h : RvOp.isCsr dec.op = true) :
    if (RvCsr.ofNumber dec.imm.toNat).isSome then (s.instPriv getTime dec pcOffset).2 = pcOffset
    else s.instPriv getTime dec pcOffset = (s, Machine.illegal) := by
  obtain ⟨op, value, hp⟩ := instPrivCsr_of_isCsr getTime h s.hart.toProcessor (pcOffset.setWidth 64)
  unfold Machine.instPriv
  rw [hp]
  unfold Processor.instCsr
  cases RvCsr.ofNumber dec.imm.toNat with
  | none =>
    simp only [setWidth_neg_one, Option.isSome_none, Bool.false_eq_true, if_false]
  | some c => simp [setWidth_setWidth]

theorem sub_eq_illegal_iff (x y : BitVec R.xlen) : x - y = Machine.illegal ↔ x = y - 1 := by
  unfold Machine.illegal
  rw [BitVec.sub_eq_iff_eq_add, BitVec.add_comm, ← BitVec.sub_eq_add_neg]

/-- A case that needs a mode is illegal below it and has its own offset otherwise. -/
theorem privileged_cases (mode : RvMode) (r : Machine R σ × BitVec R.xlen) :
    (s.hart.mode.toNat ≥ mode.toNat ∧ s.privileged mode r = r) ∨
      (¬ s.hart.mode.toNat ≥ mode.toNat ∧ s.privileged mode r = (s, Machine.illegal)) := by
  unfold Machine.privileged
  split
  · next h => exact .inl ⟨h, rfl⟩
  · next h => exact .inr ⟨h, rfl⟩

variable {pcOffset}

/-- `inst_priv` returns -1 where it does not execute the instruction, and then has done nothing, and where it
returns to right before it. -/
theorem instPriv_spec (hoff : pcOffset ≠ Machine.illegal) :
    (Privileged s.hart dec ∧ ((s.instPriv getTime dec pcOffset).2 = Machine.illegal ↔ ReturnsBack s.hart dec.op)) ∨
      (¬ Privileged s.hart dec ∧ s.instPriv getTime dec pcOffset = (s, Machine.illegal)) := by
  unfold Privileged
  cases hc : RvOp.isCsr dec.op with
  | true =>
    have hback : ¬ ReturnsBack s.hart dec.op := by
      rintro (⟨hop, -⟩ | ⟨hop, -⟩) <;> rw [hop] at hc <;> exact absurd hc (by decide)
    have hcsr := @instPriv_csr _ _ getTime s _ pcOffset hc
    cases hn : (RvCsr.ofNumber dec.imm.toNat).isSome with
    | true =>
      rw [hn, if_pos rfl] at hcsr
      rw [hcsr]
      exact .inl ⟨by simp, iff_of_false hoff hback⟩
    | false =>
      rw [hn] at hcsr
      exact .inr ⟨by simp, hcsr⟩
  | false =>
    simp only [Bool.false_eq_true, if_false]
    unfold Machine.instPriv
    rw [instPrivCsr_of_not_isCsr getTime hc]
    have hcase {mode : RvMode} {r : Machine R σ × BitVec R.xlen}
        (hr : s.hart.mode.toNat ≥ mode.toNat → (r.2 = Machine.illegal ↔ ReturnsBack s.hart dec.op)) :
        (s.hart.mode.toNat ≥ mode.toNat ∧ ((s.privileged mode r).2 = Machine.illegal ↔ ReturnsBack s.hart dec.op)) ∨
          (¬ s.hart.mode.toNat ≥ mode.toNat ∧ s.privileged mode r = (s, Machine.illegal)) := by
      rcases @privileged_cases _ _ s mode r with ⟨hm, hp⟩ | h
      · rw [hp]
        exact .inl ⟨hm, hr hm⟩
      · exact .inr h
    by_cases hs : dec.op = .sret
    · simp only [hs] at hcase ⊢
      refine hcase fun hm => ?_
      simp [ReturnsBack, Hart.sret, sub_eq_illegal_iff, hm]
    by_cases hmr : dec.op = .mret
    · simp only [hmr] at hcase ⊢
      refine hcase fun hm => ?_
      simp [ReturnsBack, Hart.mret, sub_eq_illegal_iff, hm]
    have hback : ¬ ReturnsBack s.hart dec.op := by
      simp [ReturnsBack, hs, hmr]
    have hplain : pcOffset = Machine.illegal ↔ ReturnsBack s.hart dec.op := iff_of_false hoff hback
    split
    · contradiction
    · next hop =>
      simp only [hop] at hcase hplain ⊢
      exact hcase fun _ => hplain
    · next hop =>
      simp only [hop] at hcase hplain ⊢
      exact hcase fun _ => hplain
    · contradiction
    · next hop =>
      simp only [hop] at hplain ⊢
      exact .inl ⟨trivial, hplain⟩
    · next hop =>
      simp only [hop] at hplain ⊢
      exact .inl ⟨trivial, hplain⟩
    · refine .inr ⟨id, ?_⟩
      dsimp only
      split <;> first | contradiction | rfl

end Priv

/-! ## Legal instructions -/

def Rv.width : Rv → Xlen
  | .rv32 => .rv32
  | .rv64 => .rv64

/-- The opcode table lists the opcode under an extension of the processor. -/
def Isa.Has (isa : Isa) (R : Rv) (op : RvOp) : Prop :=
  ∃ e ∈ opcodes, e.op = op ∧ ∃ f, (R.width, f) ∈ e.exts ∧ isa.flags R f = true

/-- An instruction of the processor in a mode that may execute it. The processor has no traps to user mode, no
hypervisor and no debug mode to return from. -/
def Legal (isa : Isa) (s : Hart R) (dec : Decode) : Prop :=
  isa.Has R dec.op ∧
    if RvOp.isCsr dec.op = true then (RvCsr.ofNumber dec.imm.toNat).isSome = true
    else
      match dec.op with
      | .sret | .sfence_vm | .wfi => s.mode.toNat ≥ RvMode.S.toNat
      | .mret => s.mode.toNat ≥ RvMode.M.toNat
      | .uret | .hret | .dret => False
      | _ => True

/-- The switch of the interpreter has a case for the opcode. -/
def interpreted (R : Rv) (op : RvOp) : Bool := (action (R := R) default default {} op).isSome

/-- Whether there is a case depends on the opcode alone. -/
theorem exists_isSome_action (op : RvOp) : ∃ b, ∀ host (s : Hart R) dec, (action host s dec op).isSome = b := by
  cases R <;> cases op <;> first | exact ⟨true, fun _ _ _ => rfl⟩ | exact ⟨false, fun _ _ _ => rfl⟩

theorem action_isSome (host : Host) (s : Hart R) (dec : Decode) (op : RvOp) :
    (action host s dec op).isSome = interpreted R op := by
  obtain ⟨b, hb⟩ := exists_isSome_action (R := R) op
  unfold interpreted
  rw [hb, hb]

/-- Every opcode of a processor is interpreted, privileged or compressed. -/
theorem opcodes_executed (R : Rv) (isa : Isa) :
    (opcodes.all fun e => (e.exts.any fun xf => xf.1 = R.width && isa.flags R xf.2) →
      interpreted R e.op || (RvOp.isCsr e.op || e.op ∈ [RvOp.sret, .mret, .sfence_vm, .wfi, .fence, .fence_i]) ||
        e.op ∈ [RvOp.ecall, .ebreak, .uret, .hret, .dret] || (isa.compressed && R.decomp e.op ≠ .illegal)) = true := by
  cases R <;> cases isa <;> decide +kernel

theorem decomp_decomp (R : Rv) (op : RvOp) : R.decomp (R.decomp op) = .illegal := by
  cases R <;> cases op <;> rfl

theorem decomp_instDecode {isa : Isa} (hc : isa.compressed = true) (dec : Decode) (inst : Nat) :
    R.decomp (instDecode R isa dec inst).op = .illegal := by
  rw [instDecode_op]
  dsimp only
  split
  · exact decomp_decomp R _
  · next h =>
    by_contra hd
    exact h ⟨hc, hd⟩

/-- A legal instruction other than a call or a breakpoint is known to the interpreter or to `inst_priv`. -/
theorem executed_of_legal {isa : Isa} {s : Hart R} {d : Decode} {inst : Nat} (h : Legal isa s (instDecode R isa d inst))
    (hcall : (instDecode R isa d inst).op ≠ .ecall) (hbreak : (instDecode R isa d inst).op ≠ .ebreak) :
    interpreted R (instDecode R isa d inst).op = true ∨ Privileged s (instDecode R isa d inst) := by
  obtain ⟨⟨e, he, hop, f, hf, hflag⟩, hmode⟩ := h
  have hdec : isa.compressed = true → R.decomp (instDecode R isa d inst).op = .illegal := fun hc => decomp_instDecode hc d inst
  have hexec := List.all_eq_true.1 (opcodes_executed R isa) e he
  generalize instDecode R isa d inst = dec at *
  have hany : (e.exts.any fun xf => xf.1 = R.width && isa.flags R xf.2) = true := by
    rw [List.any_eq_true]
    exact ⟨_, hf, by simp [hflag]⟩
  simp only [hany, forall_const, hop, decide_eq_true_eq, Bool.or_eq_true, List.mem_cons, List.not_mem_nil, or_false,
    Bool.and_eq_true] at hexec
  rcases hexec with ((hi | hcsr | hpriv) | hno) | ⟨hc, hd⟩
  · exact .inl hi
  · refine .inr ?_
    unfold Privileged
    rw [if_pos hcsr] at hmode ⊢
    exact hmode
  · refine .inr ?_
    unfold Privileged
    rcases hpriv with hp | hp | hp | hp | hp | hp <;> simp only [hp] at hmode ⊢ <;> exact hmode
  · rcases hno with hp | hp | hp | hp | hp
    · exact absurd hp hcall
    · exact absurd hp hbreak
    all_goals
      simp only [hp] at hmode
      exact hmode.elim
  · exact absurd (hdec hc) (by simpa using hd)

/-- An instruction is raised as illegal where the interpreter has no case for it and `inst_priv` returns -1. -/
theorem of_execute_illegal {port : Port σ} {host : Host} {isa : Isa} {getTime : BitVec 64} {dec : Decode}
    {pcOffset : BitVec R.xlen} (heven : EvenTarget dec) (hoff : pcOffset ≠ Machine.illegal) {s s' : Machine R σ}
    (h : Machine.execute port host isa getTime dec pcOffset s = .error .illegalInstruction s') :
    interpreted R dec.op = false ∧ (s.instPriv getTime dec pcOffset).2 = Machine.illegal ∧
      s' = (s.instPriv getTime dec pcOffset).1 := by
  cases hx : execInst port host isa.ext dec pcOffset s with
  | ok off s1 =>
    by_cases hi : off = Machine.illegal
    · subst hi
      obtain ⟨hnone, rfl⟩ := execInst_illegal heven hoff hx
      rw [Machine.execute_of_illegal hx] at h
      have hint : interpreted R dec.op = false := by
        rw [← action_isSome host s1.hart dec, hnone]
        rfl
      split at h
      · cases h
      · next hp =>
        cases h
        exact ⟨hint, not_not.1 hp, rfl⟩
    · rw [Machine.execute_of_ne_illegal hx hi] at h
      cases h
  | error e s1 =>
    rw [Machine.execute_of_error hx] at h
    cases h
  | undefined =>
    rw [Machine.execute_of_undefined hx] at h
    cases h

/-- A decoded instruction that is raised as illegal has changed nothing, and one that is legal is never raised,
apart from returns to right before, and calls and breakpoints, which `trap` tells apart. -/
theorem illegal_instruction_no_effect (port : Port σ) (host : Host) (isa : Isa) (getTime : BitVec 64) (d : Decode) (inst : Nat)
    {pcOffset : BitVec R.xlen} (hoff : pcOffset ≠ Machine.illegal) (s : Machine R σ)
    (hback : ¬ ReturnsBack s.hart (instDecode R isa d inst).op) :
    (∀ s', Machine.execute port host isa getTime (instDecode R isa d inst) pcOffset s = .error .illegalInstruction s' → s' = s) ∧
      (Legal isa s.hart (instDecode R isa d inst) → (instDecode R isa d inst).op ≠ .ecall →
        (instDecode R isa d inst).op ≠ .ebreak → ∀ s',
        Machine.execute port host isa getTime (instDecode R isa d inst) pcOffset s ≠ .error .illegalInstruction s') := by
  have heven := evenTarget_instDecode R isa d inst
  constructor
  · intro s' h
    obtain ⟨-, hp, rfl⟩ := of_execute_illegal heven hoff h
    rcases instPriv_spec getTime hoff with ⟨-, hspec⟩ | ⟨-, hspec⟩
    · exact absurd (hspec.1 hp) hback
    · rw [hspec]
  · intro hlegal hcall hbreak s' h
    obtain ⟨hint, hp, -⟩ := of_execute_illegal heven hoff h
    rcases executed_of_legal hlegal hcall hbreak with hi | hpriv
    · rw [hi] at hint
      cases hint
    · rcases instPriv_spec getTime hoff with ⟨-, hspec⟩ | ⟨hnot, -⟩
      · exact absurd (hspec.1 hp) hback
      · exact absurd hpriv hnot

theorem illegal_instruction_no_effect_mret :
    (instDecode .rv64 .imafdc {} 0x30200073).op = .mret ∧
      ∀ s', Machine.execute (mmuSoft .rv64) default .imafdc 0 (instDecode .rv64 .imafdc {} 0x30200073) 4 (bareMachine userHart) =
        .error .illegalInstruction s' → s' = bareMachine userHart := by
  have hop : (instDecode .rv64 .imafdc {} 0x30200073).op = .mret := by decide +kernel
  refine ⟨hop, (illegal_instruction_no_effect _ _ _ 0 {} _ (by decide) _ ?_).1⟩
  rw [hop]
  unfold ReturnsBack
  decide

/-- What neither knows is raised as it was found. -/
theorem execute_unknown {port : Port σ} {host : Host} {isa : Isa} {getTime : BitVec 64} {dec : Decode}
    {pcOffset : BitVec R.xlen} (hoff : pcOffset ≠ Machine.illegal) {s : Machine R σ} (hi : interpreted R dec.op = false)
    (hp : ¬ Privileged s.hart dec) : Machine.execute port host isa getTime dec pcOffset s = .error .illegalInstruction s := by
  have hnone : action host s.hart dec dec.op = none := by
    rw [← action_isSome host s.hart dec] at hi
    exact Option.isSome_eq_false_iff.1 hi |> Option.isNone_iff_eq_none.1
  have hexec : execInst port host isa.ext dec pcOffset s = .ok Machine.illegal s := execInst_of_none hnone
  have hspec : s.instPriv getTime dec pcOffset = (s, Machine.illegal) := by
    rcases instPriv_spec getTime hoff with ⟨h, -⟩ | ⟨-, h⟩
    · exact absurd h hp
    · exact h
  rw [Machine.execute_of_illegal hexec, hspec, if_neg (by simp)]
  rfl

/-- A call is legal and raised, and a return to right before is raised after it changed the mode. -/
theorem illegal_instruction_has_effect :
    (Legal .imafdc userHart (instDecode .rv64 .imafdc {} 0x73) ∧
      Machine.execute (mmuSoft .rv64) default .imafdc 0 (instDecode .rv64 .imafdc {} 0x73) 4 (bareMachine userHart) =
        .error .illegalInstruction (bareMachine userHart)) ∧
    ∃ s s' : Machine .rv64 UserMemory,
      Machine.execute (mmuSoft .rv64) default .imafdc 0 (instDecode .rv64 .imafdc {} 0x10200073) 4 s =
        .error .illegalInstruction s' ∧ s.hart.mode = .S ∧ s'.hart.mode = .U := by
  have hcall : (instDecode .rv64 .imafdc {} 0x73).op = .ecall := by decide +kernel
  have hret : (instDecode .rv64 .imafdc {} 0x10200073).op = Handler.S.ret := by decide +kernel
  refine ⟨⟨⟨?_, ?_⟩, ?_⟩, ?_⟩
  · rw [hcall]
    have htable : (opcodes.any fun e => decide (e.op = .ecall) && decide ((Rv.rv64.width, Flag.rvs) ∈ e.exts)) = true := by
      decide +kernel
    obtain ⟨e, he, hx⟩ := List.any_eq_true.1 htable
    simp only [Bool.and_eq_true, decide_eq_true_eq] at hx
    exact ⟨e, he, hx.1, .rvs, hx.2, rfl⟩
  · rw [hcall]
    trivial
  · apply execute_unknown (by decide)
    · rw [hcall]
      decide +kernel
    · unfold Privileged
      rw [hcall]
      exact id
  · have hx := execute_ret (mmuSoft .rv64) default .imafdc 0 4 hret { userHart with mode := .S, pc := 0x200, csrs.sepc := 0x1ff }
      (bareMachine userHart).mmu
    rw [if_pos (by decide), if_neg (by decide)] at hx
    exact ⟨_, _, hx, rfl, by decide⟩

end Rv8.Emu
