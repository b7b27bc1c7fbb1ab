import Rv8.Asm.Compressed
import Rv8.Asm.Disasm
import Rv8.Asm.WideExact
import Rv8.Emu.InstCache
import Rv8.Emu.IllegalInstruction
import Rv8.Emu.ZeroRegister
/-!
# What the disassembler says of addresses

The last instruction of the history with the register that an instruction reads is also
the last one of the line that assigned the register, so what it left is still there when
the instruction runs. The address that is reported is that value with the immediate added.
But nothing is left in `x0`, and the sum of two immediates that does not fit in an `int`
is not the sum of the values.
-/

namespace Rv8.Emu

open Rv8.Lib Rv8.Asm Prog

/-! ## Records of the printing loop -/

theorem sameDecoded_decodeInstRv64 (dec : Decode) (inst : Nat) : SameDecoded (decodeInstRv64 dec inst) (decodeInstRv64 {} inst) :=
  (sameDecoded_decodeInstType _ dec inst).decompressInst rfl fun op => (codec_decomp_ne_r4_m op).2

/-- Lifting changes no operand. -/
theorem lift_operands (decodePseudo : Bool) (dec : Decode) : (dec.lift decodePseudo).rd = dec.rd ∧
    (dec.lift decodePseudo).rs1 = dec.rs1 ∧ (dec.lift decodePseudo).imm = dec.imm := by
  unfold Decode.lift
  split
  · cases hp : decodePseudoInst dec with
    | none => exact ⟨rfl, rfl, rfl⟩
    | some p =>
      obtain ⟨compData, -, -, rfl⟩ := entry_of_decodePseudoInst hp
      exact ⟨rfl, rfl, rfl⟩
  · exact ⟨rfl, rfl, rfl⟩

/-- The opcodes of the pairs. -/
def PairOp (op : RvOp) : Prop := ∃ rvxi ∈ rvxConstraints, op = rvxi.op1 ∨ op = rvxi.op2

theorem depseudo_of_pairOp {op : RvOp} (h : PairOp op) : ∀ compData, rvInstDepseudo op = some compData → compData.op = op := by
  obtain ⟨rvxi, hmem, h⟩ := h
  have hall : ∀ rvxi ∈ rvxConstraints, ∀ op ∈ [rvxi.op1, rvxi.op2], (rvInstDepseudo op).all (fun c => c.op = op) = true := by decide
  intro compData hdep
  have hop := hall rvxi hmem op (by simpa using h)
  rw [hdep] at hop
  simpa using hop

/-- An opcode of a pair is no other one lifted. -/
theorem op_of_lift {decodePseudo : Bool} {dec : Decode} (h : PairOp (dec.lift decodePseudo).op) :
    (dec.lift decodePseudo).op = dec.op := by
  unfold Decode.lift at h ⊢
  split
  · rw [if_pos ‹_›] at h
    cases hp : decodePseudoInst dec with
    | none => rfl
    | some p =>
      obtain ⟨compData, hmem, -, rfl⟩ := entry_of_decodePseudoInst hp
      rw [hp] at h
      exact (depseudo_of_pairOp h _ (rvInstDepseudo_of_mem hmem)).symm
  · rfl

/-- Of a legal instruction the printed record has the operands, and of one in a pair the opcode. -/
structure Shows (dec e : Decode) : Prop where
  rd : dec.rd = e.rd
  rs1 : dec.rs1 = e.rs1
  imm : dec.imm = e.imm
  op : PairOp dec.op → dec.op = e.op

theorem read_shows (decodePseudo : Bool) (p : Printer) {inst : Nat} (hlegal : (decodeInstRv64 {} inst).op ≠ .illegal) :
    Shows (p.read decodePseudo inst).toDecode (decodeInstRv64 {} inst) := by
  have hsame := sameDecoded_decodeInstRv64 p.dec.toDecode inst
  obtain ⟨hrd, hrs1, -, himm⟩ := hsame.fields fun hc => hlegal (hsame.op.symm.trans (op_eq_illegal_of_codec hc))
  obtain ⟨lrd, lrs1, limm⟩ := lift_operands decodePseudo (decodeInstRv64 p.dec.toDecode inst)
  exact ⟨lrd.trans hrd, lrs1.trans hrs1, limm.trans himm, fun hop => (op_of_lift hop).trans hsame.op⟩

theorem legal_of_read {decodePseudo : Bool} {p : Printer} {inst : Nat} (h : PairOp (p.read decodePseudo inst).op) :
    (decodeInstRv64 {} inst).op ≠ .illegal := by
  have hop := (op_of_lift h).trans (sameDecoded_decodeInstRv64 p.dec.toDecode inst).op
  have hall : ∀ rvxi ∈ rvxConstraints, ∀ op ∈ [rvxi.op1, rvxi.op2], op ≠ .illegal := by decide
  obtain ⟨rvxi, hmem, hpair⟩ := h
  rw [← hop]
  exact hall rvxi hmem _ (List.mem_cons.2 (hpair.imp_right List.mem_singleton.2))

theorem formatFits_decodeInstRv64 (inst : Nat) : FormatFits (decodeInstRv64 {} inst) (rvInstCodec (decodeInstRv64 {} inst).op) :=
  formatFits_decompressInstRv64 inst

/-! ## Straight lines -/

section Line
variable {σ : Type} (port : Port σ) (host : Host) (isa : Isa)

/-- Instructions executed one after the other, each of which goes on to the next. -/
inductive StraightLine (s : Machine .rv64 σ) : List Nat → Machine .rv64 σ → Prop
  | nil : StraightLine s [] s
  | snoc {insts : List Nat} {s' s'' : Machine .rv64 σ} (inst : Nat) (getTime : BitVec 64) : StraightLine s insts s' →
      Machine.execute port host isa getTime (decodeInstRv64 {} inst) (BitVec.ofNat Rv.rv64.xlen (instLength inst)) s' = .ok () s'' →
      s''.hart.pc = s'.hart.pc + BitVec.ofNat Rv.rv64.xlen (instLength inst) → StraightLine s (insts ++ [inst]) s''

/-- What a `lui` or `auipc` hands to its register. -/
def upperValue (li : Disasm) : BitVec 64 :=
  if li.op = .lui then BitVec.ofInt 64 li.imm else li.pc + BitVec.ofInt 64 li.imm

/-- The registers are as the history says. -/
structure Follows (p : Printer) (s : Hart .rv64) : Prop where
  x0 : s.ZeroX0
  pc : p.pc = s.pc
  upper : ∀ rd li, lastDef p.decHist rd = some li → li.op = .lui ∨ li.op = .auipc →
    li.imm % 4096 = 0 ∧ -2147483648 ≤ li.imm ∧ li.imm < 2147483648 ∧ (rd ≠ 0 → s.ireg rd = upperValue li)

variable {port host isa} {getTime : BitVec 64} {s s' : Machine .rv64 σ} {dec : Decode} {off : BitVec Rv.rv64.xlen}

theorem instLength_ne_illegal (inst : Nat) : BitVec.ofNat Rv.rv64.xlen (instLength inst) ≠ Machine.illegal := by
  unfold instLength
  split_ifs <;> decide

/-- An illegal instruction is raised. -/
theorem legal_of_execute (hoff : off ≠ Machine.illegal) (h : Machine.execute port host isa getTime dec off s = .ok () s') :
    dec.op ≠ .illegal := by
  intro hop
  have hp : ¬ Privileged s.hart dec := by
    rw [Privileged, hop, if_neg (by decide)]
    exact id
  have hunknown : Machine.execute port host isa getTime dec off s = .error .illegalInstruction s :=
    execute_unknown hoff (by rw [hop]; rfl) hp
  rw [hunknown] at h
  cases h

theorem ireg_of_execute {r : Nat} (hr : dec.rd ≠ r) (h : Machine.execute port host isa getTime dec off s = .ok () s') :
    s'.hart.ireg r = s.hart.ireg r := by
  have hkeeps := Machine.keeps_execute_ireg port host isa getTime (v := s.hart.ireg r) (fun heq => absurd heq hr) off s rfl
  rw [h] at hkeeps
  exact hkeeps

theorem zeroX0_of_execute (hx0 : s.ZeroX0) (h : Machine.execute port host isa getTime dec off s = .ok () s') : s'.ZeroX0 := by
  have hkeeps := Machine.keeps_execute port host isa getTime dec off s hx0
  rw [h] at hkeeps
  exact hkeeps

/-- `lui` and `auipc` hand their value to a register other than `x0`. -/
theorem setRd_of_execute {v : BitVec 64} (hoff : off ≠ Machine.illegal) (ha : action host s.hart dec dec.op = some (.i, .setRd v))
    (h0 : dec.rd ≠ 0) (h : Machine.execute port host isa getTime dec off s = .ok () s') : s'.hart.ireg dec.rd = v := by
  rw [Machine.execute_setRd ha isa.ext_i hoff] at h
  obtain rfl := (Outcome.ok.inj h).2
  exact Hart.ireg_writeRd s.hart h0 v

theorem action_upper {dec : Decode} (h : dec.op = .lui ∨ dec.op = .auipc) (s : Hart .rv64) : action host s dec dec.op =
    some (.i, .setRd (if dec.op = .lui then BitVec.ofInt Rv.rv64.xlen dec.imm else s.pc + BitVec.ofInt Rv.rv64.xlen dec.imm)) := by
  rcases h with hop | hop <;> rw [hop] <;> rfl

theorem range_upper {inst : Nat} (h : (decodeInstRv64 {} inst).op = .lui ∨ (decodeInstRv64 {} inst).op = .auipc) :
    (decodeInstRv64 {} inst).imm % 4096 = 0 ∧ -2147483648 ≤ (decodeInstRv64 {} inst).imm ∧ (decodeInstRv64 {} inst).imm < 2147483648 := by
  have hfits := formatFits_decodeInstRv64 inst
  have hcodec : rvInstCodec (decodeInstRv64 {} inst).op = .u := by
    rcases h with hop | hop <;> rw [hop] <;> rfl
  rw [hcodec] at hfits
  exact ⟨hfits.2.2.2.2.2.1, hfits.2.2.2.1, hfits.2.2.2.2.1⟩

/-- One step: what the instruction assigns is what the history says from then on. -/
theorem Follows.print {p : Printer} (hf : Follows p s.hart) (decodePseudo : Bool) {inst : Nat}
    (h : Machine.execute port host isa getTime (decodeInstRv64 {} inst) (BitVec.ofNat Rv.rv64.xlen (instLength inst)) s = .ok () s')
    (hpc : s'.hart.pc = s.hart.pc + BitVec.ofNat Rv.rv64.xlen (instLength inst)) : Follows (p.print decodePseudo inst) s'.hart where
  x0 := zeroX0_of_execute hf.x0 h
  pc := (congrArg (· + _) hf.pc).trans hpc.symm
  upper := by
    intro rd li hli hop
    have hlen := instLength_ne_illegal inst
    have hshows := read_shows decodePseudo p (legal_of_execute hlen h)
    rcases lastDef_remember hli with ⟨hrd, rfl⟩ | ⟨hrd, hli⟩
    · -- the instruction itself
      have hpair : PairOp (p.read decodePseudo inst).op := by
        rcases hop with hop | hop
        · exact ⟨_, List.mem_cons_self, .inl hop⟩
        · exact ⟨_, List.mem_cons_of_mem _ List.mem_cons_self, .inl hop⟩
      rw [hshows.op hpair] at hop
      obtain ⟨hlow, hlo, hhi⟩ := range_upper hop
      rw [← hshows.imm] at hlow hlo hhi
      refine ⟨hlow, hlo, hhi, fun h0 => ?_⟩
      have hrd' := hshows.rd.symm.trans hrd
      have hset := setRd_of_execute hlen (action_upper hop s.hart) (hrd'.trans_ne h0) h
      rw [hrd', ← hshows.imm, ← hshows.op hpair, ← hf.pc] at hset
      exact hset
    · -- an earlier one, whose register is left alone
      obtain ⟨hlow, hlo, hhi, hvalue⟩ := hf.upper rd li hli hop
      refine ⟨hlow, hlo, hhi, fun h0 => ?_⟩
      exact (ireg_of_execute (hshows.rd.symm.trans_ne hrd) h).trans (hvalue h0)

theorem follows_of_straightLine (decodePseudo : Bool) (hx0 : s.ZeroX0) {pc : BitVec 64} (hpc : s.hart.pc = pc) {insts : List Nat}
    (h : StraightLine port host isa s insts s') : Follows (Printer.after decodePseudo pc insts) s'.hart := by
  induction h with
  | nil =>
    refine ⟨hx0, hpc.symm, fun rd li hli => ?_⟩
    cases hli
  | snoc inst getTime _ hexec hstep ih =>
    rw [Printer.after_append]
    exact ih.print decodePseudo hexec hstep

end Line

/-! ## The addresses of pairs -/

section Sum
variable {v w : Int} (hv : v % 4096 = 0 ∧ -2147483648 ≤ v ∧ v < 2147483648) (hw : -2048 ≤ w ∧ w < 2048)
include hv hw

theorem ofInt_s32_add_iff :
    BitVec.ofInt 64 (s32 (v + w)) = BitVec.ofInt 64 v + BitVec.ofInt 64 w ↔ -2147483648 ≤ v + w := by
  rw [← BitVec.ofInt_add, ofInt_eq_iff, s32, Int.bmod_def]
  omega

theorem ofInt_s32_add_eq_iff : BitVec.ofInt 64 (s32 (v + w)) = BitVec.ofInt 64 w ↔ BitVec.ofInt 64 v = BitVec.ofInt 64 0 := by
  rw [ofInt_eq_iff, ofInt_eq_iff, s32, Int.bmod_def]
  omega

end Sum

/-- The address of a pair is what the second instruction forms: not from `x0`, unless the first one would have left 0
there, and not where the sum of the immediates is no `int`. -/
def PairTrue (li : Disasm) (rs1 : Nat) (imm : Int) : Prop :=
  if rs1 = 0 then upperValue li = 0 else li.op = .lui → -2147483648 ≤ li.imm + imm

instance (li : Disasm) (rs1 : Nat) (imm : Int) : Decidable (PairTrue li rs1 imm) :=
  inferInstanceAs (Decidable (if rs1 = 0 then upperValue li = 0 else li.op = .lui → -2147483648 ≤ li.imm + imm))

section Pair
variable {li dec : Disasm} {rs1 : Nat} {x : BitVec 64}

theorem lui_paired {op : RvOp} (h : Paired .lui op) : op = .addi := by
  obtain ⟨rvxi, hmem, hop1, rfl⟩ := h
  revert rvxi
  decide

theorem imm_of_paired (hpair : Paired li.op dec.op) (hlui : li.op = .lui) {inst : Nat}
    (hshows : Shows dec.toDecode (decodeInstRv64 {} inst)) : -2048 ≤ dec.imm ∧ dec.imm < 2048 := by
  rw [hlui] at hpair
  have hop := lui_paired hpair
  have hfits := formatFits_decodeInstRv64 inst
  rw [← hshows.op ⟨_, List.mem_cons_self, .inr hop⟩, hop] at hfits
  rw [hshows.imm]
  exact ⟨hfits.2.2.2.1, hfits.2.2.2.2.1⟩

theorem pairAddr_of_auipc (hop : li.op = .auipc) : pairAddr li dec 0 = upperValue li + BitVec.ofInt 64 dec.imm := by
  have hne : li.op ≠ .lui := by rw [hop]; decide
  rw [pairAddr, if_neg hne, upperValue, if_neg hne, Rva.decode]
  exact congrArg (· + _ + _) (BitVec.sub_zero li.pc)

/-- What the pair reports against what the second instruction adds its immediate to. -/
theorem pairAddr_eq_iff (hop : li.op = .lui ∨ li.op = .auipc)
    (hli : li.imm % 4096 = 0 ∧ -2147483648 ≤ li.imm ∧ li.imm < 2147483648) (himm : li.op = .lui → -2048 ≤ dec.imm ∧ dec.imm < 2048)
    (h0 : rs1 = 0 → x = 0) (hx : rs1 ≠ 0 → x = upperValue li) :
    pairAddr li dec 0 = x + BitVec.ofInt 64 dec.imm ↔ PairTrue li rs1 dec.imm := by
  unfold PairTrue
  by_cases hrs1 : rs1 = 0
  · rw [if_pos hrs1, h0 hrs1]
    rcases hop with hop | hop
    · have hzero : (0 : BitVec 64) + BitVec.ofInt 64 dec.imm = BitVec.ofInt 64 dec.imm := BitVec.zero_add _
      rw [hzero, pairAddr, if_pos hop, upperValue, if_pos hop]
      exact ofInt_s32_add_eq_iff hli (himm hop)
    · rw [pairAddr_of_auipc hop]
      exact BitVec.add_left_inj _
  · rw [if_neg hrs1, hx hrs1]
    rcases hop with hop | hop
    · rw [pairAddr, if_pos hop, upperValue, if_pos hop]
      exact (ofInt_s32_add_iff hli (himm hop)).trans ⟨fun h _ => h, fun h => h hop⟩
    · rw [pairAddr_of_auipc hop]
      refine iff_of_true rfl fun hlui => ?_
      rw [hop] at hlui
      cases hlui

end Pair

/-! ## Annotations -/

section Annotation
variable {σ : Type} {port : Port σ} {host : Host} {isa : Isa} {s s' : Machine .rv64 σ}

/-- What is reported for the next instruction is what it adds up. -/
def ReportsTrue (decodePseudo : Bool) (p : Printer) (s : Hart .rv64) (inst : Nat) : Prop :=
  ∀ addr, p.reports decodePseudo inst = some addr →
    addr = s.ireg (decodeInstRv64 {} inst).rs1 + BitVec.ofInt Rv.rv64.xlen (decodeInstRv64 {} inst).imm

/-- The instruction is in no pair, or in one that is true: with the last instruction of the history whose `rd` it reads. -/
def PairsTrue (decodePseudo : Bool) (p : Printer) (inst : Nat) : Prop :=
  ∀ li, lastDef p.decHist (decodeInstRv64 {} inst).rs1 = some li → Paired li.op (p.read decodePseudo inst).op →
    PairTrue li (decodeInstRv64 {} inst).rs1 (decodeInstRv64 {} inst).imm

theorem Follows.reportsTrue_iff {p : Printer} {s : Hart .rv64} (hf : Follows p s) (decodePseudo : Bool) (inst : Nat) :
    ReportsTrue decodePseudo p s inst ↔ PairsTrue decodePseudo p inst := by
  have hpair {li : Disasm} (hpair : Paired li.op (p.read decodePseudo inst).op) :
      Shows (p.read decodePseudo inst).toDecode (decodeInstRv64 {} inst) := by
    obtain ⟨rvxi, hmem, -, hop2⟩ := hpair
    exact read_shows decodePseudo p (legal_of_read ⟨rvxi, hmem, .inr hop2.symm⟩)
  have hiff {li : Disasm} (hli : lastDef p.decHist (decodeInstRv64 {} inst).rs1 = some li)
      (hpaired : Paired li.op (p.read decodePseudo inst).op) :
      pairAddr li (p.read decodePseudo inst) 0 =
          s.ireg (decodeInstRv64 {} inst).rs1 + BitVec.ofInt Rv.rv64.xlen (decodeInstRv64 {} inst).imm ↔
        PairTrue li (decodeInstRv64 {} inst).rs1 (decodeInstRv64 {} inst).imm := by
    have hshows := hpair hpaired
    obtain ⟨hlow, hlo, hhi, hvalue⟩ := hf.upper _ li hli hpaired.upper
    rw [← hshows.imm]
    refine pairAddr_eq_iff hpaired.upper ⟨hlow, hlo, hhi⟩ (fun hlui => imm_of_paired hpaired hlui hshows) (fun h0 => ?_) hvalue
    rw [h0]
    exact hf.x0
  constructor
  · intro h li hli hpaired
    refine (hiff hli hpaired).1 (h _ (decodePairs_eq_some_iff.2 ⟨li, ?_, hpaired, rfl⟩))
    rw [(hpair hpaired).rs1]
    exact hli
  · intro h addr haddr
    obtain ⟨li, hli, hpaired, rfl⟩ := decodePairs_eq_some_iff.1 haddr
    rw [(hpair hpaired).rs1] at hli
    exact (hiff hli hpaired).2 (h li hli hpaired)

end Annotation

/-- When a straight line has run up to an instruction, what `decode_pairs` reports for it is what it adds up just where
the pair it was found in is true. -/
theorem annotation_true_iff {σ : Type} (port : Port σ) (host : Host) (isa : Isa) (decodePseudo : Bool) (insts : List Nat) (inst : Nat)
    (s s' : Machine .rv64 σ) (hx0 : s.ZeroX0) (h : StraightLine port host isa s insts s') :
    ReportsTrue decodePseudo (Printer.after decodePseudo s.hart.pc insts) s'.hart inst ↔
      PairsTrue decodePseudo (Printer.after decodePseudo s.hart.pc insts) inst :=
  (follows_of_straightLine decodePseudo hx0 rfl h).reportsTrue_iff decodePseudo inst

/-- `lui` and `auipc` go on to the next instruction. -/
theorem straightLine_upper {σ : Type} (port : Port σ) (host : Host) (isa : Isa) (s : Machine .rv64 σ) (inst : Nat)
    (hop : (decodeInstRv64 {} inst).op = .lui ∨ (decodeInstRv64 {} inst).op = .auipc) : ∃ s', StraightLine port host isa s [inst] s' := by
  have hrun : Machine.execute port host isa 0 (decodeInstRv64 {} inst) _ s = .ok () _ :=
    Machine.execute_setRd (action_upper hop s.hart) isa.ext_i (instLength_ne_illegal inst)
  have hline : StraightLine port host isa s ([] ++ [inst]) _ := .snoc inst 0 .nil hrun rfl
  exact ⟨_, hline⟩

/-- `lui a0, 1` and `addi a0, a0, 5` -/
theorem annotation_true_iff_lui : ∃ s' : Machine .rv64 UserMemory,
    StraightLine (mmuSoft .rv64) default .imafdc (bareMachine default) [0x1537] s' ∧
      (ReportsTrue false (Printer.after false 0 [0x1537]) s'.hart 0x550513 ↔ PairsTrue false (Printer.after false 0 [0x1537]) 0x550513) := by
  obtain ⟨s', hline⟩ := straightLine_upper (mmuSoft .rv64) default .imafdc (bareMachine default) 0x1537 (.inl (by decide +kernel))
  exact ⟨s', hline, annotation_true_iff (mmuSoft .rv64) default .imafdc false [0x1537] 0x550513 (bareMachine default) s' rfl hline⟩

/-- `lui zero, 1` leaves nothing for `addi a0, zero, 5`, for which `0x1005` is reported. -/
theorem not_reportsTrue_x0 : ∃ (insts : List Nat) (inst : Nat) (s s' : Machine .rv64 UserMemory), s.ZeroX0 ∧
    StraightLine (mmuSoft .rv64) default .imafdc s insts s' ∧
      ¬ ReportsTrue false (Printer.after false s.hart.pc insts) s'.hart inst := by
  obtain ⟨s', hline⟩ := straightLine_upper (mmuSoft .rv64) default .imafdc (bareMachine default) 0x1037 (.inl (by decide +kernel))
  refine ⟨[0x1037], 0x500513, bareMachine default, s', rfl, hline, fun htrue => ?_⟩
  have hx0 : (bareMachine (R := .rv64) default).ZeroX0 := rfl
  have hpairs := ((follows_of_straightLine false hx0 rfl hline).reportsTrue_iff false 0x500513).1 htrue
  have hpair := hpairs (Printer.read false { pc := 0 } 0x1037) (by decide +kernel) (by decide +kernel)
  exact absurd hpair (by decide +kernel)

end Rv8.Emu
