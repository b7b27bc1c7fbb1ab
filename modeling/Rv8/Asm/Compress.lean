import Rv8.Asm.Compressed
/-!
# What compression preserves

`compress_inst_rvXX` picks the first candidate whose constraints hold. The
constraints bound most immediates from above only, and some registers not at
all, so a candidate may be picked whose format cannot hold the operands. Here is
exactly when.
-/

namespace Rv8.Asm

open Rv8.Lib.BitTree

/-- The table `rv_inst_comp_rvXX`. -/
def Xlen.comp : Xlen → RvOp → List RvCompData
  | .rv32 => rvInstCompRv32
  | .rv64 => rvInstCompRv64
  | .rv128 => rvInstCompRv128

theorem Xlen.compress_eq (x : Xlen) (dec : Decode) : x.compress dec = compressInst x.comp dec := by
  cases x <;> rfl

/-- If `d` is compressed to `c`, some 16-bit word of `c`'s opcode, read through `c`'s format and
decompressed, has the opcode, the registers and the immediate of `d`. -/
def PreservesMeaning (x : Xlen) (d : Decode) : Prop :=
  ∀ c, x.compress d = some c → ∃ inst, inst < 2 ^ 16 ∧ inst &&& rvInstMask c.op = rvInstMatch c.op ∧
    SameOperands (x.decompress (decodeInstType { op := c.op } inst)) d

/-- A three-bit register field holds `x8` to `x15`. -/
def B3 (r : Nat) : Prop := 8 ≤ r ∧ r ≤ 15

instance (r : Nat) : Decidable (B3 r) := inferInstanceAs (Decidable (_ ∧ _))

/-- The operands on which the constraints are weaker than the format of the candidate they admit. -/
def Misfit (x : Xlen) (d : Decode) : Prop :=
  match x, d.op with
  | .rv128, .lq => d.imm ≤ 511 ∧ d.imm % 16 = 0 ∧ ¬ (0 ≤ d.imm ∧ B3 d.rd ∧ B3 d.rs1)
  | .rv128, .sq => d.imm ≤ 511 ∧ d.imm % 16 = 0 ∧ ¬ (0 ≤ d.imm ∧ B3 d.rs1 ∧ B3 d.rs2)
  | .rv128, _ => False
  | _, .lui => d.rd ≠ 0 ∧ d.rd ≠ 2 ∧ d.imm ≠ 0 ∧ d.imm ≤ 262143 ∧ ¬ (-131072 ≤ d.imm ∧ d.imm < 131072)
  | x, .jal => (d.rd = 0 ∨ d.rd = 1 ∧ x = .rv32) ∧ d.imm ≤ 4095 ∧ ¬ (-2048 ≤ d.imm ∧ d.imm < 2048)
  | _, .jalr => (d.rd = 0 ∨ d.rd = 1) ∧ d.rs1 ≠ 0 ∧ d.imm ≠ 0
  | _, .beq | _, .bne => B3 d.rs1 ∧ d.rs2 = 0 ∧ d.imm ≤ 511 ∧ ¬ (-256 ≤ d.imm ∧ d.imm < 256)
  | _, .lw => d.imm < 0 ∧ d.imm % 4 = 0 ∧ (B3 d.rd ∧ B3 d.rs1 ∨ d.rd ≠ 0 ∧ d.rs1 = 2)
  | .rv32, .flw => d.imm < 0 ∧ d.imm % 4 = 0 ∧ (B3 d.rd ∧ B3 d.rs1 ∨ d.rs1 = 2)
  | _, .sw | .rv32, .fsw => d.imm < 0 ∧ d.imm % 4 = 0 ∧ (B3 d.rs1 ∧ B3 d.rs2 ∨ d.rs1 = 2)
  | .rv64, .ld => d.imm < 0 ∧ d.imm % 8 = 0 ∧ (B3 d.rd ∧ B3 d.rs1 ∨ d.rd ≠ 0 ∧ d.rs1 = 2)
  | _, .fld => d.imm < 0 ∧ d.imm % 8 = 0 ∧ (B3 d.rd ∧ B3 d.rs1 ∨ d.rs1 = 2)
  | .rv64, .sd | _, .fsd => d.imm < 0 ∧ d.imm % 8 = 0 ∧ (B3 d.rs1 ∧ B3 d.rs2 ∨ d.rs1 = 2)
  | _, .addi =>
    B3 d.rd ∧ d.rs1 = 2 ∧ d.imm % 4 = 0 ∧ d.imm < 0 ∨
    d.rd = 0 ∧ d.rs1 = 0 ∧ d.imm ≠ 0 ∨
    d.rd ≠ 0 ∧ d.rs1 = 0 ∧ d.imm ≤ 63 ∧ ¬ (-32 ≤ d.imm ∧ d.imm < 32) ∨
    d.rd = 2 ∧ d.rs1 = 2 ∧ d.imm ≤ 1023 ∧ d.imm % 4 = 0 ∧ ¬ (-32 ≤ d.imm ∧ d.imm < 32) ∧
      ¬ (-512 ≤ d.imm ∧ d.imm < 512 ∧ d.imm % 16 = 0)
  | .rv64, .addiw => d.rd = d.rs1 ∧ d.rd ≠ 0 ∧ d.imm ≤ 63 ∧ ¬ (-32 ≤ d.imm ∧ d.imm < 32)
  | _, .andi => d.rd = d.rs1 ∧ B3 d.rd ∧ ¬ (-32 ≤ d.imm ∧ d.imm < 32)
  | _, .slli => d.rd = d.rs1 ∧ d.rd ≠ 0 ∧ 64 ≤ d.imm
  | _, .srli | _, .srai => d.rd = d.rs1 ∧ B3 d.rd ∧ 64 ≤ d.imm
  | _, _ => False

/-! ## The candidate that is picked -/

/-- The candidate's format holds the operands of `d`. -/
def CandidateFits (d : Decode) (c : RvCompData) : Prop :=
  FormatFits { d with op := c.op, codec := rvInstCodec c.op } (rvInstCodec c.op)

/-- The first candidate whose constraints hold, if any, has a format that holds the operands. -/
def PickFits (d : Decode) : List RvCompData → Prop
  | [] => True
  | c :: cs =>
    (constraintCheck d c.constraints → CandidateFits d c) ∧ (¬ constraintCheck d c.constraints → PickFits d cs)

theorem pickFits_iff (d : Decode) (cs : List RvCompData) :
    PickFits d cs ↔ ∀ c, cs.find? (fun c => constraintCheck d c.constraints) = some c → CandidateFits d c := by
  induction cs with
  | nil => simp [PickFits]
  | cons c cs ih =>
    rw [PickFits, ih, List.find?_cons]
    cases hc : constraintCheck d c.constraints <;> simp

section Candidates

attribute [local simp] PickFits CandidateFits FormatFits Plain constraintCheck constraintHolds B3

variable {d : Decode}

theorem pickFits_lui (hf : FormatFits d .u) :
    PickFits d [⟨.c_lui, rvccCLui⟩] ↔
      ¬ (d.rd ≠ 0 ∧ d.rd ≠ 2 ∧ d.imm ≠ 0 ∧ d.imm ≤ 262143 ∧ ¬ (-131072 ≤ d.imm ∧ d.imm < 131072)) := by
  have hc : rvInstCodec .c_lui = .ci_lui := rfl
  simp [hc] at hf ⊢
  omega

theorem pickFits_jal (hf : FormatFits d .uj) :
    PickFits d [⟨.c_jal, rvccCJal⟩, ⟨.c_j, rvccCJ⟩] ↔
      ¬ ((d.rd = 0 ∨ d.rd = 1 ∧ Xlen.rv32 = .rv32) ∧ d.imm ≤ 4095 ∧ ¬ (-2048 ≤ d.imm ∧ d.imm < 2048)) := by
  have hc : rvInstCodec .c_jal = .cj_jal ∧ rvInstCodec .c_j = .cj := by decide
  simp [hc] at hf ⊢
  omega

theorem pickFits_j (hf : FormatFits d .uj) :
    PickFits d [⟨.c_j, rvccCJ⟩] ↔
      ¬ ((d.rd = 0 ∨ d.rd = 1 ∧ Xlen.rv64 = .rv32) ∧ d.imm ≤ 4095 ∧ ¬ (-2048 ≤ d.imm ∧ d.imm < 2048)) := by
  have hc : rvInstCodec .c_j = .cj := rfl
  simp [hc] at hf ⊢
  omega

theorem pickFits_jalr (hf : FormatFits d .i) :
    PickFits d [⟨.c_jr, rvccCJr⟩, ⟨.c_jalr, rvccCJalr⟩] ↔ ¬ ((d.rd = 0 ∨ d.rd = 1) ∧ d.rs1 ≠ 0 ∧ d.imm ≠ 0) := by
  have hc : rvInstCodec .c_jr = .cr_jr ∧ rvInstCodec .c_jalr = .cr_jalr := by decide
  simp [hc] at hf ⊢
  omega

/-- Also `bne`, whose constraints are the same. -/
theorem pickFits_beq {op : RvOp} (hc : rvInstCodec op = .cb) (hf : FormatFits d .sb) :
    PickFits d [⟨op, rvccCBeqz⟩] ↔ ¬ (B3 d.rs1 ∧ d.rs2 = 0 ∧ d.imm ≤ 511 ∧ ¬ (-256 ≤ d.imm ∧ d.imm < 256)) := by
  simp [hc] at hf ⊢
  omega

theorem pickFits_lw (hf : FormatFits d .i) :
    PickFits d [⟨.c_lw, rvccCLw⟩, ⟨.c_lwsp, rvccCLwsp⟩] ↔
      ¬ (d.imm < 0 ∧ d.imm % 4 = 0 ∧ (B3 d.rd ∧ B3 d.rs1 ∨ d.rd ≠ 0 ∧ d.rs1 = 2)) := by
  have hc : rvInstCodec .c_lw = .cl_lw ∧ rvInstCodec .c_lwsp = .ci_lwsp := by decide
  simp [hc] at hf ⊢
  omega

theorem pickFits_flw (hf : FormatFits d .i) :
    PickFits d [⟨.c_flw, rvccCFlw⟩, ⟨.c_flwsp, rvccCFlwsp⟩] ↔
      ¬ (d.imm < 0 ∧ d.imm % 4 = 0 ∧ (B3 d.rd ∧ B3 d.rs1 ∨ d.rs1 = 2)) := by
  have hc : rvInstCodec .c_flw = .cl_lw ∧ rvInstCodec .c_flwsp = .ci_lwsp := by decide
  simp [hc] at hf ⊢
  omega

theorem pickFits_sw {op op' : RvOp} (hc : rvInstCodec op = .cs_sw ∧ rvInstCodec op' = .css_swsp) (hf : FormatFits d .s) :
    PickFits d [⟨op, rvccCSw⟩, ⟨op', rvccCSwsp⟩] ↔
      ¬ (d.imm < 0 ∧ d.imm % 4 = 0 ∧ (B3 d.rs1 ∧ B3 d.rs2 ∨ d.rs1 = 2)) := by
  simp [hc] at hf ⊢
  omega

theorem pickFits_ld (hf : FormatFits d .i) :
    PickFits d [⟨.c_ld, rvccCLd⟩, ⟨.c_ldsp, rvccCLdsp⟩] ↔
      ¬ (d.imm < 0 ∧ d.imm % 8 = 0 ∧ (B3 d.rd ∧ B3 d.rs1 ∨ d.rd ≠ 0 ∧ d.rs1 = 2)) := by
  have hc : rvInstCodec .c_ld = .cl_ld ∧ rvInstCodec .c_ldsp = .ci_ldsp := by decide
  simp [hc] at hf ⊢
  omega

theorem pickFits_fld (hf : FormatFits d .i) :
    PickFits d [⟨.c_fld, rvccCFld⟩, ⟨.c_fldsp, rvccCFldsp⟩] ↔
      ¬ (d.imm < 0 ∧ d.imm % 8 = 0 ∧ (B3 d.rd ∧ B3 d.rs1 ∨ d.rs1 = 2)) := by
  have hc : rvInstCodec .c_fld = .cl_ld ∧ rvInstCodec .c_fldsp = .ci_ldsp := by decide
  simp [hc] at hf ⊢
  omega

theorem pickFits_sd {op op' : RvOp} (hc : rvInstCodec op = .cs_sd ∧ rvInstCodec op' = .css_sdsp) (hf : FormatFits d .s) :
    PickFits d [⟨op, rvccCSd⟩, ⟨op', rvccCSdsp⟩] ↔
      ¬ (d.imm < 0 ∧ d.imm % 8 = 0 ∧ (B3 d.rs1 ∧ B3 d.rs2 ∨ d.rs1 = 2)) := by
  simp [hc] at hf ⊢
  omega

theorem pickFits_addi (hf : FormatFits d .i) :
    PickFits d [⟨.c_addi4spn, rvccCAddi4spn⟩, ⟨.c_nop, rvccCNop⟩, ⟨.c_addi, rvccCAddi⟩,
      ⟨.c_li, rvccCLi⟩, ⟨.c_addi16sp, rvccCAddi16sp⟩, ⟨.c_mv, rvccCMv⟩] ↔
      ¬ (B3 d.rd ∧ d.rs1 = 2 ∧ d.imm % 4 = 0 ∧ d.imm < 0 ∨
    d.rd = 0 ∧ d.rs1 = 0 ∧ d.imm ≠ 0 ∨
    d.rd ≠ 0 ∧ d.rs1 = 0 ∧ d.imm ≤ 63 ∧ ¬ (-32 ≤ d.imm ∧ d.imm < 32) ∨
    d.rd = 2 ∧ d.rs1 = 2 ∧ d.imm ≤ 1023 ∧ d.imm % 4 = 0 ∧ ¬ (-32 ≤ d.imm ∧ d.imm < 32) ∧
      ¬ (-512 ≤ d.imm ∧ d.imm < 512 ∧ d.imm % 16 = 0)) := by
  obtain ⟨h1, h2, h3, h4, h5, h6, h7, h8, h9, h10, h11⟩ := hf
  have hc : rvInstCodec .c_addi4spn = .ciw_4spn ∧ rvInstCodec .c_nop = .ci_none ∧ rvInstCodec .c_addi = .ci ∧
      rvInstCodec .c_li = .ci_li ∧ rvInstCodec .c_addi16sp = .ci_16sp ∧ rvInstCodec .c_mv = .cr_mv := by decide
  simp only [PickFits, CandidateFits, hc]
  -- the source register decides which candidates are left
  by_cases hz : d.rs1 = 0
  · simp [hz, h3, h6, h7, h8, h9, h10, h11]
    omega
  · by_cases hsp : d.rs1 = 2
    · simp [hsp, h3, h6, h7, h8, h9, h10, h11]
      omega
    · simp [hz, hsp, h3, h6, h7, h8, h9, h10, h11]
      omega

theorem pickFits_addiw (hf : FormatFits d .i) :
    PickFits d [⟨.c_addiw, rvccCAddiw⟩] ↔
      ¬ (d.rd = d.rs1 ∧ d.rd ≠ 0 ∧ d.imm ≤ 63 ∧ ¬ (-32 ≤ d.imm ∧ d.imm < 32)) := by
  have hc : rvInstCodec .c_addiw = .ci := rfl
  simp [hc] at hf ⊢
  omega

theorem pickFits_andi (hf : FormatFits d .i) :
    PickFits d [⟨.c_andi, rvccCAndi⟩] ↔ ¬ (d.rd = d.rs1 ∧ B3 d.rd ∧ ¬ (-32 ≤ d.imm ∧ d.imm < 32)) := by
  have hc : rvInstCodec .c_andi = .cb_imm := rfl
  simp [hc] at hf ⊢
  omega

theorem pickFits_slli (hf : FormatFits d .i_sh7) :
    PickFits d [⟨.c_slli, rvccCSlliRv32c⟩] ↔ ¬ (d.rd = d.rs1 ∧ d.rd ≠ 0 ∧ 64 ≤ d.imm) := by
  have hc : rvInstCodec .c_slli = .ci_sh6 := rfl
  simp [hc] at hf ⊢
  omega

/-- Also `srai`. -/
theorem pickFits_srli {op : RvOp} (hc : rvInstCodec op = .cb_sh6) (hf : FormatFits d .i_sh7) :
    PickFits d [⟨op, rvccCSrliRv32c⟩] ↔ ¬ (d.rd = d.rs1 ∧ B3 d.rd ∧ 64 ≤ d.imm) := by
  simp [hc] at hf ⊢
  omega

theorem pickFits_add (hf : FormatFits d .r) : PickFits d [⟨.c_add, rvccCAdd⟩] ↔ ¬ False := by
  have hc : rvInstCodec .c_add = .cr := rfl
  simp [hc] at hf ⊢
  omega

/-- Also the other register-register operations of the format `cs`. -/
theorem pickFits_sub {op : RvOp} (hc : rvInstCodec op = .cs) (hf : FormatFits d .r) :
    PickFits d [⟨op, rvccCSub⟩] ↔ ¬ False := by
  simp [hc] at hf ⊢
  omega

theorem pickFits_ebreak (hf : FormatFits d .none) : PickFits d [⟨.c_ebreak, rvccCEbreak⟩] ↔ ¬ False := by
  have hc : rvInstCodec .c_ebreak = .ci_none := rfl
  simp [hc] at hf ⊢
  omega

theorem pickFits_lq (hf : FormatFits d .i) :
    PickFits d [⟨.c_lq, rvccCLq⟩, ⟨.c_lqsp, rvccCLqsp⟩] ↔
      ¬ (d.imm ≤ 511 ∧ d.imm % 16 = 0 ∧ ¬ (0 ≤ d.imm ∧ B3 d.rd ∧ B3 d.rs1)) := by
  have hc : rvInstCodec .c_lq = .cl_lq ∧ rvInstCodec .c_lqsp = .ci_lqsp := by decide
  simp [hc] at hf ⊢
  omega

theorem pickFits_sq (hf : FormatFits d .s) :
    PickFits d [⟨.c_sq, rvccCSq⟩, ⟨.c_sqsp, rvccCSqsp⟩] ↔
      ¬ (d.imm ≤ 511 ∧ d.imm % 16 = 0 ∧ ¬ (0 ≤ d.imm ∧ B3 d.rs1 ∧ B3 d.rs2)) := by
  have hc : rvInstCodec .c_sq = .cs_sq ∧ rvInstCodec .c_sqsp = .css_sqsp := by decide
  simp [hc] at hf ⊢
  omega

end Candidates

theorem pickFits_iff_not_misfit {x : Xlen} {d : Decode} (hf : FormatFits d (rvInstCodec d.op)) :
    PickFits d (x.comp d.op) ↔ ¬ Misfit x d := by
  obtain ⟨imm, rd, rs1, rs2, rs3, op, codec, rm, aq, rl, pred, succ⟩ := d
  -- one lemma for each list of candidates; most opcodes have none
  cases x <;> cases op <;> first
    | exact ⟨fun _ h => h, fun _ => trivial⟩
    | exact pickFits_lui hf
    | exact pickFits_jal hf
    | exact pickFits_j hf
    | exact pickFits_jalr hf
    | exact pickFits_beq rfl hf
    | exact pickFits_lw hf
    | exact pickFits_flw hf
    | exact pickFits_sw (by decide) hf
    | exact pickFits_ld hf
    | exact pickFits_fld hf
    | exact pickFits_sd (by decide) hf
    | exact pickFits_addi hf
    | exact pickFits_addiw hf
    | exact pickFits_andi hf
    | exact pickFits_slli hf
    | exact pickFits_srli rfl hf
    | exact pickFits_add hf
    | exact pickFits_sub rfl hf
    | exact pickFits_ebreak hf
    | exact pickFits_lq hf
    | exact pickFits_sq hf

/-! ## From the picked candidate to the meaning -/

/-- Formats that leave the less common fields of the record clear. -/
def plainCodec : RvCodec → Bool
  | .r_m | .r4_m | .r_a | .r_l | .r_f => false
  | _ => true

theorem FormatFits.plain {d : Decode} {c : RvCodec} (hc : plainCodec c = true) (hf : FormatFits d c) : Plain d := by
  cases c <;> simp [plainCodec, FormatFits] at hc hf ⊢ <;> tauto

/-- A plain format looks at registers and immediate only. -/
theorem FormatFits.congr {d d' : Decode} {c : RvCodec} (hc : plainCodec c = true) (hf : FormatFits d c) (hp : Plain d')
    (hrd : d.rd = d'.rd) (hrs1 : d.rs1 = d'.rs1) (hrs2 : d.rs2 = d'.rs2) (himm : d.imm = d'.imm) : FormatFits d' c := by
  cases c <;> simp [plainCodec, FormatFits] at hc hf ⊢ <;> rw [hrd, hrs1, hrs2, himm] at hf <;> tauto

/-- What the tables say about a candidate: it decompresses to the opcode it was made from, and its
operand bits and fixed bits are apart. -/
def candidateOk (x : Xlen) (op : RvOp) (c : RvCompData) : Bool :=
  x.decomp c.op = op && op ≠ .illegal && plainCodec (rvInstCodec op) && plainCodec (rvInstCodec c.op) &&
    formatBits (rvInstCodec c.op) &&& rvInstMask c.op = 0 && rvInstMatch c.op &&& rvInstMask c.op = rvInstMatch c.op &&
    rvInstMatch c.op < 2 ^ 16 && formatBits (rvInstCodec c.op) < 2 ^ 16

theorem candidates_ok (x : Xlen) (op : RvOp) : (x.comp op).all (candidateOk x op) = true := by
  cases x <;> cases op <;> rfl

theorem candidate_fits_iff {x : Xlen} {d : Decode} {c : RvCompData} (hc : c ∈ x.comp d.op)
    (hf : FormatFits d (rvInstCodec d.op)) :
    (∃ inst, inst < 2 ^ 16 ∧ inst &&& rvInstMask c.op = rvInstMatch c.op ∧
      SameOperands (x.decompress (decodeInstType { op := c.op } inst)) d) ↔ CandidateFits d c := by
  have hok := List.all_eq_true.1 (candidates_ok x d.op) c hc
  simp only [candidateOk, Bool.and_eq_true, decide_eq_true_eq] at hok
  obtain ⟨⟨⟨⟨⟨⟨⟨hdecomp, hne⟩, hplain⟩, hplain'⟩, hapart⟩, hmask⟩, hmlt⟩, hflt⟩ := hok
  have hdec : ∀ e : Decode, e.op = c.op → x.decompress e = { e with op := d.op, codec := rvInstCodec d.op } := by
    intro e he
    rw [Xlen.decompress_eq, decompressInst, he, hdecomp]
    exact if_pos hne
  constructor
  · -- what was read from a word fits the format
    rintro ⟨inst, -, -, hsame⟩
    rw [hdec _ (decodeInstType_op _ _)] at hsame
    obtain ⟨-, hrd, hrs1, hrs2, himm⟩ := hsame
    exact (formatFits_decodeType c.op _ _ inst).congr hplain' (hf.plain hplain) hrd hrs1 hrs2 himm
  · -- operands that fit are those of the word that encodes them
    intro hfit
    obtain ⟨inst, hin, hmem, -, hd⟩ := exists_word_of_fits (d := { d with op := c.op, codec := rvInstCodec c.op })
      hapart hmask rfl hfit
    refine ⟨rvInstMatch c.op ||| inst, ?_, hmem, ?_⟩
    · refine Nat.or_lt_two_pow hmlt ?_
      rw [← hin]
      exact Nat.and_le_right.trans_lt hflt
    · rw [hdec _ (decodeInstType_op _ _), hd]
      exact ⟨rfl, rfl, rfl, rfl, rfl⟩

theorem preservesMeaning_iff_pickFits {x : Xlen} {d : Decode} (hf : FormatFits d (rvInstCodec d.op)) :
    PreservesMeaning x d ↔ PickFits d (x.comp d.op) := by
  rw [pickFits_iff]
  unfold PreservesMeaning
  constructor
  · intro h c hfind
    rw [← candidate_fits_iff (List.mem_of_find?_eq_some hfind) hf]
    exact h { d with op := c.op, codec := rvInstCodec c.op } (by rw [Xlen.compress_eq, compressInst, hfind]; rfl)
  · intro h c hcomp
    rw [Xlen.compress_eq, compressInst, Option.map_eq_some_iff] at hcomp
    obtain ⟨cd, hfind, rfl⟩ := hcomp
    exact (candidate_fits_iff (List.mem_of_find?_eq_some hfind) hf).2 (h cd hfind)

theorem formatFits_decodeInstType (op : RvOp) (inst : Nat) :
    FormatFits (decodeInstType { op } inst) (rvInstCodec (decodeInstType { op } inst).op) := by
  rw [decodeInstType_op]
  exact formatFits_decodeType _ _ _ _

/-- A decoded instruction is compressed without loss, unless its operands are a misfit. -/
theorem compress_preserves_iff (x : Xlen) (op : RvOp) (inst : Nat) :
    PreservesMeaning x (decodeInstType { op } inst) ↔ ¬ Misfit x (decodeInstType { op } inst) := by
  have hf := formatFits_decodeInstType op inst
  rw [preservesMeaning_iff_pickFits hf, pickFits_iff_not_misfit hf]

/-- `addi s0, sp, -4` is compressed to `c.addi4spn`, whose immediate has no sign. -/
theorem not_preserves_addi : (decodeInstType { op := .addi } 0xffc10413).imm = -4 ∧
    ¬ PreservesMeaning .rv64 (decodeInstType { op := .addi } 0xffc10413) := by
  refine ⟨by decide, ?_⟩
  have hf := formatFits_decodeInstType .addi 0xffc10413
  rw [preservesMeaning_iff_pickFits hf, pickFits_iff_not_misfit hf, not_not]
  exact Or.inl ⟨by decide, by decide, by decide, by decide⟩

end Rv8.Asm
