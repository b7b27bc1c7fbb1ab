import Rv8.Asm.Compressed
import Rv8.Asm.Emit
/-!
# What the emitters lose

An emitted word decodes to the arguments wherever the operand of the format can hold
them. The types of the arguments are as wide as the operands, so what a valid argument
may still be is not a multiple of what the lowest stored bit counts. The immediate of
`csrrwi` and its like is assigned to `imm`, which the next assignment overwrites.
-/

namespace Rv8.Asm

open Rv8.Lib.BitTree

/-! ## Fields of a record -/

def Decode.get (dec : Decode) : Field → Int
  | .imm => dec.imm
  | .rd => dec.rd
  | .rs1 => dec.rs1
  | .rs2 => dec.rs2
  | .rs3 => dec.rs3
  | .rm => dec.rm
  | .aq => dec.aq
  | .rl => dec.rl
  | .pred => dec.pred
  | .succ => dec.succ

theorem Decode.get_assign_ne (dec : Decode) (v : Int) {f g : Field} (h : f ≠ g) : (dec.assign v f).get g = dec.get g := by
  cases f <;> cases g <;> first | rfl | exact absurd rfl h

theorem Decode.op_assign (dec : Decode) (v : Int) (f : Field) : (dec.assign v f).op = dec.op := by
  cases f <;> rfl

/-- The values of an argument type. -/
def ArgType.Range : ArgType → Int → Prop
  | .offset w, v | .simm w, v => -2 ^ (w - 1) ≤ v ∧ v < 2 ^ (w - 1)
  | .uimm w, v => 0 ≤ v ∧ v < 2 ^ w

theorem ArgType.range_of_valid {t : ArgType} {a : BitVec 64} (h : t.valid a = true) : t.Range (t.value a) := by
  cases t with
  | offset w | simm w =>
    simp only [ArgType.valid, simmValid, Bool.and_eq_true, decide_eq_true_eq] at h
    unfold ArgType.Range ArgType.value
    dsimp only
    omega
  | uimm w =>
    simp only [ArgType.valid, uimmValid, decide_eq_true_eq] at h
    have hpos := Nat.two_pow_pos w
    have hlt : a.toNat < 2 ^ w := by omega
    unfold ArgType.Range ArgType.value
    dsimp only
    exact ⟨Int.natCast_nonneg _, by exact_mod_cast hlt⟩

/-- The field is wide enough for the type. -/
def Param.stores : Param → Bool
  | ⟨.offset w, .imm⟩ | ⟨.simm w, .imm⟩ => w ≤ 32
  | ⟨.uimm w, .imm⟩ => w ≤ 31
  | ⟨.uimm w, .rd⟩ | ⟨.uimm w, .rs1⟩ | ⟨.uimm w, .rs2⟩ | ⟨.uimm w, .rs3⟩ => w ≤ 8
  | ⟨.uimm w, .rm⟩ => w ≤ 3
  | ⟨.uimm w, .aq⟩ | ⟨.uimm w, .rl⟩ => w ≤ 1
  | ⟨.uimm w, .pred⟩ | ⟨.uimm w, .succ⟩ => w ≤ 4
  | _ => false

theorem bitField_of_le {w n : Nat} (h : w ≤ n) {v : Int} (hv : 0 ≤ v ∧ v < 2 ^ w) : (bitField n v : Int) = v :=
  bitField_eq hv.1 (hv.2.trans_le (pow_le_pow_right₀ (by norm_num) h))

theorem Decode.get_assign {p : Param} (hs : p.stores = true) (dec : Decode) {v : Int} (hv : p.type.Range v) :
    (dec.assign v p.field).get p.field = v := by
  unfold Param.stores at hs
  split at hs
  case h_1 w | h_2 w =>
    have hw : (2 : Int) ^ (w - 1) ≤ 2 ^ 31 := pow_le_pow_right₀ (by norm_num) (by simp at hs; omega)
    obtain ⟨hlo, hhi⟩ : -2 ^ (w - 1) ≤ v ∧ v < 2 ^ (w - 1) := hv
    exact Int.bmod_eq_of_le (by norm_num; omega) (by norm_num; omega)
  case h_3 w =>
    have hw : (2 : Int) ^ w ≤ 2 ^ 31 := pow_le_pow_right₀ (by norm_num) (of_decide_eq_true hs)
    obtain ⟨hlo, hhi⟩ : 0 ≤ v ∧ v < 2 ^ w := hv
    exact Int.bmod_eq_of_le (by norm_num; omega) (by norm_num; omega)
  case h_13 => cases hs
  all_goals exact bitField_of_le (of_decide_eq_true hs) hv

/-! ## The record of the arguments -/

section Record
variable {l : List (Param × BitVec 64)} {dec : Decode}

/-- The assignments of `Emit.record`. -/
def assignAll (dec : Decode) (l : List (Param × BitVec 64)) : Decode := l.foldl (fun dec a => dec.assign (a.1.type.value a.2) a.1.field) dec

theorem assignAll_op : (assignAll dec l).op = dec.op := by
  induction l generalizing dec with
  | nil => rfl
  | cons a l ih => exact ih.trans (dec.op_assign _ _)

theorem get_assignAll_of_forall_ne {f : Field} (h : ∀ a ∈ l, a.1.field ≠ f) : (assignAll dec l).get f = dec.get f := by
  induction l generalizing dec with
  | nil => rfl
  | cons a l ih =>
    refine (ih fun b hb => h b (List.mem_cons_of_mem a hb)).trans ?_
    exact dec.get_assign_ne _ (h a List.mem_cons_self)

/-- The last assignment to a field stays. -/
theorem get_assignAll {g : Param → Prop} (hs : ∀ a ∈ l, a.1.stores = true) (hr : ∀ a ∈ l, a.1.type.valid a.2 = true)
    (hlast : (l.map Prod.fst).Pairwise fun p q => g p → q.field ≠ p.field) {a : Param × BitVec 64} (ha : a ∈ l) (hg : g a.1) :
    (assignAll dec l).get a.1.field = a.1.type.value a.2 := by
  induction l generalizing dec with
  | nil => cases ha
  | cons b l ih =>
    obtain ⟨hb, hl⟩ := List.pairwise_cons.1 hlast
    rcases List.mem_cons.1 ha with rfl | ha
    · refine (get_assignAll_of_forall_ne fun c hc => hb c.1 (List.mem_map_of_mem hc) hg).trans ?_
      exact dec.get_assign (hs a List.mem_cons_self) (ArgType.range_of_valid (hr a List.mem_cons_self))
    · exact ih (fun c hc => hs c (List.mem_cons_of_mem b hc)) (fun c hc => hr c (List.mem_cons_of_mem b hc)) hl ha

end Record

/-! ## The word of a record -/

/-- The operands of the formats of 32 bits, with the fields that they hold. -/
def formatFields : RvCodec → List (ImmOperand × Field)
  | .u => [(operandRd, .rd), (operandImm20, .imm)]
  | .uj => [(operandRd, .rd), (operandJimm20, .imm)]
  | .i => [(operandRd, .rd), (operandRs1, .rs1), (operandImm12, .imm)]
  | .i_sh5 => [(operandRd, .rd), (operandRs1, .rs1), (operandShamt5, .imm)]
  | .i_sh6 => [(operandRd, .rd), (operandRs1, .rs1), (operandShamt6, .imm)]
  | .i_sh7 => [(operandRd, .rd), (operandRs1, .rs1), (operandShamt7, .imm)]
  | .i_csr => [(operandRd, .rd), (operandRs1, .rs1), (operandCsr12, .imm)]
  | .s => [(operandRs1, .rs1), (operandRs2, .rs2), (operandSimm12, .imm)]
  | .sb => [(operandRs1, .rs1), (operandRs2, .rs2), (operandSbimm12, .imm)]
  | .r => [(operandRd, .rd), (operandRs1, .rs1), (operandRs2, .rs2)]
  | .r_m => [(operandRd, .rd), (operandRs1, .rs1), (operandRs2, .rs2), (operandRm, .rm)]
  | .r4_m => [(operandRd, .rd), (operandRs1, .rs1), (operandRs2, .rs2), (operandRs3, .rs3), (operandRm, .rm)]
  | .r_a => [(operandRd, .rd), (operandRs1, .rs1), (operandRs2, .rs2), (operandAq, .aq), (operandRl, .rl)]
  | .r_l => [(operandRd, .rd), (operandRs1, .rs1), (operandAq, .aq), (operandRl, .rl)]
  | .r_f => [(operandPred, .pred), (operandSucc, .succ)]
  | _ => []

/-- The formats of 32 bits. -/
def wideFormats : List RvCodec := [.none, .u, .uj, .i, .i_sh5, .i_sh6, .i_sh7, .i_csr, .s, .sb, .r, .r_m, .r4_m, .r_a, .r_l, .r_f]

section Word
variable {codec : RvCodec}

theorem formatFields_fst (h : codec ∈ wideFormats) : (formatFields codec).map Prod.fst = formatOperands codec := by
  cases codec <;> first
    | rfl
    | exact absurd h (by decide)

/-- The operand bits of several operands. -/
def operandBits (l : List (ImmOperand × Int)) : Nat := l.foldr (fun a acc => a.1.encode a.2 ||| acc) 0

/-- The encoder of `lr` asserts that `rs2` is not set. -/
theorem encodeType_eq (h : codec ∈ wideFormats) {dec : Decode} (hlr : codec = .r_l → dec.rs2 = 0) :
    encodeType codec dec = some (operandBits ((formatFields codec).map fun a => (a.1, dec.get a.2))) := by
  cases codec <;> first
    | exact absurd h (by decide)
    | simp [encodeType, formatFields, operandBits, Decode.get, Nat.or_assoc, hlr]

/-- The fields of a decoded record. -/
theorem get_decodeType (h : codec ∈ wideFormats) (dec : Decode) (inst : Nat) :
    ∀ a ∈ formatFields codec, (decodeType codec dec inst).get a.2 = a.1.decode inst := by
  cases codec <;> first
    | exact absurd h (by decide)
    | simp (disch := decide) [formatFields, decodeType, Decode.get, ImmOperand.s32_decode, ImmOperand.bitField_decode, u8]

/-- Each operand has its own bits. -/
theorem operandBits_and_field {l : List (ImmOperand × Int)} (hd : (l.map Prod.fst).Pairwise fun o p => o.field &&& p.field = 0)
    {a : ImmOperand × Int} (ha : a ∈ l) : operandBits l &&& a.1.field = a.1.encode a.2 := by
  have hother : ∀ {l : List (ImmOperand × Int)} {o : ImmOperand}, (∀ p ∈ l.map Prod.fst, o.field &&& p.field = 0) →
      operandBits l &&& o.field = 0 := by
    intro l o ho
    induction l with
    | nil => exact Nat.zero_and _
    | cons b l ih =>
      obtain ⟨hb, hl⟩ := List.forall_mem_cons.1 ho
      show (b.1.encode b.2 ||| operandBits l) &&& o.field = 0
      rw [Nat.and_or_distrib_right, ih hl, Nat.or_zero, ← b.1.encode_and_field, Nat.and_assoc, Nat.and_comm b.1.field, hb, Nat.and_zero]
  induction l with
  | nil => cases ha
  | cons b l ih =>
    rw [List.map_cons, List.pairwise_cons] at hd
    obtain ⟨hb, hl⟩ := hd
    show (b.1.encode b.2 ||| operandBits l) &&& a.1.field = _
    rw [Nat.and_or_distrib_right]
    rcases List.mem_cons.1 ha with rfl | ha
    · rw [hother hb, Nat.or_zero, ImmOperand.encode_and_field]
    · rw [ih hl ha, ← b.1.encode_and_field, Nat.and_assoc, hb a.1 (List.mem_map_of_mem ha), Nat.and_zero, Nat.zero_or]

end Word

/-! ## The functions of `load_imm` -/

section LoadImm
variable {v : Bool} {dec dec' : Decode}

theorem emitInst_congr (h : v = true → dec = dec') : emitInst v dec = emitInst v dec' := by
  cases v with
  | false => rfl
  | true => rw [h rfl]

/-- What a valid argument assigns is its value. -/
theorem assign_of_valid {p : Param} (hs : p.stores = true) {a : BitVec 64} (h : p.type.valid a = true) (dec : Decode) :
    (dec.assign (p.type.value a) p.field).get p.field = p.type.value a := dec.get_assign hs (ArgType.range_of_valid h)

theorem u8_of_valid {a : BitVec 64} (h : uimmValid 5 a.toNat = true) : u8 a.toNat = a.toNat :=
  Int.ofNat_inj.1 (assign_of_valid (p := ⟨.uimm 5, .rd⟩) rfl h {})

theorem run_lui (rd imm20 : BitVec 64) : Emit.lui.run [rd, imm20] = emitLui rd.toNat imm20.toInt := by
  have hvalid : (uimmValid 5 rd.toNat && (simmValid 32 imm20.toInt && true)) = (uimmValid 5 rd.toNat && simmValid 32 imm20.toInt) := by
    rw [Bool.and_true]
  refine (congrArg (emitInst · _) hvalid).trans (emitInst_congr fun h => ?_)
  obtain ⟨hrd, himm⟩ := Bool.and_eq_true_iff.1 h
  have himm' : s32 imm20.toInt = imm20.toInt := assign_of_valid (p := ⟨.simm 32, .imm⟩) rfl himm {}
  show ({ op := .lui, rd := u8 rd.toNat, imm := s32 imm20.toInt } : Decode) = _
  rw [u8_of_valid hrd, himm']

theorem run_addi (rd rs1 imm12 : BitVec 64) : Emit.addi.run [rd, rs1, imm12] = emitAddi rd.toNat rs1.toNat imm12.toInt := by
  have hvalid : (uimmValid 5 rd.toNat && (uimmValid 5 rs1.toNat && (simmValid 12 imm12.toInt && true))) =
      (uimmValid 5 rd.toNat && uimmValid 5 rs1.toNat && simmValid 12 imm12.toInt) := by
    rw [Bool.and_true, Bool.and_assoc]
  refine (congrArg (emitInst · _) hvalid).trans (emitInst_congr fun h => ?_)
  obtain ⟨hregs, himm⟩ := Bool.and_eq_true_iff.1 h
  obtain ⟨hrd, hrs1⟩ := Bool.and_eq_true_iff.1 hregs
  have himm' : s32 imm12.toInt = imm12.toInt := assign_of_valid (p := ⟨.simm 12, .imm⟩) rfl himm {}
  show ({ op := .addi, rd := u8 rd.toNat, rs1 := u8 rs1.toNat, imm := s32 imm12.toInt } : Decode) = _
  rw [u8_of_valid hrd, u8_of_valid hrs1, himm']

theorem run_slli (rd rs1 shamt7 : BitVec 64) : Emit.slli.run [rd, rs1, shamt7] = emitSlli rd.toNat rs1.toNat shamt7.toNat := by
  have hvalid : (uimmValid 5 rd.toNat && (uimmValid 5 rs1.toNat && (uimmValid 7 shamt7.toNat && true))) =
      (uimmValid 5 rd.toNat && uimmValid 5 rs1.toNat && uimmValid 7 shamt7.toNat) := by
    rw [Bool.and_true, Bool.and_assoc]
  refine (congrArg (emitInst · _) hvalid).trans (emitInst_congr fun h => ?_)
  obtain ⟨hregs, himm⟩ := Bool.and_eq_true_iff.1 h
  obtain ⟨hrd, hrs1⟩ := Bool.and_eq_true_iff.1 hregs
  have hrange : ArgType.Range (.uimm 7) shamt7.toNat := ArgType.range_of_valid (t := .uimm 7) himm
  have himm' : s32 shamt7.toNat = shamt7.toNat := by
    obtain ⟨hlo, hhi⟩ : (0 : Int) ≤ shamt7.toNat ∧ (shamt7.toNat : Int) < 2 ^ 7 := hrange
    exact Int.bmod_eq_of_le (by norm_num) (by norm_num; omega)
  show ({ op := .slli, rd := u8 rd.toNat, rs1 := u8 rs1.toNat, imm := s32 shamt7.toNat } : Decode) = _
  rw [u8_of_valid hrd, u8_of_valid hrs1, himm']

end LoadImm

/-! ## Where an argument is read back -/

/-- The opcode is one of the width. -/
def HasOp (x : Xlen) (op : RvOp) : Prop := ∃ inst, decodeInstOp x.flags inst = op

namespace Emit

/-- The field of a decoded record with the argument: the immediate of the `csr` instructions is in the place of `rs1`. -/
def operand (e : Emit) (p : Param) : Field := if rvInstCodec e.op = .i_csr ∧ p = ⟨.uimm 5, .imm⟩ then .rs1 else p.field

/-- The word decodes to the opcode and the arguments. -/
def DecodesTo (e : Emit) (args : List (BitVec 64)) (x : Xlen) (inst : Nat) : Prop :=
  (decodeInst x inst).op = e.op ∧ ∀ a ∈ e.params.zip args, (decodeInst x inst).get (e.operand a.1) = a.1.type.value a.2

/-- The function returns 0, or a word for the arguments, wherever the opcode exists. -/
def Exact (e : Emit) (args : List (BitVec 64)) : Prop :=
  ∃ inst, e.run args = some inst ∧ (inst = 0 ∨ (∃ x, HasOp x e.op) ∧ ∀ x, HasOp x e.op → e.DecodesTo args x inst)

end Emit

/-- What the lowest bit that is stored of a value counts. -/
def ArgType.unit : ArgType → Int
  | .simm 32 | .offset 32 => 4096
  | .offset 13 | .offset 21 => 2
  | _ => 1

namespace Emit

/-- An argument is not valid, or each of them is stored without loss. -/
def Storable (e : Emit) (args : List (BitVec 64)) : Prop :=
  (∃ a ∈ e.params.zip args, a.1.type.valid a.2 = false) ∨
    ∀ a ∈ e.params.zip args, if e.operand a.1 = a.1.field then a.1.type.unit ∣ a.1.type.value a.2 else a.1.type.value a.2 = 0

/-! ## The table of the functions is well formed -/

/-- The operand holds exactly the valid values that are multiples of the unit. -/
def fitsType (o : ImmOperand) (t : ArgType) : Bool :=
  (match t with
    | .offset w | .simm w => o.isSigned && o.w = w
    | .uimm w => !o.isSigned && o.w = w) && 2 ^ o.low = t.unit

/-- Each argument has its operand in the format, apart from the fixed bits of the opcode. -/
def paramOk (e : Emit) (p : Param) : Bool :=
  p.stores && (formatFields (rvInstCodec e.op)).any fun a =>
    a.2 = e.operand p && a.1.field &&& rvInstMask e.op = 0 &&
      (if e.operand p = p.field then fitsType a.1 p.type else !(e.params.any fun q => q.field = a.2))

/-- No operand that is set has a fixed bit. -/
def fieldsOk (e : Emit) : Bool :=
  (formatFields (rvInstCodec e.op)).all fun a => a.1.field &&& rvInstMask e.op = 0 || !(e.params.any fun q => q.field = a.2)

/-- The last assignment to a field is the one that the decoded record shows there. -/
def paramsOk (e : Emit) : Bool :=
  e.params.all e.paramOk && decide (e.params.Pairwise fun p q => e.operand p = p.field → q.field ≠ p.field)

def opOk (e : Emit) : Bool :=
  rvInstCodec e.op ∈ wideFormats && !(rvInstCodec e.op = .r_l && e.params.any fun q => q.field = .rs2) &&
    rvInstMatch e.op &&& rvInstMask e.op = rvInstMatch e.op && rvInstMatch e.op ≠ 0 && e.op ≠ .illegal

/-- The fixed bits of the opcode decide, one way or the other. -/
def treeOk (e : Emit) (x : Xlen) : Bool :=
  decodeTree.allPaths (fun _ l => l.op x.flags = e.op) (opCube e.op) || decodeTree.allPaths (fun _ l => l.op x.flags ≠ e.op) (opCube e.op)

def treesOk (e : Emit) : Bool :=
  e.treeOk .rv32 && e.treeOk .rv64 && e.treeOk .rv128 && decodeTree.allPaths (fun _ l => l.op Xlen.rv128.flags = e.op) (opCube e.op)

theorem all_ok : ∀ e ∈ all, e.paramsOk = true ∧ e.fieldsOk = true ∧ e.opOk = true := by
  decide +kernel

theorem all_treesOk : ∀ e ∈ all, e.treesOk = true := by
  decide +kernel

end Emit

/-! ## Reading back the word of a record -/

section Read
variable {op : RvOp} {dec : Decode}

/-- The values of the operands of a format. -/
def fieldValues (codec : RvCodec) (dec : Decode) : List (ImmOperand × Int) := (formatFields codec).map fun a => (a.1, dec.get a.2)

theorem fieldValues_fst {codec : RvCodec} (h : codec ∈ wideFormats) :
    ((fieldValues codec dec).map Prod.fst).Pairwise fun o p => o.field &&& p.field = 0 := by
  have hmap : (fieldValues codec dec).map Prod.fst = (formatFields codec).map Prod.fst := by
    rw [fieldValues, List.map_map]
    rfl
  rw [hmap, formatFields_fst h]
  exact formatOperands_disjoint codec

/-- An operand apart from the fixed bits comes back from the word if it fits, and only then. -/
theorem decode_word_iff (hc : rvInstCodec op ∈ wideFormats) (hmask : rvInstMatch op &&& rvInstMask op = rvInstMatch op)
    {a : ImmOperand × Field} (ha : a ∈ formatFields (rvInstCodec op)) (hapart : a.1.field &&& rvInstMask op = 0) :
    a.1.decode (rvInstMatch op ||| operandBits (fieldValues (rvInstCodec op) dec)) = dec.get a.2 ↔ a.1.Fits (dec.get a.2) := by
  have hmem : (a.1, dec.get a.2) ∈ fieldValues (rvInstCodec op) dec := List.mem_map.2 ⟨a, ha, rfl⟩
  have hbits := operandBits_and_field (fieldValues_fst hc) hmem
  have hword : a.1.decode (rvInstMatch op ||| operandBits (fieldValues (rvInstCodec op) dec)) = a.1.decode (a.1.encode (dec.get a.2)) := by
    apply a.1.decode_congr
    rw [Nat.and_or_distrib_right, hbits, ← hmask, Nat.and_assoc, Nat.and_comm (rvInstMask op), hapart, Nat.and_zero, Nat.zero_or,
      a.1.encode_and_field]
  rw [hword]
  constructor
  · intro h
    rw [← h]
    exact a.1.fits_decode _
  · exact a.1.decode_encode

/-- The word has the fixed bits of the opcode: operands that share a bit with them are not set. -/
theorem word_mem (hmask : rvInstMatch op &&& rvInstMask op = rvInstMatch op)
    (hfields : ∀ a ∈ formatFields (rvInstCodec op), a.1.field &&& rvInstMask op = 0 ∨ dec.get a.2 = 0) :
    (opCube op).Mem (rvInstMatch op ||| operandBits (fieldValues (rvInstCodec op) dec)) := by
  have hclear : operandBits (fieldValues (rvInstCodec op) dec) &&& rvInstMask op = 0 := by
    unfold fieldValues
    generalize formatFields (rvInstCodec op) = l at hfields
    induction l with
    | nil => exact Nat.zero_and _
    | cons a l ih =>
      obtain ⟨ha, hl⟩ := List.forall_mem_cons.1 hfields
      show (a.1.encode (dec.get a.2) ||| operandBits _) &&& _ = 0
      rw [Nat.and_or_distrib_right, ih hl, Nat.or_zero]
      rcases ha with ha | ha
      · rw [← a.1.encode_and_field, Nat.and_assoc, ha, Nat.and_zero]
      · rw [ha, a.1.encode_zero, Nat.zero_and]
  show _ &&& rvInstMask op = rvInstMatch op
  rw [Nat.and_or_distrib_right, hmask, hclear, Nat.or_zero]

end Read

namespace Emit

section Function
variable {e : Emit} {args : List (BitVec 64)}

theorem run_of_invalid (h : ∃ a ∈ e.params.zip args, a.1.type.valid a.2 = false) : e.run args = some 0 := by
  have hall : ((e.params.zip args).all fun a => a.1.type.valid a.2) = false := by
    obtain ⟨a, ha, hv⟩ := h
    exact List.all_eq_false.2 ⟨a, ha, by simp [hv]⟩
  unfold run emitInst
  rw [hall]
  rfl

/-- A function that is in the table. -/
structure Ok (e : Emit) : Prop where
  codec : rvInstCodec e.op ∈ wideFormats
  lr : rvInstCodec e.op = .r_l → ∀ p ∈ e.params, p.field ≠ .rs2
  mask : rvInstMatch e.op &&& rvInstMask e.op = rvInstMatch e.op
  match_ne : rvInstMatch e.op ≠ 0
  op_ne : e.op ≠ .illegal
  stores : ∀ p ∈ e.params, p.stores = true
  last : e.params.Pairwise fun p q => e.operand p = p.field → q.field ≠ p.field
  /-- Each argument has an operand of its own, which holds its type, unless it is not assigned there. -/
  held : ∀ p ∈ e.params, ∃ o, (o, e.operand p) ∈ formatFields (rvInstCodec e.op) ∧ o.field &&& rvInstMask e.op = 0 ∧
    if e.operand p = p.field then fitsType o p.type = true else ∀ q ∈ e.params, q.field ≠ e.operand p
  fields : ∀ a ∈ formatFields (rvInstCodec e.op), a.1.field &&& rvInstMask e.op = 0 ∨ ∀ q ∈ e.params, q.field ≠ a.2
  tree : ∀ x, HasOp x e.op → ∀ inst, (opCube e.op).Mem inst → decodeInstOp x.flags inst = e.op
  exists_op : HasOp .rv128 e.op

/-- The fixed bits decide whether the width has the opcode. -/
theorem decodeInstOp_of_treeOk {x : Xlen} (hop : e.op ≠ .illegal) (h : e.treeOk x = true) (hx : HasOp x e.op) {inst : Nat}
    (hm : (opCube e.op).Mem inst) : decodeInstOp x.flags inst = e.op := by
  rcases Bool.or_eq_true_iff.1 h with h | h
  · obtain ⟨c, -, hp⟩ := Decision.allPaths_sound decodeTree_wf h hm
    exact of_decide_eq_true hp
  · obtain ⟨inst', hinst⟩ := hx
    have hm' : (opCube e.op).Mem inst' := hinst ▸ decodeInstOp_mem (by rw [hinst]; exact hop)
    obtain ⟨c, -, hp⟩ := Decision.allPaths_sound decodeTree_wf h hm'
    exact absurd hinst (of_decide_eq_true hp)

theorem ok_of_mem (h : e ∈ all) : e.Ok := by
  obtain ⟨hparams, hfields, hop⟩ := all_ok e h
  have htrees := all_treesOk e h
  simp only [paramsOk, Bool.and_eq_true, List.all_eq_true, paramOk, List.any_eq_true, decide_eq_true_eq] at hparams
  simp only [fieldsOk, List.all_eq_true, Bool.or_eq_true, Bool.not_eq_true', List.any_eq_false, decide_eq_true_eq] at hfields
  simp only [opOk, Bool.and_eq_true, Bool.not_eq_true', Bool.and_eq_false_iff, List.any_eq_false, decide_eq_true_eq, decide_eq_false_iff_not,
    ne_eq] at hop
  simp only [treesOk, Bool.and_eq_true] at htrees
  obtain ⟨⟨⟨⟨hcodec, hlr⟩, hmask⟩, hmatch⟩, hill⟩ := hop
  obtain ⟨⟨⟨h32, h64⟩, h128⟩, hwide⟩ := htrees
  refine ⟨hcodec, fun hc => hlr.resolve_left (not_not.2 hc), hmask, hmatch, hill, fun p hp => (hparams.1 p hp).1, hparams.2, fun p hp => ?_,
    hfields, fun x hx inst hm => ?_, ?_⟩
  · obtain ⟨-, ⟨o, f⟩, ha, ⟨rfl, hapart⟩, hheld⟩ := hparams.1 p hp
    refine ⟨o, ha, hapart, ?_⟩
    split at hheld
    · next heq =>
      rw [if_pos heq]
      exact hheld
    · next hne =>
      rw [if_neg hne]
      simpa using hheld
  · cases x with
    | rv32 => exact decodeInstOp_of_treeOk hill h32 hx hm
    | rv64 => exact decodeInstOp_of_treeOk hill h64 hx hm
    | rv128 => exact decodeInstOp_of_treeOk hill h128 hx hm
  · have hm : (opCube e.op).Mem (rvInstMatch e.op) := hmask
    obtain ⟨c, -, hp⟩ := Decision.allPaths_sound decodeTree_wf hwide hm
    exact ⟨_, of_decide_eq_true hp⟩

theorem fits_iff_of_fitsType {o : ImmOperand} {t : ArgType} {v : Int} (h : fitsType o t = true) (hv : t.Range v) :
    o.Fits v ↔ t.unit ∣ v := by
  obtain ⟨hw, hunit⟩ := Bool.and_eq_true_iff.1 h
  have hunit : (2 : Int) ^ o.low = t.unit := of_decide_eq_true hunit
  unfold ImmOperand.Fits
  rw [hunit]
  refine and_iff_right ?_
  cases t with
  | offset w | simm w =>
    simp only [Bool.and_eq_true, decide_eq_true_eq] at hw
    rw [if_pos hw.1, hw.2]
    exact hv
  | uimm w =>
    simp only [Bool.and_eq_true, Bool.not_eq_true', decide_eq_true_eq] at hw
    rw [if_neg (by simp [hw.1]), hw.2]
    exact hv

theorem fits_zero (o : ImmOperand) : o.Fits 0 := by
  refine ⟨?_, Int.dvd_zero _⟩
  split
  · have hpos : (0 : Int) < 2 ^ (o.w - 1) := by positivity
    omega
  · have hpos : (0 : Int) < 2 ^ o.w := by positivity
    omega

theorem record_get_of_forall_ne {f : Field} (h : ∀ q ∈ e.params, q.field ≠ f) : (e.record args).get f = 0 := by
  have hget : (e.record args).get f = ({ op := e.op } : Decode).get f :=
    get_assignAll_of_forall_ne fun a ha => h a.1 (List.of_mem_zip ha).1
  rw [hget]
  cases f <;> rfl

section Valid
variable (hok : e.Ok) (hlen : args.length = e.params.length) (hvalid : ∀ a ∈ e.params.zip args, a.1.type.valid a.2 = true)
include hok hvalid

/-- The word of valid arguments. -/
theorem run_of_valid :
    e.run args = some (rvInstMatch e.op ||| operandBits (fieldValues (rvInstCodec e.op) (e.record args))) := by
  have hop : (e.record args).op = e.op := assignAll_op
  have hlr : rvInstCodec e.op = .r_l → (e.record args).rs2 = 0 := by
    intro hc
    have hzero : (e.record args).get .rs2 = 0 := record_get_of_forall_ne (hok.lr hc)
    exact Int.natCast_eq_zero.1 hzero
  unfold run emitInst
  rw [List.all_eq_true.2 hvalid]
  show encodeInst (e.record args) = _
  unfold encodeInst
  rw [hop, encodeType_eq hok.codec hlr]
  rfl

include hlen

/-- One argument is read back where it is stored without loss. -/
theorem get_decodeInst_iff {a : Param × BitVec 64} (ha : a ∈ e.params.zip args) :
    (decodeInstType { op := e.op } (rvInstMatch e.op ||| operandBits (fieldValues (rvInstCodec e.op) (e.record args)))).get (e.operand a.1) =
        a.1.type.value a.2 ↔
      if e.operand a.1 = a.1.field then a.1.type.unit ∣ a.1.type.value a.2 else a.1.type.value a.2 = 0 := by
  have hp : a.1 ∈ e.params := (List.of_mem_zip ha).1
  obtain ⟨o, hmem, hapart, hheld⟩ := hok.held a.1 hp
  have hread : o.decode (rvInstMatch e.op ||| operandBits (fieldValues (rvInstCodec e.op) (e.record args))) = (e.record args).get (e.operand a.1) ↔
      o.Fits ((e.record args).get (e.operand a.1)) := decode_word_iff hok.codec hok.mask hmem hapart
  rw [decodeInstType, get_decodeType hok.codec _ _ _ hmem]
  split at hheld
  · next heq =>
    have hfst : (e.params.zip args).map Prod.fst = e.params := List.map_fst_zip hlen.ge
    have hget : (e.record args).get a.1.field = a.1.type.value a.2 :=
      get_assignAll (g := fun p => e.operand p = p.field) (fun b hb => hok.stores b.1 (List.of_mem_zip hb).1) hvalid
        (by rw [hfst]; exact hok.last) ha heq
    rw [heq] at hread
    rw [if_pos heq, ← fits_iff_of_fitsType hheld (ArgType.range_of_valid (hvalid a ha)), ← hget]
    exact hread
  · next hne =>
    have hzero : (e.record args).get (e.operand a.1) = 0 := record_get_of_forall_ne hheld
    rw [hzero] at hread
    rw [if_neg hne, hread.2 (fits_zero o)]
    exact eq_comm

omit hvalid in
theorem Ok.exact_iff : e.Exact args ↔ e.Storable args := by
  by_cases hinvalid : ∃ a ∈ e.params.zip args, a.1.type.valid a.2 = false
  · exact iff_of_true ⟨0, run_of_invalid hinvalid, .inl rfl⟩ (.inl hinvalid)
  have hvalid : ∀ a ∈ e.params.zip args, a.1.type.valid a.2 = true := by
    intro a ha
    by_contra hv
    exact hinvalid ⟨a, ha, Bool.eq_false_iff.2 hv⟩
  have hrun := run_of_valid hok hvalid
  have hmem : (opCube e.op).Mem (rvInstMatch e.op ||| operandBits (fieldValues (rvInstCodec e.op) (e.record args))) :=
    word_mem hok.mask fun a ha => (hok.fields a ha).imp_right record_get_of_forall_ne
  have hdecode : ∀ x, HasOp x e.op → decodeInst x _ = decodeInstType { op := e.op } _ := fun x hx => by
    rw [decodeInst, hok.tree x hx _ hmem]
  constructor
  · rintro ⟨inst, hinst, hzero | ⟨-, hexact⟩⟩
    · rw [hrun] at hinst
      have hzero := (Option.some.inj hinst).trans hzero
      exact absurd (Nat.or_eq_zero_iff.1 hzero).1 hok.match_ne
    · obtain rfl := Option.some.inj (hrun.symm.trans hinst)
      obtain ⟨-, hargs⟩ := hexact .rv128 hok.exists_op
      refine .inr fun a ha => (get_decodeInst_iff hok hlen hvalid ha).1 ?_
      rw [← hdecode .rv128 hok.exists_op]
      exact hargs a ha
  · rintro (hv | hstore)
    · exact absurd hv hinvalid
    · refine ⟨_, hrun, .inr ⟨⟨.rv128, hok.exists_op⟩, fun x hx => ⟨?_, fun a ha => ?_⟩⟩⟩
      · rw [hdecode x hx]
        exact decodeInstType_op _ _
      · rw [hdecode x hx]
        exact (get_decodeInst_iff hok hlen hvalid ha).2 (hstore a ha)

end Valid

end Function

/-- An emitter returns 0 or a word that decodes to its opcode and its arguments just where it rejects an argument or can
store them: an `lui` or `auipc` immediate in multiples of 4096, the offset of a jump or branch in multiples of 2, and no
immediate but 0 for `csrrwi`, `csrrsi` and `csrrci`. -/
theorem emit_exact_iff (e : Emit) (he : e ∈ all) (args : List (BitVec 64)) (hlen : args.length = e.params.length) :
    e.Exact args ↔ e.Storable args := (ok_of_mem he).exact_iff hlen

/-- `beq` 16 bytes on. -/
theorem emit_exact_iff_beq : beq.Exact [10, 11, 16] := by
  refine (emit_exact_iff beq (by decide) [10, 11, 16] rfl).2 (.inr fun a ha => ?_)
  revert a
  decide

/-- `csrrwi ra, mstatus, 1` -/
theorem not_exact_csrrwi : ¬ csrrwi.Exact [1, 1, 0x300] := by
  rw [(ok_of_mem (by decide : csrrwi ∈ all)).exact_iff rfl]
  rintro (⟨a, ha, hv⟩ | hstore)
  · revert a
    decide
  · have hzero := hstore (⟨.uimm 5, .imm⟩, 1) (by decide)
    exact absurd hzero (by decide)

end Emit

end Rv8.Asm
