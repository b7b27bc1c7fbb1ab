import Rv8.Asm.Pseudo
/-!
# Addresses of instruction pairs

The disassembler remembers the last instructions that it printed. `decode_pairs` searches
them backwards for a `lui` or `auipc` that belongs to an instruction, and stops at the
first one whose `rd` is the register that the instruction reads. So it reports an address
just where the last instruction with that `rd` is the other half of a pair.
-/

namespace Rv8.Asm

/-- `struct disasm` -/
structure Disasm extends Decode where
  pc : BitVec 64 := 0
  inst : Nat := 0
deriving DecidableEq

inductive Rva
  | abs | pcrel
deriving DecidableEq

structure Rvx where
  op1 : RvOp
  op2 : RvOp
  addr : Rva

/-- The list ends where the array has `rva_none`. -/
def rvxConstraints : List Rvx :=
  [⟨.lui, .addi, .abs⟩, ⟨.auipc, .addi, .pcrel⟩, ⟨.auipc, .jalr, .pcrel⟩, ⟨.auipc, .ld, .pcrel⟩, ⟨.auipc, .lb, .pcrel⟩,
    ⟨.auipc, .lh, .pcrel⟩, ⟨.auipc, .lw, .pcrel⟩, ⟨.auipc, .lbu, .pcrel⟩, ⟨.auipc, .lhu, .pcrel⟩, ⟨.auipc, .lwu, .pcrel⟩,
    ⟨.auipc, .flw, .pcrel⟩, ⟨.auipc, .fld, .pcrel⟩, ⟨.auipc, .sd, .pcrel⟩, ⟨.auipc, .sb, .pcrel⟩, ⟨.auipc, .sh, .pcrel⟩,
    ⟨.auipc, .sw, .pcrel⟩, ⟨.auipc, .fsw, .pcrel⟩, ⟨.auipc, .fsd, .pcrel⟩]

def rvxInstructionBufferLen : Nat := 16

/-- The `switch` of `decode_pairs`. The sum of two immediates is an `int`, which is taken to wrap. -/
def Rva.decode (li dec : Disasm) (pcBias : BitVec 64) : Rva → BitVec 64
  | .abs => BitVec.ofInt 64 (s32 (li.imm + dec.imm))
  | .pcrel => li.pc - pcBias + BitVec.ofInt 64 li.imm + BitVec.ofInt 64 dec.imm

/-- The inner loop of `decode_pairs`, over the history from its end. -/
def Rvx.search (rvxi : Rvx) (dec : Disasm) (pcBias : BitVec 64) : List Disasm → Option (BitVec 64)
  | [] => none
  | li :: rest =>
    -- another primitive encountered
    if rvxi.op1 ≠ li.op ∧ dec.rs1 = li.rd then none
    -- not the right pair
    else if rvxi.op1 ≠ li.op ∨ dec.rs1 ≠ li.rd then rvxi.search dec pcBias rest
    else some (rvxi.addr.decode li dec pcBias)

/-- The address that is reported. The history has its latest instruction at the end. -/
def decodePairs (dec : Disasm) (decHist : List Disasm) (pcBias : BitVec 64) : Option (BitVec 64) :=
  rvxConstraints.findSome? fun rvxi => if rvxi.op2 = dec.op then rvxi.search dec pcBias decHist.reverse else none

/-- What `disasm_inst_print` does to the history: it is cleared on jump boundaries. -/
def remember (decHist : List Disasm) (dec : Disasm) : List Disasm :=
  let decHist := if dec.op = .jal ∨ dec.op = .jalr then [] else decHist
  let decHist := decHist ++ [dec]
  if decHist.length > rvxInstructionBufferLen then decHist.tail else decHist

/-! ## The printing loop -/

def decodeInstRv64 (dec : Decode) (inst : Nat) : Decode :=
  decompressInstRv64 (decodeInstType { dec with op := decodeInstOp Xlen.rv64.flags inst } inst)

/-- `decode_pseudo_inst` if that is asked for. -/
def Decode.lift (decodePseudo : Bool) (dec : Decode) : Decode :=
  if decodePseudo then (decodePseudoInst dec).getD dec else dec

/-- The locals of `print_disassembly`. -/
structure Printer where
  dec : Disasm := {}
  decHist : List Disasm := []
  pc : BitVec 64

namespace Printer

variable (decodePseudo : Bool)

/-- The record of the next instruction, which is decoded into the one before it. -/
def read (p : Printer) (inst : Nat) : Disasm :=
  { (decodeInstRv64 p.dec.toDecode inst).lift decodePseudo with pc := p.pc, inst }

def print (p : Printer) (inst : Nat) : Printer where
  dec := p.read decodePseudo inst
  decHist := remember p.decHist (p.read decodePseudo inst)
  pc := p.pc + BitVec.ofNat 64 (instLength inst)

/-- After instructions from an address on. -/
def after (pc : BitVec 64) (insts : List Nat) : Printer := insts.foldl (print decodePseudo) { pc }

theorem after_append (pc : BitVec 64) (insts : List Nat) (inst : Nat) :
    after decodePseudo pc (insts ++ [inst]) = (after decodePseudo pc insts).print decodePseudo inst := by
  rw [after, List.foldl_append]
  rfl

/-- What `decode_pairs` reports for the next instruction, without a bias. -/
def reports (p : Printer) (inst : Nat) : Option (BitVec 64) := decodePairs (p.read decodePseudo inst) p.decHist 0

end Printer

/-! ## The last assignment -/

/-- The last instruction of the history with `rd` as its register. -/
def lastDef (decHist : List Disasm) (rd : Nat) : Option Disasm := decHist.reverse.find? fun li => li.rd = rd

/-- The opcodes of a pair. -/
def Paired (op1 op2 : RvOp) : Prop := ∃ rvxi ∈ rvxConstraints, rvxi.op1 = op1 ∧ rvxi.op2 = op2

instance (op1 op2 : RvOp) : Decidable (Paired op1 op2) :=
  inferInstanceAs (Decidable (∃ rvxi ∈ rvxConstraints, rvxi.op1 = op1 ∧ rvxi.op2 = op2))

/-- The address of a pair. -/
def pairAddr (li dec : Disasm) (pcBias : BitVec 64) : BitVec 64 :=
  (if li.op = .lui then Rva.abs else .pcrel).decode li dec pcBias

theorem addr_of_mem : ∀ rvxi ∈ rvxConstraints, rvxi.addr = if rvxi.op1 = .lui then .abs else .pcrel := by decide

theorem upper_of_mem : ∀ rvxi ∈ rvxConstraints, rvxi.op1 = .lui ∨ rvxi.op1 = .auipc := by decide

theorem Paired.upper {op1 op2 : RvOp} (h : Paired op1 op2) : op1 = .lui ∨ op1 = .auipc := by
  obtain ⟨rvxi, hmem, rfl, rfl⟩ := h
  exact upper_of_mem rvxi hmem

section Search
variable {rvxi : Rvx} {dec li : Disasm} {decHist : List Disasm} {pcBias addr : BitVec 64}

/-- The search ends at the last assignment, with an address or without one. -/
theorem search_eq (rvxi : Rvx) (dec : Disasm) (pcBias : BitVec 64) (rest : List Disasm) :
    rvxi.search dec pcBias rest =
      (rest.find? fun li => li.rd = dec.rs1).bind fun li => if rvxi.op1 = li.op then some (rvxi.addr.decode li dec pcBias) else none := by
  induction rest with
  | nil => rfl
  | cons li rest ih =>
    rw [Rvx.search]
    by_cases hrd : li.rd = dec.rs1
    · rw [List.find?_cons_of_pos (by simpa using hrd), Option.bind_some]
      by_cases hop : rvxi.op1 = li.op
      · simp [hop, hrd]
      · simp [hop, hrd]
    · rw [List.find?_cons_of_neg (by simpa using hrd), if_neg fun h => hrd h.2.symm, if_pos (.inr (Ne.symm hrd)), ih]

theorem decodePairs_eq_some_iff : decodePairs dec decHist pcBias = some addr ↔
    ∃ li, lastDef decHist dec.rs1 = some li ∧ Paired li.op dec.op ∧ pairAddr li dec pcBias = addr := by
  have hfound {addr : BitVec 64} (h : decodePairs dec decHist pcBias = some addr) :
      ∃ li, lastDef decHist dec.rs1 = some li ∧ Paired li.op dec.op ∧ pairAddr li dec pcBias = addr := by
    obtain ⟨rvxi, hmem, hsearch⟩ := List.exists_of_findSome?_eq_some h
    by_cases hop2 : rvxi.op2 = dec.op
    · rw [if_pos hop2, search_eq] at hsearch
      obtain ⟨li, hli, haddr⟩ := Option.bind_eq_some_iff.1 hsearch
      by_cases hop1 : rvxi.op1 = li.op
      · rw [if_pos hop1] at haddr
        refine ⟨li, hli, ⟨rvxi, hmem, hop1, hop2⟩, ?_⟩
        rw [pairAddr, ← hop1, ← addr_of_mem rvxi hmem]
        exact Option.some.inj haddr
      · rw [if_neg hop1] at haddr
        cases haddr
    · rw [if_neg hop2] at hsearch
      cases hsearch
  refine ⟨hfound, ?_⟩
  rintro ⟨li, hli, ⟨rvxi, hmem, hop1, hop2⟩, rfl⟩
  have hsome : (decodePairs dec decHist pcBias).isSome = true := by
    refine List.findSome?_isSome_iff.2 ⟨rvxi, hmem, ?_⟩
    have hli' : decHist.reverse.find? (fun li => li.rd = dec.rs1) = some li := hli
    rw [if_pos hop2, search_eq, hli', Option.bind_some, if_pos hop1]
    rfl
  obtain ⟨addr, haddr⟩ := Option.isSome_iff_exists.1 hsome
  obtain ⟨li', hli', -, hpair⟩ := hfound haddr
  obtain rfl := Option.some.inj (hli.symm.trans hli')
  rw [haddr, hpair]

theorem lastDef_append {rd : Nat} (h : lastDef (decHist ++ [dec]) rd = some li) :
    dec.rd = rd ∧ li = dec ∨ dec.rd ≠ rd ∧ lastDef decHist rd = some li := by
  unfold lastDef at h
  rw [List.reverse_append, List.reverse_singleton, List.singleton_append] at h
  by_cases hrd : dec.rd = rd
  · rw [List.find?_cons_of_pos (by simpa using hrd)] at h
    exact .inl ⟨hrd, (Option.some.inj h).symm⟩
  · rw [List.find?_cons_of_neg (by simpa using hrd)] at h
    exact .inr ⟨hrd, h⟩

/-- Dropping the oldest instruction hides no later assignment. -/
theorem lastDef_of_tail {rd : Nat} (h : lastDef decHist.tail rd = some li) : lastDef decHist rd = some li := by
  cases decHist with
  | nil => exact h
  | cons first rest =>
    unfold lastDef at h ⊢
    rw [List.tail_cons] at h
    rw [List.reverse_cons, List.find?_append, h]
    rfl

/-- The last assignment after an instruction is that instruction or what it was before. -/
theorem lastDef_remember {rd : Nat} (h : lastDef (remember decHist dec) rd = some li) :
    dec.rd = rd ∧ li = dec ∨ dec.rd ≠ rd ∧ lastDef decHist rd = some li := by
  have hl : (if dec.op = .jal ∨ dec.op = .jalr then [] else decHist) = [] ∨
      (if dec.op = .jal ∨ dec.op = .jalr then [] else decHist) = decHist := by
    split
    · exact .inl rfl
    · exact .inr rfl
  unfold remember at h
  generalize (if dec.op = .jal ∨ dec.op = .jalr then [] else decHist) = l at hl h
  have happend : lastDef (l ++ [dec]) rd = some li := by
    dsimp only at h
    split at h
    · exact lastDef_of_tail h
    · exact h
  rcases hl with rfl | rfl
  · refine (lastDef_append happend).imp_right fun hnone => ?_
    cases hnone.2
  · exact lastDef_append happend

end Search

end Rv8.Asm
