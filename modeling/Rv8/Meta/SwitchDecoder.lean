import Rv8.Meta.CodecNode
/-!
# The printed decoder

`print_switch_decoder_node` of `gen-switch.cc` on the tree of the decoder generator, and
what the nested switch that it prints returns for an instruction. A `default` belongs to
its own switch alone: an instruction that meets no case further in is illegal, whatever a
less specific opcode in a `default` further out.
-/

namespace Rv8.Meta

open Rv8.Lib

/-! ## The code that is printed -/

/-- The template arguments, such as `rvc` and `rv32`. -/
structure Isa where
  ext : String → Bool
  width : Nat → Bool

/-- `if (rvc && rv32) op = rv_op_c_jal;` -/
structure Line where
  shortname : String
  width : Option Nat
  op : Opcode

def Line.holds (isa : Isa) (l : Line) : Bool := isa.ext l.shortname && l.width.all isa.width

/-- What stands in a case: lines joined by `else`, or another switch. -/
inductive Statement
  | lines (ls : List Line)
  | switch (expr : List Term) (labels : List (Option Nat)) (body : Option Nat → Statement)

/-- `opcode_isa_shortname` -/
def Opcode.shortname (o : Opcode) : String := o.extension.isaPrefix ++ o.extension.alphaCode.toString

def opcodeWidths (ops : List Opcode) : List Nat := (ops.flatMap fun o => o.allExtensions.map Extension.isaWidth).foldl pushNew []

/-- The lines for a list of opcodes: one for each if they differ in width, else one for the first. -/
def printLines (ops : List Opcode) : List Line :=
  let widths := opcodeWidths ops
  if 1 < ops.length ∧ ops.length = widths.length then ops.map fun o => ⟨o.shortname, some o.extension.isaWidth, o⟩
  else
    match ops with
    | [] => []
    | o :: _ => [⟨o.shortname, if widths.length = 1 then some o.extension.isaWidth else none, o⟩]

/-- A node without bits is printed as a switch only at the root; then it has no cases. -/
def printSwitchDecoderNode : CodecNode → Statement
  | .empty => .switch (bitmaskTerms []) [] fun _ => .lines []
  | .node bits vals valOpcodes valDecodes =>
    .switch (bitmaskTerms (bits.map Int.ofNat)) vals fun val =>
      if (valDecodes val).bits = [] then .lines (printLines (valOpcodes val)) else printSwitchDecoderNode (valDecodes val)

/-! ## What it returns -/

/-- `none` is an expression that is undefined; `some none` leaves `rv_op_illegal`. -/
def Statement.eval (isa : Isa) (inst : BitVec 64) : Statement → Option (Option Opcode)
  | .lines ls => some ((ls.find? (Line.holds isa)).map Line.op)
  | .switch expr labels body =>
    match evalTerms inst expr with
    | none => none
    | some v =>
      if some v.toNat ∈ labels then (body (some v.toNat)).eval isa inst
      else if none ∈ labels then (body none).eval isa inst
      else some none

/-- `generate_codec`: pseudo opcodes are not decoded. -/
def codecOpcodes (allOpcodes : List Opcode) : List Opcode := allOpcodes.filter fun o => !o.isPseudo

def startRows (ops : List Opcode) : List Row := ops.map fun o => ⟨o, 0⟩

def generateCodec (allOpcodes : List Opcode) : CodecNode :=
  generateCodecNode (kMaxInstructionWidth + 1) (startRows (codecOpcodes allOpcodes))

def decodeInstOp (allOpcodes : List Opcode) (isa : Isa) (inst : BitVec 64) : Option (Option Opcode) :=
  (printSwitchDecoderNode (generateCodec allOpcodes)).eval isa inst

/-! ## The rows left for an instruction -/

/-- The value of the instruction at the chosen bits. -/
def instVal (bits : List Nat) (inst : BitVec 64) : Nat := Digits.value (bits.map inst.getLsbD)

/-- The rows of the case for the instruction's value, or those of the default. -/
def branch (rows : List Row) (inst : BitVec 64) : List Row :=
  let val := some (instVal (columns rows) inst)
  if ∃ r ∈ rows, r.opcode.val (columns rows) = val then valRows (columns rows) rows val else valRows (columns rows) rows none

def left : (fuel : Nat) → List Row → BitVec 64 → List Row
  | 0, rows, _ => rows
  | fuel + 1, rows, inst => if columns rows = [] then rows else left fuel (branch rows inst) inst

def named (isa : Isa) (rows : List Row) : Option Opcode := ((printLines (rows.map Row.opcode)).find? (Line.holds isa)).map Line.op

theorem left_of_columns {rows : List Row} (h : columns rows = []) (fuel : Nat) (inst : BitVec 64) : left fuel rows inst = rows := by
  cases fuel with
  | zero => rfl
  | succ fuel => rw [left, if_pos h]

theorem bits_generateCodecNode (fuel : Nat) (rows : List Row) : (generateCodecNode (fuel + 1) rows).bits = columns rows := by
  unfold generateCodecNode
  by_cases h : columns rows = []
  · rw [h]
    rfl
  · simp only [if_neg h, CodecNode.bits]

/-- The switch expression is the value at the chosen columns. -/
theorem evalTerms_columns (rows : List Row) (inst : BitVec 64) :
    ∃ v, evalTerms inst (bitmaskTerms ((columns rows).map Int.ofNat)) = some v ∧ v.toNat = instVal (columns rows) inst := by
  have hsorted : ((columns rows).map Int.ofNat).Pairwise (· > ·) :=
    List.pairwise_map.2 ((columns_sorted rows).imp fun h => Int.ofNat_lt.2 h)
  have hbits : ∀ p ∈ (columns rows).map Int.ofNat, 0 ≤ p ∧ p < (64 : Nat) := by
    intro p hp
    obtain ⟨bit, hbit, rfl⟩ := List.mem_map.1 hp
    have hlt : bit < 32 := (mem_columns.1 hbit).1
    exact ⟨Int.natCast_nonneg bit, Int.ofNat_lt.2 (by omega)⟩
  obtain ⟨v, hv, hval⟩ := eval_bitmaskTerms inst (fun p hp => (hbits p hp).2) (shift_bitmaskTerms hsorted fun p hp => (hbits p hp).1)
  refine ⟨v, hv, ?_⟩
  rw [hval, List.map_map]
  rfl

theorem columns_nil : columns [] = [] := columns_eq_nil_iff.2 fun _ _ => rfl

theorem valRows_eq_nil {bits : List Nat} {rows : List Row} {val : Option Nat} (h : val ∉ vals bits rows) : valRows bits rows val = [] := by
  rw [valRows, List.map_eq_nil_iff, List.filter_eq_nil_iff]
  intro r hr hval
  exact h (mem_vals.2 ⟨r, hr, of_decide_eq_true hval⟩)

theorem branch_of_mem {rows : List Row} {inst : BitVec 64} (h : some (instVal (columns rows) inst) ∈ vals (columns rows) rows) :
    branch rows inst = valRows (columns rows) rows (some (instVal (columns rows) inst)) := if_pos (mem_vals.1 h)

theorem branch_of_not_mem {rows : List Row} {inst : BitVec 64} (h : some (instVal (columns rows) inst) ∉ vals (columns rows) rows) :
    branch rows inst = valRows (columns rows) rows none := if_neg (mt mem_vals.2 h)

/-- A case takes the rows of its value, the default those without one, and what neither takes has no rows left. -/
theorem eval_switch (isa : Isa) (inst : BitVec 64) {rows : List Row} (body : List Row → Statement)
    (hnil : (body []).eval isa inst = some none) :
    (Statement.switch (bitmaskTerms ((columns rows).map Int.ofNat)) (vals (columns rows) rows)
      fun val => body (valRows (columns rows) rows val)).eval isa inst = (body (branch rows inst)).eval isa inst := by
  obtain ⟨v, hv, hval⟩ := evalTerms_columns rows inst
  rw [Statement.eval, hv]
  dsimp only
  rw [hval]
  by_cases hmem : some (instVal (columns rows) inst) ∈ vals (columns rows) rows
  · rw [if_pos hmem, branch_of_mem hmem]
  · rw [if_neg hmem, branch_of_not_mem hmem]
    split
    · rfl
    · rename_i hdefault
      rw [valRows_eq_nil hdefault, hnil]

/-- What is printed in a case names the opcode for the rows left. -/
theorem eval_case (isa : Isa) (inst : BitVec 64) (fuel : Nat) (rows : List Row) :
    (if (generateCodecNode fuel rows).bits = [] then Statement.lines (printLines (rows.map Row.opcode))
      else printSwitchDecoderNode (generateCodecNode fuel rows)).eval isa inst = some (named isa (left fuel rows inst)) := by
  induction fuel generalizing rows with
  | zero => rfl
  | succ fuel ih =>
    rw [bits_generateCodecNode]
    by_cases h : columns rows = []
    · rw [if_pos h, left_of_columns h]
      rfl
    · rw [if_neg h, left, if_neg h, ← ih, generateCodecNode, if_neg h, printSwitchDecoderNode]
      refine eval_switch isa inst (fun rows => if (generateCodecNode fuel rows).bits = [] then
        Statement.lines (printLines (rows.map Row.opcode)) else printSwitchDecoderNode (generateCodecNode fuel rows)) ?_
      rw [ih, left_of_columns columns_nil]
      rfl

/-- The rows of the table that are left for an instruction. A table without a bit to match gets no case. -/
def rowsLeft (allOpcodes : List Opcode) (inst : BitVec 64) : List Row :=
  let rows := startRows (codecOpcodes allOpcodes)
  if columns rows = [] then [] else left (kMaxInstructionWidth + 1) rows inst

theorem decodeInstOp_eq (allOpcodes : List Opcode) (isa : Isa) (inst : BitVec 64) :
    decodeInstOp allOpcodes isa inst = some (named isa (rowsLeft allOpcodes inst)) := by
  have hcase := eval_case isa inst (kMaxInstructionWidth + 1) (startRows (codecOpcodes allOpcodes))
  rw [bits_generateCodecNode] at hcase
  unfold decodeInstOp generateCodec rowsLeft
  dsimp only
  by_cases h : columns (startRows (codecOpcodes allOpcodes)) = []
  · rw [if_pos h, generateCodecNode, if_pos h]
    rfl
  · rw [if_neg h] at hcase
    rw [if_neg h, hcase]

/-! ## What the decoder should return -/

def Opcode.Matches (o : Opcode) (inst : BitVec 64) : Prop := inst &&& o.mask = o.match

/-- The mask of the first strictly contains that of the second. -/
def MoreSpecific (o o' : Opcode) : Prop := o'.mask &&& o.mask = o'.mask ∧ o.mask ≠ o'.mask

instance (o o' : Opcode) : Decidable (MoreSpecific o o') := inferInstanceAs (Decidable (_ ∧ _))

def Candidate (width : Nat) (inst : BitVec 64) (o : Opcode) : Prop := o.includeIsa width = true ∧ o.Matches inst

instance (width : Nat) (inst : BitVec 64) (o : Opcode) : Decidable (Candidate width inst o) :=
  inferInstanceAs (Decidable (_ ∧ _ = _))

/-- No two opcodes available at the same width match a common word, except where one is more specific. -/
def Unambiguous (ops : List Opcode) : Prop :=
  ops.Pairwise fun o o' => ∀ width inst, Candidate width inst o → Candidate width inst o' → MoreSpecific o o' ∨ MoreSpecific o' o

/-- The most specific opcode at the width that matches the word. -/
def IsBest (ops : List Opcode) (width : Nat) (inst : BitVec 64) (o : Opcode) : Prop :=
  o ∈ ops ∧ Candidate width inst o ∧ ∀ o' ∈ ops, Candidate width inst o' → o' = o ∨ MoreSpecific o o'

instance (ops : List Opcode) (width : Nat) (inst : BitVec 64) (o : Opcode) : Decidable (IsBest ops width inst o) :=
  inferInstanceAs (Decidable (_ ∧ _ ∧ _))

/-- The most specific match if there is one, and illegal otherwise. -/
def Decodes (ops : List Opcode) (width : Nat) (inst : BitVec 64) : Option Opcode → Prop
  | some o => IsBest ops width inst o
  | none => ∀ o ∈ ops, ¬ Candidate width inst o

instance (ops : List Opcode) (width : Nat) (inst : BitVec 64) : (op : Option Opcode) → Decidable (Decodes ops width inst op)
  | some o => inferInstanceAs (Decidable (IsBest ops width inst o))
  | none => inferInstanceAs (Decidable (∀ o ∈ ops, ¬ Candidate width inst o))

/-- The decoder of one width, with all extensions. -/
def Isa.only (width : Nat) : Isa := ⟨fun _ => true, fun w => w = width⟩

/-- On the way of the word through the table, an opcode that matches it is not left in a default while other rows fix all
the chosen bits with its value there. -/
def Kept : (fuel : Nat) → List Row → BitVec 64 → Opcode → Prop
  | 0, _, _, _ => True
  | fuel + 1, rows, inst, o =>
    columns rows = [] ∨
      ((∃ r ∈ rows, r.opcode.val (columns rows) = some (instVal (columns rows) inst)) → ∀ bit ∈ columns rows, o.mask.getLsbD bit = true) ∧
        Kept fuel (branch rows inst) inst o

instance Kept.decidable : (fuel : Nat) → (rows : List Row) → (inst : BitVec 64) → (o : Opcode) → Decidable (Kept fuel rows inst o)
  | 0, _, _, _ => .isTrue trivial
  | fuel + 1, rows, inst, o =>
    haveI := Kept.decidable fuel (branch rows inst) inst o
    inferInstanceAs (Decidable (_ ∨ (_ → _) ∧ _))

def KeptByTable (ops : List Opcode) (inst : BitVec 64) (o : Opcode) : Prop :=
  columns (startRows ops) ≠ [] ∧ Kept (kMaxInstructionWidth + 1) (startRows ops) inst o

instance (ops : List Opcode) (inst : BitVec 64) (o : Opcode) : Decidable (KeptByTable ops inst o) :=
  inferInstanceAs (Decidable (_ ∧ _))

theorem MoreSpecific.trans {a b c : Opcode} (hab : MoreSpecific a b) (hbc : MoreSpecific b c) : MoreSpecific a c := by
  refine ⟨?_, fun hac => hab.2 ?_⟩
  · rw [← hbc.1, BitVec.and_assoc, hab.1]
  · rw [← hab.1, BitVec.and_comm, hac]
    exact hbc.1.symm

theorem MoreSpecific.irrefl (a : Opcode) : ¬ MoreSpecific a a := fun h => h.2 rfl

/-- Among the matches of a word there is a most specific one. -/
theorem exists_isBest {ops : List Opcode} (h : Unambiguous ops) {width : Nat} {inst : BitVec 64} (hmatch : ∃ o ∈ ops, Candidate width inst o) :
    ∃ o, IsBest ops width inst o := by
  induction ops with
  | nil =>
    obtain ⟨o, ho, -⟩ := hmatch
    cases ho
  | cons a ops ih =>
    obtain ⟨ha, hrest⟩ := List.pairwise_cons.1 h
    by_cases hcand : Candidate width inst a
    · by_cases hmore : ∃ o ∈ ops, Candidate width inst o
      · obtain ⟨b, hb, hbcand, hbest⟩ := ih hrest hmore
        rcases ha b hb width inst hcand hbcand with hab | hba
        · refine ⟨a, List.mem_cons_self, hcand, List.forall_mem_cons.2 ⟨fun _ => .inl rfl, fun o ho hocand => .inr ?_⟩⟩
          rcases hbest o ho hocand with rfl | hbo
          · exact hab
          · exact hab.trans hbo
        · exact ⟨b, List.mem_cons_of_mem a hb, hbcand, List.forall_mem_cons.2 ⟨fun _ => .inr hba, hbest⟩⟩
      · refine ⟨a, List.mem_cons_self, hcand, List.forall_mem_cons.2 ⟨fun _ => .inl rfl, fun o ho hocand => ?_⟩⟩
        exact absurd ⟨o, ho, hocand⟩ hmore
    · obtain ⟨o, ho, hocand⟩ := hmatch
      rcases List.mem_cons.1 ho with rfl | ho
      · exact absurd hocand hcand
      · obtain ⟨b, hb, hbcand, hbest⟩ := ih hrest ⟨o, ho, hocand⟩
        exact ⟨b, List.mem_cons_of_mem a hb, hbcand, List.forall_mem_cons.2 ⟨fun hacand => absurd hacand hcand, hbest⟩⟩

theorem IsBest.unique {ops : List Opcode} {width : Nat} {inst : BitVec 64} {o o' : Opcode} (h : IsBest ops width inst o)
    (h' : IsBest ops width inst o') : o' = o := by
  rcases h.2.2 o' h'.1 h'.2.1 with heq | hlt
  · exact heq
  · rcases h'.2.2 o h.1 h.2.1 with heq | hgt
    · exact heq.symm
    · exact absurd (hlt.trans hgt) (MoreSpecific.irrefl o)

theorem Opcode.val_of_matches {o : Opcode} {inst : BitVec 64} (h : o.Matches inst) (bits : List Nat) :
    o.val bits = if bits.all o.mask.getLsbD then some (instVal bits inst) else none := by
  rw [val_eq]
  split
  · rename_i hall
    refine congrArg (fun l => some (Digits.value l)) (List.map_congr_left fun bit hbit => ?_)
    have hmask := List.all_eq_true.1 hall bit hbit
    rw [← h, BitVec.getLsbD_and, hmask, Bool.and_true]
  · rfl

theorem mem_valRows {bits : List Nat} {rows : List Row} {val : Option Nat} {o : Opcode} :
    o ∈ (valRows bits rows val).map Row.opcode ↔ o ∈ rows.map Row.opcode ∧ o.val bits = val := by
  rw [valRows, List.map_map]
  simp only [List.mem_map, List.mem_filter, decide_eq_true_iff]
  constructor
  · rintro ⟨r, ⟨hr, hval⟩, rfl⟩
    exact ⟨⟨r, hr, rfl⟩, hval⟩
  · rintro ⟨⟨r, hr, rfl⟩, hval⟩
    exact ⟨r, ⟨hr, hval⟩, rfl⟩

theorem mem_branch_iff {rows : List Row} {inst : BitVec 64} {o : Opcode} (hmatch : o.Matches inst) (hmem : o ∈ rows.map Row.opcode) :
    o ∈ (branch rows inst).map Row.opcode ↔
      ((∃ r ∈ rows, r.opcode.val (columns rows) = some (instVal (columns rows) inst)) → ∀ bit ∈ columns rows, o.mask.getLsbD bit = true) := by
  have hval := Opcode.val_of_matches hmatch (columns rows)
  rw [← List.all_eq_true]
  by_cases hsome : ∃ r ∈ rows, r.opcode.val (columns rows) = some (instVal (columns rows) inst)
  · rw [branch_of_mem (mem_vals.2 hsome), mem_valRows, hval, iff_true_intro hsome, iff_true_intro hmem, true_and, true_implies]
    exact Option.ite_none_right_eq_some.trans (and_iff_left rfl)
  · rw [branch_of_not_mem (mt mem_vals.1 hsome), mem_valRows, hval]
    refine iff_of_true ⟨hmem, if_neg fun hall => hsome ?_⟩ fun h => absurd h hsome
    obtain ⟨r, hr, rfl⟩ := List.mem_map.1 hmem
    exact ⟨r, hr, hval.trans (if_pos hall)⟩

theorem mem_of_mem_left {fuel : Nat} {rows : List Row} {inst : BitVec 64} {o : Opcode} (h : o ∈ (left fuel rows inst).map Row.opcode) :
    o ∈ rows.map Row.opcode := by
  induction fuel generalizing rows with
  | zero => exact h
  | succ fuel ih =>
    rw [left] at h
    split at h
    · exact h
    · have hbranch := ih h
      unfold branch at hbranch
      dsimp only at hbranch
      split at hbranch
      · exact (mem_valRows.1 hbranch).1
      · exact (mem_valRows.1 hbranch).1

theorem mem_left_iff {fuel : Nat} {rows : List Row} {inst : BitVec 64} {o : Opcode} (hmatch : o.Matches inst) (hmem : o ∈ rows.map Row.opcode) :
    o ∈ (left fuel rows inst).map Row.opcode ↔ Kept fuel rows inst o := by
  induction fuel generalizing rows with
  | zero => exact iff_of_true hmem trivial
  | succ fuel ih =>
    rw [left, Kept]
    by_cases hcolumns : columns rows = []
    · rw [if_pos hcolumns]
      exact iff_of_true hmem (.inl hcolumns)
    · rw [if_neg hcolumns, or_iff_right hcolumns, ← mem_branch_iff hmatch hmem]
      exact ⟨fun hleft => ⟨mem_of_mem_left hleft, (ih (mem_of_mem_left hleft)).1 hleft⟩, fun h => (ih h.1).2 h.2⟩

theorem mem_printLines {ops : List Opcode} {l : Line} (h : l ∈ printLines ops) : l.op ∈ ops := by
  unfold printLines at h
  dsimp only at h
  split at h
  · obtain ⟨o, ho, rfl⟩ := List.mem_map.1 h
    exact ho
  · cases ops with
    | nil => cases h
    | cons o ops =>
      obtain rfl := List.mem_singleton.1 h
      exact List.mem_cons_self

theorem mem_named {isa : Isa} {rows : List Row} {o : Opcode} (h : named isa rows = some o) : o ∈ rows.map Row.opcode := by
  obtain ⟨l, hl, rfl⟩ := Option.map_eq_some_iff.1 h
  exact mem_printLines (List.mem_of_find?_eq_some hl)

/-- A choice among some opcodes of a table is right if the best match is one of them, and it is the best of those. -/
theorem decodes_iff_left {ops rest : List Opcode} (h : Unambiguous ops) {width : Nat} {inst : BitVec 64} {op : Option Opcode}
    (hrest : ∀ o ∈ rest, o ∈ ops) (hop : ∀ o, op = some o → o ∈ rest) :
    Decodes ops width inst op ↔ (∀ o, IsBest ops width inst o → o ∈ rest) ∧ Decodes rest width inst op := by
  have hbest (hmatch : ∃ o ∈ ops, Candidate width inst o) (hkept : ∀ o, IsBest ops width inst o → o ∈ rest) :
      ∃ b, IsBest ops width inst b ∧ b ∈ rest := by
    obtain ⟨b, hb⟩ := exists_isBest h hmatch
    exact ⟨b, hb, hkept b hb⟩
  cases op with
  | none =>
    constructor
    · intro hnone
      exact ⟨fun o ho => absurd ho.2.1 (hnone o ho.1), fun o ho => hnone o (hrest o ho)⟩
    · rintro ⟨hkept, hnone⟩ o ho hcand
      obtain ⟨b, hb, hleft⟩ := hbest ⟨o, ho, hcand⟩ hkept
      exact hnone b hleft hb.2.1
  | some m =>
    have hm := hop m rfl
    constructor
    · intro hmbest
      refine ⟨fun o ho => ?_, hm, hmbest.2.1, fun o ho => hmbest.2.2 o (hrest o ho)⟩
      rw [hmbest.unique ho]
      exact hm
    · rintro ⟨hkept, -, hmcand, hmbest⟩
      obtain ⟨b, hb, hleft⟩ := hbest ⟨m, hrest m hm, hmcand⟩ hkept
      -- the best of the table is left, so it is the best of those left
      rcases hmbest b hleft hb.2.1 with rfl | hmb
      · exact hb
      · rcases hb.2.2 m (hrest m hm) hmcand with rfl | hbm
        · exact hb
        · exact absurd (hmb.trans hbm) (MoreSpecific.irrefl m)

theorem map_startRows (ops : List Opcode) : (startRows ops).map Row.opcode = ops := by
  rw [startRows, List.map_map]
  exact List.map_id ops

theorem mem_rowsLeft {allOpcodes : List Opcode} {inst : BitVec 64} {o : Opcode} (h : o ∈ (rowsLeft allOpcodes inst).map Row.opcode) :
    o ∈ codecOpcodes allOpcodes := by
  unfold rowsLeft at h
  dsimp only at h
  split at h
  · cases h
  · rw [← map_startRows (codecOpcodes allOpcodes)]
    exact mem_of_mem_left h

theorem mem_rowsLeft_iff {allOpcodes : List Opcode} {inst : BitVec 64} {o : Opcode} (hmatch : o.Matches inst)
    (hmem : o ∈ codecOpcodes allOpcodes) :
    o ∈ (rowsLeft allOpcodes inst).map Row.opcode ↔ KeptByTable (codecOpcodes allOpcodes) inst o := by
  rw [← map_startRows (codecOpcodes allOpcodes)] at hmem
  unfold rowsLeft KeptByTable
  dsimp only
  split
  · rename_i hnil
    exact iff_of_false List.not_mem_nil fun h => h.1 hnil
  · rename_i hcolumns
    rw [and_iff_right hcolumns]
    exact mem_left_iff hmatch hmem

/-- Opcodes that match a common word agree on the bits that both fix. -/
theorem unambiguous_of_pairwise {ops : List Opcode}
    (h : ops.Pairwise fun o o' => MoreSpecific o o' ∨ MoreSpecific o' o ∨ o.match &&& o'.mask ≠ o'.match &&& o.mask) : Unambiguous ops := by
  refine h.imp fun {o o'} hoo' width inst hcand hcand' => ?_
  rcases hoo' with hmore | hmore | hdiffer
  · exact .inl hmore
  · exact .inr hmore
  · refine absurd ?_ hdiffer
    rw [← hcand.2, ← hcand'.2, BitVec.and_assoc, BitVec.and_assoc, BitVec.and_comm o.mask]

/-- An opcode that fixes the lowest bit, and two that fix it with more bits. The second of these fixes bit 2, the third bit 3,
and they differ in bit 1. -/
def nestedTable : List Opcode :=
  [.ofMasks "general" ⟨"rv", 32, 'i'⟩ [] [(⟨0, 0⟩, 1)] (by decide),
    .ofMasks "low" ⟨"rv", 32, 'i'⟩ [] [(⟨2, 0⟩, 5)] (by decide),
    .ofMasks "high" ⟨"rv", 32, 'i'⟩ [] [(⟨3, 3⟩, 1), (⟨1, 0⟩, 3)] (by decide)]

theorem unambiguous_nestedTable : Unambiguous (codecOpcodes nestedTable) := unambiguous_of_pairwise (by decide)

end Rv8.Meta
