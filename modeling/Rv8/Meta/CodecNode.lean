import Mathlib.Data.List.Sort
import Rv8.Meta.Bitmask
/-!
# The decoder generator's tree

`generate_codec_node` of `rv-meta.cc`. A node takes the columns of the opcode table that
are fixed in most of its rows and were not taken before, and sends each row to the branch
of its value there. A row that does not fix all of the columns goes to the default
branch, and the columns count as done for it as for the others.
-/

namespace Rv8.Meta

open Rv8.Lib

/-! ## The opcode table -/

structure Extension where
  isaPrefix : String
  isaWidth : Nat
  alphaCode : Char
deriving DecidableEq

def kMaxInstructionWidth : Nat := 32

/-- `generate_map` for one opcode: its mask and match from the ranges of bits with their values. -/
def generateMap (masks : List (Bitrange × BitVec 64)) : BitVec 64 × BitVec 64 :=
  masks.foldl (fun acc m =>
    m.1.positions.foldl (fun acc bit =>
      (acc.1 ||| 1#64 <<< bit.toNat, acc.2 ||| ((m.2 >>> (bit - m.1.lsb).toNat) &&& 1#64) <<< bit.toNat)) acc) (0, 0)

/-- A pair of 32 bits as `generate_map` makes them, and an extension as `parse_opcode` demands it. -/
structure Opcode where
  name : String
  extension : Extension
  extensions : List Extension
  mask : BitVec 64
  «match» : BitVec 64
  mask_lt : mask.toNat < 2 ^ kMaxInstructionWidth
  match_sub : «match» &&& mask = «match»
deriving DecidableEq

namespace Opcode

def isPseudo (o : Opcode) : Bool := o.name.toList.head? = some '@'

/-- `extensions.front()` is `extension`; the other ones follow it. -/
def allExtensions (o : Opcode) : List Extension := o.extension :: o.extensions

def includeIsa (o : Opcode) (width : Nat) : Bool := o.allExtensions.any fun ext => ext.isaWidth = width

end Opcode

/-- A value sets bits of the match only where the mask has them. -/
theorem generateMap_sub (masks : List (Bitrange × BitVec 64)) : (generateMap masks).2 &&& (generateMap masks).1 = (generateMap masks).2 := by
  have hstep (acc : BitVec 64 × BitVec 64) (v : BitVec 64) (bit : Nat) (h : acc.2 &&& acc.1 = acc.2) :
      (acc.2 ||| (v &&& 1#64) <<< bit) &&& (acc.1 ||| 1#64 <<< bit) = acc.2 ||| (v &&& 1#64) <<< bit := by
    refine BitVec.eq_of_getLsbD_eq fun i _ => ?_
    have hi := congrArg (fun b => b.getLsbD i) h
    simp only [BitVec.getLsbD_and, BitVec.getLsbD_or, BitVec.getLsbD_shiftLeft] at hi ⊢
    grind
  refine List.foldlRecOn (motive := fun acc : BitVec 64 × BitVec 64 => acc.2 &&& acc.1 = acc.2) masks _ rfl fun acc hacc m _ => ?_
  refine List.foldlRecOn (motive := fun acc : BitVec 64 × BitVec 64 => acc.2 &&& acc.1 = acc.2) m.1.positions _ hacc
    fun acc hacc bit _ => ?_
  exact hstep acc _ bit.toNat hacc

def Opcode.ofMasks (name : String) (extension : Extension) (extensions : List Extension) (masks : List (Bitrange × BitVec 64))
    (h : (generateMap masks).1.toNat < 2 ^ kMaxInstructionWidth) : Opcode :=
  ⟨name, extension, extensions, (generateMap masks).1, (generateMap masks).2, h, generateMap_sub masks⟩

/-! ## Columns -/

/-- An opcode of a list, with the bits that were visited for it. -/
structure Row where
  opcode : Opcode
  done : BitVec 64

/-- Rows that fix the column, if it is not done. -/
def sum (rows : List Row) (bit : Nat) : Nat := rows.countP fun r => r.opcode.mask.getLsbD bit && !r.done.getLsbD bit

/-- The bits of an instruction, from the highest down. -/
def instBits : List Nat := (List.range kMaxInstructionWidth).reverse

def maxRows (rows : List Row) : Nat := instBits.foldl (fun m bit => max m (sum rows bit)) 0

/-- The bits that cover the maximum number of rows. -/
def columns (rows : List Row) : List Nat := if maxRows rows = 0 then [] else instBits.filter fun bit => sum rows bit = maxRows rows

/-- The value of an opcode at the chosen bits; that of a partial match is `DEFAULT`, here `none`. -/
def Opcode.val (bits : List Nat) (o : Opcode) : Option Nat :=
  let val := bits.foldl (fun val bit => if o.mask.getLsbD bit then val <<< 1 ||| (o.match.getLsbD bit).toNat else val) 0
  if bits.all o.mask.getLsbD then some val else none

/-- `DEFAULT` is the greatest `ssize_t`. -/
def ValLe : Option Nat → Option Nat → Prop
  | some a, some b => a ≤ b
  | some _, none => True
  | none, none => True
  | none, some _ => False

instance : DecidableRel ValLe
  | some a, some b => inferInstanceAs (Decidable (a ≤ b))
  | some _, none => .isTrue trivial
  | none, none => .isTrue trivial
  | none, some _ => .isFalse id

/-- `push_back` of what `std::find` does not find -/
def pushNew {α : Type} [DecidableEq α] (l : List α) (a : α) : List α := if a ∈ l then l else l ++ [a]

def vals (bits : List Nat) (rows : List Row) : List (Option Nat) :=
  ((rows.map fun r => r.opcode.val bits).foldl pushNew []).insertionSort ValLe

/-- `done |= (1 << bit)` for each of the bits -/
def Row.mark (bits : List Nat) (r : Row) : Row := { r with done := bits.foldl (fun done bit => done ||| 1#64 <<< bit) r.done }

/-- `val_opcodes[val]`, with the bits of this node done. -/
def valRows (bits : List Nat) (rows : List Row) (val : Option Nat) : List Row :=
  (rows.filter fun r => r.opcode.val bits = val).map (Row.mark bits)

/-! ## The tree -/

/-- The maps of a node are functions of the value. A node that `clear` left, or that has no bits to match, is empty. -/
inductive CodecNode
  | empty
  | node (bits : List Nat) (vals : List (Option Nat)) (valOpcodes : Option Nat → List Opcode) (valDecodes : Option Nat → CodecNode)

def CodecNode.bits : CodecNode → List Nat
  | .empty => []
  | .node bits _ _ _ => bits

def generateCodecNode : (fuel : Nat) → List Row → CodecNode
  | 0, _ => .empty
  | fuel + 1, rows =>
    let bits := columns rows
    if bits = [] then .empty
    else
      .node bits (vals bits rows) (fun val => (valRows bits rows val).map Row.opcode) fun val =>
        generateCodecNode fuel (valRows bits rows val)

/-! ## What a node chooses -/

theorem mem_instBits {bit : Nat} : bit ∈ instBits ↔ bit < kMaxInstructionWidth := by
  rw [instBits, List.mem_reverse, List.mem_range]

theorem le_foldl_max (f : Nat → Nat) (l : List Nat) (m : Nat) : m ≤ l.foldl (fun m bit => max m (f bit)) m := by
  induction l generalizing m with
  | nil => exact le_rfl
  | cons bit l ih => exact (le_max_left _ _).trans (ih _)

theorem mem_le_foldl_max (f : Nat → Nat) {l : List Nat} (m : Nat) {bit : Nat} (h : bit ∈ l) :
    f bit ≤ l.foldl (fun m bit => max m (f bit)) m := by
  induction l generalizing m with
  | nil => cases h
  | cons b l ih =>
    rcases List.mem_cons.1 h with rfl | h
    · exact (le_max_right _ _).trans (le_foldl_max f l _)
    · exact ih _ h

theorem foldl_max_mem (f : Nat → Nat) {l : List Nat} {m : Nat} (h : l.foldl (fun m bit => max m (f bit)) m ≠ m) :
    ∃ bit ∈ l, f bit = l.foldl (fun m bit => max m (f bit)) m := by
  induction l generalizing m with
  | nil => exact absurd rfl h
  | cons b l ih =>
    by_cases hrest : l.foldl (fun m bit => max m (f bit)) (max m (f b)) = max m (f b)
    · refine ⟨b, List.mem_cons_self, ?_⟩
      rw [List.foldl_cons, hrest] at h ⊢
      omega
    · obtain ⟨bit, hbit, heq⟩ := ih hrest
      exact ⟨bit, List.mem_cons_of_mem b hbit, heq⟩

theorem mem_columns {rows : List Row} {bit : Nat} :
    bit ∈ columns rows ↔ bit < kMaxInstructionWidth ∧ 0 < sum rows bit ∧ sum rows bit = maxRows rows := by
  unfold columns
  split
  · rename_i hzero
    refine iff_of_false List.not_mem_nil ?_
    rintro ⟨-, hpos, heq⟩
    omega
  · rw [List.mem_filter, mem_instBits, decide_eq_true_iff]
    constructor
    · rintro ⟨hbit, heq⟩
      exact ⟨hbit, by omega, heq⟩
    · rintro ⟨hbit, -, heq⟩
      exact ⟨hbit, heq⟩

theorem columns_sorted (rows : List Row) : (columns rows).Pairwise (· > ·) := by
  unfold columns
  split
  · exact .nil
  · exact (List.pairwise_reverse.2 (List.pairwise_lt_range)).filter _

/-- Without a column to take, every row has all its bits done. -/
theorem columns_eq_nil_iff {rows : List Row} : columns rows = [] ↔ ∀ bit < kMaxInstructionWidth, sum rows bit = 0 := by
  constructor
  · intro hnil bit hbit
    by_contra hne
    have hle : sum rows bit ≤ maxRows rows := mem_le_foldl_max (sum rows) 0 (mem_instBits.2 hbit)
    have hmax : maxRows rows ≠ 0 := by omega
    obtain ⟨b, hb, heq⟩ := foldl_max_mem (sum rows) hmax
    have hmem : b ∈ columns rows := mem_columns.2 ⟨mem_instBits.1 hb, Nat.pos_of_ne_zero (heq ▸ hmax), heq⟩
    rw [hnil] at hmem
    cases hmem
  · intro hzero
    refine List.eq_nil_iff_forall_not_mem.2 fun bit hmem => ?_
    obtain ⟨hbit, hpos, -⟩ := mem_columns.1 hmem
    exact hpos.ne' (hzero bit hbit)

theorem Opcode.val_eq (bits : List Nat) (o : Opcode) :
    o.val bits = if bits.all o.mask.getLsbD then some (Digits.value (bits.map o.match.getLsbD)) else none := by
  unfold val
  dsimp only
  split
  · rename_i hall
    have hall := List.all_eq_true.1 hall
    rw [Digits.value, List.foldl_map]
    refine congrArg some (List.foldl_ext _ _ _ fun v bit hbit => ?_)
    have hlt : (o.match.getLsbD bit).toNat < 2 ^ 1 := Bool.toNat_lt _
    rw [if_pos (hall bit hbit), ← Nat.shiftLeft_add_eq_or_of_lt hlt, Nat.shiftLeft_eq, pow_one, Nat.mul_comm]
  · rfl

theorem mem_foldl_pushNew {α : Type} [DecidableEq α] {l acc : List α} {a : α} : a ∈ l.foldl pushNew acc ↔ a ∈ acc ∨ a ∈ l := by
  induction l generalizing acc with
  | nil => simp
  | cons b l ih =>
    rw [List.foldl_cons, ih, pushNew]
    split
    · rename_i hb
      grind
    · grind

theorem mem_vals {bits : List Nat} {rows : List Row} {val : Option Nat} :
    val ∈ vals bits rows ↔ ∃ r ∈ rows, r.opcode.val bits = val := by
  rw [vals, List.mem_insertionSort, mem_foldl_pushNew]
  simp

/-! ## The fuel -/

theorem Row.getLsbD_mark_done (bits : List Nat) (r : Row) (bit : Nat) :
    (r.mark bits).done.getLsbD bit = (r.done.getLsbD bit || decide (bit ∈ bits ∧ bit < 64)) := by
  unfold mark
  dsimp only
  generalize r.done = done
  induction bits generalizing done with
  | nil => simp
  | cons b bits ih =>
    have hone : (1#64 <<< b).getLsbD bit = decide (bit = b ∧ bit < 64) := by
      rw [← BitVec.twoPow_eq, BitVec.getLsbD_twoPow, Bool.eq_iff_iff]
      simp only [Bool.and_eq_true, decide_eq_true_eq]
      omega
    rw [List.foldl_cons, ih, BitVec.getLsbD_or, hone, Bool.or_assoc, ← Bool.decide_or]
    simp only [List.mem_cons, or_and_right]

theorem sum_valRows_le (bits : List Nat) (rows : List Row) (val : Option Nat) (bit : Nat) :
    sum (valRows bits rows val) bit ≤ sum rows bit := by
  rw [sum, valRows, List.countP_map]
  refine (List.countP_mono_left fun r _ hr => ?_).trans List.filter_sublist.countP_le
  rw [Function.comp_apply, Row.getLsbD_mark_done, Bool.not_or, ← Bool.and_assoc, Bool.and_eq_true] at hr
  exact hr.1

theorem sum_valRows_of_mem {bits : List Nat} (rows : List Row) (val : Option Nat) {bit : Nat} (h : bit ∈ bits) (hbit : bit < 64) :
    sum (valRows bits rows val) bit = 0 := by
  rw [sum, valRows, List.countP_map, List.countP_eq_zero]
  intro r _
  rw [Function.comp_apply, Row.getLsbD_mark_done, decide_eq_true ⟨h, hbit⟩, Bool.or_true, Bool.not_true, Bool.and_false]
  exact Bool.false_ne_true

/-- The columns that some row has left. -/
def live (rows : List Row) : Nat := instBits.countP fun bit => 0 < sum rows bit

theorem countP_lt_countP {α : Type} {p q : α → Bool} {l : List α} (hpq : ∀ a ∈ l, p a = true → q a = true) {a : α} (ha : a ∈ l)
    (hp : p a = false) (hq : q a = true) : l.countP p < l.countP q := by
  induction l with
  | nil => cases ha
  | cons b l ih =>
    have hle : l.countP p ≤ l.countP q := List.countP_mono_left fun c hc => hpq c (List.mem_cons_of_mem b hc)
    rw [List.countP_cons, List.countP_cons]
    rcases List.mem_cons.1 ha with rfl | ha
    · rw [hp, hq]
      exact Nat.lt_succ_of_le hle
    · have hlt := ih (fun c hc => hpq c (List.mem_cons_of_mem b hc)) ha
      have hb := hpq b List.mem_cons_self
      split <;> split <;> grind

theorem live_valRows_lt {rows : List Row} (h : columns rows ≠ []) (val : Option Nat) :
    live (valRows (columns rows) rows val) < live rows := by
  obtain ⟨bit, hmem⟩ := List.exists_mem_of_ne_nil _ h
  obtain ⟨hbit, hpos, -⟩ := mem_columns.1 hmem
  have hzero := sum_valRows_of_mem rows val hmem (hbit.trans (by decide))
  refine countP_lt_countP (fun b _ hb => ?_) (mem_instBits.2 hbit) ?_ (decide_eq_true hpos)
  · have hle := sum_valRows_le (columns rows) rows val b
    rw [decide_eq_true_iff] at hb ⊢
    omega
  · rw [hzero]
    rfl

/-- From one more than the columns left on, fuel makes no difference. -/
theorem generateCodecNode_add {rows : List Row} {fuel : Nat} (h : live rows < fuel) (k : Nat) :
    generateCodecNode (fuel + k) rows = generateCodecNode fuel rows := by
  induction fuel generalizing rows with
  | zero => exact absurd h (Nat.not_lt_zero _)
  | succ fuel ih =>
    rw [Nat.add_right_comm]
    unfold generateCodecNode
    dsimp only
    split
    · rfl
    · rename_i hcolumns
      refine congrArg (CodecNode.node _ _ _) (funext fun val => ?_)
      exact ih ((live_valRows_lt hcolumns val).trans_le (Nat.le_of_lt_succ h))

/-- With a fuel of one more than the bits of an instruction, the recursion of the source. -/
theorem generateCodecNode_eq (rows : List Row) :
    generateCodecNode (kMaxInstructionWidth + 1) rows =
      if columns rows = [] then .empty
      else
        .node (columns rows) (vals (columns rows) rows) (fun val => (valRows (columns rows) rows val).map Row.opcode) fun val =>
          generateCodecNode (kMaxInstructionWidth + 1) (valRows (columns rows) rows val) := by
  have hlive : live rows ≤ kMaxInstructionWidth := by
    refine List.countP_le_length.trans ?_
    rw [instBits, List.length_reverse, List.length_range]
  rw [generateCodecNode]
  split
  · rfl
  · rename_i hcolumns
    refine congrArg (CodecNode.node _ _ _) (funext fun val => ?_)
    have hlt := live_valRows_lt hcolumns val
    exact (generateCodecNode_add (hlt.trans_le hlive) 1).symm

end Rv8.Meta
