import Mathlib.Algebra.Order.Ring.Int
import Mathlib.Tactic.NormNum
import Mathlib.Tactic.Positivity
import Mathlib.Tactic.Zify
import Rv8.Lib.Scatter
/-!
# Operands

The bit range templates `B`, `S` and `imm_operand_impl_t` of `types.h` and the
operands of `operands.h`. An operand reads its value from a few runs of bits of
the instruction word; `decode` and `encode` are shown to be `gather` and
`scatter` over those runs.
-/

namespace Rv8.Asm

open Rv8.Lib.Scatter

/-! ## Bit ranges -/

/-- `B<N,M>`: bits `n` down to `m` of the decoded value. -/
structure B where
  n : Nat
  m : Nat

def B.width (h : B) : Nat := h.n - h.m + 1

def B.mask (h : B) : Nat := (2 ^ (h.n + 1) - 1) ^^^ (2 ^ h.m - 1)

/-- `S<K,L,Args...>`: bits `k` down to `l` of the instruction hold the ranges `args`, highest first. -/
structure S where
  k : Nat
  l : Nat
  args : List B

def S.offset : List B → Nat
  | [] => 0
  | h :: t => S.offset t + h.width

def S.shift (l : Nat) (h : B) (t : List B) : Int := S.offset (h :: t) + l - h.width - h.m

def S.decodeArgs (l inst : Nat) : List B → Nat
  | [] => 0
  | h :: t =>
    ((if S.shift l h t < 0 then (inst <<< (-S.shift l h t).toNat) % 2 ^ 64 else inst >>> (S.shift l h t).toNat)
      &&& h.mask) ||| S.decodeArgs l inst t

def S.encodeArgs (l imm : Nat) : List B → Nat
  | [] => 0
  | h :: t =>
    (if S.shift l h t < 0 then (imm &&& h.mask) >>> (-S.shift l h t).toNat
      else ((imm &&& h.mask) <<< (S.shift l h t).toNat) % 2 ^ 64) ||| S.encodeArgs l imm t

def S.decode (s : S) (inst : Nat) : Nat := S.decodeArgs s.l inst s.args

def S.encode (s : S) (imm : Nat) : Nat := S.encodeArgs s.l imm s.args

/-- The runs that a segment's ranges occupy. -/
def S.pieces (l : Nat) : List B → List Piece
  | [] => []
  | h :: t => ⟨h.m, l + S.offset t, h.width⟩ :: S.pieces l t

/-- The bounds the templates assert: `N ≥ M`, and everything inside 64 bits. -/
def S.wf (s : S) : Bool := s.args.all (fun h => h.m ≤ h.n && h.n < 64) && s.l + S.offset s.args ≤ 64

theorem B.testBit_mask {h : B} (hm : h.m ≤ h.n) (j : Nat) : h.mask.testBit j = decide (h.m ≤ j ∧ j < h.m + h.width) := by
  rw [B.mask, Nat.testBit_xor, Nat.testBit_two_pow_sub_one, Nat.testBit_two_pow_sub_one, B.width]
  by_cases h1 : j < h.n + 1
  · by_cases h2 : j < h.m
    · simp [h1, h2]
    · simp [h1, h2, show h.m ≤ j by omega, show j < h.m + (h.n - h.m + 1) by omega]
  · simp [h1, show ¬ j < h.m by omega, show ¬ j < h.m + (h.n - h.m + 1) by omega]

theorem S.shift_eq (l : Nat) (h : B) (t : List B) : S.shift l h t = (l + S.offset t : Nat) - (h.m : Int) := by
  simp only [S.shift, S.offset]; push_cast; omega

theorem S.decodeArgs_eq {l inst : Nat} {args : List B} (ha : ∀ h ∈ args, h.m ≤ h.n ∧ h.n < 64) :
    S.decodeArgs l inst args = gather (S.pieces l args) inst := by
  induction args with
  | nil => rfl
  | cons h t ih =>
    have hc : gather (S.pieces l (h :: t)) inst =
        Piece.gather ⟨h.m, l + S.offset t, h.width⟩ inst ||| gather (S.pieces l t) inst := rfl
    obtain ⟨hm, hn⟩ := ha h (by simp)
    rw [hc, ← ih (fun b hb => ha b (by simp [hb])), S.decodeArgs]
    congr 1
    apply Nat.eq_of_testBit_eq
    intro j
    rw [Nat.testBit_and, B.testBit_mask hm, Piece.testBit_gather, S.shift_eq]
    by_cases hj : h.m ≤ j ∧ j < h.m + h.width
    · have hw : h.width = h.n - h.m + 1 := rfl
      simp only [hj, and_self, decide_true, Bool.and_true, Bool.true_and]
      -- the run moves up or down, as the sign of the shift says
      split
      · rw [Nat.testBit_mod_two_pow, Nat.testBit_shiftLeft]
        by_cases hs : (-((l + S.offset t : Nat) - (h.m : Int))).toNat ≤ j
        · simp only [hs, show j < 64 by omega, decide_true, Bool.true_and]
          congr 1; omega
        · omega
      · rw [Nat.testBit_shiftRight]
        congr 1; omega
    · simp [hj]

theorem S.encodeArgs_eq {l imm : Nat} {args : List B} (ha : ∀ h ∈ args, h.m ≤ h.n ∧ h.n < 64)
    (hl : l + S.offset args ≤ 64) : S.encodeArgs l imm args = scatter (S.pieces l args) imm := by
  induction args with
  | nil => rfl
  | cons h t ih =>
    have hc : scatter (S.pieces l (h :: t)) imm =
        Piece.gather ⟨l + S.offset t, h.m, h.width⟩ imm ||| scatter (S.pieces l t) imm := rfl
    obtain ⟨hm, hn⟩ := ha h (by simp)
    simp only [S.offset] at hl
    rw [hc, ← ih (fun b hb => ha b (by simp [hb])) (by omega), S.encodeArgs]
    congr 1
    apply Nat.eq_of_testBit_eq
    intro j
    rw [Piece.testBit_gather, S.shift_eq]
    by_cases hj : l + S.offset t ≤ j ∧ j < l + S.offset t + h.width
    · simp only [hj, and_self, decide_true, Bool.true_and]
      split
      · rw [Nat.testBit_shiftRight, Nat.testBit_and, B.testBit_mask hm,
          show (-((l + S.offset t : Nat) - (h.m : Int))).toNat + j = j - (l + S.offset t) + h.m by omega]
        simp [show h.m ≤ j - (l + S.offset t) + h.m by omega, show j - (l + S.offset t) + h.m < h.m + h.width by omega]
      · rw [Nat.testBit_mod_two_pow, Nat.testBit_shiftLeft, Nat.testBit_and, B.testBit_mask hm,
          show j - ((l + S.offset t : Nat) - (h.m : Int)).toNat = j - (l + S.offset t) + h.m by omega]
        simp only [show h.m ≤ j - (l + S.offset t) + h.m by omega, show j - (l + S.offset t) + h.m < h.m + h.width by omega,
          show j < 64 by omega, show j ≥ ((l + S.offset t : Nat) - (h.m : Int)).toNat by omega, decide_true, and_self,
          Bool.true_and, Bool.and_true]
    -- below or above the run the mask leaves nothing
    · rw [decide_eq_false hj, Bool.false_and]
      split
      · rw [Nat.testBit_shiftRight, Nat.testBit_and, B.testBit_mask hm, decide_eq_false (by omega), Bool.and_false]
      · rw [Nat.testBit_mod_two_pow, Nat.testBit_shiftLeft, Nat.testBit_and, B.testBit_mask hm]
        by_cases hs : j ≥ ((l + S.offset t : Nat) - (h.m : Int)).toNat
        · rw [show decide (h.m ≤ _ ∧ _) = false from decide_eq_false (by omega), Bool.and_false, Bool.and_false, Bool.and_false]
        · rw [decide_eq_false hs, Bool.false_and, Bool.and_false]

theorem and_or_self (a b : Nat) : a &&& b ||| b = b := by
  apply Nat.eq_of_testBit_eq
  intro j
  rw [Nat.testBit_or, Nat.testBit_and]
  cases b.testBit j <;> simp

theorem S.args_of_wf {s : S} (h : s.wf = true) : ∀ b ∈ s.args, b.m ≤ b.n ∧ b.n < 64 := by
  simp only [S.wf, Bool.and_eq_true, List.all_eq_true, decide_eq_true_eq] at h
  exact h.1

theorem S.offset_of_wf {s : S} (h : s.wf = true) : s.l + S.offset s.args ≤ 64 := by
  simp only [S.wf, Bool.and_eq_true, decide_eq_true_eq] at h
  exact h.2

/-! ## Operands -/

def operandPieces (segs : List S) : List Piece := segs.flatMap fun s => S.pieces s.l s.args

theorem operandPieces_cons (s : S) (segs : List S) :
    operandPieces (s :: segs) = S.pieces s.l s.args ++ operandPieces segs := rfl

/-- The lowest bit of the value that the segments carry. -/
def lowBit (w : Nat) (segs : List S) : Nat := (segs.flatMap S.args).foldr (fun h acc => min h.m acc) w

/-- What every operand of `operands.h` satisfies: its runs carry each value bit from the lowest to
`w - 1` once, and lie at different places of the word. -/
def OperandOk (isSigned : Bool) (w : Nat) (segs : List S) : Prop :=
  segs.all S.wf = true ∧ ValueDisjoint (operandPieces segs) ∧ WordDisjoint (operandPieces segs) ∧
    valueMask (operandPieces segs) = (2 ^ (w - lowBit w segs) - 1) <<< lowBit w segs ∧
    lowBit w segs < w ∧ w ≤ if isSigned then 32 else 31

instance (isSigned : Bool) (w : Nat) (segs : List S) : Decidable (OperandOk isSigned w segs) :=
  inferInstanceAs (Decidable (_ ∧ _ ∧ _ ∧ _ ∧ _ ∧ _))

/-- `simm_operand_t<W,Args...>` and `uimm_operand_t<W,Args...>`. -/
structure ImmOperand where
  isSigned : Bool
  w : Nat
  segs : List S
  ok : OperandOk isSigned w segs := by decide

def simmOperand (w : Nat) (segs : List S) (ok : OperandOk true w segs := by decide) : ImmOperand := ⟨true, w, segs, ok⟩

def uimmOperand (w : Nat) (segs : List S) (ok : OperandOk false w segs := by decide) : ImmOperand := ⟨false, w, segs, ok⟩

def signExtend (w x : Nat) : Int := Int.bmod x (2 ^ w)

namespace ImmOperand

def implDecode (o : ImmOperand) (inst : Nat) : Nat := o.segs.foldr (fun h acc => acc ||| h.decode inst) 0

def decode (o : ImmOperand) (inst : Nat) : Int :=
  if o.isSigned then signExtend o.w (o.implDecode inst) else o.implDecode inst

/-- The argument is converted to `u64` first. -/
def encode (o : ImmOperand) (imm : Int) : Nat := o.segs.foldr (fun h acc => acc ||| h.encode (imm % 2 ^ 64).toNat) 0

def pieces (o : ImmOperand) : List Piece := operandPieces o.segs

/-- The bits of the instruction word that the operand occupies. -/
def field (o : ImmOperand) : Nat := wordMask o.pieces

def low (o : ImmOperand) : Nat := lowBit o.w o.segs

/-- The values the operand can hold. -/
def Fits (o : ImmOperand) (v : Int) : Prop :=
  (if o.isSigned then -2 ^ (o.w - 1) ≤ v ∧ v < 2 ^ (o.w - 1) else 0 ≤ v ∧ v < 2 ^ o.w) ∧ (2 ^ o.low : Int) ∣ v

instance (o : ImmOperand) (v : Int) : Decidable (o.Fits v) :=
  inferInstanceAs (Decidable ((if o.isSigned then _ ∧ _ else _ ∧ _) ∧ _))

/-! ## Decoding and encoding undo each other -/

variable (o : ImmOperand)

theorem implDecode_eq (inst : Nat) : o.implDecode inst = gather o.pieces inst := by
  obtain ⟨hs, -⟩ := o.ok
  unfold implDecode pieces
  generalize o.segs = segs at hs
  induction segs with
  | nil => rfl
  | cons s segs ih =>
    simp only [List.all_cons, Bool.and_eq_true] at hs
    rw [List.foldr_cons, ih hs.2, operandPieces_cons, gather_append, Nat.or_comm, S.decode,
      S.decodeArgs_eq (S.args_of_wf hs.1)]

theorem encode_eq (imm : Int) : o.encode imm = scatter o.pieces (imm % 2 ^ 64).toNat := by
  obtain ⟨hs, -⟩ := o.ok
  unfold encode pieces
  generalize o.segs = segs at hs
  induction segs with
  | nil => rfl
  | cons s segs ih =>
    simp only [List.all_cons, Bool.and_eq_true] at hs
    rw [List.foldr_cons, ih hs.2, operandPieces_cons, scatter_append, Nat.or_comm, S.encode,
      S.encodeArgs_eq (S.args_of_wf hs.1) (S.offset_of_wf hs.1)]

theorem valueDisjoint : ValueDisjoint o.pieces := o.ok.2.1

theorem wordDisjoint : WordDisjoint o.pieces := o.ok.2.2.1

theorem low_lt : o.low < o.w := o.ok.2.2.2.2.1

theorem w_le : o.w ≤ 32 := by
  have h := o.ok.2.2.2.2.2
  split at h <;> omega

/-- The value bits an operand carries are those from `low` up to `w`. -/
theorem testBit_valueMask_pieces (j : Nat) : (valueMask o.pieces).testBit j = decide (o.low ≤ j ∧ j < o.w) := by
  have hl := o.low_lt
  rw [pieces, o.ok.2.2.2.1]
  change ((2 ^ (o.w - o.low) - 1) <<< o.low).testBit j = _
  rw [Nat.testBit_shiftLeft, Nat.testBit_two_pow_sub_one, ← Bool.decide_and, decide_eq_decide]
  omega

theorem and_valueMask_congr {v v' : Nat} (h : v % 2 ^ o.w = v' % 2 ^ o.w) :
    v &&& valueMask o.pieces = v' &&& valueMask o.pieces := by
  apply Nat.eq_of_testBit_eq
  intro j
  rw [Nat.testBit_and, Nat.testBit_and, testBit_valueMask_pieces]
  by_cases hj : o.low ≤ j ∧ j < o.w
  · have := congrArg (fun x => x.testBit j) h
    simp only [Nat.testBit_mod_two_pow, hj, decide_true, Bool.true_and] at this
    rw [this]
  · rw [decide_eq_false hj, Bool.and_false, Bool.and_false]

theorem and_valueMask_of_dvd {v : Nat} (h : 2 ^ o.low ∣ v) : v &&& valueMask o.pieces = v % 2 ^ o.w := by
  apply Nat.eq_of_testBit_eq
  intro j
  rw [Nat.testBit_and, testBit_valueMask_pieces, Nat.testBit_mod_two_pow]
  by_cases hj : o.low ≤ j
  · simp [hj, Bool.and_comm]
  · obtain ⟨q, rfl⟩ := h
    rw [Nat.mul_comm, ← Nat.shiftLeft_eq, Nat.testBit_shiftLeft]
    simp [hj]

/-- Values equal modulo `2 ^ w` are encoded alike. -/
theorem encode_congr {v v' : Int} (h : v % 2 ^ o.w = v' % 2 ^ o.w) : o.encode v = o.encode v' := by
  rw [encode_eq, encode_eq]
  apply scatter_congr
  apply o.and_valueMask_congr
  have hd : (2 ^ o.w : Int) ∣ 2 ^ 64 := pow_dvd_pow 2 (by have := o.w_le; omega)
  zify
  rw [Int.toNat_of_nonneg (Int.emod_nonneg _ (by norm_num)), Int.toNat_of_nonneg (Int.emod_nonneg _ (by norm_num)),
    Int.emod_emod_of_dvd _ hd, Int.emod_emod_of_dvd _ hd, h]

theorem implDecode_lt (inst : Nat) : o.implDecode inst < 2 ^ o.w := by
  rw [implDecode_eq]
  apply Nat.lt_pow_two_of_testBit
  intro j hj
  rw [← gather_and_valueMask, Nat.testBit_and, testBit_valueMask_pieces, decide_eq_false (by omega), Bool.and_false]

theorem dvd_implDecode (inst : Nat) : 2 ^ o.low ∣ o.implDecode inst := by
  rw [implDecode_eq]
  apply two_pow_dvd_gather
  apply Nat.eq_of_testBit_eq
  intro j
  rw [Nat.testBit_mod_two_pow, testBit_valueMask_pieces, Nat.zero_testBit, ← Bool.decide_and]
  exact decide_eq_false (by omega)

theorem decode_emod (inst : Nat) : o.decode inst % 2 ^ o.w = o.implDecode inst := by
  have h := o.implDecode_lt inst
  have he : ((o.implDecode inst : Nat) : Int) % (2 ^ o.w : Nat) = o.implDecode inst :=
    Int.emod_eq_of_lt (by omega) (by exact_mod_cast h)
  push_cast at he
  unfold decode
  split
  · rw [signExtend]
    have hb := Int.bmod_emod (x := o.implDecode inst) (m := 2 ^ o.w)
    push_cast at hb
    rw [hb, he]
  · exact he

/-- Encoding a decoded operand gives back the bits of its field. -/
theorem encode_decode (inst : Nat) : o.encode (o.decode inst) = inst &&& o.field := by
  have hn : o.decode inst % 2 ^ o.w = (gather o.pieces inst : Int) % 2 ^ o.w := by
    rw [decode_emod, implDecode_eq, ← implDecode_eq, Int.emod_eq_of_lt (by omega)]
    exact_mod_cast o.implDecode_lt inst
  have hlt : gather o.pieces inst < 2 ^ 64 := by
    rw [← implDecode_eq]
    exact (o.implDecode_lt inst).trans_le (Nat.pow_le_pow_right (by omega) (by have := o.w_le; omega))
  rw [o.encode_congr hn, encode_eq, Int.emod_eq_of_lt (by omega) (by exact_mod_cast hlt), Int.toNat_natCast,
    scatter_gather o.valueDisjoint, field]

theorem fits_decode (inst : Nat) : o.Fits (o.decode inst) := by
  have hlt := o.implDecode_lt inst
  have hd := o.dvd_implDecode inst
  have hw : 2 ^ o.w = 2 * 2 ^ (o.w - 1) := by
    rw [← pow_succ', show o.w - 1 + 1 = o.w by have := o.low_lt; omega]
  unfold Fits
  refine ⟨?_, ?_⟩
  · unfold decode
    split
    · have h1 := Int.le_bmod (x := o.implDecode inst) (m := 2 ^ o.w) (by positivity)
      have h2 := Int.bmod_lt (x := o.implDecode inst) (m := 2 ^ o.w) (by positivity)
      rw [signExtend]
      push_cast [hw] at h1 h2 ⊢
      omega
    · exact ⟨by omega, by exact_mod_cast hlt⟩
  · -- the value differs from a multiple of `2 ^ low` by a multiple of `2 ^ w`
    have h := Int.emod_add_mul_ediv (o.decode inst) (2 ^ o.w)
    rw [decode_emod] at h
    rw [← h]
    refine Dvd.dvd.add (by exact_mod_cast hd) (Dvd.dvd.mul_right (pow_dvd_pow 2 o.low_lt.le) _)

/-- The bits of a multiple of `2 ^ low` come back, up to the width. -/
theorem implDecode_encode {v : Int} (hd : (2 ^ o.low : Int) ∣ v) : (o.implDecode (o.encode v) : Int) = v % 2 ^ o.w := by
  have hdvd : (2 ^ o.w : Int) ∣ 2 ^ 64 := pow_dvd_pow 2 (by have := o.w_le; omega)
  have hl : (2 ^ o.low : Int) ∣ 2 ^ 64 := (pow_dvd_pow 2 o.low_lt.le).trans hdvd
  have hdv : 2 ^ o.low ∣ (v % 2 ^ 64).toNat := by
    zify
    rw [Int.toNat_of_nonneg (Int.emod_nonneg _ (by norm_num)), Int.emod_def]
    exact dvd_sub hd (hl.mul_right _)
  rw [implDecode_eq, encode_eq, gather_scatter o.wordDisjoint, o.and_valueMask_of_dvd hdv]
  rw [Int.natCast_emod, Int.toNat_of_nonneg (Int.emod_nonneg _ (by norm_num)), Int.natCast_pow]
  exact Int.emod_emod_of_dvd _ hdvd

/-- Decoding an encoded value that fits gives the value back. -/
theorem decode_encode {v : Int} (h : o.Fits v) : o.decode (o.encode v) = v := by
  obtain ⟨hr, hd⟩ := h
  have hw : (2 : Int) ^ o.w = 2 * 2 ^ (o.w - 1) := by
    rw [← pow_succ', show o.w - 1 + 1 = o.w by have := o.low_lt; omega]
  have himpl := o.implDecode_encode hd
  unfold decode
  split at hr
  · -- the sign extension of `v % 2 ^ w` is the value in range
    rename_i hs
    rw [if_pos hs, signExtend, himpl]
    have hb := Int.emod_bmod v (2 ^ o.w)
    push_cast at hb
    rw [hb]
    refine Int.bmod_eq_of_le ?_ ?_ <;> push_cast [hw] <;> omega
  · rename_i hs
    rw [if_neg hs, himpl, Int.emod_eq_of_lt hr.1 hr.2]

theorem decode_congr {inst inst' : Nat} (h : inst &&& o.field = inst' &&& o.field) : o.decode inst = o.decode inst' := by
  unfold decode
  rw [implDecode_eq, implDecode_eq, gather_congr h]

theorem encode_and_field (v : Int) : o.encode v &&& o.field = o.encode v := by
  rw [encode_eq, field, scatter_and_wordMask]

theorem encode_zero : o.encode 0 = 0 := by
  rw [encode_eq]
  exact gather_zero _

/-! ## Several operands of one word -/

def fields (os : List ImmOperand) : Nat := os.foldr (fun o acc => o.field ||| acc) 0

theorem fields_and_field {os : List ImmOperand} {o : ImmOperand} (ho : o ∈ os) : fields os &&& o.field = o.field := by
  induction os with
  | nil => cases ho
  | cons p os ih =>
    change (p.field ||| fields os) &&& o.field = o.field
    rw [Nat.and_or_distrib_right]
    rcases List.mem_cons.1 ho with rfl | ho
    · rw [Nat.and_self, Nat.or_comm, and_or_self]
    · rw [ih ho, and_or_self]

theorem fields_and_field_of_disjoint {os : List ImmOperand} {o : ImmOperand} (hd : ∀ p ∈ os, o.field &&& p.field = 0) :
    fields os &&& o.field = 0 := by
  induction os with
  | nil => simp [fields]
  | cons p os ih =>
    change (p.field ||| fields os) &&& o.field = 0
    rw [Nat.and_or_distrib_right, ih fun q hq => hd q (by simp [hq]), Nat.and_comm, hd p (by simp)]
    rfl

/-- Operands with disjoint fields can hold any values that fit, all at once. -/
theorem exists_word {l : List (ImmOperand × Int)} (hd : (l.map Prod.fst).Pairwise fun o p => o.field &&& p.field = 0)
    (hf : ∀ a ∈ l, a.1.Fits a.2) :
    ∃ inst, (∀ a ∈ l, a.1.decode inst = a.2) ∧ inst &&& fields (l.map Prod.fst) = inst := by
  induction l with
  | nil => exact ⟨0, by simp, by simp⟩
  | cons a l ih =>
    rw [List.map_cons, List.pairwise_cons] at hd
    obtain ⟨hda, hdl⟩ := hd
    obtain ⟨inst, hdec, hin⟩ := ih hdl fun b hb => hf b (by simp [hb])
    refine ⟨a.1.encode a.2 ||| inst, ?_, ?_⟩
    · intro b hb
      rcases List.mem_cons.1 hb with rfl | hb
      · refine (b.1.decode_congr ?_).trans (b.1.decode_encode (hf b (by simp)))
        -- the rest of the word has no bit in the field of `b`
        rw [Nat.and_or_distrib_right, ← hin, Nat.and_assoc, fields_and_field_of_disjoint hda, Nat.and_zero, Nat.or_zero]
      · rw [← hdec b hb]
        apply b.1.decode_congr
        rw [Nat.and_or_distrib_right, ← encode_and_field, Nat.and_assoc,
          hda b.1 (List.mem_map_of_mem hb), Nat.and_zero, Nat.zero_or]
    · change (_ ||| inst) &&& (a.1.field ||| fields (l.map Prod.fst)) = _
      conv_rhs => rw [← encode_and_field, ← hin]
      apply Nat.eq_of_testBit_eq
      intro j
      have h1 := congrArg (fun x => x.testBit j) (a.1.encode_and_field a.2)
      have h2 := congrArg (fun x => x.testBit j) hin
      simp only [Nat.testBit_and, Nat.testBit_or] at h1 h2 ⊢
      cases h3 : (a.1.encode a.2).testBit j <;> cases h4 : inst.testBit j <;> simp_all

end ImmOperand

/-! ## The operands -/

def operandRd : ImmOperand := uimmOperand 5 [⟨11, 7, [⟨4, 0⟩]⟩]
def operandRs1 : ImmOperand := uimmOperand 5 [⟨19, 15, [⟨4, 0⟩]⟩]
def operandRs2 : ImmOperand := uimmOperand 5 [⟨24, 20, [⟨4, 0⟩]⟩]
def operandRs3 : ImmOperand := uimmOperand 5 [⟨31, 27, [⟨4, 0⟩]⟩]
def operandFrd : ImmOperand := uimmOperand 5 [⟨11, 7, [⟨4, 0⟩]⟩]
def operandFrs1 : ImmOperand := uimmOperand 5 [⟨19, 15, [⟨4, 0⟩]⟩]
def operandFrs2 : ImmOperand := uimmOperand 5 [⟨24, 20, [⟨4, 0⟩]⟩]
def operandFrs3 : ImmOperand := uimmOperand 5 [⟨31, 27, [⟨4, 0⟩]⟩]
def operandAq : ImmOperand := uimmOperand 1 [⟨26, 26, [⟨0, 0⟩]⟩]
def operandRl : ImmOperand := uimmOperand 1 [⟨25, 25, [⟨0, 0⟩]⟩]
def operandPred : ImmOperand := uimmOperand 4 [⟨27, 24, [⟨3, 0⟩]⟩]
def operandSucc : ImmOperand := uimmOperand 4 [⟨23, 20, [⟨3, 0⟩]⟩]
def operandRm : ImmOperand := uimmOperand 3 [⟨14, 12, [⟨2, 0⟩]⟩]
def operandImm20 : ImmOperand := simmOperand 32 [⟨31, 12, [⟨31, 12⟩]⟩]
def operandOimm20 : ImmOperand := simmOperand 32 [⟨31, 12, [⟨31, 12⟩]⟩]
def operandJimm20 : ImmOperand := simmOperand 21 [⟨31, 12, [⟨20, 20⟩, ⟨10, 1⟩, ⟨11, 11⟩, ⟨19, 12⟩]⟩]
def operandImm12 : ImmOperand := simmOperand 12 [⟨31, 20, [⟨11, 0⟩]⟩]
def operandOimm12 : ImmOperand := simmOperand 12 [⟨31, 20, [⟨11, 0⟩]⟩]
def operandCsr12 : ImmOperand := uimmOperand 12 [⟨31, 20, [⟨11, 0⟩]⟩]
def operandSimm12 : ImmOperand := simmOperand 12 [⟨31, 25, [⟨11, 5⟩]⟩, ⟨11, 7, [⟨4, 0⟩]⟩]
def operandSbimm12 : ImmOperand := simmOperand 13 [⟨31, 25, [⟨12, 12⟩, ⟨10, 5⟩]⟩, ⟨11, 7, [⟨4, 1⟩, ⟨11, 11⟩]⟩]
def operandZimm : ImmOperand := uimmOperand 5 [⟨19, 15, [⟨4, 0⟩]⟩]
def operandShamt5 : ImmOperand := uimmOperand 5 [⟨24, 20, [⟨4, 0⟩]⟩]
def operandShamt6 : ImmOperand := uimmOperand 6 [⟨25, 20, [⟨5, 0⟩]⟩]
def operandShamt7 : ImmOperand := uimmOperand 7 [⟨26, 20, [⟨6, 0⟩]⟩]
def operandCrd0 : ImmOperand := uimmOperand 1 [⟨12, 12, [⟨0, 0⟩]⟩]
def operandCrdq : ImmOperand := uimmOperand 3 [⟨4, 2, [⟨2, 0⟩]⟩]
def operandCrs1q : ImmOperand := uimmOperand 3 [⟨9, 7, [⟨2, 0⟩]⟩]
def operandCrs1rdq : ImmOperand := uimmOperand 3 [⟨9, 7, [⟨2, 0⟩]⟩]
def operandCrs2q : ImmOperand := uimmOperand 3 [⟨4, 2, [⟨2, 0⟩]⟩]
def operandCrd : ImmOperand := uimmOperand 5 [⟨11, 7, [⟨4, 0⟩]⟩]
def operandCrs1 : ImmOperand := uimmOperand 5 [⟨11, 7, [⟨4, 0⟩]⟩]
def operandCrs1rd : ImmOperand := uimmOperand 5 [⟨11, 7, [⟨4, 0⟩]⟩]
def operandCrs2 : ImmOperand := uimmOperand 5 [⟨6, 2, [⟨4, 0⟩]⟩]
def operandCfrdq : ImmOperand := uimmOperand 3 [⟨4, 2, [⟨2, 0⟩]⟩]
def operandCfrs2q : ImmOperand := uimmOperand 3 [⟨4, 2, [⟨2, 0⟩]⟩]
def operandCfrs2 : ImmOperand := uimmOperand 5 [⟨6, 2, [⟨4, 0⟩]⟩]
def operandCfrd : ImmOperand := uimmOperand 5 [⟨11, 7, [⟨4, 0⟩]⟩]
def operandCimmsh5 : ImmOperand := uimmOperand 5 [⟨6, 2, [⟨4, 0⟩]⟩]
def operandCimmsh6 : ImmOperand := uimmOperand 6 [⟨12, 12, [⟨5, 5⟩]⟩, ⟨6, 2, [⟨4, 0⟩]⟩]
def operandCimmi : ImmOperand := simmOperand 6 [⟨12, 12, [⟨5, 5⟩]⟩, ⟨6, 2, [⟨4, 0⟩]⟩]
def operandCnzimmi : ImmOperand := simmOperand 6 [⟨12, 12, [⟨5, 5⟩]⟩, ⟨6, 2, [⟨4, 0⟩]⟩]
def operandCimmui : ImmOperand := simmOperand 18 [⟨12, 12, [⟨17, 17⟩]⟩, ⟨6, 2, [⟨16, 12⟩]⟩]
def operandCimmlwsp : ImmOperand := uimmOperand 8 [⟨12, 12, [⟨5, 5⟩]⟩, ⟨6, 2, [⟨4, 2⟩, ⟨7, 6⟩]⟩]
def operandCimmldsp : ImmOperand := uimmOperand 9 [⟨12, 12, [⟨5, 5⟩]⟩, ⟨6, 2, [⟨4, 3⟩, ⟨8, 6⟩]⟩]
def operandCimmlqsp : ImmOperand := uimmOperand 10 [⟨12, 12, [⟨5, 5⟩]⟩, ⟨6, 2, [⟨4, 4⟩, ⟨9, 6⟩]⟩]
def operandCimm16sp : ImmOperand := simmOperand 10 [⟨12, 12, [⟨9, 9⟩]⟩, ⟨6, 2, [⟨4, 4⟩, ⟨6, 6⟩, ⟨8, 7⟩, ⟨5, 5⟩]⟩]
def operandCimmj : ImmOperand :=
  simmOperand 12 [⟨12, 2, [⟨11, 11⟩, ⟨4, 4⟩, ⟨9, 8⟩, ⟨10, 10⟩, ⟨6, 6⟩, ⟨7, 7⟩, ⟨3, 1⟩, ⟨5, 5⟩]⟩]
def operandCimmb : ImmOperand := simmOperand 9 [⟨12, 10, [⟨8, 8⟩, ⟨4, 3⟩]⟩, ⟨6, 2, [⟨7, 6⟩, ⟨2, 1⟩, ⟨5, 5⟩]⟩]
def operandCimmswsp : ImmOperand := uimmOperand 8 [⟨12, 7, [⟨5, 2⟩, ⟨7, 6⟩]⟩]
def operandCimmsdsp : ImmOperand := uimmOperand 9 [⟨12, 7, [⟨5, 3⟩, ⟨8, 6⟩]⟩]
def operandCimmsqsp : ImmOperand := uimmOperand 10 [⟨12, 7, [⟨5, 4⟩, ⟨9, 6⟩]⟩]
def operandCimm4spn : ImmOperand := uimmOperand 10 [⟨12, 5, [⟨5, 4⟩, ⟨9, 6⟩, ⟨2, 2⟩, ⟨3, 3⟩]⟩]
def operandCimmw : ImmOperand := uimmOperand 7 [⟨12, 10, [⟨5, 3⟩]⟩, ⟨6, 5, [⟨2, 2⟩, ⟨6, 6⟩]⟩]
def operandCimmd : ImmOperand := uimmOperand 8 [⟨12, 10, [⟨5, 3⟩]⟩, ⟨6, 5, [⟨7, 6⟩]⟩]
def operandCimmq : ImmOperand := uimmOperand 9 [⟨12, 10, [⟨5, 4⟩, ⟨8, 8⟩]⟩, ⟨6, 5, [⟨7, 6⟩]⟩]

end Rv8.Asm
