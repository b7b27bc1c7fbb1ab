import Mathlib.Data.Nat.Bitwise
import Mathlib.Data.List.Pairwise
/-!
# Decision trees over the bits of a word

A tree of tests, each comparing some bits of a word with a constant. What a
path through the tree says about the word is a cube: a set of bits with known
values. `allPaths` checks a predicate on every leaf a cube of words can reach.
-/

namespace Rv8.Lib.BitTree

/-! ## Cubes -/

/-- The words whose bits under `mask` are `val`. -/
structure Cube where
  mask : Nat
  val : Nat
deriving DecidableEq, Repr

def Cube.Mem (c : Cube) (w : Nat) : Prop := w &&& c.mask = c.val

instance (c : Cube) (w : Nat) : Decidable (c.Mem w) := inferInstanceAs (Decidable (_ = _))

/-- All words. -/
def Cube.top : Cube := ⟨0, 0⟩

def Cube.inter (c t : Cube) : Cube := ⟨c.mask ||| t.mask, c.val ||| t.val⟩

/-- The two cubes fix some bit to different values. -/
def Cube.conflicts (c t : Cube) : Bool := c.val &&& t.mask != t.val &&& c.mask

/-- The bits `c` fixes include those `t` fixes, with the same values. -/
def Cube.implies (c t : Cube) : Bool := t.mask &&& c.mask == t.mask && c.val &&& t.mask == t.val

theorem Cube.mem_top (w : Nat) : Cube.top.Mem w := by simp [Cube.top, Cube.Mem]

theorem Cube.mem_inter {c t : Cube} {w : Nat} (hc : c.Mem w) (ht : t.Mem w) : (c.inter t).Mem w := by
  simp only [Cube.Mem, Cube.inter] at hc ht ⊢
  rw [Nat.and_or_distrib_left, hc, ht]

theorem Cube.not_mem_of_conflicts {c t : Cube} {w : Nat} (h : c.conflicts t = true) (hc : c.Mem w) :
    ¬ t.Mem w := by
  intro ht
  simp only [Cube.Mem, Cube.conflicts, bne_iff_ne, ne_eq] at hc ht h
  apply h
  rw [← hc, ← ht, Nat.and_assoc, Nat.and_assoc, Nat.and_comm c.mask]

theorem Cube.mem_of_implies {c t : Cube} {w : Nat} (h : c.implies t = true) (hc : c.Mem w) : t.Mem w := by
  simp only [Cube.Mem, Cube.implies, Bool.and_eq_true, beq_iff_eq] at hc h ⊢
  obtain ⟨hm, hv⟩ := h
  rw [← hv, ← hc, Nat.and_assoc, Nat.and_comm c.mask, hm]

/-! ## Selectors -/

/-- An expression `((w >> s₁) & m₁) | ((w >> s₂) & m₂) | ...`, as its list of shifts and masks. -/
abbrev Sel := List (Nat × Nat)

def Sel.eval (s : Sel) (w : Nat) : Nat := s.foldr (fun p acc => (w >>> p.1) &&& p.2 ||| acc) 0

/-- The bits of the result that the selector can set. -/
def Sel.range (s : Sel) : Nat := s.foldr (fun p acc => p.2 ||| acc) 0

/-- The words on which the selector gives `v`. -/
def Sel.cube (s : Sel) (v : Nat) : Cube :=
  ⟨s.foldr (fun p acc => p.2 <<< p.1 ||| acc) 0, s.foldr (fun p acc => (v &&& p.2) <<< p.1 ||| acc) 0⟩

/-- No two parts share a result bit or a word bit, and `v` is a possible result. -/
def Sel.wf (s : Sel) (v : Nat) : Bool :=
  decide (s.Pairwise (fun p q => p.2 &&& q.2 = 0)) && decide (s.Pairwise (fun p q => (p.2 <<< p.1) &&& (q.2 <<< q.1) = 0)) &&
    v &&& s.range == v

theorem testBit_foldr_or {α : Type} (l : List α) (f : α → Nat) (j : Nat) :
    (l.foldr (fun a acc => f a ||| acc) 0).testBit j = true ↔ ∃ a ∈ l, (f a).testBit j = true := by
  induction l with
  | nil => simp
  | cons a l ih => rw [List.foldr_cons, Nat.testBit_or, Bool.or_eq_true, ih]; simp

theorem Sel.testBit_eval (s : Sel) (w j : Nat) :
    (s.eval w).testBit j = true ↔ ∃ p ∈ s, p.2.testBit j = true ∧ w.testBit (p.1 + j) = true := by
  rw [Sel.eval, testBit_foldr_or]
  simp [and_comm]

/-- Parts whose images under `f` share a bit are the same part. -/
theorem part_unique {s : Sel} {f : Nat × Nat → Nat} (hd : s.Pairwise (fun p q => f p &&& f q = 0)) {p q : Nat × Nat}
    (hp : p ∈ s) (hq : q ∈ s) {j : Nat} (hpj : (f p).testBit j = true) (hqj : (f q).testBit j = true) : p = q := by
  by_contra hne
  have : Std.Symm (fun p q : Nat × Nat => f p &&& f q = 0) := ⟨fun a b h => by rw [Nat.and_comm]; exact h⟩
  have h0 := congrArg (fun x => x.testBit j) (List.Pairwise.forall hd hp hq hne)
  simp [hpj, hqj] at h0

theorem Sel.testBit_mask (s : Sel) (v i : Nat) :
    (s.cube v).mask.testBit i = true ↔ ∃ p ∈ s, p.1 ≤ i ∧ p.2.testBit (i - p.1) = true := by
  simp only [Sel.cube]
  rw [testBit_foldr_or]
  simp

theorem Sel.testBit_val (s : Sel) (v i : Nat) :
    (s.cube v).val.testBit i = true ↔
      ∃ p ∈ s, p.1 ≤ i ∧ v.testBit (i - p.1) = true ∧ p.2.testBit (i - p.1) = true := by
  simp only [Sel.cube]
  rw [testBit_foldr_or]
  simp

theorem Sel.mem_cube_eval {s : Sel} (hd : s.Pairwise (fun p q => p.2 &&& q.2 = 0)) (w : Nat) :
    (s.cube (s.eval w)).Mem w := by
  apply Nat.eq_of_testBit_eq
  intro i
  rw [Bool.eq_iff_iff, Nat.testBit_and, Bool.and_eq_true, Sel.testBit_mask, Sel.testBit_val]
  constructor
  · rintro ⟨hw, p, hp, hpi, hm⟩
    refine ⟨p, hp, hpi, (Sel.testBit_eval s w _).2 ⟨p, hp, hm, ?_⟩, hm⟩
    rwa [show p.1 + (i - p.1) = i by omega]
  · rintro ⟨p, hp, hpi, he, hm⟩
    obtain ⟨q, hq, hqm, hw⟩ := (Sel.testBit_eval s w _).1 he
    -- `q` sets the same result bit as `p`, so it is `p`
    obtain rfl := part_unique hd hp hq hm hqm
    exact ⟨by rwa [show p.1 + (i - p.1) = i by omega] at hw, p, hp, hpi, hm⟩

theorem Sel.eval_of_mem_cube {s : Sel} {v w : Nat} (hd : s.Pairwise (fun p q => (p.2 <<< p.1) &&& (q.2 <<< q.1) = 0))
    (hr : v &&& s.range = v) (hc : (s.cube v).Mem w) : s.eval w = v := by
  have hbit : ∀ i, (w.testBit i && (s.cube v).mask.testBit i) = (s.cube v).val.testBit i := by
    intro i
    rw [← Nat.testBit_and, show w &&& (s.cube v).mask = (s.cube v).val from hc]
  have hrange : ∀ j, v.testBit j = true → ∃ p ∈ s, p.2.testBit j = true := by
    intro j hj
    rw [← hr, Nat.testBit_and, Bool.and_eq_true, Sel.range, testBit_foldr_or] at hj
    exact hj.2
  apply Nat.eq_of_testBit_eq
  intro j
  rw [Bool.eq_iff_iff, Sel.testBit_eval]
  constructor
  · rintro ⟨p, hp, hm, hw⟩
    have hb := hbit (p.1 + j)
    rw [hw, (Sel.testBit_mask ..).2 ⟨p, hp, by omega, by rwa [Nat.add_sub_cancel_left]⟩] at hb
    obtain ⟨q, hq, hqi, hv, hqm⟩ := (Sel.testBit_val ..).1 hb.symm
    -- `q` reads the same word bit as `p`, so it is `p`
    obtain rfl := part_unique hd hp hq (j := p.1 + j) (by simpa using hm) (by simp [hqi, hqm])
    rwa [Nat.add_sub_cancel_left] at hv
  · intro hv
    obtain ⟨p, hp, hm⟩ := hrange j hv
    have hb := hbit (p.1 + j)
    rw [(Sel.testBit_val ..).2 ⟨p, hp, by omega, by rwa [Nat.add_sub_cancel_left], by rwa [Nat.add_sub_cancel_left]⟩] at hb
    exact ⟨p, hp, hm, (Bool.and_eq_true _ _ ▸ hb : w.testBit _ = true ∧ _).1⟩

theorem Sel.eval_eq_iff {s : Sel} {v : Nat} (h : s.wf v = true) (w : Nat) :
    s.eval w = v ↔ (s.cube v).Mem w := by
  simp only [Sel.wf, Bool.and_eq_true, decide_eq_true_eq, beq_iff_eq] at h
  obtain ⟨⟨hd, hd'⟩, hr⟩ := h
  constructor
  · rintro rfl
    exact Sel.mem_cube_eval hd w
  · exact Sel.eval_of_mem_cube hd' hr

/-! ## Trees -/

/-- A tree of tests `sel = v` with a value at each leaf. -/
inductive Decision (α : Type) where
  | leaf (a : α)
  | test (sel : Sel) (v : Nat) (yes no : Decision α)

/-- A `switch` on `sel`: its cases in order, then the default. -/
def switch {α : Type} (sel : Sel) (cases : List (Nat × Decision α)) (default : Decision α) : Decision α :=
  cases.foldr (fun c rest => .test sel c.1 c.2 rest) default

variable {α : Type}

def Decision.eval (w : Nat) : Decision α → α
  | .leaf a => a
  | .test sel v yes no => if sel.eval w = v then yes.eval w else no.eval w

/-- Every test compares a selector with a value it can take. -/
def Decision.wf : Decision α → Bool
  | .leaf _ => true
  | .test sel v yes no => sel.wf v && yes.wf && no.wf

/-- `p` holds at every leaf that words of `c` can reach, with what the tests on the way say. -/
def Decision.allPaths (p : Cube → α → Bool) (c : Cube) : Decision α → Bool
  | .leaf a => p c a
  | .test sel v yes no =>
    let t := sel.cube v
    (c.conflicts t || yes.allPaths p (c.inter t)) && (c.implies t || no.allPaths p c)

/-- What `allPaths` checks holds of the leaf each word of the cube reaches. -/
theorem Decision.allPaths_sound {p : Cube → α → Bool} {t : Decision α} (hwf : t.wf = true) :
    ∀ {c : Cube}, t.allPaths p c = true → ∀ {w : Nat}, c.Mem w → ∃ c' : Cube, c'.Mem w ∧ p c' (t.eval w) = true := by
  induction t with
  | leaf a => intro c h w hw; exact ⟨c, hw, h⟩
  | test sel v yes no ihy ihn =>
    intro c h w hw
    simp only [Decision.wf, Bool.and_eq_true] at hwf
    obtain ⟨⟨hs, hy⟩, hn⟩ := hwf
    simp only [Decision.allPaths, Bool.and_eq_true, Bool.or_eq_true] at h
    obtain ⟨h1, h2⟩ := h
    by_cases hv : sel.eval w = v
    · have hm := (Sel.eval_eq_iff hs w).1 hv
      rw [Decision.eval, if_pos hv]
      exact ihy hy (h1.resolve_left fun hc => Cube.not_mem_of_conflicts hc hw hm) (Cube.mem_inter hw hm)
    · rw [Decision.eval, if_neg hv]
      exact ihn hn (h2.resolve_left fun hi => hv ((Sel.eval_eq_iff hs w).2 (Cube.mem_of_implies hi hw))) hw

end Rv8.Lib.BitTree
