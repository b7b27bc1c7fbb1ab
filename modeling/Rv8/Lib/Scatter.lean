import Mathlib.Data.Nat.Bitwise
import Mathlib.Data.List.Pairwise
/-!
# Bit fields scattered over a word

A value whose bits lie in several runs of a word. `gather` collects the runs
into the value, `scatter` puts them back. The two undo each other on the bits
the runs cover, as long as no two runs overlap.
-/

namespace Rv8.Lib.Scatter

/-- A run of `width` bits: bit `lo + i` of the value is bit `pos + i` of the word. -/
structure Piece where
  lo : Nat
  pos : Nat
  width : Nat
deriving DecidableEq, Repr

/-- The same run with value and word exchanged. -/
def Piece.flip (p : Piece) : Piece := ⟨p.pos, p.lo, p.width⟩

def Piece.gather (p : Piece) (w : Nat) : Nat := ((w >>> p.pos) % 2 ^ p.width) <<< p.lo

/-- The bits of the value that `p` carries. -/
def Piece.valueMask (p : Piece) : Nat := (2 ^ p.width - 1) <<< p.lo

def gather (ps : List Piece) (w : Nat) : Nat := ps.foldr (fun p acc => p.gather w ||| acc) 0

def scatter (ps : List Piece) (v : Nat) : Nat := gather (ps.map Piece.flip) v

def valueMask (ps : List Piece) : Nat := ps.foldr (fun p acc => p.valueMask ||| acc) 0

def wordMask (ps : List Piece) : Nat := valueMask (ps.map Piece.flip)

/-- No two runs share a bit of the value. -/
def ValueDisjoint (ps : List Piece) : Prop :=
  ps.Pairwise (fun p q => p.lo + p.width ≤ q.lo ∨ q.lo + q.width ≤ p.lo)

instance (ps : List Piece) : Decidable (ValueDisjoint ps) :=
  inferInstanceAs (Decidable (List.Pairwise _ ps))

/-- No two runs share a bit of the word. -/
def WordDisjoint (ps : List Piece) : Prop := ValueDisjoint (ps.map Piece.flip)

instance (ps : List Piece) : Decidable (WordDisjoint ps) :=
  inferInstanceAs (Decidable (ValueDisjoint _))

@[simp] theorem Piece.flip_flip (p : Piece) : p.flip.flip = p := rfl

@[simp] theorem map_flip_flip (ps : List Piece) : (ps.map Piece.flip).map Piece.flip = ps := by
  induction ps with
  | nil => rfl
  | cons p ps ih => simp [ih]

/-! ## Bit by bit -/

theorem Piece.testBit_gather (p : Piece) (w j : Nat) :
    (p.gather w).testBit j = (decide (p.lo ≤ j ∧ j < p.lo + p.width) && w.testBit (j - p.lo + p.pos)) := by
  simp only [Piece.gather, Nat.testBit_shiftLeft, Nat.testBit_mod_two_pow, Nat.testBit_shiftRight]
  by_cases h : p.lo ≤ j
  · by_cases h' : j < p.lo + p.width
    · simp [h, h', show j - p.lo < p.width by omega, Nat.add_comm]
    · simp [h', show ¬ j - p.lo < p.width by omega]
  · simp [h]

theorem Piece.testBit_valueMask (p : Piece) (j : Nat) :
    p.valueMask.testBit j = decide (p.lo ≤ j ∧ j < p.lo + p.width) := by
  simp only [Piece.valueMask, Nat.testBit_shiftLeft, Nat.testBit_two_pow_sub_one]
  by_cases h : p.lo ≤ j
  · simp [h, show (j - p.lo < p.width) ↔ j < p.lo + p.width by omega]
  · simp [h]

theorem gather_append (ps qs : List Piece) (w : Nat) : gather (ps ++ qs) w = gather ps w ||| gather qs w := by
  induction ps with
  | nil => simp [gather]
  | cons p ps ih =>
    change p.gather w ||| gather (ps ++ qs) w = (p.gather w ||| gather ps w) ||| gather qs w
    rw [ih, Nat.or_assoc]

theorem scatter_append (ps qs : List Piece) (v : Nat) : scatter (ps ++ qs) v = scatter ps v ||| scatter qs v := by
  rw [scatter, List.map_append, gather_append]; rfl

theorem gather_zero (ps : List Piece) : gather ps 0 = 0 := by
  induction ps with
  | nil => rfl
  | cons p ps ih =>
    show p.gather 0 ||| gather ps 0 = 0
    rw [ih, Nat.or_zero, Piece.gather, Nat.zero_shiftRight, Nat.zero_mod, Nat.zero_shiftLeft]

theorem testBit_gather (ps : List Piece) (w j : Nat) :
    (gather ps w).testBit j = true ↔
      ∃ p ∈ ps, (p.lo ≤ j ∧ j < p.lo + p.width) ∧ w.testBit (j - p.lo + p.pos) = true := by
  induction ps with
  | nil => simp [gather]
  | cons p ps ih =>
    have hc : gather (p :: ps) w = p.gather w ||| gather ps w := rfl
    rw [hc, Nat.testBit_or, Bool.or_eq_true, ih, Piece.testBit_gather]
    simp

theorem testBit_valueMask (ps : List Piece) (j : Nat) :
    (valueMask ps).testBit j = true ↔ ∃ p ∈ ps, p.lo ≤ j ∧ j < p.lo + p.width := by
  induction ps with
  | nil => simp [valueMask]
  | cons p ps ih =>
    have hc : valueMask (p :: ps) = p.valueMask ||| valueMask ps := rfl
    rw [hc, Nat.testBit_or, Bool.or_eq_true, ih, Piece.testBit_valueMask]
    simp

theorem testBit_wordMask (ps : List Piece) (i : Nat) :
    (wordMask ps).testBit i = true ↔ ∃ p ∈ ps, p.pos ≤ i ∧ i < p.pos + p.width := by
  simp [wordMask, testBit_valueMask, Piece.flip]

/-- Runs that share a value bit are the same run. -/
theorem ValueDisjoint.eq_of_mem {ps : List Piece} (hd : ValueDisjoint ps) {p q : Piece}
    (hp : p ∈ ps) (hq : q ∈ ps) {j : Nat} (hpj : p.lo ≤ j ∧ j < p.lo + p.width)
    (hqj : q.lo ≤ j ∧ j < q.lo + q.width) : p = q := by
  by_contra hne
  have : Std.Symm (fun p q : Piece => p.lo + p.width ≤ q.lo ∨ q.lo + q.width ≤ p.lo) := ⟨fun _ _ h => h.symm⟩
  have := List.Pairwise.forall hd hp hq hne
  omega

/-! ## Round trips -/

/-- Scattering a gathered word leaves the word's bits under the runs. -/
theorem scatter_gather {ps : List Piece} (hd : ValueDisjoint ps) (w : Nat) :
    scatter ps (gather ps w) = w &&& wordMask ps := by
  apply Nat.eq_of_testBit_eq
  intro i
  rw [Bool.eq_iff_iff, scatter, testBit_gather, Nat.testBit_and, Bool.and_eq_true, testBit_wordMask]
  constructor
  · rintro ⟨p', hp', hi, hv⟩
    obtain ⟨p, hp, rfl⟩ := List.mem_map.1 hp'
    obtain ⟨q, hq, hj, hw⟩ := (testBit_gather ps w _).1 hv
    simp only [Piece.flip] at hi hj hw
    -- the value bit belongs to `p` as well, so `q` is `p`
    obtain rfl := hd.eq_of_mem hp hq (j := i - p.pos + p.lo) (by omega) hj
    exact ⟨by rwa [show i - p.pos + p.lo - p.lo + p.pos = i by omega] at hw, p, hp, hi⟩
  · rintro ⟨hw, p, hp, hi⟩
    refine ⟨p.flip, List.mem_map_of_mem hp, hi, ?_⟩
    refine (testBit_gather ps w _).2 ⟨p, hp, ?_, ?_⟩
    · simp only [Piece.flip]; omega
    · simpa only [Piece.flip, show i - p.pos + p.lo - p.lo + p.pos = i by omega] using hw

/-- Gathering a scattered value leaves the value's bits that the runs carry. -/
theorem gather_scatter {ps : List Piece} (hd : WordDisjoint ps) (v : Nat) :
    gather ps (scatter ps v) = v &&& valueMask ps := by
  have h := @scatter_gather (ps.map Piece.flip) hd v
  rwa [scatter, wordMask, map_flip_flip] at h

/-! ## Which bits matter -/

theorem gather_congr {ps : List Piece} {w w' : Nat} (h : w &&& wordMask ps = w' &&& wordMask ps) :
    gather ps w = gather ps w' := by
  have main : ∀ a b : Nat, a &&& wordMask ps = b &&& wordMask ps → ∀ j,
      (gather ps a).testBit j = true → (gather ps b).testBit j = true := by
    intro a b hab j hj
    obtain ⟨p, hp, hpj, ha⟩ := (testBit_gather ps a j).1 hj
    refine (testBit_gather ps b j).2 ⟨p, hp, hpj, ?_⟩
    have hm : (wordMask ps).testBit (j - p.lo + p.pos) = true :=
      (testBit_wordMask ps _).2 ⟨p, hp, by omega, by omega⟩
    have := congrArg (fun x => x.testBit (j - p.lo + p.pos)) hab
    simpa [Nat.testBit_and, hm, ha] using this.symm
  exact Nat.eq_of_testBit_eq fun j => Bool.eq_iff_iff.2 ⟨main w w' h j, main w' w h.symm j⟩

theorem scatter_congr {ps : List Piece} {v v' : Nat} (h : v &&& valueMask ps = v' &&& valueMask ps) :
    scatter ps v = scatter ps v' :=
  gather_congr (by rwa [wordMask, map_flip_flip])

theorem gather_and_valueMask (ps : List Piece) (w : Nat) : gather ps w &&& valueMask ps = gather ps w := by
  apply Nat.eq_of_testBit_eq
  intro j
  rw [Nat.testBit_and]
  cases h : (gather ps w).testBit j with
  | false => rfl
  | true =>
    obtain ⟨p, hp, hpj, -⟩ := (testBit_gather ps w j).1 h
    simp [(testBit_valueMask ps j).2 ⟨p, hp, hpj⟩]

theorem scatter_and_wordMask (ps : List Piece) (v : Nat) : scatter ps v &&& wordMask ps = scatter ps v :=
  gather_and_valueMask _ v

/-- A value gathered from bits above `k` is a multiple of `2 ^ k`. -/
theorem two_pow_dvd_gather {ps : List Piece} {k : Nat} (h : valueMask ps % 2 ^ k = 0) (w : Nat) :
    2 ^ k ∣ gather ps w := by
  apply Nat.dvd_of_mod_eq_zero
  apply Nat.eq_of_testBit_eq
  intro j
  rw [Nat.testBit_mod_two_pow, Nat.zero_testBit]
  by_cases hj : j < k
  · cases hg : (gather ps w).testBit j with
    | false => simp
    | true =>
      obtain ⟨p, hp, hpj, -⟩ := (testBit_gather ps w j).1 hg
      have hm := (testBit_valueMask ps j).2 ⟨p, hp, hpj⟩
      have := congrArg (fun x => x.testBit j) h
      simp [Nat.testBit_mod_two_pow, hj, hm] at this
  · simp [hj]

end Rv8.Lib.Scatter
