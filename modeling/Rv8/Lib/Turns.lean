import Mathlib.Data.Nat.Init
import Mathlib.Tactic.ByContra
/-!
# Loops with a budget

A loop takes turns until it is left, and a turn does some units of work or none. The
budget is kept if the loop is left before it has done more.
-/

namespace Rv8.Lib

/-- How a turn ends: the loop goes on, or is left, or the turn has no end. -/
inductive Turn (σ : Type)
  | next (work : Nat) (s : σ)
  | left (work : Nat) (s : σ)
  | stuck

/-- The turn comes after `done` units of work. -/
def Turn.after {σ : Type} (done : Nat) : Turn σ → Turn σ
  | .next work s => .next (done + work) s
  | .left work s => .left (done + work) s
  | .stuck => .stuck

section Turns
variable {σ : Type} (turn : Nat → σ → Turn σ)

/-- The first `n` turns as one. -/
def turns (s : σ) : Nat → Turn σ
  | 0 => .next 0 s
  | n + 1 =>
    match turns s n with
    | .next done s' => (turn n s').after done
    | t => t

/-- The loop is left, and at most `budget` units of work were done. -/
def LeftWithin (budget : Nat) (s : σ) : Prop := ∃ n work s', turns turn s n = .left work s' ∧ work ≤ budget

/-- From some turn on the loop goes on without doing any work. -/
def Idles (s : σ) : Prop := ∃ n done, ∀ m, n ≤ m → ∃ s', turns turn s m = .next done s'

variable {turn} {s : σ}

theorem turns_succ {n done : Nat} {s' : σ} (h : turns turn s n = .next done s') :
    turns turn s (n + 1) = (turn n s').after done := by
  rw [turns, h]

theorem turns_of_left {n work : Nat} {s' : σ} (h : turns turn s n = .left work s') (m : Nat) (hm : n ≤ m) :
    turns turn s m = .left work s' := by
  induction m, hm using Nat.le_induction with
  | base => exact h
  | succ m hm ih => rw [turns, ih]

theorem of_turns_succ_next {n done : Nat} {s' : σ} (h : turns turn s (n + 1) = .next done s') :
    ∃ done0 work s0, turns turn s n = .next done0 s0 ∧ turn n s0 = .next work s' ∧ done = done0 + work := by
  cases hn : turns turn s n with
  | next done0 s0 =>
    rw [turns_succ hn] at h
    cases ht : turn n s0 with
    | next work s1 =>
      rw [ht] at h
      obtain ⟨rfl, rfl⟩ := Turn.next.inj h
      exact ⟨done0, work, s0, rfl, ht, rfl⟩
    | left work s1 => rw [ht] at h; cases h
    | stuck => rw [ht] at h; cases h
  | left work s0 => rw [turns, hn] at h; cases h
  | stuck => rw [turns, hn] at h; cases h

theorem of_turns_succ_left {n done : Nat} {s' : σ} (h : turns turn s (n + 1) = .left done s') :
    turns turn s n = .left done s' ∨
      ∃ done0 work s0, turns turn s n = .next done0 s0 ∧ turn n s0 = .left work s' ∧ done = done0 + work := by
  cases hn : turns turn s n with
  | next done0 s0 =>
    rw [turns_succ hn] at h
    cases ht : turn n s0 with
    | next work s1 => rw [ht] at h; cases h
    | left work s1 =>
      rw [ht] at h
      obtain ⟨rfl, rfl⟩ := Turn.left.inj h
      exact .inr ⟨done0, work, s0, rfl, ht, rfl⟩
    | stuck => rw [ht] at h; cases h
  | left work s0 =>
    rw [turns, hn] at h
    exact .inl h
  | stuck => rw [turns, hn] at h; cases h

/-- No work is undone. -/
theorem turns_mono {n m done : Nat} {s0 : σ} (hn : turns turn s n = .next done s0) (hm : n ≤ m) :
    (∀ done' s', turns turn s m = .next done' s' → done ≤ done') ∧
      ∀ work s', turns turn s m = .left work s' → done ≤ work := by
  induction m, hm using Nat.le_induction with
  | base =>
    refine ⟨fun done' s' h => ?_, fun work s' h => ?_⟩
    · rw [hn] at h
      exact Nat.le_of_eq (Turn.next.inj h).1
    · rw [hn] at h
      cases h
  | succ m hm ih =>
    refine ⟨fun done' s' h => ?_, fun work s' h => ?_⟩
    · obtain ⟨done0, k, s1, h0, -, rfl⟩ := of_turns_succ_next h
      exact Nat.le_trans (ih.1 done0 s1 h0) (Nat.le_add_right ..)
    · rcases of_turns_succ_left h with h0 | ⟨done0, k, s1, h0, -, rfl⟩
      · exact ih.2 work s' h0
      · exact Nat.le_trans (ih.1 done0 s1 h0) (Nat.le_add_right ..)

/-- A loop that has gone over its budget is not left within it. -/
theorem not_leftWithin_of_next {n done budget : Nat} {s0 : σ} (hn : turns turn s n = .next done s0) (h : budget < done) :
    ¬ LeftWithin turn budget s := by
  rintro ⟨m, work, s', hm, hwork⟩
  rcases Nat.lt_or_ge m n with hlt | hge
  · rw [turns_of_left hm n (Nat.le_of_lt hlt)] at hn
    cases hn
  · have hle := (turns_mono hn hge).2 work s' hm
    omega

theorem not_leftWithin_of_idles {budget : Nat} (h : Idles turn s) : ¬ LeftWithin turn budget s := by
  rintro ⟨m, work, s', hm, -⟩
  obtain ⟨n, done, hidle⟩ := h
  obtain ⟨s1, h1⟩ := hidle (max n m) (Nat.le_max_left ..)
  rw [turns_of_left hm _ (Nat.le_max_right ..)] at h1
  cases h1

/-- A loop that goes on for ever within a budget comes to idle: each turn after which work is done brings it
nearer to the budget. -/
theorem idles_of_bounded {budget : Nat} (h : ∀ n, ∃ done s', turns turn s n = .next done s' ∧ done ≤ budget) : Idles turn s := by
  suffices hrank : ∀ rank n done s', turns turn s n = .next done s' → budget - done = rank → Idles turn s from
    hrank _ 0 0 s rfl rfl
  intro rank
  induction rank using Nat.strongRecOn with
  | ind rank ih =>
    intro n done s' hn hrank
    by_cases hmore : ∃ m done' s1, n ≤ m ∧ turns turn s m = .next done' s1 ∧ done < done'
    · obtain ⟨m, done', s1, -, hm, hlt⟩ := hmore
      obtain ⟨done1, s2, hm', hle⟩ := h m
      rw [hm] at hm'
      obtain ⟨rfl, rfl⟩ := Turn.next.inj hm'
      exact ih (budget - done') (by omega) m done' s1 hm rfl
    · refine ⟨n, done, fun m hm => ?_⟩
      obtain ⟨done', s1, h1, -⟩ := h m
      have hle := (turns_mono hn hm).1 done' s1 h1
      obtain rfl : done' = done := by
        by_contra hne
        exact hmore ⟨m, done', s1, hm, h1, by omega⟩
      exact ⟨s1, h1⟩

/-- The turn keeps an invariant of the state and the work done so far, and the budget. -/
def Turn.Holds (I : Nat → σ → Prop) (budget done : Nat) : Turn σ → Prop
  | .next work s => I (done + work) s ∧ done + work ≤ budget
  | .left work _ => done + work ≤ budget
  | .stuck => False

/-- Where every turn keeps the budget, the loop is left unless it idles. -/
theorem leftWithin_iff {I : Nat → σ → Prop} {budget : Nat} (h0 : I 0 s)
    (hstep : ∀ n done s', turns turn s n = .next done s' → I done s' → done ≤ budget → (turn n s').Holds I budget done) :
    LeftWithin turn budget s ↔ ¬ Idles turn s := by
  refine ⟨fun h hidle => not_leftWithin_of_idles hidle h, fun hidle => ?_⟩
  by_contra hno
  have hgoes : ∀ n, ∃ done s', turns turn s n = .next done s' ∧ I done s' ∧ done ≤ budget := by
    intro n
    induction n with
    | zero => exact ⟨0, s, rfl, h0, Nat.zero_le _⟩
    | succ n ih =>
      obtain ⟨done, s', hn, hI, hle⟩ := ih
      have hs := hstep n done s' hn hI hle
      have hsucc := turns_succ hn
      cases ht : turn n s' with
      | next work s1 =>
        rw [ht] at hs hsucc
        exact ⟨done + work, s1, hsucc, hs.1, hs.2⟩
      | left work s1 =>
        rw [ht] at hs hsucc
        exact absurd ⟨n + 1, done + work, s1, hsucc, hs⟩ hno
      | stuck =>
        rw [ht] at hs
        exact hs.elim
  apply hidle
  apply idles_of_bounded
  intro n
  obtain ⟨done, s', hn, -, hle⟩ := hgoes n
  exact ⟨done, s', hn, hle⟩

end Turns

end Rv8.Lib
