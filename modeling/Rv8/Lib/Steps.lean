import Mathlib.Data.List.Basic
/-!
# Runs of labelled steps

A system takes actions one at a time; an action that is not enabled has no successor.
For threads an action names the thread that moves, so a list of actions is an
interleaving, and a theorem about every list is about every scheduler.
-/

namespace Rv8.Lib

variable {σ α : Type} (step : σ → α → Option σ)

def steps : List α → σ → Option σ
  | [], s => some s
  | a :: as, s => (step s a).bind (steps as)

/-- Each action of the run meets the condition in the state it is taken from. -/
def Along (ok : σ → α → Prop) : List α → σ → Prop
  | [], _ => True
  | a :: as, s => ok s a ∧ ∀ s', step s a = some s' → Along ok as s'

/-- Every state of the run, the first one included, satisfies `P`. -/
def Always (P : σ → Prop) : List α → σ → Prop
  | [], s => P s
  | a :: as, s => P s ∧ ∀ s', step s a = some s' → Always P as s'

/-- How many actions of the run meet the condition in the state they are taken from. -/
def tally (p : σ → α → Prop) [∀ s a, Decidable (p s a)] : List α → σ → Nat
  | [], _ => 0
  | a :: as, s => (if p s a then 1 else 0) + (step s a).elim 0 (tally p as)

variable {step}

instance Along.decidable {ok : σ → α → Prop} [∀ s a, Decidable (ok s a)] : (as : List α) → (s : σ) → Decidable (Along step ok as s)
  | [], _ => .isTrue trivial
  | a :: as, s =>
    match h : step s a with
    | none => decidable_of_iff (ok s a) ⟨fun hok => ⟨hok, fun _ hs => absurd (h.symm.trans hs) nofun⟩, And.left⟩
    | some s1 =>
      haveI : Decidable (Along step ok as s1) := Along.decidable as s1
      decidable_of_iff (ok s a ∧ Along step ok as s1)
        ⟨fun hok => ⟨hok.1, fun _ hs => Option.some.inj (h.symm.trans hs) ▸ hok.2⟩, fun hok => ⟨hok.1, hok.2 s1 h⟩⟩

/-- An invariant kept by every step that meets the condition holds after a run of such steps. -/
theorem Along.invariant {I : σ → Prop} {ok : σ → α → Prop} (hstep : ∀ s a s', I s → ok s a → step s a = some s' → I s')
    {as : List α} {s s' : σ} (hI : I s) (hok : Along step ok as s) (hrun : steps step as s = some s') : I s' := by
  induction as generalizing s with
  | nil =>
    obtain rfl := Option.some.inj hrun
    exact hI
  | cons a as ih =>
    obtain ⟨s1, h1, hrest⟩ := Option.bind_eq_some_iff.1 hrun
    exact ih (hstep s a s1 hI hok.1 h1) (hok.2 s1 h1) hrest

theorem Along.and {ok ok' : σ → α → Prop} {as : List α} {s : σ} (h : Along step ok as s) (h' : Along step ok' as s) :
    Along step (fun s a => ok s a ∧ ok' s a) as s := by
  induction as generalizing s with
  | nil => trivial
  | cons a as ih => exact ⟨⟨h.1, h'.1⟩, fun s' hs => ih (h.2 s' hs) (h'.2 s' hs)⟩

/-- A condition may be used with what an invariant says of the state, which it may itself be needed for. -/
theorem Along.imp {I : σ → Prop} {ok ok' : σ → α → Prop} (hstep : ∀ s a s', I s → ok s a → step s a = some s' → I s')
    (himp : ∀ s a, I s → ok s a → ok' s a) {as : List α} {s : σ} (hI : I s) (h : Along step ok as s) : Along step ok' as s := by
  induction as generalizing s with
  | nil => trivial
  | cons a as ih => exact ⟨himp s a hI h.1, fun s' hs => ih (hstep s a s' hI h.1 hs) (h.2 s' hs)⟩

/-- A condition on the actions alone. -/
theorem Along.of_forall {p : α → Prop} {as : List α} (h : ∀ a ∈ as, p a) (s : σ) : Along step (fun _ a => p a) as s := by
  induction as generalizing s with
  | nil => trivial
  | cons a as ih => exact ⟨h a List.mem_cons_self, fun s' _ => ih (fun b hb => h b (List.mem_cons_of_mem a hb)) s'⟩

theorem along_forall_iff (htotal : ∀ s a, ∃ s', step s a = some s') {p : α → Prop} {as : List α} {s : σ} :
    Along step (fun _ a => p a) as s ↔ ∀ a ∈ as, p a := by
  refine ⟨fun h => ?_, fun h => Along.of_forall h s⟩
  induction as generalizing s with
  | nil => exact fun a ha => absurd ha List.not_mem_nil
  | cons a as ih =>
    obtain ⟨s1, h1⟩ := htotal s a
    intro b hb
    rcases List.mem_cons.1 hb with rfl | hb
    · exact h.1
    · exact ih (h.2 s1 h1) b hb

/-- A condition is never met if all steps meet its opposite. -/
theorem tally_eq_zero_iff {p ok : σ → α → Prop} [∀ s a, Decidable (p s a)] (h : ∀ s a, p s a ↔ ¬ ok s a) {as : List α} {s : σ} :
    tally step p as s = 0 ↔ Along step ok as s := by
  induction as generalizing s with
  | nil => exact iff_of_true rfl trivial
  | cons a as ih =>
    unfold tally
    constructor
    · intro h0
      have hok : ok s a := by
        by_contra hn
        rw [if_pos ((h s a).2 hn)] at h0
        omega
      refine ⟨hok, fun s' hs => ih.1 ?_⟩
      rw [hs, Option.elim_some] at h0
      omega
    · rintro ⟨hok, hrest⟩
      rw [if_neg fun hp => (h s a).1 hp hok, Nat.zero_add]
      cases hs : step s a with
      | none => rfl
      | some s1 => exact ih.2 (hrest s1 hs)

theorem Always.head {P : σ → Prop} {as : List α} {s : σ} (h : Always step P as s) : P s := by
  cases as with
  | nil => exact h
  | cons a as => exact h.1

theorem Always.mono {P Q : σ → Prop} {as : List α} {s : σ} (h : Always step P as s) (hPQ : ∀ s, P s → Q s) : Always step Q as s := by
  induction as generalizing s with
  | nil => exact hPQ s h
  | cons a as ih => exact ⟨hPQ s h.1, fun s' hs => ih (h.2 s' hs)⟩

theorem Always.last {P : σ → Prop} {as : List α} {s s' : σ} (h : Always step P as s) (hrun : steps step as s = some s') : P s' := by
  induction as generalizing s with
  | nil =>
    obtain rfl := Option.some.inj hrun
    exact h
  | cons a as ih =>
    obtain ⟨s1, h1, hrest⟩ := Option.bind_eq_some_iff.1 hrun
    exact ih (h.2 s1 h1) hrest

/-- An invariant kept by every step that meets the condition holds throughout a run of such steps. -/
theorem Along.always {I : σ → Prop} {ok : σ → α → Prop} {as : List α} {s : σ} (hok : Along step ok as s)
    (hstep : ∀ s a s', I s → ok s a → step s a = some s' → I s') (hI : I s) : Always step I as s := by
  induction as generalizing s with
  | nil => exact hI
  | cons a as ih => exact ⟨hI, fun s' hs => ih (hok.2 s' hs) (hstep s a s' hI hok.1 hs)⟩

/-- A run whose states and steps are always right meets each condition that a right step to a right state shows. -/
theorem Always.along {P I : σ → Prop} {right ok : σ → α → Prop} {as : List α} {s : σ} (h : Always step P as s)
    (hright : Along step right as s) (hkeep : ∀ s a s', I s → ok s a → step s a = some s' → I s')
    (hok : ∀ s a, I s → right s a → (∀ s', step s a = some s' → P s') → ok s a) (hI : I s) : Along step ok as s := by
  induction as generalizing s with
  | nil => trivial
  | cons a as ih =>
    have ha : ok s a := hok s a hI hright.1 fun s' hs => (h.2 s' hs).head
    exact ⟨ha, fun s' hs => ih (h.2 s' hs) (hright.2 s' hs) (hkeep s a s' hI ha hs)⟩

/-- Where a step keeps an invariant exactly under a condition, a run keeps it exactly if each of its steps meets
the condition. -/
theorem always_iff_along {I : σ → Prop} {ok : σ → α → Prop} (htotal : ∀ s a, ∃ s', step s a = some s')
    (hstep : ∀ s a s', I s → step s a = some s' → (I s' ↔ ok s a)) {as : List α} {s : σ} :
    Always step I as s ↔ I s ∧ Along step ok as s := by
  induction as generalizing s with
  | nil => exact ⟨fun h => ⟨h, trivial⟩, And.left⟩
  | cons a as ih =>
    constructor
    · rintro ⟨hI, hrest⟩
      obtain ⟨s1, h1⟩ := htotal s a
      refine ⟨hI, (hstep s a s1 hI h1).1 (hrest s1 h1).head, fun s' hs => ?_⟩
      exact (ih.1 (hrest s' hs)).2
    · rintro ⟨hI, hok, hrest⟩
      refine ⟨hI, fun s' hs => ?_⟩
      exact ih.2 ⟨(hstep s a s' hI hs).2 hok, hrest s' hs⟩

end Rv8.Lib
