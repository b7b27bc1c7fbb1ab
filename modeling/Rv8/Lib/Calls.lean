/-!
# Objects that answer calls

An object takes one call after another, gives an answer to each and changes its state. It
does what a simpler one says if each call on related states is answered the same way and
leads to related states; a call is made only where the simpler one allows it.
-/

namespace Rv8.Lib

section Calls
variable {σ δ ω ρ : Type}

/-- The answers to some calls; a call may fail. -/
def answers (call : σ → ω → Option (ρ × σ)) : List ω → σ → Option (List ρ × σ)
  | [], s => some ([], s)
  | op :: ops, s => do
    let (r, s) ← call s op
    let (rs, s) ← answers call ops s
    pure (r :: rs, s)

/-- The answers of an object whose calls do not fail. -/
def told (tell : δ → ω → ρ × δ) : List ω → δ → List ρ × δ
  | [], d => ([], d)
  | op :: ops, d =>
    let (rs, d') := told tell ops (tell d op).2
    ((tell d op).1 :: rs, d')

/-- Each call is allowed where it is made. -/
def Allowed (allows : δ → ω → Prop) (tell : δ → ω → ρ × δ) : List ω → δ → Prop
  | [], _ => True
  | op :: ops, d => allows d op ∧ Allowed allows tell ops (tell d op).2

instance decidableAllowed {allows : δ → ω → Prop} [∀ d op, Decidable (allows d op)] (tell : δ → ω → ρ × δ) :
    (ops : List ω) → (d : δ) → Decidable (Allowed allows tell ops d)
  | [], _ => .isTrue trivial
  | op :: ops, d => @instDecidableAnd _ _ _ (decidableAllowed tell ops (tell d op).2)

variable {call : σ → ω → Option (ρ × σ)} {tell : δ → ω → ρ × δ} {allows : δ → ω → Prop} {R : σ → δ → Prop}

theorem answers_told (hcall : ∀ s d op, R s d → allows d op → ∃ s', call s op = some ((tell d op).1, s') ∧ R s' (tell d op).2)
    (ops : List ω) {s : σ} {d : δ} (h : R s d) (hallowed : Allowed allows tell ops d) :
    ∃ s', answers call ops s = some ((told tell ops d).1, s') ∧ R s' (told tell ops d).2 := by
  induction ops generalizing s d with
  | nil => exact ⟨s, rfl, h⟩
  | cons op ops ih =>
    obtain ⟨s1, hs1, h1⟩ := hcall s d op h hallowed.1
    obtain ⟨s2, hs2, h2⟩ := ih h1 hallowed.2
    refine ⟨s2, ?_, h2⟩
    unfold answers
    rw [hs1]
    simp only [bind, Option.bind, hs2]
    rfl

end Calls

end Rv8.Lib
