import Rv8.Lib.Prog
/-!
# Programs that keep a log

A program can be run beside a log of what it does. Its calls are taken over as they
are (`quietly`), and events are written between them (`emit`). The log is there for
proofs only: `Erases` says that without it the program is the one it was made from.
-/

namespace Rv8.Lib

/-- A state and the events that led to it, the last one first. -/
structure Logged (σ η : Type) where
  state : σ
  log : List η

/-- The outcome seen through a function of the state. -/
def Outcome.mapState {ε σ τ α : Type} (f : σ → τ) : Outcome ε σ α → Outcome ε τ α
  | .ok a s => .ok a (f s)
  | .error e s => .error e (f s)
  | .undefined => .undefined

namespace Prog

variable {ε σ η α β : Type}

def quietly (m : Prog ε σ α) : Prog ε (Logged σ η) α := m.zoom Logged.state fun s t => { s with state := t }

def emit (e : σ → η) : Prog ε (Logged σ η) Unit := .modify fun s => { s with log := e s.state :: s.log }

/-! ## Erasure -/

/-- Whatever the log, `n` does what `m` does. -/
def Erases (m : Prog ε σ α) (n : Prog ε (Logged σ η) α) : Prop := ∀ s, (n s).mapState Logged.state = m s.state

theorem erases_quietly (m : Prog ε σ α) : Erases m (quietly m : Prog ε (Logged σ η) α) := by
  intro s
  unfold quietly zoom
  cases m s.state <;> rfl

theorem erases_pure (a : α) : Erases (pure a : Prog ε σ α) (pure a : Prog ε (Logged σ η) α) := fun _ => rfl

theorem erases_bind {m : Prog ε σ β} {n : Prog ε (Logged σ η) β} {f : β → Prog ε σ α} {g : β → Prog ε (Logged σ η) α}
    (h : Erases m n) (hf : ∀ b, Erases (f b) (g b)) : Erases (m >>= f) (n >>= g) := by
  intro s
  have hs := h s
  cases hn : n s with
  | ok b t =>
    rw [hn] at hs
    rw [bind_ok hn, bind_ok hs.symm]
    exact hf b t
  | error e t =>
    rw [hn] at hs
    rw [bind_error hn, bind_error hs.symm]
    rfl
  | undefined =>
    rw [hn] at hs
    rw [bind_undefined hn, bind_undefined hs.symm]
    rfl

/-- Nothing is left to compare after undefined behaviour. -/
theorem erases_undefined (f : β → Prog ε σ α) (g : β → Prog ε (Logged σ η) α) :
    Erases (undefined >>= f) (undefined >>= g) := fun _ => rfl

/-- An event in front changes nothing. -/
theorem erases_emit (e : σ → η) {m : Prog ε σ α} {n : Prog ε (Logged σ η) α} (h : Erases m n) :
    Erases m (emit e >>= fun _ => n) := fun s => h { s with log := e s.state :: s.log }

/-- Nor does one at the end. -/
theorem erases_then_emit (e : σ → η) {m : Prog ε σ Unit} {n : Prog ε (Logged σ η) Unit} (h : Erases m n) :
    Erases m (n >>= fun _ => emit e) := by
  intro s
  have hs := h s
  cases hn : n s with
  | ok b t =>
    rw [hn] at hs
    rw [bind_ok hn, ← hs]
    rfl
  | error e t =>
    rw [hn] at hs
    rw [bind_error hn, ← hs]
  | undefined =>
    rw [hn] at hs
    rw [bind_undefined hn, ← hs]

theorem erases_ite {c : Prop} [Decidable c] {m m' : Prog ε σ α} {n n' : Prog ε (Logged σ η) α} (h : Erases m n)
    (h' : Erases m' n') : Erases (if c then m else m') (if c then n else n') := by
  split
  · exact h
  · exact h'

/-! ## Preconditions -/

@[simp] theorem wp_quietly {m : Prog ε σ α} {post : α → Logged σ η → Prop} {err : ε → Logged σ η → Prop} {s : Logged σ η} :
    wp (quietly m) post err s ↔ wp m (fun a t => post a { s with state := t }) (fun e t => err e { s with state := t }) s.state :=
  wp_zoom ..

@[simp] theorem wp_emit {e : σ → η} {post : Unit → Logged σ η → Prop} {err : ε → Logged σ η → Prop} {s : Logged σ η} :
    wp (emit e) post err s ↔ post () { s with log := e s.state :: s.log } := Iff.rfl

@[simp] theorem wlp_quietly {m : Prog ε σ α} {post : α → Logged σ η → Prop} {err : ε → Logged σ η → Prop} {s : Logged σ η} :
    wlp (quietly m) post err s ↔ wlp m (fun a t => post a { s with state := t }) (fun e t => err e { s with state := t }) s.state :=
  wlp_zoom ..

@[simp] theorem wlp_emit {e : σ → η} {post : Unit → Logged σ η → Prop} {err : ε → Logged σ η → Prop} {s : Logged σ η} :
    wlp (emit e) post err s ↔ post () { s with log := e s.state :: s.log } := Iff.rfl

/-! ## Invariants -/

/-- A call that keeps what holds of the state beside any log. -/
theorem keeps_quietly {I : Logged σ η → Prop} {m : Prog ε σ α} (h : ∀ log, Keeps (fun t => I ⟨t, log⟩) m) :
    Keeps I (quietly m : Prog ε (Logged σ η) α) := by
  intro s hs
  have hm := h s.log s.state hs
  unfold quietly zoom
  cases hc : m s.state with
  | ok a t =>
    rw [hc] at hm
    exact hm
  | error e t =>
    rw [hc] at hm
    exact hm
  | undefined => trivial

theorem keeps_emit {I : Logged σ η → Prop} {e : σ → η} (h : ∀ s, I s → I { s with log := e s.state :: s.log }) :
    Keeps I (emit e : Prog ε (Logged σ η) Unit) := h

end Prog

end Rv8.Lib
