import Mathlib.Logic.Basic
/-!
# Stateful programs that fail or go undefined

A `Prog` is a call on a state: it returns a value, or it fails and the state keeps
what was done before the failure, or its behaviour is undefined. `wp` is the
precondition under which a program returns with one condition, fails with another
and is never undefined. `Outcome.Rel` compares two programs over different states.
-/

namespace Rv8.Lib

/-- What a call leaves behind. -/
inductive Outcome (ε σ α : Type)
  | ok (a : α) (s : σ)
  | error (e : ε) (s : σ)
  | undefined

/-- The value and the state of a call that returns. -/
def Outcome.result {ε σ α : Type} : Outcome ε σ α → Option (α × σ)
  | .ok a s => some (a, s)
  | .error _ _ => none
  | .undefined => none

/-- However the call ends, the state it leaves satisfies `I`. Nothing is said where it is undefined. -/
def Outcome.Leaves {ε σ α : Type} (I : σ → Prop) : Outcome ε σ α → Prop
  | .ok _ s => I s
  | .error _ s => I s
  | .undefined => True

theorem Outcome.Leaves.mono {ε σ α : Type} {I J : σ → Prop} {o : Outcome ε σ α} (h : o.Leaves I) (hIJ : ∀ s, I s → J s) :
    o.Leaves J := by
  cases o with
  | ok a s => exact hIJ s h
  | error e s => exact hIJ s h
  | undefined => trivial

theorem Outcome.eq_ok {ε σ α : Type} {o : Outcome ε σ α} {a : α} {s : σ} (h : o.result = some (a, s)) : o = .ok a s := by
  cases o with
  | ok b t =>
    obtain ⟨rfl, rfl⟩ := Prod.mk.inj (Option.some.inj h)
    rfl
  | error e t => cases h
  | undefined => cases h

def Prog (ε σ α : Type) : Type := σ → Outcome ε σ α

namespace Prog

variable {ε ε' σ τ α β : Type}

/-! ## Programs -/

instance : Monad (Prog ε σ) where
  pure a := fun s => .ok a s
  bind m f := fun s =>
    match m s with
    | .ok a s' => f a s'
    | .error e s' => .error e s'
    | .undefined => .undefined

def get : Prog ε σ σ := fun s => .ok s s

/-- Reads a part of the state. -/
def gets (f : σ → β) : Prog ε σ β := fun s => .ok (f s) s

def modify (f : σ → σ) : Prog ε σ Unit := fun s => .ok () (f s)

/-- Changes the state and returns what it computes from it. -/
def modifyGet (f : σ → α × σ) : Prog ε σ α := fun s => .ok (f s).1 (f s).2

def throw (e : ε) : Prog ε σ α := fun s => .error e s

def undefined : Prog ε σ α := fun _ => .undefined

/-- Tests the error a call returns and goes on with `h`. -/
def onError (m : Prog ε σ α) (h : ε → Prog ε' σ α) : Prog ε' σ α := fun s =>
  match m s with
  | .ok a s' => .ok a s'
  | .error e s' => h e s'
  | .undefined => .undefined

/-- Goes to the end in any case, and hands an error over as a value. -/
def attempt (m : Prog ε σ α) : Prog ε' σ (Except ε α) := fun s =>
  match m s with
  | .ok a s' => .ok (.ok a) s'
  | .error e s' => .ok (.error e) s'
  | .undefined => .undefined

/-- A call on a part of the state. -/
def zoom (part : σ → τ) (put : σ → τ → σ) (m : Prog ε τ α) : Prog ε σ α := fun s =>
  match m (part s) with
  | .ok a t => .ok a (put s t)
  | .error e t => .error e (put s t)
  | .undefined => .undefined

/-- The state a call leaves, which is the one it found if it goes undefined. -/
def left (m : Prog ε σ α) (s : σ) : σ :=
  match m s with
  | .ok _ t => t
  | .error _ t => t
  | .undefined => s

/-- `for (i = 0; i < n; i++) f(i)` -/
def forRange (n : Nat) (f : Nat → Prog ε σ Unit) : Prog ε σ Unit :=
  match n with
  | 0 => pure ()
  | n + 1 => do
    forRange n f
    f n

/-- The values of `f(0)`, ..., `f(n - 1)`. -/
def collect (f : Nat → Prog ε σ α) : Nat → Prog ε σ (List α)
  | 0 => pure []
  | n + 1 => do
    let as ← collect f n
    let a ← f n
    pure (as ++ [a])

/-- A loop that carries a value. -/
def iterate (f : Nat → α → Prog ε σ α) : Nat → α → Prog ε σ α
  | 0, a => pure a
  | n + 1, a => do
    let a ← iterate f n a
    f n a

theorem bind_ok {m : Prog ε σ α} {f : α → Prog ε σ β} {a : α} {s s' : σ} (h : m s = .ok a s') :
    (m >>= f) s = f a s' := by
  show (match m s with | .ok a s' => f a s' | .error e s' => .error e s' | .undefined => .undefined) = _
  rw [h]

theorem bind_error {m : Prog ε σ α} {f : α → Prog ε σ β} {e : ε} {s s' : σ} (h : m s = .error e s') :
    (m >>= f) s = .error e s' := by
  show (match m s with | .ok a s' => f a s' | .error e s' => .error e s' | .undefined => .undefined) = _
  rw [h]

theorem bind_undefined {m : Prog ε σ α} {f : α → Prog ε σ β} {s : σ} (h : m s = .undefined) :
    (m >>= f) s = .undefined := by
  show (match m s with | .ok a s' => f a s' | .error e s' => .error e s' | .undefined => .undefined) = _
  rw [h]

theorem of_bind_ok {m : Prog ε σ α} {f : α → Prog ε σ β} {b : β} {s s2 : σ} (h : (m >>= f) s = .ok b s2) :
    ∃ a s1, m s = .ok a s1 ∧ f a s1 = .ok b s2 := by
  cases hm : m s with
  | ok a s1 => exact ⟨a, s1, rfl, (bind_ok hm).symm.trans h⟩
  | error e s1 => rw [bind_error hm] at h; cases h
  | undefined => rw [bind_undefined hm] at h; cases h

/-- A check that the call has passed. -/
theorem of_check_ok {c : Prop} [Decidable c] {e : ε} {k : β → Prog ε σ α} {m : Prog ε σ α} {a : α} {s s' : σ}
    (h : (if c then (throw e >>= k) else m) s = .ok a s') : ¬ c ∧ m s = .ok a s' := by
  by_cases hc : c
  · rw [if_pos hc] at h
    cases h
  · rw [if_neg hc] at h
    exact ⟨hc, h⟩

theorem of_bind_error {m : Prog ε σ α} {f : α → Prog ε σ β} {e : ε} {s s2 : σ} (h : (m >>= f) s = .error e s2) :
    m s = .error e s2 ∨ ∃ a s1, m s = .ok a s1 ∧ f a s1 = .error e s2 := by
  cases hm : m s with
  | ok a s1 => exact .inr ⟨a, s1, rfl, (bind_ok hm).symm.trans h⟩
  | error e' s1 =>
    rw [bind_error hm] at h
    obtain ⟨rfl, rfl⟩ := Outcome.error.inj h
    exact .inl rfl
  | undefined => rw [bind_undefined hm] at h; cases h

theorem bind_assoc {γ : Type} (m : Prog ε σ α) (f : α → Prog ε σ β) (g : β → Prog ε σ γ) :
    m >>= f >>= g = m >>= fun a => f a >>= g := by
  funext s
  cases hm : m s with
  | ok a s' =>
    rw [bind_ok hm]
    show (match (m >>= f) s with | .ok a s' => g a s' | .error e s' => .error e s' | .undefined => .undefined) = _
    rw [bind_ok hm]
    rfl
  | error e s' => rw [bind_error hm, bind_error (bind_error hm)]
  | undefined => rw [bind_undefined hm, bind_undefined (bind_undefined hm)]

/-! ## Preconditions -/

def wp (m : Prog ε σ α) (post : α → σ → Prop) (err : ε → σ → Prop) (s : σ) : Prop :=
  match m s with
  | .ok a s' => post a s'
  | .error e s' => err e s'
  | .undefined => False

section Rules
variable {post : α → σ → Prop} {err : ε → σ → Prop} {s : σ}

theorem wp_of_ok {m : Prog ε σ α} {a : α} {s' : σ} (h : m s = .ok a s') : wp m post err s ↔ post a s' := by
  unfold wp
  rw [h]

theorem wp_of_error {m : Prog ε σ α} {e : ε} {s' : σ} (h : m s = .error e s') : wp m post err s ↔ err e s' := by
  unfold wp
  rw [h]

theorem wp_of_undefined {m : Prog ε σ α} (h : m s = .undefined) : ¬ wp m post err s := by
  unfold wp
  rw [h]
  exact not_false

@[simp] theorem wp_pure (a : α) : wp (pure a : Prog ε σ α) post err s ↔ post a s := Iff.rfl

@[simp] theorem wp_get {post : σ → σ → Prop} : wp (get : Prog ε σ σ) post err s ↔ post s s := Iff.rfl

@[simp] theorem wp_modify (f : σ → σ) {post : Unit → σ → Prop} :
    wp (modify f : Prog ε σ Unit) post err s ↔ post () (f s) := Iff.rfl

@[simp] theorem wp_throw (e : ε) : wp (throw e : Prog ε σ α) post err s ↔ err e s := Iff.rfl

@[simp] theorem wp_undefined : wp (undefined : Prog ε σ α) post err s ↔ False := Iff.rfl

@[simp] theorem wp_bind (m : Prog ε σ β) (f : β → Prog ε σ α) :
    wp (m >>= f) post err s ↔ wp m (fun b s' => wp (f b) post err s') err s := by
  unfold wp
  show (match (match m s with | .ok a s' => f a s' | .error e s' => .error e s' | .undefined => .undefined) with
    | .ok a s' => post a s' | .error e s' => err e s' | .undefined => False) ↔ _
  cases m s <;> rfl

theorem wp_onError (m : Prog ε' σ α) (h : ε' → Prog ε σ α) :
    wp (m.onError h) post err s ↔ wp m post (fun e s' => wp (h e) post err s') s := by
  unfold wp onError
  cases m s <;> rfl

theorem wp_zoom (part : σ → τ) (put : σ → τ → σ) (m : Prog ε τ α) :
    wp (m.zoom part put) post err s ↔ wp m (fun a t => post a (put s t)) (fun e t => err e (put s t)) (part s) := by
  unfold wp zoom
  cases m (part s) <;> rfl

@[simp] theorem wp_ite {c : Prop} [Decidable c] (m n : Prog ε σ α) :
    wp (if c then m else n) post err s ↔ (c → wp m post err s) ∧ (¬ c → wp n post err s) := by
  by_cases h : c <;> simp [h]

theorem wp_mono {m : Prog ε σ α} {post' : α → σ → Prop} {err' : ε → σ → Prop} (h : wp m post err s)
    (hp : ∀ a s', post a s' → post' a s') (he : ∀ e s', err e s' → err' e s') : wp m post' err' s := by
  unfold wp at h ⊢
  cases hm : m s with
  | ok a s' => rw [hm] at h; exact hp a s' h
  | error e s' => rw [hm] at h; exact he e s' h
  | undefined => rw [hm] at h; exact h

/-- The rule for loops: `I i` holds before the turn `i`. -/
theorem wp_forRange {n : Nat} {f : Nat → Prog ε σ Unit} (I : Nat → σ → Prop) (h0 : I 0 s)
    (hstep : ∀ i s, i < n → I i s → wp (f i) (fun _ => I (i + 1)) err s) :
    wp (forRange n f) (fun _ => I n) err s := by
  induction n with
  | zero => exact h0
  | succ n ih =>
    rw [forRange, wp_bind]
    refine wp_mono (ih fun i s hi => hstep i s (by omega)) (fun _ s' hs => ?_) fun _ _ he => he
    exact hstep n s' (by omega) hs

/-- The rule for loops that collect values: `Q i` holds of the value of the turn `i`. -/
theorem wp_collect {f : Nat → Prog ε σ α} {n : Nat} (I : σ → Prop) (Q : Nat → α → Prop) (h0 : I s)
    (hstep : ∀ i s, i < n → I s → wp (f i) (fun a s' => I s' ∧ Q i a) err s) :
    wp (collect f n) (fun as s' => I s' ∧ as.length = n ∧ ∀ i a, as[i]? = some a → Q i a) err s := by
  induction n with
  | zero => exact ⟨h0, rfl, fun i a h => by simp at h⟩
  | succ n ih =>
    rw [collect, wp_bind]
    refine wp_mono (ih fun i s hi => hstep i s (by omega)) ?_ fun _ _ he => he
    rintro as s1 ⟨hI, hlen, hQ⟩
    rw [wp_bind]
    refine wp_mono (hstep n s1 (by omega) hI) ?_ fun _ _ he => he
    rintro a s2 ⟨hI2, hQn⟩
    refine ⟨hI2, by simp [hlen], fun i b hb => ?_⟩
    rcases Nat.lt_or_ge i as.length with hi | hi
    · rw [List.getElem?_append_left hi] at hb
      exact hQ i b hb
    · rw [List.getElem?_append_right hi] at hb
      obtain ⟨hlt, rfl⟩ := List.getElem?_eq_some_iff.1 hb
      rw [List.length_singleton] at hlt
      obtain rfl : i = n := by omega
      simpa using hQn

/-- The same, where each turn has a known value. -/
theorem wp_collect_eq {f : Nat → Prog ε σ α} {n : Nat} (I : σ → Prop) (g : Nat → α) (h0 : I s)
    (hstep : ∀ i s, i < n → I s → wp (f i) (fun a s' => I s' ∧ a = g i) err s) :
    wp (collect f n) (fun as s' => I s' ∧ as = (List.range n).map g) err s := by
  refine wp_mono (wp_collect I (fun i a => a = g i) h0 hstep) ?_ fun _ _ he => he
  rintro as s' ⟨hI, hlen, hval⟩
  refine ⟨hI, List.ext_getElem (by simp [hlen]) fun i hi _ => ?_⟩
  rw [hval i as[i] (List.getElem?_eq_getElem hi), List.getElem_map, List.getElem_range]

theorem exists_ok {m : Prog ε σ α} (h : wp m post (fun _ _ => False) s) : ∃ a s', m s = .ok a s' ∧ post a s' := by
  unfold wp at h
  cases hm : m s with
  | ok a s' => rw [hm] at h; exact ⟨a, s', rfl, h⟩
  | error e s' => rw [hm] at h; exact h.elim
  | undefined => rw [hm] at h; exact h.elim

end Rules

/-! ## Liberal preconditions -/

/-- The condition under which a program returns with `post` and fails with `err`, if it is not undefined. -/
def wlp (m : Prog ε σ α) (post : α → σ → Prop) (err : ε → σ → Prop) (s : σ) : Prop :=
  match m s with
  | .ok a s' => post a s'
  | .error e s' => err e s'
  | .undefined => True

section LiberalRules
variable {post : α → σ → Prop} {err : ε → σ → Prop} {s : σ}

theorem wlp_of_wp {m : Prog ε σ α} (h : wp m post err s) : wlp m post err s := by
  unfold wp at h
  unfold wlp
  cases hm : m s with
  | ok a s' => rw [hm] at h; exact h
  | error e s' => rw [hm] at h; exact h
  | undefined => trivial

theorem wlp_of_ok {m : Prog ε σ α} {a : α} {s' : σ} (h : wlp m post err s) (hm : m s = .ok a s') : post a s' := by
  unfold wlp at h
  rw [hm] at h
  exact h

theorem wlp_of_error {m : Prog ε σ α} {e : ε} {s' : σ} (h : wlp m post err s) (hm : m s = .error e s') : err e s' := by
  unfold wlp at h
  rw [hm] at h
  exact h

@[simp] theorem wlp_pure (a : α) : wlp (pure a : Prog ε σ α) post err s ↔ post a s := Iff.rfl

@[simp] theorem wlp_get {post : σ → σ → Prop} : wlp (get : Prog ε σ σ) post err s ↔ post s s := Iff.rfl

@[simp] theorem wlp_modify (f : σ → σ) {post : Unit → σ → Prop} :
    wlp (modify f : Prog ε σ Unit) post err s ↔ post () (f s) := Iff.rfl

@[simp] theorem wlp_throw (e : ε) : wlp (throw e : Prog ε σ α) post err s ↔ err e s := Iff.rfl

@[simp] theorem wlp_undefined : wlp (undefined : Prog ε σ α) post err s ↔ True := Iff.rfl

@[simp] theorem wlp_bind (m : Prog ε σ β) (f : β → Prog ε σ α) :
    wlp (m >>= f) post err s ↔ wlp m (fun b s' => wlp (f b) post err s') err s := by
  unfold wlp
  show (match (match m s with | .ok a s' => f a s' | .error e s' => .error e s' | .undefined => .undefined) with
    | .ok a s' => post a s' | .error e s' => err e s' | .undefined => True) ↔ _
  cases m s <;> rfl

theorem wlp_attempt (m : Prog ε' σ α) {post : Except ε' α → σ → Prop} :
    wlp (m.attempt) post err s ↔ wlp m (fun a => post (.ok a)) (fun e => post (.error e)) s := by
  unfold wlp attempt
  cases m s <;> rfl

theorem wlp_zoom (part : σ → τ) (put : σ → τ → σ) (m : Prog ε τ α) :
    wlp (m.zoom part put) post err s ↔ wlp m (fun a t => post a (put s t)) (fun e t => err e (put s t)) (part s) := by
  unfold wlp zoom
  cases m (part s) <;> rfl

@[simp] theorem wlp_ite {c : Prop} [Decidable c] (m n : Prog ε σ α) :
    wlp (if c then m else n) post err s ↔ (c → wlp m post err s) ∧ (¬ c → wlp n post err s) := by
  by_cases h : c <;> simp [h]

theorem wlp_mono {m : Prog ε σ α} {post' : α → σ → Prop} {err' : ε → σ → Prop} (h : wlp m post err s)
    (hp : ∀ a s', post a s' → post' a s') (he : ∀ e s', err e s' → err' e s') : wlp m post' err' s := by
  unfold wlp at h ⊢
  cases hm : m s with
  | ok a s' => rw [hm] at h; exact hp a s' h
  | error e s' => rw [hm] at h; exact he e s' h
  | undefined => trivial

/-- What two conditions say of one run. -/
theorem wp_and_wlp {m : Prog ε σ α} {post' : α → σ → Prop} {err' : ε → σ → Prop} (h : wp m post err s) (h' : wlp m post' err' s) :
    wp m (fun a s' => post a s' ∧ post' a s') (fun e s' => err e s' ∧ err' e s') s := by
  unfold wp at h ⊢
  unfold wlp at h'
  cases hm : m s with
  | ok a s' => rw [hm] at h h'; exact ⟨h, h'⟩
  | error e s' => rw [hm] at h h'; exact ⟨h, h'⟩
  | undefined => rw [hm] at h; exact h

theorem wlp_and {m : Prog ε σ α} {post' : α → σ → Prop} {err' : ε → σ → Prop} (h : wlp m post err s) (h' : wlp m post' err' s) :
    wlp m (fun a s' => post a s' ∧ post' a s') (fun e s' => err e s' ∧ err' e s') s := by
  unfold wlp at h h' ⊢
  cases hm : m s with
  | ok a s' => rw [hm] at h h'; exact ⟨h, h'⟩
  | error e s' => rw [hm] at h h'; exact ⟨h, h'⟩
  | undefined => trivial

end LiberalRules

/-! ## Calls that only compute -/

@[simp] theorem pure_bind (a : α) (f : α → Prog ε σ β) : (pure a >>= f : Prog ε σ β) = f a := rfl

theorem forRange_pure {f : Nat → Prog ε σ Unit} {n : Nat} (h : ∀ i, i < n → f i = pure ()) : forRange n f = pure () := by
  induction n with
  | zero => rfl
  | succ n ih => rw [forRange, ih fun i hi => h i (by omega), pure_bind, h n (by omega)]

theorem collect_pure {f : Nat → Prog ε σ α} {g : Nat → α} {n : Nat} (h : ∀ i, i < n → f i = pure (g i)) :
    collect f n = pure ((List.range n).map g) := by
  induction n with
  | zero => rfl
  | succ n ih =>
    rw [collect, ih fun i hi => h i (by omega), pure_bind, h n (by omega), pure_bind, List.range_succ, List.map_append,
      List.map_singleton]

theorem iterate_pure {f : Nat → α → Prog ε σ α} {g : Nat → α} {n : Nat} (h : ∀ i, i < n → f i (g i) = pure (g (i + 1))) :
    iterate f n (g 0) = pure (g n) := by
  induction n with
  | zero => rfl
  | succ n ih => rw [iterate, ih fun i hi => h i (by omega), pure_bind, h n (by omega)]

/-! ## Invariants -/

section Invariants
variable {I : σ → Prop}

/-- The call keeps the invariant. -/
def Keeps (I : σ → Prop) (m : Prog ε σ α) : Prop := ∀ s, I s → (m s).Leaves I

theorem keeps_pure (a : α) : Keeps I (pure a : Prog ε σ α) := fun _ h => h

theorem keeps_throw (e : ε) : Keeps I (throw e : Prog ε σ α) := fun _ h => h

theorem keeps_get : Keeps I (get : Prog ε σ σ) := fun _ h => h

/-- What does not depend on the state is kept by every call. -/
theorem keeps_const (p : Prop) (m : Prog ε σ α) : Keeps (fun _ => p) m := by
  intro s h
  cases m s with
  | ok a t => exact h
  | error e t => exact h
  | undefined => trivial

theorem keeps_modify {f : σ → σ} (h : ∀ s, I s → I (f s)) : Keeps I (modify f : Prog ε σ Unit) := h

theorem keeps_modifyGet {f : σ → α × σ} (h : ∀ s, I s → I (f s).2) : Keeps I (modifyGet f : Prog ε σ α) := h

theorem keeps_bind {m : Prog ε σ β} {f : β → Prog ε σ α} (hm : Keeps I m) (hf : ∀ b, Keeps I (f b)) :
    Keeps I (m >>= f) := by
  intro s hs
  have h := hm s hs
  cases hc : m s with
  | ok b s' =>
    rw [hc] at h
    rw [bind_ok hc]
    exact hf b s' h
  | error e s' =>
    rw [hc] at h
    rw [bind_error hc]
    exact h
  | undefined =>
    rw [bind_undefined hc]
    trivial

theorem keeps_onError {m : Prog ε' σ α} {f : ε' → Prog ε σ α} (hm : Keeps I m) (hf : ∀ e, Keeps I (f e)) :
    Keeps I (m.onError f) := by
  intro s hs
  have h := hm s hs
  unfold onError
  cases hc : m s with
  | ok a s' =>
    rw [hc] at h
    exact h
  | error e s' =>
    rw [hc] at h
    exact hf e s' h
  | undefined => trivial

/-- A call on a part of the state keeps what holds whatever the part becomes, or what it keeps itself. -/
theorem keeps_zoom {J : τ → Prop} {part : σ → τ} {put : σ → τ → σ} {m : Prog ε τ α} (hm : Keeps J m)
    (hpart : ∀ s, I s → J (part s)) (hput : ∀ s t, I s → J t → I (put s t)) : Keeps I (m.zoom part put) := by
  intro s hs
  have h := hm (part s) (hpart s hs)
  unfold zoom
  cases hc : m (part s) with
  | ok a t =>
    rw [hc] at h
    exact hput s t hs h
  | error e t =>
    rw [hc] at h
    exact hput s t hs h
  | undefined => trivial

theorem keeps_ite {c : Prop} [Decidable c] {m n : Prog ε σ α} (hm : Keeps I m) (hn : Keeps I n) :
    Keeps I (if c then m else n) := by
  by_cases h : c
  · rw [if_pos h]
    exact hm
  · rw [if_neg h]
    exact hn

theorem keeps_undefined : Keeps I (undefined : Prog ε σ α) := fun _ _ => trivial

theorem keeps_undefined_bind (f : β → Prog ε σ α) : Keeps I (undefined >>= f) := fun _ _ => trivial

theorem keeps_of_wp {m : Prog ε σ α} (h : ∀ s, I s → wp m (fun _ => I) (fun _ => I) s) : Keeps I m := by
  intro s hs
  have hw := h s hs
  unfold wp at hw
  cases hc : m s with
  | ok a t =>
    rw [hc] at hw
    exact hw
  | error e t =>
    rw [hc] at hw
    exact hw
  | undefined => trivial

theorem left_of_keeps {m : Prog ε σ α} (hm : Keeps I m) {s : σ} (hs : I s) : I (m.left s) := by
  have h := hm s hs
  unfold left
  cases hc : m s with
  | ok a t =>
    rw [hc] at h
    exact h
  | error e t =>
    rw [hc] at h
    exact h
  | undefined => exact hs

/-- A relation to the first state that the call keeps carries an invariant over. -/
theorem keeps_of_relation {Q : σ → σ → Prop} {m : Prog ε σ α} (hm : ∀ s, Keeps (Q s) m) (hrefl : ∀ s, Q s s)
    (h : ∀ s t, Q s t → I s → I t) : Keeps I m := by
  intro s hs
  have hq := hm s s (hrefl s)
  cases hc : m s with
  | ok a t =>
    rw [hc] at hq
    exact h s t hq hs
  | error e t =>
    rw [hc] at hq
    exact h s t hq hs
  | undefined => trivial

end Invariants

/-! ## Definedness -/

section Defined

/-- The call is undefined in no state. -/
def Defined (m : Prog ε σ α) : Prop := ∀ s, m s ≠ .undefined

theorem defined_pure (a : α) : Defined (pure a : Prog ε σ α) := fun _ h => by cases h

theorem defined_get : Defined (get : Prog ε σ σ) := fun _ h => by cases h

theorem defined_modify (f : σ → σ) : Defined (modify f : Prog ε σ Unit) := fun _ h => by cases h

theorem defined_throw (e : ε) : Defined (throw e : Prog ε σ α) := fun _ h => by cases h

theorem defined_bind {m : Prog ε σ β} {f : β → Prog ε σ α} (hm : Defined m) (hf : ∀ b, Defined (f b)) : Defined (m >>= f) := by
  intro s h
  cases hc : m s with
  | ok b s' =>
    rw [bind_ok hc] at h
    exact hf b s' h
  | error e s' =>
    rw [bind_error hc] at h
    cases h
  | undefined => exact hm s hc

theorem defined_onError {m : Prog ε' σ α} {f : ε' → Prog ε σ α} (hm : Defined m) (hf : ∀ e, Defined (f e)) :
    Defined (m.onError f) := by
  intro s h
  unfold onError at h
  cases hc : m s with
  | ok a s' =>
    rw [hc] at h
    cases h
  | error e s' =>
    rw [hc] at h
    exact hf e s' h
  | undefined => exact hm s hc

theorem defined_zoom {part : σ → τ} {put : σ → τ → σ} {m : Prog ε τ α} (hm : Defined m) : Defined (m.zoom part put) := by
  intro s h
  unfold zoom at h
  cases hc : m (part s) with
  | ok a t =>
    rw [hc] at h
    cases h
  | error e t =>
    rw [hc] at h
    cases h
  | undefined => exact hm _ hc

theorem defined_ite {c : Prop} [Decidable c] {m n : Prog ε σ α} (hm : Defined m) (hn : Defined n) :
    Defined (if c then m else n) := by
  split
  · exact hm
  · exact hn

end Defined

/-! ## Values -/

section Values
variable {Q : α → Prop}

/-- Whatever the call returns satisfies `Q`. -/
def Yields (Q : α → Prop) (m : Prog ε σ α) : Prop := ∀ s a s', m s = .ok a s' → Q a

theorem yields_pure {a : α} (h : Q a) : Yields Q (pure a : Prog ε σ α) := by
  intro s b s' hb
  obtain ⟨rfl, -⟩ := Outcome.ok.inj hb
  exact h

theorem yields_bind {m : Prog ε σ β} {f : β → Prog ε σ α} (hf : ∀ b, Yields Q (f b)) : Yields Q (m >>= f) := by
  intro s a s' h
  obtain ⟨b, s1, -, h1⟩ := of_bind_ok h
  exact hf b s1 a s' h1

theorem yields_undefined : Yields Q (undefined : Prog ε σ α) := by
  intro s a s' h
  cases h

/-- What the first call returns may be used for the second. -/
theorem Yields.bind {R : β → Prop} {m : Prog ε σ β} {f : β → Prog ε σ α} (hm : Yields R m) (hf : ∀ b, R b → Yields Q (f b)) :
    Yields Q (m >>= f) := by
  intro s a s' h
  obtain ⟨b, s1, h1, h2⟩ := of_bind_ok h
  exact hf b (hm s b s1 h1) s1 a s' h2

theorem yields_iterate {f : Nat → α → Prog ε σ α} {a : α} (h0 : Q a) (hstep : ∀ i a, Q a → Yields Q (f i a)) (n : Nat) :
    Yields Q (iterate f n a) := by
  induction n with
  | zero => exact yields_pure h0
  | succ n ih => exact ih.bind (hstep n)

theorem yields_collect (f : Nat → Prog ε σ α) (n : Nat) : Yields (fun as => as.length = n) (collect f n) := by
  induction n with
  | zero => exact yields_pure rfl
  | succ n ih => exact ih.bind fun as h => yields_bind fun a => yields_pure (by rw [List.length_append, h, List.length_singleton])

theorem yields_ite {c : Prop} [Decidable c] {m n : Prog ε σ α} (hm : Yields Q m) (hn : Yields Q n) :
    Yields Q (if c then m else n) := by
  by_cases h : c
  · rw [if_pos h]
    exact hm
  · rw [if_neg h]
    exact hn

end Values

end Prog

/-! ## Simulation -/

section Simulation
variable {ε ε' σ σ' τ τ' α β : Type} {R : σ → τ → Prop}

/-- The two calls end alike, in related states. Nothing is said where the first is undefined. -/
def Outcome.Rel (R : σ → τ → Prop) : Outcome ε σ α → Outcome ε τ α → Prop
  | .undefined, _ => True
  | .ok a s, .ok b t => a = b ∧ R s t
  | .error e s, .error e' t => e = e' ∧ R s t
  | _, _ => False

namespace Prog

/-- From related states the second program follows the first. -/
def Sim (R : σ → τ → Prop) (m : Prog ε σ α) (n : Prog ε τ α) : Prop := ∀ s t, R s t → (m s).Rel R (n t)

theorem sim_pure (a : α) : Sim R (pure a : Prog ε σ α) (pure a : Prog ε τ α) := fun _ _ h => ⟨rfl, h⟩

theorem sim_throw (e : ε) : Sim R (throw e : Prog ε σ α) (throw e) := fun _ _ h => ⟨rfl, h⟩

theorem sim_undefined (n : Prog ε τ α) : Sim R undefined n := fun _ _ _ => trivial

theorem sim_gets {f : σ → β} {g : τ → β} (h : ∀ s t, R s t → f s = g t) :
    Sim R (gets f : Prog ε σ β) (gets g) := fun s t hst => ⟨h s t hst, hst⟩

theorem sim_modify {f : σ → σ} {g : τ → τ} (h : ∀ s t, R s t → R (f s) (g t)) :
    Sim R (modify f : Prog ε σ Unit) (modify g) := fun s t hst => ⟨rfl, h s t hst⟩

/-- Splits what two calls that end alike leave. -/
theorem Sim.cases {m : Prog ε σ α} {n : Prog ε τ α} (h : Sim R m n) {s : σ} {t : τ} (hst : R s t) :
    m s = .undefined ∨ (∃ a s' t', m s = .ok a s' ∧ n t = .ok a t' ∧ R s' t') ∨
      ∃ e s' t', m s = .error e s' ∧ n t = .error e t' ∧ R s' t' := by
  have h := h s t hst
  cases hm : m s with
  | undefined => exact .inl rfl
  | ok a s' =>
    cases hn : n t with
    | ok b t' =>
      rw [hm, hn] at h
      obtain ⟨rfl, hR⟩ := h
      exact .inr (.inl ⟨a, s', t', rfl, rfl, hR⟩)
    | error e t' => rw [hm, hn] at h; exact h.elim
    | undefined => rw [hm, hn] at h; exact h.elim
  | error e s' =>
    cases hn : n t with
    | ok b t' => rw [hm, hn] at h; exact h.elim
    | error e' t' =>
      rw [hm, hn] at h
      obtain ⟨rfl, hR⟩ := h
      exact .inr (.inr ⟨e, s', t', rfl, rfl, hR⟩)
    | undefined => rw [hm, hn] at h; exact h.elim

/-- The rule for one pair of states: what follows starts where the two calls have ended. -/
theorem rel_bind {m : Prog ε σ β} {n : Prog ε τ β} {f : β → Prog ε σ α} {g : β → Prog ε τ α} {s : σ} {t : τ}
    (h : (m s).Rel R (n t)) (hf : ∀ b s' t', m s = .ok b s' → R s' t' → (f b s').Rel R (g b t')) :
    ((m >>= f) s).Rel R ((n >>= g) t) := by
  cases hm : m s with
  | undefined =>
    rw [bind_undefined hm]
    trivial
  | ok b s' =>
    rw [bind_ok hm]
    cases hn : n t with
    | ok c t' =>
      rw [hm, hn] at h
      obtain ⟨rfl, hR⟩ := h
      rw [bind_ok hn]
      exact hf b s' t' hm hR
    | error e t' => rw [hm, hn] at h; exact h.elim
    | undefined => rw [hm, hn] at h; exact h.elim
  | error e s' =>
    rw [bind_error hm]
    cases hn : n t with
    | ok b t' => rw [hm, hn] at h; exact h.elim
    | error e' t' =>
      rw [hm, hn] at h
      rw [bind_error hn]
      exact h
    | undefined => rw [hm, hn] at h; exact h.elim

theorem sim_bind {m : Prog ε σ β} {n : Prog ε τ β} {f : β → Prog ε σ α} {g : β → Prog ε τ α} (h : Sim R m n)
    (hf : ∀ b, Sim R (f b) (g b)) : Sim R (m >>= f) (n >>= g) := by
  intro s t hst
  obtain hm | ⟨a, s', t', hm, hn, hR⟩ | ⟨e, s', t', hm, hn, hR⟩ := h.cases hst
  · rw [bind_undefined hm]
    trivial
  · rw [bind_ok hm, bind_ok hn]
    exact hf a s' t' hR
  · rw [bind_error hm, bind_error hn]
    exact ⟨rfl, hR⟩

theorem sim_onError {m : Prog ε' σ α} {n : Prog ε' τ α} {f : ε' → Prog ε σ α} {g : ε' → Prog ε τ α}
    (h : Sim R m n) (hf : ∀ e, Sim R (f e) (g e)) : Sim R (m.onError f) (n.onError g) := by
  intro s t hst
  unfold onError
  obtain hm | ⟨a, s', t', hm, hn, hR⟩ | ⟨e, s', t', hm, hn, hR⟩ := h.cases hst
  · rw [hm]
    trivial
  · rw [hm, hn]
    exact ⟨rfl, hR⟩
  · rw [hm, hn]
    exact hf e s' t' hR

theorem rel_attempt {m : Prog ε σ α} {n : Prog ε τ α} {s : σ} {t : τ} (h : (m s).Rel R (n t)) :
    (m.attempt s : Outcome ε' σ (Except ε α)).Rel R (n.attempt t) := by
  unfold attempt
  cases hm : m s with
  | undefined => trivial
  | ok a s' =>
    cases hn : n t with
    | ok b t' =>
      rw [hm, hn] at h
      exact ⟨congrArg Except.ok h.1, h.2⟩
    | error e t' => rw [hm, hn] at h; exact h.elim
    | undefined => rw [hm, hn] at h; exact h.elim
  | error e s' =>
    cases hn : n t with
    | ok b t' => rw [hm, hn] at h; exact h.elim
    | error e' t' =>
      rw [hm, hn] at h
      exact ⟨congrArg Except.error h.1, h.2⟩
    | undefined => rw [hm, hn] at h; exact h.elim

theorem sim_attempt {m : Prog ε σ α} {n : Prog ε τ α} (h : Sim R m n) :
    Sim R (m.attempt : Prog ε' σ (Except ε α)) n.attempt := by
  intro s t hst
  unfold attempt
  obtain hm | ⟨a, s', t', hm, hn, hR⟩ | ⟨e, s', t', hm, hn, hR⟩ := h.cases hst
  · rw [hm]
    trivial
  · rw [hm, hn]
    exact ⟨rfl, hR⟩
  · rw [hm, hn]
    exact ⟨rfl, hR⟩

/-- A call on a part of the state, where the parts are related and what they become may be put back. -/
theorem sim_zoom {Q : σ' → τ' → Prop} {part : σ → σ'} {put : σ → σ' → σ} {part' : τ → τ'} {put' : τ → τ' → τ}
    {m : Prog ε σ' α} {n : Prog ε τ' α} (h : Sim Q m n) (hpart : ∀ s t, R s t → Q (part s) (part' t))
    (hput : ∀ s t s' t', R s t → Q s' t' → R (put s s') (put' t t')) :
    Sim R (m.zoom part put) (n.zoom part' put') := by
  intro s t hst
  unfold zoom
  obtain hm | ⟨a, s', t', hm, hn, hR⟩ | ⟨e, s', t', hm, hn, hR⟩ := h.cases (hpart s t hst)
  · rw [hm]
    trivial
  · rw [hm, hn]
    exact ⟨rfl, hput s t s' t' hst hR⟩
  · rw [hm, hn]
    exact ⟨rfl, hput s t s' t' hst hR⟩

theorem sim_ite {c : Prop} [Decidable c] {m m' : Prog ε σ α} {n n' : Prog ε τ α} (h : Sim R m n) (h' : Sim R m' n') :
    Sim R (if c then m else m') (if c then n else n') := by
  by_cases hc : c
  · rw [if_pos hc, if_pos hc]
    exact h
  · rw [if_neg hc, if_neg hc]
    exact h'

end Prog

end Simulation

end Rv8.Lib
