import Rv8.Lib.X86
/-!
# Code with data memory

Code that accesses the memory of a program besides the places it addresses by name. Its
pieces are instructions without such an access, and loads and stores at a register and a
displacement, which is sign-extended. `M` is the memory; an access that it does not allow
is a signal.
-/

namespace Rv8.Lib.X86

/-- Accesses by the number of bytes and the address. -/
structure DataMemory (M : Type) where
  load : Nat → Nat → M → Option Nat
  store : Nat → Nat → Nat → M → Option M

inductive Piece (A L : Type)
  | code (is : List (Ins A L))
  /-- `mov`, `movzx`, `movsx` or `movsxd` of `n` bytes to a whole register. -/
  | load (n : Nat) (signed : Bool) (dst base : Reg) (disp : BitVec 32)
  | store (n : Nat) (base : Reg) (disp : BitVec 32) (src : Operand A)

inductive PiecesOutcome (A L M : Type)
  | done (s : State A) (m : M)
  | left (l : L) (s : State A) (m : M)
  | fault
  | signal (s : State A) (m : M)

/-- `n` bytes in a register. -/
def fill (n : Nat) (signed : Bool) (v : Nat) : BitVec 64 :=
  let v := BitVec.ofNat (8 * n) v
  if signed then v.signExtend 64 else v.setWidth 64

section Exec
variable {A L M : Type} [DecidableEq A] [DecidableEq L] (mem : DataMemory M)

def State.address (s : State A) (base : Reg) (disp : BitVec 32) : Nat := (s.gpr base + disp.signExtend 64).toNat

/-- Executes pieces, or skips to where a label is bound. -/
def execPieces : List (Piece A L) → Option L → State A → M → PiecesOutcome A L M
  | [], none, s, m => .done s m
  | [], some l, s, m => .left l s m
  | .code is :: ps, k, s, m =>
    match exec is k s with
    | .done s' => execPieces ps none s' m
    | .left l s' => execPieces ps (some l) s' m
    | .fault => .fault
  | .load _ _ _ _ _ :: ps, some l, s, m => execPieces ps (some l) s m
  | .store _ _ _ _ :: ps, some l, s, m => execPieces ps (some l) s m
  | .load n signed dst base disp :: ps, none, s, m =>
    match mem.load n (s.address base disp) m with
    | some v => execPieces ps none (s.putQ (fill n signed v) (.reg dst)) m
    | none => .signal s m
  | .store n base disp src :: ps, none, s, m =>
    match mem.store n (s.address base disp) ((s.q src).toNat % 2 ^ (8 * n)) m with
    | some m' => execPieces ps none s m'
    | none => .signal s m

/-- The label is bound in the piece. -/
def Piece.Binds (l : L) : Piece A L → Prop
  | .code is => .bind l ∈ is
  | _ => False

variable {mem} {ps qs : List (Piece A L)} {is : List (Ins A L)} {s s' : State A} {m m' : M} {l l' : L}

@[simp] theorem execPieces_nil : execPieces mem ([] : List (Piece A L)) none s m = .done s m := rfl

@[simp] theorem execPieces_nil_skip : execPieces mem ([] : List (Piece A L)) (some l) s m = .left l s m := rfl

/-- Code is executed, or looked through for a label. -/
theorem execPieces_cons_code (k : Option L) : execPieces mem (.code is :: ps) k s m =
    match exec is k s with
    | .done s' => execPieces mem ps none s' m
    | .left l s' => execPieces mem ps (some l) s' m
    | .fault => .fault := by
  cases k <;> rfl

theorem execPieces_cons_load (n : Nat) (signed : Bool) (dst base : Reg) (disp : BitVec 32) :
    execPieces mem (.load n signed dst base disp :: ps) none s m =
      match mem.load n (s.address base disp) m with
      | some v => execPieces mem ps none (s.putQ (fill n signed v) (.reg dst)) m
      | none => .signal s m := rfl

theorem execPieces_cons_store (n : Nat) (base : Reg) (disp : BitVec 32) (src : Operand A) :
    execPieces mem (.store n base disp src :: ps) none s m =
      match mem.store n (s.address base disp) ((s.q src).toNat % 2 ^ (8 * n)) m with
      | some m' => execPieces mem ps none s m'
      | none => .signal s m := rfl

theorem execPieces_code (h : exec is none s = .done s') :
    execPieces mem (.code is :: ps) none s m = execPieces mem ps none s' m := by
  rw [execPieces_cons_code, h]

theorem execPieces_left (h : exec is none s = .left l s') :
    execPieces mem (.code is :: ps) none s m = execPieces mem ps (some l) s' m := by
  rw [execPieces_cons_code, h]

theorem execPieces_load {n : Nat} {signed : Bool} {dst base : Reg} {disp : BitVec 32} {v : Nat}
    (h : mem.load n (s.address base disp) m = some v) :
    execPieces mem (.load n signed dst base disp :: ps) none s m =
      execPieces mem ps none (s.putQ (fill n signed v) (.reg dst)) m := by
  rw [execPieces_cons_load, h]

theorem execPieces_load_signal {n : Nat} {signed : Bool} {dst base : Reg} {disp : BitVec 32}
    (h : mem.load n (s.address base disp) m = none) :
    execPieces mem (.load n signed dst base disp :: ps) none s m = .signal s m := by
  rw [execPieces_cons_load, h]

theorem execPieces_store {n : Nat} {base : Reg} {disp : BitVec 32} {src : Operand A}
    (h : mem.store n (s.address base disp) ((s.q src).toNat % 2 ^ (8 * n)) m = some m') :
    execPieces mem (.store n base disp src :: ps) none s m = execPieces mem ps none s m' := by
  rw [execPieces_cons_store, h]

theorem execPieces_store_signal {n : Nat} {base : Reg} {disp : BitVec 32} {src : Operand A}
    (h : mem.store n (s.address base disp) ((s.q src).toNat % 2 ^ (8 * n)) m = none) :
    execPieces mem (.store n base disp src :: ps) none s m = .signal s m := by
  rw [execPieces_cons_store, h]

/-- Pieces go on where the pieces before them end. -/
theorem execPieces_append (k : Option L) : execPieces mem (ps ++ qs) k s m =
    match execPieces mem ps k s m with
    | .done s' m' => execPieces mem qs none s' m'
    | .left l s' m' => execPieces mem qs (some l) s' m'
    | .fault => .fault
    | .signal s' m' => .signal s' m' := by
  induction ps generalizing k s m with
  | nil => cases k <;> rfl
  | cons p ps ih =>
    rw [List.cons_append]
    cases p with
    | code is =>
      rw [execPieces_cons_code, execPieces_cons_code]
      cases exec is k s with
      | done s' => exact ih ..
      | left l s' => exact ih ..
      | fault => rfl
    | load n signed dst base disp =>
      cases k with
      | some l => exact ih ..
      | none =>
        rw [execPieces_cons_load, execPieces_cons_load]
        cases mem.load n (s.address base disp) m with
        | some v => exact ih ..
        | none => rfl
    | store n base disp src =>
      cases k with
      | some l => exact ih ..
      | none =>
        rw [execPieces_cons_store, execPieces_cons_store]
        cases mem.store n (s.address base disp) ((s.q src).toNat % 2 ^ (8 * n)) m with
        | some m' => exact ih ..
        | none => rfl

theorem exec_skip_notMem {is : List (Ins A L)} (h : .bind l ∉ is) : exec is (some l) s = .left l s := by
  have hskip := exec_skip_append [] s l h
  rwa [List.append_nil] at hskip

/-- A jump leaves pieces that do not bind its label. -/
theorem execPieces_skip (h : ∀ p ∈ ps, ¬ p.Binds l) : execPieces mem ps (some l) s m = .left l s m := by
  induction ps with
  | nil => rfl
  | cons p ps ih =>
    rw [List.forall_mem_cons] at h
    cases p with
    | code is =>
      rw [execPieces_cons_code, exec_skip_notMem h.1]
      exact ih h.2
    | load n signed dst base disp => exact ih h.2
    | store n base disp src => exact ih h.2

/-- Pieces begin at their label, by a jump to it or not. -/
theorem execPieces_bind (l : L) : execPieces mem (.code [.bind l] :: ps) none s m = execPieces mem ps none s m := execPieces_code rfl

theorem execPieces_bind_skip (l : L) : execPieces mem (.code [.bind l] :: ps) (some l) s m = execPieces mem ps none s m := by
  rw [execPieces_cons_code, exec_bind_skip, if_pos rfl]
  rfl

end Exec

end Rv8.Lib.X86
