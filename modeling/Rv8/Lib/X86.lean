import Mathlib.Data.BitVec
import Mathlib.Logic.Function.Basic
/-!
# A part of x86-64

The integer instructions that a translator emits for one instruction, over sixteen
registers and memory that is addressed by quadwords. `A` are the addresses and `L` the
labels. Jumps go forward: a jump skips to where its label is bound, and leaves the code
where it is not.

An immediate is 32 bits, which an operation on quadwords sign-extends; only `movabs`
has 64. The flags are what a comparison leaves; other arithmetic makes them unknown, and
code that branches on them then has no meaning. A division that overflows is a fault.
-/

namespace Rv8.Lib.X86

abbrev Reg := Fin 16

abbrev rax : Reg := 0
abbrev rcx : Reg := 1
abbrev rdx : Reg := 2

inductive Operand (A : Type)
  | reg (r : Reg)
  | mem (a : A)
  | imm (v : BitVec 32)
deriving DecidableEq

inductive Size
  | d | q
deriving DecidableEq

structure Flags where
  (zf sf cf of : Bool)
deriving DecidableEq

inductive Cond
  | e | ne | l | ge | b | ae | s | ns
deriving DecidableEq

def Flags.holds (f : Flags) : Cond → Bool
  | .e => f.zf
  | .ne => !f.zf
  | .l => f.sf != f.of
  | .ge => f.sf == f.of
  | .b => f.cf
  | .ae => !f.cf
  | .s => f.sf
  | .ns => !f.sf

section Flags
variable {n : Nat} (x y : BitVec n)

/-- What `cmp x, y` leaves. -/
def Flags.cmp : Flags := ⟨x = y, (x - y).msb, x < y, x.ssubOverflow y⟩

/-- What `test x, y` leaves. -/
def Flags.test : Flags := ⟨x &&& y = 0, (x &&& y).msb, false, false⟩

end Flags

/-! ## Operations -/

inductive AluOp
  | add | sub | and | or | xor | imul
deriving DecidableEq

def AluOp.eval {n : Nat} (x y : BitVec n) : AluOp → BitVec n
  | .add => x + y
  | .sub => x - y
  | .and => x &&& y
  | .or => x ||| y
  | .xor => x ^^^ y
  | .imul => x * y

inductive ShiftOp
  | shl | shr | sar
deriving DecidableEq

/-- The count is taken modulo the width. -/
def ShiftOp.eval {n : Nat} (x : BitVec n) (count : BitVec 8) : ShiftOp → BitVec n
  | .shl => x <<< (count.toNat % n)
  | .shr => x >>> (count.toNat % n)
  | .sar => x.sshiftRight (count.toNat % n)

section Wide
variable {n : Nat} (hi lo y : BitVec n)

/-- Quotient and remainder of `hi:lo`. -/
def udivWide : Option (BitVec n × BitVec n) :=
  let x := hi.toNat * 2 ^ n + lo.toNat
  if y = 0 ∨ 2 ^ n ≤ x / y.toNat then none else some (BitVec.ofNat n (x / y.toNat), BitVec.ofNat n (x % y.toNat))

def sdivWide : Option (BitVec n × BitVec n) :=
  let x := hi.toInt * 2 ^ n + lo.toNat
  let quot := x.tdiv y.toInt
  if y = 0 ∨ ¬ (-2 ^ (n - 1) ≤ quot ∧ quot < 2 ^ (n - 1)) then none
  else some (BitVec.ofInt n quot, BitVec.ofInt n (x.tmod y.toInt))

/-- The high half of a product. -/
def umulHigh (x y : BitVec n) : BitVec n := BitVec.ofNat n (x.toNat * y.toNat / 2 ^ n)

def smulHigh (x y : BitVec n) : BitVec n := BitVec.ofInt n (x.toInt * y.toInt / 2 ^ n)

end Wide

/-! ## State -/

structure State (A : Type) where
  gpr : Reg → BitVec 64
  mem : A → BitVec 64
  flags : Option Flags := none

namespace State

variable {A : Type} (s : State A)

/-- The quadword of an operand. -/
def q : Operand A → BitVec 64
  | .reg r => s.gpr r
  | .mem a => s.mem a
  | .imm v => v.signExtend 64

/-- The doubleword of an operand. -/
def d : Operand A → BitVec 32
  | .reg r => (s.gpr r).setWidth 32
  | .mem a => (s.mem a).setWidth 32
  | .imm v => v

variable [DecidableEq A]

def putQ (v : BitVec 64) : Operand A → State A
  | .reg r => { s with gpr := Function.update s.gpr r v }
  | .mem a => { s with mem := Function.update s.mem a v }
  | .imm _ => s

/-- A doubleword clears the upper half of a register and leaves that of memory. -/
def putD (v : BitVec 32) : Operand A → State A
  | .reg r => { s with gpr := Function.update s.gpr r (v.setWidth 64) }
  | .mem a => { s with mem := Function.update s.mem a ((s.mem a).extractLsb' 32 32 ++ v) }
  | .imm _ => s

/-- The byte of a register. -/
def byte (r : Reg) : BitVec 8 := (s.gpr r).setWidth 8

def putByte (v : BitVec 8) (r : Reg) : State A :=
  { s with gpr := Function.update s.gpr r ((s.gpr r).extractLsb' 8 56 ++ v) }

def setFlags (f : Flags) : State A := { s with flags := some f }

def clobberFlags : State A := { s with flags := none }

/-- Writes the two halves of a result to `rdx` and `rax`. -/
def putWide (hi lo : BitVec 64) : State A := (s.putQ hi (.reg rdx)).putQ lo (.reg rax)

end State

/-! ## Instructions -/

inductive Ins (A L : Type)
  | mov (sz : Size) (dst src : Operand A)
  | movabs (r : Reg) (v : BitVec 64)
  | alu (op : AluOp) (sz : Size) (dst src : Operand A)
  | neg (sz : Size) (dst : Operand A)
  | shift (op : ShiftOp) (sz : Size) (dst count : Operand A)
  | cmp (sz : Size) (x y : Operand A)
  | test (sz : Size) (x y : Operand A)
  | setcc (c : Cond) (r : Reg)
  | movzx (r src : Reg)
  | movsxd (r : Reg) (src : Operand A)
  | lea (sz : Size) (r : Reg) (base offset : Operand A)
  | mul (src : Operand A)
  | imul (src : Operand A)
  | cdq
  | cqo
  | div (sz : Size) (src : Operand A)
  | idiv (sz : Size) (src : Operand A)
  | jcc (c : Cond) (l : L)
  | jmp (l : L)
  | bind (l : L)

section Step
variable {A L : Type} [DecidableEq A] (s : State A)

/-- Puts a quotient and a remainder. -/
def putDivQ (r : Option (BitVec 64 × BitVec 64)) : Option (State A) :=
  r.map fun p => (s.putWide p.2 p.1).clobberFlags

def putDivD (r : Option (BitVec 32 × BitVec 32)) : Option (State A) :=
  r.map fun p => ((s.putD p.2 (.reg rdx)).putD p.1 (.reg rax)).clobberFlags

/-- One instruction other than a jump. -/
def Ins.step : Ins A L → Option (State A)
  | .mov .q dst src => some (s.putQ (s.q src) dst)
  | .mov .d dst src => some (s.putD (s.d src) dst)
  | .movabs r v => some (s.putQ v (.reg r))
  | .alu op .q dst src => some (s.putQ (op.eval (s.q dst) (s.q src)) dst).clobberFlags
  | .alu op .d dst src => some (s.putD (op.eval (s.d dst) (s.d src)) dst).clobberFlags
  | .neg .q dst => some (s.putQ (-s.q dst) dst).clobberFlags
  | .neg .d dst => some (s.putD (-s.d dst) dst).clobberFlags
  | .shift op .q dst count => some (s.putQ (op.eval (s.q dst) ((s.q count).setWidth 8)) dst).clobberFlags
  | .shift op .d dst count => some (s.putD (op.eval (s.d dst) ((s.q count).setWidth 8)) dst).clobberFlags
  | .cmp .q x y => some (s.setFlags (.cmp (s.q x) (s.q y)))
  | .cmp .d x y => some (s.setFlags (.cmp (s.d x) (s.d y)))
  | .test .q x y => some (s.setFlags (.test (s.q x) (s.q y)))
  | .test .d x y => some (s.setFlags (.test (s.d x) (s.d y)))
  | .setcc c r => s.flags.map fun f => s.putByte (if f.holds c then 1 else 0) r
  | .movzx r src => some (s.putD ((s.byte src).setWidth 32) (.reg r))
  | .movsxd r src => some (s.putQ ((s.d src).signExtend 64) (.reg r))
  | .lea .q r base offset => some (s.putQ (s.q base + s.q offset) (.reg r))
  | .lea .d r base offset => some (s.putD (s.d base + s.d offset) (.reg r))
  | .mul src => some (s.putWide (umulHigh (s.gpr rax) (s.q src)) (s.gpr rax * s.q src)).clobberFlags
  | .imul src => some (s.putWide (smulHigh (s.gpr rax) (s.q src)) (s.gpr rax * s.q src)).clobberFlags
  | .cdq => some (s.putD (((s.d (.reg rax)).sshiftRight 31)) (.reg rdx))
  | .cqo => some (s.putQ ((s.gpr rax).sshiftRight 63) (.reg rdx))
  | .div .q src => putDivQ s (udivWide (s.gpr rdx) (s.gpr rax) (s.q src))
  | .div .d src => putDivD s (udivWide (s.d (.reg rdx)) (s.d (.reg rax)) (s.d src))
  | .idiv .q src => putDivQ s (sdivWide (s.gpr rdx) (s.gpr rax) (s.q src))
  | .idiv .d src => putDivD s (sdivWide (s.d (.reg rdx)) (s.d (.reg rax)) (s.d src))
  | .jcc _ _ | .jmp _ | .bind _ => some s

end Step

/-! ## Code -/

inductive Outcome (A L : Type)
  /-- The end of the code was reached. -/
  | done (s : State A)
  /-- A jump left the code. -/
  | left (l : L) (s : State A)
  | fault

section Exec
variable {A L : Type} [DecidableEq A] [DecidableEq L]

/-- Executes code, or skips to where a label is bound. -/
def exec : List (Ins A L) → Option L → State A → Outcome A L
  | [], none, s => .done s
  | [], some l, s => .left l s
  | .bind l' :: is, some l, s => if l' = l then exec is none s else exec is (some l) s
  | _ :: is, some l, s => exec is (some l) s
  | .bind _ :: is, none, s => exec is none s
  | .jmp l :: is, none, s => exec is (some l) s
  | .jcc c l :: is, none, s =>
    match s.flags with
    | none => .fault
    | some f => exec is (if f.holds c then some l else none) s
  | i :: is, none, s =>
    match i.step s with
    | none => .fault
    | some s' => exec is none s'

end Exec

/-- Neither a jump nor a label. -/
def Ins.straight {A L : Type} : Ins A L → Bool
  | .jcc _ _ | .jmp _ | .bind _ => false
  | _ => true

section Equations
variable {A L : Type} [DecidableEq A] [DecidableEq L] {i : Ins A L} (is js : List (Ins A L)) (s : State A) (l : L)

@[simp] theorem exec_nil : exec ([] : List (Ins A L)) none s = .done s := rfl

@[simp] theorem exec_nil_skip : exec ([] : List (Ins A L)) (some l) s = .left l s := rfl

@[simp] theorem exec_jmp : exec (.jmp l :: is) none s = exec is (some l) s := rfl

@[simp] theorem exec_bind : exec (.bind l :: is) none s = exec is none s := rfl

@[simp] theorem exec_bind_skip (l' : L) :
    exec (.bind l' :: is) (some l) s = if l' = l then exec is none s else exec is (some l) s := rfl

theorem exec_jcc {c : Cond} {f : Flags} (h : s.flags = some f) :
    exec (.jcc c l :: is) none s = exec is (if f.holds c then some l else none) s := by
  rw [exec, h]

theorem exec_straight (h : i.straight = true) : exec (i :: is) none s = (i.step s).elim .fault (exec is none) := by
  cases i with
  | jcc c l => cases h
  | jmp l => cases h
  | bind l => cases h
  | _ =>
    rw [exec]
    · cases Ins.step s _ <;> rfl
    all_goals simp

theorem exec_skip (h : ∀ l', i ≠ .bind l') : exec (i :: is) (some l) s = exec is (some l) s := by
  cases i with
  | bind l' => exact absurd rfl (h l')
  | _ => rfl

/-- Code goes on where the code before it ends. -/
theorem exec_append (k : Option L) : exec (is ++ js) k s =
    match exec is k s with
    | .done s' => exec js none s'
    | .left l s' => exec js (some l) s'
    | .fault => .fault := by
  induction is generalizing k s with
  | nil => cases k <;> rfl
  | cons i is ih =>
    rw [List.cons_append]
    cases k with
    | some l =>
      by_cases hb : ∃ l', i = .bind l'
      · obtain ⟨l', rfl⟩ := hb
        rw [exec_bind_skip, exec_bind_skip]
        split <;> exact ih ..
      · have hskip : ∀ l', i ≠ .bind l' := fun l' heq => hb ⟨l', heq⟩
        rw [exec_skip _ _ _ hskip, exec_skip _ _ _ hskip]
        exact ih ..
    | none =>
      cases i with
      | bind l => exact ih ..
      | jmp l => exact ih ..
      | jcc c l =>
        cases hf : s.flags with
        | none =>
          rw [exec, exec, hf]
        | some f =>
          rw [exec_jcc _ _ _ hf, exec_jcc _ _ _ hf]
          exact ih ..
      | _ =>
        rw [exec_straight _ _ rfl, exec_straight _ _ rfl]
        cases Ins.step s _ with
        | none => rfl
        | some s' => exact ih ..

/-- A jump skips code that does not bind its label. -/
theorem exec_skip_append {is : List (Ins A L)} (h : .bind l ∉ is) : exec (is ++ js) (some l) s = exec js (some l) s := by
  induction is with
  | nil => rfl
  | cons i is ih =>
    rw [List.mem_cons, not_or] at h
    rw [List.cons_append]
    by_cases hb : ∃ l', i = .bind l'
    · obtain ⟨l', rfl⟩ := hb
      have hne : l' ≠ l := fun heq => h.1 (by rw [heq])
      rw [exec_bind_skip, if_neg hne]
      exact ih h.2
    · rw [exec_skip _ _ _ fun l' heq => hb ⟨l', heq⟩]
      exact ih h.2

theorem exec_append_of_done {s' : State A} (h : exec is none s = .done s') : exec (is ++ js) none s = exec js none s' := by
  rw [exec_append, h]

end Equations

/-! ## Reading what was written -/

/-- An operand that can be written. -/
def Operand.Loc {A : Type} : Operand A → Prop
  | .reg _ | .mem _ => True
  | .imm _ => False

section Operands
variable {A : Type} (s : State A) {o : Operand A}

@[simp] theorem loc_reg (r : Reg) : (Operand.reg r : Operand A).Loc := trivial

@[simp] theorem loc_mem (a : A) : (Operand.mem a : Operand A).Loc := trivial

@[simp] theorem State.q_imm (v : BitVec 32) : s.q (.imm v) = v.signExtend 64 := rfl

@[simp] theorem State.d_imm (v : BitVec 32) : s.d (.imm v) = v := rfl

@[simp] theorem State.gpr_eq_q (r : Reg) : s.gpr r = s.q (.reg r) := rfl

@[simp] theorem State.d_eq (h : o.Loc) : s.d o = (s.q o).setWidth 32 := by
  cases o with
  | reg r => rfl
  | mem a => rfl
  | imm v => exact h.elim

end Operands

theorem setWidth_append_low {m n : Nat} (hi : BitVec m) (lo : BitVec n) : (hi ++ lo).setWidth n = lo := by
  apply BitVec.eq_of_getLsbD_eq
  intro i hi
  simp [BitVec.getLsbD_append, hi]

theorem setWidth_setWidth_low (v : BitVec 32) : (v.setWidth 64).setWidth 32 = v := by
  rw [BitVec.setWidth_setWidth_of_le _ (by decide), BitVec.setWidth_eq]

section Read
variable {A : Type} [DecidableEq A] (s : State A) {o o' : Operand A}

@[simp] theorem State.q_putQ (h : o.Loc) (v : BitVec 64) : (s.putQ v o).q o' = if o' = o then v else s.q o' := by
  cases o with
  | reg r =>
    cases o' with
    | reg r' =>
      show Function.update s.gpr r v r' = if Operand.reg r' = .reg r then v else s.gpr r'
      rw [Function.update_apply]
      simp only [Operand.reg.injEq]
    | mem a => rfl
    | imm w => rfl
  | mem a =>
    cases o' with
    | reg r' => rfl
    | mem a' =>
      show Function.update s.mem a v a' = if Operand.mem a' = .mem a then v else s.mem a'
      rw [Function.update_apply]
      simp only [Operand.mem.injEq]
    | imm w => rfl
  | imm w => exact h.elim

@[simp] theorem State.q_putD_of_ne (h : o' ≠ o) (v : BitVec 32) : (s.putD v o).q o' = s.q o' := by
  cases o with
  | reg r =>
    cases o' with
    | reg r' =>
      have hr : r' ≠ r := fun heq => h (congrArg _ heq)
      exact Function.update_of_ne hr ..
    | mem a => rfl
    | imm w => rfl
  | mem a =>
    cases o' with
    | reg r' => rfl
    | mem a' =>
      have ha : a' ≠ a := fun heq => h (congrArg _ heq)
      exact Function.update_of_ne ha ..
    | imm w => rfl
  | imm w => rfl

@[simp] theorem State.setWidth_q_putD (h : o.Loc) (v : BitVec 32) : ((s.putD v o).q o).setWidth 32 = v := by
  cases o with
  | reg r =>
    show (Function.update s.gpr r (v.setWidth 64) r).setWidth 32 = v
    rw [Function.update_self, setWidth_setWidth_low]
  | mem a =>
    show (Function.update s.mem a ((s.mem a).extractLsb' 32 32 ++ v) a).setWidth 32 = v
    rw [Function.update_self]
    exact setWidth_append_low _ v
  | imm w => exact h.elim

@[simp] theorem State.q_putD_reg (r : Reg) (v : BitVec 32) : (s.putD v (.reg r)).q (.reg r) = v.setWidth 64 :=
  Function.update_self ..

end Read

section Flag
variable {A : Type} (s : State A) {o' : Operand A}

@[simp] theorem State.q_putByte_of_ne (r : Reg) (h : o' ≠ .reg r) (v : BitVec 8) : (s.putByte v r).q o' = s.q o' := by
  cases o' with
  | reg r' =>
    have hr : r' ≠ r := fun heq => h (congrArg _ heq)
    exact Function.update_of_ne hr ..
  | mem a => rfl
  | imm w => rfl

@[simp] theorem State.byte_putByte (r : Reg) (v : BitVec 8) : (s.putByte v r).byte r = v := by
  show (Function.update s.gpr r ((s.gpr r).extractLsb' 8 56 ++ v) r).setWidth 8 = v
  rw [Function.update_self]
  exact setWidth_append_low _ v

@[simp] theorem State.q_setFlags (f : Flags) : (s.setFlags f).q o' = s.q o' := by cases o' <;> rfl

@[simp] theorem State.q_clobberFlags : s.clobberFlags.q o' = s.q o' := by cases o' <;> rfl

@[simp] theorem State.flags_setFlags (f : Flags) : (s.setFlags f).flags = some f := rfl

@[simp] theorem State.flags_putQ [DecidableEq A] (v : BitVec 64) (o : Operand A) : (s.putQ v o).flags = s.flags := by
  cases o <;> rfl

end Flag

/-! ## Operations of either size -/

abbrev Size.width : Size → Nat
  | .d => 32
  | .q => 64

namespace State

variable {A : Type} (s : State A)

def get : (sz : Size) → Operand A → BitVec sz.width
  | .d => s.d
  | .q => s.q

variable [DecidableEq A]

def put : (sz : Size) → BitVec sz.width → Operand A → State A
  | .d => s.putD
  | .q => s.putQ

variable {s} {sz : Size} {o o' : Operand A}

theorem get_put (h : o.Loc) (v : BitVec sz.width) : (s.put sz v o).get sz o = v := by
  cases sz with
  | d =>
    show (s.putD v o).d o = v
    rw [d_eq _ h, setWidth_q_putD _ h]
  | q =>
    show (s.putQ v o).q o = v
    rw [q_putQ _ h, if_pos rfl]

theorem q_put_of_ne (h : o' ≠ o) (ho : o.Loc) (v : BitVec sz.width) : (s.put sz v o).q o' = s.q o' := by
  cases sz with
  | d => exact q_putD_of_ne _ h _
  | q =>
    show (s.putQ v o).q o' = _
    rw [q_putQ _ ho, if_neg h]

omit [DecidableEq A] in
/-- What is read of an operand depends on its quadword. -/
theorem get_congr {s' : State A} (h : s'.q o = s.q o) (ho : o.Loc) : s'.get sz o = s.get sz o := by
  cases sz with
  | d =>
    show s'.d o = s.d o
    rw [d_eq _ ho, d_eq _ ho, h]
  | q => exact h

theorem get_put_of_ne (h : o' ≠ o) (ho : o.Loc) (ho' : o'.Loc) (v : BitVec sz.width) : (s.put sz v o).get sz o' = s.get sz o' :=
  get_congr (q_put_of_ne h ho v) ho'

omit [DecidableEq A] in
@[simp] theorem get_setFlags (f : Flags) : (s.setFlags f).get sz o = s.get sz o := by cases sz <;> cases o <;> rfl

omit [DecidableEq A] in
@[simp] theorem get_clobberFlags : s.clobberFlags.get sz o = s.get sz o := by cases sz <;> cases o <;> rfl

end State

section Sized
variable {A L : Type} [DecidableEq A] (s : State A) (sz : Size)

theorem step_mov (dst src : Operand A) : (.mov sz dst src : Ins A L).step s = some (s.put sz (s.get sz src) dst) := by
  cases sz <;> rfl

theorem step_cmp (x y : Operand A) : (.cmp sz x y : Ins A L).step s = some (s.setFlags (.cmp (s.get sz x) (s.get sz y))) := by
  cases sz <;> rfl

theorem step_xor (o : Operand A) :
    (.alu .xor sz o o : Ins A L).step s = some (s.put sz 0 o).clobberFlags := by
  cases sz with
  | d =>
    show some (s.putD (s.d o ^^^ s.d o) o).clobberFlags = _
    rw [BitVec.xor_self]
    rfl
  | q =>
    show some (s.putQ (s.q o ^^^ s.q o) o).clobberFlags = _
    rw [BitVec.xor_self]
    rfl

theorem step_div (src : Operand A) :
    (.div sz src : Ins A L).step s =
      (udivWide (s.get sz (.reg rdx)) (s.get sz (.reg rax)) (s.get sz src)).map fun p =>
        ((s.put sz p.2 (.reg rdx)).put sz p.1 (.reg rax)).clobberFlags := by
  cases sz <;> rfl

theorem step_idiv (src : Operand A) :
    (.idiv sz src : Ins A L).step s =
      (sdivWide (s.get sz (.reg rdx)) (s.get sz (.reg rax)) (s.get sz src)).map fun p =>
        ((s.put sz p.2 (.reg rdx)).put sz p.1 (.reg rax)).clobberFlags := by
  cases sz <;> rfl

end Sized

/-! ## What comparisons leave -/

section Conditions
variable {n : Nat} (x y : BitVec n)

@[simp] theorem holds_cmp_e : (Flags.cmp x y).holds .e = decide (x = y) := rfl

@[simp] theorem holds_cmp_ne : (Flags.cmp x y).holds .ne = !decide (x = y) := rfl

@[simp] theorem holds_cmp_b : (Flags.cmp x y).holds .b = decide (x < y) := rfl

@[simp] theorem holds_cmp_ae : (Flags.cmp x y).holds .ae = !decide (x < y) := rfl

/-- The sign of the difference is right unless it overflows. -/
theorem sf_ne_of_cmp : ((Flags.cmp x y).sf != (Flags.cmp x y).of) = x.slt y := by
  show ((x - y).msb != x.ssubOverflow y) = x.slt y
  rcases n with - | m
  · rw [BitVec.of_length_zero (x := x), BitVec.of_length_zero (x := y)]
    rfl
  have hx := x.toInt_lt
  have hx' := x.le_toInt
  have hy := y.toInt_lt
  have hy' := y.le_toInt
  have hsub : (x - y).toInt = (x.toInt - y.toInt).bmod (2 ^ (m + 1)) := BitVec.toInt_sub ..
  rw [BitVec.msb_eq_toInt, hsub, Int.bmod_def, BitVec.slt_eq_decide]
  simp only [BitVec.ssubOverflow, Nat.add_sub_cancel, ge_iff_le, Nat.cast_pow, Nat.cast_ofNat] at *
  have hpow : (2 : Int) ^ (m + 1) = 2 * 2 ^ m := by rw [pow_succ, mul_comm]
  rw [hpow] at *
  generalize hP : (2 : Int) ^ m = P at *
  have hpos : 0 < P := by
    rw [← hP]
    exact Int.pow_pos (by decide)
  generalize x.toInt = a at *
  generalize y.toInt = b at *
  have hmod : (a - b) % (2 * P) = if a - b < 0 then a - b + 2 * P else a - b := by
    split
    · rw [← Int.add_emod_right, Int.emod_eq_of_lt (by omega) (by omega)]
    · rw [Int.emod_eq_of_lt (by omega) (by omega)]
  rw [hmod, ← Bool.decide_or, Bool.eq_iff_iff, bne_iff_ne, ne_eq, decide_eq_decide, decide_eq_true_iff]
  split <;> split <;> omega

@[simp] theorem holds_cmp_l : (Flags.cmp x y).holds .l = x.slt y := sf_ne_of_cmp x y

@[simp] theorem holds_cmp_ge : (Flags.cmp x y).holds .ge = !x.slt y := by
  rw [← sf_ne_of_cmp]
  unfold Flags.holds
  cases (Flags.cmp x y).sf <;> cases (Flags.cmp x y).of <;> rfl

@[simp] theorem holds_test_ne : (Flags.test x x).holds .ne = !decide (x = 0) := by
  simp [Flags.holds, Flags.test]

@[simp] theorem holds_test_e : (Flags.test x x).holds .e = decide (x = 0) := by
  simp [Flags.holds, Flags.test]

@[simp] theorem holds_test_ns : (Flags.test x x).holds .ns = !x.msb := by
  simp [Flags.holds, Flags.test]

end Conditions

/-! ## Quotients -/

section Quotients
variable {n : Nat} (x y : BitVec n)

/-- What `cqo` and `cdq` leave in `rdx`. -/
theorem sign_eq (hn : 0 < n) : x.sshiftRight (n - 1) = if x.toInt < 0 then -1#n else 0#n := by
  obtain ⟨m, rfl⟩ : ∃ m, n = m + 1 := ⟨n - 1, by omega⟩
  have hlt : x.toInt < 2 ^ m := x.toInt_lt
  have hle : -2 ^ m ≤ x.toInt := x.le_toInt
  apply BitVec.eq_of_toInt_eq
  rw [BitVec.toInt_sshiftRight, Int.shiftRight_eq_div_pow]
  simp only [Nat.add_sub_cancel, Nat.cast_pow, Nat.cast_ofNat]
  split
  · next h =>
    rw [Int.ediv_eq_neg_one_of_neg_of_le h (by omega), BitVec.neg_one_eq_allOnes]
    simp
  · next h => simp [Int.ediv_eq_zero_of_lt (by omega) hlt]

/-- `cqo` and `cdq` extend `rax` to twice the width. -/
theorem toInt_sign (hn : 0 < n) : (x.sshiftRight (n - 1)).toInt * 2 ^ n + x.toNat = x.toInt := by
  rw [sign_eq x hn]
  have hmsb := BitVec.toInt_eq_toNat_cond x
  have hx := x.isLt
  split
  · next h =>
    rw [BitVec.neg_one_eq_allOnes, BitVec.toInt_allOnes, if_pos hn]
    split at hmsb
    · omega
    · rw [hmsb]
      simp
      omega
  · next h =>
    rw [BitVec.toInt_zero]
    split at hmsb
    · omega
    · have : (x.toNat : Int) < (2 ^ n : Nat) := by exact_mod_cast hx
      omega

variable {x y}

theorem sdivWide_sign (hn : 0 < n) (hy : y ≠ 0) (hov : x ≠ BitVec.intMin n ∨ y ≠ -1#n) :
    sdivWide (x.sshiftRight (n - 1)) x y = some (x.sdiv y, x.srem y) := by
  have hquot : (x.sdiv y).toInt = x.toInt.tdiv y.toInt := BitVec.toInt_sdiv_of_ne_or_ne x y hov
  have hrem : (x.srem y).toInt = x.toInt.tmod y.toInt := BitVec.toInt_srem x y
  unfold sdivWide
  dsimp only
  rw [toInt_sign x hn, ← hquot, ← hrem, if_neg, BitVec.ofInt_toInt, BitVec.ofInt_toInt]
  rw [not_or, not_not]
  exact ⟨hy, BitVec.le_toInt _, BitVec.toInt_lt⟩

theorem toInt_neg_one (hn : 0 < n) : (-1#n).toInt = -1 := by
  rw [BitVec.neg_one_eq_allOnes, BitVec.toInt_allOnes, if_pos hn]

theorem sdiv_neg_one (hn : 0 < n) : x.sdiv (-1#n) = -x := by
  apply BitVec.eq_of_toInt_eq
  rw [BitVec.toInt_sdiv, toInt_neg_one hn, Int.tdiv_neg, Int.tdiv_one, BitVec.toInt_neg]

theorem srem_neg_one (hn : 0 < n) : x.srem (-1#n) = 0#n := by
  apply BitVec.eq_of_toInt_eq
  rw [BitVec.toInt_srem, toInt_neg_one hn, Int.tmod_neg, Int.tmod_one, BitVec.toInt_zero]

/-- A division by what `cqo` or `cdq` leaves is one by -1 of a negative number. -/
theorem sdivWide_sign_sign (hn : 0 < n) :
    sdivWide (x.sshiftRight (n - 1)) x (x.sshiftRight (n - 1)) =
      if x.toInt < 0 ∧ x ≠ BitVec.intMin n then some (-x, 0#n) else none := by
  by_cases hneg : x.toInt < 0
  · have hsign : x.sshiftRight (n - 1) = -1#n := by rw [sign_eq x hn, if_pos hneg]
    have hne : (-1#n) ≠ 0#n := by
      rw [BitVec.neg_one_eq_allOnes]
      intro h
      have := congrArg BitVec.toInt h
      rw [BitVec.toInt_allOnes, if_pos hn, BitVec.toInt_zero] at this
      omega
    by_cases hmin : x = BitVec.intMin n
    · rw [if_neg fun h => h.2 hmin]
      unfold sdivWide
      dsimp only
      rw [toInt_sign x hn, hsign, if_pos]
      right
      rw [hmin, BitVec.toInt_intMin_of_pos hn, BitVec.neg_one_eq_allOnes, BitVec.toInt_allOnes, if_pos hn]
      simp
    · rw [if_pos ⟨hneg, hmin⟩]
      have hdiv := sdivWide_sign (y := -1#n) hn hne (.inl hmin)
      rw [hsign] at hdiv ⊢
      rw [hdiv, sdiv_neg_one hn, srem_neg_one hn]
  · rw [if_neg fun h => hneg h.1, sign_eq x hn, if_neg hneg]
    unfold sdivWide
    simp

theorem udivWide_zero (hy : y ≠ 0#n) : udivWide 0#n x y = some (x / y, x % y) := by
  unfold udivWide
  dsimp only
  have hpos : 0 < y.toNat := by
    rcases Nat.eq_zero_or_pos y.toNat with h | h
    · exact absurd (BitVec.eq_of_toNat_eq (by simpa using h)) hy
    · exact h
  have hle : x.toNat / y.toNat ≤ x.toNat := Nat.div_le_self ..
  have hx := x.isLt
  rw [BitVec.toNat_zero, Nat.zero_mul, Nat.zero_add, if_neg]
  · congr 2
    · apply BitVec.eq_of_toNat_eq
      rw [BitVec.toNat_ofNat, BitVec.toNat_udiv, Nat.mod_eq_of_lt (by omega)]
    · apply BitVec.eq_of_toNat_eq
      have hmod : x.toNat % y.toNat < y.toNat := Nat.mod_lt _ hpos
      have hylt := y.isLt
      rw [BitVec.toNat_ofNat, BitVec.toNat_umod, Nat.mod_eq_of_lt (by omega)]
  · rw [not_or]
    exact ⟨hy, by omega⟩

theorem udivWide_by_zero (hi lo : BitVec n) : udivWide hi lo 0#n = none := by
  unfold udivWide
  simp

end Quotients

end Rv8.Lib.X86
