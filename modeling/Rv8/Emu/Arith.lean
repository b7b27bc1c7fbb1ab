import Rv8.Emu.Processor
/-!
# Arithmetic of the interpreter

The functions of `alu.h` and `fpu.h` that the interpreter calls. A `Host` gives what
C leaves open or leaves to the machine: the result of a shift by the width or more,
what an uninitialised local holds, and IEEE arithmetic. Floating-point values are bit
patterns, and the accrued exceptions of the host are part of the state.
-/

namespace Rv8.Emu

/-! ## Formats -/

/-- `f32_type` and `f64_type` -/
inductive FpFmt
  | s | d
deriving DecidableEq

namespace FpFmt

def width : FpFmt → Nat
  | .s => 32 | .d => 64

def manSize : FpFmt → Nat
  | .s => 23 | .d => 52

def expSize : FpFmt → Nat
  | .s => 8 | .d => 11

variable (fmt : FpFmt) (x : BitVec fmt.width)

def man : Nat := x.toNat % 2 ^ fmt.manSize
def exp : Nat := (x.toNat >>> fmt.manSize) % 2 ^ fmt.expSize
def sign : Bool := x.msb

def expInf : Nat := 2 ^ fmt.expSize - 1

def isnan : Bool := fmt.exp x == fmt.expInf && fmt.man x != 0
def isinf : Bool := fmt.exp x == fmt.expInf && fmt.man x == 0

/-- `float_classify`: the value of `rv_fclass_*`. -/
def classify : Nat :=
  let neg := fmt.sign x
  if fmt.exp x = 0 then
    if fmt.man x = 0 then if neg then 8 else 16 else if neg then 4 else 32
  else if fmt.exp x = fmt.expInf then
    if fmt.man x = 0 then if neg then 1 else 128 else if fmt.man x % 2 = 1 then 256 else 512
  else if neg then 2 else 64

end FpFmt

/-! ## Host -/

/-- The operators of the host on two floating-point values. -/
inductive FpOp
  | add | sub | mul | div
deriving DecidableEq

/-- `x * y + z`, `x * y - z`, `x * -y + z` and `x * -y - z`. -/
inductive FusedOp
  | madd | msub | nmsub | nmadd
deriving DecidableEq

inductive ShiftOp
  | shl | shr | sar
deriving DecidableEq

structure Host where
  shiftOut : ShiftOp → (n : Nat) → BitVec n → Int → BitVec n
  uninit : Nat
  fused : FusedOp → (fmt : FpFmt) → Fenv → BitVec fmt.width → BitVec fmt.width → BitVec fmt.width →
    BitVec fmt.width × Fenv
  arith : FpOp → (fmt : FpFmt) → Fenv → BitVec fmt.width → BitVec fmt.width → BitVec fmt.width × Fenv
  sqrt : (fmt : FpFmt) → Fenv → BitVec fmt.width → BitVec fmt.width × Fenv
  le : (fmt : FpFmt) → Fenv → BitVec fmt.width → BitVec fmt.width → Bool × Fenv
  lt : (fmt : FpFmt) → Fenv → BitVec fmt.width → BitVec fmt.width → Bool × Fenv
  eq : (fmt : FpFmt) → Fenv → BitVec fmt.width → BitVec fmt.width → Bool × Fenv
  /-- `f32(i)` and `f64(i)` -/
  ofInt : (fmt : FpFmt) → Fenv → Int → BitVec fmt.width × Fenv
  /-- `s32(f)`, `u32(f)`, `s64(f)` and `u64(f)`, by width and signedness. -/
  toInt : (fmt : FpFmt) → (n : Nat) → Bool → Fenv → BitVec fmt.width → BitVec n × Fenv
  /-- `f32(f)` and `f64(f)` -/
  convert : (src dst : FpFmt) → Fenv → BitVec src.width → BitVec dst.width × Fenv

/-- A host that leaves everything at 0. -/
instance : Inhabited Host where
  default := {
    shiftOut := fun _ _ _ _ => 0, uninit := 0, fused := fun _ _ e _ _ _ => (0, e),
    arith := fun _ _ e _ _ => (0, e), sqrt := fun _ e _ => (0, e), le := fun _ e _ _ => (false, e),
    lt := fun _ e _ _ => (false, e), eq := fun _ e _ _ => (false, e), ofInt := fun _ e _ => (0, e),
    toInt := fun _ _ _ e _ => (0, e), convert := fun _ _ e _ => (0, e) }

/-! ## Integers -/

section Integers
variable {n : Nat}

def Host.shift (host : Host) (op : ShiftOp) (x : BitVec n) (k : Int) : BitVec n :=
  if 0 ≤ k ∧ k < n then
    match op with
    | .shl => x <<< k.toNat
    | .shr => x >>> k.toNat
    | .sar => x.sshiftRight k.toNat
  else host.shiftOut op n x k

def ofBit (n : Nat) (b : Bool) : BitVec n := if b then 1 else 0

/-- The high word of a product of quarter words: `z3 + (z4 >> qb) + (c1 << qb) + c2`, and the low word. -/
def mulWide (x y : BitVec n) : BitVec n × BitVec n :=
  let qb := n / 2
  let mask : BitVec n := (1 <<< qb) - 1
  let x0 := x &&& mask
  let x1 := x >>> qb &&& mask
  let y0 := y &&& mask
  let y1 := y >>> qb &&& mask
  let z0 := x0 * y0
  let z1 := x1 * y0
  let z2 := x0 * y1
  let z3 := x1 * y1
  let z4 := z1 + z2
  let c1 := ofBit n (z4 < z1)
  let lo := z0 + (z4 <<< qb)
  let c2 := ofBit n (lo < z0)
  (z3 + (z4 >>> qb) + (c1 <<< qb) + c2, lo)

def mulhu (x y : BitVec n) : BitVec n := (mulWide x y).1

/-- `(~xs + 1) ^ (x - xs)` for `xs = x < 0` -/
def magnitude (x : BitVec n) : BitVec n :=
  let xs := ofBit n (x.slt 0)
  (~~~xs + 1) ^^^ (x - xs)

/-- Negates the wide product `h1:l1` if `rs` is set and returns its high word. -/
def negateHigh (rs : BitVec n) (p : BitVec n × BitVec n) : BitVec n :=
  let l2 := p.2 - rs
  let hb := ofBit n (p.2 < l2)
  let h2 := p.1 - hb
  rs.neg ^^^ h2

def mulh (x y : BitVec n) : BitVec n :=
  negateHigh (ofBit n (x.slt 0) ^^^ ofBit n (y.slt 0)) (mulWide (magnitude x) (magnitude y))

def mulhsu (x y : BitVec n) : BitVec n :=
  negateHigh (ofBit n (x.slt 0)) (mulWide (magnitude x) y)

/-! The division instructions, as the interpreter has them. -/

def div (x y : BitVec n) : BitVec n :=
  if x = BitVec.intMin n ∧ y = -1 then BitVec.intMin n else if y = 0 then -1 else x.sdiv y

def divu (x y : BitVec n) : BitVec n := if y = 0 then -1 else x.udiv y

def rem (x y : BitVec n) : BitVec n :=
  if x = BitVec.intMin n ∧ y = -1 then 0 else if y = 0 then x else x.srem y

def remu (x y : BitVec n) : BitVec n := if y = 0 then x else x.umod y

end Integers

/-! ## Floating point -/

/-- The state that floating-point code reads and changes. -/
structure FpState where
  fenv : Fenv
  fcsr : BitVec 32

abbrev FpM := StateM FpState

namespace Host

variable (host : Host) (fmt : FpFmt)

/-- An operation of the host on its environment. -/
def onFenv {α : Type} (f : Fenv → α × Fenv) : FpM α := fun s => ((f s.fenv).1, { s with fenv := (f s.fenv).2 })

def raiseFlag (flag : BitVec 32) : FpM Unit := modify fun s => { s with fcsr := s.fcsr ||| flag }

/-- `fcvt_w` and `fcvt_l`, by the width of the result. -/
def fcvt (n : Nat) (f : BitVec fmt.width) : FpM (BitVec n) := do
  let top ← onFenv (host.ofInt fmt · (2 ^ (n - 1) - 1))
  let above ← onFenv (host.lt fmt · top f)
  let t ← onFenv (host.toInt fmt n true · f)
  if above && t.slt 0 || fmt.isnan f then pure (BitVec.intMax n)
  else onFenv (host.toInt fmt n true · f)

/-- `fcvt_wu` and `fcvt_lu` -/
def fcvtu (n : Nat) (f : BitVec fmt.width) : FpM (BitVec n) := do
  let zero ← onFenv (host.ofInt fmt · 0)
  let nonneg ← onFenv (host.le fmt · zero f)
  if fmt.isnan f || nonneg && fmt.isinf f then pure (BitVec.allOnes n)
  else if ← onFenv (host.le fmt · zero f) then onFenv (host.toInt fmt n false · f)
  else do
    let minusOne ← onFenv (host.ofInt fmt · (-1))
    if ← onFenv (host.lt fmt · minusOne f) then do
      raiseFlag rvFcsrNX
      pure 0
    else do
      raiseFlag rvFcsrNV
      pure 0

/-- `fmin` and `fmax`, by the comparison. -/
def select (less : Fenv → Bool × Fenv) (x y : BitVec fmt.width) : FpM (BitVec fmt.width) := do
  let b ← onFenv less
  pure (if b || fmt.isnan y then x else y)

end Host

/-- The sign bit of a format. -/
def FpFmt.signBit (fmt : FpFmt) : BitVec fmt.width := 1 <<< (fmt.width - 1)

section Sign
variable (fmt : FpFmt) (x y : BitVec fmt.width)

def fsgnj : BitVec fmt.width := (x &&& ~~~fmt.signBit) ||| (y &&& fmt.signBit)
def fsgnjn : BitVec fmt.width := (x &&& ~~~fmt.signBit) ||| (~~~y &&& fmt.signBit)
def fsgnjx : BitVec fmt.width := x ^^^ (y &&& fmt.signBit)

end Sign

end Rv8.Emu
