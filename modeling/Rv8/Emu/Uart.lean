import Rv8.Lib.Log
import Rv8.Lib.Steps
/-!
# The serial port

`uart_mmio_device` of `device-uart.h`. Eight offsets reach some twelve registers,
depending on the direction of the access and on the DLAB bit of LCR; six of them can be
read and written. An access brings along what the console holds for it. The
registers `iir`, `fcr`, `lsr` and `msr` of the device are never used.
-/

namespace Rv8.Emu

open Rv8.Lib

structure Uart where
  (rbr thr ier lcr mcr scr dll dlm : BitVec 8)
deriving DecidableEq

namespace Uart

@[match_pattern] abbrev REG_RBR : Nat := 0
@[match_pattern] abbrev REG_THR : Nat := 0
@[match_pattern] abbrev REG_DLL : Nat := 0
@[match_pattern] abbrev REG_IER : Nat := 1
@[match_pattern] abbrev REG_DLM : Nat := 1
@[match_pattern] abbrev REG_IIR : Nat := 2
@[match_pattern] abbrev REG_FCR : Nat := 2
@[match_pattern] abbrev REG_LCR : Nat := 3
@[match_pattern] abbrev REG_MCR : Nat := 4
@[match_pattern] abbrev REG_LSR : Nat := 5
@[match_pattern] abbrev REG_MSR : Nat := 6
@[match_pattern] abbrev REG_SCR : Nat := 7

def IER_MASK : BitVec 8 := 0x0f
def IIR_TX_RDY : BitVec 8 := 0x02
def IIR_RD_LSR : BitVec 8 := 0x06
def LSR_DA : BitVec 8 := 0x01
def LSR_RE : BitVec 8 := 0x20
def MSR_DSR : BitVec 8 := 0x20
def MSR_DCD : BitVec 8 := 0x80

/-- As constructed. -/
def fresh : Uart := ⟨0, 0, 0, 0, 0, 0, 0, 0⟩

/-- `com.lcr & LCR_DLAB`. -/
def dlab (d : Uart) : Bool := d.lcr.getLsbD 7

/-- The identity register: `console->has_char() ? IIR_RD_LSR : IIR_TX_RDY`. -/
def iir (input : Option (BitVec 8)) : BitVec 8 := if input.isSome then IIR_RD_LSR else IIR_TX_RDY

variable (d : Uart) (input : Option (BitVec 8)) (va : Nat) (val : BitVec 8)

/-- `load_8`. The caller's `val` is kept where no case assigns it. -/
def load8 : BitVec 8 × Uart :=
  if d.dlab then
    match va with
    | REG_DLL => (d.dll, d)
    | REG_DLM => (d.dlm, d)
    | REG_LCR => (d.lcr, d)
    | REG_MCR => (d.mcr, d)
    | _ => (val, d)
  else
    match va with
    | REG_RBR =>
      let d := input.elim d fun c => { d with rbr := c }
      (d.rbr, d)
    -- `val = com.ier` has no break: the next case assigns `val` again
    | REG_IER => (iir input, d)
    | REG_IIR => (iir input, d)
    | REG_LCR => (d.lcr, d)
    | REG_MCR => (d.mcr, d)
    | REG_LSR => (LSR_RE ||| if input.isSome then LSR_DA else 0, d)
    | REG_MSR => (MSR_DCD ||| MSR_DSR, d)
    | REG_SCR => (d.scr, d)
    | _ => (0, d)

/-- `store_8`, with the character that goes to the console. -/
def store8 : Option (BitVec 8) × Uart :=
  if d.dlab then
    match va with
    | REG_DLL => (none, { d with dll := val })
    | REG_DLM => (none, { d with dlm := val })
    | REG_LCR => (none, { d with lcr := val })
    | REG_MCR => (none, { d with mcr := val })
    | _ => (none, d)
  else
    match va with
    | REG_THR => (some val, { d with thr := val })
    | REG_IER => (none, { d with ier := val &&& IER_MASK })
    | REG_FCR => (none, d)
    | REG_LCR => (none, { d with lcr := val })
    | REG_MCR => (none, { d with mcr := val })
    | REG_LSR => (none, d)
    | REG_MSR => (none, d)
    | REG_SCR => (none, { d with scr := val })
    | _ => (none, d)

/-! ## The registers that read back -/

/-- The registers that can be read and written. -/
inductive Reg
  | lcr | mcr | ier | scr | dll | dlm
deriving DecidableEq

def Reg.get : Reg → Uart → BitVec 8
  | .lcr => Uart.lcr
  | .mcr => Uart.mcr
  | .ier => Uart.ier
  | .scr => Uart.scr
  | .dll => Uart.dll
  | .dlm => Uart.dlm

/-- The register at an offset. -/
def Reg.ofOffset (dlab : Bool) (va : Nat) : Option Reg :=
  match va, dlab with
  | 0, true => some .dll
  | 1, true => some .dlm
  | 1, false => some .ier
  | 3, _ => some .lcr
  | 4, _ => some .mcr
  | 7, false => some .scr
  | _, _ => none

/-- The bits of a value the register keeps: four of IER. -/
def Reg.kept : Reg → BitVec 8 → BitVec 8
  | .ier, val => val &&& 0x0f
  | _, val => val

/-- A store reaches the register at its offset and no other. -/
theorem get_store8 (r : Reg) : r.get (d.store8 va val).2 = if Reg.ofOffset d.dlab va = some r then r.kept val else r.get d := by
  unfold store8
  cases hd : d.dlab with
  | true =>
    rcases va with _ | _ | _ | _ | _ | _ | _ | _ | n <;> cases r <;> rfl
  | false =>
    rcases va with _ | _ | _ | _ | _ | _ | _ | _ | n <;> cases r <;> rfl

/-- A load changes none of the registers. -/
theorem get_load8 (r : Reg) : r.get (d.load8 input va val).2 = r.get d := by
  unfold load8
  cases hd : d.dlab with
  | true =>
    rcases va with _ | _ | _ | _ | _ | n <;> rfl
  | false =>
    rcases va with _ | _ | _ | _ | _ | _ | _ | _ | n <;> cases input <;> cases r <;> rfl

/-- A load returns the register at its offset, except that IER shows the identity register. -/
theorem load8_value {r : Reg} (h : Reg.ofOffset d.dlab va = some r) :
    (d.load8 input va val).1 = if r = .ier then iir input else r.get d := by
  unfold load8
  cases hd : d.dlab with
  | true =>
    rw [hd] at h
    rcases va with _ | _ | _ | _ | _ | _ | _ | _ | n <;> cases h <;> rfl
  | false =>
    rw [hd] at h
    rcases va with _ | _ | _ | _ | _ | _ | _ | _ | n <;> cases h <;> rfl

/-! ## Runs -/

/-- A load finds the console with or without a character and leaves its result in a variable that held `val`. -/
inductive Access
  | load (input : Option (BitVec 8)) (va : Nat) (val : BitVec 8)
  | store (va : Nat) (val : BitVec 8)

def access (d : Uart) : Access → Uart
  | .load input va val => (d.load8 input va val).2
  | .store va val => (d.store8 va val).2

/-- One access, kept in the log. -/
def step (s : Logged Uart Access) (a : Access) : Option (Logged Uart Access) :=
  some { state := s.state.access a, log := a :: s.log }

def start : Logged Uart Access := ⟨fresh, []⟩

/-- DLAB by the last value stored to LCR; it is clear before the first. -/
def dlabOf (lcr : Option (BitVec 8)) : Bool := lcr.any (·.getLsbD 7)

/-- The value last stored to each register, by the log of the run. -/
def stored : List Access → Reg → Option (BitVec 8)
  | [], _ => none
  | .load _ _ _ :: log, r => stored log r
  | .store va val :: log, r => if Reg.ofOffset (dlabOf (stored log .lcr)) va = some r then some (r.kept val) else stored log r

/-- The register an access reaches after the accesses of the log. -/
def reaches (log : List Access) (va : Nat) : Option Reg := Reg.ofOffset (dlabOf (stored log .lcr)) va

/-- A load returns what was last stored to its register; a store changes no other of the registers. -/
def ReadsBack (s : Logged Uart Access) : Access → Prop
  | .load input va val => ∀ r ∈ reaches s.log va, ∀ v ∈ stored s.log r, (s.state.load8 input va val).1 = v
  | .store va val => ∀ r, reaches s.log va ≠ some r → r.get (s.state.store8 va val).2 = r.get s.state

/-- Where IER is loaded after a store to it, what was stored happens to be the identity register. -/
def Fits (s : Logged Uart Access) : Access → Prop
  | .load input va _ => reaches s.log va = some .ier → ∀ v ∈ stored s.log .ier, v = iir input
  | .store _ _ => True

/-- The device holds what the log says was stored. -/
structure Agrees (s : Logged Uart Access) : Prop where
  value : ∀ r, ∀ v ∈ stored s.log r, r.get s.state = v
  dlab : s.state.dlab = dlabOf (stored s.log .lcr)

theorem agrees_start : Agrees start where
  value _ _ h := by cases h
  dlab := rfl

theorem agrees_step {s s' : Logged Uart Access} {a : Access} (h : Agrees s) (hs : step s a = some s') : Agrees s' := by
  obtain rfl := Option.some.inj hs
  cases a with
  | load input va val =>
    constructor
    · intro r v hv
      exact (get_load8 s.state input va val r).trans (h.value r v hv)
    · exact (congrArg (·.getLsbD 7) (get_load8 s.state input va val .lcr)).trans h.dlab
  | store va val =>
    have hget : ∀ r, r.get (s.state.store8 va val).2 =
        if Reg.ofOffset (dlabOf (stored s.log .lcr)) va = some r then r.kept val else r.get s.state := by
      intro r
      rw [get_store8, h.dlab]
    constructor
    · intro r v hv
      refine (hget r).trans ?_
      simp only [stored] at hv
      split at hv
      · next hr =>
        rw [if_pos hr]
        exact Option.some.inj hv
      · next hr =>
        rw [if_neg hr]
        exact h.value r v hv
    · refine (congrArg (·.getLsbD 7) (hget .lcr)).trans ?_
      simp only [stored]
      split
      · rfl
      · exact h.dlab

theorem readsBack_iff_fits {s : Logged Uart Access} (h : Agrees s) (a : Access) : ReadsBack s a ↔ Fits s a := by
  cases a with
  | load input va val =>
    have hvalue : ∀ r, reaches s.log va = some r → (s.state.load8 input va val).1 = if r = .ier then iir input else r.get s.state := by
      intro r hr
      apply load8_value
      rw [h.dlab]
      exact hr
    constructor
    · intro hread hr v hv
      rw [← hread .ier hr v hv, hvalue .ier hr, if_pos rfl]
    · intro hfits r hr v hv
      rw [hvalue r hr]
      split
      · next hier =>
        subst hier
        exact (hfits hr v hv).symm
      · exact h.value r v hv
  | store va val =>
    refine iff_of_true ?_ trivial
    intro r hr
    rw [get_store8, h.dlab]
    exact if_neg hr

/-- Every register reads back in a run exactly if IER is never loaded with another value stored than the identity register shows. -/
theorem along_readsBack_iff (as : List Access) : Along step ReadsBack as start ↔ Along step Fits as start := by
  constructor
  · intro h
    exact h.imp (fun s a s' hI _ hs => agrees_step hI hs) (fun s a hI => (readsBack_iff_fits hI a).1) agrees_start
  · intro h
    exact h.imp (fun s a s' hI _ hs => agrees_step hI hs) (fun s a hI => (readsBack_iff_fits hI a).2) agrees_start

/-- IER is written with 5 and reads as 2: no character waits. -/
theorem not_readsBack_ier : ¬ ∀ as : List Access, Along step ReadsBack as start := by
  intro h
  have hread := ((h [.store 1 5, .load none 1 0]).2 _ rfl).1 .ier rfl 5 rfl
  exact absurd hread (by decide)

end Uart

end Rv8.Emu
