import Mathlib.Data.List.Forall2
import Mathlib.Data.List.Induction
import Rv8.Emu.Interp
/-!
# Macro fusion

`jit_fusion` of `jit-fusion.h` stands between the tracer and the emitter. It holds back
`auipc`, `addiw` and `slli`, and hands over a pseudo-instruction in their place where
the instructions that follow complete one. The cases of its switch fall through: an
`addiw` that does not match is tried as an `slli`, and an `addi` as a `jalr`.

A sequence is executed as long as each instruction is the one the processor has come
to; where the pc leads elsewhere, the rest of the trace is not executed.
-/

namespace Rv8.Jit

open Rv8.Asm

/-! ## Decoded instructions -/

/-- `rv_op_*` and `jit_op_*` -/
inductive JitOp
  | rv (op : RvOp)
  | la | call | zextw | addiwz
deriving DecidableEq

/-- The fields of `jit_decode` that fusion and the emitters of integer instructions read. -/
structure JitDecode where
  pc : BitVec 64 := 0
  inst : Nat := 0
  imm : BitVec 32 := 0
  op : JitOp := .rv .illegal
  (rd rs1 rs2 : Nat := 0)
  /-- `u8 sz : 4` -/
  sz : BitVec 4 := 0
deriving DecidableEq

/-- `inst_length` -/
def instLength (inst : Nat) : Nat :=
  if inst &&& 0b11 ≠ 0b11 then 2
  else if inst &&& 0b11100 ≠ 0b11100 then 4
  else if inst &&& 0b111111 = 0b011111 then 6
  else if inst &&& 0b1111111 = 0b0111111 then 8
  else 0

def JitDecode.length (d : JitDecode) : Nat := instLength d.inst

/-! ## The matcher -/

inductive MatchState
  | none | auipc | zextw | addiw | addiwz
deriving DecidableEq

structure Fusion where
  imm : BitVec 64 := 0
  rd : Nat := 0
  rs1 : Nat := 0
  sz : Nat := 0
  pseudoPc : BitVec 64 := 0
  state : MatchState := .none
  queue : List JitDecode := []
  /-- What the next stage was handed so far. -/
  out : List JitDecode := []

namespace Fusion

variable (m : Fusion) (d : JitDecode)

/-- `E::emit(dec)` -/
def pass : Fusion := { m with out := m.out ++ [d] }

def emitQueue : Fusion := { m with state := .none, out := m.out ++ m.queue, queue := [] }

def clearQueue : Fusion := { m with state := .none, queue := [] }

/-- The assignments that hold back an `slli` by 32. -/
def holdZextw : Fusion :=
  { m with rd := d.rd, rs1 := d.rs1, pseudoPc := d.pc, sz := d.length, state := .zextw, queue := m.queue ++ [d] }

/-- `case rv_op_slli`, which `addiw` falls into. -/
def idleSlli : Fusion := if d.imm = 32 then m.holdZextw d else m.pass d

def idle : Fusion :=
  match d.op with
  | .rv .auipc =>
    { m with rd := d.rd, imm := d.imm.signExtend 64, pseudoPc := d.pc, state := .auipc, queue := m.queue ++ [d] }
  | .rv .addiw =>
    if d.rd = d.rs1 then
      { m with
        rd := d.rd, imm := d.imm.signExtend 64, pseudoPc := d.pc, sz := d.length
        state := .addiw, queue := m.queue ++ [d] }
    else m.idleSlli d
  | .rv .slli => m.idleSlli d
  | _ => m.pass d

/-- The default of the other states. -/
def flush : Fusion := m.emitQueue.pass d

/-- The instruction shifts the register that is matched by 32. -/
def Shifts : Prop := m.rd = d.rd ∧ m.rd = d.rs1 ∧ d.imm = 32

instance : Decidable (m.Shifts d) := inferInstanceAs (Decidable (_ ∧ _))

def afterAddiw : Fusion :=
  match d.op with
  | .rv .slli =>
    if m.Shifts d then { m with sz := m.sz + d.length, state := .addiwz, queue := m.queue ++ [d] }
    else if d.imm = 32 then m.emitQueue.holdZextw d
    else m.flush d
  | _ => m.flush d

def afterAddiwz : Fusion :=
  match d.op with
  | .rv .srli =>
    if m.Shifts d then
      (m.pass { pc := m.pseudoPc, inst := d.inst, op := .addiwz, rd := m.rd, imm := m.imm.setWidth 32
                sz := BitVec.ofNat 4 (m.sz + d.length) }).clearQueue
    else m.flush d
  | _ => m.flush d

/-- `case rv_op_jalr`, which `addi` falls into. -/
def auipcJalr : Fusion :=
  if m.rd = d.rs1 ∧ d.rd = rvIregRa then
    let imm := m.imm + d.imm.signExtend 64
    ({ m with imm }.pass { pc := m.pseudoPc, inst := d.inst, op := .call, rd := d.rs1, imm := imm.setWidth 32 }).clearQueue
  else m.flush d

def afterAuipc : Fusion :=
  match d.op with
  | .rv .addi =>
    if m.rd = d.rd ∧ m.rd = d.rs1 then
      let imm := m.imm + d.imm.signExtend 64
      ({ m with imm }.pass { pc := m.pseudoPc, inst := d.inst, op := .la, rd := d.rs1, imm := imm.setWidth 32 }).clearQueue
    else m.auipcJalr d
  | .rv .jalr => m.auipcJalr d
  | _ => m.flush d

def afterZextw : Fusion :=
  match d.op with
  | .rv .srli =>
    if m.Shifts d then
      (m.pass { pc := m.pseudoPc, inst := d.inst, op := .zextw, rd := m.rd, rs1 := m.rs1
                sz := BitVec.ofNat 4 (m.sz + d.length) }).clearQueue
    else m.flush d
  | _ => m.flush d

def emit : Fusion :=
  match m.state with
  | .none => m.idle d
  | .addiw => m.afterAddiw d
  | .addiwz => m.afterAddiwz d
  | .auipc => m.afterAuipc d
  | .zextw => m.afterZextw d

/-- The matcher after a sequence. -/
def after (ds : List JitDecode) : Fusion := ds.foldl emit {}

end Fusion

/-- What the next stage is handed for a sequence and `end()`. -/
def fuse (ds : List JitDecode) : List JitDecode := (Fusion.after ds).emitQueue.out

/-! ## Meaning -/

/-- The integer registers and the pc, and whatever else the other instructions act on. -/
@[ext] structure Cpu (M : Type) where
  ireg : Nat → BitVec 64
  pc : BitVec 64
  rest : M
  ireg_zero : ireg 0 = 0

namespace Cpu

variable {M : Type} (c : Cpu M)

def set (rd : Nat) (v : BitVec 64) : Cpu M :=
  { c with ireg := fun r => if r = rd ∧ r ≠ 0 then v else c.ireg r, ireg_zero := by simp [c.ireg_zero] }

def goto (pc : BitVec 64) : Cpu M := { c with pc }

/-- Goes on with the next instruction. -/
def next (n : Nat) : Cpu M := c.goto (c.pc + BitVec.ofNat 64 n)

end Cpu

section Meaning
variable {M : Type} (other : JitDecode → Cpu M → Cpu M)

/-- The RV64 meaning of the instructions that are fused and the reference meaning of what they are fused to. The
rest is left to `other`. -/
def meaning (d : JitDecode) (c : Cpu M) : Cpu M :=
  let imm := d.imm.signExtend 64
  let x1 := c.ireg d.rs1
  match d.op with
  | .rv .auipc => (c.set d.rd (c.pc + imm)).next d.length
  | .rv .addi => (c.set d.rd (x1 + imm)).next d.length
  | .rv .addiw => (c.set d.rd ((x1.setWidth 32 + d.imm).signExtend 64)).next d.length
  | .rv .slli => (c.set d.rd (x1 <<< (d.imm.toNat % 64))).next d.length
  | .rv .srli => (c.set d.rd (x1 >>> (d.imm.toNat % 64))).next d.length
  | .rv .jalr => (c.set d.rd (c.pc + BitVec.ofNat 64 d.length)).goto (c.pc + ((x1 + imm - c.pc) &&& ~~~1))
  | .la => (c.set d.rd (c.pc + imm)).next (4 + d.length)
  | .call => ((c.set d.rd (c.pc + imm)).set rvIregRa (c.pc + BitVec.ofNat 64 (4 + d.length))).goto (c.pc + imm)
  | .zextw => (c.set d.rd ((x1.setWidth 32).setWidth 64)).next d.sz.toNat
  | .addiwz => (c.set d.rd (((c.ireg d.rd).setWidth 32 + d.imm).setWidth 64)).next d.sz.toNat
  | _ => other d c

/-- Executes a sequence in order, as long as the pc is at its next instruction. -/
def run : List JitDecode → Cpu M → Cpu M
  | [], c => c
  | d :: ds, c => if c.pc = d.pc then run ds (meaning other d c) else c

end Meaning

section Interp
variable {σ : Type} (port : Emu.Port σ) (host : Emu.Host) (rv : Emu.Ext → Bool)

/-- The record of the interpreter for an instruction of a trace. -/
def JitDecode.dec (d : JitDecode) (op : RvOp) : Decode :=
  { imm := d.imm.toInt, rd := d.rd, rs1 := d.rs1, rs2 := d.rs2, op }

/-- The registers and the pc of a machine. -/
def cpu (s : Emu.Machine .rv64 σ) (h0 : s.hart.ireg 0 = 0) : Cpu (Emu.Machine .rv64 σ) where
  ireg := s.hart.ireg
  pc := s.hart.pc
  rest := s
  ireg_zero := h0

theorem writeRd_cpu {s : Emu.Machine .rv64 σ} (h0 : s.hart.ireg 0 = 0) (rd : Nat) (v : BitVec 64) :
    (s.hart.writeRd rd v).ireg = ((cpu s h0).set rd v).ireg := by
  funext r
  by_cases hr : r = rd
  · by_cases hz : rd = 0
    · simp [Emu.Hart.writeRd, Cpu.set, hr, hz, (cpu s h0).ireg_zero]
      rfl
    · simp [Emu.Hart.writeRd, Cpu.set, hr, hz]
      rfl
  · simp [Emu.Hart.writeRd, Cpu.set, hr]
    rfl

theorem shift_imm {x : BitVec 64} {imm : BitVec 32} (h : imm.toNat < 64) :
    host.shift .shl x imm.toInt = x <<< (imm.toNat % 64) ∧ host.shift .shr x imm.toInt = x >>> (imm.toNat % 64) := by
  have hint : imm.toInt = imm.toNat := by
    rw [BitVec.toInt_eq_toNat_of_lt]
    omega
  rw [Nat.mod_eq_of_lt h]
  constructor <;>
  · unfold Emu.Host.shift
    rw [if_pos ⟨by omega, by omega⟩, hint, Int.toNat_natCast]

/-- The instructions that are fused do what the interpreter does. -/
theorem meaning_execInst (other : JitDecode → Cpu (Emu.Machine .rv64 σ) → Cpu (Emu.Machine .rv64 σ)) {op : RvOp} {d : JitDecode}
    {s : Emu.Machine .rv64 σ} (h0 : s.hart.ireg 0 = 0) (hi : rv .i = true) (hd : d.op = .rv op)
    (hop : op = .auipc ∨ op = .addi ∨ op = .addiw ∨ op = .slli ∧ d.imm.toNat < 64 ∨ op = .srli ∧ d.imm.toNat < 64 ∨ op = .jalr) :
    ∃ offset s', Emu.execInstRv64 port host rv (d.dec op) (BitVec.ofNat 64 d.length) s = .ok offset s' ∧
      s'.hart.ireg = (meaning other d (cpu s h0)).ireg ∧ (cpu s h0).pc + offset = (meaning other d (cpu s h0)).pc := by
  have hset : ∀ v : BitVec 64, Emu.action host s.hart (d.dec op) op = some (.i, .setRd v) →
      meaning other d (cpu s h0) = ((cpu s h0).set d.rd v).next d.length →
      ∃ offset s', Emu.execInstRv64 port host rv (d.dec op) (BitVec.ofNat 64 d.length) s = .ok offset s' ∧
        s'.hart.ireg = (meaning other d (cpu s h0)).ireg ∧ (cpu s h0).pc + offset = (meaning other d (cpu s h0)).pc := by
    intro v ha hm
    refine ⟨_, _, Emu.execInst_setRd ha hi, ?_, ?_⟩
    · rw [hm]
      exact writeRd_cpu h0 _ _
    · rw [hm]
      rfl
  rcases hop with rfl | rfl | rfl | ⟨rfl, hsh⟩ | ⟨rfl, hsh⟩ | rfl
  · apply hset _ rfl
    simp only [meaning, hd]
    rfl
  · apply hset _ rfl
    simp only [meaning, hd]
    rfl
  · apply hset ((((cpu s h0).ireg d.rs1).setWidth 32 + BitVec.ofInt 32 d.imm.toInt).signExtend 64) rfl
    simp only [meaning, hd]
    rw [BitVec.ofInt_toInt]
  · apply hset (host.shift .shl ((cpu s h0).ireg d.rs1) d.imm.toInt) rfl
    simp only [meaning, hd]
    rw [(shift_imm host hsh).1]
  · apply hset (host.shift .shr ((cpu s h0).ireg d.rs1) d.imm.toInt) rfl
    simp only [meaning, hd]
    rw [(shift_imm host hsh).2]
  · have ha : Emu.action host s.hart (d.dec .jalr) (d.dec .jalr).op = some (.i, .jump _) := rfl
    refine ⟨_, _, Emu.execInst_jump ha hi, ?_, ?_⟩
    · simp only [meaning, hd]
      exact writeRd_cpu h0 _ _
    · simp only [meaning, hd]
      rfl

end Interp

/-! ## What is fused -/

/-- One instruction that the next stage is handed, with those of the sequence that it stands for. -/
inductive Fuses : List JitDecode → JitDecode → Prop
  | plain (d : JitDecode) : Fuses [d] d
  | la {a d : JitDecode} : a.op = .rv .auipc → d.op = .rv .addi → a.rd = d.rd → a.rd = d.rs1 →
      Fuses [a, d] { pc := a.pc, inst := d.inst, op := .la, rd := d.rs1
                     imm := (a.imm.signExtend 64 + d.imm.signExtend 64).setWidth 32 }
  | call {a d : JitDecode} : a.op = .rv .auipc → d.op = .rv .jalr ∨ (d.op = .rv .addi ∧ a.rd ≠ d.rd) → a.rd = d.rs1 →
      d.rd = rvIregRa →
      Fuses [a, d] { pc := a.pc, inst := d.inst, op := .call, rd := d.rs1
                     imm := (a.imm.signExtend 64 + d.imm.signExtend 64).setWidth 32 }
  | zextw {a d : JitDecode} : a.op = .rv .slli ∨ (a.op = .rv .addiw ∧ a.rd ≠ a.rs1) → a.imm = 32 → d.op = .rv .srli →
      a.rd = d.rd → a.rd = d.rs1 → d.imm = 32 →
      Fuses [a, d] { pc := a.pc, inst := d.inst, op := .zextw, rd := a.rd, rs1 := a.rs1
                     sz := BitVec.ofNat 4 (a.length + d.length) }
  | addiwz {a b d : JitDecode} : a.op = .rv .addiw → a.rd = a.rs1 → b.op = .rv .slli → a.rd = b.rd → a.rd = b.rs1 →
      b.imm = 32 → d.op = .rv .srli → a.rd = d.rd → a.rd = d.rs1 → d.imm = 32 →
      Fuses [a, b, d] { pc := a.pc, inst := d.inst, op := .addiwz, rd := a.rd, imm := (a.imm.signExtend 64).setWidth 32
                        sz := BitVec.ofNat 4 (a.length + b.length + d.length) }

namespace Fusion

/-- What is held back in each state. -/
def Held (m : Fusion) : Prop :=
  match m.state with
  | .none => m.queue = []
  | .auipc => ∃ a, m.queue = [a] ∧ a.op = .rv .auipc ∧ m.rd = a.rd ∧ m.imm = a.imm.signExtend 64 ∧ m.pseudoPc = a.pc
  | .zextw => ∃ a, m.queue = [a] ∧ (a.op = .rv .slli ∨ (a.op = .rv .addiw ∧ a.rd ≠ a.rs1)) ∧ a.imm = 32 ∧ m.rd = a.rd ∧
      m.rs1 = a.rs1 ∧ m.pseudoPc = a.pc ∧ m.sz = a.length
  | .addiw => ∃ a, m.queue = [a] ∧ a.op = .rv .addiw ∧ a.rd = a.rs1 ∧ m.rd = a.rd ∧ m.imm = a.imm.signExtend 64 ∧
      m.pseudoPc = a.pc ∧ m.sz = a.length
  | .addiwz => ∃ a b, m.queue = [a, b] ∧ a.op = .rv .addiw ∧ a.rd = a.rs1 ∧ b.op = .rv .slli ∧ a.rd = b.rd ∧ a.rd = b.rs1 ∧
      b.imm = 32 ∧ m.rd = a.rd ∧ m.imm = a.imm.signExtend 64 ∧ m.pseudoPc = a.pc ∧ m.sz = a.length + b.length

/-- What one instruction does to the queue and to what was handed over. -/
inductive Effect (m : Fusion) (d : JitDecode) (m' : Fusion) : Prop
  | hold : m'.out = m.out → m'.queue = m.queue ++ [d] → Effect m d m'
  | flushHold : m'.out = m.out ++ m.queue → m'.queue = [d] → Effect m d m'
  | flush : m'.out = m.out ++ m.queue ++ [d] → m'.queue = [] → Effect m d m'
  | fuse (o : JitDecode) : Fuses (m.queue ++ [d]) o → m'.out = m.out ++ [o] → m'.queue = [] → Effect m d m'

section Step
variable {m : Fusion} (d : JitDecode)

theorem effect_flush : (m.flush d).Held ∧ Effect m d (m.flush d) := ⟨rfl, .flush rfl rfl⟩

theorem effect_idleSlli (hq : m.queue = []) (hs : m.state = .none) (hop : d.op = .rv .slli ∨ (d.op = .rv .addiw ∧ d.rd ≠ d.rs1)) :
    (m.idleSlli d).Held ∧ Effect m d (m.idleSlli d) := by
  unfold idleSlli
  split
  · next himm => exact ⟨⟨d, by simp [holdZextw, hq], hop, himm, rfl, rfl, rfl, rfl⟩, .hold rfl rfl⟩
  · refine ⟨?_, .flush (by simp [pass, hq]) hq⟩
    unfold Held
    rw [show (m.pass d).state = .none from hs]
    exact hq

theorem effect_idle (hq : m.queue = []) (hs : m.state = .none) : (m.idle d).Held ∧ Effect m d (m.idle d) := by
  unfold idle
  split
  · next hop => exact ⟨⟨d, by simp [hq], hop, rfl, rfl, rfl⟩, .hold rfl rfl⟩
  · next hop =>
    split
    · next hrd => exact ⟨⟨d, by simp [hq], hop, hrd, rfl, rfl, rfl, rfl⟩, .hold rfl rfl⟩
    · next hrd => exact effect_idleSlli d hq hs (.inr ⟨hop, hrd⟩)
  · next hop => exact effect_idleSlli d hq hs (.inl hop)
  · refine ⟨?_, .flush (by simp [pass, hq]) hq⟩
    unfold Held
    rw [show (m.pass d).state = .none from hs]
    exact hq

theorem effect_afterAddiw {a : JitDecode} (hq : m.queue = [a]) (hop : a.op = .rv .addiw) (hrs1 : a.rd = a.rs1) (hrd : m.rd = a.rd)
    (himm : m.imm = a.imm.signExtend 64) (hpc : m.pseudoPc = a.pc) (hsz : m.sz = a.length) :
    (m.afterAddiw d).Held ∧ Effect m d (m.afterAddiw d) := by
  unfold afterAddiw
  split
  · next hd =>
    split
    · next hs =>
      refine ⟨⟨a, d, by simp [hq], hop, hrs1, hd, ?_, ?_, hs.2.2, hrd, himm, hpc, ?_⟩, .hold rfl rfl⟩
      · rw [← hrd]
        exact hs.1
      · rw [← hrd]
        exact hs.2.1
      · show m.sz + d.length = _
        rw [hsz]
    · split
      · next h32 => exact ⟨⟨d, rfl, .inl hd, h32, rfl, rfl, rfl, rfl⟩, .flushHold rfl rfl⟩
      · exact effect_flush d
  · exact effect_flush d

theorem effect_afterAddiwz {a b : JitDecode} (hq : m.queue = [a, b]) (hop : a.op = .rv .addiw) (hrs1 : a.rd = a.rs1)
    (hb : b.op = .rv .slli) (hbrd : a.rd = b.rd) (hbrs1 : a.rd = b.rs1) (hbimm : b.imm = 32) (hrd : m.rd = a.rd)
    (himm : m.imm = a.imm.signExtend 64) (hpc : m.pseudoPc = a.pc) (hsz : m.sz = a.length + b.length) :
    (m.afterAddiwz d).Held ∧ Effect m d (m.afterAddiwz d) := by
  unfold afterAddiwz
  split
  · next hd =>
    split
    · next hs =>
      refine ⟨rfl, .fuse _ ?_ rfl rfl⟩
      rw [hq, hpc, himm, hsz, hrd]
      exact .addiwz hop hrs1 hb hbrd hbrs1 hbimm hd (hrd.symm.trans hs.1) (hrd.symm.trans hs.2.1) hs.2.2
    · exact effect_flush d
  · exact effect_flush d

theorem effect_auipcJalr {a : JitDecode} (hq : m.queue = [a]) (hop : a.op = .rv .auipc) (hrd : m.rd = a.rd)
    (himm : m.imm = a.imm.signExtend 64) (hpc : m.pseudoPc = a.pc)
    (hd : d.op = .rv .jalr ∨ (d.op = .rv .addi ∧ ¬ (m.rd = d.rd ∧ m.rd = d.rs1))) :
    (m.auipcJalr d).Held ∧ Effect m d (m.auipcJalr d) := by
  unfold auipcJalr
  split
  · next hs =>
    refine ⟨rfl, .fuse _ ?_ rfl rfl⟩
    rw [hq, hpc, himm]
    refine .call hop ?_ (hrd.symm.trans hs.1) hs.2
    rcases hd with hd | ⟨hd, hne⟩
    · exact .inl hd
    · refine .inr ⟨hd, fun h => hne ⟨hrd.trans h, hs.1⟩⟩
  · exact effect_flush d

theorem effect_afterAuipc {a : JitDecode} (hq : m.queue = [a]) (hop : a.op = .rv .auipc) (hrd : m.rd = a.rd)
    (himm : m.imm = a.imm.signExtend 64) (hpc : m.pseudoPc = a.pc) :
    (m.afterAuipc d).Held ∧ Effect m d (m.afterAuipc d) := by
  unfold afterAuipc
  split
  · next hd =>
    split
    · next hs =>
      refine ⟨rfl, .fuse _ ?_ rfl rfl⟩
      rw [hq, hpc, himm]
      exact .la hop hd (hrd.symm.trans hs.1) (hrd.symm.trans hs.2)
    · next hs => exact effect_auipcJalr d hq hop hrd himm hpc (.inr ⟨hd, hs⟩)
  · next hd => exact effect_auipcJalr d hq hop hrd himm hpc (.inl hd)
  · exact effect_flush d

theorem effect_afterZextw {a : JitDecode} (hq : m.queue = [a]) (hop : a.op = .rv .slli ∨ (a.op = .rv .addiw ∧ a.rd ≠ a.rs1))
    (h32 : a.imm = 32) (hrd : m.rd = a.rd) (hrs1 : m.rs1 = a.rs1) (hpc : m.pseudoPc = a.pc) (hsz : m.sz = a.length) :
    (m.afterZextw d).Held ∧ Effect m d (m.afterZextw d) := by
  unfold afterZextw
  split
  · next hd =>
    split
    · next hs =>
      refine ⟨rfl, .fuse _ ?_ rfl rfl⟩
      rw [hq, hpc, hsz, hrd, hrs1]
      exact .zextw hop h32 hd (hrd.symm.trans hs.1) (hrd.symm.trans hs.2.1) hs.2.2
    · exact effect_flush d
  · exact effect_flush d

theorem effect_emit (h : m.Held) : (m.emit d).Held ∧ Effect m d (m.emit d) := by
  unfold Held at h
  unfold emit
  cases hs : m.state with
  | none =>
    rw [hs] at h
    exact effect_idle d h hs
  | auipc =>
    rw [hs] at h
    obtain ⟨a, hq, hop, hrd, himm, hpc⟩ := h
    exact effect_afterAuipc d hq hop hrd himm hpc
  | zextw =>
    rw [hs] at h
    obtain ⟨a, hq, hop, h32, hrd, hrs1, hpc, hsz⟩ := h
    exact effect_afterZextw d hq hop h32 hrd hrs1 hpc hsz
  | addiw =>
    rw [hs] at h
    obtain ⟨a, hq, hop, hrs1, hrd, himm, hpc, hsz⟩ := h
    exact effect_afterAddiw d hq hop hrs1 hrd himm hpc hsz
  | addiwz =>
    rw [hs] at h
    obtain ⟨a, b, hq, hop, hrs1, hb, hbrd, hbrs1, hbimm, hrd, himm, hpc, hsz⟩ := h
    exact effect_afterAddiwz d hq hop hrs1 hb hbrd hbrs1 hbimm hrd himm hpc hsz

end Step

section Run
variable {P : List JitDecode → Prop}

/-- What is flushed stands for itself. -/
theorem forall₂_plain (hplain : ∀ d, P [d]) (l : List JitDecode) :
    List.Forall₂ (fun g o => Fuses g o ∧ P g) (l.map fun d => [d]) l := by
  induction l with
  | nil => exact .nil
  | cons d l ih => exact .cons ⟨.plain d, hplain d⟩ ih

theorem flatten_plain (l : List JitDecode) : (l.map fun d => [d]).flatten = l := by
  induction l with
  | nil => rfl
  | cons d l ih => simp [ih]

theorem after_append (ds : List JitDecode) (d : JitDecode) : after (ds ++ [d]) = (after ds).emit d := by
  unfold after
  rw [List.foldl_append]
  rfl

/-- What was handed over and what is held back are the sequence, cut into groups. `P` holds of every group if it holds
of those that are fused. -/
theorem groups_after (hplain : ∀ d, P [d]) (ds : List JitDecode)
    (hfuse : ∀ pre d post, ds = pre ++ d :: post → P ((after pre).queue ++ [d])) :
    (after ds).Held ∧ ∃ groups, groups.flatten ++ (after ds).queue = ds ∧
      List.Forall₂ (fun g o => Fuses g o ∧ P g) groups (after ds).out := by
  induction ds using List.reverseRecOn with
  | nil => exact ⟨rfl, [], rfl, .nil⟩
  | append_singleton ds d ih =>
    obtain ⟨hheld, groups, hflat, hgroups⟩ := ih fun pre e post h => hfuse pre e (post ++ [d]) (by simp [h])
    obtain ⟨hheld', heff⟩ := effect_emit d hheld
    rw [after_append]
    refine ⟨hheld', ?_⟩
    cases heff with
    | hold hout hqueue =>
      refine ⟨groups, ?_, ?_⟩
      · rw [hqueue, ← List.append_assoc, hflat]
      · rw [hout]
        exact hgroups
    | flushHold hout hqueue =>
      refine ⟨groups ++ (after ds).queue.map fun d => [d], ?_, ?_⟩
      · rw [List.flatten_append, flatten_plain, hqueue, hflat]
      · rw [hout]
        exact List.rel_append hgroups (forall₂_plain hplain _)
    | flush hout hqueue =>
      refine ⟨groups ++ ((after ds).queue ++ [d]).map fun d => [d], ?_, ?_⟩
      · rw [List.flatten_append, flatten_plain, hqueue, List.append_nil, ← List.append_assoc, hflat]
      · rw [hout, List.append_assoc]
        exact List.rel_append hgroups (forall₂_plain hplain _)
    | fuse o ho hout hqueue =>
      refine ⟨groups ++ [(after ds).queue ++ [d]], ?_, ?_⟩
      · rw [List.flatten_append, List.flatten_singleton, hqueue, List.append_nil, ← List.append_assoc, hflat]
      · rw [hout]
        exact List.rel_append hgroups (.cons ⟨ho, hfuse ds d [] rfl⟩ .nil)

end Run

end Fusion

/-! ## Where fusion keeps the meaning -/

/-- The two immediates do not fit the immediate of the pseudo-instruction together. -/
def Wraps (a d : JitDecode) : Prop :=
  ¬ (-2147483648 ≤ a.imm.toInt + d.imm.toInt ∧ a.imm.toInt + d.imm.toInt < 2147483648)

instance (a d : JitDecode) : Decidable (Wraps a d) := inferInstanceAs (Decidable (¬ _))

/-- The pairs whose fusion is wrong, `a` being held back: an `addiw` taken for an `slli`, an `addi` taken for a `jalr`,
immediates that wrap, and calls whose target is not relative to the pc or odd, or whose temporary is not the target. -/
def Misfused (a d : JitDecode) : Prop :=
  (a.op = .rv .addiw ∧ a.rd ≠ a.rs1 ∧ a.rs1 ≠ 0 ∧ d.op = .rv .srli ∧ a.rd = d.rd ∧ a.rd = d.rs1 ∧ a.rd ≠ 0 ∧ d.imm = 32) ∨
  (a.op = .rv .auipc ∧ d.op = .rv .addi ∧ a.rd = d.rs1 ∧ a.rd ≠ d.rd ∧ d.rd = rvIregRa) ∨
  (a.op = .rv .auipc ∧ d.op = .rv .addi ∧ a.rd = d.rs1 ∧ a.rd = d.rd ∧ a.rd ≠ 0 ∧ Wraps a d) ∨
  (a.op = .rv .auipc ∧ d.op = .rv .jalr ∧ a.rd = d.rs1 ∧ d.rd = rvIregRa ∧
    (a.rd = 0 ∨ Wraps a d ∨ (a.imm + d.imm).getLsbD 0 = true ∨ (a.rd ≠ rvIregRa ∧ d.imm ≠ 0)))

section Arithmetic

theorem setWidth_signExtend (w : BitVec 32) : (w.signExtend 64).setWidth 32 = w := by
  apply BitVec.eq_of_getLsbD_eq
  intro i hi
  simp only [BitVec.getLsbD_setWidth, BitVec.getLsbD_signExtend, hi, decide_true, Bool.true_and, if_true]
  simp [show i < 64 by omega]

theorem signExtend_sum {a d : JitDecode} (h : ¬ Wraps a d) :
    ((a.imm.signExtend 64 + d.imm.signExtend 64).setWidth 32).signExtend 64 = a.imm.signExtend 64 + d.imm.signExtend 64 := by
  unfold Wraps at h
  have hsum : (a.imm.signExtend 64 + d.imm.signExtend 64).setWidth 32 = a.imm + d.imm := by
    rw [BitVec.setWidth_add _ _ (by decide), setWidth_signExtend, setWidth_signExtend]
  rw [hsum]
  apply BitVec.eq_of_toInt_eq
  rw [BitVec.toInt_signExtend_of_le (by decide), BitVec.toInt_add, BitVec.toInt_add,
    BitVec.toInt_signExtend_of_le (by decide), BitVec.toInt_signExtend_of_le (by decide)]
  simp only [Int.bmod_def]
  omega

theorem and_not_one {x : BitVec 64} (h : x.getLsbD 0 = false) : x &&& ~~~1 = x := by
  apply BitVec.eq_of_getLsbD_eq
  intro i hi
  have hone : (1 : BitVec 64).getLsbD i = decide (i = 0) := by
    show (1#64).getLsbD i = _
    simp [BitVec.getLsbD_one]
  rw [BitVec.getLsbD_and, BitVec.getLsbD_not, hone]
  by_cases h0 : i = 0
  · rw [h0, h]
    rfl
  · simp only [hi, h0, decide_true, decide_false, Bool.not_false, Bool.and_true]

theorem getLsbD_zero_add (x y : BitVec 64) : (x + y).getLsbD 0 = (x.getLsbD 0 ^^ y.getLsbD 0) := by
  rw [BitVec.getLsbD_add (by decide)]
  simp

theorem getLsbD_zero_signExtend (x : BitVec 32) : (x.signExtend 64).getLsbD 0 = x.getLsbD 0 := by
  simp only [BitVec.getLsbD_signExtend]
  rfl

theorem getLsbD_zero_sum (x y : BitVec 32) :
    (x.signExtend 64 + y.signExtend 64).getLsbD 0 = (x + y).getLsbD 0 := by
  rw [getLsbD_zero_add, getLsbD_zero_signExtend, getLsbD_zero_signExtend, BitVec.getLsbD_add (by decide)]
  simp

/-- The offset of a `jalr` that is four bytes after the pc it is relative to. -/
theorem jalr_offset {pc x : BitVec 64} (h : x.getLsbD 0 = false) :
    pc + 4#64 + ((pc + x - (pc + 4#64)) &&& ~~~1) = pc + x := by
  have hsub : pc + x - (pc + 4#64) = x + -4#64 := by bv_omega
  rw [hsub, and_not_one]
  · bv_omega
  · rw [getLsbD_zero_add, h]
    rfl

theorem shl_shr_32 (x : BitVec 64) : (x <<< 32) >>> 32 = (x.setWidth 32).setWidth 64 := by
  apply BitVec.eq_of_getLsbD_eq
  intro i hi
  simp only [BitVec.getLsbD_ushiftRight, BitVec.getLsbD_shiftLeft, BitVec.getLsbD_setWidth]
  by_cases h : i < 32
  · simp [h, show 32 + i < 64 by omega, show i < 64 by omega]
  · simp [h, show ¬ 32 + i < 64 by omega]

end Arithmetic

/-- A sequence as the tracer passes it: what is held back is followed by the instruction after it, and instructions
have their length and `auipc` a multiple of a page. -/
structure Traced (ds : List JitDecode) : Prop where
  follows : ∀ pre a d post, ds = pre ++ a :: d :: post → a.op = .rv .auipc ∨ a.op = .rv .addiw ∨ a.op = .rv .slli →
    d.pc = a.pc + BitVec.ofNat 64 a.length
  length : ∀ d ∈ ds, d.length ≤ 4
  auipc : ∀ d ∈ ds, d.op = .rv .auipc → d.length = 4 ∧ d.imm.toNat % 4096 = 0

theorem Traced.of_append {g ds : List JitDecode} (h : Traced (g ++ ds)) : Traced ds where
  follows := by
    intro pre a d post hds
    apply h.follows (g ++ pre) a d post
    rw [hds, List.append_assoc]
  length := fun d hd => h.length d (List.mem_append_right g hd)
  auipc := fun d hd => h.auipc d (List.mem_append_right g hd)

section Fused
variable {M : Type} (other : JitDecode → Cpu M → Cpu M) {a b d : JitDecode} (c : Cpu M)

theorem set_set (rd : Nat) (v w : BitVec 64) : (c.set rd v).set rd w = c.set rd w := by
  ext r
  · simp only [Cpu.set]
    split <;> rfl
  · rfl
  · rfl

theorem set_zero (v : BitVec 64) : c.set 0 v = c := by
  ext r
  · simp [Cpu.set]
  · rfl
  · rfl

@[simp] theorem set_pc (rd : Nat) (v : BitVec 64) : (c.set rd v).pc = c.pc := rfl

@[simp] theorem next_pc (n : Nat) : (c.next n).pc = c.pc + BitVec.ofNat 64 n := rfl

@[simp] theorem next_ireg (n r : Nat) : (c.next n).ireg r = c.ireg r := rfl

theorem next_set (n rd : Nat) (v : BitVec 64) : (c.next n).set rd v = (c.set rd v).next n := rfl

theorem next_goto (n : Nat) (pc : BitVec 64) : (c.next n).goto pc = c.goto pc := rfl

theorem set_ireg (v : BitVec 64) {rd : Nat} (h : rd ≠ 0) : (c.set rd v).ireg rd = v := by
  simp [Cpu.set, h]

theorem set_ireg_of_ne (v : BitVec 64) {rd r : Nat} (h : r ≠ rd) : (c.set rd v).ireg r = c.ireg r := by
  simp [Cpu.set, h]

theorem next_next (m n : Nat) : (c.next m).next n = c.next (m + n) := by
  unfold Cpu.next
  rw [BitVec.ofNat_add, ← BitVec.add_assoc]
  rfl

theorem meaning_la (ha : a.op = .rv .auipc) (hd : d.op = .rv .addi) (hrd : a.rd = d.rd) (hrs1 : a.rd = d.rs1)
    (hlen : a.length = 4) (hw : ¬ (a.rd ≠ 0 ∧ Wraps a d)) :
    meaning other { pc := a.pc, inst := d.inst, op := .la, rd := d.rs1
                    imm := (a.imm.signExtend 64 + d.imm.signExtend 64).setWidth 32 } c =
      meaning other d (meaning other a c) := by
  simp only [meaning, ha, hd, hlen]
  rw [← hrs1, ← hrd, next_set, next_next]
  show _ = ((c.set a.rd (c.pc + a.imm.signExtend 64)).set a.rd _).next (4 + d.length)
  rw [set_set]
  by_cases h0 : a.rd = 0
  · rw [h0, set_zero, set_zero]
    rfl
  · rw [next_ireg, set_ireg _ _ h0, signExtend_sum fun h => hw ⟨h0, h⟩, BitVec.add_assoc]
    rfl

theorem meaning_call (ha : a.op = .rv .auipc) (hd : d.op = .rv .jalr) (hrs1 : a.rd = d.rs1) (hra : d.rd = rvIregRa)
    (hlen : a.length = 4) (h0 : a.rd ≠ 0) (hw : ¬ Wraps a d) (heven : (a.imm + d.imm).getLsbD 0 = false)
    (htemp : a.rd = rvIregRa ∨ d.imm = 0) :
    meaning other { pc := a.pc, inst := d.inst, op := .call, rd := d.rs1
                    imm := (a.imm.signExtend 64 + d.imm.signExtend 64).setWidth 32 } c =
      meaning other d (meaning other a c) := by
  simp only [meaning, ha, hd, hlen]
  rw [signExtend_sum hw, ← hrs1, hra, next_ireg, set_ireg _ _ h0, next_pc, set_pc, BitVec.add_assoc c.pc (a.imm.signExtend 64),
    jalr_offset (by rw [getLsbD_zero_sum, heven]), next_set, next_goto]
  have hlink : c.pc + BitVec.ofNat 64 (4 + d.length) = c.pc + 4#64 + BitVec.ofNat 64 d.length := by
    rw [BitVec.ofNat_add, ← BitVec.add_assoc]
  have hregs : (c.set a.rd (c.pc + (a.imm.signExtend 64 + d.imm.signExtend 64))).set rvIregRa (c.pc + BitVec.ofNat 64 (4 + d.length)) =
      (c.set a.rd (c.pc + a.imm.signExtend 64)).set rvIregRa (c.pc + 4#64 + BitVec.ofNat 64 d.length) := by
    rcases htemp with hrd | himm
    · rw [hrd, set_set, set_set, hlink]
    · rw [himm, hlink]
      simp
  exact congrArg (fun c' : Cpu M => c'.goto (c.pc + (a.imm.signExtend 64 + d.imm.signExtend 64))) hregs

/-- A shift to the left and back, of the register of the first. -/
theorem meaning_shifts {n : Nat} (hb : b.op = .rv .slli) (hd : d.op = .rv .srli) (hrd : b.rd = d.rd) (hrs1 : b.rd = d.rs1)
    (hbimm : b.imm = 32) (hdimm : d.imm = 32) (hn : n = b.length + d.length) :
    meaning other d (meaning other b c) = (c.set b.rd (((c.ireg b.rs1).setWidth 32).setWidth 64)).next n := by
  simp only [meaning, hb, hd, hbimm, hdimm]
  rw [next_set, next_next, ← hrd, set_set, ← hrs1, next_ireg, hn]
  by_cases h0 : b.rd = 0
  · rw [h0, set_zero, set_zero]
  · rw [set_ireg _ _ h0, ← shl_shr_32]
    rfl

theorem toNat_sz {n : Nat} (h : n < 16) : (BitVec.ofNat 4 n).toNat = n := by
  rw [BitVec.toNat_ofNat]
  exact Nat.mod_eq_of_lt h

theorem meaning_zextw (ha : a.op = .rv .slli) (haimm : a.imm = 32) (hd : d.op = .rv .srli) (hrd : a.rd = d.rd)
    (hrs1 : a.rd = d.rs1) (himm : d.imm = 32) (hlen : a.length + d.length < 16) :
    meaning other { pc := a.pc, inst := d.inst, op := .zextw, rd := a.rd, rs1 := a.rs1
                    sz := BitVec.ofNat 4 (a.length + d.length) } c =
      meaning other d (meaning other a c) := by
  rw [meaning_shifts other c ha hd hrd hrs1 haimm himm rfl]
  simp only [meaning, toNat_sz hlen]

theorem meaning_addiwz (ha : a.op = .rv .addiw) (hars1 : a.rd = a.rs1) (hb : b.op = .rv .slli) (hbrd : a.rd = b.rd)
    (hbrs1 : a.rd = b.rs1) (hbimm : b.imm = 32) (hd : d.op = .rv .srli) (hdrd : a.rd = d.rd) (hdrs1 : a.rd = d.rs1)
    (hdimm : d.imm = 32) (hlen : a.length + b.length + d.length < 16) :
    meaning other { pc := a.pc, inst := d.inst, op := .addiwz, rd := a.rd, imm := (a.imm.signExtend 64).setWidth 32
                    sz := BitVec.ofNat 4 (a.length + b.length + d.length) } c =
      meaning other d (meaning other b (meaning other a c)) := by
  rw [meaning_shifts other _ hb hd (hbrd.symm.trans hdrd) (hbrd.symm.trans hdrs1) hbimm hdimm rfl, ← hbrd, ← hbrs1]
  simp only [meaning, ha, toNat_sz hlen]
  rw [next_set, next_next, set_set, ← hars1, next_ireg, setWidth_signExtend, Nat.add_assoc]
  by_cases h0 : a.rd = 0
  · rw [h0, set_zero, set_zero]
  · rw [set_ireg _ _ h0, setWidth_signExtend]

/-- An `addiw` that is taken for an `slli`, where that makes no difference. -/
theorem meaning_zextw_addiw (ha : a.op = .rv .addiw) (haimm : a.imm = 32) (h0 : a.rd = 0 ∨ a.rs1 = 0) (hd : d.op = .rv .srli)
    (hrd : a.rd = d.rd) (hrs1 : a.rd = d.rs1) (himm : d.imm = 32) (hlen : a.length + d.length < 16) :
    meaning other { pc := a.pc, inst := d.inst, op := .zextw, rd := a.rd, rs1 := a.rs1
                    sz := BitVec.ofNat 4 (a.length + d.length) } c =
      meaning other d (meaning other a c) := by
  simp only [meaning, ha, hd, haimm, himm, toNat_sz hlen]
  rw [next_set, next_next, ← hrd, set_set, ← hrs1, next_ireg]
  by_cases hz : a.rd = 0
  · rw [hz, set_zero, set_zero]
  · rw [set_ireg _ _ hz, h0.resolve_left hz, c.ireg_zero]
    rfl

end Fused

/-! ## Running what is handed over -/

section RunFused
variable {M : Type} (other : JitDecode → Cpu M → Cpu M)

/-- What is held back leads on to the instruction after it. -/
theorem meaning_pc {a : JitDecode} (h : a.op = .rv .auipc ∨ a.op = .rv .addiw ∨ a.op = .rv .slli) (c : Cpu M) :
    (meaning other a c).pc = c.pc + BitVec.ofNat 64 a.length := by
  rcases h with h | h | h <;> simp only [meaning, h] <;> rfl

theorem run_cons {d : JitDecode} {ds : List JitDecode} {c : Cpu M} (h : c.pc = d.pc) :
    run other (d :: ds) c = run other ds (meaning other d c) := by
  rw [run, if_pos h]

theorem run_cons_of_ne {d : JitDecode} {ds : List JitDecode} {c : Cpu M} (h : c.pc ≠ d.pc) : run other (d :: ds) c = c := by
  rw [run, if_neg h]

theorem run_pair {a d o : JitDecode} {ds : List JitDecode} {c : Cpu M} (h : Traced (a :: d :: ds))
    (ha : a.op = .rv .auipc ∨ a.op = .rv .addiw ∨ a.op = .rv .slli) (hpc : o.pc = a.pc)
    (ho : meaning other o c = meaning other d (meaning other a c)) :
    run other (a :: d :: ds) c = run other (o :: ds) c := by
  by_cases hc : c.pc = a.pc
  · have hd : (meaning other a c).pc = d.pc := by
      rw [meaning_pc other ha, hc]
      exact (h.follows [] a d ds rfl ha).symm
    rw [run_cons other hc, run_cons other hd, run_cons other (hc.trans hpc.symm), ho]
  · rw [run_cons_of_ne other hc, run_cons_of_ne other (hpc ▸ hc)]

theorem run_triple {a b d o : JitDecode} {ds : List JitDecode} {c : Cpu M} (h : Traced (a :: b :: d :: ds))
    (ha : a.op = .rv .auipc ∨ a.op = .rv .addiw ∨ a.op = .rv .slli) (hb : b.op = .rv .auipc ∨ b.op = .rv .addiw ∨ b.op = .rv .slli)
    (hpc : o.pc = a.pc) (ho : meaning other o c = meaning other d (meaning other b (meaning other a c))) :
    run other (a :: b :: d :: ds) c = run other (o :: ds) c := by
  by_cases hc : c.pc = a.pc
  · have hpcb : (meaning other a c).pc = b.pc := by
      rw [meaning_pc other ha, hc]
      exact (h.follows [] a b (d :: ds) rfl ha).symm
    have hpcd : (meaning other b (meaning other a c)).pc = d.pc := by
      rw [meaning_pc other hb, hpcb]
      exact (h.follows [a] b d ds rfl hb).symm
    rw [run_cons other hc, run_cons other hpcb, run_cons other hpcd, run_cons other (hc.trans hpc.symm), ho]
  · rw [run_cons_of_ne other hc, run_cons_of_ne other (hpc ▸ hc)]

/-- No pair of the group is misfused. -/
def Sound (g : List JitDecode) : Prop := ∀ a d, g = [a, d] → ¬ Misfused a d

/-- One instruction that is handed over does what those do that it stands for. -/
theorem run_fuses {g ds : List JitDecode} {o : JitDecode} (ho : Fuses g o) (hg : Sound g) (h : Traced (g ++ ds)) (c : Cpu M) :
    run other (g ++ ds) c = run other (o :: ds) c := by
  cases ho with
  | plain d => rfl
  | @la a d ha hd hrd hrs1 =>
    have hlen : a.length = 4 := (h.auipc a (by simp) ha).1
    have hw : ¬ (a.rd ≠ 0 ∧ Wraps a d) := fun hw => hg a d rfl (.inr (.inr (.inl ⟨ha, hd, hrs1, hrd, hw.1, hw.2⟩)))
    exact run_pair other h (.inl ha) rfl (meaning_la other c ha hd hrd hrs1 hlen hw)
  | @call a d ha hd hrs1 hra =>
    have hlen : a.length = 4 := (h.auipc a (by simp) ha).1
    rcases hd with hd | ⟨hd, hrd⟩
    · have hok : ¬ (a.rd = 0 ∨ Wraps a d ∨ (a.imm + d.imm).getLsbD 0 = true ∨ (a.rd ≠ rvIregRa ∧ d.imm ≠ 0)) :=
        fun hbad => hg a d rfl (.inr (.inr (.inr ⟨ha, hd, hrs1, hra, hbad⟩)))
      simp only [not_or, not_and_or, not_not, Bool.not_eq_true] at hok
      obtain ⟨h0, hw, heven, htemp⟩ := hok
      exact run_pair other h (.inl ha) rfl (meaning_call other c ha hd hrs1 hra hlen h0 hw heven htemp)
    · exact absurd (.inr (.inl ⟨ha, hd, hrs1, hrd, hra⟩)) (hg a d rfl)
  | @zextw a d ha haimm hd hrd hrs1 himm =>
    have hlen : a.length + d.length < 16 := by
      have := h.length a (by simp)
      have := h.length d (by simp)
      omega
    rcases ha with ha | ⟨ha, hne⟩
    · exact run_pair other h (.inr (.inr ha)) rfl (meaning_zextw other c ha haimm hd hrd hrs1 himm hlen)
    · have h0 : a.rd = 0 ∨ a.rs1 = 0 := by
        by_contra hbad
        rw [not_or] at hbad
        exact hg a d rfl (.inl ⟨ha, hne, hbad.2, hd, hrd, hrs1, hbad.1, himm⟩)
      exact run_pair other h (.inr (.inl ha)) rfl (meaning_zextw_addiw other c ha haimm h0 hd hrd hrs1 himm hlen)
  | @addiwz a b d ha hars1 hb hbrd hbrs1 hbimm hd hdrd hdrs1 hdimm =>
    have hlen : a.length + b.length + d.length < 16 := by
      have := h.length a (by simp)
      have := h.length b (by simp)
      have := h.length d (by simp)
      omega
    exact run_triple other h (.inr (.inl ha)) (.inr (.inr hb)) rfl
      (meaning_addiwz other c ha hars1 hb hbrd hbrs1 hbimm hd hdrd hdrs1 hdimm hlen)

theorem run_groups {groups : List (List JitDecode)} {os : List JitDecode}
    (hgroups : List.Forall₂ (fun g o => Fuses g o ∧ Sound g) groups os) (h : Traced groups.flatten) (c : Cpu M) :
    run other os c = run other groups.flatten c := by
  induction hgroups generalizing c with
  | nil => rfl
  | @cons g o groups os ho hrest ih =>
    rw [List.flatten_cons] at h ⊢
    rw [run_fuses other ho.1 ho.2 h, run, run]
    split
    · exact ih h.of_append _
    · rfl

theorem groups_fuse {P : List JitDecode → Prop} (hplain : ∀ d, P [d]) (ds : List JitDecode)
    (hfuse : ∀ pre d post, ds = pre ++ d :: post → P ((Fusion.after pre).queue ++ [d])) :
    ∃ groups, groups.flatten = ds ∧ List.Forall₂ (fun g o => Fuses g o ∧ P g) groups (fuse ds) := by
  obtain ⟨-, groups, hflat, hgroups⟩ := Fusion.groups_after hplain ds hfuse
  refine ⟨groups ++ (Fusion.after ds).queue.map fun d => [d], ?_, ?_⟩
  · rw [List.flatten_append, Fusion.flatten_plain, hflat]
  · exact List.rel_append hgroups (Fusion.forall₂_plain hplain _)

end RunFused

/-! ## Pairs that are misfused -/

section Pair
variable {M : Type} (other : JitDecode → Cpu M → Cpu M) {a d : JitDecode}

theorem fuse_addiw (ha : a.op = .rv .addiw) (hne : a.rd ≠ a.rs1) (hq : (Fusion.after [a]).queue = [a]) (hd : d.op = .rv .srli)
    (hrd : a.rd = d.rd) (hrs1 : a.rd = d.rs1) (himm : d.imm = 32) :
    a.imm = 32 ∧ fuse [a, d] = [{ pc := a.pc, inst := d.inst, op := .zextw, rd := a.rd, rs1 := a.rs1
                                  sz := BitVec.ofNat 4 (a.length + d.length) }] := by
  have h32 : a.imm = 32 := by
    by_contra h32
    change ¬ a.imm = 32#32 at h32
    simp [Fusion.after, Fusion.emit, Fusion.idle, Fusion.idleSlli, Fusion.pass, ha, hne, h32] at hq
  refine ⟨h32, ?_⟩
  simp [fuse, Fusion.after, Fusion.emit, Fusion.idle, Fusion.idleSlli, Fusion.holdZextw, Fusion.afterZextw, Fusion.Shifts,
    Fusion.pass, Fusion.clearQueue, Fusion.emitQueue, ha, hne, h32, hd, himm, ← hrd, ← hrs1]

theorem fuse_la (ha : a.op = .rv .auipc) (hd : d.op = .rv .addi) (hrd : a.rd = d.rd) (hrs1 : a.rd = d.rs1) :
    fuse [a, d] = [{ pc := a.pc, inst := d.inst, op := .la, rd := d.rs1
                     imm := (a.imm.signExtend 64 + d.imm.signExtend 64).setWidth 32 }] := by
  simp [fuse, Fusion.after, Fusion.emit, Fusion.idle, Fusion.afterAuipc, Fusion.pass, Fusion.clearQueue, Fusion.emitQueue,
    ha, hd, ← hrd, ← hrs1]

theorem fuse_call (ha : a.op = .rv .auipc) (hd : d.op = .rv .jalr ∨ (d.op = .rv .addi ∧ a.rd ≠ d.rd)) (hrs1 : a.rd = d.rs1)
    (hra : d.rd = rvIregRa) :
    fuse [a, d] = [{ pc := a.pc, inst := d.inst, op := .call, rd := d.rs1
                     imm := (a.imm.signExtend 64 + d.imm.signExtend 64).setWidth 32 }] := by
  rcases hd with hd | ⟨hd, hrd⟩
  · simp [fuse, Fusion.after, Fusion.emit, Fusion.idle, Fusion.afterAuipc, Fusion.auipcJalr, Fusion.pass, Fusion.clearQueue,
      Fusion.emitQueue, ha, hd, hra, ← hrs1]
  · rw [hra] at hrd
    change ¬ a.rd = 1 at hrd
    simp [fuse, Fusion.after, Fusion.emit, Fusion.idle, Fusion.afterAuipc, Fusion.auipcJalr, Fusion.pass, Fusion.clearQueue,
      Fusion.emitQueue, ha, hd, hra, hrd, ← hrs1]

/-- A state that is about to execute at `pc`. -/
def Cpu.ones [Inhabited M] (pc : BitVec 64) : Cpu M where
  ireg r := if r = 0 then 0 else 1
  pc
  rest := default
  ireg_zero := rfl

theorem run_one {o : JitDecode} {c : Cpu M} (h : c.pc = o.pc) : run other [o] c = meaning other o c := by
  rw [run_cons other h, run]

theorem run_two (h : Traced [a, d]) (ha : a.op = .rv .auipc ∨ a.op = .rv .addiw ∨ a.op = .rv .slli) {c : Cpu M}
    (hc : c.pc = a.pc) : run other [a, d] c = meaning other d (meaning other a c) := by
  have hd : (meaning other a c).pc = d.pc := by
    rw [meaning_pc other ha, hc]
    exact (h.follows [] a d [] rfl ha).symm
  rw [run_cons other hc, run_one other hd]

theorem not_wraps_of_signExtend
    (h : ((a.imm.signExtend 64 + d.imm.signExtend 64).setWidth 32).signExtend 64 = a.imm.signExtend 64 + d.imm.signExtend 64) :
    ¬ Wraps a d := by
  have hint := congrArg BitVec.toInt h
  rw [BitVec.toInt_signExtend_of_le (by decide), BitVec.toInt_add, BitVec.toInt_signExtend_of_le (by decide),
    BitVec.toInt_signExtend_of_le (by decide)] at hint
  have hrange : ∀ x : BitVec 32, -2147483648 ≤ x.toInt ∧ x.toInt < 2147483648 :=
    fun x => ⟨BitVec.le_toInt x, BitVec.toInt_lt⟩
  have := hrange ((a.imm.signExtend 64 + d.imm.signExtend 64).setWidth 32)
  have := hrange a.imm
  have := hrange d.imm
  rw [Int.bmod_def] at hint
  unfold Wraps
  omega

variable [Inhabited M]

theorem misfused_addiw (h : Traced [a, d]) (hq : (Fusion.after [a]).queue = [a]) (ha : a.op = .rv .addiw) (hne : a.rd ≠ a.rs1)
    (hs : a.rs1 ≠ 0) (hd : d.op = .rv .srli) (hrd : a.rd = d.rd) (hrs1 : a.rd = d.rs1) (h0 : a.rd ≠ 0) (himm : d.imm = 32) :
    run other (fuse [a, d]) (Cpu.ones a.pc) ≠ run other [a, d] (Cpu.ones a.pc) := by
  obtain ⟨h32, hfuse⟩ := fuse_addiw ha hne hq hd hrd hrs1 himm
  rw [hfuse, run_one other rfl, run_two other h (.inr (.inl ha)) rfl]
  intro heq
  have hreg := congrArg (fun c => c.ireg a.rd) heq
  simp only [meaning, ha, hd, h32, himm, next_ireg, ← hrd, ← hrs1, set_ireg _ _ h0, Cpu.ones, hs, if_false] at hreg
  exact absurd hreg (by decide)

theorem misfused_la (h : Traced [a, d]) (ha : a.op = .rv .auipc) (hd : d.op = .rv .addi) (hrs1 : a.rd = d.rs1) (hrd : a.rd = d.rd)
    (h0 : a.rd ≠ 0) (hw : Wraps a d) :
    run other (fuse [a, d]) (Cpu.ones a.pc) ≠ run other [a, d] (Cpu.ones a.pc) := by
  rw [fuse_la ha hd hrd hrs1, run_one other rfl, run_two other h (.inl ha) rfl]
  intro heq
  have hreg := congrArg (fun c => c.ireg a.rd) heq
  simp only [meaning, ha, hd, next_ireg, ← hrd, ← hrs1, set_ireg _ _ h0] at hreg
  rw [BitVec.add_assoc] at hreg
  exact not_wraps_of_signExtend ((BitVec.add_right_inj _).mp hreg) hw

theorem misfused_addi (h : Traced [a, d]) (ha : a.op = .rv .auipc) (hd : d.op = .rv .addi) (hrs1 : a.rd = d.rs1) (hrd : a.rd ≠ d.rd)
    (hra : d.rd = rvIregRa) (h0 : a.rd ≠ 0) :
    run other (fuse [a, d]) (Cpu.ones a.pc) ≠ run other [a, d] (Cpu.ones a.pc) := by
  rw [fuse_call ha (.inr ⟨hd, hrd⟩) hrs1 hra, run_one other rfl, run_two other h (.inl ha) rfl]
  intro heq
  have hpc := congrArg Cpu.pc heq
  have hreg := congrArg (fun c => c.ireg a.rd) heq
  obtain ⟨hlen, hpage⟩ := h.auipc a (by simp) ha
  rw [hra] at hrd
  simp only [meaning, ha, hd, hlen, hra, ← hrs1, next_ireg, next_pc, set_pc, set_ireg_of_ne _ _ hrd, set_ireg _ _ h0, Cpu.goto] at hpc hreg
  have himm : a.imm.signExtend 64 = 4#64 + BitVec.ofNat 64 d.length := by
    have hsum := (BitVec.add_right_inj _).mp hreg
    rw [hsum, BitVec.add_assoc] at hpc
    exact (BitVec.add_right_inj _).mp hpc
  have hle := h.length d (by simp)
  have htrunc := congrArg (fun x : BitVec 64 => (x.setWidth 32).toNat) himm
  simp only [setWidth_signExtend, BitVec.toNat_setWidth, BitVec.toNat_add, BitVec.toNat_ofNat] at htrunc
  omega

theorem even_and_not_one (x : BitVec 64) : (x &&& ~~~1).getLsbD 0 = false := by
  rw [BitVec.getLsbD_and]
  simp

theorem misfused_jalr (h : Traced [a, d]) (ha : a.op = .rv .auipc) (hd : d.op = .rv .jalr) (hrs1 : a.rd = d.rs1)
    (hra : d.rd = rvIregRa) (h0 : a.rd ≠ 0)
    (hbad : Wraps a d ∨ (a.imm + d.imm).getLsbD 0 = true ∨ (a.rd ≠ rvIregRa ∧ d.imm ≠ 0)) :
    run other (fuse [a, d]) (Cpu.ones a.pc) ≠ run other [a, d] (Cpu.ones a.pc) := by
  rw [fuse_call ha (.inl hd) hrs1 hra, run_one other rfl, run_two other h (.inl ha) rfl]
  intro heq
  have hpc := congrArg Cpu.pc heq
  have hreg := congrArg (fun c => c.ireg a.rd) heq
  obtain ⟨hlen, -⟩ := h.auipc a (by simp) ha
  simp only [meaning, ha, hd, hlen, hra, ← hrs1, next_ireg, next_pc, set_pc, set_ireg _ _ h0, Cpu.goto] at hpc hreg
  -- The target of the call keeps the lowest bit of the sum, that of the jalr has none.
  have heven : (a.imm + d.imm).getLsbD 0 = false := by
    rw [BitVec.add_assoc (Cpu.ones a.pc : Cpu M).pc 4#64] at hpc
    have hlsb := congrArg (fun x => x.getLsbD 0) ((BitVec.add_right_inj _).mp hpc)
    simp only [getLsbD_zero_add 4#64, even_and_not_one, getLsbD_zero_signExtend, BitVec.getLsbD_setWidth, getLsbD_zero_sum] at hlsb
    exact hlsb
  rw [BitVec.add_assoc _ (a.imm.signExtend 64), jalr_offset (by rw [getLsbD_zero_sum, heven])] at hpc
  have hsum := (BitVec.add_right_inj _).mp hpc
  rcases hbad with hw | hodd | ⟨hne, himm⟩
  · exact not_wraps_of_signExtend hsum hw
  · rw [heven] at hodd
    exact absurd hodd (by decide)
  · rw [set_ireg_of_ne _ _ hne, set_ireg _ _ h0, hsum, set_ireg_of_ne _ _ hne, next_ireg, set_ireg _ _ h0] at hreg
    have hzero : d.imm.signExtend 64 = 0 := by
      have := (BitVec.add_right_inj _).mp hreg
      bv_omega
    apply himm
    rw [← setWidth_signExtend d.imm, hzero]
    rfl

end Pair

/-! ## Fusion and meaning -/

/-- Nowhere in the sequence is `d` fused wrongly with what is held back. -/
def NotMisfused (ds : List JitDecode) : Prop :=
  ∀ pre a d post, ds = pre ++ d :: post → (Fusion.after pre).queue = [a] → ¬ Misfused a d

section Main
variable {M : Type} (other : JitDecode → Cpu M → Cpu M)

theorem sound_of_notMisfused {ds : List JitDecode} (h : NotMisfused ds) {pre : List JitDecode} {d : JitDecode}
    {post : List JitDecode} (hds : ds = pre ++ d :: post) : Sound ((Fusion.after pre).queue ++ [d]) := by
  intro a e heq
  have heq' : (Fusion.after pre).queue ++ [d] = [a] ++ [e] := heq
  obtain ⟨hq, he⟩ := List.append_inj' heq' rfl
  obtain rfl : d = e := by simpa using he
  exact h pre a d post hds hq

theorem run_fuse_of_notMisfused {ds : List JitDecode} (h : Traced ds) (hok : NotMisfused ds) (c : Cpu M) :
    run other (fuse ds) c = run other ds c := by
  obtain ⟨groups, hflat, hgroups⟩ := groups_fuse (P := Sound) (fun d a e heq => by simp at heq) ds
    fun pre d post hds => sound_of_notMisfused hok hds
  rw [← hflat] at h
  rw [run_groups other hgroups h, hflat]

variable [Inhabited M]

theorem not_misfused_of_run {a d : JitDecode} (h : Traced [a, d]) (h0 : a.rd ≠ 0) (hq : (Fusion.after [a]).queue = [a])
    (hrun : ∀ c : Cpu M, run other (fuse [a, d]) c = run other [a, d] c) : ¬ Misfused a d := by
  rintro (⟨ha, hne, hs, hd, hrd, hrs1, h0, himm⟩ | ⟨ha, hd, hrs1, hrd, hra⟩ | ⟨ha, hd, hrs1, hrd, h0, hw⟩ |
    ⟨ha, hd, hrs1, hra, hbad⟩)
  · exact misfused_addiw other h hq ha hne hs hd hrd hrs1 h0 himm (hrun _)
  · exact misfused_addi other h ha hd hrs1 hrd hra h0 (hrun _)
  · exact misfused_la other h ha hd hrs1 hrd h0 hw (hrun _)
  · exact misfused_jalr other h ha hd hrs1 hra h0 (hbad.resolve_left h0) (hrun _)

theorem notMisfused_pair {a d : JitDecode} (h : ¬ Misfused a d) : NotMisfused [a, d] := by
  intro pre a' d' post heq hq
  rcases pre with - | ⟨x, - | ⟨y, pre⟩⟩
  · exact absurd hq (by simp [Fusion.after])
  · simp only [List.singleton_append, List.cons.injEq] at heq
    obtain ⟨rfl, rfl, -⟩ := heq
    have hheld : (Fusion.after [a]).queue = [] ∨ (Fusion.after [a]).queue = [a] := by
      obtain ⟨-, heff⟩ := Fusion.effect_emit a (m := {}) rfl
      cases heff with
      | hold _ hqueue => exact .inr hqueue
      | flushHold _ hqueue => exact .inr hqueue
      | flush _ hqueue => exact .inl hqueue
      | fuse _ _ _ hqueue => exact .inl hqueue
    rcases hheld with hnil | hone
    · rw [hnil] at hq
      exact absurd hq (by simp)
    · rw [hone] at hq
      obtain rfl : a = a' := by simpa using hq
      exact h
  · simp at heq

/-- What is handed over is the sequence, cut into groups that stand for what they are fused to; its effect is that of the
sequence where nothing is misfused, and a pair that is misfused tells the two apart. -/
theorem fusion_keeps_meaning :
    (∀ ds, ∃ groups, groups.flatten = ds ∧ List.Forall₂ Fuses groups (fuse ds)) ∧
    (∀ ds, Traced ds → NotMisfused ds → ∀ c : Cpu M, run other (fuse ds) c = run other ds c) ∧
    ∀ a d, Traced [a, d] → a.rd ≠ 0 → (Fusion.after [a]).queue = [a] →
      ((∀ c : Cpu M, run other (fuse [a, d]) c = run other [a, d] c) ↔ ¬ Misfused a d) := by
  refine ⟨?_, fun ds h hok c => run_fuse_of_notMisfused other h hok c, ?_⟩
  · intro ds
    obtain ⟨groups, hflat, hgroups⟩ := groups_fuse (P := fun _ => True) (fun _ => trivial) ds fun _ _ _ _ => trivial
    exact ⟨groups, hflat, hgroups.imp fun _ _ h => h.1⟩
  · intro a d h h0 hq
    exact ⟨not_misfused_of_run other h h0 hq, fun hok c => run_fuse_of_notMisfused other h (notMisfused_pair hok) c⟩

end Main

theorem traced_pair {a d : JitDecode} (hpc : d.pc = a.pc + BitVec.ofNat 64 a.length) (ha : a.length = 4) (hd : d.length = 4)
    (himm : a.imm.toNat % 4096 = 0 ∨ a.op ≠ .rv .auipc) (hdop : d.op ≠ .rv .auipc) : Traced [a, d] where
  follows := by
    intro pre x y post heq _
    rcases pre with - | ⟨z, - | ⟨w, pre⟩⟩
    · simp only [List.nil_append, List.cons.injEq] at heq
      obtain ⟨rfl, rfl, -⟩ := heq
      exact hpc
    · simp at heq
    · simp at heq
  length := by
    simp only [List.mem_cons, List.not_mem_nil, or_false, forall_eq_or_imp, forall_eq]
    omega
  auipc := by
    simp only [List.mem_cons, List.not_mem_nil, or_false, forall_eq_or_imp, forall_eq]
    exact ⟨fun h => ⟨ha, himm.resolve_right fun hne => hne h⟩, fun h => absurd h hdop⟩

/-- `auipc a0, 0x1` and `addi a0, a0, 4` -/
def auipcA0 : JitDecode := { pc := 0x1000, inst := 0x1517, imm := 0x1000, op := .rv .auipc, rd := 10 }
def addiA0 : JitDecode := { pc := 0x1004, inst := 0x450513, imm := 4, op := .rv .addi, rd := 10, rs1 := 10 }

theorem fusion_keeps_meaning_la :
    Traced [auipcA0, addiA0] ∧ NotMisfused [auipcA0, addiA0] ∧
      fuse [auipcA0, addiA0] = [{ pc := 0x1000, inst := 0x450513, imm := 0x1004, op := .la, rd := 10 }] ∧
      (∀ c : Cpu Unit, run (fun _ c => c) (fuse [auipcA0, addiA0]) c = run (fun _ c => c) [auipcA0, addiA0] c) ∧
      ((∀ c : Cpu Unit, run (fun _ c => c) (fuse [auipcA0, addiA0]) c = run (fun _ c => c) [auipcA0, addiA0] c) ↔
        ¬ Misfused auipcA0 addiA0) := by
  have ht : Traced [auipcA0, addiA0] := traced_pair (by decide) (by decide) (by decide) (.inl (by decide)) (by decide)
  have hok : ¬ Misfused auipcA0 addiA0 := by
    unfold Misfused
    decide
  obtain ⟨-, hrun, hpair⟩ := fusion_keeps_meaning (M := Unit) fun _ c => c
  exact ⟨ht, notMisfused_pair hok, by decide, hrun _ ht (notMisfused_pair hok), hpair _ _ ht (by decide) (by decide)⟩

/-- `addiw a0, a1, 32` and `srli a0, a0, 32` -/
def addiwA0 : JitDecode := { pc := 0x1000, inst := 0x205851b, imm := 32, op := .rv .addiw, rd := 10, rs1 := 11 }
def srliA0 : JitDecode := { pc := 0x1004, inst := 0x2055513, imm := 32, op := .rv .srli, rd := 10, rs1 := 10 }

/-- A processor at 0x1000 with `a1 = 5`. -/
def cpuA1 : Cpu Unit where
  ireg r := if r = 11 then 5 else 0
  pc := 0x1000
  rest := ()
  ireg_zero := rfl

/-- The `addiw` falls through to the case of `slli`: `a0` becomes `a1` instead of 0. -/
theorem not_fusion_keeps_meaning_addiw :
    Traced [addiwA0, srliA0] ∧
      (run (fun _ c => c) (fuse [addiwA0, srliA0]) cpuA1).ireg 10 = 5 ∧
      (run (fun _ c => c) [addiwA0, srliA0] cpuA1).ireg 10 = 0 ∧
      ¬ ∀ c : Cpu Unit, run (fun _ c => c) (fuse [addiwA0, srliA0]) c = run (fun _ c => c) [addiwA0, srliA0] c := by
  have hfused : (run (fun _ c => c) (fuse [addiwA0, srliA0]) cpuA1).ireg 10 = 5 := by decide
  have hplain : (run (fun _ c => c) [addiwA0, srliA0] cpuA1).ireg 10 = 0 := by decide
  refine ⟨traced_pair (by decide) (by decide) (by decide) (.inr (by decide)) (by decide), hfused, hplain, ?_⟩
  intro h
  rw [h cpuA1, hplain] at hfused
  exact absurd hfused (by decide)

end Rv8.Jit
