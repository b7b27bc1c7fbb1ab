import Rv8.Emu.Amo
/-!
# Moving floating-point values

A floating-point register holds a pattern, and so does a load. A store hands the value
to `memory_bus::store`, which passes it on as an integer, so that it is converted and
only +0 arrives as it was. `fmv.x.s` and `fmv.x.d` replace every NaN by the canonical
one, and `float_classify` takes the lowest bit of the mantissa for the quiet bit.
-/

namespace Rv8.Emu

open Rv8.Lib Rv8.Asm

/-! ## Conversion to integers -/

/-- An integer type of `n` bits can hold the value. -/
def InRange (n : Nat) (signed : Bool) (t : Int) : Prop :=
  (if signed then -2 ^ (n - 1) else 0) ≤ t ∧ t < (if signed then 2 ^ (n - 1) else 2 ^ n)

instance (n : Nat) (signed : Bool) (t : Int) : Decidable (InRange n signed t) := inferInstanceAs (Decidable (_ ∧ _))

namespace FpFmt

variable (fmt : FpFmt) (x : BitVec fmt.width)

def bias : Nat := 2 ^ (fmt.expSize - 1) - 1

/-- The integer part of the absolute value of a finite pattern. -/
def whole : Nat :=
  if fmt.exp x < fmt.bias then 0 else (2 ^ fmt.manSize + fmt.man x) * 2 ^ (fmt.exp x - fmt.bias) / 2 ^ fmt.manSize

/-- The value rounded towards zero, which a NaN or an infinity does not have. -/
def trunc : Option Int := if fmt.exp x = fmt.expInf then none else some (if fmt.sign x then -fmt.whole x else fmt.whole x)

end FpFmt

/-- What C promises of a conversion to an integer type: the fraction is discarded, and the rest is kept where the type can
hold it. -/
def Host.Truncates (host : Host) : Prop :=
  ∀ (fmt : FpFmt) n signed fenv v t, fmt.trunc v = some t → InRange n signed t →
    (host.toInt fmt n signed fenv v).1 = BitVec.ofInt n t

section Whole
variable {k m n : Nat}

theorem two_pow_le_whole : 2 ^ k ≤ (2 ^ n + m) * 2 ^ k / 2 ^ n := by
  rw [Nat.le_div_iff_mul_le (Nat.two_pow_pos n), Nat.mul_comm]
  exact Nat.mul_le_mul_right _ (Nat.le_add_right _ _)

theorem whole_lt_two_pow (hm : m < 2 ^ n) : (2 ^ n + m) * 2 ^ k / 2 ^ n < 2 ^ (k + 1) := by
  rw [Nat.div_lt_iff_lt_mul (Nat.two_pow_pos n)]
  calc (2 ^ n + m) * 2 ^ k < (2 ^ n * 2) * 2 ^ k := Nat.mul_lt_mul_of_pos_right (by omega) (Nat.two_pow_pos k)
    _ = 2 ^ (k + 1) * 2 ^ n := by rw [Nat.pow_succ, Nat.mul_assoc, Nat.mul_comm 2, Nat.mul_comm]

end Whole

namespace FpFmt

variable (fmt : FpFmt) {x : BitVec fmt.width}

theorem man_lt : fmt.man x < 2 ^ fmt.manSize := Nat.mod_lt _ (Nat.two_pow_pos _)

/-- Without the sign, the fields of a pattern make the pattern. -/
theorem toNat_of_pos (h : fmt.sign x = false) : x.toNat = fmt.exp x * 2 ^ fmt.manSize + fmt.man x := by
  have hlt : 2 * x.toNat < 2 ^ fmt.width := BitVec.msb_eq_false_iff_two_mul_lt.1 h
  unfold exp man
  rw [Nat.shiftRight_eq_div_pow]
  cases fmt with
  | s =>
    simp only [width, manSize, expSize] at *
    omega
  | d =>
    simp only [width, manSize, expSize] at *
    omega

/-- No pattern but 0 is its own integer part: below the binade where the two are near each other the pattern is greater, and
above it the integer part is. -/
theorem whole_ne (hexp : fmt.bias ≤ fmt.exp x) (hinf : fmt.exp x < fmt.expInf) :
    fmt.whole x ≠ fmt.exp x * 2 ^ fmt.manSize + fmt.man x := by
  have hm := fmt.man_lt (x := x)
  unfold whole
  rw [if_neg (by omega)]
  generalize fmt.exp x = e at hexp hinf ⊢
  generalize fmt.man x = m at hm ⊢
  obtain ⟨k, rfl⟩ := Nat.exists_eq_add_of_le hexp
  rw [Nat.add_sub_cancel_left]
  have hlo : 2 ^ k ≤ _ := two_pow_le_whole (k := k) (m := m) (n := fmt.manSize)
  have hhi : _ < 2 ^ (k + 1) := whole_lt_two_pow (k := k) hm
  have hmono {a b : Nat} (h : a ≤ b) : 2 ^ a ≤ 2 ^ b := Nat.pow_le_pow_right (by decide) h
  cases fmt with
  | s =>
    simp only [bias, expInf, manSize, expSize] at *
    rcases (by omega : k + 1 ≤ 29 ∨ k = 29 ∨ k = 30 ∨ 31 ≤ k) with h | rfl | rfl | h
    · have := hmono h
      omega
    · omega
    · omega
    · have := hmono h
      omega
  | d =>
    simp only [bias, expInf, manSize, expSize] at *
    rcases (by omega : k + 1 ≤ 61 ∨ k = 61 ∨ k = 62 ∨ 63 ≤ k) with h | rfl | rfl | h
    · have := hmono h
      omega
    · omega
    · omega
    · have := hmono h
      omega

theorem trunc_zero : fmt.trunc 0 = some 0 := by
  cases fmt <;> rfl

theorem ofInt_trunc_ne {t : Int} (ht : fmt.trunc x = some t) (hr : InRange fmt.width false t) (hx : x ≠ 0) :
    BitVec.ofInt fmt.width t ≠ x := by
  rintro rfl
  obtain ⟨h0, h1⟩ := hr
  simp only [Bool.false_eq_true, if_false] at h0 h1
  set x := BitVec.ofInt fmt.width t
  have hnat : (x.toNat : Int) = t := by
    rw [BitVec.toNat_ofInt, Int.emod_eq_of_lt h0 (by exact_mod_cast h1), Int.toNat_of_nonneg h0]
  have hpos : t ≠ 0 := fun h => hx (BitVec.toNat_inj.1 (by rw [h] at hnat; simpa using hnat))
  unfold trunc at ht
  split at ht
  · cases ht
  · next hfin =>
    have hsign : fmt.sign x = false := by
      by_contra hneg
      rw [Bool.not_eq_false] at hneg
      rw [hneg, if_pos rfl] at ht
      have := Option.some.inj ht
      omega
    rw [hsign, if_neg Bool.false_ne_true] at ht
    have hwhole : fmt.whole x = x.toNat := by exact_mod_cast (Option.some.inj ht).trans hnat.symm
    by_cases hexp : fmt.exp x < fmt.bias
    · have hzero : fmt.whole x = 0 := if_pos hexp
      omega
    · have hinf : fmt.exp x < fmt.expInf := by
        have hlt : fmt.exp x < 2 ^ fmt.expSize := Nat.mod_lt _ (Nat.two_pow_pos _)
        unfold expInf at hfin ⊢
        omega
      exact fmt.whole_ne (by omega) hinf (hwhole.trans (fmt.toNat_of_pos hsign))

end FpFmt

/-- A host that complements what an integer cannot hold. -/
def complementingHost : Host :=
  { (default : Host) with
    toInt := fun fmt n signed e v => (match fmt.trunc v with
      | some t => if InRange n signed t then BitVec.ofInt n t else ~~~(v.setWidth n)
      | none => ~~~(v.setWidth n), e) }

theorem complementingHost_truncates : complementingHost.Truncates := by
  intro fmt n signed fenv v t ht hr
  show (match fmt.trunc v with
    | some t => if InRange n signed t then BitVec.ofInt n t else ~~~(v.setWidth n)
    | none => ~~~(v.setWidth n)) = BitVec.ofInt n t
  rw [ht]
  exact if_pos hr

theorem complementingHost_ne (fmt : FpFmt) (fenv : Fenv) {v : BitVec fmt.width} (hv : v ≠ 0) :
    (complementingHost.toInt fmt fmt.width false fenv v).1 ≠ v := by
  have hcompl : ~~~(v.setWidth fmt.width) ≠ v := by
    have hw : 0 < fmt.width := by cases fmt <;> decide
    intro h
    have := congrArg (·.getLsbD 0) h
    simp [hw] at this
  show (match fmt.trunc v with
    | some t => if InRange fmt.width false t then BitVec.ofInt fmt.width t else ~~~(v.setWidth fmt.width)
    | none => ~~~(v.setWidth fmt.width)) ≠ v
  cases ht : fmt.trunc v with
  | none => exact hcompl
  | some t =>
    by_cases hr : InRange fmt.width false t
    · simp only [if_pos hr]
      exact fmt.ofInt_trunc_ne ht hr hv
    · simp only [if_neg hr]
      exact hcompl

/-! ## The instructions -/

/-- The instructions that move values, with a name for the two formats. -/
inductive FpMove
  | fmvToFreg | fmvToIreg | fl | fs | fclass | fsgnj | fsgnjn | fsgnjx
deriving DecidableEq

def FpMove.inst : FpMove → FpFmt → RvOp
  | fmvToFreg, .s => .fmv_s_x | fmvToFreg, .d => .fmv_d_x
  | fmvToIreg, .s => .fmv_x_s | fmvToIreg, .d => .fmv_x_d
  | fl, .s => .flw | fl, .d => .fld
  | fs, .s => .fsw | fs, .d => .fsd
  | fclass, .s => .fclass_s | fclass, .d => .fclass_d
  | fsgnj, .s => .fsgnj_s | fsgnj, .d => .fsgnj_d
  | fsgnjn, .s => .fsgnjn_s | fsgnjn, .d => .fsgnjn_d
  | fsgnjx, .s => .fsgnjx_s | fsgnjx, .d => .fsgnjx_d

/-- What `fmv.x.s` and `fmv.x.d` give for a NaN. -/
def FpFmt.canonicalNan : (fmt : FpFmt) → BitVec fmt.width
  | .s => 0x7fc00000
  | .d => 0x7ff8000000000000

def FpFmt.canonical (fmt : FpFmt) (x : BitVec fmt.width) : BitVec fmt.width := if fmt.isnan x then fmt.canonicalNan else x

/-- The quiet bit: the top bit of the mantissa. -/
def FpFmt.quietBit (fmt : FpFmt) (v : BitVec fmt.width) : Bool := v.getLsbD (fmt.manSize - 1)

theorem FpFmt.width_eq (fmt : FpFmt) : ∃ e, fmt.width / 8 = 2 ^ e := by
  cases fmt
  · exact ⟨2, rfl⟩
  · exact ⟨3, rfl⟩

theorem FpFmt.eight_mul_width (fmt : FpFmt) : 8 * (fmt.width / 8) = fmt.width := by
  cases fmt <;> rfl

section Moves
variable {host : Host} {rv : Ext → Bool} {fmt : FpFmt} {dec : Decode} {pcOffset : BitVec Rv.rv64.xlen}
  {s : Machine .rv64 UserMemory}

/-- The address of a load or a store. -/
def Machine.address (s : Machine .rv64 UserMemory) (dec : Decode) : BitVec Rv.rv64.xlen :=
  s.hart.ireg dec.rs1 + BitVec.ofInt Rv.rv64.xlen dec.imm

/-- An instruction that brings `v` into floating-point register `f`. -/
inductive Writes (fmt : FpFmt) (v : BitVec fmt.width) (f : Nat) (s : Machine .rv64 UserMemory) (dec : Decode) : Prop
  | move (hop : dec.op = FpMove.fmvToFreg.inst fmt) (hrd : dec.rd = f) (hval : (s.hart.ireg dec.rs1).setWidth fmt.width = v)
  | load (hop : dec.op = FpMove.fl.inst fmt) (hrd : dec.rd = f) (hplain : s.Plain .load (fmt.width / 8) (s.address dec))
    (hval : s.mmu.mem.load (fmt.width / 8) (s.address dec).toNat = some v.toNat)

theorem Hart.readFrs_writeFrd {R : Rv} (s : Hart R) (fmt : FpFmt) (f : Nat) (v : BitVec fmt.width) :
    (s.writeFrd fmt f v).readFrs fmt f = v := by
  have hle : (⟨0, fmt.width⟩ : BitField).lo + (⟨0, fmt.width⟩ : BitField).width ≤ 64 := by cases fmt <;> decide
  have hreg : (s.writeFrd fmt f v).freg f = BitField.set ⟨0, fmt.width⟩ (s.freg f) v := if_pos rfl
  have hget := BitField.get_set _ hle (s.freg f) v
  rw [← hreg] at hget
  exact hget

theorem execInst_setFrd {v : BitVec fmt.width} (ha : action host s.hart dec dec.op = some (fmt.ext, .setFrd fmt false (pure v)))
    (hrv : rv fmt.ext = true) :
    execInst (mmuSoft .rv64) host rv dec pcOffset s = .ok pcOffset { s with hart := s.hart.writeFrd fmt dec.rd v } :=
  execInst_of_action ha hrv

theorem Writes.exec {v : BitVec fmt.width} {f : Nat} (h : Writes fmt v f s dec) (hrv : rv fmt.ext = true) :
    execInst (mmuSoft .rv64) host rv dec pcOffset s = .ok pcOffset { s with hart := s.hart.writeFrd fmt f v } := by
  cases h with
  | move hop hrd hval =>
    subst hrd hval
    refine execInst_setFrd ?_ hrv
    rw [hop]
    cases fmt <;> rfl
  | load hop hrd hplain hval =>
    subst hrd
    have ha : action host s.hart dec dec.op = some (fmt.ext, .fload fmt (s.address dec)) := by
      rw [hop]
      cases fmt <;> rfl
    obtain ⟨e, he⟩ := fmt.width_eq
    rw [execInst_of_action ha hrv]
    refine (Prog.bind_ok (hplain.load he host hval)).trans ?_
    have hv : BitVec.ofNat fmt.width v.toNat = v := by
      rw [BitVec.ofNat_toNat, BitVec.setWidth_eq]
    show Outcome.ok pcOffset { s with hart := s.hart.writeFrd fmt dec.rd (BitVec.ofNat fmt.width v.toNat) } = _
    rw [hv]

/-- A store leaves the converted value in memory. -/
theorem exec_fs (host : Host) (rv : Ext → Bool) (dec : Decode) (pcOffset : BitVec Rv.rv64.xlen) (s : Machine .rv64 UserMemory) (hop : dec.op = FpMove.fs.inst fmt) (hrv : rv fmt.ext = true)
    (hplain : s.Plain .store (fmt.width / 8) (s.address dec)) :
    ∃ s', execInst (mmuSoft .rv64) host rv dec pcOffset s = .ok pcOffset s' ∧
      s'.mmu.mem.load (fmt.width / 8) (s.address dec).toNat =
        some (host.toInt fmt fmt.width false s.hart.fenv (s.hart.readFrs fmt dec.rs2)).1.toNat := by
  have ha : action host s.hart dec dec.op = some (fmt.ext, .fstore fmt (s.address dec) (s.hart.readFrs fmt dec.rs2)) := by
    rw [hop]
    cases fmt <;> rfl
  obtain ⟨e, he⟩ := fmt.width_eq
  have hpos : 0 < fmt.width / 8 := he ▸ Nat.two_pow_pos e
  set bits := (host.toInt fmt fmt.width false s.hart.fenv (s.hart.readFrs fmt dec.rs2)).1
  obtain ⟨mem, hmem⟩ := hplain.held.exists_store hpos bits.toNat
  let s1 : Machine .rv64 UserMemory :=
    { s with hart := (s.hart.runFp (Host.onFenv (host.toInt fmt fmt.width false · (s.hart.readFrs fmt dec.rs2)))).2 }
  have haddr : Machine.onMmu (fun proc => storeAddr (mmuSoft .rv64) .rv64 proc (fmt.width / 8) (s.address dec).toNat) s =
      .ok (some (s.address dec).toNat) s := Machine.onMmu_ok (hplain.storeAddr he)
  have hbits : Machine.storedBits (mmuSoft .rv64) host fmt (s.address dec).toNat (s.hart.readFrs fmt dec.rs2) s = .ok bits s1 := rfl
  have hstore : Machine.onMmu (fun _ => Mmu.onMem ((mmuSoft .rv64).store (fmt.width / 8) (s.address dec).toNat bits.toNat)
      (.raise .faultStore (s.address dec).toNat)) s1 = .ok () (s1.withMem mem) :=
    Machine.onMmu_ok (onMem_of_ok (busStore_some hmem))
  refine ⟨s1.withMem mem, ?_, ?_⟩
  · rw [execInst_of_action ha hrv]
    refine Prog.bind_ok (a := ()) ?_
    refine (Prog.bind_ok haddr).trans ?_
    exact (Prog.bind_ok hbits).trans hstore
  · refine (UserMemory.load_store_self hmem).trans ?_
    rw [fmt.eight_mul_width, Nat.mod_eq_of_lt bits.isLt]

/-- A move to an integer register replaces NaNs. -/
theorem exec_fmvToIreg (hop : dec.op = FpMove.fmvToIreg.inst fmt) (hrv : rv fmt.ext = true) :
    execInst (mmuSoft .rv64) host rv dec pcOffset s = .ok pcOffset
      { s with hart := s.hart.writeRd dec.rd ((fmt.canonical (s.hart.readFrs fmt dec.rs1)).signExtend Rv.rv64.xlen) } := by
  refine execInst_setRd ?_ hrv
  rw [hop]
  cases fmt with
  | s => rfl
  | d =>
    refine congrArg (fun x => some (Ext.d, Action.setRd x)) ?_
    exact (BitVec.signExtend_eq_setWidth_of_le _ (Nat.le_refl 64)).symm

theorem exec_fclass (hop : dec.op = FpMove.fclass.inst fmt) (hrv : rv fmt.ext = true) :
    execInst (mmuSoft .rv64) host rv dec pcOffset s = .ok pcOffset
      { s with hart := s.hart.writeRd dec.rd (BitVec.ofNat Rv.rv64.xlen (fmt.classify (s.hart.readFrs fmt dec.rs1))) } := by
  refine execInst_setRd ?_ hrv
  rw [hop]
  cases fmt <;> rfl

end Moves

/-! ## Signs and classes -/

/-- The sign that a sign injection gives, from those of its operands. -/
def FpMove.injected : FpMove → Bool → Bool → Option Bool
  | fsgnj, _, sy => some sy
  | fsgnjn, _, sy => some !sy
  | fsgnjx, sx, sy => some (sx ^^ sy)
  | _, _, _ => none

def FpMove.inject (fmt : FpFmt) (x y : BitVec fmt.width) : FpMove → BitVec fmt.width
  | fsgnjn => Emu.fsgnjn fmt x y
  | fsgnjx => Emu.fsgnjx fmt x y
  | _ => Emu.fsgnj fmt x y

section Signs
variable (fmt : FpFmt) (x y : BitVec fmt.width)

theorem FpFmt.getElem_signBit {i : Nat} (hi : i < fmt.width) : fmt.signBit[i] = decide (i = fmt.width - 1) := by
  have hbit : fmt.signBit = BitVec.ofNat fmt.width (2 ^ (fmt.width - 1)) := congrArg (BitVec.ofNat _) (Nat.one_shiftLeft _)
  rw [hbit, ← BitVec.getLsbD_eq_getElem, BitVec.getLsbD_ofNat, Nat.testBit_two_pow, decide_eq_true hi, Bool.true_and]
  exact decide_eq_decide.2 eq_comm

/-- A sign injection assigns the sign and leaves the other bits of its first operand. -/
theorem FpMove.inject_spec {m : FpMove} {b : Bool} (h : m.injected (fmt.sign x) (fmt.sign y) = some b) :
    (∀ i < fmt.width - 1, (m.inject fmt x y).getLsbD i = x.getLsbD i) ∧ fmt.sign (m.inject fmt x y) = b := by
  have hw : 0 < fmt.width := by cases fmt <;> decide
  unfold FpFmt.sign at *
  rw [BitVec.msb_eq_getLsbD_last] at *
  cases m
  case fsgnj | fsgnjn | fsgnjx =>
    obtain rfl := Option.some.inj h
    refine ⟨fun i hi => ?_, ?_⟩
    · have hlt : i < fmt.width := by omega
      have hne : i ≠ fmt.width - 1 := by omega
      simp [inject, Emu.fsgnj, Emu.fsgnjn, Emu.fsgnjx, FpFmt.getElem_signBit, hlt, hne]
    · simp [inject, Emu.fsgnj, Emu.fsgnjn, Emu.fsgnjx, FpFmt.getElem_signBit, hw, BitVec.msb_eq_getLsbD_last]
  all_goals cases h

end Signs

/-! ## What is exact -/

section Exact
variable (fmt : FpFmt) (v : BitVec fmt.width)

def execTwo (host : Host) (rv : Ext → Bool) (dec dec' : Decode) (off off' : BitVec Rv.rv64.xlen) :
    Prog MmuExit (Machine .rv64 UserMemory) (BitVec Rv.rv64.xlen) := do
  let _ ← execInst (mmuSoft .rv64) host rv dec off
  execInst (mmuSoft .rv64) host rv dec' off'

/-- Whatever instruction writes the pattern, a store of the register puts it into memory. -/
def StoredExactly : Prop :=
  ∀ (host : Host) rv (s : Machine .rv64 UserMemory) dec dec' off off' f, host.Truncates → rv fmt.ext = true → Writes fmt v f s dec →
    dec'.op = FpMove.fs.inst fmt → dec'.rs2 = f → s.Plain .store (fmt.width / 8) (s.address dec') →
    ∃ s', execTwo host rv dec dec' off off' s = .ok off' s' ∧
      s'.mmu.mem.load (fmt.width / 8) (s.address dec').toNat = some v.toNat

/-- Whatever instruction writes the pattern, a move of the register gives it back. -/
def MovedExactly : Prop :=
  ∀ (host : Host) rv (s : Machine .rv64 UserMemory) dec dec' off off' f, rv fmt.ext = true → Writes fmt v f s dec →
    dec'.op = FpMove.fmvToIreg.inst fmt → dec'.rs1 = f → dec'.rd ≠ 0 →
    ∃ s', execTwo host rv dec dec' off off' s = .ok off' s' ∧ s'.hart.ireg dec'.rd = v.signExtend Rv.rv64.xlen

/-- A move of the register gives the pattern back, or the canonical NaN for a NaN. -/
def MovedBack : Prop :=
  ∀ (host : Host) rv (s : Machine .rv64 UserMemory) dec dec' off off' f, rv fmt.ext = true → Writes fmt v f s dec →
    dec'.op = FpMove.fmvToIreg.inst fmt → dec'.rs1 = f → dec'.rd ≠ 0 →
    ∃ s', execTwo host rv dec dec' off off' s = .ok off' s' ∧
      s'.hart.ireg dec'.rd = (if fmt.isnan v then fmt.canonicalNan else v).signExtend Rv.rv64.xlen

/-- A sign injection of the pattern assigns its sign and nothing else. -/
def SignOnly : Prop :=
  ∀ (host : Host) rv (s : Machine .rv64 UserMemory) dec off m b, rv fmt.ext = true → dec.op = FpMove.inst m fmt →
    s.hart.readFrs fmt dec.rs1 = v → m.injected (fmt.sign v) (fmt.sign (s.hart.readFrs fmt dec.rs2)) = some b →
    ∃ z, execInst (mmuSoft .rv64) host rv dec off s = .ok off { s with hart := s.hart.writeFrd fmt dec.rd z } ∧
      (∀ i < fmt.width - 1, z.getLsbD i = v.getLsbD i) ∧ fmt.sign z = b

/-- The class of the pattern tells quiet and signaling NaNs by the quiet bit. -/
def ClassifiedExactly : Prop :=
  ∀ (host : Host) rv (s : Machine .rv64 UserMemory) dec off, rv fmt.ext = true → dec.op = FpMove.fclass.inst fmt →
    s.hart.readFrs fmt dec.rs1 = v → dec.rd ≠ 0 →
    ∃ s', execInst (mmuSoft .rv64) host rv dec off s = .ok off s' ∧
      (s'.hart.ireg dec.rd = 512 ↔ fmt.exp v = fmt.expInf ∧ fmt.quietBit v = true) ∧
      (s'.hart.ireg dec.rd = 256 ↔ fmt.isnan v = true ∧ fmt.quietBit v = false)

variable {fmt v}

theorem Writes.execTwo {host : Host} {rv : Ext → Bool} {s : Machine .rv64 UserMemory} {dec dec' : Decode}
    {off off' : BitVec Rv.rv64.xlen} {f : Nat} (h : Writes fmt v f s dec) (hrv : rv fmt.ext = true) :
    Emu.execTwo host rv dec dec' off off' s =
      execInst (mmuSoft .rv64) host rv dec' off' { s with hart := s.hart.writeFrd fmt f v } :=
  Prog.bind_ok (h.exec hrv)

def blankRam : UserMemory := ⟨[⟨defaultRamBase, defaultRamSize⟩], fun _ _ => 0⟩

/-- The start of RAM in `x1`, and the pattern in `x2`. -/
def movingMachine (v : BitVec fmt.width) : Machine .rv64 UserMemory where
  hart := { (default : Hart .rv64) with ireg := fun r => if r = 1 then 0x80000000 else if r = 2 then v.setWidth 64 else 0 }
  mmu := emptyTlbs .rv64 blankRam

theorem movingMachine_writes (v : BitVec fmt.width) :
    Writes fmt v 1 (movingMachine v) { op := FpMove.fmvToFreg.inst fmt, rd := 1, rs1 := 2 } := by
  refine .move rfl rfl ?_
  have hle : fmt.width ≤ 64 := by cases fmt <;> decide
  show (v.setWidth 64).setWidth fmt.width = v
  rw [BitVec.setWidth_setWidth_of_le _ hle, BitVec.setWidth_eq]

theorem storedExactly_iff : StoredExactly fmt v ↔ v = 0 := by
  constructor
  · intro h
    by_contra hv
    let dec' : Decode := { op := FpMove.fs.inst fmt, rs1 := 1, rs2 := 1 }
    have hplain : (movingMachine v).Plain .store (fmt.width / 8) ((movingMachine v).address dec') := by
      have haddr : (movingMachine v).address dec' = 0x80000000 := rfl
      have hbare : Bare .rv64 (default : Processor 64) .store := .inr rfl
      have hheld : blankRam.HoldsBytes (fmt.width / 8) 0x80000000 := by
        refine ⟨0, 0, ?_⟩
        cases fmt <;> decide
      refine ⟨?_, ?_, hbare, hheld⟩
      · rw [haddr]
        cases fmt <;> decide
      · rw [haddr]
        decide
    have hwrites := movingMachine_writes v
    obtain ⟨s', hrun, hmem⟩ := h complementingHost (fun _ => true) _ _ dec' 4 4 1 complementingHost_truncates rfl hwrites rfl rfl hplain
    rw [hwrites.execTwo rfl] at hrun
    obtain ⟨s'', hstore, hmem'⟩ := exec_fs complementingHost (fun _ => true) dec' 4
      { movingMachine v with hart := (movingMachine v).hart.writeFrd fmt 1 v } rfl rfl
      ⟨hplain.aligned, hplain.nonzero, hplain.bare, hplain.held⟩
    obtain ⟨-, rfl⟩ := Outcome.ok.inj (hstore.symm.trans hrun)
    rw [Hart.readFrs_writeFrd] at hmem'
    have hsame := Option.some.inj (hmem'.symm.trans hmem)
    exact complementingHost_ne fmt _ hv (BitVec.toNat_inj.1 hsame)
  · rintro rfl host rv s dec dec' off off' f htrunc hrv hwrites hop rfl hplain
    rw [hwrites.execTwo hrv]
    obtain ⟨s', hrun, hmem⟩ := exec_fs host rv dec' off' { s with hart := s.hart.writeFrd fmt dec'.rs2 0 }
      hop hrv ⟨hplain.aligned, hplain.nonzero, hplain.bare, hplain.held⟩
    refine ⟨s', hrun, hmem.trans ?_⟩
    rw [Hart.readFrs_writeFrd, htrunc fmt _ false _ 0 0 fmt.trunc_zero ⟨by simp, by simp⟩]
    simp

theorem movedBack : MovedBack fmt v := by
  rintro host rv s dec dec' off off' f hrv hwrites hop rfl hrd
  rw [hwrites.execTwo hrv, exec_fmvToIreg hop hrv]
  refine ⟨_, rfl, ?_⟩
  refine (Hart.ireg_writeRd _ hrd _).trans ?_
  rw [Hart.readFrs_writeFrd]
  rfl

theorem movedExactly_iff : MovedExactly fmt v ↔ (fmt.isnan v = true → v = fmt.canonicalNan) := by
  have hcanonical : fmt.canonical v = v ↔ (fmt.isnan v = true → v = fmt.canonicalNan) := by
    unfold FpFmt.canonical
    by_cases hn : fmt.isnan v = true
    · simp [hn, eq_comm]
    · simp [hn]
  rw [← hcanonical]
  constructor
  · intro h
    have hwrites := movingMachine_writes v
    obtain ⟨s', hrun, hval⟩ := h default (fun _ => true) _ _ { op := FpMove.fmvToIreg.inst fmt, rd := 1, rs1 := 1 } 4 4 1 rfl hwrites
      rfl rfl Nat.one_ne_zero
    obtain ⟨s'', hrun', hval'⟩ := movedBack default (fun _ => true) _ _ { op := FpMove.fmvToIreg.inst fmt, rd := 1, rs1 := 1 } 4 4 1 rfl
      hwrites rfl rfl Nat.one_ne_zero
    obtain ⟨-, rfl⟩ := Outcome.ok.inj (hrun.symm.trans hrun')
    have hle : fmt.width ≤ Rv.rv64.xlen := by cases fmt <;> decide
    have hext : (fmt.canonical v).signExtend Rv.rv64.xlen = v.signExtend Rv.rv64.xlen := hval'.symm.trans hval
    rw [← setWidth_signExtend_self (fmt.canonical v) hle, hext, setWidth_signExtend_self v hle]
  · rintro hv host rv s dec dec' off off' f hrv hwrites hop hrs hrd
    obtain ⟨s', hrun, hval⟩ := movedBack host rv s dec dec' off off' f hrv hwrites hop hrs hrd
    exact ⟨s', hrun, hval.trans (congrArg _ hv)⟩

theorem signOnly : SignOnly fmt v := by
  rintro host rv s dec off m b hrv hop rfl hb
  refine ⟨m.inject fmt (s.hart.readFrs fmt dec.rs1) (s.hart.readFrs fmt dec.rs2), ?_, m.inject_spec fmt _ _ hb⟩
  refine execInst_setFrd ?_ hrv
  rw [hop]
  cases m
  case fsgnj | fsgnjn | fsgnjx => cases fmt <;> rfl
  all_goals cases hb

end Exact

/-! ## The class of a NaN -/

section Classes
variable {fmt : FpFmt} {v : BitVec fmt.width}

theorem FpFmt.classify_le : fmt.classify v ≤ 512 := by
  unfold classify
  dsimp only
  split_ifs <;> omega

/-- The class of a NaN is by the lowest bit of its mantissa. -/
theorem FpFmt.classify_of_isnan (h : fmt.isnan v = true) : fmt.classify v = if fmt.man v % 2 = 1 then 256 else 512 := by
  unfold isnan at h
  simp only [Bool.and_eq_true, beq_iff_eq, bne_iff_ne] at h
  have hexp : ¬ fmt.exp v = 0 := by
    rw [h.1]
    cases fmt <;> decide
  unfold classify
  dsimp only
  rw [if_neg hexp, if_pos h.1, if_neg h.2]

theorem FpFmt.classify_of_not_isnan (h : fmt.isnan v = false) : fmt.classify v < 256 := by
  have hman : fmt.exp v = fmt.expInf → fmt.man v = 0 := by
    intro hexp
    by_contra hne
    simp [isnan, hexp, hne] at h
  unfold classify
  dsimp only
  split_ifs <;> simp_all

theorem FpFmt.isnan_of_quietBit (hexp : fmt.exp v = fmt.expInf) (hq : fmt.quietBit v = true) : fmt.isnan v = true := by
  have hsize : fmt.manSize - 1 < fmt.manSize := by cases fmt <;> decide
  have hman : fmt.man v ≠ 0 := by
    intro h0
    have hbit : (fmt.man v).testBit (fmt.manSize - 1) = fmt.quietBit v := by
      unfold man quietBit BitVec.getLsbD
      rw [Nat.testBit_mod_two_pow, decide_eq_true hsize, Bool.true_and]
    rw [h0, hq] at hbit
    simp at hbit
  simp [isnan, hexp, hman]

theorem FpFmt.man_mod_two : fmt.man v % 2 = 1 ↔ v.getLsbD 0 = true := by
  have hdvd : 2 ∣ 2 ^ fmt.manSize := by cases fmt <;> decide
  unfold man BitVec.getLsbD
  rw [Nat.mod_mod_of_dvd _ hdvd, Nat.testBit_zero, decide_eq_true_iff]

/-- The class is the one that the quiet bit asks for. -/
theorem FpFmt.classify_iff :
    ((fmt.classify v = 512 ↔ fmt.exp v = fmt.expInf ∧ fmt.quietBit v = true) ∧
      (fmt.classify v = 256 ↔ fmt.isnan v = true ∧ fmt.quietBit v = false)) ↔
    (fmt.isnan v = true → fmt.quietBit v = !v.getLsbD 0) := by
  cases hn : fmt.isnan v with
  | false =>
    have hlt := fmt.classify_of_not_isnan hn
    have hq : ¬ (fmt.exp v = fmt.expInf ∧ fmt.quietBit v = true) := by
      rintro ⟨hexp, hq⟩
      rw [fmt.isnan_of_quietBit hexp hq] at hn
      cases hn
    simp only [Bool.false_eq_true, false_and, false_implies, iff_true]
    exact ⟨iff_of_false (by omega) hq, iff_of_false (by omega) id⟩
  | true =>
    have hexp : fmt.exp v = fmt.expInf := by
      unfold isnan at hn
      simp only [Bool.and_eq_true, beq_iff_eq] at hn
      exact hn.1
    rw [fmt.classify_of_isnan hn]
    cases hb : v.getLsbD 0 with
    | false =>
      have hodd : ¬ fmt.man v % 2 = 1 := fun h => by
        rw [fmt.man_mod_two, hb] at h
        cases h
      simp [hodd, hexp]
    | true =>
      have hodd : fmt.man v % 2 = 1 := fmt.man_mod_two.2 hb
      simp [hodd, hexp]

theorem ofNat_classify_eq {n : Nat} (hn : n < 2 ^ 64) : BitVec.ofNat Rv.rv64.xlen (fmt.classify v) = BitVec.ofNat _ n ↔ fmt.classify v = n := by
  have hlt : fmt.classify v < 2 ^ 64 := Nat.lt_of_le_of_lt fmt.classify_le (by decide)
  rw [← BitVec.toNat_inj, BitVec.toNat_ofNat, BitVec.toNat_ofNat]
  show fmt.classify v % 2 ^ 64 = n % 2 ^ 64 ↔ _
  rw [Nat.mod_eq_of_lt hlt, Nat.mod_eq_of_lt hn]

theorem classifiedExactly_iff : ClassifiedExactly fmt v ↔ (fmt.isnan v = true → fmt.quietBit v = !v.getLsbD 0) := by
  rw [← fmt.classify_iff, ← ofNat_classify_eq (n := 512) (by decide), ← ofNat_classify_eq (n := 256) (by decide)]
  constructor
  · intro h
    let s : Machine .rv64 UserMemory := { movingMachine v with hart := (movingMachine v).hart.writeFrd fmt 1 v }
    obtain ⟨s', hrun, hquiet, hsignaling⟩ := h default (fun _ => true) s { op := FpMove.fclass.inst fmt, rd := 1, rs1 := 1 } 4 rfl rfl
      (Hart.readFrs_writeFrd _ _ _ _) Nat.one_ne_zero
    rw [exec_fclass rfl rfl] at hrun
    obtain ⟨-, rfl⟩ := Outcome.ok.inj hrun
    rw [Hart.ireg_writeRd _ Nat.one_ne_zero, Hart.readFrs_writeFrd] at hquiet hsignaling
    exact ⟨hquiet, hsignaling⟩
  · rintro hclass host rv s dec off hrv hop rfl hrd
    refine ⟨_, exec_fclass hop hrv, ?_⟩
    rw [Hart.ireg_writeRd _ hrd]
    exact hclass

end Classes

/-- Which movements of a pattern are exact. -/
theorem float_moves_exact_iff (fmt : FpFmt) (v : BitVec fmt.width) :
    (StoredExactly fmt v ↔ v = 0) ∧ (MovedExactly fmt v ↔ (fmt.isnan v = true → v = fmt.canonicalNan)) ∧ SignOnly fmt v ∧
      (ClassifiedExactly fmt v ↔ (fmt.isnan v = true → fmt.quietBit v = !v.getLsbD 0)) :=
  ⟨storedExactly_iff, movedExactly_iff, signOnly, classifiedExactly_iff⟩

/-- A pattern is moved back as it is, but for NaNs. The value 0 is stored as it is, and a NaN has its class where its lowest bit
says the same as its quiet bit. -/
theorem float_moves (fmt : FpFmt) (v : BitVec fmt.width) :
    MovedBack fmt v ∧ SignOnly fmt v ∧ (v = 0 → StoredExactly fmt v) ∧
      ((fmt.isnan v = true → fmt.quietBit v = !v.getLsbD 0) → ClassifiedExactly fmt v) :=
  ⟨movedBack, signOnly, storedExactly_iff.2, classifiedExactly_iff.2⟩

/-- A signaling NaN comes back as the canonical one. 1.5 is stored as 1, and a quiet NaN with a 1 in its lowest bit is not
classified as one. -/
theorem not_float_moves_exact :
    ¬ MovedExactly .s 0x7f800001 ∧
    (∃ s', execTwo complementingHost (fun _ => true) { op := .fmv_s_x, rd := 1, rs1 := 2 } { op := .fsw, rs1 := 1, rs2 := 1 } 4 4
      (@movingMachine .s 0x3fc00000) = .ok 4 s' ∧ s'.mmu.mem.load 4 0x80000000 = some 1) ∧
    ¬ ClassifiedExactly .s 0x7fc00001 := by
  refine ⟨?_, ⟨_, rfl, by decide⟩, ?_⟩
  · rw [movedExactly_iff]
    decide
  · rw [classifiedExactly_iff]
    decide

end Rv8.Emu
