import Rv8.Jit.Divide
import Rv8.Emu.Multiply
/-!
# Code for the high half of a product

The emitters of `jit-emitter-rv64.h` for `mulh`, `mulhu` and `mulhsu`. They save `rdx`,
which is for the guest register `ra`, in the slot that `ra` has in the processor.
-/

namespace Rv8.Jit

open Rv8.Asm Rv8.Lib.X86

/-! ## Emitters -/

section Emitters
variable (d : JitDecode)

/-- The slot in which the multiplications save `rdx`. -/
def raSlot : Operand Slot := rbpReg rvIregRa

/-- `mul` or `imul` by `rs2`, through `rcx` from a slot. -/
def emitMulRs2 (mul : Operand Slot → Ins Slot Label) : Code :=
  let rs2x := x86Reg d.rs2
  if 0 < rs2x then [mul (gp rs2x)] else [.mov .q cx (rbpReg d.rs2), mul cx]

def emitSaveRa : Code := [.mov .q raSlot dx]

def emitRestoreRa : Code := [.mov .q dx raSlot]

/-- `emit_mulh` and `emit_mulhu` -/
def emitMulHigh (mul : Operand Slot → Ins Slot Label) : Code :=
  let rdx := x86Reg d.rd
  if d.rd = 0 then []
  else if d.rs1 = 0 ∨ d.rs2 = 0 then emitZeroRd d
  else
    (if rdx ≠ 2 then emitSaveRa else []) ++ emitMvRaxRs1 d ++ emitMulRs2 d mul ++ emitMvRdRdx d ++
      (if rdx ≠ 2 then emitRestoreRa else [])

def emitMulh : Code := emitMulHigh d .imul

def emitMulhu : Code := emitMulHigh d .mul

/-- The product of a negative `rs1`: the high half is negated if the low half is 0, else inverted. -/
def emitMulNegative : Code :=
  let rs1x := x86Reg d.rs1
  let rs2x := x86Reg d.rs2
  [.neg .q ax] ++ emitMulRs2 d .mul ++ [.alu .xor .q dx (.imm (-1)), .mov .q cx dx] ++
    (if rs1x = 2 ∨ rs2x = 2 then emitRestoreRa else []) ++ emitMvRaxRs1 d ++
    [.alu .imul .q ax (loc d.rs2), .test .q ax ax, .setcc .e rdx, .movzx rdx rdx, .lea .q rdx dx cx]

def emitMulhsu : Code :=
  let rdx := x86Reg d.rd
  let rs1x := x86Reg d.rs1
  let rs2x := x86Reg d.rs2
  if d.rd = 0 then []
  else if d.rs1 = 0 ∨ d.rs2 = 0 then emitZeroRd d
  else
    (if rdx ≠ 2 ∨ rs1x = 2 ∨ rs2x = 2 then emitSaveRa else []) ++ emitMvRaxRs1 d ++
      [.test .q ax ax, .jcc .ns .umul] ++ emitMulNegative d ++ [.jmp .out, .bind .umul] ++ emitMulRs2 d .mul ++
      [.bind .out] ++ emitMvRdRdx d ++ (if rdx ≠ 2 then emitRestoreRa else [])

end Emitters

/-! ## Products -/

section Products
variable {d : JitDecode} {s : HostState}

theorem loc_ne_raSlot (r : Nat) : loc r ≠ raSlot := by
  unfold raSlot
  intro h
  by_cases hr : r = rvIregRa
  · rw [hr, loc_ra] at h
    cases h
  · unfold loc gp rbpReg at h
    split at h
    · cases h
    · simp only [Operand.mem.injEq, Slot.ireg.injEq] at h
      exact hr h

theorem raSlot_loc : raSlot.Loc := trivial

theorem guest_putQ_raSlot (v : BitVec 64) (r : Nat) : guest (s.putQ v raSlot) r = guest s r := by
  unfold guest
  rw [State.q_putQ _ raSlot_loc, if_neg (loc_ne_raSlot r)]

theorem guest_putQ_dx {r : Nat} (h : r ≠ rvIregRa) (v : BitVec 64) : guest (s.putQ v dx) r = guest s r := by
  unfold guest
  rw [State.q_putQ _ (loc_reg _), if_neg (loc_ne_dx h)]

/-- After a product: its halves, and what is kept. -/
structure Product (s : HostState) (hi lo : BitVec 64) (s' : HostState) : Prop where
  hi : s'.q dx = hi
  lo : s'.q ax = lo
  slot : s'.q raSlot = s.q raSlot
  guest : ∀ r, r ≠ rvIregRa → guest s' r = guest s r

theorem product_putWide {s0 : HostState} {hi lo : BitVec 64} (hslot : s0.q raSlot = s.q raSlot)
    (hs0 : ∀ r, guest s0 r = guest s r) : Product s hi lo (s0.putWide hi lo).clobberFlags where
  hi := by
    rw [State.q_clobberFlags, State.putWide, State.q_putQ _ (loc_reg _), if_neg (by decide), State.q_putQ _ (loc_reg _), if_pos rfl]
  lo := by rw [State.q_clobberFlags, State.putWide, State.q_putQ _ (loc_reg _), if_pos rfl]
  slot := by
    rw [State.q_clobberFlags, State.putWide, State.q_putQ _ (loc_reg _), if_neg (by decide), State.q_putQ _ (loc_reg _),
      if_neg (by decide), hslot]
  guest := by
    intro r hr
    rw [guest_clobberFlags, State.putWide, guest_putQ_ax, guest_putQ_dx hr, hs0]

/-- `mul` and `imul` by the function of the high half. -/
theorem ends_mulRs2 {mul : Operand Slot → Ins Slot Label} (high : BitVec 64 → BitVec 64 → BitVec 64)
    (hmul : ∀ o, (mul o).straight = true)
    (hstep : ∀ o (s : HostState), (mul o).step s = some (s.putWide (high (s.q ax) (s.q o)) (s.q ax * s.q o)).clobberFlags) :
    Ends (emitMulRs2 d mul) s (Product s (high (s.q ax) (guest s d.rs2)) (s.q ax * guest s d.rs2)) := by
  unfold emitMulRs2
  dsimp only
  split
  · next h =>
    rw [ends_cons (hmul _) (hstep _ _), ends_nil, ← loc_of_pos h, q_loc]
    exact product_putWide rfl fun r => rfl
  · next h =>
    rw [ends_cons rfl rfl, ends_cons (hmul _) (hstep _ _), ends_nil, ← loc_of_not_pos h, q_loc]
    have hcx : (s.putQ (guest s d.rs2) cx).q cx = guest s d.rs2 := by rw [State.q_putQ _ (loc_reg _), if_pos rfl]
    have hax : (s.putQ (guest s d.rs2) cx).q ax = s.q ax := by rw [State.q_putQ _ (loc_reg _), if_neg (by decide)]
    rw [hcx, hax]
    refine product_putWide ?_ fun r => guest_putQ_cx s r _
    rw [State.q_putQ _ (loc_reg _), if_neg (by decide)]

theorem ends_mulRs2_unsigned :
    Ends (emitMulRs2 d .mul) s (Product s (Emu.mulhu (s.q ax) (guest s d.rs2)) (s.q ax * guest s d.rs2)) := by
  rw [Emu.mulhu_eq rfl (by decide)]
  exact ends_mulRs2 umulHigh (fun o => rfl) fun o s => rfl

theorem ends_mulRs2_signed :
    Ends (emitMulRs2 d .imul) s (Product s (Emu.mulh (s.q ax) (guest s d.rs2)) (s.q ax * guest s d.rs2)) := by
  rw [Emu.mulh_eq rfl (by decide)]
  exact ends_mulRs2 smulHigh (fun o => rfl) fun o s => rfl

/-- `rdx` is saved in the slot of `ra` if `c`, which is at least when it is not for the result. -/
theorem computes_saved_ra {c : Prop} [Decidable c] (hc : d.rd ≠ rvIregRa → c) {code : Code} {v : BitVec 64}
    (h : ∀ s0, (∀ r, guest s0 r = guest s r) → (c → s0.q raSlot = guest s rvIregRa) → Ends code s0 (InDx .q raSlot s0 v)) :
    Computes ((if c then emitSaveRa else []) ++ code ++ emitMvRdRdx d ++ (if x86Reg d.rd ≠ 2 then emitRestoreRa else [])) s
      d.rd v := by
  have hgives : Gives ((some v).map (BitVec.signExtend 64)) (fun v => Sets d.rd v s)
      (exec ((if c then emitSaveRa else []) ++ code ++ emitMvRdRdx d ++ (if x86Reg d.rd ≠ 2 then emitRestoreRa else []))
        none s) := by
    by_cases hsave : c
    · have hs0 : ∀ r, guest (s.putQ (s.q dx) raSlot) r = guest s r := guest_putQ_raSlot _
      have hslot : (s.putQ (s.q dx) raSlot).q raSlot = s.q dx := by rw [State.q_putQ _ raSlot_loc, if_pos rfl]
      have hexec : exec (if c then emitSaveRa else []) none s = .done (s.putQ (s.q dx) raSlot) := by
        rw [if_pos hsave]
        rfl
      exact gives_saved .q (by decide) loc_ne_raSlot hexec hs0 (fun _ => hslot) (h _ hs0 fun _ => hslot).gives
    · have hexec : exec (if c then emitSaveRa else []) none s = .done s := by rw [if_neg hsave, exec_nil]
      exact gives_saved .q (by decide) loc_ne_raSlot hexec (fun r => rfl) (fun hrd => absurd (hc hrd) hsave)
        (h s (fun r => rfl) fun hc => absurd hc hsave).gives
  rw [hgives.computes_iff, Option.map_some, BitVec.signExtend_eq]

/-- The instructions other than `mulhsu`. -/
theorem computes_mulHigh (hrd : d.rd ≠ 0) (h0 : guest s 0 = 0#64) {mul : Operand Slot → Ins Slot Label}
    {high : BitVec 64 → BitVec 64 → BitVec 64} (hzero : ∀ x, high 0 x = 0 ∧ high x 0 = 0)
    (hmul : ∀ s : HostState, Ends (emitMulRs2 d mul) s (Product s (high (s.q ax) (guest s d.rs2)) (s.q ax * guest s d.rs2))) :
    Computes (emitMulHigh d mul) s d.rd (high (guest s d.rs1) (guest s d.rs2)) := by
  unfold emitMulHigh
  dsimp only
  rw [if_neg hrd]
  split
  · next h =>
    refine computes_zero.congr ?_
    rcases h with h | h
    · rw [guest_zero h0 h, (hzero _).1]
      rfl
    · rw [guest_zero h0 h, (hzero _).2]
      rfl
  · rw [List.append_assoc (if x86Reg d.rd ≠ 2 then emitSaveRa else [])]
    refine computes_saved_ra (c := x86Reg d.rd ≠ 2) (fun hra h2 => hra (x86Reg_eq_two.mp h2)) fun s0 hs0 _ => ?_
    unfold emitMvRaxRs1
    rw [List.singleton_append, ends_cons rfl rfl]
    refine (hmul _).mono fun s' hs' => ⟨?_, ?_, ?_⟩
    · show s'.q dx = _
      rw [hs'.hi, State.q_putQ _ (loc_reg _), if_pos rfl, q_loc, guest_putQ_ax, hs0, hs0]
    · rw [hs'.slot, State.q_putQ _ (loc_reg _), if_neg (by decide)]
    · intro r hr
      rw [hs'.guest r hr, guest_putQ_ax]

/-- One is added to `rcx` if the low half of the product is 0. -/
theorem ends_carry :
    Ends (emitMvRaxRs1 d ++ [.alu .imul .q ax (loc d.rs2), .test .q ax ax, .setcc .e rdx, .movzx rdx rdx, .lea .q rdx dx cx]) s
      (InDx .q raSlot s ((if guest s d.rs1 * guest s d.rs2 = 0 then 1 else 0) + s.q cx)) := by
  unfold emitMvRaxRs1
  rw [List.singleton_append, ends_cons rfl rfl, ends_cons rfl rfl, ends_cons rfl rfl]
  set s1 := ((s.putQ (s.q (loc d.rs1)) ax).putQ (AluOp.imul.eval ((s.putQ (s.q (loc d.rs1)) ax).q ax)
    ((s.putQ (s.q (loc d.rs1)) ax).q (loc d.rs2))) ax).clobberFlags with hs1
  have hlo : s1.q ax = guest s d.rs1 * guest s d.rs2 := by
    rw [hs1, State.q_clobberFlags, State.q_putQ _ (loc_reg _), if_pos rfl, State.q_putQ _ (loc_reg _), if_pos rfl, q_loc, q_loc,
      guest_putQ_ax]
    rfl
  have hkeep : ∀ o, o ≠ ax → s1.q o = s.q o := by
    intro o ho
    rw [hs1, State.q_clobberFlags, State.q_putQ _ (loc_reg _), if_neg ho, State.q_putQ _ (loc_reg _), if_neg ho]
  have hset : (.setcc .e rdx : Ins Slot Label).step (s1.setFlags (.test (s1.q ax) (s1.q ax))) =
      some ((s1.setFlags (.test (s1.q ax) (s1.q ax))).putByte (if s1.q ax = 0 then 1 else 0) rdx) := by
    simp [Ins.step]
  rw [ends_cons rfl hset, ends_cons rfl rfl, ends_cons rfl rfl, ends_nil, State.byte_putByte, hlo]
  set s2 := (s1.setFlags (.test (guest s d.rs1 * guest s d.rs2) (guest s d.rs1 * guest s d.rs2))).putByte
    (if guest s d.rs1 * guest s d.rs2 = 0 then 1 else 0) rdx with hs2
  have hkeep2 : ∀ o, o ≠ ax → o ≠ dx → s2.q o = s.q o := by
    intro o hax hdx
    rw [hs2, State.q_putByte_of_ne _ _ hdx, State.q_setFlags, hkeep o hax]
  refine ⟨?_, ?_, ?_⟩
  · show State.q _ dx = _
    rw [State.q_putQ _ (loc_reg _), if_pos rfl, State.q_putD_reg, State.q_putD_of_ne _ (by decide), hkeep2 _ (by decide) (by decide)]
    congr 1
    split <;> rfl
  · rw [State.q_putQ _ (loc_reg _), if_neg (by decide), State.q_putD_of_ne _ (by decide), hkeep2 _ (by decide) (by decide)]
  · intro r hr
    rw [guest_putQ_dx hr, guest, State.q_putD_of_ne _ (loc_ne_dx hr), hkeep2 _ (loc_ne_ax r) (loc_ne_dx hr)]
    rfl

/-- The inverted high half of the product of a magnitude goes to `rcx`, and `ra` is read again if an operand is there. -/
theorem ends_mulMagnitude (hslot : d.rs1 = rvIregRa ∨ d.rs2 = rvIregRa → s.q raSlot = guest s rvIregRa) :
    Ends ([.neg .q ax] ++ emitMulRs2 d .mul ++ [.alu .xor .q dx (.imm (-1)), .mov .q cx dx] ++
        (if x86Reg d.rs1 = 2 ∨ x86Reg d.rs2 = 2 then emitRestoreRa else [])) s fun s' =>
      s'.q cx = ~~~Emu.mulhu (-s.q ax) (guest s d.rs2) ∧ s'.q raSlot = s.q raSlot ∧
        guest s' d.rs1 = guest s d.rs1 ∧ guest s' d.rs2 = guest s d.rs2 ∧ ∀ r, r ≠ rvIregRa → guest s' r = guest s r := by
  have hneg : ∀ r, guest (s.putQ (-s.q ax) ax).clobberFlags r = guest s r := by
    intro r
    rw [guest_clobberFlags, guest_putQ_ax]
  have hmul : Ends ([.neg .q ax] ++ emitMulRs2 d .mul) s fun s' =>
      s'.q dx = Emu.mulhu (-s.q ax) (guest s d.rs2) ∧ s'.q raSlot = s.q raSlot ∧ ∀ r, r ≠ rvIregRa → guest s' r = guest s r := by
    rw [List.singleton_append, ends_cons rfl rfl]
    refine ends_mulRs2_unsigned.mono fun s1 hs1 => ⟨?_, ?_, ?_⟩
    · rw [hs1.hi, State.q_clobberFlags, State.q_putQ _ (loc_reg _), if_pos rfl, hneg]
    · rw [hs1.slot, State.q_clobberFlags, State.q_putQ _ (loc_reg _), if_neg (by decide)]
    · intro r hr
      rw [hs1.guest r hr, hneg]
  rw [List.append_assoc]
  refine hmul.append ?_
  rintro s1 ⟨hdx, hs1, hguest⟩
  rw [List.cons_append, List.singleton_append, ends_cons rfl rfl, ends_cons rfl rfl]
  set s2 := (s1.putQ (AluOp.xor.eval (s1.q dx) (s1.q (.imm (-1)))) dx).clobberFlags with hs2
  have hcx : s2.q dx = ~~~Emu.mulhu (-s.q ax) (guest s d.rs2) := by
    rw [hs2, State.q_clobberFlags, State.q_putQ _ (loc_reg _), if_pos rfl, hdx]
    exact BitVec.xor_allOnes
  have hslot2 : (s2.putQ (s2.q dx) cx).q raSlot = s.q raSlot := by
    rw [State.q_putQ _ (loc_reg _), if_neg (by decide), hs2, State.q_clobberFlags, State.q_putQ _ (loc_reg _),
      if_neg (by decide), hs1]
  have hguest2 : ∀ r, r ≠ rvIregRa → guest (s2.putQ (s2.q dx) cx) r = guest s r := by
    intro r hr
    rw [guest_putQ_cx, hs2, guest_clobberFlags, guest_putQ_dx hr, hguest r hr]
  split
  · next hra =>
    simp only [x86Reg_eq_two] at hra
    unfold emitRestoreRa
    rw [ends_cons rfl rfl, ends_nil, hslot2, hslot hra]
    have hguest3 : ∀ r, guest ((s2.putQ (s2.q dx) cx).putQ (guest s rvIregRa) dx) r = guest s r := by
      intro r
      by_cases hr : r = rvIregRa
      · rw [hr, guest, loc_ra, State.q_putQ _ (loc_reg _), if_pos rfl]
      · rw [guest_putQ_dx hr, hguest2 r hr]
    refine ⟨?_, ?_, hguest3 _, hguest3 _, fun r _ => hguest3 r⟩
    · rw [State.q_putQ _ (loc_reg _), if_neg (by decide), State.q_putQ _ (loc_reg _), if_pos rfl, hcx]
    · rw [State.q_putQ _ (loc_reg _), if_neg (by decide), hslot2, ← hslot hra]
  · next hra =>
    simp only [x86Reg_eq_two, not_or] at hra
    rw [ends_nil]
    refine ⟨?_, hslot2, hguest2 _ hra.1, hguest2 _ hra.2, hguest2⟩
    rw [State.q_putQ _ (loc_reg _), if_pos rfl, hcx]

/-- The high half of the product for a negative `rs1`. -/
theorem ends_mulNegative (hax : s.q ax = guest s d.rs1) (hneg : (guest s d.rs1).slt 0 = true)
    (hslot : d.rs1 = rvIregRa ∨ d.rs2 = rvIregRa → s.q raSlot = guest s rvIregRa) :
    Ends (emitMulNegative d) s (InDx .q raSlot s (Emu.mulhsu (guest s d.rs1) (guest s d.rs2))) := by
  unfold emitMulNegative
  dsimp only
  rw [List.append_assoc _ (emitMvRaxRs1 d)]
  refine (ends_mulMagnitude hslot).append ?_
  rintro s1 ⟨hcx, hs1, hrs1, hrs2, hguest⟩
  refine ends_carry.mono ?_
  rintro s2 ⟨hdx, hs2, hs2'⟩
  refine ⟨?_, hs2.trans hs1, fun r hr => (hs2' r hr).trans (hguest r hr)⟩
  rw [hdx, hcx, hax, hrs1, hrs2, Emu.mulhsu_of_neg hneg]

theorem bind_notMem_mulRs2 (l : Label) : .bind l ∉ emitMulRs2 d .mul := by
  unfold emitMulRs2
  dsimp only
  split <;> simp

theorem bind_notMem_mulNegative (l : Label) : .bind l ∉ emitMulNegative d := by
  have hmul := bind_notMem_mulRs2 (d := d) l
  unfold emitMulNegative emitMvRaxRs1 emitRestoreRa
  dsimp only
  split <;> simp [hmul]

/-- The branch on the sign of `rs1`. -/
theorem ends_mulSign (hslot : d.rs1 = rvIregRa ∨ d.rs2 = rvIregRa → s.q raSlot = guest s rvIregRa) :
    Ends (.mov .q ax (loc d.rs1) :: .test .q ax ax :: .jcc .ns .umul :: (emitMulNegative d ++
        .jmp .out :: .bind .umul :: (emitMulRs2 d .mul ++ [.bind .out]))) s
      (InDx .q raSlot s (Emu.mulhsu (guest s d.rs1) (guest s d.rs2))) := by
  rw [ends_cons rfl rfl, ends_cons rfl rfl]
  set s1 := (s.putQ (s.q (loc d.rs1)) ax).setFlags (.test ((s.putQ (s.q (loc d.rs1)) ax).q ax)
    ((s.putQ (s.q (loc d.rs1)) ax).q ax)) with hs1
  have hkeep : ∀ o, o ≠ ax → s1.q o = s.q o := by
    intro o ho
    rw [hs1, State.q_setFlags, State.q_putQ _ (loc_reg _), if_neg ho]
  have hguest : ∀ r, guest s1 r = guest s r := fun r => hkeep _ (loc_ne_ax r)
  have hax : s1.q ax = guest s d.rs1 := by rw [hs1, State.q_setFlags, State.q_putQ _ (loc_reg _), if_pos rfl, q_loc]
  have hmsb : (guest s d.rs1).slt 0 = (guest s d.rs1).msb := by
    rw [BitVec.slt_eq_decide, BitVec.msb_eq_toInt]
    rfl
  have hflags : s1.flags = some (.test (guest s d.rs1) (guest s d.rs1)) := by
    rw [hs1, State.flags_setFlags, State.q_putQ _ (loc_reg _), if_pos rfl, q_loc]
  have hdone : ∀ s', InDx .q raSlot s1 (Emu.mulhsu (guest s d.rs1) (guest s d.rs2)) s' →
      InDx .q raSlot s (Emu.mulhsu (guest s d.rs1) (guest s d.rs2)) s' :=
    fun s' hs' => hs'.congr (hkeep _ (by decide)) fun r _ => hguest r
  unfold Ends
  rw [exec_jcc _ _ _ hflags, holds_test_ns]
  cases hsign : (guest s d.rs1).msb with
  | false =>
    rw [if_pos (by simp), exec_skip_append _ _ _ (bind_notMem_mulNegative _), exec_skip _ _ _ (by simp), exec_bind_skip, if_pos rfl]
    show Ends (emitMulRs2 d .mul ++ [.bind .out]) s1 _
    refine ends_mulRs2_unsigned.append fun s2 hs2 => ⟨s2, rfl, hdone s2 ⟨?_, hs2.slot, hs2.guest⟩⟩
    show s2.q dx = _
    rw [hs2.hi, hax, hguest, Emu.mulhsu_of_nonneg (hmsb.trans hsign)]
  | true =>
    rw [if_neg (by simp)]
    show Ends (emitMulNegative d ++ .jmp .out :: .bind .umul :: (emitMulRs2 d .mul ++ [.bind .out])) s1 _
    have hnegative := ends_mulNegative (d := d) (s := s1) (by rw [hax, hguest]) (by rw [hguest, hmsb, hsign]) fun hra => by
      rw [hkeep _ (by decide), hslot hra, hguest]
    rw [hguest, hguest] at hnegative
    refine hnegative.append fun s2 hs2 => ⟨s2, ?_, hdone s2 hs2⟩
    rw [exec_jmp, exec_bind_skip, if_neg (by decide), exec_skip_out (bind_notMem_mulRs2 _)]

end Products

section Specs
variable {d : JitDecode} {s : HostState} (hrd : d.rd ≠ 0) (h0 : guest s 0 = 0#64)

include hrd h0

theorem computes_mulh : Computes (emitMulh d) s d.rd (Emu.mulh (guest s d.rs1) (guest s d.rs2)) := by
  refine computes_mulHigh hrd h0 ?_ fun s => ends_mulRs2_signed
  intro x
  simp [Emu.mulh_eq (n := 64) rfl (by decide)]

theorem computes_mulhu : Computes (emitMulhu d) s d.rd (Emu.mulhu (guest s d.rs1) (guest s d.rs2)) := by
  refine computes_mulHigh hrd h0 ?_ fun s => ends_mulRs2_unsigned
  intro x
  simp [Emu.mulhu_eq (n := 64) rfl (by decide)]

theorem computes_mulhsu : Computes (emitMulhsu d) s d.rd (Emu.mulhsu (guest s d.rs1) (guest s d.rs2)) := by
  unfold emitMulhsu
  dsimp only
  rw [if_neg hrd]
  split
  · next h =>
    refine computes_zero.congr ?_
    rcases h with h | h
    · rw [guest_zero h0 h]
      simp [Emu.mulhsu_eq (n := 64) rfl (by decide)]
    · rw [guest_zero h0 h]
      simp [Emu.mulhsu_eq (n := 64) rfl (by decide)]
  · have hshape : ∀ save restore : Code, save ++ emitMvRaxRs1 d ++ [.test .q ax ax, .jcc .ns .umul] ++ emitMulNegative d ++
        [.jmp .out, .bind .umul] ++ emitMulRs2 d .mul ++ [.bind .out] ++ emitMvRdRdx d ++ restore =
        save ++ (.mov .q ax (loc d.rs1) :: .test .q ax ax :: .jcc .ns .umul :: (emitMulNegative d ++
          .jmp .out :: .bind .umul :: (emitMulRs2 d .mul ++ [.bind .out]))) ++ emitMvRdRdx d ++ restore := by
      intro save restore
      simp [emitMvRaxRs1]
    rw [hshape]
    refine computes_saved_ra (c := x86Reg d.rd ≠ 2 ∨ x86Reg d.rs1 = 2 ∨ x86Reg d.rs2 = 2)
      (fun hra => .inl fun h2 => hra (x86Reg_eq_two.mp h2)) fun s0 hs0 hslot => ?_
    rw [← hs0 d.rs1, ← hs0 d.rs2]
    refine ends_mulSign fun hra => ?_
    rw [hslot (.inr (by simpa only [x86Reg_eq_two] using hra)), hs0]

end Specs

end Rv8.Jit
