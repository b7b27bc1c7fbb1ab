import Rv8.Jit.Alu
/-!
# Code for division

The emitters of `jit-emitter-rv64.h` for division. `rdx` is also where the guest register
`ra` is kept: it is saved in `rcx` if the result does not go there, but a divisor or a
dividend in `ra` is read after `rdx` was written.

An emitter for doublewords has the text of the one for quadwords, with `eax` for `rax`,
`cdq` for `cqo` and the result sign-extended; only the test of a divisor in a register
is of 64 bits in both.
-/

namespace Rv8.Jit

open Rv8.Asm Rv8.Lib.X86

/-! ## Emitters -/

section Division
variable (sz : Size) (d : JitDecode)

def emitMvMinAx : Size → Code
  | .d => [.mov .d ax (.imm (BitVec.intMin 32))]
  | .q => [.movabs rax (BitVec.intMin 64)]

def cdqo : Size → Ins Slot Label
  | .d => .cdq
  | .q => .cqo

/-- A divisor in a register is tested as a quadword. -/
def emitTestRs2 : Code :=
  let rs2x := x86Reg d.rs2
  if 0 < rs2x then [.test .q (gp rs2x) (gp rs2x)] else [.cmp sz (rbpReg d.rs2) (.imm 0)]

def emitSaveRdx : Code := if x86Reg d.rd ≠ 2 then [.mov .q cx dx] else []

def emitRestoreRdx : Code := if x86Reg d.rd ≠ 2 then [.mov .q dx cx] else []

/-- `rdx` is filled before `rs2` is read. -/
def emitDivide (signed : Bool) : Code :=
  if signed then [cdqo sz, .idiv sz (loc d.rs2)] else [.alu .xor sz dx dx, .div sz (loc d.rs2)]

/-- A quotient in `rax` goes to `rd`. -/
def emitMvRdRax : Size → Code
  | .q => [.mov .q (loc d.rd) ax]
  | .d =>
    let rdx := x86Reg d.rd
    if 0 < rdx then [.movsxd (gpr rdx) ax] else [.movsxd rax ax, .mov .q (rbpReg d.rd) ax]

/-- A result in `rdx` goes to `rd`. -/
def emitMvRdRdx : Code :=
  let rdx := x86Reg d.rd
  if 0 < rdx then if rdx ≠ 2 then [.mov .q (gp rdx) dx] else [] else [.mov .q (rbpReg d.rd) dx]

/-- A remainder in `rdx` goes to `rd`. -/
def emitMvRdRemainder : Size → Code
  | .q => emitMvRdRdx d
  | .d => if 0 < x86Reg d.rd then [.movsxd (gpr (x86Reg d.rd)) dx] else [.movsxd rdx dx, .mov .q (rbpReg d.rd) dx]

/-- `i` for a divisor of 0, else `code`. -/
def emitUnlessZero (div : Label) (i : Ins Slot Label) (code : Code) : Code :=
  emitTestRs2 sz d ++ [.jcc .ne div, i, .jmp .out, .bind div] ++ code ++ [.bind .out]

def emitQuotient (signed : Bool) (div : Label) : Code :=
  emitUnlessZero sz d div (.mov sz ax (.imm (-1)))
    ([.mov sz ax (loc d.rs1)] ++ emitSaveRdx d ++ emitDivide sz d signed ++ emitRestoreRdx d)

def emitRemainder (signed : Bool) (div : Label) : Code :=
  .mov sz ax (loc d.rs1) :: emitUnlessZero sz d div (.mov sz dx ax) (emitDivide sz d signed)

/-- `code` unless the least number is divided by -1; `pre` is executed for the least number. -/
def emitUnlessMin (pre code : Code) : Code :=
  emitMvMinAx sz ++ [.cmp sz (loc d.rs1) ax, .jcc .ne .div1] ++ pre ++
    [.cmp sz (loc d.rs2) (.imm (-1)), .jcc .e .out, .bind .div1] ++ code

/-- The cases of `x0` that all eight emitters begin with: also a remainder by `x0` is -1. -/
def emitGuarded (code : Code) : Code :=
  if d.rd = 0 then []
  else if d.rs2 = 0 then [.mov .q (loc d.rd) (.imm (-1))]
  else if d.rs1 = 0 then emitZeroRd d
  else code

/-- `emit_div` and `emit_divw` -/
def emitSdiv : Code := emitGuarded d (emitUnlessMin sz d [] (emitQuotient sz d true .div2) ++ emitMvRdRax d sz)

/-- `emit_rem` and `emit_remw`: `edx` is cleared before `rs2` is compared. -/
def emitSrem : Code :=
  emitGuarded d
    (emitSaveRdx d ++ emitUnlessMin sz d [.alu .xor .d dx dx] (emitRemainder sz d true .div2) ++
      emitMvRdRemainder d sz ++ emitRestoreRdx d)

/-- `emit_divu` and `emit_divuw` -/
def emitUdiv : Code := emitGuarded d (emitQuotient sz d false .div1 ++ emitMvRdRax d sz)

/-- `emit_remu` and `emit_remuw` -/
def emitUrem : Code :=
  emitGuarded d (emitSaveRdx d ++ emitRemainder sz d false .div1 ++ emitMvRdRemainder d sz ++ emitRestoreRdx d)

end Division

section Names
variable (d : JitDecode)

def emitDiv : Code := emitSdiv .q d

def emitRem : Code := emitSrem .q d

def emitDivu : Code := emitUdiv .q d

def emitRemu : Code := emitUrem .q d

def emitDivw : Code := emitSdiv .d d

def emitRemw : Code := emitSrem .d d

def emitDivuw : Code := emitUdiv .d d

def emitRemuw : Code := emitUrem .d d

end Names

/-! ## Code that may fault -/

/-- An execution ends in a fault for `none`, else in a state of which `P` holds. -/
def Gives {β : Type} (o : Option β) (P : β → HostState → Prop) : Outcome Slot Label → Prop
  | .done s => ∃ v, o = some v ∧ P v s
  | .left _ _ => False
  | .fault => o = none

section Gives
variable {β γ : Type} {o : Option β} {P : β → HostState → Prop} {code code' : Code} {s : HostState}

theorem Gives.append {Q : β → HostState → Prop} (h : Gives o P (exec code none s))
    (h' : ∀ v s', P v s' → Ends code' s' (Q v)) : Gives o Q (exec (code ++ code') none s) := by
  rw [exec_append]
  cases he : exec code none s with
  | done s1 =>
    rw [he] at h
    obtain ⟨v, hv, hp⟩ := h
    obtain ⟨s2, he2, hq⟩ := h' v s1 hp
    dsimp only
    rw [he2]
    exact ⟨v, hv, hq⟩
  | left l s1 =>
    rw [he] at h
    exact h.elim
  | fault =>
    rw [he] at h
    exact h

theorem Gives.mono {Q : β → HostState → Prop} {r : Outcome Slot Label} (h : Gives o P r) (h' : ∀ v s', P v s' → Q v s') :
    Gives o Q r := by
  cases r with
  | done s1 =>
    obtain ⟨v, hv, hp⟩ := h
    exact ⟨v, hv, h' v s1 hp⟩
  | left l s1 => exact h
  | fault => exact h

/-- What the code leaves is a function of the result. -/
theorem Gives.map {r : Outcome Slot Label} {Q : γ → HostState → Prop} {f : β → γ} (h : Gives o P r)
    (h' : ∀ v s', P v s' → Q (f v) s') : Gives (o.map f) Q r := by
  cases r with
  | done s1 =>
    obtain ⟨v, hv, hp⟩ := h
    exact ⟨f v, by rw [hv]; rfl, h' v s1 hp⟩
  | left l s1 => exact h
  | fault =>
    have hnone : o = none := h
    show o.map f = none
    rw [hnone, Option.map_none]

theorem Ends.gives {v : β} (h : Ends code s (P v)) : Gives (some v) P (exec code none s) := by
  obtain ⟨s', he, hp⟩ := h
  rw [he]
  exact ⟨v, rfl, hp⟩

/-- A register has one value. -/
theorem Gives.computes_iff {rd : Nat} {o : Option (BitVec 64)} {w : BitVec 64}
    (h : Gives o (fun v => Sets rd v s) (exec code none s)) : Computes code s rd w ↔ o = some w := by
  constructor
  · rintro ⟨s', he, hs'⟩
    rw [he] at h
    obtain ⟨v, hv, hsets⟩ := h
    rw [hv, ← hsets.guest_rd, ← hs'.guest_rd]
  · intro ho
    subst ho
    cases he : exec code none s with
    | done s1 =>
      rw [he] at h
      obtain ⟨v, hv, hsets⟩ := h
      cases hv
      exact ⟨s1, he, hsets⟩
    | left l s1 =>
      rw [he] at h
      exact h.elim
    | fault =>
      rw [he] at h
      cases h

end Gives

/-! ## Registers by size -/

/-- The part of a guest register that an instruction of a size reads. -/
def guestN (sz : Size) (s : HostState) (r : Nat) : BitVec sz.width := (guest s r).setWidth sz.width

section Sized
variable {sz : Size} {s s' : HostState} {r : Nat}

@[simp] theorem get_loc : s.get sz (loc r) = guestN sz s r := by
  cases sz with
  | d => exact d_loc s r
  | q => exact (BitVec.setWidth_eq _).symm

theorem guestN_congr (h : guest s' r = guest s r) : guestN sz s' r = guestN sz s r := by
  unfold guestN
  rw [h]

theorem x86Reg_eq_two : x86Reg r = 2 ↔ r = rvIregRa := by
  constructor
  · intro h
    have hpos : 0 < x86Reg r := by omega
    have hrv := rvReg_x86Reg hpos
    rw [h] at hrv
    exact hrv.symm
  · intro h
    rw [h]
    rfl

theorem loc_ne_dx (h : r ≠ rvIregRa) : loc r ≠ dx := by
  rw [← loc_ra]
  exact fun heq => h (loc_eq_iff.mp heq)

@[simp] theorem guest_put_ax (v : BitVec sz.width) : guest (s.put sz v ax) r = guest s r :=
  State.q_put_of_ne (loc_ne_ax r) (loc_reg _) v

theorem guest_put_dx (h : r ≠ rvIregRa) (v : BitVec sz.width) : guest (s.put sz v dx) r = guest s r :=
  State.q_put_of_ne (loc_ne_dx h) (loc_reg _) v

theorem step_cdqo : (cdqo sz).step s = some (s.put sz ((s.get sz ax).sshiftRight (sz.width - 1)) dx) := by
  cases sz <;> rfl

end Sized

/-! ## The division -/

section Divide
variable {sz : Size} {d : JitDecode} {s : HostState} (signed : Bool)

/-- What `rdx` is filled with. -/
def highHalf {n : Nat} (x : BitVec n) : BitVec n := if signed then x.sshiftRight (n - 1) else 0

def divideWide {n : Nat} (hi x y : BitVec n) : Option (BitVec n × BitVec n) :=
  if signed then sdivWide hi x y else udivWide hi x y

/-- The division of `x` by `rs2`, which is no longer there if it was `ra`. -/
def divideRs2 {n : Nat} (d : JitDecode) (x y : BitVec n) : Option (BitVec n × BitVec n) :=
  divideWide signed (highHalf signed x) x (if d.rs2 = rvIregRa then highHalf signed x else y)

/-- A division leaves the quotient in `rax` and the remainder in `rdx`. -/
structure Divided (sz : Size) (s : HostState) (p : BitVec sz.width × BitVec sz.width) (s' : HostState) : Prop where
  quot : s'.get sz ax = p.1
  rem : s'.get sz dx = p.2
  cx : s'.q cx = s.q cx
  guest : ∀ r, r ≠ rvIregRa → guest s' r = guest s r

theorem divided_put (p : BitVec sz.width × BitVec sz.width) {s0 : HostState} (hcx : s0.q cx = s.q cx)
    (hs0 : ∀ r, r ≠ rvIregRa → guest s0 r = guest s r) :
    Divided sz s p ((s0.put sz p.2 dx).put sz p.1 ax).clobberFlags where
  quot := by rw [State.get_clobberFlags, State.get_put (loc_reg _)]
  rem := by
    rw [State.get_clobberFlags, State.get_put_of_ne (by decide) (loc_reg _) (loc_reg _), State.get_put (loc_reg _)]
  cx := by
    rw [State.q_clobberFlags, State.q_put_of_ne (by decide) (loc_reg _), State.q_put_of_ne (by decide) (loc_reg _), hcx]
  guest := by
    intro r hr
    rw [guest_clobberFlags, guest_put_ax, guest_put_dx hr, hs0 r hr]

/-- `rdx` was filled. -/
theorem get_rs2_filled (v : BitVec sz.width) :
    (s.put sz v dx).get sz (loc d.rs2) = if d.rs2 = rvIregRa then v else guestN sz s d.rs2 := by
  split
  · next h => rw [h, loc_ra, State.get_put (loc_reg _)]
  · next h => rw [State.get_put_of_ne (loc_ne_dx h) (loc_reg _) (loc_loc _), get_loc]

variable (sz d s) in
theorem gives_divide :
    Gives (divideRs2 signed d (s.get sz ax) (guestN sz s d.rs2)) (Divided sz s) (exec (emitDivide sz d signed) none s) := by
  have hfill : ∀ v, (s.put sz v dx).q cx = s.q cx := fun v => State.q_put_of_ne (by decide) (loc_reg _) v
  unfold emitDivide divideRs2 divideWide highHalf
  cases signed with
  | true =>
    simp only [if_true]
    rw [exec_straight _ _ (by cases sz <;> rfl), step_cdqo, Option.elim_some, exec_straight _ _ rfl, step_idiv,
      State.get_put (loc_reg _), State.get_put_of_ne (by decide) (loc_reg _) (loc_reg _), get_rs2_filled]
    cases sdivWide ((s.get sz ax).sshiftRight (sz.width - 1)) (s.get sz ax) _ with
    | none => exact rfl
    | some p => exact ⟨p, rfl, divided_put p (hfill _) fun r hr => guest_put_dx hr _⟩
  | false =>
    simp only [Bool.false_eq_true, if_false]
    rw [exec_straight _ _ rfl, step_xor, Option.elim_some, exec_straight _ _ rfl, step_div]
    simp only [State.get_clobberFlags]
    rw [State.get_put (loc_reg _), State.get_put_of_ne (by decide) (loc_reg _) (loc_reg _), get_rs2_filled]
    cases udivWide 0 (s.get sz ax) _ with
    | none => exact rfl
    | some p =>
      refine ⟨p, rfl, divided_put p (hfill _) fun r hr => ?_⟩
      rw [guest_clobberFlags, guest_put_dx hr]

end Divide

/-! ## The tests -/

section Tests
variable {sz : Size} {d : JitDecode} {s : HostState}

/-- What `emitTestRs2` takes for 0. -/
def ZeroRs2 (sz : Size) (d : JitDecode) (s : HostState) : Prop :=
  if 0 < x86Reg d.rs2 then guest s d.rs2 = 0 else guestN sz s d.rs2 = 0

instance : Decidable (ZeroRs2 sz d s) := inferInstanceAs (Decidable (ite ..))

theorem zeroRs2_congr {s' : HostState} (h : guest s' d.rs2 = guest s d.rs2) : ZeroRs2 sz d s' ↔ ZeroRs2 sz d s := by
  unfold ZeroRs2
  rw [h, guestN_congr h]

variable (sz d s) in
theorem exec_testRs2 (l : Label) (code : Code) :
    ∃ f, exec (emitTestRs2 sz d ++ .jcc .ne l :: code) none s =
      exec code (if ZeroRs2 sz d s then none else some l) (s.setFlags f) := by
  unfold emitTestRs2 ZeroRs2
  dsimp only
  split
  · next h =>
    refine ⟨.test (guest s d.rs2) (guest s d.rs2), ?_⟩
    rw [← loc_of_pos h, List.singleton_append, exec_straight _ _ rfl]
    show exec (.jcc .ne l :: code) none (s.setFlags (.test (guest s d.rs2) (guest s d.rs2))) = _
    rw [exec_jcc _ _ _ rfl, holds_test_ne]
    by_cases h0 : guest s d.rs2 = 0 <;> simp [h0]
  · next h =>
    refine ⟨.cmp (guestN sz s d.rs2) (s.get sz (.imm 0)), ?_⟩
    have himm : s.get sz (.imm 0 : Operand Slot) = 0 := by cases sz <;> rfl
    rw [← loc_of_not_pos h, List.singleton_append, exec_straight _ _ rfl, step_cmp, Option.elim_some,
      exec_jcc _ _ _ rfl, get_loc, holds_cmp_ne, himm]
    by_cases h0 : guestN sz s d.rs2 = 0 <;> simp [h0]

/-- Code is skipped to its end. -/
theorem exec_skip_out {code : Code} (h : .bind .out ∉ code) : exec (code ++ [.bind .out]) (some .out) s = .done s := by
  rw [exec_skip_append _ _ _ h, exec_bind_skip, if_pos rfl, exec_nil]

theorem Gives.bind_out {β : Type} {o : Option β} {P : β → HostState → Prop} {code : Code} (h : Gives o P (exec code none s)) :
    Gives o P (exec (code ++ [.bind .out]) none s) := by
  refine h.append fun v s' hp => ?_
  exact ⟨s', rfl, hp⟩

theorem gives_unlessZero {β : Type} {o : Option β} {P : β → HostState → Prop} {div : Label} {i : Ins Slot Label} {code : Code}
    {v : β} (hdiv : div ≠ .out) (hi : i.straight = true) (hcode : .bind .out ∉ code)
    (hzero : ∀ f, Ends [i] (s.setFlags f) (P v)) (hne : ∀ f, Gives o P (exec code none (s.setFlags f))) :
    Gives (if ZeroRs2 sz d s then some v else o) P (exec (emitUnlessZero sz d div i code) none s) := by
  have hbind : ∀ l, i ≠ .bind l := by
    rintro l rfl
    cases hi
  have hshape : emitUnlessZero sz d div i code =
      emitTestRs2 sz d ++ .jcc .ne div :: i :: .jmp .out :: .bind div :: (code ++ [.bind .out]) := by
    simp [emitUnlessZero]
  obtain ⟨f, hf⟩ := exec_testRs2 sz d s div (i :: .jmp .out :: .bind div :: (code ++ [.bind .out]))
  rw [hshape, hf]
  split
  · obtain ⟨s', he, hp⟩ := hzero f
    have hstep : exec (i :: .jmp .out :: .bind div :: (code ++ [.bind .out])) none (s.setFlags f) = .done s' := by
      rw [← List.singleton_append, exec_append_of_done _ _ _ he, exec_jmp, exec_bind_skip, if_neg hdiv, exec_skip_out hcode]
    rw [hstep]
    exact ⟨v, rfl, hp⟩
  · rw [exec_skip _ _ _ hbind, exec_skip _ _ _ (by simp), exec_bind_skip, if_pos rfl]
    exact (hne f).bind_out

/-- After the comparison with the least number. -/
def minState (sz : Size) (d : JitDecode) (s : HostState) : HostState :=
  (s.put sz (BitVec.intMin sz.width) ax).setFlags (.cmp (guestN sz s d.rs1) (BitVec.intMin sz.width))

theorem exec_cmpMin (code : Code) :
    exec (emitMvMinAx sz ++ .cmp sz (loc d.rs1) ax :: .jcc .ne .div1 :: code) none s =
      exec code (if guestN sz s d.rs1 = BitVec.intMin sz.width then none else some .div1) (minState sz d s) := by
  have hmov : exec (emitMvMinAx sz) none s = .done (s.put sz (BitVec.intMin sz.width) ax) := by cases sz <;> rfl
  rw [exec_append_of_done _ _ _ hmov, exec_straight _ _ rfl, step_cmp, Option.elim_some, get_loc,
    State.get_put (loc_reg _), guestN_congr (guest_put_ax _), exec_jcc _ _ _ rfl, holds_cmp_ne]
  by_cases h : guestN sz s d.rs1 = BitVec.intMin sz.width <;> simp [h, minState]

section UnlessMin
variable {pre code : Code} (hpre : .bind .div1 ∉ pre)

include hpre

theorem exec_unlessMin_ne (h : guestN sz s d.rs1 ≠ BitVec.intMin sz.width) :
    exec (emitUnlessMin sz d pre code) none s = exec code none (minState sz d s) := by
  have hshape : emitUnlessMin sz d pre code = emitMvMinAx sz ++ .cmp sz (loc d.rs1) ax :: .jcc .ne .div1 ::
      (pre ++ .cmp sz (loc d.rs2) (.imm (-1)) :: .jcc .e .out :: .bind .div1 :: code) := by
    simp [emitUnlessMin]
  rw [hshape, exec_cmpMin, if_neg h, exec_skip_append _ _ _ hpre, exec_skip _ _ _ (by simp), exec_skip _ _ _ (by simp),
    exec_bind_skip, if_pos rfl]

omit hpre in
theorem exec_unlessMin_eq (h : guestN sz s d.rs1 = BitVec.intMin sz.width) {s2 : HostState}
    (hs2 : exec pre none (minState sz d s) = .done s2) :
    exec (emitUnlessMin sz d pre code) none s =
      exec code (if guestN sz s2 d.rs2 = -1 then some .out else none) (s2.setFlags (.cmp (guestN sz s2 d.rs2) (-1))) := by
  have hshape : emitUnlessMin sz d pre code = emitMvMinAx sz ++ .cmp sz (loc d.rs1) ax :: .jcc .ne .div1 ::
      (pre ++ .cmp sz (loc d.rs2) (.imm (-1)) :: .jcc .e .out :: .bind .div1 :: code) := by
    simp [emitUnlessMin]
  have himm : s2.get sz (.imm (-1) : Operand Slot) = -1 := by cases sz <;> rfl
  rw [hshape, exec_cmpMin, if_pos h, exec_append_of_done _ _ _ hs2, exec_straight _ _ rfl, step_cmp, Option.elim_some,
    get_loc, himm, exec_jcc _ _ _ rfl, holds_cmp_e]
  by_cases h1 : guestN sz s2 d.rs2 = -1
  · rw [if_pos (decide_eq_true h1), if_pos h1, exec_bind_skip, if_neg (by decide)]
  · rw [if_neg (by simpa using h1), if_neg h1, exec_bind]

end UnlessMin

end Tests

/-! ## Quotients -/

section Quotients
variable {sz : Size} {d : JitDecode} {s : HostState} (signed : Bool)

/-- `rax` has a result and all guest registers but `rd` are as before. -/
def InAx (sz : Size) (d : JitDecode) (s : HostState) (v : BitVec sz.width) (s' : HostState) : Prop :=
  s'.get sz ax = v ∧ ∀ r, r ≠ d.rd → guest s' r = guest s r

variable (sz d s) in
/-- `rdx` is saved around the division, unless it is for the result. -/
theorem gives_divideRs1 :
    Gives ((divideRs2 signed d (guestN sz s d.rs1) (guestN sz s d.rs2)).map Prod.fst) (InAx sz d s)
      (exec ([.mov sz ax (loc d.rs1)] ++ emitSaveRdx d ++ emitDivide sz d signed ++ emitRestoreRdx d) none s) := by
  unfold emitSaveRdx emitRestoreRdx
  by_cases hra : x86Reg d.rd = 2
  · rw [if_neg (not_not.mpr hra), if_neg (not_not.mpr hra), List.append_nil, List.append_nil, List.singleton_append,
      exec_straight _ _ rfl, step_mov, Option.elim_some, get_loc]
    have hdiv := gives_divide sz d (s.put sz (guestN sz s d.rs1) ax) signed
    rw [State.get_put (loc_reg _), guestN_congr (guest_put_ax _)] at hdiv
    refine hdiv.map fun p s' hs' => ⟨hs'.quot, fun r hr => ?_⟩
    rw [x86Reg_eq_two.mp hra] at hr
    rw [hs'.guest r hr, guest_put_ax]
  · rw [if_pos hra, if_pos hra, List.append_assoc, List.append_assoc, List.singleton_append, List.singleton_append,
      exec_straight _ _ rfl, step_mov, Option.elim_some, get_loc, exec_straight _ _ rfl]
    set s1 := s.put sz (guestN sz s d.rs1) ax with hs1
    show Gives _ _ (exec (emitDivide sz d signed ++ [.mov .q dx cx]) none (s1.putQ (s1.q dx) cx))
    have hdiv := gives_divide sz d (s1.putQ (s1.q dx) cx) signed
    have hguest : ∀ r, guest (s1.putQ (s1.q dx) cx) r = guest s r := by
      intro r
      rw [guest_putQ_cx, hs1, guest_put_ax]
    have hax : (s1.putQ (s1.q dx) cx).get sz ax = guestN sz s d.rs1 := by
      rw [State.get_congr (s := s1) _ (loc_reg _), hs1, State.get_put (loc_reg _)]
      rw [State.q_putQ _ (loc_reg _), if_neg (by decide)]
    rw [hax, guestN_congr (hguest d.rs2)] at hdiv
    have hrestore := hdiv.map (f := Prod.fst) (Q := fun v s' => s'.get sz ax = v ∧ s'.q cx = s1.q dx ∧
        ∀ r, r ≠ rvIregRa → guest s' r = guest s r) fun p s' hs' => ⟨hs'.quot, ?_, fun r hr => ?_⟩
    · refine hrestore.append ?_
      rintro v s' ⟨hquot, hcx, hs'⟩
      rw [ends_cons rfl rfl, ends_nil]
      refine ⟨?_, fun r hr => ?_⟩
      · rw [State.get_congr (s := s') _ (loc_reg _), hquot]
        rw [State.q_putQ _ (loc_reg _), if_neg (by decide)]
      · by_cases hr1 : r = rvIregRa
        · unfold guest
          rw [State.q_putQ _ (loc_reg _), hr1, if_pos loc_ra, hcx, hs1, loc_ra, State.q_put_of_ne (by decide) (loc_reg _)]
        · rw [← hs' r hr1]
          unfold guest
          rw [State.q_putQ _ (loc_reg _), if_neg (loc_ne_dx hr1)]
    · rw [hs'.cx, State.q_putQ _ (loc_reg _), if_pos rfl]
    · rw [hs'.guest r hr, hguest]

variable (sz d) in
theorem bind_notMem_divide (l : Label) : .bind l ∉ emitDivide sz d signed := by
  unfold emitDivide cdqo
  cases signed <;> cases sz <;> simp

variable (sz d) in
theorem bind_notMem_saved (l : Label) :
    .bind l ∉ [.mov sz ax (loc d.rs1)] ++ emitSaveRdx d ++ emitDivide sz d signed ++ emitRestoreRdx d := by
  have hdiv := bind_notMem_divide sz d signed l
  unfold emitSaveRdx emitRestoreRdx
  by_cases h : x86Reg d.rd = 2 <;> simp [h, hdiv]

def quotientOf (sz : Size) (d : JitDecode) (s : HostState) : Option (BitVec sz.width) :=
  if ZeroRs2 sz d s then some (-1) else (divideRs2 signed d (guestN sz s d.rs1) (guestN sz s d.rs2)).map Prod.fst

theorem quotientOf_congr {s' : HostState} (h : ∀ r, guest s' r = guest s r) : quotientOf signed sz d s' = quotientOf signed sz d s := by
  unfold quotientOf
  rw [guestN_congr (h _), guestN_congr (h _)]
  simp only [zeroRs2_congr (h _)]

theorem InAx.congr {s0 s' : HostState} {v : BitVec sz.width} (h : InAx sz d s0 v s') (hs0 : ∀ r, guest s0 r = guest s r) :
    InAx sz d s v s' :=
  ⟨h.1, fun r hr => (h.2 r hr).trans (hs0 r)⟩

variable (sz d s) in
theorem gives_quotient {div : Label} (hdiv : div ≠ .out) :
    Gives (quotientOf signed sz d s) (InAx sz d s) (exec (emitQuotient sz d signed div) none s) := by
  refine gives_unlessZero hdiv rfl (bind_notMem_saved sz d signed _) ?_ ?_
  · intro f
    rw [ends_cons rfl (step_mov _ _ _ _), ends_nil]
    refine ⟨?_, ?_⟩
    · rw [State.get_put (loc_reg _)]
      cases sz <;> rfl
    · intro r hr
      rw [guest_put_ax, guest_setFlags]
  · intro f
    have hdivide := gives_divideRs1 sz d (s.setFlags f) signed
    rw [guestN_congr (guest_setFlags s _ f), guestN_congr (guest_setFlags s _ f)] at hdivide
    exact hdivide.mono fun v s' hs' => hs'.congr fun r => guest_setFlags s r f

theorem skip_quotient {div : Label} (hdiv : div ≠ .out) : exec (emitQuotient sz d signed div) (some .out) s = .done s := by
  unfold emitQuotient emitUnlessZero
  refine exec_skip_out ?_
  have hsaved := bind_notMem_saved sz d signed .out
  unfold emitTestRs2
  rw [List.mem_append, not_or]
  refine ⟨?_, hsaved⟩
  dsimp only
  split <;> simp [Ne.symm hdiv]

/-- The result of `emitSdiv`. -/
def sdivOf (sz : Size) (d : JitDecode) (s : HostState) : Option (BitVec sz.width) :=
  if guestN sz s d.rs1 = BitVec.intMin sz.width ∧ guestN sz s d.rs2 = -1 then some (BitVec.intMin sz.width)
  else quotientOf true sz d s

theorem guest_minState (r : Nat) : guest (minState sz d s) r = guest s r := by
  unfold minState
  rw [guest_setFlags, guest_put_ax]

theorem gives_sdiv :
    Gives (sdivOf sz d s) (InAx sz d s) (exec (emitUnlessMin sz d [] (emitQuotient sz d true .div2)) none s) := by
  have htail : ∀ s', (∀ r, guest s' r = guest s r) →
      Gives (quotientOf true sz d s) (InAx sz d s) (exec (emitQuotient sz d true .div2) none s') := by
    intro s' hs'
    have hquot := gives_quotient sz d s' true (by decide : Label.div2 ≠ .out)
    rw [quotientOf_congr true hs'] at hquot
    exact hquot.mono fun v s'' hs'' => hs''.congr hs'
  unfold sdivOf
  by_cases hmin : guestN sz s d.rs1 = BitVec.intMin sz.width
  · rw [exec_unlessMin_eq hmin (exec_nil _), guestN_congr (guest_minState _)]
    by_cases h1 : guestN sz s d.rs2 = -1
    · rw [if_pos h1, if_pos ⟨hmin, h1⟩, skip_quotient true (by decide)]
      refine ⟨_, rfl, ?_, ?_⟩
      · rw [State.get_setFlags, minState, State.get_setFlags, State.get_put (loc_reg _)]
      · intro r hr
        rw [guest_setFlags, guest_minState]
    · rw [if_neg h1, if_neg fun h => h1 h.2]
      refine htail _ fun r => ?_
      rw [guest_setFlags, guest_minState]
  · rw [exec_unlessMin_ne List.not_mem_nil hmin, if_neg fun h => hmin h.1]
    exact htail _ guest_minState

/-- The quotient goes to `rd`, sign-extended. -/
theorem ends_mvRdRax {v : BitVec sz.width} {s' : HostState} (h : InAx sz d s v s') :
    Ends (emitMvRdRax d sz) s' (Sets d.rd (v.signExtend 64) s) := by
  have hsets : ∀ s'' : HostState, Sets d.rd (v.signExtend 64) s' s'' → Sets d.rd (v.signExtend 64) s s'' := by
    intro s'' hs'' r
    rw [hs'' r]
    split
    · rfl
    · next hr => exact h.2 r hr
  cases sz with
  | q =>
    have hv : s'.q ax = v := h.1
    unfold emitMvRdRax
    rw [ends_cons rfl rfl, ends_nil, hv]
    refine hsets _ ?_
    rw [BitVec.signExtend_eq]
    exact sets_putQ s' d.rd v
  | d =>
    have hv : s'.d ax = v := h.1
    unfold emitMvRdRax
    dsimp only
    split
    · next hpos =>
      rw [ends_cons rfl rfl, ends_nil, hv, reg_gpr hpos]
      exact hsets _ (sets_putQ s' d.rd _)
    · next hpos =>
      have hext : Ends [.movsxd rax ax, .mov .q (rbpReg d.rd) ax] s' (Sets d.rd (v.signExtend 64) s') :=
        ends_extend hpos (by rw [← hv, State.d_eq _ (loc_reg _)]) fun r => rfl
      exact hext.mono fun s'' hs'' => hsets s'' hs''

end Quotients

/-! ## Remainders -/

section Remainders
variable {sz : Size} {d : JitDecode} {s : HostState} (signed : Bool)

/-- `rdx` has a result and all other guest registers are as before, and so is the place `o`. -/
def InDx (sz : Size) (o : Operand Slot) (s : HostState) (v : BitVec sz.width) (s' : HostState) : Prop :=
  s'.get sz dx = v ∧ s'.q o = s.q o ∧ ∀ r, r ≠ rvIregRa → guest s' r = guest s r

theorem InDx.congr {o : Operand Slot} {s0 s' : HostState} {v : BitVec sz.width} (h : InDx sz o s0 v s') (ho : s0.q o = s.q o)
    (hs0 : ∀ r, r ≠ rvIregRa → guest s0 r = guest s r) : InDx sz o s v s' :=
  ⟨h.1, h.2.1.trans ho, fun r hr => (h.2.2 r hr).trans (hs0 r hr)⟩

def remainderOf (sz : Size) (d : JitDecode) (s : HostState) : Option (BitVec sz.width) :=
  if ZeroRs2 sz d s then some (guestN sz s d.rs1)
  else (divideRs2 signed d (guestN sz s d.rs1) (guestN sz s d.rs2)).map Prod.snd

theorem remainderOf_congr {s' : HostState} (h : ∀ r, guest s' r = guest s r) :
    remainderOf signed sz d s' = remainderOf signed sz d s := by
  unfold remainderOf
  rw [guestN_congr (h _), guestN_congr (h _)]
  simp only [zeroRs2_congr (h _)]

variable (sz d s) in
theorem gives_remainder {div : Label} (hdiv : div ≠ .out) :
    Gives (remainderOf signed sz d s) (InDx sz cx s) (exec (emitRemainder sz d signed div) none s) := by
  unfold emitRemainder
  rw [exec_straight _ _ rfl, step_mov, Option.elim_some, get_loc]
  set s1 := s.put sz (guestN sz s d.rs1) ax with hs1
  have hguest : ∀ r, guest s1 r = guest s r := fun r => guest_put_ax _
  have hax : s1.get sz ax = guestN sz s d.rs1 := State.get_put (loc_reg _) _
  have hcx : s1.q cx = s.q cx := State.q_put_of_ne (by decide) (loc_reg _) _
  rw [← remainderOf_congr signed hguest, remainderOf, guestN_congr (hguest d.rs1)]
  refine gives_unlessZero hdiv rfl (bind_notMem_divide sz d signed _) ?_ ?_
  · intro f
    rw [ends_cons rfl (step_mov _ _ _ _), ends_nil]
    refine ⟨?_, ?_, ?_⟩
    · rw [State.get_put (loc_reg _), State.get_setFlags, hax]
    · rw [State.q_put_of_ne (by decide) (loc_reg _), State.q_setFlags, hcx]
    · intro r hr
      rw [guest_put_dx hr, guest_setFlags, hguest]
  · intro f
    have hdivide := gives_divide sz d (s1.setFlags f) signed
    rw [State.get_setFlags, hax, guestN_congr (guest_setFlags s1 _ f)] at hdivide
    refine hdivide.map fun p s' hs' => ⟨hs'.rem, ?_, ?_⟩
    · rw [hs'.cx, State.q_setFlags, hcx]
    · intro r hr
      rw [hs'.guest r hr, guest_setFlags, hguest]

theorem skip_remainder {div : Label} (hdiv : div ≠ .out) : exec (emitRemainder sz d signed div) (some .out) s = .done s := by
  unfold emitRemainder emitUnlessZero
  rw [exec_skip _ _ _ (by simp)]
  refine exec_skip_out ?_
  unfold emitTestRs2
  rw [List.mem_append, not_or]
  refine ⟨?_, bind_notMem_divide sz d signed _⟩
  dsimp only
  split <;> simp [Ne.symm hdiv]

/-- `edx` is cleared, and with it `ra`. -/
def cleared (s : HostState) : HostState := s.putQ 0 dx

theorem guest_cleared (r : Nat) : guest (cleared s) r = if r = rvIregRa then 0 else guest s r := by
  unfold cleared guest
  have hdx : loc r = dx ↔ r = rvIregRa := by rw [← loc_ra, loc_eq_iff]
  rw [State.q_putQ _ (loc_reg _)]
  simp only [hdx]

/-- The result of `emitSrem`. -/
def sremOf (sz : Size) (d : JitDecode) (s : HostState) : Option (BitVec sz.width) :=
  if guestN sz s d.rs1 = BitVec.intMin sz.width then
    if guestN sz (cleared s) d.rs2 = -1 then some 0 else remainderOf true sz d (cleared s)
  else remainderOf true sz d s

theorem gives_srem :
    Gives (sremOf sz d s) (InDx sz cx s)
      (exec (emitUnlessMin sz d [.alu .xor .d dx dx] (emitRemainder sz d true .div2)) none s) := by
  have hcx : (minState sz d s).q cx = s.q cx := by
    rw [minState, State.q_setFlags, State.q_put_of_ne (by decide) (loc_reg _)]
  unfold sremOf
  by_cases hmin : guestN sz s d.rs1 = BitVec.intMin sz.width
  · set s2 := ((minState sz d s).putD 0 dx).clobberFlags with hs2
    have hpre : exec ([.alu .xor .d dx dx] : Code) none (minState sz d s) = .done s2 := by
      rw [exec_straight _ _ rfl, step_xor]
      rfl
    have hdx : s2.q dx = 0 := by
      rw [hs2, State.q_clobberFlags, State.q_putD_reg]
      rfl
    have hcx2 : s2.q cx = s.q cx := by rw [hs2, State.q_clobberFlags, State.q_putD_of_ne _ (by decide), hcx]
    have hguest : ∀ r, guest s2 r = guest (cleared s) r := by
      intro r
      rw [guest_cleared]
      split
      · next hr => rw [hr, guest, loc_ra, hdx]
      · next hr =>
        rw [hs2, guest_clobberFlags, guest, State.q_putD_of_ne _ (loc_ne_dx hr)]
        exact guest_minState r
    have hkeep : ∀ r, r ≠ rvIregRa → guest s2 r = guest s r := by
      intro r hr
      rw [hguest, guest_cleared, if_neg hr]
    rw [exec_unlessMin_eq hmin hpre, if_pos hmin, guestN_congr (hguest d.rs2)]
    by_cases h1 : guestN sz (cleared s) d.rs2 = -1
    · rw [if_pos h1, if_pos h1, skip_remainder true (by decide)]
      refine ⟨_, rfl, ?_, ?_, ?_⟩
      · rw [State.get_setFlags]
        cases sz with
        | d =>
          show s2.d dx = 0
          rw [State.d_eq _ (loc_reg _), hdx]
          rfl
        | q => exact hdx
      · rw [State.q_setFlags, hcx2]
      · intro r hr
        rw [guest_setFlags, hkeep r hr]
    · rw [if_neg h1, if_neg h1]
      have hrem := gives_remainder sz d (s2.setFlags (.cmp (guestN sz (cleared s) d.rs2) (-1))) true
        (by decide : Label.div2 ≠ .out)
      rw [remainderOf_congr true fun r => (guest_setFlags s2 r _).trans (hguest r)] at hrem
      refine hrem.mono fun v s' hs' => hs'.congr ?_ ?_
      · rw [State.q_setFlags, hcx2]
      · intro r hr
        rw [guest_setFlags, hkeep r hr]
  · rw [exec_unlessMin_ne (by simp) hmin, if_neg hmin]
    have hrem := gives_remainder sz d (minState sz d s) true (by decide : Label.div2 ≠ .out)
    rw [remainderOf_congr true guest_minState] at hrem
    exact hrem.mono fun v s' hs' => hs'.congr hcx fun r _ => guest_minState r

/-- The remainder goes to `rd`, sign-extended. -/
theorem ends_mvRdRemainder {v : BitVec sz.width} (hv : s.get sz dx = v) :
    Ends (emitMvRdRemainder d sz) s fun s' => guest s' d.rd = v.signExtend 64 ∧
      ∀ o, o ≠ loc d.rd → o ≠ dx → s'.q o = s.q o := by
  have hput : ∀ (s1 : HostState) (w : BitVec 64), w = v.signExtend 64 → (∀ o, o ≠ dx → s1.q o = s.q o) →
      guest (s1.putQ w (loc d.rd)) d.rd = v.signExtend 64 ∧
        ∀ o, o ≠ loc d.rd → o ≠ dx → (s1.putQ w (loc d.rd)).q o = s.q o := by
    intro s1 w hw hs1
    refine ⟨(sets_putQ s1 d.rd w).guest_rd.trans hw, ?_⟩
    intro o hrd hdx
    rw [State.q_putQ _ (loc_loc _), if_neg hrd, hs1 o hdx]
  cases sz with
  | q =>
    have hdx : s.q dx = v.signExtend 64 := by
      rw [BitVec.signExtend_eq]
      exact hv
    unfold emitMvRdRemainder emitMvRdRdx
    dsimp only
    split
    · next hpos =>
      split
      · rw [ends_cons rfl rfl, ends_nil, ← loc_of_pos hpos]
        exact hput s _ hdx fun o _ => rfl
      · next h2 =>
        rw [not_not] at h2
        rw [ends_nil]
        refine ⟨?_, fun o _ _ => rfl⟩
        rw [x86Reg_eq_two.mp h2, guest, loc_ra, hdx]
    · next hpos =>
      rw [ends_cons rfl rfl, ends_nil, ← loc_of_not_pos hpos]
      exact hput s _ hdx fun o _ => rfl
  | d =>
    have hdx : s.d dx = v := hv
    unfold emitMvRdRemainder
    dsimp only
    split
    · next hpos =>
      rw [ends_cons rfl rfl, ends_nil, reg_gpr hpos, hdx]
      exact hput s _ rfl fun o _ => rfl
    · next hpos =>
      rw [ends_cons rfl rfl, ends_cons rfl rfl, ends_nil, ← loc_of_not_pos hpos, hdx]
      refine hput _ _ ?_ ?_
      · rw [State.q_putQ _ (loc_reg _), if_pos rfl]
      · intro o ho
        rw [State.q_putQ _ (loc_reg _), if_neg ho]

variable (sz) in
/-- `rdx` was saved in the place `o` before `code` and is restored after the result was moved. -/
theorem gives_saved {out : Option (BitVec sz.width)} {save code : Code} {o : Operand Slot} {s0 : HostState}
    (hdx : o ≠ dx) (hloc : ∀ r, loc r ≠ o) (hsave : exec save none s = .done s0) (hs0 : ∀ r, guest s0 r = guest s r)
    (ho : d.rd ≠ rvIregRa → s0.q o = s.q dx) (h : Gives out (InDx sz o s0) (exec code none s0)) :
    Gives (out.map (BitVec.signExtend 64)) (fun v => Sets d.rd v s)
      (exec (save ++ code ++ emitMvRdRemainder d sz ++ (if x86Reg d.rd ≠ 2 then [.mov .q dx o] else [])) none s) := by
  refine Gives.map (P := fun v => Sets d.rd (v.signExtend 64) s) ?_ fun v s' hs' => hs'
  rw [List.append_assoc, List.append_assoc, exec_append_of_done _ _ _ hsave]
  refine h.append ?_
  rintro v s' ⟨hres, hso, hs'⟩
  refine (ends_mvRdRemainder hres).append ?_
  rintro s'' ⟨hrd, hs''⟩
  have hkeep : ∀ r, r ≠ d.rd → r ≠ rvIregRa → guest s'' r = guest s r := by
    intro r hr hra
    rw [guest, hs'' (loc r) (fun heq => hr (loc_eq_iff.mp heq)) (loc_ne_dx hra)]
    exact (hs' r hra).trans (hs0 r)
  by_cases hra : d.rd = rvIregRa
  · rw [if_neg (not_not.mpr (x86Reg_eq_two.mpr hra)), ends_nil]
    intro r
    split
    · next hr => rw [hr, hrd]
    · next hr => exact hkeep r hr (by rwa [← hra])
  · rw [if_pos fun h => hra (x86Reg_eq_two.mp h), ends_cons rfl rfl, ends_nil, hs'' o (hloc d.rd).symm hdx, hso, ho hra]
    intro r
    by_cases hr : r = rvIregRa
    · rw [hr, if_neg (Ne.symm hra), guest, loc_ra, State.q_putQ _ (loc_reg _), if_pos rfl, guest, loc_ra]
    · have hput : guest (s''.putQ (s.q dx) dx) r = guest s'' r := by
        unfold guest
        rw [State.q_putQ _ (loc_reg _), if_neg (loc_ne_dx hr)]
      rw [hput]
      split
      · next hrd' => rw [hrd', hrd]
      · next hrd' => exact hkeep r hrd' hr

/-- Division saves `rdx` in `rcx`. -/
theorem gives_saved_cx {out : Option (BitVec sz.width)} {code : Code}
    (h : ∀ s0, (∀ r, guest s0 r = guest s r) → Gives out (InDx sz cx s0) (exec code none s0)) :
    Gives (out.map (BitVec.signExtend 64)) (fun v => Sets d.rd v s)
      (exec (emitSaveRdx d ++ code ++ emitMvRdRemainder d sz ++ emitRestoreRdx d) none s) := by
  by_cases hra : d.rd = rvIregRa
  · have hsave : exec (emitSaveRdx d) none s = .done s := by
      rw [emitSaveRdx, if_neg (not_not.mpr (x86Reg_eq_two.mpr hra)), exec_nil]
    exact gives_saved sz (by decide) loc_ne_cx hsave (fun r => rfl) (absurd hra) (h s fun r => rfl)
  · have hs0 : ∀ r, guest (s.putQ (s.q dx) cx) r = guest s r := fun r => guest_putQ_cx s r _
    have hsave : exec (emitSaveRdx d) none s = .done (s.putQ (s.q dx) cx) := by
      rw [emitSaveRdx, if_pos fun h => hra (x86Reg_eq_two.mp h)]
      rfl
    refine gives_saved sz (by decide) loc_ne_cx hsave hs0 ?_ (h _ hs0)
    intro _
    rw [State.q_putQ _ (loc_reg _), if_pos rfl]

end Remainders

/-! ## Against the interpreter -/

section Arithmetic
variable {n : Nat} {x y : BitVec n}

/-- Only a division by -1 negates. -/
theorem sdiv_eq_neg_iff (hn : 0 < n) (hneg : x.toInt < 0) (hmin : x ≠ BitVec.intMin n) : x.sdiv y = -x ↔ y = -1#n := by
  constructor
  · intro h
    have hquot := congrArg BitVec.toInt h
    rw [BitVec.toInt_sdiv_of_ne_or_ne x y (.inl hmin), BitVec.toInt_neg_of_ne_intMin hmin] at hquot
    have habs : x.toInt.natAbs / y.toInt.natAbs = x.toInt.natAbs := by
      have habs := congrArg Int.natAbs hquot
      rwa [Int.natAbs_tdiv, Int.natAbs_neg] at habs
    have hone : y.toInt.natAbs = 1 := by
      rcases Nat.lt_trichotomy y.toInt.natAbs 1 with hlt | heq | hgt
      · have hzero : y.toInt.natAbs = 0 := by omega
        rw [hzero, Nat.div_zero] at habs
        omega
      · exact heq
      · have := Nat.div_lt_self (n := x.toInt.natAbs) (by omega) hgt
        omega
    apply BitVec.eq_of_toInt_eq
    rw [toInt_neg_one hn]
    rcases Int.natAbs_eq y.toInt with hy | hy
    · rw [hone] at hy
      rw [hy] at hquot
      rw [Nat.cast_one, Int.tdiv_one] at hquot
      omega
    · rw [hy, hone]
      rfl
  · intro h
    rw [h, sdiv_neg_one hn]

/-- A remainder of the least number is never that number. -/
theorem srem_intMin_ne (hn : 0 < n) (hy : y ≠ 0#n) : (BitVec.intMin n).srem y ≠ BitVec.intMin n := by
  intro h
  have hrem := congrArg (fun v => (BitVec.toInt v).natAbs) h
  rw [BitVec.toInt_srem, Int.natAbs_tmod, BitVec.toInt_intMin_of_pos hn, Int.natAbs_neg] at hrem
  have hpos : 0 < y.toInt.natAbs := by
    rw [Int.natAbs_pos]
    intro h0
    exact hy (BitVec.eq_of_toInt_eq (by rw [h0, BitVec.toInt_zero]))
  have hlt := Nat.mod_lt ((2 ^ (n - 1) : Int).natAbs) hpos
  have hle : -2 ^ (n - 1) ≤ y.toInt := BitVec.le_toInt y
  have hge : y.toInt < 2 ^ (n - 1) := BitVec.toInt_lt
  omega

end Arithmetic

/-- The part of a register that an instruction of a size reads. -/
abbrev low (sz : Size) (x : BitVec 64) : BitVec sz.width := x.setWidth sz.width

section Conditions
variable (sz : Size) (d : JitDecode) (x : Nat → BitVec 64)

/-- A divisor of 0 in a host register is 0 in all of its 64 bits. -/
def WholeZero : Prop := 0 < x86Reg d.rs2 → low sz (x d.rs2) = 0 → x d.rs2 = 0

/-- Where the code for a signed quotient is right. -/
def SdivRight : Prop :=
  if d.rs2 = 0 then True
  else if d.rs1 = 0 then low sz (x d.rs2) ≠ 0
  else if d.rs2 = rvIregRa then x d.rs2 = 0 ∨ low sz (x d.rs2) = -1 ∧ (low sz (x d.rs1)).toInt < 0
  else WholeZero sz d x

/-- Where the code for a signed remainder is right. -/
def SremRight : Prop :=
  if d.rs2 = 0 then low sz (x d.rs1) = -1
  else if d.rs1 = 0 then True
  else if d.rs2 = rvIregRa then
    if low sz (x d.rs1) = BitVec.intMin sz.width then d.rs1 = rvIregRa ∨ low sz (x d.rs2) = 0
    else x d.rs2 = 0 ∨ (low sz (x d.rs1)).toInt < 0 ∧ Emu.rem (low sz (x d.rs1)) (low sz (x d.rs2)) = 0
  else if d.rs1 = rvIregRa ∧ low sz (x d.rs1) = BitVec.intMin sz.width then
    Emu.rem (low sz (x d.rs1)) (low sz (x d.rs2)) = 0
  else WholeZero sz d x

/-- Where the code for an unsigned quotient is right. -/
def UdivRight : Prop :=
  if d.rs2 = 0 then True
  else if d.rs1 = 0 then low sz (x d.rs2) ≠ 0
  else if d.rs2 = rvIregRa then x d.rs2 = 0
  else WholeZero sz d x

/-- Where the code for an unsigned remainder is right. -/
def UremRight : Prop :=
  if d.rs2 = 0 then low sz (x d.rs1) = -1
  else if d.rs1 = 0 then True
  else if d.rs2 = rvIregRa then x d.rs2 = 0
  else WholeZero sz d x

end Conditions

section Right
variable {sz : Size} {d : JitDecode} {s : HostState}

theorem width_pos : 0 < sz.width := by cases sz <;> decide

theorem toInt_intMin_neg : (BitVec.intMin sz.width).toInt < 0 := by cases sz <;> decide

theorem intMin_ne_zero : BitVec.intMin sz.width ≠ 0 := by cases sz <;> decide

theorem zero_ne_neg_one : (0 : BitVec sz.width) ≠ -1 := by cases sz <;> decide

theorem signExtend_injective : Function.Injective (BitVec.signExtend 64 : BitVec sz.width → BitVec 64) := by
  intro v w h
  have hint := congrArg BitVec.toInt h
  have hle : sz.width ≤ 64 := by cases sz <;> decide
  rw [BitVec.toInt_signExtend_of_le hle, BitVec.toInt_signExtend_of_le hle] at hint
  exact BitVec.eq_of_toInt_eq hint

theorem Gives.computes_signExtend_iff {o : Option (BitVec sz.width)} {w : BitVec sz.width} {rd : Nat} {code : Code}
    (h : Gives (o.map (BitVec.signExtend 64)) (fun v => Sets rd v s) (exec code none s)) :
    Computes code s rd (w.signExtend 64) ↔ o = some w := by
  rw [h.computes_iff, ← Option.map_some]
  exact (Option.map_injective signExtend_injective).eq_iff

/-- A test finds the divisors of 0 where they are 0 as a whole. -/
theorem zeroRs2_iff (h : WholeZero sz d (guest s)) : ZeroRs2 sz d s ↔ guestN sz s d.rs2 = 0 := by
  unfold ZeroRs2
  split
  · next hpos =>
    constructor
    · intro h0
      rw [guestN, h0]
      exact BitVec.setWidth_zero ..
    · intro h0
      exact h hpos h0
  · rfl

theorem not_zeroRs2 (h : ¬ WholeZero sz d (guest s)) : ¬ ZeroRs2 sz d s ∧ guestN sz s d.rs2 = 0 := by
  unfold WholeZero at h
  push Not at h
  obtain ⟨hpos, h0, hne⟩ := h
  refine ⟨?_, h0⟩
  rw [ZeroRs2, if_pos hpos]
  exact hne

theorem zeroRs2_ra (h : d.rs2 = rvIregRa) : ZeroRs2 sz d s ↔ guest s d.rs2 = 0 := by
  rw [ZeroRs2, if_pos (by rw [h]; decide)]

theorem divideRs2_ra {n : Nat} (h : d.rs2 = rvIregRa) (signed : Bool) (x y : BitVec n) :
    divideRs2 signed d x y = divideWide signed (highHalf signed x) x (highHalf signed x) := by
  rw [divideRs2, if_pos h]

theorem divideRs2_ne {n : Nat} (h : d.rs2 ≠ rvIregRa) (signed : Bool) (x y : BitVec n) :
    divideRs2 signed d x y = divideWide signed (highHalf signed x) x y := by
  rw [divideRs2, if_neg h]

theorem divideWide_by_zero {n : Nat} (signed : Bool) (hi x : BitVec n) : divideWide signed hi x 0 = none := by
  unfold divideWide
  cases signed with
  | true => simp [sdivWide]
  | false => exact udivWide_by_zero hi x

theorem udivide_ra {n : Nat} (h : d.rs2 = rvIregRa) (x y : BitVec n) : divideRs2 false d x y = none := by
  rw [divideRs2_ra h]
  exact divideWide_by_zero false _ x

theorem divideWide_unsigned {n : Nat} {x y : BitVec n} (hy : y ≠ 0) :
    divideWide false (highHalf false x) x y = some (x.udiv y, x.umod y) :=
  udivWide_zero hy

theorem divideWide_signed {x y : BitVec sz.width} (hy : y ≠ 0) (hov : x ≠ BitVec.intMin sz.width ∨ y ≠ -1) :
    divideWide true (highHalf true x) x y = some (x.sdiv y, x.srem y) :=
  sdivWide_sign width_pos hy hov

/-- What is left of the divisor is the sign of the dividend. -/
theorem sdivide_ra (h : d.rs2 = rvIregRa) (x y : BitVec sz.width) :
    divideRs2 true d x y = if x.toInt < 0 ∧ x ≠ BitVec.intMin sz.width then some (-x, 0) else none := by
  rw [divideRs2_ra h]
  exact sdivWide_sign_sign width_pos

theorem guestN_eq_zero {r : Nat} (h : guest s r = 0) : guestN sz s r = 0 := by
  rw [guestN, h]
  exact BitVec.setWidth_zero ..

theorem quotientOf_unsigned_iff (h1 : d.rs1 ≠ 0) (h2 : d.rs2 ≠ 0) :
    quotientOf false sz d s = some (Emu.divu (guestN sz s d.rs1) (guestN sz s d.rs2)) ↔ UdivRight sz d (guest s) := by
  unfold quotientOf UdivRight
  simp only [h1, h2, if_false]
  by_cases hra : d.rs2 = rvIregRa
  · rw [if_pos hra, udivide_ra hra]
    simp only [zeroRs2_ra hra]
    split
    · next h0 => simp [h0, guestN_eq_zero h0, Emu.divu]
    · next h0 => exact ⟨fun h => (nomatch h), fun h => absurd h h0⟩
  · rw [if_neg hra, divideRs2_ne hra]
    by_cases hwhole : WholeZero sz d (guest s)
    · simp only [zeroRs2_iff hwhole, hwhole, iff_true]
      unfold Emu.divu
      split
      · rfl
      · next h0 => rw [divideWide_unsigned h0, Option.map_some]
    · obtain ⟨hzero, h0⟩ := not_zeroRs2 hwhole
      rw [if_neg hzero, h0, divideWide_by_zero]
      simp [hwhole]

theorem remainderOf_unsigned_iff (h1 : d.rs1 ≠ 0) (h2 : d.rs2 ≠ 0) :
    remainderOf false sz d s = some (Emu.remu (guestN sz s d.rs1) (guestN sz s d.rs2)) ↔ UremRight sz d (guest s) := by
  unfold remainderOf UremRight
  simp only [h1, h2, if_false]
  by_cases hra : d.rs2 = rvIregRa
  · rw [if_pos hra, udivide_ra hra]
    simp only [zeroRs2_ra hra]
    split
    · next h0 => simp [h0, guestN_eq_zero h0, Emu.remu]
    · next h0 => exact ⟨fun h => (nomatch h), fun h => absurd h h0⟩
  · rw [if_neg hra, divideRs2_ne hra]
    by_cases hwhole : WholeZero sz d (guest s)
    · simp only [zeroRs2_iff hwhole, hwhole, iff_true]
      unfold Emu.remu
      split
      · rfl
      · next h0 => rw [divideWide_unsigned h0, Option.map_some]
    · obtain ⟨hzero, h0⟩ := not_zeroRs2 hwhole
      rw [if_neg hzero, h0, divideWide_by_zero]
      simp [hwhole]

/-- The quotient by the sign of the dividend. -/
theorem quotient_ra_iff {x y : BitVec sz.width} (hov : ¬ (x = BitVec.intMin sz.width ∧ y = -1)) :
    (if x.toInt < 0 ∧ x ≠ BitVec.intMin sz.width then some (-x, (0 : BitVec sz.width)) else none).map Prod.fst =
      some (if y = 0 then -1 else x.sdiv y) ↔ y = -1 ∧ x.toInt < 0 := by
  by_cases h : x.toInt < 0 ∧ x ≠ BitVec.intMin sz.width
  · rw [if_pos h, Option.map_some, Option.some_inj]
    split
    · next h0 =>
      constructor
      · intro hx
        have hone : x = 1 := neg_inj.mp hx
        have hpos : ¬ (1 : BitVec sz.width).toInt < 0 := by cases sz <;> decide
        exact absurd (hone ▸ h.1) hpos
      · rintro ⟨h1, -⟩
        exact absurd (h0.symm.trans h1) zero_ne_neg_one
    · rw [eq_comm, sdiv_eq_neg_iff width_pos h.1 h.2]
      exact ⟨fun hy => ⟨hy, h.1⟩, fun hy => hy.1⟩
  · rw [if_neg h]
    constructor
    · intro hn
      cases hn
    · rintro ⟨hy, hneg⟩
      exact absurd ⟨by_contra fun hx => h ⟨hneg, hx⟩, hy⟩ hov

theorem sdivOf_iff (h1 : d.rs1 ≠ 0) (h2 : d.rs2 ≠ 0) :
    sdivOf sz d s = some (Emu.div (guestN sz s d.rs1) (guestN sz s d.rs2)) ↔ SdivRight sz d (guest s) := by
  unfold sdivOf quotientOf SdivRight Emu.div
  simp only [h1, h2, if_false]
  by_cases hra : d.rs2 = rvIregRa
  · rw [if_pos hra, sdivide_ra hra]
    simp only [zeroRs2_ra hra]
    by_cases hov : guestN sz s d.rs1 = BitVec.intMin sz.width ∧ guestN sz s d.rs2 = -1
    · have hneg : (guestN sz s d.rs1).toInt < 0 := by
        rw [hov.1]
        exact toInt_intMin_neg
      rw [if_pos hov, if_pos hov]
      exact ⟨fun _ => .inr ⟨hov.2, hneg⟩, fun _ => rfl⟩
    · rw [if_neg hov, if_neg hov]
      by_cases h0 : guest s d.rs2 = 0
      · simp [h0, guestN_eq_zero h0]
      · rw [if_neg h0]
        simp only [h0, false_or]
        exact quotient_ra_iff hov
  · rw [if_neg hra, divideRs2_ne hra]
    by_cases hwhole : WholeZero sz d (guest s)
    · simp only [zeroRs2_iff hwhole, hwhole, iff_true]
      split
      · rfl
      · next hov =>
        split
        · rfl
        · next h0 =>
          rw [divideWide_signed h0 (Decidable.not_and_iff_or_not.mp hov), Option.map_some]
    · obtain ⟨hzero, h0⟩ := not_zeroRs2 hwhole
      rw [if_neg hzero, h0, divideWide_by_zero, if_neg fun h => zero_ne_neg_one h.2]
      simp [hwhole]

section Min
variable (hmin : guestN sz s d.rs1 = BitVec.intMin sz.width)

include hmin

/-- `ra` was cleared for the least number, which another register holds. -/
theorem srem_min_ra (hra : d.rs2 = rvIregRa) (h1 : d.rs1 ≠ rvIregRa) : sremOf sz d s = some (BitVec.intMin sz.width) := by
  have hrs2 : guest (cleared s) d.rs2 = 0 := by rw [guest_cleared, if_pos hra]
  have hrs1 : guestN sz (cleared s) d.rs1 = guestN sz s d.rs1 := guestN_congr (by rw [guest_cleared, if_neg h1])
  rw [sremOf, if_pos hmin, guestN_eq_zero hrs2, if_neg zero_ne_neg_one, remainderOf, if_pos, hrs1, hmin]
  rw [zeroRs2_ra hra, hrs2]

/-- The least number was in `ra` and was cleared. -/
theorem srem_cleared (hra : d.rs1 = rvIregRa) :
    sremOf sz d s = some 0 ∨ sremOf sz d s = none ∧ guestN sz s d.rs2 = 0 ∧ d.rs2 ≠ rvIregRa := by
  have hrs1 : guestN sz (cleared s) d.rs1 = 0 := guestN_eq_zero (by rw [guest_cleared, if_pos hra])
  rw [sremOf, if_pos hmin]
  split
  · exact .inl rfl
  · next h1 =>
    unfold remainderOf
    rw [hrs1]
    split
    · exact .inl rfl
    · next hzero =>
      have hne : d.rs2 ≠ rvIregRa := by
        intro heq
        rw [zeroRs2_ra heq, guest_cleared, if_pos heq] at hzero
        exact hzero rfl
      have hrs2 : guestN sz (cleared s) d.rs2 = guestN sz s d.rs2 := guestN_congr (by rw [guest_cleared, if_neg hne])
      rw [hrs2] at h1 ⊢
      rw [divideRs2_ne hne]
      by_cases h0 : guestN sz s d.rs2 = 0
      · rw [h0, divideWide_by_zero]
        exact .inr ⟨rfl, rfl, hne⟩
      · rw [divideWide_signed h0 (.inr h1)]
        left
        exact congrArg some BitVec.zero_srem

end Min

/-- Where nothing that is read was cleared. -/
theorem sremOf_eq (h : ¬ (d.rs1 = rvIregRa ∧ guestN sz s d.rs1 = BitVec.intMin sz.width)) (hra : d.rs2 ≠ rvIregRa) :
    sremOf sz d s = if guestN sz s d.rs1 = BitVec.intMin sz.width ∧ guestN sz s d.rs2 = -1 then some 0
      else remainderOf true sz d s := by
  have hrs2 : guest (cleared s) d.rs2 = guest s d.rs2 := by rw [guest_cleared, if_neg hra]
  unfold sremOf
  by_cases hmin : guestN sz s d.rs1 = BitVec.intMin sz.width
  · have hne : d.rs1 ≠ rvIregRa := fun heq => h ⟨heq, hmin⟩
    have hrs1 : guest (cleared s) d.rs1 = guest s d.rs1 := by rw [guest_cleared, if_neg hne]
    have hrem : remainderOf true sz d (cleared s) = remainderOf true sz d s := by
      unfold remainderOf
      rw [guestN_congr hrs1, guestN_congr hrs2]
      simp only [zeroRs2_congr hrs2]
    rw [if_pos hmin, guestN_congr hrs2, hrem]
    simp only [hmin, true_and]
  · rw [if_neg hmin, if_neg fun h => hmin h.1]

section Rem
variable {x y : BitVec sz.width}

theorem rem_zero : Emu.rem x 0 = x := by
  unfold Emu.rem
  rw [if_neg fun h => zero_ne_neg_one h.2, if_pos rfl]

theorem rem_self : Emu.rem x x = 0 := by
  unfold Emu.rem
  split
  · rfl
  · split
    · next h => exact h
    · exact BitVec.srem_self

theorem rem_intMin_iff : Emu.rem (BitVec.intMin sz.width) y = BitVec.intMin sz.width ↔ y = 0 := by
  constructor
  · intro h
    by_contra h0
    unfold Emu.rem at h
    rw [if_neg h0] at h
    split at h
    · exact intMin_ne_zero h.symm
    · exact srem_intMin_ne width_pos h0 h
  · intro h
    rw [h, rem_zero]

end Rem

theorem sremOf_iff (h1 : d.rs1 ≠ 0) (h2 : d.rs2 ≠ 0) :
    sremOf sz d s = some (Emu.rem (guestN sz s d.rs1) (guestN sz s d.rs2)) ↔ SremRight sz d (guest s) := by
  have hlow : ∀ r, low sz (guest s r) = guestN sz s r := fun r => rfl
  unfold SremRight
  simp only [h1, h2, if_false, hlow]
  by_cases hra : d.rs2 = rvIregRa
  · rw [if_pos hra]
    by_cases hmin : guestN sz s d.rs1 = BitVec.intMin sz.width
    · rw [if_pos hmin]
      by_cases hra1 : d.rs1 = rvIregRa
      · rcases srem_cleared hmin hra1 with h | h
        · rw [h, hra1, hra, rem_self]
          exact ⟨fun _ => .inl rfl, fun _ => rfl⟩
        · exact absurd hra h.2.2
      · rw [srem_min_ra hmin hra hra1, hmin, Option.some_inj, eq_comm, rem_intMin_iff]
        simp only [hra1, false_or]
    · rw [if_neg hmin, sremOf, if_neg hmin, remainderOf, sdivide_ra hra]
      simp only [zeroRs2_ra hra]
      by_cases h0 : guest s d.rs2 = 0
      · simp only [h0, if_true, true_or, iff_true]
        rw [guestN_eq_zero h0, rem_zero]
      · simp only [h0, if_false, false_or]
        by_cases hneg : (guestN sz s d.rs1).toInt < 0
        · rw [if_pos ⟨hneg, hmin⟩, Option.map_some, Option.some_inj, eq_comm]
          exact ⟨fun h => ⟨hneg, h⟩, fun h => h.2⟩
        · rw [if_neg fun h => hneg h.1]
          exact ⟨fun h => (nomatch h), fun h => absurd h.1 hneg⟩
  · rw [if_neg hra]
    by_cases hcl : d.rs1 = rvIregRa ∧ guestN sz s d.rs1 = BitVec.intMin sz.width
    · rw [if_pos hcl]
      rcases srem_cleared hcl.2 hcl.1 with h | h
      · rw [h, Option.some_inj, eq_comm]
      · rw [h.1, h.2.1, rem_zero, hcl.2]
        constructor
        · intro hn
          cases hn
        · intro hz
          exact absurd hz intMin_ne_zero
    · rw [if_neg hcl, sremOf_eq hcl hra, remainderOf, divideRs2_ne hra]
      by_cases hwhole : WholeZero sz d (guest s)
      · simp only [zeroRs2_iff hwhole, hwhole, iff_true]
        unfold Emu.rem
        split
        · rfl
        · next hov =>
          split
          · rfl
          · next h0 => rw [divideWide_signed h0 (Decidable.not_and_iff_or_not.mp hov), Option.map_some]
      · obtain ⟨hzero, h0⟩ := not_zeroRs2 hwhole
        rw [if_neg hzero, h0, divideWide_by_zero, if_neg fun h => zero_ne_neg_one h.2]
        simp [hwhole]

theorem div_zero {x : BitVec sz.width} : Emu.div x 0 = -1 := by
  unfold Emu.div
  rw [if_neg fun h => zero_ne_neg_one h.2, if_pos rfl]

theorem zero_div {y : BitVec sz.width} : Emu.div 0 y = 0 ↔ y ≠ 0 := by
  unfold Emu.div
  rw [if_neg fun h => intMin_ne_zero h.1.symm]
  split
  · next h => exact ⟨fun heq => absurd heq.symm zero_ne_neg_one, fun hne => absurd h hne⟩
  · next h => exact ⟨fun _ => h, fun _ => BitVec.zero_sdiv⟩

theorem zero_divu {y : BitVec sz.width} : Emu.divu 0 y = 0 ↔ y ≠ 0 := by
  unfold Emu.divu
  split
  · next h => exact ⟨fun heq => absurd heq.symm zero_ne_neg_one, fun hne => absurd h hne⟩
  · next h => exact ⟨fun _ => h, fun _ => BitVec.zero_udiv⟩

theorem zero_rem {y : BitVec sz.width} : Emu.rem 0 y = 0 := by
  unfold Emu.rem
  rw [if_neg fun h => intMin_ne_zero h.1.symm]
  split
  · rfl
  · exact BitVec.zero_srem

theorem zero_remu {y : BitVec sz.width} : Emu.remu 0 y = 0 := by
  unfold Emu.remu
  split
  · rfl
  · exact BitVec.zero_umod

theorem guest_zero (h0 : guest s 0 = 0#64) {r : Nat} (h : r = 0) : guest s r = 0 := by
  rw [h, h0]
  rfl

theorem sremOf_congr {s' : HostState} (h : ∀ r, guest s' r = guest s r) : sremOf sz d s' = sremOf sz d s := by
  have hcleared : ∀ r, guest (cleared s') r = guest (cleared s) r := by
    intro r
    rw [guest_cleared, guest_cleared, h]
  unfold sremOf
  rw [guestN_congr (h _), guestN_congr (hcleared _), remainderOf_congr true hcleared, remainderOf_congr true h]

variable (hrd : d.rd ≠ 0) (h0 : guest s 0 = 0#64)

include hrd h0

omit h0 in
/-- The cases of `x0`, for what the interpreter computes there. -/
theorem computes_guarded_iff {code : Code} {o : Option (BitVec sz.width)} {w : BitVec sz.width} {p q r : Prop}
    (hp : d.rs2 = 0 → (w = -1 ↔ p)) (hq : d.rs2 ≠ 0 → d.rs1 = 0 → (w = 0 ↔ q))
    (hcode : Gives (o.map (BitVec.signExtend 64)) (fun v => Sets d.rd v s) (exec code none s))
    (hr : d.rs1 ≠ 0 → d.rs2 ≠ 0 → (o = some w ↔ r)) :
    Computes (emitGuarded d code) s d.rd (w.signExtend 64) ↔ if d.rs2 = 0 then p else if d.rs1 = 0 then q else r := by
  unfold emitGuarded
  rw [if_neg hrd]
  split
  · next h2 =>
    have hone : (-1 : BitVec 32).signExtend 64 = (-1 : BitVec sz.width).signExtend 64 := by cases sz <;> decide
    rw [← hp h2, ← Option.some_inj, eq_comm]
    refine Gives.computes_signExtend_iff (o := some (-1)) ?_
    refine Ends.gives ?_
    rw [← hone]
    exact computes_imm (-1)
  · next h2 =>
    split
    · next h1 =>
      have hzero : (0#64) = (0 : BitVec sz.width).signExtend 64 := by cases sz <;> decide
      rw [← hq h2 h1, ← Option.some_inj, eq_comm]
      refine Gives.computes_signExtend_iff (o := some 0) ?_
      refine Ends.gives ?_
      rw [← hzero]
      exact computes_zero
    · next h1 => rw [hcode.computes_signExtend_iff, hr h1 h2]

variable (sz) in
theorem computes_sdiv_iff :
    Computes (emitSdiv sz d) s d.rd ((Emu.div (guestN sz s d.rs1) (guestN sz s d.rs2)).signExtend 64) ↔
      SdivRight sz d (guest s) := by
  refine (computes_guarded_iff (o := sdivOf sz d s) hrd ?_ ?_ ?_ ?_).trans (by rw [SdivRight])
  · intro h2
    rw [guestN_eq_zero (guest_zero h0 h2), div_zero]
    exact iff_of_true rfl trivial
  · intro h2 h1
    rw [guestN_eq_zero (guest_zero h0 h1)]
    exact zero_div
  · refine Gives.map (P := fun v => Sets d.rd (v.signExtend 64) s) ?_ fun v s' hs' => hs'
    exact gives_sdiv.append fun v s' hs' => ends_mvRdRax hs'
  · intro h1 h2
    rw [sdivOf_iff h1 h2, SdivRight, if_neg h2, if_neg h1]

variable (sz) in
theorem computes_udiv_iff :
    Computes (emitUdiv sz d) s d.rd ((Emu.divu (guestN sz s d.rs1) (guestN sz s d.rs2)).signExtend 64) ↔
      UdivRight sz d (guest s) := by
  refine (computes_guarded_iff (o := quotientOf false sz d s) hrd ?_ ?_ ?_ ?_).trans (by rw [UdivRight])
  · intro h2
    rw [guestN_eq_zero (guest_zero h0 h2), Emu.divu, if_pos rfl]
    exact iff_of_true rfl trivial
  · intro h2 h1
    rw [guestN_eq_zero (guest_zero h0 h1)]
    exact zero_divu
  · refine Gives.map (P := fun v => Sets d.rd (v.signExtend 64) s) ?_ fun v s' hs' => hs'
    exact (gives_quotient sz d s false (by decide)).append fun v s' hs' => ends_mvRdRax hs'
  · intro h1 h2
    rw [quotientOf_unsigned_iff h1 h2, UdivRight, if_neg h2, if_neg h1]

variable (sz) in
theorem computes_srem_iff :
    Computes (emitSrem sz d) s d.rd ((Emu.rem (guestN sz s d.rs1) (guestN sz s d.rs2)).signExtend 64) ↔
      SremRight sz d (guest s) := by
  refine (computes_guarded_iff (o := sremOf sz d s) hrd ?_ ?_ ?_ ?_).trans (by rw [SremRight])
  · intro h2
    rw [guestN_eq_zero (guest_zero h0 h2), rem_zero]
    rfl
  · intro h2 h1
    rw [guestN_eq_zero (guest_zero h0 h1), zero_rem]
    exact iff_of_true rfl trivial
  · refine gives_saved_cx fun s0 hs0 => ?_
    rw [← sremOf_congr hs0]
    exact gives_srem
  · intro h1 h2
    rw [sremOf_iff h1 h2, SremRight, if_neg h2, if_neg h1]

variable (sz) in
theorem computes_urem_iff :
    Computes (emitUrem sz d) s d.rd ((Emu.remu (guestN sz s d.rs1) (guestN sz s d.rs2)).signExtend 64) ↔
      UremRight sz d (guest s) := by
  refine (computes_guarded_iff (o := remainderOf false sz d s) hrd ?_ ?_ ?_ ?_).trans (by rw [UremRight])
  · intro h2
    rw [guestN_eq_zero (guest_zero h0 h2), Emu.remu, if_pos rfl]
    rfl
  · intro h2 h1
    rw [guestN_eq_zero (guest_zero h0 h1), zero_remu]
    exact iff_of_true rfl trivial
  · refine gives_saved_cx fun s0 hs0 => ?_
    rw [← remainderOf_congr false hs0]
    exact gives_remainder sz d s0 false (by decide)
  · intro h1 h2
    rw [remainderOf_unsigned_iff h1 h2, UremRight, if_neg h2, if_neg h1]

end Right

end Rv8.Jit
