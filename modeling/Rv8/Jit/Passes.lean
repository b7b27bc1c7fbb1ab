import Rv8.Jit.TraceRun
/-!
# Passes through a trace

Code is executed from the label of an instruction to where the trace is left. What was
emitted for an instruction does not bind the label of another, so a jump out of it is
found at the label of an instruction before it or leaves the code. The emitter only
grows: a jump that is possible when it is emitted is possible at the end.
-/

namespace Rv8.Jit

open Rv8.Asm Rv8.Lib.X86

/-! ## Labels -/

/-- The labels inside of the code for one instruction. -/
def Label.within : Label → Bool
  | .div1 | .div2 | .umul | .out => true
  | _ => false

def bindsWithin : Ins Slot Label → Bool
  | .bind l => l.within
  | _ => true

/-- The code binds no label but its own. -/
def Within (code : Code) : Prop := ∀ i ∈ code, bindsWithin i = true

section Within

@[simp] theorem within_nil : Within [] := by simp [Within]

@[simp] theorem within_cons {i : Ins Slot Label} {code : Code} : Within (i :: code) ↔ bindsWithin i = true ∧ Within code := by
  simp [Within]

@[simp] theorem within_append {a b : Code} : Within (a ++ b) ↔ Within a ∧ Within b := by
  simp [Within, or_imp, forall_and]

@[simp] theorem within_ite {c : Prop} [Decidable c] {a b : Code} :
    Within (if c then a else b) ↔ (c → Within a) ∧ (¬ c → Within b) := by
  split <;> simp [*]

variable (d : JitDecode)

theorem within_emitUnlessZero {sz : Size} {div : Label} {i : Ins Slot Label} {code : Code} (hdiv : div.within = true)
    (hi : bindsWithin i = true) (h : Within code) : Within (emitUnlessZero sz d div i code) := by
  have htest : Within (emitTestRs2 sz d) := by
    unfold emitTestRs2
    dsimp only
    split <;> exact within_cons.mpr ⟨rfl, within_nil⟩
  unfold emitUnlessZero
  simp only [within_append, within_cons]
  exact ⟨⟨⟨htest, rfl, hi, rfl, hdiv, within_nil⟩, h⟩, rfl, within_nil⟩

attribute [local simp] bindsWithin Label.within emitMvRdRs1 emitMvRdRs2 emitMvRaxRs1 emitMvEaxRs1 emitZeroRd emitSx32Rd emitMvClRs2
  emitMv emitMvRdRs1Sx32 emitMvRdRs2Sx32 emitMvRdRs132 emitOp emitThree emitThreeW emitThroughEax emitCommutative emitSetRd emitCmpRs1Rs2
  emitMulRs2 emitMvRdRdx emitSaveRa emitRestoreRa emitSaveRdx emitRestoreRdx

theorem within_emitDivide (sz : Size) (signed : Bool) : Within (emitDivide sz d signed) := by
  cases sz <;> simp [emitDivide, cdqo]

theorem within_emitQuotient (sz : Size) (signed : Bool) (div : Label) (hdiv : div.within = true) :
    Within (emitQuotient sz d signed div) := by
  refine within_emitUnlessZero d hdiv rfl ?_
  simp [emitSaveRdx, emitRestoreRdx, within_emitDivide]

theorem within_emitRemainder (sz : Size) (signed : Bool) (div : Label) (hdiv : div.within = true) :
    Within (emitRemainder sz d signed div) := by
  simp only [emitRemainder, within_cons]
  exact ⟨rfl, within_emitUnlessZero d hdiv rfl (within_emitDivide d sz signed)⟩

theorem within_emitUnlessMin (sz : Size) {pre code : Code} (hpre : Within pre) (h : Within code) :
    Within (emitUnlessMin sz d pre code) := by
  cases sz <;> simp [emitUnlessMin, emitMvMinAx, hpre, h]

theorem within_emitMvRdRax (sz : Size) : Within (emitMvRdRax d sz) := by
  cases sz <;> simp [emitMvRdRax]

theorem within_emitMvRdRemainder (sz : Size) : Within (emitMvRdRemainder d sz) := by
  cases sz <;> simp [emitMvRdRemainder, emitMvRdRdx]

theorem within_emitGuarded {code : Code} (h : Within code) : Within (emitGuarded d code) := by
  simp [emitGuarded, h]

theorem within_emitSdiv (sz : Size) : Within (emitSdiv sz d) := by
  have hmin := within_emitUnlessMin d sz within_nil (within_emitQuotient d sz true .div2 rfl)
  exact within_emitGuarded d (within_append.mpr ⟨hmin, within_emitMvRdRax d sz⟩)

theorem within_emitUdiv (sz : Size) : Within (emitUdiv sz d) :=
  within_emitGuarded d (within_append.mpr ⟨within_emitQuotient d sz false .div1 rfl, within_emitMvRdRax d sz⟩)

theorem within_emitSrem (sz : Size) : Within (emitSrem sz d) := by
  have hpre : Within [.alu .xor .d dx dx] := by simp
  have hmin := within_emitUnlessMin d sz hpre (within_emitRemainder d sz true .div2 rfl)
  refine within_emitGuarded d ?_
  simp [hmin, within_emitMvRdRemainder]

theorem within_emitUrem (sz : Size) : Within (emitUrem sz d) := by
  have hrem := within_emitRemainder d sz false .div1 rfl
  refine within_emitGuarded d ?_
  simp [hrem, within_emitMvRdRemainder]

theorem within_emitAlu {op : RvOp} {code : Code} (h : emitAlu d op = some code) : Within code := by
  unfold emitAlu at h
  split at h
  all_goals cases h
  · simp [emitAddi]
  · simp [emitSlti, emitSetLess]
  · simp [emitSltiu, emitSetLess]
  · simp [emitXori, emitOriXori]
  · simp [emitOri, emitOriXori]
  · simp [emitAndi]
  · simp [emitSlli, emitShiftImm]
  · simp [emitSrli, emitShiftImm]
  · simp [emitSrai, emitShiftImm]
  · simp [emitAdd]
  · simp [emitSub]
  · simp [emitSll, emitShift]
  · simp [emitSlt]
  · simp [emitSltu]
  · simp [emitXor, emitOrXor]
  · simp [emitSrl, emitShift]
  · simp [emitSra, emitShift]
  · simp [emitOr, emitOrXor]
  · simp [emitAnd]
  · simp [emitAddiw]
  · simp [emitSlliw, emitShiftImmW]
  · simp [emitSrliw, emitShiftImmW]
  · simp [emitSraiw, emitShiftImmW]
  · simp [emitAddw]
  · simp [emitSubw]
  · simp [emitSllw, emitShiftW]
  · simp [emitSrlw, emitShiftW]
  · simp [emitSraw, emitShiftW]
  · simp [emitMul]
  · simp [emitMulh, emitMulHigh]
  · simp [emitMulhsu, emitMulNegative]
  · simp [emitMulhu, emitMulHigh]
  · exact within_emitSdiv d .q
  · exact within_emitUdiv d .q
  · exact within_emitSrem d .q
  · exact within_emitUrem d .q
  · simp [emitMulw]
  · exact within_emitSdiv d .d
  · exact within_emitUdiv d .d
  · exact within_emitSrem d .d
  · exact within_emitUrem d .d

theorem within_emitAddr (rd slot : Nat) (addr : BitVec 64) : Within (emitAddr rd slot addr) := by
  simp [emitAddr]

theorem within_emitPc (pc : BitVec 64) : Within (emitPc pc) := by
  simp [emitPc]

theorem within_emitCmp : Within (emitCmp d) := by
  simp [emitCmp]

theorem within_emitBranch (e : Emitter) (cond : Bool) (bf ibf : Cond) : Within (emitBranch e d cond bf ibf).code := by
  unfold emitBranch
  dsimp only
  split
  · simp [within_emitCmp]
  · split
    · simp [within_emitCmp]
    · split
      · simp [within_emitCmp]
      · split <;> simp [within_emitCmp]

theorem within_emitIndirect (e : Emitter) : Within (emitIndirect e d).code := by
  simp [emitIndirect, emitTarget, within_emitAddr]

theorem within_emitJump {e : Emitter} {x : Nat → BitVec 64} {em : EmittedJump} (h : emitJump e d x = some em) : Within em.code := by
  unfold emitJump at h
  split at h
  · cases h
    unfold emitJal
    dsimp only
    split
    · simp
    · exact within_emitAddr _ _ _
  · cases h
    unfold emitJalr
    split
    · split
      · simp [emitReturn]
      · exact within_emitIndirect d e
    · exact within_emitIndirect d e
  all_goals cases h
  · exact within_emitBranch d e _ _ _
  · exact within_emitBranch d e _ _ _
  · exact within_emitBranch d e _ _ _
  · exact within_emitBranch d e _ _ _
  · exact within_emitBranch d e _ _ _
  · exact within_emitBranch d e _ _ _
  · unfold emitCall
    dsimp only
    refine within_append.mpr ⟨?_, within_emitAddr _ _ _⟩
    split
    · exact within_nil
    · exact within_emitAddr _ _ _


/-- So do the pieces. -/
def PiecesWithin (ps : TraceCode) : Prop := ∀ q ∈ ps, ∀ l, q.Binds l → l.within = true

theorem piecesWithin_code {code : Code} (h : Within code) : PiecesWithin [.code code] := by
  intro q hq l hl
  rw [List.mem_singleton] at hq
  subst hq
  exact h _ hl

theorem piecesWithin_emitBase_append {ps : TraceCode} (h : PiecesWithin ps) : PiecesWithin (emitBase d ++ ps) := by
  have hbase : PiecesWithin (emitBase d) := by
    unfold emitBase
    split
    · simp [PiecesWithin]
    · exact piecesWithin_code (by simp)
  intro q hq
  exact (List.mem_append.mp hq).elim (hbase q) (h q)

theorem piecesWithin_emitLoad (n : Nat) (signed : Bool) : PiecesWithin (emitLoad d n signed) := by
  unfold emitLoad
  split
  · simp [PiecesWithin]
  · split
    · refine piecesWithin_emitBase_append d ?_
      simp [PiecesWithin, Piece.Binds]
    · refine piecesWithin_emitBase_append d ?_
      simp [PiecesWithin, Piece.Binds]

theorem piecesWithin_emitStore (n : Nat) : PiecesWithin (emitStore d n) := by
  have hstore (src : Operand Slot) : PiecesWithin (emitBase d ++ [.store n (baseReg d) d.imm src]) := by
    refine piecesWithin_emitBase_append d ?_
    simp [PiecesWithin, Piece.Binds]
  unfold emitStore
  split
  · exact hstore _
  · split
    · exact hstore _
    · intro q hq
      rcases List.mem_cons.mp hq with rfl | hq
      · simp [Piece.Binds]
      · exact hstore _ q hq

theorem piecesWithin_emitAccess {op : RvOp} {code : TraceCode} (h : emitAccess d op = some code) : PiecesWithin code := by
  unfold emitAccess at h
  split at h
  · cases h
    exact piecesWithin_emitLoad d 8 true
  · cases h
    exact piecesWithin_emitLoad d 4 true
  · cases h
    exact piecesWithin_emitLoad d 4 false
  · cases h
    exact piecesWithin_emitLoad d 2 true
  · cases h
    exact piecesWithin_emitLoad d 2 false
  · cases h
    exact piecesWithin_emitLoad d 1 true
  · cases h
    exact piecesWithin_emitLoad d 1 false
  · cases h
    exact piecesWithin_emitStore d 8
  · cases h
    exact piecesWithin_emitStore d 4
  · cases h
    exact piecesWithin_emitStore d 2
  · cases h
    exact piecesWithin_emitStore d 1
  · cases h

/-- Whatever is emitted for an instruction. -/
theorem piecesWithin_emitCase {e : Emitter} {ireg : Nat → BitVec 64} {em : EmittedInst} (h : emitCase e d ireg = some em) :
    PiecesWithin em.code := by
  cases caseOf_emitCase h with
  | lui _ => exact piecesWithin_code (by simp [emitLui])
  | auipc _ => exact piecesWithin_code (by simp [emitAuipc])
  | alu _ hcode => exact piecesWithin_code (within_emitAlu d hcode)
  | access _ hcode => exact piecesWithin_emitAccess d hcode
  | la _ =>
    refine piecesWithin_code ?_
    unfold emitLa
    split
    · exact within_nil
    · exact within_emitAddr _ _ _
  | jump hem => exact piecesWithin_code (within_emitJump d hem)

end Within

/-! ## The emitter grows -/

/-- Each jump to a stub for a pc is one that can be fixed up. -/
def Emitter.Stubs (e : Emitter) : Prop := ∀ pc ∈ e.jmpTrampLabels, pc ∈ e.jmpFixupLabels

structure Emitter.Grows (e e' : Emitter) : Prop where
  labels : e.labels ⊆ e'.labels
  jmpTramp : e.jmpTrampLabels ⊆ e'.jmpTrampLabels
  exitTramp : e.exitTrampLabels ⊆ e'.exitTrampLabels
  fixups : e.jmpFixupLabels ⊆ e'.jmpFixupLabels
  lookup : e'.lookupTraceSlow = e.lookupTraceSlow
  stubs : e.Stubs → e'.Stubs

section Grows
variable {e e' e'' : Emitter} {d : JitDecode} {pc : BitVec 64}

theorem Emitter.Grows.refl (e : Emitter) : e.Grows e := ⟨fun _ h => h, fun _ h => h, fun _ h => h, fun _ h => h, rfl, id⟩

theorem Emitter.Grows.trans (h : e.Grows e') (h' : e'.Grows e'') : e.Grows e'' where
  labels := List.Subset.trans h.labels h'.labels
  jmpTramp := List.Subset.trans h.jmpTramp h'.jmpTramp
  exitTramp := List.Subset.trans h.exitTramp h'.exitTramp
  fixups := List.Subset.trans h.fixups h'.fixups
  lookup := h'.lookup.trans h.lookup
  stubs := h'.stubs ∘ h.stubs

theorem grows_addLabel : e.Grows (e.addLabel pc) :=
  ⟨List.subset_cons_self _ _, fun _ h => h, fun _ h => h, fun _ h => h, rfl, id⟩

/-- The other members are free. -/
theorem Emitter.Grows.with (h : e.Grows e') (callstack : List (BitVec 64)) (termPc : BitVec 64) :
    e.Grows { e' with callstack, termPc } := ⟨h.labels, h.jmpTramp, h.exitTramp, h.fixups, h.lookup, h.stubs⟩

theorem grows_leaveFor : e.Grows (e.leaveFor pc).2 := by
  unfold Emitter.leaveFor
  split
  · exact .refl e
  · unfold Emitter.fixup Emitter.createJumpTramp
    split
    · next hin =>
      refine ⟨fun _ h => h, fun _ h => h, fun _ h => h, List.subset_cons_self _ _, rfl, fun hs pc' hpc' => ?_⟩
      exact List.mem_cons_of_mem _ (hs pc' hpc')
    · refine ⟨fun _ h => h, List.subset_cons_self _ _, fun _ h => h, List.subset_cons_self _ _, rfl, fun hs pc' hpc' => ?_⟩
      rcases List.mem_cons.mp hpc' with rfl | hpc'
      · exact List.mem_cons_self
      · exact List.mem_cons_of_mem _ (hs pc' hpc')

theorem grows_createExitTramp : e.Grows (e.createExitTramp pc) := by
  unfold Emitter.createExitTramp
  split
  · exact .refl e
  · exact ⟨fun _ h => h, fun _ h => h, List.subset_cons_self _ _, fun _ h => h, rfl, id⟩

theorem grows_emitBranch (cond : Bool) (bf ibf : Cond) : e.Grows (emitBranch e d cond bf ibf).emitter := by
  unfold emitBranch
  dsimp only
  split
  · exact .refl e
  · split
    · exact grows_leaveFor.with _ _
    · split
      · exact grows_leaveFor.with _ _
      · split
        · exact grows_leaveFor.with _ _
        · exact grows_leaveFor.with _ _

theorem labels_emitBranch (cond : Bool) (bf ibf : Cond) : (emitBranch e d cond bf ibf).emitter.labels = e.labels := by
  unfold emitBranch
  dsimp only
  split
  · rfl
  · split
    · exact labels_leaveFor e _
    · split
      · exact labels_leaveFor e _
      · split
        · exact labels_leaveFor e _
        · exact labels_leaveFor e _

/-- The code for an instruction gets no label. -/
structure Emitter.Emits (e e' : Emitter) : Prop extends e.Grows e' where
  same : e'.labels = e.labels

theorem emits_emitJump {x : Nat → BitVec 64} {em : EmittedJump} (h : emitJump e d x = some em) : e.Emits em.emitter := by
  have hbranch (cond : Bool) (bf ibf : Cond) : e.Emits (emitBranch e d cond bf ibf).emitter :=
    ⟨grows_emitBranch cond bf ibf, labels_emitBranch cond bf ibf⟩
  unfold emitJump at h
  split at h
  · cases h
    unfold emitJal
    dsimp only
    split
    · exact ⟨(Emitter.Grows.refl e).with _ _, rfl⟩
    · exact ⟨(Emitter.Grows.refl e).with _ _, rfl⟩
  · cases h
    have hindirect : e.Emits (emitIndirect e d).emitter := ⟨(Emitter.Grows.refl e).with _ _, rfl⟩
    unfold emitJalr
    split
    · split
      · refine ⟨grows_createExitTramp.with _ _, ?_⟩
        unfold emitReturn Emitter.createExitTramp
        dsimp only
        split <;> rfl
      · exact hindirect
    · exact hindirect
  all_goals cases h
  · exact hbranch ..
  · exact hbranch ..
  · exact hbranch ..
  · exact hbranch ..
  · exact hbranch ..
  · exact hbranch ..
  · exact ⟨(Emitter.Grows.refl e).with _ _, rfl⟩

theorem emits_emitCase {ireg : Nat → BitVec 64} {em : EmittedInst} (h : emitCase e d ireg = some em) : e.Emits em.emitter := by
  have hgoOn (code : TraceCode) : e.Emits (e.goOn d code).emitter := ⟨(Emitter.Grows.refl e).with _ _, rfl⟩
  cases caseOf_emitCase h with
  | lui _ => exact hgoOn _
  | auipc _ => exact hgoOn _
  | alu _ _ => exact hgoOn _
  | access _ _ => exact hgoOn _
  | la _ => exact ⟨(Emitter.Grows.refl e).with _ _, rfl⟩
  | jump hem => exact emits_emitJump hem

/-- A jump that leaves the code for an instruction goes where it would have gone then. -/
theorem arrive_grows {patched : BitVec 64 → Bool} {next : Option (BitVec 64)} {l : Label} {s : HostState} {a : Arrival}
    (hgrows : e.Grows e') (hstubs : e.Stubs) (h : arrive e patched next (.left l s) = some a) :
    arrive e' patched none (.left l s) = some a := by
  cases l with
  | inst pc =>
    obtain ⟨hin, heq⟩ := Option.ite_none_right_eq_some.mp h
    exact (if_pos (hgrows.labels hin)).trans heq
  | trace pc =>
    obtain ⟨hslow, heq⟩ := Option.ite_none_right_eq_some.mp h
    exact (if_pos (hgrows.lookup ▸ hslow)).trans heq
  | jmpTramp pc =>
    unfold arrive at h ⊢
    dsimp only at h ⊢
    by_cases hpatched : patched pc = true
    · split at h
      · next hfixup =>
        rw [if_pos ⟨hgrows.fixups hfixup.1, hfixup.2⟩]
        exact h
      · next hfixup =>
        -- each stub has a jump to it
        obtain ⟨hin, -⟩ := Option.ite_none_right_eq_some.mp h
        exact absurd ⟨hstubs pc hin, hpatched⟩ hfixup
    · rw [if_neg fun hfixup => hpatched hfixup.2] at h ⊢
      obtain ⟨hin, heq⟩ := Option.ite_none_right_eq_some.mp h
      rw [if_pos (hgrows.jmpTramp hin)]
      exact heq
  | exitTramp pc =>
    obtain ⟨hin, heq⟩ := Option.ite_none_right_eq_some.mp h
    exact (if_pos (hgrows.exitTramp hin)).trans heq
  | lookupTraceFast => exact h
  | div1 => cases h
  | div2 => cases h
  | umul => cases h
  | out => cases h

end Grows

/-! ## The code of a trace -/

/-- The cases of `emitTrace`. -/
inductive TraceOf : Emitter → List Handover → Trace → Prop
  | nil (e : Emitter) : TraceOf e [] { emitter := e }
  | known {e : Emitter} {h : Handover} {hs : List Handover} : h.d.pc ∈ e.labels → TraceOf e (h :: hs) { emitter := e }
  | untaken {e : Emitter} {h : Handover} {hs : List Handover} : h.d.pc ∉ e.labels →
      TraceOf e (h :: hs) { tail := [.code [.bind (.inst h.d.pc)]], emitter := e.addLabel h.d.pc }
  | placed {e : Emitter} {h : Handover} {hs hs' : List Handover} {em : EmittedInst} {t : Trace} : h.d.pc ∉ e.labels →
      emitCase (e.addLabel h.d.pc) h.d h.ireg = some em → hs' = hs ∨ hs' = [] → TraceOf em.emitter hs' t →
      TraceOf e (h :: hs) { t with placed := ⟨e.addLabel h.d.pc, h, em, !t.placed.isEmpty⟩ :: t.placed }

theorem traceOf_emitTrace (e : Emitter) (hs : List Handover) : TraceOf e hs (emitTrace e hs) := by
  induction hs generalizing e with
  | nil => exact .nil e
  | cons h hs ih =>
    show TraceOf e (h :: hs) (if h.d.pc ∈ e.labels then _ else _)
    split
    · next hin => exact .known hin
    · next hin =>
      split
      · exact .untaken hin
      · next em hem =>
        dsimp only
        split
        · exact .placed hin hem (.inl rfl) (ih _)
        · exact .placed hin hem (.inr rfl) (.nil _)

section Traces
variable {e : Emitter} {hs : List Handover} {t : Trace}

theorem TraceOf.grows (h : TraceOf e hs t) : e.Grows t.emitter := by
  induction h with
  | nil e => exact .refl e
  | known _ => exact .refl _
  | untaken _ => exact grows_addLabel
  | placed _ hcase _ _ ih => exact grows_addLabel.trans ((emits_emitCase hcase).toGrows.trans ih)

/-- The code binds the labels of its instructions, none of which the emitter had. -/
theorem TraceOf.binds (h : TraceOf e hs t) :
    ∀ q ∈ t.code, ∀ l, q.Binds l → l.within = true ∨ ∃ pc, l = .inst pc ∧ pc ∉ e.labels := by
  have hend (e' : Emitter) : ∀ q ∈ ([.code e'.emitEnd] : TraceCode), ∀ l, q.Binds l → l.within = true := by
    refine piecesWithin_code ?_
    unfold Emitter.emitEnd
    split
    · exact within_emitPc _
    · exact within_nil
  induction h with
  | nil e => exact fun q hq l hl => .inl (hend _ q hq l hl)
  | known _ => exact fun q hq l hl => .inl (hend _ q hq l hl)
  | untaken hpc =>
    intro q hq l hl
    rcases List.mem_cons.mp hq with rfl | hq
    · cases List.mem_singleton.mp hl
      exact .inr ⟨_, rfl, hpc⟩
    · exact .inl (hend _ q hq l hl)
  | placed hpc hcase _ _ ih =>
    intro q hq l hl
    unfold Trace.code at hq
    rw [List.flatMap_cons, List.append_assoc] at hq
    rcases List.mem_append.mp hq with hq | hq
    · rcases List.mem_cons.mp hq with rfl | hq
      · cases List.mem_singleton.mp hl
        exact .inr ⟨_, rfl, hpc⟩
      · exact .inl (piecesWithin_emitCase _ hcase q hq l hl)
    · rcases ih q hq l hl with hwithin | ⟨pc, rfl, hnot⟩
      · exact .inl hwithin
      · rw [(emits_emitCase hcase).same] at hnot
        exact .inr ⟨pc, rfl, fun hin => hnot (List.mem_cons_of_mem _ hin)⟩

/-- A trace without an instruction stores the pc that the emitter has come to. -/
theorem TraceOf.exec_unplaced {M : Type} {mem : DataMemory M} {s : HostState} {m : M} (h : TraceOf e hs t) (hplaced : t.placed = []) :
    execPieces mem t.code none s m = withMemory m (exec e.emitEnd none s) := by
  cases h with
  | nil => exact execPieces_code_eq ..
  | known _ => exact execPieces_code_eq ..
  | untaken _ => exact execPieces_code_eq ..
  | placed _ _ _ _ => cases hplaced

/-- What is placed first was handed over first, and is where the code begins. -/
theorem TraceOf.first {p : Placed} (h : TraceOf e hs t) (hp : t.placed.head? = some p) :
    hs.head? = some p.handed ∧ ∃ ps, t.code = .code [.bind (.inst p.pc)] :: ps := by
  cases h with
  | nil => cases hp
  | known _ => cases hp
  | untaken _ => cases hp
  | placed _ _ _ _ =>
    cases hp
    exact ⟨rfl, _, rfl⟩

theorem TraceOf.fresh {p : Placed} (h : TraceOf e hs t) (hp : p ∈ t.placed) : p.pc ∉ e.labels := by
  induction h with
  | nil => cases hp
  | known _ => cases hp
  | untaken _ => cases hp
  | placed hpc hcase _ _ ih =>
    rcases List.mem_cons.mp hp with rfl | hp
    · exact hpc
    · intro hin
      refine ih hp ?_
      rw [(emits_emitCase hcase).same]
      exact List.mem_cons_of_mem _ hin

end Traces

/-! ## A pass -/

/-- Where the guest is when a trace is left, and its memory. -/
def Emitter.exit {M : Type} (e : Emitter) (patched : BitVec 64 → Bool) : PiecesOutcome Slot Label M → Option (Arrival × M)
  | .done s mem => some ({ pc := pcSlot s, state := s }, mem)
  | .left l s mem => (arrive e patched none (.left l s)).map fun a => (a, mem)
  | _ => none

section Passes
variable {σ : Type} (px : Emu.ProxyHost .rv64 σ) (host : Emu.Host) (isa : Emu.Isa) (patched : BitVec 64 → Bool)

/-- The trace is left where the interpreter gets to, or stopped by a signal as the interpreter is. -/
def Passes (e : Emitter) (m : Emu.Proxied .rv64 σ) (o : PiecesOutcome Slot Label σ) : Prop :=
  (∃ a mem, e.exit patched o = some (a, mem) ∧ Executes px host isa m a.pc (guest a.state) mem) ∨
    ∃ s m', o = .signal s m'.mem ∧ Ran px host isa m m' ∧ Signals px host isa m'

variable {px host isa patched} {m m' : Emu.Proxied .rv64 σ}

theorem Passes.of_ran {e : Emitter} {o : PiecesOutcome Slot Label σ} (hran : Ran px host isa m m')
    (h : Passes px host isa patched e m' o) : Passes px host isa patched e m o := by
  rcases h with ⟨a, mem, hexit, m2, hran2, hm2⟩ | ⟨s, m2, ho, hran2, hsig⟩
  · exact .inl ⟨a, mem, hexit, m2, hran.trans hran2, hm2⟩
  · exact .inr ⟨s, m2, ho, hran.trans hran2, hsig⟩

/-- What is handed over for instructions of the program. -/
structure Handover.Sound (h : Handover) : Prop where
  fuses : Fuses h.insts h.d
  decoded : ∀ i ∈ h.insts, ∃ op, i.op = .rv op
  traced : Traced h.insts

section Placed
variable {e : Emitter} {hand : Handover} {hs : List Handover} {em : EmittedInst} {t : Trace} {s : HostState}

/-- What a jump out of the code for an instruction is to is not bound behind it. -/
theorem TraceOf.skips {l : Label} {next : Option (BitVec 64)} {a : Arrival} {mem : σ} (h : TraceOf e hs t)
    (harrive : arrive e patched next (.left l s) = some a) :
    execPieces (dataMemory px) t.code (some l) s mem = .left l s mem := by
  refine execPieces_skip fun q hq hl => ?_
  rcases h.binds q hq l hl with hwithin | ⟨pc, rfl, hnot⟩
  · have hout : l.within = false := by cases l <;> first | rfl | cases harrive
    rw [hout] at hwithin
    cases hwithin
  · exact hnot (Option.ite_none_right_eq_some.mp harrive).1

/-- Behind the code for an instruction comes the next one, or the end of the trace. -/
theorem passes_of_simulates {p : Placed} (htrace : TraceOf p.emitted.emitter hs t) (hstubs : p.emitted.emitter.Stubs)
    (hgoes : p.goesOn = !t.placed.isEmpty) (hfirst : ∀ q, t.placed.head? = some q → q.pc = p.handed.afterPc)
    (h0 : regs m'.hart 0 = 0#64) (hsim : p.Simulates px host isa patched s m')
    (hrest : ∀ q ∈ t.placed, ∀ s1 m1, Ran px host isa m' m1 → m1.hart.pc = q.pc → regs m1.hart 0 = 0#64 →
      guest s1 = regs m1.hart → Passes px host isa patched t.emitter m1 (execPieces (dataMemory px) t.code (some (.inst q.pc)) s1 m1.mem)) :
    Passes px host isa patched t.emitter m' (execPieces (dataMemory px) (p.emitted.code ++ t.code) none s m'.mem) := by
  rw [execPieces_append]
  rcases hsim with ⟨o, a, mem, hexec, harrive, hexecutes⟩ | ⟨s', hexec, hsig⟩
  · rw [hexec]
    cases o with
    | done s1 =>
      show Passes px host isa patched t.emitter m' (execPieces (dataMemory px) t.code none s1 mem)
      cases hplaced : t.placed with
      | nil =>
        have hnext : p.next = none := by
          unfold Placed.next
          rw [hgoes, hplaced]
          rfl
        rw [hnext] at harrive
        rw [htrace.exec_unplaced hplaced]
        have hend : arriveBy p.emitted.emitter.emitEnd false s1 = some a := harrive
        unfold arriveBy at hend
        split at hend
        · next s2 hdone =>
          cases hend
          rw [hdone]
          exact .inl ⟨_, mem, rfl, hexecutes⟩
        · cases hend
      | cons q qs =>
        have hnext : p.next = some p.handed.afterPc := by
          unfold Placed.next
          rw [hgoes, hplaced]
          rfl
        rw [hnext] at harrive
        obtain rfl := Option.some.inj harrive
        obtain ⟨m1, hran, hpc1, hx1, hmem1⟩ := hexecutes
        have hq : t.placed.head? = some q := by rw [hplaced]; rfl
        obtain ⟨-, ps, hcode⟩ := htrace.first hq
        have hin : q ∈ t.placed := List.mem_of_mem_head? hq
        have hpass := hrest q hin s1 m1 hran (hpc1.trans (hfirst q hq).symm) (hran.zero h0) hx1.symm
        rw [hcode] at hpass ⊢
        rw [execPieces_bind_skip, ← execPieces_bind (.inst q.pc), hmem1] at hpass
        exact hpass.of_ran hran
    | left l s1 =>
      show Passes px host isa patched t.emitter m' (execPieces (dataMemory px) t.code (some l) s1 mem)
      rw [htrace.skips harrive]
      refine .inl ⟨a, mem, ?_, hexecutes⟩
      show (arrive t.emitter patched none (.left l s1)).map _ = _
      rw [arrive_grows htrace.grows hstubs harrive]
      rfl
    | fault => cases harrive
  · rw [hexec]
    exact .inr ⟨s', m', rfl, .refl m', hsig⟩

end Placed

/-- From the label of any of its instructions, a trace does what the interpreter does. -/
theorem TraceOf.passes {e : Emitter} {hs : List Handover} {t : Trace} (h : TraceOf e hs t) (hstubs : e.Stubs)
    (hhost : MasksShifts host) (hm : isa.ext .m = true) (hrec : Recorded hs) (hsound : ∀ h ∈ hs, h.Sound)
    (hright : ∀ p ∈ t.placed, ∀ m', Ran px host isa m m' → m'.hart.pc = p.pc → p.Right px host isa patched m') :
    ∀ p ∈ t.placed, ∀ s m', Ran px host isa m m' → m'.hart.pc = p.pc → regs m'.hart 0 = 0#64 → guest s = regs m'.hart →
      Passes px host isa patched t.emitter m' (execPieces (dataMemory px) t.code (some (.inst p.pc)) s m'.mem) := by
  induction h with
  | nil => exact fun p hp => absurd hp List.not_mem_nil
  | known _ => exact fun p hp => absurd hp List.not_mem_nil
  | untaken _ => exact fun p hp => absurd hp List.not_mem_nil
  | @placed e hand hs hs' em t hpc hcase hhs htrace ih =>
    have hemits := emits_emitCase hcase
    have hstubs' : em.emitter.Stubs := hemits.stubs hstubs
    have hrec' : Recorded hs' := by
      rcases hhs with rfl | rfl
      · exact hrec.tail
      · exact .nil
    have hsound' : ∀ h ∈ hs', h.Sound := by
      rcases hhs with rfl | rfl
      · exact fun h hin => hsound h (List.mem_cons_of_mem _ hin)
      · exact fun h hin => absurd hin List.not_mem_nil
    have hrest := ih hstubs' hrec' hsound' fun q hq => hright q (List.mem_cons_of_mem _ hq)
    set p0 : Placed := ⟨e.addLabel hand.d.pc, hand, em, !t.placed.isEmpty⟩ with hp0
    have hcode : Trace.code { t with placed := p0 :: t.placed } = p0.code ++ t.code := by
      unfold Trace.code
      rw [List.flatMap_cons, List.append_assoc]
    intro p hp s m' hran hpc' h0 hs'
    rw [hcode]
    rcases List.mem_cons.mp hp with rfl | hp
    · have hsim : p0.Simulates px host isa patched s m' := by
        obtain ⟨hfuses, hdecoded, htraced⟩ := hsound hand List.mem_cons_self
        exact simulates hhost isa.ext_i hm hfuses hdecoded htraced hcase (hright _ List.mem_cons_self m' hran hpc') hpc' h0 hs'
      have hfirst : ∀ q, t.placed.head? = some q → q.pc = p0.handed.afterPc := by
        intro q hq
        obtain ⟨hhead, -⟩ := htrace.first hq
        rcases hhs with rfl | rfl
        · exact ((List.isChain_cons.mp hrec).1 q.handed hhead)
        · cases hhead
      have hbody := passes_of_simulates htrace hstubs' rfl hfirst h0 hsim fun q hq s1 m1 hran1 => hrest q hq s1 m1 (hran.trans hran1)
      show Passes px host isa patched t.emitter m' (execPieces _ (.code [.bind (.inst p0.pc)] :: (em.code ++ t.code)) _ s m'.mem)
      rw [execPieces_bind_skip]
      exact hbody
    · have hskip : execPieces (dataMemory px) p0.code (some (.inst p.pc)) s m'.mem = .left (.inst p.pc) s m'.mem := by
        refine execPieces_skip fun q hq hl => ?_
        rcases List.mem_cons.mp hq with rfl | hq
        · have hsame := Label.inst.inj (Ins.bind.inj (List.mem_singleton.mp hl))
          exact htrace.fresh hp (hemits.same ▸ hsame ▸ List.mem_cons_self)
        · cases piecesWithin_emitCase _ hcase q hq _ hl
      rw [execPieces_append, hskip]
      exact hrest p hp s m' hran hpc' h0 hs'

end Passes

/-! ## Runs of translated code -/

/-- A trace and the jumps of it that have been fixed up. -/
structure Translation where
  handed : List Handover
  lookupTraceSlow : BitVec 64 → Bool := fun _ => false
  patched : BitVec 64 → Bool := fun _ => false
  recorded : Recorded handed
  sound : ∀ h ∈ handed, h.Sound

def Translation.trace (c : Translation) : Trace := emitTrace { lookupTraceSlow := c.lookupTraceSlow } c.handed

structure Running (σ : Type) where
  pc : BitVec 64
  state : HostState
  mem : σ

section Runs
variable {σ : Type} (px : Emu.ProxyHost .rv64 σ) (host : Emu.Host) (isa : Emu.Isa)

/-- What the code of `c` comes to from the label of `p`. -/
def Translation.enter (c : Translation) (p : Placed) (s : HostState) (mem : σ) : PiecesOutcome Slot Label σ :=
  execPieces (dataMemory px) c.trace.code (some (.inst p.pc)) s mem

/-- From where one trace is left, another is entered or the same one again, with the registers of the guest. What is between
them may leave anything in the other places of the host. -/
inductive Turn (cs : Set Translation) : Running σ → Running σ → Prop
  | enter {c : Translation} {p : Placed} {r : Running σ} {s : HostState} {a : Arrival} {mem : σ} : c ∈ cs → p ∈ c.trace.placed →
      p.pc = r.pc → guest s = guest r.state → c.trace.emitter.exit c.patched (c.enter px p s r.mem) = some (a, mem) →
      Turn cs r ⟨a.pc, a.state, mem⟩

/-- The instructions of the traces are right wherever the interpreter gets to from `m`. -/
def RightFrom (cs : Set Translation) (m : Emu.Proxied .rv64 σ) : Prop :=
  ∀ c ∈ cs, ∀ p ∈ c.trace.placed, ∀ m', Ran px host isa m m' → m'.hart.pc = p.pc → p.Right px host isa c.patched m'

variable {px host isa} {cs : Set Translation} {m m' : Emu.Proxied .rv64 σ}

theorem Translation.passes (hhost : MasksShifts host) (hm : isa.ext .m = true)
    (hright : RightFrom px host isa cs m) {c : Translation} (hc : c ∈ cs) {p : Placed} (hp : p ∈ c.trace.placed) {s : HostState}
    (hran : Ran px host isa m m') (hpc : m'.hart.pc = p.pc) (h0 : regs m'.hart 0 = 0#64) (hs : guest s = regs m'.hart) :
    Passes px host isa c.patched c.trace.emitter m' (c.enter px p s m'.mem) := by
  have hstubs : Emitter.Stubs { lookupTraceSlow := c.lookupTraceSlow } := fun _ h => absurd h List.not_mem_nil
  exact (traceOf_emitTrace _ _).passes hstubs hhost hm c.recorded c.sound (hright c hc) p hp s m' hran hpc h0 hs

/-- The registers and the memory are those of the interpreter where it has the same pc. -/
theorem executes_of_turns (hhost : MasksShifts host) (hm : isa.ext .m = true)
    (hright : RightFrom px host isa cs m) (h0 : regs m.hart 0 = 0#64) {s : HostState} (hs : guest s = regs m.hart) {r : Running σ}
    (hrun : Relation.ReflTransGen (Turn px cs) ⟨m.hart.pc, s, m.mem⟩ r) :
    Executes px host isa m r.pc (guest r.state) r.mem := by
  induction hrun with
  | refl => exact ⟨m, .refl m, rfl, hs.symm, rfl⟩
  | tail _ hturn ih =>
    obtain ⟨m1, hran, hpc1, hx1, hmem1⟩ := ih
    cases hturn with
    | @enter c p r s1 a mem hc hp hpc hs1 hexit =>
      have hpass := Translation.passes hhost hm hright hc hp hran (hpc1.trans hpc.symm) (hran.zero h0) (hs1.trans hx1.symm)
      rw [hmem1] at hpass
      rcases hpass with ⟨a', mem', hexit', m2, hran2, hm2⟩ | ⟨s2, m2, hsignal, -, -⟩
      · cases hexit.symm.trans hexit'
        exact ⟨m2, hran.trans hran2, hm2⟩
      · rw [hsignal] at hexit
        cases hexit

end Runs

/-! ### A loop -/

def incrementA0 : JitDecode := { pc := 0x1000, inst := 0x150513, imm := 1, op := .rv .addi, rd := 10, rs1 := 10 }

def jumpBack : JitDecode := { pc := 0x1004, inst := 0xffdff06f, imm := -4, op := .rv .jal }

def loopMemory : Emu.ProxyHost .rv64 Unit where
  load _ addr _ := if addr = 0x1000 then some 0x150513 else if addr = 0x1004 then some 0xffdff06f else none
  store _ _ _ _ := none
  syscall _ _ := none

theorem holds_incrementA0 : Holds loopMemory .imafdc () incrementA0 where
  fetch _ := rfl
  decode := ⟨.addi, rfl, .i, by decide +kernel⟩

theorem holds_jumpBack : Holds loopMemory .imafdc () jumpBack where
  fetch _ := rfl
  decode := ⟨.jal, rfl, .uj, by decide +kernel⟩

theorem traced_alone {d : JitDecode} (hlen : d.length ≤ 4) (hop : d.op ≠ .rv .auipc) : Traced [d] where
  follows pre a d' post h := by
    have hlen := congrArg List.length h
    simp only [List.length_append, List.length_cons, List.length_nil] at hlen
    omega
  length := List.forall_mem_singleton.mpr hlen
  auipc := List.forall_mem_singleton.mpr fun h => absurd h hop

theorem sound_alone {d : JitDecode} {ireg : Nat → BitVec 64} (op : RvOp) (hop : d.op = .rv op) (hlen : d.length ≤ 4)
    (hauipc : d.op ≠ .rv .auipc) : Handover.Sound ⟨[d], d, ireg⟩ where
  fuses := .plain d
  decoded := List.forall_mem_singleton.mpr ⟨op, hop⟩
  traced := traced_alone hlen hauipc

def loopTranslation : Translation where
  handed := [⟨[incrementA0], incrementA0, fun _ => 0⟩, ⟨[jumpBack], jumpBack, fun _ => 0⟩]
  recorded := List.isChain_cons_cons.mpr ⟨rfl, List.isChain_singleton _⟩
  sound := by
    intro h hin
    simp only [List.mem_cons, List.not_mem_nil, or_false] at hin
    rcases hin with rfl | rfl
    · exact sound_alone .addi rfl (by decide) (by decide)
    · exact sound_alone .jal rfl (by decide) (by decide)

def placedIncrement : Placed where
  emitter := { labels := [0x1000] }
  handed := ⟨[incrementA0], incrementA0, fun _ => 0⟩
  emitted := Emitter.goOn { labels := [0x1000] } incrementA0 [.code (emitAddi incrementA0)]
  goesOn := true

def placedJump : Placed where
  emitter := { labels := [0x1004, 0x1000], termPc := 0x1004 }
  handed := ⟨[jumpBack], jumpBack, fun _ => 0⟩
  emitted := { code := [.code []], emitter := { labels := [0x1004, 0x1000], termPc := 0x1000 } }
  goesOn := false

theorem placed_loopTranslation : loopTranslation.trace.placed = [placedIncrement, placedJump] := rfl

theorem rightFrom_loop (m : Emu.Proxied .rv64 Unit) : RightFrom loopMemory maskingHost .imafdc {loopTranslation} m := by
  intro c hc p hp m' _ _
  obtain rfl := Set.mem_singleton_iff.mp hc
  rw [placed_loopTranslation] at hp
  rcases List.mem_cons.mp hp with rfl | hp
  · exact {
      holds := List.forall_mem_singleton.mpr holds_incrementA0
      plain := by
        intro op hop
        cases hop
        exact {
          alu := .inr trivial
          auipc := by decide
          load := fun n signed va h => by cases h
          jump := fun h => by cases h
          next := fun _ => .inl rfl }
      la := fun a j h => by cases h
      call := fun a j h => by cases h }
  · obtain rfl := List.mem_singleton.mp hp
    exact {
      holds := List.forall_mem_singleton.mpr holds_jumpBack
      plain := by
        intro op hop
        cases hop
        exact {
          alu := .inl rfl
          auipc := by decide
          load := fun n signed va h => by cases h
          jump := fun _ old => .inr rfl
          next := fun h => by cases h }
      la := fun a j h => by cases h
      call := fun a j h => by cases h }

def loopStart : Emu.Proxied .rv64 Unit :=
  ⟨{ (default : Emu.Hart .rv64) with pc := (0x1000 : BitVec 64), ireg := fun _ => (0 : BitVec 64) }, ()⟩

/-- Once around the loop. -/
theorem turn_loop :
    ∃ s, Turn loopMemory {loopTranslation} ⟨0x1000, hostOf fun _ => 0, ()⟩ ⟨0x1000, s, ()⟩ ∧ guest s 10 = 1 := by
  have hexit : (loopTranslation.trace.emitter.exit loopTranslation.patched
      (loopTranslation.enter loopMemory placedIncrement (hostOf fun _ => 0) ())).map (fun a => (a.1.pc, guest a.1.state 10)) =
      some (0x1000, 1) := by decide +kernel
  obtain ⟨⟨a, mem⟩, hexit, hval⟩ := Option.map_eq_some_iff.mp hexit
  obtain ⟨hpc, hreg⟩ := Prod.mk.inj hval
  have hplaced : placedIncrement ∈ loopTranslation.trace.placed := placed_loopTranslation ▸ List.mem_cons_self
  refine ⟨a.state, ?_, hreg⟩
  have hturn : Turn loopMemory {loopTranslation} ⟨0x1000, hostOf fun _ => 0, ()⟩ ⟨a.pc, a.state, mem⟩ :=
    .enter (Set.mem_singleton _) hplaced rfl rfl hexit
  rwa [hpc] at hturn

end Rv8.Jit
