import Rv8.Emu.Csr
import Rv8.Emu.Interp
/-!
# What instructions leave alone

`exec_inst` is a template over the processor, of which it uses the registers and the
accesses to memory. It assigns `rd`, the floating-point registers and environment and
the reservation, and so keeps whatever is said of the rest of a hart. `inst_priv`
assigns `mstatus` on a return, and the one register that a CSR stands for.
-/

namespace Rv8.Emu

open Rv8.Lib Rv8.Asm Prog

variable {R : Rv}

/-! ## The interpreter over any processor -/

/-- What `exec_inst` uses of its template parameter `P`. -/
structure Bus (R : Rv) (ε τ : Type) where
  hart : τ → Hart R
  setHart : τ → Hart R → τ
  load : Nat → BitVec R.xlen → Prog ε τ Nat
  store : Nat → BitVec R.xlen → Nat → Prog ε τ Unit
  amo : Nat → AmoOp → BitVec R.xlen → Nat → Prog ε τ Nat
  fstore : (fmt : FpFmt) → BitVec R.xlen → BitVec fmt.width → Prog ε τ Unit

section RunOn
variable {ε τ : Type} (bus : Bus R ε τ)

def Bus.modifyHart (f : Hart R → Hart R) : Prog ε τ Unit := .modify fun s => bus.setHart s (f (bus.hart s))

def Action.runOn (dec : Decode) (pcOffset : BitVec R.xlen) : Action R → Prog ε τ (BitVec R.xlen)
  | .setRd v => do
    bus.modifyHart fun s => s.writeRd dec.rd v
    pure pcOffset
  | .jump offset => do
    bus.modifyHart fun s => s.writeRd dec.rd (s.pc + pcOffset)
    pure offset
  | .branch taken => pure (if taken then BitVec.ofInt R.xlen dec.imm else pcOffset)
  | .load n signed va => do
    let t ← bus.load n va
    bus.modifyHart fun s => s.writeRd dec.rd (extend R n signed t)
    pure pcOffset
  | .store n va val => do
    bus.store n va val
    pure pcOffset
  | .lr n va => do
    bus.modifyHart fun s => { s with lr := va }
    let t ← bus.load n va
    bus.modifyHart fun s => s.writeRd dec.rd (extend R n true t)
    pure pcOffset
  | .sc n va val => do
    let s ← .get
    if (bus.hart s).lr ≠ va then do
      bus.modifyHart fun s => s.writeRd dec.rd 1
      pure pcOffset
    else do
      bus.store n va val
      bus.modifyHart fun s => s.writeRd dec.rd 0
      pure pcOffset
  | .amo n aop va val2 => do
    let t1 ← bus.amo n aop va val2
    bus.modifyHart fun s => s.writeRd dec.rd (extend R n true t1)
    pure pcOffset
  | .fload fmt va => do
    let t ← bus.load (fmt.width / 8) va
    bus.modifyHart fun s => s.writeFrd fmt dec.rd (BitVec.ofNat fmt.width t)
    pure pcOffset
  | .fstore fmt va val => do
    bus.fstore fmt va val
    pure pcOffset
  | .setFrd fmt setrm v => do
    bus.modifyHart fun s => if setrm then s.fenvSetrm else s
    bus.modifyHart fun s => (s.runFp v).2.writeFrd fmt dec.rd (s.runFp v).1
    pure pcOffset
  | .fpSetRd setrm v => do
    bus.modifyHart fun s => if setrm then s.fenvSetrm else s
    bus.modifyHart fun s => if dec.rd = 0 then s.writeRd dec.rd 0 else (s.runFp v).2.writeRd dec.rd (s.runFp v).1
    pure pcOffset

def execInstOn (host : Host) (rv : Ext → Bool) (dec : Decode) (pcOffset : BitVec R.xlen) : Prog ε τ (BitVec R.xlen) := do
  let s ← .get
  match action host (bus.hart s) dec dec.op with
  | none => pure Machine.illegal
  | some (ext, a) => if rv ext then a.runOn bus dec pcOffset else pure pcOffset

end RunOn

def Machine.bus {σ : Type} (port : Port σ) (host : Host) : Bus R MmuExit (Machine R σ) where
  hart s := s.hart
  setHart s hart := { s with hart }
  load := Machine.load port host
  store := Machine.store port
  amo := Machine.amo port host
  fstore := Machine.fstore port host

/-- The interpreter of the processors with an MMU of their own. -/
theorem Action.run_eq_runOn {σ : Type} (port : Port σ) (host : Host) (dec : Decode) (pcOffset : BitVec R.xlen) (a : Action R) :
    a.run port host dec pcOffset = a.runOn (Machine.bus port host) dec pcOffset := by
  cases a <;> rfl

/-! ## Frames -/

/-- The property does not depend on what the interpreter assigns, the reservation apart. -/
structure Hart.Spared (I : Hart R → Prop) : Prop where
  writeRd : ∀ {s : Hart R}, I s → ∀ rd v, I (s.writeRd rd v)
  writeFrd : ∀ {s : Hart R}, I s → ∀ fmt rd v, I (s.writeFrd fmt rd v)
  fenv : ∀ {s : Hart R}, I s → ∀ fenv fcsr, I { s with fenv := fenv, csrs.fcsr := fcsr }

/-- The same of an instruction with `rd` as its register. -/
structure Hart.SparedAt (rd : Nat) (I : Hart R → Prop) : Prop where
  writeRd : ∀ {s : Hart R}, I s → ∀ v, I (s.writeRd rd v)
  writeFrd : ∀ {s : Hart R}, I s → ∀ fmt rd v, I (s.writeFrd fmt rd v)
  fenv : ∀ {s : Hart R}, I s → ∀ fenv fcsr, I { s with fenv := fenv, csrs.fcsr := fcsr }

theorem Hart.Spared.at {I : Hart R → Prop} (hI : Spared I) (rd : Nat) : SparedAt rd I where
  writeRd hs v := hI.writeRd hs rd v
  writeFrd := hI.writeFrd
  fenv := hI.fenv

theorem Hart.fenvSetrm_eq (s : Hart R) : ∃ fenv, s.fenvSetrm = { s with fenv := fenv, csrs.fcsr := s.csrs.fcsr } := by
  unfold fenvSetrm Processor.fenvSetrm
  split <;> exact ⟨_, rfl⟩

theorem Hart.SparedAt.setrm {rd : Nat} {I : Hart R → Prop} (hI : SparedAt rd I) {s : Hart R} (hs : I s) (setrm : Bool) :
    I (if setrm then s.fenvSetrm else s) := by
  cases setrm with
  | false => exact hs
  | true =>
    obtain ⟨fenv, he⟩ := s.fenvSetrm_eq
    rw [if_pos rfl, he]
    exact hI.fenv hs _ _

section Keeps
variable {ε τ : Type} {bus : Bus R ε τ} {I : Hart R → Prop}

/-- The bus holds a hart, of which its accesses keep the property. -/
structure Bus.Frames (bus : Bus R ε τ) (I : Hart R → Prop) : Prop where
  hart_setHart : ∀ s hart, bus.hart (bus.setHart s hart) = hart
  load : ∀ n va, Keeps (fun s => I (bus.hart s)) (bus.load n va)
  store : ∀ n va val, Keeps (fun s => I (bus.hart s)) (bus.store n va val)
  amo : ∀ n aop va val2, Keeps (fun s => I (bus.hart s)) (bus.amo n aop va val2)
  fstore : ∀ fmt va val, Keeps (fun s => I (bus.hart s)) (bus.fstore fmt va val)

theorem Bus.Frames.modifyHart (hb : bus.Frames I) {f : Hart R → Hart R} (h : ∀ s, I s → I (f s)) :
    Keeps (fun s => I (bus.hart s)) (bus.modifyHart f) := by
  refine keeps_modify fun s hs => ?_
  rw [hb.hart_setHart]
  exact h _ hs

/-- One case for each action: it ends in an assignment that spares the property, or in none. -/
theorem Action.keeps_runOn {dec : Decode} (hI : Hart.SparedAt dec.rd I) (hb : bus.Frames I) (pcOffset : BitVec R.xlen) (a : Action R)
    (hlr : ∀ n va, a = .lr n va → ∀ s : Hart R, I s → I { s with lr := va }) :
    Keeps (fun s => I (bus.hart s)) (a.runOn bus dec pcOffset) := by
  have writes {f : Hart R → BitVec R.xlen} : Keeps (fun s => I (bus.hart s)) (bus.modifyHart fun s => s.writeRd dec.rd (f s)) :=
    hb.modifyHart fun s hs => hI.writeRd hs _
  cases a with
  | setRd v => exact keeps_bind writes fun _ => keeps_pure _
  | jump offset => exact keeps_bind writes fun _ => keeps_pure _
  | branch taken => exact keeps_pure _
  | load n signed va =>
    refine keeps_bind (hb.load n va) fun t => ?_
    exact keeps_bind writes fun _ => keeps_pure _
  | store n va val => exact keeps_bind (hb.store n va val) fun _ => keeps_pure _
  | lr n va =>
    refine keeps_bind (hb.modifyHart (hlr n va rfl)) fun _ => ?_
    refine keeps_bind (hb.load n va) fun t => ?_
    exact keeps_bind writes fun _ => keeps_pure _
  | sc n va val =>
    refine keeps_bind keeps_get fun s => ?_
    apply keeps_ite
    · exact keeps_bind writes fun _ => keeps_pure _
    · refine keeps_bind (hb.store n va val) fun _ => ?_
      exact keeps_bind writes fun _ => keeps_pure _
  | amo n aop va val2 =>
    refine keeps_bind (hb.amo n aop va val2) fun t1 => ?_
    exact keeps_bind writes fun _ => keeps_pure _
  | fload fmt va =>
    refine keeps_bind (hb.load _ va) fun t => ?_
    exact keeps_bind (hb.modifyHart fun s hs => hI.writeFrd hs _ _ _) fun _ => keeps_pure _
  | fstore fmt va val => exact keeps_bind (hb.fstore fmt va val) fun _ => keeps_pure _
  | setFrd fmt setrm v =>
    refine keeps_bind (hb.modifyHart fun s hs => hI.setrm hs setrm) fun _ => ?_
    refine keeps_bind (hb.modifyHart fun s hs => ?_) fun _ => keeps_pure _
    exact hI.writeFrd (hI.fenv hs _ _) _ _ _
  | fpSetRd setrm v =>
    refine keeps_bind (hb.modifyHart fun s hs => hI.setrm hs setrm) fun _ => ?_
    refine keeps_bind (hb.modifyHart fun s hs => ?_) fun _ => keeps_pure _
    split
    · exact hI.writeRd hs _
    · exact hI.writeRd (hI.fenv hs _ _) _

theorem keeps_execInstOn {dec : Decode} (hI : Hart.SparedAt dec.rd I) (hb : bus.Frames I)
    (hlr : ∀ va, ∀ s : Hart R, I s → I { s with lr := va }) (host : Host) (rv : Ext → Bool) (pcOffset : BitVec R.xlen) :
    Keeps (fun s => I (bus.hart s)) (execInstOn bus host rv dec pcOffset) := by
  refine keeps_bind keeps_get fun s => ?_
  split
  · exact keeps_pure _
  · next ext a _ =>
    refine keeps_ite (a.keeps_runOn hI hb pcOffset fun n va _ => hlr va) ?_
    exact keeps_pure _

end Keeps

section Defined
variable {ε τ : Type} {bus : Bus R ε τ}

/-- The accesses of the bus have a behaviour. -/
structure Bus.Defined (bus : Bus R ε τ) : Prop where
  load : ∀ n va, Prog.Defined (bus.load n va)
  store : ∀ n va val, Prog.Defined (bus.store n va val)
  amo : ∀ n aop va val2, Prog.Defined (bus.amo n aop va val2)
  fstore : ∀ fmt va val, Prog.Defined (bus.fstore fmt va val)

theorem Action.defined_runOn (hb : bus.Defined) (dec : Decode) (pcOffset : BitVec R.xlen) (a : Action R) :
    Prog.Defined (a.runOn bus dec pcOffset) := by
  have hpure : Prog.Defined (pure pcOffset : Prog ε τ _) := defined_pure _
  have hassign (f : Hart R → Hart R) : Prog.Defined (do
      bus.modifyHart f
      pure pcOffset : Prog ε τ _) := defined_bind (defined_modify _) fun _ => hpure
  cases a with
  | setRd v => exact hassign _
  | jump offset => exact defined_bind (defined_modify _) fun _ => defined_pure _
  | branch taken => exact defined_pure _
  | load n signed va => exact defined_bind (hb.load n va) fun t => hassign _
  | store n va val => exact defined_bind (hb.store n va val) fun _ => hpure
  | lr n va => exact defined_bind (defined_modify _) fun _ => defined_bind (hb.load n va) fun t => hassign _
  | sc n va val =>
    refine defined_bind defined_get fun s => defined_ite (hassign _) ?_
    exact defined_bind (hb.store n va val) fun _ => hassign _
  | amo n aop va val2 => exact defined_bind (hb.amo n aop va val2) fun t1 => hassign _
  | fload fmt va => exact defined_bind (hb.load _ va) fun t => hassign _
  | fstore fmt va val => exact defined_bind (hb.fstore fmt va val) fun _ => hpure
  | setFrd fmt setrm v => exact defined_bind (defined_modify _) fun _ => hassign _
  | fpSetRd setrm v => exact defined_bind (defined_modify _) fun _ => hassign _

theorem defined_execInstOn (hb : bus.Defined) (host : Host) (rv : Ext → Bool) (dec : Decode) (pcOffset : BitVec R.xlen) :
    Prog.Defined (execInstOn bus host rv dec pcOffset) := by
  refine defined_bind defined_get fun s => ?_
  split
  · exact defined_pure _
  · next ext a _ => exact defined_ite (a.defined_runOn hb dec pcOffset) (defined_pure _)

end Defined

section Machine
variable {σ : Type} (port : Port σ) (host : Host)

/-- Whatever becomes of the MMU, the hart is as it was. -/
theorem Machine.keeps_onMmu_hart {α : Type} (I : Hart R → Prop) (f : Processor R.xlen → MmuM σ α) :
    Keeps (fun s => I s.hart) (Machine.onMmu f) := by
  have hm : ∀ proc, Keeps (fun _ : Mmu σ => True) (f proc) := by
    intro proc s _
    cases f proc s <;> trivial
  refine keeps_bind keeps_get fun s => ?_
  exact keeps_zoom (hm _) (fun _ _ => trivial) fun _ _ hs _ => hs

theorem Machine.keeps_fstore_hart {rd : Nat} {I : Hart R → Prop} (hI : Hart.SparedAt rd I) (fmt : FpFmt) (va : BitVec R.xlen) (val : BitVec fmt.width) :
    Keeps (fun s => I s.hart) (Machine.fstore port host fmt va val) := by
  have hfp {α : Type} (m : FpM α) : Keeps (fun s : Machine R σ => I s.hart) (Machine.runFp m) := by
    intro s hs
    exact hI.fenv hs _ _
  refine keeps_bind (Machine.keeps_onMmu_hart I _) fun addr => ?_
  cases addr with
  | none => exact keeps_pure _
  | some mpa =>
    refine keeps_bind ?_ fun bits => Machine.keeps_onMmu_hart I _
    exact keeps_ite (keeps_pure _) (hfp _)

theorem Machine.bus_frames {rd : Nat} {I : Hart R → Prop} (hI : Hart.SparedAt rd I) : (Machine.bus port host).Frames I where
  hart_setHart _ _ := rfl
  load n va := Machine.keeps_onMmu_hart I fun proc => Emu.load port R proc n va.toNat (host.uninit % 2 ^ (8 * n))
  store n va val := Machine.keeps_onMmu_hart I fun proc => Emu.store port R proc n va.toNat val
  amo n aop va val2 := Machine.keeps_onMmu_hart I fun proc => Emu.amo port R proc n aop va.toNat (host.uninit % 2 ^ (8 * n)) val2
  fstore := Machine.keeps_fstore_hart port host hI

theorem keeps_execInst_of_spared {I : Hart R → Prop} {dec : Decode} (hI : Hart.SparedAt dec.rd I)
    (hlr : ∀ va, ∀ s : Hart R, I s → I { s with lr := va }) (rv : Ext → Bool) (pcOffset : BitVec R.xlen) :
    Keeps (fun s => I s.hart) (execInst port host rv dec pcOffset) := by
  refine keeps_bind keeps_get fun s => ?_
  split
  · exact keeps_pure _
  · next ext a _ =>
    rw [a.run_eq_runOn]
    exact keeps_ite (a.keeps_runOn hI (Machine.bus_frames port host hI) pcOffset fun n va _ => hlr va) (keeps_pure _)

end Machine

/-! ## CSRs -/

section Csrs
variable {α : Type}

/-- A case of the switch assigns the register of its window; those of `fcsr` and `time` assign these. -/
theorem Processor.get_instCsrCase {xlen : Nat} (g : Csrs xlen → α) (hfcsr : ∀ s v, g { s with fcsr := v } = g s)
    (htime : ∀ s v, g { s with time := v } = g s) (s : Processor xlen) (dec : Decode) (op : CsrOp) {csr : Nat} (h : csr < 2 ^ 12)
    (getTime : BitVec 64) (value : BitVec xlen) (c : RvCsr)
    (hw : ∀ w ∈ window c, g (w.reg.set s.csrs (w.written op value s.csrs)) = g s.csrs) :
    g (s.instCsrCase getTime dec op csr value c).csrs = g s.csrs := by
  have hset {s' : Processor xlen} {w : Window xlen} (hs : s.Writes op value w s')
      (hwin : ∀ w' ∈ some w, g (w'.reg.set s.csrs (w'.written op value s.csrs)) = g s.csrs) : g s'.csrs = g s.csrs := by
    rw [hs.1]
    exact hwin w rfl
  have hget {s' : Processor xlen} (hs : SameCsrs s s') : g s'.csrs = g s.csrs := by
    rw [hs.1]
  cases c
  case fflags =>
    have hs := s.fenvGetflags.writes_setCsr dec .U op csr value h Csrs.fcsrReg fflagsMask fflagsMask
    refine (congrArg g hs.1).trans ?_
    exact (hfcsr ..).trans (hfcsr ..)
  case frm =>
    have hs := s.writes_setCsrAt dec .U op csr value h Csrs.fcsrReg frmMask frmMask 5
    refine (congrArg g ((fenvSetrm_csrs _).trans hs.1)).trans ?_
    exact hfcsr ..
  case fcsr =>
    have hs := s.fenvGetflags.writes_setCsr dec .U op csr value h Csrs.fcsrReg fcsrMask fcsrMask
    refine (congrArg g (fenvSetrm_csrs _)).trans ((congrArg g hs.1).trans ?_)
    exact (hfcsr ..).trans (hfcsr ..)
  case time =>
    refine (congrArg g (sameCsrs_getCsr _ dec .U csr Csrs.timeReg).1).trans ?_
    exact htime ..
  case cycle | instret | mvendorid | marchid | mimpid | mhartid => exact hget (s.sameCsrs_getCsr ..)
  case cycleh | timeh | instreth => exact hget (s.sameCsrs_getCsrHi ..)
  case mcycleh | minstreth => exact hset (s.writes_setCsrHi (h := h) ..) hw
  -- all others go through `set_csr` without a shift
  all_goals exact hset (s.writes_setCsr (h := h) ..) hw

variable {σ : Type}

/-- Apart from CSR instructions, `inst_priv` assigns no CSR but `mstatus`. -/
theorem Machine.get_instPriv (g : Csrs R.xlen → α) (hmstatus : ∀ s v, g { s with mstatus := v } = g s) (getTime : BitVec 64)
    (s : Machine R σ) (dec : Decode) (pcOffset : BitVec R.xlen)
    (hcsr : ∀ p off, s.hart.toProcessor.instPrivCsr getTime dec (pcOffset.setWidth 64) = some (p, off) → g p.csrs = g s.hart.csrs) :
    g (s.instPriv getTime dec pcOffset).1.hart.csrs = g s.hart.csrs := by
  have hpriv (mode : RvMode) (r : Machine R σ × BitVec R.xlen) (hr : g r.1.hart.csrs = g s.hart.csrs) :
      g (s.privileged mode r).1.hart.csrs = g s.hart.csrs := by
    unfold privileged
    split
    · exact hr
    · rfl
  unfold instPriv
  split
  · next p off hp => exact hcsr p off hp
  · split
    · exact hpriv .S _ (hmstatus ..)
    · exact hpriv .M _ (hmstatus ..)
    · exact hpriv .S _ rfl
    · exact hpriv .S _ rfl
    all_goals rfl

end Csrs

end Rv8.Emu
