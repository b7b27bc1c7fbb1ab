import Rv8.Emu.Runloop
/-!
# Handlers and privilege

Which handler `trap` and `isr` enter, and what `sret` and `mret` undo. Neither
function looks at the current mode: a cause that is delegated enters the supervisor's
handler also from machine mode, and so does an interrupt that only the supervisor
enabled. `spp` has one bit, so such a trap is not undone by `sret`.
-/

namespace Rv8.Emu

open Rv8.Lib Rv8.Asm

variable {R : Rv}

/-! ## Fields of `mstatus` -/

theorem StatusField.disjoint {f g : StatusField} (h : f ≠ g) : f.bits.Disjoint g.bits := by
  cases f <;> cases g <;> first | exact absurd rfl h | decide

theorem StatusField.le_xlen (f : StatusField) : f.bits.lo + f.bits.width ≤ R.xlen := by
  have h32 : f.bits.lo + f.bits.width ≤ 32 := by cases f <;> decide
  exact h32.trans R.le_xlen

@[simp] theorem getStatus_setStatus (f : StatusField) (v : BitVec f.bits.width) (x : BitVec R.xlen) :
    getStatus f (setStatus f v x) = v := BitField.get_set _ f.le_xlen x v

theorem getStatus_setStatus_of_ne {f g : StatusField} (h : f ≠ g) (v : BitVec f.bits.width) (x : BitVec R.xlen) :
    getStatus g (setStatus f v x) = getStatus g x := BitField.get_set_of_disjoint (StatusField.disjoint h) x v

/-! ## What a handler saves -/

namespace Handler

/-- The interrupt enable of the handler, and where it is kept. -/
def ie : Handler → StatusField
  | .S => .sie | .M => .mie

def pie : Handler → StatusField
  | .S => .spie | .M => .mpie

def pp : Handler → StatusField
  | .S => .spp | .M => .mpp

/-- The instruction that leaves the handler. -/
def ret : Handler → RvOp
  | .S => .sret | .M => .mret

end Handler

namespace Hart

variable (s : Hart R)

def epc : Handler → BitVec R.xlen
  | .S => s.csrs.sepc | .M => s.csrs.mepc

def tvec : Handler → BitVec R.xlen
  | .S => s.csrs.stvec | .M => s.csrs.mtvec

/-- The mode that the handler returns to. -/
def savedMode : Handler → RvMode
  | .S => RvMode.ofField ((s.status .spp).setWidth 2) | .M => RvMode.ofField (s.status .mpp)

/-- What one handler saved is the same in both states. -/
structure SameSaved (h : Handler) (s t : Hart R) : Prop where
  epc : t.epc h = s.epc h
  pp : t.status h.pp = s.status h.pp
  pie : t.status h.pie = s.status h.pie
  ie : t.status h.ie = s.status h.ie

/-- Nothing that traps and returns depend on differs. The clock, the pending bits and the counters may. -/
structure Quiet (s t : Hart R) : Prop where
  mode : t.mode = s.mode
  pc : t.pc = s.pc
  mstatus : t.csrs.mstatus = s.csrs.mstatus
  epc : t.epc = s.epc
  tvec : t.tvec = s.tvec

end Hart

/-- The call entered the handler `h` and left the hart as `s'`, also where the debugger starts then. -/
def Entered (h : Handler) (s' : Hart R) : Outcome TrapExit (Hart R) (Option Handler) → Prop
  | .ok r t => r = some h ∧ t = s'
  | .error e t => e = .cli (some h) ∧ t = s'
  | .undefined => False

theorem Hart.Quiet.refl (s : Hart R) : s.Quiet s := ⟨rfl, rfl, rfl, rfl, rfl⟩

theorem Hart.Quiet.trans {s t u : Hart R} (h : s.Quiet t) (h' : t.Quiet u) : s.Quiet u :=
  ⟨h'.mode.trans h.mode, h'.pc.trans h.pc, h'.mstatus.trans h.mstatus, h'.epc.trans h.epc, h'.tvec.trans h.tvec⟩

/-- The CSRs other than those of `Quiet` may change. -/
theorem Hart.quiet_of_csrs {s t : Hart R} (hmode : t.mode = s.mode) (hpc : t.pc = s.pc)
    (hstatus : t.csrs.mstatus = s.csrs.mstatus) (hsepc : t.csrs.sepc = s.csrs.sepc) (hmepc : t.csrs.mepc = s.csrs.mepc)
    (hstvec : t.csrs.stvec = s.csrs.stvec) (hmtvec : t.csrs.mtvec = s.csrs.mtvec) : s.Quiet t := by
  refine ⟨hmode, hpc, hstatus, ?_, ?_⟩
  · funext h
    cases h
    · exact hsepc
    · exact hmepc
  · funext h
    cases h
    · exact hstvec
    · exact hmtvec

/-- `h` is entered from `s`, up to what is quiet before and after. -/
def Hart.Takes (h : Handler) (s s' : Hart R) : Prop :=
  ∃ s0 cause interrupt, s.Quiet s0 ∧ (s0.enter h cause interrupt).Quiet s'

namespace Hart.Takes

variable {h : Handler} {s s' : Hart R}

theorem mode (ht : Takes h s s') : s'.mode = h.mode := by
  obtain ⟨s0, cause, interrupt, -, h2⟩ := ht
  rw [h2.mode]
  cases h <;> rfl

theorem pc (ht : Takes h s s') : s'.pc = s.tvec h := by
  obtain ⟨s0, cause, interrupt, h1, h2⟩ := ht
  rw [h2.pc, ← h1.tvec]
  cases h <;> rfl

theorem epc (ht : Takes h s s') : s'.epc h = s.pc := by
  obtain ⟨s0, cause, interrupt, h1, h2⟩ := ht
  rw [h2.epc, ← h1.pc]
  cases h <;> rfl

/-- The interrupt enable is kept in `xpie`. -/
theorem pie_S (ht : Takes .S s s') : s'.status .spie = s.status .sie := by
  obtain ⟨s0, cause, interrupt, h1, h2⟩ := ht
  unfold Hart.status
  rw [h2.mstatus, ← h1.mstatus]
  exact (getStatus_setStatus_of_ne (by decide) _ _).trans (getStatus_setStatus _ _ _)

theorem pie_M (ht : Takes .M s s') : s'.status .mpie = s.status .mie := by
  obtain ⟨s0, cause, interrupt, h1, h2⟩ := ht
  unfold Hart.status
  rw [h2.mstatus, ← h1.mstatus]
  exact (getStatus_setStatus_of_ne (by decide) _ _).trans (getStatus_setStatus _ _ _)

/-- The mode is kept in `xpp` as far as the field holds it. -/
theorem savedMode (ht : Takes h s s') (hm : h = .S → s.mode.toNat ≤ RvMode.S.toNat) : s'.savedMode h = s.mode := by
  obtain ⟨s0, cause, interrupt, h1, h2⟩ := ht
  cases h with
  | S =>
    have hpp : s'.status .spp = BitVec.ofNat 1 s.mode.toNat := by
      unfold Hart.status
      rw [h2.mstatus, ← h1.mode]
      exact (getStatus_setStatus_of_ne (by decide) _ _).trans
        ((getStatus_setStatus_of_ne (by decide) _ _).trans (getStatus_setStatus _ _ _))
    have hle := hm rfl
    unfold Hart.savedMode
    simp only [hpp]
    cases hmode : s.mode with
    | U => rfl
    | S => rfl
    | H => rw [hmode] at hle; exact absurd hle (by decide)
    | M => rw [hmode] at hle; exact absurd hle (by decide)
  | M =>
    have hpp : s'.status .mpp = BitVec.ofNat 2 s.mode.toNat := by
      unfold Hart.status
      rw [h2.mstatus, ← h1.mode]
      exact (getStatus_setStatus_of_ne (by decide) _ _).trans
        ((getStatus_setStatus_of_ne (by decide) _ _).trans (getStatus_setStatus _ _ _))
    unfold Hart.savedMode
    simp only [hpp]
    exact RvMode.ofField_ofNat s.mode

/-- What the other handler saved stays. -/
theorem sameSaved {k : Handler} (ht : Takes h s s') (hk : k ≠ h) : SameSaved k s s' := by
  obtain ⟨s0, cause, interrupt, h1, h2⟩ := ht
  have hother {f : StatusField} (hie : h.ie ≠ f) (hpie : h.pie ≠ f) (hpp : h.pp ≠ f) : s'.status f = s.status f := by
    unfold Hart.status
    rw [h2.mstatus, ← h1.mstatus]
    cases h with
    | S =>
      exact (getStatus_setStatus_of_ne hie _ _).trans
        ((getStatus_setStatus_of_ne hpie _ _).trans (getStatus_setStatus_of_ne hpp _ _))
    | M =>
      exact (getStatus_setStatus_of_ne hie _ _).trans
        ((getStatus_setStatus_of_ne hpie _ _).trans (getStatus_setStatus_of_ne hpp _ _))
  have hepc : s'.epc k = s.epc k := by
    rw [h2.epc, ← h1.epc]
    cases h <;> cases k <;> first | exact absurd rfl hk | rfl
  cases h <;> cases k
  case S.S => exact absurd rfl hk
  case M.M => exact absurd rfl hk
  all_goals
    exact ⟨hepc, hother (by decide) (by decide) (by decide), hother (by decide) (by decide) (by decide),
      hother (by decide) (by decide) (by decide)⟩

end Hart.Takes

/-! ## Which handler is entered -/

theorem Entered.unique {h k : Handler} {s' t' : Hart R} {o : Outcome TrapExit (Hart R) (Option Handler)}
    (hs : Entered h s' o) (ht : Entered k t' o) : h = k ∧ s' = t' := by
  cases o with
  | ok r t =>
    obtain ⟨rfl, rfl⟩ := hs
    obtain ⟨hk, rfl⟩ := ht
    exact ⟨Option.some.inj hk, rfl⟩
  | error e t =>
    obtain ⟨rfl, rfl⟩ := hs
    obtain ⟨hk, rfl⟩ := ht
    exact ⟨Option.some.inj (TrapExit.cli.inj hk), rfl⟩
  | undefined => exact hs.elim

theorem exists_entered_xtrap (h : Handler) (cause : Nat) (interrupt : Bool) (s : Hart R) :
    ∃ s', Entered h s' (xtrap h cause interrupt s) ∧ (s.enter h cause interrupt).Quiet s' := by
  unfold xtrap
  by_cases hd : (s.enter h cause interrupt).debug.debugging ∧ (s.enter h cause interrupt).debug.trapCli
  · refine ⟨{ s.enter h cause interrupt with badaddr := (s.enter h cause interrupt).pc }, ?_, ?_⟩
    · show Entered h _ ((if _ then raiseCli (some h) else pure (some h) : Prog _ _ _) _)
      rw [if_pos hd]
      exact ⟨rfl, rfl⟩
    · exact Hart.quiet_of_csrs rfl rfl rfl rfl rfl rfl rfl
  · refine ⟨s.enter h cause interrupt, ?_, Hart.Quiet.refl _⟩
    show Entered h _ ((if _ then raiseCli (some h) else pure (some h) : Prog _ _ _) _)
    rw [if_neg hd]
    exact ⟨rfl, rfl⟩

/-- A trap after assignments that are quiet. -/
theorem exists_takes_xtrap (h : Handler) (cause : Nat) (interrupt : Bool) {s s0 : Hart R} (hq : s.Quiet s0) :
    ∃ s', Entered h s' (xtrap h cause interrupt s0) ∧ Hart.Takes h s s' := by
  obtain ⟨s', he, hq'⟩ := exists_entered_xtrap h cause interrupt s0
  exact ⟨s', he, s0, cause, interrupt, hq, hq'⟩

/-! ### `trap` -/

/-- The handler of a cause that is raised. -/
def Hart.delegate (s : Hart R) (op : RvOp) (raised : TrapCause) : Handler :=
  if Delegated s.csrs.medeleg (translateCause op s.mode raised) then .S else .M

theorem Hart.quiet_setSbadaddr (s : Hart R) (cause : TrapCause) : s.Quiet (s.setSbadaddr cause).clearSip := by
  unfold setSbadaddr
  cases cause <;> exact quiet_of_csrs rfl rfl rfl rfl rfl rfl rfl

theorem Hart.quiet_setMbadaddr (s : Hart R) (cause : TrapCause) : s.Quiet (s.setMbadaddr cause).clearMip := by
  unfold setMbadaddr
  cases cause <;> exact quiet_of_csrs rfl rfl rfl rfl rfl rfl rfl

theorem exists_takes_trap {op : RvOp} (hop : op ≠ .ebreak) (raised : TrapCause) (s : Hart R) :
    ∃ s', Entered (s.delegate op raised) s' (trap op (.sync raised) s) ∧ Hart.Takes (s.delegate op raised) s s' := by
  have htrap : trap op (.sync raised) s =
      if Delegated s.csrs.medeleg (translateCause op s.mode raised) then
        xtrap .S (translateCause op s.mode raised).number false (s.setSbadaddr (translateCause op s.mode raised)).clearSip
      else
        xtrap .M (translateCause op s.mode raised).number false (s.setMbadaddr (translateCause op s.mode raised)).clearMip := by
    show (if op = .ebreak then _ else if _ then _ else _ : Prog _ _ _) s = _
    rw [if_neg hop]
    split <;> rfl
  rw [htrap]
  unfold Hart.delegate
  split
  · exact exists_takes_xtrap .S _ false (s.quiet_setSbadaddr _)
  · exact exists_takes_xtrap .M _ false (s.quiet_setMbadaddr _)

/-- `ebreak` starts the debugger or ends the program, and a reset is no trap. -/
theorem not_entered_trap {op : RvOp} {cause : RaisedCause} (h : op = .ebreak ∨ cause = .reset) (k : Handler) (s s' : Hart R) :
    ¬ Entered k s' (trap op cause s) := by
  intro he
  cases cause with
  | reset => exact absurd he.1 (by simp)
  | sync raised =>
    obtain rfl | h := h
    · have htrap : trap .ebreak (.sync raised) s =
          (if s.debug.ebreakCli then raiseCli none else .throw .terminate : Prog _ _ _) s := rfl
      rw [htrap] at he
      split at he
      · exact absurd he.1 (by simp)
      · exact absurd he.1 (by simp)
    · cases h

/-! ### `isr` -/

namespace Hart

variable (s : Hart R) (lines : IntrLines)

/-- A pending source that one of the handlers enabled. -/
def Served (src : IntrSource) : Prop := lines.pending src = true ∧ (s.EnabledM src ∨ s.EnabledS src)

instance (src : IntrSource) : Decidable (s.Served lines src) := inferInstanceAs (Decidable (_ ∧ _))

/-- The source that `isr` serves. -/
def interrupt : Option IntrSource := [.external, .timer, .software].find? fun src => s.Served lines src

/-- The handler of a source that is served. -/
def server (src : IntrSource) : Handler := if s.EnabledM src then .M else .S

end Hart

section Service
variable {lines : IntrLines} {src : IntrSource} {next : Prog TrapExit (Hart R) (Option Handler)} {s : Hart R}

theorem Hart.quiet_setPending (s : Hart R) (src : IntrSource) (b : Bool) : s.Quiet (s.setPending src b) :=
  quiet_of_csrs rfl rfl rfl rfl rfl rfl rfl

/-- Setting pending bits changes no enable. -/
theorem Hart.served_setPending (s : Hart R) (src' : IntrSource) (b : Bool) :
    (s.setPending src' b).Served lines src ↔ s.Served lines src := Iff.rfl

theorem exists_takes_service {s0 : Hart R} (hq : s0.Quiet s) (h : s.Served lines src) :
    ∃ s', Entered (s.server src) s' (service lines src next s) ∧ Hart.Takes (s.server src) s0 s' := by
  have hservice : service lines src next s =
      if s.EnabledM src then xtrap .M src.mIntr true (s.setPending src true)
      else xtrap .S src.sIntr true (s.setPending src true) := by
    have hen : (s.setPending src true).EnabledM src ↔ s.EnabledM src := Iff.rfl
    have hes : (s.setPending src true).EnabledS src ↔ s.EnabledS src := Iff.rfl
    show (if lines.pending src = true then if (s.setPending src (lines.pending src)).EnabledM src then _
      else if (s.setPending src (lines.pending src)).EnabledS src then _ else _ else _ : Prog _ _ _)
        (s.setPending src (lines.pending src)) = _
    rw [if_pos h.1, h.1]
    simp only [hen, hes]
    split
    · rfl
    · next hm =>
      rw [if_pos (h.2.resolve_left hm)]
      rfl
  rw [hservice]
  unfold Hart.server
  have hq' := hq.trans (s.quiet_setPending src true)
  split
  · exact exists_takes_xtrap .M _ true hq'
  · exact exists_takes_xtrap .S _ true hq'

theorem service_not_served (h : ¬ s.Served lines src) :
    service lines src next s = next (s.setPending src (lines.pending src)) := by
  show (if lines.pending src = true then if s.EnabledM src then _ else if s.EnabledS src then _ else _ else _ : Prog _ _ _)
    (s.setPending src (lines.pending src)) = _
  by_cases hp : lines.pending src = true
  · rw [if_pos hp, if_neg fun hm => h ⟨hp, .inl hm⟩, if_neg fun hs => h ⟨hp, .inr hs⟩]
  · rw [if_neg hp]

end Service

section Isr
variable {lines : IntrLines} {s : Hart R}

theorem exists_takes_isr {src : IntrSource} (h : s.interrupt lines = some src) :
    ∃ s', Entered (s.server src) s' (isr lines s) ∧ Hart.Takes (s.server src) s s' := by
  unfold Hart.interrupt at h
  have h1 := s.quiet_setPending .external (lines.pending .external)
  have h2 := h1.trans (Hart.quiet_setPending _ .timer (lines.pending .timer))
  unfold isr
  by_cases he : s.Served lines .external
  · rw [List.find?_cons_of_pos (by simpa using he)] at h
    obtain rfl := Option.some.inj h
    exact exists_takes_service (Hart.Quiet.refl s) he
  rw [List.find?_cons_of_neg (by simpa using he)] at h
  rw [service_not_served he]
  by_cases ht : s.Served lines .timer
  · rw [List.find?_cons_of_pos (by simpa using ht)] at h
    obtain rfl := Option.some.inj h
    exact exists_takes_service h1 ht
  rw [List.find?_cons_of_neg (by simpa using ht)] at h
  rw [service_not_served (mt (Hart.served_setPending _ _ _).1 ht)]
  by_cases hs : s.Served lines .software
  · rw [List.find?_cons_of_pos (by simpa using hs)] at h
    obtain rfl := Option.some.inj h
    exact exists_takes_service h2 hs
  · rw [List.find?_cons_of_neg (by simpa using hs)] at h
    cases h

theorem not_entered_isr (h : s.interrupt lines = none) (k : Handler) (s' : Hart R) : ¬ Entered k s' (isr lines s) := by
  have hn := List.find?_eq_none.1 h
  have hsrc : ∀ src, ¬ s.Served lines src := by
    intro src
    simpa using hn src (by cases src <;> simp)
  have hisr : isr lines s = .ok none (((s.setPending .external (lines.pending .external)).setPending .timer
      (lines.pending .timer)).setPending .software (lines.pending .software)) := by
    unfold isr
    rw [service_not_served (hsrc .external), service_not_served (mt (Hart.served_setPending _ _ _).1 (hsrc .timer)),
      service_not_served (mt ((Hart.served_setPending _ _ _).trans (Hart.served_setPending _ _ _)).1 (hsrc .software))]
    rfl
  rw [hisr]
  intro he
  exact absurd he.1 (by simp)

end Isr

/-! ## Privilege -/

/-- A handler that the call enters has at least the privilege of the mode it interrupts. -/
def KeepsPrivilege (m : Prog TrapExit (Hart R) (Option Handler)) (s : Hart R) : Prop :=
  ∀ h s', Entered h s' (m s) → s.mode.toNat ≤ s'.mode.toNat

/-- The machine's handler is above every mode, the supervisor's above its own and the user's. -/
theorem Handler.above_iff (h : Handler) (m : RvMode) : m.toNat ≤ h.mode.toNat ↔ m.toNat ≤ RvMode.S.toNat ∨ h = .M := by
  cases h <;> cases m <;> decide

theorem keepsPrivilege_of_takes {m : Prog TrapExit (Hart R) (Option Handler)} {s s' : Hart R} {h : Handler}
    (he : Entered h s' (m s)) (ht : Hart.Takes h s s') :
    KeepsPrivilege m s ↔ s.mode.toNat ≤ RvMode.S.toNat ∨ h = .M := by
  rw [← Handler.above_iff, ← ht.mode]
  constructor
  · intro hk
    exact hk h s' he
  · intro hle k t' hk
    obtain ⟨-, rfl⟩ := he.unique hk
    exact hle

/-- `trap` and `isr` lower the privilege exactly where they enter the supervisor's handler from a mode above it:
for a cause in `medeleg`, and for the first pending source with an enable if the machine's is off. -/
theorem keepsPrivilege_iff (s : Hart R) :
    (∀ op cause, KeepsPrivilege (trap op cause) s ↔
      s.mode.toNat ≤ RvMode.S.toNat ∨ op = .ebreak ∨
        ∀ raised, cause = .sync raised → ¬ Delegated s.csrs.medeleg (translateCause op s.mode raised)) ∧
    ∀ lines, KeepsPrivilege (isr lines) s ↔
      s.mode.toNat ≤ RvMode.S.toNat ∨ ∀ src, s.interrupt lines = some src → s.EnabledM src := by
  constructor
  · intro op cause
    by_cases hop : op = .ebreak
    · have hk : KeepsPrivilege (trap op cause) s := fun k s' he => absurd he (not_entered_trap (.inl hop) k s s')
      simp [hop] at hk ⊢
      exact hk
    cases cause with
    | reset =>
      have hk : KeepsPrivilege (trap op .reset) s := fun k s' he => absurd he (not_entered_trap (.inr rfl) k s s')
      simp [hk]
    | sync raised =>
      obtain ⟨s', he, ht⟩ := exists_takes_trap hop raised s
      rw [keepsPrivilege_of_takes he ht]
      have hd : s.delegate op raised = .M ↔ ¬ Delegated s.csrs.medeleg (translateCause op s.mode raised) := by
        unfold Hart.delegate
        split <;> simp_all
      simp [hd, hop]
  · intro lines
    cases hi : s.interrupt lines with
    | none =>
      have hk : KeepsPrivilege (isr lines) s := fun k s' he => absurd he (not_entered_isr hi k s')
      simp [hk]
    | some src =>
      obtain ⟨s', he, ht⟩ := exists_takes_isr hi
      rw [keepsPrivilege_of_takes he ht]
      have hs : s.server src = .M ↔ s.EnabledM src := by
        unfold Hart.server
        split <;> simp_all
      simp [hs]

/-- An illegal instruction in machine mode enters the supervisor's handler where `medeleg` has its bit. -/
theorem not_keepsPrivilege_medeleg :
    ¬ ∀ s : Hart .rv64, (∀ op cause, KeepsPrivilege (trap op cause) s) ∧ ∀ lines, KeepsPrivilege (isr lines) s := by
  intro h
  have hk := (h { (default : Hart .rv64) with mode := .M, csrs.medeleg := 4 }).1 .illegal (.sync .illegalInstruction)
  have hle := hk .S _ ⟨rfl, rfl⟩
  exact absurd hle (by decide)

/-! ## Traps and returns -/

/-- `trap` or `isr` enters `h`. -/
inductive Traps (h : Handler) (s s' : Hart R) : Prop
  | sync (op : RvOp) (cause : RaisedCause) : Entered h s' (trap op cause s) → Traps h s s'
  | intr (lines : IntrLines) : Entered h s' (isr lines s) → Traps h s s'

theorem Traps.takes {h : Handler} {s s' : Hart R} (ht : Traps h s s') : Hart.Takes h s s' := by
  cases ht with
  | sync op cause he =>
    cases cause with
    | reset => exact absurd he (not_entered_trap (.inr rfl) h s s')
    | sync raised =>
      by_cases hop : op = .ebreak
      · exact absurd he (not_entered_trap (.inl hop) h s s')
      · obtain ⟨t, he', htakes⟩ := exists_takes_trap hop raised s
        obtain ⟨rfl, rfl⟩ := he.unique he'
        exact htakes
  | intr lines he =>
    cases hi : s.interrupt lines with
    | none => exact absurd he (not_entered_isr hi h s')
    | some src =>
      obtain ⟨t, he', htakes⟩ := exists_takes_isr hi
      obtain ⟨rfl, rfl⟩ := he.unique he'
      exact htakes

section Returns
variable {σ : Type} (port : Port σ) (host : Host) (isa : Isa)

/-- The instruction that leaves `h` is executed and retired. -/
def Returns (h : Handler) (s t : Hart R) : Prop :=
  ∃ getTime dec pcOffset mmu mmu', dec.op = h.ret ∧
    Machine.execute port host isa getTime dec pcOffset ⟨s, mmu⟩ = .ok () ⟨t, mmu'⟩

/-- Nothing but pairs of a trap and its return happens in the handler `h`, each with such pairs inside. `P h h'`
says where a pair of `h'` may stand. -/
inductive Nested (P : Handler → Handler → Prop) : Handler → Hart R → Hart R → Prop
  | done {h : Handler} {s t : Hart R} : s.Quiet t → Nested P h s t
  | pair {h h' : Handler} {s s0 s1 s2 t u : Hart R} : P h h' → s.Quiet s0 → Traps h' s0 s1 → Nested P h' s1 s2 →
      Returns port host isa h' s2 t → Nested P h t u → Nested P h s u

/-- The hart is back at `s` after the handler `h`. -/
structure Resumed (h : Handler) (s t : Hart R) : Prop where
  pc : t.pc = s.pc
  mode : t.mode = s.mode
  ie : t.status h.ie = s.status h.ie

/-! ### Executing a return -/

namespace Hart

/-- The state after `sret` or `mret`, before it is retired. -/
def xret (s : Hart R) : Handler → Hart R
  | .S => s.sret.1
  | .M => s.mret.1

/-- The state after `sret` or `mret` is retired. -/
def leave (s : Hart R) (h : Handler) : Hart R :=
  { s.xret h with pc := s.pc + (s.epc h - s.pc), csrs.instret := s.csrs.instret + 1 }

variable (s : Hart R) (h : Handler)

theorem leave_pc : (s.leave h).pc = s.epc h := by
  show s.pc + (s.epc h - s.pc) = s.epc h
  rw [BitVec.add_comm, BitVec.sub_add_cancel]

theorem leave_mode : (s.leave h).mode = s.savedMode h := by
  cases h <;> rfl

theorem leave_sie : (s.leave .S).status .sie = s.status .spie :=
  (getStatus_setStatus_of_ne (by decide) _ _).trans (getStatus_setStatus _ _ _)

theorem leave_mie : (s.leave .M).status .mie = s.status .mpie :=
  (getStatus_setStatus_of_ne (by decide) _ _).trans (getStatus_setStatus _ _ _)

theorem sameSaved_leave {k : Handler} (hk : k ≠ h) : SameSaved k s (s.leave h) := by
  have hother {f : StatusField} (hie : h.ie ≠ f) (hpie : h.pie ≠ f) (hpp : h.pp ≠ f) :
      (s.leave h).status f = s.status f := by
    cases h with
    | S =>
      exact (getStatus_setStatus_of_ne hpie _ _).trans
        ((getStatus_setStatus_of_ne hie _ _).trans (getStatus_setStatus_of_ne hpp _ _))
    | M =>
      exact (getStatus_setStatus_of_ne hpie _ _).trans
        ((getStatus_setStatus_of_ne hie _ _).trans (getStatus_setStatus_of_ne hpp _ _))
  cases h <;> cases k
  case S.S => exact absurd rfl hk
  case M.M => exact absurd rfl hk
  all_goals
    exact ⟨rfl, hother (by decide) (by decide) (by decide), hother (by decide) (by decide) (by decide),
      hother (by decide) (by decide) (by decide)⟩

end Hart

/-- The interpreter knows no return, so `inst_priv` executes it, and the offset -1 makes it illegal. -/
theorem execute_ret (getTime : BitVec 64) {dec : Decode} (pcOffset : BitVec R.xlen) {h : Handler} (hop : dec.op = h.ret)
    (s : Hart R) (mmu : Mmu σ) :
    Machine.execute port host isa getTime dec pcOffset ⟨s, mmu⟩ =
      if s.mode.toNat ≥ h.mode.toNat then
        if s.epc h - s.pc ≠ Machine.illegal then .ok () ⟨s.leave h, mmu⟩
        else .error .illegalInstruction ⟨s.xret h, mmu⟩
      else .error .illegalInstruction ⟨s, mmu⟩ := by
  have hexec : execInst port host isa.ext dec pcOffset ⟨s, mmu⟩ = .ok Machine.illegal ⟨s, mmu⟩ := by
    apply execInst_of_none
    rw [hop]
    cases h <;> rfl
  have hpriv : (⟨s, mmu⟩ : Machine R σ).instPriv getTime dec pcOffset =
      Machine.privileged ⟨s, mmu⟩ h.mode (⟨s.xret h, mmu⟩, s.epc h - s.pc) := by
    unfold Machine.instPriv Processor.instPrivCsr
    rw [hop]
    cases h <;> rfl
  rw [Machine.execute_of_illegal hexec, hpriv]
  unfold Machine.privileged
  by_cases hm : s.mode.toNat ≥ h.mode.toNat
  · simp only [if_pos hm]
    split
    · cases h <;> rfl
    · rfl
  · simp only [if_neg hm, ne_eq, not_true_eq_false, if_false]
    rfl

theorem Returns.eq_leave {h : Handler} {s t : Hart R} (hr : Returns port host isa h s t) : t = s.leave h := by
  obtain ⟨getTime, dec, pcOffset, mmu, mmu', hop, hr⟩ := hr
  rw [execute_ret port host isa getTime pcOffset hop] at hr
  split at hr
  · split at hr
    · cases hr
      rfl
    · cases hr
  · cases hr

theorem returns_leave {h : Handler} {s : Hart R} (mmu : Mmu σ) (hm : s.mode.toNat ≥ h.mode.toNat)
    (hoff : s.epc h - s.pc ≠ Machine.illegal) : Returns port host isa h s (s.leave h) := by
  refine ⟨0, { op := h.ret }, 4, mmu, mmu, rfl, ?_⟩
  rw [execute_ret port host isa 0 4 rfl, if_pos hm, if_pos hoff]

/-! ### Nesting -/

/-- The machine's handler is above the supervisor's. -/
def Handler.Above (h h' : Handler) : Prop := h = .S ∧ h' = .M

/-- What pairs in a handler leave as it was: also what handlers that are not above it saved. -/
structure Kept (h : Handler) (s t : Hart R) : Prop where
  pc : t.pc = s.pc
  mode : t.mode = s.mode
  saved : ∀ k : Handler, ¬ h.Above k → Hart.SameSaved k s t

theorem Hart.SameSaved.trans {k : Handler} {s t u : Hart R} (h : SameSaved k s t) (h' : SameSaved k t u) : SameSaved k s u :=
  ⟨h'.epc.trans h.epc, h'.pp.trans h.pp, h'.pie.trans h.pie, h'.ie.trans h.ie⟩

theorem Hart.Quiet.sameSaved {s t : Hart R} (h : s.Quiet t) (k : Handler) : SameSaved k s t := by
  have hstatus (f : StatusField) : t.status f = s.status f := by
    unfold Hart.status
    rw [h.mstatus]
  exact ⟨congrFun h.epc k, hstatus _, hstatus _, hstatus _⟩

theorem Hart.Quiet.kept {s t : Hart R} (h : s.Quiet t) (k : Handler) : Kept k s t :=
  ⟨h.pc, h.mode, fun j _ => h.sameSaved j⟩

theorem Kept.trans {h : Handler} {s t u : Hart R} (h1 : Kept h s t) (h2 : Kept h t u) : Kept h s u :=
  ⟨h2.pc.trans h1.pc, h2.mode.trans h1.mode, fun k hk => (h1.saved k hk).trans (h2.saved k hk)⟩

/-- A handler that finds what it saved returns to where it was entered. -/
theorem resumed_leave {h : Handler} {s s1 s2 : Hart R} (ht : Hart.Takes h s s1)
    (hm : h = .S → s.mode.toNat ≤ RvMode.S.toNat) (hs : Hart.SameSaved h s1 s2) : Resumed h s (s2.leave h) := by
  refine ⟨?_, ?_, ?_⟩
  · rw [Hart.leave_pc, hs.epc, ht.epc]
  · have hmode : s2.savedMode h = s1.savedMode h := by
      cases h with
      | S => exact congrArg (fun v => RvMode.ofField (BitVec.setWidth 2 v)) hs.pp
      | M => exact congrArg RvMode.ofField hs.pp
    rw [Hart.leave_mode, hmode, ht.savedMode hm]
  · cases h with
    | S => exact (Hart.leave_sie s2).trans (hs.pie.trans ht.pie_S)
    | M => exact (Hart.leave_mie s2).trans (hs.pie.trans ht.pie_M)

/-- A pair of the machine's handler changes nothing that the supervisor's saved. -/
theorem kept_pair {s s1 s2 : Hart R} (ht : Hart.Takes .M s s1) (hk : Kept .M s1 s2) : Kept .S s (s2.leave .M) := by
  have hsaved (k : Handler) : Hart.SameSaved k s1 s2 := hk.saved k (by simp [Handler.Above])
  have hres := resumed_leave ht (by simp) (hsaved .M)
  refine ⟨hres.pc, hres.mode, ?_⟩
  intro k hk
  cases k with
  | S => exact (ht.sameSaved (by decide)).trans ((hsaved .S).trans (s2.sameSaved_leave .M (by decide)))
  | M => exact absurd ⟨rfl, rfl⟩ hk

theorem Nested.kept {h : Handler} {s t : Hart R} (hn : Nested port host isa Handler.Above h s t) : Kept h s t := by
  induction hn with
  | done hq => exact hq.kept _
  | pair hP hq ht _ hr _ ih ih' =>
    obtain ⟨rfl, rfl⟩ := hP
    obtain rfl := hr.eq_leave
    exact ((hq.kept .S).trans (kept_pair ht.takes ih)).trans ih'

/-- A trap that the handler's fields can hold is undone by the return of the handler, if only pairs of a handler
above it happen in between and the handler does not start right after the instruction it returns to. -/
theorem trap_return {h : Handler} {s s1 s2 : Hart R} (ht : Traps h s s1) (hm : h = .S → s.mode.toNat ≤ RvMode.S.toNat)
    (hv : s.pc + 1 ≠ s.tvec h) (hn : Nested port host isa Handler.Above h s1 s2) (getTime : BitVec 64) (dec : Decode)
    (hop : dec.op = h.ret) (pcOffset : BitVec R.xlen) (mmu : Mmu σ) :
    ∃ t, Machine.execute port host isa getTime dec pcOffset ⟨s2, mmu⟩ = .ok () ⟨t, mmu⟩ ∧ Resumed h s t := by
  have hk := hn.kept
  have hsaved := hk.saved h (by cases h <;> simp [Handler.Above])
  have hmode : s2.mode.toNat ≥ h.mode.toNat := by
    rw [hk.mode, ht.takes.mode]
  have hoff : s2.epc h - s2.pc ≠ Machine.illegal := by
    rw [hsaved.epc, ht.takes.epc, hk.pc, ht.takes.pc]
    intro heq
    apply hv
    rw [BitVec.sub_eq_iff_eq_add] at heq
    rw [heq]
    unfold Machine.illegal
    rw [BitVec.add_comm, ← BitVec.add_assoc]
    simp
  refine ⟨s2.leave h, ?_, resumed_leave ht.takes hm hsaved⟩
  rw [execute_ret port host isa getTime pcOffset hop, if_pos hmode, if_pos hoff]

end Returns

/-- User code whose calls, and those of the supervisor, are delegated. -/
def userHart : Hart .rv64 :=
  { (default : Hart .rv64) with mode := .U, pc := 0x100, csrs.stvec := 0x200, csrs.mtvec := 0x300, csrs.medeleg := 0x300 }

/-- A call that the supervisor handles, interrupted once by the machine's handler. -/
theorem trap_return_userHart :
    ∃ s1 s2 t, Traps .S userHart s1 ∧ Nested (mmuSoft .rv64) default .i Handler.Above .S s1 s2 ∧
      Machine.execute (mmuSoft .rv64) default .i 0 { op := .sret } 4 ⟨s2, (bareMachine userHart).mmu⟩ =
        .ok () ⟨t, (bareMachine userHart).mmu⟩ ∧ Resumed .S userHart t := by
  have ht : Traps .S userHart _ := .sync .ecall (.sync .illegalInstruction) ⟨rfl, rfl⟩
  have hn : Nested (mmuSoft .rv64) default .i Handler.Above .S (userHart.enterS 8 false) _ :=
    .pair ⟨rfl, rfl⟩ (Hart.Quiet.refl _) (.sync .illegal (.sync .illegalInstruction) ⟨rfl, rfl⟩) (.done (Hart.Quiet.refl _))
      (returns_leave _ _ _ (bareMachine userHart).mmu (by decide) (by decide)) (.done (Hart.Quiet.refl _))
  obtain ⟨t, h⟩ := trap_return (mmuSoft .rv64) default .i ht (by decide) (by decide) hn 0 { op := .sret } rfl 4
    (bareMachine userHart).mmu
  exact ⟨_, _, t, ht, hn, h⟩

/-- A call that the supervisor makes in its own handler overwrites what the handler saved. A call of the machine
that is delegated returns to the supervisor. A handler that starts right after the interrupted address does not
return to it. -/
theorem not_resumed :
    ¬ (∀ (h : Handler) (s s1 s2 t : Hart .rv64), Traps h s s1 →
      Nested (mmuSoft .rv64) default .i (fun _ _ => True) h s1 s2 → Returns (mmuSoft .rv64) default .i h s2 t →
      Resumed h s t) ∧
    (∃ s s1 t : Hart .rv64, s.mode = .M ∧ Traps .S s s1 ∧ Returns (mmuSoft .rv64) default .i .S s1 t ∧ t.mode = .S) ∧
    ∃ s s1 : Hart .rv64, s.mode = .U ∧ Traps .S s s1 ∧ ∀ t, ¬ Returns (mmuSoft .rv64) default .i .S s1 t := by
  refine ⟨?_, ?_, ?_⟩
  · intro h
    have ht : Traps .S userHart _ := .sync .ecall (.sync .illegalInstruction) ⟨rfl, rfl⟩
    have hr := h .S userHart _ _ _ ht
      (.pair trivial (Hart.Quiet.refl _) (.sync .ecall (.sync .illegalInstruction) ⟨rfl, rfl⟩) (.done (Hart.Quiet.refl _))
        (returns_leave _ _ _ (bareMachine userHart).mmu (by decide) (by decide)) (.done (Hart.Quiet.refl _)))
      (returns_leave _ _ _ (bareMachine userHart).mmu (by decide) (by decide))
    exact absurd hr.pc (by decide)
  · refine ⟨{ userHart with mode := .M, csrs.medeleg := 4 }, _, _, rfl, .sync .illegal (.sync .illegalInstruction) ⟨rfl, rfl⟩,
      returns_leave _ _ _ (bareMachine userHart).mmu (by decide) (by decide), by decide⟩
  · refine ⟨{ userHart with pc := 0x1ff, csrs.medeleg := 1 }, _, rfl, .sync .addi (.sync (.mem .misalignedFetch)) ⟨rfl, rfl⟩, ?_⟩
    rintro t ⟨getTime, dec, pcOffset, mmu, mmu', hop, hr⟩
    rw [execute_ret _ _ _ getTime pcOffset hop, if_pos (by decide), if_neg (by decide)] at hr
    cases hr

end Rv8.Emu
