import Rv8.Lib.Turns
import Rv8.Emu.Frame
import Rv8.Emu.IllegalInstruction
/-!
# How long a step lasts

`step(count)` of `processor-runloop.h` goes on until the counter `P::instret` equals
`inststop`. The counter has 64 bits and `inststop` the width of a register, so on RV32
the two differ for ever once the counter has more than 32 bits. An instruction may write
the counter past `inststop`, and a trap leaves it as it is, so a program whose trap
handler cannot be fetched never comes back.
-/

namespace Rv8.Emu

open Rv8.Lib Rv8.Asm Prog

variable {R : Rv} {σ : Type}

/-! ## Writes of the counter -/

/-- The instruction is one on `mcycle`, `minstret` or the high half of one, and changes it. -/
def WritesInstret {xlen : Nat} (s : Processor xlen) (dec : Decode) : Prop :=
  RvOp.isCsr dec.op = true ∧ ∃ c, RvCsr.ofNumber dec.imm.toNat = some c ∧ c ∈ [RvCsr.mcycle, .minstret, .mcycleh, .minstreth] ∧
    ∃ w ∈ window c, ¬ w.Idle (csrOp dec.op) (csrValue s dec) s.csrs

theorem instret_set_window {xlen : Nat} {c : RvCsr} (hc : c ∉ [RvCsr.mcycle, .minstret, .mcycleh, .minstreth]) (w : Window xlen)
    (hw : w ∈ window c) (s : Csrs xlen) (v : BitVec w.n) : (w.reg.set s v).instret = s.instret := by
  cases c
  case mcycle | minstret | mcycleh | minstreth => exact absurd (by simp) hc
  all_goals
    cases hw
    try rfl

theorem Processor.instret_instPrivCsr {s p : Processor R.xlen} {getTime : BitVec 64} {dec : Decode} {pcOffset off : BitVec 64}
    (hp : s.instPrivCsr getTime dec pcOffset = some (p, off)) (hw : ¬ WritesInstret s dec) : p.csrs.instret = s.csrs.instret := by
  have hcsr : RvOp.isCsr dec.op = true := by
    by_contra hno
    rw [instPrivCsr_of_not_isCsr getTime (by simpa using hno)] at hp
    cases hp
  rw [instPrivCsr_eq hp]
  unfold instCsr
  cases hn : RvCsr.ofNumber dec.imm.toNat with
  | none => rfl
  | some c =>
    have hlt : dec.imm.toNat < 2 ^ 12 := rvCsr_of_ofNumber hn ▸ rvCsr_lt c
    refine Processor.get_instCsrCase Csrs.instret (fun _ _ => rfl) (fun _ _ => rfl) s dec _ hlt getTime _ c fun w hwin => ?_
    by_cases hc : c ∈ [RvCsr.mcycle, .minstret, .mcycleh, .minstreth]
    · have hidle : w.Idle (csrOp dec.op) (csrValue s dec) s.csrs := by
        by_contra hno
        exact hw ⟨hcsr, c, hn, hc, w, hwin, hno⟩
      rw [(w.written_eq_iff _ _ _).2 hidle, w.reg.set_get]
    · exact instret_set_window hc w hwin _ _

theorem Machine.instret_instPriv {s : Machine R σ} {getTime : BitVec 64} {dec : Decode} {pcOffset : BitVec R.xlen}
    (hw : ¬ WritesInstret s.hart.toProcessor dec) : (s.instPriv getTime dec pcOffset).1.hart.csrs.instret = s.hart.csrs.instret :=
  Machine.get_instPriv Csrs.instret (fun _ _ => rfl) getTime s dec pcOffset fun _ _ hp => Processor.instret_instPrivCsr hp hw

/-- The interpreter knows no CSR instruction. -/
theorem action_of_isCsr (host : Host) (s : Hart R) (dec : Decode) {op : RvOp} (h : RvOp.isCsr op = true) : action host s dec op = none := by
  simp only [RvOp.isCsr, List.mem_cons, List.not_mem_nil, or_false, decide_eq_true_eq] at h
  rcases h with rfl | rfl | rfl | rfl | rfl | rfl <;> rfl

/-! ## One instruction -/

/-- Adds `n` to the counter if the call returns, and nothing if it fails. -/
def Counts {ε τ α : Type} (counter : τ → BitVec 64) (n : Nat) (s : τ) : Outcome ε τ α → Prop
  | .ok _ s' => counter s' = counter s + BitVec.ofNat 64 n
  | .error _ s' => counter s' = counter s
  | .undefined => True

theorem counts_bind {ε τ α β : Type} {counter : τ → BitVec 64} {n : Nat} {m : Prog ε τ β} {f : β → Prog ε τ α} {s : τ}
    (hm : Counts counter 0 s (m s)) (hf : ∀ b s', m s = .ok b s' → Counts counter n s' (f b s')) : Counts counter n s ((m >>= f) s) := by
  cases hc : m s with
  | ok b s' =>
    rw [bind_ok hc]
    rw [hc] at hm
    have hs : counter s' = counter s := hm.trans (BitVec.add_zero _)
    have hfb := hf b s' hc
    cases hfs : f b s' with
    | ok a s2 =>
      rw [hfs] at hfb
      exact Eq.trans hfb (congrArg (· + BitVec.ofNat 64 n) hs)
    | error e s2 =>
      rw [hfs] at hfb
      exact Eq.trans hfb hs
    | undefined => trivial
  | error e s' =>
    rw [bind_error hc]
    rw [hc] at hm
    exact hm
  | undefined =>
    rw [bind_undefined hc]
    trivial

/-- A call that keeps the counter adds nothing to it. -/
theorem counts_of_keeps {ε τ α : Type} {counter : τ → BitVec 64} {m : Prog ε τ α} (h : ∀ v, Keeps (fun s => counter s = v) m) (s : τ) :
    Counts counter 0 s (m s) := by
  have hs := h (counter s) s rfl
  cases hc : m s with
  | ok a s' =>
    rw [hc] at hs
    exact Eq.trans hs (BitVec.add_zero _).symm
  | error e s' =>
    rw [hc] at hs
    exact hs
  | undefined => trivial

/-- The interpreter spares the counter. -/
theorem spared_instret (v : BitVec 64) : Hart.Spared fun s : Hart R => s.csrs.instret = v where
  writeRd h _ _ := h
  writeFrd h _ _ _ := h
  fenv h _ _ := h

namespace Machine

variable {port : Port σ} {host : Host} {isa : Isa} {getTime : BitVec 64}

def instret (s : Machine R σ) : BitVec 64 := s.hart.csrs.instret

theorem counts_retire (offset : BitVec R.xlen) (s : Machine R σ) :
    Counts instret 1 s ((.modify fun s => s.retire offset : Prog Raise (Machine R σ) Unit) s) := rfl

/-- An instruction that is executed is counted, and one that raises an exception is not. -/
theorem counts_execute {dec : Decode} {pcOffset : BitVec R.xlen} {s : Machine R σ} (hw : ¬ WritesInstret s.hart.toProcessor dec) :
    Counts instret 1 s (execute port host isa getTime dec pcOffset s) := by
  have hexec : ∀ v, Keeps (fun s => instret s = v)
      ((execInst port host isa.ext dec pcOffset).onError fun e => .throw (.mmu e) : Prog Raise (Machine R σ) _) := fun v =>
    keeps_onError (keeps_execInst_of_spared port host ((spared_instret v).at dec.rd) (fun _ _ h => h) isa.ext pcOffset) fun _ => keeps_throw _
  unfold execute
  refine counts_bind (counts_of_keeps hexec s) fun off s1 h1 => ?_
  by_cases hoff : off ≠ illegal
  · rw [if_pos hoff]
    exact counts_retire off s1
  · rw [if_neg hoff]
    have hw1 : ¬ WritesInstret s1.hart.toProcessor dec := by
      rintro ⟨hcsr, hrest⟩
      -- a CSR instruction leaves the interpreter as it came
      have hsame : s1 = s := by
        have hnone : execInst port host isa.ext dec pcOffset s = .ok illegal s :=
          execInst_of_none (action_of_isCsr host s.hart dec hcsr)
        unfold onError at h1
        rw [hnone] at h1
        exact (Outcome.ok.inj h1).2.symm
      exact hw (hsame ▸ ⟨hcsr, hrest⟩)
    have hpriv : (s1.instPriv getTime dec pcOffset).1.hart.csrs.instret = s1.hart.csrs.instret := instret_instPriv hw1
    refine counts_bind (Eq.trans hpriv (BitVec.add_zero _).symm) fun off2 s2 _ => ?_
    by_cases hoff2 : off2 ≠ illegal
    · rw [if_pos hoff2]
      exact counts_retire off2 s2
    · rw [if_neg hoff2]
      exact (rfl : instret s2 = instret s2)

end Machine

/-! ## The loop of `step` -/

/-- What the host answers while `step` runs. -/
structure StepEnv where
  time : BitVec 64
  lines : IntrLines
  /-- The clock that the instructions of each turn read. -/
  getTime : Nat → BitVec 64

namespace Runloop

section Step
variable (port : Port σ) (host : Host) (isa : Isa)

def instret (s : Runloop R σ) : BitVec 64 := s.machine.instret

/-- `typename P::ux inststop = P::instret + count` -/
def inststop (s : Runloop R σ) (count : BitVec 64) : BitVec R.xlen := (s.instret + count).setWidth R.xlen

/-- The loop is done: `P::instret != inststop` compares 64 bits. -/
def Stops (inststop : BitVec R.xlen) (s : Runloop R σ) : Prop := s.instret = inststop.setWidth 64

instance (inststop : BitVec R.xlen) (s : Runloop R σ) : Decidable (s.Stops inststop) := inferInstanceAs (Decidable (_ = _))

/-- One turn of the loop, whose work are the instructions it retires. -/
def stepTurn (inststop : BitVec R.xlen) (getTime : BitVec 64) (s : Runloop R σ) : Turn (Runloop R σ) :=
  if s.Stops inststop then .left 0 s
  else
    match turn port host isa getTime s with
    | .ok _ s' => .next 1 s'
    | .error e s' =>
      match handle e s' with
      | .ok _ s'' => .next 0 s''
      | .error _ s'' => .left 0 s''
      | .undefined => .stuck
    | .undefined => .stuck

/-- The turns of `step`, once it is entered. -/
def stepTurns (env : StepEnv) (inststop : BitVec R.xlen) (n : Nat) (s : Runloop R σ) : Turn (Runloop R σ) :=
  stepTurn port host isa inststop (env.getTime n) s

/-- `step(count)` returns after it has retired at most `count` instructions. -/
def StepBounded (env : StepEnv) (count : BitVec 64) (s : Runloop R σ) : Prop :=
  match next port host isa (.call env.time env.lines) s with
  | .ok _ s' => LeftWithin (stepTurns port host isa env (s.inststop count)) count.toNat s'
  | .error _ _ => True
  | .undefined => False

/-- The first half of a turn leaves the record to execute in `dec`. -/
def fetchDecode : Prog Raise (Runloop R σ) Unit := do
  let s ← .get
  let fetched ← (onMachine (Machine.onMmu fun proc =>
    instFetch port R proc s.machine.hart.pc.toNat s.pcOffset.toNat)).onError fun e => .throw (.mmu e)
  .modify fun s => { s with cache := s.cache.lookup R isa fetched.1, pcOffset := BitVec.ofNat R.xlen fetched.2 }

/-- The turn has a behaviour, and its instruction does not write the counter. -/
structure Counted (getTime : BitVec 64) (s : Runloop R σ) : Prop where
  defined : turn port host isa getTime s ≠ .undefined
  writes : ∀ s', fetchDecode port isa s = .ok () s' → ¬ WritesInstret s'.machine.hart.toProcessor s'.cache.dec

/-- From some turn on every turn raises an exception. -/
def TrapsForever (env : StepEnv) (inststop : BitVec R.xlen) (s : Runloop R σ) : Prop :=
  ∃ n, ∀ m, n ≤ m → ∃ done s' e s'', turns (stepTurns port host isa env inststop) s m = .next done s' ∧
    ¬ s'.Stops inststop ∧ turn port host isa (env.getTime m) s' = .error e s''

end Step

section Turns
variable {port : Port σ} {host : Host} {isa : Isa}

theorem turn_eq (getTime : BitVec 64) : turn (R := R) port host isa getTime = (do
    fetchDecode port isa
    let s ← .get
    onMachine (Machine.execute port host isa getTime s.cache.dec s.pcOffset)) := by
  unfold turn fetchDecode
  rw [bind_assoc]
  funext s
  show _ = ((_ >>= fun fetched => _) >>= _ : Prog Raise (Runloop R σ) Unit) s
  rw [bind_assoc]
  rfl

/-- Fetching and decoding leaves the counter alone. -/
theorem counts_fetchDecode (s : Runloop R σ) : Counts instret 0 s (fetchDecode port isa s) := by
  refine counts_of_keeps (fun v => ?_) s
  refine keeps_bind keeps_get fun s => ?_
  have hfetch := Machine.keeps_onMmu_hart (fun h : Hart R => h.csrs.instret = v) fun proc =>
    instFetch port R proc s.machine.hart.pc.toNat s.pcOffset.toNat
  refine keeps_bind (keeps_onError (keeps_zoom hfetch (fun _ h => h) fun _ _ _ h => h) fun _ => keeps_throw _) fun _ => ?_
  exact keeps_modify fun _ h => h

theorem counts_onMachine {ε α : Type} {n : Nat} {m : Prog ε (Machine R σ) α} {s : Runloop R σ}
    (h : Counts Machine.instret n s.machine (m s.machine)) : Counts instret n s (onMachine m s) := by
  unfold onMachine zoom
  cases hm : m s.machine with
  | ok a t =>
    rw [hm] at h
    exact h
  | error e t =>
    rw [hm] at h
    exact h
  | undefined => trivial

theorem counts_turn {getTime : BitVec 64} {s : Runloop R σ} (h : s.Counted port host isa getTime) :
    Counts instret 1 s (turn port host isa getTime s) := by
  rw [turn_eq]
  refine counts_bind (counts_fetchDecode s) fun _ s1 h1 => ?_
  exact counts_onMachine (Machine.counts_execute (h.writes s1 h1))

theorem keeps_onHart_instret {α : Type} {v : BitVec 64} {m : Prog TrapExit (Hart R) α} (h : ∀ s, Keeps (Hart.SameUntrapped s) m) :
    Keeps (fun s : Runloop R σ => s.instret = v) (onHart m) := by
  have hm : Keeps (fun s : Hart R => s.csrs.instret = v) m :=
    keeps_of_relation h Hart.SameUntrapped.refl fun _ _ hst hs => hst.instret.trans hs
  exact keeps_onError (keeps_zoom hm (fun _ h => h) fun _ _ _ h => h) fun _ => keeps_throw _

/-- Raising an exception leaves the counter alone. -/
theorem keeps_handle_instret (v : BitVec 64) (e : Raise) : Keeps (fun s : Runloop R σ => s.instret = v) (handle e) := by
  have hraised (badaddr : BitVec R.xlen) (cause : TrapCause) : Keeps (fun s : Runloop R σ => s.instret = v) (raised badaddr cause) := by
    refine keeps_bind (keeps_modify fun _ h => h) fun _ => keeps_bind keeps_get fun s => ?_
    exact keeps_bind (keeps_onHart_instret fun s => keeps_trap s _ _) fun _ => keeps_pure _
  cases e with
  | mmu e =>
    cases e with
    | raise cause badaddr => exact hraised _ _
    | panic => exact keeps_throw _
  | illegalInstruction => exact keeps_bind keeps_get fun s => hraised _ _

/-! Traps and interrupts always have a behaviour. -/

theorem defined_xtrap (h : Handler) (cause : Nat) (interrupt : Bool) : Defined (xtrap (R := R) h cause interrupt) :=
  defined_bind (defined_modify _) fun _ => defined_bind defined_get fun _ =>
    defined_ite (defined_bind (defined_modify _) fun _ => defined_throw _) (defined_pure _)

theorem defined_service (lines : IntrLines) (src : IntrSource) {next : Prog TrapExit (Hart R) (Option Handler)} (h : Defined next) :
    Defined (service lines src next) :=
  defined_bind (defined_modify _) fun _ => defined_bind defined_get fun _ =>
    defined_ite (defined_ite (defined_xtrap _ _ _) (defined_ite (defined_xtrap _ _ _) h)) h

theorem defined_isr (lines : IntrLines) : Defined (isr (R := R) lines) :=
  defined_service _ _ (defined_service _ _ (defined_service _ _ (defined_pure _)))

theorem defined_trap (op : RvOp) (cause : RaisedCause) : Defined (trap (R := R) op cause) := by
  cases cause with
  | reset => exact defined_pure _
  | sync raised =>
    refine defined_bind defined_get fun s => defined_ite ?_ (defined_ite ?_ ?_)
    · exact defined_ite (defined_bind (defined_modify _) fun _ => defined_throw _) (defined_throw _)
    · exact defined_bind (defined_modify _) fun _ => defined_xtrap _ _ _
    · exact defined_bind (defined_modify _) fun _ => defined_xtrap _ _ _

theorem defined_onHart {α : Type} {m : Prog TrapExit (Hart R) α} (h : Defined m) : Defined (onHart (σ := σ) m) :=
  defined_onError (defined_zoom h) fun _ => defined_throw _

theorem defined_handle (e : Raise) : Defined (handle (R := R) (σ := σ) e) := by
  have hraised (badaddr : BitVec R.xlen) (cause : TrapCause) : Defined (raised (σ := σ) badaddr cause) :=
    defined_bind (defined_modify _) fun _ => defined_bind defined_get fun _ =>
      defined_bind (defined_onHart (defined_trap _ _)) fun _ => defined_pure _
  cases e with
  | mmu e =>
    cases e with
    | raise cause badaddr => exact hraised _ _
    | panic => exact defined_throw _
  | illegalInstruction => exact defined_bind defined_get fun s => hraised _ _

theorem defined_call (time : BitVec 64) (lines : IntrLines) : Defined (next port host isa (.call time lines) : Prog _ (Runloop R σ) _) :=
  defined_bind (defined_modify _) fun _ => defined_bind (defined_onHart (defined_isr lines)) fun _ => defined_pure _

theorem keeps_call_instret (v : BitVec 64) (time : BitVec 64) (lines : IntrLines) :
    Keeps (fun s : Runloop R σ => s.instret = v) (next port host isa (.call time lines)) :=
  keeps_bind (keeps_modify fun _ h => h) fun _ => keeps_bind (keeps_onHart_instret fun s => keeps_isr s lines) fun _ => keeps_pure _

/-! ## Staying within the count -/

/-- What `inststop` holds where it fits a register. -/
theorem setWidth_inststop {sum : BitVec 64} (h : sum.toNat < 2 ^ R.xlen) : (sum.setWidth R.xlen).setWidth 64 = sum := by
  apply BitVec.eq_of_toNat_eq
  rw [BitVec.toNat_setWidth, BitVec.toNat_setWidth, Nat.mod_eq_of_lt h]
  exact Nat.mod_eq_of_lt sum.isLt

variable {env : StepEnv} {count : BitVec 64}

/-- A turn moves the counter as far as it retires instructions, so it does not pass `inststop`. -/
theorem holds_stepTurn {old : BitVec 64} {inststop : BitVec R.xlen} (hstop : inststop.setWidth 64 = old + count) {getTime : BitVec 64}
    {done : Nat} {s : Runloop R σ} (hs : s.instret = old + BitVec.ofNat 64 done) (hle : done ≤ count.toNat)
    (hok : ¬ s.Stops inststop → s.Counted port host isa getTime) :
    (stepTurn port host isa inststop getTime s).Holds (fun done s => s.instret = old + BitVec.ofNat 64 done) count.toNat done := by
  unfold stepTurn
  by_cases hstops : s.Stops inststop
  · rw [if_pos hstops]
    exact hle
  · rw [if_neg hstops]
    have hlt : done < count.toNat := by
      refine Nat.lt_of_le_of_ne hle fun he => hstops ?_
      unfold Stops
      rw [hs, hstop, he, BitVec.ofNat_toNat, BitVec.setWidth_eq]
    have hcounts := counts_turn (hok hstops)
    cases hturn : turn port host isa getTime s with
    | ok _ s' =>
      rw [hturn] at hcounts
      refine ⟨Eq.trans hcounts ?_, hlt⟩
      rw [hs, BitVec.add_assoc, ← BitVec.ofNat_add]
    | error e s' =>
      rw [hturn] at hcounts
      have hs' : s'.instret = old + BitVec.ofNat 64 done := Eq.trans hcounts hs
      have hkeep := keeps_handle_instret _ e s' hs'
      dsimp only
      cases hhandle : handle e s' with
      | ok _ s'' =>
        rw [hhandle] at hkeep
        exact ⟨hkeep, hle⟩
      | error x s'' => exact hle
      | undefined => exact defined_handle e s' hhandle
    | undefined => exact (hok hstops).defined hturn

/-- A turn that retires nothing and goes on has raised an exception. -/
theorem stepTurn_eq_next_zero {inststop : BitVec R.xlen} {getTime : BitVec 64} {s s' : Runloop R σ}
    (h : stepTurn port host isa inststop getTime s = .next 0 s') :
    ¬ s.Stops inststop ∧ ∃ e s'', turn port host isa getTime s = .error e s'' := by
  unfold stepTurn at h
  by_cases hstops : s.Stops inststop
  · rw [if_pos hstops] at h
    cases h
  · rw [if_neg hstops] at h
    cases hturn : turn port host isa getTime s with
    | ok _ s1 =>
      rw [hturn] at h
      exact absurd (Turn.next.inj h).1 Nat.one_ne_zero
    | error e s1 => exact ⟨hstops, e, s1, rfl⟩
    | undefined =>
      rw [hturn] at h
      cases h

/-- The work of a turn that raises an exception. -/
theorem work_of_raised {inststop : BitVec R.xlen} {getTime : BitVec 64} {s s' s'' : Runloop R σ} {e : Raise} {work : Nat}
    (hstops : ¬ s.Stops inststop) (hturn : turn port host isa getTime s = .error e s'')
    (h : stepTurn port host isa inststop getTime s = .next work s') : work = 0 := by
  unfold stepTurn at h
  rw [if_neg hstops, hturn] at h
  dsimp only at h
  cases hhandle : handle e s'' with
  | ok _ s1 =>
    rw [hhandle] at h
    exact (Turn.next.inj h).1.symm
  | error x s1 =>
    rw [hhandle] at h
    cases h
  | undefined =>
    rw [hhandle] at h
    cases h

theorem idles_iff_trapsForever {inststop : BitVec R.xlen} {s : Runloop R σ} :
    Idles (stepTurns port host isa env inststop) s ↔ TrapsForever port host isa env inststop s := by
  constructor
  · rintro ⟨n, done, hidle⟩
    refine ⟨n, fun m hm => ?_⟩
    obtain ⟨s', hs'⟩ := hidle m hm
    obtain ⟨s1, hs1⟩ := hidle (m + 1) (Nat.le_succ_of_le hm)
    obtain ⟨done0, work, s0, h0, hturn, hsum⟩ := of_turns_succ_next hs1
    obtain ⟨rfl, rfl⟩ := Turn.next.inj (h0.symm.trans hs')
    obtain rfl : work = 0 := by omega
    obtain ⟨hstops, e, s'', he⟩ := stepTurn_eq_next_zero hturn
    exact ⟨_, _, e, s'', hs', hstops, he⟩
  · rintro ⟨n, htraps⟩
    obtain ⟨done, sn, -, -, hn, -⟩ := htraps n (Nat.le_refl n)
    refine ⟨n, done, fun m hm => ?_⟩
    induction m, hm using Nat.le_induction with
    | base => exact ⟨sn, hn⟩
    | succ m hm ih =>
      obtain ⟨s', hs'⟩ := ih
      obtain ⟨done1, s1, -, -, h1, -⟩ := htraps (m + 1) (Nat.le_succ_of_le hm)
      obtain ⟨done0, work, s0, h0, hturn, rfl⟩ := of_turns_succ_next h1
      obtain ⟨rfl, rfl⟩ := Turn.next.inj (h0.symm.trans hs')
      obtain ⟨done2, s2, e, s'', h2, hstops, he⟩ := htraps m hm
      obtain ⟨rfl, rfl⟩ := Turn.next.inj (h2.symm.trans hs')
      obtain rfl := work_of_raised hstops he hturn
      exact ⟨s1, h1⟩

/-- Where `inststop` holds the whole sum and no instruction of the step writes the counter, the step is bounded
unless it comes to do nothing but trap. -/
theorem stepBounded_iff {s : Runloop R σ} (hwrap : (s.instret + count).toNat < 2 ^ R.xlen)
    (hok : ∀ s1, next port host isa (.call env.time env.lines) s = .ok () s1 → ∀ n done s',
      turns (stepTurns port host isa env (s.inststop count)) s1 n = .next done s' → ¬ s'.Stops (s.inststop count) →
      s'.Counted port host isa (env.getTime n)) :
    StepBounded port host isa env count s ↔
      ∀ s1, next port host isa (.call env.time env.lines) s = .ok () s1 → ¬ TrapsForever port host isa env (s.inststop count) s1 := by
  have hkeep : (next port host isa (.call env.time env.lines) s).Leaves _ := keeps_call_instret s.instret env.time env.lines s rfl
  unfold StepBounded
  cases hcall : next port host isa (.call env.time env.lines) s with
  | ok u s1 =>
    rw [hcall] at hkeep
    have hs1 : s1.instret = s.instret := hkeep
    have hiff : LeftWithin (stepTurns port host isa env (s.inststop count)) count.toNat s1 ↔
        ¬ Idles (stepTurns port host isa env (s.inststop count)) s1 := by
      refine leftWithin_iff (I := fun done s' => s'.instret = s.instret + BitVec.ofNat 64 done) ?_ ?_
      · rw [hs1]
        exact (BitVec.add_zero _).symm
      · intro n done s' hn hs' hle
        exact holds_stepTurn (setWidth_inststop hwrap) hs' hle fun hstops => hok s1 hcall n done s' hn hstops
    dsimp only
    rw [hiff, idles_iff_trapsForever]
    refine ⟨fun h s2 h2 => ?_, fun h => h s1 rfl⟩
    obtain rfl := (Outcome.ok.inj h2).2
    exact h
  | error x s1 => exact iff_of_true trivial fun s2 h2 => by cases h2
  | undefined => exact absurd hcall (defined_call env.time env.lines s)

end Turns

end Runloop

end Rv8.Emu
