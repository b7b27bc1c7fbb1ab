import Rv8.Emu.Proxy
import Rv8.Emu.StepBound
/-!
# The run loop of the JIT

`step` of `jit-runloop.h` over the proxy processor, and that of `processor-runloop.h`
over the same processor, which lacks the translator. A trace that was translated for the
pc is executed, otherwise one instruction is interpreted. A pc that is fetched often is
hot: `jit_trace` interprets from there and hands each instruction to the emitter until
the emitter refuses one, and then the step returns.

The interpreter counts what it retires, and translated code does not. While a trace is
recorded nothing looks at `inststop`.
-/

namespace Rv8.Jit

open Rv8.Lib Rv8.Asm Rv8.Emu Prog

variable {R : Rv} {σ : Type}

/-! ## Traces -/

/-- How the code of a trace ends, with the number of instructions it has retired: it returns, or a signal leaves it,
or it goes on for ever. -/
inductive TraceEnd (R : Rv) (σ : Type)
  | returned (retired : Nat) (proc : Proxied R σ)
  | signal (retired : Nat) (proc : Proxied R σ)
  | endless

abbrev TraceFunc (R : Rv) (σ : Type) := Proxied R σ → TraceEnd R σ

/-- An instruction and its pc, as the emitter gets them. -/
abbrev Emitted (R : Rv) := BitVec R.xlen × Decode

/-- What the loop uses of the emitter, and the settings of the JIT. -/
structure Translator (R : Rv) (σ : Type) where
  /-- Whether the emitter takes an instruction after those that it has taken. -/
  emit : List (Emitted R) → Emitted R → Bool
  /-- `rt.add` of what was emitted, which may fail. -/
  add : List (Emitted R) → Option (TraceFunc R σ)
  traceIters : BitVec R.xlen
  traceLength : BitVec R.xlen

/-- The locals of `jit_trace`. -/
structure Tracing (R : Rv) where
  tracePc : BitVec R.xlen
  traceInstret : BitVec R.xlen
  emitted : List (Emitted R)

def hotspotTraceLimit : Nat := 2 ^ 64 - 2
def hotspotTraceSkip : Nat := 2 ^ 64 - 1

structure JitRunloop (R : Rv) (σ : Type) where
  proc : Proxied R σ
  cache : InstCache
  pcOffset : BitVec R.xlen
  /-- `proc_log_hist_pc` and `proc_log_jit_trap` of `P::log` -/
  (logHistPc logJitTrap : Bool)
  /-- How often a pc was fetched, 0 for one that is not in the map. -/
  histPc : BitVec R.xlen → Nat
  traceCacheProlog : BitVec R.xlen → Option (TraceFunc R σ)
  tracing : Option (Tracing R)

namespace JitRunloop

def pc (s : JitRunloop R σ) : BitVec R.xlen := s.proc.hart.pc

def instret (s : JitRunloop R σ) : BitVec 64 := s.proc.hart.csrs.instret

def retire (offset : BitVec R.xlen) (s : JitRunloop R σ) : JitRunloop R σ :=
  { s with proc.hart.pc := s.pc + offset, proc.hart.csrs.instret := s.instret + 1 }

section Loop
variable (px : ProxyHost R σ) (host : Host) (isa : Isa) (jit : Option (Translator R σ))

def onProc {α : Type} (m : Prog ProxyRaise (Proxied R σ) α) : Prog ProxyRaise (JitRunloop R σ) α :=
  m.zoom (fun s => s.proc) fun s proc => { s with proc }

def histogramAddPc (s : JitRunloop R σ) : JitRunloop R σ :=
  let iters := s.histPc s.pc
  { s with histPc := Function.update s.histPc s.pc (if iters < hotspotTraceLimit then iters + 1 else iters) }

/-- The test of `inst_fetch`. A processor without JIT is never asked to trap. -/
def hot (s : JitRunloop R σ) : Bool :=
  match jit with
  | some j => s.logHistPc && s.logJitTrap && s.histPc s.pc != hotspotTraceSkip && decide (j.traceIters.toNat ≤ s.histPc s.pc)
  | none => false

/-- `inst_fetch` of `mmu_proxy` -/
def fetch : Prog ProxyRaise (JitRunloop R σ) (Nat × Nat) := do
  .modify fun s => if s.logHistPc then s.histogramAddPc else s
  let s ← .get
  if s.hot jit then .throw .hotspot
  else onProc (px.instFetch s.pc.toNat)

/-- `inst_fence_i` -/
def instFenceI (dec : Decode) (pcOffset : BitVec R.xlen) : Prog ProxyRaise (JitRunloop R σ) (BitVec R.xlen) :=
  if jit.isSome ∧ dec.op = .fence_i then do
    .modify fun s => { s with traceCacheProlog := fun _ => none }
    pure pcOffset
  else pure Machine.illegal

/-- One turn of the loop, where no trace is executed. -/
def interpret (getTime : BitVec 64) : Prog ProxyRaise (JitRunloop R σ) Unit := do
  let fetched ← fetch px jit
  .modify fun s => { s with cache := s.cache.lookup R isa fetched.1, pcOffset := BitVec.ofNat R.xlen fetched.2 }
  let s ← .get
  let newOffset ← onProc (execInstOn px.bus host isa.ext s.cache.dec s.pcOffset)
  if newOffset ≠ Machine.illegal then .modify fun s => s.retire newOffset
  else do
    let newOffset ← instFenceI jit s.cache.dec s.pcOffset
    if newOffset ≠ Machine.illegal then .modify fun s => s.retire newOffset
    else do
      let newOffset ← onProc (px.instPriv getTime s.cache.dec s.pcOffset)
      if newOffset ≠ Machine.illegal then .modify fun s => s.retire newOffset
      else .throw .illegalInstruction

/-- How a turn of `jit_trace` ends, with what was emitted and, at the end, the instructions it has retired. -/
inductive Traced (R : Rv)
  | goesOn (emitted : List (Emitted R))
  | ends (retired : Nat) (emitted : List (Emitted R))

/-- One turn of `jit_trace`. -/
def trace (j : Translator R σ) (t : Tracing R) : Prog ProxyRaise (JitRunloop R σ) (Traced R) := do
  let fetched ← fetch px (some j)
  let s ← .get
  let dec := instDecode R isa {} fetched.1
  if j.emit t.emitted (s.pc, dec) = false then pure (.ends 0 t.emitted)
  else do
    let emitted := t.emitted ++ [(s.pc, dec)]
    let newOffset ← onProc (execInstOn px.bus host isa.ext dec (BitVec.ofNat R.xlen fetched.2))
    if newOffset = Machine.illegal then pure (.ends 0 emitted)
    else do
      .modify fun s => s.retire newOffset
      let s ← .get
      if j.traceLength ≠ 0 ∧ j.traceLength.toNat ≤ (s.instret - t.traceInstret.setWidth 64).toNat then pure (.ends 1 emitted)
      else pure (.goesOn emitted)

/-- `jit_trace` is entered. -/
def beginTrace (s : JitRunloop R σ) : JitRunloop R σ :=
  { s with logJitTrap := false, tracing := some ⟨s.pc, s.instret.setWidth R.xlen, []⟩ }

/-- The end of `jit_trace`, with `jit_cache`. -/
def endTrace (j : Translator R σ) (t : Tracing R) (emitted : List (Emitted R)) (s : JitRunloop R σ) : JitRunloop R σ :=
  let s := { s with logJitTrap := true, tracing := none }
  if s.instret = t.traceInstret.setWidth 64 then { s with histPc := Function.update s.histPc t.tracePc hotspotTraceSkip }
  else
    match j.add emitted with
    | some fn => { s with traceCacheProlog := Function.update s.traceCacheProlog t.tracePc (some fn) }
    | none => s

/-- `jit_exec`, where the loop calls it. -/
def jitExec (s : JitRunloop R σ) : Option (TraceEnd R σ) :=
  if jit.isSome ∧ s.logJitTrap then (s.traceCacheProlog s.pc).map fun fn => fn s.proc else none

def Stops (inststop : BitVec R.xlen) (s : JitRunloop R σ) : Prop := s.instret = inststop.setWidth 64

instance (inststop : BitVec R.xlen) (s : JitRunloop R σ) : Decidable (s.Stops inststop) := inferInstanceAs (Decidable (_ = _))

/-- One turn of the loop in `step`. -/
def loopTurn (inststop : BitVec R.xlen) (getTime : BitVec 64) (s : JitRunloop R σ) : Turn (JitRunloop R σ) :=
  if s.Stops inststop then .left 0 s
  else
    match s.jitExec jit with
    | some (.returned retired proc) => .next retired { s with proc }
    | some (.signal retired proc) => .left retired { s with proc }
    | some .endless => .stuck
    | none =>
      match interpret px host isa jit getTime s with
      | .ok _ s' => .next 1 s'
      | .error e s' => if jit.isSome ∧ e = .hotspot then .next 0 s'.beginTrace else .left 0 s'
      | .undefined => .stuck

/-- One turn of the loop in `jit_trace`. -/
def traceTurn (j : Translator R σ) (t : Tracing R) (s : JitRunloop R σ) : Turn (JitRunloop R σ) :=
  match trace px host isa j t s with
  | .ok (.goesOn emitted) s' => .next 1 { s' with tracing := some { t with emitted } }
  | .ok (.ends retired emitted) s' => .left retired (s'.endTrace j t emitted)
  | .error _ s' => .left 0 { s' with tracing := none }
  | .undefined => .stuck

/-- The turns of `step`, once it is entered. -/
def stepTurns (env : StepEnv) (inststop : BitVec R.xlen) (n : Nat) (s : JitRunloop R σ) : Turn (JitRunloop R σ) :=
  match jit, s.tracing with
  | some j, some t => traceTurn px host isa j t s
  | _, _ => loopTurn px host isa jit inststop (env.getTime n) s

/-- `typename P::ux inststop = P::instret + count` -/
def inststop (s : JitRunloop R σ) (count : BitVec 64) : BitVec R.xlen := (s.instret + count).setWidth R.xlen

/-- `step` is called: its locals are constructed, and `isr` does nothing. -/
def enter (env : StepEnv) (s : JitRunloop R σ) : JitRunloop R σ :=
  { s with
    proc.hart.csrs.time := env.time
    cache := s.cache.enter
    pcOffset := BitVec.ofNat R.xlen host.uninit
    tracing := none }

/-- `step(count)` returns after it has retired at most `count` instructions. -/
def StepBounded (env : StepEnv) (count : BitVec 64) (s : JitRunloop R σ) : Prop :=
  LeftWithin (stepTurns px host isa jit env (s.inststop count)) count.toNat (s.enter host env)

/-- No translated code is executed in the turn, and a trace that is recorded ends at `inststop`: the emitter refuses
the next instruction. -/
structure Counted (inststop : BitVec R.xlen) (s : JitRunloop R σ) : Prop where
  exec : s.tracing = none → ¬ s.Stops inststop → s.jitExec jit = none
  trace : ∀ j ∈ jit, ∀ t ∈ s.tracing, s.Stops inststop → ∀ fetched s', fetch px jit s = .ok fetched s' →
    j.emit t.emitted (s'.pc, instDecode R isa {} fetched.1) = false

end Loop

/-! ## The counter -/

section Counter
variable {px : ProxyHost R σ} {host : Host} {isa : Isa} {jit : Option (Translator R σ)}

theorem keeps_onProc {α : Type} {v : BitVec 64} {m : Prog ProxyRaise (Proxied R σ) α} (h : Keeps (fun p => p.hart.csrs.instret = v) m) :
    Keeps (fun s : JitRunloop R σ => s.instret = v) (onProc m) := keeps_zoom h (fun _ h => h) fun _ _ _ h => h

theorem keeps_fetch (v : BitVec 64) : Keeps (fun s => s.instret = v) (fetch px jit) := by
  refine keeps_bind (keeps_modify fun s hs => ?_) fun _ => keeps_bind keeps_get fun s => keeps_ite (keeps_throw _) ?_
  · split
    · exact hs
    · exact hs
  · exact keeps_onProc (keeps_instFetchProxy px _ _)

theorem defined_fetch : Defined (fetch px jit) :=
  defined_bind (defined_modify _) fun _ => defined_bind defined_get fun _ =>
    defined_ite (defined_throw _) (defined_zoom (defined_instFetchProxy px _))

theorem keeps_exec (v : BitVec 64) (dec : Decode) (pcOffset : BitVec R.xlen) :
    Keeps (fun s : JitRunloop R σ => s.instret = v) (onProc (execInstOn px.bus host isa.ext dec pcOffset)) :=
  keeps_onProc (keeps_execInstOn ((spared_instret v).at dec.rd) (px.bus_frames _) (fun _ _ h => h) host isa.ext pcOffset)

theorem defined_exec (dec : Decode) (pcOffset : BitVec R.xlen) :
    Defined (onProc (execInstOn px.bus host isa.ext dec pcOffset) : Prog _ (JitRunloop R σ) _) :=
  defined_zoom (defined_execInstOn px.bus_defined host isa.ext dec pcOffset)

theorem keeps_instFenceI (v : BitVec 64) (dec : Decode) (pcOffset : BitVec R.xlen) :
    Keeps (fun s : JitRunloop R σ => s.instret = v) (instFenceI jit dec pcOffset) :=
  keeps_ite (keeps_bind (keeps_modify fun _ h => h) fun _ => keeps_pure _) (keeps_pure _)

theorem defined_instFenceI (dec : Decode) (pcOffset : BitVec R.xlen) :
    Defined (instFenceI jit dec pcOffset : Prog _ (JitRunloop R σ) _) :=
  defined_ite (defined_bind (defined_modify _) fun _ => defined_pure _) (defined_pure _)

/-- What `interpret` does where the offset is known. -/
theorem counts_retire (offset : BitVec R.xlen) (s : JitRunloop R σ) :
    Counts instret 1 s ((.modify fun s => s.retire offset : Prog ProxyRaise (JitRunloop R σ) Unit) s) := rfl

/-- An instruction that is interpreted is counted. -/
theorem counts_interpret (getTime : BitVec 64) (s : JitRunloop R σ) : Counts instret 1 s (interpret px host isa jit getTime s) := by
  refine counts_bind (counts_of_keeps keeps_fetch s) fun fetched s1 _ => ?_
  refine counts_bind (BitVec.add_zero s1.instret).symm fun _ s2 _ => ?_
  refine counts_bind (counts_of_keeps (fun _ => keeps_get) s2) fun s' s3 _ => ?_
  refine counts_bind (counts_of_keeps (fun v => keeps_exec v _ _) s3) fun off s4 _ => ?_
  by_cases hoff : off ≠ Machine.illegal
  · rw [if_pos hoff]
    exact counts_retire off s4
  · rw [if_neg hoff]
    refine counts_bind (counts_of_keeps (fun v => keeps_instFenceI v _ _) s4) fun off s5 _ => ?_
    by_cases hoff : off ≠ Machine.illegal
    · rw [if_pos hoff]
      exact counts_retire off s5
    · rw [if_neg hoff]
      refine counts_bind (counts_of_keeps (fun v => keeps_onProc (keeps_instPrivProxy px getTime _ _ v)) s5) fun off s6 _ => ?_
      by_cases hoff : off ≠ Machine.illegal
      · rw [if_pos hoff]
        exact counts_retire off s6
      · rw [if_neg hoff]
        exact (rfl : instret s6 = instret s6)

theorem defined_interpret (getTime : BitVec 64) : Defined (interpret px host isa jit getTime) := by
  refine defined_bind defined_fetch fun fetched => defined_bind (defined_modify _) fun _ => defined_bind defined_get fun s => ?_
  refine defined_bind (defined_exec _ _) fun off => defined_ite (defined_modify _) ?_
  refine defined_bind (defined_instFenceI _ _) fun off => defined_ite (defined_modify _) ?_
  refine defined_bind (defined_zoom (defined_instPrivProxy px getTime _ _)) fun off => ?_
  exact defined_ite (defined_modify _) (defined_throw _)

/-- What a turn of `jit_trace` has retired, and that it retires nothing where the emitter refuses the instruction. -/
def TraceCounts (refused : Prop) (s : JitRunloop R σ) : Outcome ProxyRaise (JitRunloop R σ) (Traced R) → Prop
  | .ok (.goesOn _) s' => s'.instret = s.instret + 1 ∧ ¬ refused
  | .ok (.ends retired _) _ => retired ≤ 1 ∧ (refused → retired = 0)
  | .error _ _ => True
  | .undefined => False

theorem traceCounts_trace {j : Translator R σ} {t : Tracing R} {s : JitRunloop R σ} {refused : Prop}
    (hrefused : refused → ∀ fetched s', fetch px (some j) s = .ok fetched s' →
      j.emit t.emitted (s'.pc, instDecode R isa {} fetched.1) = false) :
    TraceCounts refused s (trace px host isa j t s) := by
  unfold trace
  cases hf : fetch px (some j) s with
  | undefined => exact absurd hf (defined_fetch s)
  | error e s1 =>
    rw [bind_error hf]
    trivial
  | ok fetched s1 =>
    have hs1 : s1.instret = s.instret := by
      have hkeep : (fetch px (some j) s).Leaves _ := keeps_fetch s.instret s rfl
      rw [hf] at hkeep
      exact hkeep
    rw [bind_ok hf]
    show TraceCounts refused s ((if _ then _ else _ : Prog ProxyRaise (JitRunloop R σ) (Traced R)) s1)
    by_cases hemit : j.emit t.emitted (s1.pc, instDecode R isa {} fetched.1) = false
    · rw [if_pos hemit]
      exact ⟨Nat.zero_le 1, fun _ => rfl⟩
    · rw [if_neg hemit]
      have hnot : ¬ refused := fun h => hemit (hrefused h fetched s1 hf)
      cases hx : (onProc (execInstOn px.bus host isa.ext (instDecode R isa {} fetched.1) (BitVec.ofNat R.xlen fetched.2)) :
          Prog _ (JitRunloop R σ) _) s1 with
      | undefined => exact absurd hx (defined_exec _ _ s1)
      | error e s2 =>
        rw [bind_error hx]
        trivial
      | ok off s2 =>
        have hs2 : s2.instret = s.instret := by
          have hkeep : (onProc (execInstOn px.bus host isa.ext (instDecode R isa {} fetched.1) (BitVec.ofNat R.xlen fetched.2)) s1).Leaves _ :=
            keeps_exec s.instret _ _ s1 hs1
          rw [hx] at hkeep
          exact hkeep
        rw [bind_ok hx]
        by_cases hoff : off = Machine.illegal
        · rw [if_pos hoff]
          exact ⟨Nat.zero_le 1, fun _ => rfl⟩
        · rw [if_neg hoff]
          show TraceCounts refused s ((if _ then _ else _ : Prog ProxyRaise (JitRunloop R σ) (Traced R)) (s2.retire off))
          split
          · exact ⟨Nat.le_refl 1, fun h => absurd h hnot⟩
          · exact ⟨congrArg (· + 1) hs2, hnot⟩

end Counter

/-! ## Staying within the count -/

section Bounded
variable {px : ProxyHost R σ} {host : Host} {isa : Isa} {jit : Option (Translator R σ)} {env : StepEnv} {inststop : BitVec R.xlen}
  {getTime : BitVec 64} {s s' : JitRunloop R σ}

/-- The counter is as far from its first value as instructions were retired. -/
def Ahead (old : BitVec 64) (done : Nat) (s : JitRunloop R σ) : Prop := s.instret = old + BitVec.ofNat 64 done

theorem Ahead.succ {old : BitVec 64} {done : Nat} (h : s.Ahead old done) (hs : s'.instret = s.instret + 1) : s'.Ahead old (done + 1) := by
  unfold Ahead
  rw [hs, h, BitVec.add_assoc, BitVec.ofNat_add]
  rfl

/-- Before `inststop` fewer instructions were retired than `count`. -/
theorem Ahead.lt {old count : BitVec 64} {done : Nat} (h : s.Ahead old done) (hstop : inststop.setWidth 64 = old + count)
    (hle : done ≤ count.toNat) (hno : ¬ s.Stops inststop) : done < count.toNat := by
  refine Nat.lt_of_le_of_ne hle fun he => hno ?_
  unfold Stops
  rw [h, hstop, he, BitVec.ofNat_toNat, BitVec.setWidth_eq]

theorem holds_loopTurn {old count : BitVec 64} (hstop : inststop.setWidth 64 = old + count) {done : Nat} (hs : s.Ahead old done)
    (hle : done ≤ count.toNat) (hexec : ¬ s.Stops inststop → s.jitExec jit = none) :
    (loopTurn px host isa jit inststop getTime s).Holds (Ahead old) count.toNat done := by
  unfold loopTurn
  by_cases hstops : s.Stops inststop
  · rw [if_pos hstops]
    exact hle
  · rw [if_neg hstops, hexec hstops]
    have hcounts : Counts instret 1 s (interpret px host isa jit getTime s) := counts_interpret getTime s
    dsimp only
    cases hi : interpret px host isa jit getTime s with
    | ok u s1 =>
      rw [hi] at hcounts
      exact ⟨hs.succ hcounts, hs.lt hstop hle hstops⟩
    | error e s1 =>
      rw [hi] at hcounts
      dsimp only
      split
      · exact ⟨Eq.trans hcounts hs, hle⟩
      · exact hle
    | undefined => exact defined_interpret getTime s hi

theorem holds_traceTurn {old count : BitVec 64} (hstop : inststop.setWidth 64 = old + count) {done : Nat} (hs : s.Ahead old done)
    (hle : done ≤ count.toNat) {j : Translator R σ} {t : Tracing R}
    (hrefused : s.Stops inststop → ∀ fetched s', fetch px (some j) s = .ok fetched s' →
      j.emit t.emitted (s'.pc, instDecode R isa {} fetched.1) = false) :
    (traceTurn px host isa j t s).Holds (Ahead old) count.toNat done := by
  have hcounts : TraceCounts (s.Stops inststop) s (trace px host isa j t s) := traceCounts_trace hrefused
  unfold traceTurn
  cases htrace : trace px host isa j t s with
  | ok traced s1 =>
    rw [htrace] at hcounts
    cases traced with
    | goesOn emitted => exact ⟨hs.succ hcounts.1, hs.lt hstop hle hcounts.2⟩
    | ends retired emitted =>
      by_cases hstops : s.Stops inststop
      · have h0 : retired = 0 := hcounts.2 hstops
        rw [h0]
        exact hle
      · exact Nat.le_trans (Nat.add_le_add_left hcounts.1 done) (hs.lt hstop hle hstops)
  | error e s1 => exact hle
  | undefined =>
    rw [htrace] at hcounts
    exact hcounts

theorem traceTurn_next {j : Translator R σ} {t : Tracing R} {work : Nat} (h : traceTurn px host isa j t s = .next work s') : work = 1 := by
  unfold traceTurn at h
  split at h
  · exact (Turn.next.inj h).1.symm
  · cases h
  · cases h
  · cases h

/-- A turn of the loop that retires nothing and goes on begins a trace. -/
theorem loopTurn_next_zero (hexec : ¬ s.Stops inststop → s.jitExec jit = none)
    (h : loopTurn px host isa jit inststop getTime s = .next 0 s') : jit.isSome = true ∧ s'.tracing.isSome = true := by
  unfold loopTurn at h
  by_cases hstops : s.Stops inststop
  · rw [if_pos hstops] at h
    cases h
  · rw [if_neg hstops, hexec hstops] at h
    dsimp only at h
    split at h
    · exact absurd (Turn.next.inj h).1 Nat.one_ne_zero
    · split at h
      · next hhot =>
        obtain ⟨-, rfl⟩ := Turn.next.inj h
        exact ⟨hhot.1, rfl⟩
      · cases h
    · cases h

theorem stepTurns_of_tracing {j : Translator R σ} {t : Tracing R} (ht : s.tracing = some t) (n : Nat) :
    stepTurns px host isa (some j) env inststop n s = traceTurn px host isa j t s := by
  unfold stepTurns
  rw [ht]

theorem stepTurns_of_not_tracing (h : jit = none ∨ s.tracing = none) (n : Nat) :
    stepTurns px host isa jit env inststop n s = loopTurn px host isa jit inststop (env.getTime n) s := by
  unfold stepTurns
  rcases h with rfl | h
  · rfl
  · rw [h]
    cases jit <;> rfl

/-- A trace is recorded, or the loop is at its head and executes none. -/
theorem Counted.cases (h : s.Counted px isa jit inststop) :
    (∃ j t, jit = some j ∧ s.tracing = some t) ∨ ((jit = none ∨ s.tracing = none) ∧ (¬ s.Stops inststop → s.jitExec jit = none)) := by
  cases jit with
  | none => exact .inr ⟨.inl rfl, fun _ => rfl⟩
  | some j =>
    cases ht : s.tracing with
    | none => exact .inr ⟨.inr rfl, h.exec ht⟩
    | some t => exact .inl ⟨j, t, rfl, rfl⟩

theorem stepTurns_next_zero (hok : s.Counted px isa jit inststop) {n : Nat} (h : stepTurns px host isa jit env inststop n s = .next 0 s') :
    jit.isSome = true ∧ s.tracing = none ∧ s'.tracing.isSome = true := by
  rcases hok.cases with ⟨j, t, rfl, ht⟩ | ⟨hno, hexec⟩
  · rw [stepTurns_of_tracing ht] at h
    exact absurd (traceTurn_next h) Nat.zero_ne_one
  · rw [stepTurns_of_not_tracing hno] at h
    obtain ⟨hj, ht⟩ := loopTurn_next_zero hexec h
    refine ⟨hj, hno.resolve_left fun he => ?_, ht⟩
    rw [he] at hj
    cases hj

/-- Where `inststop` holds the whole sum, no translated code is executed and no trace is recorded beyond
`inststop`, the step is bounded. -/
theorem stepBounded {count : BitVec 64} (hwrap : (s.instret + count).toNat < 2 ^ R.xlen)
    (hok : ∀ n done s', turns (stepTurns px host isa jit env (s.inststop count)) (s.enter host env) n = .next done s' →
      s'.Counted px isa jit (s.inststop count)) : StepBounded px host isa jit env count s := by
  have hstop : (s.inststop count).setWidth 64 = s.instret + count := Runloop.setWidth_inststop hwrap
  have hstart : (s.enter host env).Ahead s.instret 0 := (BitVec.add_zero _).symm
  unfold StepBounded
  refine (leftWithin_iff hstart fun n done s' hn hs' hle => ?_).2 ?_
  · rcases (hok n done s' hn).cases with ⟨j, t, rfl, ht⟩ | ⟨hno, hexec⟩
    · rw [stepTurns_of_tracing ht]
      exact holds_traceTurn hstop hs' hle ((hok n done s' hn).trace j rfl t ht)
    · rw [stepTurns_of_not_tracing hno]
      exact holds_loopTurn hstop hs' hle hexec
  · -- a turn without work begins a trace, and the next one retires an instruction
    rintro ⟨n, done, hidle⟩
    obtain ⟨s0, h0⟩ := hidle n (Nat.le_refl n)
    obtain ⟨s1, h1⟩ := hidle (n + 1) (Nat.le_succ n)
    obtain ⟨s2, h2⟩ := hidle (n + 2) (Nat.le_add_right n 2)
    have hzero {m : Nat} {a b : JitRunloop R σ}
        (ha : turns (stepTurns px host isa jit env (s.inststop count)) (s.enter host env) m = .next done a)
        (hb : turns (stepTurns px host isa jit env (s.inststop count)) (s.enter host env) (m + 1) = .next done b) :
        stepTurns px host isa jit env (s.inststop count) m a = .next 0 b := by
      obtain ⟨done0, work, a', ha', hturn, hsum⟩ := of_turns_succ_next hb
      obtain ⟨rfl, rfl⟩ := Turn.next.inj (ha'.symm.trans ha)
      obtain rfl : work = 0 := by omega
      exact hturn
    have hbegin := (stepTurns_next_zero (hok n done s0 h0) (hzero h0 h1)).2.2
    have hnone := (stepTurns_next_zero (hok (n + 1) done s1 h1) (hzero h1 h2)).2.1
    rw [hnone] at hbegin
    cases hbegin

end Bounded

end JitRunloop

/-- On either loop, where `inststop` holds the whole sum and no instruction writes the counter: `processor_runloop` is
bounded unless it comes to do nothing but trap, and on the proxy processor, which ends at a trap, both are if no
translated code is executed and no trace is recorded beyond `inststop`. -/
theorem step_bounded {R : Rv} {σ : Type} (host : Host) (isa : Isa) (env : StepEnv) (count : BitVec 64) :
    (∀ (port : Port σ) (s : Runloop R σ), (s.instret + count).toNat < 2 ^ R.xlen →
      (∀ s1, Runloop.next port host isa (.call env.time env.lines) s = .ok () s1 → ∀ n done s',
        turns (Runloop.stepTurns port host isa env (s.inststop count)) s1 n = .next done s' → ¬ s'.Stops (s.inststop count) →
        s'.Counted port host isa (env.getTime n)) →
      (s.StepBounded port host isa env count ↔
        ∀ s1, Runloop.next port host isa (.call env.time env.lines) s = .ok () s1 →
          ¬ s1.TrapsForever port host isa env (s.inststop count))) ∧
    ∀ (px : ProxyHost R σ) (jit : Option (Translator R σ)) (s : JitRunloop R σ), (s.instret + count).toNat < 2 ^ R.xlen →
      (∀ n done s', turns (JitRunloop.stepTurns px host isa jit env (s.inststop count)) (s.enter host env) n = .next done s' →
        s'.Counted px isa jit (s.inststop count)) →
      s.StepBounded px host isa jit env count :=
  ⟨fun _ _ hwrap hok => Runloop.stepBounded_iff hwrap hok, fun _ _ _ hwrap hok => JitRunloop.stepBounded hwrap hok⟩

section Examples

/-- `nop`s everywhere. -/
def nopPort : Port Unit where
  load _ _ := pure 0
  store _ _ _ := pure ()
  updatePte _ _ _ := pure 0
  instBytes _ := pure (0x13, 4)
  storesBits _ := false

def countingRunloop (R : Rv) (instret : BitVec 64) : Runloop R Unit where
  machine := {
    hart := { (default : Hart R) with pc := 0x1000, mode := .M, csrs.instret := instret }
    mmu := ⟨Tlb.empty R, Tlb.empty R, ()⟩ }
  cache := {}
  pcOffset := 0

def quietEnv : StepEnv := ⟨0, ⟨false, false, false⟩, fun _ => 0⟩

def nopHost (R : Rv) : ProxyHost R Unit where
  load _ _ _ := some 0x13
  store _ _ _ _ := some ()
  syscall _ _ := none

/-- A processor that has translated a trace of two instructions for its pc. -/
def tracedRunloop (R : Rv) : JitRunloop R Unit where
  proc := ⟨default, ()⟩
  cache := {}
  pcOffset := 0
  logHistPc := true
  logJitTrap := true
  histPc _ := 0
  traceCacheProlog _ := some fun proc => .returned 2 proc
  tracing := none

def idleTranslator (R : Rv) : Translator R Unit := ⟨fun _ _ => false, fun _ => none, 0, 0⟩

theorem counted_nop : ∃ s1, Runloop.next nopPort default .imafdc (.call 0 ⟨false, false, false⟩) (countingRunloop .rv32 0) = .ok () s1 ∧
    s1.Counted nopPort default .imafdc 0 ∧ ∃ s2 s3,
      turns (Runloop.stepTurns nopPort default .imafdc quietEnv ((countingRunloop .rv32 0).inststop 1)) s1 1 = .next 1 s2 ∧
      s2.Stops ((countingRunloop .rv32 0).inststop 1) ∧
      turns (Runloop.stepTurns nopPort default .imafdc quietEnv ((countingRunloop .rv32 0).inststop 1)) s1 2 = .left 1 s3 := by
  refine ⟨_, rfl, ⟨?_, ?_⟩, _, _, rfl, rfl, rfl⟩
  · intro h
    cases h
  · intro s' hs'
    obtain ⟨-, rfl⟩ := Outcome.ok.inj hs'
    rintro ⟨hcsr, -⟩
    cases hcsr

/-- One `nop` on each loop. -/
theorem step_bounded_nop :
    (countingRunloop .rv32 0).StepBounded nopPort default .imafdc quietEnv 1 ∧
      (tracedRunloop .rv32).StepBounded (nopHost .rv32) default .imafdc none quietEnv 1 := by
  obtain ⟨s1, hcall, hcounted, s2, s3, h1, hstops, h2⟩ := counted_nop
  have hsame {s1' : Runloop .rv32 Unit} (h : Runloop.next nopPort default .imafdc (.call quietEnv.time quietEnv.lines)
      (countingRunloop .rv32 0) = .ok () s1') : s1' = s1 := (Outcome.ok.inj (h.symm.trans hcall)).2
  constructor
  · refine ((step_bounded default .imafdc quietEnv 1).1 nopPort (countingRunloop .rv32 0) (by decide) ?_).2 ?_
    · intro s1' hcall' n done s' hn hno
      obtain rfl := hsame hcall'
      rcases n with _ | _ | n
      · obtain ⟨-, rfl⟩ := Turn.next.inj hn
        exact hcounted
      · obtain ⟨-, rfl⟩ := Turn.next.inj (h1.symm.trans hn)
        exact absurd hstops hno
      · have hleft := turns_of_left h2 (n + 2) (Nat.le_add_left 2 n)
        cases hleft.symm.trans hn
    · rintro s1' hcall' ⟨n, htraps⟩
      obtain rfl := hsame hcall'
      obtain ⟨done, s', e, s'', hn, -⟩ := htraps (n + 2) (Nat.le_add_right n 2)
      have hleft := turns_of_left h2 (n + 2) (Nat.le_add_left 2 n)
      cases hleft.symm.trans hn
  · refine (step_bounded default .imafdc quietEnv 1).2 (nopHost .rv32) none (tracedRunloop .rv32) (by decide) ?_
    intro n done s' _
    exact ⟨fun _ _ => rfl, fun j hj => nomatch hj⟩

/-- On RV32 a counter of 33 bits never equals `inststop`, so a step of no instruction retires one. And a trace is
not counted, so a step of one instruction retires the two of a trace. -/
theorem not_step_bounded_rv32 :
    ¬ (countingRunloop .rv32 (2 ^ 32)).StepBounded nopPort default .imafdc quietEnv 0 ∧
      ¬ (tracedRunloop .rv64).StepBounded (nopHost .rv64) default .imafdc (some (idleTranslator .rv64)) quietEnv 1 := by
  constructor
  · have hcall : ∃ s1, Runloop.next nopPort default .imafdc (.call 0 ⟨false, false, false⟩) (countingRunloop .rv32 (2 ^ 32)) = .ok () s1 ∧
        ∃ s2, turns (Runloop.stepTurns nopPort default .imafdc quietEnv ((countingRunloop .rv32 (2 ^ 32)).inststop 0)) s1 1 = .next 1 s2 :=
      ⟨_, rfl, _, rfl⟩
    obtain ⟨s1, hcall, s2, hturn⟩ := hcall
    have henter : Runloop.next nopPort default .imafdc (.call quietEnv.time quietEnv.lines) (countingRunloop .rv32 (2 ^ 32)) =
      .ok () s1 := hcall
    unfold Runloop.StepBounded
    rw [henter]
    exact not_leftWithin_of_next hturn Nat.zero_lt_one
  · have hturn : ∃ s1, turns (JitRunloop.stepTurns (nopHost .rv64) default .imafdc (some (idleTranslator .rv64)) quietEnv
        ((tracedRunloop .rv64).inststop 1)) ((tracedRunloop .rv64).enter default quietEnv) 1 = .next 2 s1 := ⟨_, rfl⟩
    obtain ⟨s1, hturn⟩ := hturn
    exact not_leftWithin_of_next hturn (by decide)

end Examples

end Rv8.Jit
