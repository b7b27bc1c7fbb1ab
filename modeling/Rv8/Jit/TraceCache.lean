import Mathlib.Data.List.Basic
import Mathlib.Logic.Function.Basic
/-!
# Caches of translated traces

What `jit-runloop.h` keeps of the traces it has translated: two maps from the pc, the
table that `create_trace_lookup` emits code for, and the jumps between traces, which are
patched once their target is translated. `fence.i` is to discard all of it.

A trace stands for its code and is named by how many were translated before it. That
memory which was released may be handed out again is not modelled.
-/

namespace Rv8.Jit

/-! ## State -/

/-- A jump out of a trace: into another trace, or to the trampoline that looks up the pc. -/
inductive Jump
  | trace (t : Nat)
  | tramp (pc : BitVec 64)
deriving DecidableEq

structure TraceCache where
  /-- The number of traces translated so far. -/
  count : Nat := 0
  /-- The jumps of each trace, in the order they are emitted. -/
  code : Nat → List Jump := fun _ => []
  traceCacheProlog : BitVec 64 → Option Nat := fun _ => none
  traceCacheEntry : BitVec 64 → Option Nat := fun _ => none
  /-- The traces and the jumps in them that wait for a pc to be translated. -/
  jmpFixupAddrs : BitVec 64 → List (Nat × Nat) := fun _ => []
  tracePc : Nat → BitVec 64 := fun _ => 0
  traceFn : Nat → Option Nat := fun _ => none
  /-- The trace that is executed, none in the run loop. -/
  current : Option Nat := none
  /-- The number of traces that were translated before the last `fence.i`. -/
  fenced : Nat := 0

def traceL1Size : Nat := 1024

/-- The index that `[rbp + rcx * 4]` reaches in an array of 64-bit words. -/
def traceSlot (pc : BitVec 64) : Nat :=
  let mask : BitVec 64 := BitVec.ofNat 64 ((traceL1Size - 1) <<< 1)
  (pc &&& mask).toNat * 4 / 8

/-- What a step does with a trace: it is entered, or a jump of it is patched. -/
inductive Obs
  | entered (t : Nat)
  | patched (t : Nat)
deriving DecidableEq

def Obs.trace : Obs → Nat
  | .entered t => t
  | .patched t => t

namespace TraceCache

variable (s : TraceCache)

/-! ## Translation -/

/-- `lookup_trace` -/
def lookupTrace (pc : BitVec 64) : Option Nat := s.traceCacheEntry pc

/-- `emit_branch` jumps to a trace that is there, and else leaves a fixup. -/
def emitJump (pc : BitVec 64) : Jump :=
  match s.lookupTrace pc with
  | some t => .trace t
  | none => .tramp pc

/-- Points one jump at a trace. -/
def patch (target : Nat) (code : Nat → List Jump) (fixup : Nat × Nat) : Nat → List Jump :=
  Function.update code fixup.1 ((code fixup.1).set fixup.2 (.trace target))

def jitApplyFixups (pc : BitVec 64) (t : Nat) : TraceCache × List Obs :=
  ({ s with
      code := (s.jmpFixupAddrs pc).foldl (patch t) s.code
      jmpFixupAddrs := Function.update s.jmpFixupAddrs pc [] },
    (s.jmpFixupAddrs pc).map fun p => .patched p.1)

def jitStashFixups (t : Nat) (jumps : List Jump) : TraceCache :=
  { s with
    jmpFixupAddrs := fun pc =>
      s.jmpFixupAddrs pc ++ (jumps.zipIdx.filter fun p => p.1 = .tramp pc).map fun p => (t, p.2) }

/-- A trace that leaves to `exits` is added to the runtime. -/
def add (exits : List (BitVec 64)) : TraceCache :=
  { s with count := s.count + 1, code := Function.update s.code s.count (exits.map s.emitJump) }

/-- `jit_cache` -/
def jitCache (pc : BitVec 64) (exits : List (BitVec 64)) : TraceCache × List Obs :=
  let t := s.count
  let s1 := s.add exits
  let s2 := { s1 with
    traceCacheProlog := Function.update s1.traceCacheProlog pc (some t)
    traceCacheEntry := Function.update s1.traceCacheEntry pc (some t) }
  let r := s2.jitApplyFixups pc t
  (r.1.jitStashFixups t (exits.map s.emitJump), r.2)

/-! ## Execution -/

def enter (t : Nat) : TraceCache × List Obs := ({ s with current := some t }, [.entered t])

def leave : TraceCache × List Obs := ({ s with current := none }, [])

/-- `jit_exec` -/
def jitExec (pc : BitVec 64) : TraceCache × List Obs :=
  match s.traceCacheProlog pc with
  | some t => s.enter t
  | none => (s, [])

/-- The code of `create_trace_lookup`. A slot that was never filled is a jump to the null pointer. -/
def lookupTraceFast (pc : BitVec 64) : Option (TraceCache × List Obs) :=
  let i := traceSlot pc
  if s.tracePc i = pc then (s.traceFn i).map s.enter
  else
    match s.lookupTrace pc with
    | some t =>
      some ({ s with
        traceFn := Function.update s.traceFn i (some t)
        tracePc := Function.update s.tracePc i pc }.enter t)
    | none => some s.leave

def clearTraceCacheProlog : TraceCache :=
  { s with traceCacheProlog := fun _ => none, traceCacheEntry := fun _ => none }

/-- `inst_fence_i` -/
def instFenceI : TraceCache := { s.clearTraceCacheProlog with fenced := s.count }

end TraceCache

/-! ## Histories -/

inductive Event
  /-- A trace of `pc` that leaves to `exits` was translated. -/
  | translate (pc : BitVec 64) (exits : List (BitVec 64))
  /-- The run loop is at `pc`. -/
  | exec (pc : BitVec 64)
  /-- The trace takes one of its jumps. -/
  | jump (k : Nat)
  /-- The trace goes to `lookup_trace_fast` with `pc`. -/
  | lookup (pc : BitVec 64)
  /-- The trace returns to the run loop. -/
  | leave
  | fenceI
deriving DecidableEq

namespace TraceCache

variable (s : TraceCache)

/-- The run loop translates, enters traces and executes `fence.i`; in a trace it is the trace that goes on. -/
def step : Event → Option (TraceCache × List Obs)
  | .translate pc exits => if s.current = none then some (s.jitCache pc exits) else none
  | .exec pc => if s.current = none then some (s.jitExec pc) else none
  | .fenceI => if s.current = none then some (s.instFenceI, []) else none
  | .jump k =>
    s.current.bind fun t => (s.code t)[k]?.bind fun j =>
      match j with
      | .trace t' => some (s.enter t')
      | .tramp pc => s.lookupTraceFast pc
  | .lookup pc => s.current.bind fun _ => s.lookupTraceFast pc
  | .leave => s.current.map fun _ => s.leave

/-- The state after a history. -/
def after : List Event → TraceCache → Option TraceCache
  | [], s => some s
  | e :: h, s => (s.step e).bind fun r => after h r.1

/-- In no step is a trace entered, or a jump of it patched, that was translated before the last `fence.i`. -/
def Discards : List Event → TraceCache → Prop
  | [], _ => True
  | e :: h, s => ∀ r, s.step e = some r → (∀ o ∈ r.2, r.1.fenced ≤ o.trace) ∧ Discards h r.1

/-- The table holds no trace and no jump waits to be patched. -/
def Clean : Prop := (∀ i, s.traceFn i = none) ∧ ∀ pc, s.jmpFixupAddrs pc = []

/-- Whenever a `fence.i` is executed, the state is clean. -/
def CleanFences : List Event → TraceCache → Prop
  | [], _ => True
  | e :: h, s => (e = .fenceI → s.Clean) ∧ ∀ r, s.step e = some r → CleanFences h r.1

/-! ## What every state keeps -/

/-- Every trace that can be reached was translated, and not as one of the first `lo`. -/
structure Within (lo : Nat) (s : TraceCache) : Prop where
  prolog : ∀ pc t, s.traceCacheProlog pc = some t → lo ≤ t ∧ t < s.count
  entry : ∀ pc t, s.traceCacheEntry pc = some t → lo ≤ t ∧ t < s.count
  fixups : ∀ pc, ∀ p ∈ s.jmpFixupAddrs pc, lo ≤ p.1 ∧ p.1 < s.count
  table : ∀ i t, s.traceFn i = some t → (lo ≤ t ∧ t < s.count) ∧ traceSlot (s.tracePc i) = i
  jumps : ∀ t t', lo ≤ t → .trace t' ∈ s.code t → lo ≤ t' ∧ t' < s.count
  unused : ∀ t, s.count ≤ t → s.code t = []
  current : ∀ t, s.current = some t → lo ≤ t ∧ t < s.count
  le : lo ≤ s.count

variable {s : TraceCache} {lo : Nat}

theorem within_init : Within 0 {} where
  prolog _ _ h := nomatch h
  entry _ _ h := nomatch h
  fixups _ _ h := nomatch h
  table _ _ h := nomatch h
  jumps _ _ _ h := nomatch h
  unused _ _ := rfl
  current _ h := nomatch h
  le := Nat.le_refl 0

theorem mem_patches {target t : Nat} {j : Jump} (fixups : List (Nat × Nat)) (code : Nat → List Jump)
    (h : j ∈ fixups.foldl (patch target) code t) : j ∈ code t ∨ j = .trace target := by
  induction fixups generalizing code with
  | nil => exact .inl h
  | cons p fixups ih =>
    rcases ih _ h with h | h
    · unfold patch at h
      by_cases ht : t = p.1
      · rw [ht, Function.update_self] at h
        rw [ht]
        exact List.mem_or_eq_of_mem_set h
      · rw [Function.update_of_ne ht] at h
        exact .inl h
    · exact .inr h

theorem patches_nil {target t : Nat} (fixups : List (Nat × Nat)) (code : Nat → List Jump) (h : code t = []) :
    fixups.foldl (patch target) code t = [] := by
  induction fixups generalizing code with
  | nil => exact h
  | cons p fixups ih =>
    apply ih
    unfold patch
    by_cases ht : t = p.1
    · rw [ht, Function.update_self, ← ht, h]
      rfl
    · rw [Function.update_of_ne ht, h]

theorem within_enter (h : Within lo s) {t : Nat} (ht : lo ≤ t ∧ t < s.count) : Within lo (s.enter t).1 :=
  { h with current := by rintro _ ⟨⟩; exact ht }

theorem within_leave (h : Within lo s) : Within lo s.leave.1 :=
  { h with current := fun _ hcur => nomatch hcur }

/-- A lookup that finds a trace remembers it. -/
theorem within_remember (h : Within lo s) {pc : BitVec 64} {t : Nat} (ht : s.traceCacheEntry pc = some t) :
    Within lo { s with
      traceFn := Function.update s.traceFn (traceSlot pc) (some t)
      tracePc := Function.update s.tracePc (traceSlot pc) pc } :=
  { h with
    table := by
      intro i u hu
      by_cases hi : i = traceSlot pc
      · simp only [hi, Function.update_self] at hu ⊢
        obtain rfl : t = u := by simpa using hu
        exact ⟨h.entry pc t ht, trivial⟩
      · simp only [Function.update_of_ne hi] at hu ⊢
        exact h.table i u hu }

theorem within_add (h : Within lo s) (exits : List (BitVec 64)) : Within lo (s.add exits) where
  prolog pc t ht := ⟨(h.prolog pc t ht).1, Nat.lt_succ_of_lt (h.prolog pc t ht).2⟩
  entry pc t ht := ⟨(h.entry pc t ht).1, Nat.lt_succ_of_lt (h.entry pc t ht).2⟩
  fixups pc p hp := ⟨(h.fixups pc p hp).1, Nat.lt_succ_of_lt (h.fixups pc p hp).2⟩
  table i t ht := ⟨⟨(h.table i t ht).1.1, Nat.lt_succ_of_lt (h.table i t ht).1.2⟩, (h.table i t ht).2⟩
  jumps := by
    intro t t' hlo ht'
    by_cases ht : t = s.count
    · simp only [add, ht, Function.update_self, List.mem_map] at ht'
      obtain ⟨pc, -, hpc⟩ := ht'
      unfold emitJump lookupTrace at hpc
      cases hentry : s.traceCacheEntry pc with
      | none =>
        rw [hentry] at hpc
        cases hpc
      | some u =>
        rw [hentry] at hpc
        cases hpc
        exact ⟨(h.entry pc t' hentry).1, Nat.lt_succ_of_lt (h.entry pc t' hentry).2⟩
    · simp only [add, Function.update_of_ne ht] at ht'
      exact ⟨(h.jumps t t' hlo ht').1, Nat.lt_succ_of_lt (h.jumps t t' hlo ht').2⟩
  unused := by
    intro t ht
    have hne : t ≠ s.count := Nat.ne_of_gt ht
    simp only [add, Function.update_of_ne hne]
    exact h.unused t (Nat.le_of_succ_le ht)
  current t ht := ⟨(h.current t ht).1, Nat.lt_succ_of_lt (h.current t ht).2⟩
  le := Nat.le_succ_of_le h.le

theorem some_of_update {f : BitVec 64 → Option Nat} {P : Nat → Prop} (hf : ∀ pc t, f pc = some t → P t) {pc : BitVec 64} {t : Nat}
    (ht : P t) : ∀ pc' u, Function.update f pc (some t) pc' = some u → P u := by
  intro pc' u hu
  by_cases hpc : pc' = pc
  · rw [hpc, Function.update_self] at hu
    cases hu
    exact ht
  · rw [Function.update_of_ne hpc] at hu
    exact hf pc' u hu

theorem within_cache (h : Within lo s) (pc : BitVec 64) {t : Nat} (ht : lo ≤ t ∧ t < s.count) :
    Within lo { s with
      traceCacheProlog := Function.update s.traceCacheProlog pc (some t)
      traceCacheEntry := Function.update s.traceCacheEntry pc (some t) } :=
  { h with
    prolog := some_of_update h.prolog ht
    entry := some_of_update h.entry ht }

theorem within_jitApplyFixups (h : Within lo s) (pc : BitVec 64) {t : Nat} (ht : lo ≤ t ∧ t < s.count) :
    Within lo (s.jitApplyFixups pc t).1 :=
  { h with
    fixups := by
      intro pc' p hp
      simp only [jitApplyFixups] at hp
      by_cases hpc : pc' = pc
      · rw [hpc, Function.update_self] at hp
        cases hp
      · rw [Function.update_of_ne hpc] at hp
        exact h.fixups pc' p hp
    jumps := by
      intro u u' hlo hu'
      rcases mem_patches _ _ hu' with hu' | hu'
      · exact h.jumps u u' hlo hu'
      · cases hu'
        exact ht
    unused := fun u hu => patches_nil _ _ (h.unused u hu) }

theorem within_jitStashFixups (h : Within lo s) {t : Nat} (ht : lo ≤ t ∧ t < s.count) (jumps : List Jump) :
    Within lo (s.jitStashFixups t jumps) :=
  { h with
    fixups := by
      intro pc p hp
      simp only [jitStashFixups, List.mem_append, List.mem_map] at hp
      rcases hp with hp | ⟨q, -, rfl⟩
      · exact h.fixups pc p hp
      · exact ht }

theorem within_jitCache (h : Within lo s) (pc : BitVec 64) (exits : List (BitVec 64)) : Within lo (s.jitCache pc exits).1 := by
  have ht : lo ≤ s.count ∧ s.count < (s.add exits).count := ⟨h.le, Nat.lt_succ_self _⟩
  have hcache := within_cache (within_add h exits) pc ht
  exact within_jitStashFixups (within_jitApplyFixups hcache pc ht) ht _

/-- What is patched when `pc` is translated. -/
theorem jitCache_patched (pc : BitVec 64) (exits : List (BitVec 64)) :
    (s.jitCache pc exits).2 = (s.jmpFixupAddrs pc).map fun p => .patched p.1 := rfl

theorem within_lookupTraceFast (h : Within lo s) {pc : BitVec 64} {r : TraceCache × List Obs}
    (hr : s.lookupTraceFast pc = some r) : Within lo r.1 ∧ (∀ o ∈ r.2, lo ≤ o.trace) ∧ r.1.fenced = s.fenced := by
  unfold lookupTraceFast at hr
  dsimp only at hr
  split at hr
  · obtain ⟨t, ht, rfl⟩ := Option.map_eq_some_iff.mp hr
    refine ⟨within_enter h (h.table _ t ht).1, ?_, rfl⟩
    simp only [enter, List.mem_singleton, forall_eq]
    exact (h.table _ t ht).1.1
  · split at hr
    · next t ht =>
      cases hr
      have hremember := within_remember h ht
      refine ⟨within_enter hremember (h.entry pc t ht), ?_, rfl⟩
      simp only [enter, List.mem_singleton, forall_eq]
      exact (h.entry pc t ht).1
    · cases hr
      exact ⟨within_leave h, by simp [leave], rfl⟩

/-- A step other than `fence.i` reaches only what could be reached. -/
theorem within_step (h : Within lo s) {e : Event} (he : e ≠ .fenceI) {r : TraceCache × List Obs} (hr : s.step e = some r) :
    Within lo r.1 ∧ (∀ o ∈ r.2, lo ≤ o.trace) ∧ r.1.fenced = s.fenced := by
  cases e with
  | fenceI => exact absurd rfl he
  | translate pc exits =>
    simp only [step] at hr
    split at hr
    · cases hr
      refine ⟨within_jitCache h pc exits, ?_, rfl⟩
      rw [jitCache_patched]
      simp only [List.mem_map]
      rintro o ⟨p, hp, rfl⟩
      exact (h.fixups pc p hp).1
    · cases hr
  | exec pc =>
    simp only [step] at hr
    split at hr
    · cases hr
      unfold jitExec
      split
      · next t ht =>
        refine ⟨within_enter h (h.prolog pc t ht), ?_, rfl⟩
        simp only [enter, List.mem_singleton, forall_eq]
        exact (h.prolog pc t ht).1
      · exact ⟨h, by simp, rfl⟩
    · cases hr
  | jump k =>
    simp only [step, Option.bind_eq_some_iff] at hr
    obtain ⟨t, ht, j, hj, hr⟩ := hr
    cases j with
    | trace t' =>
      cases hr
      have ht' := h.jumps t t' (h.current t ht).1 (List.mem_of_getElem? hj)
      refine ⟨within_enter h ht', ?_, rfl⟩
      simp only [enter, List.mem_singleton, forall_eq]
      exact ht'.1
    | tramp pc => exact within_lookupTraceFast h hr
  | lookup pc =>
    simp only [step, Option.bind_eq_some_iff] at hr
    obtain ⟨t, -, hr⟩ := hr
    exact within_lookupTraceFast h hr
  | leave =>
    simp only [step, Option.map_eq_some_iff] at hr
    obtain ⟨t, -, rfl⟩ := hr
    exact ⟨within_leave h, by simp [leave], rfl⟩

/-- After a `fence.i` in a clean state, no trace can be reached. -/
theorem within_fenceI_of_clean (h : Within lo s) (hclean : s.Clean) (hcur : s.current = none) :
    Within s.instFenceI.fenced s.instFenceI where
  prolog _ _ ht := nomatch ht
  entry _ _ ht := nomatch ht
  fixups := by
    intro pc p hp
    change p ∈ s.jmpFixupAddrs pc at hp
    rw [hclean.2 pc] at hp
    cases hp
  table := by
    intro i t ht
    change s.traceFn i = some t at ht
    rw [hclean.1 i] at ht
    cases ht
  jumps := by
    intro t t' hlo ht'
    change .trace t' ∈ s.code t at ht'
    rw [h.unused t hlo] at ht'
    cases ht'
  unused := h.unused
  current := by
    intro t ht
    change s.current = some t at ht
    rw [hcur] at ht
    cases ht
  le := Nat.le_refl _

theorem step_fenceI {r : TraceCache × List Obs} (hr : s.step .fenceI = some r) : s.current = none ∧ r = (s.instFenceI, []) := by
  simp only [step] at hr
  split at hr
  · next hcur =>
    cases hr
    exact ⟨hcur, rfl⟩
  · cases hr

/-! ## Whole histories -/

/-- Whatever can be reached is newer than the last `fence.i`. -/
def Current (s : TraceCache) : Prop := Within s.fenced s

theorem current_step (h : Current s) {e : Event} (hclean : e = .fenceI → s.Clean) {r : TraceCache × List Obs}
    (hr : s.step e = some r) : Current r.1 ∧ ∀ o ∈ r.2, r.1.fenced ≤ o.trace := by
  by_cases he : e = .fenceI
  · subst he
    obtain ⟨hcur, rfl⟩ := step_fenceI hr
    exact ⟨within_fenceI_of_clean h (hclean rfl) hcur, by simp⟩
  · obtain ⟨hwithin, hobs, hfenced⟩ := within_step h he hr
    unfold Current
    rw [hfenced]
    exact ⟨hwithin, hobs⟩

theorem discards_of_cleanFences (es : List Event) (h : Current s) (hclean : CleanFences es s) : Discards es s := by
  induction es generalizing s with
  | nil => trivial
  | cons e es ih =>
    intro r hr
    obtain ⟨hcur, hobs⟩ := current_step h hclean.1 hr
    exact ⟨hobs, ih hcur (hclean.2 r hr)⟩

theorem current_after (es : List Event) (h : Current s) (hclean : CleanFences es s) {s' : TraceCache} (hs' : after es s = some s') :
    Current s' := by
  induction es generalizing s with
  | nil =>
    cases hs'
    exact h
  | cons e es ih =>
    obtain ⟨r, hr, hs'⟩ := Option.bind_eq_some_iff.mp hs'
    exact ih (current_step h hclean.1 hr).1 (hclean.2 r hr) hs'

theorem discards_append (es es' : List Event) {s' : TraceCache} (hs' : after es s = some s') :
    Discards (es ++ es') s ↔ Discards es s ∧ Discards es' s' := by
  induction es generalizing s with
  | nil =>
    cases hs'
    simp [Discards]
  | cons e es ih =>
    obtain ⟨r, hr, hs'⟩ := Option.bind_eq_some_iff.mp hs'
    have hiff := ih hs'
    simp only [List.cons_append, Discards, hr, Option.some.injEq, forall_eq']
    rw [hiff, and_assoc]

theorem cleanFences_of_notMem (es : List Event) (h : .fenceI ∉ es) : CleanFences es s := by
  induction es generalizing s with
  | nil => trivial
  | cons e es ih =>
    simp only [List.mem_cons, not_or] at h
    exact ⟨fun he => absurd he.symm h.1, fun r _ => ih h.2⟩

/-! ## Where the table or the fixups are left behind -/

/-- A trace in the table is still entered after the `fence.i`, from one that is translated and looks up its pc. -/
theorem not_discards_table (h : Within lo s) (hcur : s.current = none) {i t : Nat} (ht : s.traceFn i = some t) (pc : BitVec 64) :
    ¬ Discards [.fenceI, .translate pc [], .exec pc, .lookup (s.tracePc i)] s := by
  intro hd
  obtain ⟨⟨-, hlt⟩, hslot⟩ := h.table i t ht
  have hfence : s.step .fenceI = some (s.instFenceI, []) := if_pos hcur
  obtain ⟨-, hd⟩ := hd _ hfence
  have htrans : s.instFenceI.step (.translate pc []) = some (s.instFenceI.jitCache pc []) := if_pos hcur
  obtain ⟨-, hd⟩ := hd _ htrans
  have hexec : (s.instFenceI.jitCache pc []).1.step (.exec pc) = some ((s.instFenceI.jitCache pc []).1.enter s.count) := by
    have hprolog : (s.instFenceI.jitCache pc []).1.traceCacheProlog pc = some s.count := Function.update_self ..
    refine (if_pos hcur).trans ?_
    unfold jitExec
    rw [hprolog]
  obtain ⟨-, hd⟩ := hd _ hexec
  have hlookup : ((s.instFenceI.jitCache pc []).1.enter s.count).1.step (.lookup (s.tracePc i)) =
      some ((((s.instFenceI.jitCache pc []).1.enter s.count).1).enter t) := by
    show (if s.tracePc (traceSlot (s.tracePc i)) = s.tracePc i then (s.traceFn (traceSlot (s.tracePc i))).map _ else _) = _
    rw [hslot, if_pos rfl, ht]
    rfl
  have hle : s.count ≤ t := (hd _ hlookup).1 (.entered t) (by simp [enter])
  omega

/-- A jump that waits for a pc is still patched after the `fence.i`, when the pc is translated. -/
theorem not_discards_fixup (h : Within lo s) (hcur : s.current = none) {pc : BitVec 64} {p : Nat × Nat}
    (hp : p ∈ s.jmpFixupAddrs pc) : ¬ Discards [.fenceI, .translate pc []] s := by
  intro hd
  have hfence : s.step .fenceI = some (s.instFenceI, []) := if_pos hcur
  obtain ⟨-, hd⟩ := hd _ hfence
  have htrans : s.instFenceI.step (.translate pc []) = some (s.instFenceI.jitCache pc []) := if_pos hcur
  have hpatched : Obs.patched p.1 ∈ (s.instFenceI.jitCache pc []).2 := by
    rw [jitCache_patched]
    exact List.mem_map_of_mem hp
  have hle : s.count ≤ p.1 := (hd _ htrans).1 _ hpatched
  have hlt := (h.fixups pc p hp).2
  omega

theorem clean_of_discards (h : Within lo s) (hcur : s.current = none)
    (hd : ∀ es, .fenceI ∉ es → Discards (.fenceI :: es) s) : s.Clean := by
  constructor
  · intro i
    cases ht : s.traceFn i with
    | none => rfl
    | some t => exact absurd (hd _ (by simp)) (not_discards_table h hcur ht 0x1000)
  · intro pc
    cases hp : s.jmpFixupAddrs pc with
    | nil => rfl
    | cons p ps =>
      have hmem : p ∈ s.jmpFixupAddrs pc := by
        rw [hp]
        exact List.mem_cons_self
      exact absurd (hd _ (by simp)) (not_discards_fixup h hcur hmem)

/-- No trace from before a `fence.i` is reached if the state is clean at each of them; and at each, whether that is so
decides whether anything that follows can reach one. -/
theorem fence_i_discards (es : List Event) (hclean : CleanFences es {}) :
    Discards es {} ∧
    ∀ s, after es {} = some s → s.current = none →
      ((∀ es', .fenceI ∉ es' → Discards (es ++ .fenceI :: es') {}) ↔ s.Clean) := by
  have hinit : Current {} := within_init
  have hdiscards : Discards es {} := discards_of_cleanFences es hinit hclean
  refine ⟨hdiscards, ?_⟩
  intro s hs hcur
  have hs' : Current s := current_after es hinit hclean hs
  constructor
  · intro hd
    exact clean_of_discards hs' hcur fun es' hes' => ((discards_append es _ hs).mp (hd es' hes')).2
  · intro hs'clean es' hes'
    refine (discards_append es _ hs).mpr ⟨hdiscards, discards_of_cleanFences _ hs' ?_⟩
    exact ⟨fun _ => hs'clean, fun r _ => cleanFences_of_notMem es' hes'⟩

theorem cleanFences_cons {e : Event} {es : List Event} {r : TraceCache × List Obs} (hr : s.step e = some r)
    (he : e = .fenceI → s.Clean) (h : CleanFences es r.1) : CleanFences (e :: es) s := by
  refine ⟨he, ?_⟩
  intro r' hr'
  rw [hr] at hr'
  cases hr'
  exact h

theorem fence_i_discards_twice :
    CleanFences [.translate 0x1000 [], .exec 0x1000, .leave, .fenceI, .translate 0x1000 [], .exec 0x1000] {} ∧
      Discards [.translate 0x1000 [], .exec 0x1000, .leave, .fenceI, .translate 0x1000 [], .exec 0x1000] {} := by
  have hclean : CleanFences [.translate 0x1000 [], .exec 0x1000, .leave, .fenceI, .translate 0x1000 [], .exec 0x1000] {} := by
    refine cleanFences_cons rfl (by simp) (cleanFences_cons rfl (by simp) (cleanFences_cons rfl (by simp) ?_))
    refine cleanFences_cons rfl ?_ (cleanFences_of_notMem _ (by simp))
    intro _
    refine ⟨fun i => rfl, ?_⟩
    intro pc
    show Function.update (fun _ : BitVec 64 => ([] : List (Nat × Nat))) 0x1000 [] pc ++ [] = []
    simp [Function.update_apply]
  exact ⟨hclean, (fence_i_discards _ hclean).1⟩

/-- `fence.i` leaves the table of `create_trace_lookup`: the trace of 0x2000, entered from that of 0x1000, is entered
again from one that is translated later. -/
theorem not_fence_i_discards :
    ¬ Discards [.translate 0x2000 [], .translate 0x1000 [], .exec 0x1000, .lookup 0x2000, .leave, .fenceI,
      .translate 0x3000 [], .exec 0x3000, .lookup 0x2000] {} := by
  intro hd
  have hd := (hd _ rfl).2
  have hd := (hd _ rfl).2
  have hd := (hd _ rfl).2
  have hd := (hd _ rfl).2
  have hd := (hd _ rfl).2
  have hd := (hd _ rfl).2
  have hd := (hd _ rfl).2
  have hd := (hd _ rfl).2
  have hold : 2 ≤ 0 := (hd _ rfl).1 (.entered 0) (by decide)
  omega

end TraceCache

end Rv8.Jit
