import Rv8.Emu.Frame
import Rv8.Lib.Steps
/-!
# Load-reserved and store-conditional

The reservation of a hart is one register, `lr`. A load-reserved assigns it before it
loads, so also where the load traps, and the register knows no width. A
store-conditional compares its address with the register and leaves it as it is. So a
store-conditional can succeed again and again, after a load-reserved that trapped or
had another width, and at address 0 before there was any.

What has happened is kept in a history beside the machine, the newest first.
-/

namespace Rv8.Emu

open Rv8.Lib Rv8.Asm Prog

/-! ## Histories -/

/-- How a store-conditional ends. -/
inductive ScFate
  | stored | failed | trapped
deriving DecidableEq

/-- What is seen of an instruction. -/
inductive Seen (R : Rv)
  | lr (n : Nat) (va : BitVec R.xlen) (loaded : Bool)
  | sc (n : Nat) (va : BitVec R.xlen) (fate : ScFate)
  | other
deriving DecidableEq

namespace Seen

variable {R : Rv}

/-- An LR of this width has loaded from the address, and since then no SC was completed and no LR went to another
address. -/
def Reserved (n : Nat) (va : BitVec R.xlen) : List (Seen R) → Prop
  | [] => False
  | .lr n' va' loaded :: log => va' = va ∧ ((n' = n ∧ loaded = true) ∨ Reserved n va log)
  | .sc _ _ fate :: log => fate = .trapped ∧ Reserved n va log
  | .other :: log => Reserved n va log

/-- Each SC that stored was reserved for. -/
def Paired : List (Seen R) → Prop
  | [] => True
  | .sc n va fate :: log => (fate = .stored → Reserved n va log) ∧ Paired log
  | .lr .. :: log => Paired log
  | .other :: log => Paired log

/-- The last LR had this width and loaded, and no SC was completed since then. -/
def FirstSince (n : Nat) : List (Seen R) → Prop
  | [] => False
  | .lr n' _ loaded :: _ => n' = n ∧ loaded = true
  | .sc _ _ fate :: log => fate = .trapped ∧ FirstSince n log
  | .other :: log => FirstSince n log

/-- The address of the last LR. -/
def lastLr : List (Seen R) → Option (BitVec R.xlen)
  | [] => none
  | .lr _ va _ :: _ => some va
  | .sc .. :: log => lastLr log
  | .other :: log => lastLr log

theorem exists_lastLr {n : Nat} {log : List (Seen R)} (h : FirstSince n log) : ∃ va, lastLr log = some va ∧ Reserved n va log := by
  induction log with
  | nil => exact h.elim
  | cons e log ih =>
    cases e with
    | lr n' va loaded => exact ⟨va, rfl, rfl, .inl h⟩
    | sc n' va fate =>
      obtain ⟨va, hlast, hres⟩ := ih h.2
      exact ⟨va, hlast, h.1, hres⟩
    | other => exact ih h

end Seen

/-! ## Executions -/

section Executions
variable {R : Rv} {σ : Type} (port : Port σ) (host : Host) (rv : Ext → Bool)

/-- The SC is told by what it assigns its register: 0 or 1. -/
def scFate (dec : Decode) (pcOffset : BitVec R.xlen) (n : Nat) (va : BitVec R.xlen) (val : Nat) (s : Machine R σ) : ScFate :=
  match (Action.sc n va val).run port host { dec with rd := 1 } pcOffset s with
  | .ok _ s' => if s'.hart.ireg 1 = 0 then .stored else .failed
  | .error _ _ => .trapped
  | .undefined => .trapped

def loads (dec : Decode) (pcOffset : BitVec R.xlen) (n : Nat) (va : BitVec R.xlen) (s : Machine R σ) : Bool :=
  match (Action.lr n va).run port host dec pcOffset s with
  | .ok _ _ => true
  | .error _ _ => false
  | .undefined => false

def seen (dec : Decode) (pcOffset : BitVec R.xlen) (s : Machine R σ) : Seen R :=
  match action host s.hart dec dec.op with
  | some (ext, .lr n va) => if rv ext then .lr n va (loads port host dec pcOffset n va s) else .other
  | some (ext, .sc n va val) => if rv ext then .sc n va (scFate port host dec pcOffset n va val s) else .other
  | _ => .other

/-- What may happen between two instructions of the interpreter: traps, other instructions, the world outside. -/
structure Interlude (R : Rv) (σ : Type) where
  run : Machine R σ → Machine R σ
  lr : ∀ s, (run s).hart.lr = s.hart.lr

inductive HartStep (R : Rv) (σ : Type)
  | inst (dec : Decode) (pcOffset : BitVec R.xlen)
  | between (f : Interlude R σ)

structure History (R : Rv) (σ : Type) where
  machine : Machine R σ
  log : List (Seen R) := []

/-- The machine that an instruction leaves, however it ends, and one more thing seen. -/
def History.extend (h : History R σ) (e : Seen R) : Outcome MmuExit (Machine R σ) (BitVec R.xlen) → Option (History R σ)
  | .ok _ s => some ⟨s, e :: h.log⟩
  | .error _ s => some ⟨s, e :: h.log⟩
  | .undefined => none

def History.step (h : History R σ) : HartStep R σ → Option (History R σ)
  | .inst dec pcOffset => h.extend (seen port host rv dec pcOffset h.machine) (execInst port host rv dec pcOffset h.machine)
  | .between f => some { h with machine := f.run h.machine }

/-- An SC to the address in the register is the first since the last LR, which loaded and had its width. -/
def History.Disciplined (h : History R σ) : HartStep R σ → Prop
  | .inst dec _ => ∀ ext n va val, action host h.machine.hart dec dec.op = some (ext, .sc n va val) → rv ext = true →
      h.machine.hart.lr = va → Seen.FirstSince n h.log
  | .between _ => True

end Executions

/-! ## The register -/

section Register
variable {R : Rv} {σ : Type} {port : Port σ} {host : Host} {rv : Ext → Bool} {dec : Decode} {pcOffset : BitVec R.xlen}
  {s : Machine R σ}

/-- The register is `v`. -/
def Machine.LrIs (v : BitVec R.xlen) (s : Machine R σ) : Prop := s.hart.lr = v

theorem Hart.spared_lr (v : BitVec R.xlen) : Hart.Spared fun s : Hart R => s.lr = v where
  writeRd hs _ _ := hs
  writeFrd hs _ _ _ := hs
  fenv hs _ _ := hs

/-- An LR is the only action that assigns the register. -/
theorem Action.keeps_lr (v : BitVec R.xlen) (port : Port σ) (host : Host) (dec : Decode) (pcOffset : BitVec R.xlen) (a : Action R)
    (hlr : ∀ n va, a ≠ .lr n va) : Keeps (Machine.LrIs v) (a.run port host dec pcOffset) := by
  rw [a.run_eq_runOn]
  have hspared := (Hart.spared_lr v).at dec.rd
  have hframes := Machine.bus_frames port host hspared
  exact a.keeps_runOn hspared hframes pcOffset fun n va ha => absurd ha (hlr n va)

/-- An LR leaves its address in the register, whether it loads or traps. -/
theorem lr_leaves (n : Nat) (va : BitVec R.xlen) : ((Action.lr n va).run port host dec pcOffset s).Leaves (Machine.LrIs va) := by
  have hload : Keeps (Machine.LrIs va) (do
      let t ← Machine.load port host n va
      Machine.modifyHart fun s => s.writeRd dec.rd (extend R n true t)
      pure pcOffset) :=
    keeps_bind (Machine.keeps_onMmu_hart (fun s => s.lr = va) _) fun _ => keeps_bind (keeps_modify fun _ hs => hs) fun _ => keeps_pure _
  exact hload { s with hart := { s.hart with lr := va } } rfl

/-- Where the addresses differ, an SC assigns 1 and does nothing else. -/
theorem sc_of_ne {n val : Nat} {va : BitVec R.xlen} (h : s.hart.lr ≠ va) :
    (Action.sc n va val).run port host dec pcOffset s = .ok pcOffset { s with hart := s.hart.writeRd dec.rd 1 } := by
  show (if s.hart.lr ≠ va then _ else _ : Prog MmuExit (Machine R σ) (BitVec R.xlen)) s = _
  rw [if_pos h]
  rfl

theorem sc_of_eq {n val : Nat} {va : BitVec R.xlen} (h : s.hart.lr = va) :
    (Action.sc n va val).run port host dec pcOffset s =
      (do Machine.store port n va val
          Machine.modifyHart fun s => s.writeRd dec.rd 0
          pure pcOffset : Prog MmuExit (Machine R σ) (BitVec R.xlen)) s := by
  show (if s.hart.lr ≠ va then _ else _ : Prog MmuExit (Machine R σ) (BitVec R.xlen)) s = _
  rw [if_neg (not_not.2 h)]

theorem one_ne_zero (R : Rv) : (1 : BitVec R.xlen) ≠ 0 := by
  cases R <;> decide

theorem scFate_of_ne {n val : Nat} {va : BitVec R.xlen} (h : s.hart.lr ≠ va) :
    scFate port host dec pcOffset n va val s = .failed := by
  unfold scFate
  rw [sc_of_ne h]
  exact if_neg (one_ne_zero R)

theorem scFate_of_eq {n val : Nat} {va : BitVec R.xlen} (h : s.hart.lr = va) :
    scFate port host dec pcOffset n va val s ≠ .failed := by
  unfold scFate
  rw [sc_of_eq h]
  cases hst : Machine.store port n va val s with
  | ok u s1 =>
    rw [bind_ok hst]
    have hrd : (s1.hart.writeRd 1 0).ireg 1 = 0 := rfl
    have hfate : (if (s1.hart.writeRd 1 0).ireg 1 = 0 then ScFate.stored else .failed) ≠ .failed := by
      rw [if_pos hrd]
      simp
    exact hfate
  | error e s1 =>
    rw [bind_error hst]
    simp
  | undefined =>
    rw [bind_undefined hst]
    simp

theorem lr_of_stored {n val : Nat} {va : BitVec R.xlen} (h : scFate port host dec pcOffset n va val s = .stored) : s.hart.lr = va := by
  by_contra hne
  rw [scFate_of_ne hne] at h
  cases h

/-- An SC that fails leaves the TLBs and the memory as they are. -/
theorem sc_failed {n val : Nat} {va : BitVec R.xlen} (h : scFate port host dec pcOffset n va val s = .failed) :
    ((Action.sc n va val).run port host dec pcOffset s).Leaves fun t => t.mmu = s.mmu := by
  have hne : s.hart.lr ≠ va := fun heq => scFate_of_eq heq h
  rw [sc_of_ne hne]
  rfl

end Register

/-! ## What else a hart does -/

section Interludes
variable {R : Rv} {σ : Type}

def Interlude.trap (op : RvOp) (cause : RaisedCause) : Interlude R σ where
  run s := { s with hart := (Emu.trap op cause).left s.hart }
  lr s := (left_of_keeps (keeps_trap s.hart op cause) (Hart.SameUntrapped.refl s.hart)).lr

def Interlude.isr (lines : IntrLines) : Interlude R σ where
  run s := { s with hart := (Emu.isr lines).left s.hart }
  lr s := (left_of_keeps (keeps_isr s.hart lines) (Hart.SameUntrapped.refl s.hart)).lr

theorem instPriv_lr (getTime : BitVec 64) (s : Machine R σ) (dec : Decode) (pcOffset : BitVec R.xlen) :
    (s.instPriv getTime dec pcOffset).1.hart.lr = s.hart.lr := by
  have hpriv (mode : RvMode) {r : Machine R σ × BitVec R.xlen} (hr : r.1.hart.lr = s.hart.lr) :
      (s.privileged mode r).1.hart.lr = s.hart.lr := by
    unfold Machine.privileged
    split
    · exact hr
    · rfl
  unfold Machine.instPriv
  split
  · rfl
  · split
    · exact hpriv .S rfl
    · exact hpriv .M rfl
    · exact hpriv .S rfl
    · exact hpriv .S rfl
    all_goals rfl

def Interlude.priv (getTime : BitVec 64) (dec : Decode) (pcOffset : BitVec R.xlen) : Interlude R σ where
  run s := (s.instPriv getTime dec pcOffset).1
  lr s := instPriv_lr getTime s dec pcOffset

end Interludes

/-! ## Runs -/

section Runs
variable {R : Rv} {σ : Type} {port : Port σ} {host : Host} {rv : Ext → Bool}

/-- The stores were reserved for, and the register holds the address of the last LR. -/
structure History.Sound (h : History R σ) : Prop where
  paired : Seen.Paired h.log
  last : ∀ va, Seen.lastLr h.log = some va → h.machine.LrIs va

namespace History.Sound

variable {h : History R σ} (hs : h.Sound) {s : Machine R σ} (hlr : s.LrIs h.machine.hart.lr)
include hs

theorem lr_snoc {n : Nat} {va : BitVec R.xlen} (hva : s.LrIs va) (loaded : Bool) :
    History.Sound ⟨s, .lr n va loaded :: h.log⟩ := by
  refine ⟨hs.paired, fun va' hlast => ?_⟩
  obtain rfl := Option.some.inj hlast
  exact hva

include hlr

theorem other_snoc : History.Sound ⟨s, .other :: h.log⟩ :=
  ⟨hs.paired, fun va hlast => hlr.trans (hs.last va hlast)⟩

theorem sc_snoc {n : Nat} {va : BitVec R.xlen} {fate : ScFate} (hres : fate = .stored → Seen.Reserved n va h.log) :
    History.Sound ⟨s, .sc n va fate :: h.log⟩ :=
  ⟨⟨hres, hs.paired⟩, fun va hlast => hlr.trans (hs.last va hlast)⟩

end History.Sound

section Seen
variable {dec : Decode} {pcOffset : BitVec R.xlen} {s : Machine R σ} {ext : Ext}

theorem seen_lr {n : Nat} {va : BitVec R.xlen} (ha : action host s.hart dec dec.op = some (ext, .lr n va)) (hext : rv ext = true) :
    Emu.seen port host rv dec pcOffset s = .lr n va (loads port host dec pcOffset n va s) := by
  unfold Emu.seen
  rw [ha]
  exact if_pos hext

theorem seen_sc {n val : Nat} {va : BitVec R.xlen} (ha : action host s.hart dec dec.op = some (ext, .sc n va val))
    (hext : rv ext = true) : Emu.seen port host rv dec pcOffset s = .sc n va (scFate port host dec pcOffset n va val s) := by
  unfold Emu.seen
  rw [ha]
  exact if_pos hext

theorem seen_other
    (h : ∀ ext a, action host s.hart dec dec.op = some (ext, a) → rv ext = true → (∀ n va, a ≠ .lr n va) ∧ ∀ n va val, a ≠ .sc n va val) :
    Emu.seen port host rv dec pcOffset s = .other := by
  unfold Emu.seen
  split
  · rename_i ext n va ha
    exact if_neg fun hext => (h ext _ ha hext).1 n va rfl
  · rename_i ext n va val ha
    exact if_neg fun hext => (h ext _ ha hext).2 n va val rfl
  · rfl

end Seen

/-- What one instruction does to a sound history. -/
theorem History.Sound.seen {h : History R σ} (hs : h.Sound) {dec : Decode} {pcOffset : BitVec R.xlen}
    (hok : h.Disciplined host rv (.inst dec pcOffset)) :
    (execInst port host rv dec pcOffset h.machine).Leaves fun s =>
      History.Sound ⟨s, Emu.seen port host rv dec pcOffset h.machine :: h.log⟩ := by
  cases ha : action host h.machine.hart dec dec.op with
  | none =>
    rw [execInst_of_none ha, seen_other fun ext a ha' => nomatch ha.symm.trans ha']
    exact hs.other_snoc rfl
  | some r =>
    obtain ⟨ext, a⟩ := r
    have hsame {ext' : Ext} {a' : Action R} (ha' : action host h.machine.hart dec dec.op = some (ext', a')) : ext = ext' ∧ a = a' :=
      Prod.mk.inj (Option.some.inj (ha.symm.trans ha'))
    by_cases hext : rv ext = true
    · rw [execInst_of_action ha hext]
      have hkeeps (hlr : ∀ n va, a ≠ .lr n va) : (a.run port host dec pcOffset h.machine).Leaves (Machine.LrIs h.machine.hart.lr) :=
        a.keeps_lr h.machine.hart.lr port host dec pcOffset hlr h.machine rfl
      by_cases hlr : ∃ n va, a = .lr n va
      · obtain ⟨n, va, rfl⟩ := hlr
        rw [seen_lr ha hext]
        exact (lr_leaves n va).mono fun s hva => hs.lr_snoc hva _
      by_cases hsc : ∃ n va val, a = .sc n va val
      · obtain ⟨n, va, val, rfl⟩ := hsc
        rw [seen_sc ha hext]
        refine (hkeeps (fun n va h => hlr ⟨n, va, h⟩)).mono fun s hkept => hs.sc_snoc hkept fun hstored => ?_
        have heq := lr_of_stored hstored
        -- the last LR is the one that the discipline speaks of
        obtain ⟨va', hlast, hres⟩ := Seen.exists_lastLr (hok ext n va val ha hext heq)
        obtain rfl : va' = va := (hs.last va' hlast).symm.trans heq
        exact hres
      · rw [seen_other fun ext' a' ha' _ => (hsame ha').2 ▸ ⟨fun n va h => hlr ⟨n, va, h⟩, fun n va val h => hsc ⟨n, va, val, h⟩⟩]
        exact (hkeeps (fun n va h => hlr ⟨n, va, h⟩)).mono fun s hkept => hs.other_snoc hkept
    · rw [execInst_of_some ha, if_neg hext, seen_other fun ext' a' ha' hext' => absurd ((hsame ha').1 ▸ hext') hext]
      exact hs.other_snoc rfl

theorem History.Sound.step {h h' : History R σ} (hs : h.Sound) {a : HartStep R σ} (hok : h.Disciplined host rv a)
    (hstep : h.step port host rv a = some h') : h'.Sound := by
  cases a with
  | inst dec pcOffset =>
    have hleft : (execInst port host rv dec pcOffset h.machine).Leaves _ := hs.seen hok
    change h.extend _ (execInst port host rv dec pcOffset h.machine) = some h' at hstep
    cases he : execInst port host rv dec pcOffset h.machine with
    | ok off s =>
      rw [he] at hleft hstep
      obtain rfl := Option.some.inj hstep
      exact hleft
    | error e s =>
      rw [he] at hleft hstep
      obtain rfl := Option.some.inj hstep
      exact hleft
    | undefined =>
      rw [he] at hstep
      cases hstep
  | between f =>
    obtain rfl := Option.some.inj hstep
    exact ⟨hs.paired, fun va hlast => (f.lr h.machine).trans (hs.last va hlast)⟩

variable (port host rv)

/-- Under the discipline every SC that stored was reserved for, in the history after every step of the run. An SC that
fails does nothing to memory, under no condition. -/
theorem lr_sc_paired :
    (∀ (acts : List (HartStep R σ)) (s : Machine R σ),
      Along (History.step port host rv) (History.Disciplined host rv) acts { machine := s } →
        Always (History.step port host rv) (fun h => Seen.Paired h.log) acts { machine := s }) ∧
    ∀ (dec : Decode) (pcOffset : BitVec R.xlen) (s : Machine R σ) (n : Nat) (va : BitVec R.xlen),
      seen port host rv dec pcOffset s = .sc n va .failed →
        (execInst port host rv dec pcOffset s).Leaves fun t => t.mmu = s.mmu := by
  constructor
  · intro acts s hok
    have hstart : History.Sound { machine := s } := ⟨trivial, fun va hlast => nomatch hlast⟩
    exact (hok.always (fun h a h' hs ha hstep => hs.step ha hstep) hstart).mono fun h hs => hs.paired
  · intro dec pcOffset s n va hseen
    unfold seen at hseen
    split at hseen
    · rename_i ext n' va' ha
      split at hseen <;> cases hseen
    · rename_i ext n' va' val ha
      split at hseen
      · rename_i hext
        obtain ⟨rfl, rfl, hfate⟩ := Seen.sc.inj hseen
        rw [execInst_of_action ha hext]
        exact sc_failed hfate
      · cases hseen
    · cases hseen

end Runs

section Examples

/-- RAM of zeros, and its address in `x10`. -/
def ramMachine : Machine .rv64 UserMemory where
  hart := { (default : Hart .rv64) with ireg := fun r => if r = 10 then 0x80000000 else 0 }
  mmu := ⟨Tlb.empty .rv64, Tlb.empty .rv64, ⟨[⟨defaultRamBase, defaultRamSize⟩], fun _ _ => 0⟩⟩

def lrW : HartStep .rv64 UserMemory := .inst { op := .lr_w, rd := 5, rs1 := 10 } 4

def scW : HartStep .rv64 UserMemory := .inst { op := .sc_w, rd := 6, rs1 := 10, rs2 := 7 } 4

theorem lr_sc_paired_lr_sc :
    Always (History.step (mmuSoft .rv64) default fun _ => true) (fun h => Seen.Paired h.log) [lrW, scW] { machine := ramMachine } := by
  refine (lr_sc_paired (mmuSoft .rv64) default fun _ => true).1 [lrW, scW] ramMachine ⟨?_, fun h hstep => ⟨?_, fun _ _ => trivial⟩⟩
  · intro ext n va val ha
    cases ha
  · obtain rfl := Option.some.inj hstep
    intro ext n va val ha _ _
    cases ha
    exact ⟨rfl, rfl⟩

/-- The second of two SCs stores again. -/
theorem not_lr_sc_paired_twice :
    ¬ Always (History.step (mmuSoft .rv64) default fun _ => true) (fun h => Seen.Paired h.log) [lrW, scW, scW]
      { machine := ramMachine } := by
  have hlog : (steps (History.step (mmuSoft .rv64) default fun _ => true) [lrW, scW, scW] { machine := ramMachine }).map History.log =
      some [.sc 4 0x80000000 .stored, .sc 4 0x80000000 .stored, .lr 4 0x80000000 true] := rfl
  obtain ⟨h, hrun, hh⟩ := Option.map_eq_some_iff.1 hlog
  intro halways
  have hpaired := halways.last hrun
  rw [hh] at hpaired
  -- what comes before the last SC is a completed SC
  exact absurd (hpaired.1 rfl).1 (by decide)

end Examples

end Rv8.Emu
