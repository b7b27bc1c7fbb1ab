import Rv8.Util.Queue
/-!
# Any number of producers and consumers

A call tests for a full or an empty queue with the other end's offset as it was when the
call began, and enters with the word it read before the exchange. By then either can be
out of date. `Retested` says that at each exchange that succeeds both tests would pass
again; in a run of such steps an end is taken by one thread at a time and the ring holds
what was pushed and not yet popped.
-/

namespace Rv8.Util

open Rv8.Lib

variable {Tid T : Type}

/-! ## Before and after the exchange -/

/-- The thread is between the exchange and the store of the version word of this end. -/
def Inside (side : Side) : Option (Local T) → Prop
  | some (.item call _ _) => call.side = side
  | some (.reveal result _) => result.side = side
  | _ => False

def Call.Nonzero [Zero T] : Call T → Prop
  | .pushBack elem => elem ≠ 0
  | .popFront => True

def Local.Nonzero [Zero T] : Local T → Prop
  | .loadOther call => call.Nonzero
  | .loadCounter call _ _ => call.Nonzero
  | .loadVersion call _ _ _ => call.Nonzero
  | .exchange call _ _ _ _ => call.Nonzero
  | .item call _ _ => call.Nonzero
  | .reveal (.pushBack elem _) _ => elem ≠ 0
  | .reveal (.popFront _) _ => True

theorem not_inside_update [DecidableEq Tid] {side : Side} {thread : Tid → Option (Local T)} {t t' : Tid} {x : Option (Local T)}
    (ht : t' ≠ t) (h : ¬ Inside side (thread t')) : ¬ Inside side (Function.update thread t x t') := by
  rwa [Function.update_of_ne ht]

/-- A thread after one has moved: it is the one that did, or it is where it was. -/
theorem update_cases [DecidableEq Tid] {thread : Tid → Option (Local T)} {t t' : Tid} {x : Option (Local T)} {l : Local T}
    (h : Function.update thread t x t' = some l) : (t' = t ∧ x = some l) ∨ (t' ≠ t ∧ thread t' = some l) := by
  by_cases htt : t' = t
  · rw [htt, Function.update_self] at h
    exact .inl ⟨htt, h⟩
  · rw [Function.update_of_ne htt] at h
    exact .inr ⟨htt, h⟩

theorem not_inside_before {l : Local T} {call : Call T} (hl : l.before = some call) (side : Side) : ¬ Inside side (some l) := by
  cases l with
  | item call' slot pack => cases hl
  | reveal result pack => cases hl
  | loadOther call' => exact id
  | loadCounter call' other spinCount => exact id
  | loadVersion call' other spinCount counter => exact id
  | exchange call' other spinCount counter mine => exact id

theorem nonzero_before [Zero T] {l : Local T} {call : Call T} (hl : l.before = some call) : l.Nonzero ↔ call.Nonzero := by
  cases l with
  | item call' slot pack => cases hl
  | reveal result pack => cases hl
  | loadOther call' => exact Option.some.inj hl ▸ .rfl
  | loadCounter call' other spinCount => exact Option.some.inj hl ▸ .rfl
  | loadVersion call' other spinCount counter => exact Option.some.inj hl ▸ .rfl
  | exchange call' other spinCount counter mine => exact Option.some.inj hl ▸ .rfl

/-! ## Histories -/

@[simp] theorem pushed_append (log log' : List (Event Tid T)) : pushed (log ++ log') = pushed log ++ pushed log' :=
  List.filterMap_append

@[simp] theorem pushed_call (t : Tid) (call : Call T) : pushed [.call t call] = [] := rfl

@[simp] theorem pushed_pushBack (t : Tid) (elem : T) : pushed [.ret t (.pushBack elem true)] = [elem] := rfl

@[simp] theorem pushed_popFront (t : Tid) (val : T) : pushed [.ret t (.popFront val)] = [] := rfl

@[simp] theorem pushed_failed [Zero T] (t : Tid) (call : Call T) : pushed [.ret t call.failed] = [] := by
  cases call <;> rfl

theorem prefix_snoc {l l' : List T} {v : T} (h : l <+: l') (hv : l'[l.length]? = some v) : l ++ [v] <+: l' := by
  obtain ⟨rest, rfl⟩ := h
  rw [List.getElem?_append_right (Nat.le_refl _), Nat.sub_self] at hv
  cases rest with
  | nil => cases hv
  | cons w rest =>
    obtain rfl := Option.some.inj hv
    exact ⟨rest, by simp⟩

variable [DecidableEq T] [Zero T]

@[simp] theorem popped_append (log log' : List (Event Tid T)) : popped (log ++ log') = popped log ++ popped log' :=
  List.filterMap_append

@[simp] theorem popped_call (t : Tid) (call : Call T) : popped [.call t call] = [] := rfl

@[simp] theorem popped_pushBack (t : Tid) (elem : T) (ok : Bool) : popped [.ret t (.pushBack elem ok)] = [] := rfl

theorem popped_popFront (t : Tid) {val : T} (h : val ≠ 0) : popped [.ret t (.popFront val)] = [val] := by
  simp [popped, h]

@[simp] theorem popped_failed (t : Tid) (call : Call T) : popped [.ret t call.failed] = [] := by
  cases call with
  | pushBack elem => rfl
  | popFront => simp [popped, Call.failed]

/-- The calls that moved an end. -/
def doneAt : Side → List (Event Tid T) → Nat
  | .back, log => (pushed log).length
  | .front, log => (popped log).length

/-- Where an end starts. -/
def QueueParam.first (Q : QueueParam) : Side → Nat
  | .back => 0
  | .front => Q.sizeLimit

/-- Where an end stands after a history. -/
def QueueParam.offsetAt (Q : QueueParam) (side : Side) (log : List (Event Tid T)) : Nat := doneAt side log + Q.first side

/-! ## The condition on a step -/

/-- The call, counter and offset of an exchange that will succeed. -/
def Threads.entering (s : Threads Tid T) : Action Tid T → Option (Call T × Nat × Nat)
  | .step t false =>
    match s.thread t with
    | some (.exchange call _ _ counter mine) => if s.queue.counter call.side = counter then some (call, counter, mine) else none
    | _ => none
  | _ => none

/-- No offset reaches `offset_limit`. -/
def Unwrapped (Q : QueueParam) (s : Threads Tid T) (a : Action Tid T) : Prop :=
  ∀ e ∈ s.entering a, e.2.2 + 1 < 2 ^ Q.offsetBits

/-- When a call enters, the tests it made on earlier reads would pass on the words as they are. -/
def Retested (Q : QueueParam) (s : Threads Tid T) (a : Action Tid T) : Prop :=
  ∀ e ∈ s.entering a, Q.unpackOffsets e.2.1 (s.queue.version e.1.side) = some e.2.2 ∧
    ¬ e.1.Blocked Q e.2.2 (Q.offsetOf (s.queue.version e.1.side.other))

instance (Q : QueueParam) (s : Threads Tid T) (a : Action Tid T) : Decidable (Unwrapped Q s a) :=
  inferInstanceAs (Decidable (∀ e ∈ s.entering a, _))

instance (Q : QueueParam) (s : Threads Tid T) (a : Action Tid T) : Decidable (Retested Q s a) :=
  inferInstanceAs (Decidable (∀ e ∈ s.entering a, _))

/-- The values pushed are not 0. -/
def Action.Nonzero : Action Tid T → Prop
  | .call _ (.pushBack elem) => elem ≠ 0
  | _ => True

instance : (a : Action Tid T) → Decidable a.Nonzero
  | .call _ (.pushBack elem) => inferInstanceAs (Decidable (elem ≠ 0))
  | .call _ .popFront => .isTrue trivial
  | .step _ _ => .isTrue trivial

/-! ## The invariant -/

section Invariant
variable (Q : QueueParam)

/-- There is a free slot to push to, or an item to pop. -/
def Room (side : Side) (log : List (Event Tid T)) : Prop :=
  match side with
  | .back => (pushed log).length < (popped log).length + Q.sizeLimit
  | .front => (popped log).length < (pushed log).length

/-- The word that reveals the next offset of this end. -/
def QueueParam.nextWord (side : Side) (log : List (Event Tid T)) : Nat :=
  Q.packOffset ((doneAt side log + 1) % 2 ^ Q.versionBits) (Q.offsetAt side log + 1)

/-- What the thread that has taken an end is about to do. -/
def Holds (side : Side) (vec : Nat → T) (log : List (Event Tid T)) : Local T → Prop
  | .item call slot pack =>
    call.side = side ∧ slot = Q.offsetAt side log % Q.sizeLimit ∧ pack = Q.nextWord side log
  | .reveal (.pushBack elem ok) pack =>
    side = .back ∧ ok = true ∧ vec ((pushed log).length % Q.sizeLimit) = elem ∧ pack = Q.nextWord .back log
  | .reveal (.popFront val) pack =>
    side = .front ∧ (pushed log)[(popped log).length]? = some val ∧ pack = Q.nextWord .front log
  | _ => False

/-- An end is free, or one thread has taken it. -/
inductive Owned (s : Threads Tid T) (side : Side) : Prop
  | free (counter : s.queue.counter side = doneAt side s.log % 2 ^ Q.versionBits)
      (outside : ∀ t, ¬ Inside side (s.thread t))
  | taken (t : Tid) (l : Local T) (thread : s.thread t = some l) (holds : Holds Q side s.queue.vec s.log l)
      (room : Room Q side s.log) (below : Q.offsetAt side s.log + 1 < 2 ^ Q.offsetBits)
      (counter : s.queue.counter side = (doneAt side s.log + 1) % 2 ^ Q.versionBits)
      (outside : ∀ t', t' ≠ t → ¬ Inside side (s.thread t'))

structure Inv (s : Threads Tid T) : Prop where
  word : ∀ side, s.queue.version side = Q.packOffset (doneAt side s.log % 2 ^ Q.versionBits) (Q.offsetAt side s.log)
  below : ∀ side, Q.offsetAt side s.log < 2 ^ Q.offsetBits
  owned : ∀ side, Owned Q s side
  ordered : (popped s.log).length ≤ (pushed s.log).length ∧ (pushed s.log).length ≤ (popped s.log).length + Q.sizeLimit
  fifo : popped s.log <+: pushed s.log
  kept : ∀ i, (popped s.log).length ≤ i → i < (pushed s.log).length → (pushed s.log)[i]? = some (s.queue.vec (i % Q.sizeLimit))
  nonzero : ∀ v ∈ pushed s.log, v ≠ 0
  calls : ∀ t l, s.thread t = some l → l.Nonzero

/-! ## Steps -/

variable {Q} {s s' : Threads Tid T} {side : Side} {t : Tid}

theorem Holds.inside {vec : Nat → T} {log : List (Event Tid T)} {l : Local T} (h : Holds Q side vec log l) :
    Inside side (some l) := by
  cases l with
  | item call slot pack => exact h.1
  | reveal result pack =>
    cases result with
    | pushBack elem ok => exact h.1.symm
    | popFront val => exact h.1.symm
  | loadOther call => exact h
  | loadCounter call other spinCount => exact h
  | loadVersion call other spinCount counter => exact h
  | exchange call other spinCount counter mine => exact h

/-- The thread inside an end is its owner. -/
theorem Owned.holds (h : Owned Q s side) {l : Local T} (hl : s.thread t = some l) (hin : Inside side (some l)) :
    Holds Q side s.queue.vec s.log l ∧ Room Q side s.log ∧ Q.offsetAt side s.log + 1 < 2 ^ Q.offsetBits ∧
      s.queue.counter side = (doneAt side s.log + 1) % 2 ^ Q.versionBits ∧ ∀ t', t' ≠ t → ¬ Inside side (s.thread t') := by
  rw [← hl] at hin
  cases h with
  | free counter outside => exact absurd hin (outside t)
  | taken t0 l0 thread holds room below counter outside =>
    obtain rfl : t = t0 := by
      by_contra hne
      exact outside t hne hin
    obtain rfl := Option.some.inj (hl.symm.trans thread)
    exact ⟨holds, room, below, counter, outside⟩

/-- The thread at the front relies on what was pushed staying in place. -/
theorem Holds.front {vec vec' : Nat → T} {log log' : List (Event Tid T)} {l : Local T} (h : Holds Q .front vec log l)
    (hpopped : popped log' = popped log) (hpushed : pushed log <+: pushed log') : Holds Q .front vec' log' l := by
  have hword : Q.nextWord .front log' = Q.nextWord .front log := by
    simp only [QueueParam.nextWord, QueueParam.offsetAt, doneAt, hpopped]
  have hoffset : Q.offsetAt .front log' = Q.offsetAt .front log := by
    simp only [QueueParam.offsetAt, doneAt, hpopped]
  cases l with
  | item call slot pack => exact ⟨h.1, hoffset ▸ h.2.1, hword ▸ h.2.2⟩
  | reveal result pack =>
    cases result with
    | pushBack elem ok => cases h.1
    | popFront val =>
      refine ⟨rfl, ?_, hword ▸ h.2.2⟩
      obtain ⟨rest, hrest⟩ := hpushed
      rw [hpopped, ← hrest, List.getElem?_append_left (List.getElem?_eq_some_iff.1 h.2.1).1]
      exact h.2.1
  | loadOther call => exact h
  | loadCounter call other spinCount => exact h
  | loadVersion call other spinCount counter => exact h
  | exchange call other spinCount counter mine => exact h

/-- The thread at the back relies on the item it stored. -/
theorem Holds.back {vec : Nat → T} {log log' : List (Event Tid T)} {l : Local T} (h : Holds Q .back vec log l)
    (hpushed : pushed log' = pushed log) : Holds Q .back vec log' l := by
  unfold Holds QueueParam.nextWord QueueParam.offsetAt doneAt at h ⊢
  cases l with
  | reveal result pack =>
    cases result with
    | pushBack elem ok => simpa only [hpushed] using h
    | popFront val => cases h.1
  | item call slot pack => simpa only [hpushed] using h
  | loadOther call => exact h
  | loadCounter call other spinCount => exact h
  | loadVersion call other spinCount counter => exact h
  | exchange call other spinCount counter mine => exact h

theorem Inv.offsetOf_version (h : Inv Q s) (side : Side) : Q.offsetOf (s.queue.version side) = Q.offsetAt side s.log := by
  rw [h.word side, Q.offsetOf_packOffset _ (h.below side)]

/-- The word of an end goes with a counter if the versions agree. -/
theorem Inv.unpackOffsets_version (h : Inv Q s) {counter mine : Nat} :
    Q.unpackOffsets counter (s.queue.version side) = some mine ↔
      doneAt side s.log % 2 ^ Q.versionBits = counter % 2 ^ Q.versionBits ∧ Q.offsetAt side s.log = mine := by
  rw [h.word side, Q.unpackOffsets_packOffset _ _ (h.below side), Nat.mod_mod]
  simp

/-- On the offsets of one moment the tests are exact. -/
theorem blocked_iff {log : List (Event Tid T)} (hle : (popped log).length ≤ (pushed log).length)
    (hge : (pushed log).length ≤ (popped log).length + Q.sizeLimit) (call : Call T) :
    call.Blocked Q (Q.offsetAt call.side log) (Q.offsetAt call.side.other log) ↔ ¬ Room Q call.side log := by
  cases call with
  | pushBack elem =>
    simp only [Call.Blocked, Call.side, Side.other, QueueParam.offsetAt, doneAt, QueueParam.first, Room]
    omega
  | popFront =>
    have hsize := Nat.lt_of_lt_of_le Q.size_lt Q.offset_le_atomic
    have hdiff : (popped log).length + Q.sizeLimit + 2 ^ Q.atomicBits - ((pushed log).length + 0) =
        (popped log).length + Q.sizeLimit - (pushed log).length + 2 ^ Q.atomicBits := by omega
    simp only [Call.Blocked, Call.side, Side.other, QueueParam.offsetAt, doneAt, QueueParam.first, Room]
    rw [hdiff, Nat.add_mod_right, Nat.mod_eq_of_lt (by omega)]
    omega

/-- The words after an end has moved by one. -/
theorem Inv.nextWord (h : Inv Q s) {log' : List (Event Tid T)} (hbelow : Q.offsetAt side s.log + 1 < 2 ^ Q.offsetBits)
    (hside : doneAt side log' = doneAt side s.log + 1) (hother : doneAt side.other log' = doneAt side.other s.log) (side' : Side) :
    Function.update s.queue.version side (Q.nextWord side s.log) side' =
        Q.packOffset (doneAt side' log' % 2 ^ Q.versionBits) (Q.offsetAt side' log') ∧
      Q.offsetAt side' log' < 2 ^ Q.offsetBits := by
  have hmoved : Q.offsetAt side log' = Q.offsetAt side s.log + 1 := by
    rw [QueueParam.offsetAt, QueueParam.offsetAt, hside, Nat.add_right_comm]
  by_cases heq : side' = side
  · rw [heq, Function.update_self, hside, hmoved]
    exact ⟨rfl, hbelow⟩
  · have hne : side' = side.other := by
      cases side <;> cases side' <;> first | rfl | exact absurd rfl heq
    rw [Function.update_of_ne heq, QueueParam.offsetAt, hne, hother]
    exact ⟨h.word _, h.below _⟩

variable [DecidableEq Tid]

/-- A thread that is not inside an end leaves its owner alone. -/
theorem Owned.frame (h : Owned Q s side) {x : Option (Local T)} (hthread : s'.thread = Function.update s.thread t x)
    (hout : ¬ Inside side (s.thread t)) (hout' : ¬ Inside side x)
    (hcounter : s'.queue.counter side = s.queue.counter side)
    (hdone : doneAt side s'.log = doneAt side s.log) (hroom : Room Q side s.log → Room Q side s'.log)
    (hholds : ∀ l, Holds Q side s.queue.vec s.log l → Holds Q side s'.queue.vec s'.log l) : Owned Q s' side := by
  have houtside {t'} (h' : ¬ Inside side (s.thread t')) : ¬ Inside side (s'.thread t') := by
    rw [hthread]
    by_cases htt : t' = t
    · rwa [htt, Function.update_self]
    · rwa [Function.update_of_ne htt]
  cases h with
  | free counter outside => exact .free (by rw [hcounter, hdone, counter]) fun t' => houtside (outside t')
  | taken t0 l thread holds room below counter outside =>
    have hne : t0 ≠ t := by
      rintro rfl
      rw [thread] at hout
      exact hout holds.inside
    refine .taken t0 l ?_ (hholds l holds) (hroom room) ?_ ?_ fun t' ht => houtside (outside t' ht)
    · rwa [hthread, Function.update_of_ne hne]
    · rwa [QueueParam.offsetAt, hdone]
    · rw [hcounter, hdone, counter]

theorem Inv.calls_update (h : Inv Q s) {x : Option (Local T)} (hx : ∀ l, x = some l → l.Nonzero) (t' : Tid) (l : Local T)
    (hl : Function.update s.thread t x t' = some l) : l.Nonzero := by
  rcases update_cases hl with ⟨-, hl⟩ | ⟨-, hl⟩
  · exact hx l hl
  · exact h.calls t' l hl

/-- A step outside both ends that changes no shared word and completes no operation. -/
theorem Inv.quiet (h : Inv Q s) {x : Option (Local T)} {es : List (Event Tid T)} (hpush : pushed es = []) (hpop : popped es = [])
    (hout : ∀ side, ¬ Inside side (s.thread t)) (hout' : ∀ side, ¬ Inside side x) (hx : ∀ l, x = some l → l.Nonzero) :
    Inv Q ⟨s.queue, Function.update s.thread t x, s.log ++ es⟩ := by
  have hpushed : pushed (s.log ++ es) = pushed s.log := by rw [pushed_append, hpush, List.append_nil]
  have hpopped : popped (s.log ++ es) = popped s.log := by rw [popped_append, hpop, List.append_nil]
  have hdone side : doneAt side (s.log ++ es) = doneAt side s.log := by
    cases side <;> simp only [doneAt, hpushed, hpopped]
  have hoffset side : Q.offsetAt side (s.log ++ es) = Q.offsetAt side s.log := by
    rw [QueueParam.offsetAt, QueueParam.offsetAt, hdone]
  refine ⟨fun side => ?_, fun side => ?_, fun side => ?_, ?_, ?_, ?_, ?_, h.calls_update hx⟩
  · rw [hdone, hoffset]
    exact h.word side
  · rw [hoffset]
    exact h.below side
  · refine (h.owned side).frame rfl (hout side) (hout' side) rfl (hdone side) (fun hr => ?_) fun l hl => ?_
    · cases side <;> simpa only [Room, hpushed, hpopped] using hr
    · unfold Holds QueueParam.nextWord at hl ⊢
      simpa only [hdone, hoffset, hpushed, hpopped] using hl
  · rw [hpushed, hpopped]
    exact h.ordered
  · rw [hpushed, hpopped]
    exact h.fifo
  · rw [hpushed, hpopped]
    exact h.kept
  · rw [hpushed]
    exact h.nonzero

/-- The exchange takes a free end. -/
theorem Inv.enter (h : Inv Q s) {call : Call T} {other spinCount counter mine : Nat}
    (hl : s.thread t = some (.exchange call other spinCount counter mine)) (hcounter : s.queue.counter call.side = counter)
    (hbelow : mine + 1 < 2 ^ Q.offsetBits) (hunpack : Q.unpackOffsets counter (s.queue.version call.side) = some mine)
    (hblocked : ¬ call.Blocked Q mine (Q.offsetOf (s.queue.version call.side.other))) :
    Inv Q ⟨{ s.queue with counter := Function.update s.queue.counter call.side ((counter + 1) &&& Q.versionMask) },
      Function.update s.thread t (some (.item call (mine &&& (Q.sizeLimit - 1))
        (Q.packOffset ((counter + 1) &&& Q.versionMask) ((mine + 1) &&& Q.offsetMask)))), s.log⟩ := by
  obtain ⟨hversion, rfl⟩ := h.unpackOffsets_version.1 hunpack
  rw [h.offsetOf_version, blocked_iff h.ordered.1 h.ordered.2, not_not] at hblocked
  have hnext : (counter + 1) &&& Q.versionMask = (doneAt call.side s.log + 1) % 2 ^ Q.versionBits := by
    rw [Q.and_versionMask, Nat.add_mod, ← hversion, ← Nat.add_mod]
  have hnonzero : call.Nonzero := h.calls t _ hl
  refine ⟨h.word, h.below, fun side => ?_, h.ordered, h.fifo, h.kept, h.nonzero, h.calls_update ?_⟩
  · by_cases hside : side = call.side
    · subst hside
      have hfree : ∀ t', ¬ Inside call.side (s.thread t') := by
        cases h.owned call.side with
        | free _ outside => exact outside
        | taken t0 l thread holds room below counter0 outside =>
          rw [← hcounter, counter0, Nat.mod_mod] at hversion
          exact absurd hversion.symm (Q.succ_mod_ne _)
      refine .taken t _ (Function.update_self ..) ⟨rfl, Q.and_sizeMask _, ?_⟩ hblocked hbelow ?_ fun t' ht => ?_
      · rw [hnext, Q.and_offsetMask, Nat.mod_eq_of_lt hbelow]
        rfl
      · rw [← hnext]
        exact Function.update_self ..
      · exact not_inside_update ht (hfree t')
    · refine (h.owned side).frame rfl ?_ (Ne.symm hside) (Function.update_of_ne hside ..) rfl id fun _ => id
      rw [hl]
      exact id
  · rintro l ⟨⟩
    exact hnonzero

theorem mod_ne_of_lt {i j n : Nat} (hij : i < j) (hj : j < i + n) : i % n ≠ j % n := by
  intro heq
  have hzero := Nat.sub_mod_eq_zero_of_mod_eq heq.symm
  rw [Nat.mod_eq_of_lt (by omega)] at hzero
  omega

/-- The item goes to a slot that holds nothing that is still to be popped. -/
theorem Inv.store (h : Inv Q s) {elem : T} {slot pack : Nat} (hl : s.thread t = some (.item (.pushBack elem) slot pack)) :
    Inv Q ⟨{ s.queue with vec := Function.update s.queue.vec slot elem },
      Function.update s.thread t (some (.reveal (.pushBack elem true) pack)), s.log⟩ := by
  obtain ⟨⟨-, hslot, hpack⟩, hroom, hbelow, hcounter, hothers⟩ := (h.owned .back).holds hl rfl
  have hslot' : slot = (pushed s.log).length % Q.sizeLimit := hslot
  have hnonzero : elem ≠ 0 := h.calls t _ hl
  refine ⟨h.word, h.below, fun side => ?_, h.ordered, h.fifo,
    fun i (hlo : (popped s.log).length ≤ i) (hhi : i < (pushed s.log).length) => ?_, h.nonzero, h.calls_update ?_⟩
  · cases side with
    | back =>
      refine .taken t _ (Function.update_self ..) ⟨rfl, rfl, ?_, hpack⟩ hroom hbelow hcounter fun t' ht =>
        not_inside_update ht (hothers t' ht)
      rw [hslot']
      exact Function.update_self ..
    | front =>
      refine (h.owned .front).frame rfl ?_ nofun rfl rfl id fun l hholds => ?_
      · rw [hl]
        exact nofun
      · exact hholds.front rfl (List.prefix_refl _)
  · rw [h.kept i hlo hhi]
    have hroom' : (pushed s.log).length < (popped s.log).length + Q.sizeLimit := hroom
    have hne : i % Q.sizeLimit ≠ slot := hslot' ▸ mod_ne_of_lt hhi (by omega)
    exact congrArg some (Function.update_of_ne hne ..).symm
  · rintro l ⟨⟩
    exact hnonzero

/-- What is loaded is the next value in the order of the pushes. -/
theorem Inv.load (h : Inv Q s) {slot pack : Nat} (hl : s.thread t = some (.item .popFront slot pack)) :
    Inv Q ⟨s.queue, Function.update s.thread t (some (.reveal (.popFront (s.queue.vec slot)) pack)), s.log⟩ := by
  obtain ⟨⟨-, hslot, hpack⟩, hroom, hbelow, hcounter, hothers⟩ := (h.owned .front).holds hl rfl
  have hslot' : slot = (popped s.log).length % Q.sizeLimit := hslot.trans (Nat.add_mod_right ..)
  refine ⟨h.word, h.below, fun side => ?_, h.ordered, h.fifo, h.kept, h.nonzero, h.calls_update ?_⟩
  · cases side with
    | back =>
      refine (h.owned .back).frame rfl ?_ nofun rfl rfl id fun _ => id
      rw [hl]
      exact nofun
    | front =>
      refine .taken t _ (Function.update_self ..) ⟨rfl, ?_, hpack⟩ hroom hbelow hcounter fun t' ht =>
        not_inside_update ht (hothers t' ht)
      rw [hslot']
      exact h.kept _ (Nat.le_refl _) hroom
  · rintro l ⟨⟩
    trivial

/-- The owner leaves. -/
theorem Owned.release {x : Option (Local T)} (hthread : s'.thread = Function.update s.thread t x) (hx : ¬ Inside side x)
    (hcounter : s'.queue.counter side = doneAt side s'.log % 2 ^ Q.versionBits)
    (hothers : ∀ t', t' ≠ t → ¬ Inside side (s.thread t')) : Owned Q s' side := by
  refine .free hcounter fun t' => ?_
  rw [hthread]
  by_cases ht : t' = t
  · rwa [ht, Function.update_self]
  · exact not_inside_update ht (hothers t' ht)

/-- The next offset of the back is out: the value counts as pushed. -/
theorem Inv.revealBack (h : Inv Q s) {elem : T} {ok : Bool} {pack : Nat} (hl : s.thread t = some (.reveal (.pushBack elem ok) pack)) :
    Inv Q ⟨{ s.queue with version := Function.update s.queue.version .back pack }, Function.update s.thread t none,
      s.log ++ [.ret t (.pushBack elem ok)]⟩ := by
  obtain ⟨⟨-, rfl, hitem, rfl⟩, hroom, hbelow, hcounter, hothers⟩ := (h.owned .back).holds hl rfl
  have hnonzero : elem ≠ 0 := h.calls t _ hl
  have hpushed : pushed (s.log ++ [.ret t (.pushBack elem true)]) = pushed s.log ++ [elem] := by simp
  have hpopped : popped (s.log ++ [.ret t (.pushBack elem true)]) = popped s.log := by simp
  have hback : doneAt .back (s.log ++ [.ret t (.pushBack elem true)]) = doneAt .back s.log + 1 := by simp [doneAt]
  have hfront : doneAt .front (s.log ++ [.ret t (.pushBack elem true)]) = doneAt .front s.log := by simp [doneAt]
  have hroom' : (pushed s.log).length < (popped s.log).length + Q.sizeLimit := hroom
  have hwords := h.nextWord hbelow hback hfront
  refine ⟨fun side => (hwords side).1, fun side => (hwords side).2, fun side => ?_, ?_, ?_, fun i hlo hhi => ?_, fun v hv => ?_,
    h.calls_update nofun⟩
  · cases side with
    | back => exact .release rfl id (hback ▸ hcounter) hothers
    | front =>
      refine (h.owned .front).frame rfl ?_ id rfl hfront (fun hr => ?_) fun l hholds => hholds.front hpopped ?_
      · rw [hl]
        exact nofun
      · have hr' : (popped s.log).length < (pushed s.log).length := hr
        simp only [Room, hpushed, hpopped, List.length_append, List.length_singleton]
        omega
      · rw [hpushed]
        exact List.prefix_append ..
  · rw [hpushed, hpopped, List.length_append, List.length_singleton]
    obtain ⟨hle, hge⟩ := h.ordered
    omega
  · rw [hpushed, hpopped]
    exact h.fifo.trans (List.prefix_append ..)
  · rw [hpopped] at hlo
    rw [hpushed, List.length_append, List.length_singleton] at hhi
    rw [hpushed]
    by_cases hlast : i = (pushed s.log).length
    · rw [hlast, List.getElem?_concat_length, hitem]
    · rw [List.getElem?_append_left (by omega)]
      exact h.kept i hlo (by omega)
  · rw [hpushed] at hv
    rcases List.mem_append.1 hv with hv | hv
    · exact h.nonzero v hv
    · rw [List.mem_singleton.1 hv]
      exact hnonzero

/-- The next offset of the front is out: the value counts as popped. -/
theorem Inv.revealFront (h : Inv Q s) {val : T} {pack : Nat} (hl : s.thread t = some (.reveal (.popFront val) pack)) :
    Inv Q ⟨{ s.queue with version := Function.update s.queue.version .front pack }, Function.update s.thread t none,
      s.log ++ [.ret t (.popFront val)]⟩ := by
  obtain ⟨⟨-, hval, rfl⟩, hroom, hbelow, hcounter, hothers⟩ := (h.owned .front).holds hl rfl
  have hnonzero : val ≠ 0 := h.nonzero val (List.mem_of_getElem? hval)
  have hpushed : pushed (s.log ++ [.ret t (.popFront val)]) = pushed s.log := by simp
  have hpopped : popped (s.log ++ [.ret t (.popFront val)]) = popped s.log ++ [val] := by
    rw [popped_append, popped_popFront t hnonzero]
  have hfront : doneAt .front (s.log ++ [.ret t (.popFront val)]) = doneAt .front s.log + 1 := by
    simp only [doneAt, hpopped, List.length_append, List.length_singleton]
  have hback : doneAt .back (s.log ++ [.ret t (.popFront val)]) = doneAt .back s.log := by
    simp only [doneAt, hpushed]
  have hroom' : (popped s.log).length < (pushed s.log).length := hroom
  have hwords := h.nextWord hbelow hfront hback
  refine ⟨fun side => (hwords side).1, fun side => (hwords side).2, fun side => ?_, ?_, ?_, fun i hlo hhi => ?_, ?_,
    h.calls_update nofun⟩
  · cases side with
    | back =>
      refine (h.owned .back).frame rfl ?_ id rfl hback (fun hr => ?_) fun l hholds => hholds.back hpushed
      · rw [hl]
        exact nofun
      · have hr' : (pushed s.log).length < (popped s.log).length + Q.sizeLimit := hr
        simp only [Room, hpushed, hpopped, List.length_append, List.length_singleton]
        omega
    | front => exact .release rfl id (hfront ▸ hcounter) hothers
  · rw [hpushed, hpopped, List.length_append, List.length_singleton]
    obtain ⟨hle, hge⟩ := h.ordered
    omega
  · rw [hpushed, hpopped]
    exact prefix_snoc h.fifo hval
  · rw [hpopped, List.length_append, List.length_singleton] at hlo
    rw [hpushed] at hhi ⊢
    exact h.kept i (by omega) hhi
  · rw [hpushed]
    exact h.nonzero

/-- A thread that has not entered its end. -/
theorem Inv.advance_before (h : Inv Q s) {spurious : Bool} {l : Local T} {call : Call T} (hl : s.thread t = some l)
    (hcall : l.before = some call) (hun : Unwrapped Q s (.step t spurious)) (hre : Retested Q s (.step t spurious)) :
    Inv Q (s.move t (s.queue.advance Q spurious l)) := by
  have hout : ∀ side, ¬ Inside side (s.thread t) := fun side => hl ▸ not_inside_before hcall side
  have hcallz : call.Nonzero := (nonzero_before hcall).1 (h.calls t l hl)
  rcases Queue.advance_before (Q := Q) s.queue spurious hcall with
    ⟨other, spinCount, counter, mine, rfl, hcounter, rfl⟩ | ⟨l', hl', hadv⟩ | hadv
  · have henter : s.entering (.step t false) = some (call, counter, mine) := by
      simp only [Threads.entering, hl, if_pos hcounter]
    obtain ⟨hunpack, hblocked⟩ := hre _ henter
    rw [Queue.advance, if_pos ⟨hcounter, rfl⟩]
    exact h.enter hl hcounter (hun _ henter) hunpack hblocked
  · have hcall' : ∀ l, some l' = some l → l.Nonzero := by
      rintro l hx
      obtain rfl := Option.some.inj hx
      exact (nonzero_before hl').2 hcallz
    have hquiet : Inv Q ⟨s.queue, Function.update s.thread t (some l'), s.log ++ []⟩ :=
      h.quiet rfl rfl hout (not_inside_before hl') hcall'
    rw [List.append_nil] at hquiet
    rw [hadv]
    exact hquiet
  · rw [hadv]
    exact h.quiet (pushed_failed t call) (popped_failed t call) hout (fun _ => id) (by simp)

theorem Inv.step (h : Inv Q s) {a : Action Tid T} (hz : a.Nonzero) (hun : Unwrapped Q s a) (hre : Retested Q s a)
    (hs : s.step Q a = some s') : Inv Q s' := by
  rcases Threads.step_cases hs with ⟨t, call, rfl, hidle, rfl⟩ | ⟨t, spurious, l, rfl, hl, rfl⟩
  · refine h.quiet (pushed_call t call) (popped_call t call) (fun side => ?_) (fun side => id) fun l hx => ?_
    · rw [hidle]
      exact id
    · obtain rfl := Option.some.inj hx
      cases call with
      | pushBack elem => exact hz
      | popFront => trivial
  · cases l with
    | item call slot pack =>
      cases call with
      | pushBack elem => exact h.store hl
      | popFront => exact h.load hl
    | reveal result pack =>
      cases result with
      | pushBack elem ok => exact h.revealBack hl
      | popFront val => exact h.revealFront hl
    | loadOther call => exact h.advance_before hl rfl hun hre
    | loadCounter call other spinCount => exact h.advance_before hl rfl hun hre
    | loadVersion call other spinCount counter => exact h.advance_before hl rfl hun hre
    | exchange call other spinCount counter mine => exact h.advance_before hl rfl hun hre

omit [DecidableEq Tid] in
theorem inv_start (Q : QueueParam) : Inv Q (Threads.start Q : Threads Tid T) where
  word side := by
    cases side with
    | back => simp [Threads.start, Queue.fresh, doneAt, QueueParam.offsetAt, QueueParam.first, pushed]
    | front => simp [Threads.start, Queue.fresh, doneAt, QueueParam.offsetAt, QueueParam.first, popped]
  below side := by
    have hsize := Q.size_lt
    cases side with
    | back => exact Nat.two_pow_pos _
    | front => simpa [Threads.start, doneAt, QueueParam.offsetAt, QueueParam.first, popped] using hsize
  owned side := .free (by cases side <;> simp [Threads.start, Queue.fresh, doneAt, pushed, popped]) fun _ => id
  ordered := ⟨Nat.le_refl _, Nat.zero_le _⟩
  fifo := List.prefix_refl _
  kept _ _ hi := absurd hi (Nat.not_lt_zero _)
  nonzero := nofun
  calls := nofun

end Invariant

/-! ## Runs -/

/-- What producers and consumers rely on. -/
structure Delivered (Q : QueueParam) (s : Threads Tid T) : Prop where
  /-- Each push is popped at most once, and nothing else is. -/
  once : ∀ v, (popped s.log).count v ≤ (pushed s.log).count v
  /-- What has not been popped is still in its slot. -/
  kept : ∀ i, (popped s.log).length ≤ i → i < (pushed s.log).length → (pushed s.log)[i]? = some (s.queue.vec (i % Q.sizeLimit))
  bounded : (popped s.log).length ≤ (pushed s.log).length ∧ (pushed s.log).length ≤ (popped s.log).length + Q.sizeLimit

theorem delivered_of_run [DecidableEq Tid] (Q : QueueParam) (acts : List (Action Tid T)) (s : Threads Tid T)
    (hz : ∀ a ∈ acts, a.Nonzero) (hun : Along (Threads.step Q) (Unwrapped Q) acts (.start Q))
    (hre : Along (Threads.step Q) (Retested Q) acts (.start Q)) (hrun : steps (Threads.step Q) acts (.start Q) = some s) :
    Delivered Q s := by
  have hok := (hun.and hre).and (Along.of_forall hz (Threads.start Q))
  have hinv : Inv Q s := hok.invariant (fun s a s' hI ha hs => hI.step ha.2 ha.1.1 ha.1.2 hs) (inv_start Q) hrun
  exact ⟨fun v => hinv.fifo.sublist.count_le v, hinv.kept, hinv.ordered⟩

/-- The queue of the console, with another capacity. -/
def queueOfSize (sizeLimit : Nat) (h : ispow2 sizeLimit := by decide) (hle : sizeLimit ≤ 2 ^ 47 := by decide) : QueueParam :=
  { atomicBits := 64, offsetBits := 48, versionBits := 16, sizeLimit, offset_pos := by decide, version_pos := by decide,
    fits := by decide, size_le := hle, size_pow2 := h }

/-- The first `n` steps of a call. -/
def callSteps (t : Nat) (call : Call Nat) (n : Nat) : List (Action Nat Nat) := .call t call :: List.replicate n (.step t false)

/-- Two producers race for the back: the second finds the counter moved and tries again. -/
theorem delivered_of_run_two_producers :
    ∃ s, steps (Threads.step (queueOfSize 2))
        (callSteps 0 (.pushBack 7) 3 ++ callSteps 1 (.pushBack 8) 6 ++ List.replicate 6 (.step 0 false) ++ callSteps 2 .popFront 6)
        (Threads.start (queueOfSize 2)) = some s ∧ Delivered (queueOfSize 2) s ∧ pushed s.log = [8, 7] ∧ popped s.log = [8] := by
  have hlogs : (steps (Threads.step (queueOfSize 2))
      (callSteps 0 (.pushBack 7) 3 ++ callSteps 1 (.pushBack 8) 6 ++ List.replicate 6 (.step 0 false) ++ callSteps 2 .popFront 6)
      (Threads.start (queueOfSize 2))).map (fun s => (pushed s.log, popped s.log)) = some ([8, 7], [8]) := by
    decide +kernel
  obtain ⟨s, hrun, hlog⟩ := Option.map_eq_some_iff.1 hlogs
  obtain ⟨hpushed, hpopped⟩ := Prod.mk.inj hlog
  exact ⟨s, hrun, delivered_of_run _ _ s (by decide +kernel) (by decide +kernel) (by decide +kernel) hrun, hpushed, hpopped⟩

/-- The first producer reads the front while there is room. When it enters, the back has gone past that offset and the
queue is full: it writes over the value 2, and the consumer gets the value 3 twice. -/
theorem not_delivered_stale_front :
    ¬ ∀ (Q : QueueParam) (acts : List (Action Nat Nat)) (s : Threads Nat Nat), (∀ a ∈ acts, a.Nonzero) →
      Along (Threads.step Q) (Unwrapped Q) acts (Threads.start Q) → steps (Threads.step Q) acts (Threads.start Q) = some s →
        Delivered Q s := by
  intro h
  have hlogs : (steps (Threads.step (queueOfSize 1))
      (callSteps 0 (.pushBack 3) 1 ++ callSteps 1 (.pushBack 1) 6 ++ callSteps 2 .popFront 6 ++ callSteps 1 (.pushBack 2) 6 ++
        List.replicate 5 (.step 0 false) ++ callSteps 2 .popFront 6 ++ callSteps 2 .popFront 6)
      (Threads.start (queueOfSize 1))).map (fun s => (pushed s.log, popped s.log)) = some ([1, 2, 3], [1, 3, 3]) := by
    decide +kernel
  obtain ⟨s, hrun, hlog⟩ := Option.map_eq_some_iff.1 hlogs
  obtain ⟨hpushed, hpopped⟩ := Prod.mk.inj hlog
  have honce := (h _ _ s (by decide +kernel) (by decide +kernel) hrun).once 3
  rw [hpushed, hpopped] at honce
  exact absurd honce (by decide)

end Rv8.Util
