import Rv8.Lib.Steps
import Mathlib.Algebra.Order.Ring.Nat
import Mathlib.Logic.Function.Basic
/-!
# The atomic queue

The queue of `util/queue.h`: a ring of items, and for each end a counter and a word that
packs a version with an offset. A call reads the other end's word once, then tries to
move its own end's counter; while the counter is ahead of the version in the word the
end is taken. The offsets count up without turning round the ring, and that of the front
starts one ring ahead, so the queue is full when they are equal.

Each load, store and compare-exchange of a shared word is one step of one thread.
-/

namespace Rv8.Util

open Rv8.Lib

/-- `ispow2(val)` -/
def ispow2 (val : Nat) : Prop := val ≠ 0 ∧ val &&& (val - 1) = 0

instance (val : Nat) : Decidable (ispow2 val) := inferInstanceAs (Decidable (_ ∧ _))

/-- The template's parameters and `size_limit`, with what the constructor asserts. -/
structure QueueParam where
  (atomicBits offsetBits versionBits sizeLimit : Nat)
  offset_pos : 0 < offsetBits
  version_pos : 0 < versionBits
  fits : versionBits + offsetBits ≤ atomicBits
  size_le : sizeLimit ≤ 2 ^ (offsetBits - 1)
  size_pow2 : ispow2 sizeLimit

namespace QueueParam

variable (Q : QueueParam)

def spinLimit : Nat := 1 <<< 24

def offsetMask : Nat := 1 <<< Q.offsetBits - 1

def versionMask : Nat := 1 <<< Q.versionBits - 1

def packOffset (version offset : Nat) : Nat := version <<< Q.offsetBits ||| offset

/-- The offset in a packed word. -/
def offsetOf (pack : Nat) : Nat := pack &&& Q.offsetMask

/-- The offset, if the packed version is the counter's. -/
def unpackOffsets (counter pack : Nat) : Option Nat :=
  if (pack >>> Q.offsetBits) &&& Q.versionMask = counter &&& Q.versionMask then some (Q.offsetOf pack) else none

/-! ## Packed words -/

theorem and_sizeMask (x : Nat) : x &&& (Q.sizeLimit - 1) = x % Q.sizeLimit := by
  obtain ⟨k, hk⟩ := Nat.ne_zero_and_sub_one_eq_zero_iff_isPowerOfTwo.1 Q.size_pow2
  rw [hk, Nat.and_two_pow_sub_one_eq_mod]

theorem and_offsetMask (x : Nat) : x &&& Q.offsetMask = x % 2 ^ Q.offsetBits := by
  rw [offsetMask, Nat.one_shiftLeft, Nat.and_two_pow_sub_one_eq_mod]

theorem and_versionMask (x : Nat) : x &&& Q.versionMask = x % 2 ^ Q.versionBits := by
  rw [versionMask, Nat.one_shiftLeft, Nat.and_two_pow_sub_one_eq_mod]

theorem packOffset_eq {offset : Nat} (version : Nat) (h : offset < 2 ^ Q.offsetBits) :
    Q.packOffset version offset = 2 ^ Q.offsetBits * version + offset := by
  rw [packOffset, Nat.shiftLeft_eq, Nat.mul_comm, Nat.two_pow_add_eq_or_of_lt h]

theorem offsetOf_packOffset {offset : Nat} (version : Nat) (h : offset < 2 ^ Q.offsetBits) :
    Q.offsetOf (Q.packOffset version offset) = offset := by
  rw [offsetOf, and_offsetMask, Q.packOffset_eq version h, Nat.mul_add_mod, Nat.mod_eq_of_lt h]

theorem unpackOffsets_packOffset {offset : Nat} (counter version : Nat) (h : offset < 2 ^ Q.offsetBits) :
    Q.unpackOffsets counter (Q.packOffset version offset) =
      if version % 2 ^ Q.versionBits = counter % 2 ^ Q.versionBits then some offset else none := by
  have hshift : Q.packOffset version offset >>> Q.offsetBits = version := by
    rw [Q.packOffset_eq version h, Nat.shiftRight_eq_div_pow, Nat.mul_add_div (Nat.two_pow_pos _), Nat.div_eq_of_lt h,
      Nat.add_zero]
  rw [unpackOffsets, hshift, and_versionMask, and_versionMask, Q.offsetOf_packOffset version h]

/-- The next version is another one. -/
theorem succ_mod_ne (n : Nat) : (n + 1) % 2 ^ Q.versionBits ≠ n % 2 ^ Q.versionBits := by
  have hle : 2 ≤ 2 ^ Q.versionBits := Nat.pow_le_pow_right Nat.two_pos Q.version_pos
  have hlt : n % 2 ^ Q.versionBits < 2 ^ Q.versionBits := Nat.mod_lt _ (by omega)
  rw [← Nat.mod_add_mod]
  by_cases hlast : n % 2 ^ Q.versionBits + 1 = 2 ^ Q.versionBits
  · rw [hlast, Nat.mod_self]
    omega
  · rw [Nat.mod_eq_of_lt (by omega)]
    omega

theorem size_lt : Q.sizeLimit < 2 ^ Q.offsetBits :=
  Nat.lt_of_le_of_lt Q.size_le (Nat.pow_lt_pow_right Nat.one_lt_two (Nat.sub_lt Q.offset_pos Nat.one_pos))

theorem offset_le_atomic : 2 ^ Q.offsetBits ≤ 2 ^ Q.atomicBits :=
  Nat.pow_le_pow_right Nat.two_pos (Nat.le_of_add_left_le Q.fits)

end QueueParam

/-- The two ends of the queue, each with its counter and version word. -/
inductive Side
  | back | front
deriving DecidableEq

def Side.other : Side → Side
  | .back => .front
  | .front => .back

/-- `vec`, `counter_back` and `counter_front`, `version_back` and `version_front`. -/
structure Queue (T : Type) where
  vec : Nat → T
  counter : Side → Nat
  version : Side → Nat

inductive Call (T : Type)
  | pushBack (elem : T)
  | popFront

def Call.side {T : Type} : Call T → Side
  | .pushBack _ => .back
  | .popFront => .front

/-- What a call returned; that of `push_back` with the element. -/
inductive Result (T : Type)
  | pushBack (elem : T) (ok : Bool)
  | popFront (val : T)
deriving DecidableEq

def Result.side {T : Type} : Result T → Side
  | .pushBack _ _ => .back
  | .popFront _ => .front

/-- The next step of a call: `mine` is the offset of the call's own end and `other` the one it read of the other end.
After the exchange come the access to the item at `slot` and the store of the new word. -/
inductive Local (T : Type)
  | loadOther (call : Call T)
  | loadCounter (call : Call T) (other spinCount : Nat)
  | loadVersion (call : Call T) (other spinCount counter : Nat)
  | exchange (call : Call T) (other spinCount counter mine : Nat)
  | item (call : Call T) (slot pack : Nat)
  | reveal (result : Result T) (pack : Nat)

section Model
variable {Tid T : Type} [DecidableEq Tid] [DecidableEq T] [Zero T] (Q : QueueParam)

/-- The constructor. -/
def Queue.fresh : Queue T where
  vec := fun _ => 0
  counter := fun _ => 0
  version
    | .back => Q.packOffset 0 0
    | .front => Q.packOffset 0 Q.sizeLimit

/-- The test for a full queue in `push_back`, for an empty one in `pop_front`. -/
def Call.Blocked : Call T → Nat → Nat → Prop
  | .pushBack _, back, front => front = back
  | .popFront, front, back => (front + 2 ^ Q.atomicBits - back) % 2 ^ Q.atomicBits = Q.sizeLimit

instance : (call : Call T) → (mine other : Nat) → Decidable (call.Blocked Q mine other)
  | .pushBack _, back, front => inferInstanceAs (Decidable (front = back))
  | .popFront, front, back =>
    inferInstanceAs (Decidable ((front + 2 ^ Q.atomicBits - back) % 2 ^ Q.atomicBits = Q.sizeLimit))

def Call.failed : Call T → Result T
  | .pushBack elem => .pushBack elem false
  | .popFront => .popFront 0

/-- `++spin_count < spin_limit` -/
def Call.retry (call : Call T) (other spinCount : Nat) : Local T ⊕ Result T :=
  if spinCount + 1 < QueueParam.spinLimit then .inl (.loadCounter call other (spinCount + 1)) else .inr call.failed

/-- One step of `push_back` or `pop_front`. The weak compare-exchange may fail for no reason (`spurious`). -/
def Queue.advance (q : Queue T) (spurious : Bool) : Local T → Queue T × (Local T ⊕ Result T)
  | .loadOther call => (q, .inl (.loadCounter call (Q.offsetOf (q.version call.side.other)) 0))
  | .loadCounter call other spinCount => (q, .inl (.loadVersion call other spinCount (q.counter call.side)))
  | .loadVersion call other spinCount counter =>
    match Q.unpackOffsets counter (q.version call.side) with
    | none => (q, call.retry other spinCount)
    | some mine =>
      if call.Blocked Q mine other then (q, .inr call.failed)
      else (q, .inl (.exchange call other spinCount counter mine))
  | .exchange call other spinCount counter mine =>
    if q.counter call.side = counter ∧ spurious = false then
      let newVersion := (counter + 1) &&& Q.versionMask
      ({ q with counter := Function.update q.counter call.side newVersion },
        .inl (.item call (mine &&& (Q.sizeLimit - 1)) (Q.packOffset newVersion ((mine + 1) &&& Q.offsetMask))))
    else (q, call.retry other spinCount)
  | .item (.pushBack elem) slot pack =>
    ({ q with vec := Function.update q.vec slot elem }, .inl (.reveal (.pushBack elem true) pack))
  | .item .popFront slot pack => (q, .inl (.reveal (.popFront (q.vec slot)) pack))
  | .reveal result pack => ({ q with version := Function.update q.version result.side pack }, .inr result)

/-! ## Threads -/

inductive Event (Tid T : Type)
  | call (t : Tid) (call : Call T)
  | ret (t : Tid) (result : Result T)

def Event.thread : Event Tid T → Tid
  | .call t _ => t
  | .ret t _ => t

/-- The queue, the threads inside a call, and the calls and returns so far. -/
structure Threads (Tid T : Type) where
  queue : Queue T
  thread : Tid → Option (Local T)
  log : List (Event Tid T)

inductive Action (Tid T : Type)
  | call (t : Tid) (call : Call T)
  | step (t : Tid) (spurious : Bool)

def Threads.start : Threads Tid T := ⟨Queue.fresh Q, fun _ => none, []⟩

/-- A thread goes on, or its call returns. -/
def Threads.move (s : Threads Tid T) (t : Tid) : Queue T × (Local T ⊕ Result T) → Threads Tid T
  | (q, .inl l) => { s with queue := q, thread := Function.update s.thread t (some l) }
  | (q, .inr result) => { queue := q, thread := Function.update s.thread t none, log := s.log ++ [.ret t result] }

def Threads.step (s : Threads Tid T) : Action Tid T → Option (Threads Tid T)
  | .call t call =>
    match s.thread t with
    | none => some { s with thread := Function.update s.thread t (some (.loadOther call)), log := s.log ++ [.call t call] }
    | some _ => none
  | .step t spurious => (s.thread t).map fun l => s.move t (s.queue.advance Q spurious l)

variable {Q}

/-- The call a thread is in, before it has entered. -/
def Local.before : Local T → Option (Call T)
  | .loadOther call => some call
  | .loadCounter call _ _ => some call
  | .loadVersion call _ _ _ => some call
  | .exchange call _ _ _ _ => some call
  | .item _ _ _ => none
  | .reveal _ _ => none

omit [DecidableEq T] in
theorem Call.retry_cases (call : Call T) (other spinCount : Nat) :
    (∃ l, l.before = some call ∧ call.retry other spinCount = .inl l) ∨ call.retry other spinCount = .inr call.failed := by
  unfold Call.retry
  split
  · exact .inl ⟨_, rfl, rfl⟩
  · exact .inr rfl

omit [DecidableEq T] in
/-- Before it enters, a call reads, tries again or fails. -/
theorem Queue.advance_before (q : Queue T) (spurious : Bool) {l : Local T} {call : Call T} (hl : l.before = some call) :
    (∃ other spinCount counter mine, l = .exchange call other spinCount counter mine ∧ q.counter call.side = counter ∧
        spurious = false) ∨
      (∃ l', l'.before = some call ∧ q.advance Q spurious l = (q, .inl l')) ∨
        q.advance Q spurious l = (q, .inr call.failed) := by
  have hretry (other spinCount : Nat) : (∃ l', l'.before = some call ∧ (q, call.retry other spinCount) = (q, .inl l')) ∨
      (q, call.retry other spinCount) = (q, Sum.inr call.failed) := by
    rcases call.retry_cases other spinCount with ⟨l', hl', heq⟩ | heq
    · exact .inl ⟨l', hl', by rw [heq]⟩
    · exact .inr (by rw [heq])
  cases l with
  | loadOther call' =>
    obtain rfl := Option.some.inj hl
    exact .inr (.inl ⟨_, rfl, rfl⟩)
  | loadCounter call' other spinCount =>
    obtain rfl := Option.some.inj hl
    exact .inr (.inl ⟨_, rfl, rfl⟩)
  | loadVersion call' other spinCount counter =>
    obtain rfl := Option.some.inj hl
    right
    simp only [Queue.advance]
    split
    · exact hretry other spinCount
    · split
      · exact .inr rfl
      · exact .inl ⟨_, rfl, rfl⟩
  | exchange call' other spinCount counter mine =>
    obtain rfl := Option.some.inj hl
    by_cases hc : q.counter call'.side = counter ∧ spurious = false
    · exact .inl ⟨other, spinCount, counter, mine, rfl, hc⟩
    · right
      simp only [Queue.advance, if_neg hc]
      exact hretry other spinCount
  | item call' slot pack => cases hl
  | reveal result pack => cases hl

omit [DecidableEq T] in
/-- What an action can do. -/
theorem Threads.step_cases {s s' : Threads Tid T} {a : Action Tid T} (h : s.step Q a = some s') :
    (∃ t call, a = .call t call ∧ s.thread t = none ∧
      s' = ⟨s.queue, Function.update s.thread t (some (.loadOther call)), s.log ++ [.call t call]⟩) ∨
    ∃ t spurious l, a = .step t spurious ∧ s.thread t = some l ∧ s' = s.move t (s.queue.advance Q spurious l) := by
  cases a with
  | call t call =>
    simp only [Threads.step] at h
    split at h
    · exact .inl ⟨t, call, rfl, ‹_›, (Option.some.inj h).symm⟩
    · cases h
  | step t spurious =>
    obtain ⟨l, hl, rfl⟩ := Option.map_eq_some_iff.1 h
    exact .inr ⟨t, spurious, l, rfl, hl, rfl⟩

/-- The values of the calls of `push_back` that returned true, in the order in which they stored `version_back`. -/
def pushed (log : List (Event Tid T)) : List T :=
  log.filterMap fun
    | .ret _ (.pushBack elem true) => some elem
    | _ => none

/-- The values other than 0 that calls of `pop_front` returned, in the order in which they stored `version_front`. -/
def popped (log : List (Event Tid T)) : List T :=
  log.filterMap fun
    | .ret _ (.popFront val) => if val = 0 then none else some val
    | _ => none

end Model

end Rv8.Util
