import Rv8.Util.Queue
/-!
# One thread and the end of the offsets

`queue_atomic` used by one thread, call after call, with every choice of the template's
integers that its assertions allow. The offsets are stored modulo `offset_limit` but
`empty`, `full`, `size` and the two tests compare them as they are. The front is a ring
ahead of the back, so its offset is the first to wrap.
-/

namespace Rv8.Util

open Rv8.Lib

/-- The template's integers and `size_limit`, with what the constructor and `pack_offset` assert: an offset limit that
fits its type, and a version of no bits at the least. -/
structure QueueShape where
  (atomicBits offsetBits versionBits sizeLimit : Nat)
  atomic_type : atomicBits = 8 ∨ atomicBits = 16 ∨ atomicBits = 32 ∨ atomicBits = 64
  offset_pos : 0 < offsetBits
  offset_lt : offsetBits < atomicBits
  fits : versionBits + offsetBits ≤ atomicBits
  size_le : sizeLimit ≤ 2 ^ (offsetBits - 1)
  size_pow2 : ispow2 sizeLimit

namespace QueueShape

variable (W : QueueShape)

def offsetMask : Nat := 1 <<< W.offsetBits - 1

def versionMask : Nat := 1 <<< W.versionBits - 1

def packOffset (version offset : Nat) : Nat := version <<< W.offsetBits ||| offset

/-- `(pack >> offset_shift) & offset_mask` -/
def offsetOf (pack : Nat) : Nat := pack &&& W.offsetMask

/-- The offset, if the packed version is the counter's. -/
def unpackOffsets (counter pack : Nat) : Option Nat :=
  if (pack >>> W.offsetBits) &&& W.versionMask = counter &&& W.versionMask then some (W.offsetOf pack) else none

/-- Offsets are subtracted in their own type, or as `int`: there a negative result equals no size, and `size_t` makes it
one of 64 bits. -/
def wordBits : Nat := if W.atomicBits < 32 then 64 else W.atomicBits

def minus (x y : Nat) : Nat := (x + 2 ^ W.wordBits - y) % 2 ^ W.wordBits

/-! ## What the offsets of a shape are -/

/-- Offsets do not depend on the number of version bits. -/
def versioned : QueueParam where
  atomicBits := W.atomicBits
  offsetBits := W.offsetBits
  versionBits := max 1 W.versionBits
  sizeLimit := W.sizeLimit
  offset_pos := W.offset_pos
  version_pos := Nat.lt_of_lt_of_le Nat.one_pos (Nat.le_max_left _ _)
  fits := by
    have hfits := W.fits
    have hlt := W.offset_lt
    omega
  size_le := W.size_le
  size_pow2 := W.size_pow2

theorem and_offsetMask (x : Nat) : x &&& W.offsetMask = x % 2 ^ W.offsetBits := W.versioned.and_offsetMask x

theorem offsetOf_lt (pack : Nat) : W.offsetOf pack < 2 ^ W.offsetBits := by
  rw [offsetOf, W.and_offsetMask]
  exact Nat.mod_lt _ (Nat.two_pow_pos _)

theorem offsetOf_packOffset {offset : Nat} (version : Nat) (h : offset < 2 ^ W.offsetBits) :
    W.offsetOf (W.packOffset version offset) = offset := W.versioned.offsetOf_packOffset version h

theorem and_versionMask (x : Nat) : x &&& W.versionMask = x % 2 ^ W.versionBits := by
  rw [versionMask, Nat.one_shiftLeft, Nat.and_two_pow_sub_one_eq_mod]

theorem unpackOffsets_packOffset {offset : Nat} (counter version : Nat) (h : offset < 2 ^ W.offsetBits)
    (hversion : version % 2 ^ W.versionBits = counter % 2 ^ W.versionBits) :
    W.unpackOffsets counter (W.packOffset version offset) = some offset := by
  have hshift : W.packOffset version offset >>> W.offsetBits = version := by
    have heq : W.packOffset version offset = 2 ^ W.offsetBits * version + offset := W.versioned.packOffset_eq version h
    rw [heq, Nat.shiftRight_eq_div_pow, Nat.mul_add_div (Nat.two_pow_pos _), Nat.div_eq_of_lt h, Nat.add_zero]
  rw [unpackOffsets, hshift, and_versionMask, and_versionMask, if_pos hversion, W.offsetOf_packOffset version h]

theorem size_pos : 0 < W.sizeLimit := Nat.pos_of_ne_zero W.size_pow2.1

theorem two_size_le : 2 * W.sizeLimit ≤ 2 ^ W.offsetBits := by
  have hsucc : 2 ^ W.offsetBits = 2 * 2 ^ (W.offsetBits - 1) := by
    rw [← Nat.pow_succ', Nat.succ_eq_add_one, Nat.sub_add_cancel W.offset_pos]
  have hle := W.size_le
  omega

theorem two_offset_le : 2 * 2 ^ W.offsetBits ≤ 2 ^ W.wordBits := by
  have hlt := W.offset_lt
  rw [← Nat.pow_succ']
  refine Nat.pow_le_pow_right Nat.two_pos ?_
  unfold wordBits
  split <;> omega

theorem minus_of_le {x y : Nat} (hle : y ≤ x) (hx : x < 2 ^ W.offsetBits) : W.minus x y = x - y := by
  have hword := W.two_offset_le
  rw [minus, show x + 2 ^ W.wordBits - y = 2 ^ W.wordBits + (x - y) by omega, Nat.add_mod_left]
  exact Nat.mod_eq_of_lt (by omega)

/-- The subtraction in the tests for an empty queue is right only without a wrap. -/
theorem minus_eq_size_iff {x y : Nat} (hx : x < 2 ^ W.offsetBits) (hy : y < 2 ^ W.offsetBits) :
    W.minus x y = W.sizeLimit ↔ x = y + W.sizeLimit := by
  have hword := W.two_offset_le
  have hsize := W.two_size_le
  have hpos := W.size_pos
  rcases Nat.lt_or_ge x y with hlt | hge
  · rw [minus, Nat.mod_eq_of_lt (by omega)]
    omega
  · rw [W.minus_of_le hge hx]
    omega

end QueueShape

/-! ## Whole calls -/

section Model
variable {T : Type} [Zero T] (W : QueueShape)

namespace Queue

/-- The constructor. -/
def create : Queue T where
  vec := fun _ => 0
  counter := fun _ => 0
  version
    | .back => W.packOffset 0 0
    | .front => W.packOffset 0 W.sizeLimit

variable (q : Queue T)

/-- `_back()` and `_front()` -/
def offset (side : Side) : Nat := W.offsetOf (q.version side)

def empty : Bool := W.minus (q.offset W .front) (q.offset W .back) = W.sizeLimit

def full : Bool := q.offset W .front = q.offset W .back

def size : Nat :=
  let back := q.offset W .back
  let front := q.offset W .front
  if front < back then W.minus back front else (W.minus W.sizeLimit front + back) % 2 ^ W.wordBits

/-- The test for a full queue in `push_back`, for an empty one in `pop_front`. -/
def blocked : Call T → Nat → Nat → Bool
  | .pushBack _, back, front => front = back
  | .popFront, front, back => W.minus front back = W.sizeLimit

/-- The exchange that succeeds, with the access to the item and the store of the new word. -/
def enter (call : Call T) (mine : Nat) : Queue T × Result T :=
  let newVersion := (q.counter call.side + 1) &&& W.versionMask
  let slot := mine &&& (W.sizeLimit - 1)
  let pack := W.packOffset newVersion ((mine + 1) &&& W.offsetMask)
  let moved := { q with
    counter := Function.update q.counter call.side newVersion
    version := Function.update q.version call.side pack }
  match call with
  | .pushBack elem => ({ moved with vec := Function.update q.vec slot elem }, .pushBack elem true)
  | .popFront => (moved, .popFront (q.vec slot))

/-- The loop of a call, with the turns it has left. The weak compare-exchange fails the next `failures` times for no
reason. Nothing is returned for a call that does not enter. -/
def attempts (call : Call T) (other : Nat) : (spins failures : Nat) → Option (Queue T × Result T)
  | 0, _ => none
  | spins + 1, failures =>
    match W.unpackOffsets (q.counter call.side) (q.version call.side) with
    | none => attempts call other spins failures
    | some mine =>
      if blocked W call mine other then none
      else
        match failures with
        | 0 => some (q.enter W call mine)
        | failures + 1 => attempts call other spins failures

end Queue

/-- A call of the thread, and how often its exchange fails for no reason. -/
structure Turn (T : Type) where
  call : Call T
  failures : Nat

/-- `push_back` or `pop_front`, if it enters. -/
def Queue.whole (q : Queue T) (t : Turn T) : Option (Queue T × Result T) :=
  q.attempts W t.call (q.offset W t.call.side.other) QueueParam.spinLimit t.failures

def Queue.returned (q : Queue T) (t : Turn T) : Queue T × Result T := (q.whole W t).getD (q, t.call.failed)

/-! ## A run of calls -/

/-- The queue, and how many calls have entered at each end: the elements pushed and those popped. -/
structure Used (T : Type) where
  queue : Queue T
  entered : Side → Nat

namespace Used

def start : Used T := ⟨Queue.create W, fun _ => 0⟩

def turn (s : Used T) (t : Turn T) : Option (Used T) :=
  match s.queue.whole W t with
  | none => some s
  | some (q, _) => some ⟨q, Function.update s.entered t.call.side (s.entered t.call.side + 1)⟩

variable (s : Used T)

/-- The number of elements at which a call of this kind does nothing. -/
def Stops : Call T → Prop
  | .pushBack _ => s.entered .back = s.entered .front + W.sizeLimit
  | .popFront => s.entered .back = s.entered .front

def entering (call : Call T) : Used T :=
  ⟨(s.queue.enter W call (s.queue.offset W call.side)).1, Function.update s.entered call.side (s.entered call.side + 1)⟩

/-- The accessors report the number of elements pushed and not yet popped. -/
structure Reports : Prop where
  empty : s.queue.empty W = true ↔ s.entered .back = s.entered .front
  full : s.queue.full W = true ↔ s.entered .back = s.entered .front + W.sizeLimit
  size : s.entered .front + s.queue.size W = s.entered .back

/-- A push fails exactly at capacity; a pop from an empty queue returns 0 and changes nothing. -/
def Answers (t : Turn T) : Prop :=
  match t.call with
  | .pushBack elem =>
    (s.queue.returned W t).2 = .pushBack elem false ↔ s.entered .back = s.entered .front + W.sizeLimit
  | .popFront => s.entered .back = s.entered .front → s.queue.returned W t = (s.queue, .popFront 0)

/-- The push meets a full queue, or gets through before its loop ends. The pop does not take the front to the end of the
offsets: with it, there have been fewer than `offset_limit - size_limit`. -/
def Unwrapped (t : Turn T) : Prop :=
  match t.call with
  | .pushBack _ => s.entered .back = s.entered .front + W.sizeLimit ∨ t.failures < QueueParam.spinLimit
  | .popFront => s.entered .back ≠ s.entered .front ∧ t.failures < QueueParam.spinLimit →
      s.entered .front + 1 < 2 ^ W.offsetBits - W.sizeLimit

end Used

end Model

/-! ## What a call does while no offset has wrapped -/

section Tracks
variable {T : Type} {W : QueueShape}

/-- The offset an end starts from. -/
def QueueShape.origin (W : QueueShape) : Side → Nat
  | .back => 0
  | .front => W.sizeLimit

/-- The word of an end has the version of its counter and the true number of calls that entered there. -/
structure Used.Tracks (W : QueueShape) (s : Used T) : Prop where
  word (side : Side) : ∃ version, s.queue.version side = W.packOffset version (W.origin side + s.entered side) ∧
    version % 2 ^ W.versionBits = s.queue.counter side % 2 ^ W.versionBits
  popped_le : s.entered .front ≤ s.entered .back
  pushed_le : s.entered .back ≤ s.entered .front + W.sizeLimit
  lt : s.entered .front + W.sizeLimit < 2 ^ W.offsetBits

/-- Nothing changes between two turns of the loop of a lone thread. -/
theorem Queue.attempts_eq (q : Queue T) {call : Call T} {mine : Nat} (other : Nat)
    (hmine : W.unpackOffsets (q.counter call.side) (q.version call.side) = some mine) (spins failures : Nat) :
    q.attempts W call other spins failures =
      if Queue.blocked W call mine other = true ∨ spins ≤ failures then none else some (q.enter W call mine) := by
  induction spins generalizing failures with
  | zero => rw [if_pos (.inr (Nat.zero_le _))]; rfl
  | succ spins ih =>
    simp only [Queue.attempts, hmine]
    by_cases hblocked : Queue.blocked W call mine other = true
    · rw [if_pos hblocked, if_pos (.inl hblocked)]
    · rw [if_neg hblocked]
      cases failures with
      | zero => rw [if_neg (by simp [hblocked])]
      | succ failures =>
        simp only [ih, Nat.add_le_add_iff_right]

theorem Used.entering_version (s : Used T) (call : Call T) :
    (s.entering W call).queue.version = Function.update s.queue.version call.side
      (W.packOffset ((s.queue.counter call.side + 1) &&& W.versionMask) ((s.queue.offset W call.side + 1) &&& W.offsetMask)) := by
  cases call with
  | pushBack elem => rfl
  | popFront => rfl

theorem Used.entering_counter (s : Used T) (call : Call T) :
    (s.entering W call).queue.counter =
      Function.update s.queue.counter call.side ((s.queue.counter call.side + 1) &&& W.versionMask) := by
  cases call with
  | pushBack elem => rfl
  | popFront => rfl

theorem Used.entering_entered (s : Used T) (call : Call T) :
    (s.entering W call).entered = Function.update s.entered call.side (s.entered call.side + 1) := rfl

namespace Used.Tracks

variable {s : Used T} (h : s.Tracks W)
include h

theorem origin_lt (side : Side) : W.origin side + s.entered side < 2 ^ W.offsetBits := by
  have hpushed := h.pushed_le
  have hlt := h.lt
  cases side with
  | back => rw [QueueShape.origin]; omega
  | front => rw [QueueShape.origin]; omega

theorem offset_eq (side : Side) : s.queue.offset W side = W.origin side + s.entered side := by
  obtain ⟨version, hword, -⟩ := h.word side
  rw [Queue.offset, hword, W.offsetOf_packOffset version (h.origin_lt side)]

theorem back_eq : s.queue.offset W .back = s.entered .back := by
  rw [h.offset_eq, QueueShape.origin, Nat.zero_add]

theorem front_eq : s.queue.offset W .front = s.entered .front + W.sizeLimit := by
  rw [h.offset_eq, QueueShape.origin, Nat.add_comm]

theorem empty_iff : s.queue.empty W = true ↔ s.entered .back = s.entered .front := by
  have hback := h.origin_lt .back
  rw [← h.offset_eq, h.back_eq] at hback
  rw [Queue.empty, decide_eq_true_iff, h.front_eq, h.back_eq, W.minus_eq_size_iff h.lt hback]
  omega

theorem full_iff : s.queue.full W = true ↔ s.entered .back = s.entered .front + W.sizeLimit := by
  rw [Queue.full, decide_eq_true_iff, h.front_eq, h.back_eq]
  exact eq_comm

/-- `size_limit - front` is below 0 once an element was popped, and `back` brings it up again. -/
theorem size_eq : s.entered .front + s.queue.size W = s.entered .back := by
  have hpopped := h.popped_le
  have hpushed := h.pushed_le
  have hlt := h.lt
  have hword := W.two_offset_le
  simp only [Queue.size, h.front_eq, h.back_eq]
  rw [if_neg (by omega), QueueShape.minus]
  rw [Nat.mod_add_mod, show W.sizeLimit + 2 ^ W.wordBits - (s.entered .front + W.sizeLimit) + s.entered .back =
    2 ^ W.wordBits + (s.entered .back - s.entered .front) by omega, Nat.add_mod_left, Nat.mod_eq_of_lt (by omega)]
  omega

theorem reports : s.Reports W := ⟨h.empty_iff, h.full_iff, h.size_eq⟩

/-- The number of elements at which a call stops. -/
theorem whole_eq (t : Turn T) :
    s.queue.whole W t =
      if Queue.blocked W t.call (s.queue.offset W t.call.side) (s.queue.offset W t.call.side.other) = true ∨
          QueueParam.spinLimit ≤ t.failures then none
      else some (s.queue.enter W t.call (s.queue.offset W t.call.side)) := by
  obtain ⟨version, hword, hversion⟩ := h.word t.call.side
  refine Queue.attempts_eq _ _ ?_ _ _
  rw [h.offset_eq, hword]
  exact W.unpackOffsets_packOffset _ _ (h.origin_lt _) hversion

theorem blocked_iff (call : Call T) :
    Queue.blocked W call (s.queue.offset W call.side) (s.queue.offset W call.side.other) = true ↔ s.Stops W call := by
  cases call with
  | pushBack elem => exact h.full_iff
  | popFront => exact h.empty_iff

/-- A call that does not enter leaves everything as it is. -/
theorem turn_cases (t : Turn T) :
    (s.Stops W t.call ∨ QueueParam.spinLimit ≤ t.failures) ∧ s.queue.whole W t = none ∧ s.turn W t = some s ∨
      (¬ s.Stops W t.call ∧ t.failures < QueueParam.spinLimit) ∧
        s.queue.whole W t = some (s.queue.enter W t.call (s.queue.offset W t.call.side)) ∧
        s.turn W t = some (s.entering W t.call) := by
  have hwhole := h.whole_eq t
  have hblocked := h.blocked_iff t.call
  by_cases hstop : s.Stops W t.call ∨ QueueParam.spinLimit ≤ t.failures
  · rw [if_pos (hstop.imp_left hblocked.2)] at hwhole
    exact .inl ⟨hstop, hwhole, by rw [turn, hwhole]⟩
  · rw [if_neg fun hor => hstop (hor.imp_left hblocked.1)] at hwhole
    rw [not_or, Nat.not_le] at hstop
    exact .inr ⟨hstop, hwhole, by rw [turn, hwhole]; rfl⟩

/-- The numbers of elements after a call that enters. -/
theorem counts_entering (call : Call T) (hstop : ¬ s.Stops W call)
    (hlt : call = .popFront → s.entered .front + 1 + W.sizeLimit < 2 ^ W.offsetBits) :
    (s.entering W call).entered .front ≤ (s.entering W call).entered .back ∧
      (s.entering W call).entered .back ≤ (s.entering W call).entered .front + W.sizeLimit ∧
      (s.entering W call).entered .front + W.sizeLimit < 2 ^ W.offsetBits ∧
      W.origin call.side + (s.entered call.side + 1) < 2 ^ W.offsetBits := by
  have hpopped := h.popped_le
  have hpushed := h.pushed_le
  have hfront := h.lt
  cases call with
  | pushBack elem =>
    change ¬ s.entered .back = s.entered .front + W.sizeLimit at hstop
    simp only [Used.entering_entered, Call.side, Function.update_self, Function.update_of_ne, ne_eq, reduceCtorEq, not_false_iff,
      QueueShape.origin]
    omega
  | popFront =>
    have hroom := hlt rfl
    change ¬ s.entered .back = s.entered .front at hstop
    simp only [Used.entering_entered, Call.side, Function.update_self, Function.update_of_ne, ne_eq, reduceCtorEq, not_false_iff,
      QueueShape.origin]
    omega

/-- A call that enters moves the word of its end on by one offset and one version. -/
theorem word_entering (call : Call T) (hmine : W.origin call.side + (s.entered call.side + 1) < 2 ^ W.offsetBits) (side : Side) :
    ∃ version, (s.entering W call).queue.version side = W.packOffset version (W.origin side + (s.entering W call).entered side) ∧
      version % 2 ^ W.versionBits = (s.entering W call).queue.counter side % 2 ^ W.versionBits := by
  by_cases hside : side = call.side
  · subst hside
    refine ⟨(s.queue.counter call.side + 1) &&& W.versionMask, ?_, ?_⟩
    · rw [Used.entering_version, Used.entering_entered, Function.update_self, Function.update_self, h.offset_eq, W.and_offsetMask,
        Nat.add_assoc, Nat.mod_eq_of_lt hmine]
    · rw [Used.entering_counter, Function.update_self]
  · obtain ⟨version, hword, hversion⟩ := h.word side
    refine ⟨version, ?_, ?_⟩
    · rw [Used.entering_version, Used.entering_entered, Function.update_of_ne hside, Function.update_of_ne hside, hword]
    · rw [Used.entering_counter, Function.update_of_ne hside, hversion]

theorem entering (call : Call T) (hstop : ¬ s.Stops W call)
    (hlt : call = .popFront → s.entered .front + 1 + W.sizeLimit < 2 ^ W.offsetBits) : (s.entering W call).Tracks W := by
  obtain ⟨hpopped, hpushed, hfront, hmine⟩ := h.counts_entering call hstop hlt
  exact ⟨h.word_entering call hmine, hpopped, hpushed, hfront⟩

theorem turn {t : Turn T} (hok : s.Unwrapped W t) {s' : Used T} (hs : s.turn W t = some s') : s'.Tracks W := by
  rcases h.turn_cases t with ⟨-, -, hturn⟩ | ⟨⟨hstop, hfailures⟩, -, hturn⟩
  · obtain rfl := Option.some.inj (hturn.symm.trans hs)
    exact h
  · obtain rfl := Option.some.inj (hturn.symm.trans hs)
    refine h.entering t.call hstop fun hpop => ?_
    have hroom : s.entered .front + 1 < 2 ^ W.offsetBits - W.sizeLimit := by
      rw [Unwrapped, hpop] at hok
      rw [hpop] at hstop
      exact hok ⟨hstop, hfailures⟩
    omega

/-- The pop that takes the front to the end of the offsets leaves it behind the back. -/
theorem not_reports_entering (hstop : ¬ s.Stops W (.popFront (T := T)))
    (hend : s.entered .front + 1 + W.sizeLimit = 2 ^ W.offsetBits) : ¬ (s.entering W .popFront).Reports W := by
  have hpopped := h.popped_le
  have hback := h.origin_lt .back
  rw [← h.offset_eq, h.back_eq] at hback
  have hfront : (s.entering W .popFront).queue.offset W .front = 0 := by
    rw [Queue.offset, Used.entering_version, Call.side, Function.update_self, W.and_offsetMask, h.front_eq,
      Nat.add_right_comm, hend, Nat.mod_self, W.offsetOf_packOffset _ (Nat.two_pow_pos _)]
  have hsame : (s.entering W .popFront).queue.offset W .back = s.entered .back := by
    rw [← h.back_eq, Queue.offset, Used.entering_version, Call.side,
      Function.update_of_ne (show Side.back ≠ .front by decide), Queue.offset]
  intro hreports
  have hsize := hreports.size
  change ¬ s.entered .back = s.entered .front at hstop
  rw [Queue.size] at hsize
  simp only [hfront, hsame] at hsize
  rw [if_pos (by omega), W.minus_of_le (Nat.zero_le _) hback] at hsize
  change s.entered .front + 1 + (s.entered .back - 0) = s.entered .back at hsize
  omega

end Used.Tracks

end Tracks

/-! ## Runs -/

section Run
variable {T : Type} [Zero T] (W : QueueShape)

theorem Used.tracks_start : (Used.start W (T := T)).Tracks W where
  word side := by
    refine ⟨0, ?_, rfl⟩
    cases side with
    | back => rfl
    | front => rfl
  popped_le := Nat.le_refl _
  pushed_le := Nat.zero_le _
  lt := by
    have hsize := W.two_size_le
    have hpos := W.size_pos
    change 0 + W.sizeLimit < _
    omega

variable {W}

theorem Used.Tracks.answers {s : Used T} (h : s.Tracks W) {t : Turn T} (hok : s.Unwrapped W t) : s.Answers W t := by
  obtain ⟨call, failures⟩ := t
  rcases h.turn_cases ⟨call, failures⟩ with ⟨hstop, hwhole, -⟩ | ⟨⟨hstop, -⟩, hwhole, -⟩
  · cases call with
    | pushBack elem =>
      have hfull : s.Stops W (.pushBack elem) := hok.elim id fun hlt => hstop.resolve_right (Nat.not_le.2 hlt)
      refine iff_of_true ?_ hfull
      rw [Queue.returned, hwhole]
      rfl
    | popFront =>
      intro _
      rw [Queue.returned, hwhole]
      rfl
  · cases call with
    | pushBack elem =>
      refine iff_of_false ?_ hstop
      rw [Queue.returned, hwhole]
      intro hfalse
      cases hfalse
    | popFront => exact fun hempty => absurd hempty hstop

/-- A call that is answered rightly and leaves the accessors right has not wrapped the front. -/
theorem Used.Tracks.unwrapped {s : Used T} (h : s.Tracks W) {t : Turn T} (hanswers : s.Answers W t)
    (hreports : ∀ s', s.turn W t = some s' → s'.Reports W) : s.Unwrapped W t := by
  obtain ⟨call, failures⟩ := t
  rcases h.turn_cases ⟨call, failures⟩ with ⟨hstop, hwhole, -⟩ | ⟨⟨hstop, hfailures⟩, -, hturn⟩
  · cases call with
    | pushBack elem =>
      refine .inl (hanswers.1 ?_)
      rw [Queue.returned, hwhole]
      rfl
    | popFront =>
      rintro ⟨hne, hlt⟩
      exact absurd hstop (not_or.2 ⟨hne, Nat.not_le.2 hlt⟩)
  · cases call with
    | pushBack elem => exact .inr hfailures
    | popFront =>
      intro _
      by_contra hend
      have hlt := h.lt
      exact h.not_reports_entering hstop (by omega) (hreports _ hturn)

/-- The accessors and the answers are right throughout a run exactly if the front does not reach the end of the
offsets, and no push gives up on a queue that has room. -/
theorem reports_iff_unwrapped (turns : List (Turn T)) :
    Always (Used.turn W) (Used.Reports W) turns (Used.start W) ∧ Along (Used.turn W) (Used.Answers W) turns (Used.start W) ↔
      Along (Used.turn W) (Used.Unwrapped W) turns (Used.start W) := by
  have hkeep : ∀ (s : Used T) (t : Turn T) (s' : Used T), s.Tracks W → s.Unwrapped W t → s.turn W t = some s' → s'.Tracks W :=
    fun s t s' h hok hs => h.turn hok hs
  have hstart := Used.tracks_start (T := T) W
  constructor
  · rintro ⟨hreports, hanswers⟩
    exact hreports.along hanswers hkeep (fun s t h => h.unwrapped) hstart
  · intro hok
    exact ⟨(hok.always hkeep hstart).mono fun s h => h.reports, hok.imp hkeep (fun s t h => h.answers) hstart⟩

/-- An offset of two bits and a ring of two: pushing and popping two elements leaves a queue that is not empty. -/
theorem not_reports_wrapped :
    let W : QueueShape := ⟨8, 2, 1, 2, by decide, by decide, by decide, by decide, by decide, by decide⟩
    let turns : List (Turn Nat) := [⟨.pushBack 1, 0⟩, ⟨.popFront, 0⟩, ⟨.pushBack 2, 0⟩, ⟨.popFront, 0⟩]
    ¬ (Always (Used.turn W) (Used.Reports W) turns (Used.start W) ∧
      Along (Used.turn W) (Used.Answers W) turns (Used.start W)) := by
  rintro W turns ⟨hreports, -⟩
  have hrun : (steps (Used.turn W) turns (Used.start W)).map (fun s => (s.queue.empty W, s.entered .back, s.entered .front)) =
      some (false, 2, 2) := by decide
  obtain ⟨s, hs, hend⟩ := Option.map_eq_some_iff.1 hrun
  injection hend with hempty hentered
  injection hentered with hback hfront
  have htrue := (hreports.last hs).empty.2 (hback.trans hfront.symm)
  rw [hempty] at htrue
  cases htrue

end Run

/-! ## A whole call is the steps of a thread alone -/

section Alone
variable {T : Type} [Zero T]

/-- Whether the exchange fails for no reason, if it does in the first turns of the loop. -/
def Local.spurious (failures : Nat) : Local T → Bool
  | .exchange _ _ spinCount _ _ => spinCount < failures
  | _ => false

/-- The steps of a thread while no other one moves. -/
def Queue.alone (Q : QueueParam) (failures : Nat) : (fuel : Nat) → Queue T → Local T → Option (Queue T × Result T)
  | 0, _, _ => none
  | fuel + 1, q, l =>
    match q.advance Q (l.spurious failures) l with
    | (q', .inl l') => alone Q failures fuel q' l'
    | (q', .inr result) => some (q', result)

variable {W : QueueShape}

theorem QueueShape.versioned_versionMask (hversion : 0 < W.versionBits) : W.versioned.versionMask = W.versionMask := by
  change 1 <<< max 1 W.versionBits - 1 = 1 <<< W.versionBits - 1
  rw [Nat.max_eq_right hversion]

theorem QueueShape.versioned_unpackOffsets (hversion : 0 < W.versionBits) (counter pack : Nat) :
    W.versioned.unpackOffsets counter pack = W.unpackOffsets counter pack := by
  rw [QueueParam.unpackOffsets, versioned_versionMask hversion]
  rfl

omit [Zero T] in
/-- The test of the steps is that of the calls, whatever the width of the subtraction. -/
theorem Queue.blocked_iff_versioned (call : Call T) {mine other : Nat} (hmine : mine < 2 ^ W.offsetBits)
    (hother : other < 2 ^ W.offsetBits) : call.Blocked W.versioned mine other ↔ Queue.blocked W call mine other = true := by
  cases call with
  | pushBack elem => exact (decide_eq_true_iff).symm
  | popFront =>
    rw [Queue.blocked, decide_eq_true_iff, W.minus_eq_size_iff hmine hother]
    have hword : 2 * 2 ^ W.offsetBits ≤ 2 ^ W.atomicBits := by
      rw [← Nat.pow_succ']
      exact Nat.pow_le_pow_right Nat.two_pos W.offset_lt
    have hsize := W.two_size_le
    have hpos := W.size_pos
    change (mine + 2 ^ W.atomicBits - other) % 2 ^ W.atomicBits = W.sizeLimit ↔ _
    rcases Nat.lt_or_ge mine other with hlt | hge
    · rw [Nat.mod_eq_of_lt (by omega)]
      omega
    · rw [show mine + 2 ^ W.atomicBits - other = 2 ^ W.atomicBits + (mine - other) by omega, Nat.add_mod_left,
        Nat.mod_eq_of_lt (by omega)]
      omega

theorem Queue.alone_step {Q : QueueParam} {failures : Nat} {q q' : Queue T} {l l' : Local T} {r : Queue T × Result T}
    (hstep : q.advance Q (l.spurious failures) l = (q', .inl l')) (hrest : ∃ fuel, q'.alone Q failures fuel l' = some r) :
    ∃ fuel, q.alone Q failures fuel l = some r := by
  obtain ⟨fuel, hfuel⟩ := hrest
  refine ⟨fuel + 1, ?_⟩
  rw [Queue.alone, hstep]
  exact hfuel

theorem Queue.alone_last {Q : QueueParam} {failures : Nat} {q : Queue T} {l : Local T} {r : Queue T × Result T}
    (hstep : q.advance Q (l.spurious failures) l = (r.1, .inr r.2)) : ∃ fuel, q.alone Q failures fuel l = some r := by
  refine ⟨1, ?_⟩
  rw [Queue.alone, hstep]

omit [Zero T] in
theorem Queue.attempts_none {q : Queue T} {call : Call T} (hword : W.unpackOffsets (q.counter call.side) (q.version call.side) = none)
    (other spins failures : Nat) : q.attempts W call other spins failures = none := by
  induction spins with
  | zero => rfl
  | succ spins ih =>
    simp only [Queue.attempts, hword]
    exact ih

/-- After the exchange come the item and the new word. -/
theorem Queue.alone_enter (hversion : 0 < W.versionBits) {failures : Nat} (q : Queue T) (call : Call T) (other spinCount mine : Nat)
    (hfails : ¬ spinCount < failures) :
    ∃ fuel, q.alone W.versioned failures fuel (.exchange call other spinCount (q.counter call.side) mine) =
      some (q.enter W call mine) := by
  refine Queue.alone_step (by rw [Local.spurious, Queue.advance, if_pos ⟨rfl, decide_eq_false hfails⟩]) ?_
  rw [QueueShape.versioned_versionMask hversion]
  cases call with
  | pushBack elem => exact Queue.alone_step rfl (Queue.alone_last rfl)
  | popFront => exact Queue.alone_step rfl (Queue.alone_last rfl)

/-- A turn of the loop enters, fails, or leaves the attempts after it. -/
theorem Queue.alone_turn (hversion : 0 < W.versionBits) {failures : Nat} {q : Queue T} {call : Call T} {other : Nat}
    (hother : other < 2 ^ W.offsetBits) {spins spinCount : Nat}
    (hretry : ∀ l, q.advance W.versioned (l.spurious failures) l = (q, call.retry other spinCount) →
      ∃ fuel, q.alone W.versioned failures fuel l =
        some ((q.attempts W call other spins (failures - (spinCount + 1))).getD (q, call.failed))) :
    ∃ fuel, q.alone W.versioned failures fuel (.loadCounter call other spinCount) =
      some ((q.attempts W call other (spins + 1) (failures - spinCount)).getD (q, call.failed)) := by
  refine Queue.alone_step rfl ?_
  have hword := QueueShape.versioned_unpackOffsets hversion (q.counter call.side) (q.version call.side)
  cases hmine : W.unpackOffsets (q.counter call.side) (q.version call.side) with
  | none =>
    rw [hmine] at hword
    have hnone := hretry (.loadVersion call other spinCount (q.counter call.side)) (by simp only [Queue.advance, hword])
    rwa [Queue.attempts_none hmine] at hnone ⊢
  | some mine =>
    rw [hmine] at hword
    have hlt : mine < 2 ^ W.offsetBits := by
      obtain ⟨-, hoffset⟩ := Option.ite_none_right_eq_some.1 hmine
      exact Option.some.inj hoffset ▸ W.offsetOf_lt _
    have hiff := Queue.blocked_iff_versioned call hlt hother
    simp only [Queue.attempts, hmine]
    by_cases hblocked : Queue.blocked W call mine other = true
    · rw [if_pos hblocked]
      exact Queue.alone_last (by simp only [Queue.advance, hword, if_pos (hiff.2 hblocked)]; rfl)
    · rw [if_neg hblocked]
      refine Queue.alone_step (by simp only [Queue.advance, hword, if_neg (mt hiff.1 hblocked)]; rfl) ?_
      by_cases hfails : spinCount < failures
      · rw [show failures - spinCount = failures - (spinCount + 1) + 1 by omega]
        refine hretry _ ?_
        rw [Local.spurious, decide_eq_true hfails, Queue.advance, if_neg (by simp)]
      · rw [Nat.sub_eq_zero_of_le (Nat.not_lt.1 hfails)]
        exact Queue.alone_enter hversion q call other spinCount mine hfails

/-- From any turn of the loop on, the thread's steps make the attempts left. -/
theorem Queue.alone_attempts (hversion : 0 < W.versionBits) (failures : Nat) (q : Queue T) (call : Call T) {other : Nat}
    (hother : other < 2 ^ W.offsetBits) (spins : Nat) {spinCount : Nat} (hspins : spinCount + (spins + 1) = QueueParam.spinLimit) :
    ∃ fuel, q.alone W.versioned failures fuel (.loadCounter call other spinCount) =
      some ((q.attempts W call other (spins + 1) (failures - spinCount)).getD (q, call.failed)) := by
  induction spins generalizing spinCount with
  | zero =>
    refine Queue.alone_turn hversion hother fun l hl => Queue.alone_last ?_
    rw [hl, Call.retry, if_neg (by omega)]
    rfl
  | succ spins ih =>
    have hnext : spinCount + 1 + (spins + 1) = QueueParam.spinLimit := by omega
    refine Queue.alone_turn hversion hother fun l hl => Queue.alone_step ?_ (ih hnext)
    rw [hl, Call.retry, if_pos (by omega)]

/-- A call of a thread that is alone returns what its steps return. -/
theorem Queue.alone_whole (hversion : 0 < W.versionBits) (q : Queue T) (t : Turn T) :
    ∃ fuel, q.alone W.versioned t.failures fuel (.loadOther t.call) = some (q.returned W t) := by
  refine Queue.alone_step rfl ?_
  exact Queue.alone_attempts hversion t.failures q t.call (W.offsetOf_lt _) (QueueParam.spinLimit - 1) rfl

end Alone

end Rv8.Util
