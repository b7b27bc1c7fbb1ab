import Rv8.Util.QueueSafety
/-!
# One producer and one consumer

With one thread at each end, as in the console, no one else moves a call's own end while
the call runs: the word it read is still there at the exchange, and what it read of the
other end can only have got better. So every step passes the tests again, and a call
that fails saw the queue full or empty at a moment inside the call.
-/

namespace Rv8.Util

open Rv8.Lib

variable {Tid T : Type}

/-! ## Moments of a call -/

/-- The history `g` is a moment of the call that `t` is in after the history `log`. -/
def During (t : Tid) (call : Call T) (log g : List (Event Tid T)) : Prop :=
  ∃ h1 h2 h3, log = h1 ++ .call t call :: h2 ∧ (∀ e ∈ h2, e.thread ≠ t) ∧ h3 <+: h2 ∧ g = h1 ++ .call t call :: h3

theorem During.start (t : Tid) (call : Call T) (log : List (Event Tid T)) :
    During t call (log ++ [.call t call]) (log ++ [.call t call]) :=
  ⟨log, [], [], rfl, nofun, List.prefix_refl _, rfl⟩

theorem During.isPrefix {t : Tid} {call : Call T} {log g : List (Event Tid T)} (h : During t call log g) : g <+: log := by
  obtain ⟨h1, h2, h3, rfl, -, ⟨rest, rfl⟩, rfl⟩ := h
  exact ⟨rest, by simp⟩

/-- The others may go on: what was a moment of the call stays one. -/
theorem During.append {t : Tid} {call : Call T} {log g es : List (Event Tid T)} (h : During t call log g)
    (hes : ∀ e ∈ es, e.thread ≠ t) : During t call (log ++ es) g := by
  obtain ⟨h1, h2, h3, rfl, hothers, hprefix, rfl⟩ := h
  refine ⟨h1, h2 ++ es, h3, by simp, fun e he => ?_, hprefix.trans (List.prefix_append ..), rfl⟩
  rcases List.mem_append.1 he with he | he
  · exact hothers e he
  · exact hes e he

theorem During.now {t : Tid} {call : Call T} {log g : List (Event Tid T)} (h : During t call log g) : During t call log log := by
  obtain ⟨h1, h2, h3, rfl, hothers, -, -⟩ := h
  exact ⟨h1, h2, h2, rfl, hothers, List.prefix_refl _, rfl⟩

/-! ## Ends and their callers -/

def Local.side : Local T → Side
  | .loadOther call => call.side
  | .loadCounter call _ _ => call.side
  | .loadVersion call _ _ _ => call.side
  | .exchange call _ _ _ _ => call.side
  | .item call _ _ => call.side
  | .reveal result _ => result.side

/-- The thread that uses an end. -/
def userOf (producer consumer : Tid) : Side → Tid
  | .back => producer
  | .front => consumer

/-- Only the producer pushes and only the consumer pops, and no exchange fails for no reason. -/
def Action.OneEach (producer consumer : Tid) : Action Tid T → Prop
  | .call t c => t = userOf producer consumer c.side
  | .step _ spurious => spurious = false

theorem side_before {l : Local T} {call : Call T} (h : l.before = some call) : l.side = call.side := by
  cases l with
  | item call' slot pack => cases h
  | reveal result pack => cases h
  | loadOther call' => exact Option.some.inj h ▸ rfl
  | loadCounter call' other spinCount => exact Option.some.inj h ▸ rfl
  | loadVersion call' other spinCount counter => exact Option.some.inj h ▸ rfl
  | exchange call' other spinCount counter mine => exact Option.some.inj h ▸ rfl

theorem side_inside {l : Local T} {side : Side} (h : Inside side (some l)) : l.side = side := by
  cases l with
  | item call slot pack => exact h
  | reveal result pack => exact h
  | loadOther call => exact h.elim
  | loadCounter call other spinCount => exact h.elim
  | loadVersion call other spinCount counter => exact h.elim
  | exchange call other spinCount counter mine => exact h.elim

theorem entering_eq {s : Threads Tid T} {a : Action Tid T} {e : Call T × Nat × Nat} (h : s.entering a = some e) :
    ∃ t other spinCount, s.thread t = some (.exchange e.1 other spinCount e.2.1 e.2.2) ∧ s.queue.counter e.1.side = e.2.1 := by
  unfold Threads.entering at h
  split at h
  · split at h
    · split at h
      · obtain rfl := Option.some.inj h
        exact ⟨_, _, _, ‹_›, ‹_›⟩
      · cases h
    · cases h
  · cases h

theorem Queue.advance_counter [Zero T] (Q : QueueParam) (q : Queue T) (spurious : Bool) {l : Local T} {side : Side} (h : side ≠ l.side) :
    (q.advance Q spurious l).1.counter side = q.counter side := by
  cases l with
  | loadOther call => rfl
  | loadCounter call other spinCount => rfl
  | loadVersion call other spinCount counter =>
    simp only [Queue.advance]
    split
    · rfl
    · split <;> rfl
  | exchange call other spinCount counter mine =>
    simp only [Queue.advance]
    split
    · exact Function.update_of_ne h ..
    · rfl
  | item call slot pack => cases call <;> rfl
  | reveal result pack => rfl

/-! ## The invariant -/

variable [DecidableEq T] [Zero T] (Q : QueueParam)

/-- The call read the other end at a moment inside it, and its own end has not moved since. -/
def Saw (log : List (Event Tid T)) (t : Tid) (call : Call T) (other : Nat) : Prop :=
  ∃ g, During t call log g ∧ (popped g).length ≤ (pushed g).length ∧ (pushed g).length ≤ (popped g).length + Q.sizeLimit ∧
    doneAt call.side g = doneAt call.side log ∧ other = Q.offsetAt call.side.other g

/-- What a thread knows at each step. -/
def View (s : Threads Tid T) (t : Tid) : Local T → Prop
  | .loadOther call => During t call s.log s.log
  | .loadCounter call other _ => Saw Q s.log t call other
  | .loadVersion call other _ counter => Saw Q s.log t call other ∧ counter = s.queue.counter call.side
  | .exchange call other _ counter mine => Saw Q s.log t call other ∧ counter = s.queue.counter call.side ∧
      mine = Q.offsetAt call.side s.log ∧ ¬ call.Blocked Q mine other
  | .item _ _ _ => True
  | .reveal _ _ => True

/-- A call that failed found the queue full, or empty, at a moment inside it. -/
def Explained (h : List (Event Tid T)) (t : Tid) : Result T → Prop
  | .pushBack elem ok => ok = false → ∃ g, During t (.pushBack elem) h g ∧ (pushed g).length = (popped g).length + Q.sizeLimit
  | .popFront val => val = 0 → ∃ g, During t .popFront h g ∧ (pushed g).length = (popped g).length

structure Spsc (producer consumer : Tid) (s : Threads Tid T) : Prop where
  inv : Inv Q s
  user : ∀ t l, s.thread t = some l → t = userOf producer consumer l.side
  view : ∀ t l, s.thread t = some l → View Q s t l
  explained : ∀ h t r, h ++ [.ret t r] <+: s.log → Explained Q h t r

variable {Q} {producer consumer : Tid} {s s' : Threads Tid T} {t : Tid}

theorem View.frame {l : Local T} (h : View Q s t l) (hcounter : s'.queue.counter l.side = s.queue.counter l.side)
    (hdone : doneAt l.side s'.log = doneAt l.side s.log)
    (hduring : ∀ call g, During t call s.log g → During t call s'.log g) : View Q s' t l := by
  have hsaw {call other} (hside : call.side = l.side) (hs : Saw Q s.log t call other) : Saw Q s'.log t call other := by
    obtain ⟨g, hg, hle, hge, hown, hother⟩ := hs
    exact ⟨g, hduring call g hg, hle, hge, by rw [hside, hdone, ← hside, hown], hother⟩
  cases l with
  | loadOther call => exact (hduring call _ h).now
  | loadCounter call other spinCount => exact hsaw rfl h
  | loadVersion call other spinCount counter => exact ⟨hsaw rfl h.1, h.2.trans hcounter.symm⟩
  | exchange call other spinCount counter mine =>
    obtain ⟨hs, hc, hmine, hfree⟩ := h
    refine ⟨hsaw rfl hs, hc.trans hcounter.symm, ?_, hfree⟩
    rw [hmine, QueueParam.offsetAt, QueueParam.offsetAt]
    exact congrArg (· + _) hdone.symm
  | item call slot pack => trivial
  | reveal result pack => trivial

/-- A thread that moves at its own end leaves what the other one knows. -/
theorem Spsc.move [DecidableEq Tid] (h : Spsc Q producer consumer s) {side : Side} (ht : t = userOf producer consumer side) {q : Queue T}
    {x : Option (Local T)} {es : List (Event Tid T)} (hinv : Inv Q ⟨q, Function.update s.thread t x, s.log ++ es⟩)
    (hes : ∀ e ∈ es, e.thread = t) (hcounter : ∀ side', side' ≠ side → q.counter side' = s.queue.counter side')
    (hdone : ∀ side', side' ≠ side → doneAt side' (s.log ++ es) = doneAt side' s.log)
    (hx : ∀ l, x = some l → l.side = side ∧ View Q ⟨q, Function.update s.thread t x, s.log ++ es⟩ t l)
    (hexplained : ∀ h t r, h ++ [.ret t r] <+: s.log ++ es → Explained Q h t r) :
    Spsc Q producer consumer ⟨q, Function.update s.thread t x, s.log ++ es⟩ := by
  have hother {t' l} (htt : t' ≠ t) (hl : s.thread t' = some l) : l.side ≠ side := by
    intro heq
    have huser := h.user t' l hl
    rw [heq, ← ht] at huser
    exact htt huser
  refine ⟨hinv, fun t' l hl => ?_, fun t' l hl => ?_, hexplained⟩
  · rcases update_cases hl with ⟨rfl, hl'⟩ | ⟨-, hl'⟩
    · rw [(hx l hl').1, ← ht]
    · exact h.user t' l hl'
  · rcases update_cases hl with ⟨rfl, hl'⟩ | ⟨htt, hl'⟩
    · exact (hx l hl').2
    · have hne := hother htt hl'
      refine (h.view t' l hl').frame (hcounter _ hne) (hdone _ hne) fun call g hg => hg.append fun e he => ?_
      rw [hes e he]
      exact Ne.symm htt

theorem explained_snoc {log : List (Event Tid T)} {e : Event Tid T} (h : ∀ g t r, g ++ [.ret t r] <+: log → Explained Q g t r)
    (hnew : ∀ t r, e = .ret t r → Explained Q log t r) (g : List (Event Tid T)) (t : Tid) (r : Result T)
    (hg : g ++ [.ret t r] <+: log ++ [e]) : Explained Q g t r := by
  rcases List.prefix_concat_iff.1 hg with heq | hg
  · obtain ⟨rfl, hlast⟩ := List.append_inj' heq rfl
    exact hnew t r (List.cons.inj hlast).1.symm
  · exact h g t r hg

theorem doneAt_call (side : Side) (log : List (Event Tid T)) (t : Tid) (call : Call T) :
    doneAt side (log ++ [.call t call]) = doneAt side log := by
  cases side <;> simp [doneAt]

theorem doneAt_ret {side : Side} {r : Result T} (h : side ≠ r.side) (log : List (Event Tid T)) (t : Tid) :
    doneAt side (log ++ [.ret t r]) = doneAt side log := by
  cases side with
  | back =>
    cases r with
    | pushBack elem ok => exact absurd rfl h
    | popFront val => simp [doneAt]
  | front =>
    cases r with
    | pushBack elem ok => simp [doneAt]
    | popFront val => exact absurd rfl h

/-- While its user has not entered it, an end is free. -/
theorem Spsc.counter_eq (h : Spsc Q producer consumer s) {l : Local T} {call : Call T} (hl : s.thread t = some l)
    (hcall : l.before = some call) : s.queue.counter call.side = doneAt call.side s.log % 2 ^ Q.versionBits := by
  cases h.inv.owned call.side with
  | free counter outside => exact counter
  | taken t0 l0 thread holds room below counter outside =>
    have ht : t = t0 := by
      rw [h.user t l hl, h.user t0 l0 thread, side_before hcall, side_inside holds.inside]
    subst ht
    obtain rfl := Option.some.inj (hl.symm.trans thread)
    exact absurd holds.inside (not_inside_before hcall _)

theorem doneAt_mono {log g : List (Event Tid T)} (h : g <+: log) (side : Side) : doneAt side g ≤ doneAt side log := by
  obtain ⟨rest, rfl⟩ := h
  cases side <;> simp [doneAt]

/-- Room at the moment of the read is room now. -/
theorem Saw.room {log : List (Event Tid T)} {call : Call T} {other : Nat} (h : Saw Q log t call other)
    (hfree : ¬ call.Blocked Q (Q.offsetAt call.side log) other) : Room Q call.side log := by
  obtain ⟨g, hduring, hle, hge, hown, rfl⟩ := h
  have hoffset : Q.offsetAt call.side log = Q.offsetAt call.side g := by
    rw [QueueParam.offsetAt, QueueParam.offsetAt, hown]
  rw [hoffset, blocked_iff hle hge, not_not] at hfree
  have hmono := doneAt_mono hduring.isPrefix call.side.other
  cases call with
  | pushBack elem =>
    simp only [Call.side, Side.other, doneAt, Room] at hown hfree hmono ⊢
    omega
  | popFront =>
    simp only [Call.side, Side.other, doneAt, Room] at hown hfree hmono ⊢
    omega

/-- A test that fails says how the queue was at the moment of the read. -/
theorem Saw.explained {log : List (Event Tid T)} {call : Call T} {other : Nat} (h : Saw Q log t call other)
    (hblocked : call.Blocked Q (Q.offsetAt call.side log) other) : Explained Q log t call.failed := by
  obtain ⟨g, hduring, hle, hge, hown, rfl⟩ := h
  have hoffset : Q.offsetAt call.side log = Q.offsetAt call.side g := by
    rw [QueueParam.offsetAt, QueueParam.offsetAt, hown]
  rw [hoffset, blocked_iff hle hge] at hblocked
  cases call with
  | pushBack elem =>
    simp only [Call.side, Room] at hblocked
    exact fun _ => ⟨g, hduring, by omega⟩
  | popFront =>
    simp only [Call.side, Room] at hblocked
    exact fun _ => ⟨g, hduring, by omega⟩

/-- With one thread at each end the tests pass again. -/
theorem Spsc.retested (h : Spsc Q producer consumer s) (a : Action Tid T) : Retested Q s a := by
  intro e he
  obtain ⟨t, other, spinCount, hl, hcounter⟩ := entering_eq he
  obtain ⟨hsaw, -, hmine, hfree⟩ := h.view t _ hl
  have hdone := h.counter_eq hl rfl
  rw [hmine] at hfree ⊢
  refine ⟨h.inv.unpackOffsets_version.2 ⟨?_, rfl⟩, ?_⟩
  · rw [← hcounter, hdone, Nat.mod_mod]
  · rw [h.inv.offsetOf_version, blocked_iff h.inv.ordered.1 h.inv.ordered.2, not_not]
    exact hsaw.room hfree

theorem spsc_start (Q : QueueParam) (producer consumer : Tid) : Spsc Q producer consumer (Threads.start Q : Threads Tid T) where
  inv := inv_start Q
  user := nofun
  view := nofun
  explained g t r h := absurd (List.prefix_nil.1 h) (by simp)

section Steps
variable [DecidableEq Tid]

/-- A step inside a call that does not end it. -/
theorem Spsc.moveOn (h : Spsc Q producer consumer s) {l l' : Local T} {q : Queue T} (hl : s.thread t = some l)
    (hadv : s.queue.advance Q false l = (q, .inl l')) (hinv : Inv Q (s.move t (q, .inl l'))) (hside : l'.side = l.side)
    (hview : View Q (s.move t (q, .inl l')) t l') : Spsc Q producer consumer (s.move t (q, .inl l')) := by
  have hlog : s.move t (q, .inl l') = ⟨q, Function.update s.thread t (some l'), s.log ++ []⟩ := by
    rw [List.append_nil]
    rfl
  rw [hlog] at hinv hview ⊢
  refine h.move (h.user t l hl) hinv nofun (fun side hs => ?_) (fun side _ => by rw [List.append_nil]) (fun l0 hl0 => ?_) ?_
  · have hcounter := s.queue.advance_counter Q false hs
    rwa [hadv] at hcounter
  · obtain rfl := Option.some.inj hl0
    exact ⟨hside, hview⟩
  · rw [List.append_nil]
    exact h.explained

/-- A step that ends a call. -/
theorem Spsc.moveEnd (h : Spsc Q producer consumer s) {l : Local T} {r : Result T} {q : Queue T}
    (hl : s.thread t = some l) (hadv : s.queue.advance Q false l = (q, .inr r)) (hinv : Inv Q (s.move t (q, .inr r)))
    (hside : r.side = l.side) (hr : Explained Q s.log t r) : Spsc Q producer consumer (s.move t (q, .inr r)) := by
  refine h.move (h.user t l hl) hinv (fun e he => ?_) (fun side hs => ?_) (fun side hs => ?_) nofun
    (explained_snoc h.explained fun t' r' he => ?_)
  · rw [List.mem_singleton.1 he]
    rfl
  · have hcounter := s.queue.advance_counter Q false hs
    rwa [hadv] at hcounter
  · exact doneAt_ret (hside ▸ hs) s.log t
  · obtain ⟨rfl, rfl⟩ := Event.ret.inj he
    exact hr

theorem Spsc.step (h : Spsc Q producer consumer s) {a : Action Tid T} (hone : a.OneEach producer consumer) (hz : a.Nonzero)
    (hun : Unwrapped Q s a) (hs : s.step Q a = some s') : Spsc Q producer consumer s' := by
  have hinv := h.inv.step hz hun (h.retested a) hs
  rcases Threads.step_cases hs with ⟨t, call, rfl, hidle, rfl⟩ | ⟨t, spurious, l, rfl, hl, rfl⟩
  · refine h.move hone hinv (fun e he => ?_) (fun _ _ => rfl) (fun side _ => doneAt_call side s.log t call) (fun l hx => ?_)
      (explained_snoc h.explained (by simp))
    · rw [List.mem_singleton.1 he]
      rfl
    · obtain rfl := Option.some.inj hx
      exact ⟨rfl, During.start t call s.log⟩
  · obtain rfl : spurious = false := hone
    have hview := h.view t l hl
    cases l with
    | loadOther call =>
      refine h.moveOn hl rfl hinv rfl ⟨s.log, hview, h.inv.ordered.1, h.inv.ordered.2, rfl, ?_⟩
      exact h.inv.offsetOf_version _
    | loadCounter call other spinCount => exact h.moveOn hl rfl hinv rfl ⟨hview, rfl⟩
    | loadVersion call other spinCount counter =>
      obtain ⟨hsaw, rfl⟩ := hview
      have hunpack : Q.unpackOffsets (s.queue.counter call.side) (s.queue.version call.side) = some (Q.offsetAt call.side s.log) := by
        refine h.inv.unpackOffsets_version.2 ⟨?_, rfl⟩
        rw [h.counter_eq hl rfl, Nat.mod_mod]
      by_cases hblocked : call.Blocked Q (Q.offsetAt call.side s.log) other
      · have hadv : s.queue.advance Q false (.loadVersion call other spinCount (s.queue.counter call.side)) =
            (s.queue, .inr call.failed) := by
          simp only [Queue.advance, hunpack, if_pos hblocked]
        rw [hadv] at hinv ⊢
        exact h.moveEnd hl hadv hinv (by cases call <;> rfl) (hsaw.explained hblocked)
      · have hadv : s.queue.advance Q false (.loadVersion call other spinCount (s.queue.counter call.side)) =
            (s.queue, .inl (.exchange call other spinCount (s.queue.counter call.side) (Q.offsetAt call.side s.log))) := by
          simp only [Queue.advance, hunpack, if_neg hblocked]
        rw [hadv] at hinv ⊢
        exact h.moveOn hl hadv hinv rfl ⟨hsaw, rfl, rfl, hblocked⟩
    | exchange call other spinCount counter mine =>
      obtain ⟨-, rfl, -, -⟩ := hview
      rw [Queue.advance, if_pos ⟨rfl, rfl⟩] at hinv ⊢
      exact h.moveOn hl (if_pos ⟨rfl, rfl⟩) hinv rfl trivial
    | item call slot pack =>
      cases call with
      | pushBack elem => exact h.moveOn hl rfl hinv rfl trivial
      | popFront => exact h.moveOn hl rfl hinv rfl trivial
    | reveal result pack =>
      refine h.moveEnd hl rfl hinv rfl ?_
      cases result with
      | pushBack elem ok =>
        obtain ⟨⟨-, hok, -⟩, -⟩ := (h.inv.owned .back).holds hl rfl
        exact fun hfalse => Bool.noConfusion (hok.symm.trans hfalse)
      | popFront val =>
        obtain ⟨⟨-, hval, -⟩, -⟩ := (h.inv.owned .front).holds hl rfl
        exact fun hzero => absurd hzero (h.inv.nonzero val (List.mem_of_getElem? hval))

end Steps

/-! ## Runs -/

theorem fifo_of_run [DecidableEq Tid] (Q : QueueParam) (producer consumer : Tid) (acts : List (Action Tid T)) (s : Threads Tid T)
    (hone : ∀ a ∈ acts, a.OneEach producer consumer) (hz : ∀ a ∈ acts, a.Nonzero)
    (hun : Along (Threads.step Q) (Unwrapped Q) acts (Threads.start Q)) (hrun : steps (Threads.step Q) acts (Threads.start Q) = some s) :
    popped s.log <+: pushed s.log ∧
      (∀ h t elem, h ++ [.ret t (.pushBack elem false)] <+: s.log →
        ∃ g, During t (.pushBack elem) h g ∧ (pushed g).length = (popped g).length + Q.sizeLimit) ∧
      (∀ h t, h ++ [.ret t (.popFront 0)] <+: s.log →
        ∃ g, During t .popFront h g ∧ (pushed g).length = (popped g).length) := by
  have hok := (hun.and (Along.of_forall hone (Threads.start Q))).and (Along.of_forall hz (Threads.start Q))
  have hspsc : Spsc Q producer consumer s :=
    hok.invariant (fun s a s' hI ha hs => hI.step ha.1.2 ha.2 ha.1.1 hs) (spsc_start Q producer consumer) hrun
  exact ⟨hspsc.inv.fifo, fun h t elem hp => hspsc.explained h t _ hp rfl, fun h t hp => hspsc.explained h t _ hp rfl⟩

instance [DecidableEq Tid] (producer consumer : Tid) : (a : Action Tid T) → Decidable (a.OneEach producer consumer)
  | .call t c => inferInstanceAs (Decidable (t = userOf producer consumer c.side))
  | .step _ spurious => inferInstanceAs (Decidable (spurious = false))

/-- In a queue of one the second push begins and fails while the first pop is under way. -/
theorem fifo_of_run_one_slot :
    ∃ s : Threads Nat Nat, popped s.log = [5] ∧ popped s.log <+: pushed s.log ∧
      ∃ h g, h ++ [.ret 0 (.pushBack 6 false)] <+: s.log ∧ During 0 (.pushBack 6) h g ∧ (pushed g).length = (popped g).length + 1 := by
  have hlogs : (steps (Threads.step (queueOfSize 1)) (callSteps 0 (.pushBack 5) 6 ++ callSteps 1 .popFront 3 ++ callSteps 0 (.pushBack 6) 3 ++
      List.replicate 3 (.step 1 false)) (Threads.start (queueOfSize 1))).map (fun s => s.log) =
      some [.call 0 (.pushBack 5), .ret 0 (.pushBack 5 true), .call 1 .popFront, .call 0 (.pushBack 6), .ret 0 (.pushBack 6 false),
        .ret 1 (.popFront 5)] := by
    rfl
  obtain ⟨s, hrun, hlog⟩ := Option.map_eq_some_iff.1 hlogs
  obtain ⟨hfifo, hfull, -⟩ := fifo_of_run (queueOfSize 1) 0 1 _ s (by decide +kernel) (by decide +kernel) (by decide +kernel) hrun
  have hret : [.call 0 (.pushBack 5), .ret 0 (.pushBack 5 true), .call 1 .popFront, .call 0 (.pushBack 6)] ++
      [.ret 0 (.pushBack 6 false)] <+: s.log := ⟨[.ret 1 (.popFront 5)], hlog.symm⟩
  obtain ⟨g, hduring, hlen⟩ := hfull _ 0 6 hret
  exact ⟨s, by rw [hlog]; rfl, hfifo, _, g, hret, hduring, hlen⟩

end Rv8.Util
