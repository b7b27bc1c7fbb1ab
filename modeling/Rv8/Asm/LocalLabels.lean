import Mathlib.Data.Set.Finite.List
import Mathlib.Order.Preorder.Finite
import Rv8.Asm.Assembler
/-!
# Numeric local labels

A number can label many places; `nf` and `nb` refer to the nearest one behind and
before. The definitions share a map with all other labels, one label to an offset, and
the scans of the map look at the number alone, which is 0 for labels that have none. A
program is run here beside the list of the labels it puts into the map.
-/

namespace Rv8.Asm

open Rv8.Lib

/-! ## Programs -/

/-- A line of a program. -/
inductive Line
  | bytes (n val : Nat)
  | label (name : Name)
  | constant (name : Name) (value : Int)
  | number (num : Int)
  | ref (name : Name) (relaType : RelaType)

/-- A label in the maps, and whether it is the definition of a number. -/
structure Added where
  label : Label
  numeric : Bool
deriving DecidableEq

namespace Assembler

def line (a : Assembler) : Line → Assembler
  | .bytes n val => a.append n val
  | .label name => a.addLabel name
  | .constant name value => a.addConstant name value
  | .number num => a.addLabelNum num
  | .ref name relaType => a.addReloc name relaType

/-- The label a line puts into the maps; one whose name is taken is not. -/
def added (a : Assembler) : Line → Option Added
  | .label name => if a.lookupLabel name = none then some ⟨{ name, offset := a.currentOffset }, false⟩ else none
  | .constant name value =>
    if a.lookupLabel name = none then some ⟨{ name, offset := ⟨shnAbs, sizeT value⟩ }, false⟩ else none
  | .number num =>
    ((List.range (a.labelsByName.toList.length + 1)).find? fun i => a.lookupLabel (numLabel num (i + 1)) = none).map fun i =>
      ⟨{ name := numLabel num (i + 1), offset := a.currentOffset, num }, true⟩
  | _ => none

end Assembler

/-- The assembler after the lines, and the labels put into its maps, the last one first. -/
def runLines : Assembler → List Added → List Line → Assembler × List Added
  | a, log, [] => (a, log)
  | a, log, l :: ls => runLines (a.line l) ((a.added l).toList ++ log) ls

/-- The lines of one section. -/
def program (sect : Name) (lines : List Line) : Assembler × List Added := runLines (Assembler.new.getSection sect) [] lines

/-! ## Resolving -/

/-- `nf` or `nb`. -/
inductive Direction
  | forward | backward
deriving DecidableEq

def Direction.suffix : Direction → Char
  | .forward => 'f'
  | .backward => 'b'

/-- A place a reference at `o` may mean. -/
def Direction.Ahead (dir : Direction) (o k : SectionOffset) : Prop :=
  match dir with
  | .forward => o < k
  | .backward => k ≤ o

/-- `k` is nearer than `k'`. -/
def Direction.Nearer (dir : Direction) (k k' : SectionOffset) : Prop :=
  match dir with
  | .forward => k < k'
  | .backward => k' < k

section Meaning
variable (log : List Added) (o : SectionOffset) (num : Int) (dir : Direction)

/-- A definition of the number on the side of the reference. -/
def Defines (x : Added) : Prop := x ∈ log ∧ x.numeric = true ∧ x.label.num = num ∧ dir.Ahead o x.label.offset

/-- The nearest one. -/
def Nearest (x : Added) : Prop :=
  Defines log o num dir x ∧ ∀ y, Defines log o num dir y → ¬ dir.Nearer y.label.offset x.label.offset

/-- The result is the nearest definition, or null where there is none. -/
def Resolves (found : Option Label) : Prop :=
  (∀ l, found = some l → ∃ x, Nearest log o num dir x ∧ x.label = l) ∧ (found = none → ∀ x, ¬ Defines log o num dir x)

end Meaning

/-- The labels that no later one with the same offset has replaced. -/
def lasting : List Added → List Added
  | [] => []
  | x :: log => x :: (lasting log).filter fun y => y.label.offset ≠ x.label.offset

/-- The label last put at the offset of the nearest definition is a definition of the number, and for the number 0 no
lasting label of another kind comes nearer. -/
def Unshadowed (log : List Added) (o : SectionOffset) (num : Int) (dir : Direction) : Prop :=
  (∀ x, Nearest log o num dir x → ∃ y ∈ lasting log, y.numeric = true ∧ y.label.num = num ∧ y.label.offset = x.label.offset) ∧
  (num = 0 → ∀ y ∈ lasting log, y.numeric = false → dir.Ahead o y.label.offset →
    ∃ x, Defines log o 0 dir x ∧ dir.Nearer x.label.offset y.label.offset)

/-! ## The scans -/

/-- What a scan of the map finds: the nearest label with the number. -/
structure Scans (ls : List Label) (o : SectionOffset) (num : Int) (dir : Direction) (found : Option Label) : Prop where
  some : ∀ l, found = some l → l ∈ ls ∧ l.num = num ∧ dir.Ahead o l.offset ∧
    ∀ l' ∈ ls, l'.num = num → dir.Ahead o l'.offset → ¬ dir.Nearer l'.offset l.offset
  none : found = none → ∀ l ∈ ls, l.num = num → ¬ dir.Ahead o l.offset

section Scans
variable {ls : List Label} {o : SectionOffset} {num : Int}

/-- In the order of the map everything behind the first label past the place is past it too. -/
theorem lookupLabelF_eq_find (hs : ls.Pairwise fun x y => x.offset < y.offset) {found : Bool}
    (hfound : found = true → ∀ l ∈ ls, o < l.offset) :
    Assembler.lookupLabelF o num found ls = ls.find? fun l => o < l.offset ∧ l.num = num := by
  induction ls generalizing found with
  | nil => rfl
  | cons l ls ih =>
    obtain ⟨hl, hls⟩ := List.pairwise_cons.1 hs
    have hpast : (found || decide (o < l.offset)) = true ↔ o < l.offset := by
      rw [Bool.or_eq_true, decide_eq_true_iff]
      exact ⟨fun h => h.elim (fun hf => hfound hf l List.mem_cons_self) id, .inr⟩
    have hrest := ih hls fun h l' hl' => lt_trans (hpast.1 h) (hl l' hl')
    unfold Assembler.lookupLabelF
    rw [List.find?_cons, ← hrest]
    simp only [hpast]
    by_cases h : o < l.offset ∧ l.num = num <;> simp [h]

theorem scans_forward (hs : ls.Pairwise fun x y => x.offset < y.offset) (o : SectionOffset) (num : Int) :
    Scans ls o num .forward (Assembler.lookupLabelF o num false ls) := by
  rw [lookupLabelF_eq_find hs fun h => absurd h Bool.false_ne_true]
  constructor
  · intro l hfound
    obtain ⟨hl, as, bs, rfl, has⟩ := List.find?_eq_some_iff_append.1 hfound
    rw [decide_eq_true_iff] at hl
    refine ⟨List.mem_append_right as List.mem_cons_self, hl.2, hl.1, ?_⟩
    intro l' hl' hnum hahead hnearer
    rcases List.mem_append.1 hl' with hmem | hmem
    · have hno := has l' hmem
      simp only [Bool.not_eq_true', decide_eq_false_iff_not] at hno
      exact hno ⟨hahead, hnum⟩
    · rcases List.mem_cons.1 hmem with rfl | hmem
      · exact lt_irrefl _ hnearer
      · have hbs := (List.pairwise_cons.1 (List.pairwise_append.1 hs).2.1).1
        exact lt_asymm hnearer (hbs l' hmem)
  · intro hfound l hl hnum hahead
    have hno := List.find?_eq_none.1 hfound l hl
    rw [decide_eq_true_iff] at hno
    exact hno ⟨hahead, hnum⟩

/-- The scan ends with the last label that fits, or with what it started from where none does. -/
theorem lookupLabelB_spec (hs : ls.Pairwise fun x y => x.offset < y.offset) (o : SectionOffset) (num : Int) (found : Option Label) :
    (∃ l ∈ ls, Assembler.lookupLabelB o num found ls = some l ∧ l.num = num ∧ l.offset ≤ o ∧
      ∀ l' ∈ ls, l'.num = num → l'.offset ≤ o → l'.offset ≤ l.offset) ∨
    (Assembler.lookupLabelB o num found ls = found ∧ ∀ l ∈ ls, l.num = num → ¬ l.offset ≤ o) := by
  induction ls generalizing found with
  | nil => exact .inr ⟨rfl, nofun⟩
  | cons l ls ih =>
    obtain ⟨hl, hls⟩ := List.pairwise_cons.1 hs
    unfold Assembler.lookupLabelB
    by_cases hlt : o < l.offset
    · rw [if_pos hlt]
      refine .inr ⟨rfl, fun l' hl' _ hle => ?_⟩
      rcases List.mem_cons.1 hl' with rfl | hl'
      · exact not_le_of_gt hlt hle
      · exact not_le_of_gt (lt_trans hlt (hl l' hl')) hle
    · rw [if_neg hlt]
      rcases ih hls (if l.num = num then some l else found) with ⟨x, hx, hfound, hnum, hle, hlast⟩ | ⟨hfound, hno⟩
      · refine .inl ⟨x, List.mem_cons_of_mem l hx, hfound, hnum, hle, fun l' hl' hnum' hle' => ?_⟩
        rcases List.mem_cons.1 hl' with rfl | hl'
        · exact le_of_lt (hl x hx)
        · exact hlast l' hl' hnum' hle'
      · by_cases hnum : l.num = num
        · rw [if_pos hnum] at hfound
          refine .inl ⟨l, List.mem_cons_self, ?_, hnum, not_lt.1 hlt, fun l' hl' hnum' hle' => ?_⟩
          · rw [if_pos hnum]
            exact hfound
          · rcases List.mem_cons.1 hl' with rfl | hl'
            · exact le_refl _
            · exact absurd hle' (hno l' hl' hnum')
        · rw [if_neg hnum] at hfound ⊢
          refine .inr ⟨hfound, fun l' hl' hnum' => ?_⟩
          rcases List.mem_cons.1 hl' with rfl | hl'
          · exact absurd hnum' hnum
          · exact hno l' hl' hnum'

theorem scans_backward (hs : ls.Pairwise fun x y => x.offset < y.offset) (o : SectionOffset) (num : Int) :
    Scans ls o num .backward (Assembler.lookupLabelB o num none ls) := by
  rcases lookupLabelB_spec hs o num none with ⟨x, hx, hfound, hnum, hle, hlast⟩ | ⟨hfound, hno⟩
  · rw [hfound]
    constructor
    · intro l hl
      obtain rfl := Option.some.inj hl
      exact ⟨hx, hnum, hle, fun l' hl' hnum' hahead hnearer => not_le_of_gt hnearer (hlast l' hl' hnum' hahead)⟩
    · exact nofun
  · rw [hfound]
    exact ⟨nofun, fun _ => hno⟩

end Scans

/-! ## The maps and the labels put into them -/

/-- The maps hold what the log says was put into them. -/
structure Tracks (a : Assembler) (log : List Added) : Prop where
  offsets : ∀ l, l ∈ a.labelsByOffset.toList ↔ ∃ x ∈ lasting log, x.label = l
  names : ∀ x ∈ log, a.lookupLabel x.label.name = some x.label
  distinct : log.Pairwise fun x y => x.label.name ≠ y.label.name
  plain : ∀ x ∈ log, x.numeric = false → x.label.num = 0

theorem mem_of_lasting {x : Added} {log : List Added} (h : x ∈ lasting log) : x ∈ log := by
  induction log with
  | nil => exact h
  | cons y log ih =>
    rcases List.mem_cons.1 h with rfl | h
    · exact List.mem_cons_self
    · exact List.mem_cons_of_mem y (ih (List.mem_filter.1 h).1)

/-- A label is put into the maps once. -/
theorem Tracks.label_inj {a : Assembler} {log : List Added} (h : Tracks a log) {x y : Added} (hx : x ∈ log) (hy : y ∈ log)
    (heq : x.label = y.label) : x = y := by
  by_contra hne
  exact List.Pairwise.forall_of_forall_of_flip (R := fun x y : Added => x = y ∨ x.label.name ≠ y.label.name)
    (fun x _ => .inl rfl) (h.distinct.imp .inr) (h.distinct.imp fun h => .inr h.symm) hx hy |>.elim hne fun hn => hn (by rw [heq])

section Lines
variable {a : Assembler} {name : Name} {offset : SectionOffset} {num : Int}

theorem addLabelAt_eq (h : a.lookupLabel name = none) :
    (a.addLabelAt name offset num).labelsByOffset = a.labelsByOffset.insert { name, offset, num } ∧
    (a.addLabelAt name offset num).labelsByName = a.labelsByName.insert { name, offset, num } := by
  unfold Assembler.addLabelAt
  rw [dif_pos h]
  exact ⟨rfl, rfl⟩

theorem addLabelAt_of_taken (h : a.lookupLabel name ≠ none) : a.addLabelAt name offset num = a := dif_neg h

end Lines

/-- What a line does to the maps: nothing, or it inserts a label with a new name into both. -/
theorem line_cases (a : Assembler) (l : Line) :
    (a.added l = none ∧ (a.line l).labelsByOffset = a.labelsByOffset ∧ (a.line l).labelsByName = a.labelsByName) ∨
    ∃ x, a.added l = some x ∧ a.lookupLabel x.label.name = none ∧ (x.numeric = false → x.label.num = 0) ∧
      (a.line l).labelsByOffset = a.labelsByOffset.insert x.label ∧ (a.line l).labelsByName = a.labelsByName.insert x.label := by
  cases l with
  | bytes n val => exact .inl ⟨rfl, rfl, rfl⟩
  | ref name relaType =>
    have hmaps : (a.addReloc name relaType).labelsByOffset = a.labelsByOffset ∧
        (a.addReloc name relaType).labelsByName = a.labelsByName := by
      unfold Assembler.addReloc
      split <;> exact ⟨rfl, rfl⟩
    exact .inl ⟨rfl, hmaps⟩
  | label name =>
    by_cases h : a.lookupLabel name = none
    · exact .inr ⟨_, if_pos h, h, fun _ => rfl, addLabelAt_eq h⟩
    · exact .inl ⟨if_neg h, congrArg _ (addLabelAt_of_taken h), congrArg _ (addLabelAt_of_taken h)⟩
  | constant name value =>
    by_cases h : a.lookupLabel name = none
    · exact .inr ⟨_, if_pos h, h, fun _ => rfl, addLabelAt_eq h⟩
    · exact .inl ⟨if_neg h, congrArg _ (addLabelAt_of_taken h), congrArg _ (addLabelAt_of_taken h)⟩
  | number num =>
    simp only [Assembler.added, Assembler.line, Assembler.addLabelNum]
    cases hfind : (List.range (a.labelsByName.toList.length + 1)).find? fun i => a.lookupLabel (Assembler.numLabel num (i + 1)) = none with
    | none => exact .inl ⟨rfl, rfl, rfl⟩
    | some i =>
      have hfree := List.find?_some hfind
      rw [decide_eq_true_iff] at hfree
      exact .inr ⟨_, rfl, hfree, nofun, addLabelAt_eq hfree⟩

theorem Tracks.line {a : Assembler} {log : List Added} (h : Tracks a log) (l : Line) :
    Tracks (a.line l) ((a.added l).toList ++ log) := by
  rcases line_cases a l with ⟨hadded, hoffset, hname⟩ | ⟨x, hadded, hfree, hplain, hoffset, hname⟩
  · rw [hadded]
    constructor
    · rw [hoffset]
      exact h.offsets
    · unfold Assembler.lookupLabel
      rw [hname]
      exact h.names
    · exact h.distinct
    · exact h.plain
  · have hne : ∀ y ∈ log, y.label.name ≠ x.label.name := by
      intro y hy heq
      have hfound := h.names y hy
      rw [heq, hfree] at hfound
      cases hfound
    rw [hadded]
    constructor
    · intro l
      rw [hoffset, OrderedMap.mem_insert, h.offsets]
      constructor
      · rintro (rfl | ⟨⟨y, hy, rfl⟩, hoff⟩)
        · exact ⟨x, List.mem_cons_self, rfl⟩
        · exact ⟨y, List.mem_cons_of_mem x (List.mem_filter.2 ⟨hy, decide_eq_true hoff⟩), rfl⟩
      · rintro ⟨y, hy, rfl⟩
        rcases List.mem_cons.1 hy with rfl | hy
        · exact .inl rfl
        · obtain ⟨hy, hoff⟩ := List.mem_filter.1 hy
          exact .inr ⟨⟨y, hy, rfl⟩, of_decide_eq_true hoff⟩
    · intro y hy
      unfold Assembler.lookupLabel
      rw [hname]
      rcases List.mem_cons.1 hy with rfl | hy
      · exact OrderedMap.find_insert_self _ _
      · exact OrderedMap.find_insert_of_find (h.names y hy) (hne y hy)
    · exact List.pairwise_cons.2 ⟨fun y hy => (hne y hy).symm, h.distinct⟩
    · intro y hy
      rcases List.mem_cons.1 hy with rfl | hy
      · exact hplain
      · exact h.plain y hy

theorem Tracks.runLines {a : Assembler} {log : List Added} (h : Tracks a log) (ls : List Line) :
    Tracks (runLines a log ls).1 (runLines a log ls).2 := by
  induction ls generalizing a log with
  | nil => exact h
  | cons l ls ih => exact ih (h.line l)

theorem tracks_program (sect : Name) (lines : List Line) : Tracks (program sect lines).1 (program sect lines).2 := by
  have hnone : ∀ x : Added, x ∉ [] := fun x => List.not_mem_nil
  refine Tracks.runLines ⟨fun l => ?_, fun x hx => absurd hx (hnone x), .nil, fun x hx => absurd hx (hnone x)⟩ lines
  have hempty : (Assembler.new.getSection sect).labelsByOffset.toList = [] := by
    unfold Assembler.getSection
    split <;> rfl
  rw [hempty]
  refine iff_of_false List.not_mem_nil ?_
  rintro ⟨x, hx, -⟩
  exact List.not_mem_nil hx

/-! ## References -/

namespace Direction

variable {dir : Direction} {o k k' k'' : SectionOffset}

theorem nearer_of_not (h : ¬ dir.Nearer k k') (hne : k ≠ k') : dir.Nearer k' k := by
  cases dir with
  | forward => exact lt_of_le_of_ne (not_lt.1 h) (Ne.symm hne)
  | backward => exact lt_of_le_of_ne (not_lt.1 h) hne

theorem nearer_of_not_of (h : ¬ dir.Nearer k' k) (h' : dir.Nearer k' k'') : dir.Nearer k k'' := by
  cases dir with
  | forward => exact lt_of_le_of_lt (not_lt.1 h) h'
  | backward => exact lt_of_lt_of_le h' (not_lt.1 h)

end Direction

section Resolve
variable {a : Assembler} {log : List Added} {o : SectionOffset} {num : Int} {dir : Direction} {found : Option Label}

/-- Two nearest definitions are at one place. -/
theorem Nearest.offset_eq {x y : Added} (hx : Nearest log o num dir x) (hy : Nearest log o num dir y) :
    x.label.offset = y.label.offset := by
  by_contra hne
  exact hy.2 x hx.1 (Direction.nearer_of_not (hx.2 y hy.1) (Ne.symm hne))

/-- Among the definitions one is nearest. -/
theorem exists_nearest {x : Added} (h : Defines log o num dir x) : ∃ y, Nearest log o num dir y := by
  have hfinite : {y | Defines log o num dir y}.Finite := log.finite_toSet.subset fun y hy => hy.1
  cases dir with
  | forward =>
    obtain ⟨y, hy, hmin⟩ := hfinite.exists_minimalFor (fun y : Added => y.label.offset) _ ⟨x, h⟩
    exact ⟨y, hy, fun z hz hlt => not_le_of_gt hlt (hmin hz (le_of_lt hlt))⟩
  | backward =>
    obtain ⟨y, hy, hmax⟩ := hfinite.exists_maximalFor (fun y : Added => y.label.offset) _ ⟨x, h⟩
    exact ⟨y, hy, fun z hz hlt => not_le_of_gt hlt (hmax hz (le_of_lt hlt))⟩

/-- The scan finds the nearest definition exactly if no other label stands in its way. -/
theorem resolves_iff_unshadowed (ht : Tracks a log) (hs : Scans a.labelsByOffset.toList o num dir found) :
    Resolves log o num dir found ↔ Unshadowed log o num dir := by
  constructor
  · rintro ⟨hsome, hnone⟩
    constructor
    · intro x hx
      cases hf : found with
      | none => exact absurd hx.1 (hnone hf x)
      | some l =>
        obtain ⟨y, hy, rfl⟩ := hsome l hf
        obtain ⟨z, hz, hzl⟩ := (ht.offsets _).1 (hs.some _ hf).1
        obtain rfl := ht.label_inj (mem_of_lasting hz) hy.1.1 hzl
        exact ⟨z, hz, hy.1.2.1, hy.1.2.2.1, hy.offset_eq hx⟩
    · rintro rfl y hy hplain hahead
      have hzero := ht.plain y (mem_of_lasting hy) hplain
      have hmem : y.label ∈ a.labelsByOffset.toList := (ht.offsets _).2 ⟨y, hy, rfl⟩
      cases hf : found with
      | none => exact absurd hahead (hs.none hf _ hmem hzero)
      | some l =>
        obtain ⟨x, hx, rfl⟩ := hsome l hf
        obtain ⟨hxmem, -, -, hfirst⟩ := hs.some _ hf
        refine ⟨x, hx.1, Direction.nearer_of_not (hfirst _ hmem hzero hahead) ?_⟩
        intro heq
        -- at one place the map has one label
        have hsame : y.label = x.label := by
          have hfind := OrderedMap.find_of_mem hmem
          rw [heq, OrderedMap.find_of_mem hxmem] at hfind
          exact (Option.some.inj hfind).symm
        obtain rfl := ht.label_inj (mem_of_lasting hy) hx.1.1 hsame
        rw [hx.1.2.1] at hplain
        cases hplain
  · rintro ⟨hlast, hzero⟩
    -- a label the scan can find is a definition, or has a definition before it
    have hreach : ∀ y ∈ lasting log, y.label.num = num → dir.Ahead o y.label.offset →
        Defines log o num dir y ∨ ∃ x, Defines log o num dir x ∧ dir.Nearer x.label.offset y.label.offset := by
      intro y hy hnum hahead
      cases hplain : y.numeric with
      | true => exact .inl ⟨mem_of_lasting hy, hplain, hnum, hahead⟩
      | false =>
        obtain rfl : num = 0 := hnum.symm.trans (ht.plain y (mem_of_lasting hy) hplain)
        exact .inr (hzero rfl y hy hplain hahead)
    constructor
    · intro l hf
      obtain ⟨hmem, hnum, hahead, hfirst⟩ := hs.some l hf
      obtain ⟨y, hy, rfl⟩ := (ht.offsets l).1 hmem
      have hdef : ∃ x, Defines log o num dir x := (hreach y hy hnum hahead).elim (fun h => ⟨y, h⟩) fun ⟨x, hx, _⟩ => ⟨x, hx⟩
      obtain ⟨x, hx⟩ := hdef
      obtain ⟨n, hn⟩ := exists_nearest hx
      obtain ⟨z, hz, hznum, hzn, hzoff⟩ := hlast n hn
      have hzahead : dir.Ahead o z.label.offset := hzoff ▸ hn.1.2.2.2
      have hbefore : ¬ dir.Nearer z.label.offset y.label.offset := hfirst _ ((ht.offsets _).2 ⟨z, hz, rfl⟩) hzn hzahead
      rw [hzoff] at hbefore
      rcases hreach y hy hnum hahead with hdef | ⟨x, hx, hnearer⟩
      · refine ⟨y, ⟨hdef, fun w hw hwy => ?_⟩, rfl⟩
        exact hbefore (Direction.nearer_of_not_of (hn.2 w hw) hwy)
      · exact absurd (Direction.nearer_of_not_of (hn.2 x hx) hnearer) hbefore
    · intro hf x hx
      obtain ⟨n, hn⟩ := exists_nearest hx
      obtain ⟨z, hz, -, hzn, hzoff⟩ := hlast n hn
      exact hs.none hf _ ((ht.offsets _).2 ⟨z, hz, rfl⟩) hzn (hzoff ▸ hn.1.2.2.2)

end Resolve

/-- A number in digits and a direction. -/
structure LocalRef where
  digits : Name
  nonempty : digits ≠ []
  isDigit : digits.all Char.isDigit
  dir : Direction

namespace LocalRef

variable (ref : LocalRef)

def name : Name := ref.digits ++ [ref.dir.suffix]

/-- The number as the assembler reads it. -/
def num : Int := strtoull ref.digits

/-- The reference to a number that a label can have. -/
def ofNat (n : Nat) (dir : Direction) : LocalRef where
  digits := Nat.toDigits 10 n
  nonempty := Nat.toDigits_ne_nil
  isDigit := List.all_eq_true.2 fun c hc => Nat.isDigit_of_mem_toDigits (by decide : 0 < 10) (by decide) hc
  dir := dir

theorem num_ofNat {n : Nat} (h : n < 2 ^ 63) (dir : Direction) : (ofNat n dir).num = n := by
  unfold num strtoull ofNat
  rw [Nat.ofDigitChars_ten_toDigits, min_eq_left (by omega)]
  exact Int.bmod_eq_of_le (by omega) (by omega)

theorem getLast?_name : ref.name.getLast? = some ref.dir.suffix := List.getLast?_concat

theorem checkLocal_name : Assembler.checkLocal ref.name = true := by
  have hlen : 2 ≤ ref.name.length := by
    have := List.length_pos_iff.2 ref.nonempty
    unfold name
    rw [List.length_append, List.length_singleton]
    omega
  have hsuffix : ref.name.getLast? = some 'b' ∨ ref.name.getLast? = some 'f' := by
    rw [getLast?_name]
    cases ref.dir
    · exact .inr rfl
    · exact .inl rfl
  have hdigits : ref.name.dropLast.all Char.isDigit = true := by
    rw [show ref.name.dropLast = ref.digits from List.dropLast_concat]
    exact ref.isDigit
  exact decide_eq_true ⟨hlen, hsuffix, hdigits⟩

/-- `nf` scans forward, `nb` backward. -/
theorem scans (a : Assembler) (o : SectionOffset) (relaType : RelaType) :
    Scans a.labelsByOffset.toList o ref.num ref.dir (a.lookupLabelOf ⟨o, ref.name, relaType⟩) := by
  have hdrop : ref.name.dropLast = ref.digits := List.dropLast_concat
  unfold Assembler.lookupLabelOf
  rw [checkLocal_name, getLast?_name]
  simp only [hdrop]
  cases hdir : ref.dir with
  | forward =>
    rw [if_pos ⟨trivial, rfl⟩]
    exact scans_forward a.labelsByOffset.sorted o _
  | backward =>
    rw [if_neg (by decide), if_pos ⟨trivial, rfl⟩]
    exact scans_backward a.labelsByOffset.sorted o _

end LocalRef

/-- A reference resolves to the nearest definition of its number exactly if the label last put at that place is one and, for
the number 0, no label without a number is met before it. -/
theorem resolves_iff_program (sect : Name) (lines : List Line) (ref : LocalRef) (o : SectionOffset) (relaType : RelaType) :
    Resolves (program sect lines).2 o ref.num ref.dir ((program sect lines).1.lookupLabelOf ⟨o, ref.name, relaType⟩) ↔
      Unshadowed (program sect lines).2 o ref.num ref.dir :=
  resolves_iff_unshadowed (tracks_program sect lines) (ref.scans _ o relaType)

/-- A named label hides the definition of 1 at its place. -/
def hiddenNumber : List Line := [.number 1, .label ['x'], .bytes 4 0x13, .ref ['1', 'b'] .jal]

theorem not_resolves_hiddenNumber : ¬ ∀ (sect : Name) (lines : List Line) (ref : LocalRef) (o : SectionOffset) (relaType : RelaType),
    Resolves (program sect lines).2 o ref.num ref.dir ((program sect lines).1.lookupLabelOf ⟨o, ref.name, relaType⟩) := by
  intro h
  have hnull : (program [] hiddenNumber).1.lookupLabelOf ⟨⟨0, 4⟩, ['1', 'b'], .jal⟩ = none := by decide
  have hlog : ⟨⟨['.', 'L', '1', '1'], ⟨0, 0⟩, 1⟩, true⟩ ∈ (program [] hiddenNumber).2 := by decide
  have hnone := (h [] hiddenNumber (.ofNat 1 .backward) ⟨0, 4⟩ .jal).2 hnull
  exact hnone _ ⟨hlog, rfl, by decide, show SectionOffset.mk 0 0 ≤ ⟨0, 4⟩ by decide⟩

end Rv8.Asm
