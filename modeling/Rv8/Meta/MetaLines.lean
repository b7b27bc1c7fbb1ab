import Rv8.Meta.ReadFile
/-!
# The lines of a metadata file

The format that `read_file` is for, and when it returns the tokens of a line: none may
have a `#` or a NUL in it, even in quotes, and the line has to fit the buffer, or to have
its tokens in one of the pieces in which it is read and nothing that counts in the others.
-/

namespace Rv8.Meta

/-! ## Lines -/

/-- A token of the format: a quoted string, or a word. -/
structure Token where
  isQuoted : Bool
  chars : List UInt8
  ok : if isQuoted then quote ∉ chars ∧ newline ∉ chars
    else chars ≠ [] ∧ ∀ c ∈ chars, isspace c = false ∧ c ≠ quote ∧ c ≠ hash

def Token.text (t : Token) : List UInt8 := if t.isQuoted then quote :: (t.chars ++ [quote]) else t.chars

/-- White space in a line. -/
structure Gap where
  chars : List UInt8
  ok : ∀ c ∈ chars, isspace c = true ∧ c ≠ newline

def Gap.empty : Gap := ⟨[], fun _ hc => absurd hc List.not_mem_nil⟩

/-- A line: tokens with the white space before each, which may be empty only before the first, white space, and maybe
a comment. -/
structure MetaLine where
  items : List (Gap × Token)
  trail : Gap
  comment : Option (List UInt8)
  apart : ∀ item ∈ items.tail, item.1.chars ≠ []
  comment_ok : ∀ cs ∈ comment, newline ∉ cs

/-- The tokens and the white space before them. -/
def itemsText (items : List (Gap × Token)) : List UInt8 := items.flatMap fun item => item.1.chars ++ item.2.text

namespace MetaLine

variable (l : MetaLine)

def tokens : List (List UInt8) := l.items.map fun item => item.2.chars

def body : List UInt8 := itemsText l.items ++ l.trail.chars

def text : List UInt8 := l.body ++ (l.comment.map fun cs => hash :: cs).getD []

end MetaLine

/-- A file of lines, of which the last one may be without a newline. -/
structure MetaFile where
  lines : List MetaLine
  last : Option MetaLine

namespace MetaFile

/-- The lines, with what ends them. -/
def entries (f : MetaFile) : List (MetaLine × List UInt8) := f.lines.map (fun l => (l, [newline])) ++ (f.last.map fun l => (l, [])).toList

def content (f : MetaFile) : List UInt8 := f.entries.flatMap fun e => e.1.text ++ e.2

end MetaFile

/-! ## A line that is read in one piece -/

theorem Token.text_quoted {t : Token} (h : t.isQuoted = true) :
    t.text = quote :: (t.chars ++ [quote]) ∧ quote ∉ t.chars ∧ newline ∉ t.chars := by
  have hok := t.ok
  rw [if_pos h] at hok
  exact ⟨if_pos h, hok⟩

theorem Token.text_word {t : Token} (h : ¬ t.isQuoted = true) :
    t.text = t.chars ∧ t.chars ≠ [] ∧ ∀ c ∈ t.chars, isspace c = false ∧ c ≠ quote ∧ c ≠ hash := by
  have hok := t.ok
  rw [if_neg h] at hok
  exact ⟨if_neg h, hok⟩

theorem Token.text_head (t : Token) : ∃ c s, t.text = c :: s ∧ isspace c = false := by
  by_cases h : t.isQuoted = true
  · exact ⟨quote, _, (text_quoted h).1, rfl⟩
  · obtain ⟨htext, hne, hchars⟩ := text_word h
    obtain ⟨c, s, hcs⟩ := List.exists_cons_of_ne_nil hne
    exact ⟨c, s, htext.trans hcs, (hchars c (hcs ▸ List.mem_cons_self)).1⟩

theorem Token.text_last (t : Token) : ∃ s c, t.text = s ++ [c] ∧ isspace c = false := by
  by_cases h : t.isQuoted = true
  · exact ⟨quote :: t.chars, quote, (text_quoted h).1, rfl⟩
  · obtain ⟨htext, hne, hchars⟩ := text_word h
    have hlast := (List.dropLast_append_getLast hne).symm
    exact ⟨_, _, htext.trans hlast, (hchars _ (List.getLast_mem hne)).1⟩

theorem Gap.isspace_of_mem (gap : Gap) : ∀ c ∈ gap.chars, isspace c = true := fun c hc => (gap.ok c hc).1

theorem itemsText_last {items : List (Gap × Token)} (h : items ≠ []) : ∃ s c, itemsText items = s ++ [c] ∧ isspace c = false := by
  obtain ⟨s, c, hlast, hc⟩ := (items.getLast h).2.text_last
  refine ⟨itemsText items.dropLast ++ ((items.getLast h).1.chars ++ s), c, ?_, hc⟩
  conv_lhs => rw [← List.dropLast_append_getLast h]
  rw [itemsText, List.flatMap_append, List.flatMap_singleton, hlast, itemsText, List.append_assoc, List.append_assoc]

/-- Tokens that are apart are a layout of their characters. -/
theorem lays_items (items : List (Gap × Token)) (hapart : ∀ item ∈ items.tail, item.1.chars ≠ []) (trail : List UInt8)
    (htrail : ∀ c ∈ trail, isspace c = true) : Lays (itemsText items ++ trail) (items.map fun item => item.2.chars) := by
  induction items with
  | nil => exact .blank htrail
  | cons item items ih =>
    obtain ⟨gap, t⟩ := item
    have hrest := ih fun item hitem => hapart item (List.mem_of_mem_tail hitem)
    have hgap := gap.isspace_of_mem
    rw [itemsText, List.flatMap_cons, List.append_assoc, List.append_assoc]
    by_cases h : t.isQuoted = true
    · obtain ⟨htext, hquote, -⟩ := t.text_quoted h
      rw [htext, List.cons_append, List.append_assoc, List.singleton_append]
      exact .quoted hgap hquote hrest
    · obtain ⟨htext, hne, hchars⟩ := t.text_word h
      obtain ⟨c, s, hcs⟩ := List.exists_cons_of_ne_nil hne
      have hnext : ∀ d ∈ (itemsText items ++ trail).head?, isspace d = true := by
        intro d hd
        cases items with
        | nil => exact htrail d (List.mem_of_mem_head? hd)
        | cons next items =>
          have hne := hapart next List.mem_cons_self
          rw [itemsText, List.flatMap_cons, List.append_assoc, List.append_assoc, List.head?_append_of_ne_nil _ hne] at hd
          exact next.1.isspace_of_mem d (List.mem_of_mem_head? hd)
      have hc := hchars c (hcs ▸ List.mem_cons_self)
      rw [htext, List.map_cons, hcs]
      rw [hcs] at hchars
      exact .word hgap hc.2.1 (fun d hd => (hchars d hd).1) hnext hrest

theorem rtrim_append {s trail : List UInt8} {c : UInt8} (hc : isspace c = false) (htrail : ∀ d ∈ trail, isspace d = true) :
    rtrim (s ++ [c] ++ trail) = s ++ [c] := by
  rw [rtrim, List.rdropWhile, List.reverse_append, List.dropWhile_append_of_pos fun d hd => htrail d (List.mem_reverse.1 hd)]
  exact List.rdropWhile_concat_neg isspace s c (Bool.not_eq_true _ ▸ hc)

theorem ltrim_append {gap s : List UInt8} {c : UInt8} (hgap : ∀ d ∈ gap, isspace d = true) (hc : isspace c = false) :
    ltrim (gap ++ c :: s) = c :: s := by
  rw [ltrim, List.dropWhile_append_of_pos hgap, List.dropWhile_cons_of_neg (Bool.not_eq_true _ ▸ hc)]

namespace MetaLine

variable (l : MetaLine)

def Clean : Prop := ∀ t ∈ l.tokens, hash ∉ t ∧ 0 ∉ t

variable {l}

/-- Without the white space around them the tokens are laid out the same. -/
theorem lays_trim : Lays (ltrim (rtrim l.body)) l.tokens := by
  have htrail := l.trail.isspace_of_mem
  have hapart := l.apart
  unfold body tokens
  cases hitems : l.items with
  | nil =>
    have hnil : rtrim (itemsText [] ++ l.trail.chars) = [] := (List.rdropWhile_eq_nil_iff).2 htrail
    rw [hnil]
    exact .blank fun c hc => absurd hc List.not_mem_nil
  | cons item items =>
    obtain ⟨gap, t⟩ := item
    rw [hitems] at hapart
    obtain ⟨s, c, hlast, hc⟩ := itemsText_last (List.cons_ne_nil (gap, t) items)
    obtain ⟨d, text, hhead, hd⟩ := t.text_head
    have hfirst := lays_items ((Gap.empty, t) :: items) hapart []
      fun c hc => absurd hc List.not_mem_nil
    rw [List.append_nil, itemsText, List.flatMap_cons, Gap.empty, List.nil_append, hhead] at hfirst
    rw [hlast, rtrim_append hc htrail, ← hlast, itemsText, List.flatMap_cons, hhead, List.append_assoc, List.cons_append,
      ltrim_append gap.isspace_of_mem hd]
    exact hfirst

theorem mem_body {c : UInt8} (h : c ∈ l.body) : isspace c = true ∧ c ≠ newline ∨ c = quote ∨ ∃ item ∈ l.items, c ∈ item.2.chars := by
  rcases List.mem_append.1 h with hitems | htrail
  · obtain ⟨item, hitem, hc⟩ := List.mem_flatMap.1 hitems
    rcases List.mem_append.1 hc with hgap | htext
    · exact .inl (item.1.ok c hgap)
    · by_cases hquoted : item.2.isQuoted = true
      · rw [(item.2.text_quoted hquoted).1] at htext
        rcases List.mem_cons.1 htext with rfl | htext
        · exact .inr (.inl rfl)
        · rcases List.mem_append.1 htext with hchars | hclose
          · exact .inr (.inr ⟨item, hitem, hchars⟩)
          · exact .inr (.inl (List.mem_singleton.1 hclose))
      · rw [(item.2.text_word hquoted).1] at htext
        exact .inr (.inr ⟨item, hitem, htext⟩)
  · exact .inl (l.trail.ok c htrail)

theorem Clean.not_mem_body (h : l.Clean) : hash ∉ l.body ∧ 0 ∉ l.body := by
  refine ⟨fun hmem => ?_, fun hmem => ?_⟩
  · rcases mem_body hmem with ⟨hspace, -⟩ | heq | ⟨item, hitem, hchars⟩
    · exact absurd hspace (by decide)
    · exact absurd heq (by decide)
    · exact (h _ (List.mem_map.2 ⟨item, hitem, rfl⟩)).1 hchars
  · rcases mem_body hmem with ⟨hspace, -⟩ | heq | ⟨item, hitem, hchars⟩
    · exact absurd hspace (by decide)
    · exact absurd heq (by decide)
    · exact (h _ (List.mem_map.2 ⟨item, hitem, rfl⟩)).2 hchars

theorem Clean.lays_cut (h : l.Clean) {ending : List UInt8} (hending : ending = [] ∨ ending = [newline]) :
    Lays (cut (l.text ++ ending)) l.tokens := by
  obtain ⟨hhash, hnul⟩ := h.not_mem_body
  have hspaces : ∀ c ∈ ending, isspace c = true := by
    rcases hending with rfl | rfl
    · exact fun c hc => absurd hc List.not_mem_nil
    · exact fun c hc => List.mem_singleton.1 hc ▸ rfl
  have hbody (x : UInt8) (hx : x ∉ l.body) (s : List UInt8) :
      (l.body ++ s).takeWhile (fun c => c ≠ x) = l.body ++ s.takeWhile fun c => c ≠ x :=
    List.takeWhile_append_of_pos fun c hc => decide_eq_true fun heq => hx (heq ▸ hc)
  unfold text cut cString
  cases l.comment with
  | none =>
    rw [Option.map_none, Option.getD_none, List.append_nil, hbody 0 hnul]
    have hend : (ending.takeWhile fun c => c ≠ 0) = ending := by
      rcases hending with rfl | rfl
      · rfl
      · rfl
    have hno : hash ∉ l.body ++ ending := by
      intro hmem
      rcases List.mem_append.1 hmem with hmem | hmem
      · exact hhash hmem
      · exact absurd (hspaces _ hmem) (by decide)
    rw [hend, stripComment, if_neg hno, body, List.append_assoc]
    refine lays_items l.items l.apart _ fun c hc => ?_
    rcases List.mem_append.1 hc with htrail | hc
    · exact l.trail.isspace_of_mem c htrail
    · exact hspaces c hc
  | some cs =>
    -- the scanner does not see the comment
    have htake : ((hash :: (cs ++ ending)).takeWhile fun c => c ≠ 0) = hash :: (cs ++ ending).takeWhile fun c => c ≠ 0 := rfl
    have hstop (s : List UInt8) : ((hash :: s).takeWhile fun c => c ≠ hash) = [] := rfl
    rw [Option.map_some, Option.getD_some, List.append_assoc, List.cons_append, hbody 0 hnul, htake, stripComment,
      if_pos (List.mem_append_right _ List.mem_cons_self), hbody hash hhash, hstop, List.append_nil]
    exact lays_trim

theorem newline_not_mem_text : newline ∉ l.text := by
  intro hmem
  rcases List.mem_append.1 hmem with hbody | hcomment
  · rcases mem_body hbody with ⟨-, hne⟩ | heq | ⟨item, hitem, hchars⟩
    · exact hne rfl
    · exact absurd heq (by decide)
    · by_cases hquoted : item.2.isQuoted = true
      · exact (item.2.text_quoted hquoted).2.2 hchars
      · exact absurd ((item.2.text_word hquoted).2.2 _ hchars).1 (by decide)
  · have hok := l.comment_ok
    cases hcs : l.comment with
    | none =>
      rw [hcs] at hcomment
      exact absurd hcomment List.not_mem_nil
    | some cs =>
      rw [hcs] at hcomment
      rcases List.mem_cons.1 hcomment with heq | hcomment
      · exact absurd heq (by decide)
      · exact hok cs hcs hcomment

/-- A clean line that fits the buffer. -/
theorem Clean.readFile_short (h : l.Clean) (hlen : l.text.length ≤ bufRoom) {ending : List UInt8}
    (hending : ending = [] ∨ ending = [newline]) : readFile (l.text ++ ending) = row l.tokens := by
  have hread : readPiece (l.text ++ ending) = l.tokens := readPiece_eq_iff.2 (h.lays_cut hending)
  have hno := l.newline_not_mem_text
  have hnil : pieces [] = [] := rfl
  rw [readFile_eq]
  rcases hending with rfl | rfl
  · rw [List.append_nil] at hread ⊢
    by_cases hempty : l.text = []
    · rw [hempty] at hread ⊢
      rw [← hread]
      rfl
    · rw [pieces_of_ne hempty, fgets_end hno hlen, hnil, List.flatMap_singleton, hread]
  · rw [pieces_of_ne (List.append_ne_nil_of_right_ne_nil _ (List.cons_ne_nil newline []))]
    rcases Nat.lt_or_eq_of_le hlen with hlt | heq
    · rw [fgets_newline hno hlt, hnil, List.flatMap_singleton, hread]
    · -- the newline is a piece of its own
      have htext : readPiece l.text = l.tokens := by
        have hlays := readPiece_eq_iff.2 (h.lays_cut (.inl rfl))
        rwa [List.append_nil] at hlays
      have hblank : (pieces [newline]).flatMap (fun p => row (readPiece p)) = [] := rfl
      rw [← heq, fgets_full hno, List.flatMap_cons, hblank, htext, List.append_nil]

end MetaLine

/-! ## Every line -/

/-- One of the pieces is laid out as the tokens, if there are any, and the others are blank. -/
def Holds (ps : List (List UInt8)) (ts : List (List UInt8)) : Prop :=
  if ts = [] then ∀ p ∈ ps, Lays (cut p) []
  else ∃ before p after, ps = before ++ p :: after ∧ Lays (cut p) ts ∧ ∀ q ∈ before ++ after, Lays (cut q) []

theorem readFile_eq_row_iff {content : List UInt8} {ts : List (List UInt8)} : readFile content = row ts ↔ Holds (pieces content) ts := by
  have hsome (p : List UInt8) (t : List (List UInt8)) : (if readPiece p = [] then none else some (readPiece p)) = some t ↔
      readPiece p = t ∧ t ≠ [] := by
    split <;> simp_all
    grind
  have hnone (p : List UInt8) : (if readPiece p = [] then none else some (readPiece p)) = none ↔ Lays (cut p) [] := by
    rw [← readPiece_eq_iff]
    split <;> simp_all
  unfold Holds row readFile
  dsimp only
  split
  · simp only [List.filterMap_eq_nil_iff, hnone]
  · rename_i hne
    simp only [List.filterMap_eq_cons_iff, List.filterMap_eq_nil_iff, hnone, hsome, readPiece_eq_iff, List.forall_mem_append]
    constructor
    · rintro ⟨before, p, after, hps, hbefore, ⟨hlays, -⟩, hafter⟩
      exact ⟨before, p, after, hps, hlays, hbefore, hafter⟩
    · rintro ⟨before, p, after, hps, hlays, hbefore, hafter⟩
      exact ⟨before, p, after, hps, hbefore, ⟨hlays, hne⟩, hafter⟩

/-- No token has a `#` or a NUL, and the line fits the buffer, or one of the pieces it is read in holds the tokens. -/
def MetaLine.Fits (l : MetaLine) (ending : List UInt8) : Prop :=
  l.Clean ∧ (l.text.length ≤ bufRoom ∨ Holds (pieces (l.text ++ ending)) l.tokens)

theorem MetaLine.readFile_iff (l : MetaLine) {ending : List UInt8} (hending : ending = [] ∨ ending = [newline]) :
    readFile (l.text ++ ending) = row l.tokens ↔ l.Fits ending := by
  constructor
  · intro hread
    have hholds := readFile_eq_row_iff.1 hread
    refine ⟨fun t ht => ?_, .inr hholds⟩
    rw [Holds, if_neg (List.ne_nil_of_mem ht)] at hholds
    obtain ⟨-, p, -, -, hlays, -⟩ := hholds
    -- the tokens are read from a text without these characters
    exact ⟨fun hc => (mem_cut (hlays.mem ht hc)).1 rfl, fun hc => (mem_cut (hlays.mem ht hc)).2 rfl⟩
  · rintro ⟨hclean, hshort | hholds⟩
    · exact hclean.readFile_short hshort hending
    · exact readFile_eq_row_iff.2 hholds

theorem readFile_content (f : MetaFile) : readFile f.content = f.entries.flatMap fun e => readFile (e.1.text ++ e.2) := by
  have hlines (ls : List MetaLine) (rest : List UInt8) :
      readFile ((ls.flatMap fun l => l.text ++ [newline]) ++ rest) =
        (ls.flatMap fun l => readFile (l.text ++ [newline])) ++ readFile rest := by
    induction ls with
    | nil => rfl
    | cons l ls ih =>
      rw [List.flatMap_cons, List.append_assoc, List.append_assoc, List.singleton_append, readFile_eq, pieces_line l.newline_not_mem_text,
        List.flatMap_append, ← readFile_eq, ← readFile_eq, ih, List.flatMap_cons, List.append_assoc]
  unfold MetaFile.content MetaFile.entries
  rw [List.flatMap_append, List.flatMap_append, List.flatMap_map, List.flatMap_map, hlines]
  cases f.last with
  | none => rfl
  | some l => simp

/-- A file is read line by line, and its lines are read as their tokens exactly if they fit. -/
theorem readFile_tokens_iff (f : MetaFile) :
    (readFile f.content = f.entries.flatMap fun e => readFile (e.1.text ++ e.2)) ∧
      ((∀ e ∈ f.entries, readFile (e.1.text ++ e.2) = row e.1.tokens) ↔ ∀ e ∈ f.entries, e.1.Fits e.2) := by
  have hending : ∀ e ∈ f.entries, e.2 = [] ∨ e.2 = [newline] := by
    intro e he
    rcases List.mem_append.1 he with hline | hlast
    · obtain ⟨l, -, rfl⟩ := List.mem_map.1 hline
      exact .inr rfl
    · obtain ⟨l, -, rfl⟩ := Option.map_eq_some_iff.1 (Option.mem_toList.1 hlast)
      exact .inl rfl
  exact ⟨readFile_content f, forall₂_congr fun e he => e.1.readFile_iff (hending e he)⟩

/-- One line: a quoted token with a `#` in it. -/
def hashFile : MetaFile where
  lines :=
    [{ items := [(.empty, ⟨true, [97, hash, 98], by decide⟩)]
       trail := .empty
       comment := none
       apart := by decide
       comment_ok := by decide }]
  last := none

/-- The token is cut, although it is quoted. -/
theorem not_read_hashFile : readFile hashFile.content ≠ hashFile.entries.flatMap fun e => row e.1.tokens := by decide

end Rv8.Meta
