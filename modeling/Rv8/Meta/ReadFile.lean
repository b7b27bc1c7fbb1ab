import Mathlib.Data.List.DropRight
import Mathlib.Data.UInt
/-!
# Reading the metadata

`read_file` and `parse_line` of `model.cc`. A file is read in pieces of at most 255
characters, a piece is cut at its first `#` whether or not that is in quotes, and what is
left is scanned for tokens on its own.
-/

namespace Rv8.Meta

/-! ## The reader -/

def quote : UInt8 := 34

def hash : UInt8 := 35

def newline : UInt8 := 10

/-- `isspace` in the C locale -/
def isspace (c : UInt8) : Bool := c = 32 || 9 ≤ c && c ≤ 13

inductive ScanState
  | whitespace | quotedToken | unquotedToken | comment

structure Scan where
  state : ScanState
  token : List UInt8
  comps : List (List UInt8)

namespace Scan

def start : Scan := ⟨.whitespace, [], []⟩

def unquoted (s : Scan) (c : UInt8) : Scan :=
  if isspace c then ⟨.whitespace, [], s.comps ++ [s.token]⟩ else { s with state := .unquotedToken, token := s.token ++ [c] }

/-- The turns of the loop for one character. From `whitespace` a `#` and the start of a word are looked at again in
the new state. -/
def step (s : Scan) (c : UInt8) : Scan :=
  match s.state with
  | .whitespace =>
    if isspace c then s
    else if c = hash then { s with state := .comment }
    else if c = quote then { s with state := .quotedToken }
    else s.unquoted c
  | .quotedToken => if c = quote then ⟨.whitespace, [], s.comps ++ [s.token]⟩ else { s with token := s.token ++ [c] }
  | .unquotedToken => s.unquoted c
  | .comment => s

/-- A token at the end of the line. -/
def finish (s : Scan) : List (List UInt8) := if s.token ≠ [] then s.comps ++ [s.token] else s.comps

end Scan

def parseLine (line : List UInt8) : List (List UInt8) := (line.foldl Scan.step .start).finish

def ltrim (s : List UInt8) : List UInt8 := s.dropWhile isspace

def rtrim (s : List UInt8) : List UInt8 := s.rdropWhile isspace

/-- `line.find("#")`, and the line up to there without the white space around it. -/
def stripComment (line : List UInt8) : List UInt8 :=
  if hash ∈ line then ltrim (rtrim (line.takeWhile fun c => c ≠ hash)) else line

/-- `fgets` with room for so many characters: what it reads, and the rest. -/
def fgets : (room : Nat) → List UInt8 → List UInt8 × List UInt8
  | 0, s => ([], s)
  | _ + 1, [] => ([], [])
  | room + 1, c :: s =>
    if c = newline then ([c], s)
    else
      let (piece, rest) := fgets room s
      (c :: piece, rest)

/-- The size of `buf` less one for the end of the string. -/
def bufRoom : Nat := 256 - 1

/-- The pieces up to the end of the file. -/
def fgetsAll : (fuel : Nat) → List UInt8 → List (List UInt8)
  | 0, _ => []
  | _ + 1, [] => []
  | fuel + 1, c :: s => (fgets bufRoom (c :: s)).1 :: fgetsAll fuel (fgets bufRoom (c :: s)).2

def pieces (content : List UInt8) : List (List UInt8) := fgetsAll content.length content

/-- `std::string line = s` ends at the first NUL. -/
def cString (buf : List UInt8) : List UInt8 := buf.takeWhile fun c => c ≠ 0

def readPiece (piece : List UInt8) : List (List UInt8) := parseLine (stripComment (cString piece))

def readFile (content : List UInt8) : List (List (List UInt8)) :=
  (pieces content).filterMap fun piece =>
    let part := readPiece piece
    if part = [] then none else some part

/-- The row for a line, if it is not blank. -/
def row (ts : List (List UInt8)) : List (List (List UInt8)) := if ts = [] then [] else [ts]

theorem readFile_eq (content : List UInt8) : readFile content = (pieces content).flatMap fun p => row (readPiece p) := by
  unfold readFile
  induction pieces content with
  | nil => rfl
  | cons p ps ih =>
    rw [List.flatMap_cons, ← ih, row]
    by_cases h : readPiece p = []
    · simp only [List.filterMap_cons, if_pos h, List.nil_append]
    · simp only [List.filterMap_cons, if_neg h, List.singleton_append]

/-! ## What a line holds -/

/-- How a text without `#` is laid out as tokens. A quote may be missing at the end, and without anything after it such
a quote is no token. -/
inductive Lays : List UInt8 → List (List UInt8) → Prop
  | blank {gap : List UInt8} (hgap : ∀ c ∈ gap, isspace c = true) : Lays gap []
  | lone {gap : List UInt8} (hgap : ∀ c ∈ gap, isspace c = true) : Lays (gap ++ [quote]) []
  | openQuote {gap t : List UInt8} (hgap : ∀ c ∈ gap, isspace c = true) (ht : quote ∉ t) (hne : t ≠ []) : Lays (gap ++ quote :: t) [t]
  | quoted {gap t rest : List UInt8} {ts : List (List UInt8)} (hgap : ∀ c ∈ gap, isspace c = true) (ht : quote ∉ t) (hrest : Lays rest ts) :
    Lays (gap ++ quote :: (t ++ quote :: rest)) (t :: ts)
  | word {gap rest t : List UInt8} {c : UInt8} {ts : List (List UInt8)} (hgap : ∀ c ∈ gap, isspace c = true) (hc : c ≠ quote)
    (ht : ∀ d ∈ c :: t, isspace d = false) (hnext : ∀ d ∈ rest.head?, isspace d = true) (hrest : Lays rest ts) :
    Lays (gap ++ (c :: t ++ rest)) ((c :: t) :: ts)

theorem foldl_gap {gap : List UInt8} (hgap : ∀ c ∈ gap, isspace c = true) (comps : List (List UInt8)) :
    gap.foldl Scan.step ⟨.whitespace, [], comps⟩ = ⟨.whitespace, [], comps⟩ := by
  induction gap with
  | nil => rfl
  | cons c gap ih =>
    have hc : Scan.step ⟨.whitespace, [], comps⟩ c = ⟨.whitespace, [], comps⟩ := if_pos (hgap c List.mem_cons_self)
    rw [List.foldl_cons, hc]
    exact ih fun d hd => hgap d (List.mem_cons_of_mem c hd)

theorem foldl_quoted {t : List UInt8} (ht : quote ∉ t) (token : List UInt8) (comps : List (List UInt8)) :
    t.foldl Scan.step ⟨.quotedToken, token, comps⟩ = ⟨.quotedToken, token ++ t, comps⟩ := by
  induction t generalizing token with
  | nil => rw [List.append_nil, List.foldl_nil]
  | cons c t ih =>
    obtain ⟨hc, ht⟩ := not_or.1 (mt List.mem_cons.2 ht)
    have hstep : Scan.step ⟨.quotedToken, token, comps⟩ c = ⟨.quotedToken, token ++ [c], comps⟩ := if_neg (Ne.symm hc)
    rw [List.foldl_cons, hstep, ih ht, List.append_assoc, List.singleton_append]

theorem foldl_word {t : List UInt8} (ht : ∀ c ∈ t, isspace c = false) (token : List UInt8) (comps : List (List UInt8)) :
    t.foldl Scan.step ⟨.unquotedToken, token, comps⟩ = ⟨.unquotedToken, token ++ t, comps⟩ := by
  induction t generalizing token with
  | nil => rw [List.append_nil, List.foldl_nil]
  | cons c t ih =>
    have hc := ht c List.mem_cons_self
    have hstep : Scan.step ⟨.unquotedToken, token, comps⟩ c = ⟨.unquotedToken, token ++ [c], comps⟩ := if_neg (by simp [hc])
    rw [List.foldl_cons, hstep, ih fun d hd => ht d (List.mem_cons_of_mem c hd), List.append_assoc, List.singleton_append]

theorem step_openQuote (comps : List (List UInt8)) : Scan.step ⟨.whitespace, [], comps⟩ quote = ⟨.quotedToken, [], comps⟩ := rfl

theorem step_closeQuote (t : List UInt8) (comps : List (List UInt8)) :
    Scan.step ⟨.quotedToken, t, comps⟩ quote = ⟨.whitespace, [], comps ++ [t]⟩ := rfl

/-- White space, or the end of the line, takes the word as a token. -/
theorem finish_word {rest : List UInt8} (hnext : ∀ d ∈ rest.head?, isspace d = true) {t : List UInt8} (hne : t ≠ [])
    (comps : List (List UInt8)) :
    (rest.foldl Scan.step ⟨.unquotedToken, t, comps⟩).finish = (rest.foldl Scan.step ⟨.whitespace, [], comps ++ [t]⟩).finish := by
  cases rest with
  | nil => exact if_pos hne
  | cons d rest =>
    have hd := hnext d rfl
    have hword : Scan.step ⟨.unquotedToken, t, comps⟩ d = ⟨.whitespace, [], comps ++ [t]⟩ := if_pos hd
    have hspace : Scan.step ⟨.whitespace, [], comps ++ [t]⟩ d = ⟨.whitespace, [], comps ++ [t]⟩ := if_pos hd
    rw [List.foldl_cons, List.foldl_cons, hword, hspace]

/-- The scanner returns the tokens of a layout. -/
theorem Lays.finish {text : List UInt8} {ts : List (List UInt8)} (h : Lays text ts) (hhash : hash ∉ text) (comps : List (List UInt8)) :
    (text.foldl Scan.step ⟨.whitespace, [], comps⟩).finish = comps ++ ts := by
  induction h generalizing comps with
  | blank hgap =>
    rw [foldl_gap hgap, List.append_nil]
    rfl
  | lone hgap =>
    rw [List.foldl_append, foldl_gap hgap, List.append_nil]
    rfl
  | openQuote hgap ht hne =>
    rw [List.foldl_append, foldl_gap hgap, List.foldl_cons, step_openQuote, foldl_quoted ht]
    exact if_pos hne
  | quoted hgap ht _ ih =>
    have hrest := fun hmem => hhash (List.mem_append_right _ (List.mem_cons_of_mem _ (List.mem_append_right _ (List.mem_cons_of_mem _ hmem))))
    rw [List.foldl_append, foldl_gap hgap, List.foldl_cons, step_openQuote, List.foldl_append, foldl_quoted ht, List.foldl_cons,
      List.nil_append, step_closeQuote, ih hrest, List.append_assoc, List.singleton_append]
  | @word gap rest t c ts hgap hc ht hnext _ ih =>
    have hrest := fun hmem => hhash (List.mem_append_right gap (List.mem_append_right (c :: t) hmem))
    have hchash : c ≠ hash := fun heq => hhash (List.mem_append_right gap (List.mem_append_left rest (heq ▸ List.mem_cons_self)))
    have hspace := ht c List.mem_cons_self
    have hstep : Scan.step ⟨.whitespace, [], comps⟩ c = ⟨.unquotedToken, [c], comps⟩ := by
      simp [Scan.step, Scan.unquoted, hspace, hchash, hc]
    rw [List.foldl_append, foldl_gap hgap, List.foldl_append, List.foldl_cons, hstep,
      foldl_word fun d hd => ht d (List.mem_cons_of_mem c hd), List.singleton_append, finish_word hnext (List.cons_ne_nil c t), ih hrest,
      List.append_assoc, List.singleton_append]

theorem head_of_dropWhile {p : UInt8 → Bool} {text rest : List UInt8} {c : UInt8} (h : text.dropWhile p = c :: rest) : p c = false := by
  have hhead := List.head?_dropWhile_not p text
  rw [h] at hhead
  exact hhead

/-- Every text is laid out in some way. -/
theorem exists_lays (text : List UInt8) : ∃ ts, Lays text ts := by
  induction hlen : text.length using Nat.strong_induction_on generalizing text with
  | _ n ih =>
    subst hlen
    have hgap : ∀ c ∈ text.takeWhile isspace, isspace c = true := fun c hc => List.mem_takeWhile_imp hc
    have hsplit := List.takeWhile_append_dropWhile (p := isspace) (l := text)
    cases hrest : text.dropWhile isspace with
    | nil =>
      rw [hrest, List.append_nil] at hsplit
      exact ⟨[], .blank (hsplit ▸ hgap)⟩
    | cons c rest =>
      rw [hrest] at hsplit
      have hlength := congrArg List.length hsplit
      rw [List.length_append, List.length_cons] at hlength
      by_cases hquote : c = quote
      · subst hquote
        by_cases hclose : quote ∈ rest
        · obtain ⟨t, after, rfl, ht⟩ := List.eq_append_cons_of_mem hclose
          rw [List.length_append, List.length_cons] at hlength
          obtain ⟨ts, hts⟩ := ih after.length (by omega) after rfl
          exact ⟨t :: ts, hsplit ▸ .quoted hgap ht hts⟩
        · by_cases hne : rest = []
          · exact ⟨[], hsplit ▸ hne ▸ .lone hgap⟩
          · exact ⟨[rest], hsplit ▸ .openQuote hgap hclose hne⟩
      · -- a word goes up to the next white space
        have hspace := head_of_dropWhile hrest
        have hle := (List.dropWhile_sublist (p := fun d => !isspace d) (l := rest)).length_le
        obtain ⟨ts, hts⟩ := ih (rest.dropWhile fun d => !isspace d).length (by omega) _ rfl
        have hword : ∀ d ∈ c :: rest.takeWhile fun d => !isspace d, isspace d = false := by
          refine List.forall_mem_cons.2 ⟨hspace, fun d hd => ?_⟩
          exact Bool.not_eq_true' _ ▸ (List.mem_takeWhile_imp (p := fun d => !isspace d) hd)
        have hnext : ∀ d ∈ (rest.dropWhile fun d => !isspace d).head?, isspace d = true := by
          intro d hd
          obtain ⟨after, hafter⟩ := List.head?_eq_some_iff.1 hd
          exact Bool.not_eq_false' _ ▸ (head_of_dropWhile hafter)
        have hlays := Lays.word hgap hquote hword hnext hts
        rw [List.cons_append, List.takeWhile_append_dropWhile, hsplit] at hlays
        exact ⟨_, hlays⟩

theorem parseLine_eq_iff {text : List UInt8} (hhash : hash ∉ text) {ts : List (List UInt8)} : parseLine text = ts ↔ Lays text ts := by
  constructor
  · rintro rfl
    obtain ⟨ts, hts⟩ := exists_lays text
    have heq : parseLine text = ts := hts.finish hhash []
    rwa [heq]
  · intro h
    exact h.finish hhash []

theorem Lays.mem {text : List UInt8} {ts : List (List UInt8)} (h : Lays text ts) {t : List UInt8} (ht : t ∈ ts) {c : UInt8} (hc : c ∈ t) :
    c ∈ text := by
  induction h with
  | blank _ => cases ht
  | lone _ => cases ht
  | openQuote _ _ _ =>
    obtain rfl := List.mem_singleton.1 ht
    exact List.mem_append_right _ (List.mem_cons_of_mem _ hc)
  | quoted _ _ _ ih =>
    refine List.mem_append_right _ (List.mem_cons_of_mem _ ?_)
    rcases List.mem_cons.1 ht with rfl | ht
    · exact List.mem_append_left _ hc
    · exact List.mem_append_right _ (List.mem_cons_of_mem _ (ih ht))
  | word _ _ _ _ _ ih =>
    refine List.mem_append_right _ ?_
    rcases List.mem_cons.1 ht with rfl | ht
    · exact List.mem_append_left _ hc
    · exact List.mem_append_right _ (ih ht)

/-! ## Cutting a piece -/

/-- The text of a piece that is scanned. -/
def cut (piece : List UInt8) : List UInt8 := stripComment (cString piece)

theorem ne_of_mem_takeWhile {x d : UInt8} {s : List UInt8} (h : d ∈ s.takeWhile fun c => c ≠ x) : d ≠ x :=
  of_decide_eq_true (List.mem_takeWhile_imp (p := fun c => decide (c ≠ x)) h)

theorem mem_cut {piece : List UInt8} {c : UInt8} (h : c ∈ cut piece) : c ≠ hash ∧ c ≠ 0 := by
  unfold cut stripComment at h
  have hnul : ∀ d ∈ cString piece, d ≠ 0 := fun d hd => ne_of_mem_takeWhile hd
  split at h
  · have hstrip : c ∈ (cString piece).takeWhile fun d => d ≠ hash :=
      (List.rdropWhile_prefix _ _).subset ((List.dropWhile_sublist _).subset h)
    exact ⟨ne_of_mem_takeWhile hstrip, hnul c ((List.takeWhile_prefix _).subset hstrip)⟩
  · rename_i hhash
    exact ⟨fun heq => hhash (heq ▸ h), hnul c h⟩

theorem readPiece_eq_iff {piece : List UInt8} {ts : List (List UInt8)} : readPiece piece = ts ↔ Lays (cut piece) ts :=
  parseLine_eq_iff fun hmem => (mem_cut hmem).1 rfl

/-! ## Pieces -/

theorem fgets_append (room : Nat) (s : List UInt8) : (fgets room s).1 ++ (fgets room s).2 = s := by
  induction room generalizing s with
  | zero => rfl
  | succ room ih =>
    cases s with
    | nil => rfl
    | cons c s =>
      rw [fgets]
      split
      · rfl
      · exact congrArg (c :: ·) (ih s)

theorem length_fgets_lt {room : Nat} (hroom : 0 < room) (c : UInt8) (s : List UInt8) :
    (fgets room (c :: s)).2.length < (c :: s).length := by
  cases room with
  | zero => exact absurd hroom (Nat.lt_irrefl 0)
  | succ room =>
    rw [fgets]
    split
    · exact Nat.lt_succ_self _
    · have hlength := congrArg List.length (fgets_append room s)
      rw [List.length_append] at hlength
      dsimp only
      rw [List.length_cons]
      omega

/-- Fuel for the characters that are left makes no difference. -/
theorem fgetsAll_add {fuel : Nat} {s : List UInt8} (h : s.length ≤ fuel) (k : Nat) : fgetsAll (fuel + k) s = fgetsAll fuel s := by
  induction fuel generalizing s with
  | zero =>
    obtain rfl := List.length_eq_zero_iff.1 (Nat.le_zero.1 h)
    cases k with
    | zero => rfl
    | succ k => rfl
  | succ fuel ih =>
    cases s with
    | nil =>
      rw [Nat.add_right_comm]
      rfl
    | cons c s =>
      have hlt := length_fgets_lt (show 0 < bufRoom by decide) c s
      rw [Nat.add_right_comm]
      exact congrArg (_ :: ·) (ih (by omega))

theorem pieces_of_ne {s : List UInt8} (h : s ≠ []) : pieces s = (fgets bufRoom s).1 :: pieces (fgets bufRoom s).2 := by
  cases s with
  | nil => exact absurd rfl h
  | cons c s =>
    have hlt := length_fgets_lt (show 0 < bufRoom by decide) c s
    rw [List.length_cons] at hlt
    obtain ⟨k, hk⟩ := Nat.exists_eq_add_of_le (Nat.le_of_lt_succ hlt)
    refine congrArg (_ :: ·) ?_
    rw [hk]
    exact fgetsAll_add le_rfl k

theorem fgets_newline {text : List UInt8} (htext : newline ∉ text) {room : Nat} (hroom : text.length < room) (rest : List UInt8) :
    fgets room (text ++ newline :: rest) = (text ++ [newline], rest) := by
  induction text generalizing room with
  | nil =>
    obtain ⟨room, rfl⟩ := Nat.exists_eq_succ_of_ne_zero (Nat.ne_of_gt hroom)
    rfl
  | cons c text ih =>
    obtain ⟨hc, htext⟩ := not_or.1 (mt List.mem_cons.2 htext)
    obtain ⟨room, rfl⟩ := Nat.exists_eq_succ_of_ne_zero (Nat.ne_zero_of_lt hroom)
    rw [List.cons_append, fgets, if_neg (Ne.symm hc), ih htext (Nat.lt_of_succ_lt_succ hroom)]
    rfl

/-- A piece without a newline is as long as there is room. -/
theorem fgets_full {text : List UInt8} (htext : newline ∉ text) (rest : List UInt8) : fgets text.length (text ++ rest) = (text, rest) := by
  induction text with
  | nil => rfl
  | cons c text ih =>
    obtain ⟨hc, htext⟩ := not_or.1 (mt List.mem_cons.2 htext)
    rw [List.length_cons, List.cons_append, fgets, if_neg (Ne.symm hc), ih htext]

theorem fgets_end {text : List UInt8} (htext : newline ∉ text) {room : Nat} (hroom : text.length ≤ room) :
    fgets room text = (text, []) := by
  induction text generalizing room with
  | nil =>
    cases room with
    | zero => rfl
    | succ room => rfl
  | cons c text ih =>
    obtain ⟨hc, htext⟩ := not_or.1 (mt List.mem_cons.2 htext)
    obtain ⟨room, rfl⟩ := Nat.exists_eq_succ_of_ne_zero (Nat.ne_zero_of_lt hroom)
    rw [fgets, if_neg (Ne.symm hc), ih htext (Nat.le_of_succ_le_succ hroom)]

/-- A line is read apart from what follows it. -/
theorem pieces_line {text : List UInt8} (htext : newline ∉ text) (rest : List UInt8) :
    pieces (text ++ newline :: rest) = pieces (text ++ [newline]) ++ pieces rest := by
  induction hlen : text.length using Nat.strong_induction_on generalizing text with
  | _ n ih =>
    subst hlen
    rw [pieces_of_ne (List.append_ne_nil_of_right_ne_nil _ (List.cons_ne_nil newline rest)),
      pieces_of_ne (List.append_ne_nil_of_right_ne_nil _ (List.cons_ne_nil newline []))]
    rcases Nat.lt_or_ge text.length bufRoom with hlt | hge
    · rw [fgets_newline htext hlt, fgets_newline htext hlt]
      rfl
    · have htake : (text.take bufRoom).length = bufRoom := by rw [List.length_take, Nat.min_eq_left hge]
      have hsplit := List.take_append_drop bufRoom text
      have hfull (after : List UInt8) : fgets bufRoom (text ++ after) = (text.take bufRoom, text.drop bufRoom ++ after) := by
        have hno : newline ∉ text.take bufRoom := fun hmem => htext (List.mem_of_mem_take hmem)
        have h := fgets_full hno (text.drop bufRoom ++ after)
        rwa [htake, ← List.append_assoc, hsplit] at h
      have hshort : (text.drop bufRoom).length < text.length := by
        have hpos : 0 < bufRoom := by decide
        rw [List.length_drop]
        omega
      rw [hfull, hfull]
      exact congrArg (_ :: ·) (ih _ hshort (fun hmem => htext (List.mem_of_mem_drop hmem)) rfl)

end Rv8.Meta
