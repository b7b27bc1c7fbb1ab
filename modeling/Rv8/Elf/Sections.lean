import Rv8.Elf.File
/-!
# Sections in memory

Everything in a file that has been read is found by its offset: `offset` searches the
sections for the one whose buffer holds it. Where the buffers keep apart and none of them
passes the end of the address space, the search finds the section that is meant. The
symbol table and the string tables are read that way.
-/

namespace Rv8.Elf

open Rv8.Lib ElfFile

/-! ## Ranges -/

/-- An offset and a size. -/
abbrev Range := Nat × Nat

/-- No byte is in both. -/
def Range.Apart (r r' : Range) : Prop := ∀ x, ¬ (r.1 ≤ x ∧ x < r.1 + r.2 ∧ r'.1 ≤ x ∧ x < r'.1 + r'.2)

theorem Range.Apart.symm {r r' : Range} (h : r.Apart r') : r'.Apart r := fun x hx => h x ⟨hx.2.2.1, hx.2.2.2, hx.1, hx.2.1⟩

theorem Range.apart_of_empty (o : Nat) (r : Range) : Range.Apart (o, 0) r := by
  rintro x ⟨h, h', -⟩
  exact absurd h' (by simpa using h)

/-- The two ways of being apart. -/
theorem Range.apart_of_le {r r' : Range} (h : r.1 + r.2 ≤ r'.1) : r.Apart r' := by
  rintro x ⟨-, h1, h2, -⟩
  omega

/-- The bytes of a section in memory. -/
def ElfSection.range (s : ElfSection) : Range := (s.offset.toNat, s.buf.length)

/-- The sections keep apart and stay below 2^64. -/
structure Placed (secs : List ElfSection) : Prop where
  below : ∀ s ∈ secs, s.offset.toNat + s.buf.length < 2 ^ 64
  apart : secs.Pairwise fun s s' => s.range.Apart s'.range

theorem holds_iff {s : ElfSection} (h : s.offset.toNat + s.buf.length < 2 ^ 64) (off : UInt64) :
    (s.offset ≤ off ∧ off < s.offset + UInt64.ofNat s.buf.length) ↔
      s.offset.toNat ≤ off.toNat ∧ off.toNat < s.offset.toNat + s.buf.length := by
  have hlen : s.buf.length < 2 ^ 64 := by omega
  rw [UInt64.le_iff_toNat_le, UInt64.lt_iff_toNat_lt, UInt64.toNat_add, UInt64.toNat_ofNat_of_lt' hlen, Nat.mod_eq_of_lt h]

/-- The search finds the section that holds the offset. -/
theorem locate_of_placed {secs : List ElfSection} (h : Placed secs) {k : Nat} {s : ElfSection} (hk : secs[k]? = some s) {off : UInt64}
    (hlo : s.offset.toNat ≤ off.toNat) (hhi : off.toNat < s.offset.toNat + s.buf.length) :
    locate off secs = some (k, off.toNat - s.offset.toNat) := by
  induction secs generalizing k with
  | nil => cases hk
  | cons t ts ih =>
    obtain ⟨hfirst, hrest⟩ := List.pairwise_cons.1 h.apart
    rw [locate]
    cases k with
    | zero =>
      obtain rfl := Option.some.inj hk
      have hin := (holds_iff (h.below t List.mem_cons_self) off).2 ⟨hlo, hhi⟩
      rw [if_pos hin, UInt64.toNat_sub_of_le _ _ hin.1]
    | succ k =>
      have hmem : s ∈ ts := List.mem_of_getElem? hk
      have hout : ¬ (t.offset ≤ off ∧ off < t.offset + UInt64.ofNat t.buf.length) := by
        rw [holds_iff (h.below t List.mem_cons_self)]
        exact fun hin => hfirst s hmem off.toNat ⟨hin.1, hin.2, hlo, hhi⟩
      rw [if_neg hout, ih ⟨fun s hs => h.below s (List.mem_cons_of_mem t hs), hrest⟩ hk]
      rfl

/-- What the search finds holds the offset. -/
theorem of_locate {secs : List ElfSection} {off : UInt64} {k pos : Nat} (h : locate off secs = some (k, pos)) :
    ∃ s, secs[k]? = some s ∧ s.offset ≤ off ∧ off < s.offset + UInt64.ofNat s.buf.length := by
  induction secs generalizing k with
  | nil => cases h
  | cons t ts ih =>
    rw [locate] at h
    split at h
    · rename_i hin
      obtain ⟨rfl, -⟩ := Prod.mk.inj (Option.some.inj h)
      exact ⟨t, rfl, hin⟩
    · obtain ⟨⟨k', pos'⟩, hloc, hp⟩ := Option.map_eq_some_iff.1 h
      obtain ⟨rfl, rfl⟩ := Prod.mk.inj hp
      exact ih hloc

/-! ## Buffers -/

/-- The two agree up to the bytes in the sections, the names, the symbols and the relocations. -/
structure SameShape (f g : ElfFile) : Prop where
  eiClass : g.eiClass = f.eiClass
  eiData : g.eiData = f.eiData
  ehdr : g.ehdr = f.ehdr
  shdrs : g.shdrs = f.shdrs
  tables : (g.shstrtab, g.symtab, g.strtab) = (f.shstrtab, f.symtab, f.strtab)
  sections : g.sections.map ElfSection.range = f.sections.map ElfSection.range

theorem SameShape.refl (f : ElfFile) : SameShape f f := ⟨rfl, rfl, rfl, rfl, rfl, rfl⟩

theorem SameShape.trans {f g h : ElfFile} (h1 : SameShape f g) (h2 : SameShape g h) : SameShape f h :=
  ⟨h2.eiClass.trans h1.eiClass, h2.eiData.trans h1.eiData, h2.ehdr.trans h1.ehdr, h2.shdrs.trans h1.shdrs,
    h2.tables.trans h1.tables, h2.sections.trans h1.sections⟩

theorem getElem?_setBuf (f : ElfFile) (i j : Nat) (buf : List UInt8) :
    (f.setBuf i buf).sections[j]? = (f.sections[j]?).map fun s => if i = j then { s with buf } else s := by
  simp only [ElfFile.setBuf, List.getElem?_modify]
  by_cases hij : i = j <;> simp [hij]

theorem bufOf_eq {f : ElfFile} {i : Nat} {s : ElfSection} (h : f.sections[i]? = some s) : f.bufOf i = s.buf := by
  simp [ElfFile.bufOf, h]

theorem SameShape.setBuf (f : ElfFile) {i : Nat} {buf : List UInt8} (h : buf.length = (f.bufOf i).length) :
    SameShape f (f.setBuf i buf) := by
  refine ⟨rfl, rfl, rfl, rfl, rfl, List.ext_getElem? fun j => ?_⟩
  rw [List.getElem?_map, getElem?_setBuf, List.getElem?_map]
  by_cases hij : i = j
  · subst hij
    cases hs : f.sections[i]? with
    | none => rfl
    | some s =>
      rw [bufOf_eq hs] at h
      simp [ElfSection.range, h]
  · simp [hij]

/-- Where sections are found depends on their ranges only. -/
theorem Placed.of_ranges {secs secs' : List ElfSection} (h : secs'.map ElfSection.range = secs.map ElfSection.range)
    (hs : Placed secs) : Placed secs' := by
  have hbelow : ∀ r ∈ secs.map ElfSection.range, r.1 + r.2 < 2 ^ 64 := by
    intro r hr
    obtain ⟨s, hmem, rfl⟩ := List.mem_map.1 hr
    exact hs.below s hmem
  have hapart : (secs.map ElfSection.range).Pairwise Range.Apart := List.pairwise_map.2 hs.apart
  rw [← h] at hbelow hapart
  exact ⟨fun s hmem => hbelow s.range (List.mem_map_of_mem hmem), List.pairwise_map.1 hapart⟩

theorem setBuf_setBuf (f : ElfFile) (i : Nat) (buf buf' : List UInt8) : (f.setBuf i buf).setBuf i buf' = f.setBuf i buf' := by
  have hsec : ((f.setBuf i buf).setBuf i buf').sections = (f.setBuf i buf').sections := by
    refine List.ext_getElem? fun j => ?_
    simp only [getElem?_setBuf, Option.map_map]
    congr 1
    funext s
    by_cases hij : i = j <;> simp [hij]
  simp only [ElfFile.setBuf] at hsec ⊢
  rw [hsec]

theorem setBuf_bufOf (f : ElfFile) (i : Nat) : f.setBuf i (f.bufOf i) = f := by
  have hsec : (f.setBuf i (f.bufOf i)).sections = f.sections := by
    refine List.ext_getElem? fun j => ?_
    rw [getElem?_setBuf]
    by_cases hij : i = j
    · subst hij
      cases hs : f.sections[i]? with
      | none => rfl
      | some s => simp [bufOf_eq hs]
    · simp [hij]
  simp only [ElfFile.setBuf] at hsec ⊢
  rw [hsec]

/-! ## Tables that are swapped in place -/

theorem length_reverseFields (ws : List Nat) (bs : List UInt8) : (reverseFields ws bs).length = bs.length := by
  induction ws generalizing bs with
  | nil => rfl
  | cons w ws ih =>
    rw [reverseFields, List.length_append, List.length_reverse, ih, ← List.length_append, List.take_append_drop]

@[simp] theorem length_bswap (eiData : UInt8) (ws : List Nat) (bs : List UInt8) : (bswap eiData ws bs).length = bs.length := by
  unfold bswap
  split
  · exact length_reverseFields ws bs
  · rfl

theorem length_bswapTable {n : Nat} {bs : List UInt8} (h : bs.length % n = 0) (eiData : UInt8) (ws : List Nat) :
    (bswapTable eiData n ws bs).length = bs.length := by
  unfold bswapTable
  split
  · have hturn (m : Nat) (hm : m * n ≤ bs.length) :
        ((List.range m).flatMap fun j => reverseFields ws ((bs.drop (j * n)).take n)).length = m * n := by
      induction m with
      | zero => simp
      | succ m ih =>
        rw [Nat.succ_mul] at hm
        rw [List.range_succ, List.flatMap_append, List.length_append, ih (by omega), Nat.succ_mul]
        simp only [List.flatMap_cons, List.flatMap_nil, List.append_nil, length_reverseFields, List.length_take, List.length_drop]
        omega
    have hall := Nat.div_mul_cancel (Nat.dvd_of_mod_eq_zero h)
    rw [hturn _ hall.le, hall]
  · rfl

/-- The record at an index of a table. -/
def chunk (n j : Nat) (bs : List UInt8) : List UInt8 := (bs.drop (j * n)).take n

/-- A table with its first records swapped. -/
def swapFirst (eiData : UInt8) (n : Nat) (ws : List Nat) (bs : List UInt8) : Nat → List UInt8
  | 0 => bs
  | i + 1 =>
    let bs' := swapFirst eiData n ws bs i
    bs'.take (i * n) ++ bswap eiData ws (chunk n i bs') ++ bs'.drop (i * n + n)

section Swap
variable {eiData : UInt8} {n : Nat} {ws : List Nat} {bs : List UInt8}

theorem getElem?_replace {xs : List UInt8} {p : Nat} (h : p + xs.length ≤ bs.length) (i : Nat) :
    (bs.take p ++ xs ++ bs.drop (p + xs.length))[i]? = if p ≤ i ∧ i < p + xs.length then xs[i - p]? else bs[i]? := by
  have hp : (bs.take p).length = p := by
    rw [List.length_take]
    omega
  rcases Nat.lt_or_ge i p with hlt | hge
  · rw [if_neg (by omega), List.append_assoc, List.getElem?_append_left (by omega), List.getElem?_take_of_lt hlt]
  · rw [List.append_assoc, List.getElem?_append_right (by omega), hp]
    rcases Nat.lt_or_ge i (p + xs.length) with hlt | hge'
    · rw [if_pos ⟨hge, hlt⟩, List.getElem?_append_left (by omega)]
    · rw [if_neg (by omega), List.getElem?_append_right (by omega), List.getElem?_drop]
      congr 1
      omega

theorem getElem?_chunk {j i : Nat} : (chunk n j bs)[i]? = if i < n then bs[j * n + i]? else none := by
  rw [chunk, List.getElem?_take, List.getElem?_drop]

theorem length_chunk {j : Nat} (h : j * n + n ≤ bs.length) : (chunk n j bs).length = n := by
  rw [chunk, List.length_take, List.length_drop]
  omega

theorem length_swapFirst {m : Nat} (h : m * n ≤ bs.length) : (swapFirst eiData n ws bs m).length = bs.length := by
  induction m with
  | zero => rfl
  | succ m ih =>
    rw [Nat.succ_mul] at h
    have hlen := ih (by omega)
    simp only [swapFirst, List.length_append, List.length_take, List.length_drop, length_bswap, length_chunk (hlen.symm ▸ h), hlen]
    omega

/-- The first records are swapped, the others are not. -/
theorem chunk_swapFirst {m j : Nat} (hm : m * n ≤ bs.length) (hj : j * n + n ≤ bs.length) :
    chunk n j (swapFirst eiData n ws bs m) = if j < m then bswap eiData ws (chunk n j bs) else chunk n j bs := by
  induction m with
  | zero => rfl
  | succ m ih =>
    rw [Nat.succ_mul] at hm
    have hlen : (swapFirst eiData n ws bs m).length = bs.length := length_swapFirst (by omega)
    have hturn : (bswap eiData ws (chunk n m (swapFirst eiData n ws bs m))).length = n := by
      rw [length_bswap, length_chunk (by omega)]
    have hval (i : Nat) := getElem?_replace
      (show m * n + (bswap eiData ws (chunk n m (swapFirst eiData n ws bs m))).length ≤ (swapFirst eiData n ws bs m).length by omega) i
    rw [hturn] at hval
    have ih := ih (by omega)
    rcases Nat.lt_trichotomy j m with hlt | rfl | hgt
    · -- before the record of this turn
      rw [if_pos (by omega), ← if_pos (t := bswap eiData ws (chunk n j bs)) (e := chunk n j bs) hlt, ← ih]
      have hle : j * n + n ≤ m * n := by
        rw [← Nat.succ_mul]
        exact Nat.mul_le_mul_right n hlt
      refine List.ext_getElem? fun i => ?_
      rw [getElem?_chunk, getElem?_chunk]
      split
      · rw [swapFirst, hval, if_neg (by omega)]
      · rfl
    · rw [if_pos (by omega)]
      rw [if_neg (by omega)] at ih
      refine List.ext_getElem? fun i => ?_
      rw [getElem?_chunk, swapFirst, hval, ih]
      split
      · rw [if_pos (by omega), Nat.add_sub_cancel_left]
      · rw [List.getElem?_eq_none (by rw [length_bswap, length_chunk hj]; omega)]
    · -- after it
      rw [if_neg (by omega)]
      rw [if_neg (by omega)] at ih
      rw [← ih]
      have hle : m * n + n ≤ j * n := by
        rw [← Nat.succ_mul]
        exact Nat.mul_le_mul_right n hgt
      refine List.ext_getElem? fun i => ?_
      rw [getElem?_chunk, getElem?_chunk]
      split
      · rw [swapFirst, hval, if_neg (by omega)]
      · rfl

/-- In a little-endian file there is nothing to swap. -/
theorem swapFirst_lsb (h : eiData ≠ elfData2Msb) (m : Nat) : swapFirst eiData n ws bs m = bs := by
  induction m with
  | zero => rfl
  | succ m ih =>
    rw [swapFirst, ih, bswap, if_neg h, chunk, ← List.drop_drop, List.append_assoc, List.take_append_drop, List.take_append_drop]

end Swap

/-! ## Looking things up -/

section Lookup
variable {σ : Type} {f : ElfFile}

theorem offset_eq {off : UInt64} {p : Nat × Nat} (h : locate off f.sections = some p) :
    (f.offset off : Prog ElfPanic σ _) = pure p := by
  rw [ElfFile.offset, h]

theorem bytesAt_eq {off : UInt64} {k pos n : Nat} (h : locate off f.sections = some (k, pos)) (hfit : pos + n ≤ (f.bufOf k).length) :
    (f.bytesAt off n : Prog ElfPanic σ _) = pure (((f.bufOf k).drop pos).take n) := by
  rw [bytesAt, offset_eq h, Prog.pure_bind]
  exact if_pos hfit

theorem stringAt_eq {off : UInt64} {k pos : Nat} {name : List UInt8} (h : locate off f.sections = some (k, pos))
    (hname : cString ((f.bufOf k).drop pos) = some name) : (f.stringAt off : Prog ElfPanic σ _) = pure name := by
  rw [stringAt, offset_eq h, Prog.pure_bind]
  simp only [hname]

/-- The file has a symbol table, and its section is where the header says. -/
structure HasSymtab (f : ElfFile) (shdr : Shdr64) (sec : ElfSection) : Prop where
  nonzero : f.symtab ≠ 0
  header : f.shdrs[f.symtab]? = some shdr
  entsize : shdr.shEntsize.toNat = f.eiClass.symSize
  inside : f.sections[f.symtab]? = some sec
  offset : sec.offset = shdr.shOffset
  size : sec.buf.length = shdr.shSize.toNat
  placed : Placed f.sections

/-- The number of symbols. -/
def numSymbols (shdr : Shdr64) : Nat := (shdr.shSize / shdr.shEntsize).toNat

theorem symSize_pos (cls : ElfClass) : 0 < cls.symSize := by
  cases cls <;> decide

namespace HasSymtab

variable {shdr : Shdr64} {sec : ElfSection}

theorem numSymbols_le (h : HasSymtab f shdr sec) : numSymbols shdr * f.eiClass.symSize ≤ sec.buf.length := by
  rw [numSymbols, UInt64.toNat_div, h.entsize, h.size]
  exact Nat.div_mul_le_self ..

theorem fits (h : HasSymtab f shdr sec) {i : Nat} (hi : i < numSymbols shdr) :
    i * f.eiClass.symSize + f.eiClass.symSize ≤ sec.buf.length := by
  rw [← Nat.succ_mul]
  exact (Nat.mul_le_mul_right _ hi).trans h.numSymbols_le

theorem symtabInfo_eq (h : HasSymtab f shdr sec) : (f.symtabInfo : Prog ElfPanic σ _) = pure (shdr, numSymbols shdr) := by
  have hne : shdr.shEntsize ≠ 0 := by
    intro h0
    have := h.entsize
    have := symSize_pos f.eiClass
    simp [h0] at *
    omega
  simp only [symtabInfo, h.header, if_neg hne, numSymbols]

/-- Where the search finds a symbol. -/
theorem locate_symbol (h : HasSymtab f shdr sec) {i : Nat} (hi : i < numSymbols shdr) :
    locate (f.symOffset shdr i) f.sections = some (f.symtab, i * f.eiClass.symSize) := by
  have hfit := h.fits hi
  have hpos := symSize_pos f.eiClass
  have hbelow := h.placed.below sec (List.mem_of_getElem? h.inside)
  have hprod : i * f.eiClass.symSize < 2 ^ 64 := by omega
  have hi' : i < 2 ^ 64 := lt_of_le_of_lt (Nat.le_mul_of_pos_right i hpos) hprod
  have hsym : f.eiClass.symSize < 2 ^ 64 := by omega
  have hoff : (f.symOffset shdr i).toNat = sec.offset.toNat + i * f.eiClass.symSize := by
    rw [symOffset, UInt64.toNat_add, UInt64.toNat_mul, UInt64.toNat_ofNat_of_lt' hi', UInt64.toNat_ofNat_of_lt' hsym,
      Nat.mod_eq_of_lt hprod, ← h.offset, Nat.mod_eq_of_lt (by omega)]
  rw [locate_of_placed h.placed h.inside (by omega) (by omega), hoff, Nat.add_sub_cancel_left]

/-- A symbol table of the same size is as good. -/
theorem setBuf (h : HasSymtab f shdr sec) {buf : List UInt8} (hlen : buf.length = sec.buf.length) :
    HasSymtab (f.setBuf f.symtab buf) shdr { sec with buf } where
  nonzero := h.nonzero
  header := h.header
  entsize := h.entsize
  inside := by simp [ElfFile.setBuf, h.inside]
  offset := h.offset
  size := hlen.trans h.size
  placed := h.placed.of_ranges (SameShape.setBuf f (by rw [hlen, bufOf_eq h.inside])).sections

theorem byteswapSymbolTable_eq (h : HasSymtab f shdr sec) :
    (f.byteswapSymbolTable : Prog ElfPanic σ _) =
      pure (f.setBuf f.symtab (swapFirst f.eiData f.eiClass.symSize f.eiClass.symWidths sec.buf (numSymbols shdr))) := by
  rw [byteswapSymbolTable, if_neg h.nonzero, h.symtabInfo_eq, Prog.pure_bind]
  have hstart : f.setBuf f.symtab (swapFirst f.eiData f.eiClass.symSize f.eiClass.symWidths sec.buf 0) = f := by
    rw [swapFirst, ← bufOf_eq h.inside, setBuf_bufOf]
  conv_lhs => rw [← hstart]
  refine Prog.iterate_pure
    (g := fun i => f.setBuf f.symtab (swapFirst f.eiData f.eiClass.symSize f.eiClass.symWidths sec.buf i)) fun i hi => ?_
  have hlen : (swapFirst f.eiData f.eiClass.symSize f.eiClass.symWidths sec.buf i).length = sec.buf.length :=
    length_swapFirst ((Nat.mul_le_mul_right _ hi.le).trans h.numSymbols_le)
  have h' := h.setBuf hlen
  have hbuf := bufOf_eq h'.inside
  have hfit := h'.fits hi
  have hloc := h'.locate_symbol hi
  rw [offset_eq hloc, Prog.pure_bind, bytesAt_eq hloc (by rw [hbuf]; exact hfit), Prog.pure_bind, hbuf]
  exact congrArg pure (setBuf_setBuf ..)

theorem chunk_swapped (h : HasSymtab f shdr sec) {i : Nat} (hi : i < numSymbols shdr) :
    chunk f.eiClass.symSize i (swapFirst f.eiData f.eiClass.symSize f.eiClass.symWidths sec.buf (numSymbols shdr)) =
      bswap f.eiData f.eiClass.symWidths (chunk f.eiClass.symSize i sec.buf) := by
  rw [chunk_swapFirst h.numSymbols_le (h.fits hi), if_pos hi]

theorem collect_symbols (h : HasSymtab f shdr sec) :
    (Prog.collect (fun i => do
      let bs ← f.bytesAt (f.symOffset shdr i) f.eiClass.symSize
      pure (readSym f.eiClass bs)) (numSymbols shdr) : Prog ElfPanic σ _) =
      pure ((List.range (numSymbols shdr)).map fun i => readSym f.eiClass (chunk f.eiClass.symSize i sec.buf)) := by
  refine Prog.collect_pure fun i hi => ?_
  rw [bytesAt_eq (h.locate_symbol hi) (by rw [bufOf_eq h.inside]; exact h.fits hi), Prog.pure_bind, bufOf_eq h.inside]
  rfl

end HasSymtab

end Lookup

end Rv8.Elf
