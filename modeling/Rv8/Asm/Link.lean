import Rv8.Asm.Assembler
/-!
# What a relocation writes

A relocation writes into one stretch of bytes of one section, its extent, which the
bytes at its place determine. It leaves the layout, the labels and every other byte, so
a relocation whose extent keeps apart finds its place as it was.
-/

namespace Rv8.Asm

open Rv8.Lib Prog

/-! ## Bytes and addresses -/

namespace Assembler

variable (a : Assembler)

def bytes (o : SectionOffset) (n : Nat) : List UInt8 :=
  match a.sections[o.index]? with
  | some s => s.buf.read o.offset n
  | none => []

/-- Where a section starts. -/
def start (i : Nat) : Nat := ((a.sections[i]?).map Section.offset).getD 0

def address (o : SectionOffset) : Nat := sizeT (a.start o.index + o.offset)

def labelAddress (l : Label) : Nat := if l.offset.index = shnAbs then sizeT l.offset.offset else a.address l.offset

/-- What `inst_fetch` gives: the instruction and its length. -/
def fetch (o : SectionOffset) : Nat × Nat :=
  let inst := leNat (a.bytes o 4)
  if inst &&& 0b11 ≠ 0b11 then (inst &&& 0xffff, 2)
  else if inst &&& 0b11100 ≠ 0b11100 then (inst, 4)
  else if inst &&& 0b111111 = 0b011111 then (inst ||| leNat (a.bytes (o.plus 4) 2) <<< 32, 6)
  else if inst &&& 0b1111111 = 0b0111111 then (inst ||| leNat (a.bytes (o.plus 4) 4) <<< 32, 8)
  else (0, 0)

/-- The instruction at a place. -/
def instAt (o : SectionOffset) : Decode := decodeInst .rv64 (a.fetch o).1

def lengthAt (o : SectionOffset) : Nat := (a.fetch o).2

end Assembler

/-- Two stretches of bytes that have none in common. -/
def Apart (o : SectionOffset) (n : Nat) (o' : SectionOffset) (n' : Nat) : Prop :=
  o.index ≠ o'.index ∨ o.offset + n ≤ o'.offset ∨ o'.offset + n' ≤ o.offset

instance (o : SectionOffset) (n : Nat) (o' : SectionOffset) (n' : Nat) : Decidable (Apart o n o' n') :=
  inferInstanceAs (Decidable (_ ∨ _ ∨ _))

theorem Apart.mono {o o' : SectionOffset} {n n' m m' : Nat} (h : Apart o n o' n') (hm : m ≤ n) (hm' : m' ≤ n') : Apart o m o' m' := by
  unfold Apart at *
  omega

theorem Apart.symm {o o' : SectionOffset} {n n' : Nat} (h : Apart o n o' n') : Apart o' n' o n := by
  unfold Apart at *
  omega

/-! ## Reading -/

theorem sectionAt_ok {i : Nat} {x : Section} {a t : Assembler} (h : sectionAt i a = .ok x t) : a = t ∧ a.sections[i]? = some x := by
  obtain ⟨a1, s1, h1, h2⟩ := of_bind_ok h
  obtain ⟨rfl, rfl⟩ := Outcome.ok.inj h1
  cases hs : a.sections[i]? with
  | none =>
    simp only [hs] at h2
    cases h2
  | some y =>
    simp only [hs] at h2
    obtain ⟨rfl, rfl⟩ := Outcome.ok.inj h2
    exact ⟨rfl, rfl⟩

theorem address_eq {a : Assembler} {o : SectionOffset} {x : Section} (h : a.sections[o.index]? = some x) :
    a.address o = sizeT (x.offset + o.offset) := by
  rw [Assembler.address, Assembler.start, h]
  rfl

theorem bytes_eq {a : Assembler} {o : SectionOffset} {x : Section} (h : a.sections[o.index]? = some x) (n : Nat) :
    a.bytes o n = x.buf.read o.offset n := by
  rw [Assembler.bytes, h]

theorem labelOffset_ok {l : Label} {n : Nat} {a t : Assembler} (h : labelOffset l a = .ok n t) : a = t ∧ n = a.address l.offset := by
  obtain ⟨x, s1, h1, h2⟩ := of_bind_ok h
  obtain ⟨rfl, hx⟩ := sectionAt_ok h1
  obtain ⟨rfl, rfl⟩ := Outcome.ok.inj h2
  exact ⟨rfl, (address_eq hx).symm⟩

theorem labelOff_ok {l : Label} {n : Nat} {a t : Assembler} (h : labelOff l a = .ok n t) : a = t ∧ n = a.labelAddress l := by
  unfold labelOff at h
  unfold Assembler.labelAddress
  split at h
  · rename_i habs
    obtain ⟨rfl, rfl⟩ := Outcome.ok.inj h
    exact ⟨rfl, (if_pos habs).symm⟩
  · rename_i habs
    obtain ⟨rfl, rfl⟩ := labelOffset_ok h
    exact ⟨rfl, (if_neg habs).symm⟩

theorem relocOffset_ok {r : Reloc} {n : Nat} {a t : Assembler} (h : relocOffset r a = .ok n t) : a = t ∧ n = a.address r.offset := by
  obtain ⟨x, s1, h1, h2⟩ := of_bind_ok h
  obtain ⟨rfl, hx⟩ := sectionAt_ok h1
  obtain ⟨rfl, rfl⟩ := Outcome.ok.inj h2
  exact ⟨rfl, (address_eq hx).symm⟩

theorem loadAt_ok {o : SectionOffset} {n v : Nat} {a t : Assembler} (h : loadAt o n a = .ok v t) : a = t ∧ v = leNat (a.bytes o n) := by
  obtain ⟨x, s1, h1, h2⟩ := of_bind_ok h
  obtain ⟨rfl, hx⟩ := sectionAt_ok h1
  rw [bytes_eq hx]
  split at h2
  · obtain ⟨rfl, rfl⟩ := Outcome.ok.inj h2
    exact ⟨rfl, rfl⟩
  · cases h2

theorem instFetch_ok {o : SectionOffset} {r : Nat × Nat} {a t : Assembler} (h : instFetch o a = .ok r t) : a = t ∧ r = a.fetch o := by
  obtain ⟨inst, s1, h1, h2⟩ := of_bind_ok h
  obtain ⟨rfl, rfl⟩ := loadAt_ok h1
  unfold Assembler.fetch
  dsimp only
  split at h2
  · rename_i hc
    obtain ⟨rfl, rfl⟩ := Outcome.ok.inj h2
    exact ⟨rfl, (if_pos hc).symm⟩
  · rename_i hc
    rw [if_neg hc]
    split at h2
    · rename_i hc
      obtain ⟨rfl, rfl⟩ := Outcome.ok.inj h2
      exact ⟨rfl, (if_pos hc).symm⟩
    · rename_i hc
      rw [if_neg hc]
      split at h2
      · rename_i hc
        obtain ⟨more, s2, h3, h4⟩ := of_bind_ok h2
        obtain ⟨rfl, rfl⟩ := loadAt_ok h3
        obtain ⟨rfl, rfl⟩ := Outcome.ok.inj h4
        exact ⟨rfl, (if_pos hc).symm⟩
      · rename_i hc
        rw [if_neg hc]
        split at h2
        · rename_i hc
          obtain ⟨more, s2, h3, h4⟩ := of_bind_ok h2
          obtain ⟨rfl, rfl⟩ := loadAt_ok h3
          obtain ⟨rfl, rfl⟩ := Outcome.ok.inj h4
          exact ⟨rfl, (if_pos hc).symm⟩
        · rename_i hc
          obtain ⟨rfl, rfl⟩ := Outcome.ok.inj h2
          exact ⟨rfl, (if_neg hc).symm⟩

/-! ## The first byte -/

/-- Bits of the first byte. -/
theorem and_of_lt_256 {m : Nat} (hm : 0xff &&& m = m) (x : Nat) : x &&& m = x % 256 &&& m := by
  have h : x &&& 0xff = x % 256 := Nat.and_two_pow_sub_one_eq_mod x 8
  rw [← h, Nat.and_assoc, hm]

theorem instLength_mod (x : Nat) : instLength x = instLength (x % 256) := by
  unfold instLength
  rw [and_of_lt_256 (m := 0b11) (by decide) x, and_of_lt_256 (m := 0b11100) (by decide) x, and_of_lt_256 (m := 0b111111) (by decide) x,
    and_of_lt_256 (m := 0b1111111) (by decide) x]

theorem leNat_bytes_mod (a : Assembler) (o : SectionOffset) (n : Nat) : leNat (a.bytes o (n + 1)) % 256 = leNat (a.bytes o 1) := by
  unfold Assembler.bytes
  cases a.sections[o.index]? with
  | none => rfl
  | some x =>
    have hb := (x.buf.byte (o.offset + 0)).toNat_lt
    simp only [File.read, List.range_succ_eq_map, List.map_cons, leNat, List.range_zero, List.map_nil]
    omega

theorem instLength_bytes (a : Assembler) (o : SectionOffset) (n : Nat) :
    instLength (leNat (a.bytes o (n + 1))) = instLength (leNat (a.bytes o 1)) := by
  rw [instLength_mod, leNat_bytes_mod]

theorem low_bytes (a : Assembler) (o : SectionOffset) (n : Nat) : leNat (a.bytes o (n + 1)) &&& 3 = leNat (a.bytes o 1) &&& 3 := by
  rw [and_of_lt_256 (by decide), leNat_bytes_mod]

namespace Assembler

/-- At most so many bytes hold the instruction that is written back at a place. -/
def siteLength (a : Assembler) (o : SectionOffset) : Nat := if leNat (a.bytes o 1) &&& 3 = 3 then 4 else 2

/-- The bytes that a relocation may write, from its place on. -/
def extent (a : Assembler) (r : Reloc) : Nat :=
  match r.relaType with
  | .word32 => 4
  | .word64 => 8
  | .other _ => 0
  | .call =>
    let pcOffset := instLength (leNat (a.bytes r.offset 1))
    pcOffset + a.siteLength (r.offset.plus pcOffset)
  | _ => a.siteLength r.offset

end Assembler

theorem lengthAt_eq (a : Assembler) (o : SectionOffset) : a.lengthAt o = instLength (leNat (a.bytes o 1)) := by
  rw [← instLength_bytes a o 3]
  unfold Assembler.lengthAt Assembler.fetch instLength
  dsimp only
  split_ifs <;> rfl

theorem fetch_low {a : Assembler} {o : SectionOffset} (h : leNat (a.bytes o 1) &&& 3 ≠ 3) : (a.fetch o).1 &&& 3 ≠ 3 := by
  rw [← low_bytes a o 3] at h
  have hf : (a.fetch o).1 = leNat (a.bytes o 4) &&& 0xffff := by
    unfold Assembler.fetch
    dsimp only
    rw [if_pos h]
  rw [hf, Nat.and_assoc]
  exact h

/-! ## Fetching again -/

theorem length_bytes_le (a : Assembler) (o : SectionOffset) (n : Nat) : (a.bytes o n).length ≤ n := by
  unfold Assembler.bytes
  split
  · rw [File.length_read]
  · exact Nat.zero_le n

theorem leNat_bytes_lt (a : Assembler) (o : SectionOffset) (n : Nat) : leNat (a.bytes o n) < 256 ^ n :=
  (leNat_lt _).trans_le (Nat.pow_le_pow_right (by decide) (length_bytes_le a o n))

theorem leNat_bytes_half (a : Assembler) (o : SectionOffset) : leNat (a.bytes o 4) &&& 0xffff = leNat (a.bytes o 2) := by
  rw [show leNat (a.bytes o 4) &&& 0xffff = leNat (a.bytes o 4) % 2 ^ 16 from Nat.and_two_pow_sub_one_eq_mod _ 16]
  have hlt := leNat_bytes_lt a o 2
  cases hx : a.sections[o.index]? with
  | none =>
    unfold Assembler.bytes
    rw [hx]
    rfl
  | some x =>
    rw [bytes_eq hx] at hlt ⊢
    rw [bytes_eq hx, show (4 : Nat) = 2 + 2 from rfl, File.read_add, leNat_append, File.length_read]
    omega

/-- An instruction of 16 or 32 bits is fetched from its own bytes. -/
theorem fetch_eq_of_bytes {a : Assembler} {o : SectionOffset} {inst : Nat} (hlen : instLength inst = 2 ∨ instLength inst = 4)
    (hb : leNat (a.bytes o (instLength inst)) = inst) : a.fetch o = (inst, instLength inst) := by
  unfold Assembler.fetch
  dsimp only
  rcases hlen with h | h <;> rw [h] at hb ⊢
  · have hlow : leNat (a.bytes o 4) &&& 3 ≠ 3 := by
      rw [low_bytes a o 3, ← low_bytes a o 1, hb]
      exact instLength_eq_two.1 h
    rw [if_pos hlow, leNat_bytes_half, hb]
  · obtain ⟨h3, h28⟩ := instLength_eq_four.1 h
    rw [hb, if_neg (not_not.2 h3), if_pos h28]

/-- A place that holds a legal instruction has it in 16 or 32 bits. -/
theorem fetch_of_legal {a : Assembler} {o : SectionOffset} (h0 : a.lengthAt o ≠ 0) (h : (a.instAt o).op ≠ .illegal) :
    instLength (a.fetch o).1 = a.lengthAt o ∧ (a.lengthAt o = 2 ∨ a.lengthAt o = 4) ∧ leNat (a.bytes o (a.lengthAt o)) = (a.fetch o).1 := by
  rw [Assembler.instAt, decodeInst_op] at h
  have hlen := instLength_of_mem (fixesLength_decodeInstOp h) (decodeInstOp_mem h)
  have hlong : ∀ more, instLength (leNat (a.bytes o 4) ||| more <<< 32) = instLength (leNat (a.bytes o 4)) := by
    intro more
    rw [instLength_mod, instLength_mod (leNat _), show (256 : Nat) = 2 ^ 8 from rfl, Nat.or_mod_two_pow, Nat.shiftLeft_eq,
      show (2 : Nat) ^ 32 = 2 ^ 24 * 2 ^ 8 by norm_num, ← Nat.mul_assoc, Nat.mul_mod_left, Nat.or_zero]
  by_cases h3 : leNat (a.bytes o 4) &&& 3 ≠ 3
  · have hf : a.fetch o = (leNat (a.bytes o 4) &&& 0xffff, 2) := if_pos h3
    have hl : a.lengthAt o = 2 := by rw [Assembler.lengthAt, hf]
    rw [hl, hf]
    refine ⟨instLength_eq_two.2 ?_, .inl rfl, (leNat_bytes_half a o).symm⟩
    rw [Nat.and_assoc]
    exact h3
  · by_cases h28 : leNat (a.bytes o 4) &&& 28 ≠ 28
    · have hf : a.fetch o = (leNat (a.bytes o 4), 4) := (if_neg h3).trans (if_pos h28)
      have hl : a.lengthAt o = 4 := by rw [Assembler.lengthAt, hf]
      rw [hl, hf]
      exact ⟨instLength_eq_four.2 ⟨not_not.1 h3, h28⟩, .inr rfl, rfl⟩
    -- longer instructions are illegal
    · have hop : instLength (a.fetch o).1 = 2 ∨ instLength (a.fetch o).1 = 4 := by
        rw [hlen, opLength]
        split
        · exact .inr rfl
        · exact .inl rfl
      have hsame : instLength (a.fetch o).1 = instLength (leNat (a.bytes o 4)) := by
        unfold Assembler.lengthAt at h0
        unfold Assembler.fetch at h0 ⊢
        dsimp only at h0 ⊢
        rw [if_neg h3, if_neg h28] at h0 ⊢
        split_ifs at h0 ⊢
        · exact hlong _
        · exact hlong _
        · exact absurd rfl h0
      rw [hsame, instLength_eq_two, instLength_eq_four] at hop
      exact absurd hop (by simp [h3, h28])

/-! ## Writing -/

/-- The layout, the labels and the sizes of the sections. -/
structure SameShape (a t : Assembler) : Prop where
  sections : t.sections.map (fun x => (x.offset, x.buf.size)) = a.sections.map fun x => (x.offset, x.buf.size)
  byName : t.labelsByName = a.labelsByName
  byOffset : t.labelsByOffset = a.labelsByOffset

/-- Nothing has changed but bytes of one stretch. -/
structure Wrote (a : Assembler) (o : SectionOffset) (n : Nat) (t : Assembler) : Prop where
  shape : SameShape a t
  relocs : t.relocsByOffset = a.relocsByOffset
  bytes : ∀ o' n', Apart o' n' o n → t.bytes o' n' = a.bytes o' n'

theorem SameShape.refl (a : Assembler) : SameShape a a := ⟨rfl, rfl, rfl⟩

theorem SameShape.trans {a s t : Assembler} (h : SameShape a s) (h' : SameShape s t) : SameShape a t :=
  ⟨h'.sections.trans h.sections, h'.byName.trans h.byName, h'.byOffset.trans h.byOffset⟩

theorem Wrote.refl (a : Assembler) (o : SectionOffset) (n : Nat) : Wrote a o n a := ⟨.refl a, rfl, fun _ _ _ => rfl⟩

theorem Wrote.trans {a s t : Assembler} {o : SectionOffset} {n : Nat} (h : Wrote a o n s) (h' : Wrote s o n t) : Wrote a o n t :=
  ⟨h.shape.trans h'.shape, h'.relocs.trans h.relocs, fun o' n' hap => (h'.bytes o' n' hap).trans (h.bytes o' n' hap)⟩

/-- A stretch inside of another one. -/
theorem Wrote.widen {a t : Assembler} {o : SectionOffset} {k n m : Nat} (h : Wrote a (o.plus k) n t) (hm : k + n ≤ m) : Wrote a o m t := by
  refine ⟨h.shape, h.relocs, fun o' n' hap => h.bytes o' n' ?_⟩
  unfold Apart SectionOffset.plus at *
  dsimp only at *
  omega

theorem sections_writeAt (a : Assembler) (o : SectionOffset) (bs : List UInt8) (i : Nat) :
    (writeAt a o bs).sections[i]? =
      (a.sections[i]?).map fun x => if o.index = i then { x with buf := x.buf.write o.offset bs } else x :=
  List.getElem?_modify ..

theorem size_write_of_le {f : File} {offset : Nat} {bs : List UInt8} (h : offset + bs.length ≤ f.size) : (f.write offset bs).size = f.size := by
  unfold File.write
  dsimp only
  split
  · rfl
  · exact Nat.max_eq_left h

theorem wrote_writeAt {a : Assembler} {o : SectionOffset} {bs : List UInt8} {x : Section} (hx : a.sections[o.index]? = some x)
    (hfit : o.offset + bs.length ≤ x.buf.size) : Wrote a o bs.length (writeAt a o bs) := by
  refine ⟨⟨?_, rfl, rfl⟩, rfl, fun o' n' hap => ?_⟩
  · refine List.ext_getElem? fun i => ?_
    rw [List.getElem?_map, List.getElem?_map, sections_writeAt]
    by_cases hi : o.index = i
    · subst hi
      simp [hx, size_write_of_le hfit]
    · simp [hi]
  · unfold Assembler.bytes
    rw [sections_writeAt]
    by_cases hi : o.index = o'.index
    · rw [← hi, hx, Option.map_some, if_pos rfl]
      refine File.read_write_of_disjoint _ ?_
      unfold Apart at hap
      omega
    · simp [hi]

theorem bytes_writeAt {a : Assembler} {o : SectionOffset} {bs : List UInt8} {x : Section} (hx : a.sections[o.index]? = some x) :
    (writeAt a o bs).bytes o bs.length = bs := by
  unfold Assembler.bytes
  rw [sections_writeAt, hx, Option.map_some, if_pos rfl]
  exact File.read_write_same ..

theorem storeAt_ok {o : SectionOffset} {n v : Nat} {u : Unit} {a t : Assembler} (h : storeAt o n v a = .ok u t) :
    Wrote a o n t ∧ t.bytes o n = leBytes n v := by
  obtain ⟨x, s1, h1, h2⟩ := of_bind_ok h
  obtain ⟨rfl, hx⟩ := sectionAt_ok h1
  split at h2
  · rename_i hfit
    obtain ⟨-, rfl⟩ := Outcome.ok.inj h2
    have hfit' : o.offset + (leBytes n v).length ≤ x.buf.size := by rw [length_leBytes]; exact hfit
    have hw := wrote_writeAt hx hfit'
    have hb : (writeAt a o (leBytes n v)).bytes o (leBytes n v).length = leBytes n v := bytes_writeAt hx
    rw [length_leBytes] at hw hb
    exact ⟨hw, hb⟩
  · cases h2

/-! ## Patching an instruction -/

theorem reencodeInst_ok {dec : Decode} {o : SectionOffset} {u : Unit} {a t : Assembler} (h : reencodeInst dec o a = .ok u t) :
    ∃ inst, encodeInst dec = some inst ∧
      ((instLength inst = 2 ∨ instLength inst = 4) ∧ Wrote a o (instLength inst) t ∧
          t.bytes o (instLength inst) = leBytes (instLength inst) inst ∨
        instLength inst ≠ 2 ∧ instLength inst ≠ 4 ∧ t = a) := by
  unfold reencodeInst at h
  cases he : encodeInst dec with
  | none =>
    rw [he] at h
    cases h
  | some inst =>
    rw [he] at h
    refine ⟨inst, rfl, ?_⟩
    dsimp only at h
    split at h
    · rename_i h2
      obtain ⟨hw, hb⟩ := storeAt_ok h
      rw [show inst &&& 0xffff = inst % 256 ^ 2 from Nat.and_two_pow_sub_one_eq_mod inst 16, leBytes_mod] at hb
      rw [h2]
      exact .inl ⟨.inl rfl, hw, hb⟩
    · rename_i h2
      split at h
      · rename_i h4
        obtain ⟨hw, hb⟩ := storeAt_ok h
        rw [show inst &&& 0xffffffff = inst % 256 ^ 4 from Nat.and_two_pow_sub_one_eq_mod inst 32, leBytes_mod] at hb
        rw [h4]
        exact .inl ⟨.inr rfl, hw, hb⟩
      · rename_i h4
        obtain ⟨-, rfl⟩ := Outcome.ok.inj h
        exact .inr ⟨h2, h4, rfl⟩

/-- What is written back at a place is no longer than what the place holds; `s` is the state it was read in. -/
theorem wrote_reencodeInst {dec : Decode} {o : SectionOffset} {u : Unit} {s a t : Assembler} (h : reencodeInst dec o a = .ok u t)
    (hop : dec.op = (s.instAt o).op) : Wrote a o (s.siteLength o) t := by
  obtain ⟨inst, he, ⟨hlen, hw, -⟩ | ⟨-, -, rfl⟩⟩ := reencodeInst_ok h
  · refine Wrote.widen (k := 0) hw ?_
    unfold Assembler.siteLength
    split
    · omega
    · rename_i hlow
      rw [instLength_encodeInst (hop.trans (decodeInst_op _)) (fetch_low hlow) he]
  · exact .refl ..

theorem patchImm_ok {dec : Decode} {o : SectionOffset} {imm : Int} {b : Bool} {a t : Assembler} (h : patchImm dec o imm a = .ok b t) :
    b = true ∧ reencodeInst { dec with imm } o a = .ok () t := by
  obtain ⟨u, s1, h1, h2⟩ := of_bind_ok h
  obtain ⟨rfl, rfl⟩ := Outcome.ok.inj h2
  exact ⟨rfl, h1⟩

/-- The immediate that `relocate` gives the instruction at the place, for the relocations that change one. -/
def Assembler.newImm (a : Assembler) (r : Reloc) (labelOff relocOff : Nat) : Option Int :=
  match r.relaType with
  | .jal | .branch => some (s32 (sizeT (labelOff - relocOff)))
  | .hi20 => some (upper labelOff)
  | .lo12_i | .lo12_s => some (lower labelOff)
  | .pcrel_hi20 | .call => some (upper (sizeT (labelOff - relocOff)))
  | .pcrel_lo12_i | .pcrel_lo12_s => do
    let hi ← a.lookupReloc ⟨r.offset.index, labelOff⟩
    let target ← a.lookupLabel hi.name
    some (lower (sizeT (a.address target.offset - a.address hi.offset)))
  | .word32 | .word64 | .other _ => none

/-- A call that ends in a patch of the place, after writes inside of the extent. -/
structure Patches (a : Assembler) (o : SectionOffset) (n : Nat) (imm : Int) (b : Bool) (t : Assembler) : Prop where
  resolved : b = true
  wrote : Wrote a o n t
  patched : ∃ s, Wrote a o n s ∧ reencodeInst { a.instAt o with imm } o s = .ok () t

theorem patches_patchImm {a t : Assembler} {o : SectionOffset} {imm : Int} {b : Bool} (h : patchImm (a.instAt o) o imm a = .ok b t) :
    Patches a o (a.siteLength o) imm b t := by
  obtain ⟨rfl, h1⟩ := patchImm_ok h
  exact ⟨rfl, wrote_reencodeInst h1 rfl, a, .refl .., h1⟩

theorem two_le_siteLength (a : Assembler) (o : SectionOffset) : 2 ≤ a.siteLength o := by
  unfold Assembler.siteLength
  split <;> omega

theorem siteLength_le_call (a : Assembler) (o : SectionOffset) :
    a.siteLength o ≤ instLength (leNat (a.bytes o 1)) + a.siteLength (o.plus (instLength (leNat (a.bytes o 1)))) := by
  by_cases hlow : leNat (a.bytes o 1) &&& 3 = 3
  · by_cases h0 : instLength (leNat (a.bytes o 1)) = 0
    · rw [h0]
      exact Nat.le_of_eq (Nat.zero_add _).symm
    · have h4 : 4 ≤ instLength (leNat (a.bytes o 1)) := by
        unfold instLength at h0 ⊢
        split_ifs at h0 ⊢ <;> omega
      rw [Assembler.siteLength, if_pos hlow]
      omega
  · rw [Assembler.siteLength, if_neg hlow]
    exact (two_le_siteLength a _).trans (Nat.le_add_left ..)

theorem applyReloc_cases {r : Reloc} {labelOff relocOff : Nat} {b : Bool} {a t : Assembler}
    (h : applyReloc r labelOff relocOff (a.lengthAt r.offset) (a.instAt r.offset) a = .ok b t) :
    (∃ imm, a.newImm r labelOff relocOff = some imm ∧ Patches a r.offset (a.extent r) imm b t) ∨
      a.newImm r labelOff relocOff = none ∧ Wrote a r.offset (a.extent r) t := by
  unfold applyReloc at h
  unfold Assembler.newImm Assembler.extent
  cases htype : r.relaType with
  | jal | branch | hi20 | lo12_i | lo12_s | pcrel_hi20 =>
    rw [htype] at h
    exact .inl ⟨_, rfl, patches_patchImm h⟩
  | pcrel_lo12_i | pcrel_lo12_s =>
    rw [htype] at h
    obtain ⟨a1, s1, h1, h2⟩ := of_bind_ok h
    obtain ⟨rfl, rfl⟩ := Outcome.ok.inj h1
    dsimp only at h2 ⊢
    cases hhi : a.lookupReloc ⟨r.offset.index, labelOff⟩ with
    | none =>
      rw [hhi] at h2
      obtain ⟨-, rfl⟩ := Outcome.ok.inj h2
      exact .inr ⟨rfl, .refl ..⟩
    | some hi =>
      rw [hhi] at h2
      obtain ⟨hiOff, s2, h3, h4⟩ := of_bind_ok h2
      obtain ⟨rfl, rfl⟩ := relocOffset_ok h3
      obtain ⟨a2, s3, h5, h6⟩ := of_bind_ok h4
      obtain ⟨rfl, rfl⟩ := Outcome.ok.inj h5
      cases htarget : a.lookupLabel hi.name with
      | none =>
        rw [htarget] at h6
        obtain ⟨-, rfl⟩ := Outcome.ok.inj h6
        exact .inr ⟨by simp [htarget], .refl ..⟩
      | some target =>
        rw [htarget] at h6
        obtain ⟨targetOff, s4, h7, h8⟩ := of_bind_ok h6
        obtain ⟨rfl, rfl⟩ := labelOffset_ok h7
        exact .inl ⟨_, by simp [htarget], patches_patchImm h8⟩
  | call =>
    rw [htype] at h
    obtain ⟨u, s1, h1, h2⟩ := of_bind_ok h
    obtain ⟨inst, s2, h3, h4⟩ := of_bind_ok h1
    obtain ⟨hs2, hinst⟩ := instFetch_ok h3
    obtain ⟨rfl, h5⟩ := patchImm_ok h2
    rw [← hs2, hinst, lengthAt_eq] at h4
    have hnext : Wrote a r.offset _ s1 := (wrote_reencodeInst (s := a) h4 rfl).widen (Nat.le_refl _)
    have hsite : Wrote s1 r.offset _ t :=
      Wrote.widen (k := 0) (wrote_reencodeInst (s := a) h5 rfl) ((Nat.zero_add _).le.trans (siteLength_le_call a r.offset))
    exact .inl ⟨_, rfl, rfl, hnext.trans hsite, s1, hnext, h5⟩
  | word32 | word64 =>
    rw [htype] at h
    obtain ⟨u, s1, h1, h2⟩ := of_bind_ok h
    obtain ⟨-, rfl⟩ := Outcome.ok.inj h2
    exact .inr ⟨rfl, (storeAt_ok h1).1⟩
  | other type =>
    rw [htype] at h
    obtain ⟨-, rfl⟩ := Outcome.ok.inj h
    exact .inr ⟨rfl, .refl ..⟩

/-! ## One relocation -/

theorem relocate_cases {key : SectionOffset} {b : Bool} {a t : Assembler} (h : relocate key a = .ok b t) :
    ∃ r, a.lookupReloc key = some r ∧
      (a.lookupLabelOf r = none ∧ b = false ∧ t = a ∨
        ∃ label s, a.lookupLabelOf r = some label ∧ s = a.setRelocName key label.name ∧
          applyReloc r (a.labelAddress label) (a.address r.offset) (s.lengthAt r.offset) (s.instAt r.offset) s = .ok b t) := by
  obtain ⟨a1, s1, h1, h2⟩ := of_bind_ok h
  obtain ⟨rfl, rfl⟩ := Outcome.ok.inj h1
  cases hr : a.lookupReloc key with
  | none =>
    simp only [hr] at h2
    cases h2
  | some r =>
    simp only [hr] at h2
    refine ⟨r, rfl, ?_⟩
    cases hl : a.lookupLabelOf r with
    | none =>
      simp only [hl] at h2
      obtain ⟨rfl, rfl⟩ := Outcome.ok.inj h2
      exact .inl ⟨rfl, rfl, rfl⟩
    | some label =>
      simp only [hl] at h2
      obtain ⟨u, s2, h3, h4⟩ := of_bind_ok h2
      obtain ⟨-, rfl⟩ := Outcome.ok.inj h3
      obtain ⟨labelOff, s3, h5, h6⟩ := of_bind_ok h4
      obtain ⟨rfl, rfl⟩ := labelOff_ok h5
      obtain ⟨relocOff, s4, h7, h8⟩ := of_bind_ok h6
      obtain ⟨rfl, rfl⟩ := relocOffset_ok h7
      obtain ⟨inst, s5, h9, h10⟩ := of_bind_ok h8
      obtain ⟨rfl, rfl⟩ := instFetch_ok h9
      exact .inr ⟨label, _, rfl, rfl, h10⟩

end Rv8.Asm
