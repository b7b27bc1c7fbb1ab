import Rv8.Asm.Link
/-!
# Linked code reaches its labels

`link` over a whole assembler state: where the extents of the relocations keep apart,
each of them finds its place as it was before linking and nothing touches it later. A
jump, a branch and the low half of a pc-relative address then reach their label where
the distance is one that the instruction at the place can hold. `relocate` never asks
whether it is, and it looks the high half up by an address where the map has offsets.
-/

namespace Rv8.Asm

open Rv8.Lib Prog

/-! ## What linking leaves alone -/

namespace SameShape

variable {a t : Assembler} (h : SameShape a t)
include h

theorem start_eq (i : Nat) : t.start i = a.start i := by
  have hi := congrArg (fun l => (l[i]?).map Prod.fst) h.sections
  simp only [List.getElem?_map, Option.map_map] at hi
  exact congrArg (·.getD 0) hi

theorem address_eq (o : SectionOffset) : t.address o = a.address o := by
  rw [Assembler.address, Assembler.address, h.start_eq]

theorem labelAddress_eq (l : Label) : t.labelAddress l = a.labelAddress l := by
  rw [Assembler.labelAddress, Assembler.labelAddress, h.address_eq]

theorem lookupLabel_eq (name : Name) : t.lookupLabel name = a.lookupLabel name := by
  rw [Assembler.lookupLabel, Assembler.lookupLabel, h.byName]

theorem lookupLabelOf_eq (r : Reloc) : t.lookupLabelOf r = a.lookupLabelOf r := by
  rw [Assembler.lookupLabelOf, Assembler.lookupLabelOf, h.byOffset, h.lookupLabel_eq]

end SameShape

namespace Assembler

variable (a : Assembler)

/-- Relocations whose label exists. -/
def Resolved (r : Reloc) : Prop := a.lookupReloc r.offset = some r ∧ a.lookupLabelOf r ≠ none

/-- No byte is written by two relocations. -/
def RelocsApart : Prop :=
  ∀ r r', a.Resolved r → a.Resolved r' → r.offset ≠ r'.offset → Apart r.offset (a.extent r) r'.offset (a.extent r')

/-- The name that `relocate` leaves in a relocation. -/
def resolvedName (r : Reloc) : Name := ((a.lookupLabelOf r).map Label.name).getD r.name

end Assembler

/-- Midway through `link`: `a` is the state it started from, and the relocations `done` are behind. -/
structure Linking (a : Assembler) (done : List SectionOffset) (s : Assembler) : Prop where
  shape : SameShape a s
  relocs : ∀ key, s.lookupReloc key =
    (a.lookupReloc key).map fun r => if key ∈ done then { r with name := a.resolvedName r } else r
  bytes : ∀ o n, (∀ r, a.Resolved r → r.offset ∈ done → Apart o n r.offset (a.extent r)) → s.bytes o n = a.bytes o n

theorem linking_nil (a : Assembler) : Linking a [] a := by
  refine ⟨.refl a, fun key => ?_, fun _ _ _ => rfl⟩
  simp

theorem extent_congr {a s : Assembler} {r : Reloc}
    (h : ∀ k n, k + n ≤ a.extent r → s.bytes (r.offset.plus k) n = a.bytes (r.offset.plus k) n) : s.extent r = a.extent r := by
  unfold Assembler.extent at h ⊢
  cases htype : r.relaType <;> simp only [htype] at h ⊢
  case call =>
    have hnext := two_le_siteLength a (r.offset.plus (instLength (leNat (a.bytes r.offset 1))))
    have h0 : s.bytes r.offset 1 = a.bytes r.offset 1 := h 0 1 (by omega)
    rw [h0]
    unfold Assembler.siteLength
    rw [h _ 1 (by omega)]
  all_goals
    have hsite := two_le_siteLength a r.offset
    have h0 : s.bytes r.offset 1 = a.bytes r.offset 1 := h 0 1 (by omega)
    unfold Assembler.siteLength
    rw [h0]

section Step
variable {a s t : Assembler} {done : List SectionOffset} {key : SectionOffset} {b : Bool}

/-- The bytes in the extent of a relocation that is not done are those of the start. -/
theorem Linking.bytes_extent (hI : Linking a done s) (hap : a.RelocsApart) {r : Reloc} (hr : a.Resolved r) (hnot : r.offset ∉ done) {k n : Nat}
    (hk : k + n ≤ a.extent r) : s.bytes (r.offset.plus k) n = a.bytes (r.offset.plus k) n := by
  refine hI.bytes _ _ fun r' hr' hdone => ?_
  have hne : r.offset ≠ r'.offset := fun heq => hnot (heq ▸ hdone)
  have h := hap r r' hr hr' hne
  unfold Apart SectionOffset.plus at *
  dsimp only at *
  omega

theorem Linking.lookupReloc (hI : Linking a done s) (hnot : key ∉ done) : s.lookupReloc key = a.lookupReloc key := by
  rw [hI.relocs]
  simp [hnot]

/-- What a step does, in terms of the state linking started from. -/
theorem Linking.relocate (hI : Linking a done s) (hap : a.RelocsApart) (hnot : key ∉ done) (h : Asm.relocate key s = .ok b t) :
    ∃ r, a.lookupReloc key = some r ∧
      (a.lookupLabelOf r = none ∧ b = false ∧ t = s ∨
        ∃ label, a.lookupLabelOf r = some label ∧
          ((∃ imm, (s.setRelocName key label.name).newImm r (a.labelAddress label) (a.address key) = some imm ∧
              Patches (s.setRelocName key label.name) key (a.extent r) imm b t) ∨
            (s.setRelocName key label.name).newImm r (a.labelAddress label) (a.address key) = none ∧
              Wrote (s.setRelocName key label.name) key (a.extent r) t)) := by
  obtain ⟨r, hr, hcases⟩ := relocate_cases h
  rw [hI.lookupReloc hnot] at hr
  obtain rfl : r.offset = key := OrderedMap.key_of_find hr
  refine ⟨r, hr, ?_⟩
  rw [hI.shape.lookupLabelOf_eq] at hcases
  rcases hcases with ⟨hnone, hb, ht⟩ | ⟨label, s1, hl, rfl, happly⟩
  · exact .inl ⟨hnone, hb, ht⟩
  · refine .inr ⟨label, hl, ?_⟩
    have hres : a.Resolved r := ⟨hr, by rw [hl]; nofun⟩
    have hext : (s.setRelocName r.offset label.name).extent r = a.extent r :=
      extent_congr fun k n hk => hI.bytes_extent hap hres hnot hk
    rw [hI.shape.labelAddress_eq, hI.shape.address_eq] at happly
    have hc := applyReloc_cases happly
    rwa [hext] at hc

theorem setRelocName_lookup (s : Assembler) (key : SectionOffset) (name : Name) (k : SectionOffset) :
    (s.setRelocName key name).lookupReloc k = (s.lookupReloc k).map fun r => if k = key then { r with name } else r :=
  s.relocsByOffset.find_modify key (fun r => { r with name }) (fun _ => rfl) k

/-- A step adds its key to those that are done, and writes nothing outside of its extent. -/
theorem Linking.step (hI : Linking a done s) (hap : a.RelocsApart) (hnot : key ∉ done) (h : Asm.relocate key s = .ok b t) :
    Linking a (key :: done) t ∧
      ∀ o n, (∀ r, a.Resolved r → r.offset = key → Apart o n key (a.extent r)) → t.bytes o n = s.bytes o n := by
  obtain ⟨r, hr, hcases⟩ := hI.relocate hap hnot h
  obtain rfl : r.offset = key := OrderedMap.key_of_find hr
  rcases hcases with ⟨hnone, -, rfl⟩ | ⟨label, hl, hcases⟩
  · have hname : ({ r with name := a.resolvedName r } : Reloc) = r := by
      rw [Assembler.resolvedName, hnone]
      rfl
    refine ⟨⟨hI.shape, fun k => ?_, fun o n hn => ?_⟩, fun _ _ _ => rfl⟩
    · rw [hI.relocs]
      by_cases hk : k = r.offset
      · rw [hk, hr]
        simp [hnot, hname]
      · simp [hk]
    · exact hI.bytes o n fun r' hr' hdone => hn r' hr' (List.mem_cons_of_mem _ hdone)
  · have hres : a.Resolved r := ⟨hr, by rw [hl]; nofun⟩
    have hw : Wrote (s.setRelocName r.offset label.name) r.offset (a.extent r) t := by
      rcases hcases with ⟨imm, -, hp⟩ | ⟨-, hw⟩
      · exact hp.wrote
      · exact hw
    refine ⟨⟨hI.shape.trans ⟨hw.shape.sections, hw.shape.byName, hw.shape.byOffset⟩, fun k => ?_, fun o n hn => ?_⟩, fun o n hn => ?_⟩
    · have hfind : t.lookupReloc k = (s.setRelocName r.offset label.name).lookupReloc k := by
        rw [Assembler.lookupReloc, hw.relocs]
        rfl
      rw [hfind, setRelocName_lookup, hI.relocs]
      by_cases hk : k = r.offset
      · rw [hk, hr]
        simp [hnot, Assembler.resolvedName, hl]
      · simp [hk, Function.comp_def]
    · rw [hw.bytes o n (hn r hres List.mem_cons_self)]
      exact hI.bytes o n fun r' hr' hdone => hn r' hr' (List.mem_cons_of_mem _ hdone)
    · exact hw.bytes o n (hn r hres rfl)

/-! ## The patched instruction -/

theorem fetch_congr {o : SectionOffset} (h0 : a.lengthAt o ≠ 0) (hop : (a.instAt o).op ≠ .illegal)
    (hb : t.bytes o (a.lengthAt o) = a.bytes o (a.lengthAt o)) : t.fetch o = a.fetch o := by
  obtain ⟨hlen, h24, hw⟩ := fetch_of_legal h0 hop
  have hf : t.fetch o = ((a.fetch o).1, instLength (a.fetch o).1) := by
    refine fetch_eq_of_bytes (by rwa [hlen]) ?_
    rw [hlen, hb, hw]
  rw [hf, hlen]
  rfl

theorem siteLength_of_lengthAt {o : SectionOffset} (h24 : a.lengthAt o = 2 ∨ a.lengthAt o = 4) : a.siteLength o = a.lengthAt o := by
  rw [lengthAt_eq] at h24 ⊢
  unfold Assembler.siteLength
  rcases h24 with h | h <;> rw [h]
  · rw [if_neg (instLength_eq_two.1 h)]
  · rw [if_pos (instLength_eq_four.1 h).1]

/-- The instruction is inside of the extent. -/
theorem lengthAt_le_extent {r : Reloc} (h24 : a.lengthAt r.offset = 2 ∨ a.lengthAt r.offset = 4)
    (htype : r.relaType ≠ .word32 ∧ r.relaType ≠ .word64 ∧ ∀ type, r.relaType ≠ .other type) : a.lengthAt r.offset ≤ a.extent r := by
  have hcall := siteLength_le_call a r.offset
  rw [← siteLength_of_lengthAt h24]
  unfold Assembler.extent
  cases ht : r.relaType with
  | word32 => exact absurd ht htype.1
  | word64 => exact absurd ht htype.2.1
  | other type => exact absurd ht (htype.2.2 type)
  | call => exact hcall
  | _ => exact Nat.le_refl _

/-- The relocation gives the place the immediate, and nothing but the immediate. -/
def Gets (a t : Assembler) (o : SectionOffset) (imm : Int) : Prop :=
  t.lengthAt o = a.lengthAt o ∧ t.instAt o = { a.instAt o with imm }

/-- A place that can hold the immediate; one that starts no instruction is read as 0. -/
def Assembler.Holds (a : Assembler) (o : SectionOffset) (imm : Int) : Prop := a.lengthAt o ≠ 0 ∧ CanHold (a.instAt o) imm

theorem type_of_newImm {r : Reloc} {labelOff relocOff : Nat} {imm : Int} (h : s.newImm r labelOff relocOff = some imm) :
    r.relaType ≠ .word32 ∧ r.relaType ≠ .word64 ∧ ∀ type, r.relaType ≠ .other type := by
  unfold Assembler.newImm at h
  refine ⟨fun ht => ?_, fun ht => ?_, fun type ht => ?_⟩ <;> rw [ht] at h <;> cases h

/-- A legal instruction takes an immediate that it can hold, and the word in its place is read back with it. -/
theorem encode_replaced_at {o : SectionOffset} {imm : Int} (h0 : a.lengthAt o ≠ 0) (hcan : CanHold (a.instAt o) imm) :
    ∃ inst, encodeInst { a.instAt o with imm } = some inst ∧ instLength inst = a.lengthAt o ∧
      ∀ t : Assembler, t.bytes o (instLength inst) = leBytes (instLength inst) inst → Gets a t o imm := by
  obtain ⟨hlen, h24, hw⟩ := fetch_of_legal h0 hcan.1
  have hlt : (a.fetch o).1 < 256 ^ instLength (a.fetch o).1 := by
    rw [hlen, ← hw]
    exact leNat_bytes_lt ..
  obtain ⟨inst, he, hd, hlen', hlt'⟩ := encode_replaced hlt hcan
  refine ⟨inst, he, hlen'.trans hlen, fun t hb => ?_⟩
  have h24' : instLength inst = 2 ∨ instLength inst = 4 := by rwa [hlen', hlen]
  have hf : t.fetch o = (inst, instLength inst) := by
    refine fetch_eq_of_bytes h24' ?_
    rw [hb, leNat_leBytes (by rwa [hlen'])]
  unfold Gets Assembler.lengthAt Assembler.instAt
  rw [hf]
  exact ⟨hlen'.trans hlen, hd⟩

theorem Linking.gets (hI : Linking a done s) (hap : a.RelocsApart) {r : Reloc} {label : Label} {imm : Int}
    (hr : a.lookupReloc r.offset = some r) (hl : a.lookupLabelOf r = some label) (hnot : r.offset ∉ done)
    (h : Asm.relocate r.offset s = .ok b t) (hold : a.Holds r.offset imm)
    (himm : (s.setRelocName r.offset label.name).newImm r (a.labelAddress label) (a.address r.offset) = some imm) :
    b = true ∧ Gets a t r.offset imm := by
  obtain ⟨h0, hcan⟩ := hold
  obtain ⟨-, h24, -⟩ := fetch_of_legal h0 hcan.1
  have hres : a.Resolved r := ⟨hr, by rw [hl]; nofun⟩
  have hsame : s.fetch r.offset = a.fetch r.offset :=
    fetch_congr h0 hcan.1 (hI.bytes_extent (k := 0) hap hres hnot
      ((Nat.zero_add _).le.trans (lengthAt_le_extent h24 (type_of_newImm himm))))
  obtain ⟨r', hr', hcases⟩ := hI.relocate hap hnot h
  obtain rfl : r = r' := Option.some.inj (hr.symm.trans hr')
  rcases hcases with ⟨hnone, -⟩ | ⟨label', hl', hcases⟩
  · rw [hl] at hnone
    cases hnone
  obtain rfl : label = label' := Option.some.inj (hl.symm.trans hl')
  rcases hcases with ⟨imm', himm', hp⟩ | ⟨hnone, -⟩
  swap
  · rw [himm] at hnone
    cases hnone
  obtain rfl : imm = imm' := Option.some.inj (himm.symm.trans himm')
  refine ⟨hp.resolved, ?_⟩
  obtain ⟨s1, -, hre⟩ := hp.patched
  obtain ⟨inst, he, hwrote⟩ := reencodeInst_ok hre
  have hdec : (s.setRelocName r.offset label.name).instAt r.offset = a.instAt r.offset := by
    change decodeInst .rv64 (s.fetch r.offset).1 = decodeInst .rv64 (a.fetch r.offset).1
    rw [hsame]
  rw [hdec] at he
  obtain ⟨inst', he', hlen', hgets⟩ := encode_replaced_at h0 hcan
  obtain rfl : inst = inst' := Option.some.inj (he.symm.trans he')
  have h24' : instLength inst = 2 ∨ instLength inst = 4 := by rwa [hlen']
  rcases hwrote with ⟨-, -, hb⟩ | ⟨h2, h4, -⟩
  · exact hgets t hb
  · exact absurd h24' (by simp [h2, h4])

end Step

/-! ## A run -/

section Run
variable {a s t : Assembler} {done keys : List SectionOffset} {res : List (SectionOffset × Bool)}

/-- The relocations that a run goes through leave the bytes outside of their extents. -/
theorem Linking.run (hI : Linking a done s) (hap : a.RelocsApart) (hnodup : keys.Nodup) (hnot : ∀ key ∈ keys, key ∉ done)
    (h : relocateAll keys s = .ok res t) :
    ∀ o n, (∀ r, a.Resolved r → r.offset ∈ keys → Apart o n r.offset (a.extent r)) → t.bytes o n = s.bytes o n := by
  induction keys generalizing done s res with
  | nil =>
    obtain ⟨-, rfl⟩ := Outcome.ok.inj h
    exact fun _ _ _ => rfl
  | cons key keys ih =>
    obtain ⟨b, s1, h1, h2⟩ := of_bind_ok h
    obtain ⟨rest, s2, h3, h4⟩ := of_bind_ok h2
    obtain ⟨-, rfl⟩ := Outcome.ok.inj h4
    obtain ⟨hkey, hkeys⟩ := List.nodup_cons.1 hnodup
    obtain ⟨hI1, hframe⟩ := hI.step hap (hnot key List.mem_cons_self) h1
    intro o n hn
    have hnot1 : ∀ k ∈ keys, k ∉ key :: done := by
      intro k hk hmem
      rcases List.mem_cons.1 hmem with rfl | hmem
      · exact hkey hk
      · exact hnot k (List.mem_cons_of_mem key hk) hmem
    rw [ih hI1 hkeys hnot1 h3 o n fun r hr hmem => hn r hr (List.mem_cons_of_mem key hmem)]
    exact hframe o n fun r hr hoff => hoff ▸ hn r hr (hoff ▸ List.mem_cons_self)

/-- A run that comes to a place that can hold its immediate leaves it there. `himm` says which
immediate it is when the relocations before the place are behind. -/
theorem Linking.gets_run (hI : Linking a done s) (hap : a.RelocsApart) (hsorted : keys.Pairwise (· < ·)) (hnot : ∀ key ∈ keys, key ∉ done)
    (hall : ∀ key, a.lookupReloc key ≠ none → key ∈ done ∨ key ∈ keys) (h : relocateAll keys s = .ok res t)
    {r : Reloc} {label : Label} {imm : Int} (hr : a.lookupReloc r.offset = some r) (hl : a.lookupLabelOf r = some label)
    (hmem : r.offset ∈ keys) (hold : a.Holds r.offset imm)
    (himm : ∀ done s, Linking a done s → r.offset ∉ done → (∀ key, key < r.offset → a.lookupReloc key ≠ none → key ∈ done) →
      (s.setRelocName r.offset label.name).newImm r (a.labelAddress label) (a.address r.offset) = some imm) :
    (r.offset, true) ∈ res ∧ Gets a t r.offset imm := by
  induction keys generalizing done s res with
  | nil => cases hmem
  | cons key keys ih =>
    obtain ⟨b, s1, h1, h2⟩ := of_bind_ok h
    obtain ⟨rest, s2, h3, h4⟩ := of_bind_ok h2
    obtain ⟨rfl, rfl⟩ := Outcome.ok.inj h4
    obtain ⟨hkey, hkeys⟩ := List.pairwise_cons.1 hsorted
    have hnot1 : ∀ k ∈ keys, k ∉ key :: done := by
      intro k hk hmem
      rcases List.mem_cons.1 hmem with rfl | hmem
      · exact lt_irrefl k (hkey k hk)
      · exact hnot k (List.mem_cons_of_mem key hk) hmem
    have hI1 := (hI.step hap (hnot key List.mem_cons_self) h1).1
    rcases List.mem_cons.1 hmem with rfl | hmem
    · -- its own turn; the rest of the run keeps off its bytes
      have hbefore : ∀ k, k < r.offset → a.lookupReloc k ≠ none → k ∈ done := by
        intro k hk hne
        rcases hall k hne with hd | hd
        · exact hd
        · rcases List.mem_cons.1 hd with rfl | hd
          · exact absurd hk (lt_irrefl _)
          · exact absurd hk (lt_asymm (hkey k hd))
      have hfresh := hnot r.offset List.mem_cons_self
      have himm := himm done s hI hfresh hbefore
      obtain ⟨rfl, hlen, hinst⟩ := hI.gets hap hr hl hfresh h1 hold himm
      refine ⟨List.mem_cons_self, ?_⟩
      obtain ⟨h0, hcan⟩ := hold
      have h24 := (fetch_of_legal h0 hcan.1).2.1
      have hfetch : s2.fetch r.offset = s1.fetch r.offset := by
        refine fetch_congr (by rwa [hlen]) (by rw [hinst]; exact hcan.1) ?_
        refine hI1.run hap (hkeys.imp ne_of_lt) hnot1 h3 _ _ fun r' hr' hmem' => ?_
        have hne : r.offset ≠ r'.offset := ne_of_lt (hkey r'.offset hmem')
        refine (hap r r' ⟨hr, by rw [hl]; nofun⟩ hr' hne).mono ?_ (Nat.le_refl _)
        rw [hlen]
        exact lengthAt_le_extent h24 (type_of_newImm himm)
      unfold Gets Assembler.lengthAt Assembler.instAt at *
      rw [hfetch]
      exact ⟨hlen, hinst⟩
    · have hall1 : ∀ k, a.lookupReloc k ≠ none → k ∈ key :: done ∨ k ∈ keys := by
        intro k hne
        rcases hall k hne with hd | hd
        · exact .inl (List.mem_cons_of_mem key hd)
        · rcases List.mem_cons.1 hd with rfl | hd
          · exact .inl List.mem_cons_self
          · exact .inr hd
      obtain ⟨hres, hgets⟩ := ih hI1 hkeys hnot1 hall1 h3 hmem
      exact ⟨List.mem_cons_of_mem _ hres, hgets⟩

end Run

/-! ## Labels -/

theorem mem_of_lookupLabelF {offset : SectionOffset} {num : Int} {found : Bool} {ls : List Label} {l : Label}
    (h : Assembler.lookupLabelF offset num found ls = some l) : l ∈ ls := by
  induction ls generalizing found with
  | nil => cases h
  | cons x xs ih =>
    unfold Assembler.lookupLabelF at h
    dsimp only at h
    split at h
    · obtain rfl := Option.some.inj h
      exact List.mem_cons_self
    · exact List.mem_cons_of_mem x (ih h)

theorem mem_of_lookupLabelB {offset : SectionOffset} {num : Int} {found : Option Label} {ls : List Label} {l : Label}
    (h : Assembler.lookupLabelB offset num found ls = some l) : found = some l ∨ l ∈ ls := by
  induction ls generalizing found with
  | nil => exact .inl h
  | cons x xs ih =>
    unfold Assembler.lookupLabelB at h
    split at h
    · exact .inl h
    · rcases ih h with hf | hmem
      · split at hf
        · obtain rfl := Option.some.inj hf
          exact .inr List.mem_cons_self
        · exact .inl hf
      · exact .inr (List.mem_cons_of_mem x hmem)

/-- The label that a relocation finds is found again by its own name. -/
theorem lookupLabel_of_lookupLabelOf {a : Assembler} {r : Reloc} {l : Label} (h : a.lookupLabelOf r = some l) :
    a.lookupLabel l.name = some l := by
  unfold Assembler.lookupLabelOf at h
  split at h
  · exact a.named l (mem_of_lookupLabelF h)
  · split at h
    · rcases mem_of_lookupLabelB h with hf | hmem
      · cases hf
      · exact a.named l hmem
    · rw [Assembler.lookupLabel, OrderedMap.key_of_find h]
      exact h

/-! ## Distances -/

/-- How far a label is from a place. -/
def Assembler.distance (a : Assembler) (o : SectionOffset) (l : Label) : Int := Int.bmod (a.labelAddress l - a.address o) (2 ^ 64)

theorem natCast_sizeT (x : Int) : (sizeT x : Int) = x % 18446744073709551616 :=
  Int.toNat_of_nonneg (Int.emod_nonneg x (by norm_num))

theorem sizeT_bmod (x : Int) : sizeT (Int.bmod x (2 ^ 64)) = sizeT x := by
  have h1 := natCast_sizeT x
  have h2 := natCast_sizeT (Int.bmod x (2 ^ 64))
  simp only [Int.bmod_def] at *
  norm_num at *
  omega

theorem labelAddress_lt (a : Assembler) (l : Label) : a.labelAddress l < 2 ^ 64 := by
  have hlt : ∀ x, sizeT x < 2 ^ 64 := by
    intro x
    have := natCast_sizeT x
    omega
  unfold Assembler.labelAddress
  split
  · exact hlt _
  · exact hlt _

/-- The distance leads to the label. -/
theorem sizeT_add_distance (a : Assembler) (o : SectionOffset) (l : Label) : sizeT (a.address o + a.distance o l) = a.labelAddress l := by
  have hlt := labelAddress_lt a l
  have hs := natCast_sizeT (a.address o + a.distance o l)
  unfold Assembler.distance at *
  generalize a.labelAddress l = x at *
  generalize a.address o = y at *
  simp only [Int.bmod_def] at *
  norm_num at *
  omega

theorem s32_distance {a : Assembler} {o : SectionOffset} {l : Label} (h : -2 ^ 31 ≤ a.distance o l ∧ a.distance o l < 2 ^ 31) :
    s32 (sizeT (a.labelAddress l - a.address o)) = a.distance o l := by
  rw [natCast_sizeT]
  unfold Assembler.distance s32 at *
  generalize (a.labelAddress l : Int) - a.address o = x at *
  simp only [Int.bmod_def] at *
  norm_num at *
  omega

theorem upper_mod (x : Nat) : upper x % 4096 = 0 ∧ -2147483648 ≤ upper x ∧ upper x < 2147483648 := by
  have h : (sizeT (x + 0x800) >>> 12) <<< 12 % 4096 = 0 := by
    rw [Nat.shiftLeft_eq]
    omega
  unfold upper s32
  generalize (sizeT (x + 0x800) >>> 12) <<< 12 = y at *
  simp only [Int.bmod_def]
  norm_num
  omega

/-- The two halves of a distance of 32 bits. -/
theorem upper_lower {x : Nat} {d : Int} (hx : x = sizeT d) (h : -2 ^ 31 ≤ d + 2 ^ 11 ∧ d + 2 ^ 11 < 2 ^ 31) :
    lower x = Int.bmod d 4096 ∧ upper x + lower x = d := by
  have hs := natCast_sizeT d
  have hu : upper x = (d + 2048) / 4096 * 4096 := by
    have hs' := natCast_sizeT (x + 0x800)
    unfold upper s32
    rw [Nat.shiftLeft_eq, Nat.shiftRight_eq_div_pow]
    generalize sizeT (x + 0x800) = y at *
    push_cast
    simp only [Int.bmod_def]
    norm_num at *
    omega
  have hl : lower x = d - (d + 2048) / 4096 * 4096 := by
    unfold lower s32
    rw [hu, natCast_sizeT]
    simp only [Int.bmod_def]
    norm_num at *
    omega
  rw [hu, hl]
  refine ⟨?_, by omega⟩
  simp only [Int.bmod_def]
  norm_num
  omega

/-! ## Reaching the label -/

def RelaType.reaches : RelaType → Bool
  | .jal | .branch | .pcrel_lo12_i | .pcrel_lo12_s => true
  | _ => false

/-- After linking the place holds its old instruction with an immediate that reaches the label: from
the place itself, or from the `auipc` at the label together with the upper immediate there. `a` is
laid out and not yet patched, `t` is linked. -/
def Reaches (a t : Assembler) (r : Reloc) : Prop :=
  ∃ label, a.lookupLabelOf r = some label ∧ Gets a t r.offset (t.instAt r.offset).imm ∧
    match r.relaType with
    | .pcrel_lo12_i | .pcrel_lo12_s =>
      ∃ hi target, a.lookupReloc label.offset = some hi ∧ a.lookupLabelOf hi = some target ∧ (t.instAt hi.offset).op = .auipc ∧
        sizeT (a.address hi.offset + (t.instAt hi.offset).imm + (t.instAt r.offset).imm) = a.labelAddress target
    | _ => sizeT (a.address r.offset + (t.instAt r.offset).imm) = a.labelAddress label

/-- The high half that the label of a low half stands for. -/
structure HighHalf (a : Assembler) (r : Reloc) (label : Label) (hi : Reloc) (target : Label) : Prop where
  reloc : a.lookupReloc label.offset = some hi
  resolved : a.lookupLabelOf hi = some target
  type : hi.relaType = .pcrel_hi20 ∨ hi.relaType = .call
  auipc : (a.instAt hi.offset).op = .auipc
  /-- The section of the place holds the label and starts at address 0. -/
  found : label.offset = ⟨r.offset.index, a.labelAddress label⟩
  /-- A local name is looked up before it is used as a name. -/
  named : hi.offset < r.offset ∨ a.lookupLabel hi.name = some target
  relative : target.offset.index ≠ shnAbs
  near : -2 ^ 31 ≤ a.distance hi.offset target + 2 ^ 11 ∧ a.distance hi.offset target + 2 ^ 11 < 2 ^ 31

/-- The instruction at the place can hold what it needs to reach the label. -/
def InReach (a : Assembler) (r : Reloc) : Prop :=
  ∃ label, a.lookupLabelOf r = some label ∧
    match r.relaType with
    | .pcrel_lo12_i | .pcrel_lo12_s =>
      ∃ hi target, HighHalf a r label hi target ∧ a.Holds r.offset (Int.bmod (a.distance hi.offset target) 4096)
    | _ => a.Holds r.offset (a.distance r.offset label)

theorem imm_bounds {d : Decode} {codec : RvCodec} (h : FormatFits d codec) : -2 ^ 31 ≤ d.imm ∧ d.imm < 2 ^ 31 := by
  cases codec <;> simp only [FormatFits] at h <;> omega

theorem lengthAt_ne_zero {a : Assembler} {o : SectionOffset} (h : (a.instAt o).op = .auipc) : a.lengthAt o ≠ 0 := by
  intro h0
  have hf : (a.fetch o).1 = 0 := by
    unfold Assembler.lengthAt at h0
    unfold Assembler.fetch at h0 ⊢
    dsimp only at h0 ⊢
    split_ifs at h0 ⊢
    rfl
  rw [Assembler.instAt, hf] at h
  exact absurd h (by decide)

theorem formatFits_instAt (a : Assembler) (o : SectionOffset) : FormatFits (a.instAt o) (rvInstCodec (a.instAt o).op) := by
  unfold Assembler.instAt
  rw [decodeInst_op]
  exact formatFits_decodeType _ _ _ _

theorem formatFits_u {d : Decode} {imm : Int} (h : FormatFits d .u) (hi : imm % 4096 = 0 ∧ -2147483648 ≤ imm ∧ imm < 2147483648) :
    FormatFits { d with imm } .u := by
  obtain ⟨hrd, hrs1, hrs2, -, -, -, hplain⟩ := h
  exact ⟨hrd, hrs1, hrs2, hi.2.1, hi.2.2, hi.1, hplain⟩

/-- `lui` and `auipc` can hold every upper half. -/
theorem canHold_upper {d : Decode} (h : d.op = .lui ∨ d.op = .auipc) (hf : FormatFits d (rvInstCodec d.op)) (x : Nat) :
    CanHold d (upper x) := by
  have hu : FormatFits d .u := by
    rcases h with h | h <;> rw [h] at hf <;> exact hf
  have hfits := formatFits_u hu (upper_mod x)
  unfold CanHold
  rcases h with h | h <;> rw [h]
  · exact ⟨by decide, by decide, hfits, fun hop => absurd hop (by decide)⟩
  · exact ⟨by decide, by decide, hfits, fun hop => absurd hop (by decide)⟩

theorem holds_upper {a : Assembler} {o : SectionOffset} (h : (a.instAt o).op = .auipc) (x : Nat) : a.Holds o (upper x) :=
  ⟨lengthAt_ne_zero h, canHold_upper (.inr h) (formatFits_instAt a o) x⟩

section Reach
variable {a s t : Assembler} {done : List SectionOffset} {res : List (SectionOffset × Bool)} {r hi : Reloc} {label target : Label}

/-- What a low half computes: the relocation at its label and the label of that one are those of the start. -/
theorem HighHalf.newImm (hh : HighHalf a r label hi target) (hr : a.lookupReloc r.offset = some r)
    (ht : r.relaType = .pcrel_lo12_i ∨ r.relaType = .pcrel_lo12_s) (hI : Linking a done s) 
    (hbefore : ∀ key, key < r.offset → a.lookupReloc key ≠ none → key ∈ done) :
    (s.setRelocName r.offset label.name).newImm r (a.labelAddress label) (a.address r.offset) =
      some (lower (sizeT (a.labelAddress target - a.address hi.offset))) := by
  have hne : label.offset ≠ r.offset := by
    intro heq
    have hrh := hh.reloc
    rw [heq, hr] at hrh
    obtain rfl := Option.some.inj hrh
    rcases ht with ht | ht <;> rcases hh.type with hh | hh <;> rw [ht] at hh <;> cases hh
  have hkey : hi.offset = label.offset := OrderedMap.key_of_find hh.reloc
  -- the name is the one of the start, or that of the label it was resolved to
  obtain ⟨name, hfind, hname⟩ : ∃ name, (s.setRelocName r.offset label.name).lookupReloc label.offset = some { hi with name } ∧
      a.lookupLabel name = some target := by
    rw [setRelocName_lookup, hI.relocs, hh.reloc]
    by_cases hd : label.offset ∈ done
    · refine ⟨a.resolvedName hi, by simp [hd, hne], ?_⟩
      rw [Assembler.resolvedName, hh.resolved]
      exact lookupLabel_of_lookupLabelOf hh.resolved
    · refine ⟨hi.name, by simp [hd, hne], ?_⟩
      refine hh.named.resolve_left fun hlt => hd ?_
      rw [hkey] at hlt
      exact hbefore _ hlt (by rw [hh.reloc]; nofun)
  have htarget : (s.setRelocName r.offset label.name).lookupLabel name = some target := (hI.shape.lookupLabel_eq name).trans hname
  have haddr : ∀ o, (s.setRelocName r.offset label.name).address o = a.address o := hI.shape.address_eq
  have hlabel : a.labelAddress target = a.address target.offset := if_neg hh.relative
  unfold Assembler.newImm
  rcases ht with ht | ht <;> rw [ht] <;> dsimp only <;> rw [← hh.found, hfind, hlabel] <;> simp [htarget, haddr]

theorem keys_sorted (a : Assembler) : (a.relocsByOffset.toList.map Reloc.offset).Pairwise (· < ·) := List.pairwise_map.2 a.relocsByOffset.sorted

theorem mem_keys {a : Assembler} {key : SectionOffset} (h : a.lookupReloc key ≠ none) : key ∈ a.relocsByOffset.toList.map Reloc.offset := by
  obtain ⟨r, hr⟩ := Option.ne_none_iff_exists'.1 h
  exact List.mem_map.2 ⟨r, OrderedMap.mem_of_find hr, OrderedMap.key_of_find hr⟩

/-- A whole run gives a place that can hold its immediate that immediate. -/
theorem gets_link (hap : a.RelocsApart) (h : relocateAll (a.relocsByOffset.toList.map Reloc.offset) a = .ok res t) {imm : Int}
    (hr : a.lookupReloc r.offset = some r) (hl : a.lookupLabelOf r = some label) (hold : a.Holds r.offset imm)
    (himm : ∀ done s, Linking a done s → (∀ key, key < r.offset → a.lookupReloc key ≠ none → key ∈ done) →
      (s.setRelocName r.offset label.name).newImm r (a.labelAddress label) (a.address r.offset) = some imm) :
    (r.offset, true) ∈ res ∧ Gets a t r.offset imm :=
  (linking_nil a).gets_run hap (keys_sorted a) (fun _ _ => List.not_mem_nil) (fun _ hne => .inr (mem_keys hne)) h hr hl
    (mem_keys (by rw [hr]; nofun)) hold fun done s hI _ hbefore => himm done s hI hbefore

/-- The high half is patched with the upper part of the distance. -/
theorem HighHalf.gets (hh : HighHalf a r label hi target) (hap : a.RelocsApart)
    (h : relocateAll (a.relocsByOffset.toList.map Reloc.offset) a = .ok res t) :
    Gets a t hi.offset (upper (sizeT (a.labelAddress target - a.address hi.offset))) := by
  have hr : a.lookupReloc hi.offset = some hi := by
    rw [OrderedMap.key_of_find hh.reloc]
    exact hh.reloc
  refine (gets_link hap h hr hh.resolved (holds_upper hh.auipc _) fun done s hI _ => ?_).2
  unfold Assembler.newImm
  rcases hh.type with ht | ht <;> rw [ht]

theorem reaches_low (hap : a.RelocsApart) (h : relocateAll (a.relocsByOffset.toList.map Reloc.offset) a = .ok res t)
    (hr : a.lookupReloc r.offset = some r) (hl : a.lookupLabelOf r = some label)
    (ht : r.relaType = .pcrel_lo12_i ∨ r.relaType = .pcrel_lo12_s) (hh : HighHalf a r label hi target)
    (hold : a.Holds r.offset (Int.bmod (a.distance hi.offset target) 4096)) : (r.offset, true) ∈ res ∧ Reaches a t r := by
  have hx : sizeT (a.labelAddress target - a.address hi.offset) = sizeT (a.distance hi.offset target) := (sizeT_bmod _).symm
  obtain ⟨hlow, hsum⟩ := upper_lower hx hh.near
  obtain ⟨hres, hgets⟩ := gets_link hap h hr hl hold fun done s hI hbefore => by
    rw [hh.newImm hr ht hI hbefore, hlow]
  obtain ⟨-, hhi⟩ := hh.gets hap h
  refine ⟨hres, label, hl, ?_⟩
  have himm : (t.instAt r.offset).imm = Int.bmod (a.distance hi.offset target) 4096 := by rw [hgets.2]
  have hhiimm : (t.instAt hi.offset).imm = upper (sizeT (a.labelAddress target - a.address hi.offset)) := by rw [hhi]
  rw [himm]
  refine ⟨hgets, ?_⟩
  have hauipc : (t.instAt hi.offset).op = .auipc := by
    rw [hhi]
    exact hh.auipc
  have hreach : sizeT (a.address hi.offset + (t.instAt hi.offset).imm + Int.bmod (a.distance hi.offset target) 4096) = a.labelAddress target := by
    rw [hhiimm, ← hlow, Int.add_assoc, hsum]
    exact sizeT_add_distance a hi.offset target
  rcases ht with ht | ht <;> rw [ht] <;> exact ⟨hi, target, hh.reloc, hh.resolved, hauipc, hreach⟩

theorem reaches_jump (hap : a.RelocsApart) (h : relocateAll (a.relocsByOffset.toList.map Reloc.offset) a = .ok res t)
    (hr : a.lookupReloc r.offset = some r) (hl : a.lookupLabelOf r = some label) (ht : r.relaType = .jal ∨ r.relaType = .branch)
    (hold : a.Holds r.offset (a.distance r.offset label)) : (r.offset, true) ∈ res ∧ Reaches a t r := by
  have hbound : -2 ^ 31 ≤ a.distance r.offset label ∧ a.distance r.offset label < 2 ^ 31 := imm_bounds hold.2.2.2.1
  obtain ⟨hres, hgets⟩ := gets_link hap h hr hl hold fun done s hI _ => by
    unfold Assembler.newImm
    rcases ht with ht | ht <;> rw [ht] <;> exact congrArg some (s32_distance hbound)
  refine ⟨hres, label, hl, ?_⟩
  have himm : (t.instAt r.offset).imm = a.distance r.offset label := by rw [hgets.2]
  rw [himm]
  refine ⟨hgets, ?_⟩
  rcases ht with ht | ht <;> rw [ht] <;> exact sizeT_add_distance a r.offset label

theorem extent_of_holds {imm : Int} (ht : r.relaType.reaches = true) (hold : a.Holds r.offset imm) : a.extent r = a.lengthAt r.offset := by
  obtain ⟨-, h24, -⟩ := fetch_of_legal hold.1 hold.2.1
  rw [← siteLength_of_lengthAt h24]
  unfold Assembler.extent
  cases hr : r.relaType <;> rw [hr] at ht <;> first | rfl | cases ht

theorem type_of_reaches (ht : r.relaType.reaches = true) :
    (r.relaType = .jal ∨ r.relaType = .branch) ∨ r.relaType = .pcrel_lo12_i ∨ r.relaType = .pcrel_lo12_s := by
  cases hr : r.relaType <;> rw [hr] at ht <;> simp [RelaType.reaches] at ht ⊢

end Reach

theorem relocsApart_of_forall {a : Assembler} (h : ∀ r ∈ a.relocsByOffset.toList, ∀ r' ∈ a.relocsByOffset.toList,
    r.offset ≠ r'.offset → Apart r.offset (a.extent r) r'.offset (a.extent r')) : a.RelocsApart :=
  fun r r' hr hr' => h r (OrderedMap.mem_of_find hr.1) r' (OrderedMap.mem_of_find hr'.1)

/-- The address of `x` made in two halves, and a jump to it. -/
def nearLabel : Assembler :=
  (((((((((Assembler.new.addLabel ['h']).addReloc ['x'] .pcrel_hi20).addInst 0x00000517).addReloc ['h'] .pcrel_lo12_i).addInst
    0x00050513).addReloc ['x'] .jal).addInst 0x0000006f).addLabel ['x']).addInst 0x00000013)

/-- A branch to a label 4096 bytes away, one more than it can hold. -/
def farBranch : Assembler := ((Assembler.new.addConstant ['f', 'a', 'r'] 4096).addReloc ['f', 'a', 'r'] .branch).addInst 0x00000063

end Rv8.Asm
