import Rv8.Asm.Reach
/-!
# Relocating a pair

`relocate` of a place whose 32 bits are inside of their section: it returns, and where
the instruction there can hold the immediate, it leaves it there and writes nothing
else. From this come the two halves of an address, patched in either order, and a call,
which is one relocation of two instructions.
-/

namespace Rv8.Asm

open Rv8.Lib Prog

/-! ## Places inside of their section -/

/-- An instruction of 32 bits inside of its section. -/
structure Assembler.Site (a : Assembler) (o : SectionOffset) : Prop where
  inside : ∃ x, a.sections[o.index]? = some x ∧ o.offset + 4 ≤ x.buf.size
  length : a.lengthAt o = 4

/-- A relocation of the map that finds its label, which is a constant or lies in a section. -/
structure Assembler.Finds (a : Assembler) (r : Reloc) (label : Label) : Prop where
  reloc : a.lookupReloc r.offset = some r
  resolved : a.lookupLabelOf r = some label
  placed : label.offset.index = shnAbs ∨ label.offset.index < a.sections.length

section Wrote
variable {a t : Assembler} {o o' : SectionOffset} {n n' : Nat}

theorem SameShape.length_eq (h : SameShape a t) : t.sections.length = a.sections.length := by
  have hlen := congrArg List.length h.sections
  rwa [List.length_map, List.length_map] at hlen

/-- Sections keep their size. -/
theorem SameShape.inside (h : SameShape a t) (hin : ∃ x, a.sections[o.index]? = some x ∧ o.offset + n ≤ x.buf.size) :
    ∃ x, t.sections[o.index]? = some x ∧ o.offset + n ≤ x.buf.size := by
  obtain ⟨x, hx, hfit⟩ := hin
  have hi := congrArg (fun l => l[o.index]?) h.sections
  simp only [List.getElem?_map, hx, Option.map_some] at hi
  obtain ⟨y, hy, hxy⟩ := Option.map_eq_some_iff.1 hi
  refine ⟨y, hy, ?_⟩
  rw [(Prod.mk.inj hxy).2]
  exact hfit

/-- A place that nothing was written to is as it was. -/
theorem Wrote.fetch_eq (h : Wrote a o n t) (hs : a.lengthAt o' = 4) (hop : (a.instAt o').op ≠ .illegal) (hap : Apart o' 4 o n) :
    t.fetch o' = a.fetch o' := by
  refine fetch_congr (by rw [hs]; decide) hop ?_
  rw [hs]
  exact h.bytes o' 4 hap

theorem Wrote.site (h : Wrote a o n t) (hs : a.Site o') (hop : (a.instAt o').op ≠ .illegal) (hap : Apart o' 4 o n) : t.Site o' := by
  refine ⟨h.shape.inside hs.inside, ?_⟩
  unfold Assembler.lengthAt
  rw [h.fetch_eq hs.length hop hap]
  exact hs.length

theorem Wrote.instAt_eq (h : Wrote a o n t) (hs : a.Site o') (hop : (a.instAt o').op ≠ .illegal) (hap : Apart o' 4 o n) :
    t.instAt o' = a.instAt o' := by
  unfold Assembler.instAt
  rw [h.fetch_eq hs.length hop hap]

theorem Gets.of_wrote {imm : Int} {s : Assembler} (hg : Gets a s o' imm) (h : Wrote s o n t) (hs : a.lengthAt o' = 4)
    (hop : (a.instAt o').op ≠ .illegal) (hap : Apart o' 4 o n) : Gets a t o' imm := by
  obtain ⟨hlen, hinst⟩ := hg
  have hf := h.fetch_eq (hlen.trans hs) (by rw [hinst]; exact hop) hap
  unfold Gets Assembler.lengthAt Assembler.instAt at *
  rw [hf]
  exact ⟨hlen, hinst⟩

/-- What other relocations find does not depend on bytes, nor on the name that one relocation was left. -/
theorem Assembler.Finds.of_wrote {r : Reloc} {label : Label} {key : SectionOffset} {name : Name} (hf : a.Finds r label)
    (h : Wrote (a.setRelocName key name) o n t) (hne : r.offset ≠ key) : t.Finds r label := by
  have hshape : SameShape a t := ⟨h.shape.sections, h.shape.byName, h.shape.byOffset⟩
  refine ⟨?_, ?_, ?_⟩
  · have hfind : t.lookupReloc r.offset = (a.setRelocName key name).lookupReloc r.offset := by
      rw [Assembler.lookupReloc, h.relocs]
      rfl
    rw [hfind, setRelocName_lookup, hf.reloc]
    simp [hne]
  · rw [hshape.lookupLabelOf_eq]
    exact hf.resolved
  · rw [hshape.length_eq]
    exact hf.placed

end Wrote

/-! ## The run of a relocation -/

section Total
variable {a : Assembler} {o : SectionOffset} {r : Reloc} {label : Label}

theorem sectionAt_run {i : Nat} {x : Section} (hx : a.sections[i]? = some x) : sectionAt i a = .ok x a := by
  have hget : (get : AsmM Assembler) a = .ok a a := rfl
  unfold sectionAt
  refine (Prog.bind_ok hget).trans ?_
  rw [hx]
  rfl

theorem instFetch_run (hs : a.Site o) : instFetch o a = .ok (a.fetch o) a := by
  obtain ⟨x, hx, hfit⟩ := hs.inside
  have hload : loadAt o 4 a = .ok (leNat (a.bytes o 4)) a := by
    refine (Prog.bind_ok (sectionAt_run hx)).trans ?_
    rw [if_pos hfit, bytes_eq hx]
    rfl
  have hlen := hs.length
  refine (Prog.bind_ok hload).trans ?_
  unfold Assembler.lengthAt Assembler.fetch at hlen
  unfold Assembler.fetch
  dsimp only at hlen ⊢
  by_cases hc : leNat (a.bytes o 4) &&& 3 ≠ 3
  · rw [if_pos hc] at hlen
    cases hlen
  · rw [if_neg hc] at hlen
    by_cases hc' : leNat (a.bytes o 4) &&& 28 ≠ 28
    · rw [if_neg hc, if_pos hc', if_neg hc, if_pos hc']
      rfl
    · rw [if_neg hc'] at hlen
      split_ifs at hlen
      all_goals cases hlen

theorem relocOffset_run (hs : a.Site r.offset) : relocOffset r a = .ok (a.address r.offset) a := by
  obtain ⟨x, hx, -⟩ := hs.inside
  rw [address_eq hx]
  exact Prog.bind_ok (sectionAt_run hx)

theorem labelOff_run (h : label.offset.index = shnAbs ∨ label.offset.index < a.sections.length) :
    labelOff label a = .ok (a.labelAddress label) a := by
  unfold labelOff Assembler.labelAddress
  by_cases habs : label.offset.index = shnAbs
  · rw [if_pos habs, if_pos habs]
    rfl
  · have hx : a.sections[label.offset.index]? = some _ := List.getElem?_eq_getElem (h.resolve_left habs)
    rw [if_neg habs, if_neg habs, address_eq hx]
    exact Prog.bind_ok (sectionAt_run hx)

/-- The patch of an instruction that can hold the immediate. -/
theorem reencode_gets {imm : Int} (hs : a.Site o) (hcan : CanHold (a.instAt o) imm) :
    ∃ t, reencodeInst { a.instAt o with imm } o a = .ok () t ∧ Gets a t o imm ∧ Wrote a o 4 t := by
  obtain ⟨x, hx, hfit⟩ := hs.inside
  obtain ⟨inst, he, hlen', hgets⟩ := encode_replaced_at (by rw [hs.length]; decide) hcan
  have h4 : instLength inst = 4 := hlen'.trans hs.length
  have hfit' : o.offset + (leBytes 4 inst).length ≤ x.buf.size := by
    rw [length_leBytes]
    exact hfit
  have hbytes : leBytes 4 (inst &&& 0xffffffff) = leBytes 4 inst := by
    rw [show inst &&& 0xffffffff = inst % 256 ^ 4 from Nat.and_two_pow_sub_one_eq_mod inst 32, leBytes_mod]
  have hrun : reencodeInst { a.instAt o with imm } o a = .ok () (writeAt a o (leBytes 4 inst)) := by
    unfold reencodeInst
    rw [show encodeInst { a.instAt o with imm } = some inst from he]
    dsimp only
    rw [if_neg (by rw [h4]; decide), if_pos h4, ← hbytes]
    refine (Prog.bind_ok (sectionAt_run hx)).trans ?_
    rw [if_pos hfit]
    rfl
  have hwrote : Wrote a o 4 (writeAt a o (leBytes 4 inst)) := by
    have h := wrote_writeAt hx hfit'
    rwa [length_leBytes] at h
  have hread : (writeAt a o (leBytes 4 inst)).bytes o (leBytes 4 inst).length = leBytes 4 inst := bytes_writeAt hx
  rw [length_leBytes] at hread
  exact ⟨_, hrun, hgets _ (by rw [h4, hread]), hwrote⟩

theorem relocate_run (hf : a.Finds r label) (hs : a.Site r.offset) :
    relocate r.offset a =
      applyReloc r (a.labelAddress label) (a.address r.offset) 4 (a.instAt r.offset) (a.setRelocName r.offset label.name) := by
  have hs' : (a.setRelocName r.offset label.name).Site r.offset := ⟨hs.inside, hs.length⟩
  have hname : (modify fun s => s.setRelocName r.offset label.name : AsmM Unit) a = .ok () (a.setRelocName r.offset label.name) := rfl
  have hget : (get : AsmM Assembler) a = .ok a a := rfl
  unfold relocate
  refine (Prog.bind_ok hget).trans ?_
  simp only [hf.reloc, hf.resolved]
  refine (Prog.bind_ok hname).trans ?_
  refine (Prog.bind_ok (labelOff_run (a := a.setRelocName r.offset label.name) hf.placed)).trans ?_
  refine (Prog.bind_ok (relocOffset_run hs')).trans ?_
  refine (Prog.bind_ok (instFetch_run hs')).trans ?_
  have hlen : (a.fetch r.offset).2 = 4 := hs.length
  show applyReloc r _ _ (a.fetch r.offset).2 (decodeInst .rv64 (a.fetch r.offset).1) _ = _
  rw [hlen]
  rfl

/-- The relocations that change the immediate at their own place only, and need nothing else to be there. -/
def Assembler.halfImm (a : Assembler) (r : Reloc) (label : Label) : Option Int :=
  match r.relaType with
  | .hi20 => some (upper (a.labelAddress label))
  | .lo12_i | .lo12_s => some (lower (a.labelAddress label))
  | .pcrel_hi20 => some (upper (sizeT (a.labelAddress label - a.address r.offset)))
  | _ => none

theorem relocate_half {imm : Int} (hf : a.Finds r label) (hs : a.Site r.offset) (himm : a.halfImm r label = some imm)
    (hcan : CanHold (a.instAt r.offset) imm) :
    ∃ t, relocate r.offset a = .ok true t ∧ Gets a t r.offset imm ∧ Wrote (a.setRelocName r.offset label.name) r.offset 4 t := by
  have hs' : (a.setRelocName r.offset label.name).Site r.offset := ⟨hs.inside, hs.length⟩
  have hcan' : CanHold ((a.setRelocName r.offset label.name).instAt r.offset) imm := hcan
  obtain ⟨t, hrun, hgets, hwrote⟩ := reencode_gets hs' hcan'
  refine ⟨t, ?_, hgets, hwrote⟩
  have hpatch : patchImm (a.instAt r.offset) r.offset imm (a.setRelocName r.offset label.name) = .ok true t := Prog.bind_ok hrun
  rw [relocate_run hf hs, ← hpatch]
  unfold Assembler.halfImm at himm
  unfold applyReloc
  cases ht : r.relaType with
  | hi20 | lo12_i | lo12_s | pcrel_hi20 =>
    rw [ht] at himm
    rw [← Option.some.inj himm]
  | _ =>
    rw [ht] at himm
    exact absurd himm.symm (Option.some_ne_none imm)

/-- A call sequence gets both halves of the distance from its first instruction. -/
theorem relocate_call (hf : a.Finds r label) (ht : r.relaType = .call) (hs : a.Site r.offset) (hs4 : a.Site (r.offset.plus 4))
    {x : Nat} (hx : x = sizeT (a.labelAddress label - a.address r.offset)) (hup : CanHold (a.instAt r.offset) (upper x))
    (hlow : CanHold (a.instAt (r.offset.plus 4)) (lower x)) :
    ∃ t, relocate r.offset a = .ok true t ∧ Gets a t r.offset (upper x) ∧ Gets a t (r.offset.plus 4) (lower x) := by
  have hap : Apart r.offset 4 (r.offset.plus 4) 4 := .inr (.inl (Nat.le_refl _))
  have hs4' : (a.setRelocName r.offset label.name).Site (r.offset.plus 4) := ⟨hs4.inside, hs4.length⟩
  have hs' : (a.setRelocName r.offset label.name).Site r.offset := ⟨hs.inside, hs.length⟩
  have hlow' : CanHold ((a.setRelocName r.offset label.name).instAt (r.offset.plus 4)) (lower x) := hlow
  obtain ⟨t1, hrun1, hgets1, hwrote1⟩ := reencode_gets hs4' hlow'
  have hsite : t1.Site r.offset := hwrote1.site hs' hup.1 hap
  have hinst : t1.instAt r.offset = a.instAt r.offset := hwrote1.instAt_eq hs' hup.1 hap
  have hlen1 : t1.lengthAt r.offset = a.lengthAt r.offset := hsite.length.trans hs.length.symm
  have hup' : CanHold (t1.instAt r.offset) (upper x) := by
    rw [hinst]
    exact hup
  obtain ⟨t, hrun2, hgets2, hwrote2⟩ := reencode_gets hsite hup'
  rw [hinst] at hrun2
  refine ⟨t, ?_, ⟨hgets2.1.trans hlen1, ?_⟩, hgets1.of_wrote hwrote2 hs4.length hlow.1 hap.symm⟩
  · have hnext : patchNext (r.offset.plus 4) (lower x) (a.setRelocName r.offset label.name) = .ok () t1 :=
      (Prog.bind_ok (instFetch_run hs4')).trans hrun1
    rw [relocate_run hf hs]
    unfold applyReloc
    rw [ht, ← hx]
    refine (Prog.bind_ok hnext).trans ?_
    exact Prog.bind_ok hrun2
  · rw [hgets2.2, hinst]

/-- Two relocations with places apart: the second one finds all it needs as the first one did. -/
theorem relocate_two {r' : Reloc} {label' : Label} {imm imm' : Int} (hf : a.Finds r label) (hf' : a.Finds r' label')
    (hs : a.Site r.offset) (hs' : a.Site r'.offset) (hap : Apart r.offset 4 r'.offset 4) (himm : a.halfImm r label = some imm)
    (himm' : a.halfImm r' label' = some imm') (hcan : CanHold (a.instAt r.offset) imm) (hcan' : CanHold (a.instAt r'.offset) imm') :
    ∃ t, relocateAll [r.offset, r'.offset] a = .ok [(r.offset, true), (r'.offset, true)] t ∧ Gets a t r.offset imm ∧
      Gets a t r'.offset imm' := by
  have hne : r'.offset ≠ r.offset := by
    intro heq
    rw [heq] at hap
    unfold Apart at hap
    omega
  obtain ⟨t1, hrun1, hgets1, hwrote1⟩ := relocate_half hf hs himm hcan
  have hkeep : (a.setRelocName r.offset label.name).Site r'.offset := ⟨hs'.inside, hs'.length⟩
  have hsite : t1.Site r'.offset := hwrote1.site hkeep hcan'.1 hap.symm
  have hinst : t1.instAt r'.offset = a.instAt r'.offset := hwrote1.instAt_eq hkeep hcan'.1 hap.symm
  have hfinds : t1.Finds r' label' := hf'.of_wrote hwrote1 hne
  have hshape : SameShape a t1 := ⟨hwrote1.shape.sections, hwrote1.shape.byName, hwrote1.shape.byOffset⟩
  have himm1 : t1.halfImm r' label' = some imm' := by
    unfold Assembler.halfImm at himm' ⊢
    rw [hshape.labelAddress_eq, hshape.address_eq]
    exact himm'
  obtain ⟨t, hrun2, hgets2, hwrote2⟩ := relocate_half hfinds hsite himm1 (by rw [hinst]; exact hcan')
  refine ⟨t, ?_, ?_, ?_⟩
  · exact (Prog.bind_ok hrun1).trans (Prog.bind_ok ((Prog.bind_ok hrun2).trans rfl))
  · have hgets : Gets a (t1.setRelocName r'.offset label'.name) r.offset imm := hgets1
    exact hgets.of_wrote hwrote2 hs.length hcan.1 hap
  · exact ⟨hgets2.1.trans (hsite.length.trans hs'.length.symm), by rw [hgets2.2, hinst]⟩

end Total

end Rv8.Asm
