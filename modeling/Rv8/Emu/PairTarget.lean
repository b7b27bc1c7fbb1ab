import Rv8.Asm.Pairs
import Rv8.Emu.LoadedImm
/-!
# What a relocated pair forms

The halves that `relocate` leaves in a pair add up to the label again when the pair
runs: the upper one has been rounded by what the sign of the lower one takes away. The
first instruction must hand its register to the second one, so it is not `x0`, and the
second one must add its immediate to it. A jump drops the lowest bit of its distance.
-/

namespace Rv8.Emu

open Rv8.Lib Rv8.Asm

/-! ## What an instruction forms -/

/-- What an action has computed from its registers: the value it assigns, the address it goes to, reads or writes. -/
def Action.target {R : Rv} (pc : BitVec R.xlen) : Action R → Option (BitVec R.xlen)
  | .setRd v => some v
  | .jump offset => some (pc + offset)
  | .load _ _ va => some va
  | .store _ va _ => some va
  | .fload _ va => some va
  | .fstore _ va _ => some va
  | _ => none

/-- The instructions that add their immediate to `rs1`. -/
def immAdders : List RvOp :=
  [.addi, .addiw, .jalr, .lb, .lh, .lw, .ld, .lbu, .lhu, .lwu, .flw, .fld, .sb, .sh, .sw, .sd, .fsw, .fsd]

/-- The instruction forms `v` from the registers. -/
def Forms (host : Host) (s : Hart .rv64) (dec : Decode) (v : BitVec 64) : Prop :=
  ∃ ext act, action host s dec dec.op = some (ext, act) ∧ act.target s.pc = some v

section Forms
variable {host : Host} {s : Hart .rv64} {dec : Decode}

theorem and_not_one {x : BitVec 64} (h : x &&& 1 = 0) : x &&& ~~~1 = x := by
  have hsplit : x &&& ~~~1 ||| x &&& 1 = x := by
    rw [← BitVec.and_or_distrib_left]
    exact (congrArg (x &&& ·) (by decide : (~~~1 ||| 1 : BitVec 64) = BitVec.allOnes 64)).trans BitVec.and_allOnes
  rw [h] at hsplit
  exact BitVec.or_zero.symm.trans hsplit

/-- A jump goes where it says when that is an even number of bytes away. -/
theorem add_sub_and {pc v : BitVec 64} (h : (v - pc) &&& 1 = 0) : pc + ((v - pc) &&& ~~~1) = v := by
  rw [and_not_one h, BitVec.add_comm, BitVec.sub_add_cancel]

/-- Two addresses of the same parity are an even number of bytes away. -/
theorem sub_and_one {v pc : BitVec 64} (h : v.toNat % 2 = pc.toNat % 2) : (v - pc) &&& 1 = 0 := by
  apply BitVec.eq_of_toNat_eq
  rw [BitVec.toNat_and, BitVec.toNat_sub, show (1 : BitVec 64).toNat = 1 from rfl, Nat.and_one_is_mod]
  show _ = 0
  omega

theorem parity_next {pc : BitVec 64} {n : Nat} (h : n % 2 = pc.toNat % 2) : (BitVec.ofNat 64 n).toNat % 2 = (pc + 4).toNat % 2 := by
  rw [BitVec.toNat_add, BitVec.toNat_ofNat]
  show _ = (pc.toNat + 4) % 2 ^ 64 % 2
  omega

theorem forms_add {x y pc : BitVec 64} (hx : s.ireg dec.rs1 = x) (hpc : s.pc = pc) (hy : x + BitVec.ofInt 64 dec.imm = y)
    (hadd : dec.op ∈ immAdders) (hw : dec.op ≠ .addiw) (hj : dec.op = .jalr → y.toNat % 2 = pc.toNat % 2) : Forms host s dec y := by
  unfold Forms
  subst hx hpc hy
  simp only [immAdders, List.mem_cons, List.not_mem_nil, or_false] at hadd
  rcases hadd with h | h | h | h | h | h | h | h | h | h | h | h | h | h | h | h | h | h
  case inr.inl => exact absurd h hw
  case inr.inr.inl =>
    rw [h]
    exact ⟨_, _, rfl, congrArg some (add_sub_and (sub_and_one (hj h)))⟩
  all_goals
    rw [h]
    exact ⟨_, _, rfl, rfl⟩

/-- `addiw` forms the same value as `addi` where that has 32 bits. -/
theorem forms_addiw {u : Int} (hx : s.ireg dec.rs1 = BitVec.ofInt 64 u) (hop : dec.op = .addiw)
    (hfit : -2 ^ 31 ≤ u + dec.imm ∧ u + dec.imm < 2 ^ 31) : Forms host s dec (BitVec.ofInt 64 (u + dec.imm)) := by
  have hword : (BitVec.ofInt 64 u).setWidth 32 = BitVec.ofInt 32 u := by
    apply BitVec.eq_of_toInt_eq
    simp only [BitVec.toInt_setWidth, BitVec.toNat_ofInt, BitVec.toInt_ofInt, Int.bmod_def]
    omega
  have hsum : ((BitVec.ofInt 64 u).setWidth 32 + BitVec.ofInt 32 dec.imm).signExtend 64 = BitVec.ofInt 64 (u + dec.imm) := by
    rw [hword, ← BitVec.ofInt_add, BitVec.signExtend, BitVec.toInt_ofInt, Int.bmod_eq_of_le (by omega) (by omega)]
  unfold Forms
  rw [hop]
  refine ⟨_, _, rfl, congrArg some ?_⟩
  exact (congrArg (fun x : BitVec 64 => (x.setWidth 32 + BitVec.ofInt 32 dec.imm).signExtend 64) hx).trans hsum

end Forms

/-! ## Running a pair -/

section Run
variable {σ : Type} (port : Port σ) {host : Host} (isa : Isa) (getTime : BitVec 64) {s : Machine .rv64 σ} {dec : Decode}

/-- `lui` and `auipc` hand the value to a register other than `x0`. -/
theorem execute_upper {v : BitVec 64} (ha : action host s.hart dec dec.op = some (.i, .setRd v)) :
    ∃ s', Machine.execute port host isa getTime dec 4 s = .ok () s' ∧ s'.hart.pc = s.hart.pc + 4 ∧
      (dec.rd ≠ 0 → s'.hart.ireg dec.rd = v) := by
  refine ⟨_, Machine.execute_setRd ha isa.ext_i (by decide), rfl, fun h0 => ?_⟩
  exact Hart.ireg_writeRd s.hart h0 v

/-- `jalr` goes to what it forms. -/
theorem execute_jalr {v : BitVec 64} (hop : dec.op = .jalr) (hv : Forms host s.hart dec v) :
    ∃ s', Machine.execute port host isa getTime dec 4 s = .ok () s' ∧ s'.hart.pc = v := by
  obtain ⟨ext, act, ha, htarget⟩ := hv
  have ha' : action host s.hart dec dec.op = some (.i, .jump ((s.hart.ireg dec.rs1 + BitVec.ofInt _ dec.imm - s.hart.pc) &&& ~~~1)) := by
    rw [hop]
    rfl
  rw [ha] at ha'
  obtain ⟨rfl, rfl⟩ := Prod.mk.inj (Option.some.inj ha')
  have hexec : execInst port host isa.ext dec 4 s = .ok _ _ := execInst_jump ha isa.ext_i
  refine ⟨_, Machine.execute_of_ne_illegal hexec ?_, Option.some.inj htarget⟩
  intro hill
  have hbit := congrArg (fun x : BitVec Rv.rv64.xlen => x.getLsbD 0) hill
  simp only [BitVec.getLsbD_and, Machine.illegal] at hbit
  exact absurd hbit (by simp [Rv.xlen])

end Run

/-! ## Pairs of relocations -/

/-- The two halves fit in 32 bits: the upper one is rounded up by half of the lower one's range. -/
def FitsHalves (d : Int) : Prop := -2 ^ 31 ≤ d ∧ d < 2 ^ 31 - 2048

/-- The address of a label as a signed number. -/
def labelValue (a : Assembler) (label : Label) : Int := Int.bmod (a.labelAddress label) (2 ^ 64)

/-- Places with instructions of 32 bits and their immediates after relocation: they add up to `d`, and nothing but the
immediates is new. -/
def Halves (a t : Assembler) (o o' : SectionOffset) (d : Int) : Prop :=
  ∃ lo, -2048 ≤ lo ∧ lo ≤ 2047 ∧ Gets a t o (d - lo) ∧ Gets a t o' lo

/-- The register of the first instruction is the one that the second one adds its immediate to. -/
structure Hands (dec dec' : Decode) : Prop where
  same : dec.rd = dec'.rs1
  ne_zero : dec.rd ≠ 0
  adds : dec'.op ∈ immAdders

/-- `lui` with the upper half of an address, and an instruction with its lower half. -/
structure AbsolutePair (a : Assembler) (rh rl : Reloc) (label : Label) : Prop where
  high : rh.relaType = .hi20
  low : rl.relaType = .lo12_i ∨ rl.relaType = .lo12_s
  findsHigh : a.Finds rh label
  findsLow : a.Finds rl label
  siteHigh : a.Site rh.offset
  siteLow : a.Site rl.offset
  apart : Apart rh.offset 4 rl.offset 4
  lui : (a.instAt rh.offset).op = .lui
  format : rvInstCodec (a.instAt rl.offset).op = .i ∨ rvInstCodec (a.instAt rl.offset).op = .s
  fits : FitsHalves (labelValue a label)

/-- `auipc` and `jalr`, patched by one relocation. -/
structure CallPair (a : Assembler) (r : Reloc) (label : Label) : Prop where
  call : r.relaType = .call
  finds : a.Finds r label
  site : a.Site r.offset
  siteNext : a.Site (r.offset.plus 4)
  auipc : (a.instAt r.offset).op = .auipc
  jalr : (a.instAt (r.offset.plus 4)).op = .jalr
  fits : FitsHalves (a.distance r.offset label)

/-- `auipc` with the upper half of a distance. -/
structure UpperHalf (a : Assembler) (r : Reloc) (label : Label) : Prop where
  high : r.relaType = .pcrel_hi20
  finds : a.Finds r label
  site : a.Site r.offset
  auipc : (a.instAt r.offset).op = .auipc
  fits : FitsHalves (a.distance r.offset label)

section Pairs
variable {a t : Assembler} {o o' : SectionOffset} {r rh rl : Reloc} {label : Label} {d : Int}

/-- Both halves of `d`, and the bounds of the lower one. -/
theorem halves_of_fits (h : FitsHalves d) :
    upper (sizeT d) = d - lower (sizeT d) ∧ -2048 ≤ lower (sizeT d) ∧ lower (sizeT d) ≤ 2047 := by
  unfold FitsHalves at h
  obtain ⟨hlow, hsum⟩ := upper_lower (d := d) rfl (by omega)
  refine ⟨by omega, ?_, ?_⟩ <;> rw [hlow, Int.bmod_def] <;> norm_num <;> omega

theorem canHold_lower {dec : Decode} (hc : rvInstCodec dec.op = .i ∨ rvInstCodec dec.op = .s) (hf : FormatFits dec (rvInstCodec dec.op))
    {imm : Int} (hlo : -2048 ≤ imm) (hhi : imm ≤ 2047) : CanHold dec imm := by
  have hill : dec.op ≠ .illegal := by
    intro hop
    rw [hop] at hc
    rcases hc with hc | hc <;> cases hc
  have haddi : dec.op ≠ .c_addi := by
    intro hop
    rw [hop] at hc
    rcases hc with hc | hc <;> cases hc
  have hlt : imm < 2048 := by omega
  unfold CanHold
  rcases hc with hc | hc <;> rw [hc] at hf ⊢
  · obtain ⟨hrd, hrs1, hrs2, -, -, hplain⟩ := hf
    exact ⟨hill, by decide, ⟨hrd, hrs1, hrs2, hlo, hlt, hplain⟩, fun hop => absurd hop haddi⟩
  · obtain ⟨hrd, hrs1, hrs2, -, -, hplain⟩ := hf
    exact ⟨hill, by decide, ⟨hrd, hrs1, hrs2, hlo, hlt, hplain⟩, fun hop => absurd hop haddi⟩

theorem sizeT_labelValue (a : Assembler) (label : Label) : sizeT (labelValue a label) = a.labelAddress label := by
  have hlt := labelAddress_lt a label
  have hs := natCast_sizeT (a.labelAddress label)
  unfold labelValue
  rw [sizeT_bmod]
  omega

theorem ofInt_labelValue (a : Assembler) (label : Label) : BitVec.ofInt 64 (labelValue a label) = BitVec.ofNat 64 (a.labelAddress label) := by
  unfold labelValue
  rw [← BitVec.ofInt_natCast]
  apply BitVec.eq_of_toInt_eq
  rw [BitVec.toInt_ofInt, BitVec.toInt_ofInt, Int.bmod_bmod]

theorem ofInt_distance (a : Assembler) (o : SectionOffset) (label : Label) :
    BitVec.ofNat 64 (a.address o) + BitVec.ofInt 64 (a.distance o label) = BitVec.ofNat 64 (a.labelAddress label) := by
  unfold Assembler.distance
  rw [← BitVec.ofInt_natCast, ← BitVec.ofInt_natCast, ← BitVec.ofInt_add]
  apply BitVec.eq_of_toInt_eq
  rw [BitVec.toInt_ofInt, BitVec.toInt_ofInt, Int.add_bmod_bmod]
  congr 1
  omega

/-- An address, an upper half of a distance and the lower one. -/
theorem ofInt_halves (a : Assembler) (o : SectionOffset) (label : Label) (lo : Int) :
    BitVec.ofNat 64 (a.address o) + BitVec.ofInt 64 (a.distance o label - lo) + BitVec.ofInt 64 lo = BitVec.ofNat 64 (a.labelAddress label) := by
  rw [BitVec.add_assoc, ← BitVec.ofInt_add, Int.sub_add_cancel, ofInt_distance]

theorem AbsolutePair.relocated (h : AbsolutePair a rh rl label) (keys : List SectionOffset)
    (hk : keys = [rh.offset, rl.offset] ∨ keys = [rl.offset, rh.offset]) :
    ∃ t, relocateAll keys a = .ok (keys.map fun key => (key, true)) t ∧ Halves a t rh.offset rl.offset (labelValue a label) := by
  obtain ⟨hup, hlo, hhi⟩ := halves_of_fits h.fits
  rw [sizeT_labelValue] at hup hlo hhi
  have himmh : a.halfImm rh label = some (upper (a.labelAddress label)) := by
    unfold Assembler.halfImm
    rw [h.high]
  have himml : a.halfImm rl label = some (lower (a.labelAddress label)) := by
    unfold Assembler.halfImm
    rcases h.low with hl | hl <;> rw [hl]
  have hcanh : CanHold (a.instAt rh.offset) (upper (a.labelAddress label)) := canHold_upper (.inl h.lui) (formatFits_instAt a _) _
  have hcanl : CanHold (a.instAt rl.offset) (lower (a.labelAddress label)) := canHold_lower h.format (formatFits_instAt a _) hlo hhi
  rcases hk with rfl | rfl
  · obtain ⟨t, hrun, hgh, hgl⟩ := relocate_two h.findsHigh h.findsLow h.siteHigh h.siteLow h.apart himmh himml hcanh hcanl
    exact ⟨t, hrun, _, hlo, hhi, hup ▸ hgh, hgl⟩
  · obtain ⟨t, hrun, hgl, hgh⟩ := relocate_two h.findsLow h.findsHigh h.siteLow h.siteHigh h.apart.symm himml himmh hcanl hcanh
    exact ⟨t, hrun, _, hlo, hhi, hup ▸ hgh, hgl⟩

theorem CallPair.relocated (h : CallPair a r label) :
    ∃ t, relocate r.offset a = .ok true t ∧ Halves a t r.offset (r.offset.plus 4) (a.distance r.offset label) := by
  obtain ⟨hup, hlo, hhi⟩ := halves_of_fits h.fits
  have hcanh : CanHold (a.instAt r.offset) (upper (sizeT (a.distance r.offset label))) :=
    canHold_upper (.inr h.auipc) (formatFits_instAt a _) _
  have hcanl : CanHold (a.instAt (r.offset.plus 4)) (lower (sizeT (a.distance r.offset label))) := by
    refine canHold_lower (.inl ?_) (formatFits_instAt a _) hlo hhi
    rw [h.jalr]
    rfl
  obtain ⟨t, hrun, hgh, hgl⟩ := relocate_call h.finds h.call h.site h.siteNext (sizeT_bmod _) hcanh hcanl
  exact ⟨t, hrun, _, hlo, hhi, hup ▸ hgh, hgl⟩

theorem UpperHalf.relocated (h : UpperHalf a r label) :
    ∃ t lo, relocate r.offset a = .ok true t ∧ -2048 ≤ lo ∧ lo ≤ 2047 ∧ Gets a t r.offset (a.distance r.offset label - lo) := by
  obtain ⟨hup, hlo, hhi⟩ := halves_of_fits h.fits
  have himm : a.halfImm r label = some (upper (sizeT (a.distance r.offset label))) := by
    unfold Assembler.halfImm Assembler.distance
    rw [h.high, sizeT_bmod]
  obtain ⟨t, hrun, hg, -⟩ := relocate_half h.finds h.site himm (canHold_upper (.inr h.auipc) (formatFits_instAt a _) _)
  exact ⟨t, _, hrun, hlo, hhi, hup ▸ hg⟩

end Pairs

section Targets
variable {σ : Type} {port : Port σ} {host : Host} {isa : Isa} {getTime : BitVec 64} {s : Machine .rv64 σ} {a t : Assembler} {o o' : SectionOffset}
  {r rh rl : Reloc} {label : Label} {d : Int}

/-- The second instruction of an absolute pair forms the address of the label. -/
theorem AbsolutePair.forms (h : AbsolutePair a rh rl label) (hh : Halves a t rh.offset rl.offset (labelValue a label))
    (hands : Hands (a.instAt rh.offset) (a.instAt rl.offset))
    (heven : (a.instAt rl.offset).op = .jalr → a.labelAddress label % 2 = s.hart.pc.toNat % 2) :
    ∃ s', Machine.execute port host isa getTime (t.instAt rh.offset) 4 s = .ok () s' ∧
      Forms host s'.hart (t.instAt rl.offset) (BitVec.ofNat 64 (a.labelAddress label)) := by
  obtain ⟨lo, hlo, hhi, ⟨-, hgh⟩, ⟨-, hgl⟩⟩ := hh
  rw [hgh, hgl]
  have hop := h.lui
  have hact : action host s.hart { a.instAt rh.offset with imm := labelValue a label - lo } (a.instAt rh.offset).op =
      some (.i, .setRd (BitVec.ofInt 64 (labelValue a label - lo))) := by
    rw [hop]
    rfl
  obtain ⟨s', hrun, hpc, hrd⟩ := execute_upper port isa getTime hact
  refine ⟨s', hrun, ?_⟩
  have hreg : s'.hart.ireg (a.instAt rl.offset).rs1 = BitVec.ofInt 64 (labelValue a label - lo) := hands.same ▸ hrd hands.ne_zero
  have hfits := h.fits
  unfold FitsHalves at hfits
  have hlt := labelAddress_lt a label
  rw [← ofInt_labelValue]
  by_cases hw : (a.instAt rl.offset).op = .addiw
  · have hform : Forms host s'.hart { a.instAt rl.offset with imm := lo } (BitVec.ofInt 64 (labelValue a label - lo + lo)) :=
      forms_addiw hreg hw (by dsimp only; omega)
    rwa [Int.sub_add_cancel] at hform
  · have hparity : (a.instAt rl.offset).op = .jalr → (BitVec.ofInt 64 (labelValue a label)).toNat % 2 = s'.hart.pc.toNat % 2 := by
      intro hj
      rw [hpc, ofInt_labelValue]
      exact parity_next (heven hj)
    have hsum : BitVec.ofInt 64 (labelValue a label - lo) + BitVec.ofInt 64 lo = BitVec.ofInt 64 (labelValue a label) := by
      rw [← BitVec.ofInt_add, Int.sub_add_cancel]
    have hform : Forms host s'.hart { a.instAt rl.offset with imm := lo } _ := forms_add hreg rfl hsum hands.adds hw hparity
    exact hform

variable (port host isa getTime) in
/-- The value of the patched `auipc` is the address of the label less the lower half. -/
theorem execute_auipc {lo : Int} (hpc : s.hart.pc = BitVec.ofNat 64 (a.address o)) (hop : (a.instAt o).op = .auipc)
    (hg : Gets a t o (a.distance o label - lo)) :
    ∃ s', Machine.execute port host isa getTime (t.instAt o) 4 s = .ok () s' ∧ s'.hart.pc = s.hart.pc + 4 ∧
      ((a.instAt o).rd ≠ 0 → s'.hart.ireg (a.instAt o).rd = BitVec.ofNat 64 (a.address o) + BitVec.ofInt 64 (a.distance o label - lo)) := by
  rw [hg.2]
  have hact : action host s.hart { a.instAt o with imm := a.distance o label - lo } (a.instAt o).op =
      some (.i, .setRd (BitVec.ofNat 64 (a.address o) + BitVec.ofInt 64 (a.distance o label - lo))) := by
    rw [hop, ← hpc]
    rfl
  exact execute_upper port isa getTime hact

theorem CallPair.jumps (h : CallPair a r label) (hh : Halves a t r.offset (r.offset.plus 4) (a.distance r.offset label))
    (hands : Hands (a.instAt r.offset) (a.instAt (r.offset.plus 4))) (hpc : s.hart.pc = BitVec.ofNat 64 (a.address r.offset))
    (heven : a.labelAddress label % 2 = a.address r.offset % 2) :
    ∃ s' s'', Machine.execute port host isa getTime (t.instAt r.offset) 4 s = .ok () s' ∧
      Machine.execute port host isa getTime (t.instAt (r.offset.plus 4)) 4 s' = .ok () s'' ∧
      s''.hart.pc = BitVec.ofNat 64 (a.labelAddress label) := by
  obtain ⟨lo, hlo, hhi, hgh, ⟨-, hgl⟩⟩ := hh
  obtain ⟨s', hrun, hpc', hrd⟩ := execute_auipc port host isa getTime hpc h.auipc hgh
  have hparity : (BitVec.ofNat 64 (a.labelAddress label)).toNat % 2 = s'.hart.pc.toNat % 2 := by
    have hpar : a.labelAddress label % 2 = s.hart.pc.toNat % 2 := by
      rw [hpc]
      show _ = a.address r.offset % 2 ^ 64 % 2
      omega
    rw [hpc']
    exact parity_next hpar
  have hw : (a.instAt (r.offset.plus 4)).op ≠ .addiw := by
    rw [h.jalr]
    decide
  have hform : Forms host s'.hart { a.instAt (r.offset.plus 4) with imm := lo } _ :=
    forms_add (hands.same ▸ hrd hands.ne_zero) rfl (ofInt_halves a r.offset label lo) hands.adds hw fun _ => hparity
  rw [← hgl] at hform
  obtain ⟨s'', hrun', hpc''⟩ := execute_jalr port isa getTime (by rw [hgl]; exact h.jalr) hform
  exact ⟨s', s'', hrun, hrun', hpc''⟩

theorem UpperHalf.forms {lo : Int} (h : UpperHalf a r label) (hg : Gets a t r.offset (a.distance r.offset label - lo))
    (h0 : (a.instAt r.offset).rd ≠ 0) (hpc : s.hart.pc = BitVec.ofNat 64 (a.address r.offset)) :
    ∃ s', Machine.execute port host isa getTime (t.instAt r.offset) 4 s = .ok () s' ∧
      s'.hart.ireg (a.instAt r.offset).rd + BitVec.ofInt _ lo = BitVec.ofNat 64 (a.labelAddress label) := by
  obtain ⟨s', hrun, -, hrd⟩ := execute_auipc port host isa getTime hpc h.auipc hg
  refine ⟨s', hrun, ?_⟩
  exact (congrArg (fun x : BitVec 64 => x + BitVec.ofInt 64 lo) (hrd h0)).trans (ofInt_halves a r.offset label lo)

end Targets

/-- Relocation leaves in a pair the two halves of the label's address or distance, the lower one of twelve bits, and in
the instructions nothing else; the pair then forms the address of the label, if the first one hands it a register other
than `x0` to add to, and if a jump goes an even number of bytes. -/
theorem pairs_recombine {σ : Type} (port : Port σ) (host : Host) (isa : Isa) (getTime : BitVec 64) (a : Assembler) :
    (∀ rh rl label, AbsolutePair a rh rl label → ∀ keys, keys = [rh.offset, rl.offset] ∨ keys = [rl.offset, rh.offset] →
      ∃ t, relocateAll keys a = .ok (keys.map fun key => (key, true)) t ∧ Halves a t rh.offset rl.offset (labelValue a label) ∧
        ∀ s : Machine .rv64 σ, Hands (a.instAt rh.offset) (a.instAt rl.offset) →
          ((a.instAt rl.offset).op = .jalr → a.labelAddress label % 2 = s.hart.pc.toNat % 2) →
          ∃ s', Machine.execute port host isa getTime (t.instAt rh.offset) 4 s = .ok () s' ∧
            Forms host s'.hart (t.instAt rl.offset) (BitVec.ofNat 64 (a.labelAddress label))) ∧
    (∀ r label, CallPair a r label →
      ∃ t, relocate r.offset a = .ok true t ∧ Halves a t r.offset (r.offset.plus 4) (a.distance r.offset label) ∧
        ∀ s : Machine .rv64 σ, Hands (a.instAt r.offset) (a.instAt (r.offset.plus 4)) →
          s.hart.pc = BitVec.ofNat 64 (a.address r.offset) → a.labelAddress label % 2 = a.address r.offset % 2 →
          ∃ s' s'', Machine.execute port host isa getTime (t.instAt r.offset) 4 s = .ok () s' ∧
            Machine.execute port host isa getTime (t.instAt (r.offset.plus 4)) 4 s' = .ok () s'' ∧
            s''.hart.pc = BitVec.ofNat 64 (a.labelAddress label)) ∧
    (∀ r label, UpperHalf a r label →
      ∃ t lo, relocate r.offset a = .ok true t ∧ -2048 ≤ lo ∧ lo ≤ 2047 ∧ Gets a t r.offset (a.distance r.offset label - lo) ∧
        ∀ s : Machine .rv64 σ, (a.instAt r.offset).rd ≠ 0 → s.hart.pc = BitVec.ofNat 64 (a.address r.offset) →
          ∃ s', Machine.execute port host isa getTime (t.instAt r.offset) 4 s = .ok () s' ∧
            s'.hart.ireg (a.instAt r.offset).rd + BitVec.ofInt _ lo = BitVec.ofNat 64 (a.labelAddress label)) := by
  refine ⟨fun rh rl label h keys hk => ?_, fun r label h => ?_, fun r label h => ?_⟩
  · obtain ⟨t, hrun, hhalves⟩ := h.relocated keys hk
    exact ⟨t, hrun, hhalves, fun s hands heven => h.forms hhalves hands heven⟩
  · obtain ⟨t, hrun, hhalves⟩ := h.relocated
    exact ⟨t, hrun, hhalves, fun s hands hpc heven => h.jumps hhalves hands hpc heven⟩
  · obtain ⟨t, lo, hrun, hlo, hhi, hg⟩ := h.relocated
    exact ⟨t, lo, hrun, hlo, hhi, hg, fun s h0 hpc => h.forms hg h0 hpc⟩

/-- A constant in `a0` and a call of it. -/
def twoPairs : Assembler :=
  ((((((((Assembler.new.addConstant ['x'] 0x12345ffe).addReloc ['x'] .hi20).addInst 0x00000537).addReloc ['x'] .lo12_i).addInst
    0x00050513).addReloc ['x'] .call).addInst 0x00000097).addInst 0x000080e7)

theorem twoPairs_site : ∀ o ∈ [0, 4, 8, 12], twoPairs.Site ⟨1, o⟩ := by
  intro o ho
  refine ⟨⟨_, rfl, ?_⟩, ?_⟩ <;> revert o <;> decide

theorem pairs_recombine_twoPairs :
    (∃ t, relocateAll [⟨1, 4⟩, ⟨1, 0⟩] twoPairs = .ok [(⟨1, 4⟩, true), (⟨1, 0⟩, true)] t ∧
      ∃ s', Machine.execute (mmuSoft .rv64) default .imafdc 0 (t.instAt ⟨1, 0⟩) 4 (bareMachine default) = .ok () s' ∧
        Forms default s'.hart (t.instAt ⟨1, 4⟩) 0x12345ffe) ∧
    ∃ t, relocate ⟨1, 8⟩ twoPairs = .ok true t ∧
      ∃ s' s'', Machine.execute (mmuSoft .rv64) default .imafdc 0 (t.instAt ⟨1, 8⟩) 4 (bareMachine { (default : Hart .rv64) with pc := 8 }) =
          .ok () s' ∧
        Machine.execute (mmuSoft .rv64) default .imafdc 0 (t.instAt ⟨1, 12⟩) 4 s' = .ok () s'' ∧ s''.hart.pc = 0x12345ffe := by
  obtain ⟨habs, hcall, -⟩ := pairs_recombine (mmuSoft .rv64) default .imafdc 0 twoPairs
  have hpair : AbsolutePair twoPairs ⟨⟨1, 0⟩, ['x'], .hi20⟩ ⟨⟨1, 4⟩, ['x'], .lo12_i⟩ ⟨['x'], ⟨shnAbs, 0x12345ffe⟩, 0⟩ :=
    ⟨rfl, .inl rfl, ⟨by decide, by decide, .inl rfl⟩, ⟨by decide, by decide, .inl rfl⟩, twoPairs_site 0 (by decide),
      twoPairs_site 4 (by decide), by decide, by decide, .inl (by decide), by decide, by decide⟩
  have hjump : CallPair twoPairs ⟨⟨1, 8⟩, ['x'], .call⟩ ⟨['x'], ⟨shnAbs, 0x12345ffe⟩, 0⟩ :=
    ⟨rfl, ⟨by decide, by decide, .inl rfl⟩, twoPairs_site 8 (by decide), twoPairs_site 12 (by decide), by decide, by decide, by decide,
      by decide⟩
  obtain ⟨t, hrun, -, hforms⟩ := habs _ _ _ hpair _ (.inr rfl)
  obtain ⟨t', hrun', -, hjumps⟩ := hcall _ _ hjump
  refine ⟨⟨t, hrun, hforms _ ⟨by decide, by decide, by decide⟩ fun hop => absurd hop (by decide)⟩, t', hrun', ?_⟩
  exact hjumps _ ⟨by decide, by decide, by decide⟩ rfl (by decide)

/-- A constant made in `x0`, and a call of an odd address. -/
def lostPairs : Assembler :=
  ((((((((Assembler.new.addConstant ['x'] 4097).addReloc ['x'] .hi20).addInst 0x00000037).addReloc ['x'] .lo12_i).addInst
    0x00000513).addReloc ['x'] .call).addInst 0x00000097).addInst 0x000080e7)

theorem lostPairs_site : ∀ o ∈ [0, 4, 8, 12], lostPairs.Site ⟨1, o⟩ := by
  intro o ho
  refine ⟨⟨_, rfl, ?_⟩, ?_⟩ <;> revert o <;> decide

theorem lostPairs_relocated :
    (∃ t, relocateAll [⟨1, 0⟩, ⟨1, 4⟩] lostPairs = .ok [(⟨1, 0⟩, true), (⟨1, 4⟩, true)] t ∧
      t.instAt ⟨1, 0⟩ = { op := .lui, codec := .u, imm := 4096 } ∧ t.instAt ⟨1, 4⟩ = { op := .addi, codec := .i, rd := 10, imm := 1 }) ∧
    ∃ t, relocate ⟨1, 8⟩ lostPairs = .ok true t ∧
      t.instAt ⟨1, 8⟩ = { op := .auipc, codec := .u, rd := 1, imm := 4096 } ∧
      t.instAt ⟨1, 12⟩ = { op := .jalr, codec := .i, rd := 1, rs1 := 1, imm := -7 } :=
  ⟨⟨_, rfl, by decide, by decide⟩, _, rfl, by decide, by decide⟩

/-- Both are relocated; the one forms the lower half alone, the other goes to the even address below. -/
theorem lostPairs_miss :
    (AbsolutePair lostPairs ⟨⟨1, 0⟩, ['x'], .hi20⟩ ⟨⟨1, 4⟩, ['x'], .lo12_i⟩ ⟨['x'], ⟨shnAbs, 4097⟩, 0⟩ ∧
      ∃ t s', relocateAll [⟨1, 0⟩, ⟨1, 4⟩] lostPairs = .ok [(⟨1, 0⟩, true), (⟨1, 4⟩, true)] t ∧
        Machine.execute (mmuSoft .rv64) default .imafdc 0 (t.instAt ⟨1, 0⟩) 4 (bareMachine default) = .ok () s' ∧
        Forms default s'.hart (t.instAt ⟨1, 4⟩) 1 ∧ ¬ Forms default s'.hart (t.instAt ⟨1, 4⟩) 4097) ∧
    CallPair lostPairs ⟨⟨1, 8⟩, ['x'], .call⟩ ⟨['x'], ⟨shnAbs, 4097⟩, 0⟩ ∧
      ∃ t s' s'', relocate ⟨1, 8⟩ lostPairs = .ok true t ∧
        Machine.execute (mmuSoft .rv64) default .imafdc 0 (t.instAt ⟨1, 8⟩) 4 (bareMachine { (default : Hart .rv64) with pc := 8 }) =
          .ok () s' ∧
        Machine.execute (mmuSoft .rv64) default .imafdc 0 (t.instAt ⟨1, 12⟩) 4 s' = .ok () s'' ∧ s''.hart.pc = 4096 := by
  obtain ⟨⟨t, hrun, hlui, haddi⟩, t', hrun', hauipc, hjalr⟩ := lostPairs_relocated
  have hpair : AbsolutePair lostPairs ⟨⟨1, 0⟩, ['x'], .hi20⟩ ⟨⟨1, 4⟩, ['x'], .lo12_i⟩ ⟨['x'], ⟨shnAbs, 4097⟩, 0⟩ :=
    ⟨rfl, .inl rfl, ⟨by decide, by decide, .inl rfl⟩, ⟨by decide, by decide, .inl rfl⟩, lostPairs_site 0 (by decide),
      lostPairs_site 4 (by decide), by decide, by decide, .inl (by decide), by decide, by decide⟩
  have hjump : CallPair lostPairs ⟨⟨1, 8⟩, ['x'], .call⟩ ⟨['x'], ⟨shnAbs, 4097⟩, 0⟩ :=
    ⟨rfl, ⟨by decide, by decide, .inl rfl⟩, lostPairs_site 8 (by decide), lostPairs_site 12 (by decide), by decide, by decide, by decide,
      by decide⟩
  refine ⟨⟨hpair, t, ?_⟩, hjump, t', ?_⟩
  · rw [hlui, haddi]
    refine ⟨_, hrun, rfl, ⟨_, _, rfl, rfl⟩, ?_⟩
    rintro ⟨ext, act, hact, htarget⟩
    obtain ⟨rfl, rfl⟩ := Prod.mk.inj (Option.some.inj hact)
    have hone : (1 : BitVec 64) = 4097 := Option.some.inj htarget
    exact absurd hone (by decide)
  · rw [hauipc, hjalr]
    exact ⟨_, _, hrun', rfl, rfl, rfl⟩

end Rv8.Emu
