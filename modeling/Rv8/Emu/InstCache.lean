import Rv8.Asm.RoundTrip
import Rv8.Emu.Runloop
/-!
# The cache of decoded instructions

The cache has no valid bit: an entry that was never filled looks like the word 0 with
a fresh record, whose opcode is illegal. A record in it was decoded into what an
earlier instruction left behind, but the decoders assign every field that executing
the opcode reads. So the cache shows only on the word 0, and only where the processor
has compressed instructions, since there the word 0 decodes to an `addi`.
-/

namespace Rv8.Emu

open Rv8.Lib Rv8.Asm Prog

/-! ## What is read of a record -/

/-- The fields that executing a record reads: none but the opcode where it is illegal, and `rs3` only where
there is a third source. -/
def Decode.read (dec : Decode) : Decode :=
  if dec.op = .illegal then {}
  else { op := dec.op, rd := dec.rd, rs1 := dec.rs1, rs2 := dec.rs2, imm := dec.imm,
         rs3 := if rvInstCodec dec.op = .r4_m then dec.rs3 else 0 }

theorem Decode.read_op (dec : Decode) : (Decode.read dec).op = dec.op := by
  unfold Decode.read
  split
  · next h => exact h.symm
  · rfl

section Reads
variable {R : Rv} {σ : Type} (port : Port σ) (host : Host)

theorem action_read (s : Hart R) (dec : Decode) : action host s (Decode.read dec) dec.op = action host s dec dec.op := by
  obtain ⟨imm, rd, rs1, rs2, rs3, op, codec, rm, aq, rl, pred, succ⟩ := dec
  cases op <;> rfl

/-- Running an action reads no more than `rd` and `imm`. -/
theorem Action.run_congr {dec dec' : Decode} (hrd : dec.rd = dec'.rd) (himm : dec.imm = dec'.imm) (pcOffset : BitVec R.xlen)
    (a : Action R) : a.run port host dec pcOffset = a.run port host dec' pcOffset := by
  cases a <;> simp only [Action.run, hrd, himm]

theorem execInst_read (rv : Ext → Bool) (dec : Decode) (pcOffset : BitVec R.xlen) :
    execInst port host rv (Decode.read dec) pcOffset = execInst port host rv dec pcOffset := by
  unfold execInst
  simp only [Decode.read_op, action_read]
  by_cases h : dec.op = .illegal
  · simp only [h]
    rfl
  · have hrd : (Decode.read dec).rd = dec.rd := by simp [Decode.read, h]
    have himm : (Decode.read dec).imm = dec.imm := by simp [Decode.read, h]
    simp only [Action.run_congr port host hrd himm pcOffset]

/-- Of the record, a CSR access reads `rd`. -/
theorem Processor.instCsr_congr {xlen : Nat} (getTime : BitVec 64) (s : Processor xlen) {dec dec' : Decode}
    (hrd : dec.rd = dec'.rd) (op : CsrOp) (csr : Nat) (value : BitVec xlen) (pcOffset : BitVec 64) :
    s.instCsr getTime dec op csr value pcOffset = s.instCsr getTime dec' op csr value pcOffset := by
  have hset : ∀ (t : Processor xlen) v, t.setRd dec v = t.setRd dec' v := by
    intro t v
    simp only [Processor.setRd, hrd]
  unfold instCsr
  cases RvCsr.ofNumber csr with
  | none => rfl
  | some c =>
    cases c <;>
      simp only [instCsrCase, setCsr, getCsr, setCsrHi, getCsrHi, hset]

theorem Machine.instPriv_read (getTime : BitVec 64) (s : Machine R σ) (dec : Decode) (pcOffset : BitVec R.xlen) :
    s.instPriv getTime (Decode.read dec) pcOffset = s.instPriv getTime dec pcOffset := by
  by_cases h : dec.op = .illegal
  · simp [instPriv, Processor.instPrivCsr, Decode.read, h]
  · have hcsr : s.hart.toProcessor.instPrivCsr getTime (Decode.read dec) (pcOffset.setWidth 64) =
        s.hart.toProcessor.instPrivCsr getTime dec (pcOffset.setWidth 64) := by
      have hrd : (Decode.read dec).rd = dec.rd := by simp [Decode.read, h]
      have hrs1 : (Decode.read dec).rs1 = dec.rs1 := by simp [Decode.read, h]
      have himm : (Decode.read dec).imm = dec.imm := by simp [Decode.read, h]
      unfold Processor.instPrivCsr
      simp only [Decode.read_op, hrs1, himm, Processor.instCsr_congr getTime _ hrd]
    unfold instPriv
    rw [hcsr, Decode.read_op]

/-- Two records that are read alike are executed alike. -/
theorem Machine.execute_read (isa : Isa) (getTime : BitVec 64) (dec : Decode) (pcOffset : BitVec R.xlen) :
    execute port host isa getTime (Decode.read dec) pcOffset = execute port host isa getTime dec pcOffset := by
  unfold execute
  simp only [execInst_read, instPriv_read]

end Reads

/-! ## Decoding into a used record -/

/-- The decoders assign the registers and the immediate, and the third source where there is one. -/
theorem decodeType_fresh {codec : RvCodec} (h : codec ≠ .illegal) (dec dec' : Decode) (inst : Nat) :
    (decodeType codec dec inst).rd = (decodeType codec dec' inst).rd ∧
      (decodeType codec dec inst).rs1 = (decodeType codec dec' inst).rs1 ∧
      (decodeType codec dec inst).rs2 = (decodeType codec dec' inst).rs2 ∧
      (decodeType codec dec inst).imm = (decodeType codec dec' inst).imm ∧
      (codec = .r4_m → (decodeType codec dec inst).rs3 = (decodeType codec dec' inst).rs3) := by
  cases codec
  case illegal => exact absurd rfl h
  case r4_m => exact ⟨rfl, rfl, rfl, rfl, fun _ => rfl⟩
  all_goals exact ⟨rfl, rfl, rfl, rfl, nofun⟩

/-- Records that agree on the opcode and on what the decoder of its format assigns. -/
structure SameDecoded (a b : Decode) : Prop where
  op : a.op = b.op
  fields : rvInstCodec a.op ≠ .illegal → a.rd = b.rd ∧ a.rs1 = b.rs1 ∧ a.rs2 = b.rs2 ∧ a.imm = b.imm
  rs3 : rvInstCodec a.op = .r4_m → a.rs3 = b.rs3

theorem sameDecoded_decodeInstType (op : RvOp) (dec : Decode) (inst : Nat) :
    SameDecoded (decodeInstType { dec with op } inst) (decodeInstType { op } inst) := by
  have ha : (decodeInstType { dec with op } inst).op = op := decodeInstType_op _ _
  have hb : (decodeInstType { op } inst).op = op := decodeInstType_op _ _
  refine ⟨ha.trans hb.symm, ?_, ?_⟩
  · intro h
    rw [ha] at h
    obtain ⟨hrd, hrs1, hrs2, himm, -⟩ := decodeType_fresh h { dec with op, codec := rvInstCodec op }
      { op, codec := rvInstCodec op } inst
    exact ⟨hrd, hrs1, hrs2, himm⟩
  · intro h
    rw [ha] at h
    have hc : rvInstCodec op ≠ .illegal := by simp [h]
    exact (decodeType_fresh hc { dec with op, codec := rvInstCodec op } { op, codec := rvInstCodec op } inst).2.2.2.2 h

theorem op_eq_illegal_of_codec {op : RvOp} (h : rvInstCodec op = .illegal) : op = .illegal := by
  cases op <;> first | rfl | cases h

theorem SameDecoded.read {a b : Decode} (h : SameDecoded a b) : Decode.read a = Decode.read b := by
  unfold Decode.read
  rw [← h.op]
  split
  · rfl
  · next hop =>
    obtain ⟨hrd, hrs1, hrs2, himm⟩ := h.fields fun hc => hop (op_eq_illegal_of_codec hc)
    rw [hrd, hrs1, hrs2, himm]
    split
    · next h4 => rw [h.rs3 h4]
    · rfl

/-- No compressed instruction has three sources. -/
theorem codec_decomp_ne_r4_m (op : RvOp) :
    rvInstCodec (rvInstDecompRv32 op) ≠ .r4_m ∧ rvInstCodec (rvInstDecompRv64 op) ≠ .r4_m := by
  cases op <;> exact ⟨nofun, nofun⟩

theorem SameDecoded.decompressInst {decomp : RvOp → RvOp} (hill : decomp .illegal = .illegal)
    (h4 : ∀ op, rvInstCodec (decomp op) ≠ .r4_m) {a b : Decode} (h : SameDecoded a b) :
    SameDecoded (decompressInst decomp a) (decompressInst decomp b) := by
  unfold Asm.decompressInst
  rw [← h.op]
  by_cases hd : decomp a.op = .illegal
  · simp only [hd, ne_eq, not_true_eq_false, if_false]
    exact h
  · simp only [ne_eq, hd, not_false_eq_true, if_true]
    refine ⟨rfl, fun _ => h.fields fun hc => hd ?_, fun h4' => absurd h4' (h4 a.op)⟩
    rw [op_eq_illegal_of_codec hc, hill]

/-- What is read of a decoded record does not depend on the record it was decoded into. -/
theorem instDecode_read (R : Rv) (isa : Isa) (dec : Decode) (inst : Nat) :
    Decode.read (instDecode R isa dec inst) = Decode.read (instDecode R isa {} inst) := by
  have h := sameDecoded_decodeInstType (decodeInstOp (isa.flags R) inst) dec inst
  unfold instDecode
  split
  · cases R with
    | rv32 => exact (h.decompressInst rfl fun op => (codec_decomp_ne_r4_m op).1).read
    | rv64 => exact (h.decompressInst rfl fun op => (codec_decomp_ne_r4_m op).2).read
  · exact h.read

/-! ## Histories -/

/-- What happens to the cache in the course of a run. -/
inductive CacheEvent
  | enter
  | fetch (inst : Nat)

def InstCache.next (R : Rv) (isa : Isa) (c : InstCache) : CacheEvent → InstCache
  | .enter => c.enter
  | .fetch inst => c.lookup R isa inst

/-- The cache after a history from construction. -/
def InstCache.after (R : Rv) (isa : Isa) (evs : List CacheEvent) : InstCache := evs.foldl (InstCache.next R isa) {}

/-- Each fetched word is executed as its fresh decoding would be read. -/
def Transparent (R : Rv) (isa : Isa) (evs : List CacheEvent) : Prop :=
  ∀ pre inst post, evs = pre ++ .fetch inst :: post →
    Decode.read ((InstCache.after R isa pre).lookup R isa inst).dec = Decode.read (instDecode R isa {} inst)

/-- Some other word that shares the entry of the word 0 was fetched. -/
def Evicts (evs : List CacheEvent) : Prop := ∃ w, CacheEvent.fetch w ∈ evs ∧ w ≠ 0 ∧ w % instCacheSize = 0

/-- The word 0 is never fetched before its entry was taken. -/
def ZeroEvicted (evs : List CacheEvent) : Prop := ∀ pre post, evs = pre ++ .fetch 0 :: post → Evicts pre

/-- The entry holds a word that belongs there and its decoding. -/
def Filled (R : Rv) (isa : Isa) (key : Nat) (e : InstCacheEnt) : Prop :=
  e.inst % instCacheSize = key ∧ Decode.read e.dec = Decode.read (instDecode R isa {} e.inst)

/-- Every entry is as constructed or was filled. -/
def InstCache.Ok (R : Rv) (isa : Isa) (c : InstCache) : Prop := ∀ key, c.ent key = {} ∨ Filled R isa key (c.ent key)

section Lookup
variable {R : Rv} {isa : Isa} {c : InstCache} {inst : Nat}

theorem lookup_hit (h : (c.ent (inst % instCacheSize)).inst = inst) :
    c.lookup R isa inst = { c with dec := (c.ent (inst % instCacheSize)).dec } := if_pos h

theorem lookup_miss (h : (c.ent (inst % instCacheSize)).inst ≠ inst) :
    c.lookup R isa inst =
      { ent := Function.update c.ent (inst % instCacheSize) { inst, dec := instDecode R isa c.dec inst }
        dec := instDecode R isa c.dec inst } := if_neg h

/-- An entry changes only where a word misses, and is filled then. -/
theorem lookup_ent (R : Rv) (isa : Isa) (c : InstCache) (inst key : Nat) :
    (c.lookup R isa inst).ent key = c.ent key ∨ Filled R isa key ((c.lookup R isa inst).ent key) := by
  by_cases hit : (c.ent (inst % instCacheSize)).inst = inst
  · rw [lookup_hit hit]
    exact .inl rfl
  · rw [lookup_miss hit]
    by_cases hk : key = inst % instCacheSize
    · subst hk
      refine .inr ?_
      simp only [Function.update_self]
      exact ⟨rfl, instDecode_read R isa c.dec inst⟩
    · refine .inl ?_
      simp only [Function.update_of_ne hk]

theorem InstCache.Ok.lookup (h : c.Ok R isa) : (c.lookup R isa inst).Ok R isa := by
  intro key
  rcases lookup_ent R isa c inst key with he | he
  · rw [he]
    exact h key
  · exact .inr he

/-- The record executed is right unless the word is 0 and its entry was not filled. -/
theorem lookup_read (h : c.Ok R isa) (hz : inst = 0 → Filled R isa 0 (c.ent 0)) :
    Decode.read (c.lookup R isa inst).dec = Decode.read (instDecode R isa {} inst) := by
  by_cases hit : (c.ent (inst % instCacheSize)).inst = inst
  · have hf : Filled R isa (inst % instCacheSize) (c.ent (inst % instCacheSize)) := by
      rcases h (inst % instCacheSize) with he | he
      · -- an entry as constructed matches the word 0 alone
        have h0 : inst = 0 := by
          rw [he] at hit
          exact hit.symm
        subst h0
        exact hz rfl
      · exact he
    have hr := hf.2
    rw [lookup_hit hit]
    rw [hit] at hr
    exact hr
  · rw [lookup_miss hit]
    exact instDecode_read R isa c.dec inst

/-- Fetching another word of the entry fills it. -/
theorem filled_zero_lookup (h : c.Ok R isa) (h0 : inst ≠ 0) (hk : inst % instCacheSize = 0) :
    Filled R isa 0 ((c.lookup R isa inst).ent 0) := by
  rcases lookup_ent R isa c inst 0 with he | he
  · rcases h 0 with hc | hc
    · have miss : (c.ent (inst % instCacheSize)).inst ≠ inst := by
        rw [hk, hc]
        exact Ne.symm h0
      rw [lookup_miss miss, hk, hc] at he
      simp only [Function.update_self, InstCacheEnt.mk.injEq] at he
      exact absurd he.1 h0
    · rw [he]
      exact hc
  · exact he

/-- The other words leave the entry of the word 0 as constructed. -/
theorem ent_zero_lookup (h : c.ent 0 = {}) (hw : ¬ (inst ≠ 0 ∧ inst % instCacheSize = 0)) :
    (c.lookup R isa inst).ent 0 = {} := by
  by_cases hk : inst % instCacheSize = 0
  · have h0 : inst = 0 := by
      by_contra h0
      exact hw ⟨h0, hk⟩
    subst h0
    rw [lookup_hit (by rw [hk, h])]
    exact h
  · by_cases hit : (c.ent (inst % instCacheSize)).inst = inst
    · rw [lookup_hit hit]
      exact h
    · rw [lookup_miss hit]
      simp only [Function.update_of_ne (Ne.symm hk)]
      exact h

end Lookup

section After
variable (R : Rv) (isa : Isa) (evs : List CacheEvent)

theorem after_append (ev : CacheEvent) : InstCache.after R isa (evs ++ [ev]) = (InstCache.after R isa evs).next R isa ev := by
  unfold InstCache.after
  rw [List.foldl_append]
  rfl

theorem ok_after : (InstCache.after R isa evs).Ok R isa := by
  induction evs using List.reverseRecOn with
  | nil => exact fun _ => .inl rfl
  | append_singleton evs ev ih =>
    rw [after_append]
    cases ev with
    | enter => exact ih
    | fetch inst => exact ih.lookup

theorem filled_zero_after (h : Evicts evs) : Filled R isa 0 ((InstCache.after R isa evs).ent 0) := by
  induction evs using List.reverseRecOn with
  | nil => simp [Evicts] at h
  | append_singleton evs ev ih =>
    rw [after_append]
    obtain ⟨w, hw, h0, hk⟩ := h
    rcases List.mem_append.1 hw with hw | hw
    · -- filled before, and an entry that changes is filled again
      have hf := ih ⟨w, hw, h0, hk⟩
      cases ev with
      | enter => exact hf
      | fetch inst =>
        rcases lookup_ent R isa (InstCache.after R isa evs) inst 0 with he | he
        · show Filled R isa 0 (((InstCache.after R isa evs).lookup R isa inst).ent 0)
          rw [he]
          exact hf
        · exact he
    · obtain rfl := List.mem_singleton.1 hw
      exact filled_zero_lookup (ok_after R isa evs) h0 hk

theorem ent_zero_after (h : ¬ Evicts evs) : (InstCache.after R isa evs).ent 0 = {} := by
  induction evs using List.reverseRecOn with
  | nil => rfl
  | append_singleton evs ev ih =>
    rw [after_append]
    have he : (InstCache.after R isa evs).ent 0 = {} := by
      apply ih
      rintro ⟨w, hw, h0, hk⟩
      exact h ⟨w, List.mem_append_left _ hw, h0, hk⟩
    cases ev with
    | enter => exact he
    | fetch inst => exact ent_zero_lookup he fun hw => h ⟨inst, by simp, hw⟩

end After

/-! ## Transparency -/

/-- The word 0 is an instruction exactly where there are compressed ones. -/
theorem read_instDecode_zero (R : Rv) (isa : Isa) :
    Decode.read (instDecode R isa {} 0) = Decode.read {} ↔ isa.compressed = false := by
  cases R <;> cases isa <;> decide +kernel

/-- The cache is transparent exactly where the word 0 is not decoded, or is never fetched before another word
of its entry. -/
theorem transparent_iff (R : Rv) (isa : Isa) (evs : List CacheEvent) :
    Transparent R isa evs ↔ isa.compressed = false ∨ ZeroEvicted evs := by
  constructor
  · intro h
    rw [or_iff_not_imp_left]
    intro hc pre post hev
    by_contra hno
    have hent := ent_zero_after R isa pre hno
    have hread := h pre 0 post hev
    rw [lookup_hit (by rw [Nat.zero_mod, hent])] at hread
    simp only [Nat.zero_mod, hent] at hread
    exact hc ((read_instDecode_zero R isa).1 hread.symm)
  · intro h pre inst post hev
    by_cases hz : inst = 0 → Filled R isa 0 ((InstCache.after R isa pre).ent 0)
    · exact lookup_read (ok_after R isa pre) hz
    · rw [Classical.not_imp] at hz
      obtain ⟨rfl, hnf⟩ := hz
      have hno : ¬ Evicts pre := fun he => hnf (filled_zero_after R isa pre he)
      rcases h with hc | hc
      · have hent := ent_zero_after R isa pre hno
        rw [lookup_hit (by rw [Nat.zero_mod, hent])]
        simp only [Nat.zero_mod, hent]
        exact ((read_instDecode_zero R isa).2 hc).symm
      · exact absurd (hc pre post hev) hno

/-- The first instruction of a run is the word 0. -/
theorem not_transparent_zero : ¬ Transparent .rv64 .imafdc [.enter, .fetch 0] := by
  intro h
  have hread := h [.enter] 0 [] rfl
  revert hread
  decide +kernel

end Rv8.Emu
