import Rv8.Asm.LoadImm
import Rv8.Emu.InstCache
import Rv8.Emu.IllegalInstruction
/-!
# Which constants are loaded

The words of `load_imm` are valid and change only their register. The `lui` of
`load_imm_r` has the upper bits of its value as they are, although the `addi` after it
extends the sign of the lower ones, so that 4096 is missing wherever bit 11 of that
value is set, unless it is shifted out later.
-/

namespace Rv8.Emu

open Rv8.Lib Rv8.Asm

/-! ## Emitted words -/

/-- One instruction of four bytes, which every processor model reads as the record. -/
structure Encodes (inst : Nat) (d : Decode) : Prop where
  ne_zero : inst ≠ 0
  length : instLength inst = 4
  decoded : ∀ isa dec, Decode.read (instDecode .rv64 isa dec inst) = d

theorem paths_emitted : ∀ isa : Isa, ∀ op ∈ [RvOp.lui, .addi, .slli],
    decodeTree.allPaths (fun _ l => l.op (isa.flags .rv64) = op) (opCube op) = true := by
  intro isa
  cases isa <;> decide +kernel

theorem decodeInstOp_emitted {isa : Isa} {op : RvOp} {inst : Nat} (hop : op ∈ [RvOp.lui, .addi, .slli]) (h : (opCube op).Mem inst) :
    decodeInstOp (isa.flags .rv64) inst = op := by
  obtain ⟨c, -, hp⟩ := BitTree.Decision.allPaths_sound decodeTree_wf (paths_emitted isa op hop) h
  exact of_decide_eq_true hp

/-- No fixed bit of the three is an operand bit, and none of them is compressed. -/
theorem emitted_bits : ∀ op ∈ [RvOp.lui, .addi, .slli],
    rvInstCodec op ≠ .cs ∧ rvInstCodec op ≠ .r4_m ∧ op ≠ .illegal ∧ rvInstDecompRv64 op = .illegal ∧ rvInstMatch op ≠ 0 ∧ fixesLength op = true ∧
      opLength op = 4 ∧ formatBits (rvInstCodec op) &&& rvInstMask op = 0 ∧ rvInstMatch op &&& rvInstMask op = rvInstMatch op := by
  decide

theorem encodeInst_codec {op : RvOp} (hop : op ∈ [RvOp.lui, .addi, .slli]) (rd rs1 : Nat) (imm : Int) (codec : RvCodec) :
    encodeInst { op, rd, rs1, imm, codec } = encodeInst { op, rd, rs1, imm } := by
  simp only [List.mem_cons, List.not_mem_nil, or_false] at hop
  rcases hop with rfl | rfl | rfl <;> rfl

theorem encodes_of_fits {op : RvOp} (hop : op ∈ [RvOp.lui, .addi, .slli]) {rd rs1 : Nat} {imm : Int}
    (hf : FormatFits { op, rd, rs1, imm, codec := rvInstCodec op } (rvInstCodec op)) :
    ∃ inst, encodeInst { op, rd, rs1, imm } = some inst ∧ Encodes inst { op, rd, rs1, imm } := by
  obtain ⟨hcs, hr4, hill, hdecomp, hmatch, hfixes, hlen, hapart, hmask⟩ := emitted_bits op hop
  obtain ⟨w, hin, hmem, hd, hd'⟩ := exists_word_of_fits (d := { op, rd, rs1, imm, codec := rvInstCodec op }) hapart hmask rfl hf
  refine ⟨rvInstMatch op ||| w, ?_, ?_, (instLength_of_mem hfixes hmem).trans hlen, fun isa dec => ?_⟩
  · have he := encodeInst_decodeInstType hcs w
    rw [hd, hin] at he
    rwa [encodeInst_codec hop] at he
  · intro hzero
    rw [hzero] at hmem
    exact hmatch (hmem.symm.trans (Nat.zero_and _))
  · have hnarrow : instDecode .rv64 isa {} (rvInstMatch op ||| w) = { op, rd, rs1, imm, codec := rvInstCodec op } := by
      unfold instDecode
      rw [decodeInstOp_emitted hop hmem]
      dsimp only
      rw [hd']
      split
      · show decompressInst rvInstDecompRv64 _ = _
        unfold decompressInst
        simp only [hdecomp, ne_eq, not_true_eq_false, if_false]
      · rfl
    rw [instDecode_read, hnarrow]
    unfold Decode.read
    simp only [hill, hr4, if_false]

section Emitters
variable {rd rs1 : Nat} {imm : Int} (hrd : rd < 32)
include hrd

theorem emitLui_encodes (h0 : -(2 ^ 31) ≤ imm) (h1 : imm < 2 ^ 31) (hlow : imm % 4096 = 0) :
    ∃ inst, emitLui rd imm = some inst ∧ Encodes inst { op := .lui, rd, imm } := by
  have hvalid : (uimmValid 5 rd && simmValid 32 imm) = true := by
    simp only [uimmValid, simmValid, Bool.and_eq_true, decide_eq_true_eq]
    omega
  unfold emitLui emitInst
  rw [hvalid]
  exact encodes_of_fits (by decide) ⟨hrd, rfl, rfl, h0, h1, hlow, rfl, rfl, rfl, rfl, rfl, rfl⟩

theorem emitAddi_encodes (hrs1 : rs1 < 32) (h0 : -2048 ≤ imm) (h1 : imm < 2048) :
    ∃ inst, emitAddi rd rs1 imm = some inst ∧ Encodes inst { op := .addi, rd, rs1, imm } := by
  have hvalid : (uimmValid 5 rd && uimmValid 5 rs1 && simmValid 12 imm) = true := by
    simp only [uimmValid, simmValid, Bool.and_eq_true, decide_eq_true_eq]
    omega
  unfold emitAddi emitInst
  rw [hvalid]
  exact encodes_of_fits (by decide) ⟨hrd, hrs1, rfl, h0, h1, rfl, rfl, rfl, rfl, rfl, rfl⟩

theorem emitSlli_encodes {shamt : Nat} (hrs1 : rs1 < 32) (h : shamt < 128) :
    ∃ inst, emitSlli rd rs1 shamt = some inst ∧ Encodes inst { op := .slli, rd, rs1, imm := shamt } := by
  have hvalid : (uimmValid 5 rd && uimmValid 5 rs1 && uimmValid 7 shamt) = true := by
    simp only [uimmValid, Bool.and_eq_true, decide_eq_true_eq]
    omega
  unfold emitSlli emitInst
  rw [hvalid]
  exact encodes_of_fits (by decide) ⟨hrd, hrs1, rfl, Int.natCast_nonneg _, Int.ofNat_lt.2 h, rfl, rfl, rfl, rfl, rfl, rfl⟩

end Emitters

/-! ## Running words -/

section Run
variable {σ : Type} (port : Port σ) (host : Host) (isa : Isa) (getTime : BitVec 64)

/-- Executes words one after the other, as the run loop does, each decoded into the record of the one before it. -/
def runWords : Decode → List Nat → Prog Raise (Machine .rv64 σ) Unit
  | _, [] => pure ()
  | dec, inst :: insts => do
    let dec := instDecode .rv64 isa dec inst
    Machine.execute port host isa getTime dec (BitVec.ofNat Rv.rv64.xlen (instLength inst))
    runWords dec insts

/-- `n` instructions later, with `v` in `rd`. -/
def Machine.assigned (s : Machine .rv64 σ) (rd : Nat) (v : BitVec Rv.rv64.xlen) (n : Nat) : Machine .rv64 σ :=
  { s with hart := { s.hart with
      ireg := fun r => if r = rd then v else s.hart.ireg r
      pc := s.hart.pc + BitVec.ofNat Rv.rv64.xlen (4 * n)
      csrs.instret := s.hart.csrs.instret + BitVec.ofNat 64 n } }

/-- Whatever follows the words, they bring the machine from one state to the other. -/
def Runs (insts : List Nat) (s s' : Machine .rv64 σ) : Prop :=
  ∀ dec, ∃ dec', ∀ rest, runWords port host isa getTime dec (insts ++ rest) s = runWords port host isa getTime dec' rest s'

variable {port host isa getTime} {s s' s'' : Machine .rv64 σ} {rd : Nat}

theorem Runs.append {insts insts' : List Nat} (h : Runs port host isa getTime insts s s') (h' : Runs port host isa getTime insts' s' s'') :
    Runs port host isa getTime (insts ++ insts') s s'' := by
  intro dec
  obtain ⟨dec1, h1⟩ := h dec
  obtain ⟨dec2, h2⟩ := h' dec1
  refine ⟨dec2, fun rest => ?_⟩
  rw [List.append_assoc, h1, h2]

theorem Runs.run {insts : List Nat} (h : Runs port host isa getTime insts s s') (dec : Decode) :
    runWords port host isa getTime dec insts s = .ok () s' := by
  obtain ⟨dec', h'⟩ := h dec
  have hrun := h' []
  rwa [List.append_nil] at hrun

theorem assigned_assigned (v w : BitVec Rv.rv64.xlen) (m n : Nat) : (s.assigned rd v m).assigned rd w n = s.assigned rd w (m + n) := by
  have hpc : BitVec.ofNat Rv.rv64.xlen (4 * m) + BitVec.ofNat Rv.rv64.xlen (4 * n) = BitVec.ofNat Rv.rv64.xlen (4 * (m + n)) := by
    rw [← BitVec.ofNat_add, Nat.mul_add]
  have hcount : BitVec.ofNat 64 m + BitVec.ofNat 64 n = BitVec.ofNat 64 (m + n) := by rw [← BitVec.ofNat_add]
  have hireg : (fun r => if r = rd then w else if r = rd then v else s.hart.ireg r) = fun r => if r = rd then w else s.hart.ireg r := by
    funext r
    by_cases h : r = rd
    · rw [if_pos h, if_pos h]
    · rw [if_neg h, if_neg h, if_neg h]
  unfold Machine.assigned
  simp only [BitVec.add_assoc, hpc, hcount, hireg]

/-- An instruction that assigns a register other than `x0`. -/
theorem runs_one {inst : Nat} {d : Decode} {ext : Ext} {v : BitVec Rv.rv64.xlen} (he : Encodes inst d)
    (ha : action host s.hart d d.op = some (ext, .setRd v)) (hext : isa.ext ext = true) (hrd : d.rd = rd) (h0 : rd ≠ 0) :
    Runs port host isa getTime [inst] s (s.assigned rd v 1) := by
  intro dec
  refine ⟨instDecode .rv64 isa dec inst, fun rest => ?_⟩
  have hstate : Machine.retire { s with hart := s.hart.writeRd d.rd v } (BitVec.ofNat Rv.rv64.xlen 4) = s.assigned rd v 1 := by
    unfold Machine.retire Hart.writeRd Machine.assigned
    rw [hrd, if_neg h0]
    rfl
  have hrun : Machine.execute port host isa getTime d (BitVec.ofNat Rv.rv64.xlen 4) s = .ok () _ := Machine.execute_setRd ha hext (by decide)
  rw [hstate, ← he.decoded isa dec, Machine.execute_read, ← he.length] at hrun
  exact Prog.bind_ok hrun

section One
variable {inst rs1 : Nat} (h0 : rd ≠ 0)
include h0

theorem runs_lui {imm : Int} (he : Encodes inst { op := .lui, rd, imm }) :
    Runs port host isa getTime [inst] s (s.assigned rd (BitVec.ofInt Rv.rv64.xlen imm) 1) :=
  runs_one he rfl isa.ext_i rfl h0

theorem runs_addi {imm : Int} (he : Encodes inst { op := .addi, rd, rs1, imm }) :
    Runs port host isa getTime [inst] s (s.assigned rd (s.hart.ireg rs1 + BitVec.ofInt Rv.rv64.xlen imm) 1) :=
  runs_one he rfl isa.ext_i rfl h0

theorem runs_slli {shamt : Nat} (h : shamt < 64) (he : Encodes inst { op := .slli, rd, rs1, imm := shamt }) :
    Runs port host isa getTime [inst] s (s.assigned rd (s.hart.ireg rs1 <<< shamt) 1) := by
  have hshift : host.shift .shl (s.hart.ireg rs1) (shamt : Int) = s.hart.ireg rs1 <<< shamt := by
    unfold Host.shift
    rw [if_pos ⟨by omega, by exact_mod_cast h⟩]
    rfl
  have hrun : Runs port host isa getTime [inst] s (s.assigned rd (host.shift .shl (s.hart.ireg rs1) (shamt : Int)) 1) :=
    runs_one he rfl isa.ext_i rfl h0
  rwa [hshift] at hrun

end One

end Run

/-! ## The part for `lui` -/

/-- What is left of `x`, and how far it is shifted, when its lowest twelve bits, with their sign, and the zeros above
them are taken away as often as it has more than 32 bits. -/
inductive Leading : Int → Int → Nat → Prop
  | fits {x : Int} (h : -(2 ^ 31) ≤ x ∧ x < 2 ^ 31) : Leading x x 0
  | rest {x y v : Int} {k n : Nat} (h : ¬ (-(2 ^ 31) ≤ x ∧ x < 2 ^ 31)) (hy : x - x.bmod 4096 = 2 ^ k * y) (hodd : y % 2 = 1)
      (hv : Leading y v n) : Leading x v (n + k)

theorem two_pow_mul_odd_inj {j k : Nat} {x y : Int} (hx : x % 2 = 1) (hy : y % 2 = 1) (h : 2 ^ j * x = 2 ^ k * y) : j = k ∧ x = y := by
  induction j generalizing k with
  | zero =>
    cases k with
    | zero => exact ⟨rfl, by simpa using h⟩
    | succ k =>
      rw [Int.pow_zero, Int.one_mul, Int.pow_succ', Int.mul_assoc] at h
      omega
  | succ j ih =>
    cases k with
    | zero =>
      rw [Int.pow_zero, Int.one_mul, Int.pow_succ', Int.mul_assoc] at h
      omega
    | succ k =>
      rw [Int.pow_succ', Int.pow_succ', Int.mul_assoc, Int.mul_assoc] at h
      obtain ⟨hjk, hxy⟩ := ih (Int.eq_of_mul_eq_mul_left (by decide) h)
      exact ⟨congrArg Nat.succ hjk, hxy⟩

theorem Leading.unique {x v w : Int} {m n : Nat} (h : Leading x v m) (h' : Leading x w n) : v = w ∧ m = n := by
  induction h generalizing w n with
  | fits hx =>
    cases h' with
    | fits => exact ⟨rfl, rfl⟩
    | rest hx' => exact absurd hx hx'
  | rest hx hy hodd _ ih =>
    cases h' with
    | fits hx' => exact absurd hx' hx
    | rest _ hy' hodd' hv' =>
      obtain ⟨hk, hyy⟩ := two_pow_mul_odd_inj hodd hodd' (hy.symm.trans hy')
      subst hk hyy
      obtain ⟨hv, hn⟩ := ih hv'
      exact ⟨hv, congrArg (· + _) hn⟩

/-- What is missing from the loaded value. -/
def missing (v : Int) (n : Nat) : BitVec 64 := if v % 4096 < 2048 then 0 else (4096 : BitVec 64) <<< n

theorem missing_shiftLeft (v : Int) (n k : Nat) : missing v n <<< k = missing v (n + k) := by
  unfold missing
  split
  · exact BitVec.zero_shiftLeft k
  · exact (BitVec.shiftLeft_add _ _ _).symm

theorem missing_eq_zero_iff {v : Int} {n : Nat} : missing v n = 0 ↔ v % 4096 < 2048 ∨ 52 ≤ n := by
  have hshift : (4096 : BitVec 64) <<< n = 0 ↔ 52 ≤ n := by
    rw [← BitVec.toNat_inj, BitVec.toNat_shiftLeft, Nat.shiftLeft_eq]
    show 2 ^ 12 * 2 ^ n % 2 ^ 64 = 0 ↔ _
    rw [← Nat.pow_add, ← Nat.dvd_iff_mod_eq_zero, Nat.pow_dvd_pow_iff_le_right (by decide)]
    omega
  unfold missing
  split
  · next h => exact iff_of_true rfl (.inl h)
  · next h => exact hshift.trans (or_iff_right h).symm

theorem sub_missing_eq_iff {val : BitVec 64} {v : Int} {n : Nat} : val - missing v n = val ↔ v % 4096 < 2048 ∨ 52 ≤ n := by
  rw [BitVec.sub_eq_iff_eq_add, BitVec.self_eq_add_right]
  exact missing_eq_zero_iff

theorem sub_shiftLeft (a b : BitVec 64) (k : Nat) : (a - b) <<< k = a <<< k - b <<< k := by
  rw [BitVec.shiftLeft_eq_mul_twoPow, BitVec.shiftLeft_eq_mul_twoPow, BitVec.shiftLeft_eq_mul_twoPow, sub_mul]

section LoadImmR
variable {σ : Type} (port : Port σ) (host : Host) (isa : Isa) (getTime : BitVec 64) {rd : Nat} (h0 : rd ≠ 0) (hrd : rd < 32)

/-- The words leave `v` in `rd`, whatever the registers hold. -/
def Loads (rd : Nat) (insts : List Nat) (v : BitVec Rv.rv64.xlen) : Prop :=
  (∀ inst ∈ insts, inst ≠ 0) ∧ ∀ s : Machine .rv64 σ, Runs port host isa getTime insts s (s.assigned rd v insts.length)

variable {port host isa getTime}

theorem assigned_ireg (s : Machine .rv64 σ) (v : BitVec Rv.rv64.xlen) (n : Nat) : (s.assigned rd v n).hart.ireg rd = v :=
  if_pos rfl

/-- One more word, which changes the register. -/
theorem Loads.snoc {insts : List Nat} {v : BitVec Rv.rv64.xlen} (h : Loads port host isa getTime rd insts v) {inst : Nat} (hne : inst ≠ 0)
    (f : BitVec Rv.rv64.xlen → BitVec Rv.rv64.xlen)
    (hrun : ∀ s : Machine .rv64 σ, Runs port host isa getTime [inst] s (s.assigned rd (f (s.hart.ireg rd)) 1)) :
    Loads port host isa getTime rd (insts ++ [inst]) (f v) := by
  refine ⟨fun i hi => ?_, fun s => ?_⟩
  · rcases List.mem_append.1 hi with hi | hi
    · exact h.1 i hi
    · exact (List.mem_singleton.1 hi).symm ▸ hne
  · have hboth := (h.2 s).append (hrun _)
    rw [assigned_assigned, assigned_ireg] at hboth
    rwa [List.length_append]

section
include h0

theorem loads_lui {inst : Nat} {imm : Int} (he : Encodes inst { op := .lui, rd, imm }) :
    Loads port host isa getTime rd [inst] (BitVec.ofInt Rv.rv64.xlen imm) :=
  ⟨by simpa using he.ne_zero, fun _ => runs_lui h0 he⟩

theorem Loads.addi {insts : List Nat} {v : BitVec Rv.rv64.xlen} (h : Loads port host isa getTime rd insts v) {inst : Nat} {imm : Int}
    (he : Encodes inst { op := .addi, rd, rs1 := rd, imm }) :
    Loads port host isa getTime rd (insts ++ [inst]) (v + BitVec.ofInt Rv.rv64.xlen imm) :=
  h.snoc he.ne_zero (· + BitVec.ofInt Rv.rv64.xlen imm) fun _ => runs_addi h0 he

theorem Loads.slli {insts : List Nat} {v : BitVec Rv.rv64.xlen} (h : Loads port host isa getTime rd insts v) {inst shamt : Nat}
    (hs : shamt < 64) (he : Encodes inst { op := .slli, rd, rs1 := rd, imm := shamt }) :
    Loads port host isa getTime rd (insts ++ [inst]) (v <<< shamt) :=
  h.snoc he.ne_zero (· <<< shamt) fun _ => runs_slli h0 hs he

end

/-- A value of 32 bits is the one that `lui` loads, and the rest. -/
theorem toInt_upper {val : BitVec 64} (h : Narrow val) : ((val.sshiftRight 12) <<< 12).toInt = val.toInt / 4096 * 4096 ∧
    (val - (val.sshiftRight 12) <<< 12).toInt = val.toInt % 4096 := by
  rw [narrow_iff] at h
  have hshift : val.sshiftRight 12 = BitVec.ofInt 64 (val.toInt / 4096) := by
    rw [← BitVec.ofInt_toInt (x := val.sshiftRight 12), BitVec.toInt_sshiftRight, Int.shiftRight_eq_div_pow]
    rfl
  have hpow : BitVec.twoPow 64 12 = BitVec.ofInt 64 4096 := by decide
  have hupper : ((val.sshiftRight 12) <<< 12).toInt = val.toInt / 4096 * 4096 := by
    rw [BitVec.shiftLeft_eq_mul_twoPow, hshift, hpow, ← BitVec.ofInt_mul]
    exact BitVec.toInt_ofInt_eq_self (by decide) (by omega) (by omega)
  refine ⟨hupper, ?_⟩
  rw [BitVec.toInt_sub, hupper, Int.bmod_eq_of_le (by omega) (by omega)]
  omega

/-- The sign that `addi` extends takes 4096 away. -/
theorem bitextend_rest {rest : BitVec 64} (hl : 0 ≤ rest.toInt) (hh : rest.toInt < 4096) : bitextend rest 12 = rest - missing rest.toInt 0 := by
  apply BitVec.eq_of_toInt_eq
  unfold missing
  rw [toInt_bitextend, Int.emod_eq_of_lt hl hh]
  by_cases hs : rest.toInt < 2048
  · rw [if_pos hs, Int.bmod_eq_of_le (by omega) (by omega)]
    exact congrArg BitVec.toInt (BitVec.sub_zero rest).symm
  · have hword : ((4096 : BitVec 64) <<< 0).toInt = 4096 := by decide
    have hbmod : rest.toInt.bmod 4096 = rest.toInt - 4096 := by
      rw [Int.bmod_def]
      split <;> omega
    rw [if_neg hs, BitVec.toInt_sub, hword, hbmod, Int.bmod_eq_of_le (by omega) (by omega)]

include h0 hrd

theorem loadImmR_narrow {val : BitVec 64} (h : Narrow val) :
    ∃ insts, loadImmR rd val = some insts ∧ Loads port host isa getTime rd insts (val - missing val.toInt 0) := by
  obtain ⟨hupper, hrest⟩ := toInt_upper h
  have hrange := narrow_iff.1 h
  rw [loadImmR, if_pos h]
  dsimp only
  generalize (val.sshiftRight 12) <<< 12 = upper at hupper hrest ⊢
  obtain ⟨lui, hlui, he⟩ : ∃ lui, emitLui rd upper.toInt = some lui ∧ Encodes lui _ :=
    emitLui_encodes hrd (by omega) (by omega) (by omega)
  have hloads : Loads port host isa getTime rd [lui] (BitVec.ofInt 64 upper.toInt) := loads_lui h0 he
  rw [BitVec.ofInt_toInt] at hloads
  have hval : upper + (val - upper) = val := by rw [BitVec.add_comm, BitVec.sub_add_cancel]
  have hmissing : missing val.toInt 0 = missing (val - upper).toInt 0 := by
    unfold missing
    rw [hrest, Int.emod_emod]
  have hsum : upper + bitextend (val - upper) 12 = val - missing val.toInt 0 := by
    rw [bitextend_rest (by omega) (by omega), hmissing, BitVec.sub_eq_add_neg, ← BitVec.add_assoc, hval, ← BitVec.sub_eq_add_neg]
  rw [hlui, Option.bind_eq_bind, Option.bind_some]
  by_cases hzero : val - upper = 0
  · have hnone : bitextend (0 : BitVec 64) 12 = 0 := by decide
    rw [hzero, hnone] at hsum
    rw [if_neg (not_not.2 hzero)]
    exact ⟨_, rfl, hsum ▸ (BitVec.add_zero upper).symm ▸ hloads⟩
  · have hlow := Int.le_bmod (x := val.toInt % 4096) (m := 4096) (by decide)
    have hhigh := Int.bmod_lt (x := val.toInt % 4096) (m := 4096) (by decide)
    obtain ⟨addi, haddi, hea⟩ : ∃ addi, emitAddi rd rd (bitextend (val - upper) 12).toInt = some addi ∧ Encodes addi _ :=
      emitAddi_encodes hrd hrd (by rw [toInt_bitextend, hrest]; omega) (by rw [toInt_bitextend, hrest]; omega)
    have hboth : Loads port host isa getTime rd ([lui] ++ [addi]) (upper + BitVec.ofInt 64 (bitextend (val - upper) 12).toInt) :=
      hloads.addi h0 hea
    rw [BitVec.ofInt_toInt, hsum] at hboth
    rw [if_pos hzero, haddi, Option.bind_some]
    exact ⟨_, rfl, hboth⟩

omit h0 hrd in
/-- Above its lowest twelve bits a long value is `2 ^ k` times an odd one, and where 2^63 wraps around, nothing is missing. -/
theorem leading_rest {val : BitVec 64} {v : Int} {n k : Nat} {y : BitVec 64} (hn : ¬ Narrow val) (hodd : y.toInt % 2 = 1)
    (hrest : (val - bitextend val 12).toInt = 2 ^ k * y.toInt) (hv : Leading y.toInt v n) :
    ∃ v' n', Leading val.toInt v' n' ∧ missing v' n' = missing v (n + k) := by
  rw [narrow_iff] at hn
  rcases toInt_sub_bitextend val with h | ⟨hmax, hmin⟩
  · exact ⟨v, n + k, .rest hn (h.symm.trans hrest) hodd hv, rfl⟩
  · obtain ⟨hk, hy⟩ : k = 63 ∧ y.toInt = -1 := by
      refine two_pow_mul_odd_inj hodd (by decide) (hrest.symm.trans ?_)
      rw [hmin]
      rfl
    rw [hy] at hv
    obtain ⟨rfl, rfl⟩ := hv.unique (.fits (by decide))
    subst hk
    exact ⟨1, 0 + 63, .rest hn (y := 1) hmax (by decide) (.fits (by decide)), by decide⟩

omit h0 hrd in
theorem shiftLeft_eq_of_toInt {y hi : BitVec 64} {k : Nat} (h : hi.toInt = 2 ^ k * y.toInt) : y <<< k = hi := by
  have hpow : BitVec.twoPow 64 k = BitVec.ofInt 64 (2 ^ k) := by
    apply BitVec.eq_of_toNat_eq
    have hnat : ((2 : Int) ^ k) = ((2 ^ k : Nat) : Int) := by push_cast; rfl
    rw [BitVec.toNat_twoPow, hnat, BitVec.ofInt_natCast, BitVec.toNat_ofNat]
  rw [BitVec.shiftLeft_eq_mul_twoPow, hpow, ← BitVec.ofInt_toInt (x := y), ← BitVec.ofInt_mul, Int.mul_comm, ← h]
  exact BitVec.ofInt_toInt

omit h0 hrd in
/-- The immediate of the last `addi`. -/
theorem s32_bitextend (val : BitVec 64) : s32 (bitextend (bitextend val 12) 12).toInt = (bitextend val 12).toInt := by
  have hlow := Int.le_bmod (x := val.toInt) (m := 4096) (by decide)
  have hhigh := Int.bmod_lt (x := val.toInt) (m := 4096) (by decide)
  have htwice : (bitextend (bitextend val 12) 12).toInt = val.toInt.bmod 4096 := by
    rw [toInt_bitextend, toInt_bitextend, Int.bmod_bmod]
  rw [htwice, toInt_bitextend]
  exact Int.bmod_eq_of_le (by omega) (by omega)

theorem loadImmR_loads (val : BitVec 64) :
    ∃ insts v n, loadImmR rd val = some insts ∧ Leading val.toInt v n ∧ Loads port host isa getTime rd insts (val - missing v n) := by
  induction hm : val.toInt.natAbs using Nat.strong_induction_on generalizing val with
  | _ m ih =>
    subst hm
    by_cases hn : Narrow val
    · obtain ⟨insts, hinsts, hloads⟩ : ∃ insts, loadImmR rd val = some insts ∧ Loads port host isa getTime rd insts _ :=
        loadImmR_narrow h0 hrd hn
      exact ⟨insts, _, _, hinsts, .fits (narrow_iff.1 hn), hloads⟩
    obtain ⟨hshift, hhi, hodd⟩ := toInt_sshiftRight_ctz (sub_bitextend_ne_zero hn) (toNat_sub_bitextend_mod val)
    obtain ⟨insts, v, n, hinsts, hv, hloads⟩ := ih _ (natAbs_rest_lt hn) _ rfl
    obtain ⟨v', n', hv', hmissing⟩ := leading_rest hn hodd hhi hv
    rw [loadImmR, if_neg hn]
    dsimp only
    generalize 12 + ((val - bitextend val 12) >>> 12).ctz.toNat = shift at *
    obtain ⟨slli, hslli, hes⟩ : ∃ slli, emitSlli rd rd shift = some slli ∧ Encodes slli _ := emitSlli_encodes hrd hrd (by omega)
    -- the upper part is in its place again, and so is what is missing
    have hplace : ((val - bitextend val 12).sshiftRight shift - missing v n) <<< shift = val - bitextend val 12 - missing v' n' := by
      rw [sub_shiftLeft, shiftLeft_eq_of_toInt hhi, missing_shiftLeft, hmissing]
    have hupper : Loads port host isa getTime rd (insts ++ [slli]) (val - bitextend val 12 - missing v' n') :=
      hplace ▸ hloads.slli h0 hshift hes
    simp only [hinsts, hslli, Option.bind_eq_bind, Option.bind_some]
    by_cases hlo : bitextend val 12 = 0
    · have hall : val - bitextend val 12 = val := by
        rw [hlo]
        exact BitVec.sub_zero val
      rw [hall] at hupper
      rw [if_neg (not_not.2 hlo)]
      exact ⟨_, v', n', rfl, hv', hupper⟩
    · have hlow := Int.le_bmod (x := val.toInt) (m := 4096) (by decide)
      have hhigh := Int.bmod_lt (x := val.toInt) (m := 4096) (by decide)
      obtain ⟨addi, haddi, hea⟩ : ∃ addi, emitAddi rd rd (s32 (bitextend (bitextend val 12) 12).toInt) = some addi ∧ Encodes addi _ :=
        emitAddi_encodes hrd hrd (by rw [s32_bitextend, toInt_bitextend]; omega) (by rw [s32_bitextend, toInt_bitextend]; omega)
      have hall : val - bitextend val 12 - missing v' n' + BitVec.ofInt 64 (s32 (bitextend (bitextend val 12) 12).toInt) =
          val - missing v' n' := by
        rw [s32_bitextend, BitVec.ofInt_toInt]
        ring
      have hboth : Loads port host isa getTime rd (insts ++ [slli] ++ [addi]) (val - missing v' n') := hall ▸ hupper.addi h0 hea
      rw [List.append_assoc] at hboth
      rw [if_pos hlo, haddi, Option.bind_some]
      exact ⟨_, v', n', rfl, hv', hboth⟩

end LoadImmR

/-! ## Every constant -/

/-- A value of twelve bits, a power of two, or one whose part for `lui` has a clear bit 11, or that bit shifted out. -/
def Loadable (val : BitVec 64) : Prop :=
  (val.toInt ≥ -2048 ∧ val.toInt ≤ 2047) ∨ (∃ k, val.toNat = 2 ^ k) ∨
    ∃ v n, Leading val.toInt v n ∧ (v % 4096 < 2048 ∨ 52 ≤ n)

section LoadImm
variable {σ : Type} (port : Port σ) (host : Host) (isa : Isa) (getTime : BitVec 64) (dec : Decode) (rd : Nat) (val : BitVec 64)
  (s : Machine .rv64 σ)

/-- The words are valid, and executing them leaves the value in `rd` and the other registers alone. -/
def Materialises : Prop :=
  ∃ insts, loadImm rd val = some insts ∧ (∀ inst ∈ insts, inst ≠ 0) ∧
    ∃ s' : Machine .rv64 σ, runWords port host isa getTime dec insts s = .ok () s' ∧ s'.hart.ireg rd = val ∧
      ∀ r, r ≠ rd → s'.hart.ireg r = s.hart.ireg r

variable {port host isa getTime dec rd val s}

theorem shiftLeft_ctz {k : Nat} (h : val.toNat = 2 ^ k) : val ≠ 0 ∧ (1 : BitVec 64) <<< val.ctz.toNat = val := by
  have hne : val ≠ 0 := by
    rintro rfl
    exact (Nat.two_pow_pos k).ne h
  have hlt := val.isLt
  refine ⟨hne, ?_⟩
  obtain ⟨m, hm, hodd⟩ := exists_odd hne
  obtain ⟨hctz, -⟩ : val.ctz.toNat = k ∧ (m : Int) = 1 :=
    two_pow_mul_odd_inj (by omega) (by decide) (by rw [Int.mul_one]; exact_mod_cast hm.symm.trans h)
  apply BitVec.eq_of_toNat_eq
  rw [BitVec.toNat_shiftLeft, Nat.shiftLeft_eq, hctz, ← h]
  show 1 * val.toNat % 2 ^ 64 = val.toNat
  rw [Nat.one_mul, Nat.mod_eq_of_lt hlt]

/-- The words are always valid, and load a value that is the constant or misses some of it. -/
theorem loadImm_loads (h0 : rd ≠ 0) (hrd : rd < 32) (hx0 : s.hart.ireg 0 = 0) :
    ∃ insts v, loadImm rd val = some insts ∧ (∀ inst ∈ insts, inst ≠ 0) ∧
      Runs port host isa getTime insts s (s.assigned rd v insts.length) ∧ (v = val ↔ Loadable val) := by
  unfold loadImm
  by_cases hsmall : val.toInt ≥ -2048 ∧ val.toInt ≤ 2047
  · have hs32 : s32 val.toInt = val.toInt := Int.bmod_eq_of_le (by omega) (by omega)
    obtain ⟨addi, haddi, he⟩ : ∃ addi, emitAddi rd 0 val.toInt = some addi ∧ Encodes addi _ :=
      emitAddi_encodes hrd (by decide) (by omega) (by omega)
    rw [if_pos hsmall, hs32, haddi]
    refine ⟨[addi], val, rfl, by simpa using he.ne_zero, ?_, iff_of_true rfl (.inl hsmall)⟩
    have hvalue : s.hart.ireg 0 + BitVec.ofInt Rv.rv64.xlen val.toInt = val := by
      rw [hx0]
      exact (BitVec.zero_add _).trans BitVec.ofInt_toInt
    exact hvalue ▸ runs_addi h0 he
  rw [if_neg hsmall]
  by_cases hpow : ispow2 val = true
  · obtain ⟨k, hk⟩ := ispow2_iff.1 hpow
    obtain ⟨hne, hshift⟩ := shiftLeft_ctz hk
    have hctz : val.ctz.toNat < 64 := BitVec.lt_def.1 (BitVec.ctz_lt_iff_ne_zero.2 hne)
    obtain ⟨addi, haddi, hea⟩ : ∃ addi, emitAddi rd 0 1 = some addi ∧ Encodes addi _ :=
      emitAddi_encodes hrd (by decide) (by decide) (by decide)
    obtain ⟨slli, hslli, hes⟩ : ∃ slli, emitSlli rd rd val.ctz.toNat = some slli ∧ Encodes slli _ := emitSlli_encodes hrd hrd (by omega)
    simp only [if_pos hpow, haddi, hslli, Option.bind_eq_bind, Option.bind_some]
    refine ⟨[addi, slli], val, rfl, ?_, ?_, iff_of_true rfl (.inr (.inl ⟨k, hk⟩))⟩
    · simp [hea.ne_zero, hes.ne_zero]
    · have hone : s.hart.ireg 0 + BitVec.ofInt Rv.rv64.xlen 1 = 1 := by
        rw [hx0]
        decide
      have hfirst : Runs port host isa getTime [addi] s (s.assigned rd 1 1) := hone ▸ runs_addi h0 hea
      have hboth : Runs port host isa getTime ([addi] ++ [slli]) s _ := hfirst.append (runs_slli h0 hctz hes)
      rw [assigned_assigned, assigned_ireg] at hboth
      exact hshift ▸ hboth
  · have hpow' : ¬ ∃ k, val.toNat = 2 ^ k := fun h => hpow (ispow2_iff.2 h)
    obtain ⟨insts, v, n, hinsts, hv, hne, hruns⟩ : ∃ insts v n, loadImmR rd val = some insts ∧ Leading val.toInt v n ∧
        Loads port host isa getTime rd insts _ := loadImmR_loads h0 hrd val
    rw [if_neg hpow]
    refine ⟨insts, val - missing v n, hinsts, hne, hruns s, sub_missing_eq_iff.trans ⟨fun h => .inr (.inr ⟨v, n, hv, h⟩), ?_⟩⟩
    rintro (h | h | ⟨w, j, hw, h⟩)
    · exact absurd h hsmall
    · exact absurd h hpow'
    · obtain ⟨rfl, rfl⟩ := hv.unique hw
      exact h

theorem Materialises.loadable (h : Materialises port host isa getTime dec rd val s) (h0 : rd ≠ 0) (hrd : rd < 32)
    (hx0 : s.hart.ireg 0 = 0) : Loadable val := by
  obtain ⟨insts, v, hinsts, -, hruns, hv⟩ : ∃ insts v, loadImm rd val = some insts ∧ (∀ inst ∈ insts, inst ≠ 0) ∧
      Runs port host isa getTime insts s (s.assigned rd v insts.length) ∧ (v = val ↔ Loadable val) := loadImm_loads h0 hrd hx0
  obtain ⟨insts', hinsts', -, s', hrun, hval, -⟩ := h
  obtain rfl := Option.some.inj (hinsts.symm.trans hinsts')
  obtain rfl := (Outcome.ok.inj ((hruns.run dec).symm.trans hrun)).2
  exact hv.1 ((assigned_ireg s v _).symm.trans hval)

/-- Exactly the loadable constants are materialised. -/
theorem materialises_iff (h0 : rd ≠ 0) (hrd : rd < 32) (hx0 : s.hart.ireg 0 = 0) :
    Materialises port host isa getTime dec rd val s ↔ Loadable val := by
  refine ⟨fun h => h.loadable h0 hrd hx0, fun h => ?_⟩
  obtain ⟨insts, v, hinsts, hne, hruns, hv⟩ : ∃ insts v, loadImm rd val = some insts ∧ (∀ inst ∈ insts, inst ≠ 0) ∧
      Runs port host isa getTime insts s (s.assigned rd v insts.length) ∧ (v = val ↔ Loadable val) := loadImm_loads h0 hrd hx0
  obtain rfl := hv.2 h
  exact ⟨insts, hinsts, hne, _, hruns.run dec, assigned_ireg s v _, fun r hr => if_neg hr⟩

end LoadImm

/-- 2^32 + 1 in `a0`. -/
theorem materialises_iff_long : Materialises (mmuSoft .rv64) default .imafdc 0 {} 10 0x100000001 (bareMachine default) :=
  (materialises_iff (by decide) (by decide) rfl).2
    (.inr (.inr ⟨1, 0 + 32, .rest (by decide) (y := 1) (by decide) (by decide) (.fits (by decide)), .inl (by decide)⟩))

/-- A constant whose upper part has bit 11 set. -/
theorem not_materialises : ¬ Materialises (mmuSoft .rv64) default .imafdc 0 {} 10 0xfeedcafebabe (bareMachine default) := by
  intro h
  have hleading : Leading (0xfeedcafebabe : BitVec 64).toInt 0x3fbb73 (0 + 12 + 14) :=
    .rest (by decide) (y := 0x3fbb72bfb) (by decide) (by decide) (.rest (by decide) (y := 0x3fbb73) (by decide) (by decide) (.fits (by decide)))
  rcases h.loadable (by decide) (by decide) rfl with hsmall | hpow | ⟨v, n, hv, hbit⟩
  · exact absurd hsmall (by decide)
  · exact absurd (ispow2_iff.2 hpow) (by decide)
  · obtain ⟨rfl, rfl⟩ := hleading.unique hv
    exact absurd hbit (by decide)

end Rv8.Emu
