import Rv8.Asm.Immediate
import Rv8.Emu.AccessedDirty
/-!
# Fetching instructions

An instruction is a run of parcels of 16 bits, and the first tells how many there are.
`inst_fetch` of `codec.h` reads words of 32 bits through a pointer, `mmu_soft` reads
parcel after parcel. Both give the little-endian word of as many bytes as the
instruction has.
-/

namespace Rv8.Emu

open Rv8.Lib Rv8.Asm

/-! ## The reader of the host -/

/-- The bytes of the host from `addr` on. -/
def hostInstFetch (host : Nat → UInt8) (addr : Nat) : Nat × Nat :=
  let inst := leValue (fun i => host (addr + i)) 4
  if inst &&& 0b11 ≠ 0b11 then (inst &&& 0xffff, 2)
  else if inst &&& 0b11100 ≠ 0b11100 then (inst, 4)
  else if inst &&& 0b111111 = 0b011111 then (inst ||| leValue (fun i => host (addr + 4 + i)) 2 <<< 32, 6)
  else if inst &&& 0b1111111 = 0b0111111 then (inst ||| leValue (fun i => host (addr + 4 + i)) 4 <<< 32, 8)
  else (0, 0)

/-! ## Lengths -/

theorem instLength_mod (inst : Nat) : instLength (inst % 2 ^ 7) = instLength inst := by
  have hand {m : Nat} (h : (2 ^ 7 - 1) &&& m = m) : inst % 2 ^ 7 &&& m = inst &&& m := by
    rw [← Nat.and_two_pow_sub_one_eq_mod, Nat.and_assoc, h]
  unfold instLength
  rw [hand (m := 0b11) rfl, hand (m := 0b11100) rfl, hand (m := 0b111111) rfl, hand (m := 0b1111111) rfl]

/-- The low bits decide on the length. -/
theorem instLength_congr {a b : Nat} {k : Nat} (hk : 7 ≤ k) (h : a % 2 ^ k = b % 2 ^ k) : instLength a = instLength b := by
  have hmod (x : Nat) : x % 2 ^ k % 2 ^ 7 = x % 2 ^ 7 := Nat.mod_mod_of_dvd x (Nat.pow_dvd_pow 2 hk)
  rw [← instLength_mod a, ← instLength_mod b, ← hmod a, ← hmod b, h]

theorem instLength_mem (inst : Nat) : instLength inst ∈ [0, 2, 4, 6, 8] := by
  unfold instLength
  split_ifs <;> decide

/-! ## Parcels -/

/-- The word of the first `n` parcels, where all of them can be read. -/
def parcels (p : Nat → Option Nat) : Nat → Option Nat
  | 0 => some 0
  | n + 1 => (parcels p n).bind fun word => (p (2 * n)).map fun parcel => word + parcel <<< (16 * n)

/-- The instruction of the parcels and its length. -/
def instOfParcels (p : Nat → Option Nat) : Option (Nat × Nat) :=
  (p 0).bind fun inst =>
    if instLength inst = 0 then none else (parcels p (instLength inst / 2)).map fun word => (word, instLength inst)

section Parcels
variable {p q : Nat → Option Nat}

theorem parcels_eq_none_iff (n : Nat) : parcels p n = none ↔ ∃ i < n, p (2 * i) = none := by
  induction n with
  | zero => simp [parcels]
  | succ n ih =>
    rw [parcels, Option.bind_eq_none_iff]
    constructor
    · intro h
      cases hw : parcels p n with
      | none =>
        obtain ⟨i, hi, hp⟩ := ih.1 hw
        exact ⟨i, by omega, hp⟩
      | some word => exact ⟨n, by omega, Option.map_eq_none_iff.1 (h word hw)⟩
    · rintro ⟨i, hi, hp⟩ word hw
      rcases Nat.lt_succ_iff_lt_or_eq.1 hi with hlt | rfl
      · cases (ih.2 ⟨i, hlt, hp⟩).symm.trans hw
      · rw [hp, Option.map_none]

/-- A parcel has 16 bits. -/
def Short (p : Nat → Option Nat) : Prop := ∀ off, ∀ v ∈ p off, v < 2 ^ 16

theorem parcels_lt (hp : Short p) {n word : Nat} (h : parcels p n = some word) : word < 2 ^ (16 * n) := by
  induction n generalizing word with
  | zero => simp [parcels] at h; omega
  | succ n ih =>
    obtain ⟨low, hlow, hrest⟩ := Option.bind_eq_some_iff.1 h
    obtain ⟨parcel, hparcel, rfl⟩ := Option.map_eq_some_iff.1 hrest
    have h1 := ih hlow
    have h2 := hp _ parcel hparcel
    rw [Nat.shiftLeft_eq, Nat.mul_succ, pow_add]
    nlinarith [Nat.two_pow_pos (16 * n)]

/-- The parcels can be told from the word. -/
theorem parcels_inj (hp : Short p) (hq : Short q) {n : Nat} (h : parcels p n = parcels q n) (hsome : parcels p n ≠ none) :
    ∀ i < n, p (2 * i) = q (2 * i) := by
  induction n with
  | zero => exact fun i hi => absurd hi (Nat.not_lt_zero i)
  | succ n ih =>
    obtain ⟨word, hword⟩ := Option.ne_none_iff_exists'.1 hsome
    obtain ⟨a, ha, hrest⟩ := Option.bind_eq_some_iff.1 hword
    obtain ⟨x, hx, rfl⟩ := Option.map_eq_some_iff.1 hrest
    obtain ⟨b, hb, hrest'⟩ := Option.bind_eq_some_iff.1 (h.symm.trans hword)
    obtain ⟨y, hy, heq⟩ := Option.map_eq_some_iff.1 hrest'
    have hab : a = b ∧ x = y := by
      have h1 := parcels_lt hp ha
      have h2 := parcels_lt hq hb
      rw [Nat.shiftLeft_eq, Nat.shiftLeft_eq] at heq
      have hlow := congrArg (· % 2 ^ (16 * n)) heq
      simp only [Nat.add_mul_mod_self_right, Nat.mod_eq_of_lt h1, Nat.mod_eq_of_lt h2] at hlow
      subst hlow
      exact ⟨rfl, (Nat.eq_of_mul_eq_mul_right (Nat.two_pow_pos _) (Nat.add_left_cancel heq)).symm⟩
    intro i hi
    rcases Nat.lt_succ_iff_lt_or_eq.1 hi with hlt | rfl
    · exact ih (ha.trans (hab.1 ▸ hb).symm) (by rw [ha]; simp) i hlt
    · rw [hx, hy, hab.2]

theorem parcels_congr {n : Nat} (h : ∀ i < n, p (2 * i) = q (2 * i)) : parcels p n = parcels q n := by
  induction n with
  | zero => rfl
  | succ n ih => rw [parcels, parcels, ih fun i hi => h i (by omega), h n (by omega)]

/-- Two readers get the same word exactly if they get the same parcels, or both miss one. -/
theorem parcels_eq_iff (hp : Short p) (hq : Short q) (n : Nat) :
    parcels p n = parcels q n ↔
      (∀ i < n, p (2 * i) = q (2 * i)) ∨ ((∃ i < n, p (2 * i) = none) ∧ ∃ i < n, q (2 * i) = none) := by
  constructor
  · intro h
    by_cases hnone : parcels p n = none
    · exact .inr ⟨(parcels_eq_none_iff n).1 hnone, (parcels_eq_none_iff n).1 (h ▸ hnone)⟩
    · exact .inl (parcels_inj hp hq h hnone)
  · rintro (h | ⟨h1, h2⟩)
    · exact parcels_congr h
    · rw [(parcels_eq_none_iff n).2 h1, (parcels_eq_none_iff n).2 h2]

/-- The parcels of consecutive bytes make the little-endian word. -/
theorem parcels_leValue (f : Nat → UInt8) {n : Nat} (h : ∀ i < n, p (2 * i) = some (leValue (fun j => f (2 * i + j)) 2)) :
    parcels p n = some (leValue f (2 * n)) := by
  induction n with
  | zero => rfl
  | succ n ih =>
    rw [parcels, ih fun i hi => h i (by omega), Option.bind_some, h n (by omega), Option.map_some, Nat.mul_succ,
      leValue_add, ← Nat.mul_assoc]

end Parcels

section Readers
variable {R : Rv} {m : UserMemory}

theorem short_load (m : UserMemory) (a : Nat → Nat) : Short fun off => m.load 2 (a off) := by
  intro off v hv
  obtain ⟨u, -, rfl⟩ := Option.map_eq_some_iff.1 hv
  exact leValue_lt _ 2

/-- The parcel above those that were read. -/
theorem or_shiftLeft {word parcel k : Nat} (h : word < 2 ^ k) : word ||| parcel <<< k = word + parcel <<< k := by
  rw [Nat.or_comm, ← Nat.shiftLeft_add_eq_or_of_lt h, Nat.add_comm]

theorem busLoad_bind {α : Type} (n a : Nat) (f : Nat → Prog Unit UserMemory α) :
    (UserMemory.busLoad n a >>= f) m =
      match m.load n a with
      | some v => f v m
      | none => .error () m := by
  cases h : m.load n a with
  | some v => exact Prog.bind_ok (busLoad_some h)
  | none => exact Prog.bind_error (busLoad_none h)

/-- The words that `mmu_soft` puts together. -/
theorem parcels_succ_or {p : Nat → Option Nat} (hp : Short p) (n : Nat) :
    parcels p (n + 1) = (parcels p n).bind fun word => (p (2 * n)).map fun parcel => word ||| parcel <<< (16 * n) := by
  rw [parcels]
  cases h : parcels p n with
  | none => rfl
  | some word =>
    rw [Option.bind_some, Option.bind_some]
    simp only [or_shiftLeft (parcels_lt hp h)]

theorem softInstBytes_eq (R : Rv) (mpa : Nat) (m : UserMemory) :
    softInstBytes R UserMemory.busLoad mpa m =
      match instOfParcels fun off => m.load 2 ((mpa + off) % 2 ^ R.xlen) with
      | some r => .ok r m
      | none => .error () m := by
  have hshort := short_load m fun off => (mpa + off) % 2 ^ R.xlen
  generalize hp : (fun off => m.load 2 ((mpa + off) % 2 ^ R.xlen)) = p at hshort ⊢
  have hload (off : Nat) : m.load 2 ((mpa + off) % 2 ^ R.xlen) = p off := congrFun hp off
  unfold softInstBytes instOfParcels
  dsimp only
  rw [busLoad_bind, hload]
  cases h0 : p 0 with
  | none => rfl
  | some inst =>
    have h1 : parcels p 1 = some inst := by simp [parcels, h0]
    have h2 : parcels p 2 = (p 2).map fun inst2 => inst ||| inst2 <<< 16 := by rw [parcels_succ_or hshort, h1, Option.bind_some]
    have h3 := parcels_succ_or hshort 2
    have h4 := parcels_succ_or hshort 3
    rw [Option.bind_some]
    dsimp only
    unfold instLength
    by_cases c2 : inst &&& 0b11 ≠ 0b11
    · rw [if_pos c2, if_pos c2, if_neg (by decide), h1]
      rfl
    rw [if_neg c2, if_neg c2]
    by_cases c4 : inst &&& 0b11100 ≠ 0b11100
    · rw [if_pos c4, if_pos c4, if_neg (by decide), h2, busLoad_bind, hload]
      cases p 2 <;> rfl
    rw [if_neg c4, if_neg c4]
    by_cases c6 : inst &&& 0b111111 = 0b011111
    · rw [if_pos c6, if_pos c6, if_neg (by decide), h3, h2, busLoad_bind, hload]
      cases p 2 with
      | none => rfl
      | some inst2 =>
        dsimp only
        rw [busLoad_bind, hload]
        cases p 4 <;> rfl
    rw [if_neg c6, if_neg c6]
    by_cases c8 : inst &&& 0b1111111 = 0b0111111
    · rw [if_pos c8, if_pos c8, if_neg (by decide), h4, h3, h2, busLoad_bind, hload]
      cases p 2 with
      | none => rfl
      | some inst2 =>
        dsimp only
        rw [busLoad_bind, hload]
        cases p 4 with
        | none => rfl
        | some inst4 =>
          dsimp only
          rw [busLoad_bind, hload]
          cases p 6 <;> rfl
    · rw [if_neg c8, if_neg c8, if_pos rfl]
      rfl

end Readers

/-! ## The same bytes -/

theorem leValue_mod (f : Nat → UInt8) (n k : Nat) : leValue f (n + k) % 2 ^ (8 * n) = leValue f n := by
  rw [leValue_add, Nat.shiftLeft_eq, Nat.add_mul_mod_self_right, Nat.mod_eq_of_lt (leValue_lt f n)]

/-- The length is read off the first byte. -/
theorem instLength_leValue (f : Nat → UInt8) {n k : Nat} (hn : 0 < n) (hk : 0 < k) :
    instLength (leValue f n) = instLength (leValue f k) := by
  obtain ⟨n, rfl⟩ := Nat.exists_eq_add_of_le hn
  obtain ⟨k, rfl⟩ := Nat.exists_eq_add_of_le hk
  refine instLength_congr (k := 8) (by decide) ?_
  exact (leValue_mod f 1 n).trans (leValue_mod f 1 k).symm

theorem instOfParcels_leValue (f : Nat → UInt8) {p : Nat → Option Nat}
    (hp : ∀ i < 4, p (2 * i) = some (leValue (fun j => f (2 * i + j)) 2)) :
    instOfParcels p =
      if instLength (leValue f 8) = 0 then none else some (leValue f (instLength (leValue f 8)), instLength (leValue f 8)) := by
  have h0 : p 0 = some (leValue f 2) := (hp 0 (by decide)).trans (by simp)
  unfold instOfParcels
  rw [h0, Option.bind_some, instLength_leValue f (n := 2) (k := 8) (by decide) (by decide)]
  generalize hlen : instLength (leValue f 8) = len
  have hmem : len ∈ [0, 2, 4, 6, 8] := hlen ▸ instLength_mem _
  split
  · rfl
  · have hhalf : 2 * (len / 2) = len ∧ len / 2 ≤ 4 := by
      simp only [List.mem_cons, List.not_mem_nil, or_false] at hmem
      omega
    rw [parcels_leValue f fun i hi => hp i (by omega), hhalf.1, Option.map_some]

theorem hostInstFetch_eq (host : Nat → UInt8) (addr : Nat) :
    hostInstFetch host addr =
      let f := fun i => host (addr + i)
      if instLength (leValue f 8) = 0 then (0, 0) else (leValue f (instLength (leValue f 8)), instLength (leValue f 8)) := by
  dsimp only
  generalize hf : (fun i => host (addr + i)) = f
  have hhigh : (fun i => host (addr + 4 + i)) = fun i => f (4 + i) := by
    funext i
    rw [← hf, Nat.add_assoc]
  have hor (k : Nat) : leValue f 4 ||| leValue (fun i => f (4 + i)) k <<< 32 = leValue f (4 + k) := by
    rw [or_shiftLeft (leValue_lt f 4), leValue_add]
  have hlow : leValue f 4 &&& 0xffff = leValue f 2 :=
    (Nat.and_two_pow_sub_one_eq_mod (leValue f 4) 16).trans (leValue_mod f 2 2)
  unfold hostInstFetch
  dsimp only
  rw [hf, hhigh, instLength_leValue f (n := 8) (k := 4) (by decide) (by decide), hor, hor, hlow]
  unfold instLength
  by_cases c2 : leValue f 4 &&& 0b11 ≠ 0b11
  · rw [if_pos c2, if_pos c2]
    exact (if_neg (by decide)).symm
  rw [if_neg c2, if_neg c2]
  by_cases c4 : leValue f 4 &&& 0b11100 ≠ 0b11100
  · rw [if_pos c4, if_pos c4]
    exact (if_neg (by decide)).symm
  rw [if_neg c4, if_neg c4]
  by_cases c6 : leValue f 4 &&& 0b111111 = 0b011111
  · rw [if_pos c6, if_pos c6]
    exact (if_neg (by decide)).symm
  rw [if_neg c6, if_neg c6]
  by_cases c8 : leValue f 4 &&& 0b1111111 = 0b0111111
  · rw [if_pos c8, if_pos c8]
    rfl
  · rw [if_neg c8, if_neg c8, if_pos rfl]

/-! ## Bare translation -/

/-- No translation: machine mode, or `mbare`. -/
def Bare (R : Rv) (proc : Processor R.xlen) (op : MmuOp) : Prop :=
  effectiveMode R proc op ≥ RvMode.M.toNat ∨ RvVm.ofNat proc.vm = some .mbare

/-- The bytes lie one after the other in a segment, where its addresses do. -/
def LaidOut (R : Rv) (m : UserMemory) (pc : Nat) (b : List UInt8) : Prop :=
  ∃ k off, ∀ i (hi : i < b.length), m.uva ((pc + i) % 2 ^ R.xlen) = some (k, off + i) ∧ m.host k (off + i) = b[i]

/-- What the two readers make of the bytes. -/
def FetchAgrees (R : Rv) (proc : Processor R.xlen) (s : Mmu UserMemory) (host : Nat → UInt8) (addr pc pcOffset : Nat)
    (b : List UInt8) : Prop :=
  let word := leValue (fun i => b.getD i 0) 8
  let fetched := hostInstFetch host addr
  if instLength word = 0 then fetched = (0, 0) ∧ instFetch (mmuSoft R) R proc pc pcOffset s = .error (.raise .faultFetch pc) s
  else
    instFetch (mmuSoft R) R proc pc pcOffset s = .ok fetched s ∧ fetched.2 ∈ [2, 4, 6, 8] ∧ fetched.2 = instLength fetched.1 ∧
      fetched.1 < 2 ^ (8 * fetched.2) ∧ ∀ i (hi : i < b.length), i < fetched.2 → leByte fetched.1 i = b[i]

theorem leByte_leValue (f : Nat → UInt8) {i n : Nat} (h : i < n) : leByte (leValue f n) i = f i := by
  obtain ⟨k, rfl⟩ := Nat.exists_eq_add_of_le h
  have hshift : leValue f (i + (1 + k)) >>> (8 * i) = leValue (fun j => f (i + j)) (1 + k) := by
    rw [leValue_add, Nat.shiftRight_eq_div_pow, Nat.shiftLeft_eq, Nat.add_mul_div_right _ _ (Nat.two_pow_pos _),
      Nat.div_eq_of_lt (leValue_lt f i), Nat.zero_add]
  have hbyte : leValue (fun j => f (i + j)) (1 + k) % 2 ^ 8 = (f i).toNat := by
    refine (leValue_mod (fun j => f (i + j)) 1 k).trans ?_
    simp [leValue]
  have hsum : i.succ + k = i + (1 + k) := by omega
  rw [hsum, leByte, hshift]
  apply UInt8.toNat_inj.1
  rw [UInt8.toNat_ofNat']
  exact hbyte

theorem Bare.translateAddr {R : Rv} {proc : Processor R.xlen} {op : MmuOp} (h : Bare R proc op) (va : Nat) :
    translateAddr (mmuSoft R) R proc op va = pure (va, none) := by
  unfold Emu.translateAddr
  by_cases hm : effectiveMode R proc op ≥ RvMode.M.toNat
  · rw [if_pos hm]
  · rw [if_neg hm, h.resolve_left hm]

theorem LaidOut.parcel {R : Rv} {m : UserMemory} {pc : Nat} {b : List UInt8} (h : LaidOut R m pc b) {off : Nat}
    (hoff : off + 1 < b.length) :
    m.load 2 ((pc + off) % 2 ^ R.xlen) = some (leValue (fun j => b.getD (off + j) 0) 2) := by
  obtain ⟨k, o, h⟩ := h
  have hbyte {i : Nat} (hi : i < b.length) : m.host k (o + i) = b.getD i 0 := by
    rw [(h i hi).2, List.getD_eq_getElem b 0 hi]
  unfold UserMemory.load
  rw [(h off (by omega)).1, Option.map_some]
  congr 1
  refine leValue_congr fun i hi => ?_
  rw [Nat.add_assoc]
  exact hbyte (by omega)

/-- Both readers give the bytes of the instruction, at every address that `mmu_soft` does not refuse. -/
theorem inst_fetch_agrees (R : Rv) (proc : Processor R.xlen) (s : Mmu UserMemory) (host : Nat → UInt8) (addr pc pcOffset : Nat)
    (b : List UInt8) (hbare : Bare R proc .fetch) (hpc : pc ≠ 0) (heven : pc % 2 = 0) (hlen : 8 ≤ b.length)
    (hlay : LaidOut R s.mem pc b) (hhost : ∀ i (hi : i < b.length), host (addr + i) = b[i]) :
    FetchAgrees R proc s host addr pc pcOffset b := by
  have hal : ¬ Misaligned 2 pc := by
    unfold Misaligned
    rw [Nat.and_two_pow_sub_one_eq_mod pc 1]
    omega
  have hfetch : instFetch (mmuSoft R) R proc pc pcOffset s =
      Mmu.onMem (softInstBytes R UserMemory.busLoad pc) (.raise .faultFetch pc) s := by
    unfold instFetch
    rw [if_neg hal, hbare.translateAddr]
    have hpure : (pure (pc, none) : MmuM UserMemory (Nat × Option TlbEntry)) s = .ok (pc, none) s := rfl
    refine (Prog.bind_ok hpure).trans ?_
    dsimp only
    rw [if_neg hpc, if_neg (by simp [fetchAccessFault])]
    rfl
  have hparcels (i : Nat) (hi : i < 4) : s.mem.load 2 ((pc + 2 * i) % 2 ^ R.xlen) =
      some (leValue (fun j => b.getD (2 * i + j) 0) 2) := hlay.parcel (by omega)
  have hbytes : softInstBytes R UserMemory.busLoad pc s.mem = _ :=
    (softInstBytes_eq R pc s.mem).trans (by rw [instOfParcels_leValue (fun i => b.getD i 0) hparcels])
  have hsame (i : Nat) (hi : i < b.length) : host (addr + i) = b.getD i 0 := by
    rw [hhost i hi, List.getD_eq_getElem b 0 hi]
  have hvalue {n : Nat} (hn : n ≤ 8) : leValue (fun i => host (addr + i)) n = leValue (fun i => b.getD i 0) n :=
    leValue_congr fun i hi => hsame i (by omega)
  have hmem := instLength_mem (leValue (fun i => b.getD i 0) 8)
  have hlen8 : instLength (leValue (fun i => b.getD i 0) 8) ≤ 8 := by
    simp only [List.mem_cons, List.not_mem_nil, or_false] at hmem
    omega
  unfold FetchAgrees
  dsimp only
  rw [hostInstFetch_eq, hfetch]
  dsimp only
  rw [hvalue (Nat.le_refl 8), hvalue hlen8]
  unfold Mmu.onMem Prog.onError Prog.zoom
  dsimp only
  rw [hbytes]
  by_cases h0 : instLength (leValue (fun i => b.getD i 0) 8) = 0
  · rw [if_pos h0, if_pos h0, if_pos h0]
    exact ⟨rfl, rfl⟩
  · rw [if_neg h0, if_neg h0, if_neg h0]
    refine ⟨rfl, List.mem_of_ne_of_mem h0 hmem, ?_, leValue_lt _ _, fun i hi hlt => ?_⟩
    · exact (instLength_leValue _ (Nat.pos_of_ne_zero h0) (by decide)).symm
    · rw [leByte_leValue _ hlt, List.getD_eq_getElem b 0 hi]

/-- A `nop` at the start of RAM, and zeros. -/
def nopRam : UserMemory := ⟨[⟨defaultRamBase, defaultRamSize⟩], fun _ o => if o = 0 then 0x13 else 0⟩

theorem inst_fetch_agrees_nop :
    FetchAgrees .rv64 (default : Processor 64) (emptyTlbs .rv64 nopRam) (nopRam.host 0) 0 0x80000000 0 [0x13, 0, 0, 0, 0, 0, 0, 0] :=
  inst_fetch_agrees .rv64 (default : Processor 64) (emptyTlbs .rv64 nopRam) (nopRam.host 0) 0 0x80000000 0 _ (.inr rfl)
    (by decide) (by decide) (by decide) ⟨0, 0, by decide⟩ (by decide)

/-- At an odd address `mmu_soft` raises. -/
theorem not_inst_fetch_agrees_odd :
    ∃ b : List UInt8, Bare .rv64 (default : Processor 64) .fetch ∧ 8 ≤ b.length ∧ LaidOut .rv64 nopRam 0x80000001 b ∧
      (∀ i (hi : i < b.length), nopRam.host 0 (1 + i) = b[i]) ∧
      ¬ FetchAgrees .rv64 (default : Processor 64) (emptyTlbs .rv64 nopRam) (nopRam.host 0) 1 0x80000001 0 b := by
  refine ⟨[0, 0, 0, 0, 0, 0, 0, 0], .inr rfl, by decide, ⟨0, 1, by decide⟩, by decide, fun h => ?_⟩
  have hlen : ¬ instLength (leValue (fun i => ([0, 0, 0, 0, 0, 0, 0, 0] : List UInt8).getD i 0) 8) = 0 := by decide
  have hfetch : instFetch (mmuSoft .rv64) .rv64 (default : Processor 64) 0x80000001 0 (emptyTlbs .rv64 nopRam) =
      .error (.raise .misalignedFetch 0x80000001) (emptyTlbs .rv64 nopRam) := rfl
  unfold FetchAgrees at h
  rw [if_neg hlen, hfetch] at h
  cases h.1

end Rv8.Emu
