import Mathlib.Tactic.Ring
import Rv8.Lib.Blocks
import Rv8.Emu.Memory
import Rv8.Emu.Proxy
/-!
# The stack of a new process

What `map_proxy_stack` and `setup_proxy_stack` of `rv-sim.cc` leave for a program: its
strings, the auxiliary vector, the arrays of pointers and the count, pushed one below the
other. The stack pointer is as wide as a register; what is checked is how far below the top
it has come to lie, after it has been cut to that width.
-/

namespace Rv8.Emu

open Rv8.Lib Prog

/-! ## Strings and tables -/

/-- A `std::string` of a command line or an environment. -/
structure HostString where
  chars : List UInt8
  noNul : 0 ∉ chars
  size_lt : chars.length < 2 ^ 63

/-- `c_str()`, with its end. -/
def HostString.bytes (s : HostString) : List UInt8 := s.chars ++ [0]

/-- What the auxiliary vector is made of. -/
structure AuxInputs where
  (imagebase ePhoff : UInt64)
  (ePhnum ePhentsize : UInt16)
  seed : UInt64
  (uid euid gid egid : UInt32)

/-- `aux_data`: `AT_BASE`, `AT_PHDR`, `AT_PHNUM`, `AT_PHENT`, `AT_PAGESZ`, `AT_RANDOM`, `AT_UID`, `AT_EUID`, `AT_GID`, `AT_EGID`
and `AT_NULL`, each with its value. -/
def auxData (aux : AuxInputs) : List Nat :=
  [7, aux.imagebase.toNat, 3, (aux.imagebase + aux.ePhoff).toNat, 5, aux.ePhnum.toNat, 4, aux.ePhentsize.toNat, 6, 2 ^ pageShift,
    25, aux.seed.toNat, 11, aux.uid.toNat, 12, aux.euid.toNat, 13, aux.gid.toNat, 14, aux.egid.toNat, 0, 0]

/-- The bytes of an array of registers. -/
def words (R : Rv) (vals : List Nat) : List UInt8 := vals.flatMap fun val => (List.range (R.xlen / 8)).map (leByte val)

/-! ## Pushing -/

/-- The register `sp` and the memory of the process. -/
structure ProxyStack (R : Rv) where
  sp : BitVec R.xlen
  mem : Nat → UInt8

/-- `panic` -/
inductive StackPanic
  | overflow
deriving DecidableEq

section Setup
variable {R : Rv} (stackTop stackSize : Nat)

/-- What `map_proxy_stack` leaves where the mapping succeeds. -/
def mapProxyStack (R : Rv) (stackTop : Nat) : ProxyStack R where
  sp := BitVec.ofNat R.xlen (stackTop - 8)
  mem := copyTo (fun _ => 0) (stackTop - 8) ((List.range 8).map (leByte 0xfeedcafebabef00d))

/-- The segment is all that is known to be mapped. -/
def copyToProxyStack (data : List UInt8) : Prog StackPanic (ProxyStack R) Unit := do
  Prog.modify fun s => { s with sp := s.sp - BitVec.ofNat R.xlen data.length }
  let s ← Prog.get
  if (stackSize : Int) < ((stackTop : Int) - s.sp.toInt) % 2 ^ 64 then .throw .overflow
  else if stackTop - stackSize ≤ s.sp.toNat ∧ s.sp.toNat + data.length ≤ stackTop then
    Prog.modify fun s => { s with mem := copyTo s.mem s.sp.toNat data }
  else .undefined

/-- The loop over the strings, with the addresses they get. -/
def copyStrings : List HostString → Prog StackPanic (ProxyStack R) (List Nat)
  | [] => pure []
  | str :: strs => do
    copyToProxyStack stackTop stackSize str.bytes
    let s ← Prog.get
    let ptrs ← copyStrings strs
    pure (s.sp.toNat :: ptrs)

def setupProxyStack (hostEnv hostCmdline : List HostString) (aux : AuxInputs) : Prog StackPanic (ProxyStack R) Unit := do
  let envData ← copyStrings stackTop stackSize hostEnv
  let argData ← copyStrings stackTop stackSize hostCmdline
  Prog.modify fun s => { s with sp := s.sp &&& ~~~15 }
  copyToProxyStack stackTop stackSize (words R (auxData aux))
  copyToProxyStack stackTop stackSize (words R (envData ++ [0]))
  copyToProxyStack stackTop stackSize (words R (argData ++ [0]))
  copyToProxyStack stackTop stackSize (words R [hostCmdline.length])

end Setup

/-! ## What a program finds -/

/-- The strings at their addresses. -/
def stringBlocks (ptrs : List Nat) (strs : List HostString) : List (Block UInt8) := List.zipWith (fun ptr str => ⟨ptr, str.bytes⟩) ptrs strs

/-- The count, the arrays of pointers and the auxiliary vector. -/
def stackTables (R : Rv) (argv envp : List Nat) (aux : AuxInputs) : List (List UInt8) :=
  [words R [argv.length], words R (argv ++ [0]), words R (envp ++ [0]), words R (auxData aux)]

/-- From `sp` on lie the tables, whose pointers lead to the strings in their order; all of them lie apart and inside the stack. -/
def FaithfulStack {R : Rv} (stackTop stackSize : Nat) (hostEnv hostCmdline : List HostString) (aux : AuxInputs) (s : ProxyStack R) : Prop :=
  ∃ argv envp : List Nat, argv.length = hostCmdline.length ∧ envp.length = hostEnv.length ∧
    Block.In s.mem ⟨s.sp.toNat, words R ([argv.length] ++ (argv ++ [0]) ++ (envp ++ [0]) ++ auxData aux)⟩ ∧
    let objects := Block.layout s.sp.toNat (stackTables R argv envp aux) ++ stringBlocks argv hostCmdline ++ stringBlocks envp hostEnv
    (∀ b ∈ objects, b.In s.mem) ∧ objects.Pairwise Block.Apart ∧ ∀ b ∈ objects, stackTop - stackSize ≤ b.addr ∧ b.stop ≤ stackTop

/-! ## The stack pointer -/

section Pointer
variable {R : Rv} {stackTop stackSize : Nat}

theorem length_words (R : Rv) (vals : List Nat) : (words R vals).length = R.xlen / 8 * vals.length := by
  induction vals with
  | nil => rfl
  | cons val vals ih =>
    unfold words at ih ⊢
    rw [List.flatMap_cons, List.length_append, ih, List.length_map, List.length_range, List.length_cons, Nat.mul_succ, Nat.add_comm]

theorem copyToProxyStack_apply (data : List UInt8) (s : ProxyStack R) :
    copyToProxyStack stackTop stackSize data s =
      if (stackSize : Int) < ((stackTop : Int) - (s.sp - BitVec.ofNat R.xlen data.length).toInt) % 2 ^ 64 then
        .error .overflow { s with sp := s.sp - BitVec.ofNat R.xlen data.length }
      else if stackTop - stackSize ≤ (s.sp - BitVec.ofNat R.xlen data.length).toNat ∧
          (s.sp - BitVec.ofNat R.xlen data.length).toNat + data.length ≤ stackTop then
        .ok () ⟨s.sp - BitVec.ofNat R.xlen data.length, copyTo s.mem (s.sp - BitVec.ofNat R.xlen data.length).toNat data⟩
      else .undefined := by
  change (if _ then _ else _ : Prog StackPanic (ProxyStack R) Unit) _ = _
  split
  · rfl
  · split <;> rfl

/-- A push that comes back has moved the stack pointer by the length of the data, and has written below the top. -/
theorem of_copyToProxyStack {data : List UInt8} {s s' : ProxyStack R} (h : copyToProxyStack stackTop stackSize data s = .ok () s') :
    s'.sp = s.sp - BitVec.ofNat R.xlen data.length ∧ stackTop - stackSize ≤ s'.sp.toNat ∧ s'.sp.toNat + data.length ≤ stackTop := by
  rw [copyToProxyStack_apply] at h
  split at h
  · cases h
  · split at h
    · rename_i hin
      obtain ⟨-, rfl⟩ := Outcome.ok.inj h
      exact ⟨rfl, hin⟩
    · cases h

theorem sixteen_dvd_xlen (R : Rv) : 16 ∣ 2 ^ R.xlen := by
  cases R <;> decide

/-- Modulo 16 nothing is lost by the width. -/
theorem sp_mod_of_sub {sp sp' : BitVec R.xlen} {n : Nat} (h : sp' = sp - BitVec.ofNat R.xlen n) :
    (sp'.toNat + n) % 16 = sp.toNat % 16 := by
  have hadd : sp' + BitVec.ofNat R.xlen n = sp := by rw [h, BitVec.sub_add_cancel]
  have hnat := congrArg BitVec.toNat hadd
  rw [BitVec.toNat_add, BitVec.toNat_ofNat, Nat.add_mod_mod] at hnat
  rw [← hnat, Nat.mod_mod_of_dvd _ (sixteen_dvd_xlen R)]

theorem of_copyStrings {strs : List HostString} {ptrs : List Nat} {s s' : ProxyStack R}
    (h : copyStrings stackTop stackSize strs s = .ok ptrs s') :
    ptrs.length = strs.length ∧ ∀ str ∈ strs, str.bytes.length ≤ stackSize := by
  induction strs generalizing ptrs s with
  | nil =>
    obtain ⟨rfl, -⟩ := Outcome.ok.inj h
    exact ⟨rfl, fun str hstr => absurd hstr List.not_mem_nil⟩
  | cons str strs ih =>
    obtain ⟨_, s1, h1, h⟩ := Prog.of_bind_ok h
    obtain ⟨_, s2, h2, h⟩ := Prog.of_bind_ok h
    obtain ⟨rfl, rfl⟩ := Outcome.ok.inj h2
    obtain ⟨rest, s3, h3, h⟩ := Prog.of_bind_ok h
    obtain ⟨rfl, rfl⟩ := Outcome.ok.inj h
    obtain ⟨hlen, hsmall⟩ := ih h3
    obtain ⟨-, hlo, htop⟩ := of_copyToProxyStack h1
    refine ⟨congrArg Nat.succ hlen, fun str' hstr' => ?_⟩
    rcases List.mem_cons.1 hstr' with rfl | hstr'
    · omega
    · exact hsmall str' hstr'

/-- The four lowest bits are cleared. -/
theorem align_mod (sp : BitVec R.xlen) : (sp &&& ~~~15).toNat % 16 = 0 := by
  change _ % 2 ^ 4 = 0
  refine Nat.eq_of_testBit_eq fun j => ?_
  rw [Nat.testBit_mod_two_pow, BitVec.testBit_toNat, BitVec.getLsbD_and, BitVec.getLsbD_not, Nat.zero_testBit]
  by_cases hj : j < 4
  · have hbit : (15 : BitVec R.xlen).getLsbD j = true := by
      interval_cases j <;> cases R <;> decide
    rw [hbit, Bool.not_true, Bool.and_false, Bool.and_false, Bool.and_false]
  · rw [decide_eq_false hj, Bool.false_and]

theorem align_le (sp : BitVec R.xlen) : (sp &&& ~~~15).toNat ≤ sp.toNat := by
  rw [BitVec.toNat_and]
  exact Nat.and_le_left

/-- What is pushed below the alignment are 25 words, two of them ends of arrays, and a pointer to each string. -/
theorem setupProxyStack_mod {hostEnv hostCmdline : List HostString} {aux : AuxInputs} {s s' : ProxyStack R}
    (h : setupProxyStack stackTop stackSize hostEnv hostCmdline aux s = .ok () s') :
    (s'.sp.toNat + R.xlen / 8 * (hostEnv.length + hostCmdline.length + 25)) % 16 = 0 := by
  obtain ⟨envData, s1, h1, h⟩ := Prog.of_bind_ok h
  obtain ⟨argData, s2, h2, h⟩ := Prog.of_bind_ok h
  obtain ⟨_, s3, h3, h⟩ := Prog.of_bind_ok h
  obtain ⟨-, rfl⟩ := Outcome.ok.inj h3
  obtain ⟨_, s4, h4, h⟩ := Prog.of_bind_ok h
  obtain ⟨_, s5, h5, h⟩ := Prog.of_bind_ok h
  obtain ⟨_, s6, h6, h⟩ := Prog.of_bind_ok h
  have hsp4 := sp_mod_of_sub (of_copyToProxyStack h4).1
  have hsp5 := sp_mod_of_sub (of_copyToProxyStack h5).1
  have hsp6 := sp_mod_of_sub (of_copyToProxyStack h6).1
  have hsp7 := sp_mod_of_sub (of_copyToProxyStack h).1
  have halign := align_mod s2.sp
  simp only [length_words, List.length_append, List.length_singleton, (of_copyStrings h1).1, (of_copyStrings h2).1] at hsp4 hsp5 hsp6 hsp7
  rw [show (auxData aux).length = 22 from rfl] at hsp4
  rw [show R.xlen / 8 * (hostEnv.length + hostCmdline.length + 25) =
    R.xlen / 8 * 1 + R.xlen / 8 * (hostCmdline.length + 1) + R.xlen / 8 * (hostEnv.length + 1) + R.xlen / 8 * 22 by ring]
  omega

end Pointer

/-! ## Pushing keeps what is there -/

/-- A segment for the stack of which every byte can be reached by a register, with some room. -/
structure StackRegion (R : Rv) (stackTop stackSize : Nat) : Prop where
  size_le : stackSize ≤ stackTop
  top_le : stackTop ≤ 2 ^ (R.xlen - 1)
  top_lt : stackTop < 2 ^ 63
  small : 8 * (stackSize + 1) ≤ 2 ^ 31

section Region
variable {R : Rv} {stackTop stackSize : Nat} (hr : StackRegion R stackTop stackSize)
include hr

/-- Where the check passes, the stack pointer points into the segment. -/
theorem StackRegion.sp_mem {sp : BitVec R.xlen} (h : ¬ (stackSize : Int) < ((stackTop : Int) - sp.toInt) % 2 ^ 64) :
    stackTop - stackSize ≤ sp.toNat ∧ sp.toNat ≤ stackTop ∧ sp.toNat < 2 ^ (R.xlen - 1) := by
  obtain ⟨hsize, htop, hlt, hsmall⟩ := hr
  have hsp := sp.isLt
  have hxlen : R.xlen = 32 ∨ R.xlen = 64 := by
    cases R
    · exact .inl rfl
    · exact .inr rfl
  rw [BitVec.toInt_eq_toNat_cond] at h
  generalize sp.toNat = t at h hsp ⊢
  -- a negative stack pointer is too far below the top
  rcases hxlen with hxlen | hxlen <;> rw [hxlen] at htop hsp h ⊢ <;> split at h <;> omega

variable {s : ProxyStack R} {blocks : List (Block UInt8)}

/-- A push overflows, or it writes the data below all others. -/
theorem wp_copyToProxyStack {data : List UInt8} (hdata : data.length ≤ 2 ^ (R.xlen - 1)) (hsp : s.sp.toNat ≤ stackTop)
    (hp : Pushed (stackTop - stackSize) stackTop s.mem s.sp.toNat blocks) :
    wp (copyToProxyStack stackTop stackSize data)
      (fun _ s' => s'.sp.toNat + data.length = s.sp.toNat ∧ stackTop - stackSize ≤ s'.sp.toNat ∧
        Pushed (stackTop - stackSize) stackTop s'.mem s'.sp.toNat (⟨s'.sp.toNat, data⟩ :: blocks))
      (fun _ _ => True) s := by
  unfold copyToProxyStack
  rw [wp_bind, wp_modify, wp_bind, wp_get, wp_ite, wp_throw]
  refine ⟨fun _ => trivial, fun hcheck => ?_⟩
  obtain ⟨hlo, htop, hlt⟩ := hr.sp_mem hcheck
  dsimp only at hlo htop hlt
  -- the width is not left, so nothing has been cut off
  have hsub : (s.sp - BitVec.ofNat R.xlen data.length).toNat + data.length = s.sp.toNat := by
    have hadd : s.sp - BitVec.ofNat R.xlen data.length + BitVec.ofNat R.xlen data.length = s.sp := by rw [BitVec.sub_add_cancel]
    have hnat := congrArg BitVec.toNat hadd
    rw [BitVec.toNat_add, BitVec.toNat_ofNat, Nat.add_mod_mod, Nat.mod_eq_of_lt] at hnat
    · exact hnat
    · have htwo : 2 ^ (R.xlen - 1) + 2 ^ (R.xlen - 1) = 2 ^ R.xlen := by cases R <;> rfl
      omega
  rw [wp_ite, wp_modify]
  refine ⟨fun _ => ⟨hsub, hlo, hp.push hsub.le hlo hsp⟩, fun hout => absurd ⟨hlo, ?_⟩ hout⟩
  exact hsub.le.trans hsp

theorem wp_copyStrings {strs : List HostString} (hstrs : ∀ str ∈ strs, str.bytes.length ≤ 2 ^ (R.xlen - 1)) (hsp : s.sp.toNat ≤ stackTop)
    (hp : Pushed (stackTop - stackSize) stackTop s.mem s.sp.toNat blocks) :
    wp (copyStrings stackTop stackSize strs)
      (fun ptrs s' => ptrs.length = strs.length ∧ s'.sp.toNat + strs.length ≤ s.sp.toNat ∧
        (strs = [] ∧ s'.sp = s.sp ∨ stackTop - stackSize ≤ s'.sp.toNat) ∧
        Pushed (stackTop - stackSize) stackTop s'.mem s'.sp.toNat ((stringBlocks ptrs strs).reverse ++ blocks))
      (fun _ _ => True) s := by
  induction strs generalizing s blocks with
  | nil => exact ⟨rfl, le_rfl, .inl ⟨rfl, rfl⟩, hp⟩
  | cons str strs ih =>
    obtain ⟨hstr, hstrs⟩ := List.forall_mem_cons.1 hstrs
    rw [copyStrings, wp_bind]
    refine wp_mono (wp_copyToProxyStack hr hstr hsp hp) ?_ fun _ _ h => h
    rintro - s1 ⟨hsp1, hlo1, hp1⟩
    have hbytes : str.bytes.length = str.chars.length + 1 := List.length_append
    rw [wp_bind, wp_get, wp_bind]
    refine wp_mono (ih hstrs (by omega) hp1) ?_ fun _ _ h => h
    rintro ptrs s2 ⟨hlen, hsp2, hlo2, hp2⟩
    refine ⟨congrArg Nat.succ hlen, ?_, .inr ?_, ?_⟩
    · rw [List.length_cons]
      omega
    · rcases hlo2 with ⟨-, heq⟩ | hlo2
      · rw [heq]
        exact hlo1
      · exact hlo2
    · rw [stringBlocks, List.zipWith_cons_cons, List.reverse_cons, List.append_assoc, List.singleton_append]
      exact hp2

omit hr in
theorem length_words_le {vals : List Nat} (h : 8 * vals.length ≤ 2 ^ 31) : (words R vals).length ≤ 2 ^ (R.xlen - 1) := by
  have hwidth : R.xlen / 8 ≤ 8 := by cases R <;> decide
  have hpow : 2 ^ 31 ≤ 2 ^ (R.xlen - 1) := by cases R <;> decide
  rw [length_words]
  exact ((Nat.mul_le_mul_right _ hwidth).trans h).trans hpow

omit hr in
/-- The blocks that have been pushed, in another order, are the objects of the stack. -/
theorem faithful_of_pushed {hostEnv hostCmdline : List HostString} {aux : AuxInputs} {argv envp : List Nat}
    (hargv : argv.length = hostCmdline.length) (henvp : envp.length = hostEnv.length)
    (hp : Pushed (stackTop - stackSize) stackTop s.mem s.sp.toNat (Block.layout s.sp.toNat (stackTables R argv envp aux) ++
      ((stringBlocks argv hostCmdline).reverse ++ ((stringBlocks envp hostEnv).reverse ++ [])))) :
    FaithfulStack stackTop stackSize hostEnv hostCmdline aux s := by
  have hperm : (Block.layout s.sp.toNat (stackTables R argv envp aux) ++ stringBlocks argv hostCmdline ++ stringBlocks envp hostEnv).Perm
      (Block.layout s.sp.toNat (stackTables R argv envp aux) ++
        ((stringBlocks argv hostCmdline).reverse ++ ((stringBlocks envp hostEnv).reverse ++ []))) := by
    rw [List.append_assoc, List.append_nil]
    exact List.Perm.append_left _ ((List.reverse_perm _).symm.append (List.reverse_perm _).symm)
  refine ⟨argv, envp, hargv, henvp, ?_, fun b hb => hp.stored b (hperm.mem_iff.1 hb), hp.apart hperm,
    fun b hb => hp.inside b (hperm.mem_iff.1 hb)⟩
  have htable := Block.in_layout_iff.1 fun b hb => hp.stored b (List.mem_append_left _ hb)
  simpa [stackTables, words, List.flatMap_append] using htable

/-- The setup overflows or leaves what it should, if the strings are shorter than half of the address space. -/
theorem wp_setupProxyStack {hostEnv hostCmdline : List HostString} (aux : AuxInputs) (hsp : s.sp.toNat ≤ stackTop)
    (hstrs : ∀ str ∈ hostEnv ++ hostCmdline, str.bytes.length ≤ 2 ^ (R.xlen - 1)) :
    wp (setupProxyStack stackTop stackSize hostEnv hostCmdline aux)
      (fun _ s' => FaithfulStack stackTop stackSize hostEnv hostCmdline aux s') (fun _ _ => True) s := by
  obtain ⟨henv, hcmd⟩ := List.forall_mem_append.1 hstrs
  have hsize := hr.size_le
  have hsmall := hr.small
  unfold setupProxyStack
  rw [wp_bind]
  refine wp_mono (wp_copyStrings hr henv hsp (.nil ..)) ?_ fun _ _ h => h
  rintro envp s1 ⟨hlen1, hsp1, hlo1, hp1⟩
  rw [wp_bind]
  refine wp_mono (wp_copyStrings hr hcmd (by omega) hp1) ?_ fun _ _ h => h
  rintro argv s2 ⟨hlen2, hsp2, hlo2, hp2⟩
  -- each string takes a byte, so there are not too many for the arrays
  have hcount : hostEnv.length + hostCmdline.length ≤ stackSize := by
    rcases hlo2 with ⟨hnil2, -⟩ | hlo2
    · rcases hlo1 with ⟨hnil1, -⟩ | hlo1
      · rw [hnil1, hnil2]
        exact Nat.zero_le _
      · rw [hnil2, List.length_nil]
        omega
    · omega
  have halign := align_le s2.sp
  rw [wp_bind, wp_modify, wp_bind]
  refine wp_mono (wp_copyToProxyStack hr (length_words_le (show 8 * 22 ≤ 2 ^ 31 by decide)) (by dsimp only; omega) (hp2.mono halign)) ?_ fun _ _ h => h
  rintro - s3 ⟨hsp3, hlo3, hp3⟩
  dsimp only at hsp3
  rw [wp_bind]
  refine wp_mono (wp_copyToProxyStack hr (length_words_le ?_) (by omega) hp3) ?_ fun _ _ h => h
  · rw [List.length_append, hlen1, List.length_singleton]
    omega
  rintro - s4 ⟨hsp4, hlo4, hp4⟩
  rw [wp_bind]
  refine wp_mono (wp_copyToProxyStack hr (length_words_le ?_) (by omega) hp4) ?_ fun _ _ h => h
  · rw [List.length_append, hlen2, List.length_singleton]
    omega
  rintro - s5 ⟨hsp5, hlo5, hp5⟩
  refine wp_mono (wp_copyToProxyStack hr (length_words_le (show 8 * 1 ≤ 2 ^ 31 by decide)) (by omega) hp5) ?_ fun _ _ h => h
  rintro - s6 ⟨hsp6, hlo6, hp6⟩
  rw [← hlen2] at hsp6 hp6
  have hlayout : Block.layout s6.sp.toNat (stackTables R argv envp aux) =
      [⟨s6.sp.toNat, words R [argv.length]⟩, ⟨s5.sp.toNat, words R (argv ++ [0])⟩, ⟨s4.sp.toNat, words R (envp ++ [0])⟩,
        ⟨s3.sp.toNat, words R (auxData aux)⟩] := by
    rw [← hsp4, ← hsp5, ← hsp6]
    rfl
  exact faithful_of_pushed hlen2 hlen1 (by rw [hlayout]; exact hp6)

end Region

/-! ## The stack of the simulator -/

/-- `stack_size` of `start_proxy`: 1 MiB. -/
def proxyStackSize : Nat := 0x00100000

theorem proxyRegion (R : Rv) : StackRegion R (memoryTop R) proxyStackSize := by
  cases R <;> exact ⟨by decide, by decide, by decide, by decide⟩

/-- A string of `n` times the same character. -/
def letters (n : Nat) (hn : n < 2 ^ 63) : HostString where
  chars := List.replicate n 97
  noNul h := absurd (List.eq_of_mem_replicate h) (by decide)
  size_lt := by
    rw [List.length_replicate]
    exact hn

theorem length_letters {n : Nat} (hn : n < 2 ^ 63) : (letters n hn).bytes.length = n + 1 := by
  unfold HostString.bytes letters
  rw [List.length_append, List.length_replicate, List.length_singleton]

/-- The string of one character. -/
def letterA : HostString := letters 1 (by decide)

def noAux : AuxInputs := ⟨0, 0, 0, 0, 0, 0, 0, 0, 0⟩

theorem copyStrings_undefined {R : Rv} {stackTop stackSize : Nat} {str : HostString} {strs : List HostString} {s : ProxyStack R}
    (h : copyToProxyStack stackTop stackSize str.bytes s = .undefined) : copyStrings stackTop stackSize (str :: strs) s = .undefined := by
  rw [copyStrings]
  exact Prog.bind_undefined h

theorem setupProxyStack_undefined {R : Rv} {stackTop stackSize : Nat} {hostCmdline : List HostString} {aux : AuxInputs} {s : ProxyStack R}
    (h : copyStrings stackTop stackSize hostCmdline s = .undefined) :
    setupProxyStack stackTop stackSize [] hostCmdline aux s = .undefined := by
  unfold setupProxyStack
  rw [Prog.bind_ok (show copyStrings stackTop stackSize [] s = .ok [] s from rfl)]
  exact Prog.bind_undefined h

/-- A string that takes 4 GiB does not move the stack pointer of 32 bits, and is written over the top of the stack. -/
theorem setupProxyStack_fourGiB {str : HostString} (h : str.bytes.length = 2 ^ 32) :
    setupProxyStack (memoryTop .rv32) proxyStackSize [] [str] noAux (mapProxyStack .rv32 (memoryTop .rv32)) = .undefined := by
  have hpass : ¬ (proxyStackSize : Int) < ((memoryTop .rv32 : Int) -
      ((mapProxyStack .rv32 (memoryTop .rv32)).sp - BitVec.ofNat Rv.rv32.xlen (2 ^ 32)).toInt) % 2 ^ 64 := by decide
  have hsp : ((mapProxyStack .rv32 (memoryTop .rv32)).sp - BitVec.ofNat Rv.rv32.xlen (2 ^ 32)).toNat = 0x7ffffff8 := by decide
  have hcopy : copyToProxyStack (memoryTop .rv32) proxyStackSize str.bytes (mapProxyStack .rv32 (memoryTop .rv32)) = .undefined := by
    rw [copyToProxyStack_apply, h, if_neg hpass, hsp, if_neg (fun hin => absurd hin.2 (by decide))]
  exact setupProxyStack_undefined (copyStrings_undefined hcopy)

/-- For a program of 64 bits the stack pointer is aligned where the number of strings is odd, for one of 32 bits where one more would
make it a multiple of four. -/
theorem setupProxyStack_aligned_iff {R : Rv} {stackTop stackSize : Nat} {hostEnv hostCmdline : List HostString} {aux : AuxInputs}
    {s s' : ProxyStack R} (h : setupProxyStack stackTop stackSize hostEnv hostCmdline aux s = .ok () s') :
    16 ∣ s'.sp.toNat ↔
      match R with
      | .rv32 => (hostEnv.length + hostCmdline.length) % 4 = 3
      | .rv64 => (hostEnv.length + hostCmdline.length) % 2 = 1 := by
  have hmod := setupProxyStack_mod h
  cases R with
  | rv32 =>
    change (_ + 4 * _) % 16 = 0 at hmod
    dsimp only
    omega
  | rv64 =>
    change (_ + 8 * _) % 16 = 0 at hmod
    dsimp only
    omega

set_option maxRecDepth 4096 in
theorem setupProxyStack_aligned_iff_one : ∃ s,
    setupProxyStack (memoryTop .rv64) proxyStackSize [] [letterA] noAux (mapProxyStack .rv64 (memoryTop .rv64)) = .ok () s ∧
      16 ∣ s.sp.toNat := by
  have hok : (setupProxyStack (memoryTop .rv64) proxyStackSize [] [letterA] noAux
      (mapProxyStack .rv64 (memoryTop .rv64))).result.isSome = true := by decide
  obtain ⟨⟨_, s⟩, hres⟩ := Option.isSome_iff_exists.1 hok
  exact ⟨s, Outcome.eq_ok hres, (setupProxyStack_aligned_iff (Outcome.eq_ok hres)).2 rfl⟩

set_option maxRecDepth 4096 in
/-- With one argument besides the name of the program the stack pointer is not aligned. -/
theorem not_aligned_two : ∃ s,
    setupProxyStack (memoryTop .rv64) proxyStackSize [] [letterA, letterA] noAux (mapProxyStack .rv64 (memoryTop .rv64)) = .ok () s ∧
      16 ∣ memoryTop .rv64 ∧ ¬ 16 ∣ s.sp.toNat := by
  have hok : (setupProxyStack (memoryTop .rv64) proxyStackSize [] [letterA, letterA] noAux
      (mapProxyStack .rv64 (memoryTop .rv64))).result.map (fun r => r.2.sp.toNat % 16) = some 8 := by decide
  obtain ⟨⟨_, s⟩, hres, hmod⟩ := Option.map_eq_some_iff.1 hok
  refine ⟨s, Outcome.eq_ok hres, by decide, fun hdvd => ?_⟩
  dsimp only at hmod
  omega

end Rv8.Emu
