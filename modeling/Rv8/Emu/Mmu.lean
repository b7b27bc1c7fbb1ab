import Rv8.Emu.Cache
import Rv8.Emu.Paging
/-!
# The MMU

`mmu_soft` of `mmu-soft.h` and `mmu_soft_cache` of `mmu-soft-cache.h`. The two are
copies of one text, with `mem` in the one where the other has `cache`, and differ in
two places: how an instruction is read and what the walk does to an entry whose
accessed or dirty flag is not set. A `Port` gives what differs, and each function is
written once over it.

A raised exception leaves the call by `longjmp`, so the first one counts. The
statistics of `proc.log` are left out.
-/

namespace Rv8.Emu

open Rv8.Lib

/-! ## Processor -/

namespace Processor

variable {xlen : Nat} (proc : Processor xlen)

def mpp : Nat := (proc.csrs.mstatus.extractLsb' 11 2).toNat
def mprv : Bool := proc.csrs.mstatus.getLsbD 17
def pum : Bool := proc.csrs.mstatus.getLsbD 18
def mxr : Bool := proc.csrs.mstatus.getLsbD 19
def vm : Nat := (proc.csrs.mstatus.extractLsb' 24 4).toNat

end Processor

inductive RvCause
  | misalignedFetch | faultFetch | misalignedLoad | faultLoad | misalignedStore | faultStore
deriving DecidableEq

/-- How a call is left before its end. -/
inductive MmuExit
  | raise (cause : RvCause) (badaddr : Nat)
  | panic
deriving DecidableEq

inductive MmuOp
  | fetch | load | store
deriving DecidableEq

/-! ## AMO -/

inductive AmoOp
  | amoswap | amoadd | amoxor | amoor | amoand | amomin | amomax | amominu | amomaxu
deriving DecidableEq

def amoFn {w : Nat} (op : AmoOp) (x y : BitVec w) : BitVec w :=
  match op with
  | .amoswap => y
  | .amoadd => x + y
  | .amoxor => x ^^^ y
  | .amoor => x ||| y
  | .amoand => x &&& y
  | .amomin => if y.slt x then y else x
  | .amomax => if x.slt y then y else x
  | .amominu => if y < x then y else x
  | .amomaxu => if x < y then y else x

/-- `val2 = amo_fn<UX>(a_op, val1, val2)` for a signed `T` of `n` bytes. -/
def amoVal (R : Rv) (n : Nat) (aop : AmoOp) (val1 val2 : Nat) : Nat :=
  let ux (val : Nat) : BitVec R.xlen := (BitVec.ofNat (8 * n) val).signExtend R.xlen
  (amoFn aop (ux val1) (ux val2)).toNat % 2 ^ (8 * n)

/-! ## State -/

/-- What an MMU does to the memory behind it. -/
structure Port (σ : Type) where
  load : Nat → Nat → Prog Unit σ Nat
  store : Nat → Nat → Nat → Prog Unit σ Unit
  /-- What becomes of an entry whose flags are not up to date, given its size, its address and the
  flags with the missing ones set. -/
  updatePte : Nat → Nat → Nat → Prog Unit σ Nat
  /-- The instruction at an address and its length. -/
  instBytes : Nat → Prog Unit σ (Nat × Nat)
  /-- Whether a store of a floating-point value to an address takes its bits. The bus takes an integer. -/
  storesBits : Nat → Bool

structure Mmu (σ : Type) where
  l1Itlb : Tlb
  l1Dtlb : Tlb
  mem : σ

abbrev MmuM (σ : Type) := Prog MmuExit (Mmu σ)

namespace Mmu

variable {σ α : Type}

/-- A call on the memory, where a bus error ends in the exception `e`. -/
def onMem (m : Prog Unit σ α) (e : MmuExit) : MmuM σ α :=
  (m.zoom (fun s : Mmu σ => s.mem) fun s mem => { s with mem }).onError fun _ => .throw e

def tlb (s : Mmu σ) : MmuOp → Tlb
  | .fetch => s.l1Itlb
  | .load | .store => s.l1Dtlb

def setTlb (s : Mmu σ) (op : MmuOp) (tlb : Tlb) : Mmu σ :=
  match op with
  | .fetch => { s with l1Itlb := tlb }
  | .load | .store => { s with l1Dtlb := tlb }

end Mmu

/-! ## Permissions -/

section Permissions
variable {xlen : Nat} (proc : Processor xlen) (privilegeLevel : Nat)

def fetchAccessFault : Option TlbEntry → Bool
  | none => false
  | some ent =>
    !ent.pteb.testBit pteShiftX ||
      if ent.pteb.testBit pteShiftU then decide (privilegeLevel > RvMode.U.toNat)
      else decide (privilegeLevel < RvMode.S.toNat)

def loadAccessFault : Option TlbEntry → Bool
  | none => false
  | some ent =>
    (!ent.pteb.testBit pteShiftR && !(ent.pteb.testBit pteShiftX && proc.mxr)) ||
      if ent.pteb.testBit pteShiftU then decide (privilegeLevel > RvMode.U.toNat) && proc.pum
      else decide (privilegeLevel < RvMode.S.toNat)

def storeAccessFault : Option TlbEntry → Bool
  | none => false
  | some ent =>
    !ent.pteb.testBit pteShiftW ||
      if ent.pteb.testBit pteShiftU then decide (privilegeLevel > RvMode.U.toNat) && proc.pum
      else decide (privilegeLevel < RvMode.S.toNat)

end Permissions

/-! ## Walk -/

def adFlags (op : MmuOp) : Nat := pteFlagA ||| if op = .store then pteFlagD else 0

def faultCause : MmuOp → RvCause
  | .fetch => .faultFetch
  | .load => .faultLoad
  | .store => .faultStore

section Translate
variable {σ : Type} (port : Port σ) (R : Rv) (ptm : Ptm) (proc : Processor R.xlen) (op : MmuOp) (va : Nat)

/-- The sum has fewer bits than `addr_t`. -/
def pageTranslateOffset (ppn va level : Nat) : Nat :=
  let shift := (ptm.bits * level + pageShift) % 2 ^ R.xlen
  (ppn <<< pageShift) % 2 ^ R.xlen + (va &&& (2 ^ shift - 1))

/-- What a walk that is not left returns. -/
structure Leaf where
  (pa pte level : Nat)
deriving DecidableEq

/-- `pte_mpa` -/
def pteMpa (shift ppn : Nat) : Nat :=
  (ppn + (va >>> shift &&& (2 ^ ptm.bits - 1)) * ptm.pteSize) % 2 ^ R.xlen

/-- One turn of the loop, `next` being those that follow. A shift by the width or more is undefined. -/
def walkTurn (next : Nat → Prog Unit σ Leaf) (level ppn : Nat) : Prog Unit σ Leaf :=
  let shift := (ptm.bits * level + pageShift) % 2 ^ R.xlen
  let leaf (pte : Nat) : Leaf := ⟨pageTranslateOffset R ptm (ptm.ppn pte) va level, pte, level⟩
  if R.xlen ≤ shift then .undefined
  else do
    let pte ← port.load ptm.pteSize (pteMpa R ptm va shift ppn)
    if IsPointer pte then next (ptm.table pte R)
    else if IsInvalid pte then .throw ()
    else if pte.testBit pteShiftR ∨ pte.testBit pteShiftX then
      let superpage := (shift + 2 ^ R.xlen - pageShift) % 2 ^ R.xlen
      if 31 ≤ superpage then .undefined
      else if (2 ^ superpage - 1) &&& ptm.ppn pte ≠ 0 then .throw ()
      else if pte &&& adFlags op ≠ adFlags op then do
        let pte ← port.updatePte ptm.pteSize (pteMpa R ptm va shift ppn) (pte ||| adFlags op)
        pure (leaf pte)
      else pure (leaf pte)
    else next ppn

/-- The turns after level 0: `level` is unsigned, so the loop goes on with its greatest values. -/
def walkWrapped : Nat → Prog Unit σ Leaf :=
  walkTurn port R ptm op va (walkTurn port R ptm op va (fun _ => .undefined) (2 ^ R.xlen - 2)) (2 ^ R.xlen - 1)

def walkFrom : Nat → Nat → Prog Unit σ Leaf
  | 0 => walkTurn port R ptm op va (walkWrapped port R ptm op va) 0
  | level + 1 => walkTurn port R ptm op va (walkFrom level) (level + 1)

def rootTable (sptbr : Nat) : Nat := ((sptbr &&& (2 ^ R.ppnBits - 1)) <<< pageShift) % 2 ^ R.xlen

def walkPageTable : MmuM σ Leaf :=
  Mmu.onMem (walkFrom port R ptm op va (ptm.levels - 1) (rootTable R proc.csrs.sptbr.toNat))
    (.raise (faultCause op) va)

/-! ## Translation -/

def asid : Nat := proc.csrs.sptbr.toNat >>> R.ppnBits

def pageTranslateAddrTlbMiss (tlbEnt : Option TlbEntry) : MmuM σ (Nat × Option TlbEntry) := do
  let leaf ← walkPageTable port R ptm proc op va
  if leaf.pa = 0 then pure (0, tlbEnt)
  else
    let ent := Tlb.entry R proc.pdid.toNat (asid R proc) va leaf.level (pteFlags leaf.pte) (ptm.ppn leaf.pte)
    .modify fun s => s.setTlb op ((s.tlb op).insert va ent)
    pure (leaf.pa, some ent)

def pageTranslateAddr : MmuM σ (Nat × Option TlbEntry) := do
  let tlb ← .gets fun s => s.tlb op
  match tlb.lookup proc.pdid.toNat (asid R proc) va with
  | some ent =>
    if ent.pteb &&& adFlags op ≠ adFlags op then
      pure (pageTranslateOffset R ptm ent.ppn va ent.ptel, some ent)
    else pageTranslateAddrTlbMiss port R ptm proc op va (some ent)
  | none => pageTranslateAddrTlbMiss port R ptm proc op va none

def effectiveMode : Nat :=
  if proc.mode.toNat ≥ RvMode.M.toNat ∧ proc.mprv ∧ op ≠ .fetch ∧ proc.mpp ≤ RvMode.S.toNat then proc.mpp
  else proc.mode.toNat

/-- The cases of `mstatus.vm` that `translate_addr` knows. -/
inductive RvVm
  | mbare
  | paged (ptm : Ptm)

def RvVm.ofNat : Nat → Option RvVm
  | 0 => some .mbare
  | 8 => some (.paged .sv32)
  | 9 => some (.paged .sv39)
  | 10 => some (.paged .sv48)
  | _ => none

def translateAddr : MmuM σ (Nat × Option TlbEntry) :=
  if effectiveMode R proc op ≥ RvMode.M.toNat then pure (va, none)
  else
    match RvVm.ofNat proc.vm with
    | some .mbare => pure (va, none)
    | some (.paged ptm) => pageTranslateAddr port R ptm proc op va
    | none => .throw .panic

end Translate

/-! ## The two ports -/

section Ports
variable {σ : Type} (R : Rv) (load : Nat → Nat → Prog Unit σ Nat) (mpa : Nat)

/-- `mmu_soft` reads an instruction in parcels of 16 bits, as its length asks for them. -/
def softInstBytes : Prog Unit σ (Nat × Nat) := do
  let parcel (off : Nat) := load 2 ((mpa + off) % 2 ^ R.xlen)
  let inst ← parcel 0
  if inst &&& 0b11 ≠ 0b11 then pure (inst, 2)
  else if inst &&& 0b11100 ≠ 0b11100 then
    let inst2 ← parcel 2
    pure (inst ||| inst2 <<< 16, 4)
  else if inst &&& 0b111111 = 0b011111 then
    let inst2 ← parcel 2
    let inst4 ← parcel 4
    pure (inst ||| inst2 <<< 16 ||| inst4 <<< 32, 6)
  else if inst &&& 0b1111111 = 0b0111111 then
    let inst2 ← parcel 2
    let inst4 ← parcel 4
    let inst6 ← parcel 6
    pure (inst ||| inst2 <<< 16 ||| inst4 <<< 32 ||| inst6 <<< 48, 8)
  else .throw ()

/-- `mmu_soft_cache` reads 32 bits first. -/
def cacheInstBytes : Prog Unit σ (Nat × Nat) := do
  let inst ← load 4 (mpa % 2 ^ R.xlen)
  if inst &&& 0b11 ≠ 0b11 then pure (inst &&& 0xffff, 2)
  else if inst &&& 0b11100 ≠ 0b11100 then pure (inst, 4)
  else if inst &&& 0b111111 = 0b011111 then
    let inst4 ← load 2 ((mpa + 4) % 2 ^ R.xlen)
    pure (inst ||| inst4 <<< 32, 6)
  else if inst &&& 0b1111111 = 0b0111111 then
    let inst4 ← load 4 ((mpa + 4) % 2 ^ R.xlen)
    pure (inst ||| inst4 <<< 32, 8)
  else .throw ()

end Ports

namespace UserMemory

def busLoad (n mpa : Nat) : Prog Unit UserMemory Nat := fun m =>
  match m.load n mpa with
  | some v => .ok v m
  | none => .error () m

def busStore (n mpa val : Nat) : Prog Unit UserMemory Unit := fun m =>
  match m.store n mpa val with
  | some m' => .ok () m'
  | none => .error () m

end UserMemory

def mmuSoft (R : Rv) : Port UserMemory where
  load := UserMemory.busLoad
  store := UserMemory.busStore
  updatePte := fun n mpa pte => do
    UserMemory.busStore n mpa pte
    pure pte
  instBytes := softInstBytes R UserMemory.busLoad
  storesBits _ := false

/-- Its walk has `cache->load` where `mmu_soft` stores the entry, so the entry is read again. -/
def mmuSoftCache (R : Rv) (P : CacheParam) : Port TaggedCache where
  load := TaggedCache.load P
  store := TaggedCache.store P
  updatePte := fun n mpa _ => TaggedCache.load P n mpa
  instBytes := cacheInstBytes R (TaggedCache.load P)
  storesBits mpa := decide (Cacheable mpa)

/-! ## Accesses -/

section Accesses
variable {σ : Type} (port : Port σ) (R : Rv) (proc : Processor R.xlen)

def Misaligned (n va : Nat) : Prop := va &&& (n - 1) ≠ 0

instance (n va : Nat) : Decidable (Misaligned n va) := inferInstanceAs (Decidable (_ ≠ _))

/-- The instruction and `pc_offset`, which is left as it is where the call returns early. -/
def instFetch (pc pcOffset : Nat) : MmuM σ (Nat × Nat) :=
  if Misaligned 2 pc then .throw (.raise .misalignedFetch pc)
  else do
    let (mpa, tlbEnt) ← translateAddr port R proc .fetch pc
    if mpa = 0 then pure (0, pcOffset)
    else if fetchAccessFault proc.mode.toNat tlbEnt then .throw (.raise .faultFetch pc)
    else Mmu.onMem (port.instBytes mpa) (.raise .faultFetch pc)

/-- `val1`, the value before, and the memory is left with the value after. -/
def amo (n : Nat) (aop : AmoOp) (va val1 val2 : Nat) : MmuM σ Nat :=
  if Misaligned n va then .throw (.raise .misalignedStore va)
  else do
    let (mpa, tlbEnt) ← translateAddr port R proc .store va
    if mpa = 0 then pure val1
    else if loadAccessFault proc proc.mode.toNat tlbEnt then .throw (.raise .faultStore va)
    else do
      let val1 ← Mmu.onMem (port.load n (mpa % 2 ^ R.xlen)) (.raise .faultStore va)
      if storeAccessFault proc proc.mode.toNat tlbEnt then .throw (.raise .faultStore va)
      else do
        Mmu.onMem (port.store n (mpa % 2 ^ R.xlen) (amoVal R n aop val1 val2)) (.raise .faultStore va)
        pure val1

def load (n va val : Nat) : MmuM σ Nat :=
  if Misaligned n va then .throw (.raise .misalignedLoad va)
  else do
    let (mpa, tlbEnt) ← translateAddr port R proc .load va
    if mpa = 0 then pure val
    else if loadAccessFault proc proc.mode.toNat tlbEnt then .throw (.raise .faultLoad va)
    else Mmu.onMem (port.load n (mpa % 2 ^ R.xlen)) (.raise .faultLoad va)

/-- The part of `store` before the bus: the address to store to, or none where the call returns early. -/
def storeAddr (n va : Nat) : MmuM σ (Option Nat) :=
  if Misaligned n va then .throw (.raise .misalignedStore va)
  else do
    let (mpa, tlbEnt) ← translateAddr port R proc .store va
    if mpa = 0 then pure none
    else if storeAccessFault proc proc.mode.toNat tlbEnt then .throw (.raise .faultStore va)
    else pure (some (mpa % 2 ^ R.xlen))

def store (n va val : Nat) : MmuM σ Unit :=
  if Misaligned n va then .throw (.raise .misalignedStore va)
  else do
    let (mpa, tlbEnt) ← translateAddr port R proc .store va
    if mpa = 0 then pure ()
    else if storeAccessFault proc proc.mode.toNat tlbEnt then .throw (.raise .faultStore va)
    else Mmu.onMem (port.store n (mpa % 2 ^ R.xlen) val) (.raise .faultStore va)

end Accesses

/-! ## Runs -/

inductive MmuCall
  | instFetch (pc pcOffset : Nat)
  | load (n va val : Nat)
  | store (n va val : Nat)
  | amo (n : Nat) (aop : AmoOp) (va val1 val2 : Nat)

inductive MmuResult
  | inst (inst pcOffset : Nat)
  | value (val : Nat)
  | stored
deriving DecidableEq

/-- A call, with the state of the processor it is made from. -/
structure MmuStep (R : Rv) where
  proc : Processor R.xlen
  call : MmuCall

namespace MmuStep

variable {σ : Type} (port : Port σ) {R : Rv}

def exec (step : MmuStep R) : MmuM σ MmuResult :=
  match step.call with
  | .instFetch pc pcOffset => do
    let r ← instFetch port R step.proc pc pcOffset
    pure (.inst r.1 r.2)
  | .load n va val => do
    let r ← Emu.load port R step.proc n va val
    pure (.value r)
  | .store n va val => do
    Emu.store port R step.proc n va val
    pure .stored
  | .amo n aop va val1 val2 => do
    let r ← Emu.amo port R step.proc n aop va val1 val2
    pure (.value r)

/-- What each call delivers or how it is left; a panic ends the run. -/
def run : List (MmuStep R) → Prog Empty (Mmu σ) (List (Except MmuExit MmuResult))
  | [] => pure []
  | step :: steps => do
    match ← (step.exec port).attempt with
    | .error .panic => pure [.error .panic]
    | r => do
      let rs ← run steps
      pure (r :: rs)

end MmuStep

end Rv8.Emu
