import Mathlib.Logic.Function.Basic
import Rv8.Emu.Memory
/-!
# The tagged cache

`tagged_cache` of `cache.h`: a set-associative cache over `user_memory`, with the
memory behind it as a part of its state. The sets are consecutive groups of
`num_ways` entries of `cache_key`, and entry `i` owns the line `i` of `cache_data`.
An index outside one of the two arrays is undefined behaviour.
-/

namespace Rv8.Emu

open Rv8.Lib

/-! ## Parameters -/

inductive WritePolicy
  | through | back
deriving DecidableEq

/-- The template parameters of a cache, as logarithms, with `param_rv32` or `param_rv64`. -/
structure CacheParam where
  (xlen ppnBits : Nat)
  (lineShift entriesShift waysShift : Nat)
  writePolicy : WritePolicy
  param : (xlen = 32 ∧ ppnBits = 22) ∨ (xlen = 64 ∧ ppnBits = 38)
  page : lineShift + entriesShift = 12
  /-- `state` has `cache_line_shift` bits, and a bit-field has at least one. -/
  line_pos : 1 ≤ lineShift
  /-- `ctz_pow2` knows the powers of two of 32 bits. -/
  ways_lt : waysShift < 32
  /-- `cache_size` is an enumerator of type `UX`. -/
  size_lt : waysShift + 12 < xlen

namespace CacheParam

variable (P : CacheParam)

def lineSize : Nat := 2 ^ P.lineShift
def numEntries : Nat := 2 ^ P.entriesShift
def numWays : Nat := 2 ^ P.waysShift
/-- The length of `cache_key`. -/
def numKeys : Nat := P.numEntries * P.numWays
def size : Nat := P.numKeys * P.lineSize
def ppnLimit : Nat := 2 ^ P.ppnBits - 1
def pclnLimit : Nat := 2 ^ (P.xlen - P.lineShift) - 1

/-! The fields of an address, as `lookup_cache_line` takes them. -/

def pcln (mpa : Nat) : Nat := mpa >>> P.lineShift
def entry (pcln : Nat) : Nat := pcln &&& (P.numEntries - 1)
def ppn (pcln : Nat) : Nat := pcln >>> P.entriesShift
def offset (mpa : Nat) : Nat := mpa &&& (P.lineSize - 1)

end CacheParam

def defaultRamBase : Nat := 0x80000000
def defaultRamSize : Nat := 0x40000028

/-- The address goes through the cache. -/
def Cacheable (mpa : Nat) : Prop := defaultRamBase ≤ mpa ∧ mpa ≤ defaultRamBase + defaultRamSize

instance (mpa : Nat) : Decidable (Cacheable mpa) := inferInstanceAs (Decidable (_ ∧ _))

/-! ## State -/

inductive LineStatus
  | empty | hit | mustEvict | filled
deriving DecidableEq

structure CacheEntry where
  (pcln state ppn : Nat)
  status : LineStatus
  lruCount : Nat

def cacheStateModified : Nat := 0b011
def cacheStateShared : Nat := 0b100

structure TaggedCache where
  key : Nat → CacheEntry
  data : Nat → UInt8
  lastAccess : LineStatus
  mem : UserMemory

abbrev CacheM := Prog Unit TaggedCache

inductive CacheOp
  | load | store
deriving DecidableEq

namespace TaggedCache

/-- What is assigned to `state` is cut to the width of the field. -/
def stateBits (P : CacheParam) (state : Nat) : Nat := state % 2 ^ P.lineShift

/-- The constructor; `cache_data` and `last_access` are not initialised. -/
def fresh (P : CacheParam) (mem : UserMemory) (data : Nat → UInt8) (lastAccess : LineStatus) : TaggedCache where
  key := fun _ => { pcln := P.pclnLimit, state := stateBits P cacheStateShared, ppn := P.ppnLimit,
                    status := .empty, lruCount := 0 }
  data
  lastAccess
  mem

def setKey (index : Nat) (f : CacheEntry → CacheEntry) (c : TaggedCache) : TaggedCache :=
  { c with key := Function.update c.key index (f (c.key index)) }

@[simp] theorem setKey_self (index : Nat) (f : CacheEntry → CacheEntry) (c : TaggedCache) :
    (c.setKey index f).key index = f (c.key index) := Function.update_self ..

theorem setKey_of_ne {index j : Nat} (h : j ≠ index) (f : CacheEntry → CacheEntry) (c : TaggedCache) :
    (c.setKey index f).key j = c.key j := Function.update_of_ne h ..

@[simp] theorem setKey_data (index : Nat) (f : CacheEntry → CacheEntry) (c : TaggedCache) :
    (c.setKey index f).data = c.data := rfl

variable (P : CacheParam)

/-! ## Memory -/

def memLoad (n mpa : Nat) : CacheM Nat := fun c =>
  match c.mem.load n mpa with
  | some v => .ok v c
  | none => .error () c

def memStore (n mpa val : Nat) : CacheM Unit := fun c =>
  match c.mem.store n mpa val with
  | some mem => .ok () { c with mem }
  | none => .error () c

/-- The errors of the two accesses are not looked at; where the load fails the store does too. -/
def countUp (mpa : Nat) (mem : UserMemory) : UserMemory :=
  match mem.load 8 mpa with
  | some tempVal => (mem.store 8 mpa ((tempVal + 1) % 2 ^ 64)).getD mem
  | none => mem

def updateStats (mpa : Nat) : CacheM Unit := .modify fun c => { c with mem := countUp mpa c.mem }

def updateLruCounters (indexForSet entryToSkip : Nat) (c : TaggedCache) : TaggedCache :=
  let first := indexForSet <<< P.waysShift
  { c with key := fun i =>
      if first ≤ i ∧ i < first + P.numWays ∧ i ≠ entryToSkip then
        { c.key i with lruCount := ((c.key i).lruCount + 1) % 2 ^ P.xlen }
      else c.key i }

/-- `ent->LRU_count = 0; update_LRU_counters(ent->pcln & num_entries_mask, ent)` -/
def resetLru (index : Nat) (c : TaggedCache) : TaggedCache :=
  updateLruCounters P (P.entry (c.key index).pcln) index (c.setKey index fun ent => { ent with lruCount := 0 })

/-- Stores a line to memory or loads it, byte by byte. -/
def allocate (mpa : Nat) (op : CacheOp) (indexForEntry : Nat) : CacheM Unit :=
  let mpaMasked := mpa >>> P.lineShift <<< P.lineShift
  let indexForData := indexForEntry <<< P.lineShift
  .forRange P.lineSize fun offset =>
    match op with
    | .store => do
      let c ← .get
      memStore 1 ((mpaMasked + offset) % 2 ^ P.xlen) (c.data (indexForData + offset)).toNat
    | .load => do
      let v ← memLoad 1 ((mpaMasked + offset) % 2 ^ P.xlen)
      .modify fun c => { c with data := Function.update c.data (indexForData + offset) (UInt8.ofNat v) }

/-! ## Lookup -/

/-- The variables of the loop of `lookup_cache_line` after some ways of the set, or the hit that ended it. -/
inductive Scan
  | hit (index : Nat)
  | miss (emptyLineIndex : Option Nat) (maxLru : Nat) (lineToEvict : Option Nat)

/-- The loop over the first `i` ways. `maxLRU` has 8 bits. -/
def scan (key : Nat → CacheEntry) (mpa : Nat) : Nat → Scan
  | 0 => .miss none 0 none
  | i + 1 =>
    match scan key mpa i with
    | .hit index => .hit index
    | .miss emptyLineIndex maxLru lineToEvict =>
      let index := P.entry (P.pcln mpa) <<< P.waysShift + i
      let ent := key index
      if ent.ppn = P.ppn (P.pcln mpa) then .hit index
      else if emptyLineIndex = none ∧ ent.status = .empty then .miss (some index) maxLru lineToEvict
      else if ent.lruCount ≥ maxLru then .miss emptyLineIndex (ent.lruCount % 256) (some index)
      else .miss emptyLineIndex maxLru lineToEvict

def lookupCacheLine (mpa : Nat) : CacheM Nat := do
  let c ← .get
  match scan P c.key mpa P.numWays with
  | .hit index =>
    .modify (setKey index fun ent => { ent with status := .hit })
    pure index
  | .miss (some emptyLineIndex) _ _ => pure emptyLineIndex
  | .miss none _ (some lineToEvict) =>
    .modify (setKey lineToEvict fun ent => { ent with status := .mustEvict })
    pure lineToEvict
  | .miss none _ none => .undefined

/-! ## Accesses -/

/-- The tags that name the line of `mpa`. -/
def tag (mpa : Nat) (ent : CacheEntry) : CacheEntry :=
  { ent with pcln := P.pcln mpa % 2 ^ (P.xlen - P.lineShift),
             ppn := P.ppn (P.pcln mpa) % 2 ^ P.ppnBits, status := .filled }

/-- The first half of `access_cache`: whatever the lookup found, the entry then holds the line of `mpa`. -/
def fill (mpa indexForEntry : Nat) : CacheM Unit := do
  let ent := (← .get).key indexForEntry
  match ent.status with
  | .hit =>
    .modify (setKey indexForEntry fun ent => { ent with status := .filled })
    .modify fun c => { c with lastAccess := .hit }
    updateStats 0xC0000010
  | .mustEvict =>
    if P.writePolicy = .back ∧ ent.state = cacheStateModified then
      .modify (setKey indexForEntry fun ent => { ent with state := stateBits P cacheStateShared })
      allocate P (ent.pcln <<< P.lineShift % 2 ^ P.xlen) .store indexForEntry
    .modify (resetLru P indexForEntry)
    .modify (setKey indexForEntry (tag P mpa))
    .modify fun c => { c with lastAccess := .mustEvict }
    updateStats 0xC0000018
    updateStats 0xC0000020
    allocate P mpa .load indexForEntry
  | .empty =>
    .modify (setKey indexForEntry (tag P mpa))
    .modify fun c => { c with lastAccess := .empty }
    updateStats 0xC0000018
    allocate P mpa .load indexForEntry
  | .filled => pure ()

/-- Fetches the line after the one of `mpa` into the entry after the one of `mpa`. -/
def fillNext (mpa indexForData : Nat) : CacheM Unit := do
  let indexForEntry := indexForData >>> P.lineShift + 1
  let mpaToFillBits := (mpa + (P.lineSize - 1 - P.offset mpa + 1)) % 2 ^ P.xlen
  if P.numKeys ≤ indexForEntry then .undefined
  let ent := (← .get).key indexForEntry
  if ent.status ≠ .empty then
    if P.writePolicy = .back ∧ ent.state = cacheStateModified then
      allocate P (ent.pcln <<< P.lineShift % 2 ^ P.xlen) .store indexForEntry
      .modify (setKey indexForEntry fun ent => { ent with state := stateBits P cacheStateShared })
    .modify (resetLru P indexForEntry)
  allocate P mpaToFillBits .load indexForEntry
  .modify (setKey indexForEntry (tag P mpaToFillBits))
  .modify fun c => { c with lastAccess := .mustEvict }
  updateStats 0xC0000020

/-- The bytes of a value of size `n` run into the next line of `cache_data`. -/
def Crosses (n indexForData : Nat) : Prop :=
  (indexForData + (n - 1)) >>> P.lineShift ≠ indexForData >>> P.lineShift

instance (n indexForData : Nat) : Decidable (Crosses P n indexForData) := inferInstanceAs (Decidable (_ ≠ _))

def loadVal (n mpa indexForData : Nat) : CacheM Nat := do
  if Crosses P n indexForData then fillNext P mpa indexForData
  if P.size < indexForData + n then .undefined
  let c ← .get
  pure (leValue (fun i => c.data (indexForData + i)) n)

def storeVal (n mpa indexForData val : Nat) : CacheM Unit := do
  if P.size < indexForData + n then .undefined
  .forRange n fun i => do
    .modify fun c => { c with data := Function.update c.data (indexForData + i) (leByte val i) }
    if P.writePolicy = .through then memStore 1 ((mpa + i) % 2 ^ P.xlen) (leByte val i).toNat

/-- The value loaded; a store gives its operand back. -/
def accessCache (n mpa : Nat) (op : CacheOp) (val : Nat) : CacheM Nat := do
  let indexForEntry ← lookupCacheLine P mpa
  let indexForData := indexForEntry <<< P.lineShift ||| P.offset mpa
  fill P mpa indexForEntry
  match op with
  | .store =>
    if P.writePolicy = .back then
      .modify (setKey indexForEntry fun ent => { ent with state := stateBits P cacheStateModified })
    storeVal P n mpa indexForData val
    pure val
  | .load => loadVal P n mpa indexForData

def load (n mpa : Nat) : CacheM Nat := do
  if mpa < defaultRamBase ∨ mpa > defaultRamBase + defaultRamSize then
    memLoad n mpa
  else
    updateStats 0xC0000000
    accessCache P n mpa .load 0

def store (n mpa val : Nat) : CacheM Unit := do
  if mpa < defaultRamBase ∨ mpa > defaultRamBase + defaultRamSize then
    memStore n mpa val
  else
    updateStats 0xC0000008
    let _ ← accessCache P n mpa .store val

end TaggedCache

/-! ## Runs -/

inductive CacheStep
  | load (n mpa : Nat)
  | store (n mpa val : Nat)

namespace CacheStep

variable (P : CacheParam)

def exec : CacheStep → CacheM Nat
  | .load n mpa => TaggedCache.load P n mpa
  | .store n mpa val => do
    TaggedCache.store P n mpa val
    pure 0

/-- The value delivered, or none after a bus error, and the cache that is left. -/
def step (op : CacheStep) (c : TaggedCache) : Option (Option Nat × TaggedCache) :=
  match op.exec P c with
  | .ok v c' => some (some v, c')
  | .error _ c' => some (none, c')
  | .undefined => none

def run : List CacheStep → TaggedCache → Option (List (Option Nat) × TaggedCache)
  | [], c => some ([], c)
  | op :: ops, c =>
    match op.step P c with
    | none => none
    | some (r, c') => (run ops c').map fun rc => (r :: rc.1, rc.2)

end CacheStep

end Rv8.Emu
