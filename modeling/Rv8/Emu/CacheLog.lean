import Rv8.Emu.CacheSets
import Rv8.Lib.Log
/-!
# The cache beside a log

The operations of `Emu/Cache.lean` with a log of what they do to the lines, the LRU
counters and the statistics. The log does not change what the cache does
(`logged_step`), and what an access writes to it takes a few shapes only: the
lookup hits, finds an empty entry or evicts, and a load that runs into the next line
then replaces what the next entry holds.
-/

namespace Rv8.Emu

open Rv8.Lib

inductive TagEvent
  /-- `update_stats` -/
  | count (stat : Nat)
  | hit (index : Nat)
  /-- The entry is given a line; it held another one, or none. -/
  | tag (index : Nat) (held : Option Nat) (line : Nat)
  /-- The LRU counter of the entry is reset and the other ones of the set are counted up. -/
  | age (index set : Nat)
  /-- The line of the entry has been read from memory. -/
  | fetch (index : Nat)
deriving DecidableEq

abbrev LoggedCache := Logged TaggedCache TagEvent

abbrev LogM := Prog Unit LoggedCache

namespace TaggedCache

open Prog (quietly emit)

variable (P : CacheParam)

/-- The line of an entry that is not empty. -/
def held (ent : CacheEntry) : Option Nat := if ent.status = .empty then none else some ent.pcln

def countStats (mpa : Nat) : LogM Unit := do
  quietly (updateStats mpa)
  emit fun _ => .count mpa

def ageSet (index : Nat) : LogM Unit := do
  emit fun c => .age index (P.entry (c.key index).pcln)
  quietly (.modify (resetLru P index))

def tagLine (mpa index : Nat) : LogM Unit := do
  emit fun c => .tag index (held (c.key index)) (P.pcln mpa)
  quietly (.modify (setKey index (tag P mpa)))

def fetchLine (mpa index : Nat) : LogM Unit := do
  quietly (allocate P mpa .load index)
  emit fun _ => .fetch index

def fillLogged (mpa indexForEntry : Nat) : LogM Unit := do
  let ent := (← quietly .get).key indexForEntry
  match ent.status with
  | .hit =>
    quietly (.modify (setKey indexForEntry fun ent => { ent with status := .filled }))
    emit fun _ => .hit indexForEntry
    quietly (.modify fun c => { c with lastAccess := .hit })
    countStats 0xC0000010
  | .mustEvict =>
    if P.writePolicy = .back ∧ ent.state = cacheStateModified then
      quietly (.modify (setKey indexForEntry fun ent => { ent with state := stateBits P cacheStateShared }))
      quietly (allocate P (ent.pcln <<< P.lineShift % 2 ^ P.xlen) .store indexForEntry)
    ageSet P indexForEntry
    tagLine P mpa indexForEntry
    quietly (.modify fun c => { c with lastAccess := .mustEvict })
    countStats 0xC0000018
    countStats 0xC0000020
    fetchLine P mpa indexForEntry
  | .empty =>
    tagLine P mpa indexForEntry
    quietly (.modify fun c => { c with lastAccess := .empty })
    countStats 0xC0000018
    fetchLine P mpa indexForEntry
  | .filled => pure ()

def fillNextLogged (mpa indexForData : Nat) : LogM Unit := do
  let indexForEntry := indexForData >>> P.lineShift + 1
  let mpaToFillBits := (mpa + (P.lineSize - 1 - P.offset mpa + 1)) % 2 ^ P.xlen
  if P.numKeys ≤ indexForEntry then .undefined
  let ent := (← quietly .get).key indexForEntry
  if ent.status ≠ .empty then
    if P.writePolicy = .back ∧ ent.state = cacheStateModified then
      quietly (allocate P (ent.pcln <<< P.lineShift % 2 ^ P.xlen) .store indexForEntry)
      quietly (.modify (setKey indexForEntry fun ent => { ent with state := stateBits P cacheStateShared }))
    ageSet P indexForEntry
  fetchLine P mpaToFillBits indexForEntry
  tagLine P mpaToFillBits indexForEntry
  quietly (.modify fun c => { c with lastAccess := .mustEvict })
  countStats 0xC0000020

/-- `load_val` after the branch for values that run into the next line. -/
def readVal (n indexForData : Nat) : CacheM Nat := do
  if P.size < indexForData + n then .undefined
  let c ← .get
  pure (leValue (fun i => c.data (indexForData + i)) n)

/-- `access_cache` for a store, after the fill. -/
def writeVal (n mpa indexForEntry val : Nat) : CacheM Nat := do
  if P.writePolicy = .back then
    .modify (setKey indexForEntry fun ent => { ent with state := stateBits P cacheStateModified })
  storeVal P n mpa (indexForEntry <<< P.lineShift ||| P.offset mpa) val
  pure val

def loadValLogged (n mpa indexForData : Nat) : LogM Nat := do
  if Crosses P n indexForData then fillNextLogged P mpa indexForData
  quietly (readVal P n indexForData)

def accessLogged (n mpa : Nat) (op : CacheOp) (val : Nat) : LogM Nat := do
  let indexForEntry ← quietly (lookupCacheLine P mpa)
  fillLogged P mpa indexForEntry
  match op with
  | .store => quietly (writeVal P n mpa indexForEntry val)
  | .load => loadValLogged P n mpa (indexForEntry <<< P.lineShift ||| P.offset mpa)

def loadLogged (n mpa : Nat) : LogM Nat := do
  if mpa < defaultRamBase ∨ mpa > defaultRamBase + defaultRamSize then
    quietly (memLoad n mpa)
  else
    countStats 0xC0000000
    accessLogged P n mpa .load 0

def storeLogged (n mpa val : Nat) : LogM Unit := do
  if mpa < defaultRamBase ∨ mpa > defaultRamBase + defaultRamSize then
    quietly (memStore n mpa val)
  else
    countStats 0xC0000008
    let _ ← accessLogged P n mpa .store val

end TaggedCache

open TaggedCache

namespace CacheStep

def mpa : CacheStep → Nat
  | .load _ mpa => mpa
  | .store _ mpa _ => mpa

variable (P : CacheParam)

def execLogged : CacheStep → LogM Nat
  | .load n mpa => loadLogged P n mpa
  | .store n mpa val => do
    storeLogged P n mpa val
    pure 0

def stepLogged (op : CacheStep) (s : LoggedCache) : Option (Option Nat × LoggedCache) :=
  match op.execLogged P s with
  | .ok v s' => some (some v, s')
  | .error _ s' => some (none, s')
  | .undefined => none

/-- The step without its result. -/
def next (s : LoggedCache) (op : CacheStep) : Option LoggedCache := (op.stepLogged P s).map Prod.snd

end CacheStep

/-! ## Erasure -/

namespace TaggedCache

open Prog

variable {P : CacheParam}

theorem erases_countStats (mpa : Nat) : Erases (updateStats mpa) (countStats mpa) :=
  erases_then_emit _ (erases_quietly _)

theorem erases_ageSet (index : Nat) : Erases (.modify (resetLru P index)) (ageSet P index) :=
  erases_emit _ (erases_quietly _)

theorem erases_tagLine (mpa index : Nat) : Erases (.modify (setKey index (tag P mpa))) (tagLine P mpa index) :=
  erases_emit _ (erases_quietly _)

theorem erases_fetchLine (mpa index : Nat) : Erases (allocate P mpa .load index) (fetchLine P mpa index) :=
  erases_then_emit _ (erases_quietly _)

theorem erases_fill (mpa index : Nat) : Erases (fill P mpa index) (fillLogged P mpa index) := by
  refine erases_bind (erases_quietly _) fun c => ?_
  cases hst : (c.key index).status with
  | hit =>
    simp only [hst]
    refine erases_bind (erases_quietly _) fun _ => erases_emit _ ?_
    exact erases_bind (erases_quietly _) fun _ => erases_countStats _
  | mustEvict =>
    simp only [hst]
    -- what follows the write-back is the same on both branches
    have tail : Erases (do
          .modify (resetLru P index)
          .modify (setKey index (tag P mpa))
          .modify fun c => { c with lastAccess := .mustEvict }
          updateStats 0xC0000018
          updateStats 0xC0000020
          allocate P mpa .load index) (do
          ageSet P index
          tagLine P mpa index
          quietly (.modify fun c => { c with lastAccess := .mustEvict })
          countStats 0xC0000018
          countStats 0xC0000020
          fetchLine P mpa index) := by
      refine erases_bind (erases_ageSet index) fun _ => erases_bind (erases_tagLine mpa index) fun _ => ?_
      refine erases_bind (erases_quietly _) fun _ => erases_bind (erases_countStats _) fun _ => ?_
      exact erases_bind (erases_countStats _) fun _ => erases_fetchLine mpa index
    refine erases_ite ?_ tail
    exact erases_bind (erases_quietly _) fun _ => erases_bind (erases_quietly _) fun _ => tail
  | empty =>
    simp only [hst]
    refine erases_bind (erases_tagLine mpa index) fun _ => erases_bind (erases_quietly _) fun _ => ?_
    exact erases_bind (erases_countStats _) fun _ => erases_fetchLine mpa index
  | filled =>
    simp only [hst]
    exact erases_pure ()

theorem erases_fillNext (mpa indexForData : Nat) :
    Erases (fillNext P mpa indexForData) (fillNextLogged P mpa indexForData) := by
  -- the last part, from the fetch on
  have fetch (mpa index : Nat) : Erases (do
        allocate P mpa .load index
        .modify (setKey index (tag P mpa))
        .modify fun c => { c with lastAccess := .mustEvict }
        updateStats 0xC0000020) (do
        fetchLine P mpa index
        tagLine P mpa index
        quietly (.modify fun c => { c with lastAccess := .mustEvict })
        countStats 0xC0000020) := by
    refine erases_bind (erases_fetchLine mpa index) fun _ => erases_bind (erases_tagLine mpa index) fun _ => ?_
    exact erases_bind (erases_quietly _) fun _ => erases_countStats _
  unfold fillNext fillNextLogged
  refine erases_ite (erases_undefined _ _) (erases_bind (erases_quietly _) fun c => erases_ite (erases_ite ?_ ?_) (fetch _ _))
  · refine erases_bind (erases_quietly _) fun _ => erases_bind (erases_quietly _) fun _ => ?_
    exact erases_bind (erases_ageSet _) fun _ => fetch _ _
  · exact erases_bind (erases_ageSet _) fun _ => fetch _ _

theorem erases_loadVal (n mpa indexForData : Nat) :
    Erases (loadVal P n mpa indexForData) (loadValLogged P n mpa indexForData) := by
  unfold loadVal loadValLogged
  refine erases_ite ?_ (erases_quietly _)
  exact erases_bind (erases_fillNext _ _) fun _ => erases_quietly (readVal P n indexForData)

theorem erases_accessCache (n mpa : Nat) (op : CacheOp) (val : Nat) :
    Erases (accessCache P n mpa op val) (accessLogged P n mpa op val) := by
  refine erases_bind (erases_quietly _) fun index => erases_bind (erases_fill mpa index) fun _ => ?_
  cases op with
  | load => exact erases_loadVal _ _ _
  | store => exact erases_quietly (writeVal P n mpa index val)

end TaggedCache

open TaggedCache Prog in
theorem CacheStep.erases_exec (P : CacheParam) (op : CacheStep) : Erases (op.exec P) (op.execLogged P) := by
  cases op with
  | load n mpa =>
    refine erases_ite (erases_quietly _) ?_
    exact erases_bind (erases_countStats _) fun _ => erases_accessCache _ _ _ _
  | store n mpa val =>
    refine erases_bind (erases_ite (erases_quietly _) ?_) fun _ => erases_pure 0
    exact erases_bind (erases_countStats _) fun _ => erases_bind (erases_accessCache _ _ _ _) fun _ => erases_pure ()

/-- The log does not change what the cache does. -/
theorem logged_step (P : CacheParam) (op : CacheStep) (s : LoggedCache) :
    (op.stepLogged P s).map (fun rs => (rs.1, rs.2.state)) = op.step P s.state := by
  have h := op.erases_exec P s
  unfold CacheStep.stepLogged CacheStep.step
  rw [← h]
  cases op.execLogged P s <;> rfl

end Rv8.Emu
