import Rv8.Lib.Probing
/-!
# The dense hash table

`dense_hashtable` of `densehashtable.h` with the settings of `hashtable-common.h`, as
`dense_hash_map` uses it. A bucket is empty if it has the key of `set_empty_key`, and
deleted if it has that of `set_deleted_key`; the table is given its buckets by
`set_empty_key`. Nothing here changes the two factors, which are 0.5 and 0.2.

A failed assertion has no value.
-/

namespace Rv8.Hash

open Rv8.Lib Probing

/-! ## Settings -/

/-- `HT_MIN_BUCKETS` -/
def htMinBuckets : Nat := 4

/-- `HT_DEFAULT_STARTING_BUCKETS` -/
def htDefaultStartingBuckets : Nat := 32

/-- Half of a number of buckets, which is a power of two. -/
def enlargeSize (x : Nat) : Nat := x / 2

/-- 0.2f is 13421773 / 2^26, and a product of it with a power of two is exact. -/
def shrinkSize (x : Nat) : Nat := x * 13421773 / 2 ^ 26

/-- A number as a `float`, of 24 digits, to the nearest and then to even. -/
def roundFloat (n : Nat) : Nat :=
  let ulp := 2 ^ (Nat.log2 n - 23)
  let q := n / ulp
  let r := n % ulp
  (if ulp < 2 * r ∨ (2 * r = ulp ∧ q % 2 = 1) then q + 1 else q) * ulp

/-- The size is doubled at most `fuel` times. -/
def minBucketsFrom (numElts minBucketsWanted : Nat) : Nat → Nat → Nat
  | 0, sz => sz
  | fuel + 1, sz =>
    if sz < minBucketsWanted ∨ enlargeSize sz ≤ numElts then minBucketsFrom numElts minBucketsWanted fuel (sz * 2) else sz

def minBuckets (numElts minBucketsWanted : Nat) : Nat :=
  minBucketsFrom numElts minBucketsWanted (numElts + minBucketsWanted) htMinBuckets

/-- The size is halved while it is more than the default and too much for what remains. -/
def shrinkFrom (numRemain : Nat) : Nat → Nat → Nat
  | 0, sz => sz
  | fuel + 1, sz =>
    if htDefaultStartingBuckets < sz ∧ roundFloat numRemain * 2 ^ 26 < sz * 13421773 then shrinkFrom numRemain fuel (sz / 2) else sz

/-! ## The table -/

/-- `num_buckets` is the length of the table. -/
structure DenseHashtable (K T : Type) where
  table : List (K × T)
  emptyval : K × T
  /-- `key_info.delkey`, where `use_deleted` is set. -/
  delkey : Option K := none
  (numDeleted numElements : Nat := 0)
  (enlargeThreshold shrinkThreshold : Nat)
  considerShrink : Bool := false

namespace DenseHashtable

variable {K T : Type} [DecidableEq K] [Inhabited T] (hash : K → Nat) (t : DenseHashtable K T)

def bucketCount : Nat := t.table.length

def size : Nat := t.numElements - t.numDeleted

def bucket (i : Nat) : K × T := t.table.getD i t.emptyval

def testEmpty (i : Nat) : Bool := t.emptyval.1 = (t.bucket i).1

def testDeleted (i : Nat) : Bool := 0 < t.numDeleted ∧ t.delkey = some (t.bucket i).1

def resetThresholds : DenseHashtable K T :=
  { t with
    enlargeThreshold := enlargeSize t.bucketCount
    shrinkThreshold := shrinkSize t.bucketCount
    considerShrink := false }

/-- The constructor and `set_empty_key`. -/
def make (expectedMaxItemsInTable : Nat) (emptyval : K × T) : DenseHashtable K T :=
  let numBuckets := if expectedMaxItemsInTable = 0 then htDefaultStartingBuckets else minBuckets expectedMaxItemsInTable 0
  resetThresholds
    { table := List.replicate numBuckets emptyval
      emptyval
      enlargeThreshold := 0
      shrinkThreshold := 0 }

def clearToSize (newNumBuckets : Nat) : DenseHashtable K T :=
  resetThresholds { t with table := List.replicate newNumBuckets t.emptyval, numElements := 0, numDeleted := 0 }

def clear : DenseHashtable K T :=
  let newNumBuckets := minBuckets 0 0
  if t.numElements = 0 ∧ newNumBuckets = t.bucketCount then t else t.clearToSize newNumBuckets

def clearNoResize : DenseHashtable K T :=
  { (if 0 < t.numElements then { t with table := List.replicate t.bucketCount t.emptyval } else t).resetThresholds with
    numElements := 0, numDeleted := 0 }

/-! ### Probing -/

/-- `JUMP_` is the number of probes. -/
def nextBucket (numProbes bucknum : Nat) : Nat := (bucknum + numProbes) &&& (t.bucketCount - 1)

/-- At most as many probes are made as there are buckets; `insertPos` is the first deleted bucket. -/
def findPositionFrom (key : K) : Nat → Nat → Nat → Option Nat → Option Position
  | 0, _, _, _ => none
  | fuel + 1, numProbes, bucknum, insertPos =>
    if t.testEmpty bucknum then some (.free (insertPos.getD bucknum))
    else if t.testDeleted bucknum then
      findPositionFrom key fuel (numProbes + 1) (t.nextBucket (numProbes + 1) bucknum) (some (insertPos.getD bucknum))
    else if key = (t.bucket bucknum).1 then some (.found bucknum)
    else findPositionFrom key fuel (numProbes + 1) (t.nextBucket (numProbes + 1) bucknum) insertPos

def findPosition (key : K) : Option Position :=
  t.findPositionFrom key t.bucketCount 0 (hash key &&& (t.bucketCount - 1)) none

/-- `end()` is `none`. -/
def find (key : K) : Option (Option Nat) :=
  if t.size = 0 then some none
  else
    match t.findPosition hash key with
    | some (.found i) => some (some i)
    | some (.free _) => some none
    | none => none

/-- `begin()` to `end()` -/
def elements : List (K × T) :=
  t.table.filter fun b => !(t.emptyval.1 = b.1) && !(0 < t.numDeleted ∧ t.delkey = some b.1)

/-! ### Copying -/

/-- The first empty bucket for a key. -/
def findEmptyFrom : Nat → Nat → Nat → Option Nat
  | 0, _, _ => none
  | fuel + 1, numProbes, bucknum =>
    if t.testEmpty bucknum then some bucknum else findEmptyFrom fuel (numProbes + 1) (t.nextBucket (numProbes + 1) bucknum)

/-- The body of the loop of `copy_from`. -/
def copyElement (obj : K × T) : Option (DenseHashtable K T) := do
  let bucknum ← t.findEmptyFrom t.bucketCount 0 (hash obj.1 &&& (t.bucketCount - 1))
  pure { t with table := t.table.set bucknum obj, numElements := t.numElements + 1 }

/-- A copy of another size, without the deleted buckets. -/
def copyFrom (minBucketsWanted : Nat) : Option (DenseHashtable K T) :=
  t.elements.foldlM (fun tmp obj => tmp.copyElement hash obj) (t.clearToSize (minBuckets t.size minBucketsWanted))

def squashDeleted : Option (DenseHashtable K T) :=
  if t.numDeleted ≠ 0 then t.copyFrom hash htDefaultStartingBuckets else some t

/-- Whether the table is another one comes first. -/
def maybeShrink : Option (Bool × DenseHashtable K T) := do
  guard (t.numDeleted ≤ t.numElements)
  guard (t.bucketCount &&& (t.bucketCount - 1) = 0)
  guard (htMinBuckets ≤ t.bucketCount)
  let numRemain := t.numElements - t.numDeleted
  if 0 < t.shrinkThreshold ∧ numRemain < t.shrinkThreshold ∧ htDefaultStartingBuckets < t.bucketCount then do
    let sz := shrinkFrom numRemain t.bucketCount (t.bucketCount / 2)
    let tmp ← t.copyFrom hash sz
    pure (true, { tmp with considerShrink := false })
  else pure (false, { t with considerShrink := false })

/-- The part of `resize_delta` behind `maybe_shrink`. -/
def enlarge (delta : Nat) (didResize : Bool) : Option (Bool × DenseHashtable K T) :=
  if htMinBuckets ≤ t.bucketCount ∧ t.numElements + delta ≤ t.enlargeThreshold then some (didResize, t)
  else if minBuckets (t.numElements + delta) 0 ≤ t.bucketCount then some (didResize, t)
  else do
    let resizeTo := minBuckets (t.numElements - t.numDeleted + delta) t.bucketCount
    let neededSize := minBuckets (t.numElements - t.numDeleted / 4 + delta) 0
    let resizeTo :=
      if resizeTo < neededSize ∧ shrinkSize (resizeTo * 2) ≤ t.numElements - t.numDeleted + delta then resizeTo * 2 else resizeTo
    let tmp ← t.copyFrom hash resizeTo
    pure (true, tmp)

def resizeDelta (delta : Nat) : Option (Bool × DenseHashtable K T) := do
  let (didResize, t) ← if t.considerShrink then t.maybeShrink hash else some (false, t)
  t.enlarge hash delta didResize

def resize (reqElements : Nat) : Option (DenseHashtable K T) := do
  let t ← if t.considerShrink ∨ reqElements = 0 then (t.maybeShrink hash).map Prod.snd else some t
  if t.numElements < reqElements then (t.resizeDelta hash (reqElements - t.numElements)).map Prod.snd else some t

/-! ### Keys -/

/-- Neither of the two keys with a meaning. -/
def Proper (key : K) : Prop := key ≠ t.emptyval.1 ∧ t.delkey ≠ some key

instance (key : K) : Decidable (t.Proper key) := inferInstanceAs (Decidable (_ ∧ _))

def setDeletedKey (key : K) : Option (DenseHashtable K T) := do
  guard (key ≠ t.emptyval.1)
  let t ← t.squashDeleted hash
  pure { t with delkey := some key }

def clearDeletedKey : Option (DenseHashtable K T) := do
  let t ← t.squashDeleted hash
  pure { t with delkey := none }

/-! ### Insertion -/

def insertAt (obj : K × T) (pos : Nat) : DenseHashtable K T :=
  let t := if t.testDeleted pos then { t with numDeleted := t.numDeleted - 1 } else { t with numElements := t.numElements + 1 }
  { t with table := t.table.set pos obj }

/-- The bucket, and whether the object is inserted. -/
def insertNoresize (obj : K × T) : Option ((Nat × Bool) × DenseHashtable K T) := do
  guard (t.Proper obj.1)
  match ← t.findPosition hash obj.1 with
  | .found i => pure ((i, false), t)
  | .free i => pure ((i, true), t.insertAt obj i)

def insert (obj : K × T) : Option ((Nat × Bool) × DenseHashtable K T) := do
  let (_, t) ← t.resizeDelta hash 1
  t.insertNoresize hash obj

/-- `insert(f, l)` where the distance is known. -/
def insertAll (objs : List (K × T)) : Option (DenseHashtable K T) := do
  let (_, t) ← t.resizeDelta hash objs.length
  objs.foldlM (fun t obj => (t.insertNoresize hash obj).map Prod.snd) t

/-- The bucket of the key, or else of a new value. -/
def findOrInsert (key : K) : Option (Nat × DenseHashtable K T) := do
  guard (t.Proper key)
  match ← t.findPosition hash key with
  | .found i => pure (i, t)
  | .free i =>
    let (didResize, t) ← t.resizeDelta hash 1
    if didResize then (t.insertNoresize hash (key, default)).map fun r => (r.1.1, r.2)
    else pure (i, t.insertAt (key, default) i)

/-- `operator[]` of `dense_hash_map`, with what is assigned to the reference. -/
def index (key : K) (f : T → T) : Option (T × DenseHashtable K T) := do
  let (i, t) ← t.findOrInsert hash key
  let v := (t.bucket i).2
  pure (v, { t with table := t.table.set i ((t.bucket i).1, f v) })

/-! ### Deletion -/

/-- `set_key` also clears the value. -/
def setDeleted (i : Nat) : Option (DenseHashtable K T) :=
  t.delkey.map fun delkey => { t with table := t.table.set i (delkey, default) }

def erase (key : K) : Option (Nat × DenseHashtable K T) := do
  guard (t.Proper key)
  match ← t.find hash key with
  | some i =>
    let t ← t.setDeleted i
    pure (1, { t with numDeleted := t.numDeleted + 1, considerShrink := true })
  | none => pure (0, t)

/-- `operator==` -/
def equal [DecidableEq T] (ht : DenseHashtable K T) : Option Bool :=
  if t.size ≠ ht.size then some false
  else
    t.elements.foldlM (fun same it => do
      let it2 ← ht.find hash it.1
      pure (same && (match it2 with | some i => it = ht.bucket i | none => false))) true

end DenseHashtable

end Rv8.Hash
