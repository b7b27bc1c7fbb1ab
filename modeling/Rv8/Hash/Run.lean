import Rv8.Hash.Refines
import Rv8.Lib.Calls
/-!
# Runs of the dense hash table

From a table without elements, whatever is asked of it in whatever order: the answers are
those of a map, no assertion fails, and at most half of the buckets are in use.

The two keys with a meaning must not be asked for, nothing can be erased before there is a
deleted key, and an entry must not become one. This is what the assertions say, and the
comments of `set_empty_key` and `set_deleted_key`.
-/

namespace Rv8.Hash

open Rv8.Lib

inductive Op (K T : Type)
  | find (key : K)
  | insert (obj : K × T)
  | insertAll (objs : List (K × T))
  /-- `f` is what is assigned to `operator[]`. -/
  | index (key : K) (f : T → T)
  | erase (key : K)
  | clear
  | clearNoResize
  | resize (reqElements : Nat)
  | setDeletedKey (key : K)
  | clearDeletedKey

inductive Reply (K T : Type)
  | done
  | entry (e : Option (K × T))
  | inserted (e : K × T) (isNew : Bool)
  | value (v : T)
  | erased (n : Nat)
deriving DecidableEq

section Runs
variable {K T : Type} [DecidableEq K] [Inhabited T]

def DenseHashtable.call (hash : K → Nat) (t : DenseHashtable K T) : Op K T → Option (Reply K T × DenseHashtable K T)
  | .find key => (t.find hash key).map fun pos => (.entry (pos.map t.bucket), t)
  | .insert obj => (t.insert hash obj).map fun ((i, isNew), t) => (.inserted (t.bucket i) isNew, t)
  | .insertAll objs => (t.insertAll hash objs).map (.done, ·)
  | .index key f => (t.index hash key f).map fun (v, t) => (.value v, t)
  | .erase key => (t.erase hash key).map fun (n, t) => (.erased n, t)
  | .clear => some (.done, t.clear)
  | .clearNoResize => some (.done, t.clearNoResize)
  | .resize reqElements => (t.resize hash reqElements).map (.done, ·)
  | .setDeletedKey key => (t.setDeletedKey hash key).map (.done, ·)
  | .clearDeletedKey => (t.clearDeletedKey hash).map (.done, ·)

namespace Dict

def tell (d : Dict K T) : Op K T → Reply K T × Dict K T
  | .find key => (.entry ((d.map key).map (key, ·)), d)
  | .insert obj => (.inserted (obj.1, (d.map obj.1).getD obj.2) (d.map obj.1).isNone, d.insert obj)
  | .insertAll objs => (.done, objs.foldl insert d)
  | .index key f => (.value ((d.map key).getD default), d.set key (f ((d.map key).getD default)))
  | .erase key => (.erased (if (d.map key).isSome then 1 else 0), d.erase key)
  | .clear => (.done, d.clear)
  | .clearNoResize => (.done, d.clear)
  | .resize _ => (.done, d)
  | .setDeletedKey key => (.done, { d with deletedKey := some key })
  | .clearDeletedKey => (.done, { d with deletedKey := none })

def Allows (d : Dict K T) : Op K T → Prop
  | .insert obj => d.Proper obj.1
  | .insertAll objs => ∀ obj ∈ objs, d.Proper obj.1
  | .index key _ => d.Proper key
  | .erase key => d.Proper key ∧ ((d.map key).isSome → d.deletedKey.isSome)
  | .setDeletedKey key => key ≠ d.emptyKey ∧ d.map key = none
  | _ => True

instance (d : Dict K T) (key : K) : Decidable (d.Proper key) := inferInstanceAs (Decidable (_ ∧ _))

instance (d : Dict K T) (op : Op K T) : Decidable (d.Allows op) := by
  cases op <;> unfold Allows <;> infer_instance

end Dict

variable {hash : K → Nat} {t : DenseHashtable K T} {d : Dict K T}

omit [Inhabited T] in
theorem refines_make (hash : K → Nat) (expected : Nat) (emptyval : K × T) :
    Refines hash (DenseHashtable.make expected emptyval) { emptyKey := emptyval.1 } := by
  obtain ⟨k, hk, hmin, -⟩ := minBuckets_spec expected 0
  have hn : ∃ k, 2 ≤ k ∧ (if expected = 0 then htDefaultStartingBuckets else minBuckets expected 0) = 2 ^ k := by
    split
    · exact ⟨5, by decide, rfl⟩
    · exact ⟨k, hk, hmin⟩
  refine refines_replicate (t := DenseHashtable.make expected emptyval) hn ?_ rfl rfl rfl ?_
  · exact Option.some_ne_none _ ∘ Eq.symm
  · exact congrArg enlargeSize List.length_replicate

/-- One call does what it would to the map. -/
theorem Refines.call (h : Refines hash t d) (op : Op K T) (hallows : d.Allows op) :
    ∃ t', t.call hash op = some ((d.tell op).1, t') ∧ Refines hash t' (d.tell op).2 := by
  cases op with
  | find key =>
    obtain ⟨pos, hpos, hmap, -⟩ := h.find key
    exact ⟨t, by simp only [DenseHashtable.call, Dict.tell, hpos, Option.map_some, hmap], h⟩
  | insert obj =>
    obtain ⟨i, t', ht', href, hbucket⟩ := h.insert hallows
    exact ⟨t', by simp only [DenseHashtable.call, Dict.tell, ht', Option.map_some, hbucket], href⟩
  | insertAll objs =>
    obtain ⟨t', ht', href⟩ := h.insertAll hallows
    exact ⟨t', by simp only [DenseHashtable.call, Dict.tell, ht', Option.map_some], href⟩
  | index key f =>
    obtain ⟨t', ht', href⟩ := h.index hallows f
    exact ⟨t', by simp only [DenseHashtable.call, Dict.tell, ht', Option.map_some], href⟩
  | erase key =>
    obtain ⟨t', ht', href⟩ := h.erase hallows.1 hallows.2
    exact ⟨t', by simp only [DenseHashtable.call, Dict.tell, ht', Option.map_some], href⟩
  | clear => exact ⟨_, rfl, h.clear⟩
  | clearNoResize => exact ⟨_, rfl, h.clearNoResize⟩
  | resize reqElements =>
    obtain ⟨t', ht', href⟩ := h.resize reqElements
    exact ⟨t', by simp only [DenseHashtable.call, Dict.tell, ht', Option.map_some], href⟩
  | setDeletedKey key =>
    obtain ⟨t', ht', href⟩ := h.setDeletedKey hallows.1 hallows.2
    exact ⟨t', by simp only [DenseHashtable.call, Dict.tell, ht', Option.map_some], href⟩
  | clearDeletedKey =>
    obtain ⟨t', ht', href⟩ := h.clearDeletedKey
    exact ⟨t', by simp only [DenseHashtable.call, Dict.tell, ht', Option.map_some], href⟩

omit [Inhabited T] in
theorem Refines.two_mul_numElements_le (h : Refines hash t d) : 2 * t.numElements ≤ t.bucketCount := by
  have hroom := h.room
  rw [h.threshold] at hroom
  unfold enlargeSize at hroom
  omega

end Runs

section Equal
variable {K T : Type} [DecidableEq K] [Inhabited T] [DecidableEq T] {hash hash' : K → Nat} {t t' : DenseHashtable K T} {d d' : Dict K T}

omit [Inhabited T] in
/-- Each entry is looked up in the other table. -/
theorem Refines.equal_elements (h' : Refines hash' t' d') (es : List (K × T)) (same : Bool) :
    es.foldlM (fun same it => do
      let it2 ← t'.find hash' it.1
      pure (same && (match it2 with | some i => it = t'.bucket i | none => false))) same =
    some (same && decide (∀ e ∈ es, d'.map e.1 = some e.2)) := by
  induction es generalizing same with
  | nil => simp
  | cons e es ih =>
    obtain ⟨pos, hpos, hmap, -⟩ := h'.find e.1
    have hcons : decide (∀ it ∈ e :: es, d'.map it.1 = some it.2) =
        (decide (d'.map e.1 = some e.2) && decide (∀ it ∈ es, d'.map it.1 = some it.2)) := by
      rw [← Bool.decide_and]
      exact decide_eq_decide.mpr List.forall_mem_cons
    rw [List.foldlM_cons, hpos, hcons, ← Bool.and_assoc]
    simp only [bind, Option.bind, pure]
    refine (ih _).trans ?_
    cases pos with
    | none =>
      have hnone : d'.map e.1 = none := by simpa using hmap.symm
      simp [hnone]
    | some i =>
      obtain ⟨v, hv, hbucket⟩ := Option.map_eq_some_iff.mp hmap.symm
      simp [hv, ← hbucket, Prod.ext_iff, eq_comm (a := e.2)]

omit [Inhabited T] [DecidableEq T] in
/-- A map that another one extends is that one if they have the same number of keys. -/
theorem Refines.map_eq (h : Refines hash t d) (h' : Refines hash' t' d') (hsize : t.size = t'.size)
    (hsub : ∀ e ∈ t.elements, d'.map e.1 = some e.2) : d.map = d'.map := by
  have hsubset : t.elements ⊆ t'.elements := fun e he => h'.mem_elements.mpr (hsub e he)
  have hlen : t'.elements.length ≤ t.elements.length := by
    rw [h.elements_eq, h'.elements_eq, ← h.size_eq, ← h'.size_eq, hsize]
  have hperm := (List.subperm_of_subset h.nodup_elements.of_map hsubset).perm_of_length_le hlen
  funext k
  refine Option.ext fun v => ?_
  rw [← h.mem_elements (e := (k, v)), ← h'.mem_elements (e := (k, v)), hperm.mem_iff]

omit [Inhabited T] in
theorem Refines.equal (h : Refines hash t d) (h' : Refines hash' t' d') :
    ∃ b, t.equal hash' t' = some b ∧ (b = true ↔ d.map = d'.map) := by
  unfold DenseHashtable.equal
  split
  · next hsize =>
    refine ⟨false, rfl, iff_of_false (by decide) fun heq => hsize ?_⟩
    rw [← h.ncard, ← h'.ncard, heq]
  · next hsize =>
    refine ⟨_, h'.equal_elements t.elements true, ?_⟩
    rw [Bool.true_and, decide_eq_true_iff]
    constructor
    · exact h.map_eq h' (not_not.mp hsize)
    · intro heq e he
      rw [← heq]
      exact h.mem_elements.mp he

/-- Two tables are equal if and only if they are the same map, however they came to it. -/
theorem equal_iff_same_map (hash hash' : K → Nat) (expected expected' : Nat) (emptyval emptyval' : K × T) (ops ops' : List (Op K T))
    (hallowed : Allowed Dict.Allows Dict.tell ops { emptyKey := emptyval.1 })
    (hallowed' : Allowed Dict.Allows Dict.tell ops' { emptyKey := emptyval'.1 }) :
    ∃ rs t rs' t' b, answers (DenseHashtable.call hash) ops (DenseHashtable.make expected emptyval) = some (rs, t) ∧
      answers (DenseHashtable.call hash') ops' (DenseHashtable.make expected' emptyval') = some (rs', t') ∧
      t.equal hash' t' = some b ∧
      (b = true ↔ (told Dict.tell ops { emptyKey := emptyval.1 }).2.map = (told Dict.tell ops' { emptyKey := emptyval'.1 }).2.map) := by
  obtain ⟨t, ht, h⟩ := answers_told (fun t d op h hallows => Refines.call (t := t) (d := d) h op hallows) ops
    (refines_make hash expected emptyval) hallowed
  obtain ⟨t', ht', h'⟩ := answers_told (fun t d op h hallows => Refines.call (t := t) (d := d) h op hallows) ops'
    (refines_make hash' expected' emptyval') hallowed'
  obtain ⟨b, hb, hiff⟩ := h.equal h'
  exact ⟨_, t, _, t', b, ht, ht', hb, hiff⟩

end Equal

/-- One table has grown and has a deleted bucket, the other has been filled in another order. -/
theorem equal_iff_same_map_grown :
    ∃ rs t rs' t', answers (DenseHashtable.call fun key => key % 4) [.setDeletedKey 100, .insertAll [(1, 10), (5, 50), (9, 90)], .erase 1]
        (DenseHashtable.make 2 (0, 0)) = some (rs, t) ∧
      answers (DenseHashtable.call id) [.insert (9, 90), .index 5 (· + 50)] (DenseHashtable.make 0 (0, 7)) = some (rs', t') ∧
      t.equal id t' = some true := by
  obtain ⟨rs, t, rs', t', b, ht, ht', hb, hiff⟩ := equal_iff_same_map (fun key => key % 4) id 2 0 (0, 0) (0, 7)
    [.setDeletedKey 100, .insertAll [(1, 10), (5, 50), (9, 90)], .erase 1] [.insert (9, 90), .index 5 (· + 50)] (by decide) (by decide)
  have hsame : b = true := by
    rw [hiff]
    funext k
    simp [told, Dict.tell, Dict.insert, Dict.erase, Dict.set, Function.update_apply]
    split_ifs <;> simp_all
  exact ⟨rs, t, rs', t', ht, ht', hsame ▸ hb⟩

end Rv8.Hash
