import Mathlib.Data.List.Forall2
import Mathlib.Data.Nat.ModEq
import Mathlib.Tactic.Ring
/-!
# Records and files

A record in memory is its fields, little-endian, one after another. A `Layout` gives the
widths of the fields and takes a value apart; encoding and decoding are then the same for
every record, and so are tables of records. A file can be written anywhere: what lies
between two writes reads as 0.
-/

namespace Rv8.Lib

/-! ## Fields -/

/-- The bytes of a field of width `w`. -/
def leBytes : Nat → Nat → List UInt8
  | 0, _ => []
  | w + 1, v => UInt8.ofNat v :: leBytes w (v / 256)

def leNat : List UInt8 → Nat
  | [] => 0
  | b :: bs => b.toNat + 256 * leNat bs

theorem leBytes_succ (w v : Nat) : leBytes (w + 1) v = UInt8.ofNat v :: leBytes w (v / 256) := rfl

theorem leNat_nil : leNat [] = 0 := rfl

theorem leNat_cons (b : UInt8) (bs : List UInt8) : leNat (b :: bs) = b.toNat + 256 * leNat bs := rfl

@[simp] theorem length_leBytes (w v : Nat) : (leBytes w v).length = w := by
  induction w generalizing v with
  | zero => rfl
  | succ w ih => simp [leBytes_succ, ih]

theorem leNat_leBytes {w v : Nat} (h : v < 256 ^ w) : leNat (leBytes w v) = v := by
  induction w generalizing v with
  | zero =>
    rw [Nat.pow_zero, Nat.lt_one_iff] at h
    exact h.symm
  | succ w ih =>
    have hdiv : v / 256 < 256 ^ w := by
      rw [Nat.div_lt_iff_lt_mul (by decide), ← Nat.pow_succ]
      exact h
    simp only [leBytes_succ, leNat_cons, ih hdiv, UInt8.toNat_ofNat']
    omega

theorem leNat_lt (bs : List UInt8) : leNat bs < 256 ^ bs.length := by
  induction bs with
  | nil => simp [leNat_nil]
  | cons b bs ih =>
    have hb := b.toNat_lt
    rw [leNat_cons, List.length_cons, Nat.pow_succ]
    omega

theorem leNat_append (bs bs' : List UInt8) : leNat (bs ++ bs') = leNat bs + 256 ^ bs.length * leNat bs' := by
  induction bs with
  | nil => simp [leNat_nil]
  | cons b bs ih =>
    rw [List.cons_append, leNat_cons, leNat_cons, ih, List.length_cons]
    ring

/-- A field holds the low bytes. -/
theorem leBytes_mod (w v : Nat) : leBytes w (v % 256 ^ w) = leBytes w v := by
  induction w generalizing v with
  | zero => rfl
  | succ w ih =>
    have hlow : v % 256 ^ (w + 1) % 256 = v % 256 := Nat.mod_mod_of_dvd v (Dvd.intro_left (256 ^ w) rfl)
    have hhigh : v % 256 ^ (w + 1) / 256 = v / 256 % 256 ^ w := by rw [Nat.pow_succ', Nat.mod_mul_right_div_self]
    rw [leBytes_succ, leBytes_succ, hhigh, ih]
    congr 1
    refine UInt8.toNat.inj ?_
    rw [UInt8.toNat_ofNat', UInt8.toNat_ofNat']
    exact hlow

def encodeFields : List Nat → List Nat → List UInt8
  | w :: ws, v :: vs => leBytes w v ++ encodeFields ws vs
  | _, _ => []

def decodeFields : List Nat → List UInt8 → List Nat
  | [], _ => []
  | w :: ws, bs => leNat (bs.take w) :: decodeFields ws (bs.drop w)

theorem encodeFields_cons (w v : Nat) (ws vs : List Nat) :
    encodeFields (w :: ws) (v :: vs) = leBytes w v ++ encodeFields ws vs := rfl

theorem decodeFields_cons (w : Nat) (ws : List Nat) (bs : List UInt8) :
    decodeFields (w :: ws) bs = leNat (bs.take w) :: decodeFields ws (bs.drop w) := rfl

theorem decodeFields_encodeFields {ws vs : List Nat} (h : List.Forall₂ (fun w v => v < 256 ^ w) ws vs) (rest : List UInt8) :
    decodeFields ws (encodeFields ws vs ++ rest) = vs := by
  induction h with
  | nil => rfl
  | @cons w v ws vs hv _ ih =>
    rw [encodeFields_cons, decodeFields_cons, List.append_assoc, List.take_left' (length_leBytes w v),
      List.drop_left' (length_leBytes w v), leNat_leBytes hv, ih]

theorem length_encodeFields {ws vs : List Nat} (h : List.Forall₂ (fun w v => v < 256 ^ w) ws vs) :
    (encodeFields ws vs).length = ws.sum := by
  induction h with
  | nil => rfl
  | cons _ _ ih => simp [encodeFields_cons, ih]

/-- The bytes of each field the other way round; what follows the fields stays. -/
def reverseFields : List Nat → List UInt8 → List UInt8
  | [], bs => bs
  | w :: ws, bs => (bs.take w).reverse ++ reverseFields ws (bs.drop w)

/-! ## Records -/

structure Layout (α : Type) where
  widths : List Nat
  values : α → List Nat
  make : List Nat → α
  make_values : ∀ x, make (values x) = x
  fits : ∀ x, List.Forall₂ (fun w v => v < 256 ^ w) widths (values x)

namespace Layout

variable {α : Type} (L : Layout α)

def size : Nat := L.widths.sum

def encode (x : α) : List UInt8 := encodeFields L.widths (L.values x)

def decode (bs : List UInt8) : α := L.make (decodeFields L.widths bs)

@[simp] theorem length_encode (x : α) : (L.encode x).length = L.size := length_encodeFields (L.fits x)

theorem decode_encode_append (x : α) (rest : List UInt8) : L.decode (L.encode x ++ rest) = x := by
  rw [decode, encode, decodeFields_encodeFields (L.fits x), L.make_values]

theorem decode_encode (x : α) : L.decode (L.encode x) = x := by
  simpa using L.decode_encode_append x []

/-! ## Tables -/

def encodeAll (xs : List α) : List UInt8 := xs.flatMap L.encode

@[simp] theorem encodeAll_nil : L.encodeAll [] = [] := rfl

@[simp] theorem encodeAll_cons (x : α) (xs : List α) : L.encodeAll (x :: xs) = L.encode x ++ L.encodeAll xs := rfl

@[simp] theorem length_encodeAll (xs : List α) : (L.encodeAll xs).length = xs.length * L.size := by
  induction xs with
  | nil => simp
  | cons x xs ih =>
    simp only [encodeAll_cons, List.length_append, length_encode, ih, List.length_cons]
    ring

/-- The record at an index of a table. -/
theorem take_drop_encodeAll {xs : List α} {i : Nat} {x : α} (h : xs[i]? = some x) :
    ((L.encodeAll xs).drop (i * L.size)).take L.size = L.encode x := by
  induction xs generalizing i with
  | nil => cases h
  | cons y ys ih =>
    cases i with
    | zero =>
      obtain rfl := Option.some.inj h
      rw [Nat.zero_mul, List.drop_zero, encodeAll_cons, List.take_left' (L.length_encode y)]
    | succ i =>
      have hsize : (i + 1) * L.size = (L.encode y).length + i * L.size := by
        rw [length_encode]
        ring
      rw [hsize, encodeAll_cons, ← List.drop_drop, List.drop_left]
      exact ih h

/-- A table is read record by record. -/
theorem map_decode_encodeAll (xs : List α) :
    (List.range xs.length).map (fun i => L.decode (((L.encodeAll xs).drop (i * L.size)).take L.size)) = xs := by
  refine List.ext_getElem (by simp) fun i hi hi' => ?_
  rw [List.getElem_map, List.getElem_range, L.take_drop_encodeAll (List.getElem?_eq_getElem hi'), L.decode_encode]

end Layout

/-! ## Files -/

structure File where
  size : Nat
  byte : Nat → UInt8

namespace File

def empty : File := ⟨0, fun _ => 0⟩

def read (f : File) (offset n : Nat) : List UInt8 := (List.range n).map fun i => f.byte (offset + i)

/-- A write of no bytes does not extend the file. -/
def write (f : File) (offset : Nat) (bs : List UInt8) : File where
  size := if bs = [] then f.size else max f.size (offset + bs.length)
  byte := fun i => if offset ≤ i ∧ i < offset + bs.length then bs.getD (i - offset) 0 else f.byte i

@[simp] theorem length_read (f : File) (offset n : Nat) : (f.read offset n).length = n := by simp [read]

theorem read_add (f : File) (offset m n : Nat) : f.read offset (m + n) = f.read offset m ++ f.read (offset + m) n := by
  simp only [read, List.range_add, List.map_append, List.map_map]
  congr 1
  refine List.map_congr_left fun i _ => ?_
  simp only [Function.comp_apply, Nat.add_assoc]

theorem read_write_same (f : File) (offset : Nat) (bs : List UInt8) : (f.write offset bs).read offset bs.length = bs := by
  refine List.ext_getElem (by simp) fun i h1 h2 => ?_
  have hi : offset ≤ offset + i ∧ offset + i < offset + bs.length := ⟨Nat.le_add_right .., Nat.add_lt_add_left h2 _⟩
  simp only [read, write, List.getElem_map, List.getElem_range, if_pos hi, Nat.add_sub_cancel_left]
  exact (List.getElem_eq_getD 0).symm

theorem read_write_of_disjoint (f : File) {offset : Nat} {bs : List UInt8} {o n : Nat}
    (h : o + n ≤ offset ∨ offset + bs.length ≤ o) : (f.write offset bs).read o n = f.read o n := by
  refine List.map_congr_left fun i hi => if_neg ?_
  rw [List.mem_range] at hi
  omega

theorem size_le_write (f : File) (offset : Nat) (bs : List UInt8) : f.size ≤ (f.write offset bs).size := by
  simp only [write]
  split
  · exact Nat.le_refl _
  · exact Nat.le_max_left ..

/-- Writes in order. -/
def writes : List (Nat × List UInt8) → File → File
  | [], f => f
  | w :: ws, f => writes ws (f.write w.1 w.2)

theorem writes_append (ws ws' : List (Nat × List UInt8)) (f : File) : writes (ws ++ ws') f = writes ws' (writes ws f) := by
  induction ws generalizing f with
  | nil => rfl
  | cons w ws ih => exact ih _

/-- Two ranges of bytes, the second given by its offset and its contents. -/
def Apart (o n : Nat) (w : Nat × List UInt8) : Prop := o + n ≤ w.1 ∨ w.1 + w.2.length ≤ o

theorem read_writes_of_apart {ws : List (Nat × List UInt8)} {o n : Nat} (h : ∀ w ∈ ws, Apart o n w) (f : File) :
    (writes ws f).read o n = f.read o n := by
  induction ws generalizing f with
  | nil => rfl
  | cons w ws ih =>
    rw [writes, ih (fun w' hw => h w' (List.mem_cons_of_mem w hw)), f.read_write_of_disjoint (h w List.mem_cons_self)]

/-- Each of a list of writes that keep apart can be read back. -/
theorem read_writes {ws : List (Nat × List UInt8)} (h : ws.Pairwise fun w w' => Apart w.1 w.2.length w') {w : Nat × List UInt8}
    (hw : w ∈ ws) (f : File) : (writes ws f).read w.1 w.2.length = w.2 := by
  induction ws generalizing f with
  | nil => cases hw
  | cons w' ws ih =>
    obtain ⟨hfirst, hrest⟩ := List.pairwise_cons.1 h
    rcases List.mem_cons.1 hw with rfl | hw
    · rw [writes, read_writes_of_apart hfirst, read_write_same]
    · exact ih hrest hw _

theorem size_writes_le {ws : List (Nat × List UInt8)} {n : Nat} (h : ∀ w ∈ ws, w.2 ≠ [] → w.1 + w.2.length ≤ n) {f : File}
    (hf : f.size ≤ n) : (writes ws f).size ≤ n := by
  induction ws generalizing f with
  | nil => exact hf
  | cons w ws ih =>
    refine ih (fun w' hw => h w' (List.mem_cons_of_mem w hw)) ?_
    simp only [write]
    split
    · exact hf
    · exact Nat.max_le.2 ⟨hf, h w List.mem_cons_self ‹_›⟩

theorem le_size_writes {ws : List (Nat × List UInt8)} {w : Nat × List UInt8} (hw : w ∈ ws) (hne : w.2 ≠ []) (f : File) :
    w.1 + w.2.length ≤ (writes ws f).size := by
  induction ws generalizing f with
  | nil => cases hw
  | cons w' ws ih =>
    rcases List.mem_cons.1 hw with rfl | hw
    · have hmono : ∀ (ws : List (Nat × List UInt8)) (f : File), f.size ≤ (writes ws f).size := by
        intro ws
        induction ws with
        | nil => exact fun _ => Nat.le_refl _
        | cons w ws ih => exact fun f => (f.size_le_write w.1 w.2).trans (ih _)
      refine Nat.le_trans ?_ (hmono ws _)
      simp only [write, if_neg hne]
      exact Nat.le_max_right ..
    · exact ih hw _

end File

end Rv8.Lib
