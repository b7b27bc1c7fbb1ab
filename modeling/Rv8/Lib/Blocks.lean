import Mathlib.Data.List.Perm.Basic
import Mathlib.Data.List.Pairwise
/-!
# Blocks pushed downwards

A memory filled from the top: each block is written below those before it, which keeps
them. The blocks are listed from the lowest, the last one pushed, up.
-/

namespace Rv8.Lib

variable {β : Type}

structure Block (β : Type) where
  addr : Nat
  data : List β

namespace Block

def stop (b : Block β) : Nat := b.addr + b.data.length

/-- The memory has the data of the block. -/
def In (mem : Nat → β) (b : Block β) : Prop := ∀ i x, b.data[i]? = some x → mem (b.addr + i) = x

def Apart (b c : Block β) : Prop := b.stop ≤ c.addr ∨ c.stop ≤ b.addr

theorem apart_symm {b c : Block β} (h : b.Apart c) : c.Apart b := h.symm

/-- Blocks one after another. -/
def layout (addr : Nat) : List (List β) → List (Block β)
  | [] => []
  | data :: rest => ⟨addr, data⟩ :: layout (addr + data.length) rest

/-- Data one after another are those of one block. -/
theorem in_layout_iff {mem : Nat → β} {addr : Nat} {parts : List (List β)} :
    (∀ b ∈ layout addr parts, b.In mem) ↔ In mem ⟨addr, parts.flatten⟩ := by
  induction parts generalizing addr with
  | nil => simp [layout, In]
  | cons data parts ih =>
    rw [layout, List.forall_mem_cons, ih]
    constructor
    · rintro ⟨hdata, hrest⟩ i x hx
      change (data ++ parts.flatten)[i]? = some x at hx
      change mem (addr + i) = x
      by_cases hi : i < data.length
      · rw [List.getElem?_append_left hi] at hx
        exact hdata i x hx
      · rw [List.getElem?_append_right (by omega)] at hx
        have := hrest _ x hx
        rwa [show addr + data.length + (i - data.length) = addr + i by omega] at this
    · intro h
      refine ⟨fun i x hx => h i x ?_, fun i x hx => ?_⟩
      · obtain ⟨hi, -⟩ := List.getElem?_eq_some_iff.1 hx
        exact (List.getElem?_append_left hi).trans hx
      · have := h (data.length + i) x ((List.getElem?_append_right (by omega)).trans (by rwa [Nat.add_sub_cancel_left]))
        rwa [← Nat.add_assoc] at this

end Block

/-- `memcpy` -/
def copyTo (mem : Nat → β) (addr : Nat) (data : List β) : Nat → β := fun a =>
  if addr ≤ a then data[a - addr]?.getD (mem a) else mem a

theorem in_copyTo (mem : Nat → β) (addr : Nat) (data : List β) : Block.In (copyTo mem addr data) ⟨addr, data⟩ := by
  intro i x hx
  change data[i]? = some x at hx
  change copyTo mem addr data (addr + i) = x
  rw [copyTo, if_pos (Nat.le_add_right _ _), Nat.add_sub_cancel_left, hx, Option.getD_some]

theorem copyTo_of_le {mem : Nat → β} {addr a : Nat} {data : List β} (h : addr + data.length ≤ a) : copyTo mem addr data a = mem a := by
  unfold copyTo
  split
  · rw [List.getElem?_eq_none (by omega), Option.getD_none]
  · rfl

/-- What lies between `lo` and `top` after some pushes down to `sp`. -/
structure Pushed (lo top : Nat) (mem : Nat → β) (sp : Nat) (blocks : List (Block β)) : Prop where
  below : ∀ b ∈ blocks, sp ≤ b.addr
  inside : ∀ b ∈ blocks, lo ≤ b.addr ∧ b.stop ≤ top
  ascending : blocks.Pairwise fun b c => b.stop ≤ c.addr
  stored : ∀ b ∈ blocks, b.In mem

namespace Pushed

variable {lo top sp sp' : Nat} {mem : Nat → β} {blocks : List (Block β)}

theorem nil (lo top sp : Nat) (mem : Nat → β) : Pushed lo top mem sp [] :=
  ⟨fun _ h => absurd h List.not_mem_nil, fun _ h => absurd h List.not_mem_nil, .nil, fun _ h => absurd h List.not_mem_nil⟩

theorem mono (h : Pushed lo top mem sp blocks) (hsp : sp' ≤ sp) : Pushed lo top mem sp' blocks :=
  ⟨fun b hb => Nat.le_trans hsp (h.below b hb), h.inside, h.ascending, h.stored⟩

/-- A block that ends at `sp` or below keeps those before it. -/
theorem push (h : Pushed lo top mem sp blocks) {data : List β} (hdata : sp' + data.length ≤ sp) (hlo : lo ≤ sp') (hsp : sp ≤ top) :
    Pushed lo top (copyTo mem sp' data) sp' (⟨sp', data⟩ :: blocks) where
  below b hb := by
    rcases List.mem_cons.1 hb with rfl | hb
    · exact Nat.le_refl sp'
    · have := h.below b hb
      omega
  inside b hb := by
    rcases List.mem_cons.1 hb with rfl | hb
    · exact ⟨hlo, Nat.le_trans hdata hsp⟩
    · exact h.inside b hb
  ascending := List.pairwise_cons.2 ⟨fun b hb => Nat.le_trans hdata (h.below b hb), h.ascending⟩
  stored b hb := by
    rcases List.mem_cons.1 hb with rfl | hb
    · exact in_copyTo mem sp' data
    · intro i x hx
      rw [copyTo_of_le (by have := h.below b hb; omega)]
      exact h.stored b hb i x hx

/-- The blocks lie apart, in whatever order they are taken. -/
theorem apart (h : Pushed lo top mem sp blocks) {l : List (Block β)} (hperm : l.Perm blocks) : l.Pairwise Block.Apart :=
  (hperm.pairwise_iff fun hbc => Block.apart_symm hbc).2 (h.ascending.imp .inl)

end Pushed

end Rv8.Lib
