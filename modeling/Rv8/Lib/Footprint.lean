import Mathlib.Data.Set.Basic
/-!
# Footprints

What a call on a storage reads and writes, said without looking into the call: its
result depends on the cells of a set only, and it changes no cell outside one.
-/

namespace Rv8.Lib

variable {ι β γ : Type}

def ReadsOnly (f : (ι → β) → γ) (S : Set ι) : Prop := ∀ m m', (∀ b ∈ S, m b = m' b) → f m = f m'

def WritesOnly (f : (ι → β) → ι → β) (S : Set ι) : Prop := ∀ m, ∀ b ∉ S, f m b = m b

theorem readsOnly_const (c : γ) (S : Set ι) : ReadsOnly (fun _ : ι → β => c) S := fun _ _ _ => rfl

theorem writesOnly_id (S : Set ι) : WritesOnly (fun m : ι → β => m) S := fun _ _ _ => rfl

theorem WritesOnly.mono {f : (ι → β) → ι → β} {S T : Set ι} (h : WritesOnly f S) (hST : S ⊆ T) : WritesOnly f T :=
  fun m b hb => h m b fun hs => hb (hST hs)

theorem WritesOnly.comp {f g : (ι → β) → ι → β} {S : Set ι} (hg : WritesOnly g S) (hf : WritesOnly f S) :
    WritesOnly (fun m => g (f m)) S := fun m b hb => (hg (f m) b hb).trans (hf m b hb)

end Rv8.Lib
