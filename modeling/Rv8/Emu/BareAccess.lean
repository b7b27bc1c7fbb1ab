import Rv8.Emu.Fetch
import Rv8.Emu.Interp
import Rv8.Emu.Permissions
/-!
# Accesses to plain memory

Without translation an address is the physical one, and no permission is checked. An
aligned access to mapped bytes then does what the memory does, unless the address is 0,
which every access takes for a failed translation.
-/

namespace Rv8.Emu

open Rv8.Lib Rv8.Asm

variable {R : Rv}

/-- An access of `n` bytes that goes to RAM as it is. -/
structure Machine.Plain (s : Machine R UserMemory) (op : MmuOp) (n : Nat) (va : BitVec R.xlen) : Prop where
  aligned : n ∣ va.toNat
  nonzero : va ≠ 0
  bare : Bare R s.hart.toProcessor op
  held : s.mmu.mem.HoldsBytes n va.toNat

/-- The machine after a store. -/
def Machine.withMem (s : Machine R UserMemory) (mem : UserMemory) : Machine R UserMemory := { s with mmu.mem := mem }

theorem not_misaligned {n e va : Nat} (hn : n = 2 ^ e) (h : n ∣ va) : ¬ Misaligned n va := by
  subst hn
  unfold Misaligned
  rw [Nat.and_two_pow_sub_one_eq_mod, Nat.mod_eq_zero_of_dvd h]
  exact not_not.2 rfl

theorem Machine.onMmu_ok {σ α : Type} {f : Processor R.xlen → MmuM σ α} {s : Machine R σ} {a : α} {mmu : Mmu σ}
    (h : f s.hart.toProcessor s.mmu = .ok a mmu) : Machine.onMmu f s = .ok a { s with mmu } := by
  have hzoom : (f s.hart.toProcessor).zoom (fun s : Machine R σ => s.mmu) (fun s mmu => { s with mmu }) s = .ok a { s with mmu } := by
    unfold Prog.zoom
    rw [h]
  exact hzoom

namespace Machine.Plain

variable {s : Machine R UserMemory} {op : MmuOp} {n e : Nat} {va : BitVec R.xlen} {mem : UserMemory}

theorem toNat_ne_zero (h : s.Plain op n va) : va.toNat ≠ 0 := fun h0 => h.nonzero (BitVec.toNat_inj.1 h0)

/-- The address is translated to itself, and is not 0. -/
theorem translated {α : Type} {cause : RvCause} (h : s.Plain op n va) (hn : n = 2 ^ e) (f : Nat × Option TlbEntry → MmuM UserMemory α) :
    (if Misaligned n va.toNat then .throw (.raise cause va.toNat)
      else translateAddr (mmuSoft R) R s.hart.toProcessor op va.toNat >>= f) s.mmu = f (va.toNat, none) s.mmu :=
  aligned_translated (not_misaligned hn h.aligned) (congrFun (h.bare.translateAddr va.toNat) s.mmu)

theorem load (h : s.Plain .load n va) (hn : n = 2 ^ e) (host : Host) {v : Nat} (hv : s.mmu.mem.load n va.toNat = some v) :
    Machine.load (mmuSoft R) host n va s = .ok v s := by
  refine Machine.onMmu_ok ((h.translated hn _).trans ?_)
  dsimp only
  rw [if_neg h.toNat_ne_zero, Nat.mod_eq_of_lt va.isLt]
  exact onMem_of_ok (busLoad_some hv)

theorem storeAddr (h : s.Plain .store n va) (hn : n = 2 ^ e) :
    Emu.storeAddr (mmuSoft R) R s.hart.toProcessor n va.toNat s.mmu = .ok (some va.toNat) s.mmu := by
  refine (h.translated hn _).trans ?_
  dsimp only
  rw [if_neg h.toNat_ne_zero, Nat.mod_eq_of_lt va.isLt]
  rfl

theorem store (h : s.Plain .store n va) (hn : n = 2 ^ e) {val : Nat} (hs : s.mmu.mem.store n va.toNat val = some mem) :
    Machine.store (mmuSoft R) n va val s = .ok () (s.withMem mem) := by
  refine Machine.onMmu_ok ((h.translated hn _).trans ?_)
  dsimp only
  rw [if_neg h.toNat_ne_zero, Nat.mod_eq_of_lt va.isLt]
  exact onMem_of_ok (busStore_some hs)

/-- An AMO loads, computes and stores. -/
theorem amo (h : s.Plain .store n va) (hn : n = 2 ^ e) (host : Host) {aop : AmoOp} {val1 val2 : Nat}
    (hv : s.mmu.mem.load n va.toNat = some val1) (hs : s.mmu.mem.store n va.toNat (amoVal R n aop val1 val2) = some mem) :
    Machine.amo (mmuSoft R) host n aop va val2 s = .ok val1 (s.withMem mem) := by
  refine Machine.onMmu_ok ((h.translated hn _).trans ?_)
  dsimp only
  rw [if_neg h.toNat_ne_zero, Nat.mod_eq_of_lt va.isLt]
  refine (Prog.bind_ok (onMem_of_ok (busLoad_some hv))).trans ?_
  exact Prog.bind_ok (onMem_of_ok (busStore_some hs))

end Machine.Plain

end Rv8.Emu
