import Mathlib.Data.Finset.Fold
import Mathlib.Data.Finset.Card

/-! The exclusive or of a finite set of codes, an accumulator in which adding
and removing a member are the same operation. -/

namespace XorSum

variable {κ : Type*} (code : κ → ℕ)

def xorSum (S : Finset κ) : ℕ := S.fold (· ^^^ ·) 0 code

@[simp] theorem xorSum_empty : xorSum code (∅ : Finset κ) = 0 := rfl

@[simp] theorem xorSum_singleton (k : κ) : xorSum code {k} = code k := by
  simp [xorSum]

variable [DecidableEq κ]

theorem xorSum_insert {S : Finset κ} {k : κ} (hk : k ∉ S) :
    xorSum code (insert k S) = xorSum code S ^^^ code k := by
  rw [xorSum, Finset.fold_insert hk, Nat.xor_comm]
  rfl

theorem xorSum_erase {S : Finset κ} {k : κ} (hk : k ∈ S) :
    xorSum code (S.erase k) = xorSum code S ^^^ code k := by
  conv_rhs => rw [← Finset.insert_erase hk, xorSum_insert code (Finset.notMem_erase k S)]
  rw [Nat.xor_assoc, Nat.xor_self, Nat.xor_zero]

theorem xorSum_filter_insert {S : Finset κ} {k : κ} (hk : k ∉ S) (p : κ → Prop)
    [DecidablePred p] : xorSum code ((insert k S).filter p) =
      if p k then xorSum code (S.filter p) ^^^ code k else xorSum code (S.filter p) := by
  rw [Finset.filter_insert]
  split_ifs with h
  · rw [xorSum_insert code fun hmem => hk (Finset.mem_filter.1 hmem).1]
  · rfl

theorem xorSum_filter_erase {S : Finset κ} {k : κ} (hk : k ∈ S) (p : κ → Prop)
    [DecidablePred p] : xorSum code ((S.erase k).filter p) =
      if p k then xorSum code (S.filter p) ^^^ code k else xorSum code (S.filter p) := by
  rw [Finset.filter_erase]
  split_ifs with h
  · rw [xorSum_erase code (Finset.mem_filter.2 ⟨hk, h⟩)]
  · rw [Finset.erase_eq_of_notMem fun hmem => h (Finset.mem_filter.1 hmem).2]

theorem card_filter_erase {S : Finset κ} {k : κ} (hk : k ∈ S) (p : κ → Prop)
    [DecidablePred p] : ((S.erase k).filter p).card =
      if p k then (S.filter p).card - 1 else (S.filter p).card := by
  rw [Finset.filter_erase]
  split_ifs with h
  · rw [Finset.card_erase_of_mem (Finset.mem_filter.2 ⟨hk, h⟩)]
  · rw [Finset.erase_eq_of_notMem fun hmem => h (Finset.mem_filter.1 hmem).2]

end XorSum
