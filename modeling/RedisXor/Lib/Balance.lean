import Mathlib.Algebra.Order.BigOperators.Group.Finset
import Mathlib.Algebra.Group.Action.Defs
import Mathlib.SetTheory.Cardinal.Finite

/-! Maps between finite types that hit every value equally often, as a good hash
function does. It is enough that they do so in one argument, whatever the others
are. -/

namespace Balance

variable {α β γ : Type*}

/-- Every value has `c` preimages. -/
def Balanced (f : α → β) (c : ℕ) : Prop := ∀ y, Nat.card {x // f x = y} = c

theorem balanced_of_bijective {f : α → β} (hf : Function.Bijective f) : Balanced f 1 := by
  intro y
  obtain ⟨x, rfl⟩ := hf.surjective y
  have : Unique {x' // f x' = f x} := ⟨⟨⟨x, rfl⟩⟩, fun p => Subtype.ext (hf.injective p.2)⟩
  exact Nat.card_unique

theorem Balanced.comp_bijective {f : β → γ} {c : ℕ} (hf : Balanced f c) {g : α → β}
    (hg : Function.Bijective g) : Balanced (fun x => f (g x)) c := by
  intro y
  rw [← hf y]
  exact Nat.card_congr ((Equiv.ofBijective g hg).subtypeEquiv fun x => Iff.rfl)

theorem Balanced.of_comp_bijective {f : β → γ} {c : ℕ} {g : α → β} (hg : Function.Bijective g)
    (hf : Balanced (fun x => f (g x)) c) : Balanced f c := by
  have h := hf.comp_bijective (Equiv.ofBijective g hg).symm.bijective
  simpa only [Equiv.ofBijective_apply_symm_apply] using h

/-- Pairs, sorted by their second component. -/
def sigmaSnd (p : α × β → Prop) : {x // p x} ≃ Σ b, {a // p (a, b)} where
  toFun x := ⟨x.1.2, x.1.1, x.2⟩
  invFun q := ⟨(q.2.1, q.1), q.2.2⟩
  left_inv _ := rfl
  right_inv _ := rfl

/-- A map that is balanced in one argument. -/
theorem balanced_of_fst [Finite α] [Finite β] {f : α × β → γ} {c : ℕ}
    (hf : ∀ b, Balanced (fun a => f (a, b)) c) : Balanced f (c * Nat.card β) := by
  intro y
  have := Fintype.ofFinite β
  rw [Nat.card_congr (sigmaSnd fun p => f p = y), Nat.card_sigma]
  simp only [hf _ y, Finset.sum_const, Finset.card_univ, smul_eq_mul, Nat.card_eq_fintype_card]
  exact Nat.mul_comm _ _

/-- A property that few first components have, whatever the second one is. -/
theorem card_le_of_fst [Finite α] [Finite β] {p : α × β → Prop} {c : ℕ}
    (hp : ∀ b, Nat.card {a // p (a, b)} ≤ c) : Nat.card {x // p x} ≤ c * Nat.card β := by
  have := Fintype.ofFinite β
  rw [Nat.card_congr (sigmaSnd p), Nat.card_sigma, Nat.mul_comm, Nat.card_eq_fintype_card]
  exact Finset.sum_le_card_nsmul _ _ _ fun b _ => hp b

/-- Preimages of a set under a balanced map. -/
theorem Balanced.card_preimage [Finite α] [Finite β] {f : α → β} {c : ℕ} (hf : Balanced f c)
    (p : β → Prop) : Nat.card {x // p (f x)} = c * Nat.card {y // p y} := by
  let e : {x // p (f x)} ≃ Σ y : {y // p y}, {x // f x = y.1} :=
    { toFun := fun x => ⟨⟨f x.1, x.2⟩, x.1, rfl⟩
      invFun := fun q => ⟨q.2.1, by rw [q.2.2]; exact q.1.2⟩
      left_inv := fun _ => rfl
      right_inv := by
        rintro ⟨⟨y, hy⟩, x, hx⟩
        obtain rfl : f x = y := hx
        rfl }
  have := Fintype.ofFinite {y // p y}
  rw [Nat.card_congr e, Nat.card_sigma]
  simp only [hf _, Finset.sum_const, Finset.card_univ, smul_eq_mul, Nat.card_eq_fintype_card]
  exact Nat.mul_comm _ _

/-- A fold of bijections. -/
theorem bijective_foldl {f : α → β → α} (hf : ∀ b, Function.Bijective fun a => f a b) (l : List β) :
    Function.Bijective fun a => l.foldl f a := by
  induction l with
  | nil => exact Function.bijective_id
  | cons b l ih => exact ih.comp (hf b)

end Balance
