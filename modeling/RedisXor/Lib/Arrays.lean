import Mathlib.Data.List.Basic

/-! Arrays as lists that are read with a default: what a write leaves where, and
the cells of a table of values. -/

namespace Arrays

variable {α : Type*}

theorem getD_set_self (l : List α) {i : ℕ} (h : i < l.length) (a d : α) :
    (l.set i a).getD i d = a := by
  simp [List.getD_eq_getElem?_getD, List.getElem?_set_self h]

theorem getD_set_ne (l : List α) {i j : ℕ} (h : i ≠ j) (a d : α) :
    (l.set i a).getD j d = l.getD j d := by
  simp [List.getD_eq_getElem?_getD, List.getElem?_set_ne h]

theorem getD_map_range (f : ℕ → α) (d : α) {n i : ℕ} (h : i < n) :
    ((List.range n).map f).getD i d = f i := by
  simp [List.getD_eq_getElem?_getD, h]

/-- A bound on the last of `w` cells is a bound on all of them. -/
theorem forall_mem_range' {a w len : ℕ} (hw : 0 < w) :
    (∀ k ∈ List.range' a w, k < len) ↔ a + w ≤ len := by
  simp only [List.mem_range'_1]
  refine ⟨fun h => ?_, fun h k hk => by omega⟩
  have hlast := h (a + w - 1) (by omega)
  omega

end Arrays
