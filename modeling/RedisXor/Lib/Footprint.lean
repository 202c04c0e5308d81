import Mathlib.Data.Set.Function
import Mathlib.Logic.Function.Basic
import RedisXor.Lib.Refinement

/-! Machines over a keyed store, and calls that are confined to some of its keys.
Users who keep to keys of their own cannot tell whether others are there: each is
answered as if it were alone, however the calls are interleaved. -/

namespace Footprint

open Refinement

variable {κ ν op out : Type*} {M : Machine (κ → ν) op out}

/-- The call reads no key outside `S` and changes none. -/
structure Confined (M : Machine (κ → ν) op out) (o : op) (S : Set κ) : Prop where
  frame : ∀ s, ∀ k ∉ S, (M.step s o).2 k = s k
  pre_congr : ∀ s t, Set.EqOn s t S → (M.pre s o ↔ M.pre t o)
  answer_congr : ∀ s t, Set.EqOn s t S → (M.step s o).1 = (M.step t o).1
  step_congr : ∀ s t, Set.EqOn s t S → Set.EqOn (M.step s o).2 (M.step t o).2 S

theorem Confined.mono {o : op} {S T : Set κ} (h : Confined M o S) (hST : S ⊆ T) :
    Confined M o T := by
  refine ⟨fun s k hk => h.frame s k fun hkS => hk (hST hkS),
    fun s t hst => h.pre_congr s t (hst.mono hST),
    fun s t hst => h.answer_congr s t (hst.mono hST), fun s t hst k hk => ?_⟩
  by_cases hkS : k ∈ S
  · exact h.step_congr s t (hst.mono hST) hkS
  · rw [h.frame s k hkS, h.frame t k hkS]
    exact hst hk

/-- A rule that looks at `S` alone leaves a call confined to it. -/
theorem Confined.restrict {o : op} {S : Set κ} (h : Confined M o S) {P : (κ → ν) → op → Prop}
    (hP : ∀ s t, Set.EqOn s t S → (P s o ↔ P t o)) : Confined (M.restrict P) o S :=
  ⟨h.frame, fun s t hst => and_congr (h.pre_congr s t hst) (hP s t hst), h.answer_congr,
    h.step_congr⟩

/-- A change of the store that reads and writes `S` alone. -/
structure Writes (S : Set κ) (w : (κ → ν) → κ → ν) : Prop where
  frame : ∀ s, ∀ k ∉ S, w s k = s k
  congr : ∀ s t, Set.EqOn s t S → Set.EqOn (w s) (w t) S

theorem Writes.id (S : Set κ) : Writes S fun s : κ → ν => s :=
  ⟨fun _ _ _ => rfl, fun _ _ hst => hst⟩

theorem Writes.update [DecidableEq κ] {S : Set κ} {w : (κ → ν) → κ → ν} (hw : Writes S w) {k : κ}
    (hk : k ∈ S) (v : ν) : Writes S fun s => Function.update (w s) k v := by
  refine ⟨fun s k' hk' => ?_, fun s t hst k' hk' => ?_⟩
  · rw [Function.update_of_ne fun h => hk' (by rwa [h])]
    exact hw.frame s k' hk'
  · by_cases h : k' = k
    · subst h
      rw [Function.update_self, Function.update_self]
    · rw [Function.update_of_ne h, Function.update_of_ne h]
      exact hw.congr s t hst hk'

/-- A call is confined when stores that agree on `S` make it do the same. -/
theorem confined_of_writes {o : op} {S : Set κ} (h : ∀ s t, Set.EqOn s t S →
    (M.pre s o ↔ M.pre t o) ∧
      ∃ a w, Writes S w ∧ M.step s o = (a, w s) ∧ M.step t o = (a, w t)) : Confined M o S := by
  refine ⟨fun s k hk => ?_, fun s t hst => (h s t hst).1, fun s t hst => ?_, fun s t hst => ?_⟩
  · obtain ⟨-, a, w, hw, hs, -⟩ := h s s (Set.eqOn_refl s S)
    rw [hs]
    exact hw.frame s k hk
  · obtain ⟨-, a, w, -, hs, ht⟩ := h s t hst
    rw [hs, ht]
  · obtain ⟨-, a, w, hw, hs, ht⟩ := h s t hst
    rw [hs, ht]
    exact hw.congr s t hst

/-- The calls with their answers. -/
def dialogue (M : Machine (κ → ν) op out) (s : κ → ν) (ops : List op) : List (op × out) :=
  ops.zip (M.answers s ops)

theorem dialogue_cons (s : κ → ν) (o : op) (ops : List op) :
    dialogue M s (o :: ops) = (o, (M.step s o).1) :: dialogue M (M.step s o).2 ops := rfl

theorem dialogue_comap (e : op → op) (s : κ → ν) (ops : List op) :
    dialogue M s (ops.map e) = (dialogue (M.comap e) s ops).map (Prod.map e id) := by
  rw [dialogue, dialogue, Machine.answers_comap, List.zip_map_left]

/-- A user who makes the calls `mine`, and keeps to the keys `S`, that no other
call of the sequence touches. -/
structure Tenant (M : Machine (κ → ν) op out) (S : Set κ) (mine : op → Bool) (ops : List op) :
    Prop where
  inside : ∀ o ∈ ops, mine o = true → Confined M o S
  outside : ∀ o ∈ ops, mine o = false → Confined M o Sᶜ

namespace Tenant

variable {S : Set κ} {mine : op → Bool} {o : op} {ops : List op} {s t : κ → ν}

theorem tail (h : Tenant M S mine (o :: ops)) : Tenant M S mine ops :=
  ⟨fun o' ho' => h.inside o' (List.mem_cons_of_mem o ho'),
    fun o' ho' => h.outside o' (List.mem_cons_of_mem o ho')⟩

/-- A call of another user is not noticed. -/
theorem skip (h : Tenant M S mine (o :: ops)) (ho : mine o = false) (hst : Set.EqOn s t S) :
    Set.EqOn (M.step s o).2 t S := by
  intro k hk
  rw [(h.outside o List.mem_cons_self ho).frame s k (Set.notMem_compl_iff.2 hk)]
  exact hst hk

theorem state (h : Tenant M S mine ops) (hst : Set.EqOn s t S) :
    Set.EqOn (M.state s ops) (M.state t (ops.filter mine)) S := by
  induction ops generalizing s t with
  | nil => exact hst
  | cons o ops ih =>
    rw [List.filter_cons, Machine.state_cons]
    split_ifs with ho
    · rw [Machine.state_cons]
      exact ih h.tail ((h.inside o List.mem_cons_self ho).step_congr s t hst)
    · exact ih h.tail (h.skip (Bool.eq_false_iff.2 ho) hst)

theorem dialogue (h : Tenant M S mine ops) (hst : Set.EqOn s t S) :
    (dialogue M s ops).filter (fun p => mine p.1) =
      Footprint.dialogue M t (ops.filter mine) := by
  induction ops generalizing s t with
  | nil => rfl
  | cons o ops ih =>
    rw [dialogue_cons, List.filter_cons, List.filter_cons]
    split_ifs with ho
    · have hin := h.inside o List.mem_cons_self ho
      rw [dialogue_cons, hin.answer_congr s t hst, ih h.tail (hin.step_congr s t hst)]
    · exact ih h.tail (h.skip (Bool.eq_false_iff.2 ho) hst)

theorem admits (h : Tenant M S mine ops) (hst : Set.EqOn s t S) (hadm : M.Admits s ops) :
    M.Admits t (ops.filter mine) := by
  induction ops generalizing s t with
  | nil => exact hadm
  | cons o ops ih =>
    obtain ⟨hpre, hadm⟩ := hadm
    rw [List.filter_cons]
    split_ifs with ho
    · have hin := h.inside o List.mem_cons_self ho
      exact ⟨(hin.pre_congr s t hst).1 hpre, ih h.tail (hin.step_congr s t hst) hadm⟩
    · exact ih h.tail (h.skip (Bool.eq_false_iff.2 ho) hst) hadm

end Tenant

end Footprint
