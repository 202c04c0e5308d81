import Mathlib.Data.Finset.Card
import Mathlib.Data.List.Nodup
import Mathlib.Logic.Relation
import Mathlib.Logic.Function.Basic
import Mathlib.Order.Bounds.Basic

/-! Peeling of hypergraphs: keys are edges, and a key may be removed when one
of its vertices is touched by no other key that is left. Greedy removal ends in
the 2-core whatever the order, so it empties the graph exactly when some order
of the keys does. A removal order with its vertices is also a triangular system:
one cell per key can be solved for, last key first. -/

namespace Peeling

variable {κ ν : Type*} (touches : κ → ν → Prop)

/-- Each key of the list has a vertex that no later key touches. -/
def PeelOrder : List κ → Prop
  | [] => True
  | k :: L => (∃ v, touches k v ∧ ∀ k' ∈ L, ¬ touches k' v) ∧ PeelOrder L

def Peelable (S : Finset κ) : Prop :=
  ∃ L : List κ, L.Nodup ∧ (∀ k, k ∈ L ↔ k ∈ S) ∧ PeelOrder touches L

/-- No vertex is touched by exactly one key of `C`. -/
def TwoCore (C : Finset κ) : Prop :=
  ∀ k ∈ C, ∀ v, touches k v → ∃ k' ∈ C, k' ≠ k ∧ touches k' v

/-- One removal. -/
def Step [DecidableEq κ] (R R' : Finset κ) : Prop :=
  ∃ k ∈ R, ∃ v, touches k v ∧ (∀ k' ∈ R, touches k' v → k' = k) ∧ R' = R.erase k

variable {touches}

/-- The first key of an order that lies in `C` would have a vertex of its own. -/
theorem PeelOrder.eq_empty_of_twoCore {L : List κ} (hL : PeelOrder touches L) {C : Finset κ}
    (hC : TwoCore touches C) (hsub : ∀ k ∈ C, k ∈ L) : C = ∅ := by
  induction L with
  | nil => exact Finset.eq_empty_of_forall_notMem fun k hk => by simpa using hsub k hk
  | cons a L ih =>
    obtain ⟨⟨v, hv, hfree⟩, hL⟩ := hL
    have ha : a ∉ C := by
      intro ha
      obtain ⟨k', hk', hne, ht⟩ := hC a ha v hv
      rcases List.mem_cons.1 (hsub k' hk') with rfl | hmem
      · exact hne rfl
      · exact hfree k' hmem ht
    refine ih hL fun k hk => ?_
    rcases List.mem_cons.1 (hsub k hk) with rfl | hmem
    · exact absurd hk ha
    · exact hmem

theorem Peelable.eq_empty_of_twoCore {S C : Finset κ} (hS : Peelable touches S)
    (hC : TwoCore touches C) (hsub : C ⊆ S) : C = ∅ := by
  obtain ⟨L, -, hmem, hL⟩ := hS
  exact hL.eq_empty_of_twoCore hC fun k hk => (hmem k).2 (hsub hk)

theorem peelable_empty : Peelable touches (∅ : Finset κ) :=
  ⟨[], List.nodup_nil, by simp, trivial⟩

/-- A choice of vertices that no later key touches is all an order needs. -/
theorem peelOrder_of_pairwise {v : κ → ν} {L : List κ} (hv : ∀ k ∈ L, touches k (v k))
    (hL : L.Pairwise fun k k' => ¬ touches k' (v k)) : PeelOrder touches L := by
  induction L with
  | nil => trivial
  | cons a L ih =>
    obtain ⟨ha, hL⟩ := List.pairwise_cons.1 hL
    exact ⟨⟨v a, hv a (by simp), ha⟩, ih (fun k hk => hv k (List.mem_cons_of_mem a hk)) hL⟩

section Run

variable [DecidableEq κ]

/-- A 2-core survives every removal. -/
theorem Step.subset_of_twoCore {R R' C : Finset κ} (h : Step touches R R')
    (hC : TwoCore touches C) (hsub : C ⊆ R) : C ⊆ R' := by
  obtain ⟨k, -, v, hv, honly, rfl⟩ := h
  intro c hc
  refine Finset.mem_erase.2 ⟨?_, hsub hc⟩
  rintro rfl
  obtain ⟨k', hk', hne, ht⟩ := hC c hc v hv
  exact hne (honly k' (hsub hk') ht)

theorem run_subset_of_twoCore {S R C : Finset κ}
    (h : Relation.ReflTransGen (Step touches) S R) (hC : TwoCore touches C) (hsub : C ⊆ S) :
    C ⊆ R := by
  induction h with
  | refl => exact hsub
  | tail _ hs ih => exact hs.subset_of_twoCore hC ih

theorem run_subset {S R : Finset κ} (h : Relation.ReflTransGen (Step touches) S R) : R ⊆ S := by
  induction h with
  | refl => exact subset_rfl
  | tail _ hs ih =>
    obtain ⟨k, -, v, -, -, rfl⟩ := hs
    exact (Finset.erase_subset _ _).trans ih

theorem Step.peelable {R R' : Finset κ} (h : Step touches R R') (hR' : Peelable touches R') :
    Peelable touches R := by
  obtain ⟨k, hk, v, hv, honly, rfl⟩ := h
  obtain ⟨L, hnodup, hmem, hL⟩ := hR'
  have hkL : k ∉ L := fun hkL => (Finset.mem_erase.1 ((hmem k).1 hkL)).1 rfl
  refine ⟨k :: L, List.nodup_cons.2 ⟨hkL, hnodup⟩, fun c => ?_, ⟨v, hv, fun k' hk' ht => ?_⟩, hL⟩
  · rw [List.mem_cons, hmem, Finset.mem_erase]
    constructor
    · rintro (rfl | ⟨-, hc⟩)
      · exact hk
      · exact hc
    · intro hc
      by_cases hck : c = k
      · exact Or.inl hck
      · exact Or.inr ⟨hck, hc⟩
  · have hR := Finset.mem_erase.1 ((hmem k').1 hk')
    exact hR.1 (honly k' hR.2 ht)

theorem run_peelable {S R : Finset κ} (h : Relation.ReflTransGen (Step touches) S R)
    (hR : Peelable touches R) : Peelable touches S := by
  induction h with
  | refl => exact hR
  | tail _ hs ih => exact ih (hs.peelable hR)

/-- Confluence: a run that can go no further has emptied the graph exactly when
the graph can be emptied at all. -/
theorem run_end_eq_empty_iff {S R : Finset κ} (h : Relation.ReflTransGen (Step touches) S R)
    (hcore : TwoCore touches R) : R = ∅ ↔ Peelable touches S := by
  constructor
  · rintro rfl
    exact run_peelable h peelable_empty
  · intro hS
    exact hS.eq_empty_of_twoCore hcore (run_subset h)

/-- Such a run ends in the greatest 2-core, whichever keys it removed first. -/
theorem run_end_isGreatest {S R : Finset κ} (h : Relation.ReflTransGen (Step touches) S R)
    (hcore : TwoCore touches R) : IsGreatest {C | C ⊆ S ∧ TwoCore touches C} R :=
  ⟨⟨run_subset h, hcore⟩, fun _ hC => run_subset_of_twoCore h hC.2 hC.1⟩

end Run

/-- The last key of an order occupies its vertices, each key before it one
vertex more. -/
theorem PeelOrder.length_add_le [DecidableEq ν] [∀ k v, Decidable (touches k v)] {r : ℕ}
    {L : List κ} (hL : PeelOrder touches L) (hne : L ≠ []) (V : Finset ν)
    (hV : ∀ k ∈ L, ∀ v, touches k v → v ∈ V)
    (hr : ∀ k ∈ L, r ≤ (V.filter (touches k)).card) : L.length + r ≤ V.card + 1 := by
  induction L generalizing V with
  | nil => exact absurd rfl hne
  | cons a L ih =>
    obtain ⟨⟨v, hv, hfree⟩, hL⟩ := hL
    rcases L with - | ⟨b, L⟩
    · have h1 := hr a (by simp)
      have h2 := Finset.card_filter_le V (touches a)
      simp only [List.length_singleton]
      omega
    · have hvV := hV a (by simp) v hv
      have herase : ∀ k ∈ b :: L, (V.erase v).filter (touches k) = V.filter (touches k) := by
        intro k hk
        ext u
        simp only [Finset.mem_filter, Finset.mem_erase]
        exact ⟨fun h => ⟨h.1.2, h.2⟩, fun h => ⟨⟨by rintro rfl; exact hfree k hk h.2, h.1⟩, h.2⟩⟩
      have h := ih hL (by simp) (V.erase v)
        (fun k hk u hu => Finset.mem_erase.2
          ⟨by rintro rfl; exact hfree k hk hu, hV k (List.mem_cons_of_mem a hk) u hu⟩)
        (fun k hk => by rw [herase k hk]; exact hr k (List.mem_cons_of_mem a hk))
      rw [Finset.card_erase_of_mem hvV] at h
      have hpos : 0 < V.card := Finset.card_pos.2 ⟨v, hvV⟩
      rw [List.length_cons]
      omega

/-! Orders that record the vertex of each key -/

variable (touches) in
/-- Each key with a vertex of its own that no later key touches. -/
def PeelTrace (L : List (κ × ν)) : Prop :=
  (∀ p ∈ L, touches p.1 p.2) ∧ L.Pairwise fun p q => ¬ touches q.1 p.2

theorem PeelTrace.tail {p : κ × ν} {L : List (κ × ν)} (h : PeelTrace touches (p :: L)) :
    PeelTrace touches L :=
  ⟨fun q hq => h.1 q (List.mem_cons_of_mem p hq), (List.pairwise_cons.1 h.2).2⟩

theorem PeelTrace.vertices_nodup {L : List (κ × ν)} (h : PeelTrace touches L) :
    (L.map Prod.snd).Nodup := by
  rw [List.Nodup, List.pairwise_map]
  refine h.2.imp_of_mem fun {p q} _ hq hnot heq => hnot ?_
  rw [heq]
  exact h.1 q hq

section Solve

variable {G : Type*} [DecidableEq ν] (solve : (ν → G) → κ → ν → G)

/-- Set the recorded cell of each key, last key first. -/
def assignCells (c : ν → G) : List (κ × ν) → ν → G
  | [] => c
  | (k, v) :: L => Function.update (assignCells c L) v (solve (assignCells c L) k v)

/-- The keys at the end of the list are assigned first. -/
theorem assignCells_append (c : ν → G) (L L' : List (κ × ν)) :
    assignCells solve c (L ++ L') = assignCells solve (assignCells solve c L') L := by
  induction L with
  | nil => rfl
  | cons p L ih => rw [List.cons_append, assignCells, assignCells, ih]

theorem assignCells_of_notMem (c : ν → G) {L : List (κ × ν)} {v : ν}
    (hv : v ∉ L.map Prod.snd) : assignCells solve c L v = c v := by
  induction L with
  | nil => rfl
  | cons p L ih =>
    simp only [List.map_cons, List.mem_cons, not_or] at hv
    rw [assignCells, Function.update_of_ne hv.1, ih hv.2]

/-- An equation that reads only the cells of its key, and that `solve` makes
true, holds for every key of a trace in the end. -/
theorem assignCells_holds {Holds : (ν → G) → κ → Prop}
    (hlocal : ∀ c v a k, ¬ touches k v → Holds c k → Holds (Function.update c v a) k)
    (hsolve : ∀ c k v, touches k v → Holds (Function.update c v (solve c k v)) k)
    (c : ν → G) {L : List (κ × ν)} (hL : PeelTrace touches L) :
    ∀ p ∈ L, Holds (assignCells solve c L) p.1 := by
  induction L with
  | nil => simp
  | cons p L ih =>
    intro q hq
    rcases List.mem_cons.1 hq with rfl | hmem
    · exact hsolve _ _ _ (hL.1 q (by simp))
    · exact hlocal _ _ _ _ ((List.pairwise_cons.1 hL.2).1 q hmem) (ih hL.tail q hmem)

/-- Solutions that agree at the vertices that are not recorded are equal. -/
theorem eq_of_holds {Holds : (ν → G) → κ → Prop}
    (hlocal : ∀ c v a k, ¬ touches k v → Holds c k → Holds (Function.update c v a) k)
    (hdet : ∀ c v a k, touches k v → Holds c k → Holds (Function.update c v a) k → a = c v)
    {c c' : ν → G} {L : List (κ × ν)} (hL : PeelTrace touches L) (hc : ∀ p ∈ L, Holds c p.1)
    (hc' : ∀ p ∈ L, Holds c' p.1) (hagree : ∀ v ∉ L.map Prod.snd, c' v = c v) : c' = c := by
  induction L generalizing c' with
  | nil =>
    funext v
    exact hagree v List.not_mem_nil
  | cons p L ih =>
    -- with its cell taken from `c`, `c'` still solves the equations of the later keys
    have heq : Function.update c' p.2 (c p.2) = c := by
      apply ih hL.tail (fun q hq => hc q (List.mem_cons_of_mem p hq))
      · intro q hq
        exact hlocal _ _ _ _ ((List.pairwise_cons.1 hL.2).1 q hq)
          (hc' q (List.mem_cons_of_mem p hq))
      · intro v hv
        by_cases hvp : v = p.2
        · rw [hvp, Function.update_self]
        · rw [Function.update_of_ne hvp]
          refine hagree v ?_
          rw [List.map_cons, List.mem_cons, not_or]
          exact ⟨hvp, hv⟩
    have hp : p ∈ p :: L := List.mem_cons_self
    have hcell : c p.2 = c' p.2 := by
      refine hdet c' p.2 (c p.2) p.1 (hL.1 p hp) (hc' p hp) ?_
      rw [heq]
      exact hc p hp
    rwa [hcell, Function.update_eq_self] at heq

/-- The values of the cells that are not recorded can be chosen, and determine
the others. -/
theorem existsUnique_solution {Holds : (ν → G) → κ → Prop}
    (hlocal : ∀ c v a k, ¬ touches k v → Holds c k → Holds (Function.update c v a) k)
    (hdet : ∀ c v a k, touches k v → Holds c k → Holds (Function.update c v a) k → a = c v)
    (hsolve : ∀ c k v, touches k v → Holds (Function.update c v (solve c k v)) k)
    (c : ν → G) {L : List (κ × ν)} (hL : PeelTrace touches L) :
    ∃! c', (∀ p ∈ L, Holds c' p.1) ∧ ∀ v ∉ L.map Prod.snd, c' v = c v := by
  have hassign := assignCells_holds solve hlocal hsolve c hL
  refine ⟨assignCells solve c L, ⟨hassign, fun v hv => assignCells_of_notMem solve c hv⟩, ?_⟩
  rintro c' ⟨hholds, hagree⟩
  refine eq_of_holds hlocal hdet hL hassign hholds fun v hv => ?_
  rw [hagree v hv, assignCells_of_notMem solve c hv]

end Solve

end Peeling
