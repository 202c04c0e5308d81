import Mathlib.Data.List.Basic

/-! Machines that answer a sequence of calls, and refinement between two of
them: a relation that every allowed call keeps, with equal answers, makes whole
sequences of calls indistinguishable. -/

namespace Refinement

/-- `pre` says which calls the user of the machine may make in a state. -/
structure Machine (σ op out : Type*) where
  pre : σ → op → Prop
  step : σ → op → out × σ

namespace Machine

variable {σ op out : Type*} (M : Machine σ op out)

/-- The state after the calls. -/
def state (s : σ) (ops : List op) : σ := ops.foldl (fun s o => (M.step s o).2) s

/-- The answers to the calls. -/
def answers : σ → List op → List out
  | _, [] => []
  | s, o :: ops => (M.step s o).1 :: answers (M.step s o).2 ops

/-- Every call is allowed in the state it is made in. -/
def Admits : σ → List op → Prop
  | _, [] => True
  | s, o :: ops => M.pre s o ∧ Admits (M.step s o).2 ops

@[simp] theorem state_nil (s : σ) : M.state s [] = s := rfl

@[simp] theorem state_cons (s : σ) (o : op) (ops : List op) :
    M.state s (o :: ops) = M.state (M.step s o).2 ops := rfl

theorem admits_append (s : σ) (ops ops' : List op) :
    M.Admits s (ops ++ ops') ↔ M.Admits s ops ∧ M.Admits (M.state s ops) ops' := by
  induction ops generalizing s with
  | nil => exact (iff_of_eq (true_and _)).symm
  | cons o ops ih =>
    rw [List.cons_append, Admits, Admits, ih, state_cons, and_assoc]

/-- Only the calls `P` are allowed, of those that were. -/
def restrict (P : σ → op → Prop) : Machine σ op out where
  pre s o := M.pre s o ∧ P s o
  step := M.step

theorem state_restrict (P : σ → op → Prop) (s : σ) (ops : List op) :
    (M.restrict P).state s ops = M.state s ops := rfl

theorem answers_restrict (P : σ → op → Prop) (s : σ) (ops : List op) :
    (M.restrict P).answers s ops = M.answers s ops := by
  induction ops generalizing s with
  | nil => rfl
  | cons o ops ih => exact congrArg _ (ih _)

variable {M} in
theorem Admits.restrict {s : σ} {ops : List op} (h : M.Admits s ops) {P : op → Prop}
    (hP : ∀ o ∈ ops, P o) : (M.restrict fun _ => P).Admits s ops := by
  induction ops generalizing s with
  | nil => trivial
  | cons o ops ih =>
    exact ⟨⟨h.1, hP o List.mem_cons_self⟩, ih h.2 fun o ho => hP o (List.mem_cons_of_mem _ ho)⟩

/-- Each call is made as another. -/
def comap (e : op → op) : Machine σ op out where
  pre s o := M.pre s (e o)
  step s o := M.step s (e o)

theorem state_comap (e : op → op) (s : σ) (ops : List op) :
    (M.comap e).state s ops = M.state s (ops.map e) := by
  rw [state, state, List.foldl_map]
  rfl

theorem answers_comap (e : op → op) (s : σ) (ops : List op) :
    (M.comap e).answers s ops = M.answers s (ops.map e) := by
  induction ops generalizing s with
  | nil => rfl
  | cons o ops ih => exact congrArg _ (ih _)

end Machine

variable {σ τ op out : Type*}

/-- What `A` allows in a state, `C` allows in the related ones, with the same
answer and related states after it. -/
structure Implements (C : Machine σ op out) (A : Machine τ op out) (R : σ → τ → Prop) : Prop where
  pre : ∀ s t o, R s t → A.pre t o → C.pre s o
  answer : ∀ s t o, R s t → A.pre t o → (C.step s o).1 = (A.step t o).1
  step : ∀ s t o, R s t → A.pre t o → R (C.step s o).2 (A.step t o).2

namespace Implements

variable {C : Machine σ op out} {A : Machine τ op out} {R : σ → τ → Prop} {s : σ} {t : τ}

theorem state (h : Implements C A R) (hst : R s t) {ops : List op} (hadm : A.Admits t ops) :
    R (C.state s ops) (A.state t ops) := by
  induction ops generalizing s t with
  | nil => exact hst
  | cons o ops ih => exact ih (h.step s t o hst hadm.1) hadm.2

theorem answers (h : Implements C A R) (hst : R s t) {ops : List op} (hadm : A.Admits t ops) :
    C.answers s ops = A.answers t ops := by
  induction ops generalizing s t with
  | nil => rfl
  | cons o ops ih =>
    rw [Machine.answers, Machine.answers, h.answer s t o hst hadm.1,
      ih (h.step s t o hst hadm.1) hadm.2]

theorem admits (h : Implements C A R) (hst : R s t) {ops : List op} (hadm : A.Admits t ops) :
    C.Admits s ops := by
  induction ops generalizing s t with
  | nil => trivial
  | cons o ops ih => exact ⟨h.pre s t o hst hadm.1, ih (h.step s t o hst hadm.1) hadm.2⟩

end Implements

/-- The calls `A` allows are those `C` allows in related states, and each of
them gets the same answer and leads to related states. -/
structure Refines (C : Machine σ op out) (A : Machine τ op out) (R : σ → τ → Prop) : Prop where
  pre_iff : ∀ s t o, R s t → (C.pre s o ↔ A.pre t o)
  answer : ∀ s t o, R s t → A.pre t o → (C.step s o).1 = (A.step t o).1
  step : ∀ s t o, R s t → A.pre t o → R (C.step s o).2 (A.step t o).2

namespace Refines

variable {C : Machine σ op out} {A : Machine τ op out} {R : σ → τ → Prop} {s : σ} {t : τ}

theorem implements (h : Refines C A R) : Implements C A R :=
  ⟨fun s t o hst => (h.pre_iff s t o hst).2, h.answer, h.step⟩

theorem state (h : Refines C A R) (hst : R s t) {ops : List op} (hadm : A.Admits t ops) :
    R (C.state s ops) (A.state t ops) := h.implements.state hst hadm

theorem answers (h : Refines C A R) (hst : R s t) {ops : List op} (hadm : A.Admits t ops) :
    C.answers s ops = A.answers t ops := h.implements.answers hst hadm

/-- A user who follows the rules of one machine follows those of the other. -/
theorem admits_iff (h : Refines C A R) (hst : R s t) (ops : List op) :
    C.Admits s ops ↔ A.Admits t ops := by
  induction ops generalizing s t with
  | nil => exact Iff.rfl
  | cons o ops ih =>
    rw [Machine.Admits, Machine.Admits, h.pre_iff s t o hst]
    exact and_congr_right fun hpre => ih (h.step s t o hst hpre)

/-- Every single call of a sequence is made in related states, and is allowed. -/
theorem call (h : Refines C A R) (hst : R s t) {ops₁ ops₂ : List op} {o : op}
    (hadm : A.Admits t (ops₁ ++ o :: ops₂)) :
    R (C.state s ops₁) (A.state t ops₁) ∧ A.pre (A.state t ops₁) o := by
  obtain ⟨h₁, h₂⟩ := (A.admits_append t ops₁ (o :: ops₂)).1 hadm
  exact ⟨h.state hst h₁, h₂.1⟩

end Refines

end Refinement
