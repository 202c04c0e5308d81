import Mathlib.Logic.Function.Iterate
import Mathlib.Tactic.SplitIfs

/-! `while` loops with fuel. A loop whose measure falls in every round exits
within its fuel, in a state that has the invariant and fails the condition. -/

namespace While

variable {σ : Type*} (cond : σ → Bool) (body : σ → σ)

/-- `none` when `fuel` tests of the condition do not end the loop. -/
def whileFuel : ℕ → σ → Option σ
  | 0, _ => none
  | fuel + 1, st => if cond st then whileFuel fuel (body st) else some st

/-- The loop makes at least `k` rounds from `st`. -/
def Running (k : ℕ) (st : σ) : Prop := ∀ j < k, cond (body^[j] st) = true

variable {cond body}

theorem Running.mono {k k' : ℕ} {st : σ} (h : Running cond body k st) (hk : k' ≤ k) :
    Running cond body k' st := fun j hj => h j (Nat.lt_of_lt_of_le hj hk)

theorem Running.cons {k : ℕ} {st : σ} (hc : cond st = true) (h : Running cond body k (body st)) :
    Running cond body (k + 1) st := by
  intro j hj
  rcases j with - | j
  · exact hc
  · exact h j (by omega)

/-- What every round keeps holds at each test of the condition. -/
theorem iterate_of_running {I : σ → Prop} {st : σ} (hst : I st) {k : ℕ}
    (hstep : ∀ j < k, I (body^[j] st) → I (body^[j + 1] st)) : I (body^[k] st) := by
  induction k with
  | zero => exact hst
  | succ k ih => exact hstep k (Nat.lt_succ_self k) (ih fun j hj => hstep j (by omega))

variable (cond body) in
/-- Total correctness: the fuel need only exceed the measure of the start, and
only the rounds that the loop really makes have to keep the invariant. -/
theorem whileFuel_spec {I : σ → Prop} {m : σ → ℕ} {fuel : ℕ} {st : σ} (hst : I st)
    (hstep : ∀ k, Running cond body (k + 1) st → I (body^[k] st) →
      I (body^[k + 1] st) ∧ m (body^[k + 1] st) < m (body^[k] st))
    (hfuel : m st < fuel) :
    ∃ st', whileFuel cond body fuel st = some st' ∧ I st' ∧ cond st' = false := by
  induction fuel generalizing st with
  | zero => exact absurd hfuel (Nat.not_lt_zero _)
  | succ fuel ih =>
    rw [whileFuel]
    split_ifs with hc
    · have h0 : Running cond body 0 (body st) := fun j hj => absurd hj (Nat.not_lt_zero j)
      obtain ⟨hI, hm⟩ := hstep 0 (h0.cons hc) hst
      simp only [Function.iterate_succ_apply, Function.iterate_zero_apply] at hm
      exact ih hI (fun k hk => hstep (k + 1) (hk.cons hc)) (by omega)
    · exact ⟨st, rfl, hst, by simpa using hc⟩

/-- A loop that ends has run until its condition failed. -/
theorem exists_running_of_whileFuel {fuel : ℕ} {st st' : σ}
    (h : whileFuel cond body fuel st = some st') :
    ∃ k, Running cond body k st ∧ st' = body^[k] st ∧ cond st' = false := by
  induction fuel generalizing st with
  | zero => cases h
  | succ fuel ih =>
    rw [whileFuel] at h
    split_ifs at h with hc
    · obtain ⟨k, hk, hst', hend⟩ := ih h
      exact ⟨k + 1, hk.cons hc, hst', hend⟩
    · obtain rfl := Option.some.inj h
      exact ⟨0, fun j hj => absurd hj (Nat.not_lt_zero j), rfl, by simpa using hc⟩

variable (cond body) in
/-- Two loops in lockstep: what relates their states at every test relates their
results. -/
theorem whileFuel_rel {τ : Type*} (cond' : τ → Bool) (body' : τ → τ) {R : σ → τ → Prop}
    (hcond : ∀ a b, R a b → cond a = cond' b)
    (hstep : ∀ a b, R a b → cond a = true → R (body a) (body' b)) (fuel : ℕ) {a : σ} {b : τ}
    (h : R a b) : Option.Rel R (whileFuel cond body fuel a) (whileFuel cond' body' fuel b) := by
  induction fuel generalizing a b with
  | zero => exact .none
  | succ fuel ih =>
    rw [whileFuel, whileFuel, ← hcond a b h]
    split_ifs with hc
    · exact ih (hstep a b h hc)
    · exact .some h

end While
