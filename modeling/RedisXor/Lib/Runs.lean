import Mathlib.Data.List.Basic

/-! Runs of a machine whose calls may fail to end, with a log of what was
called in which state and what was answered. A discipline says which calls are
made; it may look at the log, so that a client can be held to data it was given. -/

namespace Runs

/-- A call, the state it was made in and the answer it got. -/
structure Entry (σ op out : Type*) where
  before : σ
  call : op
  answer : out

variable {σ op out : Type*} (step : σ → op → Option (out × σ))
  (Allowed : List (Entry σ op out) → σ → op → Prop) (init : σ)

inductive Run : List (Entry σ op out) → σ → Prop
  | nil : Run [] init
  | snoc {log : List (Entry σ op out)} {s s' : σ} {o : op} {a : out} :
      Run log s → Allowed log s o → step s o = some (a, s') → Run (log ++ [⟨s, o, a⟩]) s'

variable {step Allowed init}

/-- What holds at the start and is kept by every allowed call holds after every
run. -/
theorem Run.inv {I : List (Entry σ op out) → σ → Prop} (hinit : I [] init)
    (hstep : ∀ log s s' o a, I log s → Allowed log s o → step s o = some (a, s') →
      I (log ++ [⟨s, o, a⟩]) s')
    {log : List (Entry σ op out)} {s : σ} (h : Run step Allowed init log s) : I log s := by
  induction h with
  | nil => exact hinit
  | snoc _ hallowed hrun ih => exact hstep _ _ _ _ _ ih hallowed hrun

/-- A stricter discipline has fewer runs. -/
theorem Run.mono {Allowed' : List (Entry σ op out) → σ → op → Prop}
    (hle : ∀ log s o, Allowed log s o → Allowed' log s o) {log : List (Entry σ op out)} {s : σ}
    (h : Run step Allowed init log s) : Run step Allowed' init log s := by
  induction h with
  | nil => exact .nil
  | snoc _ hallowed hrun ih => exact .snoc ih (hle _ _ _ hallowed) hrun

end Runs
