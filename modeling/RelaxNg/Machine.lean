/-!
# Machines

Walks with a stack of tasks are machines: a step leads to the next state or to an answer. `run` takes steps until there
is an answer and has none if that never happens; `run?` takes a number of steps at most. `Leads` is the way from a state
to a later one, and a run gives the same answer from both ends of it.
-/

namespace RelaxNg

/-- A step leads from a state to the next one or to an answer. -/
abbrev Machine (σ α : Type) : Type := σ → σ ⊕ α

namespace Machine

variable {σ α : Type}

/-- The answer to which a machine comes, if it comes to one. -/
def run (step : Machine σ α) (state : σ) : Option α :=
  match step state with
  | .inl next => step |>.run next
  | .inr answer => some answer
partial_fixpoint

/-- The answer reached within a number of steps, if there is one. -/
def run? (step : Machine σ α) : Nat → σ → Option α
  | 0, _ => none
  | steps + 1, state =>
    match step state with
    | .inl next => run? step steps next
    | .inr answer => some answer

inductive Leads (step : Machine σ α) : σ → σ → Prop
  | refl (state : σ) : Leads step state state
  | head {state next last : σ} (h : step state = .inl next) (rest : Leads step next last) : Leads step state last

variable {step : Machine σ α} {state next last : σ} {answer : α}

theorem Leads.single (h : step state = .inl next) : Leads step state next := .head h (.refl next)

theorem Leads.trans (h : Leads step state next) (h' : Leads step next last) : Leads step state last := by
  induction h with
  | refl => exact h'
  | head hs _ ih => exact .head hs (ih h')

theorem run_of_inl (h : step state = .inl next) : run step state = run step next := by
  rw [run, h]

theorem run_of_inr (h : step state = .inr answer) : run step state = some answer := by
  rw [run, h]

theorem Leads.run_eq (h : Leads step state next) : run step state = run step next := by
  induction h with
  | refl => rfl
  | head hs _ ih => rw [run_of_inl hs, ih]

theorem Leads.run_eq_some (h : Leads step state next) (hs : step next = .inr answer) : run step state = some answer :=
  h.run_eq.trans (run_of_inr hs)

theorem run_of_run? {steps : Nat} (h : run? step steps state = some answer) : run step state = some answer := by
  induction steps generalizing state with
  | zero => simp [run?] at h
  | succ steps ih =>
    rw [run?] at h
    rw [run]
    split at h
    · exact ih h
    · exact h

/-- A machine comes to an answer exactly if it does so within some number of steps. -/
theorem run_eq_some_iff : run step state = some answer ↔ ∃ steps, run? step steps state = some answer := by
  refine ⟨?_, fun ⟨_, h⟩ => run_of_run? h⟩
  refine run.partial_correctness step (fun state answer => ∃ steps, run? step steps state = some answer) ?_ state answer
  intro run ih state answer h
  split at h
  · next hs =>
    obtain ⟨steps, hr⟩ := ih _ _ h
    exact ⟨steps + 1, by rw [run?, hs]; exact hr⟩
  · next hs => exact ⟨1, by rw [run?, hs]; exact h⟩

end Machine

end RelaxNg
