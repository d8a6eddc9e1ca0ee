import RelaxNg.Error

/-!
# Attempts

An attempt is a step that changes a state and answers a value or an error. The state it leaves stands also when it
fails, so that what a failed step has done can be told.
-/

namespace RelaxNg

/-- A step on a state that may fail. -/
abbrev Attempt (σ α : Type) := ExceptT Error (StateM σ) α

namespace Attempt

variable {σ τ α β : Type}

/-- Takes the step from a state: its answer and the state it leaves. -/
def runFrom (step : Attempt σ α) (state : σ) : Except Error α × σ := step.run.run state

/-- A step on a part of a state: `view` reads the part and `put` writes it back. -/
def onPart (view : τ → σ) (put : σ → τ → τ) (step : Attempt σ α) : Attempt τ α :=
  ExceptT.mk fun state =>
    let (answer, part) := step.runFrom (view state)
    (answer, put part state)

/-- A step that gives an answer and leaves the state alone. -/
def answer (result : Except Error α) : Attempt σ α := ExceptT.mk (pure result)

/-! ## Taking steps -/

@[simp] theorem runFrom_pure (a : α) (s : σ) : (pure a : Attempt σ α).runFrom s = (.ok a, s) := rfl

@[simp] theorem runFrom_throw (e : Error) (s : σ) : (throw e : Attempt σ α).runFrom s = (.error e, s) := rfl

@[simp] theorem runFrom_modify (f : σ → σ) (s : σ) : (modify f : Attempt σ PUnit).runFrom s = (.ok ⟨⟩, f s) := rfl

theorem runFrom_get_then (f : σ → Attempt σ β) (s : σ) : (get >>= f).runFrom s = (f s).runFrom s := rfl

theorem runFrom_modify_then (f : σ → σ) (next : PUnit → Attempt σ β) (s : σ) :
    (modify f >>= next).runFrom s = (next ⟨⟩).runFrom (f s) := rfl

theorem runFrom_bind (step : Attempt σ α) (next : α → Attempt σ β) (s : σ) :
    (step >>= next).runFrom s = match step.runFrom s with
      | (.ok a, t) => (next a).runFrom t
      | (.error e, t) => (.error e, t) := by
  change (match step s with | (a, t) => ExceptT.bindCont next a t) = match step s with
    | (.ok a, t) => (next a).runFrom t
    | (.error e, t) => (.error e, t)
  rcases step s with ⟨_ | a, t⟩ <;> rfl

/-- Two steps succeed together if each does. -/
theorem runFrom_bind_ok {step : Attempt σ α} {next : α → Attempt σ β} {s u : σ} {b : β} :
    (step >>= next).runFrom s = (.ok b, u) ↔
      ∃ a t, step.runFrom s = (.ok a, t) ∧ (next a).runFrom t = (.ok b, u) := by
  rw [runFrom_bind]
  rcases step.runFrom s with ⟨_ | a, t⟩
  · simp
  · constructor
    · intro h
      exact ⟨a, t, rfl, h⟩
    · rintro ⟨_, _, ⟨⟩, h⟩
      exact h

theorem runFrom_then_ok {step : Attempt σ PUnit} {next : PUnit → Attempt σ β} {s u : σ} {b : β} :
    (step >>= next).runFrom s = (.ok b, u) ↔
      ∃ t, step.runFrom s = (.ok ⟨⟩, t) ∧ (next ⟨⟩).runFrom t = (.ok b, u) :=
  runFrom_bind_ok.trans ⟨fun ⟨_, h⟩ => h, fun h => ⟨_, h⟩⟩

end Attempt

end RelaxNg
