import RelaxNg.Proofs.Validation.Abreast
import RelaxNg.Proofs.Validation.Values

/-!
# Sessions

In a session a validator takes turns: it is given notices in any order, also after one of them failed, and is reset
between them as often as one likes (`Validator.session`). Two validators that answer each turn alike and stay related
answer a whole session alike and stay related (`Validator.session_relates`).
-/

namespace RelaxNg

open Attempt

/-! ## Turns -/

/-- What a validator is put through. -/
inductive Turn where
  | notice (notice : Notice)
  | reset

namespace Validator

variable {σ τ : Type}

def turn (v : Validator σ) : Turn → Attempt σ Unit
  | .notice notice => v.notice notice
  | .reset => modify v.reset

/-- Takes turns one after the other, also after one that fails: the answers to them, and the state that is left. -/
def session (v : Validator σ) : List Turn → σ → List (Except Error Unit) × σ
  | [], s => ([], s)
  | turn :: turns, s =>
    let (answer, s) := (v.turn turn).runFrom s
    let (answers, s) := v.session turns s
    (answer :: answers, s)

variable {v : Validator σ} {w : Validator τ} {R : σ → τ → Prop} {s : σ} {u : τ}

theorem session_relates (h : ∀ turn, Relates R (v.turn turn) (w.turn turn)) (turns : List Turn) (hs : R s u) :
    (v.session turns s).1 = (w.session turns u).1 ∧ R (v.session turns s).2 (w.session turns u).2 := by
  induction turns generalizing s u with
  | nil => exact ⟨rfl, hs⟩
  | cons turn turns ih =>
    obtain ⟨hanswer, hs⟩ := h turn s u hs
    obtain ⟨hanswers, hs⟩ := ih hs
    exact ⟨congrArg₂ List.cons hanswer hanswers, hs⟩

/-- What each of some turns keeps, a session of them keeps. -/
theorem session_keeps {P : σ → Prop} {turns : List Turn} (h : ∀ turn ∈ turns, Keeps P (v.turn turn)) (hs : P s) :
    P (v.session turns s).2 := by
  induction turns generalizing s with
  | nil => exact hs
  | cons turn turns ih =>
    rw [List.forall_mem_cons] at h
    exact ih h.2 (h.1 s hs)

end Validator

/-! ## Turns of a validation by a schema -/

/-- A relation of contexts that no turn breaks. -/
structure Context.Lasting (R : Context → Context → Prop) : Prop extends Context.Abreast R where
  answers (d : Diagnostic) : Relates R (Context.issue d) (Context.issue d)
  locate {c c'} (location : Option Location) (h : R c c') : R (c.locate location) (c'.locate location)
  reset {c c'} (h : R c c') : R c.reset c'.reset

namespace SchemaValidation

variable {R : Context → Context → Prop} {model : Option ContentModel} {types : Option IdentityMap}
  {s u : SchemaValidation}

theorem Together.reset (hreset : ∀ {c c'}, R c c' → R c.reset c'.reset) (hr : Together R model types s u) :
    Together R model types s.reset u.reset where
  context := hreset hr.context
  content := congrArg (Option.map ContentTracker.reset) hr.content
  identities := congrArg (Option.map IdentityTracker.reset) hr.identities
  model := (Option.map_map ..).trans hr.model
  types := (Option.map_map ..).trans hr.types

theorem relates_turn (h : Context.Lasting R) (turn : Turn) :
    Relates (Together R model types) (schemaValidator.turn turn) (schemaValidator.turn turn) := by
  cases turn with
  | reset => exact relates_modify fun _ _ => .reset h.reset
  | notice notice =>
    cases notice with
    | locate location => exact relates_modify fun _ _ hr => { hr with context := h.locate location hr.context }
    | event event => exact relates_handle h.toAbreast h.answers event

end SchemaValidation

/-! ## Elements with keys -/

/-- A schema in which an element `doc` holds elements `key`, each of which declares an identity. -/
def keysInDoc : Schema where
  grammar := {}
  start := ⟨3⟩
  identities := ⟨[], [(.plain "key", .id)]⟩
  contentModel := some
    { elements := [(⟨0⟩, ⟨.name (.plain "doc"), [⟨1⟩], [], false, none⟩),
        (⟨1⟩, ⟨.name (.plain "key"), [], [], true, none⟩)]
      start := [⟨0⟩] }
  options := {}

/-- The turns of an element without attributes that holds some text and then what other turns tell of. -/
def Turn.element (name text : String) (inside : List Turn) : List Turn :=
  .notice (.event (.startElement (.plain name) name [])) :: .notice (.event (.text text)) ::
    (inside ++ [.notice (.event (.endElement (.plain name) name))])

end RelaxNg
