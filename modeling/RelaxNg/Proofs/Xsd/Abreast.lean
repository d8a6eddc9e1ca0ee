import RelaxNg.Proofs.Validation.Abreast
import RelaxNg.Xsd.Validator

/-!
# Validations by an engine abreast

Two validations by engines whose sessions answer alike (`Engine.SeenAs`), in contexts that are kept abreast, answer
every event alike and stay so (`Validation.relates_handle`). The sessions may be of different kinds, as long as a view
of the one is the other; the scopes, the entities and the scope that waits for its element are the same.
-/

namespace RelaxNg

open Attempt

namespace Xsd

variable {ς τ : Type}

/-! ## Dialogues -/

/-- The dialogue with other states of the session. -/
def Dialogue.map (f : ς → τ) : Dialogue ς → Dialogue τ
  | done answer state => done answer (f state)
  | report d next => report d fun answer => (next answer).map f

theorem Dialogue.map_map {υ : Type} (f : ς → τ) (g : τ → υ) (dialogue : Dialogue ς) :
    (dialogue.map f).map g = dialogue.map fun state => g (f state) := by
  induction dialogue with
  | done answer state => rfl
  | report d next ih => exact congrArg (report d) (funext ih)

theorem Dialogue.map_self (dialogue : Dialogue ς) : (dialogue.map fun state => state) = dialogue := by
  induction dialogue with
  | done answer state => rfl
  | report d next ih => exact congrArg (report d) (funext ih)

/-- A dialogue that is held in related contexts ends alike, and they stay related. -/
theorem Dialogue.hold_relates {R : Context → Context → Prop} (h : ∀ d, Relates R (Context.issue d) (Context.issue d))
    (f : ς → τ) (dialogue : Dialogue ς) {c c' : Context} (hc : R c c') :
    (dialogue.hold c.reports).1 = ((dialogue.map f).hold c'.reports).1 ∧
      f (dialogue.hold c.reports).2.1 = ((dialogue.map f).hold c'.reports).2.1 ∧
      R { c with reports := (dialogue.hold c.reports).2.2 }
        { c' with reports := ((dialogue.map f).hold c'.reports).2.2 } := by
  induction dialogue generalizing c c' with
  | done answer state => exact ⟨rfl, rfl, hc⟩
  | report d next ih =>
    obtain ⟨hanswer, hc⟩ := h d c c' hc
    have hnext : ((Reports.issue d).runFrom c'.reports).1 = ((Reports.issue d).runFrom c.reports).1 := hanswer.symm
    simp only [map, hold, hnext]
    exact ih _ hc

/-- Through a view of its states, an engine answers as another one does. -/
def Engine.SeenAs (engine : Engine ς) (f : ς → τ) (engine' : Engine τ) : Prop :=
  ∀ call env s, engine'.answer call env (f s) = (engine.answer call env s).map f

theorem Engine.seenAs_self (engine : Engine ς) : engine.SeenAs (fun s => s) engine := fun _ _ _ => (Dialogue.map_self _).symm

/-! ## Validations -/

namespace Validation

/-- The same but for the sessions, one of which is a view of the other, in related contexts. -/
structure Together (R : Context → Context → Prop) (f : ς → τ) (s : Validation ς) (u : Validation τ) : Prop where
  context : R s.context u.context
  scopes : s.scopes = u.scopes
  scopeOpened : s.scopeOpened = u.scopeOpened
  entities : s.entities = u.entities
  session : f s.session = u.session

variable {R : Context → Context → Prop} {f : ς → τ} {engine : Engine ς} {engine' : Engine τ} {s : Validation ς}
  {u : Validation τ}

theorem relates_onContext {step : Attempt Context Unit} (h : Relates R step step) :
    Relates (Together R f) (onContext step) (onContext step) := by
  intro s u hr
  obtain ⟨ha, ht⟩ := h s.context u.context hr.context
  exact ⟨ha, { hr with context := ht }⟩

theorem Together.openScope (hr : Together R f s u) : Together R f s.openScope u.openScope := by
  unfold Validation.openScope
  rw [hr.scopeOpened, hr.scopes]
  split
  · exact hr
  · exact { hr with scopes := rfl, scopeOpened := rfl }

variable (hall : ∀ d, Relates R (Context.issue d) (Context.issue d)) (h : Context.Abreast R)
  (hengine : engine.SeenAs f engine')

include hall h hengine in
theorem relates_tell (call : Call) : Relates (Together R f) (tell engine call) (tell engine' call) := by
  intro s u hr
  have hseen : engine'.answer call u.environment u.session =
      (engine.answer call s.environment s.session).map f := by
    rw [← hengine, hr.session]
    simp only [environment, hr.scopes, hr.entities, h.location hr.context]
  obtain ⟨hanswer, hsession, hcontext⟩ :=
    (engine.answer call s.environment s.session).hold_relates hall f hr.context
  rw [← hseen] at hanswer hsession hcontext
  exact ⟨hanswer, hcontext, hr.scopes, hr.scopeOpened, hr.entities, hsession⟩

include hall h hengine in
theorem relates_handle (event : Event) : Relates (Together R f) (handle engine event) (handle engine' event) := by
  cases event with
  | startDocument | endDocument | text content | space content => exact relates_tell hall h hengine _
  | undeclare label => exact relates_pure _
  | declare label ns =>
    refine relates_modify fun s u hr => ?_
    exact { hr.openScope with scopes := congrArg (·.declare label ns) hr.openScope.scopes }
  | entity entity =>
    refine relates_modify fun s u hr => ?_
    rw [hr.entities]
    split
    · exact hr
    · exact { hr with entities := rfl }
  | startElement name written attributes =>
    refine Relates.bind (relates_onContext (h.enter _)) fun _ => ?_
    refine Relates.bind (relates_modify fun s u hr => ?_) fun _ => relates_get_then fun s u hr => ?_
    · exact { hr.openScope with scopeOpened := rfl }
    · rw [hr.scopes]
      exact relates_tell hall h hengine _
  | endElement name written =>
    refine Relates.bind (relates_modify fun s u hr => ?_) fun _ => relates_get_then fun s u hr => ?_
    · exact { hr with context := h.leave hr.context }
    · rw [hr.scopes]
      intro s u hr
      obtain ⟨hanswer, hr⟩ := relates_tell hall h hengine (.endElement (.of name written _)) s u hr
      exact ⟨hanswer, { hr with scopes := congrArg Xml.Scopes.pop hr.scopes }⟩

end Validation

end Xsd

end RelaxNg
