import RelaxNg.Proofs.Validation.Sessions
import RelaxNg.Proofs.Xml.Telling
import RelaxNg.Validation.IdentityValidator

/-!
# Validators of identities and of schemas

There are two ways to validate identities alone: with a validator that knows of nothing else, and with the validator of
a schema, without content to track. They begin alike (`IdentityValidation.bySchema_new`) and each step of the one is a
step of the other (`IdentityValidation.relates_turn`), so that they answer all turns and all documents alike and hold
the same context and the same tracker ever after (`IdentityValidation.session_eq`, `IdentityValidation.validateScan_eq`).
-/

namespace RelaxNg

open Attempt

namespace IdentityValidation

/-- The same validation by a schema, without content. -/
def bySchema (s : IdentityValidation) : SchemaValidation :=
  { context := s.context, content := none, identities := some s.tracker }

/-- A validation by a schema is the same as one of identities. -/
abbrev InStep (s : IdentityValidation) (u : SchemaValidation) : Prop := s.bySchema = u

theorem bySchema_new (schema : Schema) (receiver : Receiver) (source : Option String) :
    (new schema.identities schema.options.limits receiver source).bySchema =
      .newForIdentities schema receiver source := rfl

theorem relates_onContext (step : Attempt Context Unit) :
    Relates InStep (onContext step) (SchemaValidation.onContext step) := by
  rintro s _ rfl
  exact ⟨rfl, rfl⟩

theorem relates_onTracker (step : IdentityTracker.Tracking) :
    Relates InStep (onTracker step) (SchemaValidation.onIdentities step) := by
  rintro s _ rfl
  exact ⟨rfl, rfl⟩

/-- Without content nothing is tracked before the rest is done. -/
theorem relates_onContent_then {step : Step} {rest : SchemaValidation.Step} (tracking : ContentTracker.Tracking)
    (h : Relates InStep step rest) : Relates InStep step (SchemaValidation.onContent tracking >>= fun _ => rest) := by
  rintro s _ rfl
  exact h s _ rfl

theorem relates_handle (event : Event) :
    Relates InStep (handle event) (SchemaValidation.handle event) := by
  cases event with
  | startElement name written attributes =>
    exact (relates_onContext _).bind fun _ => relates_onContent_then _ (relates_onTracker _)
  | endElement name written =>
    refine Relates.bind (relates_modify ?_) fun _ => relates_onTracker _
    rintro s _ rfl
    rfl
  | text content =>
    refine relates_onContent_then _ (relates_modify ?_)
    rintro s _ rfl
    rfl
  | endDocument => exact relates_onTracker _
  | startDocument | declare | undeclare | space | entity => exact relates_pure _

theorem relates_turn (turn : Turn) :
    Relates InStep (identityValidator.turn turn) (schemaValidator.turn turn) := by
  cases turn with
  | reset =>
    refine relates_modify ?_
    rintro s _ rfl
    rfl
  | notice notice =>
    cases notice with
    | locate location =>
      refine relates_modify ?_
      rintro s _ rfl
      rfl
    | event event => exact relates_handle event

/-- Both validators answer any turns alike, and the states that they leave are the same again. -/
theorem session_eq (s : IdentityValidation) (turns : List Turn) :
    schemaValidator.session turns s.bySchema =
      ((identityValidator.session turns s).1, (identityValidator.session turns s).2.bySchema) := by
  obtain ⟨hanswers, hstate⟩ := Validator.session_relates relates_turn turns (rfl : s.bySchema = s.bySchema)
  exact (Prod.ext hanswers hstate).symm

/-- Both validators answer any scan of a document alike, and the states that they leave are the same again. -/
theorem validateScan_eq (s : IdentityValidation) (place : Nat → Location) (scan : Xml.Scan) :
    (Xml.Document.validateScan schemaValidator place scan).runFrom s.bySchema =
      (((Xml.Document.validateScan identityValidator place scan).runFrom s).1,
        ((Xml.Document.validateScan identityValidator place scan).runFrom s).2.bySchema) := by
  have hrelates : Relates InStep (Xml.Document.validateScan identityValidator place scan)
      (Xml.Document.validateScan schemaValidator place scan) := by
    refine Xml.Document.relates_validateScan ?_ relates_handle ?_ place scan
    · rintro location s _ rfl
      rfl
    · rintro s _ rfl
      rfl
  obtain ⟨hanswer, hstate⟩ := hrelates s _ rfl
  exact (Prod.ext hanswer hstate).symm

end IdentityValidation

end RelaxNg
