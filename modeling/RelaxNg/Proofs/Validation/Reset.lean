import RelaxNg.Proofs.Validation.Sessions
import RelaxNg.Proofs.Xsd.Abreast

/-!
# Validators after a reset

A reset makes a validator as good as new, whatever it was put through before (`Validator.Renews`): the validators of a
schema, of its identities alone and of an XML Schema engine that answers a reset with a new session
(`reset_makes_new`). Before the reset, the diagnostics aside, a session changes nothing that a reset would not put
right (`Context.cleared`); after it the validation is abreast of a new one, behind the diagnostics of before
(`Context.Behind`), which a receiver that answers a diagnostic without regard to the earlier ones does not notice.
-/

namespace RelaxNg

open Attempt

/-- The answer to a diagnostic does not depend on the earlier ones. -/
def Receiver.Stateless (receiver : Receiver) : Prop := ∀ earlier d, receiver.answer earlier d = receiver.answer #[] d

/-- After a reset a validator that once was `new` goes on as if it still were. In every session it gives the same
answers, tells alike whether there was an error and what may come next, and issues the same diagnostics, behind those of
before. -/
def Validator.Renews {σ : Type} (v : Validator σ) (new : σ) (context : σ → Context)
    (content : σ → Option ContentTracker) : Prop :=
  ∀ history future : List Turn,
    let before := (v.session history new).2
    let again := v.session future (v.reset before)
    let anew := v.session future new
    again.1 = anew.1 ∧ v.hadError again.2 = v.hadError anew.2 ∧ content again.2 = content anew.2 ∧
      (context again.2).reports.issued = (context before).reports.issued ++ (context anew.2).reports.issued

/-! ## Contexts -/

namespace Context

/-- The context as a reset leaves it, the issued diagnostics forgotten. -/
def cleared (c : Context) : Context := { c.reset with reports := c.reports.reset.forget }

/-- A context is another one behind some earlier diagnostics. -/
structure Behind (earlier : Array Diagnostic) (c c' : Context) : Prop where
  eq : c = { c' with reports := { c'.reports with issued := earlier ++ c'.reports.issued } }
  stateless : c'.reports.receiver.Stateless

variable {earlier : Array Diagnostic} {new c c' : Context}

theorem lasting_cleared (new : Context) : Lasting (Itself fun c => c.cleared = new) where
  toAbreast := abreast_itself (fun _ _ h => h) fun _ _ h => h
  answers _ := relates_self_iff.2 fun _ h => h
  locate _ h := ⟨by rw [h.1], h.2⟩
  reset h := ⟨by rw [h.1], h.2⟩

theorem relates_issue_behind (d : Diagnostic) : Relates (Behind earlier) (issue d) (issue d) := by
  rintro _ c ⟨rfl, hstateless⟩
  refine ⟨?_, ?_, hstateless⟩
  · change c.reports.receiver.answer _ d = c.reports.receiver.answer _ d
    rw [hstateless, hstateless c.reports.issued]
  · have hpush : (earlier ++ c.reports.issued).push d = earlier ++ c.reports.issued.push d := Array.push_append ..
    exact congrArg (fun issued => { c with reports := { c.reports.push d with issued } }) hpush

theorem lasting_behind (earlier : Array Diagnostic) : Lasting (Behind earlier) where
  location h := by rw [h.eq]
  level h := by rw [h.eq]
  limits h := by rw [h.eq]
  issue _ := relates_issue_behind _
  atLevel n h := ⟨by rw [h.eq], h.stateless⟩
  answers := relates_issue_behind
  locate location h := ⟨by rw [h.eq]; rfl, h.stateless⟩
  reset h := ⟨by rw [h.eq]; rfl, h.stateless⟩

theorem Behind.hadError (h : Behind earlier c c') : c.hadError = c'.hadError := by
  rw [h.eq]
  rfl

theorem Behind.issued (h : Behind earlier c c') : c.reports.issued = earlier ++ c'.reports.issued := by rw [h.eq]

/-- A context that only has to be cleared to be new is new behind its diagnostics after a reset. -/
theorem behind_reset (hc : c.cleared = new) (hstateless : new.reports.receiver.Stateless) :
    Behind c.reports.issued c.reset new := by
  subst hc
  exact ⟨by simp [cleared, reset, Reports.reset, Reports.forget], hstateless⟩

end Context

open Context (Itself Behind)

/-- Where a relation of contexts that lasts makes validations related that last (`T`), a reset renews a validator if it
puts right all but the context. -/
theorem Validator.renews_of_lasting {σ : Type} {v : Validator σ} {new : σ} {context : σ → Context}
    {content : σ → Option ContentTracker} (T : (Context → Context → Prop) → σ → σ → Prop)
    (hturn : ∀ {R}, Context.Lasting R → ∀ turn, Relates (T R) (v.turn turn) (v.turn turn))
    (hcontext : ∀ {R s u}, T R s u → R (context s) (context u)) (hcontent : ∀ {R s u}, T R s u → content s = content u)
    (herror : ∀ s, v.hadError s = (context s).hadError) (hstateless : (context new).reports.receiver.Stateless)
    (hnew : T (Itself fun c => c.cleared = context new) new new)
    (hreset : ∀ {R s}, T (Itself fun c => c.cleared = context new) s s →
      R (context s).reset (context new) → T R (v.reset s) new) :
    v.Renews new context content := by
  intro history future before again anew
  have hbefore : T (Itself fun c => c.cleared = context new) before before := by
    have hkept := Validator.session_relates (hturn (Context.lasting_cleared (context new))) history hnew
    exact hkept.2
  have hbehind := Context.behind_reset (hcontext hbefore).2 hstateless
  obtain ⟨hanswers, hr⟩ := Validator.session_relates
    (hturn (Context.lasting_behind (context before).reports.issued)) future (hreset hbefore hbehind)
  refine ⟨hanswers, ?_, hcontent hr, (hcontext hr).issued⟩
  rw [herror, herror]
  exact (hcontext hr).hadError

/-! ## Validations by a schema -/

namespace SchemaValidation

variable {model : Option ContentModel} {types : Option IdentityMap} {c : Context} {s : SchemaValidation}

/-- A validation whose trackers have met nothing. -/
def fresh (context : Context) (model : Option ContentModel) (types : Option IdentityMap) : SchemaValidation :=
  { context, content := model.map fun model => { model }, identities := types.map fun types => { types } }

theorem new_eq_fresh (schema : Schema) (receiver : Receiver) (source : Option String) :
    new schema receiver source = fresh (.new receiver schema.options.limits source) schema.contentModel
      (if schema.identities.isEmpty then none else some schema.identities) := by
  unfold new fresh
  split <;> rfl

theorem fresh_together {R : Context → Context → Prop} {c' : Context} (hc : R c c') :
    Together R model types (fresh c model types) (fresh c' model types) where
  context := hc
  content := rfl
  identities := rfl
  model := by cases model <;> rfl
  types := by cases types <;> rfl

theorem reset_eq_fresh (hmodel : s.content.map ContentTracker.model = model)
    (htypes : s.identities.map IdentityTracker.types = types) : s.reset = fresh s.context.reset model types := by
  subst hmodel
  subst htypes
  simp only [fresh, Option.map_map]
  rfl

theorem fresh_renews (hc : c.cleared = c) (hstateless : c.reports.receiver.Stateless) (model : Option ContentModel)
    (types : Option IdentityMap) : schemaValidator.Renews (fresh c model types) context content := by
  refine Validator.renews_of_lasting (fun R => Together R model types) relates_turn (fun hr => hr.context)
    (fun hr => hr.content) (fun _ => rfl) hstateless (fresh_together ⟨rfl, hc⟩) ?_
  intro R s hs hr
  change Together R model types s.reset _
  rw [reset_eq_fresh hs.model hs.types]
  exact fresh_together hr

end SchemaValidation

/-! ## Validations by an engine -/

namespace Xsd.Validation

variable {ς : Type} {engine : Engine ς} {R : Context → Context → Prop}

theorem relates_turn (h : Context.Lasting R) (turn : Turn) :
    Relates (Together R fun s : ς => s) ((validator engine).turn turn) ((validator engine).turn turn) := by
  cases turn with
  | reset =>
    exact relates_modify fun s u hr => ⟨h.reset hr.context, rfl, rfl, rfl, congrArg engine.reset hr.session⟩
  | notice notice =>
    cases notice with
    | locate location => exact relates_modify fun s u hr => { hr with context := h.locate location hr.context }
    | event event => exact relates_handle h.answers h.toAbreast engine.seenAs_self event

/-- An engine whose sessions a reset makes new has validators that a reset makes new. -/
theorem new_renews (hengine : ∀ s, engine.reset s = engine.start {}) {receiver : Receiver}
    (hstateless : receiver.Stateless) (limits : Limits) (source : Option String) :
    (validator engine).Renews (new engine receiver limits source) context fun _ => none := by
  refine Validator.renews_of_lasting (fun R => Together R fun s : ς => s) relates_turn (fun hr => hr.context)
    (fun _ => rfl) (fun _ => rfl) hstateless ⟨⟨rfl, rfl⟩, rfl, rfl, rfl, rfl⟩ ?_
  intro R s _ hr
  exact ⟨hr, rfl, rfl, rfl, hengine _⟩

end Xsd.Validation

/-! ## All validators -/

/-- Every validator is as good as new after a reset: that of a schema, that of its identities alone, and that of an
engine which answers a reset with a new session. -/
theorem reset_makes_new {ς : Type} (schema : Schema) (engine : Xsd.Engine ς)
    (hengine : ∀ s, engine.reset s = engine.start {}) (receiver : Receiver) (hstateless : receiver.Stateless)
    (limits : Limits) (source : Option String) :
    schemaValidator.Renews (.new schema receiver source) SchemaValidation.context SchemaValidation.content ∧
      schemaValidator.Renews (.newForIdentities schema receiver source) SchemaValidation.context
        SchemaValidation.content ∧
      (Xsd.validator engine).Renews (.new engine receiver limits source) Xsd.Validation.context fun _ => none := by
  refine ⟨?_, ?_, Xsd.Validation.new_renews hengine hstateless limits source⟩
  · rw [SchemaValidation.new_eq_fresh]
    exact SchemaValidation.fresh_renews rfl hstateless _ _
  · exact SchemaValidation.fresh_renews rfl hstateless none (some schema.identities)

/-- An engine whose sessions report every call but the first. -/
def Xsd.counting : Xsd.Engine Nat where
  start _ := 0
  answer _ env n :=
    if n = 0 then .done (.ok ()) 1
    else .report ⟨.error, "another call", env.location⟩ fun answer => .done answer (n + 1)
  reset _ := 0

/-- The statement where a document is broken off in an element that is not allowed: the key that was given in it can be
given again after the reset. -/
theorem reset_makes_new_keysInDoc :
    let history := .notice (.event (.startElement (.plain "doc") "doc" [])) :: (Turn.element "key" "a" [] ++
      [.notice (.event (.startElement (.plain "f") "f" []))])
    let future := Turn.element "doc" "" (Turn.element "key" "a" [])
    let before := (schemaValidator.session history (.new keysInDoc .collecting none)).2
    let again := (schemaValidator.session future (schemaValidator.reset before)).2
    let events := (Xsd.validator Xsd.counting).session future
    (∀ s, Xsd.counting.reset s = Xsd.counting.start {}) ∧ Receiver.collecting.Stateless ∧
      before.context.level = 2 ∧ before.context.hadError = true ∧
      again.context.hadError = false ∧ again.context.reports.issued = before.context.reports.issued ∧
      (events (Xsd.Validation.reset Xsd.counting (events (.new Xsd.counting .collecting {} none)).2)).1 =
        (events (.new Xsd.counting .collecting {} none)).1 := by
  intro history future before again events
  obtain ⟨hschema, -, hengine⟩ := reset_makes_new keysInDoc Xsd.counting (fun _ => rfl) .collecting (fun _ _ => rfl) {} none
  obtain ⟨-, herror, -, hissued⟩ := hschema history future
  refine ⟨fun _ => rfl, fun _ _ => rfl, by decide +kernel, by decide +kernel, herror.trans (by decide +kernel), ?_,
    (hengine future future).1⟩
  have hnothing : (schemaValidator.session future (.new keysInDoc .collecting none)).2.context.reports.issued = #[] := by
    decide +kernel
  rw [hnothing, Array.append_empty] at hissued
  exact hissued

end RelaxNg
