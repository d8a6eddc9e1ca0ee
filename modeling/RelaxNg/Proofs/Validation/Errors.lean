import RelaxNg.Proofs.Validation.Abreast

/-!
# Errors are not forgotten

Whatever a validation of a schema is told, it does not forget that an error was reported, and its content tracker keeps
its model and knows how many elements are open (`SchemaValidation.Tracks`). Each event has its lemma; that of the start
of an element says besides that a root with a name that the model does not begin with is an error
(`SchemaValidation.ensures_handle_startElement`).
-/

namespace RelaxNg

open Attempt

/-! ## Reports -/

theorem Reports.keeps_issue (d : Diagnostic) : Keeps (fun r => r.hadError = true) (Reports.issue d) := by
  intro r h
  change (r.hadError || d.isError) = true
  rw [h, Bool.true_or]

namespace Context

theorem keeps_issue (d : Diagnostic) : Keeps (fun c => c.hadError = true) (issue d) :=
  keeps_onPart (fun _ _ => rfl) (Reports.keeps_issue d)

theorem keeps_error (message : String) : Keeps (fun c => c.hadError = true) (error message) :=
  keeps_get_then fun _ => keeps_issue _

/-- That an error was reported is kept by all that is told. -/
theorem abreast_hadError : Abreast (Itself fun c => c.hadError = true) := abreast_itself keeps_issue fun _ _ => id

theorem keeps_enter (attributes : Nat) : Keeps (fun c => c.hadError = true) (enter attributes) :=
  relates_self_iff.1 (abreast_hadError.enter attributes)

end Context

/-! ## Identities -/

namespace IdentityTracker

/-- An error was reported. -/
abbrev Failed (s : Context × IdentityTracker) : Prop := s.1.hadError = true

theorem keeps_startElement (name : QName) (attributes : List Attribute) :
    Keeps Failed (startElement name attributes) :=
  keeps_of_relates fun _ => relates_startElement Context.abreast_hadError name attributes

theorem keeps_endElement : Keeps Failed endElement := keeps_of_relates fun _ => relates_endElement Context.abreast_hadError

theorem keeps_endDocument : Keeps Failed endDocument :=
  keeps_of_relates fun _ => relates_endDocument Context.abreast_hadError

end IdentityTracker

/-! ## Contents -/

namespace ContentTracker

variable {name : QName} {attributes : List Attribute} {s : Context × ContentTracker}

/-- A report leaves the tracker alone and no error is forgotten. -/
theorem keeps_complain {p : Prop} {Q : ContentTracker → Prop} (message : String) :
    Keeps (fun s => (p → s.1.hadError = true) ∧ Q s.2) (complain message) :=
  fun s h => ⟨fun hp => Context.keeps_error message s.1 (h.1 hp), h.2⟩

theorem ensures_complain {Q : ContentTracker → Prop} (message : String) (hs : Q s.2) :
    Ensures (complain message) s (fun _ s' => s'.1.hadError = true ∧ Q s'.2) fun s' => s'.1.hadError = true ∧ Q s'.2 :=
  ensures_state_iff.2 ⟨Bool.or_true _, hs⟩

/-- The tracker in an element, of which it knows what it may be as far as anything is known. -/
def entered (t : ContentTracker) (name : QName) : ContentTracker :=
  { t with frames := ⟨name, (t.candidates? name).getD [], false⟩ :: t.frames }

/-- At the root a tracker knows what its model begins with. -/
theorem candidates?_of_depth_zero {t : ContentTracker} (h : t.depth = 0) (name : QName) :
    t.candidates? name = some (t.model.matching t.model.start name) := by
  have hframes : t.frames = [] := List.eq_nil_of_length_eq_zero h
  rw [candidates?, allowed?, hframes]
  rfl

/-- An element is entered, and that nothing allows it is an error. -/
theorem ensures_startElement (name : QName) (attributes : List Attribute) (s : Context × ContentTracker) :
    Ensures (startElement name attributes) s
      (fun _ s' => (s.1.hadError = true ∨ s.2.candidates? name = some [] → s'.1.hadError = true) ∧
        s'.2 = s.2.entered name)
      fun _ => True := by
  obtain ⟨c, t⟩ := s
  unfold startElement
  refine ensures_get_then.2 ?_
  dsimp only
  by_cases hnone : t.candidates? name = some []
  · -- The element is reported and entered all the same, with nothing known of it.
    rw [if_pos hnone, if_pos (by rw [hnone]; rfl)]
    refine (ensures_complain (Q := (· = t)) (t.refusal name) rfl).on_ok.bind ?_
    rintro _ s ⟨herror, rfl⟩
    exact ⟨fun _ => herror, rfl⟩
  · rw [if_neg hnone]
    have hattributes : Keeps (fun s : Context × ContentTracker => (c.hadError = true → s.1.hadError = true) ∧ s.2 = t)
        (attributes.forM fun a =>
          unless t.allowsAttribute ((t.candidates? name).getD []) a.name do
            complain ("attribute \"" ++ a.name.render ++ "\" not allowed on element \"" ++ name.render ++ "\"")) := by
      refine keeps_forM fun a _ => ?_
      split
      · exact keeps_pure _
      · exact keeps_complain (Q := (· = t)) _
    split
    · exact ⟨fun h => h.resolve_right hnone, rfl⟩
    · refine (hattributes.ensures (s := (c, t)) ⟨id, rfl⟩).on_ok.bind ?_
      rintro _ s ⟨herror, rfl⟩
      exact ⟨fun h => herror (h.resolve_right hnone), rfl⟩

/-- Text changes neither the model nor the number of open elements. -/
theorem ensures_text (content : String) (s : Context × ContentTracker) :
    Ensures (text content) s
      (fun _ s' => (s.1.hadError = true → s'.1.hadError = true) ∧ s'.2.model = s.2.model ∧ s'.2.depth = s.2.depth)
      fun _ => True := by
  obtain ⟨c, t⟩ := s
  have hcomplain (message : String) (t' : ContentTracker) (hmodel : t'.model = t.model) (hdepth : t'.depth = t.depth) :
      Ensures (complain message) (c, t')
        (fun _ s' => (c.hadError = true → s'.1.hadError = true) ∧ s'.2.model = t.model ∧ s'.2.depth = t.depth)
        fun _ => True := by
    refine (ensures_complain (Q := (· = t')) message rfl).mono ?_ fun _ _ => trivial
    rintro _ s ⟨herror, rfl⟩
    exact ⟨fun _ => herror, hmodel, hdepth⟩
  unfold text
  split
  · exact ⟨id, rfl, rfl⟩
  · refine ensures_get_then.2 ?_
    dsimp only
    split
    · exact hcomplain _ t rfl rfl
    · next frame outer hframes =>
      split
      · exact ⟨id, rfl, rfl⟩
      · exact hcomplain _ _ rfl (by simp [depth, hframes])

end ContentTracker

/-! ## Validations -/

namespace SchemaValidation

/-- The content is tracked by a model, in a number of open elements. -/
def Tracks (model : ContentModel) (n : Nat) (s : SchemaValidation) : Prop :=
  ∃ t, s.content = some t ∧ t.model = model ∧ t.depth = n

variable {model : ContentModel} {n : Nat} {s : SchemaValidation} {p : Prop} {Q : Option ContentTracker → Prop}

theorem keeps_onContext {step : Attempt Context Unit} (h : Keeps (fun c => c.hadError = true) step) :
    Keeps (fun s => (p → s.context.hadError = true) ∧ Q s.content) (onContext step) :=
  fun s hs => ⟨fun hp => h s.context (hs.1 hp), hs.2⟩

theorem keeps_onIdentities {step : IdentityTracker.Tracking} (h : Keeps IdentityTracker.Failed step) :
    Keeps (fun s => (p → s.context.hadError = true) ∧ Q s.content) (onIdentities step) := by
  intro s hs
  obtain ⟨context, content, identities⟩ := s
  cases identities with
  | none => exact hs
  | some t => exact ⟨fun hp => h (context, t) (hs.1 hp), hs.2⟩

theorem ensures_onContent {step : ContentTracker.Tracking} {t : ContentTracker} (hs : s.content = some t)
    {ok : Unit → SchemaValidation → Prop} {failed : SchemaValidation → Prop} :
    Ensures (onContent step) s ok failed ↔
      Ensures step (s.context, t) (fun a u => ok a { s with context := u.1, content := some u.2 })
        fun u => failed { s with context := u.1, content := some u.2 } := by
  obtain ⟨context, content, identities⟩ := s
  cases hs
  exact ensures_of_runFrom rfl

/-- An element is entered, and a root that the model does not begin with is an error. -/
theorem ensures_handle_startElement (hs : s.Tracks model n) (name : QName) (written : String)
    (attributes : List Attribute) :
    Ensures (handle (.startElement name written attributes)) s
      (fun _ s' => s'.Tracks model (n + 1) ∧
        (s.context.hadError = true ∨ n = 0 ∧ model.matching model.start name = [] → s'.context.hadError = true))
      fun _ => True := by
  obtain ⟨t, ht, rfl, rfl⟩ := hs
  have henter := (keeps_onContext (p := s.context.hadError = true) (Q := (· = some t))
    (Context.keeps_enter attributes.length)).ensures ⟨id, ht⟩
  refine henter.on_ok.bind ?_
  rintro _ s₁ ⟨herror₁, ht₁⟩
  have hcontent : Ensures (onContent (ContentTracker.startElement name attributes)) s₁
      (fun _ s₂ => (s.context.hadError = true ∨ t.candidates? name = some [] → s₂.context.hadError = true) ∧
        s₂.content = some (t.entered name)) fun _ => True := by
    refine (ensures_onContent ht₁).2 ((ContentTracker.ensures_startElement name attributes _).mono ?_ fun _ => id)
    rintro _ s₂ ⟨herror₂, ht₂⟩
    exact ⟨fun h => herror₂ (h.imp_left herror₁), congrArg some ht₂⟩
  refine hcontent.bind fun _ s₂ h₂ => ?_
  have hidentities := (keeps_onIdentities (Q := (· = some (t.entered name)))
    (IdentityTracker.keeps_startElement name attributes)).ensures h₂
  refine hidentities.mono ?_ fun _ _ => trivial
  rintro _ s₃ ⟨herror₃, ht₃⟩
  refine ⟨⟨_, ht₃, rfl, rfl⟩, fun h => herror₃ (h.imp_right ?_)⟩
  rintro ⟨hdepth, hnone⟩
  rw [t.candidates?_of_depth_zero hdepth, hnone]

theorem ensures_handle_endElement (hs : s.Tracks model n) (name : QName) (written : String) :
    Ensures (handle (.endElement name written)) s
      (fun _ s' => s'.Tracks model (n - 1) ∧ (s.context.hadError = true → s'.context.hadError = true))
      fun _ => True := by
  obtain ⟨t, ht, rfl, rfl⟩ := hs
  refine ensures_modify_then.2 ?_
  have hleft : s.content.map ContentTracker.endElement = some t.endElement := by
    rw [ht]
    rfl
  have hidentities := (keeps_onIdentities (p := s.context.hadError = true) (Q := (· = some t.endElement))
    IdentityTracker.keeps_endElement).ensures
    (s := { s with context := s.context.leave, content := s.content.map ContentTracker.endElement }) ⟨id, hleft⟩
  refine hidentities.mono ?_ fun _ _ => trivial
  rintro _ s' ⟨herror, ht'⟩
  exact ⟨⟨_, ht', rfl, List.length_tail⟩, herror⟩

/-- What is told beside the elements. -/
theorem ensures_handle_aside (hs : s.Tracks model n) {event : Event}
    (hstart : ∀ name written attributes, event ≠ .startElement name written attributes)
    (hend : ∀ name written, event ≠ .endElement name written) :
    Ensures (handle event) s
      (fun _ s' => s'.Tracks model n ∧ (s.context.hadError = true → s'.context.hadError = true)) fun _ => True := by
  cases event with
  | startElement name written attributes => exact absurd rfl (hstart name written attributes)
  | endElement name written => exact absurd rfl (hend name written)
  | startDocument | declare | undeclare | space | entity => exact ⟨hs, id⟩
  | endDocument =>
    obtain ⟨t, ht, hmodel, hdepth⟩ := hs
    have hidentities := (keeps_onIdentities (p := s.context.hadError = true) (Q := (· = some t))
      IdentityTracker.keeps_endDocument).ensures ⟨id, ht⟩
    refine hidentities.mono ?_ fun _ _ => trivial
    rintro _ s' ⟨herror, ht'⟩
    exact ⟨⟨t, ht', hmodel, hdepth⟩, herror⟩
  | text content =>
    obtain ⟨t, ht, rfl, rfl⟩ := hs
    have htext : Ensures (onContent (ContentTracker.text content)) s
        (fun _ s' => s'.Tracks t.model t.depth ∧ (s.context.hadError = true → s'.context.hadError = true))
        fun _ => True := by
      refine (ensures_onContent ht).2 ((ContentTracker.ensures_text content _).mono ?_ fun _ => id)
      rintro _ u ⟨herror, hmodel, hdepth⟩
      exact ⟨⟨_, rfl, hmodel, hdepth⟩, herror⟩
    exact htext.bind fun _ _ => id

end SchemaValidation

end RelaxNg
