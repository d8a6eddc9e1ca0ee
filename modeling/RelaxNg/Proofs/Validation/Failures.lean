import RelaxNg.Proofs.Validation.Errors
import RelaxNg.Proofs.Validation.Sessions
import RelaxNg.Proofs.Xml.Telling

/-!
# Failures are not silent

A validator of a schema knows of an error exactly if one was issued since it began or was reset, whatever the receiver
answers (`Context.Remembers`), and wherever an event fails an error was issued (`SchemaValidation.failsIn_handle`). So a
new validator accepts a document only without an error (`SchemaValidation.never_silent`).

Only a report can fail, and a limit that is passed is reported before it fails. A warning is issued in one place, where
an identity is declared again, and there the error stands before it.
-/

namespace RelaxNg

open Attempt

/-! ## Contexts -/

namespace Context

/-- There was an error. -/
abbrev Erred (c : Context) : Prop := c.hadError = true

/-- After some diagnostics a context knows exactly whether there was an error among the later ones. -/
def Remembers (earlier : Array Diagnostic) (c : Context) : Prop :=
  ∃ since, c.reports.issued = earlier ++ since ∧ (c.hadError = true ↔ ∃ d ∈ since, d.isError = true)

variable {earlier : Array Diagnostic} {d : Diagnostic}

theorem keeps_issue_remembers (d : Diagnostic) : Keeps (Remembers earlier) (issue d) := by
  rintro c ⟨since, hissued, hiff⟩
  refine ⟨since.push d, ?_, ?_⟩
  · change c.reports.issued.push d = earlier ++ since.push d
    rw [hissued, Array.append_push]
  · change (c.hadError || d.isError) = true ↔ _
    rw [Bool.or_eq_true, hiff]
    simp [or_and_right, exists_or]

/-- An error is remembered before the receiver answers. -/
theorem erred_issue (hd : d.isError = true) (c : Context) : Erred ((issue d).runFrom c).2 := by
  change (c.reports.hadError || d.isError) = true
  rw [hd, Bool.or_true]

theorem erred_errorAt (message : String) (location : Option Location) (c : Context) :
    Erred ((errorAt message location).runFrom c).2 := erred_issue rfl c

theorem erred_error (message : String) (c : Context) : Erred ((error message).runFrom c).2 := erred_issue rfl c

theorem erred_fatal (message : String) (c : Context) : Erred ((fatal message).runFrom c).2 := erred_issue rfl c

/-- A limit that is passed is reported. -/
theorem failsIn_enter (attributes : Nat) : FailsIn Erred (enter attributes) := by
  refine (failsIn_modify _).bind fun _ => failsIn_get_then fun c => ?_
  split
  · exact failsIn_pure _
  · next e _ => exact fun c => (ensures_state_iff.2 (erred_fatal e.message c)).bind fun _ _ => id

end Context

open Context (Erred Remembers)

/-! ## Identities -/

namespace IdentityTracker

theorem ensures_errorAt (message : String) (location : Option Location) (s : Context × IdentityTracker) :
    Ensures (onContext (Context.errorAt message location)) s (fun _ => Failed) Failed :=
  ensures_state_iff.2 (Context.erred_errorAt message location s.1)

theorem failsIn_errorAt (message : String) (location : Option Location) :
    FailsIn Failed (onContext (Context.errorAt message location)) :=
  failsIn_of_leaves fun s => ensures_state_iff.1 (ensures_errorAt message location s)

theorem failsIn_refer (identity : String) (location : Option Location) : FailsIn Failed (refer identity location) :=
  failsIn_modify _

theorem failsIn_declare (identity : String) (location : Option Location) :
    FailsIn Failed (declare identity location) := by
  refine failsIn_get_then fun s => ?_
  split
  · next first _ =>
    -- The warning may end validation as well, but the error was issued before.
    refine failsIn_of_leaves fun s => ensures_state_iff.1 ?_
    exact (ensures_errorAt _ location s).bind fun _ u hu => ensures_state_iff.2 (Context.keeps_issue _ u.1 hu)
  · exact failsIn_modify _

theorem failsIn_check (type : IdentityType) (value : String) (location : Option Location) :
    FailsIn Failed (check type value location) := by
  unfold check
  cases type with
  | id =>
    dsimp only
    split
    · exact failsIn_declare _ _
    · exact failsIn_errorAt _ _
  | idref =>
    dsimp only
    split
    · exact failsIn_refer _ _
    · exact failsIn_errorAt _ _
  | idrefs =>
    dsimp only
    split
    · exact failsIn_errorAt _ _
    · refine failsIn_forM fun word _ => ?_
      split
      · exact failsIn_refer _ _
      · exact failsIn_errorAt _ _

theorem failsIn_startElement (name : QName) (attributes : List Attribute) :
    FailsIn Failed (startElement name attributes) := by
  refine failsIn_get_then fun s => (failsIn_forM fun a _ => ?_).bind fun _ => failsIn_modify _
  split
  · exact failsIn_check _ _ _
  · exact failsIn_pure _

theorem failsIn_endElement : FailsIn Failed endElement := by
  refine failsIn_get_then fun s => (failsIn_modify _).bind fun _ => ?_
  split
  · exact failsIn_check _ _ _
  · exact failsIn_pure _

theorem failsIn_endDocument : FailsIn Failed endDocument := by
  refine failsIn_get_then fun s => failsIn_forM fun entry _ => ?_
  split
  · exact failsIn_pure _
  · exact failsIn_forM fun location _ => failsIn_errorAt _ location

end IdentityTracker

/-! ## Contents -/

namespace ContentTracker

/-- An error was reported. -/
abbrev Failed (s : Context × ContentTracker) : Prop := Erred s.1

theorem failsIn_complain (message : String) : FailsIn Failed (complain message) :=
  failsIn_onPart (fun _ _ => id) (failsIn_of_leaves (Context.erred_error message))

theorem failsIn_startElement (name : QName) (attributes : List Attribute) :
    FailsIn Failed (startElement name attributes) := by
  have hattributes (t : ContentTracker) (candidates : List ElementId) :
      FailsIn Failed (attributes.forM fun a =>
        unless t.allowsAttribute candidates a.name do
          complain ("attribute \"" ++ a.name.render ++ "\" not allowed on element \"" ++ name.render ++ "\"")) := by
    refine failsIn_forM fun a _ => ?_
    split
    · exact failsIn_pure _
    · exact failsIn_complain _
  refine failsIn_get_then fun s => ?_
  dsimp only
  split
  · refine (failsIn_complain _).bind fun _ => ?_
    split
    · exact failsIn_modify _
    · exact (hattributes _ _).bind fun _ => failsIn_modify _
  · split
    · exact failsIn_modify _
    · exact (hattributes _ _).bind fun _ => failsIn_modify _

theorem failsIn_text (content : String) : FailsIn Failed (text content) := by
  unfold text
  split
  · exact failsIn_pure _
  · refine failsIn_get_then fun s => ?_
    dsimp only
    split
    · exact failsIn_complain _
    · split
      · exact failsIn_pure _
      · exact (failsIn_modify _).bind fun _ => failsIn_complain _

end ContentTracker

/-! ## Validators -/

/-- Where a validator that once was `new` begins: there, or where a reset leaves it. -/
inductive Validator.Begins {σ : Type} (v : Validator σ) (new : σ) : σ → Prop
  | new : v.Begins new new
  | reset (history : List Turn) : v.Begins new (v.reset (v.session history new).2)

/-- A validator that once was `new` fails in nothing without knowing of an error. -/
structure Validator.NeverSilent {σ : Type} (v : Validator σ) (new : σ) (context : σ → Context) : Prop where
  /-- It knows of an error exactly if one was issued since it began. -/
  remembers : ∀ begun, v.Begins new begun → ∀ notices : List Notice,
    let s := (v.session (notices.map .notice) begun).2
    ∃ since, (context s).reports.issued = (context begun).reports.issued ++ since ∧
      (v.hadError s = true ↔ ∃ d ∈ since, d.isError = true)
  /-- It knows of an error wherever a notice fails. -/
  fails : ∀ turns notice e s, (v.notice notice).runFrom (v.session turns new).2 = (.error e, s) → v.hadError s = true
  /-- When it is new, its answer to a document is whether no error is issued on the way, however the document is
  scanned. -/
  answers : ∀ place scan valid s, (Xml.Document.validateScan v place scan).runFrom new = (.ok valid, s) →
    (valid = true ↔ ∀ d ∈ (context s).reports.issued, d.isError = false)

namespace SchemaValidation

variable {P : Context → Prop} {s : SchemaValidation}

/-- What is kept of a context whatever is issued and at every level, every event keeps. -/
theorem keeps_handle (hissue : ∀ d, Keeps P (Context.issue d)) (hlevel : ∀ c n, P c → P { c with level := n })
    (event : Event) : Keeps (fun s => P s.context) (handle event) := fun s hs =>
  (relates_handle (Context.abreast_itself hissue hlevel) (fun d => relates_self_iff.2 (hissue d)) event s s
    ⟨⟨rfl, hs⟩, rfl, rfl, rfl, rfl⟩).2.context.2

theorem keeps_handle_remembers (earlier : Array Diagnostic) (event : Event) :
    Keeps (fun s => Remembers earlier s.context) (handle event) :=
  keeps_handle Context.keeps_issue_remembers (fun _ _ => id) event

/-- An error was reported. -/
abbrev Failed (s : SchemaValidation) : Prop := Erred s.context

theorem failsIn_onContent {step : ContentTracker.Tracking} (h : FailsIn ContentTracker.Failed step) :
    FailsIn Failed (onContent step) := by
  rintro ⟨context, content, identities⟩
  cases content with
  | none => trivial
  | some t => exact (ensures_onContent rfl).2 ((h (context, t)).mono (fun _ _ _ => trivial) fun _ => id)

theorem ensures_onIdentities {step : IdentityTracker.Tracking} {t : IdentityTracker} (hs : s.identities = some t)
    {ok : Unit → SchemaValidation → Prop} {failed : SchemaValidation → Prop} :
    Ensures (onIdentities step) s ok failed ↔
      Ensures step (s.context, t) (fun a u => ok a { s with context := u.1, identities := some u.2 })
        fun u => failed { s with context := u.1, identities := some u.2 } := by
  obtain ⟨context, content, identities⟩ := s
  cases hs
  exact ensures_of_runFrom rfl

theorem failsIn_onIdentities {step : IdentityTracker.Tracking} (h : FailsIn IdentityTracker.Failed step) :
    FailsIn Failed (onIdentities step) := by
  rintro ⟨context, content, identities⟩
  cases identities with
  | none => trivial
  | some t =>
    exact (ensures_onIdentities rfl).2 ((h (context, t)).mono (fun _ _ _ => trivial) fun _ => id)

theorem failsIn_handle (event : Event) : FailsIn Failed (handle event) := by
  cases event with
  | startElement name written attributes =>
    have henter : FailsIn Failed (onContext (Context.enter attributes.length)) :=
      failsIn_onPart (fun _ _ => id) (Context.failsIn_enter _)
    refine henter.bind fun _ => (failsIn_onContent (ContentTracker.failsIn_startElement _ _)).bind fun _ => ?_
    exact failsIn_onIdentities (IdentityTracker.failsIn_startElement name attributes)
  | endElement name written =>
    exact (failsIn_modify _).bind fun _ => failsIn_onIdentities IdentityTracker.failsIn_endElement
  | text content => exact (failsIn_onContent (ContentTracker.failsIn_text content)).bind fun _ => failsIn_modify _
  | endDocument => exact failsIn_onIdentities IdentityTracker.failsIn_endDocument
  | startDocument | declare | undeclare | space | entity => exact failsIn_pure _

theorem failsIn_notice (notice : Notice) : FailsIn Failed (schemaValidator.notice notice) := by
  cases notice with
  | locate location => exact failsIn_modify _
  | event event => exact failsIn_handle event

theorem keeps_notice_remembers (earlier : Array Diagnostic) (notice : Notice) :
    Keeps (fun s => Remembers earlier s.context) (schemaValidator.notice notice) := by
  cases notice with
  | locate location => exact fun _ => id
  | event event => exact keeps_handle_remembers earlier event

theorem keeps_validateScan_remembers (earlier : Array Diagnostic) (place : Nat → Location) (scan : Xml.Scan) :
    Keeps (fun s => Remembers earlier s.context) (Xml.Document.validateScan schemaValidator place scan) :=
  Xml.Document.keeps_validateScan (fun _ _ => id) (keeps_handle_remembers earlier) _ _

/-- A validation is not silent if nothing was issued and no error is known at its beginning. -/
theorem neverSilent {new : SchemaValidation} (hissued : new.context.reports.issued = #[])
    (herror : new.context.hadError = false) : schemaValidator.NeverSilent new context := by
  have begins {c : Context} (h : c.hadError = false) : Remembers c.reports.issued c :=
    ⟨#[], by simp, by simp [h]⟩
  refine ⟨fun begun hbegun notices => ?_, fun turns notice e s hr => ?_, fun place scan valid s hr => ?_⟩
  · have hkept : Remembers begun.context.reports.issued begun.context := by
      cases hbegun with
      | new => exact begins herror
      | reset history => exact begins rfl
    refine Validator.session_keeps (P := fun s : SchemaValidation => Remembers _ s.context) (fun turn hturn => ?_) hkept
    obtain ⟨notice, -, rfl⟩ := List.mem_map.1 hturn
    exact keeps_notice_remembers _ notice
  · have h := failsIn_notice notice (schemaValidator.session turns new).2
    unfold Ensures at h
    rwa [hr] at h
  · have hanswer : valid = !s.context.hadError :=
      (Xml.Document.ensures_validateScan_answer schemaValidator _ _ new).of_runFrom hr
    have hkept : Remembers #[] s.context := by
      have h := keeps_validateScan_remembers #[] place scan new (hissued ▸ begins herror)
      rwa [hr] at h
    obtain ⟨since, hsince, hiff⟩ := hkept
    rw [Array.empty_append] at hsince
    subst hanswer hsince
    rw [Bool.not_eq_true', ← Bool.not_eq_true, hiff]
    simp

/-- No failure is silent, in a validation by a schema or of its identities alone, whatever the receiver answers. -/
theorem never_silent (schema : Schema) (receiver : Receiver) (source : Option String) :
    schemaValidator.NeverSilent (.new schema receiver source) context ∧
      schemaValidator.NeverSilent (.newForIdentities schema receiver source) context :=
  ⟨neverSilent rfl rfl, neverSilent rfl rfl⟩

end SchemaValidation

end RelaxNg
