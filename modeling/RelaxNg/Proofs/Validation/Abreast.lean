import RelaxNg.Proofs.Attempt
import RelaxNg.Validation.SchemaValidator

/-!
# Validations abreast

What a validation does depends on its context only through the location, the level, the limits and the answers to its
reports. A relation of contexts that leaves those alike (`Context.Abreast`) is therefore one that no event breaks: two
validations with the same trackers, in related contexts, give the same answers and stay related
(`SchemaValidation.relates_handle`). The content tracker alone issues complaints (`Diagnostic.isComplaint`), and it is
the only one that depends on the answers to them. Related to itself, a context has a property that no event takes away
(`IdentityTracker.keeps_of_relates`).
-/

namespace RelaxNg

open Attempt

/-! ## Complaints -/

/-- How the messages of a content tracker begin. -/
def complaintForms : List String := ["undeclared root element \"", "element \"", "attribute \"", "text not allowed "]

/-- Whether a diagnostic is one of a content tracker. -/
def Diagnostic.isComplaint (d : Diagnostic) : Bool :=
  d.severity == .error && complaintForms.any fun form => form.toList.isPrefixOf d.message.toList

/-! ## Contexts -/

namespace Context

/-- Contexts with a property, each related to itself. -/
def Itself (P : Context → Prop) (c c' : Context) : Prop := c = c' ∧ P c

/-- A relation that leaves alike what a validation reads of its context, and that no report breaks but a complaint. -/
structure Abreast (R : Context → Context → Prop) : Prop where
  location {c c'} (h : R c c') : c.location = c'.location
  level {c c'} (h : R c c') : c.level = c'.level
  limits {c c'} (h : R c c') : c.limits = c'.limits
  issue {d} (hd : d.isComplaint = false) : Relates R (issue d) (issue d)
  atLevel {c c'} (n : Nat) (h : R c c') : R { c with level := n } { c' with level := n }

variable {R : Context → Context → Prop}

theorem Abreast.errorAt (h : Abreast R) {message : String} (location : Option Location)
    (hm : (complaintForms.any fun form => form.toList.isPrefixOf message.toList) = false) :
    Relates R (errorAt message location) (errorAt message location) := h.issue hm

theorem Abreast.warningAt (h : Abreast R) (message : String) (location : Option Location) :
    Relates R (warningAt message location) (warningAt message location) := h.issue rfl

theorem Abreast.fatal (h : Abreast R) (message : String) : Relates R (fatal message) (fatal message) :=
  relates_get_then fun c c' hr => by
    rw [h.location hr]
    exact h.issue rfl

theorem Abreast.enter (h : Abreast R) (attributes : Nat) : Relates R (enter attributes) (enter attributes) := by
  unfold Context.enter
  refine Relates.bind (relates_modify fun c c' hr => ?_) fun _ => relates_get_then fun c c' hr => ?_
  · rw [h.level hr]
    exact h.atLevel _ hr
  · rw [h.limits hr, h.level hr]
    split
    · exact relates_pure _
    · exact (h.fatal _).bind fun _ => relates_throw _

theorem Abreast.leave (h : Abreast R) {c c' : Context} (hr : R c c') : R c.leave c'.leave := by
  unfold Context.leave
  rw [h.level hr]
  exact h.atLevel _ hr

/-- What holds of contexts whatever is issued and at every level relates each of them to itself. -/
theorem abreast_itself {P : Context → Prop} (hissue : ∀ d, Keeps P (issue d))
    (hlevel : ∀ c n, P c → P { c with level := n }) : Abreast (Itself P) where
  location h := by rw [h.1]
  level h := by rw [h.1]
  limits h := by rw [h.1]
  issue _ := relates_self_iff.2 (hissue _)
  atLevel n h := ⟨by rw [h.1], hlevel _ n h.2⟩

theorem abreast_eq : Abreast Eq where
  location h := by rw [h]
  level h := by rw [h]
  limits h := by rw [h]
  issue _ := relates_eq _
  atLevel n h := by rw [h]

end Context

open Context (Abreast Itself)

variable {R : Context → Context → Prop}

/-! ## Identities -/

namespace IdentityTracker

/-- The same tracker with some types, in related contexts. -/
structure Together (R : Context → Context → Prop) (types : IdentityMap) (s u : Context × IdentityTracker) : Prop where
  context : R s.1 u.1
  tracker : s.2 = u.2
  types : s.2.types = types

variable {types : IdentityMap}

theorem relates_onContext {step : Attempt Context Unit} (h : Relates R step step) :
    Relates (Together R types) (onContext step) (onContext step) := fun s u hr =>
  have ⟨ha, ht⟩ := h s.1 u.1 hr.context
  ⟨ha, ht, hr.tracker, hr.types⟩

theorem relates_change {f : IdentityTracker → IdentityTracker} (hf : ∀ t, (f t).types = t.types) :
    Relates (Together R types) (change f) (change f) :=
  relates_modify fun _ _ hr => ⟨hr.context, congrArg f hr.tracker, (hf _).trans hr.types⟩

theorem relates_refer (identity : String) (location : Option Location) :
    Relates (Together R types) (refer identity location) (refer identity location) := relates_change fun _ => rfl

variable (h : Abreast R)
include h

theorem relates_errorAt {message : String} {location : Option Location}
    (hm : (complaintForms.any fun form => form.toList.isPrefixOf message.toList) = false) :
    Relates (Together R types) (onContext (Context.errorAt message location))
      (onContext (Context.errorAt message location)) := relates_onContext (h.errorAt location hm)

theorem relates_declare (identity : String) (location : Option Location) :
    Relates (Together R types) (declare identity location) (declare identity location) := by
  refine relates_get_then fun s u hr => ?_
  rw [hr.tracker]
  split
  · exact (relates_errorAt h (by simp [complaintForms, List.isPrefixOf])).bind fun _ =>
      relates_onContext (h.warningAt _ _)
  · exact relates_change fun _ => rfl

theorem relates_check (type : IdentityType) (value : String) (location : Option Location) :
    Relates (Together R types) (check type value location) (check type value location) := by
  unfold check
  cases type with
  | id =>
    dsimp only
    split
    · exact relates_declare h _ _
    · exact relates_errorAt h (by simp [complaintForms, List.isPrefixOf])
  | idref =>
    dsimp only
    split
    · exact relates_refer _ _
    · exact relates_errorAt h (by simp [complaintForms, List.isPrefixOf])
  | idrefs =>
    dsimp only
    split
    · exact relates_errorAt h (by simp [complaintForms, List.isPrefixOf])
    · refine relates_forM fun word _ => ?_
      split
      · exact relates_refer _ _
      · exact relates_errorAt h (by simp [complaintForms, List.isPrefixOf])

theorem relates_startElement (name : QName) (attributes : List Attribute) :
    Relates (Together R types) (startElement name attributes) (startElement name attributes) := by
  refine relates_get_then fun s u hr => ?_
  dsimp only
  rw [hr.tracker, h.location hr.context]
  refine Relates.bind (relates_forM fun a _ => ?_) fun _ => relates_change fun _ => rfl
  split
  · exact relates_check h _ _ _
  · exact relates_pure _

theorem relates_endElement : Relates (Together R types) endElement endElement := by
  refine relates_get_then fun s u hr => ?_
  dsimp only
  rw [hr.tracker]
  refine Relates.bind (relates_change fun _ => rfl) fun _ => ?_
  split
  · exact relates_check h _ _ _
  · exact relates_pure _

theorem relates_endDocument : Relates (Together R types) endDocument endDocument := by
  refine relates_get_then fun s u hr => ?_
  dsimp only
  rw [hr.tracker]
  refine relates_forM fun entry _ => ?_
  split
  · exact relates_pure _
  · exact relates_forM fun location _ =>
      relates_errorAt h (by simp [complaintForms, List.isPrefixOf])

omit h

/-- What is kept of the context alone, whatever the types are. -/
theorem keeps_of_relates {P : Context → Prop} {step : Tracking}
    (h : ∀ types, Relates (Together (Itself P) types) step step) : Keeps (fun s => P s.1) step :=
  fun s hs => (h s.2.types s s ⟨⟨rfl, hs⟩, rfl, rfl⟩).2.context.2

theorem types_text (content : String) (t : IdentityTracker) : (t.text content).types = t.types := by
  unfold text
  split <;> rfl

end IdentityTracker

/-! ## Contents -/

namespace ContentTracker

/-- The same tracker of a model, in related contexts. -/
structure Together (R : Context → Context → Prop) (model : ContentModel) (s u : Context × ContentTracker) : Prop where
  context : R s.1 u.1
  tracker : s.2 = u.2
  model : s.2.model = model

variable {model : ContentModel}

theorem relates_become {t : ContentTracker} (ht : t.model = model) :
    Relates (Together R model) (become t) (become t) := relates_modify fun _ _ hr => ⟨hr.context, rfl, ht⟩

variable (h : Abreast R) (hall : ∀ d, Relates R (Context.issue d) (Context.issue d))
include h hall

theorem relates_complain (message : String) : Relates (Together R model) (complain message) (complain message) := by
  intro s u hr
  have herror : Relates R (Context.error message) (Context.error message) :=
    relates_get_then fun c c' hc => by
      rw [h.location hc]
      exact hall _
  obtain ⟨ha, ht⟩ := herror s.1 u.1 hr.context
  exact ⟨ha, ht, hr.tracker, hr.model⟩

theorem relates_startElement (name : QName) (attributes : List Attribute) :
    Relates (Together R model) (startElement name attributes) (startElement name attributes) := by
  refine relates_get_then fun s u hr => ?_
  have hmodel := hr.model
  dsimp only
  rw [hr.tracker] at hmodel ⊢
  by_cases hnone : u.2.candidates? name = some []
  · rw [if_pos hnone, if_pos (by rw [hnone]; rfl)]
    exact (relates_complain h hall _).bind fun _ => relates_become hmodel
  · rw [if_neg hnone]
    split
    · exact relates_become hmodel
    · refine Relates.bind (relates_forM fun a _ => ?_) fun _ => relates_become hmodel
      split
      · exact relates_pure _
      · exact relates_complain h hall _

theorem relates_text (content : String) : Relates (Together R model) (text content) (text content) := by
  unfold text
  split
  · exact relates_pure _
  · refine relates_get_then fun s u hr => ?_
    have hmodel := hr.model
    dsimp only
    rw [hr.tracker] at hmodel ⊢
    split
    · exact relates_complain h hall _
    · split
      · exact relates_pure _
      · exact Relates.bind (relates_become hmodel) fun _ => relates_complain h hall _

end ContentTracker

/-! ## Validations -/

namespace SchemaValidation

/-- The same trackers of a schema, in related contexts. -/
structure Together (R : Context → Context → Prop) (model : Option ContentModel) (types : Option IdentityMap)
    (s u : SchemaValidation) : Prop where
  context : R s.context u.context
  content : s.content = u.content
  identities : s.identities = u.identities
  model : s.content.map ContentTracker.model = model
  types : s.identities.map IdentityTracker.types = types

variable {model : Option ContentModel} {types : Option IdentityMap}

theorem relates_onContext {step : Attempt Context Unit} (h : Relates R step step) :
    Relates (Together R model types) (onContext step) (onContext step) := fun s u hr =>
  have ⟨ha, ht⟩ := h s.context u.context hr.context
  ⟨ha, { hr with context := ht }⟩

theorem relates_onContent {step : ContentTracker.Tracking}
    (h : ∀ model, Relates (ContentTracker.Together R model) step step) :
    Relates (Together R model types) (onContent step) (onContent step) := by
  rintro ⟨context, content, identities⟩ ⟨context', _, _⟩ ⟨hc, rfl, rfl, hm, ht⟩
  cases content with
  | none => exact ⟨rfl, hc, rfl, rfl, hm, ht⟩
  | some t =>
    obtain ⟨ha, hr⟩ := h t.model (context, t) (context', t) ⟨hc, rfl, rfl⟩
    exact ⟨ha, hr.context, congrArg some hr.tracker, rfl, (congrArg some hr.model).trans hm, ht⟩

theorem relates_onIdentities {step : IdentityTracker.Tracking}
    (h : ∀ types, Relates (IdentityTracker.Together R types) step step) :
    Relates (Together R model types) (onIdentities step) (onIdentities step) := by
  rintro ⟨context, content, identities⟩ ⟨context', _, _⟩ ⟨hc, rfl, rfl, hm, ht⟩
  cases identities with
  | none => exact ⟨rfl, hc, rfl, rfl, hm, ht⟩
  | some t =>
    obtain ⟨ha, hr⟩ := h t.types (context, t) (context', t) ⟨hc, rfl, rfl⟩
    exact ⟨ha, hr.context, rfl, congrArg some hr.tracker, hm, (congrArg some hr.types).trans ht⟩

/-- Two validations with the same trackers answer an event alike. -/
theorem relates_handle (h : Abreast R) (hall : ∀ d, Relates R (Context.issue d) (Context.issue d)) (event : Event) :
    Relates (Together R model types) (handle event) (handle event) := by
  cases event with
  | startElement name written attributes =>
    refine (relates_onContext (h.enter _)).bind fun _ => Relates.bind ?_ fun _ => ?_
    · exact relates_onContent fun _ => ContentTracker.relates_startElement h hall _ _
    · exact relates_onIdentities fun _ => IdentityTracker.relates_startElement h _ _
  | endElement name written =>
    refine Relates.bind (relates_modify fun s u hr => ?_) fun _ =>
      relates_onIdentities fun _ => IdentityTracker.relates_endElement h
    refine { hr with
      context := h.leave hr.context
      content := congrArg (Option.map ContentTracker.endElement) hr.content
      model := ?_ }
    rw [← hr.model]
    exact Option.map_map ..
  | text content =>
    refine Relates.bind (relates_onContent fun _ => ContentTracker.relates_text h hall _) fun _ =>
      relates_modify fun s u hr => ?_
    refine { hr with identities := congrArg (Option.map (IdentityTracker.text content)) hr.identities, types := ?_ }
    rw [← hr.types]
    exact (Option.map_map ..).trans (congrArg (Option.map · s.identities) (funext fun t => t.types_text content))
  | endDocument => exact relates_onIdentities fun _ => IdentityTracker.relates_endDocument h
  | startDocument | declare | undeclare | space | entity => exact relates_pure _

end SchemaValidation

end RelaxNg
