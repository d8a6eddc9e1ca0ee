import RelaxNg.Proofs.Validation.Errors
import RelaxNg.Proofs.Validation.Integrity
import RelaxNg.Proofs.Validation.Sessions
import RelaxNg.Proofs.Validation.Tracking

/-!
# Suggestions and reports

A content tracker suggests what may come next, and reports what comes and may not. Both agree in every state that events
lead to, as long as the receiver goes on (`ContentTracker.Follows.reports_unsuggested`): an element is reported if it is
not suggested where everything open is accepted, an attribute if the element that has it is accepted and does not
suggest it, and text in an accepted element that suggests none, once. Nothing is reported in an element that was itself
reported.

The tracker does not keep what it reported; an open element of which it knows nothing was reported itself or stands in
one that was. So what was reported is noted from outside (`Record`), and the notes mirror the frames of the tracker
(`Mirrors`).
-/

namespace RelaxNg

open Attempt

/-! ## Refusals -/

/-- How the messages about elements that are not allowed begin. -/
def refusalForms : List String := ["undeclared root element \"", "element \""]

/-- Whether a diagnostic says that an element is undeclared or not allowed. -/
def Diagnostic.isRefusal (d : Diagnostic) : Bool :=
  refusalForms.any fun form => form.toList.isPrefixOf d.message.toList

/-! ## Complaints -/

namespace Context

/-- Errors where the current event stands. -/
def complaints (c : Context) (messages : List String) : List Diagnostic :=
  messages.map fun message => ⟨.error, message, c.location⟩

variable {c : Context}

theorem complaints_toldAll (c : Context) (ds : List Diagnostic) (messages : List String) :
    (c.toldAll ds).complaints messages = c.complaints messages := by
  rw [complaints, complaints, location_toldAll]

theorem complaints_append (c : Context) (messages messages' : List String) :
    c.complaints (messages ++ messages') = c.complaints messages ++ c.complaints messages' := List.map_append

end Context

namespace ContentTracker

variable {t t' t'' : ContentTracker} {step next : Tracking} {messages messages' : List String} {name : QName}
  {attributes : List Attribute} {content : String} {c : Context}

/-! ## Steps that report -/

/-- A step goes from a tracker to another and reports some messages to a receiver that goes on. -/
def Tells (step : Tracking) (t : ContentTracker) (messages : List String) (t' : ContentTracker) : Prop :=
  ∀ c : Context, c.GoesOn → step.runFrom (c, t) = (.ok (), c.toldAll (c.complaints messages), t')

theorem Passes.tells (h : Passes step t t') : Tells step t [] t' := fun c _ => h c

theorem tells_complain (message : String) (t : ContentTracker) : Tells (complain message) t [message] t := by
  intro c hc
  have herror : (Context.error message).runFrom c = (.ok (), c.told ⟨.error, message, c.location⟩) := hc.issue _
  change (((Context.error message).runFrom c).1, ((Context.error message).runFrom c).2, t) = _
  rw [herror]
  rfl

theorem Tells.andThen (h : Tells step t messages t') (h' : Tells next t' messages' t'') :
    Tells (step >>= fun _ => next) t (messages ++ messages') t'' := by
  intro c hc
  rw [runFrom_bind, h c hc]
  dsimp only
  rw [h' _ (hc.toldAll _), Context.complaints_toldAll, ← Context.toldAll_append, ← Context.complaints_append]

theorem tells_get_then {f : Context × ContentTracker → Tracking} (h : ∀ c, Tells (f (c, t)) t messages t') :
    Tells (get >>= f) t messages t' := fun c hc => h c c hc

/-- Each item that fails a test is reported. -/
theorem tells_forM {α : Type} (test : α → Bool) (message : α → String) (items : List α) (t : ContentTracker) :
    Tells (items.forM fun x => unless test x do complain (message x)) t
      ((items.filter fun x => !test x).map message) t := by
  induction items with
  | nil => exact (passes_pure t).tells
  | cons x items ih =>
    cases hx : test x with
    | true =>
      have h : Tells (unless test x do complain (message x)) t [] t := by
        rw [if_pos hx]
        exact (passes_pure t).tells
      simpa [hx] using h.andThen ih
    | false =>
      have h : Tells (unless test x do complain (message x)) t [message x] t := by
        rw [if_neg (by simp [hx])]
        exact tells_complain _ t
      simpa [hx] using h.andThen ih

/-! ## What is reported -/

/-- What is noted of an open element. -/
structure Record where
  name : QName
  /-- It was reported as undeclared or not allowed. -/
  refused : Bool
  /-- Text directly in it was reported. -/
  textReported : Bool
deriving DecidableEq

/-- No open element was refused, the innermost first. -/
def accepted (opened : List Record) : Bool := opened.all fun record => !record.refused

def elementMessage (opened : List Record) (name : QName) : String :=
  match opened with
  | [] => "undeclared root element \"" ++ name.render ++ "\""
  | parent :: _ => "element \"" ++ name.render ++ "\" not allowed in element \"" ++ parent.name.render ++ "\""

def attributeMessage (element name : QName) : String :=
  "attribute \"" ++ name.render ++ "\" not allowed on element \"" ++ element.render ++ "\""

/-- What is reported of an element, from what is suggested before it: an element that is not suggested. -/
def elementReports (t : ContentTracker) (opened : List Record) (name : QName) : List String :=
  if accepted opened = true ∧ ∀ nc ∈ t.expectedElements, nc.contains name = false then [elementMessage opened name]
  else []

/-- What is reported of the attributes of an element, from what is suggested in it: those that are not suggested, but
for namespace declarations. -/
def attributeReports (t : ContentTracker) (opened : List Record) (element : QName) (attributes : List Attribute) :
    List String :=
  (attributes.filter fun a => accepted opened = true ∧ a.name.ns ≠ Namespace.xmlns ∧
    ∀ nc ∈ t.expectedAttributes, nc.contains a.name = false).map fun a => attributeMessage element a.name

/-- What is reported of text, from what is suggested in the innermost element. -/
def textReports (t : ContentTracker) (opened : List Record) (content : String) : List String :=
  if Xml.isBlank content then []
  else match opened with
    | [] => ["text not allowed outside the document element"]
    | record :: _ =>
      if accepted opened = true ∧ t.allowsText = false ∧ record.textReported = false then
        ["text not allowed in element \"" ++ record.name.render ++ "\""]
      else []

/-- The notes after an event, from what was issued at it. -/
def noted (opened : List Record) (event : Event) (issued : List Diagnostic) : List Record :=
  match event with
  | .startElement name _ _ => ⟨name, issued.any Diagnostic.isRefusal, false⟩ :: opened
  | .endElement _ _ => opened.tail
  | .text _ => match opened with
    | [] => []
    | record :: outer => { record with textReported := record.textReported || !issued.isEmpty } :: outer
  | _ => opened

/-- What is issued at an event. -/
def issuedAt (c : Context) (t : ContentTracker) (event : Event) : List Diagnostic :=
  c.since ((handle event).runFrom (c, t)).2.1

def after (c : Context) (t : ContentTracker) (event : Event) : ContentTracker := ((handle event).runFrom (c, t)).2.2

/-- A tracker of a model and the notes of its open elements after some events, with receivers that go on, and resets. -/
inductive Follows (model : ContentModel) : ContentTracker → List Record → Prop
  | new : Follows model { model } []
  | event {t opened} (c : Context) (hc : c.GoesOn) (event : Event) (h : Follows model t opened) :
      Follows model (after c t event) (noted opened event (issuedAt c t event))
  | reset {t opened} (h : Follows model t opened) : Follows model t.reset []

/-! ## Frames and notes -/

/-- Frames mirror notes: nothing is known of an element that is not accepted. -/
inductive Mirrors : List Frame → List Record → Prop
  | nil : Mirrors [] []
  | cons {frame frames record opened} (hname : frame.name = record.name)
      (htext : frame.textReported = record.textReported)
      (hknown : frame.candidates.isEmpty = !accepted (record :: opened)) (h : Mirrors frames opened) :
      Mirrors (frame :: frames) (record :: opened)

variable {opened : List Record}

theorem Mirrors.tail {frames : List Frame} (h : Mirrors frames opened) : Mirrors frames.tail opened.tail := by
  cases h with
  | nil => exact .nil
  | cons _ _ _ h => exact h

theorem Mirrors.allowed?_isSome (h : Mirrors t.frames opened) : t.allowed?.isSome = accepted opened := by
  unfold allowed?
  generalize hf : t.frames = frames at h
  cases h with
  | nil => rfl
  | @cons frame frames record opened _ _ hknown _ =>
    dsimp only
    cases ha : accepted (record :: opened) <;> simp [hknown, ha]

theorem Mirrors.refusal_eq (h : Mirrors t.frames opened) (name : QName) :
    t.refusal name = elementMessage opened name := by
  unfold refusal
  generalize hf : t.frames = frames at h
  cases h with
  | nil => rfl
  | cons hname _ _ _ =>
    dsimp only
    rw [hname]
    rfl

theorem matching_eq_nil_iff {allowed : List ElementId} (h : t.allowed? = some allowed) :
    t.model.matching allowed name = [] ↔ ∀ nc ∈ t.expectedElements, nc.contains name = false := by
  simp only [ContentModel.matching, List.filter_eq_nil_iff, expectedElements, mem_firsts, List.mem_filterMap, h,
    Option.getD_some, Option.map_eq_some_iff]
  constructor
  · rintro hnone nc ⟨e, he, m, hm, rfl⟩
    simpa [hm] using hnone e he
  · intro hnone e he hany
    obtain ⟨m, hm, hn⟩ := (Option.any_eq_true _ _).1 hany
    rw [hnone m.names ⟨e, he, m, hm, rfl⟩] at hn
    cases hn

/-- Nothing may be what begins here exactly if something is known and it is not suggested. -/
theorem Mirrors.candidates?_eq_nil_iff (h : Mirrors t.frames opened) :
    t.candidates? name = some [] ↔ accepted opened = true ∧ ∀ nc ∈ t.expectedElements, nc.contains name = false := by
  rw [← h.allowed?_isSome, candidates?]
  cases ha : t.allowed? with
  | none => simp
  | some allowed => simp [matching_eq_nil_iff ha]

/-- What there is to note of an element that begins. -/
def begun (t : ContentTracker) (name : QName) : Record := ⟨name, decide (t.candidates? name = some []), false⟩

/-- Something may be what begins here exactly if it is accepted. -/
theorem Mirrors.candidates_isEmpty (h : Mirrors t.frames opened) :
    ((t.candidates? name).getD []).isEmpty = !accepted (t.begun name :: opened) := by
  rw [accepted, List.all_cons, ← accepted, ← h.allowed?_isSome]
  have hsome : t.allowed?.isSome = (t.candidates? name).isSome := by rw [candidates?, Option.isSome_map]
  rw [hsome, begun]
  rcases t.candidates? name with _ | _ | ⟨e, rest⟩ <;> simp

/-- An attribute may be on an element exactly if it declares a namespace or is suggested once the element is entered. -/
theorem allowsAttribute_iff (t : ContentTracker) (element name : QName) :
    t.allowsAttribute ((t.candidates? element).getD []) name = true ↔
      name.ns = Namespace.xmlns ∨ ∃ nc ∈ (t.entered element).expectedAttributes, nc.contains name = true := by
  have hmodels : (t.entered element).currentModels = ((t.candidates? element).getD []).filterMap t.model.element? := rfl
  rw [allowsAttribute, Bool.or_eq_true, beq_iff_eq]
  refine or_congr_right ?_
  simp only [List.any_eq_true, Option.any_eq_true, expectedAttributes, mem_firsts, List.mem_flatMap, hmodels,
    List.mem_filterMap]
  constructor
  · rintro ⟨e, he, m, hm, nc, hnc, hn⟩
    exact ⟨nc, ⟨m, ⟨e, he, hm⟩, hnc⟩, hn⟩
  · rintro ⟨nc, ⟨m, ⟨e, he, hm⟩, hnc⟩, hn⟩
    exact ⟨e, he, m, hm, nc, hnc, hn⟩

/-! ## Elements and text -/

/-- Entering an element, what is reported told by what it may be. -/
theorem tells_startElement (t : ContentTracker) (name : QName) (attributes : List Attribute) :
    Tells (startElement name attributes) t
      ((if t.candidates? name = some [] then [t.refusal name] else []) ++
        if ((t.candidates? name).getD []).isEmpty then []
        else (attributes.filter fun a => !t.allowsAttribute ((t.candidates? name).getD []) a.name).map fun a =>
          attributeMessage name a.name)
      (t.entered name) := by
  refine tells_get_then fun c => ?_
  dsimp only
  have henter : Tells (become (t.entered name)) t [] (t.entered name) := (passes_become t _).tells
  have hattributes := (tells_forM (fun a : Attribute => t.allowsAttribute ((t.candidates? name).getD []) a.name)
    (fun a => attributeMessage name a.name) attributes t).andThen henter
  rw [List.append_nil] at hattributes
  by_cases hnone : t.candidates? name = some []
  · have hempty : ((t.candidates? name).getD []).isEmpty = true := by rw [hnone]; rfl
    rw [if_pos hnone, if_pos hnone, if_pos hempty, if_pos hempty]
    exact (tells_complain _ t).andThen henter
  · rw [if_neg hnone, if_neg hnone]
    split
    · exact henter
    · exact hattributes

theorem Mirrors.elementReports_eq (h : Mirrors t.frames opened) (name : QName) :
    elementReports t opened name = if t.candidates? name = some [] then [t.refusal name] else [] := by
  simp only [elementReports, h.candidates?_eq_nil_iff, h.refusal_eq]

theorem Mirrors.attributeReports_eq (h : Mirrors t.frames opened) (name : QName) (attributes : List Attribute) :
    attributeReports (t.entered name) (t.begun name :: opened) name attributes =
      if ((t.candidates? name).getD []).isEmpty then []
      else (attributes.filter fun a => !t.allowsAttribute ((t.candidates? name).getD []) a.name).map fun a =>
        attributeMessage name a.name := by
  rw [h.candidates_isEmpty, attributeReports]
  cases accepted (t.begun name :: opened) with
  | false => simp
  | true =>
    simp only [Bool.not_true, Bool.false_eq_true, if_false, true_and]
    refine congrArg _ (List.filter_congr fun a _ => ?_)
    rw [Bool.eq_iff_iff, Bool.not_eq_true', ← Bool.not_eq_true, allowsAttribute_iff, decide_eq_true_iff]
    simp [not_or]

theorem Mirrors.tells_startElement (h : Mirrors t.frames opened) (name : QName) (attributes : List Attribute) :
    Tells (startElement name attributes) t
      (elementReports t opened name ++ attributeReports (t.entered name) (t.begun name :: opened) name attributes)
      (t.entered name) := by
  rw [h.elementReports_eq, h.attributeReports_eq]
  exact ContentTracker.tells_startElement t name attributes

/-- The tracker after text, of which something is reported or nothing. -/
def texted (t : ContentTracker) (reported : Bool) : ContentTracker :=
  match t.frames with
  | [] => t
  | frame :: outer => { t with frames := { frame with textReported := frame.textReported || reported } :: outer }

theorem texted_false (t : ContentTracker) : t.texted false = t := by
  unfold texted
  split
  · rfl
  · next hf => simp [← hf]

theorem Mirrors.after_text (h : Mirrors t.frames opened) {issued : List Diagnostic} {reported : Bool}
    (hreported : issued.isEmpty = !reported) :
    Mirrors (t.texted reported).frames (noted opened (.text content) issued) := by
  unfold ContentTracker.texted noted
  generalize hf : t.frames = frames at h
  cases h with
  | nil =>
    dsimp only
    rw [hf]
    exact .nil
  | cons hname htext hknown hrest =>
    refine .cons hname ?_ hknown hrest
    dsimp only
    rw [htext, hreported, Bool.not_not]

theorem Mirrors.tells_text (h : Mirrors t.frames opened) (content : String) :
    Tells (text content) t (textReports t opened content) (t.texted !(textReports t opened content).isEmpty) := by
  unfold textReports
  by_cases hblank : Xml.isBlank content = true
  · rw [if_pos hblank]
    change Tells _ t [] (t.texted false)
    rw [texted_false]
    exact (passes_text (.inl hblank)).tells
  rw [if_neg hblank]
  unfold text
  rw [if_neg hblank]
  refine tells_get_then fun c => ?_
  dsimp only
  generalize hf : t.frames = frames at h
  cases h with
  | nil =>
    have htexted : t.texted true = t := by
      unfold texted
      rw [hf]
    change Tells _ t _ (t.texted true)
    rw [htexted]
    exact tells_complain _ t
  | @cons frame outer record opened hname htext hknown _ =>
    dsimp only
    rw [hknown, htext, hname]
    have hskips : (!accepted (record :: opened) || record.textReported || t.allowsText) = true ↔
        ¬ (accepted (record :: opened) = true ∧ t.allowsText = false ∧ record.textReported = false) := by
      cases accepted (record :: opened) <;> cases t.allowsText <;> cases record.textReported <;> decide
    by_cases hreport : accepted (record :: opened) = true ∧ t.allowsText = false ∧ record.textReported = false
    · have htexted : t.texted true = { t with frames := { frame with textReported := true } :: outer } := by
        unfold texted
        rw [hf]
        dsimp only
        rw [Bool.or_true]
      rw [if_neg (hskips.not.2 (not_not.2 hreport)), if_pos hreport]
      change Tells _ t _ (t.texted true)
      rw [htexted, hname]
      exact (passes_become t _).tells.andThen (tells_complain _ _)
    · rw [if_pos (hskips.2 hreport), if_neg hreport]
      change Tells _ t [] (t.texted false)
      rw [texted_false]
      exact (passes_pure t).tells

/-! ## Notes after an event -/

theorem elementMessage_eq (opened : List Record) (name : QName) :
    ∃ form ∈ refusalForms, ∃ rest, elementMessage opened name = form ++ rest := by
  cases opened with
  | nil => exact ⟨_, List.mem_cons_self, _, String.append_assoc⟩
  | cons parent outer =>
    refine ⟨"element \"", List.mem_cons_of_mem _ List.mem_cons_self,
      name.render ++ ("\" not allowed in element \"" ++ (parent.name.render ++ "\"")), ?_⟩
    unfold elementMessage
    dsimp only
    rw [String.append_assoc, String.append_assoc, String.append_assoc]

theorem isRefusal_elementMessage (severity : Severity) (opened : List Record) (name : QName)
    (location : Option Location) : Diagnostic.isRefusal ⟨severity, elementMessage opened name, location⟩ = true := by
  obtain ⟨form, hform, rest, hmessage⟩ := elementMessage_eq opened name
  unfold Diagnostic.isRefusal
  rw [List.any_eq_true, hmessage]
  refine ⟨form, hform, ?_⟩
  rw [String.toList_append]
  exact List.isPrefixOf_iff_prefix.2 (List.prefix_append _ _)

theorem isRefusal_attributeMessage (severity : Severity) (element name : QName) (location : Option Location) :
    Diagnostic.isRefusal ⟨severity, attributeMessage element name, location⟩ = false := by
  simp [Diagnostic.isRefusal, refusalForms, attributeMessage, List.isPrefixOf]

/-- An element counts as refused in the notes exactly if nothing may be what begins here. -/
theorem Mirrors.any_isRefusal (h : Mirrors t.frames opened) (c : Context) (t' : ContentTracker) (opened' : List Record)
    (name : QName) (attributes : List Attribute) :
    (c.complaints (elementReports t opened name ++ attributeReports t' opened' name attributes)).any
      Diagnostic.isRefusal = decide (t.candidates? name = some []) := by
  have hattributes : (c.complaints (attributeReports t' opened' name attributes)).any Diagnostic.isRefusal = false := by
    simp [Context.complaints, attributeReports, isRefusal_attributeMessage]
  rw [Context.complaints_append, List.any_append, hattributes, Bool.or_false, h.elementReports_eq, h.refusal_eq]
  split
  · next hnone => simp [Context.complaints, isRefusal_elementMessage, hnone]
  · next hnone => simp [Context.complaints, hnone]

theorem Tells.issuedAt_eq {event : Event} (h : Tells (handle event) t messages t') (hc : c.GoesOn) :
    issuedAt c t event = c.complaints messages := by
  rw [issuedAt, h c hc]
  exact c.since_toldAll _

theorem Tells.after_eq {event : Event} (h : Tells (handle event) t messages t') (hc : c.GoesOn) :
    after c t event = t' := by
  rw [after, h c hc]

theorem Mirrors.issuedAt_startElement (h : Mirrors t.frames opened) (hc : c.GoesOn) (name : QName) (written : String)
    (attributes : List Attribute) :
    let event := Event.startElement name written attributes
    let opened' := noted opened event (issuedAt c t event)
    issuedAt c t event = c.complaints (elementReports t opened name ++
        attributeReports (after c t event) opened' name attributes) ∧
      Mirrors (after c t event).frames opened' := by
  intro event opened'
  have hstep : Tells (handle event) t _ _ := h.tells_startElement name attributes
  have hissued := hstep.issuedAt_eq hc
  have hafter := hstep.after_eq hc
  have hopened : opened' = t.begun name :: opened := by
    change (⟨name, (issuedAt c t event).any Diagnostic.isRefusal, false⟩ : Record) :: opened = _
    rw [hissued, h.any_isRefusal]
    rfl
  rw [hopened, hafter]
  exact ⟨hissued, .cons rfl rfl h.candidates_isEmpty h⟩

theorem Mirrors.issuedAt_text (h : Mirrors t.frames opened) (hc : c.GoesOn) (content : String) :
    issuedAt c t (.text content) = c.complaints (textReports t opened content) ∧
      Mirrors (after c t (.text content)).frames (noted opened (.text content) (issuedAt c t (.text content))) := by
  have hstep : Tells (handle (.text content)) t _ _ := h.tells_text content
  have hissued := hstep.issuedAt_eq hc
  have hempty : (c.complaints (textReports t opened content)).isEmpty =
      !!(textReports t opened content).isEmpty := List.isEmpty_map.trans (Bool.not_not _).symm
  refine ⟨hissued, ?_⟩
  rw [hstep.after_eq hc, hissued]
  exact h.after_text hempty

theorem Mirrors.follows (h : Mirrors t.frames opened) (hc : c.GoesOn) (event : Event) :
    Mirrors (after c t event).frames (noted opened event (issuedAt c t event)) := by
  cases event with
  | startElement name written attributes => exact (h.issuedAt_startElement hc name written attributes).2
  | text content => exact (h.issuedAt_text hc content).2
  | endElement name written => exact h.tail
  | _ => exact h

theorem Follows.mirrors {model : ContentModel} (h : Follows model t opened) : Mirrors t.frames opened := by
  induction h with
  | new => exact .nil
  | event c hc event _ ih => exact ih.follows hc event
  | reset => exact .nil

/-! ## Agreement -/

theorem Mirrors.runFrom_handle (h : Mirrors t.frames opened) (hc : c.GoesOn) (event : Event) :
    ((handle event).runFrom (c, t)).1 = .ok () := by
  cases event with
  | startElement name written attributes => exact congrArg Prod.fst (h.tells_startElement name attributes c hc)
  | text content => exact congrArg Prod.fst (h.tells_text content c hc)
  | _ => rfl

/-- Below an element that was refused nothing is reported. -/
theorem Mirrors.issuedAt_of_refused (h : Mirrors t.frames opened) (hc : c.GoesOn) (hrefused : accepted opened = false)
    (event : Event) : issuedAt c t event = [] := by
  cases event with
  | startElement name written attributes =>
    rw [(h.issuedAt_startElement hc name written attributes).1]
    have hstill (record : Record) : accepted (record :: opened) = false := by
      rw [accepted, List.all_cons, ← accepted, hrefused, Bool.and_false]
    simp [elementReports, attributeReports, noted, hrefused, hstill, Context.complaints]
  | text content =>
    rw [(h.issuedAt_text hc content).1]
    unfold textReports
    cases opened with
    | nil => cases hrefused
    | cons record outer => simp [hrefused, Context.complaints]
  | _ => exact c.since_toldAll []

/-- In every state that events lead to, a tracker reports of an element, its attributes and text what it does not
suggest, and below an element that was refused nothing at all. -/
theorem Follows.reports_unsuggested {model : ContentModel} (h : Follows model t opened) (hc : c.GoesOn) :
    (∀ event, ((handle event).runFrom (c, t)).1 = .ok ()) ∧
    (∀ name written attributes,
      let event := Event.startElement name written attributes
      issuedAt c t event = c.complaints (elementReports t opened name ++
        attributeReports (after c t event) (noted opened event (issuedAt c t event)) name attributes)) ∧
    (∀ content, issuedAt c t (.text content) = c.complaints (textReports t opened content)) ∧
    (accepted opened = false → ∀ event, issuedAt c t event = []) := by
  have hm := h.mirrors
  refine ⟨hm.runFrom_handle hc, fun name written attributes => ?_, fun content => ?_, hm.issuedAt_of_refused hc⟩
  · exact (hm.issuedAt_startElement hc name written attributes).1
  · exact (hm.issuedAt_text hc content).1

/-- The statement in an element that is not allowed in an accepted one. -/
theorem reports_unsuggested_keysInDoc :
    let model := keysInDoc.contentModel.getD {}
    let c := Context.new .silent {} none
    let doc := Event.startElement (.plain "doc") "doc" []
    let other := Event.startElement (.plain "f") "f" []
    let t := after c { model } doc
    let opened := noted [] doc (issuedAt c { model } doc)
    let opened' := noted opened other (issuedAt c t other)
    Follows model (after c t other) opened' ∧ c.GoesOn ∧ accepted opened = true ∧ accepted opened' = false ∧
      issuedAt c t other = c.complaints ["element \"f\" not allowed in element \"doc\""] ∧
      ∀ event, issuedAt c (after c t other) event = [] := by
  intro model c doc other t opened opened'
  have hc : c.GoesOn := fun _ _ => rfl
  have hopened : Follows model t opened := .event c hc doc .new
  have hinside : Follows model (after c t other) opened' := .event c hc other hopened
  have hrefused : accepted opened' = false := by decide +kernel
  refine ⟨hinside, hc, by decide +kernel, hrefused, by decide +kernel, ?_⟩
  exact (hinside.reports_unsuggested hc).2.2.2 hrefused

end ContentTracker

end RelaxNg
