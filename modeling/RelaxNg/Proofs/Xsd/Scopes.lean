import RelaxNg.Proofs.Xml.Labels
import RelaxNg.Proofs.Xml.Telling
import RelaxNg.Proofs.Xsd.Calls

/-!
# The scopes that an engine sees

The scopes of a validation by an XML Schema engine are those of the reading whenever the session is called, and the
names handed over fit into them (`Validation.calls_see_scopes`). Between the pieces of a scan the two are the same and
no scope waits; within a start tag they are the same if the validation is taken to have opened the scope of the element;
after the end of an element the validation has closed its scope already (`InStep`, `InTag`, `Leaving`). That an element
ends with the name that it began with, and in the same scope, is what `Stacked` keeps.
-/

namespace RelaxNg

namespace Xml

/-! ## Scopes and the elements that opened them -/

namespace Scopes

variable {scopes : Scopes} {label ns written : String} {name : QName}

theorem namespace?_of_resolve (h : scopes.resolve written = .ok name) (hl : (splitColon written).1 = some label) :
    scopes.namespace? label = some name.ns := by
  unfold resolve at h
  split at h
  · next label' localName heq =>
    rw [heq] at hl
    cases hl
    split at h
    · next ns hns =>
      cases h
      exact hns
    · cases h
  · next heq =>
    rw [heq] at hl
    cases hl

theorem resolve_of_resolveAttribute (h : scopes.resolveAttribute written = .ok name) (hn : name.hasNamespace = true) :
    scopes.resolve written = .ok name := by
  unfold resolveAttribute at h
  split at h
  · exact h
  · cases h
    cases hn

/-- The scope opened last, of the scopes opened in `outer`. -/
def Inside (outer scopes : Scopes) : Prop := scopes.enclosing = outer.current :: outer.enclosing

variable {outer : Scopes}

theorem inside_push (scopes : Scopes) : scopes.Inside scopes.push := rfl

theorem Inside.declare (h : outer.Inside scopes) (label ns : String) : outer.Inside (scopes.declare label ns) := h

theorem Inside.pop_eq (h : outer.Inside scopes) : scopes.pop = outer := by
  unfold pop
  rw [h]

theorem Inside.depth_eq (h : outer.Inside scopes) : scopes.depth = outer.depth + 1 := by
  unfold depth
  rw [h, List.length_cons]

end Scopes

/-- Every open element has a scope inside those of the elements around it, in which its name is looked up. -/
inductive Stacked : List OpenElement → Scopes → Prop
  | document : Stacked [] .empty
  | element {element opened outer scopes} (h : Stacked opened outer) (hin : outer.Inside scopes)
      (hname : scopes.resolve element.written = .ok element.name) : Stacked (element :: opened) scopes

theorem Stacked.depth_eq {opened : List OpenElement} {scopes : Scopes} (h : Stacked opened scopes) :
    scopes.depth = opened.length + 1 := by
  induction h with
  | document => rfl
  | element _ hin _ ih => rw [hin.depth_eq, ih, List.length_cons]

/-- The number of open elements at an event, one that begins or ends counted. -/
def Telling.elements {σ : Type} (t : Telling σ) : Nat :=
  match t.event with
  | .startElement _ _ _ | .endElement _ _ => t.opened.length + 1
  | _ => t.opened.length

end Xml

namespace Xsd

open Attempt Xml Xml.Document

/-- A name without a namespace has no label, and the label of any other stands for its namespace. -/
def Name.FitsIn (scopes : Scopes) (name : Name) : Prop :=
  match name.ns with
  | none => name.label = ""
  | some ns => name.label ≠ "" → scopes.namespace? name.label = some ns

theorem Name.of_fitsIn {scopes : Scopes} {name : QName} {written : String}
    (h : name.hasNamespace = true → scopes.resolve written = .ok name) :
    (Name.of name written scopes).FitsIn scopes := by
  unfold Name.of
  split
  · exact rfl
  · next hn =>
    have hname := h (by simpa using hn)
    split
    · split
      · next label hlabel =>
        split
        · exact fun hne => absurd rfl hne
        · exact fun _ => Scopes.namespace?_of_label? hlabel
      · exact fun hne => absurd rfl hne
    · intro hne
      change scopes.namespace? ((splitColon written).1.getD "") = some name.ns
      cases hl : (splitColon written).1 with
      | none => exact absurd (by rw [hl]; rfl) hne
      | some label => exact Scopes.namespace?_of_resolve hname hl

namespace Validation

variable {ς : Type} {engine : Engine ς}

/-- Every call that an event makes finds the scopes of the reading, and its names fit into them. -/
def Informed (engine : Engine ς) (t : Telling (Validation ς)) : Prop :=
  ∀ c ∈ calls engine t.event t.state,
    c.2.scopes = t.scopes ∧ t.scopes.depth = 1 + t.elements ∧ ∀ name ∈ c.1.names, name.FitsIn t.scopes

abbrev Noted (ς : Type) := Reading (Validation ς × List (Telling (Validation ς)))

def Heard (engine : Engine ς) (r : Noted ς) : Prop := ∀ t ∈ r.state.2, Informed engine t

/-- Between the pieces of a scan. -/
structure InStep (engine : Engine ς) (r : Noted ς) : Prop where
  scopes : r.state.1.scopes = r.scopes
  closed : r.state.1.scopeOpened = false
  stacked : Stacked r.opened r.scopes
  heard : Heard engine r

/-- Within a start tag. -/
structure InTag (engine : Engine ς) (r : Noted ς) : Prop where
  scopes : r.state.1.openScope.scopes = r.scopes
  stacked : ∃ outer, outer.Inside r.scopes ∧ Stacked r.opened outer
  heard : Heard engine r

/-- Between the end of an element and that of its scope. -/
structure Leaving (engine : Engine ς) (r : Noted ς) : Prop where
  scopes : r.state.1.scopes = r.scopes.pop
  closed : r.state.1.scopeOpened = false
  stacked : Stacked r.opened r.scopes.pop
  heard : Heard engine r

variable {r : Noted ς} {event : Event} {tag : Tag}

theorem ensures_heard (hr : Heard engine r) (hi : Informed engine ⟨r.map Prod.fst, event⟩) :
    Ensures ((Reading.noting (validator engine)).handle event) r
      (fun _ t => ∃ s, t = r.noted event s ∧ Heard engine t ∧
        s.scopes = (r.state.1.scopesAfter event).1 ∧ s.scopeOpened = (r.state.1.scopesAfter event).2)
      (Heard engine) := by
  have hnoted (s : Validation ς) : Heard engine (r.noted event s) :=
    List.forall_mem_append.2 ⟨hr, List.forall_mem_singleton.2 hi⟩
  refine ensures_noting.2 ((ensures_scopesAfter engine event r.state.1).mono ?_ fun s _ => hnoted s)
  exact fun _ s hs => ⟨s, rfl, hnoted s, congrArg Prod.fst hs, congrArg Prod.snd hs⟩

/-! ## What the calls find -/

theorem informed_of_no_call {r : Reading (Validation ς)} (h : ∀ scopes, callFor? scopes event = none) :
    Informed engine ⟨r, event⟩ := by
  rintro ⟨call, env⟩ hc
  have hcall := (call_of_mem_calls hc).2
  rw [h] at hcall
  cases hcall

/-- An event that meets the session with the scopes of the reading makes its call in these scopes. -/
theorem informed_of_callFor {r : Reading (Validation ς)} (hscopes : r.state.scopesAt event = r.scopes)
    (hdepth : r.scopes.depth = (Telling.mk r event).elements + 1)
    (hnames : ∀ call, callFor? r.scopes event = some call → ∀ name ∈ call.names, name.FitsIn r.scopes) :
    Informed engine ⟨r, event⟩ := by
  rintro ⟨call, env⟩ hc
  obtain ⟨he, hcall⟩ := call_of_mem_calls hc
  have hscopes : env.scopes = r.scopes := he.trans hscopes
  rw [hscopes] at hcall
  exact ⟨hscopes, hdepth.trans (Nat.add_comm _ _), hnames call hcall⟩

/-- An event beside the elements is told with nothing but the scopes in force. -/
theorem InStep.informed_aside (h : InStep engine r)
    (hcall : ∀ scopes call, callFor? scopes event = some call → call.names = [])
    (hscopes : ∀ s : Validation ς, s.scopesAt event = s.scopes)
    (helements : ∀ r : Reading (Validation ς), (Telling.mk r event).elements = r.opened.length) :
    Informed engine ⟨r.map Prod.fst, event⟩ := by
  refine informed_of_callFor ((hscopes _).trans h.scopes) ?_ fun call hc name hname => ?_
  · rw [helements]
    exact h.stacked.depth_eq
  · rw [hcall _ _ hc] at hname
    cases hname

theorem InTag.informed_startElement (h : InTag engine r) {name : QName} {written : String} {attributes : List Attribute}
    (hname : r.scopes.resolve written = .ok name)
    (hattributes : ∀ a ∈ attributes, r.scopes.resolveAttribute a.written = .ok a.name) :
    Informed engine ⟨r.map Prod.fst, .startElement name written attributes⟩ := by
  refine informed_of_callFor h.scopes ?_ ?_
  · obtain ⟨outer, hin, hstacked⟩ := h.stacked
    exact hin.depth_eq.trans (congrArg (· + 1) hstacked.depth_eq)
  · rintro _ ⟨⟩
    refine List.forall_mem_cons.2 ⟨Name.of_fitsIn fun _ => hname, fun given hgiven => ?_⟩
    obtain ⟨a, ha, rfl⟩ : ∃ a ∈ attributes, Name.of a.name a.written r.scopes = given := by
      simpa [Reading.map] using hgiven
    exact Name.of_fitsIn (Scopes.resolve_of_resolveAttribute (hattributes a ha))

theorem InStep.informed_endElement (h : InStep engine r) {element : OpenElement} {outer : List OpenElement}
    (ho : r.opened = element :: outer) :
    Informed engine
      ⟨({ r with opened := outer } : Noted ς).map Prod.fst, .endElement element.name element.written⟩ := by
  have hstacked := h.stacked
  rw [ho] at hstacked
  refine informed_of_callFor h.scopes hstacked.depth_eq ?_
  rintro _ ⟨⟩
  cases hstacked with
  | element _ _ hname => exact List.forall_mem_singleton.2 (Name.of_fitsIn fun _ => hname)

/-! ## The scopes along a reading -/

theorem InStep.start (h : InStep engine r) (tag : Tag) :
    Ensures (start (Reading.noting (validator engine)) tag) r (fun _ => InStep engine) (Heard engine) := by
  refine ensures_start (fun _ _ => InTag engine) h.heard (fun _ => ?_) (fun _ label ns rest t ht => ?_)
    (fun _ _ => InTag.heard) fun name attributes declared t ht hname hattributes => ?_
  · -- The reading has opened the scope of the element; the validation does so at what comes first of it.
    refine ⟨?_, ⟨r.scopes, Scopes.inside_push _, h.stacked⟩, h.heard⟩
    simp [openScope, h.closed, h.scopes]
  · refine (ensures_heard ht.heard (informed_of_no_call fun _ => rfl)).mono ?_ fun _ => id
    rintro _ _ ⟨s, rfl, hheard, hscopes, (hopened : s.scopeOpened = true)⟩
    obtain ⟨outer, hin, hstacked⟩ := ht.stacked
    refine ⟨?_, ⟨outer, hin.declare label ns, hstacked⟩, hheard⟩
    change s.openScope.scopes = t.scopes.declare label ns
    rw [openScope, if_pos hopened, hscopes]
    exact congrArg (Scopes.declare · label ns) ht.scopes
  · refine (ensures_heard ht.heard (ht.informed_startElement hname hattributes)).mono ?_ fun _ => id
    rintro _ _ ⟨s, rfl, hheard, hscopes, hopened⟩
    obtain ⟨outer, hin, hstacked⟩ := ht.stacked
    exact ⟨hscopes.trans ht.scopes, hopened, hstacked.element hin hname, hheard⟩

theorem InStep.finish (h : InStep engine r) :
    Ensures (finish (Reading.noting (validator engine))) r (fun _ => InStep engine) (Heard engine) := by
  refine ensures_finish (fun _ => Leaving engine) (fun _ => h.heard) (fun element outer ho => ?_) (fun label _ t ht => ?_)
    fun t ht => ⟨ht.scopes, ht.closed, ht.stacked, ht.heard⟩
  · -- The element is closed before the event is told, its scope after it.
    refine (ensures_heard (r := { r with opened := outer }) h.heard (h.informed_endElement ho)).mono ?_ fun _ => id
    rintro _ _ ⟨s, rfl, hheard, hscopes, hopened⟩
    have hstacked := h.stacked
    rw [ho] at hstacked
    cases hstacked with
    | element hstacked hin _ =>
      refine ⟨hscopes.trans (congrArg Scopes.pop h.scopes), hopened.trans h.closed, ?_, hheard⟩
      change Stacked outer r.scopes.pop
      rwa [hin.pop_eq]
  · refine (ensures_heard ht.heard (informed_of_no_call fun _ => rfl)).mono ?_ fun _ => id
    rintro _ _ ⟨s, rfl, hheard, hscopes, hopened⟩
    exact ⟨hscopes.trans ht.scopes, hopened.trans ht.closed, ht.stacked, hheard⟩

/-- An event beside the elements leaves the validation in step. -/
theorem InStep.aside (h : InStep engine r) (hi : Informed engine ⟨r.map Prod.fst, event⟩)
    (hafter : ∀ s : Validation ς, s.scopesAfter event = (s.scopes, s.scopeOpened)) :
    Ensures ((Reading.noting (validator engine)).handle event) r (fun _ => InStep engine) (Heard engine) := by
  refine (ensures_heard h.heard hi).mono ?_ fun _ => id
  rintro _ _ ⟨s, rfl, hheard, hscopes, hopened⟩
  rw [hafter] at hscopes hopened
  exact ⟨hscopes.trans h.scopes, hopened.trans h.closed, h.stacked, hheard⟩

theorem InStep.read (h : InStep engine r) (piece : Piece) :
    Ensures (read (Reading.noting (validator engine)) piece) r (fun _ => InStep engine) (Heard engine) := by
  have haside (hp : piece.isTag = false) : Ensures (Document.read (Reading.noting (validator engine)) piece) r
      (fun _ => InStep engine) (Heard engine) := by
    refine ensures_read_of_aside _ h (fun _ => InStep.heard) hp (fun content t ht => ?_) fun entity t ht => ?_
    · refine ht.aside (ht.informed_aside ?_ (fun _ => rfl) fun _ => rfl) fun _ => rfl
      rintro _ _ ⟨⟩
      rfl
    · exact ht.aside (informed_of_no_call fun _ => rfl) fun _ => rfl
  cases piece with
  | startTag tag => exact h.start tag
  | emptyTag tag => exact (h.start tag).bind fun _ _ => InStep.finish
  | endTag => exact h.finish
  | text | literal | doctype | remark => exact haside rfl

theorem InStep.located (h : InStep engine r) (location : Option Location) :
    InStep engine ((Reading.noting (validator engine)).locate location r) := ⟨h.scopes, h.closed, h.stacked, h.heard⟩

theorem InStep.document (h : InStep engine r) (hevent : event = .startDocument ∨ event = .endDocument) :
    Ensures ((Reading.noting (validator engine)).handle event) r (fun _ => InStep engine) (Heard engine) := by
  rcases hevent with rfl | rfl <;>
  · refine h.aside (h.informed_aside ?_ (fun _ => rfl) fun _ => rfl) fun _ => rfl
    rintro _ _ ⟨⟩
    rfl

/-- A validation before the first event of a document, new or reset. -/
def Ready (engine : Engine ς) (s : Validation ς) : Prop :=
  (∃ receiver limits source, s = .new engine receiver limits source) ∨ ∃ s', s = .reset engine s'

/-- Whatever document a validation reads that is new or just reset, the calls into its session are those of the events
that it is told, and at every one of them the scopes bind labels as those of the reading do, they are as many as the
open elements and one for the document, and the names handed over fit into them. -/
theorem calls_see_scopes (engine : Engine ς) {s : Validation ς} (hs : Ready engine s) (place : Nat → Location)
    (scan : Scan) :
    (sessionCalls engine place scan s =
      (tellings (validator engine) place scan s).flatMap fun t => calls engine t.event t.state) ∧
    ∀ t ∈ tellings (validator engine) place scan s, ∀ c ∈ calls engine t.event t.state,
      (∀ label, c.2.scopes.namespace? label = t.scopes.namespace? label) ∧ c.2.scopes.depth = 1 + t.elements ∧
        ∀ name ∈ c.1.names, name.FitsIn c.2.scopes := by
  have hready : InStep engine (⟨.empty, [], (s, [])⟩ : Noted ς) := by
    refine ⟨?_, ?_, .document, fun _ ht => absurd ht List.not_mem_nil⟩ <;>
    · obtain ⟨receiver, limits, source, rfl⟩ | ⟨s, rfl⟩ := hs <;> rfl
  have hrun : Ensures (readScan (Reading.noting (validator engine)) place scan) ⟨.empty, [], (s, [])⟩
      (fun _ => Heard engine) (Heard engine) := by
    refine ensures_readScan (fun _ => InStep engine) ((hready.located _).document (.inl rfl))
      (fun offset piece _ t ht => (ht.located _).read piece) (fun _ _ => InStep.heard)
      (fun _ _ _ ht _ => (ht.located _).heard)
      fun offset t _ ht _ => ?_
    exact ((ht.located _).document (.inr rfl)).mono (fun _ _ => InStep.heard) fun _ => id
  refine ⟨sessionCalls_eq engine place scan s, fun t ht c hc => ?_⟩
  obtain ⟨hscopes, hdepth, hnames⟩ := ensures_state_iff.1 hrun t ht c hc
  rw [hscopes]
  exact ⟨fun _ => rfl, hdepth, hnames⟩

/-- An engine that reports nothing. -/
def quiet : Engine Unit := ⟨fun _ => (), fun _ _ _ => .done (.ok ()) (), id⟩

/-- An element in another, each of which declares the label `p`. -/
def redeclaring : Scan where
  pieces := [(0, .startTag ⟨"p:e", " xmlns:p='u'".toList⟩), (19, .emptyTag ⟨"p:f", " xmlns:p='v' p:a='1'".toList⟩),
    (45, .endTag)]
  ending := .finished 51

/-- The statement for the call that tells of the inner element: the label stands for what it declares itself. -/
theorem calls_see_scopes_redeclaring :
    let s : Validation Unit := .new quiet .silent {} none
    Ready quiet s ∧ ∃ t ∈ tellings (validator quiet) (⟨none, 1, ·⟩) redeclaring s, ∃ c ∈ calls quiet t.event t.state,
      c ∈ sessionCalls quiet (⟨none, 1, ·⟩) redeclaring s ∧
        c.1 = .startElement ⟨"p", "f", "p:f", some "v"⟩ [(⟨"p", "a", "p:a", some "v"⟩, "1")] ∧
        t.scopes.namespace? "p" = some "v" ∧ c.2.scopes.namespace? "p" = some "v" ∧ c.2.scopes.depth = 3 := by
  have hready : Ready quiet (.new quiet .silent {} none) := .inl ⟨_, _, _, rfl⟩
  have hcall : ((tellings (validator quiet) (⟨none, 1, ·⟩) redeclaring (.new quiet .silent {} none)).map fun t =>
      (t.elements, (calls quiet t.event t.state).head?.map Prod.fst))[4]? = some (2,
        some (.startElement ⟨"p", "f", "p:f", some "v"⟩ [(⟨"p", "a", "p:a", some "v"⟩, "1")])) := by
    decide +kernel
  rw [List.getElem?_map] at hcall
  obtain ⟨t, ht, heq⟩ := Option.map_eq_some_iff.1 hcall
  obtain ⟨helements, hcall⟩ := Prod.mk.inj heq
  obtain ⟨c, hc, hcall⟩ := Option.map_eq_some_iff.1 hcall
  have ht := List.mem_of_getElem? ht
  have hc := List.mem_of_mem_head? hc
  obtain ⟨hall, hsee⟩ := calls_see_scopes quiet hready (⟨none, 1, ·⟩) redeclaring
  obtain ⟨hlabels, hdepth, hnames⟩ := hsee t ht c hc
  rw [hcall] at hnames
  have hlabel : c.2.scopes.namespace? "p" = some "v" := hnames _ List.mem_cons_self (by decide)
  refine ⟨hready, t, ht, c, hc, ?_, hcall, (hlabels "p").symm.trans hlabel, hlabel, by rw [hdepth, helements]⟩
  rw [hall]
  exact List.mem_flatMap.2 ⟨t, ht, hc⟩

end Validation

end Xsd

end RelaxNg
