import RelaxNg.Proofs.Xml.Telling
import Mathlib.Data.List.TakeDrop
import Mathlib.Data.List.TakeWhile

/-!
# Well-nested documents

What a validator is told of a scan is a well-nested document (`WellNestedDocument`), or the beginning of one if reading
ends early (`Document.tells_wellNested`). In such a document elements nest properly. Each is told between its
declarations and their ends, ends with the name that it began with, and has its name and those of its attributes from
its own declarations and those of the elements around it alone (`elementName?`, `attributeName?`): the innermost element
that declares a label decides. Between two pieces of a scan the elements that are open make up for what is still to come
(`Begun`), and the scopes of the reading are the declarations of the open elements (`scopesOf`).
-/

namespace RelaxNg.Xml

open Attempt

/-! ## Names in documents -/

/-- The declarations of an element, label and namespace of each, in the order in which they are told. -/
abbrev Declarations := List (String × String)

/-- What stands for a label among the declarations of the open elements, the innermost first. The innermost element that
declares it decides, by its last declaration of it; the empty namespace takes the binding back. -/
def declaration? (label : String) : List Declarations → Option String
  | [] => none
  | own :: outer =>
    match own.reverse.find? fun d => d.1 = label with
    | some (_, ns) => if ns = "" then none else some ns
    | none => declaration? label outer

/-- What a label stands for in some open elements, by their declarations, the innermost first. -/
def bound? (ds : List Declarations) (label : String) : Option String :=
  if label = "xml" then some Namespace.xml else declaration? label ds

/-- The name of an element by its written name; without a label it is in the namespace that is declared for none. -/
def elementName? (ds : List Declarations) (written : String) : Option QName :=
  match splitColon written with
  | (some label, localName) => (bound? ds label).map fun ns => ⟨ns, localName⟩
  | (none, localName) => some ⟨(bound? ds "").getD "", localName⟩

/-- The name of an attribute by its written name; without a label it is in no namespace. -/
def attributeName? (ds : List Declarations) (written : String) : Option QName :=
  if (splitColon written).1 = none then some ⟨"", written⟩ else elementName? ds written

/-! ## Events that nest -/

/-- Events that nest properly in elements with some declarations, the innermost first. -/
inductive WellNested : List Declarations → List Event → Prop
  | nil (ds : List Declarations) : WellNested ds []
  | text {ds events} (content : String) (h : WellNested ds events) : WellNested ds (.text content :: events)
  | entity {ds events} (entity : UnparsedEntity) (h : WellNested ds events) : WellNested ds (.entity entity :: events)
  /-- An element is told between its declarations and their ends, and ends as it began. -/
  | element {ds own name written attributes inside events} (hname : elementName? (own :: ds) written = some name)
      (hattributes : ∀ a ∈ attributes, attributeName? (own :: ds) a.written = some a.name)
      (hinside : WellNested (own :: ds) inside) (h : WellNested ds events) :
      WellNested ds (own.map (fun d => Event.declare d.1 d.2) ++ .startElement name written attributes ::
        (inside ++ .endElement name written :: (own.map (fun d => Event.undeclare d.1) ++ events)))

/-- A document from its start to its end, with elements that nest properly. -/
inductive WellNestedDocument : List Event → Prop
  | intro {body} (h : WellNested [] body) : WellNestedDocument (.startDocument :: (body ++ [.endDocument]))

/-! ## Events that are not finished -/

/-- An element that is open: its name, its written name and its declarations. -/
structure OpenTag where
  name : QName
  written : String
  own : Declarations

/-- What was told of a document so far, in some open elements, the innermost first. -/
inductive Begun : List OpenTag → List Event → Prop
  | document {events} (h : WellNested [] events) : Begun [] events
  | element {tags before name written own attributes inside} (h : Begun tags before)
      (hname : elementName? (own :: tags.map OpenTag.own) written = some name)
      (hattributes : ∀ a ∈ attributes, attributeName? (own :: tags.map OpenTag.own) a.written = some a.name)
      (hinside : WellNested (own :: tags.map OpenTag.own) inside) :
      Begun (⟨name, written, own⟩ :: tags)
        (before ++ (own.map (fun d => Event.declare d.1 d.2) ++ .startElement name written attributes :: inside))

variable {ds : List Declarations} {tags : List OpenTag} {tag : OpenTag} {events more : List Event}

theorem WellNested.append (h : WellNested ds events) (h' : WellNested ds more) : WellNested ds (events ++ more) := by
  induction h with
  | nil => exact h'
  | text content _ ih => exact .text content (ih h')
  | entity entity _ ih => exact .entity entity (ih h')
  | element hname hattributes hinside _ _ ih =>
    have h := WellNested.element hname hattributes hinside (ih h')
    simpa only [List.append_assoc, List.cons_append] using h

/-- What is told in the innermost open element. -/
theorem Begun.append (h : Begun tags events) (h' : WellNested (tags.map OpenTag.own) more) :
    Begun tags (events ++ more) := by
  cases h with
  | document h => exact .document (h.append h')
  | element h hname hattributes hinside =>
    have h := Begun.element h hname hattributes (hinside.append h')
    simpa only [List.append_assoc, List.cons_append] using h

/-- The innermost open element ends. -/
theorem Begun.finish (h : Begun (tag :: tags) events) :
    Begun tags (events ++ .endElement tag.name tag.written :: tag.own.map fun d => Event.undeclare d.1) := by
  cases h with
  | element h hname hattributes hinside =>
    have h := h.append (.element hname hattributes hinside (.nil _))
    simpa only [List.append_assoc, List.cons_append, List.append_nil] using h

/-- What was begun can be finished. -/
theorem Begun.exists_document (h : Begun tags events) :
    ∃ document, WellNestedDocument document ∧ .startDocument :: events <+: document := by
  induction tags generalizing events with
  | nil =>
    cases h with
    | document h => exact ⟨_, .intro h, _, rfl⟩
  | cons tag tags ih =>
    obtain ⟨document, hdocument, hprefix⟩ := ih h.finish
    exact ⟨document, hdocument, (List.prefix_append (_ :: events) _).trans hprefix⟩

/-- Declarations that are told belong to an element that can still come. -/
theorem Begun.exists_document_of_declared (h : Begun tags events) (own : Declarations) :
    ∃ document, WellNestedDocument document ∧
      .startDocument :: (events ++ own.map fun d => Event.declare d.1 d.2) <+: document := by
  have hname : elementName? (own :: tags.map OpenTag.own) "" =
      some ⟨(bound? (own :: tags.map OpenTag.own) "").getD "", ""⟩ := rfl
  have hnext := h.append (.element hname (fun a ha => absurd ha List.not_mem_nil) (.nil _) (.nil _))
  obtain ⟨document, hdocument, hprefix⟩ := hnext.exists_document
  refine ⟨document, hdocument, List.IsPrefix.trans ?_ hprefix⟩
  rw [← List.append_assoc]
  exact List.prefix_append (_ :: _) _

/-! ## Scopes of open elements -/

/-- The scopes of a reading in which elements with some declarations are open, the innermost first. -/
def scopesOf : List Declarations → Scopes
  | [] => .empty
  | own :: outer =>
    { current := own.reverse.map fun d => ⟨d.1, if d.2 = "" then none else some d.2⟩
      enclosing := (scopesOf outer).current :: (scopesOf outer).enclosing }

theorem scopesOf_declare (own : Declarations) (ds : List Declarations) (label ns : String) :
    (scopesOf (own :: ds)).declare label ns = scopesOf ((own ++ [(label, ns)]) :: ds) := by
  simp [scopesOf, Scopes.declare]

theorem scopesOf_pop (own : Declarations) (ds : List Declarations) : (scopesOf (own :: ds)).pop = scopesOf ds := rfl

theorem scopesOf_namespace? (ds : List Declarations) (label : String) :
    (scopesOf ds).namespace? label = bound? ds label := by
  have hfind : ((scopesOf ds).bindings.find? fun b => b.label = label).bind Binding.ns = declaration? label ds := by
    induction ds with
    | nil => rfl
    | cons own ds ih =>
      have hbindings : (scopesOf (own :: ds)).bindings =
          (own.reverse.map fun d => (⟨d.1, if d.2 = "" then none else some d.2⟩ : Binding)) ++ (scopesOf ds).bindings := rfl
      rw [hbindings, List.find?_append, List.find?_map, declaration?]
      change ((Option.map _ (own.reverse.find? fun d => d.1 = label)).or _).bind Binding.ns = _
      cases own.reverse.find? fun d => d.1 = label with
      | none => exact ih
      | some d => rfl
  rw [Scopes.namespace?, hfind]
  rfl

variable {written : String} {name : QName}

theorem splitColon_eq_none_iff : (splitColon written).1 = none ↔ ':' ∉ written.toList := by
  have hdrop : written.toList.dropWhile (· != ':') = [] ↔ ':' ∉ written.toList := by
    simp only [List.dropWhile_eq_nil_iff, bne_iff_ne]
    exact ⟨fun h hmem => h _ hmem rfl, fun h c hmem hc => h (hc ▸ hmem)⟩
  unfold splitColon
  rw [List.span_eq_takeWhile_dropWhile, ← hdrop]
  cases written.toList.dropWhile (· != ':') <;> simp

theorem elementName?_of_resolve (h : (scopesOf ds).resolve written = .ok name) :
    elementName? ds written = some name := by
  unfold Scopes.resolve at h
  split at h
  · next label localName hw =>
    rw [scopesOf_namespace?] at h
    split at h
    · next ns hns =>
      cases h
      simp [elementName?, hw, hns]
    · cases h
  · next localName hw =>
    cases h
    rw [Scopes.default?, scopesOf_namespace?]
    simp [elementName?, hw]

theorem attributeName?_of_resolveAttribute (h : (scopesOf ds).resolveAttribute written = .ok name) :
    attributeName? ds written = some name := by
  unfold Scopes.resolveAttribute at h
  unfold attributeName?
  split at h
  · next hcolon =>
    rw [if_neg (by simpa [splitColon_eq_none_iff] using hcolon)]
    exact elementName?_of_resolve h
  · next hcolon =>
    rw [if_pos (by simpa [splitColon_eq_none_iff] using hcolon)]
    cases h
    rfl

/-! ## Along the reading -/

def OpenTag.opened (tag : OpenTag) : OpenElement := ⟨tag.name, tag.written, tag.own.map Prod.fst⟩

namespace Document

variable {σ : Type} {v : Validator σ} {r : Reading (σ × List (Telling σ))} {own : Declarations} {event : Event}
  {labels : List String}

/-- The events that were noted so far. -/
def told (r : Reading (σ × List (Telling σ))) : List Event := r.state.2.map Telling.event

theorem told_noted (event : Event) (s : σ) (r : Reading (σ × List (Telling σ))) :
    told (r.noted event s) = told r ++ [event] := List.map_append

/-- What was told is the beginning of a document. -/
def Unbroken (r : Reading (σ × List (Telling σ))) : Prop :=
  ∃ document, WellNestedDocument document ∧ told r <+: document

/-- Between two pieces, where some elements are open. -/
structure Between (tags : List OpenTag) (r : Reading (σ × List (Telling σ))) : Prop where
  scopes : r.scopes = scopesOf (tags.map OpenTag.own)
  opened : r.opened = tags.map OpenTag.opened
  begun : ∃ events, Begun tags events ∧ told r = .startDocument :: events

/-- In a start tag, of which some declarations were told. -/
structure Declaring (tags : List OpenTag) (own : Declarations) (r : Reading (σ × List (Telling σ))) : Prop where
  scopes : r.scopes = scopesOf (own :: tags.map OpenTag.own)
  opened : r.opened = tags.map OpenTag.opened
  begun : ∃ events, Begun tags events ∧
    told r = .startDocument :: (events ++ own.map fun d => Event.declare d.1 d.2)

/-- After the end of an element, where the ends of some declarations are still to be told. -/
structure Ending (tags : List OpenTag) (labels : List String) (r : Reading (σ × List (Telling σ))) : Prop where
  scopes : ∃ own, r.scopes = scopesOf (own :: tags.map OpenTag.own)
  opened : r.opened = tags.map OpenTag.opened
  begun : ∃ events, Begun tags (events ++ labels.map Event.undeclare) ∧ told r = .startDocument :: events

theorem Between.unbroken (h : Between tags r) : Unbroken r := by
  obtain ⟨events, hbegun, htold⟩ := h.begun
  obtain ⟨document, hdocument, hprefix⟩ := hbegun.exists_document
  exact ⟨document, hdocument, htold ▸ hprefix⟩

theorem Declaring.unbroken (h : Declaring tags own r) : Unbroken r := by
  obtain ⟨events, hbegun, htold⟩ := h.begun
  obtain ⟨document, hdocument, hprefix⟩ := hbegun.exists_document_of_declared own
  exact ⟨document, hdocument, htold ▸ hprefix⟩

theorem Ending.unbroken (h : Ending tags labels r) : Unbroken r := by
  obtain ⟨events, hbegun, htold⟩ := h.begun
  obtain ⟨document, hdocument, hprefix⟩ := hbegun.exists_document
  exact ⟨document, hdocument, htold ▸ (List.prefix_append (_ :: events) _).trans hprefix⟩

/-- An event is told whatever the validator answers to it. -/
theorem ensures_told {ok : Reading (σ × List (Telling σ)) → Prop} (hok : ∀ s, ok (r.noted event s))
    (hunbroken : ∀ s, Unbroken (r.noted event s)) :
    Ensures ((Reading.noting v).handle event) r (fun _ => ok) Unbroken := by
  refine ensures_noting.2 ?_
  unfold Ensures
  split
  · exact hok _
  · exact hunbroken _

theorem Between.start (h : Between tags r) (tag : Tag) :
    Ensures (start (Reading.noting v) tag) r (fun _ t => ∃ tags, Between tags t) Unbroken := by
  refine ensures_start
    (fun declared rest t => ∃ own, declared = own ++ rest ∧ Declaring tags own t) h.unbroken ?_ ?_ ?_ ?_
  · intro declared
    refine ⟨[], rfl, congrArg Scopes.push h.scopes, h.opened, ?_⟩
    obtain ⟨events, hbegun, htold⟩ := h.begun
    exact ⟨events, hbegun, htold.trans (by simp)⟩
  · rintro _ label ns rest t ⟨own, rfl, ht⟩
    have hnext (s : σ) : Declaring tags (own ++ [(label, ns)])
        ({ t.noted (.declare label ns) s with scopes := t.scopes.declare label ns }) := by
      refine ⟨?_, ht.opened, ?_⟩
      · exact (congrArg (Scopes.declare · label ns) ht.scopes).trans (scopesOf_declare ..)
      · obtain ⟨events, hbegun, htold⟩ := ht.begun
        refine ⟨events, hbegun, (told_noted _ s t).trans ?_⟩
        simp [htold]
    exact ensures_told (fun s => ⟨_, by simp, hnext s⟩) fun s => (hnext s).unbroken
  · rintro _ t ⟨own, rfl, ht⟩
    exact ht.unbroken
  · rintro name attributes _ t ⟨own, rfl, ht⟩ hname hattributes
    rw [ht.scopes] at hname hattributes
    rw [List.append_nil]
    have hnext (s : σ) : Between (⟨name, tag.written, own⟩ :: tags)
        { t.noted (.startElement name tag.written attributes) s with
          opened := ⟨name, tag.written, own.map Prod.fst⟩ :: t.opened } := by
      refine ⟨ht.scopes, congrArg _ ht.opened, ?_⟩
      obtain ⟨events, hbegun, htold⟩ := ht.begun
      refine ⟨_, hbegun.element (elementName?_of_resolve hname)
        (fun a ha => attributeName?_of_resolveAttribute (hattributes a ha)) (.nil _), (told_noted _ s t).trans ?_⟩
      simp [htold]
    exact ensures_told (fun s => ⟨_, hnext s⟩) fun s => (hnext s).unbroken

theorem Between.finish (h : Between tags r) :
    Ensures (finish (Reading.noting v)) r (fun _ t => ∃ tags, Between tags t) Unbroken := by
  cases tags with
  | nil =>
    refine ensures_finish (fun _ _ => False) (fun _ => h.unbroken) (fun element outer ho => ?_) ?_ ?_
    · rw [h.opened] at ho
      cases ho
    · rintro _ _ _ ⟨⟩
    · rintro _ ⟨⟩
  | cons tag tags =>
    refine ensures_finish (Ending tags) (fun _ => h.unbroken) (fun element outer ho => ?_) (fun label rest t ht => ?_)
      fun t ht => ?_
    · rw [h.opened] at ho
      cases ho
      have hnext (s : σ) : Ending tags tag.opened.labels
          (({ r with opened := tags.map OpenTag.opened }).noted (.endElement tag.name tag.written) s) := by
        obtain ⟨events, hbegun, htold⟩ := h.begun
        refine ⟨⟨_, h.scopes⟩, rfl, events ++ [.endElement tag.name tag.written], ?_, ?_⟩
        · have hfinish := hbegun.finish
          simpa [OpenTag.opened, Function.comp_def] using hfinish
        · rw [told_noted]
          exact congrArg (· ++ [Event.endElement tag.name tag.written]) htold
      exact ensures_told hnext fun s => (hnext s).unbroken
    · have hnext (s : σ) : Ending tags rest (t.noted (.undeclare label) s) := by
        obtain ⟨events, hbegun, htold⟩ := ht.begun
        refine ⟨ht.scopes, ht.opened, events ++ [.undeclare label], by simpa using hbegun, ?_⟩
        rw [told_noted, htold]
        rfl
      exact ensures_told hnext fun s => (hnext s).unbroken
    · obtain ⟨own, hscopes⟩ := ht.scopes
      obtain ⟨events, hbegun, htold⟩ := ht.begun
      refine ⟨tags, ?_, ht.opened, events, by simpa using hbegun, htold⟩
      exact (congrArg Scopes.pop hscopes).trans (scopesOf_pop ..)

/-- Text and entities are told in the innermost open element. -/
theorem Between.aside (h : Between tags r) (hevent : ∀ ds, WellNested ds [event]) :
    Ensures ((Reading.noting v).handle event) r (fun _ => Between tags) Unbroken := by
  have hnext (s : σ) : Between tags (r.noted event s) := by
    obtain ⟨events, hbegun, htold⟩ := h.begun
    refine ⟨h.scopes, h.opened, _, hbegun.append (hevent _), ?_⟩
    rw [told_noted, htold]
    rfl
  exact ensures_told hnext fun s => (hnext s).unbroken

theorem Between.read (h : Between tags r) (piece : Piece) :
    Ensures (read (Reading.noting v) piece) r (fun _ t => ∃ tags, Between tags t) Unbroken := by
  have haside (hp : piece.isTag = false) :
      Ensures (Document.read (Reading.noting v) piece) r (fun _ t => ∃ tags, Between tags t) Unbroken := by
    refine (ensures_read_of_aside (Between tags) h (fun _ => Between.unbroken) hp (fun content t ht => ?_)
      fun entity t ht => ?_).mono (fun _ t ht => ⟨tags, ht⟩) fun _ => id
    · exact ht.aside fun ds => .text content (.nil ds)
    · exact ht.aside fun ds => .entity entity (.nil ds)
  cases piece with
  | startTag tag => exact h.start tag
  | emptyTag tag => exact (h.start tag).bind fun _ t ⟨_, ht⟩ => ht.finish
  | endTag => exact h.finish
  | text | literal | doctype | remark => exact haside rfl

theorem Between.located (h : Between tags r) (location : Option Location) :
    Between tags ((Reading.noting v).locate location r) := ⟨h.scopes, h.opened, h.begun⟩

end Document

end RelaxNg.Xml
