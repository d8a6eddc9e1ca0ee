import RelaxNg.Proofs.Validation.Integrity
import Mathlib.Data.List.Count

/-!
# Dangling references

At the end of a document an identity tracker whose receiver goes on reports every use of an identity that is not
declared, and nothing else (`IdentityTracker.Follows.reports_dangling`). Each use is reported where the tag stands that
it belongs to, so that two uses at one place make two equal reports (`IdentityTracker.repeated_reported_twice`), and all
reports differ exactly if no dangling identity is used twice at one place.

What a document uses and declares is noted from outside (`Notes`): the values of an identity type that attributes and
elements have, each with the place of its tag. The tracker keeps the declared identities and, grouped by identity, the
places of the uses (`IdentityTracker.Holds`); its stack of open elements is that of the notes
(`IdentityTracker.Mirrors`).
-/

namespace RelaxNg

/-! ## What is noted of documents -/

/-- A value of an identity type with the place of its tag. -/
abbrev PlacedValue := TypedValue × Option Location

/-- A use of an identity, with the place of its tag. -/
abbrev Use := String × Option Location

/-- The identity that a value declares. -/
def TypedValue.declares : TypedValue → List String
  | (.id, value) => (IdentityTracker.identity? value).toList
  | _ => []

/-- The identities that a value uses; what is no name is not one. -/
def TypedValue.uses : TypedValue → List String
  | (.id, _) => []
  | (.idref, value) => (IdentityTracker.identity? value).toList
  | (.idrefs, value) => (Xml.tokens value).filter Xml.isNCName

def declaredBy (values : List PlacedValue) : List String := values.flatMap fun v => v.1.declares

def usesOf (values : List PlacedValue) : List Use := values.flatMap fun v => v.1.uses.map (·, v.2)

/-- An element that is open, and the text directly in it so far. -/
structure OpenTag where
  name : QName
  location : Option Location
  text : String

/-- What is noted of documents: the open elements, the innermost first, and the values that are complete. -/
structure Notes where
  opened : List OpenTag := []
  values : List PlacedValue := []

namespace Notes

/-- The notes after an event at a place. -/
def noted (types : IdentityMap) (location : Option Location) (n : Notes) : Event → Notes
  | .startElement name _ attributes =>
    { opened := ⟨name, location, ""⟩ :: n.opened
      values := n.values ++ (types.attributeValues name attributes).map (·, location) }
  | .text piece =>
    match n.opened with
    | [] => n
    | tag :: outer => { n with opened := { tag with text := tag.text ++ piece } :: outer }
  | .endElement _ _ =>
    match n.opened with
    | [] => n
    | tag :: outer =>
      { opened := outer, values := n.values ++ (types.elementValue tag.name tag.text).map (·, tag.location) }
  | _ => n

/-- The uses of identities that no value declares, before or after. -/
def dangling (n : Notes) : List Use := (usesOf n.values).filter fun use => use.1 ∉ declaredBy n.values

end Notes

namespace IdentityTracker

open Attempt

def danglingReport (use : Use) : Diagnostic := ⟨.error, "IDREF \"" ++ use.1 ++ "\" without matching ID", use.2⟩

def handle : Event → Tracking
  | .startElement name _ attributes => startElement name attributes
  | .endElement _ _ => endElement
  | .text content => change (text content)
  | .endDocument => endDocument
  | _ => pure ()

def after (c : Context) (t : IdentityTracker) (event : Event) : IdentityTracker := ((handle event).runFrom (c, t)).2.2

/-- A tracker and the notes after some events, each at some place, with receivers that go on, and resets. -/
inductive Follows (types : IdentityMap) : IdentityTracker → Notes → Prop
  | new : Follows types { types } {}
  | event {t n} (c : Context) (hc : c.GoesOn) (event : Event) (h : Follows types t n) :
      Follows types (after c t event) (n.noted types c.location event)
  | reset {t n} (h : Follows types t n) : Follows types t.reset {}

/-- The uses that references stand for. -/
def placesOf (references : List (String × List (Option Location))) : List Use :=
  references.flatMap fun entry => entry.2.map (entry.1, ·)

/-- A tracker holds what values declare and use. -/
structure Holds (values : List PlacedValue) (t : IdentityTracker) : Prop where
  declared : ∀ token, token ∈ t.declared.map Prod.fst ↔ token ∈ declaredBy values
  references : (placesOf t.references).Perm (usesOf values)

variable {types : IdentityMap} {limits : Limits} {level : Nat} {stack : List (Option OpenValue)}
  {s s' : Context × IdentityTracker} {c : Context} {t : IdentityTracker} {n : Notes} {values : List PlacedValue}
  {v : PlacedValue} {type : IdentityType} {value token : String} {location : Option Location}
  {references : List (String × List (Option Location))} {ds : List Diagnostic}

theorem declaredBy_concat : declaredBy (values ++ [v]) = declaredBy values ++ v.1.declares := by
  simp [declaredBy]

theorem usesOf_concat : usesOf (values ++ [v]) = usesOf values ++ v.1.uses.map (·, v.2) := by
  simp [usesOf]

/-- A reference that is added is one use more, wherever it is put. -/
theorem placesOf_addReference :
    (placesOf (addReference token location references)).Perm (placesOf references ++ [(token, location)]) := by
  induction references with
  | nil => simp [placesOf, addReference]
  | cons entry rest ih =>
    unfold addReference
    split
    · next heq =>
      subst heq
      simp only [placesOf, List.flatMap_cons, List.map_append, List.append_assoc]
      apply List.Perm.append_left
      exact List.perm_append_comm
    · simp only [placesOf, List.flatMap_cons, List.append_assoc]
      apply List.Perm.append_left
      exact ih

/-! ## Values -/

/-- Checking a value that declares nothing adds its uses to the references. -/
theorem Holds.refer (h : Holds values s.2) (hv : v.1.declares = []) (hd : s'.2.declared = s.2.declared)
    (hr : (placesOf s'.2.references).Perm (placesOf s.2.references ++ v.1.uses.map (·, v.2))) :
    Holds (values ++ [v]) s'.2 := by
  constructor
  · intro token
    rw [hd, h.declared, declaredBy_concat, hv, List.append_nil]
  · rw [usesOf_concat]
    exact hr.trans (h.references.append_right _)

/-- Checking a value that is malformed changes nothing. -/
theorem Holds.malformed (h : Holds values s.2) (hv : v.1.declares = []) (hu : v.1.uses = []) (hs : s'.2 = s.2) :
    Holds (values ++ [v]) s'.2 := by
  apply h.refer hv (by rw [hs])
  rw [hs, hu, List.map_nil, List.append_nil]

theorem declare_holds (hs : Stands types limits level stack s) (h : Holds values s.2)
    (hi : identity? value = some token) : ∃ s', (declare token location).runFrom s = (.ok (), s') ∧
      Stands types limits level stack s' ∧ Holds (values ++ [((.id, value), location)]) s'.2 := by
  have hdeclares : TypedValue.declares (.id, value) = [token] := by simp [TypedValue.declares, hi]
  have huses : usesOf (values ++ [((.id, value), location)]) = usesOf values := by
    rw [usesOf_concat]
    exact List.append_nil _
  unfold declare
  rw [runFrom_get_then]
  cases hd : s.2.declaration? token with
  | some first =>
    obtain ⟨he, hs₁⟩ := hs.issue ⟨.error, "ID \"" ++ token ++ "\" has already been defined", location⟩
    obtain ⟨hw, hs₂⟩ := hs₁.issue ⟨.warning, "first occurrence of ID \"" ++ token ++ "\"", first⟩
    refine ⟨_, runFrom_then_ok.2 ⟨_, he, hw⟩, hs₂, ?_, ?_⟩
    · have hmem : token ∈ declaredBy values := by
        rw [← h.declared]
        by_contra hn
        rw [declaration?_eq_none_iff.2 hn] at hd
        cases hd
      intro token'
      show token' ∈ s.2.declared.map Prod.fst ↔ _
      rw [h.declared, declaredBy_concat, hdeclares, List.mem_append, List.mem_singleton]
      exact ⟨.inl, fun hor => hor.elim id fun heq => heq ▸ hmem⟩
    · rw [huses]
      exact h.references
  | none =>
    refine ⟨_, runFrom_modify _ _, ⟨hs.goesOn, hs.limits, hs.level, hs.types, hs.values⟩, ?_, ?_⟩
    · intro token'
      show token' ∈ (s.2.declared ++ [(token, location)]).map Prod.fst ↔ _
      rw [List.map_append, List.mem_append, h.declared, declaredBy_concat, hdeclares, List.mem_append]
      rfl
    · rw [huses]
      exact h.references

/-- Words are used as far as they are names. -/
theorem refer_words_holds (location : Option Location) (hs : Stands types limits level stack s) (words : List String) :
    ∃ s', (words.forM fun word => if Xml.isNCName word then refer word location
        else onContext (Context.errorAt ("invalid IDREFS token \"" ++ word ++ "\"") location)).runFrom s =
          (.ok (), s') ∧
      Stands types limits level stack s' ∧ s'.2.declared = s.2.declared ∧
      (placesOf s'.2.references).Perm (placesOf s.2.references ++ (words.filter Xml.isNCName).map (·, location)) := by
  refine forM_invariant _ (fun seen s' => Stands types limits level stack s' ∧ s'.2.declared = s.2.declared ∧
    (placesOf s'.2.references).Perm (placesOf s.2.references ++ (seen.filter Xml.isNCName).map (·, location))) words s
    ⟨hs, rfl, by simp⟩ ?_
  rintro seen word s₁ - ⟨hs₁, hd, hr⟩
  rw [List.filter_append, List.map_append, ← List.append_assoc]
  split
  · next hname =>
    refine ⟨_, runFrom_modify _ _, ⟨hs₁.goesOn, hs₁.limits, hs₁.level, hs₁.types, hs₁.values⟩, hd, ?_⟩
    rw [List.filter_cons_of_pos hname]
    exact placesOf_addReference.trans (hr.append_right _)
  · next hname =>
    obtain ⟨hrun, hs₂⟩ := hs₁.issue ⟨.error, "invalid IDREFS token \"" ++ word ++ "\"", location⟩
    refine ⟨_, hrun, hs₂, hd, ?_⟩
    rw [List.filter_cons_of_neg hname, List.filter_nil, List.map_nil, List.append_nil]
    exact hr

theorem check_holds (location : Option Location) (hs : Stands types limits level stack s) (h : Holds values s.2) :
    ∃ s', (check type value location).runFrom s = (.ok (), s') ∧ Stands types limits level stack s' ∧
      Holds (values ++ [((type, value), location)]) s'.2 := by
  have report (message : String) (hd : TypedValue.declares (type, value) = [])
      (hu : TypedValue.uses (type, value) = []) : ∃ s',
      (onContext (Context.errorAt message location)).runFrom s = (.ok (), s') ∧ Stands types limits level stack s' ∧
        Holds (values ++ [((type, value), location)]) s'.2 := by
    obtain ⟨hrun, hs'⟩ := hs.issue ⟨.error, message, location⟩
    exact ⟨_, hrun, hs', h.malformed hd hu rfl⟩
  unfold check
  cases type with
  | id =>
    cases hi : identity? value with
    | none => exact report _ (by simp [TypedValue.declares, hi]) rfl
    | some token => exact declare_holds hs h hi
  | idref =>
    cases hi : identity? value with
    | none => exact report _ rfl (by simp [TypedValue.uses, hi])
    | some token =>
      refine ⟨_, runFrom_modify _ _, ⟨hs.goesOn, hs.limits, hs.level, hs.types, hs.values⟩, h.refer rfl ?_ ?_⟩
      · rfl
      · simpa [TypedValue.uses, hi] using placesOf_addReference
  | idrefs =>
    cases ht : Xml.tokens value with
    | nil => exact report _ rfl (by simp [TypedValue.uses, ht])
    | cons word words =>
      obtain ⟨s', hrun, hs', hd, hr⟩ := refer_words_holds location hs (word :: words)
      refine ⟨s', hrun, hs', h.refer rfl hd ?_⟩
      simpa only [TypedValue.uses, ht] using hr

/-! ## Events -/

/-- A tracker mirrors notes: it holds what they declare and use, and has a value for each open element that needs
one. -/
structure Mirrors (types : IdentityMap) (t : IdentityTracker) (n : Notes) : Prop where
  holds : Holds n.values t
  values : t.values = n.opened.map fun tag => opened types tag.name tag.location tag.text
  types : t.types = types

theorem mirrors_new (types : IdentityMap) : Mirrors types { types } {} :=
  ⟨⟨fun _ => Iff.rfl, .refl _⟩, rfl, rfl⟩

/-- What stays as it is while values are checked, in the state of a tracker that mirrors notes. -/
theorem Mirrors.stands (h : Mirrors types t n) (hc : c.GoesOn) :
    Stands types c.limits c.level (n.opened.map fun tag => opened types tag.name tag.location tag.text) (c, t) :=
  ⟨hc, rfl, rfl, h.types, h.values⟩

theorem Mirrors.startElement (h : Mirrors types t n) (hc : c.GoesOn) (name : QName) (written : String)
    (attributes : List Attribute) : ∃ c' t', (startElement name attributes).runFrom (c, t) = (.ok (), c', t') ∧
      Mirrors types t' (n.noted types c.location (.startElement name written attributes)) := by
  have hloop := forM_invariant
    (fun a => (t.types.attribute? name a.name).elim (pure ()) (check · a.value c.location))
    (fun seen s' => Stands types c.limits c.level _ s' ∧
      Holds (n.values ++ (types.attributeValues name seen).map (·, c.location)) s'.2) attributes (c, t)
    ⟨h.stands hc, by simpa [IdentityMap.attributeValues] using h.holds⟩ fun seen a s' _ hI => by
      have hvalues : types.attributeValues name (seen ++ [a]) =
          types.attributeValues name seen ++ types.attributeValues name [a] := List.filterMap_append ..
      rw [h.types, hvalues, List.map_append, ← List.append_assoc]
      cases ha : types.attribute? name a.name with
      | none => exact ⟨s', rfl, hI.1, by simpa [IdentityMap.attributeValues, ha] using hI.2⟩
      | some type => simpa [IdentityMap.attributeValues, ha] using check_holds c.location hI.1 hI.2
  obtain ⟨⟨c₁, t₁⟩, hrun, hs₁, h₁⟩ := hloop
  refine ⟨c₁, { t₁ with values := opened types name c.location "" :: t₁.values }, ?_,
    ⟨h₁.declared, h₁.references⟩, ?_, hs₁.types⟩
  · unfold IdentityTracker.startElement
    rw [runFrom_get_then]
    refine runFrom_then_ok.2 ⟨(c₁, t₁), ?_, ?_⟩
    · rw [← hrun]
      congr 2
      funext a
      cases t.types.attribute? name a.name <;> rfl
    · dsimp only
      rw [h.types]
      rfl
  · show opened types name c.location "" :: t₁.values = _
    rw [hs₁.values]
    rfl

theorem Mirrors.endElement (h : Mirrors types t n) (hc : c.GoesOn) (name : QName) (written : String) :
    ∃ c' t', (endElement).runFrom (c, t) = (.ok (), c', t') ∧
      Mirrors types t' (n.noted types c.location (.endElement name written)) := by
  have hvalues := h.values
  unfold IdentityTracker.endElement Notes.noted
  rw [runFrom_get_then]
  dsimp only
  cases hopened : n.opened with
  | nil =>
    rw [hopened] at hvalues
    rw [hvalues]
    refine ⟨c, _, rfl, ⟨h.holds.declared, h.holds.references⟩, ?_, h.types⟩
    show t.values.tail = _
    rw [hvalues, hopened]
    rfl
  | cons tag outer =>
    rw [hopened, List.map_cons] at hvalues
    have hs₁ : Stands types c.limits c.level (outer.map fun tag => opened types tag.name tag.location tag.text)
        (c, { t with values := t.values.tail }) := ⟨hc, rfl, rfl, h.types, by rw [hvalues]; rfl⟩
    have h₁ : Holds n.values { t with values := t.values.tail } := ⟨h.holds.declared, h.holds.references⟩
    rw [hvalues]
    dsimp only
    unfold IdentityMap.elementValue
    cases ht : types.element? tag.name with
    | none =>
      refine ⟨c, _, runFrom_then_ok.2 ⟨_, runFrom_modify _ _, ?_⟩, by simpa using h₁, hs₁.values, hs₁.types⟩
      simp [opened, ht, hvalues]
    | some type =>
      obtain ⟨⟨c', t'⟩, hrun, hs', h'⟩ := check_holds tag.location hs₁ h₁
      refine ⟨c', t', runFrom_then_ok.2 ⟨_, runFrom_modify _ _, ?_⟩, h', hs'.values, hs'.types⟩
      simpa [opened, ht] using hrun

theorem Mirrors.text (h : Mirrors types t n) (content : String) :
    Mirrors types (t.text content) (n.noted types location (.text content)) := by
  rw [text_eq]
  unfold Notes.noted
  dsimp only
  cases hopened : n.opened with
  | nil =>
    refine ⟨⟨h.holds.declared, h.holds.references⟩, ?_, h.types⟩
    show appendText content t.values = _
    rw [h.values, hopened]
    rfl
  | cons tag outer =>
    refine ⟨⟨h.holds.declared, h.holds.references⟩, ?_, h.types⟩
    show appendText content t.values = _
    rw [h.values, hopened, List.map_cons, appendText_opened]
    rfl

/-! ## The end of a document -/

/-- A step reports some diagnostics to a receiver that goes on, and changes nothing else. -/
def Reports (step : Tracking) (ds : List Diagnostic) : Prop :=
  ∀ (c : Context) (t : IdentityTracker), c.GoesOn → step.runFrom (c, t) = (.ok (), c.toldAll ds, t)

theorem reports_errorAt (message : String) (location : Option Location) :
    Reports (onContext (Context.errorAt message location)) [⟨.error, message, location⟩] := by
  intro c t hc
  have herror : (Context.errorAt message location).runFrom c = (.ok (), c.told ⟨.error, message, location⟩) :=
    hc.issue _
  change (((Context.errorAt message location).runFrom c).1, ((Context.errorAt message location).runFrom c).2, t) = _
  rw [herror]
  rfl

theorem reports_forM {α : Type} {f : α → Tracking} {told : α → List Diagnostic} (h : ∀ x, Reports (f x) (told x))
    (items : List α) : Reports (items.forM f) (items.flatMap told) := by
  induction items with
  | nil => exact fun _ _ _ => rfl
  | cons x items ih =>
    intro c t hc
    refine runFrom_then_ok.2 ⟨_, h x c t hc, ?_⟩
    rw [ih _ t (hc.toldAll _), ← Context.toldAll_append, List.flatMap_cons]

theorem reports_resolve (t : IdentityTracker) (entry : String × List (Option Location)) :
    Reports (resolve t entry)
      (if t.isDeclared entry.1 then [] else entry.2.map fun place => danglingReport (entry.1, place)) := by
  unfold resolve
  cases hd : t.isDeclared entry.1 with
  | true => exact fun _ _ _ => rfl
  | false =>
    have hall :=
      reports_forM (fun place => reports_errorAt ("IDREF \"" ++ entry.1 ++ "\" without matching ID") place) entry.2
    rw [← List.map_eq_flatMap] at hall
    exact hall

/-- The reports at the end, one for each use that is held and not declared. -/
def endReports (t : IdentityTracker) : List Diagnostic :=
  ((placesOf t.references).filter fun use => !t.isDeclared use.1).map danglingReport

theorem endDocument_runFrom (hc : c.GoesOn) : endDocument.runFrom (c, t) = (.ok (), c.toldAll t.endReports, t) := by
  have hreports : t.references.flatMap (fun entry => if t.isDeclared entry.1 then [] else
      entry.2.map fun place => danglingReport (entry.1, place)) = t.endReports := by
    unfold endReports placesOf
    rw [List.filter_flatMap, List.map_flatMap]
    congr 1
    funext entry
    cases hd : t.isDeclared entry.1 <;> simp [hd, List.filter_map, Function.comp_def]
  rw [← hreports]
  exact reports_forM (reports_resolve t) t.references c t hc

theorem danglingReport_injective : Function.Injective danglingReport := by
  rintro ⟨token, place⟩ ⟨token', place'⟩ h
  simp only [danglingReport, Diagnostic.mk.injEq, true_and, String.append_left_inj, String.append_right_inj] at h
  rw [h.1, h.2]

/-- What a tracker reports at the end are the dangling uses of the notes that it mirrors. -/
theorem Mirrors.endReports_perm (h : Mirrors types t n) : t.endReports.Perm (n.dangling.map danglingReport) := by
  apply List.Perm.map
  have hdeclared : (fun use : Use => !t.isDeclared use.1) = fun use => decide (use.1 ∉ declaredBy n.values) := by
    funext use
    rw [Bool.eq_iff_iff, Bool.not_eq_true', ← Bool.not_eq_true, isDeclared_iff, h.holds.declared, decide_eq_true_iff]
  rw [hdeclared]
  exact h.holds.references.filter _

/-! ## Runs -/

theorem Mirrors.handle (h : Mirrors types t n) (hc : c.GoesOn) (event : Event) :
    ((handle event).runFrom (c, t)).1 = .ok () ∧ Mirrors types (after c t event) (n.noted types c.location event) := by
  unfold after
  cases event with
  | startElement name written attributes =>
    obtain ⟨c', t', hrun, h'⟩ := h.startElement hc name written attributes
    rw [IdentityTracker.handle, hrun]
    exact ⟨rfl, h'⟩
  | endElement name written =>
    obtain ⟨c', t', hrun, h'⟩ := h.endElement hc name written
    rw [IdentityTracker.handle, hrun]
    exact ⟨rfl, h'⟩
  | text content => exact ⟨rfl, h.text content⟩
  | endDocument =>
    rw [IdentityTracker.handle, endDocument_runFrom hc]
    exact ⟨rfl, h⟩
  | _ => exact ⟨rfl, h⟩

theorem Follows.mirrors (h : Follows types t n) : Mirrors types t n := by
  induction h with
  | new => exact mirrors_new types
  | event c hc event _ ih => exact (ih.handle hc event).2
  | @reset t n _ ih =>
    have hnew : t.reset = { types } := by rw [IdentityTracker.reset, ih.types]
    rw [hnew]
    exact mirrors_new types

/-- In every state that events lead to, no event fails, and at the end of the document each use of an identity that is
declared nowhere is reported, and nothing else. There is one report for each identity and place exactly if no such
identity is used twice at one place. -/
theorem Follows.reports_dangling (h : Follows types t n) (hc : c.GoesOn) :
    (∀ event, ((handle event).runFrom (c, t)).1 = .ok ()) ∧
    ∃ ds, endDocument.runFrom (c, t) = (.ok (), c.toldAll ds, t) ∧ ds.Perm (n.dangling.map danglingReport) ∧
      ((∀ use, ds.count (danglingReport use) = if use ∈ n.dangling then 1 else 0) ↔ n.dangling.Nodup) := by
  have hm := h.mirrors
  refine ⟨fun event => (hm.handle hc event).1, _, endDocument_runFrom hc, hm.endReports_perm, ?_⟩
  have hcount (use : Use) : t.endReports.count (danglingReport use) = n.dangling.count use := by
    rw [hm.endReports_perm.count_eq, List.count_map_of_injective _ _ danglingReport_injective]
  simp only [hcount, List.nodup_iff_count_eq_one]
  constructor
  · intro hone use huse
    rw [hone, if_pos huse]
  · intro hone use
    split
    · next huse => exact hone use huse
    · next huse => exact List.count_eq_zero.2 huse

/-- Elements `e` use identities in an attribute, and elements `f` declare one. -/
def citing : IdentityMap where
  attributes := [((.plain "e", .plain "refs"), .idrefs), ((.plain "f", .plain "id"), .id)]

/-- The statement where one of two identities is declared, in an element that follows. -/
theorem reports_dangling_citing :
    let c := (Context.new .silent {} none).locate (some ⟨none, 1, 1⟩)
    let c' := (Context.new .silent {} none).locate (some ⟨none, 2, 1⟩)
    let cites := Event.startElement (.plain "e") "e" [⟨.plain "refs", "refs", " a  b"⟩]
    let declares := Event.startElement (.plain "f") "f" [⟨.plain "id", "id", "a"⟩]
    let t := after c' (after c { types := citing } cites) declares
    let n := (Notes.noted citing c.location {} cites).noted citing c'.location declares
    Follows citing t n ∧ c'.GoesOn ∧ n.dangling = [("b", some ⟨none, 1, 1⟩)] ∧
      ∃ ds, endDocument.runFrom (c', t) = (.ok (), c'.toldAll ds, t) ∧ ds.Perm (n.dangling.map danglingReport) ∧
        ((∀ use, ds.count (danglingReport use) = if use ∈ n.dangling then 1 else 0) ↔ n.dangling.Nodup) := by
  intro c c' cites declares t n
  have hc : c.GoesOn := fun _ _ => rfl
  have hc' : c'.GoesOn := fun _ _ => rfl
  have hfollows : Follows citing t n := .event c' hc' declares (.event c hc cites .new)
  exact ⟨hfollows, hc', by decide +kernel, (hfollows.reports_dangling hc').2⟩

/-- An identity that is named twice in one attribute and declared nowhere is reported twice at the same place. -/
theorem repeated_reported_twice :
    let c := Context.new .silent {} none
    let cites := Event.startElement (.plain "e") "e" [⟨.plain "refs", "refs", "a a"⟩]
    let t := after c { types := citing } cites
    let n := Notes.noted citing c.location {} cites
    Follows citing t n ∧ c.GoesOn ∧ ("a", none) ∈ n.dangling ∧
      (c.since (endDocument.runFrom (c, t)).2.1).count (danglingReport ("a", none)) = 2 := by
  intro c cites t n
  have hc : c.GoesOn := fun _ _ => rfl
  exact ⟨.event c hc cites .new, hc, by decide +kernel, by decide +kernel⟩

end IdentityTracker

end RelaxNg
