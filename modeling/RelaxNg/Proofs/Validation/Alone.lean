import RelaxNg.Proofs.Validation.Sessions

/-!
# Identities alone

A validation of identities alone reports what the validation by the schema reports, apart from the complaints about
content, and gives the same answers (`SchemaValidation.identities_alone`). While both are told the same, their contexts
differ by those complaints only (`Context.Without`): the content tracker reports nothing else and stops no event, and
the identity trackers are the same, or one is left out that has nothing to do (`IdentityTracker.Idle`).
-/

namespace RelaxNg

open Attempt

/-! ## Contexts -/

namespace Context

/-- A context is as another one, whose receiver collects, without the diagnostics that are left aside. -/
structure Without (aside : Diagnostic → Bool) (c c' : Context) : Prop where
  location : c.location = c'.location
  level : c.level = c'.level
  limits : c.limits = c'.limits
  source : c.source = c'.source
  receiver : c.reports.receiver = .collecting
  receiver' : c'.reports.receiver = .collecting
  issued : c.reports.issued = c'.reports.issued.filter fun d => !aside d

variable {aside : Diagnostic → Bool} {c c' : Context}

theorem relates_issue_without {d : Diagnostic} (hd : aside d = false) :
    Relates (Without aside) (issue d) (issue d) := by
  intro c c' h
  refine ⟨?_, { h with issued := ?_ }⟩
  · change c.reports.receiver.answer _ d = c'.reports.receiver.answer _ d
    rw [h.receiver, h.receiver']
    rfl
  · change c.reports.issued.push d = (c'.reports.issued.push d).filter _
    rw [h.issued, Array.filter_push_of_pos (by simp [hd]) (Array.size_push _)]

theorem abreast_without (haside : ∀ d, aside d = true → d.isComplaint = true) : Abreast (Without aside) where
  location := Without.location
  level := Without.level
  limits := Without.limits
  issue {d} hd := relates_issue_without (by
    by_contra h
    rw [haside d (by simpa using h)] at hd
    cases hd)
  atLevel n h := { h with level := rfl }

theorem Without.locate (location : Option Location) (h : Without aside c c') :
    Without aside (c.locate location) (c'.locate location) :=
  { h with location := by simp only [Context.locate, h.source] }

theorem Without.reset (h : Without aside c c') : Without aside c.reset c'.reset :=
  { h with location := rfl, level := rfl }

theorem Without.kept (h : Without aside c c') : c.reports.kept = c'.reports.kept.filter fun d => !aside d := by
  simp [Reports.kept, h.receiver, h.receiver', Receiver.collecting, h.issued]

end Context

open Context (Without)

/-! ## Contents -/

namespace ContentTracker

variable {c : Context} {s : Context × ContentTracker}

/-- A complaint stops nothing and is left aside. -/
theorem ensures_complain_without {message : String}
    (hm : (complaintForms.any fun form => form.toList.isPrefixOf message.toList) = true)
    (hs : Without Diagnostic.isComplaint c s.1) :
    Ensures (complain message) s (fun _ s' => Without Diagnostic.isComplaint c s'.1) fun _ => False := by
  refine ensures_of_ok (a := ()) (t := ({ s.1 with
    reports := s.1.reports.push ⟨.error, message, s.1.location⟩ }, s.2)) ?_ { hs with issued := ?_ }
  · change (s.1.reports.receiver.answer _ _, _) = _
    rw [hs.receiver']
    rfl
  · change _ = (s.1.reports.issued.push _).filter _
    rw [hs.issued, Array.filter_push_of_neg (by simp [Diagnostic.isComplaint, hm]) (Array.size_push _)]

theorem ensures_startElement_without (name : QName) (attributes : List Attribute)
    (hs : Without Diagnostic.isComplaint c s.1) :
    Ensures (startElement name attributes) s (fun _ s' => Without Diagnostic.isComplaint c s'.1) fun _ => False := by
  obtain ⟨c', t⟩ := s
  refine ensures_get_then.2 ?_
  dsimp only
  by_cases hnone : t.candidates? name = some []
  · rw [if_pos hnone, if_pos (by rw [hnone]; rfl)]
    refine (ensures_complain_without ?_ hs).bind fun _ s hs => hs
    unfold refusal
    split <;> simp [complaintForms, List.isPrefixOf]
  · rw [if_neg hnone]
    split
    · exact hs
    · have hafter : ∀ u s, Without Diagnostic.isComplaint c (Prod.fst s) →
          Ensures (become u) s (fun _ s' => Without Diagnostic.isComplaint c s'.1) fun _ => False := fun _ _ => id
      refine Ensures.bind (ensures_forM (fun _ s => Without Diagnostic.isComplaint c s.1) hs ?_) fun _ => hafter _
      intro a rest s hs
      split
      · exact hs
      · exact ensures_complain_without (by simp [complaintForms, List.isPrefixOf]) hs

theorem ensures_text_without (content : String) (hs : Without Diagnostic.isComplaint c s.1) :
    Ensures (text content) s (fun _ s' => Without Diagnostic.isComplaint c s'.1) fun _ => False := by
  obtain ⟨c', t⟩ := s
  unfold text
  split
  · exact hs
  · refine ensures_get_then.2 ?_
    dsimp only
    split
    · exact ensures_complain_without (by simp [complaintForms, List.isPrefixOf]) hs
    · split
      · exact hs
      · exact ensures_modify_then.2 (ensures_complain_without (by simp [complaintForms, List.isPrefixOf]) hs)

end ContentTracker

/-! ## Identities -/

namespace IdentityTracker

/-- A tracker that no value concerns. -/
structure Idle (t : IdentityTracker) : Prop where
  types : t.types.isEmpty = true
  references : t.references = []
  values : ∀ value ∈ t.values, value = none

variable {c : Context} {t : IdentityTracker}

theorem Idle.attribute? (h : t.Idle) (element name : QName) : t.types.attribute? element name = none := by
  have hempty := h.types
  simp only [IdentityMap.isEmpty, Bool.and_eq_true, List.isEmpty_iff] at hempty
  rw [IdentityMap.attribute?, hempty.1]
  rfl

theorem Idle.element? (h : t.Idle) (name : QName) : t.types.element? name = none := by
  have hempty := h.types
  simp only [IdentityMap.isEmpty, Bool.and_eq_true, List.isEmpty_iff] at hempty
  rw [IdentityMap.element?, hempty.2]
  rfl

theorem Idle.ensures_startElement (h : t.Idle) (name : QName) (attributes : List Attribute) :
    Ensures (startElement name attributes) (c, t) (fun _ s => ∃ t', s = (c, t') ∧ t'.Idle) fun _ => False := by
  refine ensures_get_then.2 (Ensures.bind (ensures_forM (fun _ s => s = (c, t)) rfl ?_) ?_)
  · rintro a rest _ rfl
    rw [h.attribute?]
    exact rfl
  · rintro _ _ rfl
    refine ⟨_, rfl, h.types, h.references, ?_⟩
    rw [h.element?]
    exact List.forall_mem_cons.2 ⟨rfl, h.values⟩

theorem Idle.ensures_endElement (h : t.Idle) :
    Ensures endElement (c, t) (fun _ s => ∃ t', s = (c, t') ∧ t'.Idle) fun _ => False := by
  obtain ⟨types, declared, references, values⟩ := t
  refine ensures_get_then.2 (ensures_modify_then.2 ?_)
  have hleft : Idle ⟨types, declared, references, values.tail⟩ :=
    ⟨h.types, h.references, fun value hv => h.values value (List.mem_of_mem_tail hv)⟩
  split
  · next value outer hvalues => cases h.values (some value) (hvalues ▸ List.mem_cons_self)
  · exact ⟨_, rfl, hleft⟩

theorem Idle.ensures_endDocument (h : t.Idle) :
    Ensures endDocument (c, t) (fun _ s => ∃ t', s = (c, t') ∧ t'.Idle) fun _ => False := by
  refine ensures_get_then.2 ?_
  dsimp only
  rw [h.references]
  exact ⟨t, rfl, h⟩

theorem Idle.text (h : t.Idle) (content : String) : (t.text content).Idle := by
  unfold IdentityTracker.text
  split
  · next value outer hvalues => cases h.values (some value) (hvalues ▸ List.mem_cons_self)
  · exact h

theorem Idle.reset (h : t.Idle) : t.reset.Idle := ⟨h.types, rfl, fun _ hv => absurd hv List.not_mem_nil⟩

end IdentityTracker

/-! ## Validations -/

namespace SchemaValidation

variable {aside : Diagnostic → Bool}

/-- A validation of identities alone beside one by the schema. -/
structure Beside (aside : Diagnostic → Bool) (s u : SchemaValidation) : Prop where
  context : Without aside s.context u.context
  content : s.content = none
  /-- Where content is tracked, the complaints are left aside. -/
  aside : u.content.isSome = true → aside = Diagnostic.isComplaint
  identities : s.identities = u.identities ∨ u.identities = none ∧ ∃ t, s.identities = some t ∧ t.Idle

/-- The lone validation has no content to track. -/
theorem relates_onContent_beside {step : ContentTracker.Tracking}
    (h : ∀ c s, Without Diagnostic.isComplaint c s.1 →
      Ensures step s (fun _ s' => Without Diagnostic.isComplaint c s'.1) fun _ => False) :
    Relates (Beside aside) (onContent step) (onContent step) := by
  rintro ⟨c, _, identities⟩ ⟨c', content, identities'⟩ ⟨hc, rfl, haside, hi⟩
  cases content with
  | none => exact ⟨rfl, hc, rfl, haside, hi⟩
  | some t =>
    cases haside rfl
    obtain ⟨_, ⟨c'', t'⟩, hrun, hc''⟩ := (h c (c', t) hc).exists_ok
    have houter : (onContent step).runFrom ⟨c', some t, identities'⟩ = (.ok (), ⟨c'', some t', identities'⟩) :=
      congrArg (fun run : _ × Context × ContentTracker =>
        (run.1, (⟨run.2.1, some run.2.2, identities'⟩ : SchemaValidation))) hrun
    rw [houter]
    exact ⟨rfl, hc'', rfl, haside, hi⟩

/-- The identity trackers are the same, or the lone one is idle. -/
theorem relates_onIdentities_beside {step : IdentityTracker.Tracking}
    (h : ∀ types, Relates (IdentityTracker.Together (Without aside) types) step step)
    (hidle : ∀ (c : Context) (t : IdentityTracker), t.Idle →
      Ensures step (c, t) (fun _ s => ∃ t', s = (c, t') ∧ t'.Idle) fun _ => False) :
    Relates (Beside aside) (onIdentities step) (onIdentities step) := by
  rintro ⟨c, content, identities⟩ ⟨c', content', identities'⟩ ⟨hc, hcontent, haside, hi⟩
  rcases hi with rfl | ⟨rfl, t, rfl, ht⟩
  · cases identities with
    | none => exact ⟨rfl, hc, hcontent, haside, .inl rfl⟩
    | some t =>
      obtain ⟨ha, hr⟩ := h t.types (c, t) (c', t) ⟨hc, rfl, rfl⟩
      exact ⟨ha, hr.context, hcontent, haside, .inl (congrArg some hr.tracker)⟩
  · obtain ⟨_, _, hrun, t', rfl, ht'⟩ := (hidle c t ht).exists_ok
    have houter : (onIdentities step).runFrom ⟨c, content, some t⟩ = (.ok (), ⟨c, content, some t'⟩) :=
      congrArg (fun run : _ × Context × IdentityTracker =>
        (run.1, (⟨run.2.1, content, some run.2.2⟩ : SchemaValidation))) hrun
    rw [houter]
    exact ⟨rfl, hc, hcontent, haside, .inr ⟨rfl, t', rfl, ht'⟩⟩

/-- The trackers change alike, and an idle one stays idle. -/
theorem Beside.changed {s u : SchemaValidation} (h : Beside aside s u) (f : ContentTracker → ContentTracker)
    {g : IdentityTracker → IdentityTracker} (hg : ∀ t, t.Idle → (g t).Idle) {c c' : Context}
    (hc : Without aside c c') :
    Beside aside ⟨c, s.content.map f, s.identities.map g⟩ ⟨c', u.content.map f, u.identities.map g⟩ where
  context := hc
  content := by rw [h.content]; rfl
  aside hsome := h.aside (by simpa using hsome)
  identities := by
    rcases h.identities with hi | ⟨hnone, t, hsome, ht⟩
    · exact .inl (by rw [hi])
    · refine .inr ⟨?_, g t, ?_, hg t ht⟩
      · rw [hnone]
        rfl
      · rw [hsome]
        rfl

variable (haside : ∀ d, aside d = true → d.isComplaint = true)
include haside

theorem relates_handle_beside (event : Event) : Relates (Beside aside) (handle event) (handle event) := by
  have habreast := Context.abreast_without haside
  cases event with
  | startElement name written attributes =>
    refine Relates.bind ?_ fun _ => Relates.bind ?_ fun _ => ?_
    · intro s u hr
      obtain ⟨ha, hc⟩ := habreast.enter attributes.length s.context u.context hr.context
      exact ⟨ha, { hr with context := hc }⟩
    · exact relates_onContent_beside fun _ _ => ContentTracker.ensures_startElement_without name attributes
    · exact relates_onIdentities_beside (fun _ => IdentityTracker.relates_startElement habreast name attributes)
        fun _ _ ht => ht.ensures_startElement name attributes
  | endElement name written =>
    refine Relates.bind (relates_modify fun s u hr => ?_) fun _ => ?_
    · have hchanged := hr.changed ContentTracker.endElement (fun _ => id) (habreast.leave hr.context)
      rw [Option.map_id_fun'] at hchanged
      exact hchanged
    · exact relates_onIdentities_beside (fun _ => IdentityTracker.relates_endElement habreast)
        fun _ _ ht => ht.ensures_endElement
  | text content =>
    refine Relates.bind (relates_onContent_beside fun _ _ => ContentTracker.ensures_text_without content) fun _ =>
      relates_modify fun s u hr => ?_
    have hchanged := hr.changed (fun t => t) (fun _ ht => ht.text content) hr.context
    rw [Option.map_id_fun'] at hchanged
    exact hchanged
  | endDocument =>
    exact relates_onIdentities_beside (fun _ => IdentityTracker.relates_endDocument habreast)
      fun _ _ ht => ht.ensures_endDocument
  | startDocument | declare | undeclare | space | entity => exact relates_pure _

theorem relates_turn_beside (turn : Turn) :
    Relates (Beside aside) (schemaValidator.turn turn) (schemaValidator.turn turn) := by
  cases turn with
  | reset => exact relates_modify fun s u hr => hr.changed _ (fun _ => .reset) hr.context.reset
  | notice notice =>
    cases notice with
    | locate location => exact relates_modify fun s u hr => { hr with context := hr.context.locate location }
    | event event => exact relates_handle_beside haside event

omit haside

theorem new_beside (schema : Schema) (source : Option String)
    (haside : schema.contentModel.isSome = true → aside = Diagnostic.isComplaint) :
    Beside aside (newForIdentities schema .collecting source) (new schema .collecting source) where
  context := ⟨rfl, rfl, rfl, rfl, rfl, rfl, rfl⟩
  content := rfl
  aside h := haside (by simpa [new] using h)
  identities := by
    cases hempty : schema.identities.isEmpty with
    | false => exact .inl (by simp [new, newForIdentities, hempty])
    | true =>
      refine .inr ⟨by simp [new, hempty], _, rfl, hempty, rfl, fun _ hv => absurd hv List.not_mem_nil⟩

/-- A validation of identities alone answers every turn as the validation by the schema does, and its diagnostics are
those of the other one without the complaints about content, in the same order: all of them if content is not
tracked. -/
theorem identities_alone (schema : Schema) (source : Option String) (turns : List Turn) :
    let whole := schemaValidator.session turns (.new schema .collecting source)
    let alone := schemaValidator.session turns (.newForIdentities schema .collecting source)
    alone.1 = whole.1 ∧
      alone.2.context.reports.kept = whole.2.context.reports.kept.filter (fun d => !d.isComplaint) ∧
      (schema.contentModel = none → alone.2.context.reports.kept = whole.2.context.reports.kept) := by
  intro whole alone
  obtain ⟨hanswers, hr⟩ := Validator.session_relates (relates_turn_beside fun _ => id) turns
    (new_beside schema source fun _ => rfl)
  refine ⟨hanswers, hr.context.kept, fun hnone => ?_⟩
  -- Without content nothing is left aside.
  have hturn (turn : Turn) : Relates (Beside fun _ => false) (schemaValidator.turn turn) (schemaValidator.turn turn) :=
    relates_turn_beside (fun _ h => absurd h Bool.false_ne_true) turn
  obtain ⟨-, hr⟩ := Validator.session_relates hturn turns (new_beside schema source (by simp [hnone]))
  exact hr.context.kept.trans (by simp [whole])

/-- The statement where a key is given twice and an element stands between that is not allowed, with and without a
content model. -/
theorem identities_alone_keysInDoc :
    let turns := Turn.element "doc" "" (Turn.element "key" "a" [] ++ Turn.element "f" "" [] ++ Turn.element "key" "a" [])
    let whole := schemaValidator.session turns (.new keysInDoc .collecting none)
    let alone := schemaValidator.session turns (.newForIdentities keysInDoc .collecting none)
    let untracked := { keysInDoc with contentModel := none }
    alone.1 = whole.1 ∧ whole.2.context.reports.kept.size = 3 ∧
      alone.2.context.reports.kept = #[⟨.error, "ID \"a\" has already been defined", none⟩,
        ⟨.warning, "first occurrence of ID \"a\"", none⟩] ∧
      (schemaValidator.session turns (.newForIdentities untracked .collecting none)).2.context.reports.kept =
        (schemaValidator.session turns (.new untracked .collecting none)).2.context.reports.kept := by
  intro turns whole alone untracked
  obtain ⟨hanswers, hkept, -⟩ := identities_alone keysInDoc none turns
  refine ⟨hanswers, by decide +kernel, hkept.trans (by decide +kernel), ?_⟩
  exact (identities_alone untracked none turns).2.2 rfl

end SchemaValidation

end RelaxNg
