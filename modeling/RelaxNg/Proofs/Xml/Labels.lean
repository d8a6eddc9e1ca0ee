import RelaxNg.Xml.Scopes

/-!
# Labels of namespaces

Looking up a label for a namespace inverts looking up the namespace of a label, whatever scopes were opened and closed
and whatever was declared in them (`Scopes.label?_inverts`). A label that is found stands for the namespace, and if none
is found none stands for it. The one exception is the label `xml`, which is bound without a declaration: it is found
only where it is declared, so that nothing is found for its namespace in the scopes of a new document
(`Scopes.xml_not_found`).
-/

namespace RelaxNg.Xml.Scopes

/-- What becomes of scopes while documents are read. -/
inductive Change where
  | push
  | pop
  | declare (label ns : String)
  /-- All scopes are closed, and what was declared is forgotten. -/
  | reset
deriving DecidableEq

def change (scopes : Scopes) : Change → Scopes
  | .push => scopes.push
  | .pop => scopes.pop
  | .declare label ns => scopes.declare label ns
  | .reset => .empty

/-- The scopes of a new document after some changes. -/
def after (changes : List Change) : Scopes := changes.foldl change .empty

variable {scopes : Scopes} {label ns : String} {b : Binding}

/-! ## Looking up labels -/

theorem namespace?_of_label? (h : scopes.label? ns = some label) : scopes.namespace? label = some ns := by
  obtain ⟨binding, hb, rfl⟩ := Option.map_eq_some_iff.1 h
  simpa using List.find?_some hb

/-- What a label stands for it is declared for, if it is not `xml`. -/
theorem mem_bindings_of_namespace? (hl : label ≠ "xml") (h : scopes.namespace? label = some ns) :
    ⟨label, some ns⟩ ∈ scopes.bindings := by
  unfold namespace? at h
  rw [if_neg hl] at h
  obtain ⟨binding, hb, hns⟩ := Option.bind_eq_some_iff.1 h
  have hlabel : binding.label = label := by simpa using List.find?_some hb
  have hmem := List.mem_of_find?_eq_some hb
  rwa [show binding = ⟨label, some ns⟩ by rw [← hlabel, ← hns]] at hmem

/-- No label is found for a namespace exactly if every label that is declared for it stands for something else. -/
theorem label?_eq_none_iff :
    scopes.label? ns = none ↔ ∀ label, ⟨label, some ns⟩ ∈ scopes.bindings → scopes.namespace? label ≠ some ns := by
  unfold label?
  rw [Option.map_eq_none_iff, List.find?_eq_none]
  constructor
  · intro h label hmem heq
    exact h ⟨label, some ns⟩ (List.mem_filter.2 ⟨hmem, by simp⟩) (by simpa using heq)
  · intro h binding hb
    obtain ⟨hmem, hns⟩ := List.mem_filter.1 hb
    have hns : binding.ns = some ns := by simpa using hns
    have hne := h binding.label (by rwa [← hns])
    simpa using hne

/-- All that may stand for a namespace for which nothing is found is `xml`, without a declaration. -/
theorem label?_eq_none_iff_xml : scopes.label? ns = none ↔
    ∀ label, scopes.namespace? label = some ns → label = "xml" ∧ ⟨label, some ns⟩ ∉ scopes.bindings := by
  rw [label?_eq_none_iff]
  constructor
  · intro h label hns
    have hnot : ⟨label, some ns⟩ ∉ scopes.bindings := fun hmem => h label hmem hns
    by_cases hl : label = "xml"
    · exact ⟨hl, hnot⟩
    · exact absurd (mem_bindings_of_namespace? hl hns) hnot
  · intro h label hmem hns
    exact (h label hns).2 hmem

theorem namespace?_xml (scopes : Scopes) : scopes.namespace? "xml" = some Namespace.xml := if_pos rfl

/-! ## What is declared -/

/-- No label is declared for the empty namespace: such a declaration takes a binding back. -/
def Named (scopes : Scopes) : Prop := ∀ b ∈ scopes.bindings, b.ns ≠ some ""

theorem named_empty : empty.Named := by
  intro b hb
  cases hb

theorem Named.change (h : scopes.Named) (step : Change) : (scopes.change step).Named := by
  intro b hb
  cases step with
  | push => exact h b hb
  | pop =>
    change b ∈ scopes.pop.bindings at hb
    unfold pop at hb
    split at hb
    · exact h b hb
    · next outer rest henclosing =>
      apply h b
      unfold bindings
      rw [henclosing, List.flatten_cons]
      exact List.mem_append_right _ hb
  | declare label ns =>
    change b ∈ _ :: scopes.bindings at hb
    rw [List.mem_cons] at hb
    rcases hb with rfl | hb
    · show (if ns = "" then none else some ns) ≠ some ""
      split
      · simp
      · next hne => simpa using hne
    · exact h b hb
  | reset => exact named_empty b hb

theorem named_after (changes : List Change) : (after changes).Named := by
  suffices key : ∀ scopes : Scopes, scopes.Named → (changes.foldl Scopes.change scopes).Named from key _ named_empty
  induction changes with
  | nil => exact fun _ h => h
  | cons step changes ih => exact fun scopes h => ih _ (h.change step)

/-- Nothing stands for the empty namespace. -/
theorem Named.namespace?_ne (h : scopes.Named) (label : String) : scopes.namespace? label ≠ some "" := by
  by_cases hl : label = "xml"
  · rw [hl, namespace?_xml]
    decide
  · intro hns
    exact h _ (mem_bindings_of_namespace? hl hns) rfl

/-! ## Inversion -/

/-- Whatever happened to the scopes, a label that is found for a namespace stands for it; if none is found nothing else
than an undeclared `xml` stands for it. So there is none at all unless nothing is found for the namespace of `xml`. For
the empty namespace there never is one. -/
theorem label?_inverts (changes : List Change) (ns : String) :
    (∀ label, (after changes).label? ns = some label → (after changes).namespace? label = some ns) ∧
    ((after changes).label? ns = none ↔ ∀ label, (after changes).namespace? label = some ns →
      label = "xml" ∧ ⟨label, some ns⟩ ∉ (after changes).bindings) ∧
    (((after changes).label? ns = none → ∀ label, (after changes).namespace? label ≠ some ns) ↔
      (ns = Namespace.xml → (after changes).label? ns ≠ none)) ∧
    (ns = "" → (after changes).label? ns = none ∧ ∀ label, (after changes).namespace? label ≠ some ns) := by
  have hnone := @label?_eq_none_iff_xml (after changes) ns
  refine ⟨fun _ => namespace?_of_label?, hnone, ⟨?_, ?_⟩, ?_⟩
  · rintro h rfl hlabel
    exact h hlabel "xml" (namespace?_xml _)
  · intro h hlabel label hns
    have hxml := (hnone.1 hlabel label hns).1
    rw [hxml, namespace?_xml] at hns
    exact h (Option.some.inj hns).symm hlabel
  · rintro rfl
    have hnothing := (named_after changes).namespace?_ne
    exact ⟨hnone.2 fun label hns => absurd hns (hnothing label), hnothing⟩

/-- In the scopes of a new document `xml` stands for its namespace, and no label is found for that. -/
theorem xml_not_found : Namespace.xml ≠ "" ∧ (after []).label? Namespace.xml = none ∧
    (after []).namespace? "xml" = some Namespace.xml := by
  decide

end RelaxNg.Xml.Scopes
