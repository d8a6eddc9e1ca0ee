import RelaxNg.Proofs.Xml.Labels
import RelaxNg.Proofs.Xml.Spans
import RelaxNg.Xsd.Name

/-!
# Names that an engine can resolve

A name whose written form is not known is written for an engine with the label that is declared innermost for its
namespace. `Name.of_resolves` tells what becomes of that form when it is looked up in the same scopes. As the name of an
element it stands for the name whenever some declaration binds a label to its namespace, the empty label included. As
the name of an attribute it does so only if the innermost such label is not empty, because the empty label does not
count for attributes: where the default namespace is declared further in than every other label, the form has no label
and stands for a name in no namespace (`Name.default_hides_label`).
-/

namespace RelaxNg

namespace Xml.Scopes

/-! ## Written forms -/

variable {scopes : Scopes} {label localName ns : String} {name : QName}

theorem resolve_unlabelled (h : ':' ∉ localName.toList) :
    scopes.resolve localName = .ok ⟨scopes.default?.getD "", localName⟩ := by
  unfold resolve
  rw [splitColon_of_not_mem h]

theorem resolve_labelled (hl : ':' ∉ label.toList) (hns : scopes.namespace? label = some ns) :
    scopes.resolve (label ++ ":" ++ localName) = .ok ⟨ns, localName⟩ := by
  unfold resolve
  rw [splitColon_labelled localName hl]
  simp [hns]

theorem resolveAttribute_unlabelled (h : ':' ∉ localName.toList) :
    scopes.resolveAttribute localName = .ok (.plain localName) := by
  unfold resolveAttribute
  rw [if_neg (by simpa using h)]

theorem resolveAttribute_labelled :
    scopes.resolveAttribute (label ++ ":" ++ localName) = scopes.resolve (label ++ ":" ++ localName) := by
  unfold resolveAttribute
  rw [if_pos (by simp)]

/-! ## The innermost label -/

/-- A declaration that binds its label to a namespace, and nothing further in binds the label again. -/
def Binds (scopes : Scopes) (label ns : String) : Prop :=
  ⟨label, some ns⟩ ∈ scopes.bindings ∧ scopes.namespace? label = some ns

/-- A label is bound to a namespace, and none that is declared further in is. -/
def BindsInnermost (scopes : Scopes) (label ns : String) : Prop :=
  ∃ inner outer, scopes.bindings = inner ++ ⟨label, some ns⟩ :: outer ∧ scopes.namespace? label = some ns ∧
    ∀ other, ⟨other, some ns⟩ ∈ inner → scopes.namespace? other ≠ some ns

theorem label?_eq_some_iff : scopes.label? ns = some label ↔ scopes.BindsInnermost label ns := by
  unfold label? BindsInnermost
  rw [Option.map_eq_some_iff, List.find?_filter]
  constructor
  · rintro ⟨binding, hfind, rfl⟩
    obtain ⟨hb, inner, outer, heq, hinner⟩ := List.find?_eq_some_iff_append.1 hfind
    obtain ⟨hns, hstands⟩ : binding.ns = some ns ∧ scopes.namespace? binding.label = some ns := by simpa using hb
    refine ⟨inner, outer, by rw [heq, ← hns], hstands, fun other ho hother => ?_⟩
    simpa [hother] using hinner _ ho
  · rintro ⟨inner, outer, heq, hstands, hinner⟩
    refine ⟨⟨label, some ns⟩, List.find?_eq_some_iff_append.2 ⟨by simpa using hstands, inner, outer, heq, ?_⟩, rfl⟩
    intro binding hb
    by_cases hns : binding.ns = some ns
    · have hne := hinner binding.label (by rwa [← hns])
      simp [hne]
    · simp [hns]

theorem BindsInnermost.binds (h : scopes.BindsInnermost label ns) : scopes.Binds label ns := by
  obtain ⟨inner, outer, heq, hstands, -⟩ := h
  exact ⟨by simp [heq], hstands⟩

/-- A namespace that a label is bound to has an innermost one. -/
theorem exists_label?_iff : (∃ label, scopes.label? ns = some label) ↔ ∃ label, scopes.Binds label ns := by
  constructor
  · rintro ⟨label, h⟩
    exact ⟨label, (label?_eq_some_iff.1 h).binds⟩
  · rintro ⟨label, hmem, hstands⟩
    rw [← Option.ne_none_iff_exists']
    exact fun hnone => label?_eq_none_iff.1 hnone label hmem hstands

/-- The default namespace is declared, like that of every label but `xml`. -/
theorem binds_of_default? (h : scopes.default? = some ns) : scopes.Binds "" ns :=
  ⟨mem_bindings_of_namespace? (by decide) h, h⟩

end Xml.Scopes

namespace Xsd.Name

open Xml

variable {scopes : Scopes} {name : QName} {label : String}

theorem written_of_label? (hns : name.hasNamespace = true) (h : scopes.label? name.ns = some label) :
    (Name.of name "" scopes).written = if label = "" then name.localName else label ++ ":" ++ name.localName := by
  unfold Name.of
  rw [if_neg (by simp [hns]), if_pos rfl, h]
  exact apply_ite Name.written _ _ _

theorem written_of_no_label (hns : name.hasNamespace = true) (h : scopes.label? name.ns = none) :
    (Name.of name "" scopes).written = name.localName := by
  unfold Name.of
  rw [if_neg (by simp [hns]), if_pos rfl, h]

variable (hns : name.hasNamespace = true) (hlocal : ':' ∉ name.localName.toList)
include hns hlocal

/-- Without a label an attribute's name is in no namespace. -/
theorem resolveAttribute_localName_ne : scopes.resolveAttribute name.localName ≠ .ok name := by
  rw [Scopes.resolveAttribute_unlabelled hlocal]
  intro h
  rw [← Except.ok.inj h] at hns
  cases hns

theorem resolve_localName_iff : scopes.resolve name.localName = .ok name ↔ scopes.default? = some name.ns := by
  have hne : name.ns ≠ "" := by simpa [QName.hasNamespace] using hns
  rw [Scopes.resolve_unlabelled hlocal]
  cases scopes.default? with
  | none =>
    simp only [Option.getD_none, Except.ok.injEq, reduceCtorEq, iff_false]
    exact fun h => hne (congrArg QName.ns h).symm
  | some ns =>
    simp only [Option.getD_some, Except.ok.injEq, Option.some.injEq]
    exact ⟨congrArg QName.ns, fun h => by rw [h]⟩

variable (hlabels : ∀ b ∈ scopes.bindings, ':' ∉ b.label.toList)
include hlabels

omit hns hlocal in
theorem resolve_labelled_of_label? (h : scopes.label? name.ns = some label) :
    scopes.resolve (label ++ ":" ++ name.localName) = .ok name :=
  have hbinds := (Scopes.label?_eq_some_iff.1 h).binds
  Scopes.resolve_labelled (hlabels _ hbinds.1) hbinds.2

theorem resolve_written_iff : scopes.resolve (Name.of name "" scopes).written = .ok name ↔
    ∃ label, scopes.label? name.ns = some label := by
  cases hlabel : scopes.label? name.ns with
  | none =>
    rw [written_of_no_label hns hlabel, resolve_localName_iff hns hlocal]
    constructor
    · intro hdefault
      have hbound := Scopes.exists_label?_iff.2 ⟨"", Scopes.binds_of_default? hdefault⟩
      rwa [hlabel] at hbound
    · rintro ⟨_, ⟨⟩⟩
  | some label =>
    rw [written_of_label? hns hlabel]
    refine iff_of_true ?_ ⟨label, rfl⟩
    split
    · next hempty =>
      subst hempty
      exact (resolve_localName_iff hns hlocal).2 (Scopes.namespace?_of_label? hlabel)
    · exact resolve_labelled_of_label? hlabels hlabel

theorem resolveAttribute_written_iff : scopes.resolveAttribute (Name.of name "" scopes).written = .ok name ↔
    ∃ label, scopes.label? name.ns = some label ∧ label ≠ "" := by
  cases hlabel : scopes.label? name.ns with
  | none =>
    rw [written_of_no_label hns hlabel]
    exact iff_of_false (resolveAttribute_localName_ne hns hlocal) (by simp)
  | some label =>
    rw [written_of_label? hns hlabel]
    split
    · next hempty => exact iff_of_false (resolveAttribute_localName_ne hns hlocal) (by simp [hempty])
    · next hempty =>
      rw [Scopes.resolveAttribute_labelled]
      exact iff_of_true (resolve_labelled_of_label? hlabels hlabel) ⟨label, rfl, hempty⟩

/-- What the written form of a name stands for, if it was not known and neither a label nor the local name has a colon.
As the name of an element it stands for the name exactly if a label is bound to the namespace. As the name of an
attribute it does so exactly if the innermost such label is not the empty one; where a label is bound that is not
empty, this fails exactly if the empty one is declared further in. -/
theorem of_resolves :
    (scopes.resolve (Name.of name "" scopes).written = .ok name ↔ ∃ label, scopes.Binds label name.ns) ∧
    (scopes.resolveAttribute (Name.of name "" scopes).written = .ok name ↔
      ∃ label, scopes.BindsInnermost label name.ns ∧ label ≠ "") ∧
    ((∃ label, scopes.Binds label name.ns ∧ label ≠ "") →
      (scopes.resolveAttribute (Name.of name "" scopes).written = .ok name ↔ ¬ scopes.BindsInnermost "" name.ns)) := by
  rw [resolve_written_iff hns hlocal hlabels, resolveAttribute_written_iff hns hlocal hlabels]
  simp only [← Scopes.label?_eq_some_iff]
  refine ⟨Scopes.exists_label?_iff, trivial, fun ⟨label, hbinds, _⟩ => ?_⟩
  obtain ⟨innermost, h⟩ := Scopes.exists_label?_iff.2 ⟨label, hbinds⟩
  simp [h]

omit hns hlocal hlabels

/-- A label for a namespace, and inside it the namespace as the default. -/
def defaultInside : Scopes := (Scopes.empty.push.declare "p" "urn:a").push.declare "" "urn:a"

/-- The statement at the scopes around `defaultInside`'s inner one, where the label is the innermost. -/
theorem of_resolves_labelled : (∀ b ∈ defaultInside.pop.bindings, ':' ∉ b.label.toList) ∧
    (QName.mk "urn:a" "x").hasNamespace = true ∧ ':' ∉ "x".toList ∧
    defaultInside.pop.resolveAttribute (Name.of ⟨"urn:a", "x"⟩ "" defaultInside.pop).written =
      .ok ⟨"urn:a", "x"⟩ := by
  have hlabels : ∀ b ∈ defaultInside.pop.bindings, ':' ∉ b.label.toList := by decide
  have hns : (QName.mk "urn:a" "x").hasNamespace = true := by decide
  have hlocal : ':' ∉ "x".toList := by decide
  refine ⟨hlabels, hns, hlocal, (of_resolves hns hlocal hlabels).2.1.2 ⟨"p", ?_, by decide⟩⟩
  exact ⟨[], [], by decide, by decide, by simp⟩

/-- An attribute's name is written without its label, though one is bound to its namespace, because that is the
default namespace further in; so it does not stand for the name. -/
theorem default_hides_label : (∀ b ∈ defaultInside.bindings, ':' ∉ b.label.toList) ∧
    (QName.mk "urn:a" "x").hasNamespace = true ∧ ':' ∉ "x".toList ∧
    (∃ label, defaultInside.Binds label "urn:a" ∧ label ≠ "") ∧
    (Name.of ⟨"urn:a", "x"⟩ "" defaultInside).written = "x" ∧
    defaultInside.resolveAttribute "x" = .ok (.plain "x") ∧
    defaultInside.resolveAttribute "p:x" = .ok ⟨"urn:a", "x"⟩ := by
  refine ⟨by decide, by decide, by decide, ⟨"p", ⟨by decide, by decide⟩, by decide⟩, by decide, by decide, ?_⟩
  have hlookup : defaultInside.resolve ("p" ++ ":" ++ "x") = .ok ⟨"urn:a", "x"⟩ :=
    Scopes.resolve_labelled (by decide) (by decide)
  exact Scopes.resolveAttribute_labelled.trans hlookup

end Xsd.Name

end RelaxNg
