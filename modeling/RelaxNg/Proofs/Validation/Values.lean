import RelaxNg.Validation.IdentityTracker
import Mathlib.Data.List.Nodup

/-!
# Documents with values of identity types

A validator is told of a document by notices of where its elements and texts begin and end (`OneDocument`). The values
in it that are of an identity type are those of attributes and those of elements; the value of an element is the text
directly in it, put together of all its pieces. A document has integrity if all its values are well formed, no identity
is declared twice and every reference is to a declared identity, wherever in the document it stands (`Integrity`).
-/

namespace RelaxNg

/-! ## Documents with their values -/

/-- What a validator is told of a document: where the next event stands, or an event. -/
inductive Notice where
  | locate (location : Option Location)
  | event (event : Event)

/-- Whether a notice is about neither elements nor text. -/
def Notice.isQuiet : Notice → Bool
  | locate _ | event (.declare _ _) | event (.undeclare _) | event (.space _) | event (.entity _) => true
  | _ => false

namespace Validator

variable {σ : Type}

def notice (v : Validator σ) : Notice → Attempt σ Unit
  | .locate location => modify (v.locate location)
  | .event event => v.handle event

def follow (v : Validator σ) (notices : List Notice) : Attempt σ Unit := notices.forM v.notice

end Validator

/-- A value and the identity type that it is of. -/
abbrev TypedValue := IdentityType × String

namespace IdentityMap

def attributeValues (types : IdentityMap) (element : QName) (attributes : List Attribute) : List TypedValue :=
  attributes.filterMap fun a => (types.attribute? element a.name).map (·, a.value)

def elementValue (types : IdentityMap) (name : QName) (text : String) : List TypedValue :=
  (types.element? name).toList.map (·, text)

end IdentityMap

/-- Notices of elements that nest properly and within limits, in a number of open elements. What they tell is the text
that is in none of their elements and all values of an identity type. -/
inductive Nested (types : IdentityMap) (limits : Limits) : Nat → List Notice → String → List TypedValue → Prop
  | nil (level : Nat) : Nested types limits level [] "" []
  | quiet {level notice notices text values} (hn : notice.isQuiet = true)
      (h : Nested types limits level notices text values) : Nested types limits level (notice :: notices) text values
  | text {level notices text values} (piece : String) (h : Nested types limits level notices text values) :
      Nested types limits level (.event (.text piece) :: notices) (piece ++ text) values
  | element {level inside innerText innerValues notices text values} (name : QName) (written : String)
      (attributes : List Attribute) (hlevel : level + 1 ≤ limits.maxXmlDepth)
      (hattributes : attributes.length ≤ limits.maxAttributes)
      (hin : Nested types limits (level + 1) inside innerText innerValues)
      (h : Nested types limits level notices text values) :
      Nested types limits level
        (.event (.startElement name written attributes) :: (inside ++ .event (.endElement name written) :: notices)) text
        (types.attributeValues name attributes ++ innerValues ++ types.elementValue name innerText ++ values)

theorem Nested.of_locations {types : IdentityMap} {limits : Limits} {level : Nat} {notices : List Notice}
    (h : ∀ notice ∈ notices, ∃ location, notice = .locate location) : Nested types limits level notices "" [] := by
  induction notices with
  | nil => exact .nil level
  | cons notice notices ih =>
    rw [List.forall_mem_cons] at h
    obtain ⟨location, rfl⟩ := h.1
    exact .quiet rfl (ih h.2)

/-- Notices of one document from its start to its end. -/
inductive OneDocument (types : IdentityMap) (limits : Limits) : List Notice → List TypedValue → Prop
  | intro {before body text values} (hbefore : ∀ notice ∈ before, ∃ location, notice = .locate location)
      (h : Nested types limits 0 body text values) :
      OneDocument types limits (before ++ .event .startDocument :: (body ++ [.event .endDocument])) values

/-! ## Integrity -/

/-- A value has the form that its type asks for. -/
def WellFormed : TypedValue → Prop
  | (.id, value) | (.idref, value) => ∃ token, Xml.tokens value = [token] ∧ Xml.isNCName token = true
  | (.idrefs, value) => Xml.tokens value ≠ [] ∧ ∀ token ∈ Xml.tokens value, Xml.isNCName token = true

/-- The tokens that values declare as identities, one after the other. -/
def declaredIn (values : List TypedValue) : List String :=
  values.flatMap fun v => if v.1 = .id then Xml.tokens v.2 else []

/-- The tokens by which values refer to identities. -/
def referredIn (values : List TypedValue) : List String :=
  values.flatMap fun v => if v.1 = .id then [] else Xml.tokens v.2

/-- All values are well formed, no identity is declared twice, and every reference is to one that is declared. -/
structure Integrity (values : List TypedValue) : Prop where
  wellFormed : ∀ v ∈ values, WellFormed v
  nodup : (declaredIn values).Nodup
  resolved : ∀ token ∈ referredIn values, token ∈ declaredIn values

/-- What can be told from the values so far: they are well formed, and no identity is declared twice. -/
def Fine (values : List TypedValue) : Prop := (∀ v ∈ values, WellFormed v) ∧ (declaredIn values).Nodup

variable {values : List TypedValue} {v : TypedValue} {token value : String} {type : IdentityType}

theorem declaredIn_concat : declaredIn (values ++ [v]) = declaredIn values ++ declaredIn [v] := List.flatMap_append ..

theorem referredIn_concat : referredIn (values ++ [v]) = referredIn values ++ referredIn [v] := List.flatMap_append ..

theorem fine_concat : Fine (values ++ [v]) ↔
    Fine values ∧ WellFormed v ∧ (declaredIn [v]).Nodup ∧ (declaredIn values).Disjoint (declaredIn [v]) := by
  unfold Fine
  rw [declaredIn_concat, List.nodup_append', List.forall_mem_append, List.forall_mem_singleton]
  tauto

theorem integrity_iff : Integrity values ↔ Fine values ∧ ∀ token ∈ referredIn values, token ∈ declaredIn values :=
  ⟨fun h => ⟨⟨h.wellFormed, h.nodup⟩, h.resolved⟩, fun h => ⟨h.1.1, h.1.2, h.2⟩⟩

end RelaxNg
