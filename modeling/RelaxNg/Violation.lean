import RelaxNg.Location

/-!
# Violated restrictions

A restriction is one of the rules that a grammar has to keep once its references are resolved: what may not stand
where, which names may not meet, which content may not be combined, and where identity types may be declared. Each has
a stable code and a message. A violation is a broken restriction with the location of the innermost pattern that has
one.
-/

namespace RelaxNg

inductive Restriction where
  | startContainsAttribute
  | startContainsData
  | startContainsEmpty
  | startContainsGroup
  | startContainsInterleave
  | startContainsList
  | startContainsOneOrMore
  | startContainsText
  | startContainsValue
  | openNameClassNotRepeated
  | oneOrMoreContainsGroupContainsAttribute
  | oneOrMoreContainsInterleaveContainsAttribute
  | listContainsAttribute
  | listContainsElement
  | listContainsInterleave
  | listContainsList
  | listContainsText
  | attributeContainsAttribute
  | attributeContainsElement
  | dataExceptContainsAttribute
  | dataExceptContainsElement
  | dataExceptContainsEmpty
  | dataExceptContainsGroup
  | dataExceptContainsInterleave
  | dataExceptContainsList
  | dataExceptContainsOneOrMore
  | dataExceptContainsText
  | duplicateAttribute
  | xmlnsAttributeName
  | groupString
  | interleaveString
  | oneOrMoreString
  | interleaveElementOverlap
  | interleaveTextOverlap
  | idElementNameClass
  | idAttributeNameClass
  | idTypeConflict
  | idParent
  /-- A rule that is known by its code alone. -/
  | unlisted (code : String)
deriving DecidableEq, Inhabited

namespace Restriction

def code : Restriction → String
  | startContainsAttribute => "start_contains_attribute"
  | startContainsData => "start_contains_data"
  | startContainsEmpty => "start_contains_empty"
  | startContainsGroup => "start_contains_group"
  | startContainsInterleave => "start_contains_interleave"
  | startContainsList => "start_contains_list"
  | startContainsOneOrMore => "start_contains_one_or_more"
  | startContainsText => "start_contains_text"
  | startContainsValue => "start_contains_value"
  | openNameClassNotRepeated => "open_name_class_not_repeated"
  | oneOrMoreContainsGroupContainsAttribute => "one_or_more_contains_group_contains_attribute"
  | oneOrMoreContainsInterleaveContainsAttribute => "one_or_more_contains_interleave_contains_attribute"
  | listContainsAttribute => "list_contains_attribute"
  | listContainsElement => "list_contains_element"
  | listContainsInterleave => "list_contains_interleave"
  | listContainsList => "list_contains_list"
  | listContainsText => "list_contains_text"
  | attributeContainsAttribute => "attribute_contains_attribute"
  | attributeContainsElement => "attribute_contains_element"
  | dataExceptContainsAttribute => "data_except_contains_attribute"
  | dataExceptContainsElement => "data_except_contains_element"
  | dataExceptContainsEmpty => "data_except_contains_empty"
  | dataExceptContainsGroup => "data_except_contains_group"
  | dataExceptContainsInterleave => "data_except_contains_interleave"
  | dataExceptContainsList => "data_except_contains_list"
  | dataExceptContainsOneOrMore => "data_except_contains_one_or_more"
  | dataExceptContainsText => "data_except_contains_text"
  | duplicateAttribute => "duplicate_attribute"
  | xmlnsAttributeName => "xmlns_attribute_name"
  | groupString => "group_string"
  | interleaveString => "interleave_string"
  | oneOrMoreString => "one_or_more_string"
  | interleaveElementOverlap => "interleave_element_overlap"
  | interleaveTextOverlap => "interleave_text_overlap"
  | idElementNameClass => "id_element_name_class"
  | idAttributeNameClass => "id_attribute_name_class"
  | idTypeConflict => "id_type_conflict"
  | idParent => "id_parent"
  | unlisted code => code

def message : Restriction → String
  | startContainsAttribute => "found attribute in start pattern"
  | startContainsData => "found data in start pattern"
  | startContainsEmpty => "found empty in start pattern"
  | startContainsGroup => "found group in start pattern"
  | startContainsInterleave => "found interleave in start pattern"
  | startContainsList => "found list in start pattern"
  | startContainsOneOrMore => "found oneOrMore in start pattern"
  | startContainsText => "found text in start pattern"
  | startContainsValue => "found value in start pattern"
  | openNameClassNotRepeated => "attribute with an open name class must be repeated with oneOrMore"
  | oneOrMoreContainsGroupContainsAttribute => "oneOrMore contains group contains attribute"
  | oneOrMoreContainsInterleaveContainsAttribute => "oneOrMore contains interleave contains attribute"
  | listContainsAttribute => "list contains attribute"
  | listContainsElement => "list contains element"
  | listContainsInterleave => "list contains interleave"
  | listContainsList => "list contains list"
  | listContainsText => "list contains text"
  | attributeContainsAttribute => "attribute contains attribute"
  | attributeContainsElement => "attribute contains element"
  | dataExceptContainsAttribute => "data/except contains attribute"
  | dataExceptContainsElement => "data/except contains element"
  | dataExceptContainsEmpty => "data/except contains empty"
  | dataExceptContainsGroup => "data/except contains group"
  | dataExceptContainsInterleave => "data/except contains interleave"
  | dataExceptContainsList => "data/except contains list"
  | dataExceptContainsOneOrMore => "data/except contains oneOrMore"
  | dataExceptContainsText => "data/except contains text"
  | duplicateAttribute => "duplicate attribute"
  | xmlnsAttributeName => "attribute name must not be xmlns or in the xmlns namespace"
  | groupString => "group of string or data element"
  | interleaveString => "interleave of string or data element"
  | oneOrMoreString => "repeat of string or data element"
  | interleaveElementOverlap => "overlapping element names in operands of interleave"
  | interleaveTextOverlap => "both operands of interleave contain text"
  | idElementNameClass => "element with attribute of type ID/IDREF/IDREFS must have a simple name"
  | idAttributeNameClass => "attribute of type ID/IDREF/IDREFS must have a simple name"
  | idTypeConflict => "conflicting ID types for the same attribute"
  | idParent => "datatype ID/IDREF/IDREFS must be the whole value of an attribute or element"
  | unlisted _ => "restriction violated"

/-- The restrictions that have a message of their own. -/
def listed : List Restriction :=
  [startContainsAttribute, startContainsData, startContainsEmpty, startContainsGroup, startContainsInterleave,
    startContainsList, startContainsOneOrMore, startContainsText, startContainsValue, openNameClassNotRepeated,
    oneOrMoreContainsGroupContainsAttribute, oneOrMoreContainsInterleaveContainsAttribute, listContainsAttribute,
    listContainsElement, listContainsInterleave, listContainsList, listContainsText, attributeContainsAttribute,
    attributeContainsElement, dataExceptContainsAttribute, dataExceptContainsElement, dataExceptContainsEmpty,
    dataExceptContainsGroup, dataExceptContainsInterleave, dataExceptContainsList, dataExceptContainsOneOrMore,
    dataExceptContainsText, duplicateAttribute, xmlnsAttributeName, groupString, interleaveString, oneOrMoreString,
    interleaveElementOverlap, interleaveTextOverlap, idElementNameClass, idAttributeNameClass, idTypeConflict,
    idParent]

def ofCode (code : String) : Restriction :=
  (listed.find? fun r => r.code == code).getD (unlisted code)

end Restriction

structure Violation where
  restriction : Restriction
  /-- The innermost location known around the offending pattern. -/
  location : Option Location
deriving DecidableEq, Inhabited

namespace Violation

def of (restriction : Restriction) : Violation := ⟨restriction, none⟩

def located (v : Violation) (loc : Location) : Violation := { v with location := some loc }

/-- Puts the violation at a location unless it has one. -/
def within (v : Violation) (loc : Option Location) : Violation := { v with location := v.location.or loc }

/-- The written form: the message, the code in parentheses and the location if there is one. -/
def render (v : Violation) : String :=
  let place := match v.location with
    | some loc => " at " ++ loc.render
    | none => ""
  v.restriction.message ++ " (" ++ v.restriction.code ++ ")" ++ place

end Violation

end RelaxNg
