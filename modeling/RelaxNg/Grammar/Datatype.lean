import RelaxNg.QName

/-!
# Datatypes and annotations

What a grammar quotes without looking into it: the datatypes of values with their parameters, and the foreign elements
that annotate patterns. Of the datatypes only the identity types are known here, those whose values declare an identity
or refer to one.
-/

namespace RelaxNg

inductive IdentityType where
  /-- The value declares an identity. -/
  | id
  /-- The value refers to an identity. -/
  | idref
  /-- The words of the value refer to identities. -/
  | idrefs
deriving DecidableEq, Inhabited

def IdentityType.name : IdentityType → String
  | id => "ID"
  | idref => "IDREF"
  | idrefs => "IDREFS"

def IdentityType.ofName? (name : String) : Option IdentityType :=
  [IdentityType.id, .idref, .idrefs].find? fun t => t.name = name

/-- A datatype, by its name in a library. -/
structure Datatype where
  /-- The library, empty for the built-in one. -/
  library : String
  name : String
deriving DecidableEq, Hashable, Inhabited

namespace Datatype

def string : Datatype := ⟨"", "string"⟩

/-- The built-in datatype of texts up to white space. -/
def token : Datatype := ⟨"", "token"⟩

def xsd (name : String) : Datatype := ⟨Namespace.xsdDatatypes, name⟩

/-- The written form: the name, after the library in braces if it is not the built-in one. -/
def render (t : Datatype) : String :=
  if t.library = "" then t.name else "\x7b" ++ t.library ++ "\x7d" ++ t.name

/-- The identity type that a datatype is, in one of the two libraries that have such. -/
def identity? (t : Datatype) : Option IdentityType :=
  if t.library = Namespace.xsdDatatypes ∨ t.library = Namespace.dtdDatatypes then IdentityType.ofName? t.name
  else none

end Datatype

structure Param where
  name : String
  value : String
deriving DecidableEq, Hashable, Inhabited

structure Annotation where
  name : QName
  text : String
deriving DecidableEq, Hashable, Inhabited

structure Annotations where
  /-- Those inside the pattern. -/
  child : List Annotation := []
  /-- Those behind the pattern. -/
  following : List Annotation := []
deriving DecidableEq, Hashable, Inhabited

namespace Annotations

def none : Annotations := {}

def isEmpty (a : Annotations) : Bool := a.child.isEmpty && a.following.isEmpty

/-- The text of the first annotation inside the pattern. -/
def documentation? (a : Annotations) : Option String := a.child.head?.map Annotation.text

end Annotations

end RelaxNg
