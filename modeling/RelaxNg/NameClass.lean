import RelaxNg.QName

/-!
# Name classes

A name class is a set of qualified names, written with single names, wildcards for all names or for the names of a
namespace, exceptions and choices. `contains` decides membership, `simpleNames?` lists the names of a class without
wildcards, and `overlaps` decides whether two classes share a name.

A finite set of representatives settles overlap: the names that occur in a class and, for each wildcard, one name that
stands for all others of its namespace or of every namespace. No real name has the namespace or the local name that
make these.
-/

namespace RelaxNg

inductive NameClass where
  | name (name : QName)
  | any
  | anyExcept (except : NameClass)
  | ofNamespace (ns : String)
  | ofNamespaceExcept (ns : String) (except : NameClass)
  | choice (left right : NameClass)
deriving DecidableEq, Hashable, Inhabited

namespace NameClass

def plain (localName : String) : NameClass := .name (.plain localName)

def contains : NameClass → QName → Bool
  | name n, q => n == q
  | any, _ => true
  | anyExcept except, q => !except.contains q
  | ofNamespace ns, q => ns == q.ns
  | ofNamespaceExcept ns except, q => ns == q.ns && !except.contains q
  | choice left right, q => left.contains q || right.contains q

/-- Whether the class is written with a wildcard outside exceptions. -/
def isOpen : NameClass → Bool
  | name _ => false
  | choice left right => left.isOpen || right.isOpen
  | _ => true

/-- The single names of a class from left to right, exceptions left out. -/
def singleNames : NameClass → List QName
  | name n => [n]
  | choice left right => left.singleNames ++ right.singleNames
  | _ => []

/-- The names of a class without wildcards, each once in the order of first occurrence; none for an open class. -/
def simpleNames? (nc : NameClass) : Option (List QName) :=
  if nc.isOpen then none
  else some (nc.singleNames.foldl (fun names n => if names.contains n then names else names ++ [n]) [])

/-! ## Overlap -/

/-- A namespace that no real name has. It stands for every namespace that is not mentioned. -/
def otherNamespace : String := "\x01"

/-- A local name that no real name has. It stands for every local name that is not mentioned. -/
def otherLocalName : String := ""

def representatives : NameClass → List QName
  | name n => [n]
  | any => [⟨otherNamespace, otherLocalName⟩]
  | anyExcept except => ⟨otherNamespace, otherLocalName⟩ :: except.representatives
  | ofNamespace ns => [⟨ns, otherLocalName⟩]
  | ofNamespaceExcept ns except => ⟨ns, otherLocalName⟩ :: except.representatives
  | choice left right => left.representatives ++ right.representatives

/-- Whether two classes share a name: one of their representatives is in both. -/
def overlaps (a b : NameClass) : Bool :=
  (a.representatives ++ b.representatives).any fun q => a.contains q && b.contains q

/-! ## Written form -/

/-- The written form: a star for a wildcard, after its namespace in braces, exceptions in parentheses behind a minus
and choices with a bar between. -/
def render : NameClass → String
  | name n => n.render
  | any => "*"
  | anyExcept except => "* - (" ++ except.render ++ ")"
  | ofNamespace ns => "\x7b" ++ ns ++ "\x7d*"
  | ofNamespaceExcept ns except => "\x7b" ++ ns ++ "\x7d* - (" ++ except.render ++ ")"
  | choice left right => left.render ++ " | " ++ right.render

end NameClass

end RelaxNg
