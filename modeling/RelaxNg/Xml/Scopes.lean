import RelaxNg.Error
import RelaxNg.QName
import RelaxNg.Xml.Name

/-!
# Namespace scopes

Each open element has a scope of namespace declarations, inside the scope of the document. A declaration binds a label,
which stands before the colon of a name, to a namespace; the empty label binds names without a colon, and the empty
namespace takes a binding back. The innermost declaration of a label wins, and in one scope the latest. The label `xml`
is always bound.
-/

namespace RelaxNg.Xml

/-- A declaration of a label; without a namespace it takes the label's binding back. -/
structure Binding where
  /-- What stands before the colon, empty for names without one. -/
  label : String
  ns : Option String
deriving DecidableEq, Inhabited

/-- The scopes that are open, the innermost apart. In each the latest declaration is first. -/
structure Scopes where
  current : List Binding := []
  /-- The scopes around it, the innermost of them first. -/
  enclosing : List (List Binding) := []
deriving DecidableEq, Inhabited

namespace Scopes

def empty : Scopes := {}

def push (scopes : Scopes) : Scopes := ⟨[], scopes.current :: scopes.enclosing⟩

/-- Closes the innermost scope; the scope of the document stays. -/
def pop (scopes : Scopes) : Scopes :=
  match scopes.enclosing with
  | [] => scopes
  | outer :: rest => ⟨outer, rest⟩

/-- The number of open scopes, the document's counted. -/
def depth (scopes : Scopes) : Nat := scopes.enclosing.length + 1

/-- Declares a label in the innermost scope; an empty namespace takes the label's binding back. -/
def declare (scopes : Scopes) (label ns : String) : Scopes :=
  { scopes with current := ⟨label, if ns = "" then none else some ns⟩ :: scopes.current }

/-- The declarations in force, the one that wins first. -/
def bindings (scopes : Scopes) : List Binding := scopes.current ++ scopes.enclosing.flatten

def namespace? (scopes : Scopes) (label : String) : Option String :=
  if label = "xml" then some Namespace.xml
  else (scopes.bindings.find? fun b => b.label = label).bind Binding.ns

def default? (scopes : Scopes) : Option String := scopes.namespace? ""

/-- The label declared innermost among those that stand for a namespace. -/
def label? (scopes : Scopes) (ns : String) : Option String :=
  -- A label further out may be bound to something else by now.
  ((scopes.bindings.filter fun b => b.ns = some ns).find? fun b => scopes.namespace? b.label = some ns).map
    Binding.label

def resolve (scopes : Scopes) (written : String) : Except Error QName :=
  match splitColon written with
  | (some label, localName) =>
    match scopes.namespace? label with
    | some ns => .ok ⟨ns, localName⟩
    | none => .error (.unbound (.unknownPrefix label))
  | (none, localName) => .ok ⟨scopes.default?.getD "", localName⟩

/-- The name that an attribute's written name stands for; without a colon it is in no namespace. -/
def resolveAttribute (scopes : Scopes) (written : String) : Except Error QName :=
  if written.toList.contains ':' then scopes.resolve written else .ok (.plain written)

end Scopes

end RelaxNg.Xml
