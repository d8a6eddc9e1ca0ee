/-!
# Qualified names

A qualified name is a local name in a namespace; the empty namespace stands for no namespace. The namespaces that the
standards fix are named here.
-/

namespace RelaxNg

structure QName where
  /-- The namespace, empty for a name in no namespace. -/
  ns : String
  localName : String
deriving DecidableEq, Hashable, Inhabited

namespace QName

def plain (localName : String) : QName := ⟨"", localName⟩

def hasNamespace (name : QName) : Bool := name.ns != ""

/-- The written form: the local name, after the namespace in braces if there is one. -/
def render (name : QName) : String :=
  if name.hasNamespace then "\x7b" ++ name.ns ++ "\x7d" ++ name.localName else name.localName

end QName

namespace Namespace

/-- The namespace that the name `xml` always stands for. -/
def xml : String := "http://www.w3.org/XML/1998/namespace"

def xmlns : String := "http://www.w3.org/2000/xmlns/"

def xsdDatatypes : String := "http://www.w3.org/2001/XMLSchema-datatypes"

/-- The datatype library with the identity types of document type definitions. -/
def dtdDatatypes : String := "http://relaxng.org/ns/compatibility/datatypes/1.0"

end Namespace

end RelaxNg
