import RelaxNg.Xml.Scopes

/-!
# Names for an XML Schema engine

An engine wants names with the label and the written form in which they could stand in the document. A name whose
written form is not known gets the label that is declared innermost for its namespace; a name in no namespace never has
a label.
-/

namespace RelaxNg.Xsd

structure Name where
  /-- What stands before the colon; empty if nothing does or it is not known. -/
  label : String
  localName : String
  written : String
  ns : Option String
deriving DecidableEq, Inhabited

namespace Name

/-- The name for a qualified name and its written form, which is empty if it is not known. -/
def of (name : QName) (written : String) (scopes : Xml.Scopes) : Name :=
  if !name.hasNamespace then ⟨"", name.localName, name.localName, none⟩
  else if written = "" then
    match scopes.label? name.ns with
    | some label =>
      if label = "" then ⟨"", name.localName, name.localName, some name.ns⟩
      else ⟨label, name.localName, label ++ ":" ++ name.localName, some name.ns⟩
    | none => ⟨"", name.localName, name.localName, some name.ns⟩
  else ⟨(Xml.splitColon written).1.getD "", name.localName, written, some name.ns⟩

def render (name : Name) : String := name.written

end Name

end RelaxNg.Xsd
