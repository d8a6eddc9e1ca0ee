import RelaxNg.Diagnostic
import RelaxNg.Violation

/-!
# Errors

Every operation of the library that can fail answers an `Error`, which says what went wrong and keeps the names, counts
and locations that belong to it. `Error.message` is the only place where errors are put into words.
-/

namespace RelaxNg

inductive RecursionError where
  /-- A definition reaches itself and no element stands between. -/
  | recursiveReference (name : String) (location : Option Location)
  | depthExceeded (depth limit : Nat)
deriving DecidableEq, Inhabited

inductive Resource where
  | patterns
  | xmlDepth
  | attributes
deriving DecidableEq, Inhabited

inductive GrammarFault where
  | duplicateDefinition (name : String)
  /-- A walk has not come to its end. -/
  | unfinished
  /-- An expansion misses the outcome of a pattern that it takes. -/
  | noResult
  /-- An expansion puts a pattern together that has no operands. -/
  | notRebuilt (kind : String)
  /-- A fault in words of its own. -/
  | stated (text : String)
deriving DecidableEq, Inhabited

inductive LimitFault where
  | exceeded (resource : Resource) (count maximum : Nat)
  | stated (text : String)
deriving DecidableEq, Inhabited

inductive NamespaceFault where
  /-- Nothing declares what stands before the colon. -/
  | unknownPrefix (text : String)
  | stated (text : String)
deriving DecidableEq, Inhabited

inductive NameFault where
  | notNCName (text : String)
  | stated (text : String)
deriving DecidableEq, Inhabited

inductive XmlFault where
  /-- A piece of markup is malformed or has no end. -/
  | badMarkup
  /-- An attribute is malformed or repeated. -/
  | badAttribute
  /-- An attribute's value holds a malformed or unknown reference. -/
  | badAttributeValue
  /-- Text holds a malformed or unknown reference. -/
  | badText
  | unexpectedEnd
  | stated (text : String)
deriving DecidableEq, Inhabited

inductive Error where
  | restriction (violation : Violation)
  | recursion (cause : RecursionError)
  /-- A reference names a definition that has no body. -/
  | undefinedReference (name : String) (location : Option Location)
  | grammar (fault : GrammarFault)
  | limitExceeded (fault : LimitFault)
  | unbound (fault : NamespaceFault)
  | invalidName (fault : NameFault)
  | xml (fault : XmlFault)
  | config
  /-- The receiver of the diagnostics put an end to validation. -/
  | aborted (diagnostic : Diagnostic)
deriving DecidableEq, Inhabited

/-- The end of a message that tells a location, if one is known. -/
def placeSuffix : Option Location → String
  | some loc => " at " ++ loc.render
  | none => ""

def RecursionError.message : RecursionError → String
  | recursiveReference name location =>
    "bad recursive reference to pattern \"" ++ name ++ "\"" ++ placeSuffix location
  | depthExceeded depth limit =>
    "grammar recursion depth " ++ toString depth ++ " exceeds maximum " ++ toString limit

def Resource.label : Resource → String
  | patterns => "Pattern count"
  | xmlDepth => "XML depth"
  | attributes => "Attribute count"

def GrammarFault.message : GrammarFault → String
  | duplicateDefinition name => "duplicate definition of \"" ++ name ++ "\""
  | unfinished => "the walk through the grammar has not come to its end"
  | noResult => "expansion result stack is empty"
  | notRebuilt kind => "cannot rebuild " ++ kind ++ " during expansion"
  | stated text => text

def LimitFault.message : LimitFault → String
  | exceeded resource count maximum => resource.label ++ " " ++ toString count ++ " exceeds maximum " ++ toString maximum
  | stated text => text

def NamespaceFault.message : NamespaceFault → String
  | unknownPrefix text => "Unknown prefix: " ++ text
  | stated text => text

def NameFault.message : NameFault → String
  | notNCName text => "Invalid NCName: '" ++ text ++ "'"
  | stated text => text

def XmlFault.message : XmlFault → String
  | badMarkup => "Error parsing XML"
  | badAttribute => "Failed to parse attribute"
  | badAttributeValue => "Failed to unescape attribute value"
  | badText => "Failed to unescape text"
  | unexpectedEnd => "Unexpected end of document"
  | stated text => text

def Error.message : Error → String
  | restriction violation => "restriction violation: " ++ violation.render
  | recursion cause => "recursion error: " ++ cause.message
  | undefinedReference name location => "reference to undefined pattern \"" ++ name ++ "\"" ++ placeSuffix location
  | grammar fault => "schema error: " ++ fault.message
  | limitExceeded fault => "limit exceeded: " ++ fault.message
  | unbound fault => "namespace error: " ++ fault.message
  | invalidName fault => "name error: " ++ fault.message
  | xml fault => "XML error: " ++ fault.message
  | config => "configuration error"
  | aborted diagnostic => "validation aborted: " ++ diagnostic.render

end RelaxNg
