/-!
# Unparsed entities

A document type declaration may declare entities that are not XML, each with a name, an optional public identifier, a
system identifier and the name of a notation. `UnparsedEntity.declaredIn` finds these declarations from left to right;
whatever else the text holds is passed over. White space is that of Unicode.
-/

namespace RelaxNg.Xml

/-- An entity that is not XML. -/
structure UnparsedEntity where
  name : String
  publicId : Option String
  systemId : String
  notationName : String
deriving DecidableEq, Inhabited

namespace UnparsedEntity

def isWhite (c : Char) : Bool :=
  let n := c.toNat
  (0x9 ≤ n && n ≤ 0xD) || n == 0x20 || n == 0x85 || n == 0xA0 || n == 0x1680 || (0x2000 ≤ n && n ≤ 0x200A) ||
    n == 0x2028 || n == 0x2029 || n == 0x202F || n == 0x205F || n == 0x3000

/-- The characters that come first and belong to a class, one at least, and what is left after them. -/
def leading? (belongs : Char → Bool) (chars : List Char) : Option (List Char × List Char) :=
  match chars.span belongs with
  | ([], _) => none
  | (first, rest) => some (first, rest)

/-- What is left after white space, of which there has to be some. -/
def white? (chars : List Char) : Option (List Char) := (leading? isWhite chars).map Prod.snd

/-- A literal in quotes of either kind and what is left after it. -/
def literal? : List Char → Option (List Char × List Char)
  | [] => none
  | quote :: rest =>
    if quote = '"' || quote = '\'' then
      match rest.span (· != quote) with
      | (_, []) => none
      | (text, _ :: rest) => some (text, rest)
    else none

/-- The identifiers of an entity, the public one if there is one, and what is left after them. -/
def identifiers? (chars : List Char) : Option (Option (List Char) × List Char × List Char) :=
  match ['S', 'Y', 'S', 'T', 'E', 'M'].isPrefixOf? chars with
  | some rest => do
    let (system, rest) ← literal? (← white? rest)
    return (none, system, rest)
  | none => do
    let rest ← ['P', 'U', 'B', 'L', 'I', 'C'].isPrefixOf? chars
    let (publicId, rest) ← literal? (← white? rest)
    let (system, rest) ← literal? (← white? rest)
    return (some publicId, system, rest)

def declaration? (chars : List Char) : Option (UnparsedEntity × List Char) := do
  let rest ← ['<', '!', 'E', 'N', 'T', 'I', 'T', 'Y'].isPrefixOf? chars
  let (name, rest) ← leading? (fun c => !isWhite c && c != '%') (← white? rest)
  let (publicId, system, rest) ← identifiers? (← white? rest)
  let rest ← ['N', 'D', 'A', 'T', 'A'].isPrefixOf? (← white? rest)
  let (notationName, rest) ← leading? (fun c => !isWhite c && c != '>') (← white? rest)
  let '>' :: rest := rest.dropWhile isWhite | none
  return (⟨String.ofList name, publicId.map String.ofList, String.ofList system, String.ofList notationName⟩, rest)

/-- The declarations in some characters, the first `skip` of which are passed over. -/
def declaredAfter : (skip : Nat) → List Char → List UnparsedEntity
  | _, [] => []
  | skip + 1, _ :: rest => declaredAfter skip rest
  | 0, c :: rest =>
    match declaration? (c :: rest) with
    | some (entity, after) => entity :: declaredAfter (rest.length - after.length) rest
    | none => declaredAfter 0 rest

/-- The unparsed entities that a document type declaration declares, in order. -/
def declaredIn (doctype : String) : List UnparsedEntity := declaredAfter 0 doctype.toList

end UnparsedEntity

end RelaxNg.Xml
