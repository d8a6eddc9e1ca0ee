import RelaxNg.Error

/-!
# XML names and white space

`isNCName` decides the names without a colon, `splitColon` cuts a name at its first colon, and `tokens` lists the
words of a value, the runs of characters that are no white space. A value is one token exactly when `singleToken?`
answers it.
-/

namespace RelaxNg.Xml

/-! ## White space -/

/-- White space in XML: space, tab, line feed and carriage return. -/
def isSpace (c : Char) : Bool :=
  c == ' ' || c == '\t' || c == '\n' || c == '\r'

/-- Whether a text holds white space only; the empty text does. -/
def isBlank (text : String) : Bool :=
  text.toList.all isSpace

/-- The words of the characters still to come, when the characters of the word before them are `word`, last first. -/
def wordsAfter (word : List Char) : List Char → List (List Char)
  | [] => if word.isEmpty then [] else [word.reverse]
  | c :: rest =>
    if isSpace c then
      if word.isEmpty then wordsAfter [] rest else word.reverse :: wordsAfter [] rest
    else wordsAfter (c :: word) rest

def tokens (value : String) : List String :=
  (wordsAfter [] value.toList).map String.ofList

/-- The only word of a value; none if the value has no word or more than one. -/
def singleToken? (value : String) : Option String :=
  match tokens value with
  | [token] => some token
  | _ => none

/-! ## Names -/

/-- Ranges of the characters that may begin a name without a colon. -/
def nameStartRanges : List (Nat × Nat) :=
  [(0x41, 0x5A), (0x5F, 0x5F), (0x61, 0x7A), (0xC0, 0xD6), (0xD8, 0xF6), (0xF8, 0x2FF), (0x370, 0x37D),
    (0x37F, 0x1FFF), (0x200C, 0x200D), (0x2070, 0x218F), (0x2C00, 0x2FEF), (0x3001, 0xD7FF), (0xF900, 0xFDCF),
    (0xFDF0, 0xFFFD), (0x10000, 0xEFFFF)]

/-- Ranges of the characters that may follow in a name and may not begin one. -/
def nameRestRanges : List (Nat × Nat) :=
  [(0x2D, 0x2E), (0x30, 0x39), (0xB7, 0xB7), (0x300, 0x36F), (0x203F, 0x2040)]

def inRanges (ranges : List (Nat × Nat)) (c : Char) : Bool :=
  ranges.any fun range => range.1 ≤ c.toNat && c.toNat ≤ range.2

def isNameStart (c : Char) : Bool :=
  inRanges nameStartRanges c

def isNameRest (c : Char) : Bool :=
  isNameStart c || inRanges nameRestRanges c

def isNCName (text : String) : Bool :=
  match text.toList with
  | [] => false
  | c :: rest => isNameStart c && rest.all isNameRest

def checkNCName (text : String) : Except Error Unit :=
  if isNCName text then .ok () else .error (.invalidName (.notNCName text))

/-- A name cut at its first colon: what stands before it, if there is one, and what follows. -/
def splitColon (name : String) : Option String × String :=
  match name.toList.span (· != ':') with
  | (_, []) => (none, name)
  | (before, _ :: after) => (some (String.ofList before), String.ofList after)

/-- Whether a text is a name with at most one colon: both parts are names without one. -/
def isQualifiedName (text : String) : Bool :=
  match splitColon text with
  | (some before, after) => isNCName before && isNCName after
  | (none, whole) => isNCName whole

end RelaxNg.Xml
