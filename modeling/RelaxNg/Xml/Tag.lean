import RelaxNg.Error
import RelaxNg.Xml.Name
import RelaxNg.Xml.Reference

/-!
# Start tags

Between its brackets a start tag has a name, which white space ends, and attributes: a key, an equals sign and a value
in quotes of either kind. White space may stand around the equals sign, and none is needed between attributes. A key
must not be repeated. `Tag.attributes` reads them up to the first that is malformed.
-/

namespace RelaxNg.Xml

structure RawAttribute where
  key : List Char
  /-- What is between the quotes. -/
  value : List Char
deriving DecidableEq, Inhabited

structure Tag where
  written : String
  rest : List Char
deriving DecidableEq, Inhabited

namespace Tag

def ofChars (chars : List Char) : Tag :=
  let (name, rest) := chars.span fun c => !isSpace c
  ⟨String.ofList name, rest⟩

/-- The next attribute and what follows it. The answer is `some none` for white space alone, and `none` for something
malformed. -/
def nextAttribute? (chars : List Char) : Option (Option (RawAttribute × List Char)) :=
  match chars.dropWhile isSpace with
  | [] => some none
  | first :: rest =>
    let (more, rest) := rest.span fun c => c != '=' && !isSpace c
    match rest.dropWhile isSpace with
    | '=' :: rest =>
      match rest.dropWhile isSpace with
      | quote :: rest =>
        if quote = '"' || quote = '\'' then
          match rest.span (· != quote) with
          | (value, _ :: rest) => some (some (⟨first :: more, value⟩, rest))
          | (_, []) => none
        else none
      | [] => none
    | _ => none

/-- The attributes in some characters, with resolved values, up to the first that is malformed or has a key `seen`
before. Each takes a character, so `fuel` bounds their number. -/
def attributesIn (fuel : Nat) (seen : List (List Char)) (chars : List Char) :
    Except XmlFault (List (String × String)) :=
  match fuel with
  | 0 => .error .badAttribute
  | fuel + 1 =>
    match nextAttribute? chars with
    | none => .error .badAttribute
    | some none => .ok []
    | some (some (raw, rest)) =>
      if seen.contains raw.key then .error .badAttribute
      else
        match resolveReferences? raw.value with
        | none => .error .badAttributeValue
        | some value =>
          (attributesIn fuel (raw.key :: seen) rest).map ((String.ofList raw.key, value) :: ·)

/-- The attributes of a tag, with their keys as written and their values with references resolved. -/
def attributes (tag : Tag) : Except XmlFault (List (String × String)) :=
  attributesIn (tag.rest.length + 1) [] tag.rest

end Tag

end RelaxNg.Xml
