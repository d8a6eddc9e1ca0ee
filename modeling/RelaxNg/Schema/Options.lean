import RelaxNg.Json.Reader
import RelaxNg.Limits

/-!
# Options

What a schema is compiled with: the limits, whether identities are checked and whether content is tracked. Options are
read from JSON. They are an object whose members may stand in any order, may be missing and may be joined by unknown
ones, but not repeated; or an array of the same values in their fixed order, whose last ones may be missing.
-/

namespace RelaxNg

structure Options where
  limits : Limits := {}
  /-- Whether identity types are collected and identities checked. -/
  checkIdentity : Bool := true
  trackContent : Bool := true
deriving DecidableEq, Inhabited

namespace Json

/-- The member with a name: `none` if it is repeated, `some none` if it is missing. -/
def member? (name : String) (members : List (Option String × Value)) : Option (Option Value) :=
  match members.filter fun m => m.1 = some name with
  | [] => some none
  | [m] => some (some m.2)
  | _ => none

/-- The values of named fields, each missing or given: those of an object by name, those of an array by position. An
object whose member names are not all texts has none, and neither has an array with too many items. -/
def fields? (names : List String) : Value → Option (List (Option Value))
  | .object members =>
    if members.all fun m => m.1.isSome then names.mapM fun name => member? name members else none
  | .array items =>
    if items.length ≤ names.length then
      some (items.map some ++ List.replicate (names.length - items.length) none)
    else none
  | _ => none

/-- A natural number of 64 bits, or what stands for a missing one. -/
def word? (missing : Nat) : Option Value → Option Nat
  | none => some missing
  | some (.natural n) => if n < UInt64.size then some n else none
  | some _ => none

def bool? (missing : Bool) : Option Value → Option Bool
  | none => some missing
  | some (.bool b) => some b
  | some _ => none

end Json

/-- The limits that a JSON value gives; missing ones are standard. -/
def Limits.ofValue? (value : Json.Value) : Option Limits := do
  let [depth, patterns, xmlDepth, attributes] ←
    Json.fields? ["max_recursion_depth", "max_patterns", "max_xml_depth", "max_attributes"] value | none
  return {
    maxRecursionDepth := ← Json.word? standard.maxRecursionDepth depth
    maxPatterns := ← Json.word? standard.maxPatterns patterns
    maxXmlDepth := ← Json.word? standard.maxXmlDepth xmlDepth
    maxAttributes := ← Json.word? standard.maxAttributes attributes }

namespace Options

def standard : Options := {}

def ofValue? (value : Json.Value) : Option Options := do
  let [limits, identity, content] ← Json.fields? ["limits", "check_id_idref", "track_content_model"] value | none
  return {
    limits := ← (match limits with
      | none => some .standard
      | some limits => Limits.ofValue? limits)
    checkIdentity := ← Json.bool? standard.checkIdentity identity
    trackContent := ← Json.bool? standard.trackContent content }

def ofJson (source : String) : Except Error Options :=
  match (Json.read? source).bind ofValue? with
  | some options => .ok options
  | none => .error .config

end Options

end RelaxNg
