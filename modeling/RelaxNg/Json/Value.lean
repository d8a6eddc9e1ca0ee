/-!
# JSON values

The values that options are written in. A number keeps its value only if it is written as a plain natural number, and a
text only if it is made of characters: an escape may name half of a surrogate pair, which is no character.
-/

namespace RelaxNg.Json

inductive Value where
  | null
  | bool (value : Bool)
  /-- A number written with digits alone. -/
  | natural (value : Nat)
  /-- A number with a sign, a fraction or an exponent. -/
  | otherNumber
  /-- A text; none if it holds an unpaired surrogate. -/
  | text (value : Option String)
  | array (items : List Value)
  /-- The members as written, repeated names included. -/
  | object (members : List (Option String × Value))
deriving Inhabited

end RelaxNg.Json
