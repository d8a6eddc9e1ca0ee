import RelaxNg.Digit

/-!
# References

In text and in the values of attributes, an ampersand begins a reference, which a semicolon ends: to one of five named
characters, or to a character by its number in decimal or hexadecimal digits. `resolveReferences?` puts the characters
in the place of the references; anything else behind an ampersand fails.
-/

namespace RelaxNg.Xml

/-- The number in a reference, which has at most seven decimal or, after an `x`, six hexadecimal digits. -/
def referredNumber? : List Char → Option Nat
  | 'x' :: digits => if digits.length ≤ 6 then Digit.row? Digit.hexadecimal? 16 digits else none
  | digits => if digits.length ≤ 7 then Digit.row? Digit.decimal? 10 digits else none

/-- The character with a number. The number zero, which is also that of no digits, has none. -/
def characterOf? (n : Nat) : Option Char :=
  if n ≠ 0 ∧ n.isValidChar then some (Char.ofNat n) else none

/-- The character that a reference stands for, by what is between ampersand and semicolon. -/
def referred? : List Char → Option Char
  | ['l', 't'] => some '<'
  | ['g', 't'] => some '>'
  | ['a', 'm', 'p'] => some '&'
  | ['a', 'p', 'o', 's'] => some '\''
  | ['q', 'u', 'o', 't'] => some '"'
  | '#' :: number => (referredNumber? number).bind characterOf?
  | _ => none

/-- The characters of a text with its references resolved. `name` is what was read of an open reference, last first. -/
def resolveAfter? : (name : Option (List Char)) → List Char → Option (List Char)
  | none, [] => some []
  | some _, [] => none
  | none, c :: rest => if c = '&' then resolveAfter? (some []) rest else (resolveAfter? none rest).map (c :: ·)
  | some name, c :: rest =>
    if c = ';' then do
      let character ← referred? name.reverse
      return character :: (← resolveAfter? none rest)
    else if c = '&' then none
    else resolveAfter? (some (c :: name)) rest

def resolveReferences? (chars : List Char) : Option String := (resolveAfter? none chars).map String.ofList

end RelaxNg.Xml
