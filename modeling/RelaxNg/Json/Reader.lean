import RelaxNg.Digit
import RelaxNg.Json.Value

/-!
# Reading JSON

`read?` reads a text that is one JSON value with white space around it and nothing else. Numbers have no leading zeros,
texts no control characters, and a comma stands between items only.
-/

namespace RelaxNg.Json

def isSpace (c : Char) : Bool := c == ' ' || c == '\t' || c == '\n' || c == '\r'

def skipSpace (chars : List Char) : List Char := chars.dropWhile isSpace

/-! ## Numbers -/

/-- What is left after one or more digits. -/
def digits? (chars : List Char) : Option (List Char) :=
  match chars.span Char.isDigit with
  | ([], _) => none
  | (_, rest) => some rest

/-- What is left after an exponent, if one comes first; `none` for an exponent without digits. -/
def exponent? : List Char → Option (Bool × List Char)
  | c :: rest =>
    if c = 'e' || c = 'E' then
      match rest with
      | s :: after => if s = '+' || s = '-' then (digits? after).map (true, ·) else (digits? rest).map (true, ·)
      | [] => none
    else some (false, c :: rest)
  | [] => some (false, [])

def number? (chars : List Char) : Option (Value × List Char) :=
  let unsigned := match chars with
    | '-' :: rest => rest
    | _ => chars
  match unsigned.span Char.isDigit with
  | ([], _) => none
  | (first :: more, rest) =>
    if first = '0' && !more.isEmpty then none
    else
      let afterFraction := match rest with
        | '.' :: after => (digits? after).map (true, ·)
        | _ => some (false, rest)
      match afterFraction with
      | none => none
      | some (fraction, afterFraction) =>
        match exponent? afterFraction with
        | none => none
        | some (exponent, rest) =>
          -- A sign, a fraction or an exponent makes it another number, whatever its value is.
          if unsigned.length = chars.length && !fraction && !exponent then
            (Digit.row? Digit.decimal? 10 (first :: more)).map fun n => (.natural n, rest)
          else some (.otherNumber, rest)

/-! ## Texts -/

def hexUnit? (a b c d : Char) : Option Nat := Digit.row? Digit.hexadecimal? 16 [a, b, c, d]

/-- The character that an escape of one letter stands for. -/
def escaped? : Char → Option Char
  | '"' => some '"'
  | '\\' => some '\\'
  | '/' => some '/'
  | 'b' => some '\x08'
  | 'f' => some '\x0c'
  | 'n' => some '\n'
  | 'r' => some '\r'
  | 't' => some '\t'
  | _ => none

/-- The code units of a text up to its closing quote, and what is left after that. A character that is written as
itself is one unit. -/
def units? : List Char → Option (List Nat × List Char)
  | [] => none
  | '"' :: rest => some ([], rest)
  | '\\' :: 'u' :: a :: b :: c :: d :: rest => do
    let unit ← hexUnit? a b c d
    let (units, rest) ← units? rest
    return (unit :: units, rest)
  | '\\' :: c :: rest => do
    let c ← escaped? c
    let (units, rest) ← units? rest
    return (c.toNat :: units, rest)
  | c :: rest =>
    if c.toNat < 0x20 || c = '\\' then none
    else do
      let (units, rest) ← units? rest
      return (c.toNat :: units, rest)

def isHighSurrogate (unit : Nat) : Bool := 0xD800 ≤ unit && unit < 0xDC00

def isLowSurrogate (unit : Nat) : Bool := 0xDC00 ≤ unit && unit < 0xE000

/-- The characters that code units stand for; none if half of a pair stands alone. -/
def charsOfUnits? : List Nat → Option (List Char)
  | [] => some []
  | high :: low :: rest =>
    if isHighSurrogate high then
      if isLowSurrogate low then
        (charsOfUnits? rest).map (Char.ofNat (0x10000 + 0x400 * (high - 0xD800) + (low - 0xDC00)) :: ·)
      else none
    else if isLowSurrogate high then none
    else (charsOfUnits? (low :: rest)).map (Char.ofNat high :: ·)
  | [unit] => if isHighSurrogate unit || isLowSurrogate unit then none else some [Char.ofNat unit]

/-- A text, without its opening quote, and what is left after it. -/
def text? (chars : List Char) : Option (Option String × List Char) :=
  (units? chars).map fun (units, rest) => ((charsOfUnits? units).map String.ofList, rest)

/-! ## Values -/

mutual

/-- A value, after white space, and what is left after it. Values nest no deeper than `fuel`. -/
def value? (fuel : Nat) (chars : List Char) : Option (Value × List Char) :=
  match fuel, skipSpace chars with
  | 0, _ => none
  | _, [] => none
  | fuel + 1, c :: rest =>
    if c = '"' then (text? rest).map fun (text, rest) => (.text text, rest)
    else if c = '[' then
      match skipSpace rest with
      | ']' :: rest => some (.array [], rest)
      | rest => (items? fuel rest).map fun (items, rest) => (.array items, rest)
    else if c = '\x7b' then
      match skipSpace rest with
      | '\x7d' :: rest => some (.object [], rest)
      | rest => (members? fuel rest).map fun (members, rest) => (.object members, rest)
    else if c = 't' then (['r', 'u', 'e'].isPrefixOf? rest).map (.bool true, ·)
    else if c = 'f' then (['a', 'l', 's', 'e'].isPrefixOf? rest).map (.bool false, ·)
    else if c = 'n' then (['u', 'l', 'l'].isPrefixOf? rest).map (.null, ·)
    else number? (c :: rest)

/-- The items of an array up to its closing bracket. There is one at least. -/
def items? (fuel : Nat) (chars : List Char) : Option (List Value × List Char) :=
  match fuel with
  | 0 => none
  | fuel + 1 => do
    let (item, rest) ← value? fuel chars
    match skipSpace rest with
    | ']' :: rest => return ([item], rest)
    | ',' :: rest =>
      let (items, rest) ← items? fuel rest
      return (item :: items, rest)
    | _ => none

def members? (fuel : Nat) (chars : List Char) : Option (List (Option String × Value) × List Char) :=
  match fuel with
  | 0 => none
  | fuel + 1 => do
    let '"' :: rest := skipSpace chars | none
    let (name, rest) ← text? rest
    let ':' :: rest := skipSpace rest | none
    let (item, rest) ← value? fuel rest
    match skipSpace rest with
    | '\x7d' :: rest => return ([(name, item)], rest)
    | ',' :: rest =>
      let (members, rest) ← members? fuel rest
      return ((name, item) :: members, rest)
    | _ => none

end

/-- The value that a text holds. Every value, item and member takes a character, so the length of the text bounds how
deep they nest. -/
def read? (source : String) : Option Value :=
  let chars := source.toList
  match value? (2 * chars.length + 1) chars with
  | some (value, rest) => if (skipSpace rest).isEmpty then some value else none
  | none => none

end RelaxNg.Json
