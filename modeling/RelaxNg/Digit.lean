/-!
# Digits

The values of decimal and hexadecimal digits, and the number that a row of digits makes in a base (`row?`), the highest
digit first. A character that is no digit of the base has no value, and neither has a row that holds one.
-/

namespace RelaxNg.Digit

def decimal? (c : Char) : Option Nat := if '0' ≤ c && c ≤ '9' then some (c.toNat - 48) else none

/-- The value of a hexadecimal digit, upper or lower case. -/
def hexadecimal? (c : Char) : Option Nat :=
  if 'a' ≤ c && c ≤ 'f' then some (c.toNat - 87)
  else if 'A' ≤ c && c ≤ 'F' then some (c.toNat - 55)
  else decimal? c

/-- The number that some characters make in a base, if each has a value; no characters make zero. -/
def row? (digit? : Char → Option Nat) (base : Nat) (chars : List Char) : Option Nat :=
  chars.foldlM (fun value c => (digit? c).map (base * value + ·)) 0

end RelaxNg.Digit
