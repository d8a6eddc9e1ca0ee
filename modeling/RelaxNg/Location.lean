/-!
# Locations

A location is a line and a column, both counted from 1, in a source that may be named. `Location.ofOffset` finds the
location of a byte offset in a text: the line is one more than the line feeds before the offset, and the column one
more than the characters since the last of them.
-/

namespace RelaxNg

structure Location where
  /-- The name of the source, a file name or an identifier, if it is known. -/
  source : Option String
  /-- The line, from 1. -/
  line : Nat
  /-- The column in characters, from 1. -/
  column : Nat
deriving DecidableEq, Hashable, Inhabited

namespace Location

/-- The written form: source, line and column with colons between, or line and column for an unnamed source. -/
def render (loc : Location) : String :=
  match loc.source with
  | some source => source ++ ":" ++ toString loc.line ++ ":" ++ toString loc.column
  | none => toString loc.line ++ ":" ++ toString loc.column

/-- The characters that fill the first `offset` bytes of a text, or none if the offset falls inside a character. An
offset past the end stands for the end. -/
def before? : List Char → Nat → Option (List Char)
  | _, 0 => some []
  | [], _ => some []
  | c :: rest, offset =>
    if c.utf8Size ≤ offset then (before? rest (offset - c.utf8Size)).map (c :: ·) else none

/-- One step of counting: a line feed opens a line, any other character moves one column on. -/
def advance (loc : Location) (c : Char) : Location :=
  if c == '\n' then { loc with line := loc.line + 1, column := 1 } else { loc with column := loc.column + 1 }

def afterChars (source : Option String) (chars : List Char) : Location :=
  chars.foldl advance ⟨source, 1, 1⟩

/-- The location of a byte offset in some characters. An offset inside a character stands for the end, as does one past
the end. -/
def inChars (source : Option String) (chars : List Char) (offset : Nat) : Location :=
  afterChars source ((before? chars offset).getD chars)

def ofOffset (source : Option String) (text : String) (offset : Nat) : Location := inChars source text.toList offset

end Location

end RelaxNg
