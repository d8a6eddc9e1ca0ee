import RelaxNg.Xml.Tag

/-!
# Pieces of a document

A document is cut into pieces: tags, text, character data that is taken literally, document type declarations, and what
says nothing about its content, comments and processing instructions. Each piece has the byte offset at which it begins.
A scan ends behind the last piece or at one that is malformed; end tags must answer the start tags before them in
reverse order, but any number of elements and any text may stand side by side, and elements may be left open.
-/

namespace RelaxNg.Xml

inductive Piece where
  | startTag (tag : Tag)
  /-- A tag that begins and ends an element. -/
  | emptyTag (tag : Tag)
  | endTag
  /-- Text, in which references are resolved. -/
  | text (chars : List Char)
  | literal (chars : List Char)
  | doctype (chars : List Char)
  /-- A comment or a processing instruction. -/
  | remark
deriving DecidableEq, Inhabited

inductive Ending where
  /-- Behind the last piece, at a byte offset. -/
  | finished (offset : Nat)
  | malformed
deriving DecidableEq, Inhabited

/-- The pieces of a document with their byte offsets, and how it ends. -/
structure Scan where
  pieces : List (Nat × Piece)
  ending : Ending
deriving DecidableEq, Inhabited

namespace Scan

/-- Whether a word comes first, upper and lower case taken for one. -/
def beginsWith (word chars : List Char) : Bool :=
  (chars.take word.length).map Char.toUpper == word

/-- The number of characters in front of the first place where `ends` holds of the characters read, last first, and of
the character that follows. -/
def lengthUntil? (ends : List Char → Char → Bool) : (read : List Char) → List Char → Option Nat
  | _, [] => none
  | read, c :: rest => if ends read c then some read.length else lengthUntil? ends (c :: read) rest

def balanced (chars : List Char) : Bool := chars.count '<' == chars.count '>'

/-- The piece of the kind that begins with an exclamation mark, by its characters up to the closing bracket and the
number of characters it takes with that bracket. -/
def bang? (chars : List Char) : Option (Piece × Nat) :=
  match chars with
  | _ :: '-' :: _ => do
    -- The dashes at the beginning do not count as those at the end.
    let n ← lengthUntil? (fun read c => c == '>' && 4 < read.length && read.take 2 == ['-', '-']) [] chars
    if beginsWith ['!', '-', '-'] chars then return (.remark, n + 1) else none
  | _ :: '[' :: _ => do
    let n ← lengthUntil? (fun read c => c == '>' && read.take 2 == [']', ']']) [] chars
    if beginsWith ['!', '[', 'C', 'D', 'A', 'T', 'A', '['] chars then
      return (.literal ((chars.take (n - 2)).drop 8), n + 1)
    else none
  | _ :: d :: _ =>
    if d = 'D' || d = 'd' then do
      -- Brackets inside have to be closed before the declaration is.
      let n ← lengthUntil? (fun read c => c == '>' && balanced read) [] chars
      let content := (((chars.take n).drop 8).dropWhile isSpace)
      if beginsWith ['!', 'D', 'O', 'C', 'T', 'Y', 'P', 'E'] (chars.take n) && !content.isEmpty then
        return (.doctype content, n + 1)
      else none
    else none
  | _ => none

/-- The characters up to a bracket or, without one, to the end, and how many are taken with the bracket. -/
def upToBracket (chars : List Char) : List Char × Nat :=
  let content := chars.takeWhile (· != '>')
  (content, content.length + 1)

/-- A processing instruction: a question mark stands at both ends, with something between. -/
def instruction? (chars : List Char) : Option (Piece × Nat) :=
  let (content, n) := upToBracket chars
  if 2 < content.length && content.getLast? == some '?' then some (.remark, n) else none

/-- The name in an end tag: white space behind it is dropped, but not white space alone. -/
def endName (chars : List Char) : List Char :=
  if chars.all isSpace then chars else (chars.reverse.dropWhile isSpace).reverse

/-- The number of characters of a start tag in front of its closing bracket, which stands outside quotes. -/
def tagLength? : (quote : Option Char) → List Char → Option Nat
  | _, [] => none
  | none, c :: rest =>
    if c = '>' then some 0
    else (tagLength? (if c = '"' || c = '\'' then some c else none) rest).map (· + 1)
  | some quote, c :: rest => (tagLength? (if c = quote then none else some quote) rest).map (· + 1)

/-- A tag that begins an element, and perhaps ends it, and the number of characters it takes. -/
def startTag? (chars : List Char) : Option (Piece × Nat) :=
  (tagLength? none chars).map fun n =>
    let content := chars.take n
    if content.getLast? = some '/' then (.emptyTag (.ofChars content.dropLast), n + 1)
    else (.startTag (.ofChars content), n + 1)

/-- The piece behind an opening bracket and the number of characters it takes, with the names of the elements that are
open after it. `opened` are the names of the elements that are open, the innermost first. -/
def markup? (opened : List String) (chars : List Char) : Option (Piece × Nat × List String) :=
  match chars with
  | '!' :: _ => (bang? chars).map fun (piece, n) => (piece, n, opened)
  | '?' :: _ => (instruction? chars).map fun (piece, n) => (piece, n, opened)
  | '/' :: rest =>
    let (content, n) := upToBracket rest
    match opened with
    | name :: opened => if String.ofList (endName content) = name then some (.endTag, n + 1, opened) else none
    | [] => none
  | _ =>
    match startTag? chars with
    | some (.startTag tag, n) => some (.startTag tag, n, tag.written :: opened)
    | some (piece, n) => some (piece, n, opened)
    | none => none

def bytes (chars : List Char) : Nat := chars.foldl (fun n c => n + c.utf8Size) 0

def cons (offset : Nat) (piece : Piece) (scan : Scan) : Scan := { scan with pieces := (offset, piece) :: scan.pieces }

/-- The scan of some characters that begin at an offset. `opened` are the names of the elements that are open, the
innermost first. A document that ends in text or in a lone bracket is taken to end one byte early. -/
def scanFrom (opened : List String) (offset : Nat) : List Char → Scan
  | [] => ⟨[], .finished offset⟩
  | c :: rest =>
    if c = '<' then
      if rest.isEmpty then ⟨[], .finished offset⟩
      else
        match markup? opened rest with
        | some (piece, n, opened) =>
          (scanFrom opened (offset + 1 + bytes (rest.take n)) (rest.drop n)).cons offset piece
        | none => ⟨[], .malformed⟩
    else
      let more := rest.takeWhile (· != '<')
      let after := rest.drop more.length
      let next := offset + bytes (c :: more)
      if after.isEmpty then ⟨[(offset, .text (c :: more))], .finished (next - 1)⟩
      else (scanFrom opened next after).cons offset (.text (c :: more))
termination_by chars => chars.length
decreasing_by all_goals (simp; try omega)

/-- The scan of a document. A byte order mark in front is no text and no part of the offsets. -/
def of : List Char → Scan
  | '\ufeff' :: rest => scanFrom [] 0 rest
  | chars => scanFrom [] 0 chars

end Scan

end RelaxNg.Xml
