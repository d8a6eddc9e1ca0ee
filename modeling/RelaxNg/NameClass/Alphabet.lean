import RelaxNg.NameClass
import RelaxNg.Violation

/-!
# Alphabets

The alphabet of a pattern lists the name classes of the elements that it can contain, each once in the order in which
they were met. The operands of an interleave must have alphabets without a common name.
-/

namespace RelaxNg

/-- The name classes of some elements, without repetition. -/
structure Alphabet where
  classes : List NameClass := []
deriving DecidableEq, Inhabited

namespace Alphabet

def empty : Alphabet := {}

def isEmpty (a : Alphabet) : Bool := a.classes.isEmpty

def add (a : Alphabet) (nc : NameClass) : Alphabet :=
  if a.classes.contains nc then a else ⟨a.classes ++ [nc]⟩

def merge (a b : Alphabet) : Alphabet := b.classes.foldl add a

def overlaps (a b : Alphabet) : Bool := a.classes.any fun nc => b.classes.any nc.overlaps

def checkDisjoint (a b : Alphabet) : Except Violation Unit :=
  if a.overlaps b then .error (.of .interleaveElementOverlap) else .ok ()

end Alphabet

end RelaxNg
