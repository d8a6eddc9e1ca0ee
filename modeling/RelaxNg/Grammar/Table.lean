import RelaxNg.Grammar
import Std.Data.HashMap

/-!
# Tables of patterns

A table finds the number of a pattern that is stored. It keeps the hash of every stored pattern and the numbers of the
patterns with each hash. A search looks at the patterns with the hash of what is searched for, and takes one only if it
is the same pattern: a hash that patterns share leads to no mistake.
-/

namespace RelaxNg

structure Table where
  /-- The structural hashes of the stored patterns, in the order of their numbers. -/
  hashes : Array UInt64 := #[]
  /-- The numbers of the patterns with a hash, in the order in which they were stored. -/
  buckets : Std.HashMap UInt64 (Array PatternId) := {}
deriving Inhabited

namespace Table

def hashOf (t : Table) (p : PatternId) : UInt64 := t.hashes.getD p.index 0

def bucket (t : Table) (hash : UInt64) : Array PatternId := t.buckets.getD hash #[]

/-- The number of a pattern, if it is stored in a grammar. -/
def number? (t : Table) (g : Grammar) (pattern : Pattern) : Option PatternId :=
  (t.bucket (pattern.structuralHash t.hashOf)).find? fun p => g.pattern p = pattern

/-- Enters the next number with its pattern. -/
def enter (t : Table) (p : PatternId) (pattern : Pattern) : Table :=
  let hash := pattern.structuralHash t.hashOf
  { hashes := t.hashes.push hash, buckets := t.buckets.insert hash ((t.bucket hash).push p) }

end Table

end RelaxNg
