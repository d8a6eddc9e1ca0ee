import RelaxNg.Error

/-!
# Limits

Limits bound the work done for one grammar and one document: how deep patterns may nest, how many patterns a grammar
may have, how deep elements may nest in a document and how many attributes a start tag may have. A count that equals
its limit is within it.
-/

namespace RelaxNg

structure Limits where
  /-- How deep patterns may nest, every pattern on the way counted. -/
  maxRecursionDepth : Nat := 5000
  /-- How many patterns a grammar may have. -/
  maxPatterns : Nat := 1000000
  /-- How deep elements may nest in a document. -/
  maxXmlDepth : Nat := 1000
  /-- How many attributes a start tag may have. -/
  maxAttributes : Nat := 1000
deriving DecidableEq, Inhabited

namespace Limits

def standard : Limits := {}

/-- Tight limits, for input from strangers. -/
def strict : Limits := ⟨1000, 100000, 100, 100⟩

/-- Wide limits, for input that is trusted. -/
def permissive : Limits := ⟨20000, 100000000, 10000, 10000⟩

def maximum (limits : Limits) : Resource → Nat
  | .patterns => limits.maxPatterns
  | .xmlDepth => limits.maxXmlDepth
  | .attributes => limits.maxAttributes

def check (limits : Limits) (resource : Resource) (count : Nat) : Except Error Unit :=
  if limits.maximum resource < count then
    .error (.limitExceeded (.exceeded resource count (limits.maximum resource)))
  else .ok ()

def checkRecursion (limits : Limits) (depth : Nat) : Except Error Unit :=
  if limits.maxRecursionDepth < depth then .error (.recursion (.depthExceeded depth limits.maxRecursionDepth))
  else .ok ()

end Limits

end RelaxNg
