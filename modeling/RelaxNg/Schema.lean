import RelaxNg.Grammar.Expansion
import RelaxNg.Grammar.Identity
import RelaxNg.Grammar.Recursion
import RelaxNg.Grammar.Restrictions
import RelaxNg.Schema.ContentModel
import RelaxNg.Schema.Options

/-!
# Schemas

A schema is a grammar that passed every check, with its references resolved and with what documents are checked
against: the identity types of its names and its content model. `Draft.compile` makes a schema of a draft or fails with
the first thing that is wrong.
-/

namespace RelaxNg

/-- A grammar that passed every check. -/
structure Schema where
  grammar : Grammar
  start : PatternId
  /-- The identity types; none if they are not checked. -/
  identities : IdentityMap
  contentModel : Option ContentModel
  options : Options
deriving Inhabited

/-- Makes a schema of a draft: its patterns are counted, its recursion is checked, its references are resolved, its
restrictions are checked and the identity types are collected, in this order. -/
def Draft.compile (d : Draft) (start : PatternId) (options : Options) : Except Error Schema := do
  options.limits.check .patterns d.patternCount
  d.grammar.checkRecursion start options.limits
  let (expanded, d) := d.expand start
  let start ← expanded
  let grammar := d.grammar
  grammar.checkRestrictions options.limits start
  let identities ← if options.checkIdentity then (grammar.identityMap start).mapError .restriction else pure .empty
  let contentModel := if options.trackContent then some (grammar.contentModel start) else none
  return { grammar, start, identities, contentModel, options }

end RelaxNg
