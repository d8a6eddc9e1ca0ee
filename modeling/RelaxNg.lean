import RelaxNg.Validation.SchemaValidator
import RelaxNg.Validation.IdentityValidator
import RelaxNg.Xml.Document
import RelaxNg.Xsd.Validator
import RelaxNg.Proofs.Occurrence
import RelaxNg.Proofs.Restrictions.Passing
import RelaxNg.Proofs.Restrictions.Places
import RelaxNg.Proofs.Draft.Sound
import RelaxNg.Proofs.Draft.Making
import RelaxNg.Proofs.Expansion.Expands
import RelaxNg.Proofs.Expansion.Progress
import RelaxNg.Proofs.Expansion.Run
import RelaxNg.Proofs.Draft.Calls
import RelaxNg.Proofs.Expansion.Meaning
import RelaxNg.Proofs.Draft.Reach
import RelaxNg.Proofs.Expansion.Retry
import RelaxNg.Proofs.Alphabet
import RelaxNg.Proofs.Schema
import RelaxNg.Proofs.Validation.Document
import RelaxNg.Proofs.Validation.Tracking
import RelaxNg.Proofs.Unguarded
import RelaxNg.Proofs.Draft.Asking
import RelaxNg.Proofs.Expansion.Exact
import RelaxNg.Proofs.Recursion.Walks
import RelaxNg.Proofs.Recursion.Run
import RelaxNg.Proofs.Recursion.Hidden
import RelaxNg.Proofs.NameClass
import RelaxNg.Proofs.AttributeNames
import RelaxNg.Proofs.Restrictions.Contents
import RelaxNg.Proofs.Restrictions.Failing
import RelaxNg.Proofs.Restrictions.Attributes
import RelaxNg.Proofs.Restrictions.Interleaves
import RelaxNg.Proofs.Restrictions.Values
import RelaxNg.Proofs.Identity.Declarations
import RelaxNg.Proofs.Identity.Collecting
import RelaxNg.Proofs.Identity.Exact
import RelaxNg.Proofs.Identity.Words
import RelaxNg.Proofs.Identity.Values
import RelaxNg.Proofs.Validation.Values
import RelaxNg.Proofs.Validation.Integrity
import RelaxNg.Proofs.Draft.Languages
import RelaxNg.Proofs.Draft.Pruned
import RelaxNg.Proofs.ContentModel
import RelaxNg.Proofs.Attempt
import RelaxNg.Proofs.Xml.Labels
import RelaxNg.Proofs.Xml.Telling
import RelaxNg.Proofs.Xml.WellNested
import RelaxNg.Proofs.Xsd.Abreast
import RelaxNg.Proofs.Xsd.Calls
import RelaxNg.Proofs.Xsd.Scopes
import RelaxNg.Proofs.Validation.Abreast
import RelaxNg.Proofs.Validation.Sessions
import RelaxNg.Proofs.Validation.Identities
import RelaxNg.Proofs.Validation.Errors
import RelaxNg.Proofs.Validation.Failures
import RelaxNg.Proofs.Validation.Roots
import RelaxNg.Proofs.Validation.Reset
import RelaxNg.Proofs.Validation.Alone
import RelaxNg.Proofs.PatternCount
import RelaxNg.Proofs.Validation.Suggestions
import RelaxNg.Proofs.Draft.Canonical
import RelaxNg.Proofs.Draft.ContentTypes
import RelaxNg.Proofs.Expansion.Again
import RelaxNg.Proofs.Termination
import RelaxNg.Proofs.Validation.References
import RelaxNg.Proofs.Recursion.Routes
import RelaxNg.Proofs.Restrictions.Locations
import RelaxNg.Proofs.Recursion.Levels
import RelaxNg.Proofs.Xml.Spans
import RelaxNg.Proofs.Xsd.Names
import RelaxNg.Proofs.Location
import RelaxNg.Proofs.Xml.Entities
import RelaxNg.Proofs.Restrictions.Leaving
import RelaxNg.Proofs.Restrictions.Again
import RelaxNg.Proofs.Route
import RelaxNg.Proofs.Walk.Order
import RelaxNg.Proofs.Walk.Exact
import RelaxNg.Proofs.Grammar
import RelaxNg.Proofs.Table
