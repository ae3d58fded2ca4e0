import Generics.Alias.Basic
import Generics.Alias.Cache
import Generics.Capability.Basic
import Generics.Capability.Catalog
import Generics.Capability.Registry
import Generics.Command.Check
import Generics.Const.Context
import Generics.Error
import Generics.Fresh
import Generics.Log
import Generics.Main
import Generics.Manifest.Basic
import Generics.Manifest.Declare
import Generics.Manifest.Report
import Generics.Proofs.Capability.Coherence
import Generics.Proofs.Capability.Congruence
import Generics.Proofs.Capability.Decision
import Generics.Proofs.Capability.Depth
import Generics.Proofs.Capability.Order
import Generics.Proofs.Capability.Outcome
import Generics.Proofs.Capability.Persistence
import Generics.Proofs.Capability.Registry
import Generics.Proofs.Capability.Satisfaction
import Generics.Proofs.Capability.Supertraits
import Generics.Proofs.Const.Mangling
import Generics.Proofs.Fresh
import Generics.Proofs.Manifest.Independence
import Generics.Proofs.Region.Known
import Generics.Proofs.Region.Reachable
import Generics.Proofs.Region.Solution
import Generics.Proofs.Session.Run
import Generics.Proofs.Session.Verdicts
import Generics.Proofs.Subst.Calls
import Generics.Proofs.Subst.Matching
import Generics.Proofs.Subst.Reachable
import Generics.Proofs.Subst.Solution
import Generics.Proofs.Ty.Canonical
import Generics.Proofs.Ty.Erasure
import Generics.Region.Basic
import Generics.Region.Constraint
import Generics.Region.Elision
import Generics.Session.Basic
import Generics.Subst.Acyclic
import Generics.Subst.Basic
import Generics.Subst.Match
import Generics.Subst.Unify
import Generics.Text.Blank
import Generics.Text.Decimal
import Generics.Text.Digit
import Generics.Text.Hash
import Generics.Text.Ident
import Generics.Text.Interval
import Generics.Text.Join
import Generics.Text.Letter
import Generics.Text.Printable
import Generics.Text.Quoted
import Generics.Ty.Basic
import Generics.Ty.Parser
import Generics.Ty.Primitive
import Generics.Ty.Printer
import Generics.Ty.Regions
import Generics.Ty.Token
import Generics.Ty.Variables
import Generics.Variance
import Generics.Yaml.Node
import Generics.Yaml.Placed
import Generics.Yaml.Scalar
import Generics.Proofs.Alias.Normal
import Generics.Proofs.Session.Placement
import Generics.Proofs.Text.Brackets
import Generics.Proofs.Ty.Extent
import Generics.Proofs.Alias.Transparent
import Generics.Proofs.Ty.Regrouping
import Generics.Proofs.Alias.Orderly
import Generics.Proofs.Alias.Parenthesized
import Generics.Proofs.Const.Exact
import Generics.Proofs.Const.Grammar
import Generics.Proofs.Const.Lexing
import Generics.Proofs.Const.Writing
import Generics.Proofs.Subst.Instances
import Generics.Proofs.Capability.Traversal
import Generics.Proofs.Capability.Instantiation
import Generics.Proofs.Capability.Entailment
import Generics.Proofs.Ty.RegionSlots
import Generics.Proofs.Region.Elision
import Generics.Proofs.Region.Placeholders
import Generics.Proofs.Session.Issued
import Generics.Proofs.Session.Projection
import Generics.Proofs.Ty.Atoms
import Generics.Proofs.Session.HoleNames
import Generics.Proofs.Session.HoleReading
import Generics.Proofs.Session.Annotation
import Generics.Proofs.Region.Preorder
import Generics.Proofs.Region.Queue
import Generics.Proofs.Region.Rounds
import Generics.Proofs.Region.Limit
import Generics.Proofs.Region.Again
import Generics.Proofs.Region.Undeclared
import Generics.Proofs.Region.Offered
import Generics.Proofs.Region.Order
import Generics.Proofs.Region.Variance
import Generics.Proofs.Alias.Calls
import Generics.Proofs.Alias.Limit
import Generics.Proofs.Ty.Splitting
import Generics.Proofs.Ty.Phrase
import Generics.Proofs.Ty.Grammar
import Generics.Proofs.Ty.Template
import Generics.Proofs.Alias.Substitution
import Generics.Proofs.Capability.Separation
import Generics.Proofs.Fresh.Supply
import Generics.Proofs.Const.Specialization
import Generics.Proofs.Subst.Composition
import Generics.Proofs.Lookup
import Generics.Proofs.Const.Items
import Generics.Proofs.Const.Ranges
import Generics.Proofs.Const.Binding
import Generics.Proofs.Const.Order
import Generics.Proofs.Text.Quoting
import Generics.Proofs.Const.Printing
import Generics.Proofs.Region.Least
import Generics.Proofs.Alias.Application
import Generics.Proofs.Ty.Visits
