import ProductLine.SortedSet
import ProductLine.Term
import ProductLine.Formula.Render
import ProductLine.Formula.Names
import ProductLine.Formula.Substitution
import ProductLine.Formula.Evaluation
import ProductLine.Model.Build
import ProductLine.Model.Navigation
import ProductLine.Atom
import ProductLine.Group
import ProductLine.Roster
import ProductLine.Encoding.Unrolling
import ProductLine.Encoding.Merging
import ProductLine.Copy
import ProductLine.Main
import ProductLine.Proofs.Outcome
import ProductLine.Proofs.Model.Calls
import ProductLine.Proofs.Model.Changes
import ProductLine.Proofs.Model.Failures
import ProductLine.Proofs.Model.Stores
import ProductLine.Proofs.Model.WellFormed
import ProductLine.Proofs.Model.Order
import ProductLine.Proofs.Model.Sessions
import ProductLine.Proofs.Model.Ancestry
import ProductLine.Proofs.Model.Traversal
import ProductLine.Proofs.Model.Contexts
import ProductLine.Proofs.Model.Rules
import ProductLine.Proofs.Model.Growth
import ProductLine.Proofs.Model.Constraining
import ProductLine.Proofs.Model.Admission
import ProductLine.Proofs.Formula.Truth
import ProductLine.Proofs.Formula.Meaning
import ProductLine.Proofs.Formula.View
import ProductLine.Proofs.Formula.Atoms
import ProductLine.Proofs.Formula.Definedness
import ProductLine.Proofs.Formula.Substituted
import ProductLine.Proofs.Formula.Words
import ProductLine.Proofs.Formula.Phrase
import ProductLine.Proofs.Formula.Text
import ProductLine.Proofs.Formula.Plain
import ProductLine.Proofs.Roster.Links
import ProductLine.Proofs.Roster.Search
import ProductLine.Proofs.Roster.Breadth
import ProductLine.Proofs.Roster.Preorder
import ProductLine.Proofs.Encoding.Groups
import ProductLine.Proofs.Encoding.Grouping
import ProductLine.Proofs.Encoding.Listing
import ProductLine.Proofs.Encoding.Entries
import ProductLine.Proofs.Encoding.Unrolled
import ProductLine.Proofs.Encoding.Atoms
import ProductLine.Proofs.Encoding.Merged
import ProductLine.Proofs.Copy.Presence
import ProductLine.Proofs.Copy.Policy
import ProductLine.Proofs.Copy.Names
import ProductLine.Proofs.Copy.Views
import ProductLine.Proofs.Copy.Rewriting
import ProductLine.Proofs.Copy.References
import ProductLine.Proofs.Copy.Meaning
import ProductLine.Proofs.Copy.Occasions
import ProductLine.Proofs.Copy.Shares
import ProductLine.Proofs.Encoding.Shape
import ProductLine.Proofs.Encoding.Counts
import ProductLine.Proofs.Encoding.Lookups
import ProductLine.Proofs.Encoding.Identifiers
import ProductLine.Proofs.Copy.Values
import ProductLine.Proofs.Copy.Symbols
import ProductLine.Proofs.Copy.Success
import ProductLine.Proofs.Copy.Locality
import ProductLine.Proofs.Compilation.Success
import ProductLine.Proofs.Encoding.Bounds
import ProductLine.Proofs.Encoding.Fronting
import ProductLine.Proofs.Encoding.Recasting
import ProductLine.Proofs.Encoding.Owners
import ProductLine.Proofs.Encoding.Symmetry
import ProductLine.Proofs.Encoding.Needs
import ProductLine.Proofs.Compilation.Symbols
import ProductLine.Proofs.Encoding.Leaves
import ProductLine.Proofs.Compilation.Agreement
import ProductLine.Proofs.Copy.Restated
import ProductLine.Proofs.Compilation.Refinement
import ProductLine.Proofs.Compilation.Merged
import ProductLine.Proofs.Compilation.Independence
import ProductLine.Proofs.Compilation.Existence
import ProductLine.Proofs.Copy.Belonging
import ProductLine.Proofs.Model.Bucketing
import ProductLine.Proofs.Formula.Replacement
import ProductLine.Proofs.Formula.Spoken
import ProductLine.Proofs.Copy.Leniency
