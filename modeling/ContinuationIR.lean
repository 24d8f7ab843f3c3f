import ContinuationIR.Handle
import ContinuationIR.Slots
import ContinuationIR.HandleSet
import ContinuationIR.Kind
import ContinuationIR.Primitive
import ContinuationIR.CaseMap
import ContinuationIR.Shape
import ContinuationIR.Violation
import ContinuationIR.Fault
import ContinuationIR.VariableTable
import ContinuationIR.Program
import ContinuationIR.Edit
import ContinuationIR.Dump
import ContinuationIR.Outcome
import ContinuationIR.Walk
import ContinuationIR.Scope
import ContinuationIR.Build.Error
import ContinuationIR.Build.Validation
import ContinuationIR.Build.Expression
import ContinuationIR.Build.Definition
import ContinuationIR.Check.Rules
import ContinuationIR.Check.Audit
import ContinuationIR.Change.Error
import ContinuationIR.Change.Substitution
import ContinuationIR.Change.Replacement
import ContinuationIR.Text.Extending
import ContinuationIR.Text.Ignorable
import ContinuationIR.Text.Unprintable
import ContinuationIR.Text.Quoted
import ContinuationIR.Text.Terminal
import ContinuationIR.Text.Ansi
import ContinuationIR.Print.Term
import ContinuationIR.Print.Layout
import ContinuationIR.FreeVariables
import ContinuationIR.Walk.Listing
import ContinuationIR.Slots.Listing
import ContinuationIR.Interning
import ContinuationIR.Call
import ContinuationIR.Overwrite
import ContinuationIR.Proofs.Anatomy
import ContinuationIR.Proofs.Lineage
import ContinuationIR.Proofs.Forest
import ContinuationIR.Proofs.Region
import ContinuationIR.Proofs.Resolution
import ContinuationIR.Proofs.Consistency
import ContinuationIR.Proofs.Editing
import ContinuationIR.Proofs.Growth
import ContinuationIR.Proofs.Acceptance
import ContinuationIR.Proofs.Building
import ContinuationIR.Proofs.SameNodes
import ContinuationIR.Proofs.Substitution
import ContinuationIR.Proofs.Installation
import ContinuationIR.Proofs.Demolition
import ContinuationIR.Proofs.Pruning
import ContinuationIR.Proofs.Removal
import ContinuationIR.Proofs.Invariant
import ContinuationIR.Proofs.Span
import ContinuationIR.Proofs.Environment
import ContinuationIR.Proofs.Findings
import ContinuationIR.Proofs.Auditing
import ContinuationIR.Proofs.Leftovers
import ContinuationIR.Proofs.Stray
import ContinuationIR.Proofs.Branches
import ContinuationIR.Proofs.WellFormed
import ContinuationIR.Proofs.Exactness
import ContinuationIR.Proofs.Dangling
import ContinuationIR.Proofs.Trees
import ContinuationIR.Proofs.Uses
import ContinuationIR.Proofs.Binders
import ContinuationIR.Proofs.Agreement
import ContinuationIR.Proofs.Sufficiency
import ContinuationIR.Proofs.Persistence
import ContinuationIR.Proofs.Reading
import ContinuationIR.Proofs.Isolation
import ContinuationIR.Proofs.Lifting
import ContinuationIR.Proofs.Sweeping
import ContinuationIR.Proofs.Contraction
import ContinuationIR.Proofs.Confluence
import ContinuationIR.Proofs.Lifetimes
import ContinuationIR.Proofs.Denotation
import ContinuationIR.Proofs.Exchange
import ContinuationIR.Proofs.Reach
import ContinuationIR.Proofs.Legality
import ContinuationIR.Proofs.Sight
import ContinuationIR.Proofs.Judgement
import ContinuationIR.Proofs.Redirection
import ContinuationIR.Proofs.CopyPropagation
import ContinuationIR.Proofs.Removability
import ContinuationIR.Proofs.Dismissal
import ContinuationIR.Proofs.Lexical
import ContinuationIR.Proofs.Capture
import ContinuationIR.Proofs.Scaffolding
import ContinuationIR.Proofs.Cases
import ContinuationIR.Proofs.WalkOrder
import ContinuationIR.Proofs.Tokens
import ContinuationIR.Proofs.Unambiguous
import ContinuationIR.Proofs.Spelling
import ContinuationIR.Proofs.Likeness
import ContinuationIR.Proofs.Inventory
import ContinuationIR.Proofs.Numbering
import ContinuationIR.Proofs.Uncoloured
