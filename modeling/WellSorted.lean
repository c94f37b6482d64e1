import WellSorted.Bundle.Directory
import WellSorted.Findings.Report
import WellSorted.Main
import WellSorted.Proofs.Lexemes
import WellSorted.Proofs.Reading
import WellSorted.Proofs.Rebuilding.Sorts
import WellSorted.Proofs.Rebuilding.Terms
import WellSorted.Proofs.Rebuilding.Commands
import WellSorted.Proofs.Rebuilding.Roots
import WellSorted.Proofs.RoundTrip
import WellSorted.Proofs.Unifiers
import WellSorted.Proofs.Judgement
import WellSorted.Proofs.Signatures
import WellSorted.Proofs.Correspondence
import WellSorted.Proofs.Binding
import WellSorted.Proofs.Inference
import WellSorted.Proofs.Formed
import WellSorted.Proofs.Entering
import WellSorted.Proofs.Steps
import WellSorted.Proofs.Environment
import WellSorted.Proofs.WellFormed
import WellSorted.Proofs.Scopes
import WellSorted.Proofs.Dropped
import WellSorted.Proofs.Loads
import WellSorted.Proofs.Aliases
import WellSorted.Proofs.Transparency
import WellSorted.Proofs.NormalForms
import WellSorted.Proofs.Likeness.Stacks
import WellSorted.Proofs.Likeness.Terms
import WellSorted.Proofs.Applications
import WellSorted.Proofs.Desugaring
import WellSorted.Proofs.Likeness.SyntaxCheck
import WellSorted.Proofs.Likeness.Checks
import WellSorted.Proofs.Availability
import WellSorted.Proofs.BundledTheories
import WellSorted.Proofs.Reformatting
import WellSorted.Proofs.DeclarationOrder
import WellSorted.Proofs.Resetting
import WellSorted.Proofs.Lexicon
import WellSorted.Proofs.Grammar
import WellSorted.Proofs.Passages
import WellSorted.Proofs.Phrases
import WellSorted.Proofs.Positions
import WellSorted.Proofs.Locations
import WellSorted.Proofs.Inlining
import WellSorted.Proofs.Datatypes
import WellSorted.Proofs.Patterns
import WellSorted.Proofs.RecursiveBlocks
import WellSorted.Proofs.Silence
import WellSorted.Proofs.SyntaxRules
import WellSorted.Proofs.Misfits
import WellSorted.Proofs.Keys
import WellSorted.Proofs.ByteOrder
import WellSorted.Proofs.Grouping
