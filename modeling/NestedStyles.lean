import NestedStyles.Text.Blank
import NestedStyles.Text.WordChar
import NestedStyles.Text.LowerCase
import NestedStyles.Text.Lines
import NestedStyles.Config
import NestedStyles.Diagnostic
import NestedStyles.Rule
import NestedStyles.Block.Comment
import NestedStyles.Block.Scan
import NestedStyles.Block.Directive
import NestedStyles.Block.Header
import NestedStyles.Block.Report
import NestedStyles.Block.Content
import NestedStyles.Block.Sheet
import NestedStyles.Path
import NestedStyles.Output.Extract
import NestedStyles.Output.Css
import NestedStyles.Template.Tree
import NestedStyles.Template.Edit
import NestedStyles.Template.Element
import NestedStyles.Match.Siblings
import NestedStyles.Match.Structural
import NestedStyles.Css.Token
import NestedStyles.Css.Lexer
import NestedStyles.Css.Printer
import NestedStyles.Css.Nth
import NestedStyles.Selector.Compile
import NestedStyles.Validate
import NestedStyles.Reuse.Session
import NestedStyles.Reuse.Loader
import NestedStyles.Compile
import NestedStyles.Proofs.Template.Links
import NestedStyles.Proofs.Template.Numbering
import NestedStyles.Proofs.Match.Settled
import NestedStyles.Proofs.Match.Reach
import NestedStyles.Proofs.Match.Directions
import NestedStyles.Proofs.Match.Adjacent
import NestedStyles.Proofs.Match.Order
import NestedStyles.Proofs.Match.Flat
import NestedStyles.Proofs.Match.Flattening
import NestedStyles.Proofs.Match.Deferred
import NestedStyles.Proofs.Match.FailOpen
import NestedStyles.Proofs.Reuse.Expansion
import NestedStyles.Proofs.Reuse.Focus
import NestedStyles.Proofs.Reuse.Steps
import NestedStyles.Proofs.Reuse.Invariant
import NestedStyles.Proofs.Reuse.Inlining
import NestedStyles.Proofs.Reuse.Registry
import NestedStyles.Proofs.Reuse.Resolution
import NestedStyles.Proofs.Reuse.Refinement
import NestedStyles.Proofs.Reuse.Paths
import NestedStyles.Proofs.Reuse.Clearing
import NestedStyles.Proofs.Reuse.Inquiry
import NestedStyles.Proofs.Reuse.Exporting
import NestedStyles.Proofs.Reuse.Provision
import NestedStyles.Proofs.Reuse.Caching
import NestedStyles.Proofs.Reuse.Invalidation
import NestedStyles.Proofs.Block.Blanks
import NestedStyles.Proofs.Block.Directives
import NestedStyles.Proofs.Block.Bodies
import NestedStyles.Proofs.Block.RoundTrip
import NestedStyles.Proofs.Reuse.Advance
import NestedStyles.Proofs.Reuse.Course
import NestedStyles.Proofs.Reuse.Underway
import NestedStyles.Proofs.Reuse.Draining
import NestedStyles.Proofs.Reuse.OwnFirst
import NestedStyles.Proofs.Reuse.Loads
import NestedStyles.Proofs.Reuse.Operations
import NestedStyles.Proofs.Reuse.Retention
import NestedStyles.Proofs.Reuse.Returns
import NestedStyles.Proofs.Reuse.Sharing
import NestedStyles.Proofs.Reuse.Sufficiency
import NestedStyles.Proofs.Reuse.Answers
import NestedStyles.Proofs.Reuse.Chronicle
import NestedStyles.Proofs.Reuse.CircularUses
import NestedStyles.Proofs.Reuse.Names
import NestedStyles.Proofs.Reuse.CircularImports
import NestedStyles.Proofs.Reuse.Copies
import NestedStyles.Proofs.Reuse.Abreast
import NestedStyles.Proofs.Reuse.Lockstep
import NestedStyles.Proofs.Reuse.Readings
import NestedStyles.Proofs.Reuse.Agreement
import NestedStyles.Proofs.Block.Commented
import NestedStyles.Proofs.Block.Outline
import NestedStyles.Proofs.Block.Uncommented
import NestedStyles.Proofs.Block.Behind
import NestedStyles.Proofs.Block.Joined
import NestedStyles.Proofs.Block.Nesting
import NestedStyles.Proofs.Template.Origins
import NestedStyles.Proofs.Template.Chains
import NestedStyles.Proofs.Template.Branches
import NestedStyles.Proofs.Match.Safety
import NestedStyles.Proofs.Selector.Arguments
import NestedStyles.Proofs.Selector.Breaks
import NestedStyles.Proofs.Reuse.Totality
import NestedStyles.Proofs.Completion
import NestedStyles.Proofs.Output.Printed
import NestedStyles.Proofs.Output.Emitted
import NestedStyles.Proofs.Reuse.Occurrences
import NestedStyles.Proofs.Reuse.Actions
import NestedStyles.Proofs.Reuse.Accounts
import NestedStyles.Proofs.Css.Commas
import NestedStyles.Proofs.Match.Counting
import NestedStyles.Proofs.Match.Relative
import NestedStyles.Proofs.Selector.Lists
import NestedStyles.Proofs.Reuse.Dialogue
import NestedStyles.Proofs.Reuse.Leavings
import NestedStyles.Proofs.Reuse.Interruption
import NestedStyles.Proofs.Block.Spans
import NestedStyles.Proofs.Block.Braces
import NestedStyles.Proofs.Block.Declarations
import NestedStyles.Proofs.Block.Findings
import NestedStyles.Proofs.Block.Skipping
import NestedStyles.Proofs.Output.Extraction
import NestedStyles.Proofs.Block.Imports
import NestedStyles.Proofs.Block.Parts
import NestedStyles.Proofs.Block.DirectiveLines
import NestedStyles.Proofs.Block.SelectorLists
import NestedStyles.Proofs.Template.Kept
import NestedStyles.Proofs.Match.Unmatched
import NestedStyles.Proofs.Reuse.PathMaps
import NestedStyles.Proofs.Reuse.Respelled
import NestedStyles.Proofs.Reuse.Spelling
