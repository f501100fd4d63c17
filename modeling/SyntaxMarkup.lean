import SyntaxMarkup.Breadcrumb
import SyntaxMarkup.Chain
import SyntaxMarkup.Component.Basic
import SyntaxMarkup.Json.Ordered
import SyntaxMarkup.Main
import SyntaxMarkup.Proofs.Tree.Traversal
import SyntaxMarkup.Proofs.Tree.Numbering
import SyntaxMarkup.Proofs.Tree.Regular
import SyntaxMarkup.Proofs.Tree.Order
import SyntaxMarkup.Proofs.Tree.Links
import SyntaxMarkup.Proofs.Markup.Marks
import SyntaxMarkup.Proofs.Layout.Openings
import SyntaxMarkup.Proofs.Layout.Coverage
import SyntaxMarkup.Proofs.Layout.Units
import SyntaxMarkup.Proofs.Layout.Presence
import SyntaxMarkup.Proofs.Operators.Phrase
import SyntaxMarkup.Proofs.Operators.Unambiguous
import SyntaxMarkup.Proofs.Operators.Expression
import SyntaxMarkup.Proofs.Layout.Characters
import SyntaxMarkup.Proofs.Layout.Statement
import SyntaxMarkup.Proofs.Operators.Statement
import SyntaxMarkup.Proofs.Component.Runs
import SyntaxMarkup.Proofs.Tree.Ancestors
import SyntaxMarkup.Proofs.Tree.Addresses
import SyntaxMarkup.Proofs.Tree.Walk
import SyntaxMarkup.Proofs.Tree.Listing
import SyntaxMarkup.Proofs.Component.Handles
import SyntaxMarkup.Proofs.Markup.Tags
import SyntaxMarkup.Proofs.Markup.Calls
import SyntaxMarkup.Proofs.Markup.Tokens
import SyntaxMarkup.Proofs.Markup.ReadBack
import SyntaxMarkup.Proofs.Component.Clicks
import SyntaxMarkup.Proofs.Tree.Schema
import SyntaxMarkup.Proofs.Tree.Checks
import SyntaxMarkup.Proofs.Tree.Conformance
import SyntaxMarkup.Proofs.Tree.Congruence
import SyntaxMarkup.Proofs.Tree.Likeness
import SyntaxMarkup.Proofs.Access.Expression
import SyntaxMarkup.Proofs.Access.Text
import SyntaxMarkup.Proofs.Access.Lowering
import SyntaxMarkup.Proofs.Access.Statement
import SyntaxMarkup.Proofs.Markup.Forest
import SyntaxMarkup.Proofs.Layout.Seats
import SyntaxMarkup.Proofs.Layout.Renumbering
import SyntaxMarkup.Proofs.Layout.Standing
import SyntaxMarkup.Proofs.Markup.Storage
import SyntaxMarkup.Proofs.Markup.Arena
import SyntaxMarkup.Proofs.Layout.Outline
import SyntaxMarkup.Proofs.Layout.Placeholders
import SyntaxMarkup.Proofs.Creation.Expression
import SyntaxMarkup.Proofs.Creation.Text
import SyntaxMarkup.Proofs.Creation.Statement
import SyntaxMarkup.Proofs.Markup.Brackets
import SyntaxMarkup.Proofs.Layout.Enclosure
import SyntaxMarkup.Proofs.Markup.Skeleton
import SyntaxMarkup.Proofs.Layout.Skeleton
import SyntaxMarkup.Proofs.Layout.Nesting
import SyntaxMarkup.Proofs.Creation.Callee
import SyntaxMarkup.Proofs.Tree.Grammar
import SyntaxMarkup.Proofs.Layout.Headers
import SyntaxMarkup.Proofs.Layout.Initializers
import SyntaxMarkup.Proofs.Markup.Words
import SyntaxMarkup.Proofs.Layout.Beginnings
import SyntaxMarkup.Proofs.Layout.StatementStarts
import SyntaxMarkup.Proofs.Layout.Sharing
import SyntaxMarkup.Proofs.Markup.Items
import SyntaxMarkup.Proofs.Layout.Elements
import SyntaxMarkup.Proofs.Component.Attributes
import SyntaxMarkup.Proofs.Text.Lines
import SyntaxMarkup.Proofs.Text.Dedent
import SyntaxMarkup.Proofs.Breadcrumb.Trail
import SyntaxMarkup.Proofs.Breadcrumb.Separator
import SyntaxMarkup.Proofs.Breadcrumb.Element
import SyntaxMarkup.Proofs.CommandLine.Places
import SyntaxMarkup.Proofs.CommandLine.Effects
import SyntaxMarkup.Proofs.CommandLine.DefaultOutput
import SyntaxMarkup.Proofs.Partial
import SyntaxMarkup.Proofs.Tree.Records
import SyntaxMarkup.Proofs.Tree.Loops
import SyntaxMarkup.Proofs.Component.Loops
