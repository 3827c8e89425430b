import MatrixCalc.CommandLine
import MatrixCalc.Decimal.Layout
import MatrixCalc.Decimal.Numeral
import MatrixCalc.Decimal.Shortest
import MatrixCalc.DenseMatrix.Arithmetic
import MatrixCalc.DenseMatrix.Basic
import MatrixCalc.Draft
import MatrixCalc.Evaluation
import MatrixCalc.Expression.Grammar
import MatrixCalc.Expression.Tree
import MatrixCalc.Fault
import MatrixCalc.Grid.Basic
import MatrixCalc.Grid.Elimination
import MatrixCalc.Item
import MatrixCalc.Journal
import MatrixCalc.Main
import MatrixCalc.Operator
import MatrixCalc.Reading
import MatrixCalc.Session
import MatrixCalc.Stacks
import MatrixCalc.Text
import MatrixCalc.Token.Basic
import MatrixCalc.Token.Lexer
import MatrixCalc.Proofs.Outline.Basic
import MatrixCalc.Proofs.Outline.Value
import MatrixCalc.Proofs.Outline.Order
import MatrixCalc.Proofs.Outline.Groups
import MatrixCalc.Proofs.Outline.Grouping
import MatrixCalc.Proofs.Text.Columns
import MatrixCalc.Proofs.Text.Items
import MatrixCalc.Proofs.Outline.Bracketed
import MatrixCalc.Proofs.Text.Bracketed
import MatrixCalc.Proofs.Text.Drafting
import MatrixCalc.Proofs.Text.Expressions
import MatrixCalc.Proofs.Outline.Arrivals
import MatrixCalc.Proofs.Outline.Precedence
import MatrixCalc.Proofs.Outline.Tiers
import MatrixCalc.Proofs.Outline.Counting
import MatrixCalc.Proofs.Text.Acceptance
import MatrixCalc.Proofs.Algebra.Exact
import MatrixCalc.Proofs.Outline.Ordinary
import MatrixCalc.Proofs.Text.Scanning
import MatrixCalc.Proofs.Algebra.Pivots
import MatrixCalc.Proofs.Algebra.Linear
import MatrixCalc.Proofs.Algebra.RowOperations
import MatrixCalc.Proofs.Algebra.Reduced
import MatrixCalc.Proofs.Algebra.Canonical
import MatrixCalc.Proofs.Algebra.Inverse
import MatrixCalc.Proofs.Outline.Soundness
import MatrixCalc.Proofs.Outline.Reducers
import MatrixCalc.Proofs.Text.Counters
import MatrixCalc.Proofs.Text.Guarded
import MatrixCalc.Proofs.Text.Written
import MatrixCalc.Proofs.Text.Rows
import MatrixCalc.Proofs.Decimal.Rounding
import MatrixCalc.Proofs.Decimal.Doubles
import MatrixCalc.Proofs.Decimal.Nearest
import MatrixCalc.Proofs.Decimal.Shortest
import MatrixCalc.Proofs.Decimal.Limits
import MatrixCalc.Proofs.Text.ReadBack
import MatrixCalc.Proofs.Text.Rendering
import MatrixCalc.Proofs.Text.Pieces
import MatrixCalc.Proofs.Outline.Faults
import MatrixCalc.Proofs.Text.Places
import MatrixCalc.Proofs.Outline.Shapes
import MatrixCalc.Proofs.Text.Spacing
import MatrixCalc.Proofs.Algebra.Echelon
import MatrixCalc.Proofs.Algebra.Rounded
import MatrixCalc.Proofs.Decimal.Units
import MatrixCalc.Proofs.Algebra.RoundedForms
import MatrixCalc.Proofs.Storage.Access
import MatrixCalc.Proofs.Storage.Elimination
import MatrixCalc.Proofs.Storage.Results
import MatrixCalc.Proofs.Storage.Contract
import MatrixCalc.Proofs.Text.Calls
import MatrixCalc.Proofs.Outline.Accounting
import MatrixCalc.Proofs.Outline.Subtractions
import MatrixCalc.Proofs.Algebra.LockStep
import MatrixCalc.Proofs.Algebra.Transposes
import MatrixCalc.Proofs.Storage.Sizes
import MatrixCalc.Proofs.Storage.Views
import MatrixCalc.Proofs.Algebra.Laws
import MatrixCalc.Proofs.Outline.Events
import MatrixCalc.Proofs.Outline.Warnings
import MatrixCalc.Proofs.Text.Journals
import MatrixCalc.Proofs.Text.Faithful
import MatrixCalc.Proofs.Session.Lines
import MatrixCalc.Proofs.Session.Arguments
import MatrixCalc.Proofs.Session.Replies
import MatrixCalc.Proofs.Session.Answers
