import MarkupScript.Files.Tree
import MarkupScript.Main
import MarkupScript.Proofs.Document.Building
import MarkupScript.Proofs.Document.WellFormed
import MarkupScript.Proofs.Document.Confinement
import MarkupScript.Proofs.Script.Units
import MarkupScript.Proofs.Script.Linking
import MarkupScript.Proofs.Files.Tree
import MarkupScript.Proofs.CommandLine.Session
import MarkupScript.Proofs.Function.Catalogue
import MarkupScript.Proofs.Function.Editors
import MarkupScript.Proofs.Function.Edits
import MarkupScript.Proofs.Run.Contract
import MarkupScript.Proofs.Run.Policy
import MarkupScript.Proofs.Run.Resolution
import MarkupScript.Proofs.Run.Confinement
import MarkupScript.Proofs.Document.Order
import MarkupScript.Proofs.Document.Arrangement
import MarkupScript.Proofs.Line.Grammar
import MarkupScript.Proofs.Line.Scan
import MarkupScript.Proofs.Run.Arrangement
import MarkupScript.Proofs.Run.Detached
import MarkupScript.Proofs.Line.Recognition
import MarkupScript.Proofs.Line.Quoting
import MarkupScript.Proofs.Script.Grammar
import MarkupScript.Proofs.Script.Blocks
import MarkupScript.Proofs.Document.Subtree
import MarkupScript.Proofs.Expression.Agreement
import MarkupScript.Proofs.Expression.Locality
import MarkupScript.Proofs.Run.Congruence
import MarkupScript.Proofs.Run.Log
import MarkupScript.Proofs.Expression.Reads
import MarkupScript.Proofs.Run.Positions
import MarkupScript.Proofs.Run.Combinations
import MarkupScript.Proofs.Run.Inclusion
import MarkupScript.Proofs.Script.Accounting
import MarkupScript.Proofs.Script.Faults
import MarkupScript.Proofs.Json.Nesting
import MarkupScript.Proofs.Document.Ids
import MarkupScript.Proofs.Document.NodeText
import MarkupScript.Proofs.Document.Storage
import MarkupScript.Proofs.Expression.Coercion
import MarkupScript.Proofs.Expression.PathText
import MarkupScript.Proofs.Expression.Phrase
import MarkupScript.Proofs.Expression.Lexing
import MarkupScript.Proofs.Document.Deletion
import MarkupScript.Proofs.Document.Contents
import MarkupScript.Proofs.Document.Wrapping
import MarkupScript.Proofs.Document.Repetition
import MarkupScript.Proofs.Run.Course
import MarkupScript.Proofs.Run.Failures
import MarkupScript.Proofs.Run.Variables
import MarkupScript.Proofs.Run.Unread
import MarkupScript.Proofs.Run.Naming
import MarkupScript.Proofs.Expression.Selection
import MarkupScript.Proofs.Expression.Ordering
import MarkupScript.Proofs.Expression.Predicates
import MarkupScript.Proofs.Line.Delimiters
import MarkupScript.Proofs.Line.Layout
import MarkupScript.Proofs.Line.Escaping
import MarkupScript.Proofs.Expression.Spelling
import MarkupScript.Proofs.Function.Registration
import MarkupScript.Proofs.Document.Walks
import MarkupScript.Proofs.Expression.Brackets
import MarkupScript.Proofs.Expression.Slices
import MarkupScript.Proofs.Expression.Cutting
