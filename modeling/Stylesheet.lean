import Stylesheet.Command.Files
import Stylesheet.Command.Invocation
import Stylesheet.Command.Reply
import Stylesheet.Command.System
import Stylesheet.Convert
import Stylesheet.Decimal.Binary
import Stylesheet.Decimal.Layout
import Stylesheet.Decimal.Scaled
import Stylesheet.Decimal.Shortest
import Stylesheet.Decimal.Word
import Stylesheet.Dialect
import Stylesheet.Json.Printer
import Stylesheet.Json.Reader
import Stylesheet.Json.Value
import Stylesheet.Load.Fault
import Stylesheet.Load.Reading
import Stylesheet.Load.Scalar
import Stylesheet.Load.Settings
import Stylesheet.Load.Tree
import Stylesheet.Main
import Stylesheet.Proofs.Arithmetic
import Stylesheet.Proofs.Brackets
import Stylesheet.Proofs.Breaks.Count
import Stylesheet.Proofs.Breaks.Quiet
import Stylesheet.Proofs.Breaks.Statements
import Stylesheet.Proofs.Breaks.Steps
import Stylesheet.Proofs.Closed
import Stylesheet.Proofs.Command.Files
import Stylesheet.Proofs.Command.Arguments
import Stylesheet.Proofs.Command.Outcomes
import Stylesheet.Proofs.Constructs
import Stylesheet.Proofs.Copies
import Stylesheet.Proofs.Edits
import Stylesheet.Proofs.Forms
import Stylesheet.Proofs.Frame
import Stylesheet.Proofs.Growth
import Stylesheet.Proofs.History
import Stylesheet.Proofs.Indentation.Host
import Stylesheet.Proofs.Indentation.Maps
import Stylesheet.Proofs.Indentation.Reading
import Stylesheet.Proofs.Indentation.Sheets
import Stylesheet.Proofs.Indentation.Statements
import Stylesheet.Proofs.Indentation.Texts
import Stylesheet.Proofs.Indentation.Trees
import Stylesheet.Proofs.Json.Grammar
import Stylesheet.Proofs.Json.RoundTrip
import Stylesheet.Proofs.Lines.Alike
import Stylesheet.Proofs.Lines.Constructs
import Stylesheet.Proofs.Lines.Lockstep
import Stylesheet.Proofs.Lines.Scenes
import Stylesheet.Proofs.Lines.Sheets
import Stylesheet.Proofs.Lines.Spacing
import Stylesheet.Proofs.Lines.Texts
import Stylesheet.Proofs.Lines.Trees
import Stylesheet.Proofs.Lines.Unlined
import Stylesheet.Proofs.Lines.Values
import Stylesheet.Proofs.Load.Fields
import Stylesheet.Proofs.Load.RoundTrip
import Stylesheet.Proofs.Load.Spelling
import Stylesheet.Proofs.Load.Streaming
import Stylesheet.Proofs.Lookups
import Stylesheet.Proofs.Loops.Ranges
import Stylesheet.Proofs.Loops.Variables
import Stylesheet.Proofs.MapLiterals
import Stylesheet.Proofs.Moments.Lines
import Stylesheet.Proofs.Moments.Plans
import Stylesheet.Proofs.Moments.Runs
import Stylesheet.Proofs.Moments.Weights
import Stylesheet.Proofs.Nesting
import Stylesheet.Proofs.Numerals
import Stylesheet.Proofs.Parts
import Stylesheet.Proofs.References.Agreement
import Stylesheet.Proofs.References.Parameters
import Stylesheet.Proofs.References.Trees
import Stylesheet.Proofs.Resolution
import Stylesheet.Proofs.Returns.Bodies
import Stylesheet.Proofs.Returns.Decisions
import Stylesheet.Proofs.Returns.Fronts
import Stylesheet.Proofs.Returns.Heads
import Stylesheet.Proofs.Returns.Moments
import Stylesheet.Proofs.Returns.Shapes
import Stylesheet.Proofs.Returns.Speech
import Stylesheet.Proofs.Returns.Statements
import Stylesheet.Proofs.Returns.Texts
import Stylesheet.Proofs.Returns.Values
import Stylesheet.Proofs.Rowwise
import Stylesheet.Proofs.Run
import Stylesheet.Proofs.Scope
import Stylesheet.Proofs.Separators
import Stylesheet.Proofs.Sigil.Constructs
import Stylesheet.Proofs.Sigil.Mirror
import Stylesheet.Proofs.Sigil.Texts
import Stylesheet.Proofs.Sigil.Trees
import Stylesheet.Proofs.Statements.Rows
import Stylesheet.Proofs.Statements.Separated
import Stylesheet.Proofs.Statements.Terminated
import Stylesheet.Proofs.Stepwise
import Stylesheet.Proofs.Success
import Stylesheet.Proofs.Values
import Stylesheet.Render.AtRule
import Stylesheet.Render.Branching
import Stylesheet.Render.Callable
import Stylesheet.Render.Comment
import Stylesheet.Render.Definition
import Stylesheet.Render.Fault
import Stylesheet.Render.Node
import Stylesheet.Render.Pass
import Stylesheet.Render.Registry
import Stylesheet.Render.RuleSet
import Stylesheet.Render.Value
import Stylesheet.Settings
import Stylesheet.Text.Blank
import Stylesheet.Text.Edit
import Stylesheet.Text.Quoted
import Stylesheet.Text.Visible
import Stylesheet.Tree.Decode
import Stylesheet.Tree.Encode
import Stylesheet.Tree.Entries
import Stylesheet.Tree.Kind
import Stylesheet.Tree.Make
import Stylesheet.Tree.Node
import Stylesheet.Tree.Schema
import Stylesheet.Tree.Shape
