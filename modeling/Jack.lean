import Jack.FileTree
import Jack.Main
import Jack.Proofs.Meaning.Expression
import Jack.Proofs.VM.Straight
import Jack.Proofs.VM.Height
import Jack.Proofs.Code.Leaves
import Jack.Proofs.Meaning.ExpressionCode
import Jack.Proofs.Code.Labels
import Jack.Proofs.Meaning.Statement
import Jack.Proofs.VM.Block
import Jack.Proofs.Meaning.StatementCode
import Jack.Proofs.Grammar.Tree
import Jack.Proofs.Parse.Run
import Jack.Proofs.Grammar.Resolve
import Jack.Proofs.Parse.Expression
import Jack.Proofs.Parse.Statement
import Jack.Proofs.Parse.Class
import Jack.Proofs.Parse.Stream
import Jack.Proofs.Grammar.Static
import Jack.Proofs.Language
import Jack.Proofs.Grammar.Bound
import Jack.Proofs.Constants
import Jack.Proofs.Parse.Ahead
import Jack.Proofs.Code.Blocks
import Jack.Proofs.VM.Flow
import Jack.Proofs.Grammar.Keywords
import Jack.Proofs.Jumps
import Jack.Proofs.VM.Level
import Jack.Proofs.Heights
import Jack.Proofs.Grammar.Slots
import Jack.Proofs.Addressing
import Jack.Proofs.Parse.Stop
import Jack.Proofs.Flaw.Expression
import Jack.Proofs.Flaw.Statement
import Jack.Proofs.Flaw.Class
import Jack.Proofs.Independence
import Jack.Proofs.VM.Path
import Jack.Proofs.Returns
import Jack.Proofs.Declarations
import Jack.Proofs.Lexeme.Grammar
import Jack.Proofs.Lexeme.Step
import Jack.Proofs.Lexeme.Break
import Jack.Proofs.Lexeme.Place
import Jack.Proofs.Lexeme.Scan
import Jack.Proofs.Lexeme.Tokenizer
import Jack.Proofs.Grammar.Production
import Jack.Proofs.Grammar.Derivation
import Jack.Proofs.Trace
import Jack.Proofs.Window.Stream
import Jack.Proofs.Window.Operation
import Jack.Proofs.Reading.Basic
import Jack.Proofs.Reading.Steady
import Jack.Proofs.Reading.Expression
import Jack.Proofs.Reading.Statement
import Jack.Proofs.Reading.Class
import Jack.Proofs.Reading.Law
import Jack.Proofs.Reading.Fork
import Jack.Proofs.Reading.Whole
import Jack.Proofs.Expected
import Jack.Proofs.Lookahead
import Jack.Proofs.Recording
import Jack.Proofs.VM.Reader
import Jack.Proofs.Rendering
import Jack.Proofs.Placement
import Jack.Proofs.Conditions
import Jack.Proofs.Files.Path
import Jack.Proofs.Files.Tree
import Jack.Proofs.Files.Order
import Jack.Proofs.Files.Store
import Jack.Proofs.Files.Run
import Jack.Proofs.Rejection.Basic
import Jack.Proofs.Rejection.Expression
import Jack.Proofs.Rejection.Statement
import Jack.Proofs.Rejection.Class
import Jack.Proofs.Violations
import Jack.Proofs.Limits
import Jack.Proofs.Grammar.Nesting
import Jack.Proofs.Grammar.Code
import Jack.Proofs.Acceptance
import Jack.Proofs.Markup.Reader
import Jack.Proofs.Markup
import Jack.Proofs.Grammar.Rename
import Jack.Proofs.Renaming
import Jack.Proofs.Grammar.Unambiguous
import Jack.Proofs.Grammar.Exchange
import Jack.Proofs.Grouping
import Jack.Proofs.Reading.Pace
import Jack.Proofs.Reading.Paced
import Jack.Proofs.Reading.Fuel
import Jack.Proofs.Reading.Guard
import Jack.Proofs.Reading.Guarded
import Jack.Proofs.Progress
import Jack.Proofs.Openings
import Jack.Proofs.Files.Kept
