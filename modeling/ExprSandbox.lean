import ExprSandbox.Constant
import ExprSandbox.Entries
import ExprSandbox.Error
import ExprSandbox.Evaluator
import ExprSandbox.Expression
import ExprSandbox.Expression.Evaluation
import ExprSandbox.Expression.Parser
import ExprSandbox.Json
import ExprSandbox.Number.Basic
import ExprSandbox.Number.Decimal
import ExprSandbox.Number.Numeral
import ExprSandbox.Number.Reading
import ExprSandbox.Number.Remainder
import ExprSandbox.Number.Shortest
import ExprSandbox.Number.Text
import ExprSandbox.Operator
import ExprSandbox.Options
import ExprSandbox.Process
import ExprSandbox.Proofs.Alike
import ExprSandbox.Proofs.Answers
import ExprSandbox.Proofs.Arithmetic
import ExprSandbox.Proofs.Assembly
import ExprSandbox.Proofs.Begun
import ExprSandbox.Proofs.Calls
import ExprSandbox.Proofs.Canonical
import ExprSandbox.Proofs.Causes
import ExprSandbox.Proofs.Checked
import ExprSandbox.Proofs.CodeSize
import ExprSandbox.Proofs.CodeUnits
import ExprSandbox.Proofs.Coercion
import ExprSandbox.Proofs.Compilation
import ExprSandbox.Proofs.Completeness
import ExprSandbox.Proofs.Contents
import ExprSandbox.Proofs.Correctness
import ExprSandbox.Proofs.Decoding
import ExprSandbox.Proofs.Depth
import ExprSandbox.Proofs.Digits
import ExprSandbox.Proofs.DistinctKeys
import ExprSandbox.Proofs.Documents
import ExprSandbox.Proofs.Grammar
import ExprSandbox.Proofs.Indices
import ExprSandbox.Proofs.Integers
import ExprSandbox.Proofs.Lexicon
import ExprSandbox.Proofs.Lexing
import ExprSandbox.Proofs.Limits
import ExprSandbox.Proofs.LiteralKeys
import ExprSandbox.Proofs.Lockstep
import ExprSandbox.Proofs.LooseEquality
import ExprSandbox.Proofs.Lossless
import ExprSandbox.Proofs.Lowering
import ExprSandbox.Proofs.Machine
import ExprSandbox.Proofs.Mentions
import ExprSandbox.Proofs.Nearest
import ExprSandbox.Proofs.Nesting
import ExprSandbox.Proofs.Noninterference
import ExprSandbox.Proofs.NumberText
import ExprSandbox.Proofs.Numerals
import ExprSandbox.Proofs.ObjectLiterals
import ExprSandbox.Proofs.Occurrences
import ExprSandbox.Proofs.Offsets
import ExprSandbox.Proofs.Order
import ExprSandbox.Proofs.Places
import ExprSandbox.Proofs.Prefixes
import ExprSandbox.Proofs.Printing
import ExprSandbox.Proofs.Quoting
import ExprSandbox.Proofs.Radix
import ExprSandbox.Proofs.Readers
import ExprSandbox.Proofs.Reading
import ExprSandbox.Proofs.Reads
import ExprSandbox.Proofs.Renaming
import ExprSandbox.Proofs.Rendering
import ExprSandbox.Proofs.Respelling
import ExprSandbox.Proofs.Restriction
import ExprSandbox.Proofs.Rounding
import ExprSandbox.Proofs.Sandbox
import ExprSandbox.Proofs.Scanning
import ExprSandbox.Proofs.Separation
import ExprSandbox.Proofs.Shifting
import ExprSandbox.Proofs.Shortest
import ExprSandbox.Proofs.Simulation
import ExprSandbox.Proofs.Soundness
import ExprSandbox.Proofs.Stability
import ExprSandbox.Proofs.StructuralEquality
import ExprSandbox.Proofs.Surroundings
import ExprSandbox.Proofs.Tracking
import ExprSandbox.Proofs.WellFormed
import ExprSandbox.Proofs.WholeNumbers
import ExprSandbox.Proofs.Widening
import ExprSandbox.Registry
import ExprSandbox.Routine
import ExprSandbox.Routine.Lowering
import ExprSandbox.Routine.Printer
import ExprSandbox.Routine.Run
import ExprSandbox.Text.CharClass
import ExprSandbox.Text.DoubleQuoted
import ExprSandbox.Text.Quoted
import ExprSandbox.Text.Utf16
import ExprSandbox.Token
import ExprSandbox.Token.Lexeme
import ExprSandbox.Token.Lexer
import ExprSandbox.Token.NumberLiteral
import ExprSandbox.Token.StringLiteral
import ExprSandbox.Value
import ExprSandbox.Value.Coercion
import ExprSandbox.Value.Comparison
import ExprSandbox.Value.Conversion
import ExprSandbox.Value.Member
import ExprSandbox.Value.Operation
