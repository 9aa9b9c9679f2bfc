import ExprSandbox.Expression.Parser
import ExprSandbox.Routine.Lowering
import ExprSandbox.Routine.Printer
import ExprSandbox.Routine.Run
import ExprSandbox.Text.DoubleQuoted
import ExprSandbox.Token.Lexer

/-!
# Evaluators

An evaluator is a compiled program with the names that it refuses to read.  A source is split
into tokens, read as a program and lowered; the first stage that fails gives the error.
-/

namespace ExprSandbox

/-! ## From source to programs -/

/-- Reads a source as a program. -/
def Program.ofSource (limits : Limits) (source : String) : Except CompileError Program := do
  let tokens ← (Lexer.tokenize source).mapError .lex
  (Parser.program limits tokens).mapError .parse

/-! ## Evaluators -/

/-- A compiled program and the names that it refuses to read. -/
structure Evaluator where
  routine : Routine
  denied : DenyList

namespace Evaluator

/-- Compiles a program. -/
def ofProgram (denied : DenyList) (p : Program) : Evaluator :=
  ⟨.ofProgram p, denied⟩

/-- Compiles a source. -/
def ofSource (options : Options) (source : String) : Except CompileError Evaluator :=
  (Program.ofSource options.limits source).map (ofProgram options.denied)

/-- The number of temporaries. -/
def tempCount (e : Evaluator) : Nat :=
  e.routine.declared.length

/-- The source text of the compiled program. -/
def render (e : Evaluator) : String :=
  e.routine.render

/-- The evaluator as diagnostics show it. -/
def debugText (e : Evaluator) : String :=
  "Evaluator \x7b source: " ++ DoubleQuoted.quote e.render ++ ", denied_members: \x7b"
    ++ ", ".intercalate (e.denied.names.map DoubleQuoted.quote) ++ "\x7d \x7d"

/-- Evaluates in a context; a missing one counts as `undefined`.  What the evaluation makes is
numbered under `run`. -/
def evaluate {σ : Type} (e : Evaluator) (host : Host σ) (context : Option Value) (run : Nat)
    (s : σ) : Execution σ Value :=
  (e.routine.run (context.getD .undefined) run).execute e.denied host s

end Evaluator

/-! ## Functions in diagnostics -/

/-- The function value as diagnostics show it. -/
def Function.debugText (f : Function) : String :=
  "Function(Function \x7b name: " ++ DoubleQuoted.quote f.name ++ ", constructs_code: "
    ++ Constant.boolText f.constructsCode ++ ", .. \x7d)"

end ExprSandbox
