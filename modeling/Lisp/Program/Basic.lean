import Lisp.Program.CommandLine
import Lisp.Program.Repl

/-!
The program: an expression, a file or an interactive session, by the command line.
-/

namespace Lisp.Program

/-- What a run of the program leaves behind. -/
structure Result where
  exitCode : Nat
  output : String
  errors : String
deriving DecidableEq, Repr

/-- Reports an error, which makes the run a failure. -/
def failure (e : Error) : Action Nat := do
  report e
  return 1

def runExpression (source : String) : Action Nat :=
  Action.attempt (Interpreter.evalText source) fun
    | .ok v => do
      let text ← Action.textOf .readable v
      Action.write (text ++ "\n")
      return 0
    | .error e => failure e

def runFile (path : String) (args : List String) : Action Nat := do
  Interpreter.setArguments args
  Action.attempt (Interpreter.loadFile path) fun
    | .ok _ => return 0
    | .error e => failure e

/-- The exit code of a run. An expression goes before a file, and the interactive loop runs without
either. -/
def session (o : Options) : Action Nat :=
  match o.expression, o.file with
  | some source, _ => runExpression source
  | none, some path => runFile path o.arguments
  | none, none => do
    Repl.run
    return 0

def execute (o : Options) (world : World) : Except Pause Result :=
  let stackMb := o.stackMb.getD 64
  if Nat.pow 2 64 ≤ stackMb * Nat.pow 2 20 then
    .ok ⟨2, "", "Error: invalid --stack-mb: " ++ toString stackMb ++ "\n"⟩
  else
    let limit := o.maxDepth.getD defaultDepthLimit
    match session o (Interpreter.start (!o.noPrelude) limit world) with
    | .ok code m => .ok ⟨code, m.world.output, m.world.errors⟩
    | .error e m => .ok ⟨1, m.world.output, m.world.errors ++ "Error: " ++ e.message ++ "\n"⟩
    | .paused p => .error p

end Lisp.Program
