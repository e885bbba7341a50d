import Lisp.Builtin.Text
import Lisp.Machine

/-!
Output, input, files and the clock.
-/

namespace Lisp.ConsoleOp

/-- Writes the texts of the arguments as a line. -/
def printLine (style : Style) (args : List Value) : Action Value := do
  let m ← Action.get
  Action.write (Value.joinedText m.cells style " " args ++ "\n")
  return .nil

/-- Writes a prompt and takes a line of input; at the end of the input that is `nil`. -/
def promptLine (prompt : String) : Action Value := do
  Action.write prompt
  match ← Action.nextLine with
  | none => return .nil
  | some (.ok line) => return .str line
  | some (.error fault) => Action.fail (.file "readline" fault)

def run : ConsoleOp → List Value → Action Value
  | prn, args => printLine .readable args
  | println, args => printLine .display args
  | slurp, [v] => do
    let path ← Action.ofExcept (TextOp.string v)
    let content ← Action.readFile "slurp" path
    return .str content
  | readline, [v] => do
    let prompt ← Action.ofExcept (TextOp.string v)
    promptLine prompt
  | timeMs, [] => do
    let m ← Action.get
    return .int m.world.clock
  | op, args => Action.fail (op.signature.mismatch args)

end Lisp.ConsoleOp
