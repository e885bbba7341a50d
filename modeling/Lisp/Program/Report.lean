import Lisp.Interpreter
import Lisp.Text.Suggestion

/-!
Error reports for the user.
-/

namespace Lisp.Program

/-- The names a misspelt one is compared with: those bound in the root frame, then the special
forms. -/
def knownNames (m : Machine) : List String :=
  (match m.root with
    | some f => m.frames.names f
    | none => []) ++ SpecialForm.all.map SpecialForm.name

def errorText (cells : Array Value) : Error → String
  | .thrown v => v.text cells .readable
  | e => e.message

/-- A line that suggests a name in place of an unbound one. -/
def hint (m : Machine) : Error → String
  | .unbound name =>
    match Text.suggest name (knownNames m) with
    | some suggestion => "  Hint: did you mean '" ++ suggestion ++ "'?\n"
    | none => ""
  | _ => ""

def report (e : Error) : Action Unit := do
  let m ← Action.get
  Action.writeError ("Error: " ++ errorText m.cells e ++ "\n" ++ hint m e)

end Lisp.Program
