import Lisp.Program.Report
import Lisp.Text.Blank

/-!
The interactive loop. Lines are collected until no bracket and no string is open; what they make
together is one entry, which is evaluated and answered.
-/

namespace Lisp.Program

/-- What is open after some text, comments and strings apart. -/
structure Balance where
  depth : Int := 0
  inString : Bool := false
  inComment : Bool := false
  escaped : Bool := false
deriving DecidableEq, Repr

namespace Balance

def step (b : Balance) (c : Char) : Balance :=
  if b.inComment then { b with inComment := c ≠ '\n' }
  else if b.escaped then { b with escaped := false }
  else if c = '\\' ∧ b.inString then { b with escaped := true }
  else if c = '\x22' then { b with inString := !b.inString }
  else if b.inString then b
  else if c = ';' then { b with inComment := true }
  else if ['(', '[', '\x7b'].contains c then { b with depth := b.depth + 1 }
  else if [')', ']', '\x7d'].contains c then { b with depth := b.depth - 1 }
  else b

end Balance

/-- A text in which no bracket and no string waits for its end. -/
def isBalanced (s : String) : Bool :=
  let b := s.toList.foldl Balance.step {}
  b.depth ≤ 0 && !b.inString

namespace Repl

def banner : String := "(println (str \"Mal [\" *host-language* \"]\"))"

/-- Evaluates an entry that is not blank and writes its value, or reports its error. -/
def answer (entry : String) : Action Unit :=
  let entry := Text.trim entry
  if entry.isEmpty then return ()
  else Action.attempt (Interpreter.evalText entry) fun
    | .ok v => do
      let text ← Action.textOf .readable v
      Action.write (text ++ "\n")
    | .error e => report e

/-- The text of an entry so far with one more line. -/
def extend (entry : Option String) (line : String) : String :=
  match entry with
  | none => line
  | some text => text ++ "\n" ++ line

/-- Takes lines to the end of the input; an entry that is still open there is dropped.
Each round takes a line, so there are no more rounds than lines. -/
def rounds : Nat → Option String → Action Unit
  | 0, _ => Action.pause .fuel
  | limit + 1, entry => do
    match ← Action.nextLine with
    | none => return ()
    | some (.error fault) => Action.writeError ("Error: " ++ fault.message ++ "\n")
    | some (.ok line) =>
      let text := extend entry line
      if isBalanced text then
        answer text
        rounds limit none
      else rounds limit (some text)

def run : Action Unit := do
  Action.attempt (Interpreter.evalText banner) fun
    | .ok _ => return ()
    | .error e => report e
  let m ← Action.get
  match m.world.input with
  | none => Action.pause .input
  | some lines => rounds (lines.length + 1) none

end Repl

end Lisp.Program
