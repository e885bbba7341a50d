import Lisp.Eval.Basic

/-!
An interpreter: a machine whose root frame binds the builtin functions, and the ways to run text,
values and files in it.
-/

namespace Lisp

/-- Definitions in the language itself: `not`, the macro `cond`, which tries tests in order, and
`load-file`, which evaluates the forms of a file in the root frame. -/
def preludeText : String := "
(def! not (fn* (a) (if a false true)))

(defmacro! cond
  (fn* (& xs)
    (if (> (count xs) 0)
      (list 'if (first xs)
        (if (> (count xs) 1)
          (nth xs 1)
          (throw \"odd number of forms to cond\"))
        (cons 'cond (rest (rest xs)))))))

(def! load-file
  (fn* (f)
    (eval (read-string (str \"(do \" (slurp f) \"\\nnil)\")))))
"

/-- What `*host-language*` is bound to. -/
def hostLanguage : String := "Mal-arkey (rust)"

namespace Interpreter

/-- Fuel that no run uses up. -/
def fuel : Nat := Nat.pow 10 15

def rootBindings : Bindings :=
  Builtin.all.map (fun b => (b.name, .builtin b))
  ++ [("*host-language*", .str hostLanguage), ("*ARGV*", .list none [])]

/-- A machine with the builtin functions only. -/
def bare (depthLimit : Nat) (world : World) : Machine :=
  { frames := #[⟨rootBindings, none⟩], root := some 0, depthLimit, world }

def evalValue (code : Value) : Action Value := do
  eval fuel code (← Action.root)

def evalForms (last : Value) : List Value → Action Value
  | [] => return last
  | form :: rest => do
    let v ← evalValue form
    evalForms v rest

/-- Reads a whole text, then evaluates its forms one after another; the value is that of the
last. -/
def evalText (source : String) : Action Value := do
  let forms ← Action.ofExcept (readAll source)
  evalForms .nil forms

/-- Reads one form, evaluates it and gives the readable text of its value. -/
def readEvalPrint (source : String) : Action String := do
  let form ← Action.ofExcept (read source)
  let v ← evalValue form
  Action.textOf .readable v

/-- Evaluates the forms of a file. -/
def loadFile (path : String) : Action Value := do
  let source ← Action.readFile "load" path
  let _ ← evalText source
  return .nil

def expandForm (form : Value) : Action Value := do
  macroExpand fuel form (← Action.root)

/-- Evaluates a value as if it were no call. -/
def evalData (v : Value) : Action Value := do
  Step.evalData (evaluator fuel) (← Action.root) v

def callValue (f : Value) (args : List Value) : Action Value :=
  call fuel f args

def setRoot (name : String) (v : Value) : Action Unit := do
  Action.define (← Action.root) name v

def setArguments (args : List String) : Action Unit :=
  setRoot "*ARGV*" (.list none (args.map .str))

/-- Binds a name to a host function. -/
def register (name : String) (f : HostFunction) : Action Unit := fun m =>
  setRoot name (.host name m.hosts.size) { m with hosts := m.hosts.push f }

/-- An interpreter at the start. Definitions of the prelude that do not fit under the depth limit,
and those after them, are left out. -/
def start (withPrelude : Bool) (depthLimit : Nat) (world : World) : Machine :=
  let m := bare depthLimit world
  if withPrelude then
    match evalText preludeText m with
    | .ok _ m' => m'
    | .error _ m' => m'
    | .paused _ => m
  else m

end Interpreter

end Lisp
