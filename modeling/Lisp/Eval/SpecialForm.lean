import Lisp.Builtin.Control
import Lisp.Eval.Template

/-!
One step of evaluation. Special forms and calls either have a value at once or go on with a tail
expression, which the caller evaluates in their place. Everything they evaluate on the way goes
through the evaluator they are given.
-/

namespace Lisp

inductive SpecialForm where
  | define | defineMacro | letIn | branch | sequence | function | quote | quasiquote | macroExpand
  | tryCatch
deriving DecidableEq, Repr

namespace SpecialForm

def name : SpecialForm → String
  | define => "def!"
  | defineMacro => "defmacro!"
  | letIn => "let*"
  | branch => "if"
  | sequence => "do"
  | function => "fn*"
  | quote => "quote"
  | quasiquote => "quasiquote"
  | macroExpand => "macroexpand"
  | tryCatch => "try*"

def all : List SpecialForm :=
  [define, defineMacro, letIn, branch, sequence, function, quote, quasiquote, macroExpand, tryCatch]

def ofName? (name : String) : Option SpecialForm :=
  all.find? fun form => form.name == name

def arity : SpecialForm → Arity
  | define => .exactly 2
  | defineMacro => .exactly 2
  | letIn => .exactly 2
  | branch => .either 2 3
  | sequence => .atLeast 1
  | function => .exactly 2
  | quote => .exactly 1
  | quasiquote => .exactly 1
  | macroExpand => .exactly 1
  | tryCatch => .either 1 2

end SpecialForm

inductive Step where
  | done (v : Value)
  | tail (code : Value) (scope : FrameId)

namespace Step

/-- Evaluates expressions from left to right. -/
def evalAll (ev : Evaluator) (scope : FrameId) : List Value → Action (List Value)
  | [] => return []
  | code :: rest => do
    let v ← ev.eval code scope
    let vs ← evalAll ev scope rest
    return v :: vs

/-- Evaluates the values of entries and keeps the keys. The language leaves open which value is
evaluated first; here it is the one of the first key in the order of tables. -/
def evalEntries (ev : Evaluator) (scope : FrameId) : Table → Action Table
  | [] => return []
  | (key, code) :: rest => do
    let v ← ev.eval code scope
    let entries ← evalEntries ev scope rest
    return (key, v) :: entries

/-- The value of an expression that is no call: a symbol is looked up, a collection is evaluated
element by element, and anything else is its own value. -/
def evalData (ev : Evaluator) (scope : FrameId) : Value → Action Value
  | .sym name => Action.lookup scope name
  | .list _ items => do Action.make (.list none (← evalAll ev scope items))
  | .vec _ items => do Action.make (.vec none (← evalAll ev scope items))
  | .map _ entries => do Action.make (.map none (← evalEntries ev scope entries))
  | v => return v

/-- The name that a form binds. -/
def boundName (form : String) (v : Value) : Except Error String :=
  match v.sym? with
  | some name => .ok name
  | none => .error (.type (form ++ ": symbol") v.kind)

/-- Binds alternating names and values of expressions one after another. -/
def bindPairs (ev : Evaluator) (scope : FrameId) : List Value → Action Unit
  | target :: code :: rest => do
    let name ← Action.ofExcept (boundName "let*" target)
    let v ← ev.eval code scope
    Action.define scope name v
    bindPairs ev scope rest
  | _ => return ()

/-- The bindings of `let*`: a sequence of even length. -/
def letBindings (v : Value) : Except Error (List Value) :=
  match v.seq? with
  | none => .error (.type "let*: binding list or vector" v.kind)
  | some items => if items.length % 2 = 0 then .ok items else .error (.eval .unpairedBindings)

/-- Evaluates all expressions but the last, which is the tail expression. -/
def inSequence (ev : Evaluator) (scope : FrameId) (code : Value) : List Value → Action Step
  | [] => return .tail code scope
  | next :: rest => do
    let _ ← ev.eval code scope
    inSequence ev scope next rest

/-- The parameters of a function. -/
def parameters (v : Value) : Except Error (List Value) :=
  match v.seq? with
  | none => .error (.type "fn*: parameter list or vector" v.kind)
  | some params => (Params.check params).map fun _ => params

/-- The name and the handler in `(catch* name handler)`. -/
def catchClause : Value → Except Error (String × Value)
  | .list _ (.sym head :: operands) =>
    if head = "catch*" then
      match operands with
      | [target, handler] => (boundName "catch*" target).map fun name => (name, handler)
      | _ => .error (.arity "catch*" (.exactly 2) operands.length)
    else .error (.eval .catchClause)
  | _ => .error (.eval .catchClause)

/-- The macro that a closure is as. -/
def asMacro : Value → Except Error Value
  | .closure params body scope _ => .ok (.closure params body scope true)
  | v => .error (.type "defmacro!: fn*" v.kind)

/-- A step of a special form, given how macro calls are expanded. -/
def special (ev : Evaluator) (expand : Value → FrameId → Action Value) (scope : FrameId) :
    SpecialForm → List Value → Action Step
  | .branch, condition :: whenTrue :: [] => do
    let c ← ev.eval condition scope
    return if c.isTruthy then .tail whenTrue scope else .done .nil
  | .branch, condition :: whenTrue :: whenFalse :: [] => do
    let c ← ev.eval condition scope
    return .tail (if c.isTruthy then whenTrue else whenFalse) scope
  | .define, [target, code] => do
    let name ← Action.ofExcept (boundName "def!" target)
    let v ← ev.eval code scope
    Action.define scope name v
    return .done v
  | .defineMacro, [target, code] => do
    let name ← Action.ofExcept (boundName "defmacro!" target)
    let v ← ev.eval code scope
    let expander ← Action.ofExcept (asMacro v)
    Action.define scope name expander
    return .done expander
  | .letIn, [bindings, body] => do
    let pairs ← Action.ofExcept (letBindings bindings)
    let inner ← Action.enter scope []
    bindPairs ev inner pairs
    return .tail body inner
  | .sequence, code :: rest => inSequence ev scope code rest
  | .function, [params, body] => do
    let params ← Action.ofExcept (parameters params)
    return .done (.closure params body scope false)
  | .quote, [v] => return .done v
  | .quasiquote, [template] => do
    let code ← Action.ofExcept (Template.expand template)
    return .tail code scope
  | .macroExpand, [form] => do
    let expanded ← expand form scope
    return .done expanded
  | .tryCatch, [body] => return .tail body scope
  | .tryCatch, [body, clause] => do
    let (name, handler) ← Action.ofExcept (catchClause clause)
    Action.attempt (ev.eval body scope) fun
      | .ok v => return .done v
      | .error e => do
        let inner ← Action.enter scope [(name, e.payload)]
        return .tail handler inner
  | form, args => Action.fail (.arity form.name form.arity args.length)

def callHost (name : String) (id : Nat) (args : List Value) : Action Value :=
  fun m => match m.hosts[id]? with
    | some f => Action.ofExcept (f args) m
    | none => .error (.unbound name) m

/-- A step of applying a function to its arguments; the body of a closure is a tail expression. -/
def apply (ev : Evaluator) (args : List Value) : Value → Action Step
  | .builtin b => do
    let v ← b.run ev args
    return .done v
  | .host name id => do
    let v ← callHost name id args
    return .done v
  | .closure params body scope _ => do
    let frame ← Action.enterCall scope params args
    return .tail body frame
  | v => do
    let text ← Action.textOf .readable v
    Action.fail (.notCallable text)

/-- A step of a call: function and arguments are evaluated from left to right. -/
def callForm (ev : Evaluator) (scope : FrameId) (head : Value) (operands : List Value) :
    Action Step := do
  let f ← ev.eval head scope
  let args ← evalAll ev scope operands
  apply ev args f

/-- A step of evaluating an expression that is no macro call. -/
def ofForm (ev : Evaluator) (expand : Value → FrameId → Action Value) (scope : FrameId) :
    Value → Action Step
  | .list _ (head :: operands) =>
    match head.sym?.bind SpecialForm.ofName? with
    | some form => special ev expand scope form operands
    | none => callForm ev scope head operands
  | v => do return .done (← evalData ev scope v)

end Step

end Lisp
