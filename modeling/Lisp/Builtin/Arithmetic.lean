import Lisp.Error

/-!
Arithmetic on integers of 64 bits. Arguments are taken from left to right, and each step is exact or
an error: nothing wraps.
-/

namespace Lisp

/-- The error of a call with a wrong number of arguments. -/
def Signature.mismatch (s : Signature) (args : List Value) : Error :=
  .arity s.name s.arity args.length

namespace Arithmetic

def integer : Value → Except Error Int64
  | .int n => .ok n
  | v => .error (.type "integer" v.kind)

/-- The exact result of one step, if there is one. -/
def exact (op : Arithmetic) (a b : Int) : Option Int :=
  match op with
  | add => some (a + b)
  | sub => some (a - b)
  | mul => some (a * b)
  | div => if b = 0 then none else some (a.tdiv b)

def step (op : Arithmetic) (acc : Int64) (arg : Value) : Except Error Int64 :=
  match integer arg with
  | .error e => .error e
  | .ok n =>
    match op.exact acc.toInt n.toInt with
    | none => .error (.argument (.divisionByZero op.signature.name))
    | some result =>
      match int64? result with
      | none => .error (.argument (.overflow op.signature.name))
      | some result => .ok result

def steps (op : Arithmetic) (acc : Int64) : List Value → Except Error Value
  | [] => .ok (.int acc)
  | arg :: args =>
    match op.step acc arg with
    | .error e => .error e
    | .ok next => op.steps next args

/-- Takes the first argument as it is. -/
def stepsFrom (op : Arithmetic) (first : Value) (args : List Value) : Except Error Value :=
  match integer first with
  | .error e => .error e
  | .ok n => op.steps n args

def run : Arithmetic → List Value → Except Error Value
  | add, args => add.steps 0 args
  | mul, args => mul.steps 1 args
  | sub, first :: second :: rest => sub.stepsFrom first (second :: rest)
  | div, [divisor] => div.steps 1 [divisor]
  | div, first :: second :: rest => div.stepsFrom first (second :: rest)
  | op, args => .error (op.signature.mismatch args)

end Arithmetic

end Lisp
