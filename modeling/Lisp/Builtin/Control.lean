import Lisp.Builtin.Cell
import Lisp.Builtin.Comparison
import Lisp.Builtin.Console
import Lisp.Builtin.Sequence
import Lisp.Builtin.Table

/-!
Functions that call functions or evaluate code, and the call of any builtin function. They are given
the evaluator they use, so that what they do can be said of every evaluator.
-/

namespace Lisp

structure Evaluator where
  eval : Value → FrameId → Action Value
  call : Value → List Value → Action Value

/-- The evaluator of a machine that has none. -/
def Evaluator.absent : Evaluator where
  eval _ _ := Action.fail (.eval .noEvaluator)
  call _ _ := Action.fail (.eval .noEvaluator)

namespace ControlOp

/-- Calls a function on each of the items, from left to right. -/
def mapCall (ev : Evaluator) (f : Value) : List Value → Action (List Value)
  | [] => return []
  | item :: rest => do
    let v ← ev.call f [item]
    let vs ← mapCall ev f rest
    return v :: vs

/-- The arguments of an application, the last of which is a sequence of further arguments. -/
def spread (arg : Value) : List Value → Except Error (List Value)
  | [] => SequenceOp.elements "apply" arg
  | next :: rest => (spread next rest).map (arg :: ·)

def run (ev : Evaluator) : ControlOp → List Value → Action Value
  | throw, [v] => Action.fail (.thrown v)
  | eval, [code] => do
    let f ← Action.root
    ev.eval code f
  | map, [f, seq] => do
    let items ← Action.ofExcept (SequenceOp.elements "map" seq)
    let results ← mapCall ev f items
    Action.make (.list none results)
  | apply, f :: arg :: args => do
    let args ← Action.ofExcept (spread arg args)
    ev.call f args
  | swap, a :: f :: args => do
    let id ← Action.ofExcept (CellOp.cellOf "swap!" a)
    let current ← Action.readCell id
    let next ← ev.call f (current :: args)
    Action.writeCell id next
  | op, args => Action.fail (op.signature.mismatch args)

end ControlOp

namespace Builtin

def run (ev : Evaluator) : Builtin → List Value → Action Value
  | arithmetic op, args => Action.ofExcept (op.run args)
  | comparison op, args => Action.ofExcept (op.run args)
  | predicate op, args => Action.ofExcept (op.run args)
  | sequence op, args => do Action.make (← Action.ofExcept (op.run args))
  | table op, args => do Action.make (← Action.ofExcept (op.run args))
  | text op, args => fun m => Action.ofExcept (op.run m.cells args) m
  | cell op, args => op.run args
  | console op, args => op.run args
  | control op, args => op.run ev args

end Builtin

end Lisp
