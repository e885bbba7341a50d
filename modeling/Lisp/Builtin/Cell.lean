import Lisp.Builtin.Arithmetic
import Lisp.Machine

/-!
Atoms: values that name a cell whose contents can be replaced.
-/

namespace Lisp.CellOp

def cellOf (function : String) : Value → Except Error Nat
  | .atom id => .ok id
  | v => .error (.type (function ++ ": atom") v.kind)

def run : CellOp → List Value → Action Value
  | atom, [v] => do
    let id ← Action.newCell v
    return .atom id
  | deref, [a] => do
    let id ← Action.ofExcept (cellOf "deref" a)
    Action.readCell id
  | reset, [a, v] => do
    let id ← Action.ofExcept (cellOf "reset!" a)
    Action.writeCell id v
  | op, args => Action.fail (op.signature.mismatch args)

end Lisp.CellOp
