import Lisp.Builtin.Arithmetic
import Lisp.Value.Equality

/-!
Order of numbers, which are compared as doubles, and equality of values.
-/

namespace Lisp.Comparison

def number (v : Value) : Except Error Double :=
  match v.number? with
  | some x => .ok x
  | none => .error (.type "number" v.kind)

def ordered (relation : Double → Double → Bool) (a b : Value) : Except Error Value :=
  match number a, number b with
  | .error e, _ => .error e
  | .ok _, .error e => .error e
  | .ok x, .ok y => .ok (.bool (relation x y))

def run : Comparison → List Value → Except Error Value
  | lt, [a, b] => ordered Double.lt a b
  | gt, [a, b] => ordered (fun x y => y.lt x) a b
  | le, [a, b] => ordered Double.le a b
  | ge, [a, b] => ordered (fun x y => y.le x) a b
  | equal, [a, b] => .ok (.bool (a.beq b))
  | op, args => .error (op.signature.mismatch args)

end Lisp.Comparison
