import Lisp.Builtin.Arithmetic

/-!
Lists, vectors and questions about values. Where a sequence is asked for, `nil` counts as empty.
-/

namespace Lisp

namespace Predicate

def holds : Predicate → Value → Bool
  | isNil, v => v.isNil
  | isTrue, .bool b => b
  | isFalse, .bool b => !b
  | isSymbol, .sym _ => true
  | isKeyword, .kw _ => true
  | isString, .str _ => true
  | isNumber, v => v.number?.isSome
  | isList, v => v.list?.isSome
  | isVector, .vec _ _ => true
  | isMap, v => v.map?.isSome
  | isSequential, v => v.seq?.isSome
  | isAtom, v => v.atom?.isSome
  | isFunction, v => v.isFunction
  | isMacro, v => v.isMacro
  | _, _ => false

def run (op : Predicate) : List Value → Except Error Value
  | [v] => .ok (.bool (op.holds v))
  | args => .error (op.signature.mismatch args)

end Predicate

namespace SequenceOp

/-- The elements of a sequence that a function takes as an argument. -/
def elements (function : String) : Value → Except Error (List Value)
  | .nil => .ok []
  | .list _ items => .ok items
  | .vec _ items => .ok items
  | v => .error (.type (function ++ ": list or vector") v.kind)

def size : Value → Except Error Nat
  | .nil => .ok 0
  | .list _ items => .ok items.length
  | .vec _ items => .ok items.length
  | .map _ entries => .ok entries.length
  | v => .error (.type "collection" v.kind)

def concatAll : List Value → Except Error (List Value)
  | [] => .ok []
  | arg :: args =>
    match elements "concat" arg with
    | .error e => .error e
    | .ok items => (concatAll args).map (items ++ ·)

def at? (items : List Value) (index : Int64) : Option Value :=
  if 0 ≤ index.toInt then items[index.toInt.toNat]? else none

def nthOf (items : List Value) : Value → Except Error Value
  | .int index =>
    match at? items index with
    | some v => .ok v
    | none => .error (.index index items.length)
  | v => .error (.type "integer" v.kind)

def run : SequenceOp → List Value → Except Error Value
  | list, args => .ok (.list none args)
  | vector, args => .ok (.vec none args)
  | vec, [.vec id items] => .ok (.vec id items)
  | vec, [v] => (elements "vec" v).map (.vec none)
  | isEmpty, [v] => (size v).map fun n => .bool (n == 0)
  | count, [v] => (size v).map fun n => .int (Int64.ofNat n)
  | cons, [v, seq] => (elements "cons" seq).map fun items => .list none (v :: items)
  | concat, args => (concatAll args).map (.list none)
  | nth, [seq, index] =>
    match elements "nth" seq with
    | .error e => .error e
    | .ok items => nthOf items index
  | first, [seq] => (elements "first" seq).map fun items => items.headD .nil
  | rest, [seq] => (elements "rest" seq).map fun items => .list none items.tail
  | op, args => .error (op.signature.mismatch args)

end SequenceOp

end Lisp
