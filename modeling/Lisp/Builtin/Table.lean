import Lisp.Builtin.Arithmetic
import Lisp.Value.Table

/-!
Hash-maps. Keys that are entered have to be strings or keywords; any value may be looked up.
-/

namespace Lisp.TableOp

def entriesOf (op : TableOp) : Value → Except Error Table
  | .map _ entries => .ok entries
  | v => .error (.type (op.signature.name ++ ": hash-map") v.kind)

def extend (op : TableOp) (entries : Table) (pairs : List Value) : Except Error Value :=
  match entries.insertPairs pairs with
  | .ok entries => .ok (.map none entries)
  | .error .unpaired => .error (.argument (.unpaired op.signature.name))
  | .error (.badKey kind) => .error (.type "string or keyword key" kind)

def run : TableOp → List Value → Except Error Value
  | hashMap, args => hashMap.extend [] args
  | assoc, m :: pairs =>
    match assoc.entriesOf m with
    | .error e => .error e
    | .ok entries => assoc.extend entries pairs
  | dissoc, m :: doomed =>
    (dissoc.entriesOf m).map fun entries => .map none (doomed.foldl Table.erase entries)
  | get, [.nil, _] => .ok .nil
  | get, [m, key] => (get.entriesOf m).map fun entries => (entries.get? key).getD .nil
  | contains, [m, key] => (contains.entriesOf m).map fun entries => .bool (entries.contains key)
  | keys, [m] => (keys.entriesOf m).map fun entries => .list none (entries.map Prod.fst)
  | vals, [m] => (vals.entriesOf m).map fun entries => .list none (entries.map Prod.snd)
  | op, args => .error (op.signature.mismatch args)

end Lisp.TableOp
