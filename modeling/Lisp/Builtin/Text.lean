import Lisp.Builtin.Arithmetic
import Lisp.Reader.Form

/-!
Texts of values, and values of texts.
-/

namespace Lisp

/-- The texts of several values with a separator between them. -/
def Value.joinedText (cells : Array Value) (style : Style) (separator : String)
    (values : List Value) : String :=
  separator.intercalate (values.map (Value.text cells style))

namespace TextOp

def string : Value → Except Error String
  | .str s => .ok s
  | v => .error (.type "string" v.kind)

def run (cells : Array Value) : TextOp → List Value → Except Error Value
  | str, args => .ok (.str (Value.joinedText cells .display "" args))
  | prStr, args => .ok (.str (Value.joinedText cells .readable " " args))
  | readString, [v] =>
    match string v with
    | .error e => .error e
    | .ok source => read source
  | symbol, [.sym name] => .ok (.sym name)
  | symbol, [v] => (string v).map .sym
  | keyword, [.kw name] => .ok (.kw name)
  | keyword, [.str name] => .ok (.kw name)
  | keyword, [v] => .error (.type "string or keyword" v.kind)
  | op, args => .error (op.signature.mismatch args)

end TextOp

end Lisp
