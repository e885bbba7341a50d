import Lisp.Error

/-!
Templates: quasiquoted code is turned into code that builds it with `cons`, `concat` and `quote`.
-/

namespace Lisp.Template

/-- The code in `(unquote code)`. -/
def unquoted? : List Value → Option Value
  | [.sym name, code] => if name = "unquote" then some code else none
  | _ => none

/-- The operands of `(splice-unquote ...)`. -/
def spliced? : Value → Option (List Value)
  | .list _ (.sym name :: operands) => if name = "splice-unquote" then some operands else none
  | _ => none

def quoted (v : Value) : Value :=
  .list none [.sym "quote", v]

mutual

/-- The code that builds the instance of a template. The lists that it is made of have no numbers,
like those of source text. -/
def expand : Value → Except Error Value
  | .list id items => expandList id items
  | .sym name => .ok (quoted (.sym name))
  | .map id entries => .ok (quoted (.map id entries))
  | v => .ok v

/-- The code that builds a list from templates of its elements. The code of the tail is made first,
and a tail `unquote code` stands for the list that the code gives. -/
def expandList (id : ObjectId) : List Value → Except Error Value
  | [] => .ok (.list id [])
  | head :: tail =>
    match unquoted? (head :: tail) with
    | some code => .ok code
    | none =>
      match expandList none tail with
      | .error e => .error e
      | .ok rest =>
        match spliced? head with
        | some (code :: _) => .ok (.list none [.sym "concat", code, rest])
        | some [] => .error (.arity "splice-unquote" (.exactly 1) 0)
        | none => (expand head).map fun first => .list none [.sym "cons", first, rest]

end

end Lisp.Template
