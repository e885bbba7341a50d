import Lisp.Proofs.Tracking
import Lisp.Interpreter

/-!
# The prelude

What the text of the prelude says, and the state in which it leaves an interpreter: two levels of
evaluation are enough for it.
-/

namespace Lisp.Prelude

/-- The body of `not`. -/
def notBody : Value :=
  .list none [.sym "if", .sym "a", .bool false, .bool true]

/-- The body of `cond`: the first test, the expression after it, and a `cond` of what is left. -/
def condBody : Value :=
  .list none [.sym "if", .list none [.sym ">", .list none [.sym "count", .sym "xs"], .int 0],
    .list none [.sym "list", .list none [.sym "quote", .sym "if"],
      .list none [.sym "first", .sym "xs"],
      .list none [.sym "if", .list none [.sym ">", .list none [.sym "count", .sym "xs"], .int 1],
        .list none [.sym "nth", .sym "xs", .int 1],
        .list none [.sym "throw", .str "odd number of forms to cond"]],
      .list none [.sym "cons", .list none [.sym "quote", .sym "cond"],
        .list none [.sym "rest", .list none [.sym "rest", .sym "xs"]]]]]

/-- The body of `load-file`: the file is made one form, which is evaluated. -/
def loadFileBody : Value :=
  .list none [.sym "eval", .list none [.sym "read-string", .list none [.sym "str", .str "(do ",
    .list none [.sym "slurp", .sym "f"], .str "\nnil)"]]]

def notFunction : Value := .closure [.sym "a"] notBody 0 false

def condFunction : Value := .closure [.sym "&", .sym "xs"] condBody 0 true

def loadFileFunction : Value := .closure [.sym "f"] loadFileBody 0 false

/-- What the prelude defines. -/
def bindings : Bindings :=
  [("not", notFunction), ("cond", condFunction), ("load-file", loadFileFunction)]

/-- The definition of a function, by one of the forms that define. -/
def definition (form name : String) (params : List Value) (body : Value) : Value :=
  .list none [.sym form, .sym name, .list none [.sym "fn*", .list none params, body]]

def forms : List Value :=
  [definition "def!" "not" [.sym "a"] notBody,
    definition "defmacro!" "cond" [.sym "&", .sym "xs"] condBody,
    definition "def!" "load-file" [.sym "f"] loadFileBody]

theorem eq_ok_of_toOption {ε α : Type} {result : Except ε α} {a : α}
    (h : result.toOption = some a) : result = .ok a := by
  cases result with
  | ok b => exact congrArg Except.ok (Option.some.inj h)
  | error e => cases h

-- The text is taken as a list of characters first: to decode it would take the kernel long.
set_option maxRecDepth 20000 in
theorem readAll_preludeText : readAll preludeText = .ok forms := by
  have htext : preludeText = String.ofList _ := rfl
  refine eq_ok_of_toOption ?_
  rw [readAll, tokenize, htext, String.toList_ofList]
  decide +kernel

open Interpreter

/-- A bare interpreter with further bindings. -/
def extended (limit : Nat) (world : World) (bindings : Bindings) : Machine :=
  { bare limit world with frames := #[⟨rootBindings ++ bindings, none⟩] }

/-- Text of one form leads where the form does. -/
theorem evalText_singleton {source : String} {form v : Value} {m n : Machine}
    (hread : readAll source = .ok [form]) (h : evalValue form m = .ok v n) :
    evalText source m = .ok v n := by
  rw [evalText, hread]
  show evalForms .nil [form] m = .ok v n
  rw [evalForms, Action.bind_apply, h]
  rfl

section

variable (limit : Nat) (world : World)

theorem evalValue_not :
    evalValue (definition "def!" "not" [.sym "a"] notBody) (bare (limit + 2) world) =
      .ok notFunction (extended (limit + 2) world [("not", notFunction)]) := by
  rfl

theorem evalValue_cond :
    evalValue (definition "defmacro!" "cond" [.sym "&", .sym "xs"] condBody)
        (extended (limit + 2) world [("not", notFunction)]) =
      .ok condFunction
        (extended (limit + 2) world [("not", notFunction), ("cond", condFunction)]) := by
  rfl

theorem evalValue_loadFile :
    evalValue (definition "def!" "load-file" [.sym "f"] loadFileBody)
        (extended (limit + 2) world [("not", notFunction), ("cond", condFunction)]) =
      .ok loadFileFunction (extended (limit + 2) world bindings) := by
  rfl

end

/-- An interpreter starts with the functions of the prelude. -/
theorem start_eq {limit : Nat} (hlimit : 2 ≤ limit) (world : World) :
    start true limit world = extended limit world bindings := by
  obtain ⟨k, rfl⟩ := Nat.exists_eq_add_of_le' hlimit
  have hforms : evalForms .nil forms (bare (k + 2) world) =
      .ok loadFileFunction (extended (k + 2) world bindings) := by
    simp only [forms, evalForms, Action.bind_apply, evalValue_not, evalValue_cond,
      evalValue_loadFile]
    rfl
  have hread (f : List Value → Action Value) (m : Machine) :
      (Action.ofExcept (.ok forms) >>= f) m = f forms m := rfl
  delta start
  dsimp only
  rw [if_pos rfl, evalText, readAll_preludeText, hread, hforms]

end Lisp.Prelude
