import Lisp.Eval.SpecialForm

/-!
The evaluator. Each function takes an amount of fuel that bounds how long it may go on; an answer
that is not a pause does not depend on it. Tail expressions are evaluated by going round a loop, at
the depth of the expression they replace.
-/

namespace Lisp

namespace Evaluator

/-- A call of a macro: the closure's parameters, body and frame, and the operands as they stand. -/
structure MacroCall where
  params : List Value
  body : Value
  scope : FrameId
  operands : List Value

/-- The macro call that a form is, as seen from a frame. -/
def macroCall? (frames : Frames) (scope : FrameId) : Value → Option MacroCall
  | .list _ (.sym name :: operands) =>
    match frames.get? scope name with
    | some (.closure params body inner true) => some ⟨params, body, inner, operands⟩
    | _ => none
  | _ => none

/-- Expands a form for as long as it is a macro call. -/
def expand (ev : Evaluator) : Nat → Value → FrameId → Action Value
  | 0, _, _ => Action.pause .fuel
  | fuel + 1, form, scope => fun m =>
    match macroCall? m.frames scope form with
    | none => .ok form m
    | some call =>
      match Action.enterCall call.scope call.params call.operands m with
      | .error e m' => .error e m'
      | .paused p => .paused p
      | .ok frame m' =>
        match ev.eval call.body frame m' with
        | .error e m'' => .error e m''
        | .paused p => .paused p
        | .ok next m'' => expand ev fuel next scope m''

/-- Evaluates an expression and the tail expressions it leads to. -/
def loop (ev : Evaluator) : Nat → Value → FrameId → Action Value
  | 0, _, _ => Action.pause .fuel
  | fuel + 1, code, scope => fun m =>
    match ev.expand fuel code scope m with
    | .error e m' => .error e m'
    | .paused p => .paused p
    | .ok form m' =>
      match Step.ofForm ev (ev.expand fuel) scope form m' with
      | .error e m'' => .error e m''
      | .paused p => .paused p
      | .ok (.done v) m'' => .ok v m''
      | .ok (.tail code' scope') m'' => loop ev fuel code' scope' m''

/-- Applies a function to argument values. -/
def applied (ev : Evaluator) (f : Value) (args : List Value) : Action Value := do
  match ← Step.apply ev args f with
  | .done v => return v
  | .tail body frame => ev.eval body frame

end Evaluator

mutual

/-- Evaluates an expression one level deeper than the current one. -/
def eval : Nat → Value → FrameId → Action Value
  | 0, _, _ => Action.pause .fuel
  | fuel + 1, code, scope => Action.nested (Evaluator.loop ⟨eval fuel, call fuel⟩ fuel code scope)

/-- Applies a function to argument values; only the body of a closure is evaluated, one level
deeper. -/
def call : Nat → Value → List Value → Action Value
  | 0, _, _ => Action.pause .fuel
  | fuel + 1, f, args => Evaluator.applied ⟨eval fuel, call fuel⟩ f args

end

/-- The evaluator that `fuel` allows. -/
def evaluator (fuel : Nat) : Evaluator := ⟨eval fuel, call fuel⟩

/-- Expands macro calls in a form. -/
def macroExpand (fuel : Nat) (form : Value) (scope : FrameId) : Action Value :=
  (evaluator fuel).expand fuel form scope

end Lisp
