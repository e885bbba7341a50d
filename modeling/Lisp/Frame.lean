import Lisp.Error

/-!
Environments. A frame binds names to values and may have an enclosing frame; all the frames of a run
stand in one array and are named by their places in it. A frame is made after the one around it.
-/

namespace Lisp

abbrev FrameId := Nat

abbrev Bindings := List (String × Value)

/-- The value of a bound name. -/
def Bindings.get? (name : String) : Bindings → Option Value
  | [] => none
  | (n, v) :: rest => if name == n then some v else get? name rest

/-- Replaces the value of a bound name, or binds a new one. -/
def Bindings.set (name : String) (v : Value) : Bindings → Bindings
  | [] => [(name, v)]
  | (n, w) :: rest => if name == n then (n, v) :: rest else (n, w) :: set name v rest

structure Frame where
  bindings : Bindings := []
  parent : Option FrameId := none

abbrev Frames := Array Frame

namespace Frames

/-- The value of a name in the nearest of at most `depth` frames that binds it. -/
def find? (frames : Frames) (name : String) : Nat → FrameId → Option Value
  | 0, _ => none
  | depth + 1, f =>
    match frames[f]? with
    | none => none
    | some frame =>
      match frame.bindings.get? name with
      | some v => some v
      | none =>
        match frame.parent with
        | none => none
        | some p => find? frames name depth p

/-- The value of a name as seen from a frame. Since enclosing frames are older,
a chain of them has no more than `f + 1` members. -/
def get? (frames : Frames) (f : FrameId) (name : String) : Option Value :=
  frames.find? name (f + 1) f

def lookup (frames : Frames) (f : FrameId) (name : String) : Except Error Value :=
  match frames.get? f name with
  | some v => .ok v
  | none => .error (.unbound name)

/-- Binds a name in one frame. -/
def set (frames : Frames) (f : FrameId) (name : String) (v : Value) : Frames :=
  frames.modify f fun frame => { frame with bindings := frame.bindings.set name v }

/-- The names that at most `depth` frames bind and `seen` does not hold, innermost first. -/
def namesFrom (frames : Frames) (seen : List String) : Nat → FrameId → List String
  | 0, _ => []
  | depth + 1, f =>
    match frames[f]? with
    | none => []
    | some frame =>
      let new := (frame.bindings.map Prod.fst).filter fun name => !seen.contains name
      match frame.parent with
      | none => new
      | some p => new ++ namesFrom frames (new ++ seen) depth p

/-- Every name visible from a frame, once. -/
def names (frames : Frames) (f : FrameId) : List String :=
  frames.namesFrom [] (f + 1) f

end Frames

namespace Params

/-- The number of arguments a parameter list asks for: all those before a rest marker. -/
def arity (params : List Value) : Arity :=
  match params.findIdx? fun p => p.sym? == some "&" with
  | some fixed => .atLeast fixed
  | none => .exactly params.length

/-- Binds parameters to arguments one by one; the symbol after `&` takes the list of those left.
Arguments without a parameter are ignored, and `shortage` is the error of too few. -/
def bindFrom (shortage : Error) (restId : ObjectId) (bound : Bindings) :
    List Value → List Value → Except Error Bindings
  | [], _ => .ok bound
  | param :: params, args =>
    match param.sym? with
    | none => .error (.type "symbol" param.kind)
    | some "&" =>
      match params.head?.bind Value.sym? with
      | some rest => .ok (bound.set rest (.list restId args))
      | none => .error (.eval .restMarker)
    | some name =>
      match args with
      | [] => .error shortage
      | arg :: args => bindFrom shortage restId (bound.set name arg) params args

def bind (restId : ObjectId) (params args : List Value) : Except Error Bindings :=
  bindFrom (.arity "#<function>" (arity params) args.length) restId [] params args

/-- Parameters of a function are symbols, and `&` stands before the last of them, which is no
`&`. -/
def check : List Value → Except Error Unit
  | [] => .ok ()
  | param :: params =>
    match param.sym? with
    | none => .error (.type "fn*: symbol parameter" param.kind)
    | some name =>
      if name = "&" ∧ (params.length ≠ 1 ∨ params.head?.bind Value.sym? = some "&") then
        .error (.eval .restParameter)
      else check params

end Params

end Lisp
