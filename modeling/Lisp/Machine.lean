import Lisp.Frame

/-!
The state of a running program, and the actions that change it. An action ends with a value or with
an error, and the state stays as the action left it in both cases; or it pauses, which is no outcome
of the program: it was given too few steps, or something from outside that is not at hand.
-/

namespace Lisp

/-- A function supplied by the program that embeds the language. -/
abbrev HostFunction := List Value → Except Error Value

/-- What lies outside the program. Lines of input keep their line ends, and `none` is a line that is
no text; input or a file that is `none` as a whole has not been fetched. -/
structure World where
  input : Option (List (Option String)) := some []
  files : String → Option (Except FileFault String) := fun _ => some (.error .missing)
  clock : Int64 := 0
  output : String := ""
  errors : String := ""

/-- How deep evaluations may nest unless a program is started with another limit. -/
def defaultDepthLimit : Nat := 1000

/-- `objects` counts the objects made so far. -/
structure Machine where
  frames : Frames := #[]
  cells : Array Value := #[]
  hosts : Array HostFunction := #[]
  objects : Nat := 0
  root : Option FrameId := none
  depth : Nat := 0
  depthLimit : Nat := defaultDepthLimit
  world : World := {}

/-- What a paused action waits for. -/
inductive Pause where
  | fuel
  | input
  | file (path : String)
deriving DecidableEq, Repr

inductive Outcome (α : Type) where
  | ok (a : α) (m : Machine)
  | error (e : Error) (m : Machine)
  | paused (p : Pause)

def Action (α : Type) : Type := Machine → Outcome α

namespace Action

@[inline] def pure {α : Type} (a : α) : Action α :=
  fun m => .ok a m

@[inline] def bind {α β : Type} (x : Action α) (f : α → Action β) : Action β :=
  fun m => match x m with
    | .ok a m' => f a m'
    | .error e m' => .error e m'
    | .paused p => .paused p

instance : Monad Action where
  pure := pure
  bind := bind

@[inline] def fail {α : Type} (e : Error) : Action α :=
  fun m => .error e m

@[inline] def pause {α : Type} (p : Pause) : Action α :=
  fun _ => .paused p

@[inline] def ofExcept {α : Type} : Except Error α → Action α
  | .ok a => pure a
  | .error e => fail e

/-- Goes on with a value, or with the error, in the state in which it arose. -/
@[inline] def attempt {α β : Type} (x : Action α) (f : Except Error α → Action β) : Action β :=
  fun m => match x m with
    | .ok a m' => f (.ok a) m'
    | .error e m' => f (.error e) m'
    | .paused p => .paused p

@[inline] def get : Action Machine :=
  fun m => .ok m m

@[inline] def modify (f : Machine → Machine) : Action Unit :=
  fun m => .ok () (f m)

/-- Runs an evaluation one level deeper, if the limit allows it. -/
@[inline] def nested {α : Type} (x : Action α) : Action α :=
  fun m =>
    if m.depthLimit < m.depth + 1 then .error (.eval .recursionLimit) m
    else match x { m with depth := m.depth + 1 } with
      | .ok a m' => .ok a { m' with depth := m'.depth - 1 }
      | .error e m' => .error e { m' with depth := m'.depth - 1 }
      | .paused p => .paused p

/-! Environments. -/

def lookup (f : FrameId) (name : String) : Action Value :=
  fun m => ofExcept (m.frames.lookup f name) m

def define (f : FrameId) (name : String) (v : Value) : Action Unit :=
  modify fun m => { m with frames := m.frames.set f name v }

/-- Makes an empty frame that stands by itself. -/
def enterAlone : Action FrameId :=
  fun m => .ok m.frames.size { m with frames := m.frames.push {} }

/-- Makes a frame within `parent`. -/
def enter (parent : FrameId) (bindings : Bindings) : Action FrameId :=
  fun m => .ok m.frames.size { m with frames := m.frames.push ⟨bindings, some parent⟩ }

/-- Makes the frame of a call; the list of rest arguments is a new object. -/
def enterCall (scope : FrameId) (params args : List Value) : Action FrameId :=
  fun m => match Params.bind (some m.objects) params args with
    | .ok bindings => enter scope bindings { m with objects := m.objects + 1 }
    | .error e => .error e m

def root : Action FrameId :=
  fun m => match m.root with
    | some f => .ok f m
    | none => .error (.eval .noRoot) m

/-! Objects and cells. -/

/-- Makes a plain list, vector or map an object. -/
def make (v : Value) : Action Value :=
  fun m => .ok (v.identify m.objects) { m with objects := m.objects + 1 }

/-- Makes a cell and gives its number. -/
def newCell (v : Value) : Action Nat :=
  fun m => .ok m.cells.size { m with cells := m.cells.push v }

def readCell (id : Nat) : Action Value :=
  fun m => match m.cells[id]? with
    | some v => .ok v m
    | none => .error (.eval (.unknownAtom id)) m

/-- Replaces the contents of a cell and gives the new contents. -/
def writeCell (id : Nat) (v : Value) : Action Value :=
  fun m =>
    if id < m.cells.size then .ok v { m with cells := m.cells.setIfInBounds id v }
    else .error (.eval (.unknownAtom id)) m

def textOf (style : Style) (v : Value) : Action String :=
  fun m => .ok (v.text m.cells style) m

/-! The world. -/

def write (s : String) : Action Unit :=
  modify fun m => { m with world := { m.world with output := m.world.output ++ s } }

def writeError (s : String) : Action Unit :=
  modify fun m => { m with world := { m.world with errors := m.world.errors ++ s } }

/-- A line without its line end. -/
def chomp (line : String) : String :=
  match line.toList.reverse with
  | '\n' :: '\r' :: rest => String.ofList rest.reverse
  | '\n' :: rest => String.ofList rest.reverse
  | _ => line

/-- Takes the next line of input, `none` at the end; the error of a line that is no text
names the source that asked for it. -/
def nextLine : Action (Option (Except FileFault String)) :=
  fun m => match m.world.input with
    | none => .paused .input
    | some [] => .ok none m
    | some (line :: rest) =>
      let m' := { m with world := { m.world with input := some rest } }
      match line with
      | some text => .ok (some (.ok (chomp text))) m'
      | none => .ok (some (.error .notText)) m'

/-- The text of a file, for a reader that gives its name in errors. -/
def readFile (reader path : String) : Action String :=
  fun m => match m.world.files path with
    | none => .paused (.file path)
    | some (.ok text) => .ok text m
    | some (.error fault) => .error (.file (reader ++ " " ++ path) fault) m

end Action

end Lisp
