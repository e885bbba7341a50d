import Lisp.Interpreter
import Lisp.Proofs.Tracking

/-!
# Sessions

An interpreter serves one request after another, whether they fail or not, and what lies outside may
change in between.
-/

namespace Lisp

theorem Action.bind_assoc {α β γ : Type} (x : Action α) (f : α → Action β) (g : β → Action γ) :
    x >>= f >>= g = x >>= fun a => f a >>= g := by
  funext m
  simp only [bind_apply]
  cases x m <;> rfl

theorem Action.bind_pure {α : Type} (x : Action α) : x >>= pure = x := by
  funext m
  rw [bind_apply]
  cases x m <;> rfl

theorem Action.root_bind {β : Type} {m : Machine} {root : FrameId} (h : m.root = some root)
    (next : FrameId → Action β) : (Action.root >>= next) m = next root m := by
  rw [bind_apply, Action.root, h]

namespace Interpreter

/-- A text that reads is evaluated form by form. -/
theorem evalText_of_readAll {source : String} {forms : List Value}
    (h : readAll source = .ok forms) : evalText source = evalForms .nil forms := by
  rw [evalText, h]
  rfl

inductive Request where
  | evalText (source : String)
  | readEvalPrint (source : String)
  | loadFile (path : String)
  | setArguments (args : List String)

/-- Serves a request, whatever its answer is. -/
def Request.run : Request → Action Unit
  | evalText source => do
    let _ ← Interpreter.evalText source
    return ()
  | readEvalPrint source => do
    let _ ← Interpreter.readEvalPrint source
    return ()
  | loadFile path => do
    let _ ← Interpreter.loadFile path
    return ()
  | setArguments args => Interpreter.setArguments args

def evalRootWith (ev : Evaluator) (code : Value) : Action Value := do
  ev.eval code (← Action.root)

/-- Evaluates forms in the root frame one after another; the value is that of the last. -/
def evalFormsWith (ev : Evaluator) (last : Value) : List Value → Action Value
  | [] => return last
  | form :: rest => do
    let v ← evalRootWith ev form
    evalFormsWith ev v rest

def evalTextWith (ev : Evaluator) (source : String) : Action Value := do
  let forms ← Action.ofExcept (readAll source)
  evalFormsWith ev .nil forms

/-- What a request is answered with, if code is evaluated by the given evaluator. -/
def Request.answer (ev : Evaluator) : Request → Action Value
  | evalText source => evalTextWith ev source
  | readEvalPrint source => do
    let form ← Action.ofExcept (read source)
    let v ← evalRootWith ev form
    let text ← Action.textOf .readable v
    return .str text
  | loadFile path => do
    let source ← Action.readFile "load" path
    let _ ← evalTextWith ev source
    return .nil
  | setArguments args => do
    Interpreter.setArguments args
    return .nil

theorem evalFormsWith_evaluator (last : Value) (forms : List Value) :
    evalFormsWith (evaluator fuel) last forms = evalForms last forms := by
  induction forms generalizing last with
  | nil => rfl
  | cons form rest ih =>
    rw [evalFormsWith, evalForms]
    exact congrArg (evalValue form >>= ·) (funext ih)

theorem evalTextWith_evaluator (source : String) :
    evalTextWith (evaluator fuel) source = Interpreter.evalText source :=
  congrArg (Action.ofExcept (readAll source) >>= ·) (funext (evalFormsWith_evaluator .nil))

theorem Request.answer_loadFile (path : String) :
    (loadFile path).answer (evaluator fuel) = Interpreter.loadFile path := by
  simp only [answer, Interpreter.loadFile, evalTextWith_evaluator]

/-- To serve a request is to answer it with the plain evaluator and to forget the answer. -/
theorem Request.run_eq (request : Request) :
    request.run = request.answer (evaluator fuel) >>= fun _ => pure () := by
  cases request with
  | evalText source => rw [run, answer, evalTextWith_evaluator]
  | readEvalPrint source =>
    simp only [run, answer, Interpreter.readEvalPrint, Action.bind_assoc]
    rfl
  | loadFile path => rw [run, answer_loadFile]
  | setArguments args =>
    simp only [run, answer, Interpreter.setArguments, setRoot, Action.bind_assoc]
    rfl

section

variable {R : Machine → Machine → Prop} {gives : Pause → Prop} (hR : Stable R gives)
  {ev ev' : Evaluator} (hev : Evaluator.Tracks R gives ev ev')
include hR hev

theorem tracks_evalRootWith (code : Value) :
    Action.Tracks R gives (evalRootWith ev code) (evalRootWith ev' code) :=
  .bind (Action.tracks_root hR) fun f => hev.eval code f

theorem tracks_evalFormsWith (last : Value) (forms : List Value) :
    Action.Tracks R gives (evalFormsWith ev last forms) (evalFormsWith ev' last forms) := by
  induction forms generalizing last with
  | nil => exact .pure last
  | cons form rest ih => exact .bind (tracks_evalRootWith hR hev form) fun v => ih v

theorem tracks_evalTextWith (source : String) :
    Action.Tracks R gives (evalTextWith ev source) (evalTextWith ev' source) :=
  .bind (.ofExcept _) fun forms => tracks_evalFormsWith hR hev .nil forms

/-- Whatever two evaluators share in evaluations and calls they share in answers to requests. -/
theorem tracks_answer (request : Request) :
    Action.Tracks R gives (request.answer ev) (request.answer ev') := by
  cases request with
  | evalText source => exact tracks_evalTextWith hR hev source
  | readEvalPrint source =>
    refine .bind (.ofExcept _) fun form => .bind (tracks_evalRootWith hR hev form) fun v => ?_
    exact .bind (Action.tracks_textOf hR .readable v) fun text => .pure _
  | loadFile path =>
    refine .bind (Action.tracks_readFile hR "load" path) fun source => ?_
    exact .bind (tracks_evalTextWith hR hev source) fun _ => .pure _
  | setArguments args =>
    refine .bind (.bind (Action.tracks_root hR) fun f => ?_) fun _ => .pure _
    exact Action.tracks_define hR f "*ARGV*" _

end

/-- `Session m n`: a series of requests leads from the state `m` to the state `n`. -/
inductive Session (m : Machine) : Machine → Prop
  | start : Session m m
  | served {n n' : Machine} (request : Request) :
      Session m n → request.run n = .ok () n' → Session m n'
  | failed {n n' : Machine} {e : Error} (request : Request) :
      Session m n → request.run n = .error e n' → Session m n'
  | outside {n : Machine} (world : World) : Session m n → Session m { n with world }

/-- Text that is evaluated to a value is a request that is served. -/
theorem Session.served_text {m n n' : Machine} {source : String} {v : Value} (h : Session m n)
    (hrun : evalText source n = .ok v n') : Session m n' := by
  refine .served (.evalText source) h ?_
  rw [Request.run, Action.bind_apply, hrun]
  rfl

/-- An interpreter starts in the state of a bare one, or in one that some text has led to. -/
theorem start_cases {P : Machine → Prop} (withPrelude : Bool) (limit : Nat) (world : World)
    (hbare : P (bare limit world))
    (hok : ∀ source v m, evalText source (bare limit world) = .ok v m → P m)
    (herror : ∀ source e m, evalText source (bare limit world) = .error e m → P m) :
    P (start withPrelude limit world) := by
  -- The text of the prelude does not matter, and nothing here is to evaluate it.
  delta start
  generalize preludeText = source
  cases withPrelude with
  | false => exact hbare
  | true =>
    rw [if_pos rfl]
    cases hrun : evalText source (bare limit world) with
    | ok v m => exact hok source v m hrun
    | error e m => exact herror source e m hrun
    | paused p => exact hbare

/-- An interpreter with a prelude has served a request for it. -/
theorem session_start (withPrelude : Bool) (limit : Nat) (world : World) :
    Session (bare limit world) (start withPrelude limit world) := by
  refine start_cases withPrelude limit world .start ?_ ?_
  · exact fun source v m hrun => .served_text .start hrun
  · intro source e m hrun
    refine .failed (e := e) (.evalText source) .start ?_
    rw [Request.run, Action.bind_apply, hrun]

end Interpreter

end Lisp
