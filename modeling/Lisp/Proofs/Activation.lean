import Lisp.Proofs.Depth

/-!
# Calls in progress

Builtin functions call functions: `map`, `apply` and `swap!` do so through the evaluator, and what
they call may call again. An evaluator that keeps a tally of the calls in progress, and looks at it
whenever a function is called, says how deep such calls nest. A call of a closure evaluates a body,
so there are never more of these in progress than there are levels of evaluation, and the recursion
limit bounds them. A builtin function that is called by another is on no level of its own, and
builtin functions that call one another nest as deep as the lists they are given
(`builtin_calls_nest_freely`).
-/

namespace Lisp

/-! ## A tally of calls -/

section

variable (counts : Value → Bool) (allowed : Nat → Machine → Bool) (alarm : Pause)

mutual

/-- Evaluates an expression while so many calls that count are in progress. -/
def talliedEval : Nat → Nat → Value → FrameId → Action Value
  | 0, _, _, _ => Action.pause .fuel
  | fuel + 1, active, code, scope =>
    Action.nested (Evaluator.loop ⟨talliedEval fuel active, talliedCall fuel active⟩
      fuel code scope)

/-- Applies a function, or gives up with the alarm if so many calls in progress are not allowed.
While it is applied the call is in progress too. -/
def talliedCall : Nat → Nat → Value → List Value → Action Value
  | 0, _, _, _ => Action.pause .fuel
  | fuel + 1, active, f, args => fun m =>
    if allowed active m then
      let active' := if counts f then active + 1 else active
      Evaluator.applied ⟨talliedEval fuel active', talliedCall fuel active'⟩ f args m
    else .paused alarm

end

/-- The evaluator that keeps a tally. -/
def talliedEvaluator (fuel active : Nat) : Evaluator :=
  ⟨talliedEval counts allowed alarm fuel active, talliedCall counts allowed alarm fuel active⟩

end

theorem talliedCall_succ {counts : Value → Bool} {allowed : Nat → Machine → Bool} {alarm : Pause}
    {active : Nat} {m : Machine} (h : allowed active m = true) (fuel : Nat) (f : Value)
    (args : List Value) :
    talliedCall counts allowed alarm (fuel + 1) active f args m =
      (talliedEvaluator counts allowed alarm fuel
        (if counts f then active + 1 else active)).applied f args m :=
  if_pos h

/-- Whenever a function is called in the run, the calls in progress that count are as many as
allowed: an evaluator that keeps a tally behaves like the plain one, whatever the alarm. -/
def CallsAllowed {α : Type} (counts : Value → Bool) (allowed : Nat → Machine → Bool) (fuel : Nat)
    (run : Evaluator → Action α) (m : Machine) : Prop :=
  ∀ alarm, run (talliedEvaluator counts allowed alarm fuel 0) m = run (evaluator fuel) m

/-! ## Calls of closures -/

def Value.isClosure : Value → Bool
  | .closure _ _ _ _ => true
  | _ => false

/-- No more calls are in progress than there are levels of evaluation, and no more levels than the
limit allows. -/
def withinLevels (active : Nat) (m : Machine) : Bool :=
  decide (active ≤ m.depth ∧ m.depth ≤ m.depthLimit)

/-- The body of a closure is all that a call of it evaluates. -/
theorem Evaluator.applied_closure (ev : Evaluator) (params : List Value) (body : Value)
    (scope : FrameId) (isMacro : Bool) (args : List Value) :
    ev.applied (.closure params body scope isMacro) args =
      Action.enterCall scope params args >>= fun frame => ev.eval body frame := by
  rw [applied, Step.apply, Action.bind_assoc]
  rfl

/-- The evaluator that keeps a tally of the calls of closures does not give up. -/
theorem tracks_tallied (alarm : Pause) (limit fuel : Nat) :
    (∀ {depth active : Nat}, active ≤ depth + 1 → ∀ code scope,
      Action.Tracks (AtDepth depth limit) (fun _ => False) (eval fuel code scope)
        (talliedEval Value.isClosure withinLevels alarm fuel active code scope)) ∧
    ∀ {depth active : Nat}, active ≤ depth → depth ≤ limit → ∀ f args,
      Action.Tracks (AtDepth depth limit) (fun _ => False) (call fuel f args)
        (talliedCall Value.isClosure withinLevels alarm fuel active f args) := by
  -- An evaluation adds a level, so one call more than there are levels may be in progress before
  -- it.
  induction fuel with
  | zero => exact ⟨fun _ _ _ => .pause .fuel, fun _ _ _ _ => .pause .fuel⟩
  | succ fuel ih =>
    obtain ⟨iheval, ihcall⟩ := ih
    have hev : ∀ {depth active : Nat}, active ≤ depth → depth ≤ limit →
        Evaluator.Tracks (AtDepth depth limit) (fun _ => False) (evaluator fuel)
          (talliedEvaluator Value.isClosure withinLevels alarm fuel active) := fun hactive hdepth =>
      ⟨iheval (Nat.le_succ_of_le hactive), ihcall hactive hdepth⟩
    constructor
    · intro depth active hactive code scope
      refine .nested_atDepth fun hlt => ?_
      exact Evaluator.tracks_loop (stable_atDepth _ limit) (hev hactive hlt) (.refl _ fuel)
        code scope
    · intro depth active hactive hdepth f args m n h
      have hlevels : withinLevels active n = true := by
        rw [withinLevels, ← h.eq, h.depth, h.limit]
        exact decide_eq_true ⟨hactive, hdepth⟩
      have hR : Stable (AtDepth depth limit) fun _ => False := stable_atDepth depth limit
      rw [talliedCall_succ hlevels]
      show Outcome.Agree _ _ ((evaluator fuel).applied f args m) _
      cases f with
      | closure params body scope isMacro =>
        rw [Evaluator.applied_closure, Evaluator.applied_closure]
        have hbody := iheval (Nat.succ_le_succ hactive) body
        exact (Action.Tracks.bind (Action.tracks_enterCall hR scope params args) hbody) m n h
      | _ => exact Evaluator.tracks_applied hR (hev hactive hdepth) _ args m n h

open Interpreter in
/-- In every run that answers a request, whenever a function is called, no more calls of closures
are in progress than there are levels of evaluation, and no more levels than the recursion limit
allows. -/
theorem closure_calls_within_levels {withPrelude : Bool} {limit : Nat} {world : World} {m : Machine}
    (h : Session (start withPrelude limit world) m) (request : Request) (fuel : Nat) :
    CallsAllowed Value.isClosure withinLevels fuel request.answer m := by
  intro alarm
  have hdepth : m.depth = 0 := h.depth_eq.trans (session_start withPrelude limit world).depth_eq
  obtain ⟨heval, hcall⟩ := tracks_tallied alarm m.depthLimit fuel
  have hev : Evaluator.Tracks (AtDepth 0 m.depthLimit) (fun _ => False) (evaluator fuel)
      (talliedEvaluator Value.isClosure withinLevels alarm fuel 0) :=
    ⟨heval (Nat.zero_le 1), hcall (Nat.le_refl 0) (Nat.zero_le _)⟩
  have hagree := tracks_answer (stable_atDepth 0 m.depthLimit) hev request m m ⟨rfl, hdepth, rfl⟩
  exact hagree.eq_of_atDepth.1.symm

open Interpreter in
/-- A closure that `map` calls makes `apply` call another one, under a limit of four. -/
theorem closure_calls_within_levels_nested :
    let request := Request.evalText "(map (fn* (f) (apply f (list 7))) (list (fn* (x) x)))"
    (∃ n, request.answer (evaluator fuel) (start false 4 {}) =
      .ok (.list (some 4) [.int 7]) n) ∧
    CallsAllowed Value.isClosure withinLevels fuel request.answer (start false 4 {}) := by
  intro request
  obtain ⟨v, n, hrun, hv⟩ := Outcome.exists_of_okWith
    (fun (v : Value) _ => decide (v = .list (some 4) [.int 7]))
    (o := request.answer (evaluator fuel) (start false 4 {})) (by decide +kernel)
  cases of_decide_eq_true hv
  exact ⟨⟨n, hrun⟩, closure_calls_within_levels .start request fuel⟩

/-! ## Calls of builtin functions -/

/-- The value `apply` is bound to at the start. -/
def applyFunction : Value := .builtin (.control .apply)

theorem Evaluator.applied_apply (ev : Evaluator) (f : Value) (id : ObjectId) (args : List Value)
    (m : Machine) : ev.applied applyFunction [f, .list id args] m = ev.call f args m := by
  have hspread : ControlOp.spread (.list id args) [] = .ok args := rfl
  simp only [applied, applyFunction, Step.apply, Builtin.run, ControlOp.run, Action.bind_apply,
    hspread, Action.ofExcept, Action.pure]
  cases ev.call f args m <;> rfl

/-- Arguments on which `apply` calls itself so many times, and then `+`. -/
def selfApplied : Nat → List Value
  | 0 => [.builtin (.arithmetic .add), .list none []]
  | n + 1 => [applyFunction, .list none (selfApplied n)]

theorem talliedCall_selfApplied (bound n : Nat) (m : Machine) (alarm : Pause) {active : Nat}
    (hactive : active + n = bound) :
    talliedCall (fun _ => true) (fun active _ => decide (active ≤ bound)) alarm (n + 2) active
      applyFunction (selfApplied n) m = .paused alarm := by
  induction n generalizing active with
  | zero =>
    rw [talliedCall_succ (decide_eq_true (by omega)), selfApplied, Evaluator.applied_apply]
    exact if_neg (by simp; omega)
  | succ n ih =>
    rw [talliedCall_succ (decide_eq_true (by omega)), selfApplied, Evaluator.applied_apply]
    exact ih (by simp; omega)

/-- Whatever the depth and the limit, `apply` calls itself as often as its arguments tell it to, and
that many calls are in progress at once. -/
theorem builtin_calls_nest_freely (n : Nat) (m : Machine) :
    call (n + 2) applyFunction (selfApplied n) m = .ok (.int 0) m ∧
    ∀ alarm, talliedCall (fun _ => true) (fun active _ => decide (active ≤ n)) alarm (n + 2) 0
      applyFunction (selfApplied n) m = .paused alarm := by
  refine ⟨?_, fun alarm => talliedCall_selfApplied n n m alarm (Nat.zero_add n)⟩
  induction n with
  | zero => exact Evaluator.applied_apply _ _ _ _ m
  | succ n ih => exact (Evaluator.applied_apply _ _ _ _ m).trans ih

open Interpreter in
/-- A list that `build` makes, without going deep, has `apply` call itself again and again. With the
limit at four this comes to an end, but more calls are in progress than there are levels. -/
theorem builtin_calls_exceed_levels :
    let build := Request.evalText
      "(def! build (fn* (n a) (if (= n 0) a (build (- n 1) (list apply a)))))"
    let request := Request.evalText "(apply apply (build 9 (list + ())))"
    ∃ m, build.run (start false 4 {}) = .ok () m ∧
      (∃ n, request.answer (evaluator fuel) m = .ok (.int 0) n) ∧
      ¬ CallsAllowed (fun _ => true) (fun active n => decide (active ≤ n.depth)) fuel
        request.answer m := by
  intro build request
  obtain ⟨_, m, hbuild, hm⟩ := Outcome.exists_of_okWith
    (fun _ m => (request.answer (evaluator fuel) m).okWith
      (fun (v : Value) _ => decide (v = .int 0)) &&
      !(request.answer (talliedEvaluator (fun _ => true) (fun active n => decide (active ≤ n.depth))
        .fuel fuel 0) m).okWith fun _ _ => true)
    (o := build.run (start false 4 {})) (by decide +kernel)
  obtain ⟨hplain, htallied⟩ := Bool.and_eq_true_iff.mp hm
  obtain ⟨v, n, hrun, hv⟩ := Outcome.exists_of_okWith _ hplain
  cases of_decide_eq_true hv
  refine ⟨m, hbuild, ⟨n, hrun⟩, fun h => ?_⟩
  have heq : request.answer (talliedEvaluator (fun _ => true)
      (fun active n => decide (active ≤ n.depth)) .fuel fuel 0) m = .ok (.int 0) n :=
    (h .fuel).trans hrun
  rw [heq] at htallied
  cases htallied

end Lisp
