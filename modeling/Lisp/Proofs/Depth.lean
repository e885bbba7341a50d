import Lisp.Proofs.Session

/-!
# The depth of evaluation

Every evaluation and every call leaves the depth as it found it, also when it fails, and on the way
the depth never exceeds the limit, nor what it was at the start.
-/

namespace Lisp

/-! ## Watching a run -/

/-- Runs an action, and gives up with the alarm if it starts or ends in a state not allowed. -/
def Action.watched {α : Type} (allowed : Machine → Bool) (alarm : Pause) (x : Action α) :
    Action α := fun m =>
  if allowed m then
    match x m with
    | .ok a m' => if allowed m' then .ok a m' else .paused alarm
    | .error e m' => if allowed m' then .error e m' else .paused alarm
    | .paused p => .paused p
  else .paused alarm

section

variable (allowed : Machine → Bool) (alarm : Pause)

mutual

/-- Evaluates an expression and watches every evaluation and call on the way, from outside and from
within, where it is one level deeper. -/
def watchedEval : Nat → Value → FrameId → Action Value
  | 0, _, _ => Action.pause .fuel
  | fuel + 1, code, scope =>
    Action.watched allowed alarm (Action.nested (Action.watched allowed alarm
      (Evaluator.loop ⟨watchedEval fuel, watchedCall fuel⟩ fuel code scope)))

/-- Applies a function and watches every evaluation and call on the way. -/
def watchedCall : Nat → Value → List Value → Action Value
  | 0, _, _ => Action.pause .fuel
  | fuel + 1, f, args =>
    Action.watched allowed alarm
      (Evaluator.applied ⟨watchedEval fuel, watchedCall fuel⟩ f args)

end

/-- The evaluator that watches itself. It behaves like the plain one, whatever the alarm, just if
no state comes up that is not allowed. -/
def watchedEvaluator (fuel : Nat) : Evaluator :=
  ⟨watchedEval allowed alarm fuel, watchedCall allowed alarm fuel⟩

end

/-! ## Runs at a fixed depth -/

/-- One and the same state, at a given depth and with a given limit. -/
structure AtDepth (depth limit : Nat) (m n : Machine) : Prop where
  eq : m = n
  depth : m.depth = depth
  limit : m.depthLimit = limit

theorem stable_atDepth (depth limit : Nat) {gives : Pause → Prop} :
    Stable (AtDepth depth limit) gives where
  same h := h.eq ▸ ⟨rfl, rfl, rfl, rfl, rfl, rfl, rfl⟩
  define _ _ _ h := ⟨by rw [h.eq], h.depth, h.limit⟩
  enter _ h := ⟨by rw [h.eq], h.depth, h.limit⟩
  newCell _ h := ⟨by rw [h.eq], h.depth, h.limit⟩
  writeCell _ _ h := ⟨by rw [h.eq], h.depth, h.limit⟩
  newObject h := ⟨by rw [h.eq], h.depth, h.limit⟩
  print _ h := ⟨by rw [h.eq], h.depth, h.limit⟩
  input h := .inr ⟨by rw [h.eq], fun _ => ⟨by rw [h.eq], h.depth, h.limit⟩⟩

theorem Action.Tracks.watched {R : Machine → Machine → Prop} {gives : Pause → Prop} {α : Type}
    {x y : Action α} {allowed : Machine → Bool} (hallowed : ∀ m n, R m n → allowed n = true)
    (alarm : Pause) (hx : Tracks R gives x y) : Tracks R gives x (y.watched allowed alarm) := by
  intro m n h
  have hxy := hx m n h
  unfold Action.watched
  rw [if_pos (hallowed m n h)]
  generalize x m = o, y n = o' at hxy ⊢
  cases hxy with
  | ok h =>
    dsimp only
    rw [if_pos (hallowed _ _ h)]
    exact .ok h
  | error h =>
    dsimp only
    rw [if_pos (hallowed _ _ h)]
    exact .error h
  | paused => exact .paused
  | gaveUp hp => exact .gaveUp hp

/-- Runs one level deeper, where the limit allows it, give runs at the depth at hand. -/
theorem Action.Tracks.nested_atDepth {depth limit : Nat} {gives : Pause → Prop} {α : Type}
    {x y : Action α} (hx : depth < limit → Tracks (AtDepth (depth + 1) limit) gives x y) :
    Tracks (AtDepth depth limit) gives (Action.nested x) (Action.nested y) := by
  refine .nested (S := AtDepth (depth + 1) limit) ?_ ?_ ?_
  · intro m n h
    rw [h.eq]
    exact ⟨rfl, rfl⟩
  · intro m n h hlt
    rw [h.depth, h.limit] at hlt
    refine hx hlt _ _ ⟨?_, ?_, h.limit⟩
    · rw [h.eq]
    · rw [h.depth]
  · intro m n h
    refine ⟨?_, ?_, h.limit⟩
    · rw [h.eq]
    · rw [h.depth, Nat.add_sub_cancel]

/-- No evaluation is deeper than a bound that neither its start nor the limit exceeds. -/
theorem tracks_watchedEvaluator {depth limit bound : Nat} (hdepth : depth ≤ bound)
    (hlimit : limit ≤ bound) (alarm : Pause) (fuel : Nat) :
    Evaluator.Tracks (AtDepth depth limit) (fun _ => False) (evaluator fuel)
      (watchedEvaluator (fun m => decide (m.depth ≤ bound)) alarm fuel) := by
  have hallowed : ∀ {depth}, depth ≤ bound → ∀ m n, AtDepth depth limit m n →
      decide (n.depth ≤ bound) = true := by
    intro depth hdepth m n h
    rw [← h.eq, h.depth]
    exact decide_eq_true hdepth
  -- The induction is on the fuel, for all depths: an evaluation runs its parts one level deeper.
  induction fuel generalizing depth with
  | zero => exact ⟨fun _ _ => .pause .fuel, fun _ _ => .pause .fuel⟩
  | succ fuel ih =>
    constructor
    · intro code scope
      refine .watched (hallowed hdepth) alarm (.nested_atDepth fun hlt => ?_)
      -- The limit has been checked, so one level deeper is still within the bound.
      have hdeeper := Nat.le_trans hlt hlimit
      exact (Evaluator.tracks_loop (stable_atDepth (depth + 1) limit) (ih hdeeper)
        (.refl _ fuel) code scope).watched (hallowed hdeeper) alarm
    · intro f args
      exact .watched (hallowed hdepth) alarm
        (Evaluator.tracks_applied (stable_atDepth depth limit) (ih hdepth) f args)

/-- Agreement on one state is equality, and each outcome agrees with itself. -/
theorem Outcome.Agree.eq_of_atDepth {depth limit : Nat} {α : Type} {o o' : Outcome α}
    (h : o.Agree (AtDepth depth limit) (fun _ => False) o') :
    o = o' ∧ o.Agree (AtDepth depth limit) (fun _ => False) o := by
  cases h with
  | ok h =>
    cases h.eq
    exact ⟨rfl, .ok h⟩
  | error h =>
    cases h.eq
    exact ⟨rfl, .error h⟩
  | paused => exact ⟨rfl, .paused⟩
  | gaveUp hp => exact hp.elim

theorem tracks_evaluator (depth limit fuel : Nat) :
    Evaluator.Tracks (AtDepth depth limit) (fun _ => False) (evaluator fuel) (evaluator fuel) := by
  have h := tracks_watchedEvaluator (Nat.le_max_left depth limit) (Nat.le_max_right depth limit)
    .fuel fuel
  constructor
  · intro code scope m n hmn
    cases hmn.eq
    exact (h.eval code scope m m hmn).eq_of_atDepth.2
  · intro f args m n hmn
    cases hmn.eq
    exact (h.call f args m m hmn).eq_of_atDepth.2

/-! ## What a run does to the depth -/

/-- The outcome, unless it is a pause, is reached in a state with the property. -/
def Outcome.Ends {α : Type} (property : Machine → Prop) : Outcome α → Prop
  | .ok _ m => property m
  | .error _ m => property m
  | .paused _ => True

theorem Outcome.exists_eq_ok {α : Type} {o : Outcome α} (h : (o matches .ok _ _) = true) :
    ∃ a m, o = .ok a m := by
  cases o with
  | ok a m => exact ⟨a, m, rfl⟩
  | error e m => cases h
  | paused p => cases h

/-- The outcome is a value in a state with the property. -/
def Outcome.okWith {α : Type} (check : α → Machine → Bool) : Outcome α → Bool
  | .ok a m => check a m
  | _ => false

theorem Outcome.exists_of_okWith {α : Type} (check : α → Machine → Bool) {o : Outcome α}
    (h : o.okWith check = true) : ∃ a m, o = .ok a m ∧ check a m = true := by
  cases o with
  | ok a m => exact ⟨a, m, rfl, h⟩
  | error e m => cases h
  | paused p => cases h

/-- The outcome is an error in a state with the property. -/
def Outcome.errorWith {α : Type} (check : Error → Machine → Bool) : Outcome α → Bool
  | .error e m => check e m
  | _ => false

theorem Outcome.exists_of_errorWith {α : Type} (check : Error → Machine → Bool) {o : Outcome α}
    (h : o.errorWith check = true) : ∃ e m, o = .error e m ∧ check e m = true := by
  cases o with
  | ok a m => cases h
  | error e m => exact ⟨e, m, rfl, h⟩
  | paused p => cases h

/-- A run that uses an evaluator ends at the depth at which it starts, and if all the evaluations
and calls in it are watched, none of them is found deeper than the start or the limit, whichever is
more. -/
def KeepsDepth {α : Type} (fuel : Nat) (run : Evaluator → Action α) : Prop :=
  ∀ m alarm, (run (evaluator fuel) m).Ends (fun m' => m'.depth = m.depth) ∧
    run (watchedEvaluator (fun m' => decide (m'.depth ≤ max m.depth m.depthLimit)) alarm fuel) m =
      run (evaluator fuel) m

theorem Outcome.Ends.imp {α : Type} {P Q : Machine → Prop} {o : Outcome α} (h : o.Ends P)
    (hPQ : ∀ m, P m → Q m) : o.Ends Q := by
  cases o with
  | ok a m => exact hPQ m h
  | error e m => exact hPQ m h
  | paused p => trivial

theorem ends_atDepth {depth limit : Nat} {α : Type} {o o' : Outcome α}
    (h : o.Agree (AtDepth depth limit) (fun _ => False) o') :
    o.Ends fun m => m.depth = depth ∧ m.depthLimit = limit := by
  cases h with
  | ok h => exact ⟨h.depth, h.limit⟩
  | error h => exact ⟨h.depth, h.limit⟩
  | paused => trivial
  | gaveUp hp => exact hp.elim

theorem ends_depth {depth limit : Nat} {α : Type} {o o' : Outcome α}
    (h : o.Agree (AtDepth depth limit) (fun _ => False) o') :
    o.Ends fun m => m.depth = depth :=
  (ends_atDepth h).imp fun _ => And.left

/-- It is enough that the run tracks itself under any two evaluators of which one tracks the
other. -/
theorem keepsDepth_of_tracks {α : Type} {fuel : Nat} {run : Evaluator → Action α}
    (h : ∀ depth limit ev ev', Evaluator.Tracks (AtDepth depth limit) (fun _ => False) ev ev' →
      Action.Tracks (AtDepth depth limit) (fun _ => False) (run ev) (run ev')) :
    KeepsDepth fuel run := by
  intro m alarm
  have hev := tracks_watchedEvaluator (Nat.le_max_left m.depth m.depthLimit)
    (Nat.le_max_right m.depth m.depthLimit) alarm fuel
  have hagree := h _ _ _ _ hev m m ⟨rfl, rfl, rfl⟩
  exact ⟨ends_depth hagree, hagree.eq_of_atDepth.1.symm⟩

/-! ## Sessions -/

namespace Interpreter

theorem tracks_request (depth limit : Nat) (request : Request) :
    Action.Tracks (AtDepth depth limit) (fun _ => False) request.run request.run := by
  rw [request.run_eq]
  exact .bind (tracks_answer (stable_atDepth depth limit) (tracks_evaluator depth limit fuel)
    request)
    fun _ => .pure ()

theorem Session.depth_eq {m n : Machine} (h : Session m n) : n.depth = m.depth := by
  induction h with
  | start => rfl
  | @served n n' request _ hrun ih =>
    have hends := ends_depth (tracks_request _ _ request n n ⟨rfl, rfl, rfl⟩)
    rw [hrun] at hends
    exact hends.trans ih
  | @failed n n' e request _ hrun ih =>
    have hends := ends_depth (tracks_request _ _ request n n ⟨rfl, rfl, rfl⟩)
    rw [hrun] at hends
    exact hends.trans ih
  | outside world _ ih => exact ih

end Interpreter

/-- Evaluations, calls, expansions of macros and builtin functions all keep the depth, however they
end, so that an interpreter is back at depth zero after every request. -/
theorem evaluation_keeps_depth :
    (∀ fuel code scope, KeepsDepth fuel fun ev => ev.eval code scope) ∧
    (∀ fuel f args, KeepsDepth fuel fun ev => ev.call f args) ∧
    (∀ fuel form scope, KeepsDepth fuel fun ev => ev.expand fuel form scope) ∧
    (∀ fuel b args, KeepsDepth fuel fun ev => Builtin.run ev b args) ∧
    ∀ withPrelude limit world m,
      Interpreter.Session (Interpreter.start withPrelude limit world) m → m.depth = 0 := by
  refine ⟨fun fuel code scope => ?_, fun fuel f args => ?_, fun fuel form scope => ?_,
    fun fuel b args => ?_, fun withPrelude limit world m h => ?_⟩
  · exact keepsDepth_of_tracks fun _ _ _ _ hev => hev.eval code scope
  · exact keepsDepth_of_tracks fun _ _ _ _ hev => hev.call f args
  · exact keepsDepth_of_tracks fun depth limit _ _ hev =>
      Evaluator.tracks_expand (stable_atDepth depth limit) hev (.refl _ fuel) form scope
  · exact keepsDepth_of_tracks fun depth limit _ _ hev =>
      Builtin.tracks_run (stable_atDepth depth limit) hev b args
  · exact h.depth_eq.trans (Interpreter.session_start withPrelude limit world).depth_eq

open Interpreter in
/-- Where two levels are allowed a third one fails, caught or not, and leaves no depth behind. -/
theorem evaluation_keeps_depth_past_limit :
    (Request.evalText "(if (if (if nil nil) nil) nil)").run (start false 2 {}) =
      .error (.eval .recursionLimit) (start false 2 {}) ∧
    ∃ n, (Request.readEvalPrint "(try* (if (if nil nil) nil) (catch* e e))").run
      (start false 2 {}) = .ok () n ∧ n.depth = 0 := by
  have hfailed : (Request.evalText "(if (if (if nil nil) nil) nil)").run (start false 2 {}) =
      .error (.eval .recursionLimit) (start false 2 {}) := by rfl
  obtain ⟨_, n, hserved⟩ := Outcome.exists_eq_ok (o := (Request.readEvalPrint
    "(try* (if (if nil nil) nil) (catch* e e))").run (start false 2 {})) (by decide +kernel)
  have hsession : Session (start false 2 {}) n := .served _ (.failed _ .start hfailed) hserved
  exact ⟨hfailed, n, hserved, evaluation_keeps_depth.2.2.2.2 false 2 {} n hsession⟩

end Lisp
