import Lisp.Interpreter
import Lisp.Proofs.Equality
import Lisp.Proofs.Limit

/-!
# Direct and callback application

A function is applied in two ways: by evaluating a form that has it for a head, where the body of a
closure takes the place of the form, and by a call from a builtin function, where the body is
evaluated by itself. Both come to the same outcome, in the same state. Up to the body the form runs
one level deeper than the call does, so the run of the call follows that of the form as long as this
does not meet the limit; and the body runs at one and the same depth.
-/

namespace Lisp

/-! ## One level deeper -/

/-- The first state is the second one, a level deeper. -/
structure OneDeeper (depth limit : Nat) (m n : Machine) : Prop where
  eq : m = n.toDepth (depth + 1)
  depth : n.depth = depth
  limit : n.depthLimit = limit

theorem stable_oneDeeper (depth limit : Nat) {gives : Pause → Prop} :
    Stable (OneDeeper depth limit) gives where
  same h := h.eq ▸ ⟨rfl, rfl, rfl, rfl, rfl, rfl, rfl⟩
  define _ _ _ h := ⟨by rw [h.eq]; rfl, h.depth, h.limit⟩
  enter _ h := ⟨by rw [h.eq]; rfl, h.depth, h.limit⟩
  newCell _ h := ⟨by rw [h.eq]; rfl, h.depth, h.limit⟩
  writeCell _ _ h := ⟨by rw [h.eq]; rfl, h.depth, h.limit⟩
  newObject h := ⟨by rw [h.eq]; rfl, h.depth, h.limit⟩
  print _ h := ⟨by rw [h.eq]; rfl, h.depth, h.limit⟩
  input h := .inr ⟨by rw [h.eq]; rfl, fun _ => ⟨by rw [h.eq]; rfl, h.depth, h.limit⟩⟩

theorem OneDeeper.toDepth_eq {depth limit : Nat} {m n : Machine} (h : OneDeeper depth limit m n) :
    m.toDepth (m.depth - 1) = n := by
  rw [h.eq]
  show n.toDepth depth = n
  rw [← h.depth]
  rfl

theorem OneDeeper.leave {depth limit : Nat} {m n : Machine} (h : OneDeeper (depth + 1) limit m n) :
    OneDeeper depth limit (m.toDepth (m.depth - 1)) (n.toDepth (n.depth - 1)) := by
  refine ⟨?_, ?_, h.limit⟩
  · rw [h.eq]
    rfl
  · show n.depth - 1 = depth
    rw [h.depth]
    rfl

/-- The deeper of two runs meets the limit first. -/
theorem tracks_oneDeeper (alarm : Pause) (fuel depth limit : Nat) :
    Evaluator.Tracks (OneDeeper depth limit) (· = alarm) (boundedEvaluator alarm fuel)
      (evaluator fuel) := by
  induction fuel generalizing depth with
  | zero => exact ⟨fun _ _ => .pause .fuel, fun _ _ => .pause .fuel⟩
  | succ fuel ih =>
    constructor
    · intro code scope m n h
      have hloop := Evaluator.tracks_loop (stable_oneDeeper (depth + 1) limit) (ih (depth + 1))
        (.refl _ fuel) code scope
      have hdepth : m.depth = depth + 1 := by rw [h.eq]; rfl
      have hlimit : m.depthLimit = limit := by rw [h.eq]; exact h.limit
      show Outcome.Agree _ _ (Action.nestedWithin alarm _ m) (Action.nested _ n)
      by_cases hroom : depth + 1 < limit
      · have hroom' : n.depth < n.depthLimit := by
          rw [h.depth, h.limit]
          exact Nat.lt_of_succ_lt hroom
        rw [Action.nestedWithin_of_lt _ (by rwa [hdepth, hlimit]), Action.nested_of_lt _ hroom']
        refine (hloop (m.toDepth (m.depth + 1)) (n.toDepth (n.depth + 1)) ⟨?_, ?_, h.limit⟩).leave
          OneDeeper.leave
        · rw [h.eq]
          rfl
        · rw [h.depth]
          rfl
      · have hfull : m.depthLimit ≤ m.depth := by
          rw [hdepth, hlimit]
          exact Nat.le_of_not_lt hroom
        rw [Action.nestedWithin_of_le _ hfull]
        exact .gaveUp rfl
    · exact fun f args =>
        Evaluator.tracks_applied (stable_oneDeeper depth limit) (ih depth) f args

/-! ## Forms of functions and quoted arguments -/

/-- The operands quote the arguments, one by one. -/
def Quote (operands args : List Value) : Prop :=
  List.Forall₂ (fun code v => ∃ id, code = .list id [.sym "quote", v]) operands args

/-- Applies a function, and runs the body of a closure for so many rounds, one level deeper. -/
def Evaluator.appliedFor (ev : Evaluator) (rounds : Nat) (f : Value) (args : List Value) :
    Action Value := do
  match ← Step.apply ev args f with
  | .done v => return v
  | .tail body frame => Action.nested (ev.loop rounds body frame)

section

variable {alarm : Pause} {fuel : Nat} {scope : FrameId} {m : Machine}

theorem boundedEval_procedure {f : Value} (hfuel : 3 ≤ fuel) (hroom : m.depth < m.depthLimit)
    (hf : f.isProcedure = true) : boundedEval alarm fuel f scope m = .ok f m := by
  refine boundedEval_data hfuel hroom ?_ fun ev depth => ?_
  · rintro id head operands rfl
    cases hf
  · cases f with
    | builtin b => rfl
    | host name id => rfl
    | closure params body inner isMacro => rfl
    | _ => cases hf

theorem boundedEval_quote {id : ObjectId} {v : Value} (hfuel : 3 ≤ fuel)
    (hroom : m.depth < m.depthLimit) (hquote : m.frames.bindsMacro scope "quote" = false) :
    boundedEval alarm fuel (.list id [.sym "quote", v]) scope m = .ok v m := by
  obtain ⟨k, rfl⟩ := Nat.exists_eq_add_of_le' hfuel
  exact boundedEval_of_loop (r := .ok v) hroom (Evaluator.loop_plain (macroCall?_eq_none hquote))

theorem evalAll_quote (hfuel : 3 ≤ fuel) (hroom : m.depth < m.depthLimit)
    (hquote : m.frames.bindsMacro scope "quote" = false) {operands args : List Value}
    (h : Quote operands args) :
    Step.evalAll (boundedEvaluator alarm fuel) scope operands m = .ok args m := by
  refine Step.evalAll_eq (h.imp ?_)
  rintro _ v ⟨id, rfl⟩
  exact boundedEval_quote hfuel hroom hquote

/-- The function's step and what follows it, seen from one level up. -/
theorem leave_apply_eq {rounds : Nat} {f : Value} {args : List Value}
    (hroom : m.depth < m.depthLimit)
    (halarm : ((Step.apply (boundedEvaluator alarm fuel) args f >>=
      (boundedEvaluator alarm fuel).proceed rounds) (m.toDepth (m.depth + 1))).leave ≠
        .paused alarm) :
    ((Step.apply (boundedEvaluator alarm fuel) args f >>=
      (boundedEvaluator alarm fuel).proceed rounds) (m.toDepth (m.depth + 1))).leave =
      (evaluator fuel).appliedFor rounds f args m := by
  have hagree := Step.tracks_apply (stable_oneDeeper m.depth m.depthLimit)
    (tracks_oneDeeper alarm fuel m.depth m.depthLimit) args f _ m ⟨rfl, rfl, rfl⟩
  rw [Evaluator.appliedFor, Action.bind_apply]
  rw [Action.bind_apply] at halarm ⊢
  generalize Step.apply _ _ _ (m.toDepth _) = o, Step.apply _ _ _ m = o' at hagree halarm ⊢
  cases hagree with
  | @ok step n n' h =>
    cases step with
    | done v => exact congrArg (Outcome.ok v) h.toDepth_eq
    | tail body frame =>
      have hloop := Evaluator.tracks_loop stable_eq (tracks_boundedEvaluator alarm fuel)
        (.refl _ rounds) body frame n n rfl
      have hne : (boundedEvaluator alarm fuel).loop rounds body frame n ≠ .paused alarm := fun hp =>
        halarm (congrArg Outcome.leave hp)
      have hroom' : n'.depth < n'.depthLimit := by
        rw [h.depth, h.limit]
        exact hroom
      show ((boundedEvaluator alarm fuel).loop rounds body frame n).leave =
        Action.nested ((evaluator fuel).loop rounds body frame) n'
      rw [Action.nested_of_lt _ hroom', h.depth, ← h.eq, hloop.eq_of_ne_paused hne]
  | error h => exact congrArg (Outcome.error _) h.toDepth_eq
  | paused => rfl
  | gaveUp hp => exact absurd (congrArg Outcome.paused hp) halarm

/-- The form takes two levels to begin with, and goes on as the function's step does. The frame in
which it is evaluated makes no difference. -/
theorem boundedEval_form {id : ObjectId} {f : Value} {operands args : List Value}
    (hf : f.isProcedure = true) (hargs : Quote operands args)
    (hquote : m.frames.bindsMacro scope "quote" = false) :
    boundedEval alarm (fuel + 4) (.list id (f :: operands)) scope m =
      if m.depth + 1 < m.depthLimit then
        ((Step.apply (boundedEvaluator alarm (fuel + 3)) args f >>=
          (boundedEvaluator alarm (fuel + 3)).proceed (fuel + 2)) (m.toDepth (m.depth + 1))).leave
      else .paused alarm := by
  have hplain : Evaluator.macroCall? m.frames scope (.list id (f :: operands)) = none := by
    cases f with
    | sym name => cases hf
    | _ => rfl
  have hhead : f.sym?.bind SpecialForm.ofName? = none := by
    cases f with
    | sym name => cases hf
    | _ => rfl
  show Action.nestedWithin alarm ((boundedEvaluator alarm (fuel + 3)).loop (fuel + 3)
    (.list id (f :: operands)) scope) m = _
  split
  · next hroom =>
    rw [Action.nestedWithin_of_lt _ (Nat.lt_of_succ_lt hroom)]
    exact congrArg Outcome.leave (Evaluator.loop_call hplain hhead
      (boundedEval_procedure (Nat.le_add_left 3 fuel) hroom hf)
      (evalAll_quote (m := m.toDepth (m.depth + 1)) (Nat.le_add_left 3 fuel) hroom hquote hargs))
  · next hfull =>
    by_cases hroom : m.depth < m.depthLimit
    · -- There is room for the form, but not for its head.
      have hpaused : boundedEval alarm (fuel + 3) f scope (m.toDepth (m.depth + 1)) =
          .paused alarm :=
        Action.nestedWithin_of_le _ (Nat.le_of_not_lt hfull)
      rw [Action.nestedWithin_of_lt _ hroom,
        Evaluator.loop_plain (m := m.toDepth (m.depth + 1)) hplain, Step.ofForm, hhead]
      simp only [Step.callForm, Action.bind_apply, boundedEvaluator, hpaused]
      rfl
    · exact Action.nestedWithin_of_le _ (Nat.le_of_not_lt hroom)

/-- Within the limit the form comes to what the function's step leads to. -/
theorem eval_eq_appliedFor {id : ObjectId} {f : Value} {operands args : List Value}
    (hf : f.isProcedure = true) (hargs : Quote operands args)
    (hquote : m.frames.bindsMacro scope "quote" = false)
    (halarm : boundedEval alarm (fuel + 4) (.list id (f :: operands)) scope m ≠ .paused alarm) :
    eval (fuel + 4) (.list id (f :: operands)) scope m =
      (evaluator (fuel + 3)).appliedFor (fuel + 2) f args m := by
  rw [eval_eq_boundedEval halarm]
  rw [boundedEval_form hf hargs hquote] at halarm ⊢
  split at halarm
  · next hroom =>
    rw [if_pos hroom]
    exact leave_apply_eq (Nat.lt_of_succ_lt hroom) halarm
  · exact absurd rfl halarm

end

/-! ## Calls -/

section

variable {fuel fuel' : Nat} {f : Value} {args : List Value} {m : Machine}

theorem call_of_le (hle : fuel ≤ fuel') (ho : call fuel f args m ≠ .paused .fuel) :
    call fuel' f args m = call fuel f args m :=
  ((tracks_evaluator_of_le hle).call f args m m rfl).eq_of_ne_fuel ho

/-- A call goes on where the body of a closure runs out of rounds. -/
theorem call_eq_appliedFor
    (ho : (evaluator (fuel + 1)).appliedFor fuel f args m ≠ .paused .fuel) :
    call (fuel + 3) f args m = (evaluator (fuel + 1)).appliedFor fuel f args m := by
  have hev := tracks_evaluator_of_le (Nat.le_add_right (fuel + 1) 1)
  have htracks : Action.Tracks Eq (· = .fuel) ((evaluator (fuel + 1)).appliedFor fuel f args)
      (call (fuel + 3) f args) := by
    refine .bind (Step.tracks_apply stable_eq hev args f) fun step => ?_
    cases step with
    | done v => exact .pure v
    | tail body frame =>
      have hloop := Evaluator.tracks_loop stable_eq
        (tracks_evaluator_of_le (Nat.le_refl (fuel + 1))) (Or.inr ⟨rfl, Nat.le_add_right fuel 1⟩)
        body frame
      exact hloop.nested_eq
  exact (htracks m m rfl).eq_of_ne_fuel ho

/-- A call that comes to an end leaves rounds for the body of a closure. -/
theorem appliedFor_eq_call (ho : call (fuel + 2) f args m ≠ .paused .fuel) :
    (evaluator (fuel + 1)).appliedFor fuel f args m = call (fuel + 2) f args m := by
  have hev := tracks_evaluator_of_le (Nat.le_refl (fuel + 1))
  have htracks : Action.Tracks Eq (· = .fuel) (call (fuel + 2) f args)
      ((evaluator (fuel + 1)).appliedFor fuel f args) := by
    refine .bind (Step.tracks_apply stable_eq hev args f) fun step => ?_
    cases step with
    | done v => exact .pure v
    | tail body frame =>
      have hloop := Evaluator.tracks_loop stable_eq
        (tracks_evaluator_of_le (Nat.le_add_right fuel 1)) (.refl _ fuel) body frame
      exact hloop.nested_eq
  exact (htracks m m rfl).eq_of_ne_fuel ho

end

/-- A form that has a function for its head and quoted arguments for its operands comes to the same
outcome, in the same state, as a call of the function with the arguments, unless it meets the
recursion limit. In which frame it is evaluated makes no difference, if only `quote` is no macro
there. -/
theorem eval_form_iff_call {id : ObjectId} {f : Value} {operands args : List Value}
    (hf : f.isProcedure = true) (hargs : Quote operands args) {m : Machine} {scope : FrameId}
    (hquote : m.frames.bindsMacro scope "quote" = false)
    (hlimit : ∀ fuel, WithinLimit fuel (fun ev => ev.eval (.list id (f :: operands)) scope) m) :
    ∀ scope', m.frames.bindsMacro scope' "quote" = false → ∀ o, o ≠ .paused .fuel →
      ((∃ fuel, eval fuel (.list id (f :: operands)) scope' m = o) ↔
        ∃ fuel, call fuel f args m = o) := by
  intro scope' hquote' o ho
  have hform : ∀ fuel, eval (fuel + 4) (.list id (f :: operands)) scope' m =
      (evaluator (fuel + 3)).appliedFor (fuel + 2) f args m := by
    intro fuel
    obtain ⟨alarm, halarm⟩ := hlimit (fuel + 4)
    have halarm' : boundedEval alarm (fuel + 4) (.list id (f :: operands)) scope' m ≠
        .paused alarm := by
      rw [boundedEval_form hf hargs hquote', ← boundedEval_form hf hargs hquote]
      exact halarm
    exact eval_eq_appliedFor hf hargs hquote' halarm'
  constructor
  · rintro ⟨fuel, rfl⟩
    have hmore := eval_of_le (Nat.le_add_right fuel 4) ho
    rw [← hmore, hform] at ho ⊢
    exact ⟨fuel + 5, call_eq_appliedFor ho⟩
  · rintro ⟨fuel, rfl⟩
    have hmore := call_of_le (Nat.le_add_right fuel 4) ho
    rw [← hmore] at ho ⊢
    exact ⟨fuel + 4, (hform fuel).trans (appliedFor_eq_call ho)⟩

open Interpreter in
/-- A macro that adds its first operand to a cell, applied in a frame that binds `x` otherwise than
the call does. -/
theorem eval_form_iff_call_macro :
    let f : Value := .closure [.sym "x", .sym "&", .sym "rest"]
      (.list none [.sym "swap!", .atom 0, .sym "+", .sym "x"]) 0 true
    let operands : List Value :=
      [.list none [.sym "quote", .int 2], .list none [.sym "quote", .sym "y"]]
    let m : Machine := { bare 3 {} with
      frames := #[⟨rootBindings, none⟩, ⟨[("x", .int 9)], some 0⟩], cells := #[.int 1] }
    ∃ n, n.cells = #[.int 3] ∧ (∃ fuel, call fuel f [.int 2, .sym "y"] m = .ok (.int 3) n) ∧
      ∃ fuel, eval fuel (.list none (f :: operands)) 1 m = .ok (.int 3) n := by
  intro f operands m
  have hargs : Quote operands [.int 2, .sym "y"] := .cons ⟨none, rfl⟩ (.cons ⟨none, rfl⟩ .nil)
  obtain ⟨v, n, hcall, hn⟩ := Outcome.exists_of_okWith
    (fun (v : Value) n => decide (v = .int 3 ∧ n.cells = #[.int 3]))
    (o := call 9 f [.int 2, .sym "y"] m) (by decide +kernel)
  obtain ⟨rfl, hcells⟩ := of_decide_eq_true hn
  obtain ⟨_, _, hform⟩ := Outcome.exists_eq_ok
    (o := boundedEval .input 9 (.list none (f :: operands)) 0 m) (by decide +kernel)
  have hiff := eval_form_iff_call rfl hargs (by decide +kernel)
    (WithinLimit.of_boundedEval (by decide) hform) 1 (by decide +kernel) (.ok (.int 3) n) (by simp)
  exact ⟨n, hcells, ⟨9, hcall⟩, hiff.mpr ⟨9, hcall⟩⟩

end Lisp
