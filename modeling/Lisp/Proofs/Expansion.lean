import Lisp.Interpreter
import Lisp.Proofs.Limit
import Lisp.Proofs.Tail

/-!
# Macro expansion

An expression is expanded for as long as it is a macro call, and the step of evaluation is taken by
what this leads to. A macro is a program of its own: expanding a call of it can change the state,
and it can bind names anew, also the one it goes by. So whether a form is a macro call depends on
the state. In the state that an expansion leaves its result is none, and to evaluate a macro call is
to evaluate its expansion in that state.
-/

namespace Lisp

/-! ## The result of an expansion -/

section

variable {form form' : Value} {scope : FrameId} {m n : Machine}

/-- In the state that an expansion leaves, its result is no macro call. -/
theorem macroCall?_of_expand {ev : Evaluator} {rounds : Nat}
    (h : ev.expand rounds form scope m = .ok form' n) :
    Evaluator.macroCall? n.frames scope form' = none := by
  induction rounds generalizing form m with
  | zero => cases h
  | succ rounds ih =>
    rw [Evaluator.expand_succ] at h
    cases hcall : Evaluator.macroCall? m.frames scope form with
    | none =>
      rw [hcall] at h
      cases h
      exact hcall
    | some call =>
      rw [hcall] at h
      obtain ⟨frame, m₁, -, h⟩ := Action.bind_eq_ok.mp h
      obtain ⟨next, m₂, -, h⟩ := Action.bind_eq_ok.mp h
      exact ih h

theorem expand_of_le {fuel fuel' rounds rounds' : Nat} (hfuel : fuel ≤ fuel')
    (hrounds : rounds ≤ rounds')
    (ho : (evaluator fuel).expand rounds form scope m ≠ .paused .fuel) :
    (evaluator fuel').expand rounds' form scope m = (evaluator fuel).expand rounds form scope m :=
  (Evaluator.tracks_expand stable_eq (tracks_evaluator_of_le hfuel) (Or.inr ⟨rfl, hrounds⟩) form
    scope m m rfl).eq_of_ne_fuel ho

/-! ## Evaluation of an expansion -/

/-- The second expansion, of a result, takes no step, so what follows is the same. -/
theorem loop_of_expand {ev : Evaluator} {rounds : Nat}
    (h : ev.expand (rounds + 1) form scope m = .ok form' n) :
    ev.loop (rounds + 2) form scope m = ev.loop (rounds + 2) form' scope n := by
  rw [Evaluator.loop_plain (macroCall?_of_expand h), Evaluator.loop_succ, Action.bind_apply, h]
  rfl

theorem loop_of_expand_error {ev : Evaluator} {rounds : Nat} {e : Error}
    (h : ev.expand rounds form scope m = .error e n) :
    ev.loop (rounds + 1) form scope m = .error e n := by
  rw [Evaluator.loop_succ, Action.bind_apply, h]

theorem eval_of_lt (fuel : Nat) (code : Value) (scope : FrameId) (hroom : m.depth < m.depthLimit) :
    eval (fuel + 1) code scope m =
      ((evaluator fuel).loop fuel code scope (m.toDepth (m.depth + 1))).leave :=
  Action.nested_of_lt _ hroom

section

variable {fuel : Nat} (hroom : m.depth < m.depthLimit)
include hroom

theorem eval_of_expand
    (h : (evaluator (fuel + 2)).expand (fuel + 1) form scope (m.toDepth (m.depth + 1)) =
      .ok form' n) :
    eval (fuel + 3) form scope m = eval (fuel + 3) form' scope (n.toDepth m.depth) := by
  have hends := expand_ends (fuel + 2) (fuel + 1) form scope (m.toDepth (m.depth + 1))
  rw [h] at hends
  obtain ⟨hdepth, hlimit⟩ : n.depth = m.depth + 1 ∧ n.depthLimit = m.depthLimit := hends
  have hroom' : (n.toDepth m.depth).depth < (n.toDepth m.depth).depthLimit := by
    show m.depth < n.depthLimit
    rwa [hlimit]
  have hdeeper : (n.toDepth m.depth).toDepth ((n.toDepth m.depth).depth + 1) = n := by
    show n.toDepth (m.depth + 1) = n
    rw [← hdepth, Machine.toDepth_self]
  rw [eval_of_lt _ form scope hroom, eval_of_lt _ form' scope hroom', hdeeper, loop_of_expand h]

theorem eval_of_expand_error {e : Error}
    (h : (evaluator (fuel + 1)).expand fuel form scope (m.toDepth (m.depth + 1)) = .error e n) :
    eval (fuel + 2) form scope m = .error e (n.toDepth m.depth) := by
  have hends := expand_ends (fuel + 1) fuel form scope (m.toDepth (m.depth + 1))
  rw [h] at hends
  have hdepth : n.depth = m.depth + 1 := hends.1
  rw [eval_of_lt _ form scope hroom, loop_of_expand_error h, Outcome.leave, hdepth,
    Nat.add_sub_cancel]

end

end

/-- Where the limit leaves room for an evaluation, a form that expands has the outcome of its
expansion, evaluated in the state that expanding it leaves; there the expansion is its own. A form
that cannot be expanded fails with the error of expanding it. -/
theorem eval_eq_eval_expansion {fuel : Nat} {form : Value} {scope : FrameId} {m : Machine}
    (hroom : m.depth < m.depthLimit) :
    (∀ form' n, macroExpand fuel form scope (m.toDepth (m.depth + 1)) = .ok form' n →
      (∀ fuel', macroExpand (fuel' + 1) form' scope n = .ok form' n) ∧
      ∀ fuel', fuel + 2 ≤ fuel' →
        eval fuel' form scope m = eval fuel' form' scope (n.toDepth m.depth)) ∧
    ∀ e n, macroExpand fuel form scope (m.toDepth (m.depth + 1)) = .error e n →
      ∀ fuel', fuel + 2 ≤ fuel' → eval fuel' form scope m = .error e (n.toDepth m.depth) := by
  constructor
  · intro form' n h
    refine ⟨fun _ => expand_eq_self (macroCall?_of_expand h), fun fuel' hle => ?_⟩
    -- An expansion that ends takes a round at least, and an evaluation has as many as it needs.
    cases fuel with
    | zero => cases h
    | succ rounds =>
      obtain ⟨k, rfl⟩ := Nat.exists_eq_add_of_le' hle
      have hrounds := Nat.le_add_left (rounds + 1) k
      have hexpand : (evaluator (k + rounds + 2)).expand (k + rounds + 1) form scope
          (m.toDepth (m.depth + 1)) = .ok form' n :=
        (expand_of_le (Nat.le_succ_of_le hrounds) hrounds
          fun hp => by cases h.symm.trans hp).trans h
      exact eval_of_expand hroom hexpand
  · intro e n h fuel' hle
    obtain ⟨k, rfl⟩ := Nat.exists_eq_add_of_le' hle
    have hrounds := Nat.le_add_left fuel k
    have hexpand : (evaluator (k + fuel + 1)).expand (k + fuel) form scope
        (m.toDepth (m.depth + 1)) = .error e n :=
      (expand_of_le (Nat.le_succ_of_le hrounds) hrounds fun hp => by cases h.symm.trans hp).trans h
    exact eval_of_expand_error hroom hexpand

open Interpreter in
/-- Expanding `(twice 5)` binds `twice` to a function, and the expansion is `(twice 5)` again, which
is a macro call before and none afterwards. Expanding `(broken)` fails. -/
theorem eval_eq_eval_expansion_rebound :
    let define := Request.evalText "(do
      (defmacro! broken (fn* () (throw 7)))
      (defmacro! twice (fn* (x)
        (do (eval '(def! twice (fn* (y) (* 2 y)))) (list 'twice x)))))"
    let form := Value.list none [.sym "twice", .int 5]
    let broken := Value.list none [.sym "broken"]
    ∃ m, define.run (start false 100 {}) = .ok () m ∧ m.depth < m.depthLimit ∧
      (∃ form' n n', macroExpand 20 form 0 (m.toDepth (m.depth + 1)) = .ok form' n ∧
        form'.beq form = true ∧ macroExpand 20 form' 0 n = .ok form' n ∧
        eval 22 form 0 m = .ok (.int 10) n' ∧
        eval 22 form' 0 (n.toDepth m.depth) = .ok (.int 10) n') ∧
      ∃ e n, macroExpand 20 broken 0 (m.toDepth (m.depth + 1)) = .error e n ∧
        e.payload = .int 7 ∧ eval 22 broken 0 m = .error e (n.toDepth m.depth) := by
  intro define form broken
  obtain ⟨_, m, hdefine, hm⟩ := Outcome.exists_of_okWith
    (fun _ m => decide (m.depth < m.depthLimit) &&
      (macroExpand 20 form 0 (m.toDepth (m.depth + 1))).okWith (fun form' _ => form'.beq form) &&
      (eval 22 form 0 m).okWith (fun (v : Value) _ => decide (v = .int 10)) &&
      (macroExpand 20 broken 0 (m.toDepth (m.depth + 1))).errorWith
        fun e _ => decide (e.payload = .int 7))
    (o := define.run (start false 100 {})) (by decide +kernel)
  simp only [Bool.and_eq_true, decide_eq_true_eq] at hm
  obtain ⟨⟨⟨hroom, hform⟩, hvalue⟩, hbroken⟩ := hm
  obtain ⟨form', n, hexpand, hsame⟩ := Outcome.exists_of_okWith _ hform
  obtain ⟨v, n', hrun, hv⟩ := Outcome.exists_of_okWith _ hvalue
  obtain ⟨e, n₁, hfail, he⟩ := Outcome.exists_of_errorWith _ hbroken
  cases of_decide_eq_true hv
  obtain ⟨hagain, heval⟩ := (eval_eq_eval_expansion hroom).1 form' n hexpand
  have hvalue' := (heval 22 (Nat.le_refl 22)).symm.trans hrun
  have herror := (eval_eq_eval_expansion hroom).2 e n₁ hfail 22 (Nat.le_refl 22)
  exact ⟨m, hdefine, hroom, ⟨form', n, n', hexpand, hsame, hagain 19, hrun, hvalue'⟩,
    e, n₁, hfail, of_decide_eq_true he, herror⟩

end Lisp
