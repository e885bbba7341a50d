import Lisp.Proofs.Limit

/-!
# The recursion limit is transparent

A limit shows only where it is met. If no evaluation is deeper than some bound, a run under any
higher limit is the run under that bound; and if a run does not meet its limit, not even where the
error is caught, any higher limit leaves it as it is. Both are simulations of one run by another
from the same state under another limit, in which the first run gives up where the two would part.
-/

namespace Lisp

/-! ## States under another limit -/

/-- The same state under another recursion limit. -/
def Machine.withLimit (m : Machine) (limit : Nat) : Machine :=
  { m with depthLimit := limit }

/-- The same outcome, reached under another recursion limit. -/
def Outcome.withLimit {α : Type} (limit : Nat) : Outcome α → Outcome α
  | .ok a m => .ok a (m.withLimit limit)
  | .error e m => .error e (m.withLimit limit)
  | .paused p => .paused p

/-- The second state is the first one under another limit. -/
structure UnderLimits (limit limit' : Nat) (m n : Machine) : Prop where
  limit : m.depthLimit = limit
  eq : n = m.withLimit limit'

theorem underLimits (limit limit' : Nat) (m : Machine) :
    UnderLimits limit limit' (m.withLimit limit) (m.withLimit limit') :=
  ⟨rfl, rfl⟩

theorem UnderLimits.toDepth {limit limit' : Nat} {m n : Machine} (h : UnderLimits limit limit' m n)
    (depth : Nat) : UnderLimits limit limit' (m.toDepth depth) (n.toDepth depth) :=
  ⟨h.limit, congrArg (·.toDepth depth) h.eq⟩

theorem UnderLimits.depth_eq {limit limit' : Nat} {m n : Machine}
    (h : UnderLimits limit limit' m n) :
    n.depth = m.depth := by
  rw [h.eq]
  rfl

theorem UnderLimits.limit_eq {limit limit' : Nat} {m n : Machine}
    (h : UnderLimits limit limit' m n) :
    n.depthLimit = limit' := by
  rw [h.eq]
  rfl

theorem stable_underLimits (limit limit' : Nat) {gives : Pause → Prop} :
    Stable (UnderLimits limit limit') gives where
  same h := h.eq ▸ ⟨rfl, rfl, rfl, rfl, rfl, rfl, rfl⟩
  define _ _ _ h := ⟨h.limit, by rw [h.eq]; rfl⟩
  enter _ h := ⟨h.limit, by rw [h.eq]; rfl⟩
  newCell _ h := ⟨h.limit, by rw [h.eq]; rfl⟩
  writeCell _ _ h := ⟨h.limit, by rw [h.eq]; rfl⟩
  newObject h := ⟨h.limit, by rw [h.eq]; rfl⟩
  print _ h := ⟨h.limit, by rw [h.eq]; rfl⟩
  input h := .inr ⟨by rw [h.eq]; rfl, fun _ => ⟨h.limit, by rw [h.eq]; rfl⟩⟩

/-- Outcomes that agree are one outcome under two limits, unless the first run gives up. -/
theorem Outcome.Agree.eq_withLimit {limit limit' : Nat} {alarm : Pause} {α : Type}
    {o o' : Outcome α} (h : o.Agree (UnderLimits limit limit') (· = alarm) o')
    (ho : o ≠ .paused alarm) : o' = o.withLimit limit' := by
  cases h with
  | ok h => exact congrArg (Outcome.ok _) h.eq
  | error h => exact congrArg (Outcome.error _) h.eq
  | paused => rfl
  | gaveUp hp => exact absurd (congrArg Outcome.paused hp) ho

/-! ## Two runs -/

section

variable {limit limit' : Nat} {alarm : Pause} {α : Type} {x y : Action α} {m n : Machine}

/-- One level deeper under both limits. -/
theorem Action.Tracks.nested_underLimits {gives : Pause → Prop}
    (hx : Tracks (UnderLimits limit limit') gives x y) (h : UnderLimits limit limit' m n)
    (hroom : m.depth < limit) (hroom' : m.depth < limit') :
    (Action.nested x m).Agree (UnderLimits limit limit') gives (Action.nested y n) := by
  rw [Action.nested_of_lt x (h.limit ▸ hroom),
    Action.nested_of_lt y (by rw [h.depth_eq, h.limit_eq]; exact hroom')]
  have hdeeper := h.toDepth (m.depth + 1)
  rw [← h.depth_eq] at hdeeper
  rw [← h.depth_eq]
  exact (hx _ _ hdeeper).leave fun hmn => by
    rw [hmn.depth_eq]
    exact hmn.toDepth _

/-- The run under the lower limit gives up where that is met. -/
theorem tracks_boundedEvaluator_underLimits (hle : limit ≤ limit') (alarm : Pause) (fuel : Nat) :
    Evaluator.Tracks (UnderLimits limit limit') (· = alarm) (boundedEvaluator alarm fuel)
      (evaluator fuel) := by
  have hR : Stable (UnderLimits limit limit') (· = alarm) := stable_underLimits limit limit'
  induction fuel with
  | zero => exact ⟨fun _ _ => .pause .fuel, fun _ _ => .pause .fuel⟩
  | succ fuel ih =>
    refine ⟨fun code scope m n h => ?_, Evaluator.tracks_applied hR ih⟩
    have hloop := Evaluator.tracks_loop hR ih (.refl _ fuel) code scope
    show Outcome.Agree _ _ (Action.nestedWithin alarm _ m) (Action.nested _ n)
    by_cases hroom : m.depth < limit
    · rw [Action.nestedWithin_of_lt _ (h.limit ▸ hroom), ← Action.nested_of_lt _ (h.limit ▸ hroom)]
      exact hloop.nested_underLimits h hroom (Nat.lt_of_lt_of_le hroom hle)
    · rw [Action.nestedWithin_of_le _ (h.limit ▸ Nat.le_of_not_lt hroom)]
      exact .gaveUp rfl

theorem Action.watched_of_not_allowed {allowed : Machine → Bool} (hm : allowed m = false) :
    x.watched allowed alarm m = .paused alarm := by
  simp [Action.watched, hm]

/-- To watch a run can only make it give up. -/
theorem Action.Tracks.of_watched {R : Machine → Machine → Prop} (allowed : Machine → Bool)
    (hx : Tracks R (· = alarm) x y) : Tracks R (· = alarm) (x.watched allowed alarm) y := by
  intro m n h
  have hxy := hx m n h
  unfold Action.watched
  split
  · generalize x m = o, y n = o' at hxy ⊢
    cases hxy with
    | ok h =>
      dsimp only
      split
      · exact .ok h
      · exact .gaveUp rfl
    | error h =>
      dsimp only
      split
      · exact .error h
      · exact .gaveUp rfl
    | paused => exact .paused
    | gaveUp hp => exact .gaveUp hp
  · exact .gaveUp rfl

/-- Under the higher limit an evaluation that would go deeper than the lower one gives up. -/
theorem Action.Tracks.nested_watched_underLimits (hle : limit ≤ limit')
    (hx : Tracks (UnderLimits limit' limit) (· = alarm) x y) :
    Tracks (UnderLimits limit' limit) (· = alarm)
      (Action.nested (x.watched (fun m => decide (m.depth ≤ limit)) alarm)) (Action.nested y) := by
  intro m n h
  by_cases hroom : m.depth < limit
  · exact (hx.of_watched _).nested_underLimits h (Nat.lt_of_lt_of_le hroom hle) hroom
  · -- The second run meets its limit here: the first one meets its own, or goes too deep.
    have hfull : n.depthLimit ≤ n.depth := by
      rw [h.depth_eq, h.limit_eq]
      exact Nat.le_of_not_lt hroom
    rw [Action.nested_of_le y hfull]
    by_cases hdeeper : m.depth < limit'
    · have hdeep : decide ((m.toDepth (m.depth + 1)).depth ≤ limit) = false :=
        decide_eq_false (Nat.not_le_of_lt (Nat.lt_succ_of_le (Nat.le_of_not_lt hroom)))
      rw [Action.nested_of_lt _ (h.limit ▸ hdeeper), Action.watched_of_not_allowed hdeep]
      exact .gaveUp rfl
    · rw [Action.nested_of_le _ (h.limit ▸ Nat.le_of_not_lt hdeeper)]
      exact .error h

/-- The run under the higher limit gives up where it is found deeper than the lower one. -/
theorem tracks_watchedEvaluator_underLimits (hle : limit ≤ limit') (alarm : Pause) (fuel : Nat) :
    Evaluator.Tracks (UnderLimits limit' limit) (· = alarm)
      (watchedEvaluator (fun m => decide (m.depth ≤ limit)) alarm fuel) (evaluator fuel) := by
  have hR : Stable (UnderLimits limit' limit) (· = alarm) := stable_underLimits limit' limit
  induction fuel with
  | zero => exact ⟨fun _ _ => .pause .fuel, fun _ _ => .pause .fuel⟩
  | succ fuel ih =>
    constructor
    · intro code scope
      have hloop := Evaluator.tracks_loop hR ih (.refl _ fuel) code scope
      exact (hloop.nested_watched_underLimits hle).of_watched _
    · exact fun f args => (Evaluator.tracks_applied hR ih f args).of_watched _

end

/-! ## Transparency -/

/-- The run is never deeper than the bound: with some alarm, an evaluator that watches all
evaluations and calls for a greater depth does not give up. -/
def NeverDeeper {α : Type} (bound fuel : Nat) (run : Evaluator → Action α) (m : Machine) : Prop :=
  ∃ alarm, run (watchedEvaluator (fun n => decide (n.depth ≤ bound)) alarm fuel) m ≠ .paused alarm

theorem NeverDeeper.of_ok {α : Type} {bound fuel : Nat} {run : Evaluator → Action α} {m : Machine}
    (h : (run (watchedEvaluator (fun n => decide (n.depth ≤ bound)) .fuel fuel) m matches
      .ok _ _) = true) : NeverDeeper bound fuel run m := by
  obtain ⟨a, n, hrun⟩ := Outcome.exists_eq_ok h
  exact ⟨.fuel, fun hpaused => nomatch hrun.symm.trans hpaused⟩

theorem tracks_watchedEvaluator_eq (allowed : Machine → Bool) (alarm : Pause) (fuel : Nat) :
    Evaluator.Tracks Eq (· = alarm) (watchedEvaluator allowed alarm fuel) (evaluator fuel) := by
  induction fuel with
  | zero => exact ⟨fun _ _ => .pause .fuel, fun _ _ => .pause .fuel⟩
  | succ fuel ih =>
    constructor
    · intro code scope
      have hloop := Evaluator.tracks_loop stable_eq ih (.refl _ fuel) code scope
      exact (hloop.of_watched allowed).nested_eq.of_watched allowed
    · exact fun f args => (Evaluator.tracks_applied stable_eq ih f args).of_watched allowed

/-- The recursion limit is transparent. An evaluation that is never deeper than a limit comes to the
same under that limit as under a higher one: the same value or error, in a state that differs in
nothing but the limit. And if an evaluation does not meet the limit, whether the error is caught or
not, it comes to the same under every higher limit. -/
theorem recursion_limit_transparent {limit limit' : Nat} (hle : limit ≤ limit') (fuel : Nat)
    (code : Value) (scope : FrameId) (m : Machine) :
    (NeverDeeper limit fuel (fun ev => ev.eval code scope) (m.withLimit limit') →
      eval fuel code scope (m.withLimit limit) =
        (eval fuel code scope (m.withLimit limit')).withLimit limit) ∧
    (WithinLimit fuel (fun ev => ev.eval code scope) (m.withLimit limit) →
      eval fuel code scope (m.withLimit limit') =
        (eval fuel code scope (m.withLimit limit)).withLimit limit') := by
  constructor
  · rintro ⟨alarm, halarm⟩
    have hagree := (tracks_watchedEvaluator_underLimits hle alarm fuel).eval code scope _ _
      (underLimits limit' limit m)
    have hplain := (tracks_watchedEvaluator_eq (fun n => decide (n.depth ≤ limit)) alarm fuel).eval
      code scope (m.withLimit limit') _ rfl
    exact (hagree.eq_withLimit halarm).trans
      (congrArg (Outcome.withLimit limit) (hplain.eq_of_ne_paused halarm).symm)
  · rintro ⟨alarm, halarm⟩
    have hagree := (tracks_boundedEvaluator_underLimits hle alarm fuel).eval code scope _ _
      (underLimits limit limit' m)
    exact (hagree.eq_withLimit halarm).trans
      (congrArg (Outcome.withLimit limit') (eval_eq_boundedEval halarm).symm)

open Interpreter in
/-- No evaluation in `(try* (if (if nil nil 1) 2) (catch* e 3))` is deeper than four levels, so
limits from four on make no difference. Under a limit of three the error is caught. -/
theorem recursion_limit_transparent_caught :
    let code : Value := .list none [.sym "try*",
      .list none [.sym "if", .list none [.sym "if", .nil, .nil, .int 1], .int 2],
      .list none [.sym "catch*", .sym "e", .int 3]]
    (∃ n, eval 9 code 0 (bare 1000 {}) = .ok (.int 2) n ∧
      eval 9 code 0 (bare 4 {}) = .ok (.int 2) (n.withLimit 4) ∧
      ∀ limit, 4 ≤ limit → eval 9 code 0 (bare limit {}) = .ok (.int 2) (n.withLimit limit)) ∧
    ∃ n, eval 9 code 0 (bare 3 {}) = .ok (.int 3) n := by
  intro code
  have hdepth : NeverDeeper 4 9 (fun ev => ev.eval code 0) (bare 1000 {}) :=
    .of_ok (by decide +kernel)
  have hlimit : WithinLimit 9 (fun ev => ev.eval code 0) (bare 4 {}) := .of_ok (by decide +kernel)
  obtain ⟨v, n, hhigh, hv⟩ := Outcome.exists_of_okWith (fun (v : Value) _ => decide (v = .int 2))
    (o := eval 9 code 0 (bare 1000 {})) (by decide +kernel)
  obtain ⟨w, n', hcaught, hw⟩ := Outcome.exists_of_okWith (fun (v : Value) _ => decide (v = .int 3))
    (o := eval 9 code 0 (bare 3 {})) (by decide +kernel)
  cases of_decide_eq_true hv
  cases of_decide_eq_true hw
  have hlow : eval 9 code 0 (bare 4 {}) = .ok (.int 2) (n.withLimit 4) := by
    have heq := (recursion_limit_transparent (by decide : 4 ≤ 1000) 9 code 0 (bare 4 {})).1 hdepth
    exact heq.trans (congrArg (Outcome.withLimit 4) hhigh)
  refine ⟨⟨n, hhigh, hlow, fun limit hle => ?_⟩, n', hcaught⟩
  have heq := (recursion_limit_transparent hle 9 code 0 (bare 4 {})).2 hlimit
  exact heq.trans (congrArg (Outcome.withLimit limit) hlow)

end Lisp
