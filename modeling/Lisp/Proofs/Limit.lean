import Lisp.Proofs.Mirror
import Lisp.Proofs.Template
import Mathlib.Data.List.Forall2

/-!
# Runs within the recursion limit

A program may catch the error of the recursion limit and go on, so whether a run has met the limit
cannot be told from how it ends. It is told by an evaluator that gives up where the plain one fails
with that error: a run in which it does not give up is a run of the plain one, and has a copy that
starts less deep. The rules at the end say what such a run does, unless it gives up.
-/

namespace Lisp

/-! ## Giving up at the limit -/

/-- Runs an evaluation one level deeper, and gives up with the alarm where the limit forbids it. -/
def Action.nestedWithin {α : Type} (alarm : Pause) (x : Action α) : Action α := fun m =>
  if m.depthLimit < m.depth + 1 then .paused alarm else Action.nested x m

section

variable (alarm : Pause)

mutual

/-- Evaluates an expression, and gives up where an evaluation on the way would meet the limit. -/
def boundedEval : Nat → Value → FrameId → Action Value
  | 0, _, _ => Action.pause .fuel
  | fuel + 1, code, scope =>
    Action.nestedWithin alarm
      (Evaluator.loop ⟨boundedEval fuel, boundedCall fuel⟩ fuel code scope)

/-- Applies a function, and gives up where an evaluation on the way would meet the limit. -/
def boundedCall : Nat → Value → List Value → Action Value
  | 0, _, _ => Action.pause .fuel
  | fuel + 1, f, args => Evaluator.applied ⟨boundedEval fuel, boundedCall fuel⟩ f args

end

def boundedEvaluator (fuel : Nat) : Evaluator :=
  ⟨boundedEval alarm fuel, boundedCall alarm fuel⟩

end

/-- The run meets the recursion limit nowhere, not even where its error is caught: with some alarm,
an evaluator that gives up at the limit does not give up. -/
def WithinLimit {α : Type} (fuel : Nat) (run : Evaluator → Action α) (m : Machine) : Prop :=
  ∃ alarm, run (boundedEvaluator alarm fuel) m ≠ .paused alarm

theorem WithinLimit.of_ok {α : Type} {fuel : Nat} {run : Evaluator → Action α} {m : Machine}
    (h : (run (boundedEvaluator .fuel fuel) m matches .ok _ _) = true) :
    WithinLimit fuel run m := by
  obtain ⟨a, n, hrun⟩ := Outcome.exists_eq_ok h
  exact ⟨.fuel, fun hpaused => nomatch hrun.symm.trans hpaused⟩

theorem Action.Tracks.nestedWithin {alarm : Pause} {α : Type} {x y : Action α}
    (h : Tracks Eq (· = alarm) x y) :
    Tracks Eq (· = alarm) (x.nestedWithin alarm) (Action.nested y) := by
  rintro m _ rfl
  unfold Action.nestedWithin
  split
  · exact .gaveUp rfl
  · exact h.nested_eq m m rfl

theorem tracks_boundedEvaluator (alarm : Pause) (fuel : Nat) :
    Evaluator.Tracks Eq (· = alarm) (boundedEvaluator alarm fuel) (evaluator fuel) := by
  induction fuel with
  | zero => exact ⟨fun _ _ => .pause .fuel, fun _ _ => .pause .fuel⟩
  | succ fuel ih =>
    constructor
    · exact fun code scope =>
        (Evaluator.tracks_loop stable_eq ih (.refl _ fuel) code scope).nestedWithin
    · exact fun f args => Evaluator.tracks_applied stable_eq ih f args

/-- Where an evaluation does not give up, it is the plain one. -/
theorem eval_eq_boundedEval {alarm : Pause} {fuel : Nat} {code : Value} {scope : FrameId}
    {m : Machine} (h : boundedEval alarm fuel code scope m ≠ .paused alarm) :
    eval fuel code scope m = boundedEval alarm fuel code scope m :=
  ((tracks_boundedEvaluator alarm fuel).eval code scope m m rfl).eq_of_ne_paused h

/-- With more fuel an evaluator does the same, where it does not run out of fuel. -/
theorem tracks_boundedEvaluator_of_le (alarm : Pause) {fuel fuel' : Nat} (hle : fuel ≤ fuel') :
    Evaluator.Tracks Eq (· = .fuel) (boundedEvaluator alarm fuel)
      (boundedEvaluator alarm fuel') := by
  induction fuel generalizing fuel' with
  | zero => exact ⟨fun _ _ _ _ _ => .gaveUp rfl, fun _ _ _ _ _ => .gaveUp rfl⟩
  | succ fuel ih =>
    obtain ⟨k, rfl⟩ := Nat.exists_eq_add_of_lt hle
    have hev := ih (Nat.le_add_right fuel k)
    have hfuel : Evaluator.FuelFor (· = .fuel) fuel (fuel + k) :=
      Or.inr ⟨rfl, Nat.le_add_right fuel k⟩
    constructor
    · rintro code scope m _ rfl
      have hloop := (Evaluator.tracks_loop stable_eq hev hfuel code scope).nested_eq
      show Outcome.Agree _ _ (Action.nestedWithin alarm _ m) (Action.nestedWithin alarm _ m)
      unfold Action.nestedWithin
      split
      · exact .paused
      · exact hloop m m rfl
    · exact fun f args => Evaluator.tracks_applied stable_eq hev f args

/-- A run that ends without giving up is within the limit, whatever the fuel. -/
theorem WithinLimit.of_boundedEval {alarm : Pause} (halarm : alarm ≠ .fuel) {enough : Nat}
    {code v : Value} {scope : FrameId} {m n : Machine}
    (h : boundedEval alarm enough code scope m = .ok v n) (fuel : Nat) :
    WithinLimit fuel (fun ev => ev.eval code scope) m := by
  refine ⟨alarm, fun hpaused => ?_⟩
  replace hpaused : boundedEval alarm fuel code scope m = .paused alarm := hpaused
  rcases Nat.le_total fuel enough with hle | hle
  · have hagree := (tracks_boundedEvaluator_of_le alarm hle).eval code scope m m rfl
    have heq := hagree.eq_of_ne_fuel (fun hfuel => halarm ?_)
    · cases h.symm.trans (heq.trans hpaused)
    · cases hpaused.symm.trans hfuel
      rfl
  · have hagree := (tracks_boundedEvaluator_of_le alarm hle).eval code scope m m rfl
    have heq := hagree.eq_of_ne_fuel (fun hfuel => nomatch h.symm.trans hfuel)
    cases h.symm.trans (heq.symm.trans hpaused)

section

variable {S : Pairing} {alarm : Pause} (halarm : S.gives alarm)
include halarm

/-- The deeper of two runs meets the limit first. -/
theorem Action.Mirrors.nestedWithin {α : Type} {s : Shape α} {x : Extent} {a b : Action α}
    (h : Mirrors S.deeper s x a b) :
    Mirrors S s x (Action.nested a) (b.nestedWithin alarm) := by
  intro m n hle hmn
  unfold Action.nestedWithin
  split
  · exact .gaveUp halarm
  · next hroom =>
    have hn : n.depth + 1 ≤ n.depthLimit := Nat.not_lt.mp hroom
    have hdepth : m.depth ≤ n.depth := by
      rw [hmn.depth, hmn.lift]
      exact Nat.le_add_right _ _
    have hlimit : m.depthLimit = n.depthLimit := hmn.limit.trans hmn.limit_copy.symm
    exact h.nested_of_le hle hmn (hlimit ▸ Nat.le_trans (Nat.succ_le_succ hdepth) hn) hn

end

theorem mirrors_boundedEvaluator {S : Pairing} {alarm : Pause} (halarm : S.gives alarm)
    (fuel : Nat) : Evaluator.Mirrors S (evaluator fuel) (boundedEvaluator alarm fuel) := by
  induction fuel generalizing S with
  | zero => exact ⟨fun _ _ => .pause .fuel, fun _ _ => .pause .fuel⟩
  | succ fuel ih =>
    constructor
    · intro x code scope hcode hscope
      have hloop := Evaluator.mirrors_loop (ih (S := S.deeper) halarm) fuel hcode hscope
      exact hloop.nestedWithin halarm
    · exact fun hf hargs => Evaluator.mirrors_applied (ih halarm) hf hargs

/-! ## Outcomes but for the alarm -/

/-- The outcome is the given one, unless the run gives up. -/
def Outcome.EqUnless (alarm : Pause) {α : Type} (o o' : Outcome α) : Prop :=
  o = .paused alarm ∨ o = o'

/-- An action goes on from an outcome. -/
def Outcome.andThen {α β : Type} (o : Outcome α) (f : α → Action β) : Outcome β :=
  match o with
  | .ok a m => f a m
  | .error e m => .error e m
  | .paused p => .paused p

/-- The outcome one level up. -/
def Outcome.leave {α : Type} : Outcome α → Outcome α
  | .ok a m => .ok a (m.toDepth (m.depth - 1))
  | .error e m => .error e (m.toDepth (m.depth - 1))
  | .paused p => .paused p

/-- Outcomes that agree one level deeper agree one level up, if the relation between states
allows. -/
theorem Outcome.Agree.leave {R S : Machine → Machine → Prop} {gives : Pause → Prop} {α : Type}
    {o o' : Outcome α} (h : o.Agree R gives o')
    (hleave : ∀ {m n}, R m n → S (m.toDepth (m.depth - 1)) (n.toDepth (n.depth - 1))) :
    o.leave.Agree S gives o'.leave := by
  cases h with
  | ok h => exact .ok (hleave h)
  | error h => exact .error (hleave h)
  | paused => exact .paused
  | gaveUp hp => exact .gaveUp hp

namespace Outcome.EqUnless

variable {alarm : Pause} {α β : Type}

theorem of_eq {o o' : Outcome α} (h : o = o') : o.EqUnless alarm o' :=
  Or.inr h

theorem trans {o o' o'' : Outcome α} (h : o.EqUnless alarm o') (h' : o'.EqUnless alarm o'') :
    o.EqUnless alarm o'' := by
  rcases h with h | rfl
  · exact Or.inl h
  · exact h'

theorem leave {o o' : Outcome α} (h : o.EqUnless alarm o') : o.leave.EqUnless alarm o'.leave := by
  rcases h with rfl | rfl
  · exact Or.inl rfl
  · exact Or.inr rfl

theorem bind {x : Action α} {f : α → Action β} {m : Machine} {o : Outcome α} {o' : Outcome β}
    (hx : (x m).EqUnless alarm o) (hf : (o.andThen f).EqUnless alarm o') :
    ((x >>= f) m).EqUnless alarm o' := by
  unfold EqUnless
  rw [Action.bind_apply]
  rcases hx with hx | hx
  · rw [hx]
    exact Or.inl rfl
  · rw [hx]
    exact hf

theorem nestedWithin {x : Action α} {m : Machine} {depth : Nat} {o : Outcome α}
    (h : (x (m.toDepth (depth + 1))).EqUnless alarm o) :
    (x.nestedWithin alarm (m.toDepth depth)).EqUnless alarm o.leave := by
  unfold EqUnless Action.nestedWithin
  split
  · exact Or.inl rfl
  · next hroom =>
    have hroom : ¬ m.depthLimit < depth + 1 := hroom
    rw [Action.nested_toDepth, if_neg hroom]
    rcases h with h | h
    · rw [h]
      exact Or.inl rfl
    · rw [h]
      cases o <;> exact Or.inr rfl

end Outcome.EqUnless

/-! ## Room -/

theorem Action.nested_of_lt {α : Type} (x : Action α) {m : Machine}
    (hroom : m.depth < m.depthLimit) :
    Action.nested x m = (x (m.toDepth (m.depth + 1))).leave := by
  have hlimit : ¬ m.depthLimit < m.depth + 1 := by omega
  unfold Action.nested
  rw [if_neg hlimit]
  show _ = (x { m with depth := m.depth + 1 }).leave
  generalize x { m with depth := m.depth + 1 } = o
  cases o <;> rfl

theorem Action.nested_of_le {α : Type} (x : Action α) {m : Machine}
    (hfull : m.depthLimit ≤ m.depth) : Action.nested x m = .error (.eval .recursionLimit) m := by
  rw [Action.nested, if_pos (Nat.lt_succ_of_le hfull)]

theorem Action.nestedWithin_of_lt {alarm : Pause} {α : Type} (x : Action α) {m : Machine}
    (hroom : m.depth < m.depthLimit) :
    x.nestedWithin alarm m = (x (m.toDepth (m.depth + 1))).leave := by
  have hlimit : ¬ m.depthLimit < m.depth + 1 := by omega
  rw [Action.nestedWithin, if_neg hlimit, Action.nested_of_lt x hroom]

theorem Action.nestedWithin_of_le {alarm : Pause} {α : Type} (x : Action α) {m : Machine}
    (hfull : m.depthLimit ≤ m.depth) : x.nestedWithin alarm m = .paused alarm := by
  rw [Action.nestedWithin, if_pos (Nat.lt_succ_of_le hfull)]

theorem boundedEval_of_loop {alarm : Pause} {fuel : Nat} {code : Value} {scope : FrameId}
    {m : Machine}
    {r : Except Error Value} (hroom : m.depth < m.depthLimit)
    (h : (boundedEvaluator alarm fuel).loop fuel code scope (m.toDepth (m.depth + 1)) =
      Action.ofExcept r (m.toDepth (m.depth + 1))) :
    boundedEval alarm (fuel + 1) code scope m = Action.ofExcept r m := by
  show Action.nestedWithin alarm _ m = _
  rw [Action.nestedWithin_of_lt _ hroom]
  refine (congrArg Outcome.leave h).trans ?_
  cases r <;> rfl

theorem boundedEval_data {alarm : Pause} {fuel : Nat} {code v : Value} {scope : FrameId}
    {m : Machine} (hfuel : 3 ≤ fuel) (hroom : m.depth < m.depthLimit)
    (hcall : ∀ id head operands, code ≠ .list id (head :: operands))
    (h : ∀ ev depth, Step.evalData ev scope code (m.toDepth depth) = .ok v (m.toDepth depth)) :
    boundedEval alarm fuel code scope m = .ok v m := by
  obtain ⟨k, rfl⟩ := Nat.exists_eq_add_of_le' hfuel
  exact boundedEval_of_loop (r := .ok v) hroom (Evaluator.loop_data hcall (h _ _))

theorem Step.evalAll_eq {ev : Evaluator} {scope : FrameId} {m : Machine}
    {operands args : List Value}
    (h : List.Forall₂ (fun code v => ev.eval code scope m = .ok v m) operands args) :
    evalAll ev scope operands m = .ok args m := by
  induction h with
  | nil => rfl
  | cons hcode _ ih =>
    simp only [evalAll, Action.bind_apply, hcode, ih]
    rfl

/-! ## Expressions that change nothing -/

/-- The expression has the result at every depth, and evaluating it leaves the state as it is. -/
def Settles (alarm : Pause) (fuel : Nat) (code : Value) (scope : FrameId) (m : Machine)
    (result : Except Error Value) : Prop :=
  ∀ depth, (boundedEval alarm fuel code scope (m.toDepth depth)).EqUnless alarm
    (Action.ofExcept result (m.toDepth depth))

section

variable {alarm : Pause} {fuel : Nat} {scope : FrameId} {m : Machine}

theorem settles_data {code v : Value} (hfuel : 3 ≤ fuel)
    (hcall : ∀ id head operands, code ≠ .list id (head :: operands))
    (h : ∀ ev depth, Step.evalData ev scope code (m.toDepth depth) = .ok v (m.toDepth depth)) :
    Settles alarm fuel code scope m (.ok v) := by
  intro depth
  by_cases hroom : depth < m.depthLimit
  · exact .of_eq (boundedEval_data hfuel hroom hcall fun ev depth => h ev depth)
  · obtain ⟨k, rfl⟩ := Nat.exists_eq_add_of_le' hfuel
    exact Or.inl (Action.nestedWithin_of_le _ (Nat.le_of_not_lt hroom))

theorem settles_symbol {name : String} {v : Value} (hfuel : 3 ≤ fuel)
    (h : m.frames.get? scope name = some v) : Settles alarm fuel (.sym name) scope m (.ok v) := by
  refine settles_data hfuel (by simp) fun ev depth => ?_
  show Action.ofExcept (m.frames.lookup scope name) _ = _
  rw [Frames.lookup, h]
  rfl

theorem settles_string (text : String) (hfuel : 3 ≤ fuel) :
    Settles alarm fuel (.str text) scope m (.ok (.str text)) :=
  settles_data hfuel (by simp) fun _ _ => rfl

theorem settles_all {operands args : List Value}
    (h : List.Forall₂ (fun code v => Settles alarm fuel code scope m (.ok v)) operands args)
    (depth : Nat) :
    (Step.evalAll (boundedEvaluator alarm fuel) scope operands (m.toDepth depth)).EqUnless alarm
      (.ok args (m.toDepth depth)) := by
  induction h with
  | nil => exact .of_eq rfl
  | cons hcode _ ih => exact .bind (hcode depth) (.bind ih (.of_eq rfl))

/-- A call runs by its operands, by the step of the function, and by what that leads to. -/
theorem eqUnless_call {rounds depth : Nat} {name : String} {f : Value} {id : ObjectId}
    {operands : List Value} {args : Outcome (List Value)} {o : Outcome Step} {o' : Outcome Value}
    (hfuel : 3 ≤ fuel)
    (hname : SpecialForm.ofName? name = none)
    (hf : m.frames.get? scope name = some f) (hfunction : f.isMacro = false)
    (hargs : (Step.evalAll (boundedEvaluator alarm fuel) scope operands
      (m.toDepth depth)).EqUnless alarm args)
    (happly : (args.andThen fun args =>
      Step.apply (boundedEvaluator alarm fuel) args f).EqUnless alarm o)
    (hnext : (o.andThen fun
      | .done v => return v
      | .tail code inner =>
        (boundedEvaluator alarm fuel).loop (rounds + 1) code inner).EqUnless alarm o') :
    ((boundedEvaluator alarm fuel).loop (rounds + 2) (.list id (.sym name :: operands)) scope
      (m.toDepth depth)).EqUnless alarm o' := by
  have hplain : Evaluator.macroCall? m.frames scope (.list id (.sym name :: operands)) = none := by
    refine macroCall?_eq_none ?_
    rw [Frames.bindsMacro, hf]
    exact hfunction
  rw [Evaluator.loop_succ]
  refine .bind (.of_eq (expand_eq_self hplain)) (.bind (o := o) ?_ hnext)
  show (Step.ofForm _ _ scope (.list id (.sym name :: operands)) (m.toDepth depth)).EqUnless alarm o
  rw [Step.ofForm, Value.sym?, Option.bind_some, hname]
  exact .bind (settles_symbol hfuel hf depth) (.bind hargs happly)

theorem settles_builtin {name : String} {id : ObjectId} {operands : List Value}
    {result : Except Error Value} (b : Builtin) (args : List Value) (hfuel : 3 ≤ fuel)
    (hname : SpecialForm.ofName? name = none)
    (hb : m.frames.get? scope name = some (.builtin b))
    (hargs : List.Forall₂ (fun code v => Settles alarm fuel code scope m (.ok v)) operands args)
    (hrun : ∀ ev depth,
      b.run ev args (m.toDepth depth) = Action.ofExcept result (m.toDepth depth)) :
    Settles alarm (fuel + 1) (.list id (.sym name :: operands)) scope m result := by
  intro depth
  obtain ⟨k, rfl⟩ := Nat.exists_eq_add_of_le' hfuel
  have hcall : ((boundedEvaluator alarm (k + 3)).loop (k + 3) (.list id (.sym name :: operands))
      scope (m.toDepth (depth + 1))).EqUnless alarm
      (Action.ofExcept result (m.toDepth (depth + 1))) := by
    refine eqUnless_call (o := Action.ofExcept (result.map .done) (m.toDepth (depth + 1)))
      hfuel hname hb rfl (settles_all hargs _) (.of_eq ?_) (.of_eq ?_)
    · show Step.apply _ args (.builtin b) _ = _
      rw [Step.apply, Action.bind_apply, hrun]
      cases result <;> rfl
    · cases result <;> rfl
  have heval := hcall.nestedWithin
  cases result <;> exact heval

end

end Lisp
