import Lisp.Proofs.Expansion

/-!
# Outcomes, and the levels that they need

An evaluation has one outcome, whatever the fuel, and a conditional is evaluated by the outcomes of
its parts. Some actions are known so well that it can be told how many levels of evaluation they
need: with as many levels left they have their result, and with fewer the recursion limit stops
them. The rules say so of expressions that are evaluated in the place of others; as an operand each
of them needs one level more.
-/

namespace Lisp

/-! ## Outcomes -/

/-- Evaluating the code has the outcome, if there is fuel enough. -/
def EvaluatesTo (code : Value) (scope : FrameId) (m : Machine) (o : Outcome Value) : Prop :=
  o ≠ .paused .fuel ∧ ∃ fuel, eval fuel code scope m = o

theorem Outcome.leave_eq_fuel {α : Type} {o : Outcome α} :
    o.leave = .paused .fuel ↔ o = .paused .fuel := by
  cases o <;> simp [leave]

theorem eval_ends (fuel : Nat) (code : Value) (scope : FrameId) (m : Machine) :
    (eval fuel code scope m).Ends fun n => n.depth = m.depth ∧ n.depthLimit = m.depthLimit :=
  ends_atDepth ((tracks_evaluator m.depth m.depthLimit fuel).eval code scope m m ⟨rfl, rfl, rfl⟩)

section

variable {code code' : Value} {scope scope' : FrameId} {m m' n : Machine} {o : Outcome Value}

theorem EvaluatesTo.exists_enough (h : EvaluatesTo code scope m o) :
    ∃ enough, ∀ fuel, enough ≤ fuel → eval fuel code scope m = o := by
  obtain ⟨ho, enough, rfl⟩ := h
  exact ⟨enough, fun fuel hle => eval_of_le hle ho⟩

theorem EvaluatesTo.unique {o' : Outcome Value} (h : EvaluatesTo code scope m o)
    (h' : EvaluatesTo code scope m o') : o = o' := by
  obtain ⟨ho, fuel, rfl⟩ := h
  obtain ⟨ho', fuel', rfl⟩ := h'
  exact eval_unique ho ho'

theorem EvaluatesTo.ends (h : EvaluatesTo code scope m o) :
    o.Ends fun n => n.depth = m.depth ∧ n.depthLimit = m.depthLimit := by
  obtain ⟨-, fuel, rfl⟩ := h
  exact eval_ends fuel code scope m

/-- The state after an evaluation one level deeper. -/
theorem EvaluatesTo.deeper {depth : Nat} {v : Value}
    (h : EvaluatesTo code scope (m.toDepth (depth + 1)) (.ok v n)) :
    (n.toDepth depth).toDepth (depth + 1) = n ∧ n.depthLimit = m.depthLimit := by
  obtain ⟨hdepth, hlimit⟩ : n.depth = depth + 1 ∧ n.depthLimit = m.depthLimit := h.ends
  rw [Machine.toDepth_toDepth, ← hdepth, Machine.toDepth_self]
  exact ⟨rfl, hlimit⟩

/-- It is enough that two evaluations agree with much fuel. -/
theorem evaluatesTo_congr {enough : Nat}
    (h : ∀ fuel, enough ≤ fuel → eval fuel code scope m = eval fuel code' scope' m') :
    EvaluatesTo code scope m o ↔ EvaluatesTo code' scope' m' o := by
  constructor
  · intro hcode
    obtain ⟨enough', hcode'⟩ := hcode.exists_enough
    refine ⟨hcode.1, max enough enough', ?_⟩
    rw [← h _ (Nat.le_max_left ..), hcode' _ (Nat.le_max_right ..)]
  · intro hcode
    obtain ⟨enough', hcode'⟩ := hcode.exists_enough
    refine ⟨hcode.1, max enough enough', ?_⟩
    rw [h _ (Nat.le_max_left ..), hcode' _ (Nat.le_max_right ..)]

section

variable (hroom : m.depth < m.depthLimit)
include hroom

/-- Where there is room for it, an evaluation is a run of the loop one level deeper. -/
theorem evaluatesTo_of_loop {fuel rounds : Nat} (ho : o ≠ .paused .fuel)
    (h : ((evaluator fuel).loop rounds code scope (m.toDepth (m.depth + 1))).leave = o) :
    EvaluatesTo code scope m o := by
  have hloop : (evaluator fuel).loop rounds code scope (m.toDepth (m.depth + 1)) ≠ .paused .fuel :=
    fun hpaused => ho (h ▸ Outcome.leave_eq_fuel.mpr hpaused)
  refine ⟨ho, max fuel rounds + 1, ?_⟩
  rw [eval_of_lt _ _ _ hroom, loop_of_le (Nat.le_max_left ..) (Nat.le_max_right ..) hloop, h]

theorem EvaluatesTo.exists_enough_loop (h : EvaluatesTo code scope m o) :
    ∃ enough, ∀ fuel rounds, enough ≤ fuel → enough ≤ rounds →
      ((evaluator fuel).loop rounds code scope (m.toDepth (m.depth + 1))).leave = o := by
  obtain ⟨ho, enough, h⟩ := h
  cases enough with
  | zero => exact absurd h.symm ho
  | succ enough =>
    rw [eval_of_lt _ _ _ hroom] at h
    have hloop :
        (evaluator enough).loop enough code scope (m.toDepth (m.depth + 1)) ≠ .paused .fuel :=
      fun hpaused => ho (h ▸ Outcome.leave_eq_fuel.mpr hpaused)
    exact ⟨enough, fun fuel rounds hfuel hrounds => by rw [loop_of_le hfuel hrounds hloop, h]⟩

/-- A macro call is evaluated as what it expands to. -/
theorem evaluatesTo_of_expand {enough : Nat}
    (h : ∀ fuel rounds, enough ≤ fuel → enough ≤ rounds →
      (evaluator fuel).expand rounds code scope (m.toDepth (m.depth + 1)) = .ok code' n) :
    EvaluatesTo code scope m o ↔ EvaluatesTo code' scope (n.toDepth m.depth) o := by
  have heval : ∀ fuel, enough + 3 ≤ fuel →
      eval fuel code scope m = eval fuel code' scope (n.toDepth m.depth) := by
    intro fuel hle
    obtain ⟨k, rfl⟩ := Nat.exists_eq_add_of_le' hle
    exact eval_of_expand hroom (h (k + enough + 2) (k + enough + 1) (by omega) (by omega))
  exact evaluatesTo_congr heval

end

end

/-! ## Names of collections -/

/-- What a collection is called does not matter to the step it takes. -/
theorem Step.ofForm_identify (ev : Evaluator) (expand : Value → FrameId → Action Value)
    (scope : FrameId) (id : Nat) (v : Value) :
    ofForm ev expand scope (v.identify id) = ofForm ev expand scope v := by
  unfold Value.identify
  split
  · next items => cases items <;> rfl
  · rfl
  · rfl
  · rfl

theorem macroCall?_identify (frames : Frames) (scope : FrameId) (id : Nat) (v : Value) :
    Evaluator.macroCall? frames scope (v.identify id) = Evaluator.macroCall? frames scope v := by
  unfold Value.identify
  split
  · next items =>
    cases items with
    | nil => rfl
    | cons head operands => cases head <;> rfl
  · rfl
  · rfl
  · rfl

theorem loop_identify (ev : Evaluator) (rounds id : Nat) (v : Value) (scope : FrameId) :
    ev.loop rounds (v.identify id) scope = ev.loop rounds v scope := by
  funext m
  rcases rounds with _ | _ | rounds
  · rfl
  · rfl
  · cases hcall : Evaluator.macroCall? m.frames scope v with
    | none =>
      have hcall' := (macroCall?_identify m.frames scope id v).trans hcall
      rw [Evaluator.loop_plain hcall, Evaluator.loop_plain hcall', Step.ofForm_identify]
    | some call =>
      rw [Evaluator.loop_succ, Evaluator.loop_succ, Action.bind_apply, Action.bind_apply,
        Evaluator.expand_succ, Evaluator.expand_succ, macroCall?_identify, hcall]

theorem evaluatesTo_identify {v : Value} {id : Nat} {scope : FrameId} {m : Machine}
    {o : Outcome Value} :
    EvaluatesTo (v.identify id) scope m o ↔ EvaluatesTo v scope m o := by
  have heval : ∀ fuel, 0 ≤ fuel → eval fuel (v.identify id) scope m = eval fuel v scope m := by
    intro fuel _
    cases fuel with
    | zero => rfl
    | succ fuel =>
      rw [eval, eval]
      exact congrArg (Action.nested · m) (loop_identify (evaluator fuel) fuel id v scope)
  exact evaluatesTo_congr heval

/-! ## Conditionals -/

section

variable {id : ObjectId} {test yes no : Value} {scope : FrameId} {m : Machine}
  (hplain : m.frames.bindsMacro scope "if" = false)
include hplain

theorem loop_branch {ev : Evaluator} {rounds : Nat} :
    ev.loop (rounds + 2) (.list id [.sym "if", test, yes, no]) scope m =
      (ev.eval test scope m).andThen fun c =>
        ev.loop (rounds + 1) (if c.isTruthy then yes else no) scope := by
  have hspecial := Step.ofForm_special ev (ev.expand (rounds + 1)) scope id .branch [test, yes, no]
  rw [Evaluator.loop_plain (macroCall?_eq_none hplain), Action.bind_apply]
  refine (congrArg (fun x : Action Step => (x m).andThen (ev.proceed (rounds + 1)))
    hspecial).trans ?_
  rw [Step.special, Action.bind_apply]
  cases ev.eval test scope m <;> rfl

/-- A conditional has the outcome of the branch that its test selects, or that of a test without a
value. -/
theorem evaluatesTo_branch (hroom : m.depth < m.depthLimit) {o : Outcome Value} :
    EvaluatesTo (.list id [.sym "if", test, yes, no]) scope m o ↔
      (∃ c n, EvaluatesTo test scope (m.toDepth (m.depth + 1)) (.ok c n) ∧
        EvaluatesTo (if c.isTruthy then yes else no) scope (n.toDepth m.depth) o) ∨
      ∃ o', EvaluatesTo test scope (m.toDepth (m.depth + 1)) o' ∧ (∀ c n, o' ≠ .ok c n) ∧
        o = o'.leave := by
  have hloop (fuel rounds : Nat) := @loop_branch id test yes no scope (m.toDepth (m.depth + 1))
    hplain (evaluator fuel) rounds
  constructor
  · intro h
    obtain ⟨enough, hout⟩ := h.exists_enough_loop hroom
    specialize hout enough (enough + 2) (Nat.le_refl _) (Nat.le_add_right ..)
    rw [hloop] at hout
    cases htest : (evaluator enough).eval test scope (m.toDepth (m.depth + 1)) with
    | ok c n =>
      rw [htest] at hout
      have htest : EvaluatesTo test scope (m.toDepth (m.depth + 1)) (.ok c n) :=
        ⟨by simp, enough, htest⟩
      obtain ⟨hn, hlimit⟩ := htest.deeper
      have hbranch : ((evaluator enough).loop (enough + 1) (if c.isTruthy then yes else no) scope
          ((n.toDepth m.depth).toDepth (m.depth + 1))).leave = o := hn.symm ▸ hout
      exact Or.inl ⟨c, n, htest, evaluatesTo_of_loop (hlimit ▸ hroom) h.1 hbranch⟩
    | error e n =>
      rw [htest] at hout
      exact Or.inr ⟨_, ⟨by simp, enough, htest⟩, by simp, hout.symm⟩
    | paused p =>
      rw [htest] at hout
      refine Or.inr ⟨_, ⟨fun hfuel => h.1 ?_, enough, htest⟩, by simp, hout.symm⟩
      rw [← hout, hfuel]
      rfl
  · rintro (⟨c, n, htest, hbranch⟩ | ⟨o', htest, hnone, rfl⟩)
    · obtain ⟨hn, hlimit⟩ := htest.deeper
      obtain ⟨enough, htest⟩ := htest.exists_enough
      obtain ⟨enough', hbranch'⟩ := hbranch.exists_enough_loop (hlimit ▸ hroom)
      have hout := hloop (max enough enough') (max enough enough')
      rw [show (evaluator (max enough enough')).eval test scope _ = _ from
        htest _ (Nat.le_max_left ..)] at hout
      refine evaluatesTo_of_loop hroom hbranch.1 ((congrArg Outcome.leave hout).trans ?_)
      have hafter := hbranch' (max enough enough') (max enough enough' + 1) (Nat.le_max_right ..)
        (Nat.le_succ_of_le (Nat.le_max_right ..))
      exact (congrArg (fun n => Outcome.leave (Evaluator.loop _ _ _ scope n)) hn).symm.trans hafter
    · obtain ⟨enough, htest'⟩ := htest.exists_enough
      have hout := hloop enough enough
      rw [show (evaluator enough).eval test scope _ = _ from htest' _ (Nat.le_refl _)] at hout
      refine evaluatesTo_of_loop hroom (fun hfuel => htest.1 (Outcome.leave_eq_fuel.mp hfuel))
        ((congrArg Outcome.leave hout).trans ?_)
      cases o' with
      | ok c n => exact absurd rfl (hnone c n)
      | error e n => rfl
      | paused p => rfl

end

/-! ## Levels -/

/-- An action that uses an evaluator, and rounds of its loop, needs some levels of evaluation: at a
depth that leaves as many it has the result and leads from one state to another, and at a greater
depth the recursion limit stops it. -/
def Needs {α : Type} (levels : Nat) (x : Evaluator → Nat → Action α) (m : Machine)
    (r : Except Error α) (n : Machine) : Prop :=
  n.depthLimit = m.depthLimit ∧ ∃ enough, ∀ fuel rounds depth, enough ≤ fuel → enough ≤ rounds →
    depth ≤ m.depthLimit →
      (depth + levels ≤ m.depthLimit →
        x (evaluator fuel) rounds (m.toDepth depth) = Action.ofExcept r (n.toDepth depth)) ∧
      (m.depthLimit < depth + levels →
        ∃ n', x (evaluator fuel) rounds (m.toDepth depth) = .error (.eval .recursionLimit) n')

namespace Needs

variable {α β : Type} {levels levels' : Nat} {x : Evaluator → Nat → Action α}
  {f : Evaluator → Nat → α → Action β} {m m' n : Machine}

theorem of_eq {r : Except Error α} (hlimit : n.depthLimit = m.depthLimit)
    (h : ∀ ev rounds depth,
      x ev (rounds + 2) (m.toDepth depth) = Action.ofExcept r (n.toDepth depth)) :
    Needs 0 x m r n := by
  refine ⟨hlimit, 2, fun fuel rounds depth _ hrounds hdepth => ⟨fun _ => ?_, fun hlt => ?_⟩⟩
  · obtain ⟨k, rfl⟩ := Nat.exists_eq_add_of_le' hrounds
    exact h _ k depth
  · exact absurd hdepth (Nat.not_le_of_lt hlt)

/-- An action that takes a round and goes on as another one needs what this one does. -/
theorem of_later {r : Except Error α} {y : Evaluator → Nat → Action α} (hy : Needs levels y m r n)
    (h : ∀ ev rounds depth,
      x ev (rounds + 2) (m.toDepth depth) = y ev (rounds + 1) (m.toDepth depth)) :
    Needs levels x m r n := by
  obtain ⟨hlimit, enough, hy⟩ := hy
  refine ⟨hlimit, enough + 2, fun fuel rounds depth hfuel hrounds hdepth => ?_⟩
  obtain ⟨k, rfl⟩ := Nat.exists_eq_add_of_le' hrounds
  rw [show k + (enough + 2) = k + enough + 2 from rfl, h]
  exact hy fuel (k + enough + 1) depth (by omega) (by omega) hdepth

/-- Two actions one after another need as many levels as the one that needs more. -/
theorem bind {a : α} {r : Except Error β} (hx : Needs levels x m (.ok a) m')
    (hf : Needs levels' (fun ev rounds => f ev rounds a) m' r n) :
    Needs (max levels levels') (fun ev rounds => x ev rounds >>= f ev rounds) m r n := by
  obtain ⟨hlimit, enough, hx⟩ := hx
  obtain ⟨hlimit', enough', hf⟩ := hf
  refine ⟨hlimit'.trans hlimit, max enough enough', ?_⟩
  intro fuel rounds depth hfuel hrounds hdepth
  obtain ⟨hx, hxlimit⟩ := hx fuel rounds depth (by omega) (by omega) hdepth
  obtain ⟨hf, hflimit⟩ := hf fuel rounds depth (by omega) (by omega) (hlimit ▸ hdepth)
  rw [hlimit] at hf hflimit
  beta_reduce
  rw [Action.bind_apply]
  by_cases hroom : depth + levels ≤ m.depthLimit
  · rw [hx hroom]
    exact ⟨fun hle => hf (by omega), fun hlt => hflimit (by omega)⟩
  · obtain ⟨n', hx⟩ := hxlimit (by omega)
    rw [hx]
    exact ⟨fun hle => absurd hle (by omega), fun _ => ⟨n', rfl⟩⟩

theorem bind_error {e : Error} (hx : Needs levels x m (.error e) n) :
    Needs levels (fun ev rounds => x ev rounds >>= f ev rounds) m (.error e) n := by
  obtain ⟨hlimit, enough, hx⟩ := hx
  refine ⟨hlimit, enough, fun fuel rounds depth hfuel hrounds hdepth => ?_⟩
  obtain ⟨hx, hxlimit⟩ := hx fuel rounds depth hfuel hrounds hdepth
  beta_reduce
  rw [Action.bind_apply]
  refine ⟨fun hle => by rw [hx hle]; rfl, fun hlt => ?_⟩
  obtain ⟨n', hx⟩ := hxlimit hlt
  exact ⟨n', by rw [hx]⟩

/-- What needs no level changes nothing in how many there have to be. -/
theorem bind_eq {a : α} {r : Except Error β} (hx : Needs levels x m (.ok a) m')
    (hlimit : n.depthLimit = m'.depthLimit)
    (h : ∀ ev rounds depth,
      f ev (rounds + 2) a (m'.toDepth depth) = Action.ofExcept r (n.toDepth depth)) :
    Needs levels (fun ev rounds => x ev rounds >>= f ev rounds) m r n :=
  Nat.max_zero levels ▸ hx.bind (.of_eq hlimit h)

theorem map {r : Except Error α} (hx : Needs levels x m r n) (g : α → β) :
    Needs levels (fun ev rounds => x ev rounds >>= fun a => return g a) m (r.map g) n := by
  cases r with
  | ok a => exact hx.bind_eq rfl fun _ _ _ => rfl
  | error e => exact hx.bind_error

theorem done {step : Evaluator → Nat → Action Step} {r : Except Error Value}
    (h : Needs levels step m (r.map .done) n) :
    Needs levels (fun ev rounds => step ev rounds >>= ev.proceed rounds) m r n := by
  cases r with
  | ok v => exact h.bind_eq rfl fun _ _ _ => rfl
  | error e => exact h.bind_error

end Needs

/-- The code, evaluated in the place of other code, needs some levels more. -/
def RunsWithin (levels : Nat) (code : Value) (scope : FrameId) (m : Machine)
    (r : Except Error Value) (n : Machine) : Prop :=
  Needs levels (fun ev rounds => ev.loop rounds code scope) m r n

section

variable {levels levels' : Nat} {scope : FrameId} {m m' n : Machine} {r : Except Error Value}

theorem Needs.tail {step : Evaluator → Nat → Action Step} {code : Value} {inner : FrameId}
    (h : Needs levels step m (.ok (.tail code inner)) m')
    (hcode : RunsWithin levels' code inner m' r n) :
    Needs (max levels levels') (fun ev rounds => step ev rounds >>= ev.proceed rounds) m r n :=
  h.bind hcode

/-- An evaluation of its own takes one level. -/
theorem RunsWithin.eval {code : Value} (h : RunsWithin levels code scope m r n) :
    Needs (levels + 1) (fun ev _ => ev.eval code scope) m r n := by
  obtain ⟨hlimit, enough, h⟩ := h
  refine ⟨hlimit, enough + 1, fun fuel rounds depth hfuel _ hdepth => ?_⟩
  obtain ⟨k, rfl⟩ := Nat.exists_eq_add_of_le' hfuel
  by_cases hroom : depth < m.depthLimit
  · obtain ⟨h, hstop⟩ := h (k + enough) (k + enough) (depth + 1) (by omega) (by omega) hroom
    have heval := @eval_of_lt (m.toDepth depth) (k + enough) code scope hroom
    constructor
    · intro hle
      refine heval.trans ((congrArg Outcome.leave (h (by omega))).trans ?_)
      cases r <;> rfl
    · intro hlt
      obtain ⟨n', h⟩ := hstop (by omega)
      exact ⟨_, heval.trans (congrArg Outcome.leave h)⟩
  · have hfull : Action.nested _ (m.toDepth depth) = _ :=
      Action.nested_of_le ((evaluator (k + enough)).loop (k + enough) code scope)
        (Nat.le_of_not_lt hroom)
    exact ⟨fun hle => absurd hle (by omega), fun _ => ⟨_, hfull⟩⟩

theorem RunsWithin.evaluatesTo {code : Value} (h : RunsWithin levels code scope m r n)
    (hroom : m.depth + (levels + 1) ≤ m.depthLimit) :
    EvaluatesTo code scope m (Action.ofExcept r (n.toDepth m.depth)) := by
  obtain ⟨-, enough, h⟩ := h.eval
  refine ⟨by cases r <;> simp [Action.ofExcept, Action.pure, Action.fail], enough, ?_⟩
  exact (h enough enough m.depth (Nat.le_refl _) (Nat.le_refl _) (by omega)).1 hroom

/-- A form that is no macro call runs by its step, and by what that leads to. -/
theorem runsWithin_of_step {form : Value}
    (hplain : Evaluator.macroCall? m.frames scope form = none)
    (h : Needs levels (fun ev rounds =>
      Step.ofForm ev (ev.expand rounds) scope form >>= ev.proceed rounds) m r n) :
    RunsWithin levels form scope m r n :=
  h.of_later fun _ _ _ => Evaluator.loop_plain hplain

/-! ## Expressions whose levels are known -/

theorem runsWithin_data {code v : Value}
    (hcall : ∀ id head operands, code ≠ .list id (head :: operands))
    (h : ∀ ev depth, Step.evalData ev scope code (m.toDepth depth) = .ok v (m.toDepth depth)) :
    RunsWithin 0 code scope m (.ok v) m :=
  .of_eq rfl fun ev _ depth => Evaluator.loop_data hcall (h ev depth)

theorem runsWithin_symbol {name : String} {v : Value} (h : m.frames.get? scope name = some v) :
    RunsWithin 0 (.sym name) scope m (.ok v) m := by
  refine runsWithin_data (by simp) fun ev depth => ?_
  show Action.ofExcept (m.frames.lookup scope name) _ = _
  rw [Frames.lookup, h]
  rfl

theorem runsWithin_quote {id : ObjectId} {v : Value}
    (hplain : m.frames.bindsMacro scope "quote" = false) :
    RunsWithin 0 (.list id [.sym "quote", v]) scope m (.ok v) m :=
  runsWithin_of_step (macroCall?_eq_none hplain) (.of_eq rfl fun _ _ _ => rfl)

theorem needs_evalAll_nil : Needs 0 (fun ev _ => Step.evalAll ev scope []) m (.ok []) m :=
  .of_eq rfl fun _ _ _ => rfl

/-- Operands are evaluated one after another, each of them one level deeper. -/
theorem RunsWithin.evalAll {code v : Value} {rest : List Value} {r : Except Error (List Value)}
    (hcode : RunsWithin levels code scope m (.ok v) m')
    (hrest : Needs levels' (fun ev _ => Step.evalAll ev scope rest) m' r n) :
    Needs (max (levels + 1) levels') (fun ev _ => Step.evalAll ev scope (code :: rest)) m
      (r.map (v :: ·)) n :=
  hcode.eval.bind (hrest.map (v :: ·))

theorem RunsWithin.evalAll_error {code : Value} {rest : List Value} {e : Error}
    (hcode : RunsWithin levels code scope m (.error e) n) :
    Needs (levels + 1) (fun ev _ => Step.evalAll ev scope (code :: rest)) m (.error e) n :=
  hcode.eval.bind_error

section

variable {id : ObjectId} {name : String} {b : Builtin} {operands : List Value}
  (hname : SpecialForm.ofName? name = none) (hf : m.frames.get? scope name = some (.builtin b))
include hname hf

/-- A call evaluates its head first. -/
theorem runsWithin_of_callForm
    (hcall : Needs levels (fun ev _ => do
      let args ← Step.evalAll ev scope operands
      Step.apply ev args (.builtin b)) m (r.map .done) n) :
    RunsWithin (max 1 levels) (.list id (.sym name :: operands)) scope m r n := by
  have hplain : m.frames.bindsMacro scope name = false := by
    rw [Frames.bindsMacro, hf]
    rfl
  have hhead : (Value.sym name).sym?.bind SpecialForm.ofName? = none := hname
  refine runsWithin_of_step (macroCall?_eq_none hplain) ?_
  simp only [Step.ofForm, hhead]
  exact ((runsWithin_symbol hf).eval.bind hcall).done

/-- A call of a builtin function runs by its operands and by the function. -/
theorem runsWithin_call {args : List Value}
    (hargs : Needs levels (fun ev _ => Step.evalAll ev scope operands) m (.ok args) m')
    (hlimit : n.depthLimit = m'.depthLimit)
    (hrun : ∀ ev depth, b.run ev args (m'.toDepth depth) = Action.ofExcept r (n.toDepth depth)) :
    RunsWithin (max 1 levels) (.list id (.sym name :: operands)) scope m r n := by
  refine runsWithin_of_callForm hname hf (hargs.bind_eq hlimit fun ev _ depth => ?_)
  rw [Step.apply, Action.bind_apply, hrun ev depth]
  cases r <;> rfl

theorem runsWithin_call_error {e : Error}
    (hargs : Needs levels (fun ev _ => Step.evalAll ev scope operands) m (.error e) n) :
    RunsWithin (max 1 levels) (.list id (.sym name :: operands)) scope m (.error e) n :=
  runsWithin_of_callForm hname hf hargs.bind_error

end

section

variable {id : ObjectId} {test c yes no : Value} (hplain : m.frames.bindsMacro scope "if" = false)
  (htest : RunsWithin levels test scope m (.ok c) m')
include hplain htest

/-- The branch of a conditional takes its place. -/
theorem RunsWithin.branch_of_true (hc : c.isTruthy = true)
    (hyes : RunsWithin levels' yes scope m' r n) :
    RunsWithin (max (levels + 1) levels') (.list id [.sym "if", test, yes, no]) scope m r n := by
  refine runsWithin_of_step (macroCall?_eq_none hplain)
    (Needs.tail (htest.eval.bind_eq rfl fun _ _ _ => ?_) hyes)
  rw [if_pos hc]
  rfl

theorem RunsWithin.branch_of_false (hc : c.isTruthy = false)
    (hno : RunsWithin levels' no scope m' r n) :
    RunsWithin (max (levels + 1) levels') (.list id [.sym "if", test, yes, no]) scope m r n := by
  refine runsWithin_of_step (macroCall?_eq_none hplain)
    (Needs.tail (htest.eval.bind_eq rfl fun _ _ _ => ?_) hno)
  rw [hc]
  rfl

theorem RunsWithin.whenTrue (hc : c.isTruthy = true)
    (hbranch : RunsWithin levels' yes scope m' r n) :
    RunsWithin (max (levels + 1) levels') (.list id [.sym "if", test, yes]) scope m r n := by
  refine runsWithin_of_step (macroCall?_eq_none hplain)
    (Needs.tail (htest.eval.bind_eq rfl fun _ _ _ => ?_) hbranch)
  rw [if_pos hc]
  rfl

theorem RunsWithin.whenFalse (hc : c.isTruthy = false) :
    RunsWithin (levels + 1) (.list id [.sym "if", test, yes]) scope m (.ok .nil) m' := by
  refine runsWithin_of_step (macroCall?_eq_none hplain)
    (Needs.done (htest.eval.bind_eq rfl fun _ _ _ => ?_))
  rw [hc]
  rfl

end

/-! ## Macro calls whose levels are known -/

/-- A macro call is expanded by evaluating the body of the macro, if the result is no macro call. -/
theorem RunsWithin.expand {form : Value} {call : Evaluator.MacroCall} {frame : FrameId}
    (hcall : Evaluator.macroCall? m.frames scope form = some call)
    (henter : ∀ depth, Action.enterCall call.scope call.params call.operands (m.toDepth depth) =
      .ok frame (m'.toDepth depth))
    (hlimit : m'.depthLimit = m.depthLimit)
    (hbody : RunsWithin levels call.body frame m' r n)
    (hplain : ∀ form', r = .ok form' → Evaluator.macroCall? n.frames scope form' = none) :
    Needs (levels + 1) (fun ev rounds => ev.expand rounds form scope) m r n := by
  have hframe : Needs 0 (fun _ _ => Action.enterCall call.scope call.params call.operands) m
      (.ok frame) m' := .of_eq hlimit fun _ _ depth => henter depth
  have hnext : Needs (levels + 1) (fun ev rounds => do
      let next ← ev.eval call.body frame
      ev.expand rounds next scope) m' r n := by
    cases r with
    | ok form' => exact hbody.eval.bind_eq rfl fun _ _ _ => expand_eq_self (hplain form' rfl)
    | error e => exact hbody.eval.bind_error
  have hentered := hframe.bind (f := fun ev rounds frame => do
    let next ← ev.eval call.body frame
    ev.expand rounds next scope) hnext
  rw [Nat.zero_max] at hentered
  refine hentered.of_later fun ev rounds depth => ?_
  rw [Evaluator.expand_succ]
  simp only [show (m.toDepth depth).frames = m.frames from rfl, hcall]

section

variable {form : Value} {o : Outcome Value}

theorem evaluatesTo_of_needs_expand {form' : Value}
    (h : Needs levels (fun ev rounds => ev.expand rounds form scope) m (.ok form') n)
    (hroom : m.depth + 1 + levels ≤ m.depthLimit) :
    EvaluatesTo form scope m o ↔ EvaluatesTo form' scope (n.toDepth m.depth) o := by
  obtain ⟨-, enough, h⟩ := h
  have hexpand : ∀ fuel rounds, enough ≤ fuel → enough ≤ rounds →
      (evaluator fuel).expand rounds form scope (m.toDepth (m.depth + 1)) =
        .ok form' (n.toDepth (m.depth + 1)) := fun fuel rounds hfuel hrounds =>
    (h fuel rounds (m.depth + 1) hfuel hrounds (by omega)).1 hroom
  have hiff := evaluatesTo_of_expand (o := o) (by omega) hexpand
  exact hiff

theorem evaluatesTo_of_needs_expand_error {e : Error}
    (h : Needs levels (fun ev rounds => ev.expand rounds form scope) m (.error e) n)
    (hroom : m.depth + 1 + levels ≤ m.depthLimit) :
    EvaluatesTo form scope m (.error e (n.toDepth m.depth)) := by
  obtain ⟨-, enough, h⟩ := h
  have hexpand : (evaluator (enough + 1)).expand enough form scope (m.toDepth (m.depth + 1)) =
      .error e (n.toDepth (m.depth + 1)) :=
    (h (enough + 1) enough (m.depth + 1) (by omega) (by omega) (by omega)).1 hroom
  have heval := eval_of_expand_error (by omega) hexpand
  exact ⟨by simp, enough + 2, heval⟩

theorem exists_evaluatesTo_recursionLimit
    (h : Needs levels (fun ev rounds => ev.expand rounds form scope) m r n)
    (hfull : m.depthLimit < m.depth + 1 + levels) :
    ∃ n', EvaluatesTo form scope m (.error (.eval .recursionLimit) n') := by
  by_cases hroom : m.depth < m.depthLimit
  · obtain ⟨-, enough, h⟩ := h
    obtain ⟨n', h⟩ :=
      (h (enough + 1) enough (m.depth + 1) (by omega) (by omega) (by omega)).2 hfull
    exact ⟨_, by simp, enough + 2, eval_of_expand_error hroom h⟩
  · exact ⟨m, by simp, 1, Action.nested_of_le _ (Nat.le_of_not_lt hroom)⟩

end

end

end Lisp
