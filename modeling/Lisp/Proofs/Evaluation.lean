import Lisp.Proofs.Depth

/-!
# Rules of evaluation

More fuel does not change an outcome, so evaluation can be spoken of without fuel: code is evaluated
with any fuel that is enough. The rules say so of expressions, expanded or not, and of the steps
they take, up to the recursion limit. What outlives every change of a state outlives evaluation.
-/

namespace Lisp

/-! ## Fuel -/

theorem stable_eq {gives : Pause → Prop} : Stable Eq gives where
  same h := h ▸ ⟨rfl, rfl, rfl, rfl, rfl, rfl, rfl⟩
  define _ _ _ h := by rw [h]
  enter _ h := by rw [h]
  newCell _ h := by rw [h]
  writeCell _ _ h := by rw [h]
  newObject h := by rw [h]
  print _ h := by rw [h]
  input h := .inr ⟨by rw [h], fun _ => by rw [h]⟩

theorem Action.Tracks.nested_eq {gives : Pause → Prop} {α : Type} {x y : Action α}
    (h : Tracks Eq gives x y) : Tracks Eq gives (Action.nested x) (Action.nested y) := by
  refine .nested (S := Eq) ?_ ?_ ?_
  · rintro m _ rfl
    exact ⟨rfl, rfl⟩
  · rintro m _ rfl -
    exact h _ _ rfl
  · rintro m _ rfl
    rfl

/-- With more fuel an evaluator does the same, where it does not run out of fuel. -/
theorem tracks_evaluator_of_le {fuel fuel' : Nat} (hle : fuel ≤ fuel') :
    Evaluator.Tracks Eq (· = .fuel) (evaluator fuel) (evaluator fuel') := by
  induction fuel generalizing fuel' with
  | zero => exact ⟨fun _ _ _ _ _ => .gaveUp rfl, fun _ _ _ _ _ => .gaveUp rfl⟩
  | succ fuel ih =>
    obtain ⟨k, rfl⟩ := Nat.exists_eq_add_of_lt hle
    have hev := ih (Nat.le_add_right fuel k)
    have hfuel : Evaluator.FuelFor (· = .fuel) fuel (fuel + k) :=
      Or.inr ⟨rfl, Nat.le_add_right fuel k⟩
    constructor
    · exact fun code scope => (Evaluator.tracks_loop stable_eq hev hfuel code scope).nested_eq
    · exact fun f args => Evaluator.tracks_applied stable_eq hev f args

theorem Outcome.Agree.eq_of_ne_paused {p : Pause} {α : Type} {o o' : Outcome α}
    (h : o.Agree Eq (· = p) o') (ho : o ≠ .paused p) : o' = o := by
  cases h with
  | ok h => rw [h]
  | error h => rw [h]
  | paused => rfl
  | gaveUp hp => exact absurd (by rw [hp]) ho

theorem Outcome.Agree.eq_of_ne_fuel {α : Type} {o o' : Outcome α}
    (h : o.Agree Eq (· = .fuel) o') (ho : o ≠ .paused .fuel) : o' = o :=
  h.eq_of_ne_paused ho

theorem eval_of_le {fuel fuel' : Nat} {code : Value} {scope : FrameId} {m : Machine}
    (hle : fuel ≤ fuel') (ho : eval fuel code scope m ≠ .paused .fuel) :
    eval fuel' code scope m = eval fuel code scope m :=
  ((tracks_evaluator_of_le hle).eval code scope m m rfl).eq_of_ne_fuel ho

/-- Whatever the fuel, there is one outcome of an evaluation. -/
theorem eval_unique {fuel fuel' : Nat} {code : Value} {scope : FrameId} {m : Machine}
    (ho : eval fuel code scope m ≠ .paused .fuel) (ho' : eval fuel' code scope m ≠ .paused .fuel) :
    eval fuel code scope m = eval fuel' code scope m := by
  rcases Nat.le_total fuel fuel' with hle | hle
  · exact (eval_of_le hle ho).symm
  · exact eval_of_le hle ho'

theorem eq_ok_of_eval {fuel fuel' : Nat} {code v : Value} {scope : FrameId} {m n : Machine}
    {o : Outcome Value} (h : eval fuel code scope m = .ok v n) (h' : eval fuel' code scope m = o)
    (ho : o ≠ .paused .fuel) : o = .ok v n := by
  rw [← h, ← h']
  refine eval_unique ?_ ?_
  · rwa [h']
  · rw [h]
    nofun

theorem loop_of_le {fuel fuel' rounds rounds' : Nat} {code : Value} {scope : FrameId} {m : Machine}
    (hfuel : fuel ≤ fuel') (hrounds : rounds ≤ rounds')
    (ho : (evaluator fuel).loop rounds code scope m ≠ .paused .fuel) :
    (evaluator fuel').loop rounds' code scope m = (evaluator fuel).loop rounds code scope m :=
  (Evaluator.tracks_loop stable_eq (tracks_evaluator_of_le hfuel) (Or.inr ⟨rfl, hrounds⟩) code
    scope m m rfl).eq_of_ne_fuel ho

theorem loop_depth {fuel : Nat} {code v : Value} {scope : FrameId} {m n : Machine}
    (h : (evaluator fuel).loop fuel code scope m = .ok v n) : n.depth = m.depth := by
  have hends := ends_depth (Evaluator.tracks_loop (stable_atDepth m.depth m.depthLimit)
    (tracks_evaluator _ _ fuel) (.refl _ fuel) code scope m m ⟨rfl, rfl, rfl⟩)
  rw [h] at hends
  exact hends

/-! ## What evaluation keeps -/

/-- A property of states that outlives all that is done to a state. -/
structure Machine.Kept (P : Machine → Prop) : Prop where
  define {m : Machine} (f : FrameId) (name : String) (v : Value) : P m →
    P { m with frames := m.frames.set f name v }
  enter {m : Machine} (frame : Frame) : P m → P { m with frames := m.frames.push frame }
  newCell {m : Machine} (v : Value) : P m → P { m with cells := m.cells.push v }
  writeCell {m : Machine} (id : Nat) (v : Value) : P m →
    P { m with cells := m.cells.setIfInBounds id v }
  newObject {m : Machine} : P m → P { m with objects := m.objects + 1 }
  outside {m : Machine} (world : World) : P m → P { m with world }
  depth {m : Machine} (depth : Nat) : P m → P { m with depth }

/-- The root frame and the limit are set once. -/
theorem Machine.kept_setting (P : Option FrameId → Nat → Prop) :
    Kept fun m => P m.root m.depthLimit :=
  ⟨fun _ _ _ h => h, fun _ h => h, fun _ h => h, fun _ _ h => h, fun h => h, fun _ h => h,
    fun _ h => h⟩

theorem Outcome.Agree.ends_kept {P : Machine → Prop} {α : Type} {o o' : Outcome α}
    (h : o.Agree (fun m n => m = n ∧ P m) (fun _ => False) o') : o.Ends P := by
  cases h with
  | ok h => exact h.2
  | error h => exact h.2
  | paused => trivial
  | gaveUp hp => exact hp.elim

section

variable {P : Machine → Prop} (hP : Machine.Kept P)
include hP

theorem Machine.Kept.stable {gives : Pause → Prop} :
    Stable (fun m n => m = n ∧ P m) gives where
  same h := h.1 ▸ ⟨rfl, rfl, rfl, rfl, rfl, rfl, rfl⟩
  define f name v h := ⟨by rw [h.1], hP.define f name v h.2⟩
  enter frame h := ⟨by rw [h.1], hP.enter frame h.2⟩
  newCell v h := ⟨by rw [h.1], hP.newCell v h.2⟩
  writeCell id v h := ⟨by rw [h.1], hP.writeCell id v h.2⟩
  newObject h := ⟨by rw [h.1], hP.newObject h.2⟩
  print _ h := ⟨by rw [h.1], hP.outside _ h.2⟩
  input h := .inr ⟨by rw [h.1], fun _ => ⟨by rw [h.1], hP.outside _ h.2⟩⟩

theorem Machine.Kept.tracks_evaluator (fuel : Nat) :
    Evaluator.Tracks (fun m n => m = n ∧ P m) (fun _ => False) (evaluator fuel)
      (evaluator fuel) := by
  induction fuel with
  | zero => exact ⟨fun _ _ => .pause .fuel, fun _ _ => .pause .fuel⟩
  | succ fuel ih =>
    constructor
    · intro code scope
      refine .nested (S := fun m n => m = n ∧ P m) ?_ ?_ ?_
      · rintro m n ⟨rfl, -⟩
        exact ⟨rfl, rfl⟩
      · rintro m n ⟨rfl, h⟩ -
        exact Evaluator.tracks_loop hP.stable ih (.refl _ fuel) code scope _ _
          ⟨rfl, hP.depth _ h⟩
      · rintro m n ⟨rfl, h⟩
        exact ⟨rfl, hP.depth _ h⟩
    · exact fun f args => Evaluator.tracks_applied hP.stable ih f args

theorem Machine.Kept.ends_eval {m : Machine} (hm : P m) (fuel : Nat) (code : Value)
    (scope : FrameId) : (eval fuel code scope m).Ends P :=
  ((hP.tracks_evaluator fuel).eval code scope m m ⟨rfl, hm⟩).ends_kept

end

/-! ## Delivery -/

/-- The same state at another depth. -/
def Machine.toDepth (m : Machine) (depth : Nat) : Machine :=
  { m with depth }

@[simp] theorem Machine.toDepth_toDepth (m : Machine) (depth depth' : Nat) :
    (m.toDepth depth).toDepth depth' = m.toDepth depth' :=
  rfl

theorem Machine.toDepth_self (m : Machine) : m.toDepth m.depth = m :=
  rfl

theorem Action.nested_toDepth {α : Type} (x : Action α) (m : Machine) (depth : Nat) :
    Action.nested x (m.toDepth depth) =
      if m.depthLimit < depth + 1 then .error (.eval .recursionLimit) (m.toDepth depth)
      else match x (m.toDepth (depth + 1)) with
        | .ok a n => .ok a (n.toDepth (n.depth - 1))
        | .error e n => .error e (n.toDepth (n.depth - 1))
        | .paused p => .paused p :=
  rfl

/-- The action has the value and leads to the state, unless the recursion limit stops it. -/
def Action.Delivers {α : Type} (x : Action α) (m : Machine) (a : α) (n : Machine) : Prop :=
  x m = .ok a n ∨ ∃ n', x m = .error (.eval .recursionLimit) n'

namespace Action.Delivers

theorem of_eq {α : Type} {x : Action α} {m n : Machine} {a : α} (h : x m = .ok a n) :
    x.Delivers m a n :=
  Or.inl h

theorem bind {α β : Type} {x : Action α} {f : α → Action β} {m m' n : Machine} {a : α} {b : β}
    (hx : x.Delivers m a m') (hf : (f a).Delivers m' b n) : (x >>= f).Delivers m b n := by
  unfold Delivers
  rw [bind_apply]
  rcases hx with hx | ⟨n', hx⟩
  · rw [hx]
    exact hf
  · rw [hx]
    exact Or.inr ⟨n', rfl⟩

theorem nested {α : Type} {x : Action α} {m n : Machine} {depth : Nat} {a : α}
    (hx : x.Delivers (m.toDepth (depth + 1)) a (n.toDepth (depth + 1))) :
    (Action.nested x).Delivers (m.toDepth depth) a (n.toDepth depth) := by
  unfold Delivers
  rw [nested_toDepth]
  split
  · exact Or.inr ⟨_, rfl⟩
  · rcases hx with hx | ⟨n', hx⟩
    · rw [hx]
      exact Or.inl rfl
    · rw [hx]
      exact Or.inr ⟨_, rfl⟩

end Action.Delivers

/-- The code is evaluated to the value, from one state to another. -/
def Evaluates (code : Value) (scope : FrameId) (m : Machine) (v : Value) (n : Machine) : Prop :=
  ∃ enough, ∀ fuel, enough ≤ fuel → (eval fuel code scope).Delivers m v n

/-- The same of code that is evaluated at the depth at hand, in the place of other code. -/
def Runs (code : Value) (scope : FrameId) (m : Machine) (v : Value) (n : Machine) : Prop :=
  ∃ enough, ∀ fuel rounds, enough ≤ fuel → enough ≤ rounds →
    ((evaluator fuel).loop rounds code scope).Delivers m v n

/-- The form takes a step, however macro calls are expanded. -/
def Takes (form : Value) (scope : FrameId) (m : Machine) (step : Step) (n : Machine) : Prop :=
  ∃ enough, ∀ fuel expand, enough ≤ fuel →
    (Step.ofForm (evaluator fuel) expand scope form).Delivers m step n

theorem Runs.evaluates {code v : Value} {scope : FrameId} {m n : Machine} {depth : Nat}
    (h : Runs code scope (m.toDepth (depth + 1)) v (n.toDepth (depth + 1))) :
    Evaluates code scope (m.toDepth depth) v (n.toDepth depth) := by
  obtain ⟨enough, h⟩ := h
  refine ⟨enough + 1, fun fuel hfuel => ?_⟩
  obtain ⟨k, rfl⟩ := Nat.exists_eq_add_of_lt hfuel
  have hle := Nat.le_add_right enough k
  exact .nested (h (enough + k) (enough + k) hle hle)

/-- Code that has been evaluated can be evaluated in the place of other code one level deeper. -/
theorem runs_of_eval {fuel : Nat} {code v : Value} {scope : FrameId} {m n : Machine} {depth : Nat}
    (h : eval fuel code scope (m.toDepth depth) = .ok v n) :
    Runs code scope (m.toDepth (depth + 1)) v (n.toDepth (depth + 1)) := by
  cases fuel with
  | zero => cases h
  | succ fuel =>
    rw [eval, Action.nested_toDepth] at h
    -- An evaluation within the limit is a loop one level deeper, and keeps that depth.
    split at h
    · cases h
    · split at h
      · next v' n' hloop =>
        cases h
        have hdepth : n'.depth = depth + 1 := loop_depth hloop
        refine ⟨fuel, fun fuel' rounds hfuel hrounds => .of_eq ?_⟩
        rw [loop_of_le hfuel hrounds (fun he => nomatch hloop.symm.trans he),
          Machine.toDepth_toDepth]
        exact hloop.trans (by rw [← hdepth, Machine.toDepth_self])
      · cases h
      · cases h

/-! ## Steps of an expression -/

theorem expand_eq_self {ev : Evaluator} {fuel : Nat} {form : Value} {scope : FrameId} {m : Machine}
    (h : Evaluator.macroCall? m.frames scope form = none) :
    ev.expand (fuel + 1) form scope m = .ok form m := by
  rw [Evaluator.expand_succ, h]

namespace Evaluator

/-- What follows a step: its value, or the tail expression that it leads to. -/
def proceed (ev : Evaluator) (rounds : Nat) : Step → Action Value
  | .done v => return v
  | .tail code scope => ev.loop rounds code scope

section

variable {ev : Evaluator} {rounds : Nat} {scope : FrameId} {m : Machine}

theorem loop_plain {form : Value} (hplain : macroCall? m.frames scope form = none) :
    ev.loop (rounds + 2) form scope m =
      (Step.ofForm ev (ev.expand (rounds + 1)) scope form >>= ev.proceed (rounds + 1)) m := by
  rw [loop_succ, Action.bind_apply, expand_eq_self hplain]
  rfl

/-- What is no call has its value at once. -/
theorem loop_eq_evalData {code : Value}
    (hcall : ∀ id head operands, code ≠ .list id (head :: operands)) :
    ev.loop (rounds + 2) code scope = Step.evalData ev scope code := by
  funext m
  have hplain : macroCall? m.frames scope code = none := by
    rw [macroCall?.eq_def]
    split
    · next id name operands => exact absurd rfl (hcall id _ operands)
    · rfl
  rw [loop_plain hplain, Step.ofForm.eq_2 _ _ _ _ fun id head operands => hcall id head operands,
    Action.bind_apply, Action.bind_apply]
  cases Step.evalData ev scope code m <;> rfl

theorem loop_data {code v : Value} (hcall : ∀ id head operands, code ≠ .list id (head :: operands))
    (h : Step.evalData ev scope code m = .ok v m) :
    ev.loop (rounds + 2) code scope m = .ok v m := by
  rw [loop_eq_evalData hcall, h]

/-- A call runs by its head and its operands, by the step of the function, and by what follows. -/
theorem loop_call {id : ObjectId} {head f : Value} {operands args : List Value} {m' n : Machine}
    (hplain : macroCall? m.frames scope (.list id (head :: operands)) = none)
    (hhead : head.sym?.bind SpecialForm.ofName? = none) (hf : ev.eval head scope m = .ok f m')
    (hargs : Step.evalAll ev scope operands m' = .ok args n) :
    ev.loop (rounds + 2) (.list id (head :: operands)) scope m =
      (Step.apply ev args f >>= ev.proceed (rounds + 1)) n := by
  rw [loop_plain hplain, Step.ofForm, hhead]
  simp only [Step.callForm, Action.bind_apply, hf, hargs]

end

end Evaluator

section

variable {form v : Value} {scope : FrameId} {m m' n : Machine}
  (hplain : Evaluator.macroCall? m.frames scope form = none)
include hplain

/-- A form that is no macro call runs by its step, and by what that leads to. -/
theorem Takes.runs_bind {step : Step} (h : Takes form scope m step m')
    (hnext : ∃ enough, ∀ fuel rounds, enough ≤ fuel → enough ≤ rounds →
      Action.Delivers (match step with
        | .done w => return w
        | .tail code scope' => (evaluator fuel).loop rounds code scope') m' v n) :
    Runs form scope m v n := by
  obtain ⟨enough, h⟩ := h
  obtain ⟨enough', hnext⟩ := hnext
  refine ⟨max enough enough' + 2, fun fuel rounds hfuel hrounds => ?_⟩
  obtain ⟨k, rfl⟩ := Nat.exists_eq_add_of_le hrounds
  -- One round is for the form itself, and the expansion of it takes a round more.
  rw [show max enough enough' + 2 + k = (max enough enough' + k + 1) + 1 by omega,
    Evaluator.loop_succ]
  refine .bind (.of_eq (expand_eq_self hplain)) (.bind (h fuel _ (by omega)) ?_)
  exact hnext fuel _ (by omega) (by omega)

theorem Takes.runs_done (h : Takes form scope m (.done v) n) : Runs form scope m v n :=
  h.runs_bind hplain ⟨0, fun _ _ _ _ => .of_eq rfl⟩

theorem Takes.runs_tail {code : Value} {inner : FrameId}
    (h : Takes form scope m (.tail code inner) m') (hcode : Runs code inner m' v n) :
    Runs form scope m v n :=
  h.runs_bind hplain hcode

end

/-! ## Expressions without operands -/

theorem takes_data {v w : Value} {scope : FrameId} {m n : Machine}
    (hcall : ∀ id head operands, v ≠ .list id (head :: operands))
    (h : ∀ ev, Step.evalData ev scope v m = .ok w n) : Takes v scope m (.done w) n := by
  refine ⟨0, fun fuel expand _ => ?_⟩
  rw [Step.ofForm.eq_2 _ _ _ _ fun id head operands => hcall id head operands]
  exact .bind (.of_eq (h (evaluator fuel))) (.of_eq rfl)

theorem takes_quote {id : ObjectId} {v : Value} {scope : FrameId} {m : Machine} :
    Takes (.list id [.sym "quote", v]) scope m (.done v) m :=
  ⟨0, fun _ _ _ => .of_eq rfl⟩

theorem takes_quasiquote {id : ObjectId} {template code : Value} {scope : FrameId} {m : Machine}
    (h : Template.expand template = .ok code) :
    Takes (.list id [.sym "quasiquote", template]) scope m (.tail code scope) m := by
  have hexpand : Action.ofExcept (Template.expand template) m = .ok code m := by
    rw [h]
    rfl
  refine ⟨0, fun fuel expand _ => ?_⟩
  show Action.Delivers (do
    let code ← Action.ofExcept (Template.expand template)
    return Step.tail code scope) m _ m
  exact .bind (.of_eq hexpand) (.of_eq rfl)

/-! ## Calls -/

/-- Expressions are evaluated one after another. -/
inductive EvaluatesAll (scope : FrameId) : List Value → Machine → List Value → Machine → Prop
  | nil {m : Machine} : EvaluatesAll scope [] m [] m
  | cons {code v : Value} {rest vs : List Value} {m m' n : Machine} :
      Evaluates code scope m v m' → EvaluatesAll scope rest m' vs n →
        EvaluatesAll scope (code :: rest) m (v :: vs) n

theorem EvaluatesAll.delivers {scope : FrameId} {codes vs : List Value} {m n : Machine}
    (h : EvaluatesAll scope codes m vs n) :
    ∃ enough, ∀ fuel, enough ≤ fuel →
      (Step.evalAll (evaluator fuel) scope codes).Delivers m vs n := by
  induction h with
  | nil => exact ⟨0, fun _ _ => .of_eq rfl⟩
  | cons hcode _ ih =>
    obtain ⟨enough, hcode⟩ := hcode
    obtain ⟨enough', ih⟩ := ih
    refine ⟨max enough enough', fun fuel hfuel => ?_⟩
    exact .bind (hcode fuel (by omega)) (.bind (ih fuel (by omega)) (.of_eq rfl))

theorem takes_call {id : ObjectId} {head f : Value} {operands args : List Value} {scope : FrameId}
    {m m' m'' n : Machine} {step : Step}
    (hhead : head.sym?.bind SpecialForm.ofName? = none)
    (hf : Evaluates head scope m f m') (hargs : EvaluatesAll scope operands m' args m'')
    (happly : ∀ ev, (Step.apply ev args f).Delivers m'' step n) :
    Takes (.list id (head :: operands)) scope m step n := by
  obtain ⟨enough, hf⟩ := hf
  obtain ⟨enough', hargs⟩ := hargs.delivers
  refine ⟨max enough enough', fun fuel expand hfuel => ?_⟩
  rw [Step.ofForm, hhead]
  exact .bind (hf fuel (by omega)) (.bind (hargs fuel (by omega)) (happly (evaluator fuel)))

/-! ## Sequences -/

/-- Evaluates forms in a frame one after another. -/
def Evaluator.evalEach (ev : Evaluator) (scope : FrameId) : List Value → Action Unit
  | [] => return ()
  | form :: rest => do
    let _ ← ev.eval form scope
    ev.evalEach scope rest

theorem Step.inSequence_snoc (ev : Evaluator) (scope : FrameId) (code last : Value)
    (rest : List Value) :
    inSequence ev scope code (rest ++ [last]) =
      ev.evalEach scope (code :: rest) >>= fun _ => return .tail last scope := by
  induction rest generalizing code with
  | nil =>
    simp only [List.nil_append, inSequence, Evaluator.evalEach, Action.bind_assoc]
    rfl
  | cons next rest ih =>
    rw [List.cons_append, inSequence, Evaluator.evalEach, Action.bind_assoc]
    exact congrArg (ev.eval code scope >>= ·) (funext fun _ => ih next)

theorem Step.special_sequence (ev : Evaluator) (expand : Value → FrameId → Action Value)
    (scope : FrameId) (forms : List Value) (last : Value) :
    special ev expand scope .sequence (forms ++ [last]) =
      ev.evalEach scope forms >>= fun _ => return .tail last scope := by
  cases forms with
  | nil => rfl
  | cons code rest => exact inSequence_snoc ev scope code last rest

end Lisp
