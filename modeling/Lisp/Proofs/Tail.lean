import Lisp.Proofs.Evaluation

/-!
# Tail expressions

A step of evaluation that does not have its value at once goes on with a tail expression.
`Continues` says by which forms and with which expressions it can. A tail expression is evaluated in
the place of the form that led to it, at the same depth, so that no limit stops a program that goes
on by tail expressions only.
-/

namespace Lisp

theorem Action.bind_eq_ok {α β : Type} {x : Action α} {f : α → Action β} {m n : Machine} {b : β} :
    (x >>= f) m = .ok b n ↔ ∃ a m', x m = .ok a m' ∧ f a m' = .ok b n := by
  rw [bind_apply]
  constructor
  · intro h
    split at h
    · next a m' hx => exact ⟨a, m', hx, h⟩
    · cases h
    · cases h
  · rintro ⟨a, m', hx, hf⟩
    rw [hx]
    exact hf

theorem Action.ofExcept_eq_ok {α : Type} {r : Except Error α} {m n : Machine} {a : α} :
    Action.ofExcept r m = .ok a n ↔ r = .ok a ∧ m = n := by
  cases r <;> simp [Action.ofExcept, Action.pure, Action.fail]

theorem SpecialForm.eq_name_of_ofName? {name : String} {form : SpecialForm}
    (h : ofName? name = some form) : name = form.name := by
  have hname := List.find?_some h
  exact (beq_iff_eq.mp hname).symm

theorem Step.ofForm_special (ev : Evaluator) (expand : Value → FrameId → Action Value)
    (scope : FrameId) (id : ObjectId) (form : SpecialForm) (operands : List Value) :
    ofForm ev expand scope (.list id (.sym form.name :: operands)) =
      special ev expand scope form operands := by
  have hname : SpecialForm.ofName? form.name = some form := by cases form <;> rfl
  rw [ofForm, Value.sym?, Option.bind_some, hname]

/-! ## Steps that continue -/

/-- A form leads, from one state to another, to a tail expression and the frame to evaluate it
in. -/
inductive Continues (ev : Evaluator) (scope : FrameId) (m : Machine) :
    Value → Value → FrameId → Machine → Prop
  /-- Without an alternative only a condition that holds leads on. -/
  | whenTrue {id : ObjectId} {condition c branch : Value} {n : Machine} :
      ev.eval condition scope m = .ok c n → c.isTruthy = true →
      Continues ev scope m (.list id [.sym "if", condition, branch]) branch scope n
  | branch {id : ObjectId} {condition c yes no : Value} {n : Machine} :
      ev.eval condition scope m = .ok c n →
      Continues ev scope m (.list id [.sym "if", condition, yes, no])
        (if c.isTruthy then yes else no) scope n
  | letIn {id : ObjectId} {bindings body : Value} {pairs : List Value} {inner : FrameId}
      {m' n : Machine} :
      Step.letBindings bindings = .ok pairs → Action.enter scope [] m = .ok inner m' →
      Step.bindPairs ev inner pairs m' = .ok () n →
      Continues ev scope m (.list id [.sym "let*", bindings, body]) body inner n
  | sequence {id : ObjectId} {codes : List Value} {last : Value} {n : Machine} :
      ev.evalEach scope codes m = .ok () n →
      Continues ev scope m (.list id (.sym "do" :: (codes ++ [last]))) last scope n
  | quasiquote {id : ObjectId} {template code : Value} :
      Template.expand template = .ok code →
      Continues ev scope m (.list id [.sym "quasiquote", template]) code scope m
  | attempt {id : ObjectId} {body : Value} :
      Continues ev scope m (.list id [.sym "try*", body]) body scope m
  | handler {id : ObjectId} {body clause handler : Value} {name : String} {e : Error}
      {inner : FrameId} {m' n : Machine} :
      Step.catchClause clause = .ok (name, handler) → ev.eval body scope m = .error e m' →
      Action.enter scope [(name, e.payload)] m' = .ok inner n →
      Continues ev scope m (.list id [.sym "try*", body, clause]) handler inner n
  | call {id : ObjectId} {head body : Value} {operands params args : List Value}
      {outer inner : FrameId} {isMacro : Bool} {m' m'' n : Machine} :
      head.sym?.bind SpecialForm.ofName? = none →
      ev.eval head scope m = .ok (.closure params body outer isMacro) m' →
      Step.evalAll ev scope operands m' = .ok args m'' →
      Action.enterCall outer params args m'' = .ok inner n →
      Continues ev scope m (.list id (head :: operands)) body inner n

section

variable {ev : Evaluator} {expand : Value → FrameId → Action Value} {scope inner : FrameId}
  {m n : Machine} {code : Value}

theorem Continues.ofForm {form : Value} (h : Continues ev scope m form code inner n) :
    Step.ofForm ev expand scope form m = .ok (.tail code inner) n := by
  cases h with
  | @whenTrue id condition c _ _ hc htrue =>
    refine (congrFun (Step.ofForm_special ev expand scope id .branch [condition, code]) m).trans ?_
    refine Action.bind_eq_ok.mpr ⟨c, n, hc, ?_⟩
    rw [if_pos htrue]
    rfl
  | @branch id condition c yes no _ hc =>
    refine (congrFun
      (Step.ofForm_special ev expand scope id .branch [condition, yes, no]) m).trans ?_
    exact Action.bind_eq_ok.mpr ⟨c, n, hc, rfl⟩
  | @letIn id bindings _ pairs _ m' _ hpairs henter hbind =>
    refine (congrFun (Step.ofForm_special ev expand scope id .letIn [bindings, code]) m).trans ?_
    refine Action.bind_eq_ok.mpr ⟨pairs, m, Action.ofExcept_eq_ok.mpr ⟨hpairs, rfl⟩, ?_⟩
    refine Action.bind_eq_ok.mpr ⟨inner, m', henter, ?_⟩
    exact Action.bind_eq_ok.mpr ⟨(), n, hbind, rfl⟩
  | @sequence id codes _ _ hcodes =>
    refine (congrFun
      (Step.ofForm_special ev expand scope id .sequence (codes ++ [code])) m).trans ?_
    rw [Step.special_sequence]
    exact Action.bind_eq_ok.mpr ⟨(), n, hcodes, rfl⟩
  | @quasiquote id template _ hcode =>
    refine (congrFun (Step.ofForm_special ev expand scope id .quasiquote [template]) m).trans ?_
    exact Action.bind_eq_ok.mpr ⟨code, m, Action.ofExcept_eq_ok.mpr ⟨hcode, rfl⟩, rfl⟩
  | attempt => rfl
  | @handler id body clause _ name e _ m' _ hclause hbody henter =>
    refine (congrFun (Step.ofForm_special ev expand scope id .tryCatch [body, clause]) m).trans ?_
    refine Action.bind_eq_ok.mpr ⟨(name, code), m, Action.ofExcept_eq_ok.mpr ⟨hclause, rfl⟩, ?_⟩
    simp only [Action.attempt, hbody]
    exact Action.bind_eq_ok.mpr ⟨inner, n, henter, rfl⟩
  | call hhead hf hargs henter =>
    rw [Step.ofForm, hhead]
    exact Action.bind_eq_ok.mpr ⟨_, _, hf, Action.bind_eq_ok.mpr ⟨_, _, hargs,
      Action.bind_eq_ok.mpr ⟨_, _, henter, rfl⟩⟩⟩

theorem Step.exists_of_inSequence {rest : List Value} {first : Value}
    (h : inSequence ev scope first rest m = .ok (.tail code inner) n) :
    ∃ codes, first :: rest = codes ++ [code] ∧ ev.evalEach scope codes m = .ok () n ∧
      inner = scope := by
  have hne : first :: rest ≠ [] := List.cons_ne_nil first rest
  obtain ⟨codes, last, hcodes⟩ : ∃ codes last, first :: rest = codes ++ [last] :=
    ⟨_, _, (List.dropLast_concat_getLast hne).symm⟩
  have hspecial : special ev (fun form _ => pure form) scope .sequence (first :: rest) m =
      .ok (.tail code inner) n := h
  rw [hcodes, special_sequence, Action.bind_eq_ok] at hspecial
  obtain ⟨_, m', heach, hlast⟩ := hspecial
  cases hlast
  exact ⟨codes, hcodes, heach, rfl⟩

theorem continues_of_special {form : SpecialForm} {operands : List Value} {id : ObjectId}
    (h : Step.special ev expand scope form operands m = .ok (.tail code inner) n) :
    Continues ev scope m (.list id (.sym form.name :: operands)) code inner n := by
  unfold Step.special at h
  split at h
  · obtain ⟨c, m', hc, hstep⟩ := Action.bind_eq_ok.mp h
    by_cases htrue : c.isTruthy = true
    · rw [if_pos htrue] at hstep
      cases hstep
      exact .whenTrue hc htrue
    · rw [if_neg htrue] at hstep
      cases hstep
  · obtain ⟨c, m', hc, hstep⟩ := Action.bind_eq_ok.mp h
    cases hstep
    exact .branch hc
  · obtain ⟨name, m₁, -, h⟩ := Action.bind_eq_ok.mp h
    obtain ⟨v, m₂, -, h⟩ := Action.bind_eq_ok.mp h
    obtain ⟨_, m₃, -, h⟩ := Action.bind_eq_ok.mp h
    cases h
  · obtain ⟨name, m₁, -, h⟩ := Action.bind_eq_ok.mp h
    obtain ⟨v, m₂, -, h⟩ := Action.bind_eq_ok.mp h
    obtain ⟨expander, m₃, -, h⟩ := Action.bind_eq_ok.mp h
    obtain ⟨_, m₄, -, h⟩ := Action.bind_eq_ok.mp h
    cases h
  · obtain ⟨pairs, m₁, hbindings, h⟩ := Action.bind_eq_ok.mp h
    obtain ⟨hpairs, rfl⟩ := Action.ofExcept_eq_ok.mp hbindings
    obtain ⟨frame, m₂, henter, h⟩ := Action.bind_eq_ok.mp h
    obtain ⟨_, m₃, hbind, h⟩ := Action.bind_eq_ok.mp h
    cases h
    exact .letIn hpairs henter hbind
  · obtain ⟨codes, hcodes, heach, rfl⟩ := Step.exists_of_inSequence h
    rw [hcodes]
    exact .sequence heach
  · obtain ⟨params, m₁, -, h⟩ := Action.bind_eq_ok.mp h
    cases h
  · cases h
  · obtain ⟨expanded, m₁, htemplate, h⟩ := Action.bind_eq_ok.mp h
    obtain ⟨hcode, rfl⟩ := Action.ofExcept_eq_ok.mp htemplate
    cases h
    exact .quasiquote hcode
  · obtain ⟨expanded, m₁, -, h⟩ := Action.bind_eq_ok.mp h
    cases h
  · cases h
    exact .attempt
  · next body clause =>
    obtain ⟨⟨name, handler⟩, m₁, hpair, h⟩ := Action.bind_eq_ok.mp h
    obtain ⟨hclause, rfl⟩ := Action.ofExcept_eq_ok.mp hpair
    simp only [Action.attempt] at h
    split at h
    · cases h
    · next e m₂ hbody =>
      obtain ⟨frame, m₃, henter, h⟩ := Action.bind_eq_ok.mp h
      cases h
      exact .handler hclause hbody henter
    · cases h
  · cases h

theorem continues_of_callForm {head : Value} {operands : List Value} {id : ObjectId}
    (hhead : head.sym?.bind SpecialForm.ofName? = none)
    (h : Step.callForm ev scope head operands m = .ok (.tail code inner) n) :
    Continues ev scope m (.list id (head :: operands)) code inner n := by
  obtain ⟨f, m₁, hf, h⟩ := Action.bind_eq_ok.mp h
  obtain ⟨args, m₂, hargs, h⟩ := Action.bind_eq_ok.mp h
  cases f with
  | closure params body outer isMacro =>
    obtain ⟨frame, m₃, henter, h⟩ := Action.bind_eq_ok.mp h
    cases h
    exact .call hhead hf hargs henter
  | _ =>
    obtain ⟨_, _, -, h⟩ := Action.bind_eq_ok.mp h
    cases h

/-- The forms of `Continues` are all that lead on. -/
theorem ofForm_eq_tail_iff {form : Value} :
    Step.ofForm ev expand scope form m = .ok (.tail code inner) n ↔
      Continues ev scope m form code inner n := by
  refine ⟨fun h => ?_, Continues.ofForm⟩
  by_cases hform : ∃ id head operands, form = .list id (head :: operands)
  · obtain ⟨id, head, operands, rfl⟩ := hform
    rw [Step.ofForm] at h
    cases hhead : head.sym?.bind SpecialForm.ofName? with
    | none =>
      rw [hhead] at h
      exact continues_of_callForm hhead h
    | some special =>
      rw [hhead] at h
      obtain ⟨name, hname, hspecial⟩ := Option.bind_eq_some_iff.mp hhead
      cases head with
      | sym text =>
        cases hname
        rw [SpecialForm.eq_name_of_ofName? hspecial]
        exact continues_of_special h
      | _ => cases hname
  · rw [Step.ofForm.eq_2 _ _ _ _ fun id head operands heq => hform ⟨id, head, operands, heq⟩] at h
    obtain ⟨v, m₁, -, h⟩ := Action.bind_eq_ok.mp h
    cases h

/-- A tail expression takes the place of the form, once macro calls in this are expanded. -/
theorem Continues.loop_of_expand {rounds : Nat} {form expanded : Value} {m' : Machine}
    (h : Continues ev scope m' expanded code inner n)
    (hexpand : ev.expand rounds form scope m = .ok expanded m') :
    ev.loop (rounds + 1) form scope m = ev.loop rounds code inner n := by
  rw [Evaluator.loop_succ, Action.bind_apply, hexpand]
  dsimp only
  rw [Action.bind_apply, h.ofForm]

theorem Continues.loop {rounds : Nat} {form : Value} (h : Continues ev scope m form code inner n)
    (hplain : Evaluator.macroCall? m.frames scope form = none) :
    ev.loop (rounds + 2) form scope m = ev.loop (rounds + 1) code inner n :=
  h.loop_of_expand (expand_eq_self hplain)

end

/-! ## Depth -/

section

variable {fuel rounds : Nat} {scope inner : FrameId} {m n : Machine} {form code : Value}

theorem Continues.depth_eq (h : Continues (evaluator fuel) scope m form code inner n) :
    n.depth = m.depth := by
  have hev := tracks_evaluator m.depth m.depthLimit fuel
  have hR : Stable (AtDepth m.depth m.depthLimit) fun _ => False :=
    stable_atDepth m.depth m.depthLimit
  have hends := ends_depth (Step.tracks_ofForm hR hev
    (Evaluator.tracks_expand hR hev (.refl _ fuel)) scope form m m ⟨rfl, rfl, rfl⟩)
  rw [h.ofForm] at hends
  exact hends

theorem expand_ends (fuel rounds : Nat) (form : Value) (scope : FrameId) (m : Machine) :
    ((evaluator fuel).expand rounds form scope m).Ends fun n =>
      n.depth = m.depth ∧ n.depthLimit = m.depthLimit :=
  ends_atDepth (Evaluator.tracks_expand (stable_atDepth m.depth m.depthLimit)
    (tracks_evaluator _ _ fuel) (.refl _ rounds) form scope m m ⟨rfl, rfl, rfl⟩)

theorem expand_depth {expanded : Value}
    (h : (evaluator fuel).expand rounds form scope m = .ok expanded n) : n.depth = m.depth := by
  have hends := expand_ends fuel rounds form scope m
  rw [h] at hends
  exact hends.1

end

end Lisp
