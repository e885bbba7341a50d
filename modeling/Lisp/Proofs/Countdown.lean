import Lisp.Proofs.Limit
import Lisp.Proofs.Prelude
import Lisp.Proofs.Scope

/-!
# A countdown by tail expressions

A function that calls itself from a handler, in a sequence, within bindings, in a branch: all of
them tail expressions. Each time round three frames are made, and the function is found through them
again; but the depth stays what it is, so that the countdown ends from wherever it starts.
-/

namespace Lisp

/-! ## Expressions that take no steps or one -/

/-- The code is a name of the value, or the integer that it is. -/
inductive Denotes (frames : Frames) (scope : FrameId) : Value → Value → Prop
  | name {name : String} {v : Value} : frames.get? scope name = some v →
      Denotes frames scope (.sym name) v
  | int (n : Int64) : Denotes frames scope (.int n) (.int n)

section

variable {alarm : Pause} {fuel : Nat} {scope : FrameId} {m : Machine}

theorem Denotes.boundedEval {code v : Value} (h : Denotes m.frames scope code v) (hfuel : 3 ≤ fuel)
    (hroom : m.depth < m.depthLimit) : boundedEval alarm fuel code scope m = .ok v m := by
  cases h with
  | name hget =>
    refine boundedEval_data hfuel hroom (by simp) fun ev depth => ?_
    show Action.ofExcept (m.frames.lookup scope _) _ = _
    rw [Frames.lookup, hget]
    rfl
  | int n => exact boundedEval_data hfuel hroom (by simp) fun ev depth => rfl

/-- A builtin function is called with what its operands denote, another level down. -/
theorem boundedEval_builtin {name : String} {id : ObjectId} {operands : List Value}
    {r : Except Error Value} (b : Builtin) (args : List Value) (hfuel : 4 ≤ fuel)
    (hroom : m.depth + 2 ≤ m.depthLimit) (hname : SpecialForm.ofName? name = none)
    (hb : m.frames.get? scope name = some (.builtin b))
    (hargs : List.Forall₂ (Denotes m.frames scope) operands args)
    (hrun : ∀ ev depth, b.run ev args (m.toDepth depth) = Action.ofExcept r (m.toDepth depth)) :
    boundedEval alarm fuel (.list id (.sym name :: operands)) scope m = Action.ofExcept r m := by
  obtain ⟨k, rfl⟩ := Nat.exists_eq_add_of_le' hfuel
  have hplain : Evaluator.macroCall? (m.toDepth (m.depth + 1)).frames scope
      (.list id (.sym name :: operands)) = none := by
    refine macroCall?_eq_none ?_
    show (m.frames.get? scope name).any Value.isMacro = false
    rw [hb]
    rfl
  have hdeeper : (m.toDepth (m.depth + 1)).depth < (m.toDepth (m.depth + 1)).depthLimit := hroom
  have heval {code v : Value} (h : Denotes m.frames scope code v) :
      (boundedEvaluator alarm (k + 3)).eval code scope (m.toDepth (m.depth + 1)) =
        .ok v (m.toDepth (m.depth + 1)) :=
    Denotes.boundedEval (m := m.toDepth (m.depth + 1)) h (Nat.le_add_left 3 k) hdeeper
  refine boundedEval_of_loop (Nat.lt_of_succ_le (Nat.le_of_succ_le hroom)) ?_
  refine (Evaluator.loop_call hplain hname (heval (.name hb))
    (Step.evalAll_eq (hargs.imp fun _ _ => heval))).trans ?_
  rw [Step.apply, Action.bind_assoc, Action.bind_apply, hrun]
  cases r <;> rfl

end

/-! ## The program -/

namespace Countdown

open Interpreter

/-- The definition of a function that counts down to zero. -/
def source : String :=
  "(def! f (fn* (n) (if (= n 0) :done (let* (m (- n 1)) (do nil (try* (throw m) (catch* e (f e))))))))"

def test : Value := .list none [.sym "=", .sym "n", .int 0]

def decrement : Value := .list none [.sym "-", .sym "n", .int 1]

def again : Value := .list none [.sym "f", .sym "e"]

def attempt : Value :=
  .list none [.sym "try*", .list none [.sym "throw", .sym "m"],
    .list none [.sym "catch*", .sym "e", again]]

def otherwise : Value :=
  .list none [.sym "let*", .list none [.sym "m", decrement], .list none [.sym "do", .nil, attempt]]

def body : Value := .list none [.sym "if", test, .kw "done", otherwise]

def function : Value := .closure [.sym "n"] body 0 false

/-- The frames after the definition. -/
def rootFrames : Frames := #[⟨rootBindings ++ [("f", function)], none⟩]

/-- What the function itself binds. -/
def locals : List String := ["n", "m", "e"]

/-- The definition takes two levels. -/
theorem evalText_source (limit : Nat) (world : World) :
    evalText source (bare (limit + 2) world) =
      .ok function (Prelude.extended (limit + 2) world [("f", function)]) := by
  have hread : readAll source = .ok [Prelude.definition "def!" "f" [.sym "n"] body] :=
    Prelude.eq_ok_of_toOption (by decide +kernel)
  exact Prelude.evalText_singleton hread rfl

/-- All other names are seen from the frame as they were seen from the root at the start. -/
structure Sees (frames : Frames) (scope : FrameId) : Prop where
  lt_size : scope < frames.size
  get? {name : String} : name ∉ locals → frames.get? scope name = rootFrames.get? 0 name

/-- Frames in which the function can be called from the scope. -/
structure Ready (frames : Frames) (scope : FrameId) : Prop where
  ordered : frames.Ordered
  root : Sees frames 0
  here : Sees frames scope

theorem ready_rootFrames : Ready rootFrames 0 := by
  have hsees : Sees rootFrames 0 := ⟨Nat.one_pos, fun _ => rfl⟩
  refine ⟨?_, hsees, hsees⟩
  intro f frame hf p hp
  cases f with
  | zero =>
    cases hf
    cases hp
  | succ f => cases hf

theorem get?_singleton {name : String} (hname : name ∈ locals) (v : Value) :
    ∀ other ∉ locals, Bindings.get? other [(name, v)] = none := by
  intro other hother
  have hne : (other == name) = false :=
    beq_eq_false_iff_ne.mpr fun heq => hother (heq ▸ hname)
  rw [Bindings.get?, hne]
  rfl

section

variable {frames : Frames} {scope : FrameId}

theorem Ready.atRoot (h : Ready frames scope) : Ready frames 0 :=
  ⟨h.ordered, h.root, h.root⟩

theorem Ready.get?_push (h : Ready frames scope) (bindings : Bindings) (name : String) :
    Frames.get? (frames.push ⟨bindings, some scope⟩) frames.size name =
      (bindings.get? name).or (frames.get? scope name) :=
  h.ordered.get?_push_size bindings h.here.lt_size name

theorem Ready.push (h : Ready frames scope) {bindings : Bindings}
    (hlocal : ∀ name ∉ locals, bindings.get? name = none) :
    Ready (frames.push ⟨bindings, some scope⟩) frames.size where
  ordered := by
    refine h.ordered.push ?_
    rintro p ⟨⟩
    exact h.here.lt_size
  root := by
    refine ⟨?_, fun hname => ?_⟩
    · rw [Array.size_push]
      exact Nat.succ_pos _
    · rw [h.ordered.get?_push _ h.root.lt_size]
      exact h.root.get? hname
  here := by
    refine ⟨?_, fun hname => ?_⟩
    · rw [Array.size_push]
      exact Nat.lt_succ_self _
    · rw [h.get?_push, hlocal _ hname]
      exact h.here.get? hname

/-- None of the forms in the function is a macro call. -/
theorem Ready.macroCall?_eq_none (h : Ready frames scope) {name : String} (hname : name ∉ locals)
    (hplain : rootFrames.bindsMacro 0 name = false) {id : ObjectId} {operands : List Value} :
    Evaluator.macroCall? frames scope (.list id (.sym name :: operands)) = none := by
  refine Lisp.macroCall?_eq_none ?_
  rw [Frames.bindsMacro, h.here.get? hname]
  exact hplain

end

/-! ## One round -/

/-- The state in a frame that binds one name. -/
def entered (m : Machine) (scope : FrameId) (name : String) (n : Int64) : Machine :=
  { m with frames := m.frames.push ⟨[(name, .int n)], some scope⟩ }

/-- The state in a call of the function. -/
def called (m : Machine) (n : Int64) : Machine :=
  entered { m with objects := m.objects + 1 } 0 "n" n

section

variable {alarm : Pause} {fuel : Nat} {scope : FrameId} {m : Machine} {n : Int64}

theorem continues_call {operand : Value} (hfuel : 4 ≤ fuel) (hroom : m.depth + 2 ≤ m.depthLimit)
    (h : Ready m.frames scope)
    (hoperand : Denotes m.frames scope operand (.int n)) :
    Continues (boundedEvaluator alarm fuel) scope m (.list none [.sym "f", operand]) body
      m.frames.size (called m n) := by
  have hf : Denotes m.frames scope (.sym "f") function :=
    .name ((h.here.get? (by decide)).trans rfl)
  have hlt : m.depth < m.depthLimit := Nat.lt_of_succ_le (Nat.le_of_succ_le hroom)
  have hle : 3 ≤ fuel := Nat.le_of_succ_le hfuel
  refine .call rfl (hf.boundedEval hle hlt) (Step.evalAll_eq (.cons ?_ .nil)) rfl
  exact hoperand.boundedEval hle hlt

theorem continues_body (hfuel : 4 ≤ fuel) (hroom : m.depth + 2 ≤ m.depthLimit)
    (h : Ready m.frames scope) (hn : m.frames.get? scope "n" = some (.int n)) :
    Continues (boundedEvaluator alarm fuel) scope m body
      (if n == 0 then .kw "done" else otherwise) scope m := by
  have htest : (boundedEvaluator alarm fuel).eval test scope m = .ok (.bool (n == 0)) m := by
    refine boundedEval_builtin (r := .ok (.bool (n == 0))) (.comparison .equal) [.int n, .int 0]
      hfuel hroom rfl ?_ (.cons (.name hn) (.cons (.int 0) .nil)) fun ev depth => ?_
    · exact (h.here.get? (by decide)).trans rfl
    · show Action.ofExcept (.ok (Value.bool (Value.beq (.int n) (.int 0)))) _ = _
      rw [Value.beq]
  exact .branch htest

theorem continues_otherwise {k : Int64} (hfuel : 4 ≤ fuel) (hroom : m.depth + 2 ≤ m.depthLimit)
    (h : Ready m.frames scope) (hn : m.frames.get? scope "n" = some (.int n))
    (hsub : Arithmetic.run .sub [.int n, .int 1] = .ok (.int k)) :
    Continues (boundedEvaluator alarm fuel) scope m otherwise
      (.list none [.sym "do", .nil, attempt]) m.frames.size (entered m scope "m" k) := by
  -- The difference is evaluated in the new frame, before that binds anything.
  let m' : Machine := { m with frames := m.frames.push ⟨[], some scope⟩ }
  have h' : Ready m'.frames m.frames.size := h.push fun _ _ => rfl
  have hn' : m'.frames.get? m.frames.size "n" = some (.int n) := (h.get?_push [] "n").trans hn
  have hdecrement : boundedEval alarm fuel decrement m.frames.size m' = .ok (.int k) m' := by
    refine boundedEval_builtin (r := .ok (.int k)) (.arithmetic .sub) [.int n, .int 1]
      hfuel hroom rfl ?_ (.cons (.name hn') (.cons (.int 1) .nil)) fun ev depth => ?_
    · exact (h'.here.get? (by decide)).trans rfl
    · show Action.ofExcept (Arithmetic.run .sub [.int n, .int 1]) _ = _
      rw [hsub]
  have hpairs : Step.letBindings (.list none [.sym "m", decrement]) = .ok [.sym "m", decrement] :=
    rfl
  have henter : Action.enter scope [] m = .ok m.frames.size m' := rfl
  have hbind : Step.bindPairs (boundedEvaluator alarm fuel) m.frames.size [.sym "m", decrement] m' =
      .ok () (entered m scope "m" k) := by
    rw [Step.bindPairs]
    refine Action.bind_eq_ok.mpr ⟨"m", m', rfl, Action.bind_eq_ok.mpr ⟨_, m', hdecrement, ?_⟩⟩
    refine Action.bind_eq_ok.mpr ⟨(), _, rfl, ?_⟩
    show Outcome.ok () { m' with frames := Frames.set (m.frames.push _) m.frames.size "m" _ } = _
    rw [Frames.set_push]
    rfl
  exact .letIn hpairs henter hbind

theorem continues_sequence (hfuel : 4 ≤ fuel) (hroom : m.depth + 2 ≤ m.depthLimit) :
    Continues (boundedEvaluator alarm fuel) scope m (.list none [.sym "do", .nil, attempt]) attempt
      scope m := by
  have hnil : boundedEval alarm fuel .nil scope m = .ok .nil m :=
    boundedEval_data (Nat.le_of_succ_le hfuel) (Nat.lt_of_succ_le (Nat.le_of_succ_le hroom))
      (by simp) fun ev depth => rfl
  have heach : (boundedEvaluator alarm fuel).evalEach scope [.nil] m = .ok () m :=
    Action.bind_eq_ok.mpr ⟨_, m, hnil, rfl⟩
  exact .sequence heach

theorem continues_attempt {k : Int64} (hfuel : 4 ≤ fuel) (hroom : m.depth + 2 ≤ m.depthLimit)
    (h : Ready m.frames scope) (hm : m.frames.get? scope "m" = some (.int k)) :
    Continues (boundedEvaluator alarm fuel) scope m attempt again m.frames.size
      (entered m scope "e" k) := by
  have hclause : Step.catchClause (.list none [.sym "catch*", .sym "e", again]) =
      .ok ("e", again) := rfl
  have hthrow : boundedEval alarm fuel (.list none [.sym "throw", .sym "m"]) scope m =
      .error (.thrown (.int k)) m := by
    refine boundedEval_builtin (r := .error (.thrown (.int k))) (.control .throw) [.int k]
      hfuel hroom rfl ?_ (.cons (.name hm) .nil) fun ev depth => rfl
    exact (h.here.get? (by decide)).trans rfl
  have henter : Action.enter scope [("e", Error.payload (.thrown (.int k)))] m =
      .ok m.frames.size (entered m scope "e" k) := rfl
  exact .handler hclause hthrow henter

theorem Ready.entered (h : Ready m.frames scope) {name : String} (hname : name ∈ locals) :
    Ready (entered m scope name n).frames m.frames.size :=
  h.push (get?_singleton hname _)

theorem Ready.get?_entered (h : Ready m.frames scope) (name : String) :
    (Countdown.entered m scope name n).frames.get? m.frames.size name = some (.int n) := by
  refine (h.get?_push _ name).trans ?_
  rw [Bindings.get?, beq_self_eq_true]
  rfl

/-- From a number other than zero the function comes to call itself with one less, no deeper. -/
theorem exists_round {operand : Value} {k : Int64} (hroom : m.depth + 2 ≤ m.depthLimit)
    (h : Ready m.frames scope)
    (hoperand : Denotes m.frames scope operand (.int n)) (hn : n ≠ 0)
    (hsub : Arithmetic.run .sub [.int n, .int 1] = .ok (.int k)) :
    ∃ inner m', Ready m'.frames inner ∧ m'.frames.get? inner "e" = some (.int k) ∧
      m'.depth = m.depth ∧ m'.depthLimit = m.depthLimit ∧
      ∀ alarm fuel rounds, 4 ≤ fuel →
        (boundedEvaluator alarm fuel).loop (rounds + 6) (.list none [.sym "f", operand]) scope m =
          (boundedEvaluator alarm fuel).loop (rounds + 1) again inner m' := by
  let m₁ := called m n
  let m₂ := entered m₁ m.frames.size "m" k
  let m₃ := entered m₂ m₁.frames.size "e" k
  have h₁ : Ready m₁.frames m.frames.size := h.atRoot.push (get?_singleton (by decide) _)
  have hn₁ : m₁.frames.get? m.frames.size "n" = some (.int n) := h.atRoot.get?_push _ "n"
  have h₂ : Ready m₂.frames m₁.frames.size := h₁.entered (by decide)
  have hk₂ : m₂.frames.get? m₁.frames.size "m" = some (.int k) := h₁.get?_entered "m"
  have h₃ : Ready m₃.frames m₂.frames.size := h₂.entered (by decide)
  refine ⟨m₂.frames.size, m₃, h₃, h₂.get?_entered "e", rfl, rfl, ?_⟩
  intro alarm fuel rounds hfuel
  have hbody : Continues (boundedEvaluator alarm fuel) _ m₁ body _ _ _ :=
    continues_body hfuel hroom h₁ hn₁
  rw [if_neg (by simpa using hn)] at hbody
  calc (boundedEvaluator alarm fuel).loop (rounds + 6) (.list none [.sym "f", operand]) scope m
    _ = (boundedEvaluator alarm fuel).loop (rounds + 5) body m.frames.size m₁ :=
      (continues_call hfuel hroom h hoperand).loop (h.macroCall?_eq_none (by decide) rfl)
    _ = (boundedEvaluator alarm fuel).loop (rounds + 4) otherwise m.frames.size m₁ :=
      hbody.loop (h₁.macroCall?_eq_none (by decide) rfl)
    _ = (boundedEvaluator alarm fuel).loop (rounds + 3) (.list none [.sym "do", .nil, attempt])
          m₁.frames.size m₂ :=
      (continues_otherwise (m := m₁) hfuel hroom h₁ hn₁ hsub).loop
        (h₁.macroCall?_eq_none (by decide) rfl)
    _ = (boundedEvaluator alarm fuel).loop (rounds + 2) attempt m₁.frames.size m₂ :=
      (continues_sequence (m := m₂) hfuel hroom).loop (h₂.macroCall?_eq_none (by decide) rfl)
    _ = (boundedEvaluator alarm fuel).loop (rounds + 1) again m₂.frames.size m₃ :=
      (continues_attempt (m := m₂) hfuel hroom h₂ hk₂).loop (h₂.macroCall?_eq_none (by decide) rfl)

theorem loop_zero {operand : Value} {rounds : Nat} (hfuel : 4 ≤ fuel)
    (hroom : m.depth + 2 ≤ m.depthLimit) (h : Ready m.frames scope)
    (hoperand : Denotes m.frames scope operand (.int 0)) :
    (boundedEvaluator alarm fuel).loop (rounds + 4) (.list none [.sym "f", operand]) scope m =
      .ok (.kw "done") (called m 0) := by
  have h₁ : Ready (called m 0).frames m.frames.size := h.atRoot.push (get?_singleton (by decide) _)
  have hn₁ : (called m 0).frames.get? m.frames.size "n" = some (.int 0) := h.atRoot.get?_push _ "n"
  calc (boundedEvaluator alarm fuel).loop (rounds + 4) (.list none [.sym "f", operand]) scope m
    _ = (boundedEvaluator alarm fuel).loop (rounds + 3) body m.frames.size (called m 0) :=
      (continues_call hfuel hroom h hoperand).loop (h.macroCall?_eq_none (by decide) rfl)
    _ = (boundedEvaluator alarm fuel).loop (rounds + 2) (.kw "done") m.frames.size (called m 0) :=
      (continues_body (m := called m 0) hfuel hroom h₁ hn₁).loop
        (h₁.macroCall?_eq_none (by decide) rfl)
    _ = .ok (.kw "done") (called m 0) := Evaluator.loop_data (by simp) rfl

end

/-! ## All rounds -/

theorem exists_run_sub {n : Int64} {count : Nat} (hn : n.toInt = count + 1) :
    ∃ k : Int64, Arithmetic.run .sub [.int n, .int 1] = .ok (.int k) ∧ k.toInt = count := by
  have hmax : Int64.maxValue.toInt = 2 ^ 63 - 1 := by decide
  have hmin : Int64.minValue.toInt = -2 ^ 63 := by decide
  have hle := n.toInt_le
  have hfits : Int64.minValue.toInt ≤ (count : Int) ∧ (count : Int) ≤ Int64.maxValue.toInt := by
    omega
  have hone : (1 : Int64).toInt = 1 := by decide
  have hexact : Arithmetic.exact .sub n.toInt (1 : Int64).toInt = some (count : Int) := by
    rw [Arithmetic.exact, hone, hn, Int.add_sub_cancel]
  refine ⟨Int64.ofInt count, ?_, Int64.toInt_ofInt_of_le (by omega) (by omega)⟩
  have hstep : Arithmetic.step .sub n (.int 1) = .ok (Int64.ofInt count) := by
    simp only [Arithmetic.step, Arithmetic.integer, hexact, int64?, if_pos hfits]
  simp only [Arithmetic.run, Arithmetic.stepsFrom, Arithmetic.integer, Arithmetic.steps, hstep]

/-- The induction is on the number from which the function counts. -/
theorem exists_loop (count : Nat) {n : Int64} (hn : n.toInt = count) {operand : Value}
    {scope : FrameId} {m : Machine} (hroom : m.depth + 2 ≤ m.depthLimit)
    (h : Ready m.frames scope) (hoperand : Denotes m.frames scope operand (.int n)) :
    ∃ enough final, ∀ alarm fuel rounds, 4 ≤ fuel → enough ≤ rounds →
      (boundedEvaluator alarm fuel).loop rounds (.list none [.sym "f", operand]) scope m =
        .ok (.kw "done") final := by
  induction count generalizing n operand scope m with
  | zero =>
    have hzero : n = 0 := Int64.toInt_inj.mp hn
    subst hzero
    refine ⟨4, called m 0, fun alarm fuel rounds hfuel hrounds => ?_⟩
    obtain ⟨k, rfl⟩ := Nat.exists_eq_add_of_le' hrounds
    exact loop_zero hfuel hroom h hoperand
  | succ count ih =>
    obtain ⟨k, hsub, hk⟩ := exists_run_sub hn
    have hne : n ≠ 0 := by
      rintro rfl
      cases hn
    obtain ⟨inner, m', h', he, hdepth, hlimit, hround⟩ := exists_round hroom h hoperand hne hsub
    obtain ⟨enough, final, hrest⟩ := ih hk (by rwa [hdepth, hlimit]) h' (.name he)
    refine ⟨enough + 6, final, fun alarm fuel rounds hfuel hrounds => ?_⟩
    obtain ⟨more, rfl⟩ := Nat.exists_eq_add_of_le' hrounds
    rw [← Nat.add_assoc, hround alarm fuel (more + enough) hfuel]
    exact hrest alarm fuel _ hfuel (by omega)

theorem exists_boundedEval {n : Int64} (hn : 0 ≤ n.toInt) {scope : FrameId} {m : Machine}
    (hroom : m.depth + 3 ≤ m.depthLimit) (h : Ready m.frames scope) :
    ∃ enough final, ∀ alarm fuel, enough ≤ fuel →
      boundedEval alarm fuel (.list none [.sym "f", .int n]) scope m = .ok (.kw "done") final := by
  obtain ⟨count, hcount⟩ := Int.eq_ofNat_of_zero_le hn
  obtain ⟨enough, final, hloop⟩ := exists_loop count hcount
    (m := m.toDepth (m.depth + 1)) hroom h (.int n)
  refine ⟨enough + 5, final.toDepth (final.depth - 1), fun alarm fuel hfuel => ?_⟩
  obtain ⟨more, rfl⟩ := Nat.exists_eq_add_of_le' hfuel
  have hlt : m.depth < m.depthLimit := by omega
  rw [← Nat.add_assoc]
  refine (Action.nestedWithin_of_lt _ hlt).trans ?_
  exact congrArg Outcome.leave
    (hloop alarm (more + enough + 4) (more + enough + 4) (by omega) (by omega))

end Countdown

open Countdown Interpreter in
/-- A step that does not have its value at once goes on with one of the tail expressions of
`Continues`, and this is evaluated in the place of the form, at the same depth. So wherever three
levels are allowed, the countdown ends from every number, without meeting the limit. -/
theorem tail_expressions_keep_depth :
    (∀ fuel expand scope form m code inner n,
      Step.ofForm (evaluator fuel) expand scope form m = .ok (.tail code inner) n ↔
        Continues (evaluator fuel) scope m form code inner n) ∧
    (∀ fuel rounds form scope m expanded m' code inner n,
      (evaluator fuel).expand rounds form scope m = .ok expanded m' →
      Continues (evaluator fuel) scope m' expanded code inner n →
        (evaluator fuel).loop (rounds + 1) form scope m =
          (evaluator fuel).loop rounds code inner n ∧
          n.depth = m.depth) ∧
    ∀ limit world (n : Int64), 3 ≤ limit → 0 ≤ n.toInt →
      ∃ m final enough, evalText source (start false limit world) = .ok function m ∧
        m.root = some 0 ∧
        (∀ fuel, WithinLimit fuel (fun ev => ev.eval (.list none [.sym "f", .int n]) 0) m) ∧
        ∀ fuel, enough ≤ fuel →
          eval fuel (.list none [.sym "f", .int n]) 0 m = .ok (.kw "done") final := by
  refine ⟨fun _ _ _ _ _ _ _ _ => ofForm_eq_tail_iff, fun fuel rounds form scope m expanded m' code
    inner n hexpand h => ⟨h.loop_of_expand hexpand, h.depth_eq.trans (expand_depth hexpand)⟩, ?_⟩
  intro limit world n hlimit hn
  obtain ⟨k, rfl⟩ := Nat.exists_eq_add_of_le' hlimit
  let m := Prelude.extended (k + 3) world [("f", function)]
  have hroom : m.depth + 3 ≤ m.depthLimit := Nat.le_add_left _ _
  obtain ⟨enough, final, heval⟩ := exists_boundedEval hn hroom ready_rootFrames
  refine ⟨m, final, enough, evalText_source (k + 1) world, rfl, ?_, fun fuel hfuel => ?_⟩
  · exact WithinLimit.of_boundedEval (by decide) (heval .input enough (Nat.le_refl _))
  · have hok := heval .input fuel hfuel
    exact (eval_eq_boundedEval fun hpaused => nomatch hok.symm.trans hpaused).trans hok

open Countdown Interpreter in
/-- Three levels are enough for a countdown that takes more rounds than any run has fuel for. -/
theorem tail_expressions_keep_depth_long :
    Interpreter.fuel < (1000000000000000000 : Int64).toInt ∧
    ∃ m final enough, evalText source (start false 3 {}) = .ok function m ∧ m.root = some 0 ∧
      (∀ fuel, WithinLimit fuel
        (fun ev => ev.eval (.list none [.sym "f", .int 1000000000000000000]) 0) m) ∧
      ∀ fuel, enough ≤ fuel →
        eval fuel (.list none [.sym "f", .int 1000000000000000000]) 0 m = .ok (.kw "done") final :=
  ⟨by decide +kernel, tail_expressions_keep_depth.2.2 3 {} 1000000000000000000 (Nat.le_refl 3)
    (by decide +kernel)⟩

end Lisp
