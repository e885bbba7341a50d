import Lisp.Proofs.Integrity
import Lisp.Proofs.Levels
import Lisp.Proofs.Prelude
import Lisp.Proofs.Rounding
import Lisp.Proofs.Scope
import Mathlib.Data.List.Induction

/-!
# First match

`cond` is a macro that is written in the language itself: a call of it expands to a conditional on
its first test, whose alternative is a call of it with the operands that are left. So its tests are
evaluated in order up to the first that holds, and the expression after that one has the last word.
This is told by two relations: one leads past the tests that do not hold, and the other says what
decides then.
-/

namespace Lisp

/-! ## Sound states -/

theorem Outcome.Mirrors.sound_of_ok {depth limit : Nat} {x : Extent} {v : Value} {n : Machine}
    {o : Outcome Value} (h : (Outcome.ok v n).Mirrors (.same depth limit) .value x o) :
    n.Sound ∧ x ≤ n.extent := by
  cases h with
  | ok hle hmn _ => exact ⟨hmn.sound, hle⟩
  | gaveUp hp => exact hp.elim

/-- Evaluation leaves a sound state, in which nothing is missing that there was before. -/
theorem Machine.Sound.of_eval {m n : Machine} (hm : m.Sound) {fuel : Nat} {code v : Value}
    {scope : FrameId} (hcode : code.Sound m.extent) (hscope : scope < m.frames.size)
    (h : eval fuel code scope m = .ok v n) : n.Sound ∧ m.extent ≤ n.extent := by
  have hmirrors := (mirrors_overseenEvaluator Policy.allowsSound_true .fuel fuel m.depth
    m.depthLimit).eval hcode hscope m m (Extent.le_refl _) hm.copied_self
  rw [show (evaluator fuel).eval code scope m = .ok v n from h] at hmirrors
  exact hmirrors.sound_of_ok

theorem Machine.le_newObjects (m : Machine) (made : Nat) :
    m.extent ≤ Machine.extent { m with objects := m.objects + made } :=
  ⟨Nat.le_refl _, Nat.le_refl _, Nat.le_add_right ..⟩

theorem Machine.Sound.newObjects {m : Machine} (hm : m.Sound) (made : Nat) :
    Machine.Sound { m with objects := m.objects + made } where
  frames hf := (hm.frames hf).mono (m.le_newObjects made)
  cells v hv := (hm.cells v hv).mono (m.le_newObjects made)
  root := hm.root
  hosts := hm.hosts

theorem Machine.Sound.ordered {m : Machine} (hm : m.Sound) : m.frames.Ordered :=
  fun _ _ hf => (hm.frames hf).parent

namespace Cond

/-! ## What is bound -/

/-- The functions that the body of `cond` uses. -/
def builtins : List Builtin :=
  [.comparison .gt, .sequence .count, .sequence .list, .sequence .first, .sequence .nth,
    .sequence .cons, .sequence .rest, .control .throw]

/-- `cond` is the macro of the prelude, made in the frame `home`, and from there its functions can
be seen. -/
structure Bound (frames : Frames) (home scope : FrameId) : Prop where
  cond : frames.get? scope "cond" =
    some (.closure [.sym "&", .sym "xs"] Prelude.condBody home true)
  builtin : ∀ b ∈ builtins, frames.get? home b.name = some (.builtin b)

/-- Moreover, no macro stands in the way of the special forms that the body uses, or of the one that
a call expands to. -/
structure Ready (frames : Frames) (home scope : FrameId) : Prop
    extends Bound frames home scope where
  branch : frames.bindsMacro home "if" = false
  quote : frames.bindsMacro home "quote" = false
  branchHere : frames.bindsMacro scope "if" = false

/-- A call of `cond`. -/
def call (id : ObjectId) (operands : List Value) : Value := .list id (.sym "cond" :: operands)

/-- The state in which an expansion of a call runs: there is a frame for the operands, and some
objects have been made. -/
def entered (m : Machine) (home : FrameId) (operands : List Value) (made : Nat) : Machine :=
  { m with
    frames := m.frames.push ⟨[("xs", .list (some m.objects) operands)], some home⟩
    objects := m.objects + made }

/-! ## The body -/

/-- There are more than `k` operands. -/
def countsMore (k : Nat) : Value :=
  .list none [.sym ">", .list none [.sym "count", .sym "xs"], .int (Int64.ofNat k)]

/-- The complaint about an operand too many. -/
def complaint : Value := .list none [.sym "throw", .str "odd number of forms to cond"]

/-- The second operand. -/
def second : Value :=
  .list none [.sym "if", countsMore 1, .list none [.sym "nth", .sym "xs", .int 1], complaint]

/-- The operands but for the first two. -/
def remainder : Value :=
  .list none [.sym "cons", .list none [.sym "quote", .sym "cond"],
    .list none [.sym "rest", .list none [.sym "rest", .sym "xs"]]]

/-- The conditional that a call expands to. -/
def clause : Value :=
  .list none [.sym "list", .list none [.sym "quote", .sym "if"],
    .list none [.sym "first", .sym "xs"], second, remainder]

theorem condBody_eq : Prelude.condBody = .list none [.sym "if", countsMore 0, clause] :=
  rfl

section

variable {m : Machine} (hm : m.Sound) {home scope : FrameId} (hready : Ready m.frames home scope)
  {operands : List Value}
include hm hready

theorem home_lt : home < m.frames.size :=
  (Value.sound_closure.mp (hm.find? hready.cond)).1

theorem get?_entered (made : Nat) {name : String} (hname : name ≠ "xs") :
    (entered m home operands made).frames.get? m.frames.size name = m.frames.get? home name := by
  refine (hm.ordered.get?_push_size _ (home_lt hm hready) name).trans ?_
  rw [Bindings.get?, if_neg (by simpa using hname)]
  rfl

theorem get?_entered_xs (made : Nat) :
    (entered m home operands made).frames.get? m.frames.size "xs" =
      some (.list (some m.objects) operands) :=
  hm.ordered.get?_push_size _ (home_lt hm hready) "xs"

theorem bindsMacro_entered (made : Nat) {name : String} (hname : name ≠ "xs")
    (hplain : m.frames.bindsMacro home name = false) :
    (entered m home operands made).frames.bindsMacro m.frames.size name = false := by
  rwa [Frames.bindsMacro, get?_entered hm hready made hname]

theorem get?_builtin (made : Nat) {b : Builtin} (hb : b ∈ builtins) :
    (entered m home operands made).frames.get? m.frames.size b.name = some (.builtin b) := by
  have hxs : ∀ b ∈ builtins, b.name ≠ "xs" := by decide
  exact (get?_entered hm hready made (hxs b hb)).trans (hready.builtin b hb)

theorem runs_builtin {b : Builtin} (hb : b ∈ builtins) {codes args : List Value} {levels : Nat}
    {made made' made'' : Nat} {r : Except Error Value} {id : ObjectId}
    (hargs : Needs levels (fun ev _ => Step.evalAll ev m.frames.size codes)
      (entered m home operands made) (.ok args) (entered m home operands made'))
    (hrun : ∀ ev depth, b.run ev args ((entered m home operands made').toDepth depth) =
      Action.ofExcept r ((entered m home operands made'').toDepth depth)) :
    RunsWithin (max 1 levels) (.list id (.sym b.name :: codes)) m.frames.size
      (entered m home operands made) r (entered m home operands made'') := by
  have hspecial : ∀ b ∈ builtins, SpecialForm.ofName? b.name = none := by decide
  exact runsWithin_call (hspecial b hb) (get?_builtin hm hready made hb) hargs rfl hrun

theorem runs_xs (made : Nat) :
    RunsWithin 0 (.sym "xs") m.frames.size (entered m home operands made)
      (.ok (.list (some m.objects) operands)) (entered m home operands made) :=
  runsWithin_symbol (get?_entered_xs hm hready made)

theorem runs_quoted {name : String} (made : Nat) :
    RunsWithin 0 (.list none [.sym "quote", .sym name]) m.frames.size
      (entered m home operands made) (.ok (.sym name)) (entered m home operands made) :=
  runsWithin_quote (bindsMacro_entered hm hready made (by decide) hready.quote)

theorem runs_count (made : Nat) :
    RunsWithin 1 (.list none [.sym "count", .sym "xs"]) m.frames.size
      (entered m home operands made) (.ok (.int (Int64.ofNat operands.length)))
      (entered m home operands (made + 1)) :=
  runs_builtin hm hready (b := .sequence .count) (by decide)
    ((runs_xs hm hready made).evalAll needs_evalAll_nil) fun _ _ => rfl

theorem runs_more (hcount : operands.length < 2 ^ 63) {k : Nat} (hk : k ≤ 1) (made : Nat) :
    RunsWithin 2 (countsMore k) m.frames.size (entered m home operands made)
      (.ok (.bool (decide (k < operands.length)))) (entered m home operands (made + 1)) := by
  have hint : RunsWithin 0 (.int (Int64.ofNat k)) m.frames.size (entered m home operands (made + 1))
      (.ok (.int (Int64.ofNat k))) (entered m home operands (made + 1)) :=
    runsWithin_data (by simp) fun _ _ => rfl
  refine runs_builtin hm hready (b := .comparison .gt) (by decide)
    ((runs_count hm hready made).evalAll (hint.evalAll needs_evalAll_nil)) fun ev depth => ?_
  rw [Builtin.run, Comparison.run_gt_count hcount hk]

theorem runs_first (made : Nat) :
    RunsWithin 1 (.list none [.sym "first", .sym "xs"]) m.frames.size
      (entered m home operands made) (.ok ((operands.headD .nil).identify (m.objects + made)))
      (entered m home operands (made + 1)) :=
  runs_builtin hm hready (b := .sequence .first) (by decide)
    ((runs_xs hm hready made).evalAll needs_evalAll_nil) fun _ _ => rfl

theorem runs_remainder (made : Nat) :
    RunsWithin 3 remainder m.frames.size (entered m home operands made)
      (.ok (call (some (m.objects + made + 2)) operands.tail.tail))
      (entered m home operands (made + 3)) := by
  have hrest : RunsWithin 1 (.list none [.sym "rest", .sym "xs"]) m.frames.size
      (entered m home operands made) (.ok (.list (some (m.objects + made)) operands.tail))
      (entered m home operands (made + 1)) :=
    runs_builtin hm hready (b := .sequence .rest) (by decide)
      ((runs_xs hm hready made).evalAll needs_evalAll_nil) fun _ _ => rfl
  have hrestrest : RunsWithin 2 (.list none [.sym "rest", .list none [.sym "rest", .sym "xs"]])
      m.frames.size (entered m home operands made)
      (.ok (.list (some (m.objects + made + 1)) operands.tail.tail))
      (entered m home operands (made + 2)) :=
    runs_builtin hm hready (b := .sequence .rest) (by decide)
      (hrest.evalAll needs_evalAll_nil) fun _ _ => rfl
  exact runs_builtin hm hready (b := .sequence .cons) (by decide)
    ((runs_quoted hm hready made).evalAll (hrestrest.evalAll needs_evalAll_nil)) fun _ _ => rfl

theorem runs_complaint (made : Nat) :
    RunsWithin 1 complaint m.frames.size (entered m home operands made)
      (.error (.thrown (.str "odd number of forms to cond"))) (entered m home operands made) := by
  have htext : RunsWithin 0 (.str "odd number of forms to cond") m.frames.size
      (entered m home operands made) (.ok (.str "odd number of forms to cond"))
      (entered m home operands made) := runsWithin_data (by simp) fun _ _ => rfl
  exact runs_builtin hm hready (b := .control .throw) (by decide)
    (htext.evalAll needs_evalAll_nil) fun _ _ => rfl

theorem runs_second_odd {extra : Value} (hcount : [extra].length < 2 ^ 63) (made : Nat) :
    RunsWithin 3 second m.frames.size (entered m home [extra] made)
      (.error (.thrown (.str "odd number of forms to cond")))
      (entered m home [extra] (made + 1)) := by
  have hone : (Value.bool (decide (1 < [extra].length))).isTruthy = false := rfl
  exact .branch_of_false (bindsMacro_entered hm hready made (by decide) hready.branch)
    (runs_more hm hready hcount (Nat.le_refl 1) made) hone (runs_complaint hm hready (made + 1))

theorem runs_second {test e : Value} {rest : List Value}
    (hcount : (test :: e :: rest).length < 2 ^ 63) (made : Nat) :
    RunsWithin 3 second m.frames.size (entered m home (test :: e :: rest) made)
      (.ok (e.identify (m.objects + made + 1)))
      (entered m home (test :: e :: rest) (made + 2)) := by
  have hint : RunsWithin 0 (.int 1) m.frames.size (entered m home (test :: e :: rest) (made + 1))
      (.ok (.int 1)) (entered m home (test :: e :: rest) (made + 1)) :=
    runsWithin_data (by simp) fun _ _ => rfl
  have hnth : RunsWithin 1 (.list none [.sym "nth", .sym "xs", .int 1]) m.frames.size
      (entered m home (test :: e :: rest) (made + 1)) (.ok (e.identify (m.objects + made + 1)))
      (entered m home (test :: e :: rest) (made + 2)) :=
    runs_builtin hm hready (b := .sequence .nth) (by decide)
      ((runs_xs hm hready (made + 1)).evalAll (hint.evalAll needs_evalAll_nil)) fun _ _ => rfl
  have hmore : 1 < (test :: e :: rest).length := by simp
  exact .branch_of_true (bindsMacro_entered hm hready made (by decide) hready.branch)
    (runs_more hm hready hcount (Nat.le_refl 1) made) (decide_eq_true hmore) hnth

/-- Where there are operands, the body makes a conditional of them. -/
theorem runs_body (hcount : operands.length < 2 ^ 63) (hpos : 0 < operands.length)
    {r : Except Error Value} {n : Machine}
    (h : RunsWithin 4 clause m.frames.size (entered m home operands 2) r n) :
    RunsWithin 4 Prelude.condBody m.frames.size (entered m home operands 1) r n := by
  rw [condBody_eq]
  exact .whenTrue (bindsMacro_entered hm hready 1 (by decide) hready.branch)
    (runs_more hm hready hcount (Nat.zero_le 1) 1) (decide_eq_true hpos) h

theorem runs_body_nil :
    RunsWithin 3 Prelude.condBody m.frames.size (entered m home [] 1) (.ok .nil)
      (entered m home [] 2) := by
  have hnone : (Value.bool (decide (0 < ([] : List Value).length))).isTruthy = false := rfl
  rw [condBody_eq]
  exact .whenFalse (bindsMacro_entered hm hready 1 (by decide) hready.branch)
    (runs_more hm hready (by decide) (Nat.zero_le 1) 1) hnone

theorem runs_body_odd {extra : Value} (hcount : [extra].length < 2 ^ 63) :
    RunsWithin 4 Prelude.condBody m.frames.size (entered m home [extra] 1)
      (.error (.thrown (.str "odd number of forms to cond"))) (entered m home [extra] 4) := by
  have hlist : (entered m home [extra] 2).frames.get? m.frames.size "list" =
      some (.builtin (.sequence .list)) :=
    get?_builtin hm hready 2 (b := .sequence .list) (by decide)
  exact runs_body hm hready hcount Nat.one_pos (runsWithin_call_error (by decide) hlist
    ((runs_quoted hm hready 2).evalAll ((runs_first hm hready 2).evalAll
      (runs_second_odd hm hready hcount 3).evalAll_error)))

theorem runs_body_clause {test e : Value} {rest : List Value}
    (hcount : (test :: e :: rest).length < 2 ^ 63) :
    RunsWithin 4 Prelude.condBody m.frames.size (entered m home (test :: e :: rest) 1)
      (.ok (.list (some (m.objects + 8)) [.sym "if", test.identify (m.objects + 2),
        e.identify (m.objects + 4), call (some (m.objects + 7)) rest]))
      (entered m home (test :: e :: rest) 9) := by
  refine runs_body hm hready hcount (by simp) ?_
  exact runs_builtin hm hready (b := .sequence .list) (by decide)
    ((runs_quoted hm hready 2).evalAll ((runs_first hm hready 2).evalAll
      ((runs_second hm hready hcount 3).evalAll
        ((runs_remainder hm hready 5).evalAll needs_evalAll_nil)))) fun _ _ => rfl

/-! ## Expansion -/

/-- Where the call stands, the new frame changes nothing. -/
theorem branchHere_entered (hscope : scope < m.frames.size) (made : Nat) :
    (entered m home operands made).frames.bindsMacro scope "if" = false := by
  have hget : (entered m home operands made).frames.get? scope "if" = m.frames.get? scope "if" :=
    hm.ordered.get?_push _ hscope
  rw [Frames.bindsMacro, hget]
  exact hready.branchHere

omit hm in
/-- A call is expanded by the body, to what is no macro call. -/
theorem needs_expand {id : ObjectId} {levels made : Nat} {r : Except Error Value}
    (hbody : RunsWithin levels Prelude.condBody m.frames.size (entered m home operands 1) r
      (entered m home operands made))
    (hplain : ∀ form, r = .ok form →
      Evaluator.macroCall? (entered m home operands made).frames scope form = none) :
    Needs (levels + 1) (fun ev rounds => ev.expand rounds (call id operands) scope) m r
      (entered m home operands made) := by
  have hcall : Evaluator.macroCall? m.frames scope (call id operands) =
      some ⟨[.sym "&", .sym "xs"], Prelude.condBody, home, operands⟩ := by
    rw [call, Evaluator.macroCall?, hready.cond]
  have henter (depth : Nat) :
      Action.enterCall home [.sym "&", .sym "xs"] operands (m.toDepth depth) =
        .ok m.frames.size ((entered m home operands 1).toDepth depth) := rfl
  exact RunsWithin.expand hcall henter rfl hbody hplain

theorem needs_expand_nil {id : ObjectId} :
    Needs 4 (fun ev rounds => ev.expand rounds (call id []) scope) m (.ok .nil)
      (entered m home [] 2) := by
  refine needs_expand hready (runs_body_nil hm hready) ?_
  rintro form ⟨⟩
  rfl

theorem needs_expand_odd {id : ObjectId} {extra : Value} (hcount : [extra].length < 2 ^ 63) :
    Needs 5 (fun ev rounds => ev.expand rounds (call id [extra]) scope) m
      (.error (.thrown (.str "odd number of forms to cond"))) (entered m home [extra] 4) := by
  refine needs_expand hready (runs_body_odd hm hready hcount) ?_
  rintro form ⟨⟩

theorem needs_expand_clause (hscope : scope < m.frames.size) {id : ObjectId} {test e : Value}
    {rest : List Value} (hcount : (test :: e :: rest).length < 2 ^ 63) :
    Needs 5 (fun ev rounds => ev.expand rounds (call id (test :: e :: rest)) scope) m
      (.ok (.list (some (m.objects + 8)) [.sym "if", test.identify (m.objects + 2),
        e.identify (m.objects + 4), call (some (m.objects + 7)) rest]))
      (entered m home (test :: e :: rest) 9) := by
  refine needs_expand hready (runs_body_clause hm hready hcount) ?_
  rintro form ⟨⟩
  exact macroCall?_eq_none (branchHere_entered hm hready hscope 9)

end

/-! ## Tests in order -/

/-- The levels that the expansion of a call takes below it. -/
def levels : List Value → Nat
  | [] => 4
  | _ :: _ => 5

theorem levels_le (operands : List Value) : levels operands ≤ 5 := by
  cases operands with
  | nil => decide
  | cons _ _ => exact Nat.le_refl 5

/-- The state in which the first test of a call is evaluated: the call has been expanded, and the
test is one level deeper. -/
def atTest (m : Machine) (home : FrameId) (operands : List Value) : Machine :=
  (entered m home operands 9).toDepth (m.depth + 1)

/-- Tests at the front of the operands are evaluated in order and are all falsy. This leads from one
state to another, where some operands are left. -/
inductive Passed (home scope : FrameId) : List Value → Machine → List Value → Machine → Prop
  | start {operands : List Value} {m : Machine} : Passed home scope operands m operands m
  | falsy {test e c : Value} {rest left : List Value} {m n n' : Machine} :
      EvaluatesTo test scope (atTest m home (test :: e :: rest)) (.ok c n) → c.isTruthy = false →
      Passed home scope rest (n.toDepth m.depth) left n' →
      Passed home scope (test :: e :: rest) m left n'

/-- What a call with the operands that are left comes to without passing a test: there is none, or
one form too many, or the first test is truthy or has no value. -/
inductive Decides (home scope : FrameId) (m : Machine) : List Value → Outcome Value → Prop
  | exhausted : Decides home scope m [] (.ok .nil (entered m home [] 2))
  | odd {extra : Value} : Decides home scope m [extra]
      (.error (.thrown (.str "odd number of forms to cond")) (entered m home [extra] 4))
  | truthy {test e c : Value} {rest : List Value} {n : Machine} {o : Outcome Value} :
      EvaluatesTo test scope (atTest m home (test :: e :: rest)) (.ok c n) → c.isTruthy = true →
      EvaluatesTo e scope (n.toDepth m.depth) o → Decides home scope m (test :: e :: rest) o
  | stopped {test e : Value} {rest : List Value} {o : Outcome Value} :
      EvaluatesTo test scope (atTest m home (test :: e :: rest)) o → (∀ c n, o ≠ .ok c n) →
      Decides home scope m (test :: e :: rest) o.leave

/-- State, frame and operands are sound, as all that comes up in a session is. -/
structure Sound (m : Machine) (scope : FrameId) (operands : List Value) : Prop where
  machine : m.Sound
  scope : scope < m.frames.size
  operands : ∀ v ∈ operands, v.Sound m.extent

section

variable {m : Machine} {home scope : FrameId} {id : ObjectId}
  (hready : Ready m.frames home scope)
include hready

theorem evaluatesTo_nil (hm : m.Sound) (hroom : m.depth + 1 + 4 ≤ m.depthLimit) :
    EvaluatesTo (call id []) scope m (.ok .nil (entered m home [] 2)) := by
  refine (evaluatesTo_of_needs_expand (needs_expand_nil hm hready) hroom).mpr ?_
  have hnil : RunsWithin 0 .nil scope (entered m home [] 2) (.ok .nil) (entered m home [] 2) :=
    runsWithin_data (by simp) fun _ _ => rfl
  have hlevel : m.depth + 1 ≤ m.depthLimit := by omega
  exact hnil.evaluatesTo hlevel

/-- A clause is a conditional on its test, with the call of what is left as the alternative. -/
theorem evaluatesTo_clause {test e : Value} {rest : List Value}
    (hsound : Sound m scope (test :: e :: rest)) (hcount : (test :: e :: rest).length < 2 ^ 63)
    (hroom : m.depth + 1 + 5 ≤ m.depthLimit) {o : Outcome Value} :
    EvaluatesTo (call id (test :: e :: rest)) scope m o ↔
      (∃ c n, EvaluatesTo test scope (atTest m home (test :: e :: rest)) (.ok c n) ∧
        EvaluatesTo (if c.isTruthy then e else call none rest) scope (n.toDepth m.depth) o) ∨
      ∃ o', EvaluatesTo test scope (atTest m home (test :: e :: rest)) o' ∧ (∀ c n, o' ≠ .ok c n) ∧
        o = o'.leave := by
  have hlevel : m.depth < m.depthLimit := by omega
  have hif : (entered m home (test :: e :: rest) 9).frames.bindsMacro scope "if" = false :=
    branchHere_entered hsound.machine hready hsound.scope 9
  have hbranch (c : Value) (n : Machine) :
      EvaluatesTo (if c.isTruthy then e.identify (m.objects + 4) else
          call (some (m.objects + 7)) rest) scope n o ↔
        EvaluatesTo (if c.isTruthy then e else call none rest) scope n o := by
    split
    · exact evaluatesTo_identify
    · exact evaluatesTo_identify (v := call none rest)
  refine (evaluatesTo_of_needs_expand
    (needs_expand_clause hsound.machine hready hsound.scope hcount) hroom).trans ?_
  refine (evaluatesTo_branch hif hlevel).trans ?_
  simp only [evaluatesTo_identify, hbranch]
  rfl

end

section

variable {home scope : FrameId}

theorem Sound.entered {m : Machine} {operands : List Value} (hsound : Sound m scope operands)
    (hready : Ready m.frames home scope) {made : Nat} (hmade : 0 < made) :
    (entered m home operands made).Sound ∧
      m.extent ≤ (Cond.entered m home operands made).extent := by
  refine ⟨(hsound.machine.newObjects made).enter (home_lt hsound.machine hready) ?_, ?_⟩
  · -- The list of the operands is the first of the objects that have been made.
    intro binding hbinding
    cases List.mem_singleton.mp hbinding
    refine Value.sound_list.mpr ⟨?_, fun v hv =>
      (hsound.operands v hv).mono (m.le_newObjects made)⟩
    rintro i ⟨⟩
    exact Nat.lt_add_of_pos_right hmade
  · exact Extent.le_trans (m.le_newObjects made) (Machine.le_enter _ _)

/-- After a test of a call, what is left of it can be evaluated as a call. -/
theorem Sound.of_test {m n : Machine} {test e c : Value} {rest : List Value}
    (hsound : Sound m scope (test :: e :: rest)) (hready : Ready m.frames home scope)
    (h : EvaluatesTo test scope (atTest m home (test :: e :: rest)) (.ok c n)) :
    Sound (n.toDepth m.depth) scope rest := by
  obtain ⟨hentered, hle⟩ := hsound.entered hready (Nat.zero_lt_succ 8)
  obtain ⟨-, fuel, h⟩ := h
  have hm : (atTest m home (test :: e :: rest)).Sound :=
    ⟨hentered.frames, hentered.cells, hentered.root, hentered.hosts⟩
  have htest : test.Sound (atTest m home (test :: e :: rest)).extent :=
    (hsound.operands test List.mem_cons_self).mono hle
  obtain ⟨hn, hle'⟩ := hm.of_eval htest (Nat.lt_of_lt_of_le hsound.scope hle.frames) h
  have hgrown : m.extent ≤ n.extent := Extent.le_trans hle hle'
  refine ⟨⟨hn.frames, hn.cells, hn.root, hn.hosts⟩, ?_, fun v hv => ?_⟩
  · exact Nat.lt_of_lt_of_le hsound.scope hgrown.frames
  · exact (hsound.operands v (List.mem_cons_of_mem _ (List.mem_cons_of_mem _ hv))).mono hgrown

theorem evaluatesTo_iff {m : Machine} {operands : List Value} {id : ObjectId}
    (hsound : Sound m scope operands) (hcount : operands.length < 2 ^ 63)
    (hready : ∀ rest n, Passed home scope operands m rest n → Ready n.frames home scope)
    (hroom : m.depth + 1 + levels operands ≤ m.depthLimit) {o : Outcome Value} :
    EvaluatesTo (call id operands) scope m o ↔
      ∃ rest n, Passed home scope operands m rest n ∧ Decides home scope n rest o := by
  induction operands using List.twoStepInduction generalizing m id with
  | nil =>
    have houtcome : EvaluatesTo (call id []) scope m _ :=
      evaluatesTo_nil (hready _ _ .start) hsound.machine hroom
    constructor
    · intro h
      cases h.unique houtcome
      exact ⟨[], m, .start, .exhausted⟩
    · rintro ⟨rest, n, hpassed, hdecides⟩
      cases hpassed
      cases hdecides
      exact houtcome
  | singleton extra =>
    have houtcome : EvaluatesTo (call id [extra]) scope m _ := evaluatesTo_of_needs_expand_error
      (needs_expand_odd hsound.machine (hready _ _ .start) hcount) hroom
    constructor
    · intro h
      cases h.unique houtcome
      exact ⟨[extra], m, .start, .odd⟩
    · rintro ⟨rest, n, hpassed, hdecides⟩
      cases hpassed
      cases hdecides
      exact houtcome
  | cons_cons test e rest ih _ =>
    rw [evaluatesTo_clause (hready _ _ .start) hsound hcount hroom]
    -- What is left after a falsy test is a call again, at the same depth.
    have hrest {c : Value} {n : Machine} (hc : c.isTruthy = false)
        (htest : EvaluatesTo test scope (atTest m home (test :: e :: rest)) (.ok c n)) :
        EvaluatesTo (call none rest) scope (n.toDepth m.depth) o ↔ ∃ left n',
          Passed home scope rest (n.toDepth m.depth) left n' ∧ Decides home scope n' left o := by
      have hlimit : n.depthLimit = m.depthLimit := htest.deeper.2
      refine ih (hsound.of_test (hready _ _ .start) htest) (by simp at hcount; omega)
        (fun left n' hpassed => hready left n' (.falsy htest hc hpassed)) ?_
      show m.depth + 1 + levels rest ≤ n.depthLimit
      rw [hlimit]
      exact Nat.le_trans (Nat.add_le_add_left (levels_le rest) _) hroom
    constructor
    · rintro (⟨c, n, htest, hbranch⟩ | ⟨o', htest, hnone, rfl⟩)
      · cases hc : c.isTruthy with
        | true =>
          rw [hc] at hbranch
          exact ⟨_, m, .start, .truthy htest hc hbranch⟩
        | false =>
          rw [hc] at hbranch
          obtain ⟨left, n', hpassed, hdecides⟩ := (hrest hc htest).mp hbranch
          exact ⟨left, n', .falsy htest hc hpassed, hdecides⟩
      · exact ⟨_, m, .start, .stopped htest hnone⟩
    · rintro ⟨left, n', hpassed, hdecides⟩
      cases hpassed with
      | start =>
        cases hdecides with
        | truthy htest hc hbranch => exact Or.inl ⟨_, _, htest, by rwa [hc]⟩
        | stopped htest hnone => exact Or.inr ⟨_, htest, hnone, rfl⟩
      | falsy htest hc hpassed =>
        refine Or.inl ⟨_, _, htest, ?_⟩
        rw [hc]
        exact (hrest hc htest).mpr ⟨left, n', hpassed, hdecides⟩

theorem exists_recursionLimit {m : Machine} {operands : List Value} {id : ObjectId}
    (hsound : Sound m scope operands) (hcount : operands.length < 2 ^ 63)
    (hready : Ready m.frames home scope)
    (hfull : m.depthLimit < m.depth + 1 + levels operands) :
    ∃ n, EvaluatesTo (call id operands) scope m (.error (.eval .recursionLimit) n) := by
  rcases operands with _ | ⟨test, _ | ⟨e, rest⟩⟩
  · exact exists_evaluatesTo_recursionLimit (needs_expand_nil hsound.machine hready) hfull
  · exact exists_evaluatesTo_recursionLimit (needs_expand_odd hsound.machine hready hcount) hfull
  · exact exists_evaluatesTo_recursionLimit
      (needs_expand_clause hsound.machine hready hsound.scope hcount) hfull

end

/-- Tests are evaluated in order up to the first that is truthy or has no value, and nothing else is
evaluated but the expression after a truthy test: the call has the outcome that decides then, `nil`
if there are no more tests, and the complaint if one form is left. If the recursion limit leaves no
room for expanding the call, it fails with that error. All this holds for as long as the names that
`cond` is about keep their meaning, and for no more operands than can be counted. -/
theorem first_match {m : Machine} {home scope : FrameId} {operands : List Value}
    (id : ObjectId) (hsound : Sound m scope operands) (hcount : operands.length < 2 ^ 63)
    (hready : ∀ rest n, Passed home scope operands m rest n → Ready n.frames home scope) :
    (m.depth + 1 + levels operands ≤ m.depthLimit → ∀ o,
      EvaluatesTo (call id operands) scope m o ↔
        ∃ rest n, Passed home scope operands m rest n ∧ Decides home scope n rest o) ∧
    (m.depthLimit < m.depth + 1 + levels operands →
      ∃ n, EvaluatesTo (call id operands) scope m (.error (.eval .recursionLimit) n)) :=
  ⟨fun hroom _ => evaluatesTo_iff hsound hcount hready hroom,
    exists_recursionLimit hsound hcount (hready _ _ .start)⟩

/-! ## After the prelude -/

instance (frames : Frames) (home scope : FrameId) : Decidable (Ready frames home scope) :=
  decidable_of_iff
    ((frames.get? scope "cond" =
        some (.closure [.sym "&", .sym "xs"] Prelude.condBody home true) ∧
      ∀ b ∈ builtins, frames.get? home b.name = some (.builtin b)) ∧
      frames.bindsMacro home "if" = false ∧ frames.bindsMacro home "quote" = false ∧
      frames.bindsMacro scope "if" = false)
    ⟨fun h => ⟨⟨h.1.1, h.1.2⟩, h.2.1, h.2.2.1, h.2.2.2⟩,
      fun h => ⟨⟨h.cond, h.builtin⟩, h.branch, h.quote, h.branchHere⟩⟩

open Interpreter Prelude

/-- A definition, and the state after it. -/
def definitionOf (name : String) (v : Value) : Value := .list none [.sym "def!", .sym name, v]

def defined (m : Machine) (scope : FrameId) (name : String) (v : Value) : Machine :=
  { m with frames := m.frames.set scope name v }

theorem evaluatesTo_definitionOf {m : Machine} {scope : FrameId} {name : String} {v : Value}
    (hcall : ∀ id head operands, v ≠ .list id (head :: operands))
    (hv : ∀ ev depth, Step.evalData ev scope v (m.toDepth depth) = .ok v (m.toDepth depth))
    (hplain : m.frames.bindsMacro scope "def!" = false) (hroom : m.depth + 2 ≤ m.depthLimit) :
    EvaluatesTo (definitionOf name v) scope m (.ok v (defined m scope name v)) := by
  have hvalue : RunsWithin 0 v scope m (.ok v) m := runsWithin_data hcall hv
  have hdefine : RunsWithin 1 (definitionOf name v) scope m (.ok v) (defined m scope name v) :=
    runsWithin_of_step (macroCall?_eq_none hplain)
      (Needs.done (hvalue.eval.bind_eq rfl fun _ _ _ => rfl))
  exact hdefine.evaluatesTo hroom

/-- The operands of `(cond (def! x nil) (throw 1) (def! y 4) y 7)`: the first test is falsy and the
second one is not. -/
def defining : List Value :=
  [definitionOf "x" .nil, .list none [.sym "throw", .int 1], definitionOf "y" (.int 4), .sym "y",
    .int 7]

theorem sound_defining (x : Extent) : ∀ v ∈ defining, v.Sound x := by
  have hsym (name : String) : (Value.sym name).Sound x := Value.sound_of_isScalar rfl
  have hint (n : Int64) : (Value.int n).Sound x := Value.sound_of_isScalar rfl
  have hnil : Value.nil.Sound x := Value.sound_of_isScalar rfl
  simp [defining, definitionOf, hsym, hint, hnil]

/-- The state after the first test. -/
def passedFirst : Machine :=
  (defined (atTest (extended 1000 {} bindings) 0 defining) 0 "x" .nil).toDepth 0

/-- The first test binds a name and is passed, and the second one binds the name that its expression
is. Neither the expression in between nor the form too many is evaluated. -/
theorem first_match_defining :
    ∃ n, EvaluatesTo (call none defining) 0 (start true 1000 {}) (.ok (.int 4) n) ∧
      n.frames.get? 0 "x" = some .nil ∧ n.frames.get? 0 "y" = some (.int 4) := by
  have hm := (session_start true 1000 {}).sound (sound_bare 1000 {})
  rw [start_eq (by decide)] at hm ⊢
  have hfirst : EvaluatesTo (definitionOf "x" .nil) 0
      (atTest (extended 1000 {} bindings) 0 defining)
      (.ok .nil (defined (atTest (extended 1000 {} bindings) 0 defining) 0 "x" .nil)) :=
    evaluatesTo_definitionOf (by simp) (fun _ _ => rfl) (by decide +kernel) (by decide)
  have hsecond : EvaluatesTo (definitionOf "y" (.int 4)) 0 (atTest passedFirst 0 (defining.drop 2))
      (.ok (.int 4) (defined (atTest passedFirst 0 (defining.drop 2)) 0 "y" (.int 4))) :=
    evaluatesTo_definitionOf (by simp) (fun _ _ => rfl) (by decide +kernel) (by decide)
  have hready : ∀ rest n, Passed 0 0 defining (extended 1000 {} bindings) rest n →
      Ready n.frames 0 0 := by
    intro rest n hpassed
    cases hpassed with
    | start => decide +kernel
    | falsy htest hc hpassed =>
      cases htest.unique hfirst
      cases hpassed with
      | start =>
        show Ready passedFirst.frames 0 0
        decide +kernel
      | falsy htest hc hpassed =>
        cases htest.unique hsecond
        cases hc
  have hlast : EvaluatesTo (.sym "y") 0
      ((defined (atTest passedFirst 0 (defining.drop 2)) 0 "y" (.int 4)).toDepth 0)
      (.ok (.int 4)
        ((defined (atTest passedFirst 0 (defining.drop 2)) 0 "y" (.int 4)).toDepth 0)) :=
    (runsWithin_symbol (by decide +kernel)).evaluatesTo (by decide)
  have hsound : Sound (extended 1000 {} bindings) 0 defining :=
    ⟨hm, by decide, sound_defining _⟩
  refine ⟨_, ((first_match none hsound (by decide) hready).1 (by decide) _).mpr
    ⟨defining.drop 2, passedFirst, .falsy hfirst rfl .start, .truthy hsecond rfl hlast⟩, ?_⟩
  decide +kernel

/-! ## Hidden special forms -/

/-- A macro that makes 42 of every call. -/
def constant : Value := .closure [.sym "&", .sym "xs"] (.int 42) 0 true

/-- By its tests, a call with `true` and `1` is `1`. -/
theorem exists_decides_one {m : Machine} (home scope : FrameId)
    (hroom : m.depth + 2 ≤ m.depthLimit) :
    ∃ n, Decides home scope m [.bool true, .int 1] (.ok (.int 1) n) := by
  have htest : RunsWithin 0 (.bool true) scope (atTest m home [.bool true, .int 1])
      (.ok (.bool true)) (atTest m home [.bool true, .int 1]) :=
    runsWithin_data (by simp) fun _ _ => rfl
  have hone : RunsWithin 0 (.int 1) scope ((atTest m home [.bool true, .int 1]).toDepth m.depth)
      (.ok (.int 1)) ((atTest m home [.bool true, .int 1]).toDepth m.depth) :=
    runsWithin_data (by simp) fun _ _ => rfl
  exact ⟨_, .truthy (htest.evaluatesTo hroom) rfl (hone.evaluatesTo (Nat.le_of_succ_le hroom))⟩

theorem exists_evaluatesTo_ok {code v : Value} {scope : FrameId} {m : Machine} (fuel : Nat)
    (h : (eval fuel code scope m).okWith (fun w _ => decide (w = v)) = true) :
    ∃ n, EvaluatesTo code scope m (.ok v n) := by
  obtain ⟨w, n, heval, hw⟩ := Outcome.exists_of_okWith _ h
  cases of_decide_eq_true hw
  exact ⟨n, by simp, fuel, heval⟩

theorem exists_evaluatesTo_error {code : Value} {scope : FrameId} {m : Machine} (fuel : Nat)
    (h : (eval fuel code scope m).errorWith (fun _ _ => true) = true) :
    ∃ e n, EvaluatesTo code scope m (.error e n) := by
  obtain ⟨e, n, heval, -⟩ := Outcome.exists_of_errorWith _ h
  exact ⟨e, n, by simp, fuel, heval⟩

/-- The state after a program has made such a macro of a name. -/
def hidden (name : String) : Machine := extended 1000 {} (bindings ++ [(name, constant)])

theorem session_hidden (source : String) {name : String}
    (hread : readAll source = .ok [definition "defmacro!" name [.sym "&", .sym "xs"] (.int 42)])
    (hform : evalValue (definition "defmacro!" name [.sym "&", .sym "xs"] (.int 42))
      (extended 1000 {} bindings) = .ok constant (hidden name)) :
    Session (start true 1000 {}) (hidden name) := by
  rw [start_eq (by decide)]
  exact .served_text .start (evalText_singleton hread hform)

/-- Where `if` has been made a macro, or `quote`, or where a frame binds `if` to one, a call whose
first test is truthy does not have the value of the expression after it, although `cond` and the
functions that it uses are bound as ever. -/
theorem first_match_hidden :
    (Session (start true 1000 {}) (hidden "if") ∧ Bound (hidden "if").frames 0 0 ∧
      (∃ n, Decides 0 0 (hidden "if") [.bool true, .int 1] (.ok (.int 1) n)) ∧
      ∃ n, EvaluatesTo (call none [.bool true, .int 1]) 0 (hidden "if") (.ok (.int 42) n)) ∧
    (Session (start true 1000 {}) (hidden "quote") ∧ Bound (hidden "quote").frames 0 0 ∧
      (∃ n, Decides 0 0 (hidden "quote") [.bool true, .int 1] (.ok (.int 1) n)) ∧
      ∃ e n, EvaluatesTo (call none [.bool true, .int 1]) 0 (hidden "quote") (.error e n)) ∧
    ∃ m scope, Action.enter 0 [("if", constant)] (start true 1000 {}) = .ok scope m ∧
      Bound m.frames 0 scope ∧
      (∃ n, Decides 0 scope m [.bool true, .int 1] (.ok (.int 1) n)) ∧
      ∃ n, EvaluatesTo (call none [.bool true, .int 1]) scope m (.ok (.int 42) n) := by
  refine ⟨⟨?_, ⟨by decide +kernel, by decide +kernel⟩, ?_, ?_⟩,
    ⟨?_, ⟨by decide +kernel, by decide +kernel⟩, ?_, ?_⟩, ?_⟩
  · exact session_hidden "(defmacro! if (fn* (& xs) 42))" (eq_ok_of_toOption (by decide +kernel))
      rfl
  · exact exists_decides_one 0 0 (by decide)
  · exact exists_evaluatesTo_ok 9 (by decide +kernel)
  · exact session_hidden "(defmacro! quote (fn* (& xs) 42))" (eq_ok_of_toOption (by decide +kernel))
      rfl
  · exact exists_decides_one 0 0 (by decide)
  · exact exists_evaluatesTo_error 9 (by decide +kernel)
  · rw [start_eq (by decide)]
    refine ⟨_, 1, rfl, ⟨by decide +kernel, by decide +kernel⟩, ?_, ?_⟩
    · exact exists_decides_one 0 1 (by decide)
    · exact exists_evaluatesTo_ok 9 (by decide +kernel)

end Cond

end Lisp
