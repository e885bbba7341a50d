import Lisp.Proofs.Evaluation

/-!
# Templates

Quasiquoted code is a template: unquoted expressions in it stand for their values, spliced ones for
the elements of their values, and everything else for itself. Evaluating the code that a template is
expanded to makes the instance of the template, and evaluates the expressions in it one after
another.
-/

namespace Lisp

/-- The name is bound to a macro, as seen from a frame. -/
def Frames.bindsMacro (frames : Frames) (scope : FrameId) (name : String) : Bool :=
  (frames.get? scope name).any Value.isMacro

theorem macroCall?_eq_none {frames : Frames} {scope : FrameId} {name : String} {id : ObjectId}
    {operands : List Value} (h : frames.bindsMacro scope name = false) :
    Evaluator.macroCall? frames scope (.list id (.sym name :: operands)) = none := by
  unfold Frames.bindsMacro at h
  rw [Evaluator.macroCall?]
  split
  · next hget =>
    rw [hget] at h
    cases h
  · rfl

namespace Template

/-- The functions that build instances are at hand, and nothing stands in the way of `quote`. -/
structure Ready (frames : Frames) (scope : FrameId) : Prop where
  cons : frames.get? scope "cons" = some (.builtin (.sequence .cons))
  concat : frames.get? scope "concat" = some (.builtin (.sequence .concat))
  quote : frames.bindsMacro scope "quote" = false

/-- The names that the code of a template uses mean the same in both states. -/
def SameNames (scope : FrameId) (m n : Machine) : Prop :=
  ∀ name ∈ ["cons", "concat", "quote"], n.frames.get? scope name = m.frames.get? scope name

theorem Ready.of_sameNames {scope : FrameId} {m n : Machine} (h : Ready m.frames scope)
    (hsame : SameNames scope m n) : Ready n.frames scope where
  cons := (hsame "cons" (by simp)).trans h.cons
  concat := (hsame "concat" (by simp)).trans h.concat
  quote := by
    rw [Frames.bindsMacro, hsame "quote" (by simp)]
    exact h.quote

/-! ## Instances -/

/-- Values without parts, which are their own values as code. -/
def isLeaf : Value → Bool
  | .sym _ => false
  | .list _ _ => false
  | .vec _ _ => false
  | .map _ _ => false
  | _ => true

/-- A value that can be spliced, and its elements. -/
inductive Splices : Value → List Value → Prop
  | nil : Splices .nil []
  | list {id : ObjectId} {items : List Value} : Splices (.list id items) items
  | vec {id : ObjectId} {items : List Value} : Splices (.vec id items) items

mutual

/-- `Instantiates scope depth t m v n`: the template `t` has the instance `v`, and its expressions,
each evaluated once and from left to right, lead from the state `m` to the state `n`. They are
evaluated in the frame `scope`, from the depth at which the template stands, and leave alone the
names that the code of the template uses. A list of `k` elements is made last, with `k + 1`
objects. -/
inductive Instantiates (scope : FrameId) : Nat → Value → Machine → Value → Machine → Prop
  | leaf {depth : Nat} {v : Value} {m : Machine} : isLeaf v = true →
      Instantiates scope depth v m v m
  | symbol {depth : Nat} {name : String} {m : Machine} :
      name ≠ "unquote" → name ≠ "splice-unquote" →
      Instantiates scope depth (.sym name) m (.sym name) m
  | map {depth : Nat} {id : ObjectId} {entries : Table} {m : Machine} :
      Instantiates scope depth (.map id entries) m (.map id entries) m
  | unquote {depth fuel : Nat} {id : ObjectId} {code v : Value} {m n : Machine} :
      eval fuel code scope (m.toDepth depth) = .ok v n → SameNames scope m n →
      Instantiates scope depth (.list id [.sym "unquote", code]) m v (n.toDepth m.depth)
  | list {depth : Nat} {id : ObjectId} {items vs : List Value} {m n : Machine} :
      InstantiatesAll scope depth items m vs n →
      Instantiates scope depth (.list id items) m (.list (some (n.objects + items.length)) vs)
        { n with objects := n.objects + items.length + 1 }

/-- The same of the elements of a list: each stands one level deeper than those before it. -/
inductive InstantiatesAll (scope : FrameId) :
    Nat → List Value → Machine → List Value → Machine → Prop
  | nil {depth : Nat} {m : Machine} : InstantiatesAll scope depth [] m [] m
  | cons {depth : Nat} {head v : Value} {tail vs : List Value} {m m' n : Machine} :
      Instantiates scope (depth + 1) head m v m' →
      InstantiatesAll scope (depth + 1) tail m' vs n →
      InstantiatesAll scope depth (head :: tail) m (v :: vs) n
  | splice {depth fuel : Nat} {id : ObjectId} {code seq : Value} {tail items vs : List Value}
      {m m' n : Machine} :
      eval fuel code scope (m.toDepth (depth + 1)) = .ok seq m' → SameNames scope m m' →
      Splices seq items →
      InstantiatesAll scope (depth + 1) tail (m'.toDepth m.depth) vs n →
      InstantiatesAll scope depth (.list id [.sym "splice-unquote", code] :: tail) m (items ++ vs) n

end

section

variable {scope : FrameId}

mutual

theorem Instantiates.depth_eq {depth : Nat} {t v : Value} {m n : Machine} :
    Instantiates scope depth t m v n → n.depth = m.depth
  | .leaf _ => rfl
  | .symbol _ _ => rfl
  | .map => rfl
  | .unquote _ _ => rfl
  | .list hall => hall.depth_eq

theorem InstantiatesAll.depth_eq {depth : Nat} {items vs : List Value} {m n : Machine} :
    InstantiatesAll scope depth items m vs n → n.depth = m.depth
  | .nil => rfl
  | .cons hhead htail => htail.depth_eq.trans hhead.depth_eq
  | .splice _ _ _ htail => htail.depth_eq

end

/-! ## The code of a template -/

theorem Instantiates.ne_unquote {depth : Nat} {t v : Value} {m n : Machine}
    (h : Instantiates scope depth t m v n) : t ≠ .sym "unquote" := by
  rintro rfl
  cases h with
  | leaf h => cases h
  | symbol h _ => exact h rfl

theorem Instantiates.ne_spliceUnquote {depth : Nat} {t v : Value} {m n : Machine}
    (h : Instantiates scope depth t m v n) : t ≠ .sym "splice-unquote" := by
  rintro rfl
  cases h with
  | leaf h => cases h
  | symbol _ h => exact h rfl

theorem unquoted?_eq_none {head : Value} (h : head ≠ .sym "unquote") (tail : List Value) :
    unquoted? (head :: tail) = none := by
  unfold unquoted?
  split
  · next name code heq =>
    cases heq
    rw [if_neg fun hname => h (by rw [hname])]
  · rfl

theorem spliced?_list_eq_none {id : ObjectId} {head : Value} (h : head ≠ .sym "splice-unquote")
    (tail : List Value) : spliced? (.list id (head :: tail)) = none := by
  unfold spliced?
  split
  · next name operands heq =>
    cases heq
    rw [if_neg fun hname => h (by rw [hname])]
  · rfl

theorem expand_leaf {v : Value} (h : isLeaf v = true) : expand v = .ok v := by
  cases v with
  | sym => cases h
  | list => cases h
  | map => cases h
  | _ => rfl

/-- A template is not spliced, since no splice is a template. -/
theorem Instantiates.spliced?_eq_none {depth : Nat} {t v : Value} {m n : Machine}
    (h : Instantiates scope depth t m v n) : spliced? t = none := by
  cases h with
  | leaf h =>
    cases t with
    | list => cases h
    | _ => rfl
  | symbol => rfl
  | map => rfl
  | unquote => exact spliced?_list_eq_none (by simp) _
  | list hall =>
    cases hall with
    | nil => rfl
    | cons hhead => exact spliced?_list_eq_none hhead.ne_spliceUnquote _
    | splice => exact spliced?_list_eq_none (by simp) _

/-! ## Running the code -/

theorem runs_leaf {v : Value} {m : Machine} (h : isLeaf v = true) : Runs v scope m v m := by
  refine Takes.runs_done ?_ (takes_data ?_ fun ev => ?_)
  · cases v with
    | list => cases h
    | _ => rfl
  · rintro id head operands rfl
    cases h
  · cases v with
    | sym => cases h
    | list => cases h
    | vec => cases h
    | map => cases h
    | _ => rfl

theorem runs_symbol {name : String} {v : Value} {m : Machine}
    (h : m.frames.get? scope name = some v) : Runs (.sym name) scope m v m := by
  refine Takes.runs_done rfl (takes_data nofun fun ev => ?_)
  rw [Step.evalData, Action.lookup, Frames.lookup, h]
  rfl

theorem runs_quoted {v : Value} {m : Machine} (h : Ready m.frames scope) :
    Runs (quoted v) scope m v m :=
  takes_quote.runs_done (macroCall?_eq_none h.quote)

theorem runs_nil {id : ObjectId} {m : Machine} :
    Runs (.list id []) scope m (.list (some m.objects) []) { m with objects := m.objects + 1 } :=
  Takes.runs_done rfl (takes_data nofun fun _ => rfl)

/-- A call of a function on sequences makes one object. -/
theorem runs_sequence (op : SequenceOp) {id : ObjectId} {operands args items : List Value}
    {m n : Machine} {depth : Nat}
    (hname : m.frames.get? scope op.signature.name = some (.builtin (.sequence op)))
    (hargs : EvaluatesAll scope operands (m.toDepth (depth + 1)) args (n.toDepth (depth + 1)))
    (hrun : op.run args = .ok (.list none items)) :
    Runs (.list id (.sym op.signature.name :: operands)) scope (m.toDepth (depth + 1))
      (.list (some n.objects) items) ({ n with objects := n.objects + 1 }.toDepth (depth + 1)) := by
  have hplain : m.frames.bindsMacro scope op.signature.name = false := by
    rw [Frames.bindsMacro, hname]
    rfl
  have hhead : (Value.sym op.signature.name).sym?.bind SpecialForm.ofName? = none := by
    cases op <;> rfl
  have hf : Runs (.sym op.signature.name) scope (m.toDepth (depth + 1 + 1)) _ _ :=
    runs_symbol hname
  refine (takes_call hhead hf.evaluates hargs fun ev => ?_).runs_done (macroCall?_eq_none hplain)
  have hmake : Builtin.run ev (.sequence op) args (n.toDepth (depth + 1)) =
      .ok (.list (some n.objects) items)
        ({ n with objects := n.objects + 1 }.toDepth (depth + 1)) := by
    rw [Builtin.run, hrun]
    rfl
  exact .bind (.of_eq hmake) (.of_eq rfl)

mutual

/-- The code of a template delivers its instance. -/
theorem Instantiates.runs {depth : Nat} {t v : Value} {m n : Machine} :
    Instantiates scope depth t m v n → Ready m.frames scope →
      Ready n.frames scope ∧ ∃ code, expand t = .ok code ∧
        Runs code scope (m.toDepth (depth + 1)) v (n.toDepth (depth + 1))
  | .leaf h, hready => ⟨hready, _, expand_leaf h, runs_leaf h⟩
  | .symbol _ _, hready => ⟨hready, _, by rw [expand], runs_quoted hready⟩
  | .map, hready => ⟨hready, _, by rw [expand], runs_quoted hready⟩
  | .unquote heval hsame, hready => by
    have hruns := runs_of_eval heval
    refine ⟨hready.of_sameNames hsame, _, ?_, hruns⟩
    rw [expand, expandList, unquoted?, if_pos rfl]
  | @Instantiates.list _ _ id _ _ _ _ hall, hready => by
    obtain ⟨hready', code, hcode, hruns⟩ := hall.runs hready id
    exact ⟨hready', code, by rw [expand, hcode], hruns⟩

theorem InstantiatesAll.runs {depth : Nat} {items vs : List Value} {m n : Machine} :
    InstantiatesAll scope depth items m vs n → Ready m.frames scope → ∀ id,
      Ready n.frames scope ∧ ∃ code, expandList id items = .ok code ∧
        Runs code scope (m.toDepth (depth + 1)) (.list (some (n.objects + items.length)) vs)
          ({ n with objects := n.objects + items.length + 1 }.toDepth (depth + 1))
  | .nil, hready, id => ⟨hready, _, by rw [expandList], runs_nil⟩
  | .cons hhead htail, hready, id => by
    obtain ⟨hready', first, hfirst, hfirstRuns⟩ := hhead.runs hready
    obtain ⟨hready'', rest, hrest, hrestRuns⟩ := htail.runs hready' none
    -- The code of the head is evaluated before that of the tail, as the operands of `cons`.
    refine ⟨hready'', .list none [.sym "cons", first, rest], ?_, ?_⟩
    · -- The head has an instance, so it is neither the symbol `unquote` nor a splice.
      rw [expandList, unquoted?_eq_none hhead.ne_unquote, hrest]
      simp only [hhead.spliced?_eq_none, hfirst]
      rfl
    · exact runs_sequence .cons hready.cons
        (.cons hfirstRuns.evaluates (.cons hrestRuns.evaluates .nil)) rfl
  | @InstantiatesAll.splice _ _ _ _ code _ _ _ _ _ _ _ heval hsame hsplices htail, hready, id => by
    obtain ⟨hready', rest, hrest, hrestRuns⟩ := htail.runs (hready.of_sameNames hsame) none
    have hcodeRuns := runs_of_eval heval
    refine ⟨hready', .list none [.sym "concat", code, rest], ?_, ?_⟩
    · rw [expandList, unquoted?_eq_none (by simp), hrest]
      rfl
    · refine runs_sequence .concat hready.concat
        (.cons hcodeRuns.evaluates (.cons hrestRuns.evaluates .nil)) ?_
      cases hsplices <;> simp [SequenceOp.run, SequenceOp.concatAll, SequenceOp.elements,
        Except.map]

end

end

/-- Quasiquotation is instantiation: where `quasiquote` is no macro and the functions that build
instances are at hand, a quasiquoted template is evaluated to its instance, by the evaluations that
make up the instance, unless the recursion limit stops it. -/
theorem eval_quasiquote {scope : FrameId} {id : ObjectId} {t v : Value} {m n : Machine}
    (hready : Ready m.frames scope) (hplain : m.frames.bindsMacro scope "quasiquote" = false)
    (ht : Instantiates scope m.depth t m v n)
    (hlimit : ∀ fuel n', eval fuel (.list id [.sym "quasiquote", t]) scope m ≠
      .error (.eval .recursionLimit) n') :
    ∃ enough, ∀ fuel, enough ≤ fuel →
      eval fuel (.list id [.sym "quasiquote", t]) scope m = .ok v n := by
  obtain ⟨-, code, hcode, hruns⟩ := ht.runs hready
  have hquasi : Runs (.list id [.sym "quasiquote", t]) scope (m.toDepth (m.depth + 1)) v
      (n.toDepth (m.depth + 1)) :=
    (takes_quasiquote hcode).runs_tail (macroCall?_eq_none hplain) hruns
  obtain ⟨enough, heval⟩ := hquasi.evaluates
  rw [Machine.toDepth_self, ← ht.depth_eq, Machine.toDepth_self] at heval
  refine ⟨enough, fun fuel hfuel => ?_⟩
  rcases heval fuel hfuel with hok | ⟨n', herror⟩
  · exact hok
  · exact absurd herror (hlimit fuel n')

/-- A state with the functions that build instances, and other bindings. -/
def building (others : Bindings) : Machine :=
  { frames := #[⟨[("cons", .builtin (.sequence .cons)), ("concat", .builtin (.sequence .concat))]
      ++ others, none⟩] }

/-- An expression that binds a name, and a splice that uses it. -/
theorem eval_quasiquote_binding :
    ∃ enough, ∀ fuel, enough ≤ fuel →
      eval fuel (.list none [.sym "quasiquote", .list none [
          .list none [.sym "unquote", .list none [.sym "def!", .sym "a", .vec none [.int 1]]],
          .list none [.sym "splice-unquote", .sym "a"], .sym "b"]]) 0 (building []) =
      .ok (.list (some 4) [.vec (some 0) [.int 1], .int 1, .sym "b"])
        { building [("a", .vec (some 0) [.int 1])] with objects := 5 } := by
  have hbind : eval 5 (.list none [.sym "def!", .sym "a", .vec none [.int 1]]) 0
      ((building []).toDepth 1) = .ok (.vec (some 0) [.int 1])
      { (building [("a", .vec (some 0) [.int 1])]).toDepth 1 with objects := 1 } := rfl
  have huse : eval 5 (.sym "a") 0
      (Machine.toDepth { building [("a", .vec (some 0) [.int 1])] with objects := 1 } 2) =
      .ok (.vec (some 0) [.int 1])
      (Machine.toDepth { building [("a", .vec (some 0) [.int 1])] with objects := 1 } 2) := rfl
  have hsame : SameNames 0 (building []) (building [("a", .vec (some 0) [.int 1])]) := by
    intro name hname
    simp only [List.mem_cons, List.not_mem_nil, or_false] at hname
    rcases hname with rfl | rfl | rfl <;> rfl
  refine eval_quasiquote ⟨rfl, rfl, rfl⟩ rfl ?_ fun fuel n' h => ?_
  · exact .list (.cons (.unquote hbind hsame) (.splice huse (fun _ _ => rfl) .vec
      (.cons (.symbol (by simp) (by simp)) .nil)))
  · obtain ⟨v, n, hok⟩ := Outcome.exists_eq_ok
      (o := eval 9 (.list none [.sym "quasiquote", .list none [
      .list none [.sym "unquote", .list none [.sym "def!", .sym "a", .vec none [.int 1]]],
      .list none [.sym "splice-unquote", .sym "a"], .sym "b"]]) 0 (building [])) (by decide +kernel)
    cases eq_ok_of_eval hok h nofun

/-- Where `quasiquote` is bound to a macro, that macro is called instead. -/
theorem eval_quasiquote_shadowed : ∃ (m n : Machine) (t v : Value),
    Ready m.frames 0 ∧ Instantiates 0 m.depth t m v n ∧
    (∀ fuel n', eval fuel (.list none [.sym "quasiquote", t]) 0 m ≠
      .error (.eval .recursionLimit) n') ∧
    ¬ ∃ fuel, eval fuel (.list none [.sym "quasiquote", t]) 0 m = .ok v n := by
  obtain ⟨n', hrun⟩ : ∃ n', eval 5 (.list none [.sym "quasiquote", .list none [.int 1, .int 2]]) 0
      (building [("quasiquote", .closure [.sym "x"] (.int 42) 0 true)]) = .ok (.int 42) n' :=
    ⟨_, rfl⟩
  refine ⟨building [("quasiquote", .closure [.sym "x"] (.int 42) 0 true)], _,
    .list none [.int 1, .int 2], _, ⟨rfl, rfl, rfl⟩,
    .list (.cons (.leaf rfl) (.cons (.leaf rfl) .nil)), ?_, ?_⟩
  · intro fuel n'' h
    cases eq_ok_of_eval hrun h nofun
  · rintro ⟨fuel, h⟩
    cases eq_ok_of_eval hrun h nofun

end Template

end Lisp
