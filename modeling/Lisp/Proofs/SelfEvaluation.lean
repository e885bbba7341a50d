import Lisp.Proofs.Limit

/-!
# Data that evaluate to themselves

In a vector or a map the elements are evaluated, one level deeper, and a new vector or map is made
of their values. So where no name and no call occurs, evaluation makes a copy of the data. It takes
as many levels as the data are high: with fewer left the recursion limit stops it, and either way
nothing in the state has changed but the number of objects made.
-/

namespace Lisp

/-! ## Data -/

namespace Value

/-- Data in which nothing is looked up and nothing is called. The keys of a map are not evaluated,
so they may be anything. -/
inductive SelfEvaluating : Value → Prop
  | leaf {v : Value} : Template.isLeaf v = true → SelfEvaluating v
  | emptyList {id : ObjectId} : SelfEvaluating (list id [])
  | vec {id : ObjectId} {items : List Value} :
      (∀ v ∈ items, SelfEvaluating v) → SelfEvaluating (vec id items)
  | map {id : ObjectId} {entries : Table} :
      (∀ entry ∈ entries, SelfEvaluating entry.2) → SelfEvaluating (map id entries)

mutual

/-- How many levels data have: one, and those of the highest element of a vector or the highest
value in a map. -/
def height : Value → Nat
  | vec _ items => heightAll items + 1
  | map _ entries => heightEntries entries + 1
  | _ => 1

def heightAll : List Value → Nat
  | [] => 0
  | v :: vs => max (height v) (heightAll vs)

def heightEntries : Table → Nat
  | [] => 0
  | (_, v) :: entries => max (height v) (heightEntries entries)

end

mutual

/-- The value with plain lists, vectors and maps in it. The keys of maps and what functions are made
of stay as they are. -/
def plain : Value → Value
  | list _ items => list none (plainAll items)
  | vec _ items => vec none (plainAll items)
  | map _ entries => map none (plainEntries entries)
  | v => v

def plainAll : List Value → List Value
  | [] => []
  | v :: vs => plain v :: plainAll vs

def plainEntries : Table → Table
  | [] => []
  | (key, v) :: entries => (key, plain v) :: plainEntries entries

end

theorem height_le_heightAll {v : Value} {items : List Value} (h : v ∈ items) :
    v.height ≤ heightAll items := by
  induction h with
  | head => exact Nat.le_max_left _ _
  | tail _ _ ih => exact Nat.le_trans ih (Nat.le_max_right _ _)

theorem height_le_heightEntries {entry : Value × Value} {entries : Table} (h : entry ∈ entries) :
    entry.2.height ≤ heightEntries entries := by
  induction h with
  | head => exact Nat.le_max_left _ _
  | tail _ _ ih => exact Nat.le_trans ih (Nat.le_max_right _ _)

theorem plain_identify (v : Value) (id : Nat) : (v.identify id).plain = v.plain := by
  unfold identify
  split <;> rfl

end Value

/-! ## Costs -/

/-- An action costs some levels of evaluation: at a depth that leaves as many it has a result with
the property, at a greater depth the recursion limit stops it, and all it changes is the number of
objects made. -/
def Action.Costs {α : Type} (levels : Nat) (x : Action α) (gives : α → Prop) : Prop :=
  ∀ m : Machine, m.depth ≤ m.depthLimit → ∃ objects,
    (m.depth + levels ≤ m.depthLimit → ∃ a, gives a ∧ x m = .ok a { m with objects }) ∧
    (m.depthLimit < m.depth + levels → x m = .error (.eval .recursionLimit) { m with objects })

namespace Action.Costs

variable {α β : Type} {levels levels' : Nat} {x : Action α} {gives : α → Prop}

theorem of_ok (objects : Machine → Nat)
    (h : ∀ m, ∃ a, gives a ∧ x m = .ok a { m with objects := objects m }) : x.Costs 0 gives :=
  fun m hdepth => ⟨objects m, fun _ => h m, fun hlt => absurd hdepth (Nat.not_le_of_lt hlt)⟩

theorem pure {a : α} (ha : gives a) : Costs 0 (Pure.pure a) gives :=
  of_ok Machine.objects fun _ => ⟨a, ha, rfl⟩

theorem make {v w : Value} (h : v.plain = w.plain) :
    Costs 0 (Action.make v) fun r => r.plain = w.plain :=
  of_ok (fun m => m.objects + 1) fun m =>
    ⟨v.identify m.objects, (v.plain_identify m.objects).trans h, rfl⟩

/-- Two actions one after another cost as many levels as the one that costs more. -/
theorem bind {f : α → Action β} {gives' : β → Prop} (hx : x.Costs levels gives)
    (hf : ∀ a, gives a → (f a).Costs levels' gives') :
    (x >>= f).Costs (max levels levels') gives' := by
  intro m hdepth
  obtain ⟨objects, hok, hlimit⟩ := hx m hdepth
  rw [bind_apply]
  by_cases hroom : m.depth + levels ≤ m.depthLimit
  · obtain ⟨a, ha, hrun⟩ := hok hroom
    obtain ⟨objects', hok', hlimit'⟩ := hf a ha { m with objects } hdepth
    rw [hrun]
    refine ⟨objects', fun hle => hok' ?_, fun hlt => hlimit' ?_⟩
    · show m.depth + levels' ≤ m.depthLimit
      omega
    · show m.depthLimit < m.depth + levels'
      omega
  · rw [hlimit (Nat.lt_of_not_le hroom)]
    refine ⟨objects, fun hle => absurd hle ?_, fun _ => rfl⟩
    omega

theorem bind_free {f : α → Action β} {gives' : β → Prop} (hx : x.Costs levels gives)
    (hf : ∀ a, gives a → (f a).Costs 0 gives') : (x >>= f).Costs levels gives' := by
  rw [← Nat.max_zero levels]
  exact hx.bind hf

theorem nested (hx : x.Costs levels gives) : (Action.nested x).Costs (levels + 1) gives := by
  intro m hdepth
  by_cases hroom : m.depth < m.depthLimit
  · obtain ⟨objects, hok, hlimit⟩ := hx (m.toDepth (m.depth + 1)) hroom
    have hlevels : m.depth + (levels + 1) = m.depth + 1 + levels := by omega
    rw [Action.nested_of_lt x hroom, hlevels]
    refine ⟨objects, fun hle => ?_, fun hlt => ?_⟩
    · obtain ⟨a, ha, hrun⟩ := hok hle
      exact ⟨a, ha, congrArg Outcome.leave hrun⟩
    · exact congrArg Outcome.leave (hlimit hlt)
  · rw [Action.nested_of_le x (Nat.le_of_not_lt hroom)]
    refine ⟨m.objects, fun hle => absurd hle ?_, fun _ => rfl⟩
    omega

end Action.Costs

/-! ## Evaluation -/

section

variable {fuel : Nat} {scope : FrameId}

theorem costs_evalAll {items : List Value}
    (h : ∀ v ∈ items, (eval fuel v scope).Costs v.height fun w => w.plain = v.plain) :
    (Step.evalAll (evaluator fuel) scope items).Costs (Value.heightAll items) fun ws =>
      Value.plainAll ws = Value.plainAll items := by
  induction items with
  | nil => exact .pure rfl
  | cons v items ih =>
    obtain ⟨hv, hitems⟩ := List.forall_mem_cons.mp h
    refine .bind hv fun w hw => .bind_free (ih hitems) fun ws hws => .pure ?_
    rw [Value.plainAll, Value.plainAll, hw, hws]

theorem costs_evalEntries {entries : Table}
    (h : ∀ entry ∈ entries,
      (eval fuel entry.2 scope).Costs entry.2.height fun w => w.plain = entry.2.plain) :
    (Step.evalEntries (evaluator fuel) scope entries).Costs (Value.heightEntries entries) fun ws =>
      Value.plainEntries ws = Value.plainEntries entries := by
  induction entries with
  | nil => exact .pure rfl
  | cons entry entries ih =>
    obtain ⟨hv, hentries⟩ := List.forall_mem_cons.mp h
    refine .bind hv fun w hw => .bind_free (ih hentries) fun ws hws => .pure ?_
    rw [Value.plainEntries, Value.plainEntries, hw, hws]

/-- What is no call costs one level more as an expression than its elements do. -/
theorem costs_eval {v : Value} {levels : Nat} {gives : Value → Prop}
    (hcall : ∀ id head operands, v ≠ .list id (head :: operands)) (hfuel : 2 ≤ fuel)
    (h : (Step.evalData (evaluator fuel) scope v).Costs levels gives) :
    (eval (fuel + 1) v scope).Costs (levels + 1) gives := by
  obtain ⟨rounds, rfl⟩ := Nat.exists_eq_add_of_le' hfuel
  have hloop : (evaluator (rounds + 2)).loop (rounds + 2) v scope =
      Step.evalData (evaluator (rounds + 2)) scope v := Evaluator.loop_eq_evalData hcall
  rw [← hloop] at h
  exact h.nested

end

/-- Evaluating data makes a copy of them and costs as many levels as they are high. -/
theorem Value.SelfEvaluating.costs {v : Value} (hv : v.SelfEvaluating) {fuel : Nat}
    (hfuel : v.height + 2 ≤ fuel) (scope : FrameId) :
    (eval fuel v scope).Costs v.height fun w => w.plain = v.plain := by
  induction hv generalizing fuel with
  | @leaf v hleaf =>
    obtain ⟨k, rfl⟩ := Nat.exists_eq_add_of_le' hfuel
    cases v with
    | sym | list | vec | map => cases hleaf
    | _ => exact costs_eval (by simp) (Nat.le_add_left _ _) (.pure rfl)
  | emptyList =>
    obtain ⟨k, rfl⟩ := Nat.exists_eq_add_of_le' hfuel
    refine costs_eval (by simp) (Nat.le_add_left _ _) ?_
    exact .bind_free (costs_evalAll (List.forall_mem_nil _)) fun ws hws =>
      .make (congrArg (Value.list none) hws)
  | @vec id items _ ih =>
    rw [height] at hfuel ⊢
    obtain ⟨k, rfl⟩ := Nat.exists_eq_add_of_le' hfuel
    have hitem : ∀ v ∈ items, v.height + 2 ≤ k + heightAll items + 2 := fun v hmem => by
      have hle := height_le_heightAll hmem
      omega
    refine costs_eval (by simp) (Nat.le_add_left _ _) ?_
    exact .bind_free (costs_evalAll fun v hmem => ih v hmem (hitem v hmem)) fun ws hws =>
      .make (congrArg (Value.vec none) hws)
  | @map id entries _ ih =>
    rw [height] at hfuel ⊢
    obtain ⟨k, rfl⟩ := Nat.exists_eq_add_of_le' hfuel
    have hvalue : ∀ entry ∈ entries, entry.2.height + 2 ≤ k + heightEntries entries + 2 :=
      fun entry hmem => by
        have hle := height_le_heightEntries hmem
        omega
    refine costs_eval (by simp) (Nat.le_add_left _ _) ?_
    exact .bind_free (costs_evalEntries fun entry hmem => ih entry hmem (hvalue entry hmem))
      fun ws hws => .make (congrArg (Value.map none) hws)

/-- Data evaluate to a copy of themselves where as many levels are left as they are high, and are
stopped by the recursion limit where fewer are left. Neither changes anything in the state but the
number of objects made. -/
theorem eval_selfEvaluating {v : Value} (hv : v.SelfEvaluating) {fuel : Nat}
    (hfuel : v.height + 2 ≤ fuel) (scope : FrameId) (m : Machine) :
    ∃ objects,
      (m.depth + v.height ≤ m.depthLimit →
        ∃ w, w.plain = v.plain ∧ eval fuel v scope m = .ok w { m with objects }) ∧
      (m.depthLimit < m.depth + v.height →
        eval fuel v scope m = .error (.eval .recursionLimit) { m with objects }) := by
  by_cases hdepth : m.depth ≤ m.depthLimit
  · exact hv.costs hfuel scope m hdepth
  · obtain ⟨k, rfl⟩ := Nat.exists_eq_add_of_le' hfuel
    refine ⟨m.objects, fun hle => absurd hle ?_, fun _ => Action.nested_of_le _ ?_⟩
    · omega
    · omega

/-- A vector that holds a map with a vector in it, a function, a macro and an atom that does not
exist is three levels high: three levels are enough for it, and two are not. -/
theorem eval_selfEvaluating_nested :
    let v : Value := .vec (some 0) [.map none [(.sym "key", .vec none [])], .list none [],
      .builtin (.arithmetic .add), .closure [] (.sym "body") 5 true, .atom 7]
    let m : Machine := { depthLimit := 3 }
    v.height = 3 ∧
      (∃ w objects, w.plain = v.plain ∧ eval 5 v 0 m = .ok w { m with objects }) ∧
      ∃ objects, eval 5 v 0 (m.toDepth 1) =
        .error (.eval .recursionLimit) { m.toDepth 1 with objects } := by
  intro v m
  have hmap : Value.SelfEvaluating (.map none [(.sym "key", .vec none [])]) :=
    .map (List.forall_mem_singleton.mpr (.vec (List.forall_mem_nil _)))
  have hv : v.SelfEvaluating := by
    refine .vec (List.forall_mem_cons.mpr ⟨hmap, List.forall_mem_cons.mpr ⟨.emptyList, ?_⟩⟩)
    exact List.forall_mem_cons.mpr ⟨.leaf rfl, List.forall_mem_cons.mpr ⟨.leaf rfl,
      List.forall_mem_singleton.mpr (.leaf rfl)⟩⟩
  have hheight : v.height = 3 := by decide +kernel
  have hfuel : v.height + 2 ≤ 5 := by omega
  obtain ⟨objects, hok, -⟩ := eval_selfEvaluating hv hfuel 0 m
  obtain ⟨objects', -, hlimit⟩ := eval_selfEvaluating hv hfuel 0 (m.toDepth 1)
  obtain ⟨w, hw, hrun⟩ := hok (show 0 + v.height ≤ 3 by omega)
  exact ⟨hheight, ⟨w, objects, hw, hrun⟩, objects', hlimit (show 3 < 1 + v.height by omega)⟩

end Lisp
