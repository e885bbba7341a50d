import Lisp.Proofs.Tail

/-!
# Parameters

A list of parameters is looked at twice: when a function is made, and when its arguments are bound.
The first look lets only those lists through that name the arguments one by one, with perhaps one
more name for the rest of them. On such a list the second look fails if there are too few arguments,
and in no other way; otherwise the frame of the call binds the names in the list and nothing else,
and of several arguments for one name the last counts.
-/

namespace Lisp

/-! ## Bindings made one after another -/

/-- The value that a name gets last. -/
def latest (name : String) : List (String × Value) → Option Value
  | [] => none
  | (n, v) :: rest => (latest name rest).or (if n = name then some v else none)

theorem latest_append (name : String) (xs ys : List (String × Value)) :
    latest name (xs ++ ys) = (latest name ys).or (latest name xs) := by
  induction xs with
  | nil => exact (Option.or_none).symm
  | cons x xs ih => rw [List.cons_append, latest, ih, latest, Option.or_assoc]

theorem latest_eq_none {name : String} {sets : List (String × Value)}
    (h : name ∉ sets.map Prod.fst) : latest name sets = none := by
  induction sets with
  | nil => rfl
  | cons x xs ih =>
    rw [List.map_cons, List.mem_cons, not_or] at h
    rw [latest, ih h.2, if_neg (Ne.symm h.1)]
    rfl

namespace Bindings

def names (bindings : Bindings) : List String :=
  bindings.map Prod.fst

/-- Binds names one after another. -/
def setAll (bindings : Bindings) (sets : List (String × Value)) : Bindings :=
  sets.foldl (fun bindings s => bindings.set s.1 s.2) bindings

variable {bindings : Bindings}

theorem get?_cons (n : String) (v : Value) (bindings : Bindings) (name : String) :
    get? name ((n, v) :: bindings) = if n = name then some v else bindings.get? name := by
  rw [get?]
  by_cases h : n = name
  · rw [if_pos (beq_iff_eq.mpr h.symm), if_pos h]
  · rw [if_neg fun heq => h (beq_iff_eq.mp heq).symm, if_neg h]

theorem set_cons (n : String) (w : Value) (bindings : Bindings) (name : String) (v : Value) :
    set name v ((n, w) :: bindings) =
      if n = name then (n, v) :: bindings else (n, w) :: bindings.set name v := by
  rw [set]
  by_cases h : n = name
  · rw [if_pos (beq_iff_eq.mpr h.symm), if_pos h]
  · rw [if_neg fun heq => h (beq_iff_eq.mp heq).symm, if_neg h]

theorem get?_set (bindings : Bindings) (name : String) (v : Value) (other : String) :
    (bindings.set name v).get? other = if name = other then some v else bindings.get? other := by
  induction bindings with
  | nil => exact get?_cons name v [] other
  | cons binding rest ih =>
    obtain ⟨n, w⟩ := binding
    rw [set_cons]
    by_cases hname : n = name
    · subst hname
      rw [if_pos rfl, get?_cons, get?_cons]
      by_cases hother : n = other
      · rw [if_pos hother, if_pos hother]
      · rw [if_neg hother, if_neg hother, if_neg hother]
    · rw [if_neg hname, get?_cons, get?_cons, ih]
      by_cases hother : n = other
      · rw [if_pos hother, if_neg fun h => hname (hother.trans h.symm), if_pos hother]
      · rw [if_neg hother, if_neg hother]

theorem get?_isSome_iff {name : String} :
    (bindings.get? name).isSome = true ↔ name ∈ bindings.names := by
  induction bindings with
  | nil => exact ⟨fun h => absurd h Bool.false_ne_true, fun h => absurd h List.not_mem_nil⟩
  | cons binding rest ih =>
    obtain ⟨n, w⟩ := binding
    rw [get?_cons, names, List.map_cons, List.mem_cons]
    by_cases h : n = name
    · rw [if_pos h]
      exact ⟨fun _ => .inl h.symm, fun _ => rfl⟩
    · rw [if_neg h, ih]
      exact ⟨.inr, fun hmem => hmem.resolve_left (Ne.symm h)⟩

theorem mem_names_set {name other : String} {v : Value} :
    other ∈ (bindings.set name v).names ↔ name = other ∨ other ∈ bindings.names := by
  rw [← get?_isSome_iff, ← get?_isSome_iff, get?_set]
  by_cases h : name = other
  · simp [h]
  · simp [h]

theorem nodup_names_set (h : bindings.names.Nodup) (name : String) (v : Value) :
    (bindings.set name v).names.Nodup := by
  induction bindings with
  | nil => exact List.nodup_cons.mpr ⟨List.not_mem_nil, h⟩
  | cons binding rest ih =>
    obtain ⟨n, w⟩ := binding
    obtain ⟨hfirst, hrest⟩ := List.nodup_cons.mp h
    rw [set_cons]
    split
    · exact h
    · next hname =>
      refine List.nodup_cons.mpr ⟨fun hmem => ?_, ih hrest⟩
      rcases mem_names_set.mp hmem with heq | hmem
      · exact hname heq.symm
      · exact hfirst hmem

theorem get?_setAll (bindings : Bindings) (sets : List (String × Value)) (name : String) :
    (bindings.setAll sets).get? name = (latest name sets).or (bindings.get? name) := by
  induction sets generalizing bindings with
  | nil => rfl
  | cons s sets ih =>
    refine (ih (bindings.set s.1 s.2)).trans ?_
    rw [latest, get?_set, Option.or_assoc]
    by_cases h : s.1 = name
    · rw [if_pos h, if_pos h]
      rfl
    · rw [if_neg h, if_neg h]
      rfl

theorem mem_names_setAll {sets : List (String × Value)} {name : String} :
    name ∈ (bindings.setAll sets).names ↔ name ∈ sets.map Prod.fst ∨ name ∈ bindings.names := by
  induction sets generalizing bindings with
  | nil => simp [setAll]
  | cons s sets ih =>
    refine (@ih (bindings.set s.1 s.2)).trans ?_
    rw [mem_names_set, List.map_cons, List.mem_cons, eq_comm, or_assoc, or_left_comm]

theorem nodup_names_setAll (h : bindings.names.Nodup) (sets : List (String × Value)) :
    (bindings.setAll sets).names.Nodup := by
  induction sets generalizing bindings with
  | nil => exact h
  | cons s sets ih => exact ih (nodup_names_set h s.1 s.2)

end Bindings

/-! ## Binding arguments -/

/-- What is bound to what, one after another, when arguments are bound to parameters. -/
def Params.assignments (restId : ObjectId) : List Value → List Value → List (String × Value)
  | [], _ => []
  | param :: params, args =>
    match param.sym? with
    | none => []
    | some name =>
      if name = "&" then
        ((params.head?.bind Value.sym?).map fun rest => (rest, Value.list restId args)).toList
      else match args with
        | [] => []
        | arg :: args => (name, arg) :: assignments restId params args

namespace Params

variable {shortage : Error} {restId : ObjectId}

theorem bindFrom_eq_ok {bound bindings : Bindings} {params args : List Value}
    (h : bindFrom shortage restId bound params args = .ok bindings) :
    bindings = bound.setAll (assignments restId params args) := by
  induction params generalizing bound args with
  | nil =>
    cases h
    rfl
  | cons param params ih =>
    rw [bindFrom] at h
    rw [assignments]
    split at h
    · cases h
    · next hsym =>
      rw [hsym]
      dsimp only
      rw [if_pos rfl]
      split at h
      · next rest hrest =>
        cases h
        rw [hrest]
        rfl
      · cases h
    · next name hne hsym =>
      rw [hsym]
      dsimp only
      rw [if_neg hne]
      cases args with
      | nil => cases h
      | cons arg args => exact ih h

end Params

/-! ## Lists that are let through -/

/-- Parameters of a function: names that take one argument each, and perhaps one that takes those
that are left. -/
structure Parameters where
  fixed : List String
  rest : Option String
  fixed_ne : "&" ∉ fixed
  rest_ne : rest ≠ some "&"

namespace Parameters

/-- How a name for the rest of the arguments is written. -/
def marked : Option String → List Value
  | none => []
  | some name => [.sym "&", .sym name]

/-- The list that the parameters are written as. -/
def values (p : Parameters) : List Value :=
  p.fixed.map .sym ++ marked p.rest

/-- The numbers of arguments that can be bound. -/
def arity (p : Parameters) : Arity :=
  if p.rest.isSome then .atLeast p.fixed.length else .exactly p.fixed.length

end Parameters

theorem Value.eq_sym_of_sym? {v : Value} {name : String} (h : v.sym? = some name) :
    v = .sym name := by
  cases v with
  | sym n => exact congrArg Value.sym (Option.some.inj h)
  | _ => cases h

namespace Params

open Parameters

theorem check_symbol {name : String} (h : name ≠ "&") (params : List Value) :
    check (.sym name :: params) = check params := by
  rw [check, Value.sym?]
  dsimp only
  rw [if_neg fun hmark => h hmark.1]

theorem check_values (p : Parameters) : check p.values = .ok () := by
  obtain ⟨fixed, rest, hfixed, hrest⟩ := p
  show check (fixed.map .sym ++ marked rest) = .ok ()
  induction fixed with
  | nil =>
    cases rest with
    | none => rfl
    | some name =>
      have hname : name ≠ "&" := fun h => hrest (congrArg some h)
      show check [.sym "&", .sym name] = .ok ()
      rw [check]
      simp [Value.sym?, hname, check]
  | cons name fixed ih =>
    obtain ⟨hname, hfixed⟩ := List.ne_and_not_mem_of_not_mem_cons hfixed
    rw [List.map_cons, List.cons_append, check_symbol (Ne.symm hname)]
    exact ih hfixed

theorem exists_values_of_check {params : List Value} (h : check params = .ok ()) :
    ∃ p : Parameters, params = p.values := by
  induction params with
  | nil => exact ⟨⟨[], none, List.not_mem_nil, by simp⟩, rfl⟩
  | cons param params ih =>
    rw [check] at h
    split at h
    · cases h
    · next name hsym =>
      cases Value.eq_sym_of_sym? hsym
      split at h
      · cases h
      · next hmark =>
        by_cases hname : name = "&"
        · -- One parameter is left after the mark, and it names the rest.
          subst hname
          obtain ⟨hlength, hlast⟩ := not_or.mp fun hbad => hmark ⟨rfl, hbad⟩
          obtain ⟨last, rfl⟩ := List.length_eq_one_iff.mp (Decidable.not_not.mp hlength)
          rw [check] at h
          split at h
          · cases h
          · next rest hrest =>
            cases Value.eq_sym_of_sym? hrest
            exact ⟨⟨[], some rest, List.not_mem_nil, hlast⟩, rfl⟩
        · obtain ⟨p, rfl⟩ := ih h
          refine ⟨⟨name :: p.fixed, p.rest, ?_, p.rest_ne⟩, rfl⟩
          exact List.not_mem_cons_of_ne_of_not_mem (Ne.symm hname) p.fixed_ne

theorem arity_values (p : Parameters) : Params.arity p.values = p.arity := by
  have hfixed : (p.fixed.map Value.sym).findIdx? (fun v => v.sym? == some "&") = none := by
    rw [List.findIdx?_eq_none_iff]
    intro v hv
    obtain ⟨name, hname, rfl⟩ := List.mem_map.mp hv
    exact beq_eq_false_iff_ne.mpr fun h => p.fixed_ne (Option.some.inj h ▸ hname)
  rw [Params.arity, values, List.findIdx?_append, hfixed, Parameters.arity]
  cases p.rest with
  | none => simp [marked]
  | some name =>
    have hmark : (marked (some name)).findIdx? (fun v => v.sym? == some "&") = some 0 := rfl
    simp [hmark]

section

variable {shortage : Error} {restId : ObjectId}

theorem bindFrom_symbol {bound : Bindings} {name : String} (h : name ≠ "&") (arg : Value)
    (params args : List Value) :
    bindFrom shortage restId bound (.sym name :: params) (arg :: args) =
      bindFrom shortage restId (bound.set name arg) params args := by
  rw [bindFrom.eq_def]
  dsimp only [Value.sym?]
  split
  · next heq => cases heq
  · next heq => exact absurd (Option.some.inj heq) h
  · next heq =>
    cases heq
    rfl

theorem bindFrom_shortage {bound : Bindings} {name : String} (h : name ≠ "&")
    (params : List Value) :
    bindFrom shortage restId bound (.sym name :: params) [] = .error shortage := by
  rw [bindFrom.eq_def]
  dsimp only [Value.sym?]
  split
  · next heq => cases heq
  · next heq => exact absurd (Option.some.inj heq) h
  · rfl

theorem bindFrom_of_lt {fixed : List String} (hfixed : "&" ∉ fixed) {bound : Bindings}
    {args : List Value} (h : args.length < fixed.length) (others : List Value) :
    bindFrom shortage restId bound (fixed.map .sym ++ others) args = .error shortage := by
  induction fixed generalizing bound args with
  | nil => cases h
  | cons name fixed ih =>
    obtain ⟨hname, hfixed⟩ := List.ne_and_not_mem_of_not_mem_cons hfixed
    rw [List.map_cons, List.cons_append]
    cases args with
    | nil => exact bindFrom_shortage (Ne.symm hname) _
    | cons arg args =>
      rw [bindFrom_symbol (Ne.symm hname)]
      exact ih hfixed (Nat.lt_of_succ_lt_succ h)

theorem exists_bindFrom_of_le {fixed : List String} (hfixed : "&" ∉ fixed) (rest : Option String)
    {bound : Bindings} {args : List Value} (h : fixed.length ≤ args.length) :
    ∃ bindings,
      bindFrom shortage restId bound (fixed.map .sym ++ marked rest) args = .ok bindings := by
  induction fixed generalizing bound args with
  | nil =>
    cases rest with
    | none => exact ⟨_, rfl⟩
    | some name => exact ⟨_, rfl⟩
  | cons name fixed ih =>
    obtain ⟨hname, hfixed⟩ := List.ne_and_not_mem_of_not_mem_cons hfixed
    rw [List.map_cons, List.cons_append]
    cases args with
    | nil => cases h
    | cons arg args =>
      rw [bindFrom_symbol (Ne.symm hname)]
      exact ih hfixed (Nat.le_of_succ_le_succ h)

theorem assignments_of_le {fixed : List String} (hfixed : "&" ∉ fixed) (rest : Option String)
    {args : List Value} (h : fixed.length ≤ args.length) :
    assignments restId (fixed.map .sym ++ marked rest) args = fixed.zip args ++
      (rest.map fun name => (name, Value.list restId (args.drop fixed.length))).toList := by
  induction fixed generalizing args with
  | nil =>
    cases rest with
    | none => rfl
    | some name => rfl
  | cons name fixed ih =>
    obtain ⟨hname, hfixed⟩ := List.ne_and_not_mem_of_not_mem_cons hfixed
    cases args with
    | nil => cases h
    | cons arg args =>
      rw [List.map_cons, List.cons_append, assignments, Value.sym?]
      dsimp only
      rw [if_neg (Ne.symm hname), ih hfixed (Nat.le_of_succ_le_succ h)]
      rfl

end

end Params

/-! ## Frames of calls -/

/-- The last argument for a name is the one that counts. -/
theorem latest_zip {names : List String} {args : List Value} {i : Nat} {name : String}
    (hlength : names.length ≤ args.length) (hname : names[i]? = some name)
    (hlast : name ∉ names.drop (i + 1)) : latest name (names.zip args) = args[i]? := by
  induction names generalizing args i with
  | nil => cases hname
  | cons n names ih =>
    cases args with
    | nil => cases hlength
    | cons arg args =>
      have hle : names.length ≤ args.length := Nat.le_of_succ_le_succ hlength
      rw [List.zip_cons_cons, latest]
      cases i with
      | zero =>
        cases hname
        have hlater : name ∉ (names.zip args).map Prod.fst := by
          rwa [List.map_fst_zip hle]
        rw [latest_eq_none hlater, if_pos rfl]
        rfl
      | succ i =>
        rw [List.getElem?_cons_succ] at hname
        have hlt : i < args.length :=
          Nat.lt_of_lt_of_le (List.getElem?_eq_some_iff.mp hname).1 hle
        rw [ih hle hname hlast, List.getElem?_cons_succ, List.getElem?_eq_getElem hlt]
        rfl

/-- The bindings of a call: exactly the names among the parameters. A name for one argument is bound
to the argument at the last place where it stands, unless it also names the rest. -/
structure Parameters.Binds (p : Parameters) (restId : ObjectId) (args : List Value)
    (bindings : Bindings) : Prop where
  nodup : bindings.names.Nodup
  names {name : String} : name ∈ bindings.names ↔ name ∈ p.fixed ∨ p.rest = some name
  mark : "&" ∉ bindings.names
  fixed {i : Nat} {name : String} : p.fixed[i]? = some name → name ∉ p.fixed.drop (i + 1) →
    p.rest ≠ some name → bindings.get? name = args[i]?
  rest {name : String} : p.rest = some name →
    bindings.get? name = some (.list restId (args.drop p.fixed.length))

open Params in
theorem Parameters.binds_setAll {p : Parameters} {args : List Value}
    (h : p.fixed.length ≤ args.length) (restId : ObjectId) :
    p.Binds restId args (Bindings.setAll [] (assignments restId p.values args)) := by
  rw [values, assignments_of_le p.fixed_ne p.rest h]
  have hnames {name : String} : name ∈ (Bindings.setAll [] (p.fixed.zip args ++ (p.rest.map
      fun name => (name, Value.list restId (args.drop p.fixed.length))).toList)).names ↔
      name ∈ p.fixed ∨ p.rest = some name := by
    rw [Bindings.mem_names_setAll, List.map_append, List.mem_append, List.map_fst_zip h]
    cases p.rest <;> simp [Bindings.names, eq_comm]
  refine ⟨@Bindings.nodup_names_setAll [] List.nodup_nil _, hnames, ?_, ?_, ?_⟩
  · intro hmark
    exact (hnames.mp hmark).elim p.fixed_ne p.rest_ne
  · intro i name hname hlast hrest
    have hother : latest name (p.rest.map fun name =>
        (name, Value.list restId (args.drop p.fixed.length))).toList = none := by
      refine latest_eq_none fun hmem => ?_
      cases hp : p.rest with
      | none => simp [hp] at hmem
      | some other =>
        rw [hp] at hmem hrest
        exact hrest (congrArg some (by simpa [eq_comm] using hmem))
    rw [Bindings.get?_setAll, latest_append, hother, latest_zip h hname hlast]
    exact Option.or_none
  · intro name hrest
    rw [Bindings.get?_setAll, latest_append, hrest]
    simp [latest]

namespace Parameters

open Params

theorem arity_text (p : Parameters) :
    p.arity.text = toString p.fixed.length ++ if p.rest.isSome then "+" else "" := by
  rw [arity]
  split
  · rfl
  · exact (String.append_empty).symm

theorem enterCall_of_lt {p : Parameters} {args : List Value} (h : args.length < p.fixed.length)
    (outer : FrameId) (m : Machine) :
    Action.enterCall outer p.values args m =
      .error (.arity "#<function>" p.arity args.length) m := by
  have hbind : Params.bind (some m.objects) p.values args =
      .error (.arity "#<function>" p.arity args.length) := by
    rw [Params.bind, arity_values]
    exact bindFrom_of_lt p.fixed_ne h (marked p.rest)
  rw [Action.enterCall, hbind]

theorem exists_enterCall_of_le {p : Parameters} {args : List Value}
    (h : p.fixed.length ≤ args.length) (outer : FrameId) (m : Machine) :
    ∃ bindings, Action.enterCall outer p.values args m = .ok m.frames.size
        { m with
          frames := m.frames.push ⟨bindings, some outer⟩
          objects := m.objects + 1 } ∧
      p.Binds (some m.objects) args bindings := by
  obtain ⟨bindings, hbind⟩ : ∃ bindings,
      Params.bind (some m.objects) p.values args = .ok bindings :=
    exists_bindFrom_of_le p.fixed_ne p.rest h
  refine ⟨bindings, ?_, ?_⟩
  · rw [Action.enterCall, hbind]
    rfl
  · rw [bindFrom_eq_ok hbind]
    exact binds_setAll h _

end Parameters

/-- A function is made only with parameters that are let through. -/
theorem Step.exists_parameters {ev : Evaluator} {expand : Value → FrameId → Action Value}
    {scope : FrameId} {operands : List Value} {m n : Machine} {step : Step}
    (h : special ev expand scope .function operands m = .ok step n) :
    ∃ (p : Parameters) (body : Value),
      step = .done (.closure p.values body scope false) ∧ n = m := by
  rcases operands with _ | ⟨params, _ | ⟨body, _ | ⟨extra, rest⟩⟩⟩
  · cases h
  · cases h
  · obtain ⟨params, m', hparams, h⟩ := Action.bind_eq_ok.mp h
    obtain ⟨hparams, rfl⟩ := Action.ofExcept_eq_ok.mp hparams
    cases h
    unfold parameters at hparams
    split at hparams
    · cases hparams
    · next items _ =>
      cases hcheck : Params.check items with
      | error e =>
        rw [hcheck] at hparams
        cases hparams
      | ok _ =>
        rw [hcheck] at hparams
        cases hparams
        obtain ⟨p, rfl⟩ := Params.exists_values_of_check hcheck
        exact ⟨p, body, rfl, rfl⟩
  · cases h

/-- Binding is exact. The lists that are let through are those that parameters are written as, and
functions are made with no others. In a call with too few arguments for the names that take one
each, binding fails with an error that says how many there should be, and changes nothing. In every
other call it adds a frame within the given one, with the bindings of the call; arguments that are
left over without a name for them are ignored. -/
theorem binding_parameters_exact :
    (∀ params, Params.check params = .ok () ↔ ∃ p : Parameters, params = p.values) ∧
    (∀ ev expand scope operands m step n,
      Step.special ev expand scope .function operands m = .ok step n →
      ∃ (p : Parameters) (body : Value),
        step = .done (.closure p.values body scope false) ∧ n = m) ∧
    ∀ (p : Parameters) (outer : FrameId) (args : List Value) (m : Machine),
      (args.length < p.fixed.length → Action.enterCall outer p.values args m =
          .error (.arity "#<function>" p.arity args.length) m ∧
        p.arity.text = toString p.fixed.length ++ if p.rest.isSome then "+" else "") ∧
      (p.fixed.length ≤ args.length → ∃ bindings,
        Action.enterCall outer p.values args m = .ok m.frames.size
          { m with
            frames := m.frames.push ⟨bindings, some outer⟩
            objects := m.objects + 1 } ∧
        p.Binds (some m.objects) args bindings) := by
  refine ⟨fun params => ⟨Params.exists_values_of_check, ?_⟩, ?_, fun p outer args m => ⟨?_, ?_⟩⟩
  · rintro ⟨p, rfl⟩
    exact Params.check_values p
  · exact fun _ _ _ _ _ _ _ h => Step.exists_parameters h
  · exact fun h => ⟨Parameters.enterCall_of_lt h outer m, p.arity_text⟩
  · exact fun h => Parameters.exists_enterCall_of_le h outer m

/-- Of `(a b a & b)` and four arguments `a` is the third, and `b` is the list of the last; two
arguments are too few. -/
theorem binding_parameters_exact_repeated :
    ∃ (p : Parameters) (bindings : Bindings),
      p.values = [.sym "a", .sym "b", .sym "a", .sym "&", .sym "b"] ∧
      Params.check p.values = .ok () ∧
      Action.enterCall 7 p.values [.int 1, .int 2] {} =
        .error (.arity "#<function>" (.atLeast 3) 2) {} ∧
      Action.enterCall 7 p.values [.int 1, .int 2, .int 3, .int 4] {} =
        .ok 0 { frames := #[⟨bindings, some 7⟩], objects := 1 } ∧
      bindings.get? "a" = some (.int 3) ∧ bindings.get? "b" = some (.list (some 0) [.int 4]) := by
  obtain ⟨hcheck, -, hbind⟩ := binding_parameters_exact
  let p : Parameters := ⟨["a", "b", "a"], some "b", by decide, by decide⟩
  have hfew := (hbind p 7 [.int 1, .int 2] {}).1 (by decide)
  obtain ⟨bindings, hcall, hbinds⟩ :=
    (hbind p 7 [.int 1, .int 2, .int 3, .int 4] {}).2 (by decide)
  have ha : bindings.get? "a" = some (.int 3) :=
    hbinds.fixed (i := 2) rfl (by decide) (by decide)
  exact ⟨p, bindings, rfl, (hcheck p.values).mpr ⟨p, rfl⟩, hfew.1, hcall, ha, hbinds.rest rfl⟩

end Lisp
