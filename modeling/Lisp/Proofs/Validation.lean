import Lisp.Proofs.Arithmetic
import Lisp.Proofs.Balance
import Lisp.Proofs.Growth

/-!
Builtin functions look at all their arguments before they change anything. Of those that neither
call functions nor reach outside the program, one that fails leaves the state as it is, it fails for
the number of its arguments only if its signature does not admit that number, and one that succeeds
changes cells only if it is there for that. Of the others `swap!` is described through the call that
it makes, which may itself change any cell.
-/

namespace Lisp

/-! ## Numbers of arguments -/

/-- A function that fails in one way for all numbers of arguments that its signature does not admit,
and has good results for the others. -/
structure Signature.Checks {γ : Type} (s : Signature) (fail : Error → γ) (good : γ → Prop)
    (run : List Value → γ) : Prop where
  refused : ∀ args, s.arity.admits args.length = false → run args = fail (s.mismatch args)
  counted : ∀ args, s.arity.admits args.length = true → good (run args)

namespace Signature.Checks

variable {γ : Type} {name : String} {fail : Error → γ} {good : γ → Prop} {run : List Value → γ}

theorem any (h : ∀ args, good (run args)) : Checks ⟨name, .atLeast 0⟩ fail good run :=
  ⟨fun args hcount => by simp [Arity.admits] at hcount, fun args _ => h args⟩

theorem none (h : good (run []))
    (hmore : ∀ v rest, run (v :: rest) = fail (mismatch ⟨name, .exactly 0⟩ (v :: rest))) :
    Checks ⟨name, .exactly 0⟩ fail good run := by
  constructor <;> rintro (_ | ⟨v, rest⟩) hcount
  · cases hcount
  · exact hmore v rest
  · exact h
  · simp [Arity.admits] at hcount

theorem one (h : ∀ v, good (run [v])) (hnone : run [] = fail (mismatch ⟨name, .exactly 1⟩ []))
    (hmore : ∀ v w rest,
      run (v :: w :: rest) = fail (mismatch ⟨name, .exactly 1⟩ (v :: w :: rest))) :
    Checks ⟨name, .exactly 1⟩ fail good run := by
  constructor <;> rintro (_ | ⟨v, _ | ⟨w, rest⟩⟩) hcount
  · exact hnone
  · cases hcount
  · exact hmore v w rest
  · cases hcount
  · exact h v
  · simp [Arity.admits] at hcount

theorem two (h : ∀ v w, good (run [v, w])) (hnone : run [] = fail (mismatch ⟨name, .exactly 2⟩ []))
    (hone : ∀ v, run [v] = fail (mismatch ⟨name, .exactly 2⟩ [v]))
    (hmore : ∀ v w x rest,
      run (v :: w :: x :: rest) = fail (mismatch ⟨name, .exactly 2⟩ (v :: w :: x :: rest))) :
    Checks ⟨name, .exactly 2⟩ fail good run := by
  constructor <;> rintro (_ | ⟨v, _ | ⟨w, _ | ⟨x, rest⟩⟩⟩) hcount
  · exact hnone
  · exact hone v
  · cases hcount
  · exact hmore v w x rest
  · cases hcount
  · cases hcount
  · exact h v w
  · simp [Arity.admits] at hcount

theorem atLeastOne (h : ∀ v rest, good (run (v :: rest)))
    (hnone : run [] = fail (mismatch ⟨name, .atLeast 1⟩ [])) :
    Checks ⟨name, .atLeast 1⟩ fail good run := by
  constructor <;> rintro (_ | ⟨v, rest⟩) hcount
  · exact hnone
  · simp [Arity.admits] at hcount
  · cases hcount
  · exact h v rest

theorem atLeastTwo (h : ∀ v w rest, good (run (v :: w :: rest)))
    (hnone : run [] = fail (mismatch ⟨name, .atLeast 2⟩ []))
    (hone : ∀ v, run [v] = fail (mismatch ⟨name, .atLeast 2⟩ [v])) :
    Checks ⟨name, .atLeast 2⟩ fail good run := by
  constructor <;> rintro (_ | ⟨v, _ | ⟨w, rest⟩⟩) hcount
  · exact hnone
  · exact hone v
  · simp [Arity.admits] at hcount
  · cases hcount
  · cases hcount
  · exact h v w rest

end Signature.Checks

/-- The error says that a function does not take so many arguments. -/
def Error.isArity : Error → Bool
  | .arity _ _ _ => true
  | _ => false

/-- The result is no error about a number of arguments. -/
def Counted {α : Type} : Except Error α → Prop
  | .ok _ => True
  | .error e => e.isArity = false

/-- A function without effects that counts its arguments first. -/
abbrev Signature.ChecksPure (s : Signature) (run : List Value → Except Error Value) : Prop :=
  s.Checks .error Counted run

section

variable {α β : Type}

theorem Counted.isArity {e : Error} {r : Except Error α} (hr : Counted r) (h : r = .error e) :
    e.isArity = false := by
  rwa [h] at hr

@[simp] theorem counted_ok (a : α) : Counted (.ok a) :=
  trivial

@[simp] theorem counted_map (f : α → β) (r : Except Error α) : Counted (r.map f) ↔ Counted r := by
  cases r <;> rfl

end

/-! ## Functions without effects -/

namespace Arithmetic

theorem counted_integer (v : Value) : Counted (integer v) := by
  cases v <;> simp [integer, Counted, Error.isArity]

theorem counted_step (op : Arithmetic) (acc : Int64) (arg : Value) : Counted (op.step acc arg) := by
  fun_cases step op acc arg with
  | case1 e h => exact (counted_integer arg).isArity h
  | case2 => rfl
  | case3 => rfl
  | case4 => trivial

theorem counted_steps (op : Arithmetic) (acc : Int64) (args : List Value) :
    Counted (op.steps acc args) := by
  fun_induction steps op acc args with
  | case1 => trivial
  | case2 acc arg args e h => exact (counted_step op acc arg).isArity h
  | case3 acc arg args next h ih => exact ih

theorem counted_stepsFrom (op : Arithmetic) (first : Value) (args : List Value) :
    Counted (op.stepsFrom first args) := by
  fun_cases stepsFrom op first args with
  | case1 e h => exact (counted_integer first).isArity h
  | case2 n h => exact counted_steps op n args

theorem checks_run (op : Arithmetic) : op.signature.ChecksPure op.run := by
  refine ⟨fun args => run_of_not_admits, fun args hcount => ?_⟩
  obtain ⟨start, scanned, hbegins⟩ := exists_begins hcount
  rw [hbegins.run_eq]
  exact counted_stepsFrom op start scanned

end Arithmetic

namespace Comparison

theorem counted_number (v : Value) : Counted (number v) := by
  rw [number]
  cases v.number? with
  | some x => trivial
  | none => rfl

theorem counted_ordered (relation : Double → Double → Bool) (a b : Value) :
    Counted (ordered relation a b) := by
  rw [ordered]
  split
  · next e h => exact (counted_number a).isArity h
  · next e h => exact (counted_number b).isArity h
  · trivial

theorem checks_run (op : Comparison) : op.signature.ChecksPure op.run := by
  cases op with
  | lt | gt | le | ge =>
    exact .two (fun a b => counted_ordered _ a b) rfl (fun _ => rfl) (fun _ _ _ _ => rfl)
  | equal => exact .two (fun _ _ => trivial) rfl (fun _ => rfl) (fun _ _ _ _ => rfl)

end Comparison

theorem Predicate.checks_run (op : Predicate) : op.signature.ChecksPure op.run := by
  cases op <;> exact .one (fun _ => trivial) rfl (fun _ _ _ => rfl)

namespace SequenceOp

@[simp] theorem counted_elements (function : String) (v : Value) :
    Counted (elements function v) := by
  cases v <;> simp [elements, Counted, Error.isArity]

@[simp] theorem counted_size (v : Value) : Counted (size v) := by
  cases v <;> simp [size, Counted, Error.isArity]

theorem counted_concatAll (args : List Value) : Counted (concatAll args) := by
  fun_induction concatAll args with
  | case1 => trivial
  | case2 arg args e h => exact (counted_elements "concat" arg).isArity h
  | case3 arg args items h ih => rwa [counted_map]

theorem counted_nth (seq index : Value) : Counted (run nth [seq, index]) := by
  rw [run]
  split
  · next e h => exact (counted_elements "nth" seq).isArity h
  · next items h =>
    fun_cases nthOf items index with
    | case1 => trivial
    | case2 => rfl
    | case3 => rfl

theorem counted_vec (v : Value) : Counted (run vec [v]) := by
  cases v <;> simp [run]

theorem checks_run (op : SequenceOp) : op.signature.ChecksPure op.run := by
  cases op with
  | list | vector => exact .any fun _ => trivial
  | vec => exact .one counted_vec rfl (fun v _ _ => by cases v <;> rfl)
  | isEmpty | count | first | rest =>
    exact .one (fun v => by simp [run]) rfl (fun _ _ _ => rfl)
  | cons => exact .two (fun v seq => by simp [run]) rfl (fun _ => rfl) (fun _ _ _ _ => rfl)
  | concat => exact .any fun args => (counted_map _ _).mpr (counted_concatAll args)
  | nth => exact .two counted_nth rfl (fun _ => rfl) (fun _ _ _ _ => rfl)

end SequenceOp

namespace TableOp

@[simp] theorem counted_entriesOf (op : TableOp) (v : Value) : Counted (op.entriesOf v) := by
  cases v <;> simp [entriesOf, Counted, Error.isArity]

theorem counted_extend (op : TableOp) (entries : Table) (pairs : List Value) :
    Counted (op.extend entries pairs) := by
  fun_cases extend op entries pairs with
  | case1 => trivial
  | case2 => rfl
  | case3 => rfl

theorem counted_assoc (m : Value) (pairs : List Value) : Counted (run assoc (m :: pairs)) := by
  rw [run]
  split
  · next e h => exact (counted_entriesOf assoc m).isArity h
  · next entries h => exact counted_extend assoc entries pairs

theorem counted_get (m key : Value) : Counted (run get [m, key]) := by
  cases m <;> simp [run]

theorem checks_run (op : TableOp) : op.signature.ChecksPure op.run := by
  cases op with
  | hashMap => exact .any fun args => counted_extend hashMap [] args
  | assoc => exact .atLeastOne counted_assoc rfl
  | dissoc => exact .atLeastOne (fun m doomed => by simp [run]) rfl
  | get =>
    exact .two counted_get rfl (fun m => by cases m <;> rfl) (fun m _ _ _ => by cases m <;> rfl)
  | contains => exact .two (fun m key => by simp [run]) rfl (fun _ => rfl) (fun _ _ _ _ => rfl)
  | keys | vals => exact .one (fun m => by simp [run]) rfl (fun _ _ _ => rfl)

end TableOp

theorem counted_form (stack : List OpenForm) (last : Position) (lexemes : List Lexeme) :
    Counted (Reader.form stack last lexemes) := by
  fun_induction Reader.form stack last lexemes with
  | case1 => trivial
  | case2 stack last h =>
    rw [Reader.unfinished.eq_def]
    split <;> rfl
  | case3 stack last lexeme rest e h =>
    obtain ⟨fault, p, rfl, -⟩ := Reader.refused_of_feed h
    rfl
  | case4 stack last lexeme rest stack' h ih => exact ih
  | case5 => trivial
  | case6 => rfl

namespace TextOp

@[simp] theorem counted_string (v : Value) : Counted (string v) := by
  cases v <;> simp [string, Counted, Error.isArity]

variable (cells : Array Value)

theorem counted_readString (v : Value) : Counted (run cells readString [v]) := by
  rw [run]
  split
  · next e h => exact (counted_string v).isArity h
  · next source h => exact counted_form [] {} (tokenize source)

theorem counted_symbol (v : Value) : Counted (run cells symbol [v]) := by
  cases v <;> simp [run]

theorem counted_keyword (v : Value) : Counted (run cells keyword [v]) := by
  cases v <;> simp [run, Counted, Error.isArity]

theorem checks_run (op : TextOp) : op.signature.ChecksPure (op.run cells) := by
  cases op with
  | str | prStr => exact .any fun _ => trivial
  | readString => exact .one (counted_readString cells) rfl (fun _ _ _ => rfl)
  | symbol => exact .one (counted_symbol cells) rfl (fun v _ _ => by cases v <;> rfl)
  | keyword => exact .one (counted_keyword cells) rfl (fun v _ _ => by cases v <;> rfl)

end TextOp

/-! ## Functions with effects -/

/-- A function that counts its arguments before it does anything. -/
abbrev Signature.ChecksAction (s : Signature) (run : List Value → Action Value) : Prop :=
  s.Checks Action.fail (fun _ => True) run

theorem CellOp.checks_run (op : CellOp) : op.signature.ChecksAction op.run := by
  cases op with
  | atom | deref => exact .one (fun _ => trivial) rfl (fun _ _ _ => rfl)
  | reset => exact .two (fun _ _ => trivial) rfl (fun _ => rfl) (fun _ _ _ _ => rfl)

theorem ConsoleOp.checks_run (op : ConsoleOp) : op.signature.ChecksAction op.run := by
  cases op with
  | prn | println => exact .any fun _ => trivial
  | slurp | readline => exact .one (fun _ => trivial) rfl (fun _ _ _ => rfl)
  | timeMs => exact .none trivial fun _ _ => rfl

theorem ControlOp.checks_run (ev : Evaluator) (op : ControlOp) :
    op.signature.ChecksAction (op.run ev) := by
  cases op with
  | throw | eval => exact .one (fun _ => trivial) rfl (fun _ _ _ => rfl)
  | map => exact .two (fun _ _ => trivial) rfl (fun _ => rfl) (fun _ _ _ _ => rfl)
  | apply | swap => exact .atLeastTwo (fun _ _ _ => trivial) rfl (fun _ => rfl)

theorem Builtin.run_of_not_admits {b : Builtin} {args : List Value}
    (h : b.signature.arity.admits args.length = false) (ev : Evaluator) (m : Machine) :
    b.run ev args m = .error (.arity b.name b.signature.arity args.length) m := by
  cases b with
  | arithmetic op => rw [run, op.checks_run.refused args h]; rfl
  | comparison op => rw [run, op.checks_run.refused args h]; rfl
  | predicate op => rw [run, op.checks_run.refused args h]; rfl
  | sequence op => rw [run, op.checks_run.refused args h]; rfl
  | table op => rw [run, op.checks_run.refused args h]; rfl
  | text op => exact congrArg (Action.ofExcept · m) ((op.checks_run m.cells).refused args h)
  | cell op => rw [run, op.checks_run.refused args h]; rfl
  | console op => rw [run, op.checks_run.refused args h]; rfl
  | control op => rw [run, (op.checks_run ev).refused args h]; rfl

/-! ## Changes of state -/

/-- The second state is the first one with other contents of a cell that is there. -/
structure Machine.CellReplaced (m : Machine) (id : Nat) (v : Value) (n : Machine) : Prop where
  there : id < m.cells.size
  new : n.cells[id]? = some v
  others : ∀ j, j ≠ id → n.cells[j]? = m.cells[j]?
  rest : n = { m with cells := n.cells }

theorem Action.writeCell_of_lt {id : Nat} {m : Machine} (h : id < m.cells.size) (v : Value) :
    ∃ n, writeCell id v m = .ok v n ∧ m.CellReplaced id v n := by
  refine ⟨_, if_pos h, h, ?_, fun j hj => ?_, rfl⟩
  · exact Array.getElem?_setIfInBounds_self_of_lt h
  · exact Array.getElem?_setIfInBounds_ne hj.symm

theorem Action.writeCell_of_le {id : Nat} {m : Machine} (h : m.cells.size ≤ id) (v : Value) :
    writeCell id v m = .error (.eval (.unknownAtom id)) m :=
  if_neg (Nat.not_lt.mpr h)

/-- The functions that neither call functions nor reach outside the program. The clock is outside,
but asking for the time changes nothing there. -/
def Builtin.isDirect : Builtin → Bool
  | .console op => op == .timeMs
  | .control op => op == .throw
  | _ => true

/-- The outcomes that a direct function may have: an error in the state before the call, which is
about the number of arguments if and only if that is not admitted, or a value. Then the cells are as
before, unless the function was to make a cell or to replace what is in one. -/
inductive Builtin.Validated (m : Machine) (b : Builtin) (args : List Value) : Outcome Value → Prop
  | failed (e : Error) (hcount : e.isArity = !b.signature.arity.admits args.length) :
      Validated m b args (.error e m)
  | kept (v : Value) (objects : Nat) (hatom : b ≠ .cell .atom) (hreset : b ≠ .cell .reset) :
      Validated m b args (.ok v { m with objects := objects })
  | made (v : Value) (hb : b = .cell .atom) (hargs : args = [v]) :
      Validated m b args (.ok (.atom m.cells.size) { m with cells := m.cells.push v })
  | replaced (id : Nat) (v : Value) (n : Machine) (hb : b = .cell .reset)
      (hargs : args = [.atom id, v]) (h : m.CellReplaced id v n) : Validated m b args (.ok v n)

namespace Builtin

variable {b : Builtin} {args : List Value} {m : Machine}

theorem Validated.fail (hcount : b.signature.arity.admits args.length = true) {e : Error}
    (he : e.isArity = false) : b.Validated m args (.error e m) :=
  .failed e (by rw [hcount, he]; rfl)

theorem Validated.ofExcept (hcount : b.signature.arity.admits args.length = true)
    (hatom : b ≠ .cell .atom) (hreset : b ≠ .cell .reset) {r : Except Error Value}
    (hr : Counted r) : b.Validated m args (Action.ofExcept r m) := by
  cases r with
  | ok v => exact .kept v m.objects hatom hreset
  | error e => exact .fail hcount hr

theorem Validated.make (hcount : b.signature.arity.admits args.length = true)
    (hatom : b ≠ .cell .atom) (hreset : b ≠ .cell .reset) {r : Except Error Value}
    (hr : Counted r) : b.Validated m args ((Action.ofExcept r >>= Action.make) m) := by
  cases r with
  | ok v => exact .kept (v.identify m.objects) (m.objects + 1) hatom hreset
  | error e => exact .fail hcount hr

theorem validated_deref {a : Value} : (cell .deref).Validated m [a] (CellOp.run .deref [a] m) := by
  cases a with
  | atom id =>
    show Validated m _ _ (Action.readCell id m)
    rw [Action.readCell]
    split
    · next v h => exact .kept v m.objects (by decide) (by decide)
    · exact .fail rfl rfl
  | _ => exact .fail rfl rfl

theorem validated_reset {a v : Value} :
    (cell .reset).Validated m [a, v] (CellOp.run .reset [a, v] m) := by
  cases a with
  | atom id =>
    show Validated m _ _ (Action.writeCell id v m)
    rcases Nat.lt_or_ge id m.cells.size with h | h
    · obtain ⟨n, hrun, hreplaced⟩ := Action.writeCell_of_lt h v
      rw [hrun]
      exact .replaced id v n rfl rfl hreplaced
    · rw [Action.writeCell_of_le h]
      exact .fail rfl rfl
  | _ => exact .fail rfl rfl

theorem validated_cell {op : CellOp} (hcount : op.signature.arity.admits args.length = true) :
    (cell op).Validated m args (op.run args m) := by
  cases op with
  | atom =>
    obtain ⟨v, rfl⟩ := List.length_eq_one_iff.mp (of_decide_eq_true hcount)
    exact .made v rfl rfl
  | deref =>
    obtain ⟨a, rfl⟩ := List.length_eq_one_iff.mp (of_decide_eq_true hcount)
    exact validated_deref
  | reset =>
    obtain ⟨a, v, rfl⟩ := List.length_eq_two.mp (of_decide_eq_true hcount)
    exact validated_reset

theorem validated_run (h : b.isDirect = true) (ev : Evaluator) (args : List Value) (m : Machine) :
    b.Validated m args (b.run ev args m) := by
  cases hcount : b.signature.arity.admits args.length with
  | false =>
    rw [run_of_not_admits hcount]
    exact .failed _ (by rw [hcount]; rfl)
  | true =>
    cases b with
    | arithmetic op =>
      exact .ofExcept hcount (by simp) (by simp) (op.checks_run.counted args hcount)
    | comparison op =>
      exact .ofExcept hcount (by simp) (by simp) (op.checks_run.counted args hcount)
    | predicate op => exact .ofExcept hcount (by simp) (by simp) (op.checks_run.counted args hcount)
    | sequence op => exact .make hcount (by simp) (by simp) (op.checks_run.counted args hcount)
    | table op => exact .make hcount (by simp) (by simp) (op.checks_run.counted args hcount)
    | text op =>
      exact .ofExcept hcount (by simp) (by simp) ((op.checks_run m.cells).counted args hcount)
    | cell op => exact validated_cell hcount
    | console op =>
      obtain rfl : op = .timeMs := beq_iff_eq.mp h
      obtain rfl := List.eq_nil_of_length_eq_zero (of_decide_eq_true hcount)
      exact .kept _ m.objects (by simp) (by simp)
    | control op =>
      obtain rfl : op = .throw := beq_iff_eq.mp h
      obtain ⟨v, rfl⟩ := List.length_eq_one_iff.mp (of_decide_eq_true hcount)
      exact .fail rfl rfl

end Builtin

/-! ## Replacing by a call -/

/-- What becomes of the outcome of a call if its value is put into a cell. -/
inductive Outcome.Stored (id : Nat) : Outcome Value → Outcome Value → Prop
  | failed (e : Error) (n : Machine) : Stored id (.error e n) (.error e n)
  | stored (v : Value) (n n' : Machine) (h : n.CellReplaced id v n') :
      Stored id (.ok v n) (.ok v n')
  | paused (p : Pause) : Stored id (.paused p) (.paused p)

theorem Outcome.Stored.exists_of_ok {id : Nat} {v : Value} {n : Machine} {o : Outcome Value}
    (h : Stored id (.ok v n) o) : ∃ n', o = .ok v n' ∧ n.CellReplaced id v n' := by
  cases h with
  | stored _ _ n' hreplaced => exact ⟨n', rfl, hreplaced⟩

theorem Outcome.Stored.eq_of_error {id : Nat} {e : Error} {n : Machine} {o : Outcome Value}
    (h : Stored id (.error e n) o) : o = .error e n := by
  cases h
  rfl

namespace ControlOp

variable (f : Value) (extra : List Value) (m : Machine)

theorem run_swap_of_atom?_eq_none (ev : Evaluator) {a : Value} (h : a.atom? = none) :
    run ev .swap (a :: f :: extra) m = .error (.type "swap!: atom" a.kind) m := by
  cases a with
  | atom id => cases h
  | _ => rfl

theorem run_swap_unknown (ev : Evaluator) {id : Nat} (h : m.cells[id]? = none) :
    run ev .swap (.atom id :: f :: extra) m = .error (.eval (.unknownAtom id)) m := by
  have hread : Action.readCell id m = .error (.eval (.unknownAtom id)) m := by
    rw [Action.readCell, h]
  rw [run]
  show (Action.readCell id >>= _) m = _
  rw [Action.bind_apply, hread]

/-- The call may do to the cells what it likes, except that it cannot remove one. -/
theorem stored_run_swap (fuel : Nat) {id : Nat} {current : Value}
    (h : m.cells[id]? = some current) :
    (call fuel f (current :: extra) m).Stored id
      (run (evaluator fuel) .swap (.atom id :: f :: extra) m) := by
  have hread : Action.readCell id m = .ok current m := by rw [Action.readCell, h]
  have hrun : run (evaluator fuel) .swap (.atom id :: f :: extra) m =
      (call fuel f (current :: extra) >>= Action.writeCell id) m := by
    show (Action.readCell id >>= _) m = _
    rw [Action.bind_apply, hread]
    rfl
  have hgrows := Task.ends_grows (.call f (current :: extra)) fuel m
  rw [hrun, Action.bind_apply]
  change (call fuel f (current :: extra) m).Ends m.Grows at hgrows
  cases hcall : call fuel f (current :: extra) m with
  | ok v n =>
    rw [hcall] at hgrows
    have hid : id < m.cells.size := (Array.getElem?_eq_some_iff.mp h).1
    obtain ⟨n', hwrite, hreplaced⟩ :=
      Action.writeCell_of_lt (Nat.lt_of_lt_of_le hid (Machine.Grows.cells hgrows)) v
    show Outcome.Stored id (.ok v n) (Action.writeCell id v n)
    rw [hwrite]
    exact .stored v n n' hreplaced
  | error e n => exact .failed e n
  | paused p => exact .paused p

end ControlOp

/-- Builtin functions check before they act. A wrong number of arguments is refused whatever they
are. Functions that do not call others and do not reach outside the program fail in the state in
which they were called, and only `atom` and `reset!` change cells: `atom` succeeds with any
argument, and `reset!` with any atom whose cell is there. What `swap!` does comes after the call
that it makes: if that fails nothing more is done, and if not its value replaces the contents that
the cell then has. -/
theorem builtins_validate_first :
    (∀ (b : Builtin) (ev : Evaluator) (args : List Value) (m : Machine),
      (b.signature.arity.admits args.length = false →
        b.run ev args m = .error (.arity b.name b.signature.arity args.length) m) ∧
      (b.isDirect = true → b.Validated m args (b.run ev args m))) ∧
    (∀ (ev : Evaluator) (v : Value) (m : Machine),
      (Builtin.cell .atom).run ev [v] m =
        .ok (.atom m.cells.size) { m with cells := m.cells.push v }) ∧
    (∀ (ev : Evaluator) (id : Nat) (v : Value) (m : Machine), id < m.cells.size →
      ∃ n, (Builtin.cell .reset).run ev [.atom id, v] m = .ok v n ∧ m.CellReplaced id v n) ∧
    ∀ (fuel : Nat) (a f : Value) (extra : List Value) (m : Machine),
      let swapped := (Builtin.control .swap).run (evaluator fuel) (a :: f :: extra) m
      (a.atom? = none → swapped = .error (.type "swap!: atom" a.kind) m) ∧
      (∀ id, a = .atom id → m.cells[id]? = none → swapped = .error (.eval (.unknownAtom id)) m) ∧
      ∀ id current, a = .atom id → m.cells[id]? = some current →
        (call fuel f (current :: extra) m).Stored id swapped := by
  refine ⟨fun b ev args m => ⟨fun h => Builtin.run_of_not_admits h ev m,
    fun h => Builtin.validated_run h ev args m⟩, fun _ _ _ => rfl,
    fun ev id v m h => Action.writeCell_of_lt h v, fun fuel a f extra m => ⟨fun h => ?_, ?_, ?_⟩⟩
  · exact ControlOp.run_swap_of_atom?_eq_none f extra m _ h
  · rintro id rfl h
    exact ControlOp.run_swap_unknown f extra m _ h
  · rintro id current rfl h
    exact ControlOp.stored_run_swap f extra m fuel h

/-- A call of `swap!` whose function replaces another cell first, one whose function is given too
few arguments, and one that is given too few itself. -/
theorem builtins_validate_first_reentrant :
    let m : Machine := { cells := #[.atom 1, .int 5] }
    let reset : Value := .builtin (.cell .reset)
    let swap (args : List Value) := (Builtin.control .swap).run (evaluator 1) args m
    (∃ n, swap [.atom 0, reset, .int 7] = .ok (.int 7) n ∧ n.cells[0]? = some (.int 7) ∧
      n.cells[1]? = some (.int 7)) ∧
    swap [.atom 0, reset] = .error (.arity "reset!" (.exactly 2) 1) m ∧
    swap [.atom 0] = .error (.arity "swap!" (.atLeast 2) 1) m := by
  intro m reset swap
  obtain ⟨hcounts, -, -, hswap⟩ := builtins_validate_first
  refine ⟨?_, ?_, (hcounts (.control .swap) (evaluator 1) [.atom 0] m).1 rfl⟩
  · have hcall : call 1 reset [.atom 1, .int 7] m =
        .ok (.int 7) { m with cells := #[.atom 1, .int 7] } := rfl
    have hstored := (hswap 1 (.atom 0) reset [.int 7] m).2.2 0 (.atom 1) rfl rfl
    rw [hcall] at hstored
    obtain ⟨n, hrun, hreplaced⟩ := hstored.exists_of_ok
    exact ⟨n, hrun, hreplaced.new, hreplaced.others 1 (by decide)⟩
  · have hcall : call 1 reset [.atom 1] m = .error (.arity "reset!" (.exactly 2) 1) m := rfl
    have hstored := (hswap 1 (.atom 0) reset [] m).2.2 0 (.atom 1) rfl rfl
    rw [hcall] at hstored
    exact hstored.eq_of_error

end Lisp
