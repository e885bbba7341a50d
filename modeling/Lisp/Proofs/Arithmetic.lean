import Lisp.Builtin.Arithmetic
import Mathlib.Algebra.BigOperators.Group.List.Basic
import Mathlib.Algebra.Ring.Int.Defs

/-!
# Exact arithmetic

Arithmetic of the language is arithmetic on all integers, as long as these fit into 64 bits. The
arguments are scanned from left to right. A scan stops at the first argument that is no integer,
that is a zero divisor, or that leads to a value which does not fit, even where a later argument
would lead back; if there is no such argument, the result is the exact one.
-/

namespace Lisp

/-! ## Integers of 64 bits -/

/-- The integers that fit into 64 bits. -/
def Fits (n : Int) : Prop :=
  -2 ^ 63 ≤ n ∧ n ≤ 2 ^ 63 - 1

theorem fits_toInt (n : Int64) : Fits n.toInt :=
  ⟨n.minValue_le_toInt, n.toInt_le⟩

theorem int64?_of_fits {n : Int} (h : Fits n) : ∃ r, int64? n = some r ∧ r.toInt = n :=
  ⟨Int64.ofInt n, if_pos h, Int64.toInt_ofInt_of_le h.1 (Int.lt_of_le_sub_one h.2)⟩

theorem int64?_of_not_fits {n : Int} (h : ¬ Fits n) : int64? n = none :=
  if_neg h

namespace Arithmetic

/-! ## The scan -/

/-- The operation on all integers; a quotient is truncated toward zero. -/
def result : Arithmetic → Int → Int → Int
  | add, a, b => a + b
  | sub, a, b => a - b
  | mul, a, b => a * b
  | div, a, b => a.tdiv b

/-- The exact value that arguments lead to. -/
def running (op : Arithmetic) (start : Int) (ns : List Int64) : Int :=
  ns.foldl (fun acc n => op.result acc n.toInt) start

/-- The scan gets past the arguments: no divisor is zero, and all the values on the way fit. -/
structure Passes (op : Arithmetic) (start : Int) (ns : List Int64) : Prop where
  divisors : op = div → 0 ∉ ns
  values {done : List Int64} : done <+: ns → Fits (op.running start done)

/-- What is wrong with an argument, given the exact value of those before it. -/
inductive Fault (op : Arithmetic) (acc : Int) : Value → Error → Prop
  | type {arg : Value} : (∀ n, arg ≠ .int n) → Fault op acc arg (.type "integer" arg.kind)
  | zero : op = div → Fault op acc (.int 0) (.argument (.divisionByZero "/"))
  | overflow {n : Int64} : (op = div → n ≠ 0) → ¬ Fits (op.result acc n.toInt) →
      Fault op acc (.int n) (.argument (.overflow op.signature.name))

/-- The result of scanning arguments from a start, which has to be an integer as well. -/
inductive Scans (op : Arithmetic) : Value → List Value → Except Error Value → Prop
  | exact {n r : Int64} {ns : List Int64} : op.Passes n.toInt ns → r.toInt = op.running n.toInt ns →
      Scans op (.int n) (ns.map .int) (.ok (.int r))
  | start {v : Value} {args : List Value} : (∀ n, v ≠ .int n) →
      Scans op v args (.error (.type "integer" v.kind))
  | stop {n : Int64} {ns : List Int64} {arg : Value} {rest : List Value} {e : Error} :
      op.Passes n.toInt ns → op.Fault (op.running n.toInt ns) arg e →
      Scans op (.int n) (ns.map .int ++ arg :: rest) (.error e)

/-- Where the scan of a call starts, and the arguments that it goes over. -/
inductive Begins : Arithmetic → List Value → Value → List Value → Prop
  | add {args : List Value} : Begins add args (.int 0) args
  | mul {args : List Value} : Begins mul args (.int 1) args
  | sub {first second : Value} {rest : List Value} :
      Begins sub (first :: second :: rest) first (second :: rest)
  | inverse {divisor : Value} : Begins div [divisor] (.int 1) [divisor]
  | div {first second : Value} {rest : List Value} :
      Begins div (first :: second :: rest) first (second :: rest)

/-! ## One argument -/

section

variable {op : Arithmetic} {acc n : Int64}

theorem exact_eq (h : op = div → n ≠ 0) :
    op.exact acc.toInt n.toInt = some (op.result acc.toInt n.toInt) := by
  cases op with
  | div =>
    have hn : n.toInt ≠ 0 := fun hzero => h rfl (Int64.toInt_inj.mp hzero)
    exact if_neg hn
  | _ => rfl

/-- Past one argument: the next value is the exact one. -/
theorem step_eq_ok (h : op = div → n ≠ 0) (hfits : Fits (op.result acc.toInt n.toInt)) :
    ∃ next : Int64, op.step acc (.int n) = .ok next ∧ next.toInt = op.result acc.toInt n.toInt := by
  obtain ⟨next, hnext, hexact⟩ := int64?_of_fits hfits
  refine ⟨next, ?_, hexact⟩
  simp only [step, integer, exact_eq h, hnext]

theorem Fault.step_eq {arg : Value} {e : Error} (h : op.Fault acc.toInt arg e) :
    op.step acc arg = .error e := by
  cases h with
  | type h =>
    cases arg with
    | int n => exact absurd rfl (h n)
    | _ => rfl
  | zero hop =>
    subst hop
    rfl
  | overflow h hfits => simp only [step, integer, exact_eq h, int64?_of_not_fits hfits]

/-- Either there is something wrong with an argument, or the scan gets past it. -/
theorem fault_or_passes (op : Arithmetic) (acc : Int64) (arg : Value) :
    (∃ e, op.Fault acc.toInt arg e) ∨
      ∃ n, arg = .int n ∧ (op = div → n ≠ 0) ∧ Fits (op.result acc.toInt n.toInt) := by
  by_cases hint : ∃ n, arg = .int n
  · obtain ⟨n, rfl⟩ := hint
    by_cases hzero : op = div ∧ n = 0
    · obtain ⟨hop, rfl⟩ := hzero
      exact .inl ⟨_, .zero hop⟩
    · have hdivisor : op = div → n ≠ 0 := fun hop hn => hzero ⟨hop, hn⟩
      by_cases hfits : Fits (op.result acc.toInt n.toInt)
      · exact .inr ⟨n, rfl, hdivisor, hfits⟩
      · exact .inl ⟨_, .overflow hdivisor hfits⟩
  · exact .inl ⟨_, .type fun n hn => hint ⟨n, hn⟩⟩

end

/-! ## All arguments -/

section

variable {op : Arithmetic} {acc : Int64}

theorem passes_nil (op : Arithmetic) (acc : Int64) : op.Passes acc.toInt [] := by
  refine ⟨fun _ => List.not_mem_nil, fun hdone => ?_⟩
  rw [List.prefix_nil.mp hdone]
  exact fits_toInt acc

theorem passes_cons_iff {start : Int} {n : Int64} {ns : List Int64} :
    op.Passes start (n :: ns) ↔
      Fits start ∧ (op = div → n ≠ 0) ∧ op.Passes (op.result start n.toInt) ns := by
  constructor
  · intro h
    refine ⟨h.values List.nil_prefix, fun hop hn => h.divisors hop (hn ▸ List.mem_cons_self),
      fun hop hmem => h.divisors hop (List.mem_cons_of_mem n hmem), fun hdone => ?_⟩
    exact h.values ((List.prefix_cons_inj n).mpr hdone)
  · rintro ⟨hstart, hdivisor, h⟩
    constructor
    · intro hop hmem
      rcases List.mem_cons.mp hmem with hn | hmem
      · exact hdivisor hop hn.symm
      · exact h.divisors hop hmem
    · intro done hdone
      rcases List.prefix_cons_iff.mp hdone with rfl | ⟨done, rfl, htail⟩
      · exact hstart
      · exact h.values htail

/-- The scan of arguments that it gets past goes on with their exact value. -/
theorem Passes.steps_append {ns : List Int64} (h : op.Passes acc.toInt ns) (rest : List Value) :
    ∃ next : Int64, next.toInt = op.running acc.toInt ns ∧
      op.steps acc (ns.map .int ++ rest) = op.steps next rest := by
  induction ns generalizing acc with
  | nil => exact ⟨acc, rfl, rfl⟩
  | cons n ns ih =>
    obtain ⟨-, hdivisor, htail⟩ := passes_cons_iff.mp h
    obtain ⟨next, hstep, hnext⟩ := step_eq_ok hdivisor (htail.values List.nil_prefix)
    rw [← hnext] at htail
    obtain ⟨final, hfinal, hsteps⟩ := ih htail
    refine ⟨final, hfinal.trans (by rw [hnext]; rfl), ?_⟩
    rw [List.map_cons, List.cons_append, steps, hstep]
    exact hsteps

/-- The scan gets past some arguments, and they are all there are or there is something wrong with
the next one. -/
theorem exists_passes (op : Arithmetic) (acc : Int64) (args : List Value) :
    ∃ ns, op.Passes acc.toInt ns ∧ (args = ns.map .int ∨
      ∃ arg rest e,
        args = ns.map .int ++ arg :: rest ∧ op.Fault (op.running acc.toInt ns) arg e) := by
  induction args generalizing acc with
  | nil => exact ⟨[], passes_nil op acc, .inl rfl⟩
  | cons arg args ih =>
    rcases fault_or_passes op acc arg with ⟨e, hfault⟩ | ⟨n, rfl, hdivisor, hfits⟩
    · exact ⟨[], passes_nil op acc, .inr ⟨arg, args, e, rfl, hfault⟩⟩
    · obtain ⟨next, -, hnext⟩ := step_eq_ok hdivisor hfits
      obtain ⟨ns, hns, hends⟩ := ih next
      rw [hnext] at hns hends
      refine ⟨n :: ns, passes_cons_iff.mpr ⟨fits_toInt acc, hdivisor, hns⟩, ?_⟩
      rcases hends with rfl | ⟨arg, rest, e, rfl, hfault⟩
      · exact .inl rfl
      · exact .inr ⟨arg, rest, e, rfl, hfault⟩

theorem exists_scans (op : Arithmetic) (start : Value) (args : List Value) :
    ∃ r, op.Scans start args r := by
  by_cases hint : ∃ n, start = .int n
  · obtain ⟨n, rfl⟩ := hint
    obtain ⟨ns, hns, rfl | ⟨arg, rest, e, rfl, hfault⟩⟩ := exists_passes op n args
    · obtain ⟨r, hr, -⟩ := hns.steps_append []
      exact ⟨_, .exact hns hr⟩
    · exact ⟨_, .stop hns hfault⟩
  · exact ⟨_, .start fun n hn => hint ⟨n, hn⟩⟩

theorem Scans.stepsFrom_eq {start : Value} {args : List Value} {r : Except Error Value}
    (h : op.Scans start args r) : op.stepsFrom start args = r := by
  cases h with
  | @exact n r ns hns hr =>
    obtain ⟨next, hnext, hsteps⟩ := hns.steps_append []
    rw [List.append_nil] at hsteps
    rw [stepsFrom, integer]
    dsimp only
    rw [hsteps, steps, Int64.toInt_inj.mp (hnext.trans hr.symm)]
  | start hstart =>
    cases start with
    | int n => exact absurd rfl (hstart n)
    | _ => rfl
  | @stop n ns arg rest e hns hfault =>
    obtain ⟨next, hnext, hsteps⟩ := hns.steps_append (arg :: rest)
    rw [← hnext] at hfault
    rw [stepsFrom, integer]
    dsimp only
    rw [hsteps, steps, hfault.step_eq]

theorem stepsFrom_eq_iff {start : Value} {args : List Value} {r : Except Error Value} :
    op.stepsFrom start args = r ↔ op.Scans start args r := by
  refine ⟨fun h => ?_, Scans.stepsFrom_eq⟩
  obtain ⟨r', hscans⟩ := exists_scans op start args
  rwa [← h, hscans.stepsFrom_eq]

end

/-! ## Calls -/

theorem Begins.run_eq {op : Arithmetic} {args scanned : List Value} {start : Value}
    (h : Begins op args start scanned) : op.run args = op.stepsFrom start scanned := by
  cases h <;> rfl

theorem exists_begins {op : Arithmetic} {args : List Value}
    (h : op.signature.arity.admits args.length = true) :
    ∃ start scanned, Begins op args start scanned := by
  cases op with
  | add => exact ⟨_, _, .add⟩
  | mul => exact ⟨_, _, .mul⟩
  | sub =>
    rcases args with _ | ⟨first, _ | ⟨second, rest⟩⟩
    · cases h
    · cases h
    · exact ⟨_, _, .sub⟩
  | div =>
    rcases args with _ | ⟨first, _ | ⟨second, rest⟩⟩
    · cases h
    · exact ⟨_, _, .inverse⟩
    · exact ⟨_, _, .div⟩

theorem run_of_not_admits {op : Arithmetic} {args : List Value}
    (h : op.signature.arity.admits args.length = false) :
    op.run args = .error (.arity op.signature.name op.signature.arity args.length) := by
  cases op with
  | add => exact absurd (Nat.zero_le args.length) (of_decide_eq_false h)
  | mul => exact absurd (Nat.zero_le args.length) (of_decide_eq_false h)
  | sub =>
    rcases args with _ | ⟨first, _ | ⟨second, rest⟩⟩
    · rfl
    · rfl
    · exact absurd (Nat.le_add_left 2 rest.length) (of_decide_eq_false h)
  | div =>
    rcases args with _ | ⟨first, rest⟩
    · rfl
    · exact absurd (Nat.le_add_left 1 rest.length) (of_decide_eq_false h)

theorem running_add (start : Int) (ns : List Int64) :
    add.running start ns = start + (ns.map Int64.toInt).sum := by
  induction ns generalizing start with
  | nil => exact (Int.add_zero start).symm
  | cons n ns ih =>
    rw [List.map_cons, List.sum_cons, ← Int.add_assoc]
    exact ih (start + n.toInt)

theorem running_sub (start : Int) (ns : List Int64) :
    sub.running start ns = start - (ns.map Int64.toInt).sum := by
  induction ns generalizing start with
  | nil => exact (Int.sub_zero start).symm
  | cons n ns ih =>
    rw [List.map_cons, List.sum_cons, ← Int.sub_sub]
    exact ih (start - n.toInt)

theorem running_mul (start : Int) (ns : List Int64) :
    mul.running start ns = start * (ns.map Int64.toInt).prod := by
  induction ns generalizing start with
  | nil => exact (Int.mul_one start).symm
  | cons n ns ih =>
    rw [List.map_cons, List.prod_cons, ← Int.mul_assoc]
    exact ih (start * n.toInt)

/-- Arithmetic is exact or an error, and nothing wraps: a call with enough arguments has the result
of scanning them over all integers, and that only, where the running values of sums, differences and
products are those of all the arguments so far. A call with fewer fails. -/
theorem run_eq_exact_scan (op : Arithmetic) (args : List Value) :
    (op.signature.arity.admits args.length = true →
      ∃ start scanned, Begins op args start scanned ∧
        ∀ r, op.run args = r ↔ op.Scans start scanned r) ∧
    (op.signature.arity.admits args.length = false →
      op.run args = .error (.arity op.signature.name op.signature.arity args.length)) ∧
    ∀ (start : Int) (ns : List Int64),
      add.running start ns = start + (ns.map Int64.toInt).sum ∧
      sub.running start ns = start - (ns.map Int64.toInt).sum ∧
      mul.running start ns = start * (ns.map Int64.toInt).prod := by
  refine ⟨fun h => ?_, run_of_not_admits,
    fun start ns => ⟨running_add start ns, running_sub start ns, running_mul start ns⟩⟩
  obtain ⟨start, scanned, hbegins⟩ := exists_begins h
  refine ⟨start, scanned, hbegins, fun r => ?_⟩
  rw [hbegins.run_eq]
  exact stepsFrom_eq_iff

/-- A sum that would come back into range, the one quotient of two integers that leaves it, and a
quotient that is truncated twice, toward zero each time. -/
theorem run_eq_exact_scan_boundaries :
    Scans .add (.int 0) [.int Int64.maxValue, .int 1, .int (-1)]
      (.error (.argument (.overflow "+"))) ∧
    Scans .div (.int Int64.minValue) [.int (-1), .int 0] (.error (.argument (.overflow "/"))) ∧
    Scans .div (.int (-7)) [.int 2, .int (-2)] (.ok (.int 1)) ∧
    run .sub [.int 1] = .error (.arity "-" (.atLeast 2) 1) := by
  obtain ⟨_, _, ⟨⟩, hsum⟩ :=
    (run_eq_exact_scan .add [.int Int64.maxValue, .int 1, .int (-1)]).1 rfl
  obtain ⟨_, _, ⟨⟩, hleaves⟩ :=
    (run_eq_exact_scan .div [.int Int64.minValue, .int (-1), .int 0]).1 rfl
  obtain ⟨_, _, ⟨⟩, htruncated⟩ := (run_eq_exact_scan .div [.int (-7), .int 2, .int (-2)]).1 rfl
  exact ⟨(hsum _).mp rfl, (hleaves _).mp rfl, (htruncated _).mp rfl,
    (run_eq_exact_scan .sub [.int 1]).2.1 rfl⟩

end Arithmetic

end Lisp
