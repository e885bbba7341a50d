import Lisp.Proofs.Expansion
import Lisp.Proofs.Reader

/-!
# One form or several

A text can be read as one form or as several, and an interpreter has a way to evaluate either. They
agree: a text is read as one form just if reading all its forms gives that one, or if it is blank,
when it is read as `nil`. To evaluate such a text and print its value is to evaluate its forms and
print the last value. For a blank text one way evaluates `nil` and the other one nothing, so there
has to be room for an evaluation.
-/

namespace Lisp

/-! ## Reading -/

theorem read_eq_ok_iff_readAll {source : String} {v : Value} :
    read source = .ok v ↔ tokenize source = [] ∧ v = .nil ∨ readAll source = .ok [v] := by
  rw [read_eq_ok_iff, readAll, Reader.forms_eq_ok_iff]
  refine or_congr_right ⟨?_, ?_⟩
  · rintro ⟨n, hderives, hfits⟩
    refine ⟨[⟨(tokenize source).map Lexeme.token, v, n⟩], ?_, ?_, rfl⟩
    · exact List.forall_mem_singleton.mpr ⟨hderives, hfits⟩
    · rw [List.flatMap_singleton]
  · rintro ⟨pieces, hpieces, htokens, hvalue⟩
    obtain ⟨piece, rfl, rfl⟩ := List.map_eq_singleton_iff.mp hvalue.symm
    obtain ⟨hderived, hfits⟩ := hpieces piece List.mem_cons_self
    rw [List.flatMap_singleton] at htokens
    exact ⟨piece.depth, htokens ▸ hderived, hfits⟩

/-! ## States between requests -/

/-- Whatever outlives all that is done to a state outlives requests. -/
theorem Machine.Kept.session {P : Machine → Prop} (hP : Kept P) {m n : Machine}
    (h : Interpreter.Session m n) (hm : P m) : P n := by
  have hrun (request : Interpreter.Request) {n : Machine} (hn : P n) : (request.run n).Ends P := by
    have hanswer := Interpreter.tracks_answer hP.stable (hP.tracks_evaluator Interpreter.fuel)
      request
    rw [request.run_eq]
    exact (hanswer.bind (fun _ => .pure ()) n n ⟨rfl, hn⟩).ends_kept
  induction h with
  | start => exact hm
  | served request _ hserved ih =>
    have hends := hrun request ih
    rw [hserved] at hends
    exact hends
  | failed request _ hfailed ih =>
    have hends := hrun request ih
    rw [hfailed] at hends
    exact hends
  | outside world _ ih => exact hP.outside world ih

namespace Interpreter

/-- There is a root frame, and room for an evaluation. -/
structure Ready (m : Machine) : Prop where
  root : m.root.isSome = true
  room : m.depth < m.depthLimit

/-- If a level of evaluation is allowed at all, an interpreter is ready whatever it has been
asked. -/
theorem ready_of_session {withPrelude : Bool} {limit : Nat} {world : World} {m : Machine}
    (hlimit : 1 ≤ limit) (h : Session (start withPrelude limit world) m) : Ready m := by
  have hstart := session_start withPrelude limit world
  have hkept := Machine.kept_setting fun root depthLimit => root = some 0 ∧ depthLimit = limit
  obtain ⟨hroot, hm⟩ := hkept.session h (hkept.session hstart ⟨rfl, rfl⟩)
  refine ⟨by rw [hroot]; rfl, ?_⟩
  rw [hm, h.depth_eq, hstart.depth_eq]
  exact hlimit

/-! ## Evaluating -/

section

variable {source : String}

theorem readEvalPrint_eq {form : Value} (h : read source = .ok form) :
    readEvalPrint source = evalValue form >>= Action.textOf .readable := by
  rw [readEvalPrint, h]
  rfl

theorem evalValue_nil {m : Machine} (h : Ready m) : evalValue .nil m = .ok .nil m := by
  obtain ⟨root, hroot⟩ := Option.isSome_iff_exists.mp h.root
  obtain ⟨k, hk⟩ := Nat.exists_eq_add_of_le' (show 3 ≤ fuel by decide)
  rw [evalValue, Action.root_bind hroot, hk, eval_of_lt _ _ _ h.room,
    Evaluator.loop_data (by simp) rfl]
  rfl

/-- A text of one form is evaluated and printed like any other text. -/
theorem readEvalPrint_of_readAll {form : Value} (h : readAll source = .ok [form]) :
    readEvalPrint source = evalText source >>= Action.textOf .readable := by
  rw [readEvalPrint_eq (read_eq_ok_iff_readAll.mpr (Or.inr h)), evalText_of_readAll h, evalForms]
  exact congrArg (· >>= Action.textOf .readable) (Action.bind_pure (evalValue form)).symm

theorem readEvalPrint_of_blank (h : tokenize source = []) {m : Machine} (hm : Ready m) :
    readEvalPrint source m = (evalText source >>= Action.textOf .readable) m := by
  have hread : read source = .ok .nil := read_eq_ok_iff_readAll.mpr (Or.inl ⟨h, rfl⟩)
  have hall : readAll source = .ok [] := by
    rw [readAll, h]
    rfl
  rw [readEvalPrint_eq hread, evalText_of_readAll hall, Action.bind_apply, evalValue_nil hm]
  rfl

end

end Interpreter

open Interpreter in
/-- A text is read as one form just if it is blank and the form is `nil`, or if all its forms are
that one. To read, evaluate and print it is then to evaluate it as a text and to print the value, in
the state in which this ends, wherever an interpreter is ready; and it is ready after all requests,
as soon as one level of evaluation is allowed. -/
theorem single_form_agrees (source : String) :
    (∀ v, read source = .ok v ↔ tokenize source = [] ∧ v = .nil ∨ readAll source = .ok [v]) ∧
    (∀ form m, read source = .ok form → Ready m →
      (∀ v n, evalText source m = .ok v n →
        readEvalPrint source m = .ok (v.text n.cells .readable) n) ∧
      (∀ e n, evalText source m = .error e n → readEvalPrint source m = .error e n) ∧
      ∀ p, evalText source m = .paused p → readEvalPrint source m = .paused p) ∧
    ∀ withPrelude limit world m, 1 ≤ limit → Session (start withPrelude limit world) m →
      Ready m := by
  refine ⟨fun v => read_eq_ok_iff_readAll, fun form m hread hm => ?_,
    fun _ _ _ _ hlimit h => ready_of_session hlimit h⟩
  have hprint : readEvalPrint source m = (evalText source >>= Action.textOf .readable) m := by
    rcases read_eq_ok_iff_readAll.mp hread with ⟨hblank, -⟩ | hall
    · exact readEvalPrint_of_blank hblank hm
    · rw [readEvalPrint_of_readAll hall]
  rw [hprint, Action.bind_apply]
  refine ⟨fun v n h => ?_, fun e n h => ?_, fun p h => ?_⟩
  · rw [h]
    rfl
  · rw [h]
  · rw [h]

open Interpreter in
/-- A comment is read as `nil`, and prints as that without an evaluation; a vector whose element is
one level too deep fails in both ways, and an atom is printed with what its cell holds then. -/
theorem single_form_agrees_comment :
    let m := start false 1 {}
    let m' := start false 2 {}
    read "; [1]" = .ok .nil ∧ readEvalPrint "; [1]" m = .ok "nil" m ∧
      readAll "[1]" = .ok [.vec none [.int 1]] ∧
      (∃ e n, e.message = "maximum recursion depth exceeded" ∧ evalText "[1]" m = .error e n ∧
        readEvalPrint "[1]" m = .error e n) ∧
      ∃ v n, evalText "(atom \"a\")" m' = .ok v n ∧
        readEvalPrint "(atom \"a\")" m' = .ok (v.text n.cells .readable) n := by
  intro m m'
  have hm : Ready m := (single_form_agrees "").2.2 false 1 {} m (by decide) .start
  have hm' : Ready m' := (single_form_agrees "").2.2 false 2 {} m' (by decide) .start
  obtain ⟨hread, hagree, -⟩ := single_form_agrees "; [1]"
  have hblank : read "; [1]" = .ok .nil := (hread .nil).mpr (Or.inl ⟨by decide +kernel, rfl⟩)
  obtain ⟨hread', hagree', -⟩ := single_form_agrees "[1]"
  have hvector : readAll "[1]" = .ok [.vec none [.int 1]] := by rfl
  have hone := (hread' _).mpr (Or.inr hvector)
  obtain ⟨e, n, herror, hmessage⟩ := Outcome.exists_of_errorWith
    (fun e _ => decide (e.message = "maximum recursion depth exceeded"))
    (o := evalText "[1]" m) (by decide +kernel)
  obtain ⟨-, hagree'', -⟩ := single_form_agrees "(atom \"a\")"
  have hcall : read "(atom \"a\")" = .ok (.list none [.sym "atom", .str "a"]) := by rfl
  obtain ⟨v, n', hok⟩ := Outcome.exists_eq_ok (o := evalText "(atom \"a\")" m') (by decide +kernel)
  exact ⟨hblank, (hagree .nil m hblank hm).1 .nil m rfl, hvector,
    ⟨e, n, of_decide_eq_true hmessage, herror, (hagree' _ m hone hm).2.1 e n herror⟩,
    v, n', hok, (hagree'' _ m' hcall hm').1 v n' hok⟩

end Lisp
