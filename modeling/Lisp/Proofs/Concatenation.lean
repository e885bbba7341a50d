import Lisp.Proofs.Balance
import Lisp.Proofs.Prelude
import Lisp.Proofs.Session
import Lisp.Proofs.Wrapping

/-!
# One text after another

Where a text that reads is followed by a line end and another text, the reader is done with the
first when it comes to the second: no token and no form goes across. So the forms of both are those
of the first and then those of the second, and if the second does not read it is refused for the
same reason, so many lines further down. A text is read as a whole before any of it is evaluated,
and to evaluate both as one text is to evaluate one and then the other.
-/

namespace Lisp

/-! ## Places -/

/-- The place so many lines further down. -/
def Position.down (lines : Nat) (p : Position) : Position :=
  ⟨p.line + lines, p.col⟩

theorem Position.down_advance (lines : Nat) (p : Position) (c : Char) :
    (p.advance c).down lines = (p.down lines).advance c := by
  unfold advance down
  split
  · rw [Nat.add_right_comm]
  · rfl

theorem Position.line_foldl_advance (p : Position) (cs : List Char) :
    (cs.foldl advance p).line = p.line + cs.count '\n' := by
  induction cs generalizing p with
  | nil => rfl
  | cons c cs ih =>
    rw [List.foldl_cons, ih, List.count_cons]
    unfold advance
    split
    · next hc => simp [hc, Nat.add_assoc, Nat.add_comm 1]
    · next hc => simp [hc]

/-- How many lines the second text is further down, if it stands in the line after the first. -/
def linesBefore (source : String) : Nat :=
  1 + source.toList.count '\n'

theorem tokenize_append {s₁ : String} (h : .unterminatedString ∉ tokens s₁) (s₂ : String) :
    tokenize (s₁ ++ "\n" ++ s₂) =
      tokenize s₁ ++ (tokenize s₂).map (Lexeme.move (Position.down (linesBefore s₁))) := by
  have hplace : (s₁.toList.foldl Position.advance {}).advance '\n' =
      Position.down (linesBefore s₁) {} := by
    show Position.mk ((s₁.toList.foldl Position.advance {}).line + 1) 1 = ⟨1 + linesBefore s₁, 1⟩
    rw [Position.line_foldl_advance, linesBefore, Nat.add_assoc, Nat.add_comm (List.count _ _)]
  have htext : (s₁ ++ "\n" ++ s₂).toList = s₁.toList ++ '\n' :: s₂.toList := by simp
  unfold tokenize
  rw [htext, scan_line h, hplace]
  exact congrArg (_ ++ ·) (scan_move (Position.down_advance _) .between {} s₂.toList)

/-! ## Forms of tokens that are moved -/

/-- The error, with the place it names moved. -/
def Error.move (f : Position → Position) : Error → Error
  | .reader fault p => .reader fault (f p)
  | e => e

def OpenForm.move (f : Position → Position) : OpenForm → OpenForm
  | .bracket b p items => .bracket b (f p) items
  | .mark m => .mark m

namespace Reader

def Progress.move (f : Position → Position) : Progress → Progress
  | .whole v => .whole v
  | .partly stack => .partly (stack.map (OpenForm.move f))

variable (f : Position → Position)

theorem deliver_move (v : Value) (stack : List OpenForm) :
    deliver v (stack.map (OpenForm.move f)) = (deliver v stack).move f := by
  induction stack generalizing v with
  | nil => rfl
  | cons form stack ih =>
    cases form with
    | bracket b p items => rfl
    | mark m => exact ih _

theorem close_move (p : Position) (items : List Value) (b : Bracket) :
    close (f p) items b = (close p items b).mapError (Error.move f) := by
  cases b with
  | round => rfl
  | square => rfl
  | curly =>
    unfold close
    cases Table.insertPairs [] items with
    | ok entries => rfl
    | error fault => cases fault <;> rfl

theorem start_move (stack : List OpenForm) (lexeme : Lexeme) :
    start (stack.map (OpenForm.move f)) (lexeme.move f) =
      ((start stack lexeme).mapError (Error.move f)).map (Progress.move f) := by
  obtain ⟨token, p⟩ := lexeme
  unfold start
  rw [List.length_map]
  split
  · rfl
  · cases token with
    | string body => exact congrArg Except.ok (deliver_move f _ stack)
    | word text => exact congrArg Except.ok (deliver_move f _ stack)
    | _ => rfl

theorem feed_move (stack : List OpenForm) (lexeme : Lexeme) :
    feed (stack.map (OpenForm.move f)) (lexeme.move f) =
      ((feed stack lexeme).mapError (Error.move f)).map (Progress.move f) := by
  cases stack with
  | nil => exact start_move f [] lexeme
  | cons form outer =>
    cases form with
    | mark m => exact start_move f (.mark m :: outer) lexeme
    | bracket b p items =>
      by_cases hclosing : ∃ c, lexeme.token = .closing c
      · obtain ⟨c, ht⟩ := hclosing
        have ht' : (lexeme.move f).token = .closing c := ht
        by_cases hbc : b = c
        · simp only [feed, List.map_cons, OpenForm.move, ht, ht', if_pos hbc, close_move]
          cases close p items.reverse b with
          | error e => rfl
          | ok v => exact congrArg Except.ok (deliver_move f v outer)
        · simp only [feed, List.map_cons, OpenForm.move, ht, ht', if_neg hbc]
          exact start_move f (.bracket b p items :: outer) lexeme
      · have hother : ∀ c, lexeme.token ≠ .closing c := fun c ht => hclosing ⟨c, ht⟩
        have hother' : ∀ c, (lexeme.move f).token ≠ .closing c := hother
        rw [feed_eq_start hother, feed_eq_start hother']
        exact start_move f (.bracket b p items :: outer) lexeme

theorem unfinished_move (last : Position) (stack : List OpenForm) :
    unfinished (f last) (stack.map (OpenForm.move f)) = (unfinished last stack).move f := by
  cases stack with
  | nil => rfl
  | cons form stack =>
    cases form with
    | bracket b p items => rfl
    | mark m =>
      show Error.reader (if maxNesting ≤ (stack.map _).length + 1 then _ else _) (f last) = _
      rw [List.length_map]
      rfl

/-- Wherever the tokens are, the same forms are read, and errors name the places where they are. -/
theorem forms_move (stack : List OpenForm) (last : Position) (ls : List Lexeme) :
    forms (stack.map (OpenForm.move f)) (f last) (ls.map (Lexeme.move f)) =
      (forms stack last ls).mapError (Error.move f) := by
  induction ls generalizing stack last with
  | nil =>
    rw [List.map_nil, forms, forms, List.isEmpty_map, unfinished_move]
    split <;> rfl
  | cons lexeme rest ih =>
    have hfeed := feed_move f stack lexeme
    rw [List.map_cons, forms, hfeed, forms]
    cases feed stack lexeme with
    | error e => rfl
    | ok progress =>
      cases progress with
      | partly stack' => exact ih stack' lexeme.position
      | whole v =>
        have hrest : forms [] (f lexeme.position) (rest.map (Lexeme.move f)) =
            (forms [] lexeme.position rest).mapError (Error.move f) := ih [] lexeme.position
        show (forms [] (f lexeme.position) (rest.map (Lexeme.move f))).map (v :: ·) = _
        rw [hrest]
        cases forms [] lexeme.position rest <;> rfl

/-! ## Forms of tokens after others -/

/-- Before the first token of a form nothing depends on where the last one was. -/
theorem forms_nil_stack (last last' : Position) (ls : List Lexeme) :
    forms [] last ls = forms [] last' ls := by
  cases ls <;> rfl

theorem forms_append {stack : List OpenForm} {last : Position} {ls : List Lexeme} {vs : List Value}
    (h : forms stack last ls = .ok vs) (rest : List Lexeme) :
    forms stack last (ls ++ rest) = (forms [] {} rest).map (vs ++ ·) := by
  induction ls generalizing stack last vs with
  | nil =>
    cases stack with
    | nil =>
      cases h
      rw [List.nil_append, forms_nil_stack last {}]
      cases forms [] {} rest <;> rfl
    | cons form stack => cases h
  | cons lexeme ls ih =>
    cases hfeed : feed stack lexeme with
    | error e => simp [forms, hfeed] at h
    | ok progress =>
      rw [forms_cons hfeed] at h
      rw [List.cons_append, forms_cons hfeed]
      cases progress with
      | partly stack' => exact ih h
      | whole v =>
        cases hrest : forms [] lexeme.position ls with
        | error e => simp [resume, hrest, Except.map] at h
        | ok vs' =>
          simp only [resume, hrest, Except.map, Except.ok.injEq] at h
          subst h
          rw [resume, ih hrest]
          cases forms [] {} rest <;> rfl

end Reader

/-! ## Texts -/

/-- A text after one that reads is read by itself. -/
theorem readAll_append {s₁ : String} {f₁ : List Value} (h : readAll s₁ = .ok f₁) (s₂ : String) :
    readAll (s₁ ++ "\n" ++ s₂) =
      ((readAll s₂).mapError (Error.move (Position.down (linesBefore s₁)))).map (f₁ ++ ·) := by
  obtain ⟨n, hforms⟩ := derivesAll_of_readAll h
  rw [readAll, tokenize_append hforms.terminated, Reader.forms_append h, readAll,
    ← Reader.forms_move]
  exact congrArg (Except.map _) (Reader.forms_nil_stack _ _ _)

theorem readAll_eq_error {source : String} {e : Error} (h : readAll source = .error e) :
    ∃ fault p, e = .reader fault p := by
  obtain ⟨fault, p, he, -⟩ := Reader.exists_fails_of_forms h
  exact ⟨fault, p, he⟩

namespace Interpreter

theorem evalForms_append (last : Value) (f₁ f₂ : List Value) :
    evalForms last (f₁ ++ f₂) = evalForms last f₁ >>= fun v => evalForms v f₂ := by
  induction f₁ generalizing last with
  | nil => rfl
  | cons form f₁ ih =>
    rw [List.cons_append, evalForms, evalForms, Action.bind_assoc]
    exact congrArg (evalValue form >>= ·) (funext ih)

/-- Only where there are no forms the value before them counts. -/
theorem evalForms_eq (v : Value) (forms : List Value) :
    evalForms v forms =
      evalForms .nil forms >>= fun w => pure (if forms.isEmpty then v else w) := by
  cases forms with
  | nil => rfl
  | cons form rest => exact (Action.bind_pure (evalForms .nil (form :: rest))).symm

/-- After a text that reads and a line end, a text that reads adds its forms, and evaluating both is
evaluating one after the other, with the value of the first if the second has no forms. A text that
does not read is refused for the same reason, so many lines further down, and nothing is
evaluated. -/
theorem evalText_append {s₁ s₂ : String} {f₁ : List Value} (h : readAll s₁ = .ok f₁) :
    (∀ f₂, readAll s₂ = .ok f₂ →
      readAll (s₁ ++ "\n" ++ s₂) = .ok (f₁ ++ f₂) ∧
      evalText (s₁ ++ "\n" ++ s₂) = do
        let v ← evalText s₁
        let w ← evalText s₂
        return if f₂.isEmpty then v else w) ∧
    ∀ e, readAll s₂ = .error e → ∃ fault p, e = .reader fault p ∧
      readAll (s₁ ++ "\n" ++ s₂) =
        .error (.reader fault ⟨p.line + (1 + s₁.toList.count '\n'), p.col⟩) ∧
      ∀ m, evalText (s₁ ++ "\n" ++ s₂) m =
        .error (.reader fault ⟨p.line + (1 + s₁.toList.count '\n'), p.col⟩) m := by
  have hboth := readAll_append h s₂
  constructor
  · intro f₂ h₂
    rw [h₂] at hboth
    refine ⟨hboth, ?_⟩
    rw [evalText_of_readAll hboth, evalForms_append, evalText_of_readAll h, evalText_of_readAll h₂]
    exact congrArg (evalForms .nil f₁ >>= ·) (funext fun v => evalForms_eq v f₂)
  · intro e h₂
    obtain ⟨fault, p, rfl⟩ := readAll_eq_error h₂
    rw [h₂] at hboth
    refine ⟨fault, p, rfl, hboth, fun m => ?_⟩
    rw [evalText, hboth]
    rfl

/-- The first text has a string of two lines and ends in a comment. After it comes a form, another
comment, or a bracket in the third line that is not closed. -/
theorem evalText_append_lines :
    let s₁ := "(def! x 20) \"a\nb\" ; (("
    let f₁ := [.list none [.sym "def!", .sym "x", .int 20], .str "a\nb"]
    readAll s₁ = .ok f₁ ∧
    readAll (s₁ ++ "\n" ++ "(+ x 1)") = .ok (f₁ ++ [.list none [.sym "+", .sym "x", .int 1]]) ∧
    (evalText (s₁ ++ "\n" ++ "(+ x 1)") = do
      let _ ← evalText s₁
      evalText "(+ x 1)") ∧
    (evalText (s₁ ++ "\n" ++ "; )") = do
      let v ← evalText s₁
      let _ ← evalText "; )"
      return v) ∧
    ∀ m, evalText (s₁ ++ "\n" ++ "x (") m = .error (.reader (.unterminated .round) ⟨3, 3⟩) m := by
  intro s₁ f₁
  have h₁ : readAll s₁ = .ok f₁ := Prelude.eq_ok_of_toOption (by decide +kernel)
  have hlines : s₁.toList.count '\n' = 1 := by decide +kernel
  have hform : readAll "(+ x 1)" = .ok [.list none [.sym "+", .sym "x", .int 1]] := by rfl
  have hcomment : readAll "; )" = .ok [] := by rfl
  have hopen : readAll "x (" = .error (.reader (.unterminated .round) ⟨1, 3⟩) := by rfl
  obtain ⟨hread, heval⟩ := (evalText_append h₁).1 _ hform
  refine ⟨h₁, hread, heval.trans ?_, ((evalText_append h₁).1 _ hcomment).2, fun m => ?_⟩
  · exact congrArg (evalText s₁ >>= ·) (funext fun _ => Action.bind_pure _)
  · obtain ⟨fault, p, he, -, hstate⟩ := (evalText_append h₁).2 _ hopen
    cases he
    rw [hlines] at hstate
    exact hstate m

end Interpreter

end Lisp
