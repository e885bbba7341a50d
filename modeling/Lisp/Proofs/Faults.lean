import Lisp.Proofs.Balance
import Lisp.Proofs.Layout

/-!
# Where reading fails

The reader fails at a token that it refuses, or at the end of the text within forms that are still
open. In the second case the place that it names is that of the innermost open bracket. In the first
case the tokens up to the refused one decide. A text that goes on has the same tokens but for the
one that is unfinished at its end (`scan_append`), and that one is no closing bracket and no caret,
so a text refused for one of these stays refused.
-/

namespace Lisp

/-! ## Forms without an end -/

theorem ReadFault.eq_unterminated_of_message {fault : ReadFault} {b : Bracket}
    (h : fault.message = "unterminated " ++ b.text) : fault = .unterminated b := by
  have hm : fault.message ∈ unterminatedMessages := by
    rw [h]
    cases b <;> decide
  rcases unterminated_of_message hm with ⟨b', rfl⟩ | rfl
  · cases b <;> cases b' <;> first | rfl | exact absurd h (by decide)
  · cases b <;> exact absurd h (by decide)

theorem ReadFault.eq_unterminatedString_of_message {fault : ReadFault}
    (h : fault.message = "unterminated string") : fault = .unterminatedString := by
  have hm : fault.message ∈ unterminatedMessages := by
    rw [h]
    decide
  rcases unterminated_of_message hm with ⟨b, rfl⟩ | rfl
  · cases b <;> exact absurd h (by decide)
  · rfl

/-- Nothing comes after a string without an end. -/
theorem tokenize_unterminated_last {s : String} {lexeme : Lexeme} (hm : lexeme ∈ tokenize s)
    (ht : lexeme.token = .unterminatedString) : ∃ before, tokenize s = before ++ [lexeme] := by
  obtain ⟨ls, hlayout⟩ := exists_layout [] s.toList
  have hls : tokenize s = ls := hlayout.scan_eq
  obtain ⟨before, after, heq⟩ := List.append_of_mem hm
  cases after with
  | nil => exact ⟨before, heq⟩
  | cons next after =>
    refine absurd ?_ hlayout.unterminated_last
    rw [← hls, heq, ← ht]
    simp [List.dropLast_append_of_ne_nil]

open Grammar Reader in
/-- A text that ends within a form is refused at the innermost open bracket: that is a bracket of
the shape that the message names, at the place that the error names, and after it come whole forms
only. A string without an end is the last token, and the error names its place. -/
theorem unterminated_at_innermost (s : String) (fault : ReadFault) (p : Position)
    (h : readAll s = .error (.reader fault p)) :
    (∀ b : Bracket, fault.message = "unterminated " ++ b.text →
      ∃ before rest vs n, tokenize s = before ++ ⟨.opening b, p⟩ :: rest ∧
        DerivesAll (rest.map Lexeme.token) vs n ∧ n < maxNesting) ∧
    (fault.message = "unterminated string" →
      ∃ before, tokenize s = before ++ [⟨.unterminatedString, p⟩]) := by
  refine ⟨fun b hb => ?_, fun hstring => ?_⟩
  · cases ReadFault.eq_unterminated_of_message hb
    exact exists_opener_of_unterminated h
  · cases ReadFault.eq_unterminatedString_of_message hstring
    exact tokenize_unterminated_last (mem_of_unterminatedString h) rfl

open Grammar Reader in
/-- The first text ends within a marked vector in a list. The vector is the innermost open bracket,
since the list in it is closed and the marked word after that is whole. The second text ends within
a string, which hides two closing brackets. -/
theorem unterminated_at_innermost_nested :
    (readAll "(a '[b (c) ~d" = .error (.reader (.unterminated .square) ⟨1, 5⟩) ∧
      ∃ before rest vs n, tokenize "(a '[b (c) ~d" = before ++ ⟨.opening .square, ⟨1, 5⟩⟩ :: rest ∧
        DerivesAll (rest.map Lexeme.token) vs n ∧ n < maxNesting) ∧
    readAll "[(\n \"b)]" = .error (.reader .unterminatedString ⟨2, 2⟩) ∧
      ∃ before, tokenize "[(\n \"b)]" = before ++ [⟨.unterminatedString, ⟨2, 2⟩⟩] := by
  have hvector : readAll "(a '[b (c) ~d" = .error (.reader (.unterminated .square) ⟨1, 5⟩) := by rfl
  have hstring : readAll "[(\n \"b)]" = .error (.reader .unterminatedString ⟨2, 2⟩) := by rfl
  exact ⟨⟨hvector, (unterminated_at_innermost _ _ _ hvector).1 .square rfl⟩, hstring,
    (unterminated_at_innermost _ _ _ hstring).2 rfl⟩

/-! ## Texts that go on -/

/-- Where a text goes on, the tokens that have ended in it stay, and only one that is unfinished can
change. -/
theorem scan_append (mode : ScanMode) (p : Position) (cs : List Char) :
    ∃ ended mode' p', scan mode p cs = ended ++ mode'.finish ∧
      ∀ rest, scan mode p (cs ++ rest) = ended ++ scan mode' p' rest := by
  induction cs generalizing mode p with
  | nil => exact ⟨[], mode, p, rfl, fun _ => rfl⟩
  | cons c cs ih =>
    obtain ⟨ended, mode', p', hscan, hrest⟩ := ih (mode.step p c).1 (p.advance c)
    refine ⟨(mode.step p c).2 ++ ended, mode', p', ?_, fun rest => ?_⟩
    · rw [scan_cons, hscan, List.append_assoc]
    · rw [List.cons_append, scan_cons, hrest, List.append_assoc]

/-- A bracket or a caret is a token at once. -/
theorem finish_ne {mode : ScanMode} {lexeme : Lexeme} (h : lexeme ∈ mode.finish) :
    (∀ b, lexeme.token ≠ .closing b) ∧ lexeme.token ≠ .caret := by
  cases mode with
  | between => cases h
  | comment => cases h
  | _ =>
    rw [List.mem_singleton.mp h]
    exact ⟨fun _ => by simp, by simp⟩

/-- What a text is refused with that no further text can mend. -/
def ReadFault.Definite (fault : ReadFault) : Prop :=
  fault.message ∈ ["unexpected closing delimiter", "metadata is not supported",
    "map literal must contain an even number of forms"] ∨
  "map key must be a string or keyword, ".toList <+: fault.message.toList

instance (fault : ReadFault) : Decidable fault.Definite :=
  inferInstanceAs (Decidable (_ ∨ _))

theorem ReadFault.not_definite_unterminated (b : Bracket) : ¬ Definite (.unterminated b) := by
  cases b <;> decide

namespace Reader

/-- Only a closing bracket or a caret is refused for good. -/
theorem Refused.token_of_definite {lexeme : Lexeme} {fault : ReadFault} {p : Position}
    (h : Refused lexeme fault p) (hdefinite : fault.Definite) :
    (∃ b, lexeme.token = .closing b) ∨ lexeme.token = .caret := by
  cases h with
  | nesting => exact absurd hdefinite (by decide)
  | closing ht => exact Or.inl ⟨_, ht⟩
  | caret ht => exact Or.inr ht
  | string _ => exact absurd hdefinite (by decide)
  | unpaired ht => exact Or.inl ⟨_, ht⟩
  | key ht => exact Or.inl ⟨_, ht⟩

/-- The end of a text is no such reason. -/
theorem stackAfter_of_definite {stack : List OpenForm} {last p : Position} {ls : List Lexeme}
    {fault : ReadFault} (h : forms stack last ls = .error (.reader fault p))
    (hdefinite : fault.Definite) : stackAfter stack ls = .error (.reader fault p) := by
  cases fails_of_forms h with
  | refused hrefused _ _ => exact hrefused
  | tooDeep => exact absurd hdefinite (by decide)
  | marked => exact absurd hdefinite (by decide)
  | within _ => exact absurd hdefinite (ReadFault.not_definite_unterminated _)

end Reader

open Reader in
/-- A text that is refused for a closing bracket that nothing opened, for metadata, or for a map
with an odd number of forms or a wrong key, is refused for the same reason and at the same place
whatever text follows. -/
theorem definite_faults_are_final (s t : String) (fault : ReadFault) (p : Position)
    (hdefinite : fault.Definite) (h : readAll s = .error (.reader fault p)) :
    readAll (s ++ t) = .error (.reader fault p) := by
  have hrun := stackAfter_of_definite h hdefinite
  obtain ⟨ended, mode, place, hscan, hrest⟩ := scan_append .between {} s.toList
  rw [tokenize, hscan] at hrun
  -- The refused token has ended, for the unfinished one is no closing bracket and no caret.
  have hended : stackAfter [] ended = .error (.reader fault p) := by
    cases hstack : stackAfter [] ended with
    | error e =>
      rw [stackAfter_append_error hstack] at hrun
      exact hrun
    | ok left =>
      rw [stackAfter_append_ok hstack] at hrun
      obtain ⟨fault, p, he, lexeme, hm, hrefused⟩ := exists_refused hrun
      cases he
      rcases hrefused.token_of_definite hdefinite with ⟨b, ht⟩ | ht
      · exact absurd ht ((finish_ne hm).1 b)
      · exact absurd ht (finish_ne hm).2
  have htokens : tokenize (s ++ t) = ended ++ scan mode place t.toList := by
    rw [tokenize, String.toList_append, hrest]
  rw [readAll, htokens]
  exact forms_of_stackAfter_error (stackAfter_append_error hended _) {}

/-- The odd map of the first text stays its error although the mark at its end becomes another one.
The closing bracket of the second stays refused although the word at its end becomes longer and its
list is closed. -/
theorem definite_faults_are_final_last_token :
    (ReadFault.Definite .unpairedMap ∧
      readAll "(x \x7b:k\x7d ~" = .error (.reader .unpairedMap ⟨1, 4⟩) ∧
      readAll ("(x \x7b:k\x7d ~" ++ "@y)") = .error (.reader .unpairedMap ⟨1, 4⟩)) ∧
    ReadFault.Definite .closingDelimiter ∧
      readAll "(x] y" = .error (.reader .closingDelimiter ⟨1, 3⟩) ∧
      readAll ("(x] y" ++ "z)") = .error (.reader .closingDelimiter ⟨1, 3⟩) := by
  have hmap : readAll "(x \x7b:k\x7d ~" = .error (.reader .unpairedMap ⟨1, 4⟩) := by rfl
  have hclosing : readAll "(x] y" = .error (.reader .closingDelimiter ⟨1, 3⟩) := by rfl
  have hodd : ReadFault.Definite .unpairedMap := by decide
  have hwrong : ReadFault.Definite .closingDelimiter := by decide
  exact ⟨⟨hodd, hmap, definite_faults_are_final _ "@y)" _ _ hodd hmap⟩, hwrong, hclosing,
    definite_faults_are_final _ "z)" _ _ hwrong hclosing⟩

end Lisp
