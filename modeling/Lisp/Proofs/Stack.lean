import Lisp.Proofs.Reader

/-!
# The stack of the reader

What is open after some tokens (`stackAfter`) decides how reading ends. A list of tokens is read if
nothing is open after it. Otherwise reading fails at a token that is refused, or at the end of the
tokens with some form open (`Fails`). Each open bracket on the stack keeps the place of the
token that opened it, and the tokens since then are whole forms (`OpenedAt`), so an error within a
bracket names the innermost one.
-/

namespace Lisp.Reader

open Grammar

/-! ## The stack after some tokens -/

/-- The forms that are open after a token. -/
def Progress.stack : Progress → List OpenForm
  | .whole _ => []
  | .partly stack => stack

/-- The forms that are open after some tokens, none of which is refused. -/
def stackAfter (stack : List OpenForm) (ls : List Lexeme) : Except Error (List OpenForm) :=
  ls.foldlM (fun stack lexeme => (feed stack lexeme).map Progress.stack) stack

theorem stackAfter_cons_ok {stack : List OpenForm} {lexeme : Lexeme} {progress : Progress}
    (h : feed stack lexeme = .ok progress) (rest : List Lexeme) :
    stackAfter stack (lexeme :: rest) = stackAfter progress.stack rest := by
  rw [stackAfter, List.foldlM_cons, h]
  rfl

theorem stackAfter_cons_error {stack : List OpenForm} {lexeme : Lexeme} {e : Error}
    (h : feed stack lexeme = .error e) (rest : List Lexeme) :
    stackAfter stack (lexeme :: rest) = .error e := by
  rw [stackAfter, List.foldlM_cons, h]
  rfl

/-- Once a token is refused, those after it do not count. -/
theorem stackAfter_append_error {stack : List OpenForm} {ls : List Lexeme} {e : Error}
    (h : stackAfter stack ls = .error e) (rest : List Lexeme) :
    stackAfter stack (ls ++ rest) = .error e := by
  unfold stackAfter at h ⊢
  rw [List.foldlM_append, h]
  rfl

theorem stackAfter_append_ok {stack stack' : List OpenForm} {ls : List Lexeme}
    (h : stackAfter stack ls = .ok stack') (rest : List Lexeme) :
    stackAfter stack (ls ++ rest) = stackAfter stack' rest := by
  unfold stackAfter at h ⊢
  rw [List.foldlM_append, h]
  rfl

/-- What every token that is taken preserves, all the tokens preserve. -/
theorem stackAfter_preserves {P : List Lexeme → List OpenForm → Prop}
    (hstep : ∀ {before stack lexeme progress}, P before stack →
      feed stack lexeme = .ok progress → P (before ++ [lexeme]) progress.stack)
    {before ls : List Lexeme} {stack left : List OpenForm} (h : P before stack)
    (hrun : stackAfter stack ls = .ok left) : P (before ++ ls) left := by
  induction ls generalizing before stack with
  | nil =>
    cases hrun
    rw [List.append_nil]
    exact h
  | cons lexeme rest ih =>
    cases hfeed : feed stack lexeme with
    | error e =>
      rw [stackAfter_cons_error hfeed] at hrun
      cases hrun
    | ok progress =>
      rw [stackAfter_cons_ok hfeed] at hrun
      rw [List.append_cons]
      exact ih (hstep h hfeed) hrun

theorem forms_cons_error {stack : List OpenForm} {lexeme : Lexeme} {e : Error}
    (h : feed stack lexeme = .error e) (last : Position) (rest : List Lexeme) :
    forms stack last (lexeme :: rest) = .error e := by
  simp only [forms, h]

/-- What is left to read after a token does not depend on the forms before it. -/
theorem resume_eq_error_iff {last : Position} {rest : List Lexeme} {progress : Progress}
    {e : Error} :
    resume last rest progress = .error e ↔ forms progress.stack last rest = .error e := by
  cases progress with
  | partly stack => exact Iff.rfl
  | whole v =>
    rw [resume, Progress.stack]
    cases forms [] last rest <;> simp [Except.map]

/-- A refused token is the error of the whole. -/
theorem forms_of_stackAfter_error {stack : List OpenForm} {ls : List Lexeme} {e : Error}
    (h : stackAfter stack ls = .error e) (last : Position) : forms stack last ls = .error e := by
  induction ls generalizing stack last with
  | nil => cases h
  | cons lexeme rest ih =>
    cases hfeed : feed stack lexeme with
    | error e' =>
      rw [stackAfter_cons_error hfeed] at h
      cases h
      exact forms_cons_error hfeed last rest
    | ok progress =>
      rw [stackAfter_cons_ok hfeed] at h
      rw [forms_cons hfeed, resume_eq_error_iff]
      exact ih h lexeme.position

/-- Reading fails at a refused token, or at the end with some form open. -/
theorem stackAfter_of_forms_error {stack : List OpenForm} {last : Position} {ls : List Lexeme}
    {e : Error} (h : forms stack last ls = .error e) :
    stackAfter stack ls = .error e ∨
    ∃ left last', stackAfter stack ls = .ok left ∧ e = unfinished last' left := by
  induction ls generalizing stack last with
  | nil =>
    rw [forms] at h
    split at h
    · cases h
    · cases h
      exact Or.inr ⟨stack, last, rfl, rfl⟩
  | cons lexeme rest ih =>
    cases hfeed : feed stack lexeme with
    | error e' =>
      rw [forms_cons_error hfeed] at h
      cases h
      exact Or.inl (stackAfter_cons_error hfeed rest)
    | ok progress =>
      rw [stackAfter_cons_ok hfeed]
      rw [forms_cons hfeed, resume_eq_error_iff] at h
      exact ih h

/-- Nothing is open after tokens that are read. -/
theorem stackAfter_of_forms_ok {stack : List OpenForm} {last : Position} {ls : List Lexeme}
    {vs : List Value} (h : forms stack last ls = .ok vs) : stackAfter stack ls = .ok [] := by
  induction ls generalizing stack last vs with
  | nil =>
    cases stack with
    | nil => rfl
    | cons form stack => simp [forms] at h
  | cons lexeme rest ih =>
    cases hfeed : feed stack lexeme with
    | error e =>
      rw [forms_cons_error hfeed] at h
      cases h
    | ok progress =>
      rw [stackAfter_cons_ok hfeed]
      rw [forms_cons hfeed] at h
      cases progress with
      | partly stack' => exact ih h
      | whole v =>
        cases hrest : forms [] lexeme.position rest with
        | error e => simp [resume, hrest, Except.map] at h
        | ok vs' => exact ih hrest

/-! ## How reading fails -/

/-- The token that is refused. -/
theorem exists_refused {stack : List OpenForm} {ls : List Lexeme} {e : Error}
    (h : stackAfter stack ls = .error e) :
    ∃ fault p, e = .reader fault p ∧ ∃ lexeme ∈ ls, Refused lexeme fault p := by
  induction ls generalizing stack with
  | nil => cases h
  | cons lexeme rest ih =>
    cases hfeed : feed stack lexeme with
    | error e' =>
      rw [stackAfter_cons_error hfeed] at h
      cases h
      obtain ⟨fault, p, rfl, hrefused⟩ := refused_of_feed hfeed
      exact ⟨fault, p, rfl, lexeme, List.mem_cons_self, hrefused⟩
    | ok progress =>
      rw [stackAfter_cons_ok hfeed] at h
      obtain ⟨fault, p, rfl, refused, hm, hrefused⟩ := ih h
      exact ⟨fault, p, rfl, refused, List.mem_cons_of_mem _ hm, hrefused⟩

/-- The ways to an error: a token that is refused, or an end of the tokens right after a mark or
within a bracket, which the error names. -/
inductive Fails (stack : List OpenForm) (ls : List Lexeme) : ReadFault → Position → Prop
  | refused {lexeme : Lexeme} {fault : ReadFault} {p : Position} :
      stackAfter stack ls = .error (.reader fault p) → lexeme ∈ ls → Refused lexeme fault p →
      Fails stack ls fault p
  | tooDeep {p : Position} : Fails stack ls .nestingTooDeep p
  | marked {p : Position} : Fails stack ls .endOfInput p
  | within {b : Bracket} {p : Position} {items : List Value} {outer : List OpenForm} :
      stackAfter stack ls = .ok (.bracket b p items :: outer) → Fails stack ls (.unterminated b) p

theorem exists_fails_of_forms {stack : List OpenForm} {last : Position} {ls : List Lexeme}
    {e : Error} (h : forms stack last ls = .error e) :
    ∃ fault p, e = .reader fault p ∧ Fails stack ls fault p := by
  rcases stackAfter_of_forms_error h with hrefused | ⟨left, last', hrun, rfl⟩
  · obtain ⟨fault, p, rfl, lexeme, hm, hreason⟩ := exists_refused hrefused
    exact ⟨fault, p, rfl, .refused hrefused hm hreason⟩
  · unfold unfinished
    split
    · exact ⟨_, _, rfl, .within hrun⟩
    · split
      · exact ⟨_, _, rfl, .tooDeep⟩
      · exact ⟨_, _, rfl, .marked⟩

theorem fails_of_forms {stack : List OpenForm} {last p : Position} {ls : List Lexeme}
    {fault : ReadFault} (h : forms stack last ls = .error (.reader fault p)) :
    Fails stack ls fault p := by
  obtain ⟨fault', p', he, hfails⟩ := exists_fails_of_forms h
  cases he
  exact hfails

/-- A string without an end is reported at its place. -/
theorem mem_of_unterminatedString {stack : List OpenForm} {last p : Position} {ls : List Lexeme}
    (h : forms stack last ls = .error (.reader .unterminatedString p)) :
    ⟨.unterminatedString, p⟩ ∈ ls := by
  cases fails_of_forms h with
  | @refused lexeme _ _ _ hm hreason =>
    obtain ⟨token, place⟩ := lexeme
    cases hreason with
    | string ht =>
      cases ht
      exact hm

/-! ## What opened the forms on the stack -/

/-- After some whole forms, the tokens so far have opened the forms on the stack. -/
def OpenedAt (before : List Lexeme) (stack : List OpenForm) : Prop :=
  ∃ whole ls, before = whole ++ ls ∧ Opened 0 stack ls

theorem openedAt_nil (before : List Lexeme) : OpenedAt before [] :=
  ⟨before, [], (List.append_nil before).symm, .nil⟩

theorem OpenedAt.feed {before : List Lexeme} {stack : List OpenForm} {lexeme : Lexeme}
    {progress : Progress} (h : OpenedAt before stack)
    (hfeed : Reader.feed stack lexeme = .ok progress) :
    OpenedAt (before ++ [lexeme]) progress.stack := by
  obtain ⟨whole, ls, rfl, hopen⟩ := h
  replace hopen : Opened ([] : List OpenForm).length stack ls := hopen
  rw [← List.append_nil stack] at hfeed
  rcases hopen.feed hfeed with ⟨_, _, _, _, _, hbase, -⟩ | ⟨w, k, -, -, rfl⟩ |
    ⟨above, -, hopen', rfl⟩
  · cases hbase
  · exact openedAt_nil _
  · refine ⟨whole, ls ++ [lexeme], List.append_assoc _ _ _, ?_⟩
    rw [Progress.stack, List.append_nil]
    exact hopen'

/-- Whatever is read, the stack tells where its forms were opened. -/
theorem openedAt_of_stackAfter {ls : List Lexeme} {left : List OpenForm}
    (h : stackAfter [] ls = .ok left) : OpenedAt ls left :=
  stackAfter_preserves OpenedAt.feed (openedAt_nil []) h

/-- Tokens that end within a bracket are whole forms after the one that the error names. -/
theorem exists_opener_of_unterminated {last p : Position} {ls : List Lexeme} {b : Bracket}
    (h : forms [] last ls = .error (.reader (.unterminated b) p)) :
    ∃ before rest vs n, ls = before ++ ⟨.opening b, p⟩ :: rest ∧
      DerivesAll (rest.map Lexeme.token) vs n ∧ n < maxNesting := by
  cases fails_of_forms h with
  | refused _ _ hreason => cases hreason
  | within hrun =>
    obtain ⟨whole, since, hls, hopen⟩ := openedAt_of_stackAfter hrun
    cases hopen with
    | @bracket _ before rest lexeme _ _ n _ ht hall hfits =>
      obtain ⟨token, place⟩ := lexeme
      cases ht
      refine ⟨whole ++ before, rest, _, n, ?_, hall, by omega⟩
      rw [hls, List.append_assoc]

end Lisp.Reader
