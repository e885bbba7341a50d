import Lisp.Proofs.Reader
import Lisp.Proofs.Scanner

/-!
# Texts made one form

A text of any number of forms is made one form by writing `(do ` before it, and a line end, `nil`
and a bracket after it. The line end ends a comment or a word at the end of the text, and nothing
that is written ends a string, so the tokens of the text stay as they are. The one form is read just
if the forms of the text are, unless the last token of the text is a mark: it would stand before
`nil`.
-/

namespace Lisp

/-- The tokens of a text without their places. -/
def tokens (source : String) : List Token := (tokenize source).map Lexeme.token

/-- The text made one form. -/
def wrapped (content : String) : String := "(do " ++ content ++ "\nnil)"

/-! ## Tokens of the wrapped text -/

namespace ScanMode

/-- The mode as if the token had begun at the start of the text. -/
def unplaced : ScanMode → ScanMode
  | between => between
  | tilde _ => tilde {}
  | comment => comment
  | string _ body escaped => string {} body escaped
  | word _ text => word {} text

theorem unplaced_eq_move (mode : ScanMode) : mode.unplaced = mode.move fun _ => {} := by
  cases mode <;> rfl

theorem step_unplaced (mode : ScanMode) (p : Position) (c : Char) :
    (mode.step p c).1.unplaced = (mode.unplaced.step {} c).1.unplaced ∧
      (mode.step p c).2.map Lexeme.token = (mode.unplaced.step {} c).2.map Lexeme.token := by
  have hstep := step_move (fun _ => {}) mode p c
  rw [← unplaced_eq_move, ← unplaced_eq_move] at hstep
  rw [hstep]
  constructor
  · cases (mode.step p c).1 <;> rfl
  · rw [List.map_map]
    rfl

end ScanMode

/-- Tokens do not depend on where the text stands. -/
theorem scan_unplaced (mode : ScanMode) (p : Position) (cs : List Char) :
    (scan mode p cs).map Lexeme.token = (scan mode.unplaced {} cs).map Lexeme.token := by
  induction cs generalizing mode p with
  | nil => cases mode <;> rfl
  | cons c cs ih =>
    obtain ⟨hmode, hended⟩ := mode.step_unplaced p c
    rw [scan_cons, scan_cons, List.map_append, List.map_append, hended, ih, hmode,
      ← ih _ (Position.advance {} c)]

/-- A line end ends whatever is unfinished, a string apart. -/
theorem scan_line {mode : ScanMode} {p : Position} {cs : List Char}
    (h : .unterminatedString ∉ (scan mode p cs).map Lexeme.token) (rest : List Char) :
    scan mode p (cs ++ '\n' :: rest) =
      scan mode p cs ++ scan .between ((cs.foldl Position.advance p).advance '\n') rest := by
  induction cs generalizing mode p with
  | nil =>
    rw [List.nil_append, scan_cons]
    cases mode with
    | string start body escaped => simp [scan, ScanMode.finish] at h
    | _ => rfl
  | cons c cs ih =>
    rw [scan_cons, List.map_append, List.mem_append, not_or] at h
    rw [List.cons_append, scan_cons, scan_cons, ih h.2, List.append_assoc]
    rfl

theorem scan_unquoted {cs : List Char} (h : '\x22' ∉ cs) (start p : Position) (body : List Char)
    (escaped : Bool) : (scan (.string start body escaped) p cs) =
      [⟨.unterminatedString, start⟩] := by
  induction cs generalizing p body escaped with
  | nil => rfl
  | cons c cs ih =>
    obtain ⟨hc, hcs⟩ : c ≠ '\x22' ∧ '\x22' ∉ cs := by
      simpa [eq_comm] using h
    rw [scan_cons]
    cases escaped with
    | true => exact ih hcs _ _ _
    | false =>
      simp only [ScanMode.step, if_neg hc]
      exact ih hcs _ _ _

/-- A string stays open where no quote follows. -/
theorem scan_unterminated {mode : ScanMode} {p : Position} {cs ds : List Char} (hds : '\x22' ∉ ds)
    (h : .unterminatedString ∈ (scan mode p cs).map Lexeme.token) :
    .unterminatedString ∈ (scan mode p (cs ++ ds)).map Lexeme.token := by
  induction cs generalizing mode p with
  | nil =>
    cases mode with
    | string start body escaped => simp [scan_unquoted hds]
    | _ => simp [scan, ScanMode.finish] at h
  | cons c cs ih =>
    rw [scan_cons, List.map_append, List.mem_append] at h
    rw [List.cons_append, scan_cons, List.map_append, List.mem_append]
    exact h.imp id ih

theorem tokens_wrapped (content : String) :
    tokens (wrapped content) = .opening .round :: .word "do" ::
      (scan .between {} (content.toList ++ '\n' :: "nil)".toList)).map Lexeme.token := by
  have htext : (wrapped content).toList =
      '(' :: 'd' :: 'o' :: ' ' :: (content.toList ++ '\n' :: "nil)".toList) := by
    simp [wrapped]
  rw [tokens, tokenize, htext]
  exact congrArg (Token.opening .round :: .word "do" :: ·)
    (scan_unplaced .between ⟨1, 5⟩ (content.toList ++ '\n' :: "nil)".toList))

theorem tokens_wrapped_eq {content : String} (h : .unterminatedString ∉ tokens content) :
    tokens (wrapped content) =
      .opening .round :: ((.word "do" :: (tokens content ++ [.word "nil"])) ++
        [.closing .round]) := by
  have hend : ∀ p, (scan .between p "nil)".toList).map Lexeme.token =
      [.word "nil", .closing .round] := fun _ => rfl
  rw [tokens_wrapped, scan_line h "nil)".toList, List.map_append, hend]
  simp [tokens, tokenize]

theorem unterminated_wrapped {content : String} (h : .unterminatedString ∈ tokens content) :
    .unterminatedString ∈ tokens (wrapped content) := by
  rw [tokens_wrapped]
  refine List.mem_cons_of_mem _ (List.mem_cons_of_mem _ (scan_unterminated ?_ h))
  decide

/-! ## Forms of the wrapped text -/

namespace Grammar

mutual

theorem Derives.terminated {ts : List Token} {v : Value} {n : Nat} :
    Derives ts v n → .unterminatedString ∉ ts
  | .string _ => by simp
  | .word _ => by simp
  | .bracket hall _ => by simpa using hall.terminated
  | .mark _ hform => by simpa using hform.terminated

theorem DerivesAll.terminated {ts : List Token} {vs : List Value} {n : Nat} :
    DerivesAll ts vs n → .unterminatedString ∉ ts
  | .nil => by simp
  | .cons hform hall => by
    rw [List.mem_append, not_or]
    exact ⟨hform.terminated, hall.terminated⟩

end

mutual

theorem Derives.depth_le_length {ts : List Token} {v : Value} {n : Nat} :
    Derives ts v n → n ≤ ts.length
  | .string _ => Nat.le_refl 1
  | .word _ => Nat.le_refl 1
  | .bracket hall _ => by
    have hle := hall.depth_le_length
    simp only [List.length_cons, List.length_append]
    omega
  | .mark _ hform => Nat.succ_le_succ hform.depth_le_length

theorem DerivesAll.depth_le_length {ts : List Token} {vs : List Value} {n : Nat} :
    DerivesAll ts vs n → n ≤ ts.length
  | .nil => Nat.le_refl 0
  | .cons hform hall => by
    have hfirst := hform.depth_le_length
    have hrest := hall.depth_le_length
    rw [List.length_append]
    omega

end

/-- A form whose last token is a word is that word, with marks before it. -/
theorem Derives.before_word {ts : List Token} {v : Value} {n : Nat} :
    Derives ts v n → ∀ {us : List Token} {text : String}, ts = us ++ [.word text] →
      us = [] ∨ ∃ m, us.getLast? = some (.mark m)
  | .string _, us, text, h => by
    cases us <;> simp at h
  | .word _, us, text, h => by
    cases us with
    | nil => exact Or.inl rfl
    | cons => simp at h
  | .bracket _ _, us, text, h => by
    rw [← List.cons_append] at h
    cases (List.append_inj' h rfl).2
  | .mark m hform, us, text, h => by
    cases us with
    | nil => simp at h
    | cons t us =>
      obtain ⟨rfl, hts⟩ := List.cons.inj h
      rcases hform.before_word hts with rfl | ⟨m', hlast⟩
      · exact Or.inr ⟨m, rfl⟩
      · refine Or.inr ⟨m', ?_⟩
        rw [List.getLast?_cons, hlast]
        rfl

/-- Without a word at their end tokens are forms as before, unless a mark stands before it. -/
theorem DerivesAll.dropWord {ts : List Token} {vs : List Value} {n : Nat} :
    DerivesAll ts vs n → ∀ {us : List Token} {text : String}, ts = us ++ [.word text] →
      (∀ m, us.getLast? ≠ some (.mark m)) → ∃ ws k, DerivesAll us ws k
  | .nil, us, text, h, _ => by simp at h
  | .cons hform hall, us, text, h, hmark => by
    rcases List.append_eq_append_iff.mp h with ⟨us', rfl, hrest⟩ | ⟨cs, hts, hrest⟩
    · obtain ⟨ws, k, hws⟩ := hall.dropWord hrest fun m hlast => hmark m (by simp [hlast])
      exact ⟨_, _, .cons hform hws⟩
    · cases cs with
      | nil =>
        rw [List.append_nil] at hts
        subst hts
        have hsingle := DerivesAll.cons hform .nil
        rw [List.append_nil] at hsingle
        exact ⟨_, _, hsingle⟩
      | cons c cs =>
        obtain ⟨rfl, hnil⟩ := List.cons.inj hrest
        obtain ⟨rfl, -⟩ := List.append_eq_nil_iff.mp hnil.symm
        rcases hform.before_word hts with rfl | ⟨m, hlast⟩
        · exact ⟨[], 0, .nil⟩
        · exact absurd hlast (hmark m)

theorem derivesAll_pieces {pieces : List Piece} (h : ∀ p ∈ pieces, p.Derived) :
    ∃ n, DerivesAll (pieces.flatMap Piece.tokens) (pieces.map Piece.value) n := by
  induction pieces with
  | nil => exact ⟨0, .nil⟩
  | cons piece pieces ih =>
    obtain ⟨hpiece, hpieces⟩ := List.forall_mem_cons.mp h
    obtain ⟨n, hn⟩ := ih hpieces
    exact ⟨_, .cons hpiece hn⟩

end Grammar

open Grammar Reader

theorem readAll_eq_ok {content : String} {forms : List Value} {n : Nat}
    (h : DerivesAll (tokens content) forms n) (hn : n ≤ maxNesting) :
    readAll content = .ok forms := by
  obtain ⟨pieces, hpieces, htokens, hforms⟩ := h.pieces
  exact forms_eq_ok_iff.mpr ⟨pieces, fun p hp => ⟨(hpieces p hp).1,
    Nat.le_trans (hpieces p hp).2 hn⟩, htokens, hforms⟩

theorem derivesAll_of_readAll {content : String} {forms : List Value}
    (h : readAll content = .ok forms) : ∃ n, DerivesAll (tokens content) forms n := by
  obtain ⟨pieces, hpieces, htokens, rfl⟩ := forms_eq_ok_iff.mp h
  rw [tokens, htokens]
  exact derivesAll_pieces fun p hp => (hpieces p hp).1

theorem read_wrapped {content : String} {forms : List Value} {n : Nat}
    (h : DerivesAll (tokens content) forms n) (hn : n < maxNesting) :
    read (wrapped content) = .ok (.list none (.sym "do" :: (forms ++ [.nil]))) := by
  have hbody : DerivesAll (.word "do" :: (tokens content ++ [.word "nil"]))
      (.sym "do" :: (forms ++ [.nil])) (max 1 (max n 1)) :=
    .cons (.word "do") (h.snoc (.word "nil"))
  refine read_eq_ok_iff.mpr (Or.inr ⟨max 1 (max n 1) + 1, ?_, ?_⟩)
  · rw [← tokens, tokens_wrapped_eq h.terminated]
    exact .bracket hbody (.list _)
  · have hone : 1 < maxNesting := by decide
    omega

theorem derivesAll_of_read_wrapped {content : String} {v : Value}
    (h : read (wrapped content) = .ok v)
    (hmark : ∀ m, (tokens content).getLast? ≠ some (.mark m)) :
    ∃ forms n, DerivesAll (tokens content) forms n := by
  rcases read_eq_ok_iff.mp h with ⟨hblank, -⟩ | ⟨n, hform, -⟩
  · have hnil := tokens_wrapped content
    rw [tokens, hblank] at hnil
    cases hnil
  · rw [← tokens] at hform
    have hclosed : .unterminatedString ∉ tokens content := fun hopen =>
      hform.terminated (unterminated_wrapped hopen)
    rw [tokens_wrapped_eq hclosed] at hform
    generalize hts : Token.opening .round :: _ = ts at hform
    cases hform with
    | @bracket b ts' vs v n hall _ =>
      obtain ⟨-, hbody⟩ := List.cons.inj hts
      obtain ⟨rfl, -⟩ := List.append_inj' hbody rfl
      generalize hdo : Token.word "do" :: _ = ts at hall
      cases hall with
      | nil => cases hdo
      | @cons us us' w ws k k' hfirst hrest =>
        -- The first form is the word that stands first, so the others are those of the text.
        obtain ⟨rfl, -, -⟩ := (Derives.word "do").unique hfirst hdo
        exact hrest.dropWord (List.cons.inj hdo).2.symm hmark
    | _ => cases hts

/-- The forms of the text nest less deep than the bound. -/
def NestsBelow (content : String) (bound : Nat) : Prop :=
  ∀ forms n, DerivesAll (tokens content) forms n → n < bound

theorem nestsBelow_of_length {content : String} {bound : Nat}
    (h : (tokens content).length < bound) : NestsBelow content bound :=
  fun _ _ hforms => Nat.lt_of_le_of_lt hforms.depth_le_length h

/-- The text is read just if it is read as one form. -/
theorem read_wrapped_cases {content : String} (hnest : NestsBelow content (maxNesting - 1))
    (hmark : ∀ m, (tokens content).getLast? ≠ some (.mark m)) :
    (∃ forms, readAll content = .ok forms ∧
      read (wrapped content) = .ok (.list none (.sym "do" :: (forms ++ [.nil])))) ∨
    ∃ e e', readAll content = .error e ∧ read (wrapped content) = .error e' := by
  by_cases hforms : ∃ forms n, DerivesAll (tokens content) forms n
  · obtain ⟨forms, n, h⟩ := hforms
    have hn := hnest forms n h
    exact Or.inl ⟨forms, readAll_eq_ok h (by omega), read_wrapped h (by omega)⟩
  · refine Or.inr ?_
    cases hall : readAll content with
    | ok forms => exact absurd ⟨forms, derivesAll_of_readAll hall⟩ hforms
    | error e =>
      cases hone : read (wrapped content) with
      | ok v => exact absurd (derivesAll_of_read_wrapped hone hmark) hforms
      | error e' => exact ⟨e, e', rfl, rfl⟩

end Lisp
