import Lisp.Proofs.Scanner
import Mathlib.Data.List.TakeWhile

/-!
# How tokens lie in a text

A text is made of tokens, each written out in its one way, and of gaps around them: white space,
commas and comments. `Layout` says so of every character, with the place of each token counted from
the start of the text. The scanner finds the tokens of every text that is laid out in this way, and
every text is (`tokenize_lossless`), so no character is lost, and none belongs to two tokens.
-/

namespace Lisp

open ScanMode

/-! ## Places -/

/-- The place after the characters from the start of a text: lines are counted by the line ends
among them, and columns by the characters since the last one. -/
def Position.after (cs : List Char) : Position :=
  ⟨1 + cs.count '\n', 1 + (cs.reverse.takeWhile (· ≠ '\n')).length⟩

theorem Position.after_snoc (cs : List Char) (c : Char) :
    after (cs ++ [c]) = (after cs).advance c := by
  unfold after advance
  by_cases hc : c = '\n'
  · simp [hc, Nat.add_assoc]
  · simp [hc, Nat.add_assoc]

theorem Position.after_append (cs ds : List Char) :
    after (cs ++ ds) = ds.foldl advance (after cs) := by
  induction ds generalizing cs with
  | nil => rw [List.append_nil, List.foldl_nil]
  | cons d ds ih => rw [List.append_cons, ih, after_snoc, List.foldl_cons]

/-! ## Gaps -/

/-- What may stand between two tokens: white space, commas, and comments with their line ends. -/
inductive Gap : List Char → Prop
  | nil : Gap []
  | blank {c : Char} {cs : List Char} : Text.isBlank c = true ∨ c = ',' → Gap cs → Gap (c :: cs)
  | comment {body cs : List Char} : '\n' ∉ body → Gap cs → Gap (';' :: (body ++ '\n' :: cs))

/-- What may stand after the last token, where the end of the text ends a comment too. -/
inductive FinalGap : List Char → Prop
  | closed {cs : List Char} : Gap cs → FinalGap cs
  | comment {cs body : List Char} : Gap cs → '\n' ∉ body → FinalGap (cs ++ ';' :: body)

theorem Gap.append {cs ds : List Char} (hc : Gap cs) (hd : Gap ds) : Gap (cs ++ ds) := by
  induction hc with
  | nil => exact hd
  | blank hblank _ ih => exact .blank hblank ih
  | comment hbody _ ih =>
    rw [List.cons_append, List.append_assoc, List.cons_append]
    exact .comment hbody ih

theorem Gap.append_final {cs ds : List Char} (hc : Gap cs) (hd : FinalGap ds) :
    FinalGap (cs ++ ds) := by
  cases hd with
  | closed hd => exact .closed (hc.append hd)
  | comment hd hbody =>
    rw [← List.append_assoc]
    exact .comment (hc.append hd) hbody

theorem begin_blank {c : Char} (h : Text.isBlank c = true ∨ c = ',') (p : Position) :
    begin p c = (.between, []) := by
  fun_cases begin p c <;> simp_all
  all_goals revert h; decide

/-- A comment goes on to the end of its line. -/
theorem scan_comment {body : List Char} (h : '\n' ∉ body) (p : Position) (rest : List Char) :
    scan .comment p (body ++ rest) = scan .comment (body.foldl Position.advance p) rest := by
  induction body generalizing p with
  | nil => rfl
  | cons c body ih =>
    obtain ⟨hc, hbody⟩ : c ≠ '\n' ∧ '\n' ∉ body := by simpa [eq_comm] using h
    have hstep : step p c .comment = (.comment, []) := by simp [step, hc]
    rw [List.cons_append, scan_cons, hstep, List.nil_append, ih hbody, List.foldl_cons]

theorem scan_gap {gap : List Char} (h : Gap gap) (p : Position) (rest : List Char) :
    scan .between p (gap ++ rest) = scan .between (gap.foldl Position.advance p) rest := by
  induction h generalizing p with
  | nil => rfl
  | @blank c cs hblank _ ih =>
    have hstep : step p c .between = (.between, []) := begin_blank hblank p
    rw [List.cons_append, scan_cons, hstep, List.nil_append, ih, List.foldl_cons]
  | @comment body cs hbody _ ih =>
    have hstep : step p ';' .between = (.comment, []) := rfl
    have hend : ∀ q, step q '\n' .comment = (.between, []) := fun _ => rfl
    rw [List.cons_append, List.append_assoc, List.cons_append, scan_cons, hstep, List.nil_append,
      scan_comment hbody, scan_cons, hend, List.nil_append, ih, List.foldl_cons, List.foldl_append,
      List.foldl_cons]

theorem scan_finalGap {gap : List Char} (h : FinalGap gap) (p : Position) :
    scan .between p gap = [] := by
  cases h with
  | closed h =>
    have hscan := scan_gap h p []
    rwa [List.append_nil] at hscan
  | @comment cs body h hbody =>
    have hscan := scan_comment hbody ((cs.foldl Position.advance p).advance ';') []
    have hstep : ∀ q, step q ';' .between = (.comment, []) := fun _ => rfl
    rw [List.append_nil] at hscan
    rw [scan_gap h, scan_cons, hstep, List.nil_append, hscan]
    rfl

/-! ## Tokens as they are written -/

/-- The characters after the quote of a string that has no end; the last one may be a backslash. -/
inductive OpenBody : List Char → Prop
  | whole {cs : List Char} : StringBody cs → OpenBody cs
  | backslash {cs : List Char} : StringBody cs → OpenBody (cs ++ ['\\'])

/-- The characters of a mark. -/
def Mark.chars : Mark → List Char
  | quote => ['\x27']
  | quasiquote => ['\x60']
  | unquote => ['~']
  | spliceUnquote => ['~', '@']
  | deref => ['@']

/-- A token is written as `cs` where `rest` follows. Marks and words are as long as they can be, and
nothing follows a string without an end. -/
inductive Token.Written : Token → List Char → List Char → Prop
  | opening (b : Bracket) (rest : List Char) : Written (.opening b) [b.opener] rest
  | closing (b : Bracket) (rest : List Char) : Written (.closing b) [b.closer] rest
  | mark {m : Mark} {rest : List Char} : (m = .unquote → rest.head? ≠ some '@') →
      Written (.mark m) m.chars rest
  | caret (rest : List Char) : Written .caret ['^'] rest
  | string {body : List Char} (rest : List Char) : StringBody body →
      Written (.string (String.ofList body)) ('\x22' :: (body ++ ['\x22'])) rest
  | unterminated {body : List Char} : OpenBody body →
      Written .unterminatedString ('\x22' :: body) []
  | word {cs rest : List Char} : IsWord cs → Boundary rest →
      Written (.word (String.ofList cs)) cs rest

theorem Token.Written.ne_nil {t : Token} {cs rest : List Char} (h : t.Written cs rest) :
    cs ≠ [] := by
  cases h with
  | mark _ => next m _ => cases m <;> simp [Mark.chars]
  | word hword _ =>
    rintro rfl
    exact hword
  | _ => simp

theorem scan_openBody {body : List Char} (h : OpenBody body) (start p : Position) :
    scan (.string start [] false) p body = [⟨.unterminatedString, start⟩] := by
  cases h with
  | whole h =>
    have hscan := scan_stringBody h start p [] []
    rw [List.append_nil] at hscan
    rw [hscan]
    rfl
  | backslash h =>
    rw [scan_stringBody h, scan_cons]
    rfl

theorem scan_mark {m : Mark} {rest : List Char} (h : m = .unquote → rest.head? ≠ some '@')
    (p : Position) :
    scan .between p (m.chars ++ rest) =
      ⟨.mark m, p⟩ :: scan .between (m.chars.foldl Position.advance p) rest := by
  cases m with
  | unquote =>
    show scan (.tilde p) (p.advance '~') rest = _
    cases rest with
    | nil => rfl
    | cons c rest =>
      have hc : c ≠ '@' := fun hc => h rfl (congrArg some hc)
      have hstep : ∀ q, step q c (.tilde p) =
          ((begin q c).1, ⟨.mark .unquote, p⟩ :: (begin q c).2) :=
        fun _ => if_neg hc
      rw [scan_cons, hstep, List.cons_append]
      exact congrArg _ (scan_cons .between _ c rest).symm
  | _ => rfl

theorem Token.Written.rest_eq_nil {cs rest : List Char}
    (h : Token.Written .unterminatedString cs rest) : rest = [] := by
  cases h
  rfl

/-- A token that is written out is scanned, and the scanner goes on after it. -/
theorem Token.Written.scan {t : Token} {cs rest : List Char} (h : t.Written cs rest)
    (p : Position) :
    scan .between p (cs ++ rest) = ⟨t, p⟩ :: scan .between (cs.foldl Position.advance p) rest := by
  cases h with
  | opening b => cases b <;> rfl
  | closing b => cases b <;> rfl
  | mark hmark => exact scan_mark hmark p
  | caret => rfl
  | string _ hbody => exact scan_string hbody p rest
  | @unterminated body hbody =>
    have hstart : step p '\x22' .between = (.string p [] false, []) := rfl
    rw [List.append_nil, scan_cons, hstart, List.nil_append, scan_openBody hbody]
    rfl
  | word hword hrest =>
    cases cs with
    | nil => exact hword.elim
    | cons c cs =>
      have hstep : step p c .between = (.word p [c], []) := begin_word hword.1 p
      rw [List.cons_append, scan_cons, hstep, List.nil_append, scan_word hword.2 hrest]
      rfl

/-! ## Whole texts -/

/-- After the characters `before`, the rest of a text is gaps and tokens in turn, and each token has
the place of its first character. -/
inductive Layout : List Char → List Char → List Lexeme → Prop
  | done {before gap : List Char} : FinalGap gap → Layout before gap []
  | token {before gap cs rest : List Char} {lexeme : Lexeme} {ls : List Lexeme} : Gap gap →
      lexeme.token.Written cs rest → lexeme.position = .after (before ++ gap) →
      Layout (before ++ gap ++ cs) rest ls → Layout before (gap ++ (cs ++ rest)) (lexeme :: ls)

/-- The scanner finds the tokens that a text is laid out in. -/
theorem Layout.scan_eq {before rest : List Char} {ls : List Lexeme} (h : Layout before rest ls) :
    scan .between (.after before) rest = ls := by
  induction h with
  | done hgap => exact scan_finalGap hgap _
  | @token before gap cs rest lexeme ls hgap hwritten hplace _ ih =>
    rw [scan_gap hgap, hwritten.scan, ← Position.after_append, ← Position.after_append,
      ih, ← hplace]

theorem Layout.gap {gap before rest : List Char} {ls : List Lexeme} (hgap : Gap gap)
    (h : Layout (before ++ gap) rest ls) : Layout before (gap ++ rest) ls := by
  generalize hbefore : before ++ gap = before' at h
  cases h with
  | done hfinal => exact .done (hgap.append_final hfinal)
  | token hgap' hwritten hplace hrest =>
    subst hbefore
    rw [List.append_assoc before] at hplace hrest
    rw [← List.append_assoc]
    exact .token (hgap.append hgap') hwritten hplace hrest

/-- Nothing is laid out after a string without an end. -/
theorem Layout.unterminated_last {before rest : List Char} {ls : List Lexeme}
    (h : Layout before rest ls) : .unterminatedString ∉ (ls.map Lexeme.token).dropLast := by
  induction h with
  | done _ => exact List.not_mem_nil
  | @token before gap cs rest lexeme ls _ hwritten _ hrest ih =>
    cases hrest with
    | done _ => exact List.not_mem_nil
    | token _ hwritten' _ _ =>
      rw [List.map_cons, List.map_cons, List.dropLast_cons_cons, List.mem_cons, not_or]
      refine ⟨fun ht => ?_, ih⟩
      rw [← ht] at hwritten
      have hnil := hwritten.rest_eq_nil
      rw [List.append_eq_nil_iff, List.append_eq_nil_iff] at hnil
      exact hwritten'.ne_nil hnil.2.1

/-! ## Every text -/

/-- The characters up to the quote that ends a string, or to the end of the text. -/
def HasBody (cs : List Char) : Prop :=
  (∃ body rest, cs = body ++ '\x22' :: rest ∧ StringBody body) ∨ OpenBody cs

theorem HasBody.append {pre cs : List Char} (h : HasBody cs)
    (hpre : ∀ {body}, StringBody body → StringBody (pre ++ body)) : HasBody (pre ++ cs) := by
  rcases h with ⟨body, rest, rfl, hbody⟩ | hopen
  · exact Or.inl ⟨pre ++ body, rest, (List.append_assoc _ _ _).symm, hpre hbody⟩
  · refine Or.inr ?_
    cases hopen with
    | whole hbody => exact .whole (hpre hbody)
    | backslash hbody =>
      rw [← List.append_assoc]
      exact .backslash (hpre hbody)

theorem hasBody (cs : List Char) : HasBody cs := by
  induction hlength : cs.length using Nat.strongRecOn generalizing cs with
  | ind n ih =>
    subst hlength
    cases cs with
    | nil => exact Or.inr (.whole .nil)
    | cons c cs =>
      by_cases hquote : c = '\x22'
      · exact Or.inl ⟨[], cs, by rw [hquote]; rfl, .nil⟩
      by_cases hslash : c = '\\'
      · subst hslash
        cases cs with
        | nil => exact Or.inr (.backslash .nil)
        | cons d cs =>
          have hlt : cs.length < ('\\' :: d :: cs).length :=
            Nat.lt_trans (Nat.lt_succ_self _) (Nat.lt_succ_self _)
          show HasBody (['\\', d] ++ cs)
          exact (ih _ hlt cs rfl).append (.escaped d)
      · show HasBody ([c] ++ cs)
        exact (ih _ (Nat.lt_succ_self _) cs rfl).append (.plain hquote hslash)

theorem exists_written_word {c : Char} (h : beginsWord c = true) (cs : List Char) :
    ∃ t word rest, c :: cs = word ++ rest ∧ Token.Written t word rest := by
  refine ⟨_, c :: cs.takeWhile fun d => !isDelimiter d, cs.dropWhile fun d => !isDelimiter d, ?_,
    .word ⟨h, fun d hd => ?_⟩ ?_⟩
  · rw [List.cons_append, List.takeWhile_append_dropWhile]
  · simpa using List.mem_takeWhile_imp hd
  · have hhead := List.head?_dropWhile_not (fun d => !isDelimiter d) cs
    cases hrest : cs.dropWhile fun d => !isDelimiter d with
    | nil => trivial
    | cons d ds =>
      show isDelimiter d = true
      simpa [hrest] using hhead

/-- A character that is in no gap begins a token. -/
theorem exists_written {c : Char} (hblank : ¬ (Text.isBlank c = true ∨ c = ','))
    (hcomment : c ≠ ';') (cs : List Char) :
    ∃ t word rest, c :: cs = word ++ rest ∧ Token.Written t word rest := by
  by_cases hword : beginsWord c = true
  · exact exists_written_word hword cs
  by_cases hquote : c = '\x22'
  · subst hquote
    rcases hasBody cs with ⟨body, rest, rfl, hbody⟩ | hopen
    · exact ⟨_, _, rest, by simp, .string rest hbody⟩
    · exact ⟨_, _, [], (List.append_nil _).symm, .unterminated hopen⟩
  by_cases htilde : c = '~'
  · subst htilde
    by_cases hat : cs.head? = some '@'
    · obtain ⟨rest, rfl⟩ := List.head?_eq_some_iff.mp hat
      exact ⟨_, _, rest, rfl, .mark (m := .spliceUnquote) (by simp)⟩
    · exact ⟨_, _, cs, rfl, .mark (m := .unquote) fun _ => hat⟩
  -- The other characters that are left are tokens by themselves.
  have hsingle : c ∈ ['(', '[', '\x7b', ')', ']', '\x7d', '\x27', '\x60', '@', '^'] := by
    by_contra hnone
    simp_all [beginsWord, isDelimiter]
  simp only [List.mem_cons, List.not_mem_nil, or_false] at hsingle
  rcases hsingle with rfl | rfl | rfl | rfl | rfl | rfl | rfl | rfl | rfl | rfl
  · exact ⟨_, _, cs, rfl, .opening .round cs⟩
  · exact ⟨_, _, cs, rfl, .opening .square cs⟩
  · exact ⟨_, _, cs, rfl, .opening .curly cs⟩
  · exact ⟨_, _, cs, rfl, .closing .round cs⟩
  · exact ⟨_, _, cs, rfl, .closing .square cs⟩
  · exact ⟨_, _, cs, rfl, .closing .curly cs⟩
  · exact ⟨_, _, cs, rfl, .mark (m := .quote) (by simp)⟩
  · exact ⟨_, _, cs, rfl, .mark (m := .quasiquote) (by simp)⟩
  · exact ⟨_, _, cs, rfl, .mark (m := .deref) (by simp)⟩
  · exact ⟨_, _, cs, rfl, .caret cs⟩

/-- A comment takes up the rest of its line. -/
theorem exists_comment (cs : List Char) :
    (∃ body rest, cs = body ++ '\n' :: rest ∧ '\n' ∉ body) ∨ '\n' ∉ cs := by
  by_cases hline : '\n' ∈ cs
  · obtain ⟨body, rest, hcs, hbody⟩ := List.eq_append_cons_of_mem hline
    exact Or.inl ⟨body, rest, hcs, hbody⟩
  · exact Or.inr hline

/-- Every text is laid out in some tokens. -/
theorem exists_layout (before rest : List Char) : ∃ ls, Layout before rest ls := by
  -- The induction is on the length of the rest: a blank, a comment or a token is taken off it.
  induction hlength : rest.length using Nat.strongRecOn generalizing before rest with
  | ind n ih =>
    subst hlength
    cases rest with
    | nil => exact ⟨[], .done (.closed .nil)⟩
    | cons c cs =>
      by_cases hblank : Text.isBlank c = true ∨ c = ','
      · obtain ⟨ls, hls⟩ := ih cs.length (Nat.lt_succ_self _) (before ++ [c]) cs rfl
        exact ⟨ls, .gap (.blank hblank .nil) hls⟩
      by_cases hcomment : c = ';'
      · subst hcomment
        rcases exists_comment cs with ⟨body, rest, rfl, hbody⟩ | hopen
        · have hgap : Gap (';' :: (body ++ ['\n'])) := .comment hbody .nil
          have hlt : rest.length < (';' :: (body ++ '\n' :: rest)).length := by
            simp only [List.length_cons, List.length_append]
            omega
          obtain ⟨ls, hls⟩ := ih rest.length hlt (before ++ ';' :: (body ++ ['\n'])) rest rfl
          refine ⟨ls, ?_⟩
          rw [← List.singleton_append (x := '\n'), ← List.append_assoc, ← List.cons_append]
          exact .gap hgap hls
        · exact ⟨[], .done (.comment .nil hopen)⟩
      obtain ⟨t, word, rest, htext, hwritten⟩ := exists_written hblank hcomment cs
      have hlt : rest.length < (c :: cs).length := by
        rw [htext, List.length_append]
        have hpos := List.length_pos_iff.mpr hwritten.ne_nil
        omega
      obtain ⟨ls, hls⟩ := ih rest.length hlt (before ++ [] ++ word) rest rfl
      refine ⟨⟨t, .after (before ++ [])⟩ :: ls, ?_⟩
      rw [htext]
      exact .token .nil hwritten rfl hls

/-- The tokens of a text are those it is laid out in: the text is a gap, a token, a gap, and so on
up to the last gap, and each token has the place of its first character. Only the last token can be
a string without an end. -/
theorem tokenize_lossless (source : String) (ls : List Lexeme) :
    (tokenize source = ls ↔ Layout [] source.toList ls) ∧
    .unterminatedString ∉ ((tokenize source).map Lexeme.token).dropLast := by
  obtain ⟨found, hlayout⟩ := exists_layout [] source.toList
  have htokens : tokenize source = found := hlayout.scan_eq
  refine ⟨⟨?_, fun h => h.scan_eq⟩, ?_⟩
  · rintro rfl
    rwa [htokens]
  · rw [htokens]
    exact hlayout.unterminated_last

-- The comment counts for the lines only, and the two quotes belong to one string.
example : tokenize ", ~@é;(\n\t\"a\\\"\n\"~ b" =
    [⟨.mark .spliceUnquote, ⟨1, 3⟩⟩, ⟨.word "é", ⟨1, 5⟩⟩, ⟨.string "a\\\"\n", ⟨2, 2⟩⟩,
      ⟨.mark .unquote, ⟨3, 2⟩⟩, ⟨.word "b", ⟨3, 4⟩⟩] := by
  decide +kernel

end Lisp
