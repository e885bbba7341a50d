import Lisp.Program.Repl
import Lisp.Proofs.Scanner
import Lisp.Proofs.Stack

/-!
# When an entry is complete

The interactive loop tells by its own count of brackets and quotes whether an entry is complete.
That count follows the scanner: after every character, strings and comments are open in both or in
neither, and the depth is the number of brackets among the tokens so far, opening ones less closing
ones (`balance_step`). So a text is balanced just if its tokens close all that they open and hold no
unterminated string (`isBalanced_iff`), and the depth is never further from zero than there are
brackets in the text. The reader keeps the same count on its stack.
-/

namespace Lisp

/-! ## Brackets among tokens -/

/-- What a token adds to the number of open brackets. -/
def Token.weight : Token → Int
  | .opening _ => 1
  | .closing _ => -1
  | _ => 0

/-- How many more brackets are opened than closed. -/
def surplus : List Lexeme → Int
  | [] => 0
  | lexeme :: rest => lexeme.token.weight + surplus rest

@[simp] theorem surplus_nil : surplus [] = 0 := rfl

@[simp] theorem surplus_cons (lexeme : Lexeme) (rest : List Lexeme) :
    surplus (lexeme :: rest) = lexeme.token.weight + surplus rest := rfl

@[simp] theorem surplus_append (xs ys : List Lexeme) :
    surplus (xs ++ ys) = surplus xs + surplus ys := by
  induction xs with
  | nil => simp
  | cons x xs ih => simp only [List.cons_append, surplus_cons, ih, Int.add_assoc]

/-! ## The count and the scanner -/

namespace ScanMode

open Program

/-- What is open in a mode of the scanner, at a given depth. -/
def balance (depth : Int) : ScanMode → Balance
  | comment => { depth, inComment := true }
  | string _ _ escaped => { depth, inString := true, escaped }
  | _ => { depth }

theorem balance_begin (depth : Int) (p : Position) (c : Char) :
    Balance.step { depth } c = (begin p c).1.balance (depth + surplus (begin p c).2) := by
  fun_cases begin p c <;> simp_all [balance, Balance.step, Token.weight, Int.sub_eq_add_neg]

/-- A character that ends no word is no bracket and opens nothing. -/
theorem balance_word {c : Char} (h : isDelimiter c = false) (depth : Int) :
    Balance.step { depth } c = { depth } := by
  simp only [isDelimiter, Bool.or_eq_false_iff, List.contains_eq_mem, List.mem_cons,
    List.not_mem_nil, or_false, decide_eq_false_iff_not, not_or] at h
  simp [Balance.step, h]

/-- One character changes the count as the tokens change that end with it. -/
theorem balance_step (depth : Int) (mode : ScanMode) (p : Position) (c : Char) :
    Balance.step (mode.balance depth) c =
      (mode.step p c).1.balance (depth + surplus (mode.step p c).2) := by
  cases mode with
  | between => exact balance_begin depth p c
  | tilde start =>
    by_cases hat : c = '@'
    · subst hat
      simp [step, balance, Balance.step, Token.weight]
    · simp only [step, hat, ↓reduceIte, surplus_cons, Token.weight, Int.zero_add]
      exact balance_begin depth p c
  | comment => by_cases hline : c = '\n' <;> simp [step, balance, Balance.step, hline]
  | string start body escaped =>
    cases escaped with
    | true => simp [step, balance, Balance.step]
    | false =>
      by_cases hquote : c = '\x22'
      · subst hquote
        simp [step, balance, Balance.step, Token.weight]
      · by_cases hslash : c = '\\' <;> simp [step, balance, Balance.step, hquote, hslash]
  | word start text =>
    cases hend : isDelimiter c with
    | true =>
      simp only [step, hend, ↓reduceIte, surplus_cons, Token.weight, Int.zero_add]
      exact balance_begin depth p c
    | false =>
      simp only [step, hend, Bool.false_eq_true, ↓reduceIte, surplus_nil, Int.add_zero]
      exact balance_word hend depth

theorem begin_ended_ne_unterminated {c : Char} {p : Position} {lexeme : Lexeme}
    (h : lexeme ∈ (begin p c).2) : lexeme.token ≠ .unterminatedString := by
  fun_cases begin p c <;> simp_all [begin]

/-- A string is found to be unterminated at the end of the text only. -/
theorem step_ended_ne_unterminated {mode : ScanMode} {p : Position} {c : Char} {lexeme : Lexeme}
    (h : lexeme ∈ (mode.step p c).2) : lexeme.token ≠ .unterminatedString := by
  cases mode with
  | between => exact begin_ended_ne_unterminated h
  | tilde start =>
    simp only [step] at h
    split at h
    · simp_all
    · rcases List.mem_cons.mp h with rfl | h
      · simp
      · exact begin_ended_ne_unterminated h
  | comment => simp [step] at h
  | string start body escaped =>
    cases escaped with
    | true => simp [step] at h
    | false =>
      simp only [step] at h
      split at h <;> simp_all
  | word start text =>
    simp only [step] at h
    split at h
    · rcases List.mem_cons.mp h with rfl | h
      · simp
      · exact begin_ended_ne_unterminated h
    · simp at h

/-- The count after a whole text. -/
theorem balance_scan (depth : Int) (mode : ScanMode) (p : Position) (cs : List Char) :
    (cs.foldl Balance.step (mode.balance depth)).depth = depth + surplus (scan mode p cs) ∧
    ((cs.foldl Balance.step (mode.balance depth)).inString = true ↔
      ∃ lexeme ∈ scan mode p cs, lexeme.token = .unterminatedString) := by
  induction cs generalizing depth mode p with
  | nil => cases mode <;> simp [scan, finish, balance, Token.weight]
  | cons c cs ih =>
    have hended : ¬ ∃ lexeme ∈ (mode.step p c).2, lexeme.token = .unterminatedString := by
      rintro ⟨lexeme, hm, ht⟩
      exact step_ended_ne_unterminated hm ht
    obtain ⟨hdepth, hstring⟩ :=
      ih (depth + surplus (mode.step p c).2) (mode.step p c).1 (p.advance c)
    rw [List.foldl_cons, balance_step depth mode p c, scan_cons]
    refine ⟨?_, ?_⟩
    · rw [hdepth, surplus_append, Int.add_assoc]
    · rw [hstring]
      simp only [List.mem_append, or_and_right, exists_or]
      exact (or_iff_right hended).symm

end ScanMode

/-- A text is balanced just if its tokens close all the brackets that they open, and its last string
has an end. -/
theorem isBalanced_iff (s : String) :
    Program.isBalanced s = true ↔ surplus (tokenize s) ≤ 0 ∧
      ∀ lexeme ∈ tokenize s, lexeme.token ≠ .unterminatedString := by
  obtain ⟨hdepth, hstring⟩ := ScanMode.balance_scan 0 .between {} s.toList
  have hstart : ScanMode.balance 0 .between = {} := rfl
  rw [hstart, Int.zero_add] at hdepth
  rw [hstart] at hstring
  simp only [Program.isBalanced, Bool.and_eq_true, decide_eq_true_eq, hdepth,
    Bool.not_eq_eq_eq_not, Bool.not_true, ← Bool.not_eq_true, hstring, not_exists, not_and]
  rfl

/-! ## How many brackets -/

def Token.isOpening : Token → Bool
  | .opening _ => true
  | _ => false

def Token.isClosing : Token → Bool
  | .closing _ => true
  | _ => false

/-- How many of the tokens open a bracket. -/
def openings (ls : List Lexeme) : Nat :=
  ls.countP fun lexeme => lexeme.token.isOpening

/-- How many of the tokens close a bracket. -/
def closings (ls : List Lexeme) : Nat :=
  ls.countP fun lexeme => lexeme.token.isClosing

theorem surplus_eq (ls : List Lexeme) : surplus ls = (openings ls : Int) - closings ls := by
  induction ls with
  | nil => rfl
  | cons lexeme ls ih =>
    rw [surplus_cons, ih, openings, openings, closings, closings,
      List.countP_cons, List.countP_cons]
    cases lexeme.token <;> simp [Token.weight, Token.isOpening, Token.isClosing] <;> omega

/-- A character that is a bracket, wherever it stands. -/
def isBracket (c : Char) : Bool :=
  ['(', ')', '[', ']', '\x7b', '\x7d'].contains c

namespace Program.Balance

theorem isBracket_of_contains {cs : List Char} {c : Char} (h : cs.contains c = true)
    (hcs : cs.all isBracket = true) : isBracket c = true :=
  List.all_eq_true.mp hcs c (List.contains_iff_mem.mp h)

/-- Only a bracket changes the depth, and by one. -/
theorem natAbs_depth_step (b : Balance) (c : Char) :
    (b.step c).depth.natAbs ≤ b.depth.natAbs + (if isBracket c then 1 else 0) := by
  fun_cases step b c with
  | case7 _ _ _ _ _ _ hopening =>
    rw [if_pos (isBracket_of_contains hopening (by decide))]
    show (b.depth + 1).natAbs ≤ _
    omega
  | case8 _ _ _ _ _ _ _ hclosing =>
    rw [if_pos (isBracket_of_contains hclosing (by decide))]
    show (b.depth - 1).natAbs ≤ _
    omega
  | _ => exact Nat.le_add_right _ _

theorem natAbs_depth_foldl (b : Balance) (cs : List Char) :
    (cs.foldl step b).depth.natAbs ≤ b.depth.natAbs + cs.countP isBracket := by
  induction cs generalizing b with
  | nil => exact Nat.le_refl _
  | cons c cs ih =>
    have hstep := natAbs_depth_step b c
    have hrest := ih (b.step c)
    rw [List.foldl_cons, List.countP_cons]
    omega

/-- With fewer than 2 ^ 31 brackets in a text, the depth after any beginning of it is a number of 32
bits. -/
theorem depth_bounds {before after : String}
    (h : (before ++ after).toList.countP isBracket < Nat.pow 2 31) :
    Int32.minValue.toInt ≤ (before.toList.foldl step {}).depth ∧
      (before.toList.foldl step {}).depth ≤ Int32.maxValue.toInt := by
  have hbound := natAbs_depth_foldl {} before.toList
  rw [String.toList_append, List.countP_append] at h
  simp only [Nat.pow_eq, Int32.toInt_minValue, Int32.toInt_maxValue] at *
  constructor <;> omega

end Program.Balance

open Program in
/-- A text is balanced just if none of its tokens is a string without an end and no more of them
open a bracket than close one. The depth after any beginning of the text is the number of brackets
that its tokens open less those that they close; with fewer than 2 ^ 31 brackets in the text, it is
a number of 32 bits. -/
theorem isBalanced_follows_tokens (s : String) (h : s.toList.countP isBracket < Nat.pow 2 31) :
    (isBalanced s = true ↔
      (∀ lexeme ∈ tokenize s, lexeme.token ≠ .unterminatedString) ∧
      openings (tokenize s) ≤ closings (tokenize s)) ∧
    ∀ before after : String, s = before ++ after →
      let depth := (before.toList.foldl Balance.step {}).depth
      depth = (openings (tokenize before) : Int) - closings (tokenize before) ∧
      Int32.minValue.toInt ≤ depth ∧ depth ≤ Int32.maxValue.toInt := by
  refine ⟨?_, ?_⟩
  · rw [isBalanced_iff, surplus_eq, and_comm]
    exact and_congr_right fun _ => by omega
  · rintro before after rfl
    have hdepth := (ScanMode.balance_scan 0 .between {} before.toList).1
    rw [Int.zero_add] at hdepth
    exact ⟨hdepth.trans (surplus_eq (tokenize before)), Balance.depth_bounds h⟩

open Program in
/-- Of the four brackets in this text one stands in a string, after an escaped quote, and one in a
comment. -/
theorem isBalanced_follows_tokens_hidden :
    let s := "(\"\\\")\" ; )" ++ "\n]"
    s.toList.countP isBracket = 4 ∧ isBalanced s = true ∧
    (∀ lexeme ∈ tokenize s, lexeme.token ≠ .unterminatedString) ∧
    openings (tokenize s) ≤ closings (tokenize s) ∧
    ("(\"\\\")\" ; )".toList.foldl Balance.step {}).depth =
      (openings (tokenize "(\"\\\")\" ; )") : Int) - closings (tokenize "(\"\\\")\" ; )") := by
  intro s
  have hcount : s.toList.countP isBracket = 4 := by decide
  have hfew : s.toList.countP isBracket < Nat.pow 2 31 := by
    rw [hcount]
    decide
  have hbalanced : isBalanced s = true := by decide
  obtain ⟨hiff, hdepth⟩ := isBalanced_follows_tokens s hfew
  exact ⟨hcount, hbalanced, (hiff.mp hbalanced).1, (hiff.mp hbalanced).2, (hdepth _ _ rfl).1⟩

/-! ## The count on the reader's stack -/

namespace Reader

open Grammar

/-- How many brackets are open. -/
def brackets (stack : List OpenForm) : Nat :=
  stack.countP fun form => !form.isMark

@[simp] theorem brackets_mark (m : Mark) (stack : List OpenForm) :
    brackets (.mark m :: stack) = brackets stack := by
  simp [brackets, OpenForm.isMark]

@[simp] theorem brackets_bracket (b : Bracket) (p : Position) (items : List Value)
    (stack : List OpenForm) : brackets (.bracket b p items :: stack) = brackets stack + 1 := by
  simp [brackets, OpenForm.isMark]

theorem deliver_brackets (v : Value) (stack : List OpenForm) :
    brackets (deliver v stack).stack = brackets stack := by
  induction stack generalizing v with
  | nil => rfl
  | cons form stack ih =>
    cases form with
    | mark m => rw [deliver, ih, brackets_mark]
    | bracket b p items => simp [deliver, Progress.stack]

/-- A form of one token holds no bracket. -/
theorem weight_of_derives {t : Token} {v : Value} {n : Nat} (h : Derives [t] v n) :
    t.weight = 0 ∧ t ≠ .unterminatedString := by
  generalize hts : [t] = ts at h
  cases h with
  | string body =>
    cases hts
    exact ⟨rfl, by simp⟩
  | word text =>
    cases hts
    exact ⟨rfl, by simp⟩
  | bracket => simp at hts
  | mark m hform =>
    obtain ⟨-, rfl⟩ := List.cons.inj hts
    exact absurd rfl hform.tokens_ne_nil

/-- A token that is taken changes the open brackets by its weight. -/
theorem feed_brackets {stack : List OpenForm} {lexeme : Lexeme} {progress : Progress}
    (h : feed stack lexeme = .ok progress) :
    (brackets progress.stack : Int) = brackets stack + lexeme.token.weight ∧
      lexeme.token ≠ .unterminatedString := by
  rcases feed_eq_ok h with ⟨b, p, items, outer, v, rfl, ht, -, rfl⟩ |
    ⟨-, ⟨b, ht, rfl⟩ | ⟨m, ht, rfl⟩ | ⟨v, hv, rfl⟩⟩
  · rw [deliver_brackets, brackets_bracket, ht, Token.weight]
    exact ⟨by omega, by simp⟩
  · rw [Progress.stack, brackets_bracket, ht]
    exact ⟨by simp [Token.weight], by simp⟩
  · rw [Progress.stack, brackets_mark, ht]
    exact ⟨by simp [Token.weight], by simp⟩
  · rw [deliver_brackets]
    obtain ⟨hweight, hne⟩ := weight_of_derives hv
    exact ⟨by rw [hweight, Int.add_zero], hne⟩

/-- So do tokens that are all taken, and no string among them lacks its end. -/
theorem stackAfter_brackets {left : List OpenForm} {ls : List Lexeme}
    (h : stackAfter [] ls = .ok left) :
    (brackets left : Int) = surplus ls ∧ ∀ lexeme ∈ ls, lexeme.token ≠ .unterminatedString := by
  refine stackAfter_preserves
    (P := fun before stack => (brackets stack : Int) = surplus before ∧
      ∀ lexeme ∈ before, lexeme.token ≠ .unterminatedString) ?_ ⟨rfl, List.forall_mem_nil _⟩ h
  rintro before stack lexeme progress ⟨hcount, hstrings⟩ hfeed
  obtain ⟨hnext, hne⟩ := feed_brackets hfeed
  refine ⟨?_, ?_⟩
  · rw [hnext, hcount, surplus_append, surplus_cons, surplus_nil, Int.add_zero]
  · rintro lexeme' hm
    rcases List.mem_append.mp hm with hm | hm
    · exact hstrings lexeme' hm
    · rw [List.mem_singleton.mp hm]
      exact hne

/-- Tokens that are read to their end close what is open. -/
theorem surplus_of_forms_eq_ok {last : Position} {ls : List Lexeme} {vs : List Value}
    (h : forms [] last ls = .ok vs) :
    surplus ls = 0 ∧ ∀ lexeme ∈ ls, lexeme.token ≠ .unterminatedString := by
  obtain ⟨hcount, hstrings⟩ := stackAfter_brackets (stackAfter_of_forms_ok h)
  exact ⟨hcount.symm, hstrings⟩

/-- Tokens that end within a bracket have left one open. -/
theorem surplus_of_forms_unterminated {last p : Position} {ls : List Lexeme} {b : Bracket}
    (h : forms [] last ls = .error (.reader (.unterminated b) p)) : 0 < surplus ls := by
  cases fails_of_forms h with
  | refused _ _ hreason => cases hreason
  | within hrun =>
    have hcount := (stackAfter_brackets hrun).1
    rw [brackets_bracket] at hcount
    omega

end Reader

/-! ## Entries and texts -/

/-- What a text that only lacks its end is refused with. -/
def unterminatedMessages : List String :=
  ["unterminated list", "unterminated vector", "unterminated map", "unterminated string"]

theorem ReadFault.unterminated_of_message {fault : ReadFault}
    (h : fault.message ∈ unterminatedMessages) :
    (∃ b, fault = .unterminated b) ∨ fault = .unterminatedString := by
  cases fault with
  | unterminated b => exact Or.inl ⟨b, rfl⟩
  | unterminatedString => exact Or.inr rfl
  | badKey kind => cases kind <;> exact absurd h (by decide)
  | _ => exact absurd h (by decide)

/-- An entry that is withheld could not be read, and an entry that is handed on is not refused for
want of its end. -/
theorem isBalanced_agrees_with_readAll (s : String) :
    (Program.isBalanced s = false → ∃ e, readAll s = .error e) ∧
    (Program.isBalanced s = true → ∀ fault p, readAll s = .error (.reader fault p) →
      fault.message ∉ unterminatedMessages) := by
  refine ⟨fun hopen => ?_, fun hbalanced fault p hread hmessage => ?_⟩
  · cases hread : readAll s with
    | error e => exact ⟨e, rfl⟩
    | ok forms =>
      obtain ⟨hclosed, hstrings⟩ := Reader.surplus_of_forms_eq_ok hread
      have hbalanced : Program.isBalanced s = true :=
        (isBalanced_iff s).mpr ⟨Int.le_of_eq hclosed, hstrings⟩
      rw [hopen] at hbalanced
      cases hbalanced
  · obtain ⟨hclosed, hstrings⟩ := (isBalanced_iff s).mp hbalanced
    rcases ReadFault.unterminated_of_message hmessage with ⟨b, rfl⟩ | rfl
    · have hleft := Reader.surplus_of_forms_unterminated hread
      omega
    · exact hstrings _ (Reader.mem_of_unterminatedString hread) rfl

/-- A comment hides the closing bracket of the first entry; the second closes two brackets before it
opens two. -/
theorem isBalanced_agrees_with_readAll_hidden_closer :
    (Program.isBalanced "(a ;)\n" = false ∧ ∃ e, readAll "(a ;)\n" = .error e) ∧
    Program.isBalanced "\"\\\"\")) [(" = true ∧
      readAll "\"\\\"\")) [(" = .error (.reader .closingDelimiter ⟨1, 5⟩) ∧
      ReadFault.message .closingDelimiter ∉ unterminatedMessages := by
  have hopen : Program.isBalanced "(a ;)\n" = false := by decide
  have hbalanced : Program.isBalanced "\"\\\"\")) [(" = true := by decide
  have hread : readAll "\"\\\"\")) [(" = .error (.reader .closingDelimiter ⟨1, 5⟩) := by rfl
  exact ⟨⟨hopen, (isBalanced_agrees_with_readAll _).1 hopen⟩, hbalanced, hread,
    (isBalanced_agrees_with_readAll _).2 hbalanced _ _ hread⟩

end Lisp
