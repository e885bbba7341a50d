import Lisp.Token

/-!
# What the scanner makes of a text

A text in pieces is scanned piece by piece, as long as each piece is followed by something that ends
it: `Spells cs ts` says that the characters `cs` yield the tokens `ts` wherever they stand before a
delimiter or the end. Brackets, blanks, words and quoted strings are such pieces. Conversely every
word that the scanner finds has the characters of a word (`scan_proper`).
-/

namespace Lisp

open ScanMode

/-- The characters of the two brackets of a shape. -/
def Bracket.opener : Bracket → Char
  | round => '('
  | square => '['
  | curly => '\x7b'

def Bracket.closer : Bracket → Char
  | round => ')'
  | square => ']'
  | curly => '\x7d'

/-- A character that begins a word. -/
def beginsWord (c : Char) : Bool :=
  !isDelimiter c && !(['~', '@', '^'].contains c)

/-- The characters of a word. -/
def IsWord : List Char → Prop
  | [] => False
  | c :: rest => beginsWord c = true ∧ ∀ d ∈ rest, isDelimiter d = false

/-! ## One character -/

theorem scan_cons (mode : ScanMode) (p : Position) (c : Char) (rest : List Char) :
    scan mode p (c :: rest) =
      (mode.step p c).2 ++ scan (mode.step p c).1 (p.advance c) rest := by
  rw [scan]
  split
  · next next h => rw [h, List.nil_append]
  · next next ended _ h => rw [h]

/-! ## Places -/

def Lexeme.move (f : Position → Position) (lexeme : Lexeme) : Lexeme :=
  { lexeme with position := f lexeme.position }

/-- The mode, with the place where the unfinished token began moved. -/
def ScanMode.move (f : Position → Position) : ScanMode → ScanMode
  | between => between
  | tilde start => tilde (f start)
  | comment => comment
  | string start body escaped => string (f start) body escaped
  | word start text => word (f start) text

theorem begin_move (f : Position → Position) (p : Position) (c : Char) :
    begin (f p) c = ((begin p c).1.move f, (begin p c).2.map (Lexeme.move f)) := by
  fun_cases begin p c <;> simp_all [begin, ScanMode.move, Lexeme.move]

/-- Places are only passed on: the scanner does the same wherever it is. -/
theorem step_move (f : Position → Position) (mode : ScanMode) (p : Position) (c : Char) :
    (mode.move f).step (f p) c =
      ((mode.step p c).1.move f, (mode.step p c).2.map (Lexeme.move f)) := by
  have hbegin := begin_move f p c
  cases mode with
  | between => exact hbegin
  | tilde start =>
    by_cases hat : c = '@'
    · simp [step, ScanMode.move, Lexeme.move, hat]
    · simp only [step, ScanMode.move.eq_2, if_neg hat, hbegin]
      rfl
  | comment => by_cases hend : c = '\n' <;> simp [step, ScanMode.move, hend]
  | string start body escaped =>
    cases escaped with
    | true => rfl
    | false => by_cases hquote : c = '\x22' <;> simp [step, ScanMode.move, Lexeme.move, hquote]
  | word start text =>
    cases hend : isDelimiter c with
    | true =>
      simp only [step, ScanMode.move.eq_5, hend, ↓reduceIte, hbegin]
      rfl
    | false => simp [step, ScanMode.move, hend]

theorem scan_move {f : Position → Position}
    (hf : ∀ p c, f (Position.advance p c) = (f p).advance c) (mode : ScanMode) (p : Position)
    (cs : List Char) : scan (mode.move f) (f p) cs = (scan mode p cs).map (Lexeme.move f) := by
  induction cs generalizing mode p with
  | nil => cases mode <;> rfl
  | cons c cs ih => rw [scan_cons, scan_cons, step_move, List.map_append, ← ih, hf]

/-! ## Words -/

theorem begin_word {c : Char} (h : beginsWord c = true) (p : Position) :
    begin p c = (.word p [c], []) := by
  simp only [beginsWord, isDelimiter, Bool.and_eq_true, Bool.not_eq_eq_eq_not, Bool.not_true,
    Bool.or_eq_false_iff, List.contains_eq_mem, List.mem_cons, List.not_mem_nil, or_false,
    decide_eq_false_iff_not, not_or] at h
  simp [begin, h]

/-- A word is begun by no other character. -/
theorem beginsWord_of_begin {c : Char} {p start : Position} {text : List Char}
    (h : (begin p c).1 = .word start text) : beginsWord c = true ∧ text = [c] := by
  fun_cases begin p c with
  | case15 => simp_all [begin, beginsWord, isDelimiter]
  | _ => simp_all [begin]

theorem begin_ended {c : Char} {p : Position} {lexeme : Lexeme} (h : lexeme ∈ (begin p c).2)
    (text : String) : lexeme.token ≠ .word text := by
  fun_cases begin p c <;> simp_all [begin]

/-! ## Words that are found -/

/-- The word that is being scanned has the characters of one. -/
def ScanMode.Proper : ScanMode → Prop
  | .word _ text => IsWord text.reverse
  | _ => True

theorem begin_proper (p : Position) (c : Char) : (begin p c).1.Proper := by
  cases h : (begin p c).1 with
  | word start text =>
    obtain ⟨hc, rfl⟩ := beginsWord_of_begin h
    exact ⟨hc, fun _ hd => absurd hd List.not_mem_nil⟩
  | _ => trivial

theorem isWord_snoc {cs : List Char} {c : Char} (h : IsWord cs) (hc : isDelimiter c = false) :
    IsWord (cs ++ [c]) := by
  cases cs with
  | nil => exact h.elim
  | cons d rest =>
    refine ⟨h.1, ?_⟩
    intro e he
    rcases List.mem_append.mp he with he | he
    · exact h.2 e he
    · rw [List.mem_singleton.mp he]
      exact hc

theorem step_proper {mode : ScanMode} (h : mode.Proper) (p : Position) (c : Char) :
    (mode.step p c).1.Proper := by
  cases mode with
  | between => exact begin_proper p c
  | tilde start =>
    simp only [step]
    split
    · trivial
    · exact begin_proper p c
  | comment =>
    simp only [step]
    split <;> trivial
  | string start body escaped =>
    cases escaped with
    | true => trivial
    | false =>
      simp only [step]
      split <;> trivial
  | word start text =>
    simp only [step]
    split
    · exact begin_proper p c
    · next hc =>
      simp only [ScanMode.Proper, List.reverse_cons]
      exact isWord_snoc h (by simpa using hc)

/-- A word that ends has the characters of one. -/
theorem step_ended {mode : ScanMode} (h : mode.Proper) {p : Position} {c : Char} {lexeme : Lexeme}
    (hm : lexeme ∈ (mode.step p c).2) {text : String} (ht : lexeme.token = .word text) :
    IsWord text.toList := by
  cases mode with
  | between => exact absurd ht (begin_ended hm text)
  | tilde start =>
    simp only [step] at hm
    split at hm
    · simp_all
    · rcases List.mem_cons.mp hm with rfl | hm
      · cases ht
      · exact absurd ht (begin_ended hm text)
  | comment => simp [step] at hm
  | string start body escaped =>
    cases escaped with
    | true => simp [step] at hm
    | false =>
      simp only [step] at hm
      split at hm <;> simp_all
  | word start letters =>
    simp only [step] at hm
    split at hm
    · rcases List.mem_cons.mp hm with rfl | hm
      · cases ht
        simpa [ScanMode.Proper] using h
      · exact absurd ht (begin_ended hm text)
    · simp at hm

theorem scan_proper {mode : ScanMode} (h : mode.Proper) {p : Position} {cs : List Char}
    {lexeme : Lexeme} (hm : lexeme ∈ scan mode p cs) {text : String}
    (ht : lexeme.token = .word text) : IsWord text.toList := by
  induction cs generalizing mode p with
  | nil =>
    cases mode with
    | word start letters =>
      simp only [scan, finish, List.mem_singleton] at hm
      subst hm
      cases ht
      simpa [ScanMode.Proper] using h
    | _ => simp_all [scan, finish]
  | cons c cs ih =>
    rw [scan_cons] at hm
    rcases List.mem_append.mp hm with hm | hm
    · exact step_ended h hm ht
    · exact ih (step_proper h p c) hm

/-- Every word of a text has the characters of a word. -/
theorem tokenize_proper {source : String} {text : String}
    (h : .word text ∈ (tokenize source).map Lexeme.token) : IsWord text.toList := by
  obtain ⟨lexeme, hm, ht⟩ := List.mem_map.mp h
  have hproper : ScanMode.Proper .between := trivial
  exact scan_proper hproper hm ht

/-! ## Pieces of a text -/

/-- A text that ends a word before it. -/
def Boundary : List Char → Prop
  | [] => True
  | c :: _ => isDelimiter c = true

/-- The characters `cs` yield the tokens `ts`, whatever follows, if only it ends a word. -/
def Spells (cs : List Char) (ts : List Token) : Prop :=
  ∀ p rest, Boundary rest → ∃ p', (scan .between p (cs ++ rest)).map Lexeme.token =
    ts ++ (scan .between p' rest).map Lexeme.token

theorem spells_nil : Spells [] [] :=
  fun p _ _ => ⟨p, rfl⟩

/-- A text that is spelt has these tokens. -/
theorem Spells.tokenize_eq {cs : List Char} {ts : List Token} (h : Spells cs ts) :
    (tokenize (String.ofList cs)).map Lexeme.token = ts := by
  obtain ⟨p, hp⟩ := h {} [] trivial
  simpa [tokenize, scan, finish] using hp

theorem Spells.space {cs ds : List Char} {ts us : List Token} (hc : Spells cs ts)
    (hd : Spells ds us) : Spells (cs ++ ' ' :: ds) (ts ++ us) := by
  intro p rest hrest
  have hend : isDelimiter ' ' = true := by decide
  obtain ⟨p₁, h₁⟩ := hc p (' ' :: (ds ++ rest)) hend
  obtain ⟨p₂, h₂⟩ := hd (p₁.advance ' ') rest hrest
  refine ⟨p₂, ?_⟩
  have hblank : step p₁ ' ' .between = (.between, []) := rfl
  rw [List.append_assoc, List.cons_append, h₁, scan_cons, hblank, List.nil_append, h₂,
    List.append_assoc]

theorem step_opener (p : Position) (b : Bracket) :
    step p b.opener .between = (.between, [⟨.opening b, p⟩]) := by
  cases b <;> rfl

theorem step_closer (p : Position) (b : Bracket) :
    step p b.closer .between = (.between, [⟨.closing b, p⟩]) := by
  cases b <;> rfl

theorem Spells.bracketed {cs : List Char} {ts : List Token} (h : Spells cs ts) (b : Bracket) :
    Spells (b.opener :: (cs ++ [b.closer])) (.opening b :: (ts ++ [.closing b])) := by
  intro p rest _
  have hend : isDelimiter b.closer = true := by cases b <;> decide
  obtain ⟨p', h'⟩ := h (p.advance b.opener) (b.closer :: rest) hend
  refine ⟨p'.advance b.closer, ?_⟩
  rw [List.cons_append, List.append_assoc, scan_cons, step_opener, List.singleton_append,
    List.map_cons, List.singleton_append, h', scan_cons, step_closer]
  simp

/-- The rest of a word is scanned up to the delimiter that ends it. -/
theorem scan_word {cs rest : List Char} (hcs : ∀ d ∈ cs, isDelimiter d = false)
    (hrest : Boundary rest) (start p : Position) (seen : List Char) :
    scan (.word start seen) p (cs ++ rest) =
      ⟨.word (String.ofList (seen.reverse ++ cs)), start⟩ ::
        scan .between (cs.foldl Position.advance p) rest := by
  induction cs generalizing p seen with
  | nil =>
    rw [List.nil_append, List.append_nil, List.foldl_nil]
    cases rest with
    | nil => rfl
    | cons c rest =>
      have hc : isDelimiter c = true := hrest
      have hstep : step p c (.word start seen) =
          ((begin p c).1, ⟨.word (String.ofList seen.reverse), start⟩ :: (begin p c).2) := if_pos hc
      rw [scan_cons, scan_cons, hstep]
      rfl
  | cons c cs ih =>
    obtain ⟨hc, hcs⟩ := List.forall_mem_cons.mp hcs
    have hstep : step p c (.word start seen) = (.word start (c :: seen), []) := by simp [step, hc]
    rw [List.cons_append, scan_cons, hstep, List.nil_append, ih hcs, List.foldl_cons,
      List.reverse_cons, List.append_assoc, List.singleton_append]

/-- The characters between the quotes of a string: a backslash goes together with the character
after it, and no other character is a quote. -/
inductive StringBody : List Char → Prop
  | nil : StringBody []
  | plain {c : Char} {cs : List Char} : c ≠ '\x22' → c ≠ '\\' → StringBody cs → StringBody (c :: cs)
  | escaped {cs : List Char} (c : Char) : StringBody cs → StringBody ('\\' :: c :: cs)

/-- What is quoted is a body: the quotes in it are escaped. -/
theorem stringBody_escape (cs : List Char) : StringBody (Text.escape cs) := by
  fun_induction Text.escape cs with
  | case1 => exact .nil
  | case2 cs ih => exact .escaped _ ih
  | case3 cs ih => exact .escaped _ ih
  | case4 cs ih => exact .escaped _ ih
  | case5 c cs hslash hquote _ ih => exact .plain hquote hslash ih

/-- The body of a string is scanned up to what follows it. -/
theorem scan_stringBody {body : List Char} (h : StringBody body) (start p : Position)
    (seen rest : List Char) :
    scan (.string start seen false) p (body ++ rest) =
      scan (.string start (body.reverse ++ seen) false) (body.foldl Position.advance p) rest := by
  induction h generalizing p seen with
  | nil => rfl
  | @plain c cs hquote hslash _ ih =>
    have hstep : step p c (.string start seen false) = (.string start (c :: seen) false, []) := by
      simp [step, hquote, hslash]
    rw [List.cons_append, scan_cons, hstep, List.nil_append, ih, List.foldl_cons, List.reverse_cons,
      List.append_assoc, List.singleton_append]
  | @escaped cs c _ ih =>
    have hslash : step p '\\' (.string start seen false) =
        (.string start ('\\' :: seen) true, []) := rfl
    have hnext : ∀ q, step q c (.string start ('\\' :: seen) true) =
        (.string start (c :: '\\' :: seen) false, []) := fun _ => rfl
    rw [List.cons_append, List.cons_append, scan_cons, hslash, scan_cons, hnext, List.nil_append,
      List.nil_append, ih]
    simp

/-- A string is scanned up to the quote after its body. -/
theorem scan_string {body : List Char} (h : StringBody body) (p : Position) (rest : List Char) :
    scan .between p ('\x22' :: (body ++ ['\x22']) ++ rest) =
      ⟨.string (String.ofList body), p⟩ ::
        scan .between (('\x22' :: (body ++ ['\x22'])).foldl Position.advance p) rest := by
  have hstart : step p '\x22' .between = (.string p [] false, []) := rfl
  have hend : ∀ q, step q '\x22' (.string p (body.reverse ++ []) false) =
      (.between, [⟨.string (String.ofList body), p⟩]) := by
    intro q
    simp [step]
  rw [List.cons_append, List.append_assoc, scan_cons, hstart, List.nil_append, scan_stringBody h,
    List.singleton_append, scan_cons, hend, List.singleton_append, List.foldl_cons,
    List.foldl_append]
  rfl

theorem spells_quoted (cs : List Char) :
    Spells ('\x22' :: (Text.escape cs ++ ['\x22'])) [.string (String.ofList (Text.escape cs))] := by
  intro p rest _
  rw [scan_string (stringBody_escape cs)]
  exact ⟨_, rfl⟩

theorem IsWord.spells {cs : List Char} (h : IsWord cs) :
    Spells cs [.word (String.ofList cs)] := by
  cases cs with
  | nil => exact h.elim
  | cons c cs =>
    intro p rest hrest
    have hstep : step p c .between = (.word p [c], []) := begin_word h.1 p
    rw [List.cons_append, scan_cons, hstep, List.nil_append, scan_word h.2 hrest]
    exact ⟨_, rfl⟩

end Lisp
