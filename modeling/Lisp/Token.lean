import Lisp.Error
import Lisp.Text.Blank

/-!
Tokens of a source text. The scanner is a machine that goes over the text one character at a time;
what it has seen of an unfinished token is its mode, and each character yields the tokens it ends.
-/

namespace Lisp

/-- A mark before a form that stands for a two-element list. -/
inductive Mark where
  | quote
  | quasiquote
  | unquote
  | spliceUnquote
  | deref
deriving DecidableEq, Repr

/-- The symbol at the head of the list. -/
def Mark.symbol : Mark → String
  | quote => "quote"
  | quasiquote => "quasiquote"
  | unquote => "unquote"
  | spliceUnquote => "splice-unquote"
  | deref => "deref"

/-- A string keeps its escapes; a word is any other run of characters: a number, a keyword,
a symbol. -/
inductive Token where
  | opening (bracket : Bracket)
  | closing (bracket : Bracket)
  | mark (mark : Mark)
  | caret
  | string (body : String)
  | unterminatedString
  | word (text : String)
deriving DecidableEq, Repr

/-- A token and the place of its first character. -/
structure Lexeme where
  token : Token
  position : Position
deriving DecidableEq, Repr

/-- A character that ends a word. -/
def isDelimiter (c : Char) : Bool :=
  Text.isBlank c || [',', '[', ']', '\x7b', '\x7d', '(', ')', '\x27', '\x60',
    ';', '\x22'].contains c

/-- What the scanner has seen of an unfinished token, last character first, and where it began. -/
inductive ScanMode where
  | between
  | tilde (start : Position)
  | comment
  | string (start : Position) (body : List Char) (escaped : Bool)
  | word (start : Position) (text : List Char)
deriving DecidableEq, Repr

namespace ScanMode

/-- Goes on with a character that belongs to no unfinished token. -/
def begin (p : Position) (c : Char) : ScanMode × List Lexeme :=
  if c = '(' then (between, [⟨.opening .round, p⟩])
  else if c = ')' then (between, [⟨.closing .round, p⟩])
  else if c = '[' then (between, [⟨.opening .square, p⟩])
  else if c = ']' then (between, [⟨.closing .square, p⟩])
  else if c = '\x7b' then (between, [⟨.opening .curly, p⟩])
  else if c = '\x7d' then (between, [⟨.closing .curly, p⟩])
  else if c = '\x27' then (between, [⟨.mark .quote, p⟩])
  else if c = '\x60' then (between, [⟨.mark .quasiquote, p⟩])
  else if c = '@' then (between, [⟨.mark .deref, p⟩])
  else if c = '^' then (between, [⟨.caret, p⟩])
  else if c = '~' then (tilde p, [])
  else if c = '\x22' then (string p [] false, [])
  else if c = ';' then (comment, [])
  else if Text.isBlank c || c = ',' then (between, [])
  else (word p [c], [])

/-- The token that an unfinished one is when the text goes on with something else. -/
def finish : ScanMode → List Lexeme
  | between => []
  | tilde start => [⟨.mark .unquote, start⟩]
  | comment => []
  | string start _ _ => [⟨.unterminatedString, start⟩]
  | word start text => [⟨.word (String.ofList text.reverse), start⟩]

/-- The mode after a character at `p`, and the tokens that end there. -/
def step (p : Position) (c : Char) : ScanMode → ScanMode × List Lexeme
  | between => begin p c
  | tilde start =>
    if c = '@' then (between, [⟨.mark .spliceUnquote, start⟩])
    else ((begin p c).1, ⟨.mark .unquote, start⟩ :: (begin p c).2)
  | comment => (if c = '\n' then between else comment, [])
  | string start body true => (string start (c :: body) false, [])
  | string start body false =>
    if c = '\x22' then (between, [⟨.string (String.ofList body.reverse), start⟩])
    else (string start (c :: body) (c = '\\'), [])
  | word start text =>
    if isDelimiter c then
      ((begin p c).1, ⟨.word (String.ofList text.reverse), start⟩ :: (begin p c).2)
    else (word start (c :: text), [])

end ScanMode

/-- The tokens of a text that begins at `p`, after what `mode` has seen. -/
def scan (mode : ScanMode) (p : Position) : List Char → List Lexeme
  | [] => mode.finish
  | c :: rest =>
    match mode.step p c with
    | (next, []) => scan next (p.advance c) rest
    | (next, ended) => ended ++ scan next (p.advance c) rest

def tokenize (source : String) : List Lexeme :=
  scan .between {} source.toList

end Lisp
