import Lisp.Reader.Word
import Lisp.Token
import Lisp.Value.Table

/-!
Forms of a token list. The reader is a pushdown machine: its stack holds the forms that are begun
and not yet ended, innermost first, so the height of the stack is the nesting depth.
-/

namespace Lisp

/-- A form that is begun: a bracket with its elements so far, last first, or a mark. -/
inductive OpenForm where
  | bracket (bracket : Bracket) (start : Position) (items : List Value)
  | mark (mark : Mark)

namespace Reader

/-- How deep forms may nest. -/
def maxNesting : Nat := 1000

/-- After a token either a whole form has been read, or some form is still open. -/
inductive Progress where
  | whole (form : Value)
  | partly (stack : List OpenForm)

/-- Hands a whole form to the form around it. -/
def deliver (v : Value) : List OpenForm → Progress
  | [] => .whole v
  | .mark m :: stack => deliver (.list none [.sym m.symbol, v]) stack
  | .bracket b start items :: stack => .partly (.bracket b start (v :: items) :: stack)

/-- The value of a bracketed form. -/
def close (start : Position) (items : List Value) : Bracket → Except Error Value
  | .round => .ok (.list none items)
  | .square => .ok (.vec none items)
  | .curly =>
    match Table.insertPairs [] items with
    | .ok entries => .ok (.map none entries)
    | .error .unpaired => .error (.reader .unpairedMap start)
    | .error (.badKey kind) => .error (.reader (.badKey kind) start)

/-- A token that begins a form. -/
def start (stack : List OpenForm) (lexeme : Lexeme) : Except Error Progress :=
  if maxNesting ≤ stack.length then .error (.reader .nestingTooDeep lexeme.position)
  else match lexeme.token with
    | .opening b => .ok (.partly (.bracket b lexeme.position [] :: stack))
    | .mark m => .ok (.partly (.mark m :: stack))
    | .string body => .ok (deliver (.str (String.ofList (Text.unescape body.toList))) stack)
    | .word text => .ok (deliver (.ofWord text.toList) stack)
    | .closing _ => .error (.reader .closingDelimiter lexeme.position)
    | .caret => .error (.reader .metadata lexeme.position)
    | .unterminatedString => .error (.reader .unterminatedString lexeme.position)

/-- A token ends the innermost bracket, or else begins a form. -/
def feed (stack : List OpenForm) (lexeme : Lexeme) : Except Error Progress :=
  match stack, lexeme.token with
  | .bracket b p items :: outer, .closing c =>
    if b = c then (close p items.reverse b).map (deliver · outer) else start stack lexeme
  | _, _ => start stack lexeme

/-- The error of a text that ends within forms, given the place of its last token. -/
def unfinished (last : Position) : List OpenForm → Error
  | .bracket b p _ :: _ => .reader (.unterminated b) p
  | stack => .reader (if maxNesting ≤ stack.length then .nestingTooDeep else .endOfInput) last

/-- All the forms of a token list, after those open on the stack. -/
def forms (stack : List OpenForm) (last : Position) : List Lexeme → Except Error (List Value)
  | [] => if stack.isEmpty then .ok [] else .error (unfinished last stack)
  | lexeme :: rest =>
    match feed stack lexeme with
    | .error e => .error e
    | .ok (.partly stack') => forms stack' lexeme.position rest
    | .ok (.whole v) => (forms [] lexeme.position rest).map (v :: ·)

/-- The only form of a token list, `nil` if there are no tokens. -/
def form (stack : List OpenForm) (last : Position) : List Lexeme → Except Error Value
  | [] => if stack.isEmpty then .ok .nil else .error (unfinished last stack)
  | lexeme :: rest =>
    match feed stack lexeme with
    | .error e => .error e
    | .ok (.partly stack') => form stack' lexeme.position rest
    | .ok (.whole v) =>
      match rest with
      | [] => .ok v
      | extra :: _ => .error (.reader .trailingInput extra.position)

end Reader

/-- Reads a text that holds one form; a blank text reads as `nil`. -/
def read (source : String) : Except Error Value :=
  Reader.form [] {} (tokenize source)

/-- Reads every form of a text. -/
def readAll (source : String) : Except Error (List Value) :=
  Reader.forms [] {} (tokenize source)

end Lisp
