import Lisp.Double.Decimal
import Lisp.Value.Basic

/-!
What a word or a string literal stands for.
-/

namespace Lisp

namespace Text

/-- The text that a string literal denotes: a backslash before `n`, a quote or another backslash
is an escape, any other stands for itself. -/
def unescape : List Char → List Char
  | '\\' :: '\\' :: rest => '\\' :: unescape rest
  | '\\' :: '\x22' :: rest => '\x22' :: unescape rest
  | '\\' :: 'n' :: rest => '\n' :: unescape rest
  | '\\' :: c :: rest => '\\' :: c :: unescape rest
  | c :: rest => c :: unescape rest
  | [] => []

/-- A word that may be a number: it starts with a digit, or with a sign or point before a digit. -/
def looksNumeric : List Char → Bool
  | c :: rest =>
    c.isDigit || ((c = '+' || c = '-' || c = '.') && rest.head?.any Char.isDigit)
  | [] => false

end Text

namespace Value

/-- The value of a word: an integer of 64 bits, another number, a keyword, a constant, a symbol. -/
def ofWord (word : List Char) : Value :=
  match (Decimal.integer? word).bind int64? with
  | some n => int n
  | none =>
    match if Text.looksNumeric word then Decimal.ofChars? word else none with
    | some d => float d.toDouble
    | none =>
      match word with
      | ':' :: name => kw (String.ofList name)
      | ['t', 'r', 'u', 'e'] => bool true
      | ['f', 'a', 'l', 's', 'e'] => bool false
      | ['n', 'i', 'l'] => nil
      | _ => sym (String.ofList word)

end Value

end Lisp
