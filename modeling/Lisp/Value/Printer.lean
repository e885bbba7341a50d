import Lisp.Double.Decimal
import Lisp.Value.Basic

/-!
The text of a value. Strings are written out or, in the readable style, quoted so that they read
back. An atom shows the contents of its cell, unless that cell is already being shown around it.
-/

namespace Lisp

inductive Style where
  | display
  | readable
deriving DecidableEq, Repr

namespace Text

def escape : List Char → List Char
  | [] => []
  | '\\' :: rest => '\\' :: '\\' :: escape rest
  | '\x22' :: rest => '\\' :: '\x22' :: escape rest
  | '\n' :: rest => '\\' :: 'n' :: escape rest
  | c :: rest => c :: escape rest

def quoted (s : String) : String :=
  String.ofList ('\x22' :: escape s.toList ++ ['\x22'])

def bracketed (opening closing : String) (parts : List String) : String :=
  opening ++ " ".intercalate parts ++ closing

end Text

namespace Value

/-- Entries by the text of their keys, in the order of code points. -/
def sortByKey {α : Type} (entries : List (String × α)) : List (String × α) :=
  entries.mergeSort fun a b => decide (a.1 ≤ b.1)

def unexpandedAtom (id : Nat) : String :=
  "(atom #<" ++ toString id ++ ">)"

mutual

/-- The text of a value, given the text of each atom. Keys of maps are always readable. -/
def render (atomText : Style → Nat → String) (style : Style) : Value → String
  | nil => "nil"
  | bool b => if b then "true" else "false"
  | int n => toString n.toInt
  | float x => x.text
  | str s => match style with
    | .display => s
    | .readable => Text.quoted s
  | sym name => name
  | kw name => ":" ++ name
  | list _ items => Text.bracketed "(" ")" (renderAll atomText style items)
  | vec _ items => Text.bracketed "[" "]" (renderAll atomText style items)
  | map _ entries =>
    let sorted := sortByKey (renderEntries atomText style entries)
    Text.bracketed "\x7b" "\x7d" (sorted.map fun entry => entry.1 ++ " " ++ entry.2)
  | atom id => atomText style id
  | builtin _ => "#<function>"
  | host _ _ => "#<function>"
  | closure _ _ _ _ => "#<function>"

def renderAll (atomText : Style → Nat → String) (style : Style) : List Value → List String
  | [] => []
  | v :: rest => render atomText style v :: renderAll atomText style rest

def renderEntries (atomText : Style → Nat → String) (style : Style) :
    List (Value × Value) → List (String × String)
  | [] => []
  | (k, v) :: rest =>
    (render atomText .readable k, render atomText style v) :: renderEntries atomText style rest

end

/-- The text of an atom within the texts of the `active` cells, at most `depth` cells further
down. -/
def atomText (cells : Array Value) : Nat → List Nat → Style → Nat → String
  | 0, _, _, id => unexpandedAtom id
  | depth + 1, active, style, id =>
    if active.contains id then unexpandedAtom id
    else match cells[id]? with
      | none => unexpandedAtom id
      | some contents =>
        "(atom " ++ render (atomText cells depth (id :: active)) style contents ++ ")"

/-- The text of a value whose atoms are those of `cells`: no chain of different cells is longer
than there are cells, so the depth never cuts a text short. -/
def text (cells : Array Value) (style : Style) (v : Value) : String :=
  render (atomText cells cells.size []) style v

/-- The readable text of a value by itself, in which atoms stay closed. -/
def closedText (v : Value) : String :=
  render (fun _ => unexpandedAtom) .readable v

end Value

end Lisp
