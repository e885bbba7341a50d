import Lisp.Builtin.Basic
import Lisp.Double.Basic

/-!
The values of the language, their kinds, and views of them.
-/

namespace Lisp

/-- The number of a list, vector or map that a running program has made, which tells it from every
other one; source text holds plain ones. -/
abbrev ObjectId := Option Nat

/-- Code and data alike. A map is its entries in the order of their keys, which is one choice: the
language leaves the order of entries open, and another map with the same entries may have another
one. An atom is the number of its cell, and a closure names the frame it was made in. -/
inductive Value where
  | nil
  | bool (b : Bool)
  | int (n : Int64)
  | float (x : Double)
  | str (s : String)
  | sym (name : String)
  | kw (name : String)
  | list (id : ObjectId) (items : List Value)
  | vec (id : ObjectId) (items : List Value)
  | map (id : ObjectId) (entries : List (Value × Value))
  | atom (id : Nat)
  | builtin (b : Builtin)
  | host (name : String) (id : Nat)
  | closure (params : List Value) (body : Value) (scope : Nat) (isMacro : Bool)
deriving Inhabited

inductive Kind where
  | nil | boolean | integer | float | string | symbol | keyword | list | vector | hashMap | atom
  | function | expander
deriving DecidableEq, Repr

def Kind.text : Kind → String
  | nil => "nil"
  | boolean => "boolean"
  | integer => "integer"
  | float => "float"
  | string => "string"
  | symbol => "symbol"
  | keyword => "keyword"
  | list => "list"
  | vector => "vector"
  | hashMap => "hash-map"
  | atom => "atom"
  | function => "function"
  | expander => "macro"

namespace Value

def kind : Value → Kind
  | nil => .nil
  | bool _ => .boolean
  | int _ => .integer
  | float _ => .float
  | str _ => .string
  | sym _ => .symbol
  | kw _ => .keyword
  | list _ _ => .list
  | vec _ _ => .vector
  | map _ _ => .hashMap
  | atom _ => .atom
  | builtin _ => .function
  | host _ _ => .function
  | closure _ _ _ isMacro => if isMacro then .expander else .function

/-- All values but `nil` and `false` count as true. -/
def isTruthy : Value → Bool
  | nil => false
  | bool b => b
  | _ => true

def isNil : Value → Bool
  | nil => true
  | _ => false

def isFunction : Value → Bool
  | builtin _ => true
  | host _ _ => true
  | closure _ _ _ isMacro => !isMacro
  | _ => false

def isMacro : Value → Bool
  | closure _ _ _ isMacro => isMacro
  | _ => false

/-- Strings and keywords may be keys of a map. -/
def isKey : Value → Bool
  | str _ => true
  | kw _ => true
  | _ => false

def int? : Value → Option Int64
  | int n => some n
  | _ => none

/-- The number that a float is, or that an integer is nearest to. -/
def number? : Value → Option Double
  | float x => some x
  | int n => some (Double.ofInt n.toInt)
  | _ => none

def str? : Value → Option String
  | str s => some s
  | _ => none

def sym? : Value → Option String
  | sym name => some name
  | _ => none

def list? : Value → Option (List Value)
  | list _ items => some items
  | _ => none

/-- The elements of a list or vector. -/
def seq? : Value → Option (List Value)
  | list _ items => some items
  | vec _ items => some items
  | _ => none

def map? : Value → Option (List (Value × Value))
  | map _ entries => some entries
  | _ => none

def atom? : Value → Option Nat
  | atom id => some id
  | _ => none

/-- Gives a plain list, vector or map the number of an object. -/
def identify (id : Nat) : Value → Value
  | list none items => list (some id) items
  | vec none items => vec (some id) items
  | map none entries => map (some id) entries
  | v => v

end Value

/-- The integer of a value within 64 bits. -/
def int64? (n : Int) : Option Int64 :=
  if Int64.minValue.toInt ≤ n ∧ n ≤ Int64.maxValue.toInt then some (Int64.ofInt n) else none

end Lisp
