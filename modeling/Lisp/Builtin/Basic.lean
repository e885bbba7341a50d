/-!
The functions a program finds at the start, grouped by what they work on, with their names and the
numbers of arguments they take.
-/

namespace Lisp

/-- The numbers of arguments a function takes. -/
inductive Arity where
  | exactly (n : Nat)
  | atLeast (n : Nat)
  | either (n m : Nat)
deriving DecidableEq, Repr

namespace Arity

def admits : Arity → Nat → Bool
  | exactly n, got => got = n
  | atLeast n, got => n ≤ got
  | either n m, got => got = n || got = m

def text : Arity → String
  | exactly n => toString n
  | atLeast n => toString n ++ "+"
  | either n m => toString n ++ " or " ++ toString m

end Arity

structure Signature where
  name : String
  arity : Arity
deriving DecidableEq, Repr

inductive Arithmetic where
  | add | sub | mul | div
deriving DecidableEq, Repr

def Arithmetic.signature : Arithmetic → Signature
  | add => ⟨"+", .atLeast 0⟩
  | sub => ⟨"-", .atLeast 2⟩
  | mul => ⟨"*", .atLeast 0⟩
  | div => ⟨"/", .atLeast 1⟩

inductive Comparison where
  | lt | gt | le | ge | equal
deriving DecidableEq, Repr

def Comparison.signature : Comparison → Signature
  | lt => ⟨"<", .exactly 2⟩
  | gt => ⟨">", .exactly 2⟩
  | le => ⟨"<=", .exactly 2⟩
  | ge => ⟨">=", .exactly 2⟩
  | equal => ⟨"=", .exactly 2⟩

inductive Predicate where
  | isNil | isTrue | isFalse | isSymbol | isKeyword | isString | isNumber | isList | isVector
  | isMap | isSequential | isAtom | isFunction | isMacro
deriving DecidableEq, Repr

def Predicate.signature : Predicate → Signature
  | isNil => ⟨"nil?", .exactly 1⟩
  | isTrue => ⟨"true?", .exactly 1⟩
  | isFalse => ⟨"false?", .exactly 1⟩
  | isSymbol => ⟨"symbol?", .exactly 1⟩
  | isKeyword => ⟨"keyword?", .exactly 1⟩
  | isString => ⟨"string?", .exactly 1⟩
  | isNumber => ⟨"number?", .exactly 1⟩
  | isList => ⟨"list?", .exactly 1⟩
  | isVector => ⟨"vector?", .exactly 1⟩
  | isMap => ⟨"map?", .exactly 1⟩
  | isSequential => ⟨"sequential?", .exactly 1⟩
  | isAtom => ⟨"atom?", .exactly 1⟩
  | isFunction => ⟨"fn?", .exactly 1⟩
  | isMacro => ⟨"macro?", .exactly 1⟩

inductive SequenceOp where
  | list | vector | vec | isEmpty | count | cons | concat | nth | first | rest
deriving DecidableEq, Repr

def SequenceOp.signature : SequenceOp → Signature
  | list => ⟨"list", .atLeast 0⟩
  | vector => ⟨"vector", .atLeast 0⟩
  | vec => ⟨"vec", .exactly 1⟩
  | isEmpty => ⟨"empty?", .exactly 1⟩
  | count => ⟨"count", .exactly 1⟩
  | cons => ⟨"cons", .exactly 2⟩
  | concat => ⟨"concat", .atLeast 0⟩
  | nth => ⟨"nth", .exactly 2⟩
  | first => ⟨"first", .exactly 1⟩
  | rest => ⟨"rest", .exactly 1⟩

inductive TableOp where
  | hashMap | assoc | dissoc | get | contains | keys | vals
deriving DecidableEq, Repr

def TableOp.signature : TableOp → Signature
  | hashMap => ⟨"hash-map", .atLeast 0⟩
  | assoc => ⟨"assoc", .atLeast 1⟩
  | dissoc => ⟨"dissoc", .atLeast 1⟩
  | get => ⟨"get", .exactly 2⟩
  | contains => ⟨"contains?", .exactly 2⟩
  | keys => ⟨"keys", .exactly 1⟩
  | vals => ⟨"vals", .exactly 1⟩

inductive TextOp where
  | str | prStr | readString | symbol | keyword
deriving DecidableEq, Repr

def TextOp.signature : TextOp → Signature
  | str => ⟨"str", .atLeast 0⟩
  | prStr => ⟨"pr-str", .atLeast 0⟩
  | readString => ⟨"read-string", .exactly 1⟩
  | symbol => ⟨"symbol", .exactly 1⟩
  | keyword => ⟨"keyword", .exactly 1⟩

inductive CellOp where
  | atom | deref | reset
deriving DecidableEq, Repr

def CellOp.signature : CellOp → Signature
  | atom => ⟨"atom", .exactly 1⟩
  | deref => ⟨"deref", .exactly 1⟩
  | reset => ⟨"reset!", .exactly 2⟩

inductive ConsoleOp where
  | prn | println | slurp | readline | timeMs
deriving DecidableEq, Repr

def ConsoleOp.signature : ConsoleOp → Signature
  | prn => ⟨"prn", .atLeast 0⟩
  | println => ⟨"println", .atLeast 0⟩
  | slurp => ⟨"slurp", .exactly 1⟩
  | readline => ⟨"readline", .exactly 1⟩
  | timeMs => ⟨"time-ms", .exactly 0⟩

inductive ControlOp where
  | throw | eval | map | apply | swap
deriving DecidableEq, Repr

def ControlOp.signature : ControlOp → Signature
  | throw => ⟨"throw", .exactly 1⟩
  | eval => ⟨"eval", .exactly 1⟩
  | map => ⟨"map", .exactly 2⟩
  | apply => ⟨"apply", .atLeast 2⟩
  | swap => ⟨"swap!", .atLeast 2⟩

inductive Builtin where
  | arithmetic (op : Arithmetic)
  | comparison (op : Comparison)
  | predicate (op : Predicate)
  | sequence (op : SequenceOp)
  | table (op : TableOp)
  | text (op : TextOp)
  | cell (op : CellOp)
  | console (op : ConsoleOp)
  | control (op : ControlOp)
deriving DecidableEq, Repr

namespace Builtin

def signature : Builtin → Signature
  | arithmetic op => op.signature
  | comparison op => op.signature
  | predicate op => op.signature
  | sequence op => op.signature
  | table op => op.signature
  | text op => op.signature
  | cell op => op.signature
  | console op => op.signature
  | control op => op.signature

def name (b : Builtin) : String :=
  b.signature.name

def all : List Builtin :=
  [.add, .sub, .mul, .div].map arithmetic
  ++ [.lt, .gt, .le, .ge, .equal].map comparison
  ++ [.list, .vector, .vec, .isEmpty, .count, .cons, .concat, .nth, .first, .rest].map sequence
  ++ [.isNil, .isTrue, .isFalse, .isSymbol, .isKeyword, .isString, .isNumber, .isList, .isVector,
    .isMap, .isSequential, .isAtom, .isFunction, .isMacro].map predicate
  ++ [.hashMap, .assoc, .dissoc, .get, .contains, .keys, .vals].map table
  ++ [.str, .prStr, .readString, .symbol, .keyword].map text
  ++ [.prn, .println, .slurp, .readline, .timeMs].map console
  ++ [.atom, .deref, .reset].map cell
  ++ [.throw, .eval, .map, .apply, .swap].map control

def ofName? (name : String) : Option Builtin :=
  all.find? fun b => b.name == name

end Builtin

end Lisp
