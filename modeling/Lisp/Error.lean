import Lisp.Text.Position
import Lisp.Value.Printer

/-!
What can go wrong in reading and running a program, and how it is worded.
-/

namespace Lisp

inductive Bracket where
  | round
  | square
  | curly
deriving DecidableEq, Repr

/-- What a bracketed form of each shape is called. -/
def Bracket.text : Bracket → String
  | round => "list"
  | square => "vector"
  | curly => "map"

inductive ReadFault where
  | nestingTooDeep
  | endOfInput
  | unterminated (bracket : Bracket)
  | unterminatedString
  | metadata
  | closingDelimiter
  | unpairedMap
  | badKey (kind : Kind)
  | trailingInput
deriving DecidableEq, Repr

def ReadFault.message : ReadFault → String
  | nestingTooDeep => "nesting too deep"
  | endOfInput => "unexpected end of input"
  | unterminated bracket => "unterminated " ++ bracket.text
  | unterminatedString => "unterminated string"
  | metadata => "metadata is not supported"
  | closingDelimiter => "unexpected closing delimiter"
  | unpairedMap => "map literal must contain an even number of forms"
  | badKey kind => "map key must be a string or keyword, got " ++ kind.text
  | trailingInput => "unexpected trailing input"

inductive ArgumentFault where
  | overflow (function : String)
  | divisionByZero (function : String)
  | unpaired (function : String)
  | rejected (reason : String)
deriving DecidableEq, Repr

def ArgumentFault.message : ArgumentFault → String
  | overflow function => function ++ ": integer overflow"
  | divisionByZero function => function ++ ": division by zero"
  | unpaired function => function ++ ": expected an even number of key/value arguments"
  | rejected reason => reason

/-- Why a file or a line of input cannot be had as text. -/
inductive FileFault where
  | missing
  | directory
  | notDirectory
  | notText
  | failed (reason : String)
deriving DecidableEq, Repr

def FileFault.message : FileFault → String
  | missing => "No such file or directory (os error 2)"
  | directory => "Is a directory (os error 21)"
  | notDirectory => "Not a directory (os error 20)"
  | notText => "stream did not contain valid UTF-8"
  | failed reason => reason

inductive EvalFault where
  | recursionLimit
  | unknownAtom (id : Nat)
  | noEvaluator
  | noRoot
  | unpairedBindings
  | restMarker
  | restParameter
  | catchClause
deriving DecidableEq, Repr

def EvalFault.message : EvalFault → String
  | recursionLimit => "maximum recursion depth exceeded"
  | unknownAtom id => "unknown atom #" ++ toString id
  | noEvaluator => "no evaluator registered"
  | noRoot => "no root environment"
  | unpairedBindings => "let*: bindings must come in name/value pairs"
  | restMarker => "'&' must be followed by exactly one parameter"
  | restParameter => "fn*: '&' must be followed by exactly one parameter"
  | catchClause => "try*: expected (catch* symbol handler)"

inductive Error where
  | reader (fault : ReadFault) (position : Position)
  | unbound (name : String)
  | arity (function : String) (expected : Arity) (got : Nat)
  | type (expected : String) (got : Kind)
  | argument (fault : ArgumentFault)
  | notCallable (text : String)
  | index (index : Int64) (length : Nat)
  | file (source : String) (fault : FileFault)
  | eval (fault : EvalFault)
  | thrown (payload : Value)

namespace Error

def message : Error → String
  | reader fault position => fault.message ++ " at " ++ position.text
  | unbound name => "'" ++ name ++ "' not found"
  | arity function expected got =>
    function ++ ": expected " ++ expected.text ++ " args, got " ++ toString got
  | type expected got => "type error: expected " ++ expected ++ ", got " ++ got.text
  | argument fault => fault.message
  | notCallable text => text ++ " is not a function"
  | index i length => "index " ++ toString i.toInt ++ " out of range for length " ++ toString length
  | file source fault => source ++ ": " ++ fault.message
  | eval fault => fault.message
  | thrown payload => "uncaught exception: " ++ payload.closedText

/-- What a handler gets to see: the thrown value, or the message of any other error. -/
def payload : Error → Value
  | thrown v => v
  | e => .str e.message

end Error

end Lisp
