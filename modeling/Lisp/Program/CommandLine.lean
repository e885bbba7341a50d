/-!
Command line arguments.
-/

namespace Lisp.Program

structure Options where
  file : Option String := none
  arguments : List String := []
  expression : Option String := none
  noPrelude : Bool := false
  maxDepth : Option Nat := none
  stackMb : Option Nat := none
deriving DecidableEq, Repr

/-- Why a command line is not run: it is malformed, or it asks for help. -/
inductive Refusal where
  | usage
  | help
deriving DecidableEq, Repr

def Refusal.exitCode : Refusal → Nat
  | usage => 2
  | help => 0

/-- An option that takes a value. -/
inductive ValueOption where
  | expression
  | maxDepth
  | stackMb
deriving DecidableEq, Repr

inductive OptionName where
  | valued (option : ValueOption)
  | noPrelude
  | help
deriving DecidableEq, Repr

def OptionName.ofLong? : String → Option OptionName
  | "eval" => some (.valued .expression)
  | "max-depth" => some (.valued .maxDepth)
  | "stack-mb" => some (.valued .stackMb)
  | "no-prelude" => some .noPrelude
  | "help" => some .help
  | _ => none

def OptionName.ofShort? : Char → Option OptionName
  | 'e' => some (.valued .expression)
  | 'h' => some .help
  | _ => none

/-- What an argument looks like by itself. -/
inductive ArgumentShape where
  | plain
  | separator
  | long (name : String) (value : Option String)
  | short (letters : List Char)
deriving DecidableEq, Repr

def ArgumentShape.of (arg : String) : ArgumentShape :=
  match arg.toList with
  | ['-', '-'] => separator
  | '-' :: '-' :: rest =>
    let name := String.ofList (rest.takeWhile (· ≠ '='))
    match rest.dropWhile (· ≠ '=') with
    | [] => long name none
    | _ :: value => long name (some (String.ofList value))
  | '-' :: c :: rest => short (c :: rest)
  | _ => plain

/-- An argument that is an option once the file is given: a known long option, or known letters. -/
def ArgumentShape.isOption : ArgumentShape → Bool
  | long name _ => (OptionName.ofLong? name).isSome
  | short letters => letters.all fun c => (OptionName.ofShort? c).isSome
  | _ => false

namespace Options

/-- A decimal number of 64 bits, with at most a plus before it. -/
def count? (text : String) : Option Nat :=
  let digits := match text.toList with
    | '+' :: rest => rest
    | cs => cs
  if digits.isEmpty || !digits.all Char.isDigit then none
  else
    let n := Nat.ofDigitChars 10 digits 0
    if n < Nat.pow 2 64 then some n else none

/-- Sets an option, which may be given only once. -/
def set (o : Options) (option : ValueOption) (value : String) : Except Refusal Options :=
  match option with
  | .expression =>
    if o.expression.isSome then .error .usage else .ok { o with expression := some value }
  | .maxDepth =>
    match count? value with
    | some n => if o.maxDepth.isSome then .error .usage else .ok { o with maxDepth := some n }
    | none => .error .usage
  | .stackMb =>
    match count? value with
    | some n => if o.stackMb.isSome then .error .usage else .ok { o with stackMb := some n }
    | none => .error .usage

/-- The next argument is the value of an option, unless it reads as an option itself. -/
def takesValue (o : Options) (arg : String) : Bool :=
  match ArgumentShape.of arg with
  | .plain => true
  | .separator => false
  | shape => o.file.isSome && !shape.isOption

/-- Arguments that are no options: the file, then its own arguments. -/
def positional (o : Options) (args : List String) : Options :=
  match o.file, args with
  | none, file :: rest => { o with file := some file, arguments := rest }
  | _, args => { o with arguments := args }

/-- An option without its value attached takes the next argument. -/
inductive Expecting where
  | argument
  | value (option : ValueOption)

/-- Reads arguments from left to right. After the file, whatever is no option begins the file's own
arguments, and all the rest belongs to them. -/
def parseFrom (o : Options) : Expecting → List String → Except Refusal Options
  | .argument, [] => .ok o
  | .value _, [] => .error .usage
  | .value option, arg :: rest =>
    if o.takesValue arg then
      match o.set option arg with
      | .error refusal => .error refusal
      | .ok o => parseFrom o .argument rest
    else .error .usage
  | .argument, arg :: rest =>
    match ArgumentShape.of arg with
    | .separator => .ok (o.positional rest)
    | .plain =>
      if o.file.isSome then .ok (o.positional (arg :: rest))
      else parseFrom { o with file := some arg } .argument rest
    | .long name value =>
      match OptionName.ofLong? name, value with
      | none, _ => if o.file.isSome then .ok (o.positional (arg :: rest)) else .error .usage
      | some (.valued option), none => parseFrom o (.value option) rest
      | some (.valued option), some value =>
        match o.set option value with
        | .error refusal => .error refusal
        | .ok o => parseFrom o .argument rest
      | some .noPrelude, none =>
        if o.noPrelude then .error .usage
        else parseFrom { o with noPrelude := true } .argument rest
      | some .help, none => .error .help
      | some _, some _ => .error .usage
    | .short letters =>
      if o.file.isSome && !(ArgumentShape.short letters).isOption then
        .ok (o.positional (arg :: rest))
      else match letters with
        | 'h' :: _ => .error .help
        | ['e'] => parseFrom o (.value .expression) rest
        | 'e' :: value =>
          let value := if value.head? = some '=' then value.tail else value
          match o.set .expression (String.ofList value) with
          | .error refusal => .error refusal
          | .ok o => parseFrom o .argument rest
        | _ => .error .usage

def parse (args : List String) : Except Refusal Options :=
  parseFrom {} .argument args

end Options

end Lisp.Program
