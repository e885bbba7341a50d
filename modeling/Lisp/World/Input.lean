import Lisp.Machine

/-!
Text from bytes: lines of input and contents of files.
-/

namespace Lisp

/-- The text that bytes encode in UTF-8. -/
def decodeText (bytes : List UInt8) : Option String :=
  String.fromUTF8? ⟨bytes.toArray⟩

namespace Input

/-- Cuts bytes after each line feed; `current` holds the line so far, last byte first. -/
def splitLines (current : List UInt8) : List UInt8 → List (List UInt8)
  | [] => if current.isEmpty then [] else [current.reverse]
  | byte :: rest =>
    if byte = 10 then (byte :: current).reverse :: splitLines [] rest
    else splitLines (byte :: current) rest

/-- The lines of an input, with their line ends. -/
def ofBytes (bytes : List UInt8) : List (Option String) :=
  (splitLines [] bytes).map decodeText

end Input

/-- What is read from a file that holds these bytes. -/
def fileText (bytes : List UInt8) : Except FileFault String :=
  match decodeText bytes with
  | some text => .ok text
  | none => .error .notText

end Lisp
