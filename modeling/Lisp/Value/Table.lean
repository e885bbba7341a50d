import Lisp.Value.Equality

/-!
Maps as lists of entries with pairwise different keys. Strings come first, then keywords, both in
the order of code points; other keys stand behind them as they were entered. The language leaves the
order of entries open, and each map may have one of its own: this order is one choice, the same for
every map. What depends on it (the order of `keys` and `vals`, and in which order the values of a
map are evaluated) holds for this choice.
-/

namespace Lisp

abbrev Table := List (Value × Value)

namespace Table

def get? (entries : Table) (key : Value) : Option Value :=
  (entries.find? fun entry => key.beq entry.1).map Prod.snd

def contains (entries : Table) (key : Value) : Bool :=
  entries.any fun entry => key.beq entry.1

/-- A key that may stand before another one. -/
def inOrder : Value → Value → Bool
  | .str s, .str t => s ≤ t
  | .str _, _ => true
  | _, .str _ => false
  | .kw s, .kw t => s ≤ t
  | .kw _, _ => true
  | _, .kw _ => false
  | _, _ => true

/-- The entries of two tables. Where both have a key, the second one's value counts. -/
def union : Table → Table → Table
  | [], ys => ys
  | xs, [] => xs
  | x :: xs, y :: ys =>
    if x.1.beq y.1 then (x.1, y.2) :: union xs ys
    else if inOrder x.1 y.1 then x :: union xs (y :: ys)
    else y :: union (x :: xs) ys
termination_by xs ys => xs.length + ys.length

/-- Replaces the value at an equal key, which stays, or adds an entry. -/
def insert (key value : Value) (entries : Table) : Table :=
  union entries [(key, value)]

/-- The table of entries some of which have equal keys: of those the last one's value counts.
The list is halved `depth` times on the way. -/
def ofEntries : Nat → List (Value × Value) → Table
  | 0, entries => entries.foldl (fun table entry => insert entry.1 entry.2 table) []
  | depth + 1, entries =>
    let half := entries.length / 2
    union (ofEntries depth (entries.take half)) (ofEntries depth (entries.drop half))

def erase (entries : Table) (key : Value) : Table :=
  entries.filter fun entry => !key.beq entry.1

/-- Why a list of alternating keys and values is no table. -/
inductive Fault where
  | unpaired
  | badKey (kind : Kind)
deriving DecidableEq, Repr

/-- Alternating keys and values as entries. -/
def pairUp : List Value → Except Fault (List (Value × Value))
  | [] => .ok []
  | [_] => .error .unpaired
  | key :: value :: rest =>
    if key.isKey then (pairUp rest).map ((key, value) :: ·) else .error (.badKey key.kind)

/-- Enters alternating keys and values; an odd number of them is found before a bad key. -/
def insertPairs (entries : Table) (items : List Value) : Except Fault Table :=
  if items.length % 2 = 0 then
    (pairUp items).map fun added => union entries (ofEntries added.length.log2 added)
  else .error .unpaired

end Table

end Lisp
