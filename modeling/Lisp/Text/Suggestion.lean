/-!
Spelling suggestions for an unknown name, by edit distance over characters.
-/

namespace Lisp.Text

/-- The distance row below `diagonal :: above`, where `left` stands before its first new entry:
each entry is the least of a substitution, a deletion and an insertion. -/
def nextDistances (c : Char) : Nat → Nat → List Char → List Nat → List Nat
  | left, diagonal, d :: ds, up :: ups =>
    let here := min (min (diagonal + if c = d then 0 else 1) (up + 1)) (left + 1)
    here :: nextDistances c here up ds ups
  | _, _, _, _ => []

/-- The row of distances from a text one character longer to every beginning of `target`. -/
def distanceRow (target : List Char) (row : List Nat) (c : Char) : List Nat :=
  match row with
  | [] => []
  | first :: rest => (first + 1) :: nextDistances c (first + 1) first target rest

/-- The least number of single-character insertions, deletions and substitutions
that turn one text into the other. -/
def editDistance (source target : List Char) : Nat :=
  (source.foldl (distanceRow target) (List.range (target.length + 1))).getLastD 0

/-- How far a suggestion may be from the name: a third of its bytes, but one to three. -/
def tolerance (name : String) : Nat :=
  max 1 (min 3 (name.utf8ByteSize / 3))

/-- The closest of the candidates that differ from the name within its tolerance,
the first of equally close ones. -/
def suggest (name : String) (candidates : List String) : Option String :=
  let close := candidates.filterMap fun candidate =>
    let distance := editDistance name.toList candidate.toList
    if 0 < distance ∧ distance ≤ tolerance name then some (candidate, distance) else none
  let best := close.foldl (fun best entry =>
    match best with
    | none => some entry
    | some found => if entry.2 < found.2 then some entry else best) none
  best.map Prod.fst

end Lisp.Text
