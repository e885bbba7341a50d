import Lisp.Value.Basic

/-!
Equality of values: by kind and content, with floats compared by their bits. Maps are equal if they
have as many entries and each entry of the one is found in the other. A function equals nothing,
not even itself, but an object that holds functions equals itself.
-/

namespace Lisp.Value

mutual

/-- Sameness in every respect, functions and object numbers included. -/
def same : Value → Value → Bool
  | nil, nil => true
  | bool a, bool b => a == b
  | int a, int b => a == b
  | float x, float y => x == y
  | str s, str t => s == t
  | sym s, sym t => s == t
  | kw s, kw t => s == t
  | list i xs, list j ys => i == j && sameAll xs ys
  | vec i xs, vec j ys => i == j && sameAll xs ys
  | map i xs, map j ys => i == j && sameEntries xs ys
  | atom a, atom b => a == b
  | builtin a, builtin b => a == b
  | host s a, host t b => s == t && a == b
  | closure ps a f l, closure qs b g k => sameAll ps qs && same a b && f == g && l == k
  | _, _ => false

def sameAll : List Value → List Value → Bool
  | [], [] => true
  | x :: xs, y :: ys => same x y && sameAll xs ys
  | _, _ => false

def sameEntries : List (Value × Value) → List (Value × Value) → Bool
  | [], [] => true
  | (k, v) :: xs, (l, w) :: ys => same k l && same v w && sameEntries xs ys
  | _, _ => false

end

mutual

theorem same_self : ∀ v : Value, same v v = true
  | nil => by simp [same]
  | bool _ => by simp [same]
  | int _ => by simp [same]
  | float _ => by simp [same]
  | str _ => by simp [same]
  | sym _ => by simp [same]
  | kw _ => by simp [same]
  | list _ items => by simp [same, sameAll_self items]
  | vec _ items => by simp [same, sameAll_self items]
  | map _ entries => by simp [same, sameEntries_self entries]
  | atom _ => by simp [same]
  | builtin _ => by simp [same]
  | host _ _ => by simp [same]
  | closure params body _ _ => by simp [same, sameAll_self params, same_self body]

theorem sameAll_self : ∀ vs : List Value, sameAll vs vs = true
  | [] => by simp [sameAll]
  | v :: vs => by simp [sameAll, same_self v, sameAll_self vs]

theorem sameEntries_self : ∀ es : List (Value × Value), sameEntries es es = true
  | [] => by simp [sameEntries]
  | (k, v) :: es => by simp [sameEntries, same_self k, same_self v, sameEntries_self es]

end

mutual

theorem eq_of_same : ∀ {v w : Value}, same v w = true → v = w
  | list i xs, w, h => by
    cases w with
    | list j ys =>
      simp only [same, Bool.and_eq_true, beq_iff_eq] at h
      rw [h.1, eq_of_sameAll h.2]
    | _ => simp [same] at h
  | vec i xs, w, h => by
    cases w with
    | vec j ys =>
      simp only [same, Bool.and_eq_true, beq_iff_eq] at h
      rw [h.1, eq_of_sameAll h.2]
    | _ => simp [same] at h
  | map i xs, w, h => by
    cases w with
    | map j ys =>
      simp only [same, Bool.and_eq_true, beq_iff_eq] at h
      rw [h.1, eq_of_sameEntries h.2]
    | _ => simp [same] at h
  | closure params body scope isMacro, w, h => by
    cases w with
    | closure =>
      simp only [same, Bool.and_eq_true, beq_iff_eq] at h
      rw [eq_of_sameAll h.1.1.1, eq_of_same h.1.1.2, h.1.2, h.2]
    | _ => simp [same] at h
  | nil, w, h => by cases w <;> simp_all [same]
  | bool a, w, h => by cases w <;> simp_all [same]
  | int a, w, h => by cases w <;> simp_all [same]
  | float x, w, h => by cases w <;> simp_all [same]
  | str s, w, h => by cases w <;> simp_all [same]
  | sym s, w, h => by cases w <;> simp_all [same]
  | kw s, w, h => by cases w <;> simp_all [same]
  | atom a, w, h => by cases w <;> simp_all [same]
  | builtin a, w, h => by cases w <;> simp_all [same]
  | host s a, w, h => by cases w <;> simp_all [same]

theorem eq_of_sameAll : ∀ {vs ws : List Value}, sameAll vs ws = true → vs = ws
  | [], [], _ => rfl
  | v :: vs, w :: ws, h => by
    simp only [sameAll, Bool.and_eq_true] at h
    rw [eq_of_same h.1, eq_of_sameAll h.2]
  | [], _ :: _, h => by simp [sameAll] at h
  | _ :: _, [], h => by simp [sameAll] at h

theorem eq_of_sameEntries : ∀ {es fs : List (Value × Value)}, sameEntries es fs = true → es = fs
  | [], [], _ => rfl
  | (k, v) :: es, (l, w) :: fs, h => by
    simp only [sameEntries, Bool.and_eq_true] at h
    rw [eq_of_same h.1.1, eq_of_same h.1.2, eq_of_sameEntries h.2]
  | [], _ :: _, h => by simp [sameEntries] at h
  | _ :: _, [], h => by simp [sameEntries] at h

end

instance : DecidableEq Value := fun v w =>
  decidable_of_iff (same v w = true) ⟨eq_of_same, fun h => h ▸ same_self v⟩

/-- One object is seen twice. A shared list is known without going through it. -/
def sameItems (i j : ObjectId) (xs ys : List Value) : Bool :=
  i == j && withPtrEq xs ys (fun _ => sameAll xs ys) (fun h => h ▸ sameAll_self xs)

/-- One map is seen twice. -/
def sameTable (i j : ObjectId) (xs ys : List (Value × Value)) : Bool :=
  i == j && withPtrEq xs ys (fun _ => sameEntries xs ys) (fun h => h ▸ sameEntries_self xs)

mutual

def beq : Value → Value → Bool
  | nil, nil => true
  | bool a, bool b => a == b
  | int a, int b => a == b
  | float x, float y => x.bits == y.bits
  | str s, str t => s == t
  | sym s, sym t => s == t
  | kw s, kw t => s == t
  | list i xs, list j ys => sameItems i j xs ys || beqAll xs ys
  | vec i xs, vec j ys => sameItems i j xs ys || beqAll xs ys
  | map i xs, map j ys => sameTable i j xs ys || (xs.length == ys.length && entriesIn xs ys ys)
  | atom a, atom b => a == b
  | _, _ => false

def beqAll : List Value → List Value → Bool
  | [], [] => true
  | x :: xs, y :: ys => beq x y && beqAll xs ys
  | _, _ => false

/-- Each entry of the first list has its key in `ys`, with an equal value there. The next entry
`ahead` is tried first: equal maps have their keys in the same order nearly always. -/
def entriesIn : List (Value × Value) → List (Value × Value) → List (Value × Value) → Bool
  | [], _, _ => true
  | (k, v) :: rest, ahead, ys =>
    (match (ahead.take 1 ++ ys).find? fun entry => beq k entry.1 with
      | some entry => beq v entry.2
      | none => false) && entriesIn rest ahead.tail ys

end

end Lisp.Value
