import Lisp.Proofs.Equality

/-!
# Hashing

A hash table comes to the entries that have the hash of the key it looks for, and compares their
keys with it. That is enough if equal keys have equal hashes. A value is hashed by its variant and
by its contents, but for maps, whose entries stand in no order, and functions, which equal nothing:
of these the variant is all that is hashed. So whatever equality takes for the same is hashed alike,
and a table finds by hashes what it would find by comparing a key with every entry.
-/

namespace Lisp

/-! ## What is hashed -/

/-- One thing that is handed to a hasher. -/
inductive HashInput where
  | variant (number : Nat)
  | byte (b : UInt8)
  | signed (n : Int64)
  | unsigned (bits : UInt64)
  | text (s : String)
  | symbol (key : UInt32)
  | word (n : Nat)
deriving DecidableEq, Repr

namespace Value

/-- The number of a value's variant. Builtin functions and those of the host are one variant, and so
are closures and macros. -/
def variant : Value → Nat
  | nil => 0
  | bool _ => 1
  | int _ => 2
  | float _ => 3
  | str _ => 4
  | sym _ => 5
  | kw _ => 6
  | list _ _ => 7
  | vec _ _ => 8
  | map _ _ => 9
  | atom _ => 10
  | builtin _ => 11
  | host _ _ => 11
  | closure _ _ _ _ => 12

section

variable (intern : String → UInt32)

mutual

/-- What is hashed of a value besides its variant, given the keys by which names are interned. -/
def hashedContents : Value → List HashInput
  | bool b => [.byte (if b then 1 else 0)]
  | int n => [.signed n]
  | float x => [.unsigned x.bits]
  | str s => [.text s]
  | sym name => [.symbol (intern name)]
  | kw name => [.symbol (intern name)]
  | list _ items => .word items.length :: hashedItems items
  | vec _ items => .word items.length :: hashedItems items
  | atom id => [.word id]
  | _ => []

def hashedItems : List Value → List HashInput
  | [] => []
  | v :: vs => .variant v.variant :: hashedContents v ++ hashedItems vs

end

/-- What a hasher is handed for a value, one thing after another. -/
def hashed (v : Value) : List HashInput :=
  .variant v.variant :: hashedContents intern v

variable {intern}

theorem hashedItems_cons (v : Value) (vs : List Value) :
    hashedItems intern (v :: vs) = hashed intern v ++ hashedItems intern vs := by
  rw [hashedItems, hashed, List.cons_append]

theorem hashedItems_eq_of_beqAll {xs ys : List Value} (h : beqAll xs ys = true)
    (hitem : ∀ x ∈ xs, ∀ y, x.beq y = true → hashed intern x = hashed intern y) :
    xs.length = ys.length ∧ hashedItems intern xs = hashedItems intern ys := by
  induction xs generalizing ys with
  | nil =>
    cases ys with
    | nil => exact ⟨rfl, rfl⟩
    | cons y ys => simp [beqAll] at h
  | cons x xs ih =>
    cases ys with
    | nil => simp [beqAll] at h
    | cons y ys =>
      obtain ⟨hx, hxs⟩ := List.forall_mem_cons.mp hitem
      rw [beqAll, Bool.and_eq_true] at h
      obtain ⟨hlength, hitems⟩ := ih h.2 hxs
      rw [hashedItems_cons, hashedItems_cons, hx y h.1, hitems, List.length_cons, List.length_cons,
        hlength]
      exact ⟨rfl, rfl⟩

/-- Equal values are hashed alike. -/
theorem hashed_eq_of_beq {v w : Value} (h : v.beq w = true) :
    hashed intern v = hashed intern w := by
  induction hsize : sizeOf v using Nat.strongRecOn generalizing v w with
  | ind size ih =>
    subst hsize
    have hpart : ∀ p ∈ v.parts, ∀ q, p.beq q = true → hashed intern p = hashed intern q :=
      fun p hp q hpq => ih (sizeOf p) (sizeOf_lt_of_mem_parts hp) hpq rfl
    cases beq_iff_equal.mp h with
    | same _ => rfl
    | list hxy =>
      obtain ⟨hlength, hitems⟩ := hashedItems_eq_of_beqAll hxy hpart
      rw [hashed, hashed, hashedContents, hashedContents, hlength, hitems, variant, variant]
    | vec hxy =>
      obtain ⟨hlength, hitems⟩ := hashedItems_eq_of_beqAll hxy hpart
      rw [hashed, hashed, hashedContents, hashedContents, hlength, hitems, variant, variant]
    | map _ _ => rfl

end

end Value

/-! ## Search by hashes -/

/-- How entries are searched by hashes. What is handed to the hasher makes a hash, and a search for
a hash comes to some of the entries in some order: to all that have this hash at least. -/
structure HashSearch where
  intern : String → UInt32
  finish : List HashInput → UInt64
  reached : Table → UInt64 → Table
  mem_of_reached {entries : Table} {hash : UInt64} {entry : Value × Value} :
    entry ∈ reached entries hash → entry ∈ entries
  reached_self {entries : Table} {entry : Value × Value} :
    entry ∈ entries → entry ∈ reached entries (finish (entry.1.hashed intern))

namespace HashSearch

variable (s : HashSearch)

def hash (v : Value) : UInt64 :=
  s.finish (v.hashed s.intern)

/-- The first of the entries that the search comes to whose key equals the given one. -/
def find? (entries : Table) (key : Value) : Option (Value × Value) :=
  (s.reached entries (s.hash key)).find? fun entry => key.beq entry.1

/-- Replaces the value at an equal key, which stays, or adds an entry. -/
def insert (key value : Value) (entries : Table) : Table :=
  match s.find? entries key with
  | some found => entries.map fun entry => if entry = found then (entry.1, value) else entry
  | none => (key, value) :: entries

def erase (key : Value) (entries : Table) : Table :=
  match s.find? entries key with
  | some found => List.erase entries found
  | none => entries

/-- The tables that come about by entering and removing keys. Where a map occurs in a key, it is
such a table itself, so that its keys are unequal. -/
inductive Makes : Table → Prop
  | empty : Makes []
  | insert {entries : Table} {key value : Value} :
      Makes entries → key.EachMap Table.Unequal → Makes (s.insert key value entries)
  | erase {entries : Table} {key : Value} : Makes entries → Makes (s.erase key entries)

variable {s} {entries : Table} {key : Value}

theorem mem_of_find? {entry : Value × Value} (h : s.find? entries key = some entry) :
    entry ∈ entries ∧ key.beq entry.1 = true :=
  ⟨s.mem_of_reached (List.mem_of_find?_eq_some h), by simpa using List.find?_some h⟩

/-- Where no entry is found there is none: an equal key would have the same hash. -/
theorem find?_eq_none_iff :
    s.find? entries key = none ↔ ∀ entry ∈ entries, key.beq entry.1 = false := by
  rw [find?, List.find?_eq_none]
  constructor
  · intro h entry hentry
    by_contra hbeq
    rw [Bool.not_eq_false] at hbeq
    have hreached := s.reached_self hentry
    rw [← Value.hashed_eq_of_beq hbeq] at hreached
    exact h entry hreached hbeq
  · intro h entry hreached
    rw [h entry (s.mem_of_reached hreached)]
    exact Bool.false_ne_true

theorem isSome_find? : (s.find? entries key).isSome = entries.contains key := by
  rw [Bool.eq_iff_iff, ← Bool.not_eq_false, Option.isSome_eq_false_iff, Option.isNone_iff_eq_none,
    find?_eq_none_iff, Table.contains, List.any_eq_true]
  simp

end HashSearch

/-! ## Tables -/

/-- No two of the keys are equal, and maps within them have unequal keys too. -/
structure DistinctKeys (keys : List Value) : Prop where
  unequal : keys.Pairwise fun a b => a.beq b = false ∧ b.beq a = false
  eachMap : ∀ key ∈ keys, key.EachMap Table.Unequal

namespace HashSearch

variable {s : HashSearch} {entries : Table} {key value : Value}

theorem insert_of_find?_eq_some {found : Value × Value} (h : s.find? entries key = some found) :
    (s.insert key value entries).map Prod.fst = entries.map Prod.fst := by
  rw [insert, h, List.map_map]
  refine List.map_congr_left fun entry _ => ?_
  rw [Function.comp_apply]
  split <;> rfl

theorem insert_of_find?_eq_none (h : s.find? entries key = none) :
    s.insert key value entries = (key, value) :: entries := by
  rw [insert, h]

theorem erase_sublist : (s.erase key entries).Sublist entries := by
  rw [erase]
  split
  · exact List.erase_sublist
  · exact .refl _

theorem distinctKeys_insert (h : DistinctKeys (entries.map Prod.fst))
    (hkey : key.EachMap Table.Unequal) :
    DistinctKeys ((s.insert key value entries).map Prod.fst) := by
  cases hfind : s.find? entries key with
  | some found => rwa [insert_of_find?_eq_some hfind]
  | none =>
    rw [insert_of_find?_eq_none hfind, List.map_cons]
    have hnew : ∀ k ∈ entries.map Prod.fst, key.beq k = false := by
      intro k hk
      obtain ⟨entry, hentry, rfl⟩ := List.mem_map.mp hk
      exact find?_eq_none_iff.mp hfind entry hentry
    refine ⟨List.pairwise_cons.mpr ⟨fun k hk => ⟨hnew k hk, ?_⟩, h.unequal⟩,
      List.forall_mem_cons.mpr ⟨hkey, h.eachMap⟩⟩
    rw [← Bool.not_eq_true]
    intro hequal
    have hsymm := equivalenceOn_unequal.symm (h.eachMap k hk) hkey hequal
    rw [hnew k hk] at hsymm
    cases hsymm

theorem distinctKeys_erase (h : DistinctKeys (entries.map Prod.fst)) :
    DistinctKeys ((s.erase key entries).map Prod.fst) :=
  have hkeys := erase_sublist.map Prod.fst
  ⟨h.unequal.sublist hkeys, fun k hk => h.eachMap k (hkeys.subset hk)⟩

/-- Whatever is entered and removed, keys stay distinct. -/
theorem Makes.distinctKeys (h : s.Makes entries) : DistinctKeys (entries.map Prod.fst) := by
  induction h with
  | empty => exact ⟨.nil, List.forall_mem_nil _⟩
  | insert _ hkey ih => exact distinctKeys_insert ih hkey
  | erase _ ih => exact distinctKeys_erase ih

/-- A key equals the key of one entry at most. -/
theorem eq_of_distinctKeys (h : DistinctKeys (entries.map Prod.fst))
    (hkey : key.EachMap Table.Unequal) {x y : Value × Value} (hx : x ∈ entries) (hy : y ∈ entries)
    (hkx : key.beq x.1 = true) (hky : key.beq y.1 = true) : x = y := by
  by_contra hne
  have hpairwise := List.pairwise_map.mp h.unequal
  have hsymm : Std.Symm fun a b : Value × Value => a.1.beq b.1 = false ∧ b.1.beq a.1 = false :=
    ⟨fun _ _ hab => hab.symm⟩
  have hxmaps := h.eachMap x.1 (List.mem_map_of_mem hx)
  have hymaps := h.eachMap y.1 (List.mem_map_of_mem hy)
  have hxk := equivalenceOn_unequal.symm hkey hxmaps hkx
  have hxy := equivalenceOn_unequal.trans hxmaps hkey hymaps hxk hky
  rw [(hpairwise.forall hx hy hne).1] at hxy
  cases hxy

theorem find?_eq (h : DistinctKeys (entries.map Prod.fst)) (hkey : key.EachMap Table.Unequal) :
    s.find? entries key = entries.find? fun entry => key.beq entry.1 := by
  cases hfind : s.find? entries key with
  | none =>
    rw [eq_comm, List.find?_eq_none]
    intro entry hentry
    rw [find?_eq_none_iff.mp hfind entry hentry]
    exact Bool.false_ne_true
  | some found =>
    obtain ⟨hmem, hbeq⟩ := mem_of_find? hfind
    cases hfirst : entries.find? fun entry => key.beq entry.1 with
    | none => exact absurd hbeq (List.find?_eq_none.mp hfirst found hmem)
    | some first =>
      have hfirstBeq : key.beq first.1 = true := by simpa using List.find?_some hfirst
      rw [eq_of_distinctKeys h hkey hmem (List.mem_of_find?_eq_some hfirst) hbeq hfirstBeq]

end HashSearch

/-- Equal values are hashed alike. So a search by hashes comes to an equal key wherever there is
one, a table into which keys are entered in this way has no two equal keys, and what is found in it
under a key is what comparing the key with every entry finds. -/
theorem hashing_agrees_with_beq (s : HashSearch) :
    (∀ a b : Value, a.beq b = true → a.hashed s.intern = b.hashed s.intern) ∧
    (∀ entries key, (s.find? entries key).isSome = entries.contains key) ∧
    ∀ entries, s.Makes entries →
      (entries.Pairwise fun a b => a.1.beq b.1 = false ∧ b.1.beq a.1 = false) ∧
      ∀ key, key.EachMap Table.Unequal →
        (s.find? entries key).map Prod.snd = entries.get? key := by
  refine ⟨fun a b h => Value.hashed_eq_of_beq h, fun entries key => HashSearch.isSome_find?,
    fun entries h => ⟨List.pairwise_map.mp h.distinctKeys.unequal, fun key hkey => ?_⟩⟩
  rw [HashSearch.find?_eq h.distinctKeys hkey, Table.get?]

/-- Two lists that hold a map, with its entries in one order and in the other, are one key: hashes
are short here, and a search comes to the entries with the same hash, the last one first. -/
theorem hashing_agrees_with_beq_reordered :
    let s : HashSearch :=
      { intern := fun name => if name = "k" then 1 else 2
        finish := fun inputs => UInt64.ofNat inputs.length
        reached := fun entries hash => (entries.filter fun entry =>
          UInt64.ofNat (entry.1.hashed fun name => if name = "k" then 1 else 2).length
            == hash).reverse
        mem_of_reached := fun h => (List.mem_filter.mp (List.mem_reverse.mp h)).1
        reached_self := fun h =>
          List.mem_reverse.mpr (List.mem_filter.mpr ⟨h, beq_self_eq_true _⟩) }
    let a : Value := .list (some 0) [.map (some 1) [(.str "x", .int 1), (.kw "k", .float ⟨0⟩)]]
    let b : Value := .list none [.map none [(.kw "k", .float ⟨0⟩), (.str "x", .int 1)]]
    let entries := s.insert b (.bool true) (s.insert .nil .nil (s.insert a (.bool false) []))
    a.beq b = true ∧ a.hashed s.intern = b.hashed s.intern ∧
      (s.find? entries b).isSome = true ∧
      (entries.Pairwise fun x y => x.1.beq y.1 = false ∧ y.1.beq x.1 = false) ∧
      (s.find? entries b).map Prod.snd = some (.bool true) := by
  intro s a b entries
  have hab : a.beq b = true := by decide +kernel
  have ha : a.EachMap Table.Unequal := Value.eachMap_of_checkMaps (by decide +kernel)
  have hb : b.EachMap Table.Unequal := Value.eachMap_of_checkMaps (by decide +kernel)
  have hnil : Value.nil.EachMap Table.Unequal := Value.eachMap_of_checkMaps (by decide +kernel)
  obtain ⟨hhashed, hfound, htable⟩ := hashing_agrees_with_beq s
  obtain ⟨hdistinct, hget⟩ :=
    htable entries (((HashSearch.Makes.empty.insert ha).insert hnil).insert hb)
  refine ⟨hab, hhashed a b hab, ?_, hdistinct, ?_⟩
  · rw [hfound]
    decide +kernel
  · rw [hget b hb]
    decide +kernel

end Lisp
