import Lisp.Value.Table

/-!
# Tables of strings and keywords

A map is kept as its entries in the order of their keys. Here that order is shown to be strict and
total on keys, a table in it is determined by what is found under each key (`Canonical.ext`), and
the functions that build tables are described by what is found in their results: in a union the
second table wins (`get?_union`), and of entries with equal keys the last one (`get?_ofEntries`).
-/

namespace Lisp

namespace Value

/-- A key equals nothing but itself. -/
theorem beq_iff_eq_of_isKey {v key : Value} (h : key.isKey = true) :
    v.beq key = true ↔ v = key := by
  cases key with
  | str t => cases v <;> simp [beq]
  | kw t => cases v <;> simp [beq]
  | _ => simp [isKey] at h

theorem beq_self_of_isKey {key : Value} (h : key.isKey = true) : key.beq key = true :=
  (beq_iff_eq_of_isKey h).mpr rfl

end Value

namespace Table

/-! ## The order of keys -/

theorem inOrder_refl {k : Value} (h : k.isKey = true) : inOrder k k = true := by
  cases k with
  | str s => simp [inOrder]
  | kw s => simp [inOrder]
  | _ => simp [Value.isKey] at h

theorem inOrder_total {k l : Value} (hk : k.isKey = true) (hl : l.isKey = true) :
    inOrder k l = true ∨ inOrder l k = true := by
  cases k with
  | str s =>
    cases l with
    | str t => simpa [inOrder] using String.le_total s t
    | _ => simp [inOrder]
  | kw s =>
    cases l with
    | str t => simp [inOrder]
    | kw t => simpa [inOrder] using String.le_total s t
    | _ => simp [Value.isKey] at hl
  | _ => simp [Value.isKey] at hk

theorem inOrder_antisymm {k l : Value} (hk : k.isKey = true) (hl : l.isKey = true)
    (hkl : inOrder k l = true) (hlk : inOrder l k = true) : k = l := by
  cases k with
  | str s =>
    cases l with
    | str t =>
      simp only [inOrder, decide_eq_true_eq] at hkl hlk
      rw [String.le_antisymm hkl hlk]
    | _ => simp [inOrder] at hlk
  | kw s =>
    cases l with
    | kw t =>
      simp only [inOrder, decide_eq_true_eq] at hkl hlk
      rw [String.le_antisymm hkl hlk]
    | str t => simp [inOrder] at hkl
    | _ => simp [Value.isKey] at hl
  | _ => simp [Value.isKey] at hk

theorem inOrder_trans {k l m : Value} (hl : l.isKey = true) (hm : m.isKey = true)
    (hkl : inOrder k l = true) (hlm : inOrder l m = true) : inOrder k m = true := by
  cases k with
  | str s =>
    cases m with
    | str u =>
      cases l with
      | str t =>
        simp only [inOrder, decide_eq_true_eq] at hkl hlm ⊢
        exact String.le_trans hkl hlm
      | kw t => simp [inOrder] at hlm
      | _ => simp [Value.isKey] at hl
    | _ => simp [inOrder]
  | kw s =>
    cases l with
    | kw t =>
      cases m with
      | kw u =>
        simp only [inOrder, decide_eq_true_eq] at hkl hlm ⊢
        exact String.le_trans hkl hlm
      | str u => simp [inOrder] at hlm
      | _ => simp [Value.isKey] at hm
    | str t => simp [inOrder] at hkl
    | _ => simp [Value.isKey] at hl
  | _ =>
    -- Behind the strings and keywords no key follows.
    cases l <;> simp_all [inOrder, Value.isKey]

/-- One key stands before another one. -/
def Before (k l : Value) : Prop :=
  inOrder k l = true ∧ k ≠ l

theorem Before.trans {k l m : Value} (hk : k.isKey = true) (hl : l.isKey = true)
    (hm : m.isKey = true) (hkl : Before k l) (hlm : Before l m) : Before k m := by
  refine ⟨inOrder_trans hl hm hkl.1 hlm.1, ?_⟩
  rintro rfl
  exact hkl.2 (inOrder_antisymm hk hl hkl.1 hlm.1)

theorem before_of_not_inOrder {k l : Value} (hk : k.isKey = true) (hl : l.isKey = true)
    (h : ¬ inOrder k l = true) : Before l k := by
  refine ⟨(inOrder_total hk hl).resolve_left h, ?_⟩
  rintro rfl
  exact h (inOrder_refl hk)

/-! ## What is found under a key -/

/-- All keys are strings and keywords. -/
def Keyed (entries : Table) : Prop :=
  ∀ entry ∈ entries, entry.1.isKey = true

instance : DecidablePred Keyed := fun entries =>
  inferInstanceAs (Decidable (∀ entry ∈ entries, entry.1.isKey = true))

/-- No key stands twice. -/
def Distinct (entries : Table) : Prop :=
  entries.Pairwise fun a b => a.1 ≠ b.1

/-- The form in which maps are kept. -/
structure Canonical (entries : Table) : Prop where
  keyed : Keyed entries
  ordered : entries.Pairwise fun a b => Before a.1 b.1

theorem Canonical.distinct {entries : Table} (h : Canonical entries) : Distinct entries :=
  h.ordered.imp fun hab => hab.2

theorem canonical_nil : Canonical [] :=
  ⟨fun _ h => absurd h List.not_mem_nil, List.Pairwise.nil⟩

theorem canonical_singleton {key value : Value} (h : key.isKey = true) :
    Canonical [(key, value)] := by
  refine ⟨?_, List.pairwise_singleton _ _⟩
  intro entry he
  rw [List.mem_singleton.mp he]
  exact h

theorem Canonical.tail {entry : Value × Value} {entries : Table}
    (h : Canonical (entry :: entries)) : Canonical entries :=
  ⟨fun e he => h.keyed e (List.mem_cons_of_mem _ he), (List.pairwise_cons.mp h.ordered).2⟩

theorem Canonical.head_before {entry e : Value × Value} {entries : Table}
    (h : Canonical (entry :: entries)) (he : e ∈ entries) : Before entry.1 e.1 :=
  (List.pairwise_cons.mp h.ordered).1 e he

theorem Canonical.cons {entry : Value × Value} {entries : Table} (hk : entry.1.isKey = true)
    (hb : ∀ e ∈ entries, Before entry.1 e.1) (h : Canonical entries) :
    Canonical (entry :: entries) := by
  refine ⟨?_, List.pairwise_cons.mpr ⟨hb, h.ordered⟩⟩
  intro e he
  rcases List.mem_cons.mp he with rfl | he
  · exact hk
  · exact h.keyed e he

@[simp] theorem get?_nil (key : Value) : get? [] key = none := rfl

theorem get?_cons (entry : Value × Value) (entries : Table) (key : Value) :
    get? (entry :: entries) key =
      if key.beq entry.1 = true then some entry.2 else get? entries key := by
  unfold get?
  rw [List.find?_cons]
  cases key.beq entry.1 <;> rfl

theorem get?_append (xs ys : Table) (key : Value) :
    get? (xs ++ ys) key = (get? xs key).or (get? ys key) := by
  induction xs with
  | nil => rfl
  | cons x xs ih =>
    rw [List.cons_append, get?_cons, get?_cons, ih]
    split <;> rfl

theorem mem_of_get?_eq_some {entries : Table} (hk : Keyed entries) {key value : Value}
    (h : get? entries key = some value) : (key, value) ∈ entries := by
  induction entries with
  | nil => simp at h
  | cons entry entries ih =>
    rw [get?_cons] at h
    split at h
    · next he =>
      rw [(Value.beq_iff_eq_of_isKey (hk entry List.mem_cons_self)).mp he, ← Option.some.inj h]
      exact List.mem_cons_self
    · exact List.mem_cons_of_mem _ (ih (fun e he => hk e (List.mem_cons_of_mem _ he)) h)

theorem get?_eq_some_iff {entries : Table} (hk : Keyed entries) (hd : Distinct entries)
    {key value : Value} : get? entries key = some value ↔ (key, value) ∈ entries := by
  refine ⟨mem_of_get?_eq_some hk, ?_⟩
  intro h
  induction entries with
  | nil => exact absurd h List.not_mem_nil
  | cons entry entries ih =>
    rw [get?_cons]
    rcases List.mem_cons.mp h with rfl | h'
    · rw [if_pos (Value.beq_self_of_isKey (hk _ List.mem_cons_self))]
    · have hne : entry.1 ≠ key := (List.pairwise_cons.mp hd).1 (key, value) h'
      rw [if_neg, ih (fun e he => hk e (List.mem_cons_of_mem _ he)) (List.pairwise_cons.mp hd).2 h']
      intro he
      exact hne ((Value.beq_iff_eq_of_isKey (hk entry List.mem_cons_self)).mp he).symm

theorem get?_eq_none {entries : Table} (hk : Keyed entries) {key : Value}
    (h : ∀ entry ∈ entries, key ≠ entry.1) : get? entries key = none := by
  rw [get?, List.find?_eq_none.mpr]
  · rfl
  · intro entry he hbeq
    exact h entry he ((Value.beq_iff_eq_of_isKey (hk entry he)).mp hbeq)

/-- The order of entries does not matter for what is found. -/
theorem get?_perm {xs ys : Table} (hp : xs.Perm ys) (hk : Keyed xs) (hd : Distinct xs)
    (key : Value) : get? xs key = get? ys key := by
  have hk' : Keyed ys := fun e he => hk e (hp.mem_iff.mpr he)
  have hd' : Distinct ys := hp.pairwise hd fun h => h.symm
  ext value
  rw [get?_eq_some_iff hk hd, get?_eq_some_iff hk' hd', hp.mem_iff]

/-- What is found under each key determines a table. -/
theorem Canonical.ext {xs ys : Table} (hx : Canonical xs) (hy : Canonical ys)
    (h : ∀ key, get? xs key = get? ys key) : xs = ys := by
  have hmem : ∀ key value, (key, value) ∈ xs ↔ (key, value) ∈ ys := by
    intro key value
    rw [← get?_eq_some_iff hx.keyed hx.distinct, ← get?_eq_some_iff hy.keyed hy.distinct, h]
  refine List.Perm.eq_of_pairwise ?_ hx.ordered hy.ordered ?_
  · intro a b ha hb hab hba
    exact absurd (inOrder_antisymm (hx.keyed a ha) (hy.keyed b hb) hab.1 hba.1) hab.2
  · refine (List.perm_ext_iff_of_nodup ?_ ?_).mpr fun e => hmem e.1 e.2
    · exact hx.distinct.imp fun hne he => hne (congrArg Prod.fst he)
    · exact hy.distinct.imp fun hne he => hne (congrArg Prod.fst he)

/-! ## Union -/

@[simp] theorem nil_union (ys : Table) : union [] ys = ys := by
  cases ys <;> simp [union]

theorem mem_union_key {xs ys : Table} {e : Value × Value} (h : e ∈ union xs ys) :
    (∃ x ∈ xs, x.1 = e.1) ∨ ∃ y ∈ ys, y.1 = e.1 := by
  fun_induction union xs ys with
  | case1 ys => exact Or.inr ⟨e, h, rfl⟩
  | case2 xs => exact Or.inl ⟨e, h, rfl⟩
  | case3 x xs y ys _ ih =>
    rcases List.mem_cons.mp h with rfl | h
    · exact Or.inl ⟨x, List.mem_cons_self, rfl⟩
    · rcases ih h with ⟨x', hx, he⟩ | ⟨y', hy, he⟩
      · exact Or.inl ⟨x', List.mem_cons_of_mem _ hx, he⟩
      · exact Or.inr ⟨y', List.mem_cons_of_mem _ hy, he⟩
  | case4 x xs y ys _ _ ih =>
    rcases List.mem_cons.mp h with rfl | h
    · exact Or.inl ⟨e, List.mem_cons_self, rfl⟩
    · rcases ih h with ⟨x', hx, he⟩ | hy
      · exact Or.inl ⟨x', List.mem_cons_of_mem _ hx, he⟩
      · exact Or.inr hy
  | case5 x xs y ys _ _ ih =>
    rcases List.mem_cons.mp h with rfl | h
    · exact Or.inr ⟨e, List.mem_cons_self, rfl⟩
    · rcases ih h with hx | ⟨y', hy, he⟩
      · exact Or.inl hx
      · exact Or.inr ⟨y', List.mem_cons_of_mem _ hy, he⟩

/-- A key that stands before all those of two tables stands before those of their union. -/
theorem before_union {k : Value} {xs ys : Table} (hx : ∀ x ∈ xs, Before k x.1)
    (hy : ∀ y ∈ ys, Before k y.1) : ∀ e ∈ union xs ys, Before k e.1 := by
  intro e he
  rcases mem_union_key he with ⟨x, hm, heq⟩ | ⟨y, hm, heq⟩
  · exact heq ▸ hx x hm
  · exact heq ▸ hy y hm

/-- What stands before the first key of a table stands before all of them. -/
theorem Canonical.before_of_head {k : Value} {y : Value × Value} {ys : Table}
    (hk : k.isKey = true) (h : Canonical (y :: ys)) (hb : Before k y.1) :
    ∀ e ∈ y :: ys, Before k e.1 := by
  intro e he
  rcases List.mem_cons.mp he with rfl | he
  · exact hb
  · exact hb.trans hk (h.keyed y List.mem_cons_self)
      (h.keyed e (List.mem_cons_of_mem _ he)) (h.head_before he)

theorem canonical_union {xs ys : Table} (hx : Canonical xs) (hy : Canonical ys) :
    Canonical (union xs ys) := by
  fun_induction union xs ys with
  | case1 ys => exact hy
  | case2 xs => exact hx
  | case3 x xs y ys h ih =>
    have hkx := hx.keyed x List.mem_cons_self
    have hxy := (Value.beq_iff_eq_of_isKey (hy.keyed y List.mem_cons_self)).mp h
    refine Canonical.cons hkx (before_union ?_ ?_) (ih hx.tail hy.tail)
    · exact fun e he => hx.head_before he
    · exact fun e he => hxy ▸ hy.head_before he
  | case4 x xs y ys h hle ih =>
    have hkx := hx.keyed x List.mem_cons_self
    have hb : Before x.1 y.1 :=
      ⟨hle, fun he => h ((Value.beq_iff_eq_of_isKey (hy.keyed y List.mem_cons_self)).mpr he)⟩
    exact Canonical.cons hkx
      (before_union (fun e he => hx.head_before he) (hy.before_of_head hkx hb)) (ih hx.tail hy)
  | case5 x xs y ys _ hle ih =>
    have hky := hy.keyed y List.mem_cons_self
    have hb : Before y.1 x.1 := before_of_not_inOrder (hx.keyed x List.mem_cons_self) hky hle
    exact Canonical.cons hky
      (before_union (hx.before_of_head hky hb) fun e he => hy.head_before he) (ih hx hy.tail)

/-- Where both tables have a key, the second one's value is found. -/
theorem get?_union {xs ys : Table} (hx : Canonical xs) (hy : Canonical ys) (key : Value) :
    get? (union xs ys) key = (get? ys key).or (get? xs key) := by
  fun_induction union xs ys with
  | case1 ys => simp
  | case2 xs => simp
  | case3 x xs y ys h ih =>
    have hxy := (Value.beq_iff_eq_of_isKey (hy.keyed y List.mem_cons_self)).mp h
    rw [get?_cons, get?_cons, get?_cons, ih hx.tail hy.tail, hxy]
    split <;> rfl
  | case4 x xs y ys h hle ih =>
    have hkx := hx.keyed x List.mem_cons_self
    have hb : Before x.1 y.1 :=
      ⟨hle, fun he => h ((Value.beq_iff_eq_of_isKey (hy.keyed y List.mem_cons_self)).mpr he)⟩
    rw [get?_cons, get?_cons x, ih hx.tail hy]
    split
    · next hkey =>
      -- The key of `x` stands before all those of the second table, so it is not found there.
      rw [(Value.beq_iff_eq_of_isKey hkx).mp hkey,
        get?_eq_none hy.keyed fun e he => (hy.before_of_head hkx hb e he).2]
      rfl
    · rfl
  | case5 x xs y ys _ _ ih =>
    rw [get?_cons, get?_cons y, ih hx hy.tail]
    split <;> rfl

/-! ## Tables from lists of entries -/

theorem canonical_insert {key value : Value} {entries : Table} (hk : key.isKey = true)
    (h : Canonical entries) : Canonical (insert key value entries) :=
  canonical_union h (canonical_singleton hk)

theorem canonical_foldl_insert {added entries : Table} (hk : Keyed added)
    (h : Canonical entries) :
    Canonical (added.foldl (fun table entry => insert entry.1 entry.2 table) entries) := by
  induction added generalizing entries with
  | nil => exact h
  | cons e es ih =>
    exact ih (fun e' he => hk e' (List.mem_cons_of_mem _ he))
      (canonical_insert (hk e List.mem_cons_self) h)

theorem get?_foldl_insert {added entries : Table} (hk : Keyed added) (h : Canonical entries)
    (key : Value) :
    get? (added.foldl (fun table entry => insert entry.1 entry.2 table) entries) key =
      (get? added.reverse key).or (get? entries key) := by
  induction added generalizing entries with
  | nil => rfl
  | cons e es ih =>
    have hke := hk e List.mem_cons_self
    rw [List.foldl_cons, ih (fun e' he => hk e' (List.mem_cons_of_mem _ he))
      (canonical_insert hke h), List.reverse_cons, get?_append, insert,
      get?_union h (canonical_singleton hke), Option.or_assoc]

theorem canonical_ofEntries {entries : Table} (depth : Nat) (hk : Keyed entries) :
    Canonical (ofEntries depth entries) := by
  induction depth generalizing entries with
  | zero => exact canonical_foldl_insert hk canonical_nil
  | succ depth ih =>
    exact canonical_union (ih fun e he => hk e (List.mem_of_mem_take he))
      (ih fun e he => hk e (List.mem_of_mem_drop he))

/-- Of entries with equal keys the last one is found. -/
theorem get?_ofEntries {entries : Table} (depth : Nat) (hk : Keyed entries) (key : Value) :
    get? (ofEntries depth entries) key = get? entries.reverse key := by
  induction depth generalizing entries with
  | zero =>
    rw [ofEntries, get?_foldl_insert hk canonical_nil, get?_nil, Option.or_none]
  | succ depth ih =>
    have hk₁ : Keyed (entries.take (entries.length / 2)) :=
      fun e he => hk e (List.mem_of_mem_take he)
    have hk₂ : Keyed (entries.drop (entries.length / 2)) :=
      fun e he => hk e (List.mem_of_mem_drop he)
    rw [ofEntries, get?_union (canonical_ofEntries depth hk₁) (canonical_ofEntries depth hk₂),
      ih hk₁, ih hk₂, ← get?_append, ← List.reverse_append, List.take_append_drop]

/-! ## Tables from alternating keys and values -/

/-- Keys and values in turn. -/
def flat (pairs : Table) : List Value :=
  pairs.flatMap fun pair => [pair.1, pair.2]

/-- The entries that pairs denote: keys are strings and keywords, each stands once and in order,
and the last value given for it counts. -/
structure Denotes (pairs entries : Table) : Prop where
  keyed : Keyed pairs
  canonical : Canonical entries
  last : ∀ key, get? entries key = get? pairs.reverse key

theorem Denotes.unique {pairs xs ys : Table} (hx : Denotes pairs xs) (hy : Denotes pairs ys) :
    xs = ys :=
  hx.canonical.ext hy.canonical fun key => (hx.last key).trans (hy.last key).symm

/-- An entry of the table stands among the pairs. -/
theorem Denotes.mem {pairs entries : Table} (h : Denotes pairs entries) {entry : Value × Value}
    (he : entry ∈ entries) : entry ∈ pairs := by
  have hfound : get? entries entry.1 = some entry.2 :=
    (get?_eq_some_iff h.canonical.keyed h.canonical.distinct).mpr he
  rw [h.last] at hfound
  exact List.mem_reverse.mp
    (mem_of_get?_eq_some (fun e he => h.keyed e (List.mem_reverse.mp he)) hfound)

/-- A table is denoted by its own entries, in whatever order they are given. -/
theorem Canonical.denotes_perm {entries pairs : Table} (h : Canonical entries)
    (hp : entries.Perm pairs) : Denotes pairs entries := by
  refine ⟨fun e he => h.keyed e (hp.mem_iff.mpr he), h, ?_⟩
  exact get?_perm (hp.trans (List.reverse_perm pairs).symm) h.keyed h.distinct

@[simp] theorem flat_nil : flat [] = [] := rfl

@[simp] theorem flat_cons (pair : Value × Value) (pairs : Table) :
    flat (pair :: pairs) = pair.1 :: pair.2 :: flat pairs := rfl

theorem length_flat (pairs : Table) : (flat pairs).length = 2 * pairs.length := by
  induction pairs with
  | nil => rfl
  | cons pair pairs ih =>
    simp only [flat_cons, List.length_cons, ih]
    omega

theorem flat_injective {xs ys : Table} (h : flat xs = flat ys) : xs = ys := by
  induction xs generalizing ys with
  | nil =>
    cases ys with
    | nil => rfl
    | cons y ys => simp at h
  | cons x xs ih =>
    cases ys with
    | nil => simp at h
    | cons y ys =>
      simp only [flat_cons, List.cons.injEq] at h
      rw [ih h.2.2, Prod.ext h.1 h.2.1]

theorem mem_flat {pairs : Table} {v : Value} :
    v ∈ flat pairs ↔ ∃ pair ∈ pairs, v = pair.1 ∨ v = pair.2 := by
  simp [flat, List.mem_flatMap]

theorem pairUp_flat {pairs : Table} (h : Keyed pairs) : pairUp (flat pairs) = .ok pairs := by
  induction pairs with
  | nil => rfl
  | cons pair pairs ih =>
    rw [flat_cons, pairUp, if_pos (h pair List.mem_cons_self),
      ih fun e he => h e (List.mem_cons_of_mem _ he)]
    rfl

theorem eq_flat_of_pairUp {items : List Value} {pairs : Table} (h : pairUp items = .ok pairs) :
    items = flat pairs ∧ Keyed pairs := by
  fun_induction pairUp items generalizing pairs with
  | case1 =>
    cases h
    exact ⟨rfl, canonical_nil.keyed⟩
  | case2 => cases h
  | case3 key value rest hkey ih =>
    cases hrest : pairUp rest with
    | error e =>
      rw [hrest] at h
      cases h
    | ok others =>
      rw [hrest] at h
      cases h
      obtain ⟨hflat, hkeyed⟩ := ih hrest
      refine ⟨by rw [flat_cons, hflat], ?_⟩
      intro e he
      rcases List.mem_cons.mp he with rfl | he
      · exact hkey
      · exact hkeyed e he
  | case4 => cases h

/-- Alternating keys and values can be entered just if they come in pairs of a key and a value. -/
theorem insertPairs_eq_ok {entries result : Table} {items : List Value} :
    insertPairs entries items = .ok result ↔ ∃ pairs, items = flat pairs ∧ Keyed pairs ∧
      result = union entries (ofEntries pairs.length.log2 pairs) := by
  constructor
  · intro h
    unfold insertPairs at h
    split at h
    · cases hpairs : pairUp items with
      | error e =>
        rw [hpairs] at h
        cases h
      | ok pairs =>
        rw [hpairs] at h
        cases h
        obtain ⟨hflat, hkeyed⟩ := eq_flat_of_pairUp hpairs
        exact ⟨pairs, hflat, hkeyed, rfl⟩
    · cases h
  · rintro ⟨pairs, rfl, hkeyed, rfl⟩
    rw [insertPairs, if_pos (by rw [length_flat]; omega), pairUp_flat hkeyed]
    rfl

theorem denotes_ofEntries {pairs : Table} (h : Keyed pairs) :
    Denotes pairs (ofEntries pairs.length.log2 pairs) :=
  ⟨h, canonical_ofEntries _ h, get?_ofEntries _ h⟩

/-- Alternating keys and values give a table just if they come in pairs of a key and a value, and
then the one they denote. -/
theorem insertPairs_eq_ok_iff {items : List Value} {entries : Table} :
    insertPairs [] items = .ok entries ↔
      ∃ pairs, items = flat pairs ∧ Denotes pairs entries := by
  simp only [insertPairs_eq_ok, nil_union]
  constructor
  · rintro ⟨pairs, hflat, hkeyed, rfl⟩
    exact ⟨pairs, hflat, denotes_ofEntries hkeyed⟩
  · rintro ⟨pairs, hflat, hdenotes⟩
    exact ⟨pairs, hflat, hdenotes.keyed, hdenotes.unique (denotes_ofEntries hdenotes.keyed)⟩

end Table

end Lisp
