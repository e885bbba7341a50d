import Lisp.Proofs.Renaming
import Mathlib.Data.List.Pairwise
import Mathlib.Data.List.Perm.Basic
import Mathlib.Tactic.Choose

/-!
# Equality

Two lists, vectors or maps are equal if they are one object, or else by what they contain: maps by
an entry of the second for each entry of the first. Where no map has two equal keys this is
symmetric and transitive. A function equals nothing, so a value that holds one equals no value that
is made of other objects; but it equals itself, unless it is a function.
-/

namespace Lisp

namespace Value

/-- Functions and macros. -/
def isProcedure (v : Value) : Bool :=
  v.isFunction || v.isMacro

/-- No function or macro occurs in the value. -/
def ProcedureFree (v : Value) : Prop :=
  ∀ f, Occurs f v → f.isProcedure = false

theorem ProcedureFree.part {p v : Value} (h : ProcedureFree v) (hp : p ∈ v.parts) :
    ProcedureFree p :=
  fun f hf => h f (.within hp hf)

mutual

/-- The numbers of the lists, vectors and maps that a value is made of. -/
def objectIds : Value → List ObjectId
  | list id items => id :: objectIdsAll items
  | vec id items => id :: objectIdsAll items
  | map id entries => id :: objectIdsEntries entries
  | closure params body _ _ => objectIds body ++ objectIdsAll params
  | _ => []

def objectIdsAll : List Value → List ObjectId
  | [] => []
  | v :: vs => objectIds v ++ objectIdsAll vs

def objectIdsEntries : Table → List ObjectId
  | [] => []
  | (k, v) :: entries => objectIds k ++ objectIds v ++ objectIdsEntries entries

end

theorem objectIdsAll_eq_flatMap (vs : List Value) : objectIdsAll vs = vs.flatMap objectIds := by
  induction vs with
  | nil => rw [objectIdsAll, List.flatMap_nil]
  | cons v vs ih => rw [objectIdsAll, ih, List.flatMap_cons]

theorem objectIdsEntries_eq_flatMap (entries : Table) :
    objectIdsEntries entries = (Table.flat entries).flatMap objectIds := by
  induction entries with
  | nil => rw [objectIdsEntries, Table.flat_nil, List.flatMap_nil]
  | cons entry entries ih =>
    rw [objectIdsEntries, ih, Table.flat_cons, List.flatMap_cons, List.flatMap_cons,
      List.append_assoc]

theorem mem_objectIds_of_part {p v : Value} {id : ObjectId} (hp : p ∈ v.parts)
    (h : id ∈ p.objectIds) : id ∈ v.objectIds := by
  have hflat : id ∈ v.parts.flatMap objectIds := List.mem_flatMap.mpr ⟨p, hp, h⟩
  cases v with
  | list i items =>
    rw [objectIds, objectIdsAll_eq_flatMap]
    exact List.mem_cons_of_mem _ hflat
  | vec i items =>
    rw [objectIds, objectIdsAll_eq_flatMap]
    exact List.mem_cons_of_mem _ hflat
  | map i entries =>
    rw [objectIds, objectIdsEntries_eq_flatMap]
    exact List.mem_cons_of_mem _ hflat
  | closure params body scope isMacro =>
    rw [objectIds, objectIdsAll_eq_flatMap, ← List.flatMap_cons]
    exact hflat
  | _ => exact absurd hp List.not_mem_nil

/-- The two values are not made of the same objects anywhere; plain lists, vectors and maps count as
the same. -/
def Apart (v w : Value) : Prop :=
  ∀ id ∈ v.objectIds, id ∉ w.objectIds

instance (v w : Value) : Decidable (Apart v w) :=
  inferInstanceAs (Decidable (∀ id ∈ v.objectIds, id ∉ w.objectIds))

theorem Apart.parts {p q v w : Value} (h : Apart v w) (hp : p ∈ v.parts) (hq : q ∈ w.parts) :
    Apart p q :=
  fun id hid hid' => h id (mem_objectIds_of_part hp hid) (mem_objectIds_of_part hq hid')

theorem sizeOf_lt_of_mem_parts {p v : Value} (h : p ∈ v.parts) : sizeOf p < sizeOf v := by
  cases v with
  | list id items =>
    have hlt := List.sizeOf_lt_of_mem (show p ∈ items from h)
    simp only [list.sizeOf_spec]
    omega
  | vec id items =>
    have hlt := List.sizeOf_lt_of_mem (show p ∈ items from h)
    simp only [vec.sizeOf_spec]
    omega
  | map id entries =>
    obtain ⟨⟨k, w⟩, he, hp⟩ := Table.mem_flat.mp h
    have hlt := List.sizeOf_lt_of_mem he
    simp only [Prod.mk.sizeOf_spec, map.sizeOf_spec] at hlt ⊢
    rcases hp with rfl | rfl <;> omega
  | closure params body scope isMacro =>
    simp only [closure.sizeOf_spec]
    rcases List.mem_cons.mp (show p ∈ body :: params from h) with rfl | hp
    · omega
    · have hlt := List.sizeOf_lt_of_mem hp
      omega
  | _ => exact absurd h List.not_mem_nil

/-! ## What equality means -/

/-- Two values are equal: they are one and the same, which no function can be, or they are
collections of one kind with equal contents. -/
inductive Equal : Value → Value → Prop
  | same {v : Value} : v.isProcedure = false → Equal v v
  | list {i j : ObjectId} {xs ys : List Value} : beqAll xs ys = true → Equal (list i xs) (list j ys)
  | vec {i j : ObjectId} {xs ys : List Value} : beqAll xs ys = true → Equal (vec i xs) (vec j ys)
  | map {i j : ObjectId} {xs ys : Table} : xs.length = ys.length → entriesIn xs ys ys = true →
      Equal (map i xs) (map j ys)

theorem Equal.of_sameItems {i j : ObjectId} {xs ys : List Value}
    (h : sameItems i j xs ys = true) : i = j ∧ xs = ys := by
  simp only [sameItems, withPtrEq, Bool.and_eq_true, beq_iff_eq] at h
  exact ⟨h.1, eq_of_sameAll h.2⟩

theorem Equal.of_sameTable {i j : ObjectId} {xs ys : Table}
    (h : sameTable i j xs ys = true) : i = j ∧ xs = ys := by
  simp only [sameTable, withPtrEq, Bool.and_eq_true, beq_iff_eq] at h
  exact ⟨h.1, eq_of_sameEntries h.2⟩

/-- Whatever is no function equals itself, and be it for being the same object. -/
theorem beq_self_iff {v : Value} : v.beq v = true ↔ v.isProcedure = false := by
  cases v with
  | list id items =>
    simp [beq, sameItems, withPtrEq, sameAll_self, isProcedure, isFunction, isMacro]
  | vec id items => simp [beq, sameItems, withPtrEq, sameAll_self, isProcedure, isFunction, isMacro]
  | map id entries =>
    simp [beq, sameTable, withPtrEq, sameEntries_self, isProcedure, isFunction, isMacro]
  | _ => simp [beq, isProcedure, isFunction, isMacro]

theorem beq_iff_equal {v w : Value} : v.beq w = true ↔ Equal v w := by
  constructor
  · intro h
    cases v with
    | list i xs =>
      cases w with
      | list j ys =>
        rw [beq, Bool.or_eq_true] at h
        rcases h with h | h
        · obtain ⟨rfl, rfl⟩ := Equal.of_sameItems h
          exact .same rfl
        · exact .list h
      | _ => simp [beq] at h
    | vec i xs =>
      cases w with
      | vec j ys =>
        rw [beq, Bool.or_eq_true] at h
        rcases h with h | h
        · obtain ⟨rfl, rfl⟩ := Equal.of_sameItems h
          exact .same rfl
        · exact .vec h
      | _ => simp [beq] at h
    | map i xs =>
      cases w with
      | map j ys =>
        rw [beq, Bool.or_eq_true, Bool.and_eq_true, beq_iff_eq] at h
        rcases h with h | h
        · obtain ⟨rfl, rfl⟩ := Equal.of_sameTable h
          exact .same rfl
        · exact .map h.1 h.2
      | _ => simp [beq] at h
    | float x =>
      cases w with
      | float y =>
        cases x
        cases y
        simp only [beq, beq_iff_eq] at h
        exact h ▸ .same rfl
      | _ => simp [beq] at h
    | nil =>
      cases w with
      | nil => exact .same rfl
      | _ => simp [beq] at h
    | _ =>
      cases w <;> simp only [beq, beq_iff_eq, Bool.false_eq_true] at h
      all_goals exact h ▸ .same rfl
  · intro h
    cases h with
    | same h => exact beq_self_iff.mpr h
    | list h => rw [beq, h, Bool.or_true]
    | vec h => rw [beq, h, Bool.or_true]
    | map hlength h => rw [beq, h, hlength, beq_self_eq_true, Bool.and_true, Bool.or_true]

theorem exists_beq_of_beqAll {xs ys : List Value} (h : beqAll xs ys = true) :
    ∀ x ∈ xs, ∃ y ∈ ys, x.beq y = true := by
  induction xs generalizing ys with
  | nil => exact List.forall_mem_nil _
  | cons x xs ih =>
    cases ys with
    | nil => simp [beqAll] at h
    | cons y ys =>
      rw [beqAll, Bool.and_eq_true] at h
      refine List.forall_mem_cons.mpr ⟨⟨y, List.mem_cons_self, h.1⟩, fun z hz => ?_⟩
      obtain ⟨w, hw, hzw⟩ := ih h.2 z hz
      exact ⟨w, List.mem_cons_of_mem _ hw, hzw⟩

end Value

namespace Table

/-- No key equals one that stands after it. -/
def Unequal (entries : Table) : Prop :=
  entries.Pairwise fun a b => a.1.beq b.1 = false

instance : DecidablePred Unequal := fun entries =>
  inferInstanceAs (Decidable (entries.Pairwise fun a b => a.1.beq b.1 = false))

/-- Each entry of the first table has an entry of the second with an equal key and an equal
value. -/
def Covered (xs ys : Table) : Prop :=
  ∀ x ∈ xs, ∃ y ∈ ys, x.1.beq y.1 = true ∧ x.2.beq y.2 = true

/-- A key of the first table is found under one entry of the second at most. -/
def FoundOnce (xs ys : Table) : Prop :=
  ∀ x ∈ xs, ∀ y ∈ ys, ∀ z ∈ ys, x.1.beq y.1 = true → x.1.beq z.1 = true → y = z

theorem covered_of_entriesIn {xs ahead ys : Table} (h : Value.entriesIn xs ahead ys = true)
    (hahead : ∀ entry ∈ ahead, entry ∈ ys) : Covered xs ys := by
  induction xs generalizing ahead with
  | nil => exact List.forall_mem_nil _
  | cons x xs ih =>
    rw [Value.entriesIn, Bool.and_eq_true] at h
    refine List.forall_mem_cons.mpr ⟨?_, ih h.2 fun e he => hahead e (List.mem_of_mem_tail he)⟩
    obtain ⟨hfound, -⟩ := h
    split at hfound
    · next entry hfind =>
      have hmem : entry ∈ ys := by
        rcases List.mem_append.mp (List.mem_of_find?_eq_some hfind) with hm | hm
        · exact hahead entry (List.mem_of_mem_take hm)
        · exact hm
      have hkey : x.1.beq entry.1 = true := by simpa using List.find?_some hfind
      exact ⟨entry, hmem, hkey, hfound⟩
    · cases hfound

/-- Where a key is found once at most, it does not matter in which order the search goes. -/
theorem entriesIn_of_covered {xs ahead ys : Table} (hahead : ∀ entry ∈ ahead, entry ∈ ys)
    (honce : FoundOnce xs ys) (h : Covered xs ys) : Value.entriesIn xs ahead ys = true := by
  induction xs generalizing ahead with
  | nil => rw [Value.entriesIn]
  | cons x xs ih =>
    obtain ⟨⟨y, hy, hkey, hvalue⟩, hrest⟩ := List.forall_mem_cons.mp h
    obtain ⟨honce, honceRest⟩ := List.forall_mem_cons.mp honce
    have hsearched : ∀ entry ∈ ahead.take 1 ++ ys, entry ∈ ys := by
      intro entry he
      rcases List.mem_append.mp he with hm | hm
      · exact hahead entry (List.mem_of_mem_take hm)
      · exact hm
    have hfind : (ahead.take 1 ++ ys).find? (fun entry => x.1.beq entry.1) = some y := by
      cases hfound : (ahead.take 1 ++ ys).find? (fun entry => x.1.beq entry.1) with
      | none =>
        have hnone := List.find?_eq_none.mp hfound y (List.mem_append_right _ hy)
        exact absurd hkey hnone
      | some z =>
        have hz := hsearched z (List.mem_of_find?_eq_some hfound)
        have hkey' : x.1.beq z.1 = true := by simpa using List.find?_some hfound
        rw [honce y hy z hz hkey hkey']
    rw [Value.entriesIn, hfind]
    simp only [hvalue, Bool.true_and]
    exact ih (fun e he => hahead e (List.mem_of_mem_tail he)) honceRest hrest

end Table

theorem Table.entriesIn_iff {xs ys : Table} (honce : FoundOnce xs ys) :
    Value.entriesIn xs ys ys = true ↔ Covered xs ys :=
  ⟨fun h => covered_of_entriesIn h fun _ he => he, entriesIn_of_covered (fun _ he => he) honce⟩

/-! ## Symmetry and transitivity -/

/-- Equality is symmetric and transitive on the values with a property. -/
structure EquivalenceOn (property : Value → Prop) : Prop where
  symm {a b : Value} : property a → property b → a.beq b = true → b.beq a = true
  trans {a b c : Value} : property a → property b → property c →
    a.beq b = true → b.beq c = true → a.beq c = true

/-- All that stands in the table has the property. -/
def Table.All (property : Value → Prop) (entries : Table) : Prop :=
  ∀ entry ∈ entries, property entry.1 ∧ property entry.2

theorem Table.all_of_parts {property : Value → Prop} {id : ObjectId} {entries : Table}
    (h : ∀ p ∈ (Value.map id entries).parts, property p) : All property entries := fun e he =>
  ⟨h _ (mem_flat.mpr ⟨e, he, Or.inl rfl⟩), h _ (mem_flat.mpr ⟨e, he, Or.inr rfl⟩)⟩

section

variable {property : Value → Prop} (h : EquivalenceOn property)
include h

theorem Value.beqAll_symm {xs ys : List Value} (hx : ∀ x ∈ xs, property x)
    (hy : ∀ y ∈ ys, property y) (hxy : beqAll xs ys = true) : beqAll ys xs = true := by
  induction xs generalizing ys with
  | nil =>
    cases ys with
    | nil => exact hxy
    | cons y ys => simp [beqAll] at hxy
  | cons x xs ih =>
    cases ys with
    | nil => simp [beqAll] at hxy
    | cons y ys =>
      obtain ⟨hx, hxs⟩ := List.forall_mem_cons.mp hx
      obtain ⟨hy, hys⟩ := List.forall_mem_cons.mp hy
      rw [beqAll, Bool.and_eq_true] at hxy ⊢
      exact ⟨h.symm hx hy hxy.1, ih hxs hys hxy.2⟩

theorem Value.beqAll_trans {xs ys zs : List Value} (hx : ∀ x ∈ xs, property x)
    (hy : ∀ y ∈ ys, property y) (hz : ∀ z ∈ zs, property z) (hxy : beqAll xs ys = true)
    (hyz : beqAll ys zs = true) : beqAll xs zs = true := by
  induction xs generalizing ys zs with
  | nil =>
    cases ys with
    | nil => exact hyz
    | cons y ys => simp [beqAll] at hxy
  | cons x xs ih =>
    cases ys with
    | nil => simp [beqAll] at hxy
    | cons y ys =>
      cases zs with
      | nil => simp [beqAll] at hyz
      | cons z zs =>
        obtain ⟨hx, hxs⟩ := List.forall_mem_cons.mp hx
        obtain ⟨hy, hys⟩ := List.forall_mem_cons.mp hy
        obtain ⟨hz, hzs⟩ := List.forall_mem_cons.mp hz
        rw [beqAll, Bool.and_eq_true] at hxy hyz ⊢
        exact ⟨h.trans hx hy hz hxy.1 hyz.1, ih hxs hys hzs hxy.2 hyz.2⟩

namespace Table

variable {xs ys zs : Table}

theorem foundOnce (hx : All property xs) (hy : All property ys) (hunequal : Unequal ys) :
    FoundOnce xs ys := by
  intro x hxs y hys z hzs hxy hxz
  by_contra hne
  have hboth : ys.Pairwise fun a b => a.1.beq b.1 = false ∧ b.1.beq a.1 = false := by
    refine hunequal.imp_of_mem fun {a b} ha hb hab => ⟨hab, ?_⟩
    rw [← Bool.not_eq_true] at hab ⊢
    exact fun hba => hab (h.symm (hy b hb).1 (hy a ha).1 hba)
  have hsymm : Std.Symm fun a b : Value × Value => a.1.beq b.1 = false ∧ b.1.beq a.1 = false :=
    ⟨fun _ _ hab => hab.symm⟩
  have hyx := h.symm (hx x hxs).1 (hy y hys).1 hxy
  have hyz := h.trans (hy y hys).1 (hx x hxs).1 (hy z hzs).1 hyx hxz
  rw [(hboth.forall hys hzs hne).1] at hyz
  cases hyz

/-- Between tables of one size covering goes both ways: entries with unequal keys have different
partners, so that every entry of the second table is one. -/
theorem Covered.symm (hx : All property xs) (hy : All property ys) (hunequal : Unequal xs)
    (hlength : xs.length = ys.length) (hcovered : Covered xs ys) : Covered ys xs := by
  choose! partner hmem hkey hvalue using hcovered
  have hnodup : (xs.map partner).Nodup := by
    refine List.pairwise_map.mpr (hunequal.imp_of_mem fun {a b} ha hb hab heq => ?_)
    have hpa := (hy _ (hmem a ha)).1
    have hpb := h.symm (hx b hb).1 (hy _ (hmem b hb)).1 (hkey b hb)
    rw [← heq] at hpb
    rw [h.trans (hx a ha).1 hpa (hx b hb).1 (hkey a ha) hpb] at hab
    cases hab
  have hsubset : xs.map partner ⊆ ys := fun y hys => by
    obtain ⟨x, hxs, rfl⟩ := List.mem_map.mp hys
    exact hmem x hxs
  have hperm : (xs.map partner).Perm ys :=
    (List.subperm_of_subset hnodup hsubset).perm_of_length_le (by simp [hlength])
  intro y hys
  obtain ⟨x, hxs, rfl⟩ := List.mem_map.mp (hperm.mem_iff.mpr hys)
  exact ⟨x, hxs, h.symm (hx x hxs).1 (hy _ hys).1 (hkey x hxs),
    h.symm (hx x hxs).2 (hy _ hys).2 (hvalue x hxs)⟩

theorem Covered.trans (hx : All property xs) (hy : All property ys) (hz : All property zs)
    (hxy : Covered xs ys) (hyz : Covered ys zs) : Covered xs zs := by
  intro x hxs
  obtain ⟨y, hys, hkey, hvalue⟩ := hxy x hxs
  obtain ⟨z, hzs, hkey', hvalue'⟩ := hyz y hys
  exact ⟨z, hzs, h.trans (hx x hxs).1 (hy y hys).1 (hz z hzs).1 hkey hkey',
    h.trans (hx x hxs).2 (hy y hys).2 (hz z hzs).2 hvalue hvalue'⟩

end Table

/-- From the parts of values symmetry and transitivity are carried over to the values. -/
theorem EquivalenceOn.extend {wider : Value → Prop}
    (hwider : ∀ v, wider v → v.EachMap Table.Unequal ∧ ∀ p ∈ v.parts, property p) :
    EquivalenceOn wider where
  symm {a b} ha hb hab := by
    obtain ⟨hamaps, haparts⟩ := hwider a ha
    obtain ⟨hbmaps, hbparts⟩ := hwider b hb
    rw [Value.beq_iff_equal] at hab ⊢
    cases hab with
    | same hv => exact .same hv
    | list hxy => exact .list (Value.beqAll_symm h haparts hbparts hxy)
    | vec hxy => exact .vec (Value.beqAll_symm h haparts hbparts hxy)
    | map hlength hxy =>
      have hx := Table.all_of_parts haparts
      have hy := Table.all_of_parts hbparts
      rw [Table.entriesIn_iff (Table.foundOnce h hx hy (hbmaps _ _ .self))] at hxy
      refine .map hlength.symm ((Table.entriesIn_iff ?_).mpr ?_)
      · exact Table.foundOnce h hy hx (hamaps _ _ .self)
      · exact hxy.symm h hx hy (hamaps _ _ .self) hlength
  trans {a b c} ha hb hc hab hbc := by
    obtain ⟨-, haparts⟩ := hwider a ha
    obtain ⟨hbmaps, hbparts⟩ := hwider b hb
    obtain ⟨hcmaps, hcparts⟩ := hwider c hc
    rw [Value.beq_iff_equal] at hab hbc ⊢
    cases hab with
    | same _ => exact hbc
    | list hxy =>
      cases hbc with
      | same _ => exact .list hxy
      | list hyz => exact .list (Value.beqAll_trans h haparts hbparts hcparts hxy hyz)
    | vec hxy =>
      cases hbc with
      | same _ => exact .vec hxy
      | vec hyz => exact .vec (Value.beqAll_trans h haparts hbparts hcparts hxy hyz)
    | map hlength hxy =>
      cases hbc with
      | same _ => exact .map hlength hxy
      | map hlength' hyz =>
        have hx := Table.all_of_parts haparts
        have hy := Table.all_of_parts hbparts
        have hz := Table.all_of_parts hcparts
        rw [Table.entriesIn_iff (Table.foundOnce h hx hy (hbmaps _ _ .self))] at hxy
        rw [Table.entriesIn_iff (Table.foundOnce h hy hz (hcmaps _ _ .self))] at hyz
        refine .map (hlength.trans hlength') ((Table.entriesIn_iff ?_).mpr ?_)
        · exact Table.foundOnce h hx hz (hcmaps _ _ .self)
        · exact hxy.trans h hx hy hz hyz

end

/-- Equality is symmetric and transitive on values whose maps have unequal keys. -/
theorem equivalenceOn_unequal : EquivalenceOn fun v => v.EachMap Table.Unequal := by
  -- The induction is on a bound for the sizes of all the values compared.
  have hbounded : ∀ bound,
      EquivalenceOn fun v => v.EachMap Table.Unequal ∧ sizeOf v < bound := by
    intro bound
    induction bound with
    | zero =>
      exact ⟨fun ha => absurd ha.2 (Nat.not_lt_zero _), fun ha => absurd ha.2 (Nat.not_lt_zero _)⟩
    | succ bound ih =>
      refine ih.extend fun v hv => ⟨hv.1, fun p hp => ⟨hv.1.part hp, ?_⟩⟩
      exact Nat.lt_of_lt_of_le (Value.sizeOf_lt_of_mem_parts hp) (Nat.le_of_lt_succ hv.2)
  constructor
  · intro a b ha hb hab
    exact (hbounded (sizeOf a + sizeOf b + 1)).symm ⟨ha, by omega⟩ ⟨hb, by omega⟩ hab
  · intro a b c ha hb hc hab hbc
    exact (hbounded (sizeOf a + sizeOf b + sizeOf c + 1)).trans ⟨ha, by omega⟩ ⟨hb, by omega⟩
      ⟨hc, by omega⟩ hab hbc

/-! ## Values that hold functions -/

namespace Value

theorem procedureFree_iff {v : Value} :
    ProcedureFree v ↔ v.isProcedure = false ∧ ∀ p ∈ v.parts, ProcedureFree p := by
  constructor
  · exact fun h => ⟨h v .self, fun p hp => h.part hp⟩
  · rintro ⟨hv, hparts⟩ f hf
    cases hf with
    | self => exact hv
    | within hp hf => exact hparts _ hp f hf

/-- A value that shares no object with itself has no parts, unless it is a function. -/
theorem Apart.parts_eq_nil {v : Value} (h : Apart v v) (hv : v.isProcedure = false) :
    v.parts = [] := by
  cases v with
  | list id items => exact absurd List.mem_cons_self (h id List.mem_cons_self)
  | vec id items => exact absurd List.mem_cons_self (h id List.mem_cons_self)
  | map id entries => exact absurd List.mem_cons_self (h id List.mem_cons_self)
  | closure params body scope isMacro => cases isMacro <;> cases hv
  | _ => rfl

/-- Values that are equal without sharing an object hold no functions. -/
theorem Equal.procedureFree {v w : Value} (hvw : Equal v w) (hapart : Apart v w) :
    ProcedureFree v := by
  induction hsize : sizeOf v using Nat.strongRecOn generalizing v w with
  | ind size ih =>
    subst hsize
    -- Each part equals a part of the other value, and the two share no object either.
    have hpart : ∀ p ∈ v.parts, ∀ q ∈ w.parts, p.beq q = true → ProcedureFree p :=
      fun p hp q hq hpq => ih (sizeOf p) (sizeOf_lt_of_mem_parts hp) (beq_iff_equal.mp hpq)
        (hapart.parts hp hq) rfl
    cases hvw with
    | same hv =>
      refine procedureFree_iff.mpr ⟨hv, ?_⟩
      rw [hapart.parts_eq_nil hv]
      exact List.forall_mem_nil _
    | list hxy =>
      refine procedureFree_iff.mpr ⟨rfl, fun p hp => ?_⟩
      obtain ⟨q, hq, hpq⟩ := exists_beq_of_beqAll hxy p hp
      exact hpart p hp q hq hpq
    | vec hxy =>
      refine procedureFree_iff.mpr ⟨rfl, fun p hp => ?_⟩
      obtain ⟨q, hq, hpq⟩ := exists_beq_of_beqAll hxy p hp
      exact hpart p hp q hq hpq
    | map hlength hxy =>
      refine procedureFree_iff.mpr ⟨rfl, fun p hp => ?_⟩
      obtain ⟨x, hx, hpx⟩ := Table.mem_flat.mp hp
      obtain ⟨y, hy, hkey, hvalue⟩ := Table.covered_of_entriesIn hxy (fun _ he => he) x hx
      rcases hpx with rfl | rfl
      · exact hpart _ hp y.1 (Table.mem_flat.mpr ⟨y, hy, Or.inl rfl⟩) hkey
      · exact hpart _ hp y.2 (Table.mem_flat.mpr ⟨y, hy, Or.inr rfl⟩) hvalue

/-! ## Copies of a value -/

section

variable (r : Renaming)

theorem parts_rename (v : Value) : (v.rename r).parts = v.parts.map (rename r) := by
  cases v with
  | list id items => rw [rename_list, parts, parts]
  | vec id items => rw [rename_vec, parts, parts]
  | map id entries =>
    rw [rename_map, parts, parts, Table.flat, Table.flat, Table.rename, List.flatMap_map,
      List.map_flatMap]
    rfl
  | closure params body scope isMacro => rw [rename_closure, parts, parts, List.map_cons]
  | _ => rfl

/-- What occurs in a renamed value is what occurs in the value, renamed. -/
theorem exists_occurs_of_occurs_rename {w v : Value} (h : Occurs w (v.rename r)) :
    ∃ u, Occurs u v ∧ w = u.rename r := by
  generalize hv : v.rename r = v' at h
  induction h generalizing v with
  | self => exact ⟨v, .self, hv.symm⟩
  | @within p v' hp _ ih =>
    subst hv
    rw [parts_rename] at hp
    obtain ⟨q, hq, rfl⟩ := List.mem_map.mp hp
    obtain ⟨u, hu, rfl⟩ := ih rfl
    exact ⟨u, .within hq hu, rfl⟩

theorem unequal_rename {entries : Table} (h : Table.Unequal entries) :
    Table.Unequal (entries.rename r) := by
  refine List.pairwise_map.mpr (h.imp fun {a b} hab => ?_)
  rw [Prod.map_fst, Prod.map_fst, beq_rename]
  exact hab

theorem EachMap.rename {v : Value} (h : v.EachMap Table.Unequal) :
    (v.rename r).EachMap Table.Unequal := by
  intro id entries hmap
  obtain ⟨u, hu, heq⟩ := exists_occurs_of_occurs_rename r hmap
  cases u with
  | map id' entries' =>
    rw [rename_map] at heq
    cases heq
    exact unequal_rename r (h id' entries' hu)
  | _ => simp [Value.rename] at heq

theorem beqAll_map_rename {vs : List Value} (h : ∀ v ∈ vs, v.beq (v.rename r) = true) :
    beqAll vs (vs.map (Value.rename r)) = true := by
  induction vs with
  | nil => rw [List.map_nil, beqAll]
  | cons v vs ih =>
    obtain ⟨hv, hvs⟩ := List.forall_mem_cons.mp h
    rw [List.map_cons, beqAll, hv, ih hvs]
    rfl

/-- A value without functions equals every copy of it. -/
theorem ProcedureFree.beq_rename {v : Value} (hfree : ProcedureFree v)
    (hmaps : v.EachMap Table.Unequal) : v.beq (v.rename r) = true := by
  induction hsize : sizeOf v using Nat.strongRecOn generalizing v with
  | ind size ih =>
    subst hsize
    have hpart : ∀ p ∈ v.parts, p.beq (p.rename r) = true := fun p hp =>
      ih (sizeOf p) (sizeOf_lt_of_mem_parts hp) (hfree.part hp) (hmaps.part hp) rfl
    rw [beq_iff_equal]
    cases v with
    | list id items =>
      rw [rename_list]
      exact .list (beqAll_map_rename r hpart)
    | vec id items =>
      rw [rename_vec]
      exact .vec (beqAll_map_rename r hpart)
    | map id entries =>
      have hx := Table.all_of_parts fun p hp => hmaps.part hp
      have hy : Table.All (EachMap Table.Unequal) (Table.rename r entries) := by
        intro y hy
        obtain ⟨x, hm, rfl⟩ := List.mem_map.mp hy
        exact ⟨(hx x hm).1.rename r, (hx x hm).2.rename r⟩
      have honce := Table.foundOnce equivalenceOn_unequal hx hy
        (unequal_rename r (hmaps id entries .self))
      rw [rename_map]
      refine .map (Table.length_rename r entries).symm ((Table.entriesIn_iff honce).mpr ?_)
      intro x hm
      exact ⟨_, List.mem_map_of_mem hm, (Table.all_of_parts hpart x hm).1,
        (Table.all_of_parts hpart x hm).2⟩
    | closure params body scope isMacro =>
      have hproc := hfree _ .self
      cases isMacro <;> cases hproc
    | _ => exact .same (hfree _ .self)

end

end Value

/-! ## Equality as a partial equivalence -/

/-- Where maps have unequal keys, equality is symmetric and transitive; a value equals itself just
if it is no function; and it equals a copy that is made of other objects just if it holds no
function. -/
theorem beq_partial_equivalence {a b c : Value} (ha : a.EachMap Table.Unequal)
    (hb : b.EachMap Table.Unequal) (hc : c.EachMap Table.Unequal) :
    (a.beq b = true → b.beq a = true) ∧
    (a.beq b = true → b.beq c = true → a.beq c = true) ∧
    (a.beq a = true ↔ a.isProcedure = false) ∧
    ∀ r, a.Apart (a.rename r) → (a.beq (a.rename r) = true ↔ a.ProcedureFree) := by
  refine ⟨equivalenceOn_unequal.symm ha hb, equivalenceOn_unequal.trans ha hb hc,
    Value.beq_self_iff, fun r hapart => ⟨fun h => ?_, fun h => h.beq_rename r ha⟩⟩
  exact (Value.beq_iff_equal.mp h).procedureFree hapart

/-- A map that has a vector for a key, another one with its entries in another order, and a copy of
the first. -/
theorem beq_partial_equivalence_vector_key :
    let r : Renaming := ⟨fun f => f, (· + 4), fun h => h, Nat.add_right_cancel⟩
    let a : Value := .map (some 0) [(.vec (some 1) [.int 1], .nil), (.kw "k", .atom 0)]
    let b : Value := .map (some 2) [(.kw "k", .atom 0), (.vec (some 3) [.int 1], .nil)]
    let c : Value := a.rename r
    a.beq b = true ∧ b.beq c = true ∧ b.beq a = true ∧ a.beq c = true ∧ a.Apart c ∧
      a.ProcedureFree := by
  intro r a b c
  have hab : a.beq b = true := by decide +kernel
  have hbc : b.beq c = true := by decide +kernel
  have hapart : a.Apart c := by decide +kernel
  obtain ⟨hsymm, htrans, -, hcopy⟩ := beq_partial_equivalence (a := a) (b := b) (c := c)
    (Value.eachMap_of_checkMaps (by decide +kernel))
    (Value.eachMap_of_checkMaps (by decide +kernel))
    (Value.eachMap_of_checkMaps (by decide +kernel))
  exact ⟨hab, hbc, hsymm hab, htrans hab hbc, hapart, (hcopy r hapart).mp (htrans hab hbc)⟩

/-- A list that holds a function equals itself, and no other list that holds the same function. -/
theorem beq_self_list_of_function :
    let a : Value := .list (some 0) [.builtin (.arithmetic .add)]
    let b : Value := .list (some 1) [.builtin (.arithmetic .add)]
    a.EachMap Table.Unequal ∧ ¬ a.ProcedureFree ∧ a.beq a = true ∧ a.beq b = false := by
  intro a b
  refine ⟨Value.eachMap_of_checkMaps (by decide +kernel), fun h => ?_, by decide +kernel,
    by decide +kernel⟩
  have hadd := h (.builtin (.arithmetic .add)) (.within List.mem_cons_self .self)
  cases hadd

end Lisp
