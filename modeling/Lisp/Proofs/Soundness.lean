import Lisp.Eval.SpecialForm
import Lisp.Proofs.Reader

/-!
# Sound values

A value may name a cell, a frame or the objects that it is made of. It is sound where as many of
them have been made that all these names mean something, and where its maps are kept in the form in
which maps are kept. Whatever a function makes of sound values without evaluating anything is sound
again, and what is read from a text is sound anywhere.
-/

namespace Lisp

/-! ## Extents -/

/-- How many frames, cells and objects have been made. -/
structure Extent where
  frames : Nat
  cells : Nat
  objects : Nat

namespace Extent

/-- There is no less of anything. -/
structure Le (x y : Extent) : Prop where
  frames : x.frames ≤ y.frames
  cells : x.cells ≤ y.cells
  objects : x.objects ≤ y.objects

instance : LE Extent := ⟨Le⟩

/-- The extent in which nothing has been made. -/
def empty : Extent := ⟨0, 0, 0⟩

theorem le_refl (x : Extent) : x ≤ x :=
  ⟨Nat.le_refl _, Nat.le_refl _, Nat.le_refl _⟩

theorem le_trans {x y z : Extent} (hxy : x ≤ y) (hyz : y ≤ z) : x ≤ z :=
  ⟨Nat.le_trans hxy.frames hyz.frames, Nat.le_trans hxy.cells hyz.cells,
    Nat.le_trans hxy.objects hyz.objects⟩

theorem empty_le (x : Extent) : empty ≤ x :=
  ⟨Nat.zero_le _, Nat.zero_le _, Nat.zero_le _⟩

end Extent

/-! ## Occurrence -/

namespace Value

/-- What a value is put together from. -/
def parts : Value → List Value
  | list _ items => items
  | vec _ items => items
  | map _ entries => Table.flat entries
  | closure params body _ _ => body :: params
  | _ => []

/-- A value occurs in another one: it is that value, or occurs in a part of it. -/
inductive Occurs (w : Value) : Value → Prop
  | self : Occurs w w
  | within {p v : Value} : p ∈ v.parts → Occurs w p → Occurs w v

/-- Every map that occurs in the value has the property. -/
def EachMap (property : Table → Prop) (v : Value) : Prop :=
  ∀ id entries, Occurs (.map id entries) v → property entries

theorem EachMap.part {property : Table → Prop} {p v : Value} (h : EachMap property v)
    (hp : p ∈ v.parts) : EachMap property p :=
  fun id entries hmap => h id entries (.within hp hmap)

mutual

/-- Looks at every map that occurs in the value. -/
def checkMaps (check : Table → Bool) : Value → Bool
  | list _ items => checkMapsAll check items
  | vec _ items => checkMapsAll check items
  | map _ entries => check entries && checkMapsEntries check entries
  | closure params body _ _ => checkMaps check body && checkMapsAll check params
  | _ => true

def checkMapsAll (check : Table → Bool) : List Value → Bool
  | [] => true
  | v :: vs => checkMaps check v && checkMapsAll check vs

def checkMapsEntries (check : Table → Bool) : Table → Bool
  | [] => true
  | (k, v) :: entries => checkMaps check k && checkMaps check v && checkMapsEntries check entries

end

theorem checkMapsAll_iff {check : Table → Bool} {vs : List Value} :
    checkMapsAll check vs = true ↔ ∀ v ∈ vs, checkMaps check v = true := by
  induction vs with
  | nil => simp [checkMapsAll]
  | cons v vs ih => simp [checkMapsAll, ih]

theorem checkMapsEntries_iff {check : Table → Bool} {entries : Table} :
    checkMapsEntries check entries = true ↔ ∀ p ∈ Table.flat entries, checkMaps check p = true := by
  induction entries with
  | nil => simp [checkMapsEntries]
  | cons entry entries ih => simp [checkMapsEntries, ih, and_assoc]

theorem checkMaps_part {check : Table → Bool} {p v : Value} (hp : p ∈ v.parts)
    (h : checkMaps check v = true) : checkMaps check p = true := by
  cases v with
  | list id items => exact checkMapsAll_iff.mp h p hp
  | vec id items => exact checkMapsAll_iff.mp h p hp
  | map id entries =>
    rw [checkMaps, Bool.and_eq_true] at h
    exact checkMapsEntries_iff.mp h.2 p hp
  | closure params body scope isMacro =>
    rw [checkMaps, Bool.and_eq_true, checkMapsAll_iff] at h
    rcases List.mem_cons.mp hp with rfl | hp
    · exact h.1
    · exact h.2 p hp
  | _ => exact absurd hp List.not_mem_nil

theorem eachMap_of_checkMaps {property : Table → Prop} [DecidablePred property] {v : Value}
    (h : checkMaps (fun entries => decide (property entries)) v = true) : EachMap property v := by
  intro id entries hmap
  induction hmap with
  | self =>
    rw [checkMaps, Bool.and_eq_true] at h
    exact of_decide_eq_true h.1
  | within hp _ ih => exact ih (checkMaps_part hp h)

/-- A value that names nothing and has no parts. -/
def isScalar : Value → Bool
  | list _ _ => false
  | vec _ _ => false
  | map _ _ => false
  | atom _ => false
  | closure _ _ _ _ => false
  | _ => true

/-- The cell, the frame or the object that the value itself names has been made, and if it is a map
its keys are in order. -/
def Anchored (x : Extent) : Value → Prop
  | list id _ => ∀ i ∈ id, i < x.objects
  | vec id _ => ∀ i ∈ id, i < x.objects
  | map id entries => (∀ i ∈ id, i < x.objects) ∧ Table.Canonical entries
  | atom id => id < x.cells
  | closure _ _ scope _ => scope < x.frames
  | _ => True

/-- All that occurs in the value is anchored. -/
def Sound (x : Extent) (v : Value) : Prop :=
  ∀ w, Occurs w v → Anchored x w

theorem Anchored.mono {x y : Extent} (hxy : x ≤ y) {v : Value} (h : Anchored x v) :
    Anchored y v := by
  cases v with
  | list id items => exact fun i hi => Nat.lt_of_lt_of_le (h i hi) hxy.objects
  | vec id items => exact fun i hi => Nat.lt_of_lt_of_le (h i hi) hxy.objects
  | map id entries => exact ⟨fun i hi => Nat.lt_of_lt_of_le (h.1 i hi) hxy.objects, h.2⟩
  | atom id => exact Nat.lt_of_lt_of_le h hxy.cells
  | closure params body scope isMacro => exact Nat.lt_of_lt_of_le h hxy.frames
  | _ => trivial

theorem Sound.mono {x y : Extent} {v : Value} (h : Sound x v) (hxy : x ≤ y) : Sound y v :=
  fun w hw => (h w hw).mono hxy

theorem sound_iff {x : Extent} {v : Value} :
    Sound x v ↔ Anchored x v ∧ ∀ p ∈ v.parts, Sound x p := by
  constructor
  · exact fun h => ⟨h v .self, fun p hp w hw => h w (.within hp hw)⟩
  · rintro ⟨hv, hparts⟩ w hw
    cases hw with
    | self => exact hv
    | within hp hw => exact hparts _ hp w hw

theorem sound_of_isScalar {x : Extent} {v : Value} (h : v.isScalar = true) : Sound x v := by
  rw [sound_iff]
  cases v <;> simp_all [isScalar, Anchored, parts]

section

variable {x : Extent}

@[simp] theorem sound_list {id : ObjectId} {items : List Value} :
    Sound x (.list id items) ↔ (∀ i ∈ id, i < x.objects) ∧ ∀ v ∈ items, Sound x v :=
  sound_iff

@[simp] theorem sound_vec {id : ObjectId} {items : List Value} :
    Sound x (.vec id items) ↔ (∀ i ∈ id, i < x.objects) ∧ ∀ v ∈ items, Sound x v :=
  sound_iff

@[simp] theorem sound_map {id : ObjectId} {entries : Table} :
    Sound x (.map id entries) ↔ (∀ i ∈ id, i < x.objects) ∧ Table.Canonical entries ∧
      ∀ entry ∈ entries, Sound x entry.1 ∧ Sound x entry.2 := by
  rw [sound_iff, Anchored, and_assoc]
  refine and_congr_right fun _ => and_congr_right fun _ => ?_
  constructor
  · intro h entry he
    exact ⟨h _ (Table.mem_flat.mpr ⟨entry, he, Or.inl rfl⟩),
      h _ (Table.mem_flat.mpr ⟨entry, he, Or.inr rfl⟩)⟩
  · intro h p hp
    obtain ⟨entry, he, rfl | rfl⟩ := Table.mem_flat.mp hp
    · exact (h entry he).1
    · exact (h entry he).2

/-! A value that is no object names none. -/

theorem sound_list_none {items : List Value} :
    Sound x (.list none items) ↔ ∀ v ∈ items, Sound x v := by
  rw [sound_list]
  simp

theorem sound_vec_none {items : List Value} :
    Sound x (.vec none items) ↔ ∀ v ∈ items, Sound x v := by
  rw [sound_vec]
  simp

theorem sound_map_none {entries : Table} :
    Sound x (.map none entries) ↔ Table.Canonical entries ∧
      ∀ entry ∈ entries, Sound x entry.1 ∧ Sound x entry.2 := by
  rw [sound_map]
  simp

@[simp] theorem sound_atom {id : Nat} : Sound x (.atom id) ↔ id < x.cells := by
  rw [sound_iff]
  simp [Anchored, parts]

@[simp] theorem sound_closure {params : List Value} {body : Value} {scope : FrameId}
    {isMacro : Bool} :
    Sound x (.closure params body scope isMacro) ↔
      scope < x.frames ∧ Sound x body ∧ ∀ p ∈ params, Sound x p := by
  rw [sound_iff]
  simp [Anchored, parts]

/-- The elements of a sequence are sound if it is. -/
theorem Sound.seq? {v : Value} (h : Sound x v) {items : List Value} (hs : v.seq? = some items) :
    ∀ item ∈ items, Sound x item := by
  cases v with
  | list id vs =>
    cases hs
    exact (sound_list.mp h).2
  | vec id vs =>
    cases hs
    exact (sound_vec.mp h).2
  | _ => cases hs

/-- A plain list, vector or map that is made an object is sound once the object has been made. -/
theorem Sound.identify {v : Value} {y : Extent} (h : Sound x v) (hxy : x ≤ y) {id : Nat}
    (hid : id < y.objects) : Sound y (v.identify id) := by
  have hy := h.mono hxy
  unfold Value.identify
  split
  · exact sound_list.mpr ⟨by simpa using hid, (sound_list.mp hy).2⟩
  · exact sound_vec.mpr ⟨by simpa using hid, (sound_vec.mp hy).2⟩
  · exact sound_map.mpr ⟨by simpa using hid, (sound_map.mp hy).2⟩
  · exact hy

end

end Value

/-! ## Errors and results -/

namespace Error

/-- An error that holds no value and is not about an unknown cell. -/
def Plain : Error → Prop
  | .thrown _ => False
  | .eval (.unknownAtom _) => False
  | _ => True

/-- A thrown value is sound, and the error is not about an unknown cell. -/
def Sound (x : Extent) : Error → Prop
  | .thrown v => v.Sound x
  | .eval (.unknownAtom _) => False
  | _ => True

theorem Plain.sound {x : Extent} {e : Error} (h : e.Plain) : e.Sound x := by
  cases e with
  | thrown v => exact h.elim
  | eval fault => cases fault <;> first | exact h.elim | trivial
  | _ => trivial

theorem Sound.mono {x y : Extent} {e : Error} (h : e.Sound x) (hxy : x ≤ y) : e.Sound y := by
  cases e with
  | thrown v => exact Value.Sound.mono h hxy
  | eval fault => cases fault <;> first | exact h.elim | trivial
  | _ => trivial

theorem Sound.payload {x : Extent} {e : Error} (h : e.Sound x) : e.payload.Sound x := by
  cases e with
  | thrown v => exact h
  | _ => exact Value.sound_of_isScalar rfl

theorem Sound.ne_unknownAtom {x : Extent} {e : Error} (h : e.Sound x) (id : Nat) :
    e ≠ .eval (.unknownAtom id) := by
  rintro rfl
  exact h

end Error

/-- The result has the property, or is a plain error. -/
def Yields {α : Type} (property : α → Prop) : Except Error α → Prop
  | .ok a => property a
  | .error e => e.Plain

theorem Yields.imp {α : Type} {P Q : α → Prop} {res : Except Error α} (h : Yields P res)
    (hPQ : ∀ a, P a → Q a) : Yields Q res := by
  cases res with
  | ok a => exact hPQ a h
  | error e => exact h

theorem Yields.map {α β : Type} {P : α → Prop} {Q : β → Prop} {res : Except Error α} {f : α → β}
    (h : Yields P res) (hf : ∀ a, P a → Q (f a)) : Yields Q (res.map f) := by
  cases res with
  | ok a => exact hf a h
  | error e => exact h

/-! ## What is read -/

theorem Value.isScalar_ofWord (word : List Char) : (Value.ofWord word).isScalar = true := by
  unfold Value.ofWord
  split
  · rfl
  · split
    · rfl
    · split <;> rfl

namespace Grammar

theorem Encloses.sound {b : Bracket} {vs : List Value} {v : Value} (h : Encloses b vs v)
    {x : Extent} (hvs : ∀ w ∈ vs, w.Sound x) : v.Sound x := by
  cases h with
  | list => exact Value.sound_list_none.mpr hvs
  | vector => exact Value.sound_vec_none.mpr hvs
  | map hden =>
    refine Value.sound_map_none.mpr ⟨hden.canonical, fun entry he => ?_⟩
    have hmem := hden.mem he
    exact ⟨hvs _ (Table.mem_flat.mpr ⟨entry, hmem, Or.inl rfl⟩),
      hvs _ (Table.mem_flat.mpr ⟨entry, hmem, Or.inr rfl⟩)⟩

mutual

theorem Derives.sound {ts : List Token} {v : Value} {n : Nat} :
    Derives ts v n → v.Sound .empty
  | .string _ => Value.sound_of_isScalar rfl
  | .word _ => Value.sound_of_isScalar (Value.isScalar_ofWord _)
  | .bracket hall henc => henc.sound hall.sound
  | .mark m hform => by
    rw [Value.sound_list_none, List.forall_mem_cons, List.forall_mem_singleton]
    exact ⟨Value.sound_of_isScalar rfl, hform.sound⟩

theorem DerivesAll.sound {ts : List Token} {vs : List Value} {n : Nat} :
    DerivesAll ts vs n → ∀ v ∈ vs, v.Sound .empty
  | .nil => List.forall_mem_nil _
  | .cons hform hall => List.forall_mem_cons.mpr ⟨hform.sound, hall.sound⟩

end

end Grammar

namespace Reader

theorem yields_feed (stack : List OpenForm) (lexeme : Lexeme) :
    Yields (fun _ => True) (feed stack lexeme) := by
  have hstart : Yields (fun _ => True) (start stack lexeme) := by
    unfold start
    split
    · trivial
    · split <;> trivial
  have hclose : ∀ p items b, Yields (fun _ => True) (close p items b) := by
    intro p items b
    unfold close
    split
    · trivial
    · trivial
    · split <;> trivial
  unfold feed
  split
  · split
    · exact (hclose _ _ _).map fun _ _ => trivial
    · exact hstart
  · exact hstart

theorem plain_unfinished (last : Position) (stack : List OpenForm) :
    (unfinished last stack).Plain := by
  unfold unfinished
  split <;> trivial

theorem yields_forms (stack : List OpenForm) (last : Position) (lexemes : List Lexeme) :
    Yields (fun _ => True) (forms stack last lexemes) := by
  induction lexemes generalizing stack last with
  | nil =>
    rw [forms]
    split
    · trivial
    · exact plain_unfinished last stack
  | cons lexeme rest ih =>
    have hfeed := yields_feed stack lexeme
    rw [forms]
    split
    · next he => rwa [he] at hfeed
    · exact ih _ _
    · exact (ih _ _).map fun _ _ => trivial

theorem yields_form (stack : List OpenForm) (last : Position) (lexemes : List Lexeme) :
    Yields (fun _ => True) (form stack last lexemes) := by
  induction lexemes generalizing stack last with
  | nil =>
    rw [form]
    split
    · trivial
    · exact plain_unfinished last stack
  | cons lexeme rest ih =>
    have hfeed := yields_feed stack lexeme
    rw [form.eq_def]
    dsimp only
    split
    · next he => rwa [he] at hfeed
    · exact ih _ _
    · split <;> trivial

end Reader

theorem yields_read (source : String) : Yields (fun v => v.Sound .empty) (read source) := by
  have hread := Reader.yields_form [] {} (tokenize source)
  cases h : read source with
  | error e =>
    rw [← read, h] at hread
    exact hread
  | ok v =>
    rcases read_eq_ok_iff.mp h with ⟨-, rfl⟩ | ⟨n, hn, -⟩
    · exact Value.sound_of_isScalar rfl
    · exact hn.sound

theorem yields_readAll (source : String) :
    Yields (fun forms => ∀ form ∈ forms, form.Sound .empty) (readAll source) := by
  have hread := Reader.yields_forms [] {} (tokenize source)
  cases h : readAll source with
  | error e =>
    rw [← readAll, h] at hread
    exact hread
  | ok forms =>
    obtain ⟨pieces, hpieces, -, rfl⟩ := Reader.forms_eq_ok_iff.mp h
    intro form hform
    obtain ⟨piece, hpiece, rfl⟩ := List.mem_map.mp hform
    exact (hpieces piece hpiece).1.sound

/-! ## Tables -/

namespace Table

/-- All keys and values are sound. -/
def Sound (x : Extent) (entries : Table) : Prop :=
  ∀ entry ∈ entries, entry.1.Sound x ∧ entry.2.Sound x

variable {x : Extent}

theorem sound_union {xs ys : Table} (hx : Sound x xs) (hy : Sound x ys) :
    Sound x (union xs ys) := by
  fun_induction union xs ys with
  | case1 ys => exact hy
  | case2 xs => exact hx
  | case3 a xs b ys _ ih =>
    obtain ⟨ha, hxs⟩ := List.forall_mem_cons.mp hx
    obtain ⟨hb, hys⟩ := List.forall_mem_cons.mp hy
    exact List.forall_mem_cons.mpr ⟨⟨ha.1, hb.2⟩, ih hxs hys⟩
  | case4 a xs b ys _ _ ih =>
    obtain ⟨ha, hxs⟩ := List.forall_mem_cons.mp hx
    exact List.forall_mem_cons.mpr ⟨ha, ih hxs hy⟩
  | case5 a xs b ys _ _ ih =>
    obtain ⟨hb, hys⟩ := List.forall_mem_cons.mp hy
    exact List.forall_mem_cons.mpr ⟨hb, ih hx hys⟩

theorem sound_ofEntries (depth : Nat) {entries : Table} (h : Sound x entries) :
    Sound x (ofEntries depth entries) := by
  induction depth generalizing entries with
  | zero =>
    have hfold : ∀ table : Table, Sound x table →
        Sound x (entries.foldl (fun table entry => insert entry.1 entry.2 table) table) := by
      induction entries with
      | nil => exact fun _ ht => ht
      | cons entry entries ih =>
        obtain ⟨he, hes⟩ := List.forall_mem_cons.mp h
        refine fun table ht => ih hes _ (sound_union ht ?_)
        exact List.forall_mem_singleton.mpr he
    exact hfold [] (List.forall_mem_nil _)
  | succ depth ih =>
    exact sound_union (ih fun e he => h e (List.mem_of_mem_take he))
      (ih fun e he => h e (List.mem_of_mem_drop he))

theorem sound_of_flat {pairs : Table} (h : ∀ v ∈ flat pairs, v.Sound x) : Sound x pairs :=
  fun pair hp => ⟨h _ (mem_flat.mpr ⟨pair, hp, Or.inl rfl⟩),
    h _ (mem_flat.mpr ⟨pair, hp, Or.inr rfl⟩)⟩

/-- A table with more entries is kept in order, and is sound if they are. -/
theorem sound_insertPairs {entries table : Table} {items : List Value}
    (hc : Canonical entries) (hs : Sound x entries) (hitems : ∀ v ∈ items, v.Sound x)
    (h : insertPairs entries items = .ok table) : Canonical table ∧ Sound x table := by
  unfold insertPairs at h
  split at h
  · cases hpairs : pairUp items with
    | error fault =>
      rw [hpairs] at h
      cases h
    | ok pairs =>
      rw [hpairs] at h
      cases h
      obtain ⟨rfl, hkeyed⟩ := eq_flat_of_pairUp hpairs
      exact ⟨canonical_union hc (canonical_ofEntries _ hkeyed),
        sound_union hs (sound_ofEntries _ (sound_of_flat hitems))⟩
  · cases h

/-- Entries that are left out leave the others in order. -/
theorem Canonical.sublist {xs ys : Table} (hy : Canonical ys) (h : xs.Sublist ys) : Canonical xs :=
  ⟨fun entry he => hy.keyed entry (h.mem he), hy.ordered.sublist h⟩

theorem foldl_erase_sublist (doomed : List Value) (entries : Table) :
    (doomed.foldl erase entries).Sublist entries := by
  induction doomed generalizing entries with
  | nil => exact List.Sublist.refl _
  | cons key doomed ih => exact (ih (entries.erase key)).trans List.filter_sublist

/-- The order of a table is that of its keys. -/
theorem Canonical.of_keys {xs ys : Table} (hx : Canonical xs)
    (h : ys.map Prod.fst = xs.map Prod.fst) : Canonical ys := by
  constructor
  · intro entry he
    have hkey : entry.1 ∈ xs.map Prod.fst := h ▸ List.mem_map_of_mem he
    obtain ⟨other, ho, heq⟩ := List.mem_map.mp hkey
    exact heq ▸ hx.keyed other ho
  · have hordered : (xs.map Prod.fst).Pairwise Before := List.pairwise_map.mpr hx.ordered
    rw [← h] at hordered
    exact List.pairwise_map.mp hordered

end Table

/-! ## Functions on values -/

theorem Arithmetic.yields_run (op : Arithmetic) (args : List Value) :
    Yields (fun v => v.isScalar = true) (op.run args) := by
  have hinteger : ∀ v, Yields (fun _ => True) (integer v) := by
    intro v
    cases v <;> trivial
  have hstep : ∀ acc v, Yields (fun _ => True) (op.step acc v) := by
    intro acc v
    have hv := hinteger v
    unfold step
    split
    · next he => rwa [he] at hv
    · split
      · trivial
      · split <;> trivial
  have hsteps : ∀ (args : List Value) acc,
      Yields (fun v => v.isScalar = true) (op.steps acc args) := by
    intro args
    induction args with
    | nil => exact fun _ => rfl
    | cons arg args ih =>
      intro acc
      have harg := hstep acc arg
      unfold steps
      split
      · next he => rwa [he] at harg
      · exact ih _
  have hfrom : ∀ first args, Yields (fun v => v.isScalar = true) (op.stepsFrom first args) := by
    intro first args
    have hfirst := hinteger first
    unfold stepsFrom
    split
    · next he => rwa [he] at hfirst
    · exact hsteps _ _
  fun_cases run op args with
  | case1 => exact hsteps _ _
  | case2 => exact hsteps _ _
  | case3 => exact hfrom _ _
  | case4 => exact hsteps _ _
  | case5 => exact hfrom _ _
  | case6 => trivial

theorem Comparison.yields_run (op : Comparison) (args : List Value) :
    Yields (fun v => v.isScalar = true) (op.run args) := by
  have hordered : ∀ relation a b,
      Yields (fun v => v.isScalar = true) (ordered relation a b) := by
    intro relation a b
    unfold ordered number
    cases a.number? <;> cases b.number? <;> first | rfl | trivial
  fun_cases run op args with
  | case5 => rfl
  | case6 => trivial
  | _ => exact hordered _ _ _

theorem Predicate.yields_run (op : Predicate) (args : List Value) :
    Yields (fun v => v.isScalar = true) (op.run args) := by
  unfold run
  split
  · rfl
  · trivial

namespace SequenceOp

variable {x : Extent}

theorem yields_elements (function : String) {v : Value} (h : v.Sound x) :
    Yields (fun items => ∀ item ∈ items, item.Sound x) (elements function v) := by
  cases v with
  | nil => exact List.forall_mem_nil _
  | list id items => exact (Value.sound_list.mp h).2
  | vec id items => exact (Value.sound_vec.mp h).2
  | _ => trivial

theorem yields_concatAll {args : List Value} (h : ∀ a ∈ args, a.Sound x) :
    Yields (fun items => ∀ item ∈ items, item.Sound x) (concatAll args) := by
  induction args with
  | nil => exact List.forall_mem_nil _
  | cons arg args ih =>
    obtain ⟨harg, hargs⟩ := List.forall_mem_cons.mp h
    have helements := yields_elements "concat" harg
    unfold concatAll
    split
    · next he => rwa [he] at helements
    · next items he =>
      rw [he] at helements
      exact (ih hargs).map fun rest hrest => List.forall_mem_append.mpr ⟨helements, hrest⟩

theorem yields_size (v : Value) : Yields (fun _ => True) (size v) := by
  cases v <;> trivial

theorem yields_nthOf {items : List Value} (h : ∀ item ∈ items, item.Sound x) (index : Value) :
    Yields (fun v => v.Sound x) (nthOf items index) := by
  unfold nthOf
  split
  · split
    · next v hat =>
      unfold at? at hat
      split at hat
      · exact h v (List.mem_of_getElem? hat)
      · cases hat
    · trivial
  · trivial

theorem yields_run (op : SequenceOp) {args : List Value} (h : ∀ a ∈ args, a.Sound x) :
    Yields (fun v => v.Sound x) (op.run args) := by
  have hlist : ∀ {items : List Value}, (∀ item ∈ items, item.Sound x) →
      (Value.list none items).Sound x := Value.sound_list_none.mpr
  have hvec : ∀ {items : List Value}, (∀ item ∈ items, item.Sound x) →
      (Value.vec none items).Sound x := Value.sound_vec_none.mpr
  fun_cases run op args with
  | case1 => exact hlist h
  | case2 => exact hvec h
  | case3 id items => exact h _ List.mem_cons_self
  | case4 v => exact (yields_elements "vec" (h v List.mem_cons_self)).map fun _ => hvec
  | case5 v => exact (yields_size v).map fun _ _ => Value.sound_of_isScalar rfl
  | case6 v => exact (yields_size v).map fun _ _ => Value.sound_of_isScalar rfl
  | case7 v seq =>
    obtain ⟨hv, hseq⟩ := List.forall_mem_cons.mp h
    refine (yields_elements "cons" (hseq seq List.mem_cons_self)).map fun items hitems => ?_
    exact hlist (List.forall_mem_cons.mpr ⟨hv, hitems⟩)
  | case8 => exact (yields_concatAll h).map fun _ => hlist
  | case9 seq index e he =>
    have helements := yields_elements "nth" (h seq List.mem_cons_self)
    rwa [he] at helements
  | case10 seq index items he =>
    have helements := yields_elements "nth" (h seq List.mem_cons_self)
    rw [he] at helements
    exact yields_nthOf helements index
  | case11 seq =>
    refine (yields_elements "first" (h seq List.mem_cons_self)).map fun items hitems => ?_
    cases items with
    | nil => exact Value.sound_of_isScalar rfl
    | cons item items => exact hitems item List.mem_cons_self
  | case12 seq =>
    refine (yields_elements "rest" (h seq List.mem_cons_self)).map fun items hitems => ?_
    exact hlist fun item hm => hitems item (List.mem_of_mem_tail hm)
  | case13 => trivial

end SequenceOp

namespace TableOp

variable {x : Extent}

theorem yields_entriesOf (op : TableOp) {v : Value} (h : v.Sound x) :
    Yields (fun entries => Table.Canonical entries ∧ Table.Sound x entries) (op.entriesOf v) := by
  cases v with
  | map id entries => exact (Value.sound_map.mp h).2
  | _ => trivial

theorem yields_extend (op : TableOp) {entries : Table} {pairs : List Value}
    (hc : Table.Canonical entries) (hs : Table.Sound x entries) (hp : ∀ v ∈ pairs, v.Sound x) :
    Yields (fun v => v.Sound x) (op.extend entries pairs) := by
  unfold extend
  split
  · next table htable =>
    exact Value.sound_map_none.mpr (Table.sound_insertPairs hc hs hp htable)
  · trivial
  · trivial

theorem yields_run (op : TableOp) {args : List Value} (h : ∀ a ∈ args, a.Sound x) :
    Yields (fun v => v.Sound x) (op.run args) := by
  have hentries : ∀ (op : TableOp) {v}, v ∈ args → Yields (fun entries =>
      Table.Canonical entries ∧ Table.Sound x entries) (op.entriesOf v) :=
    fun op {v} hv => yields_entriesOf op (h v hv)
  fun_cases run op args with
  | case1 => exact yields_extend _ Table.canonical_nil (List.forall_mem_nil _) h
  | case2 m pairs e he =>
    have hm := hentries assoc List.mem_cons_self
    rwa [he] at hm
  | case3 m pairs entries he =>
    have hm := hentries assoc List.mem_cons_self
    rw [he] at hm
    exact yields_extend _ hm.1 hm.2 (List.forall_mem_cons.mp h).2
  | case4 m doomed =>
    refine (hentries dissoc List.mem_cons_self).map fun entries hm => ?_
    have hsub := Table.foldl_erase_sublist doomed entries
    exact Value.sound_map_none.mpr ⟨hm.1.sublist hsub, fun e he => hm.2 e (hsub.mem he)⟩
  | case5 => exact Value.sound_of_isScalar rfl
  | case6 m key =>
    refine (hentries get List.mem_cons_self).map fun entries hm => ?_
    cases hfound : Table.get? entries key with
    | none => exact Value.sound_of_isScalar rfl
    | some v => exact (hm.2 _ (Table.mem_of_get?_eq_some hm.1.keyed hfound)).2
  | case7 m key =>
    exact (hentries contains List.mem_cons_self).map fun _ _ => Value.sound_of_isScalar rfl
  | case8 m =>
    refine (hentries keys List.mem_cons_self).map fun entries hm => ?_
    refine Value.sound_list_none.mpr fun v hv => ?_
    obtain ⟨entry, he, rfl⟩ := List.mem_map.mp hv
    exact (hm.2 entry he).1
  | case9 m =>
    refine (hentries vals List.mem_cons_self).map fun entries hm => ?_
    refine Value.sound_list_none.mpr fun v hv => ?_
    obtain ⟨entry, he, rfl⟩ := List.mem_map.mp hv
    exact (hm.2 entry he).2
  | case10 => trivial

end TableOp

theorem TextOp.yields_run (cells : Array Value) (op : TextOp) (args : List Value) :
    Yields (fun v => v.Sound .empty) (op.run cells args) := by
  have hstring : ∀ v, Yields (fun _ => True) (string v) := by
    intro v
    cases v <;> trivial
  fun_cases run cells op args with
  | case1 => exact Value.sound_of_isScalar rfl
  | case2 => exact Value.sound_of_isScalar rfl
  | case3 v e he =>
    have hv := hstring v
    rwa [he] at hv
  | case4 v source => exact yields_read source
  | case5 => exact Value.sound_of_isScalar rfl
  | case6 v => exact (hstring v).map fun _ _ => Value.sound_of_isScalar rfl
  | case7 => exact Value.sound_of_isScalar rfl
  | case8 => exact Value.sound_of_isScalar rfl
  | case9 => trivial
  | case10 => trivial

section

variable {x : Extent}

theorem CellOp.yields_cellOf (function : String) {v : Value} (h : v.Sound x) :
    Yields (fun id => id < x.cells) (cellOf function v) := by
  cases v with
  | atom id => exact Value.sound_atom.mp h
  | _ => trivial

theorem ControlOp.yields_spread {arg : Value} {args : List Value} (harg : arg.Sound x)
    (hargs : ∀ a ∈ args, a.Sound x) :
    Yields (fun items => ∀ item ∈ items, item.Sound x) (spread arg args) := by
  induction args generalizing arg with
  | nil => exact SequenceOp.yields_elements "apply" harg
  | cons next rest ih =>
    obtain ⟨hnext, hrest⟩ := List.forall_mem_cons.mp hargs
    exact (ih hnext hrest).map fun items hitems => List.forall_mem_cons.mpr ⟨harg, hitems⟩

/-! ## Bindings -/

/-- All the values bound are sound. -/
def Bindings.Sound (x : Extent) (bindings : Bindings) : Prop :=
  ∀ binding ∈ bindings, binding.2.Sound x

theorem Bindings.Sound.mono {y : Extent} {bindings : Bindings} (h : Sound x bindings)
    (hxy : x ≤ y) : Sound y bindings :=
  fun binding hb => (h binding hb).mono hxy

theorem Bindings.Sound.set {bindings : Bindings} (h : Sound x bindings) (name : String) {v : Value}
    (hv : v.Sound x) : Sound x (bindings.set name v) := by
  induction bindings with
  | nil => exact List.forall_mem_singleton.mpr hv
  | cons binding rest ih =>
    obtain ⟨hb, hrest⟩ := List.forall_mem_cons.mp h
    rw [Bindings.set]
    split
    · exact List.forall_mem_cons.mpr ⟨hv, hrest⟩
    · exact List.forall_mem_cons.mpr ⟨hb, ih hrest⟩

theorem Bindings.Sound.get? {bindings : Bindings} (h : Sound x bindings) {name : String} {v : Value}
    (hv : bindings.get? name = some v) : v.Sound x := by
  induction bindings with
  | nil => cases hv
  | cons binding rest ih =>
    obtain ⟨hb, hrest⟩ := List.forall_mem_cons.mp h
    rw [Bindings.get?] at hv
    split at hv
    · cases hv
      exact hb
    · exact ih hrest hv

namespace Params

theorem yields_bindFrom {shortage : Error} (hshortage : shortage.Plain) {restId : ObjectId}
    (hid : ∀ i ∈ restId, i < x.objects) {bound : Bindings} (hbound : bound.Sound x)
    (params : List Value) {args : List Value} (hargs : ∀ a ∈ args, a.Sound x) :
    Yields (Bindings.Sound x) (bindFrom shortage restId bound params args) := by
  induction params generalizing bound args with
  | nil => exact hbound
  | cons param params ih =>
    rw [bindFrom.eq_def]
    dsimp only
    split
    · trivial
    · split
      · exact hbound.set _ (Value.sound_list.mpr ⟨hid, hargs⟩)
      · trivial
    · split
      · exact hshortage
      · obtain ⟨harg, hrest⟩ := List.forall_mem_cons.mp hargs
        exact ih (hbound.set _ harg) hrest

theorem yields_bind {restId : ObjectId} (hid : ∀ i ∈ restId, i < x.objects) (params : List Value)
    {args : List Value} (hargs : ∀ a ∈ args, a.Sound x) :
    Yields (Bindings.Sound x) (bind restId params args) := by
  have hnone : Bindings.Sound x [] := List.forall_mem_nil _
  exact yields_bindFrom (by trivial) hid hnone params hargs

theorem yields_check (params : List Value) : Yields (fun _ => True) (check params) := by
  induction params with
  | nil => trivial
  | cons param params ih =>
    rw [check]
    split
    · trivial
    · split
      · trivial
      · exact ih

end Params

/-! ## Code -/

namespace Template

theorem sound_of_unquoted? {items : List Value} (h : ∀ v ∈ items, v.Sound x) {code : Value}
    (hcode : unquoted? items = some code) : code.Sound x := by
  unfold unquoted? at hcode
  split at hcode
  · split at hcode
    · cases hcode
      exact h _ (by simp)
    · cases hcode
  · cases hcode

theorem sound_of_spliced? {v : Value} (h : v.Sound x) {operands : List Value}
    (hoperands : spliced? v = some operands) : ∀ operand ∈ operands, operand.Sound x := by
  unfold spliced? at hoperands
  split at hoperands
  · split at hoperands
    · cases hoperands
      exact (List.forall_mem_cons.mp (Value.sound_list.mp h).2).2
    · cases hoperands
  · cases hoperands

/-- A plain list of a scalar and two sound values is sound. -/
theorem sound_form {v w : Value} (name : String) (hv : v.Sound x) (hw : w.Sound x) :
    (Value.list none [.sym name, v, w]).Sound x := by
  rw [Value.sound_list_none, List.forall_mem_cons, List.forall_mem_cons, List.forall_mem_singleton]
  exact ⟨Value.sound_of_isScalar rfl, hv, hw⟩

theorem sound_quoted {v : Value} (h : v.Sound x) : (quoted v).Sound x := by
  rw [quoted, Value.sound_list_none, List.forall_mem_cons, List.forall_mem_singleton]
  exact ⟨Value.sound_of_isScalar rfl, h⟩

mutual

theorem yields_expand : ∀ template : Value, template.Sound x →
    Yields (fun code => code.Sound x) (expand template)
  | .list id items, h => by
    rw [expand]
    exact yields_expandList items id (Value.sound_list.mp h).1 (Value.sound_list.mp h).2
  | .sym name, _ => by
    rw [expand]
    exact sound_quoted (Value.sound_of_isScalar rfl)
  | .map id entries, h => by
    rw [expand]
    exact sound_quoted h
  | .nil, h => by rwa [expand] <;> nofun
  | .bool _, h => by rwa [expand] <;> nofun
  | .int _, h => by rwa [expand] <;> nofun
  | .float _, h => by rwa [expand] <;> nofun
  | .str _, h => by rwa [expand] <;> nofun
  | .kw _, h => by rwa [expand] <;> nofun
  | .vec _ _, h => by rwa [expand] <;> nofun
  | .atom _, h => by rwa [expand] <;> nofun
  | .builtin _, h => by rwa [expand] <;> nofun
  | .host _ _, h => by rwa [expand] <;> nofun
  | .closure _ _ _ _, h => by rwa [expand] <;> nofun

theorem yields_expandList : ∀ (items : List Value) (id : ObjectId), (∀ i ∈ id, i < x.objects) →
    (∀ v ∈ items, v.Sound x) → Yields (fun code => code.Sound x) (expandList id items)
  | [], id, hid, h => by
    rw [expandList]
    exact Value.sound_list.mpr ⟨hid, h⟩
  | head :: tail, id, hid, h => by
    obtain ⟨hhead, htail⟩ := List.forall_mem_cons.mp h
    have hrest := yields_expandList tail none (by simp) htail
    have hfirst := yields_expand head hhead
    rw [expandList]
    split
    · next hcode => exact sound_of_unquoted? h hcode
    · split
      · next he => rwa [he] at hrest
      · next rest he =>
        rw [he] at hrest
        split
        · next hspliced =>
          exact sound_form _ (sound_of_spliced? hhead hspliced _ List.mem_cons_self) hrest
        · trivial
        · exact hfirst.map fun first hf => sound_form _ hf hrest

end

end Template

namespace Step

theorem yields_boundName (form : String) (v : Value) :
    Yields (fun _ => True) (boundName form v) := by
  unfold boundName
  split <;> trivial

theorem yields_letBindings {v : Value} (h : v.Sound x) :
    Yields (fun items => ∀ item ∈ items, item.Sound x) (letBindings v) := by
  unfold letBindings
  split
  · trivial
  · next hs =>
    split
    · exact h.seq? hs
    · trivial

theorem yields_parameters {v : Value} (h : v.Sound x) :
    Yields (fun params => ∀ param ∈ params, param.Sound x) (parameters v) := by
  unfold parameters
  split
  · trivial
  · next hs => exact (Params.yields_check _).map fun _ _ => h.seq? hs

theorem yields_catchClause {v : Value} (h : v.Sound x) :
    Yields (fun clause => clause.2.Sound x) (catchClause v) := by
  unfold catchClause
  split
  · split
    · split
      · refine (yields_boundName _ _).map fun _ _ => ?_
        exact (Value.sound_list.mp h).2 _ (by simp)
      · trivial
    · trivial
  · trivial

theorem yields_asMacro {v : Value} (h : v.Sound x) :
    Yields (fun expander => expander.Sound x) (asMacro v) := by
  cases v with
  | closure params body scope isMacro => exact Value.sound_closure.mpr (Value.sound_closure.mp h)
  | _ => trivial

end Step

end

end Lisp
