import Lisp.Proofs.Soundness
import Mathlib.Data.List.Perm.Basic
import Mathlib.Data.List.Nodup

/-!
# Printing

A cell may hold itself, or cells may hold each other in a circle, so that the text of a value does
not follow its structure. `Prints` says how a value is printed while some cells are open, by rules
without a bound on how many cells are opened. Where the keys of maps are strings and keywords, every
value has exactly one text by these rules, whatever the cells hold, and it is the one that
`Value.text` computes. A cell is never opened within itself (`Shows`), so there are never more cells
open than there are cells.
-/

namespace Lisp

namespace Value

/-! ## The rules of printing -/

/-- The text of a value that has no elements and is no atom. -/
def leafText (style : Style) : Value → Option String
  | nil => some "nil"
  | bool b => some (if b then "true" else "false")
  | int n => some (toString n.toInt)
  | float x => some x.text
  | str s => match style with
    | .display => some s
    | .readable => some (Text.quoted s)
  | sym name => some name
  | kw name => some (":" ++ name)
  | list _ _ => none
  | vec _ _ => none
  | map _ _ => none
  | atom _ => none
  | builtin _ => some "#<function>"
  | host _ _ => some "#<function>"
  | closure _ _ _ _ => some "#<function>"

mutual

/-- A value is printed as a text while the `active` cells are open. -/
inductive Prints (cells : Array Value) : List Nat → Style → Value → String → Prop
  | leaf {active : List Nat} {style : Style} {v : Value} {t : String} :
      v.leafText style = some t → Prints cells active style v t
  | list {active : List Nat} {style : Style} {id : ObjectId} {items : List Value}
      {ts : List String} :
      PrintsAll cells active style items ts →
      Prints cells active style (list id items) (Text.bracketed "(" ")" ts)
  | vec {active : List Nat} {style : Style} {id : ObjectId} {items : List Value}
      {ts : List String} :
      PrintsAll cells active style items ts →
      Prints cells active style (vec id items) (Text.bracketed "[" "]" ts)
  | map {active : List Nat} {style : Style} {id : ObjectId} {entries : Table}
      {ts : List (String × String)} :
      PrintsEntries cells active style entries ts →
      Prints cells active style (map id entries)
        (Text.bracketed "\x7b" "\x7d" ((sortByKey ts).map fun entry => entry.1 ++ " " ++ entry.2))
  /-- The cell is open already, or there is no such cell. -/
  | shut {active : List Nat} {style : Style} {id : Nat} :
      id ∈ active ∨ cells[id]? = none → Prints cells active style (atom id) (unexpandedAtom id)
  | opened {active : List Nat} {style : Style} {id : Nat} {contents : Value} {t : String} :
      id ∉ active → cells[id]? = some contents → Prints cells (id :: active) style contents t →
      Prints cells active style (atom id) ("(atom " ++ t ++ ")")

inductive PrintsAll (cells : Array Value) : List Nat → Style → List Value → List String → Prop
  | nil {active : List Nat} {style : Style} : PrintsAll cells active style [] []
  | cons {active : List Nat} {style : Style} {v : Value} {vs : List Value} {t : String}
      {ts : List String} :
      Prints cells active style v t → PrintsAll cells active style vs ts →
      PrintsAll cells active style (v :: vs) (t :: ts)

/-- Keys are printed by themselves, as if no cell were open. -/
inductive PrintsEntries (cells : Array Value) :
    List Nat → Style → Table → List (String × String) → Prop
  | nil {active : List Nat} {style : Style} : PrintsEntries cells active style [] []
  | cons {active : List Nat} {style : Style} {k v : Value} {entries : Table} {s t : String}
      {ts : List (String × String)} :
      Prints cells [] .readable k s → Prints cells active style v t →
      PrintsEntries cells active style entries ts →
      PrintsEntries cells active style ((k, v) :: entries) ((s, t) :: ts)

end

section

variable {cells : Array Value}

/-! ### What is printed in which way -/

theorem prints_leaf {active : List Nat} {style : Style} {v : Value} {s t : String}
    (h : v.leafText style = some s) : Prints cells active style v t ↔ t = s := by
  constructor
  · intro ht
    cases ht with
    | leaf ht => exact Option.some.inj (ht.symm.trans h)
    | _ => simp [leafText] at h
  · rintro rfl
    exact .leaf h

theorem prints_list {active : List Nat} {style : Style} {id : ObjectId} {items : List Value}
    {t : String} : Prints cells active style (.list id items) t ↔
      ∃ ts, PrintsAll cells active style items ts ∧ t = Text.bracketed "(" ")" ts := by
  constructor
  · intro ht
    cases ht with
    | leaf ht => simp [leafText] at ht
    | list hts => exact ⟨_, hts, rfl⟩
  · rintro ⟨ts, hts, rfl⟩
    exact .list hts

theorem prints_vec {active : List Nat} {style : Style} {id : ObjectId} {items : List Value}
    {t : String} : Prints cells active style (.vec id items) t ↔
      ∃ ts, PrintsAll cells active style items ts ∧ t = Text.bracketed "[" "]" ts := by
  constructor
  · intro ht
    cases ht with
    | leaf ht => simp [leafText] at ht
    | vec hts => exact ⟨_, hts, rfl⟩
  · rintro ⟨ts, hts, rfl⟩
    exact .vec hts

theorem prints_map {active : List Nat} {style : Style} {id : ObjectId} {entries : Table}
    {t : String} : Prints cells active style (.map id entries) t ↔
      ∃ ts, PrintsEntries cells active style entries ts ∧ t = Text.bracketed "\x7b" "\x7d"
        ((sortByKey ts).map fun entry => entry.1 ++ " " ++ entry.2) := by
  constructor
  · intro ht
    cases ht with
    | leaf ht => simp [leafText] at ht
    | map hts => exact ⟨_, hts, rfl⟩
  · rintro ⟨ts, hts, rfl⟩
    exact .map hts

/-- An atom is printed with the contents of its cell, unless the cell is open or does not exist. -/
theorem prints_atom {active : List Nat} {style : Style} {id : Nat} {t : String} :
    Prints cells active style (.atom id) t ↔
      if id ∈ active ∨ cells[id]? = none then t = unexpandedAtom id
      else ∃ contents inner, cells[id]? = some contents ∧
        Prints cells (id :: active) style contents inner ∧ t = "(atom " ++ inner ++ ")" := by
  constructor
  · intro ht
    cases ht with
    | leaf ht => simp [leafText] at ht
    | shut h => rw [if_pos h]
    | opened hnot hcell hinner =>
      rw [if_neg (by simp [hnot, hcell])]
      exact ⟨_, _, hcell, hinner, rfl⟩
  · intro h
    split at h
    · next hshut => exact h ▸ .shut hshut
    · next hopen =>
      obtain ⟨contents, inner, hcell, hinner, rfl⟩ := h
      exact .opened (fun hactive => hopen (Or.inl hactive)) hcell hinner

theorem printsAll_cons {active : List Nat} {style : Style} {v : Value} {vs : List Value}
    {ts : List String} : PrintsAll cells active style (v :: vs) ts ↔
      ∃ t rest, Prints cells active style v t ∧ PrintsAll cells active style vs rest ∧
        ts = t :: rest := by
  constructor
  · intro h
    cases h with
    | cons ht hrest => exact ⟨_, _, ht, hrest, rfl⟩
  · rintro ⟨t, rest, ht, hrest, rfl⟩
    exact .cons ht hrest

theorem printsEntries_cons {active : List Nat} {style : Style} {k v : Value} {entries : Table}
    {ts : List (String × String)} : PrintsEntries cells active style ((k, v) :: entries) ts ↔
      ∃ s t rest, Prints cells [] .readable k s ∧ Prints cells active style v t ∧
        PrintsEntries cells active style entries rest ∧ ts = (s, t) :: rest := by
  constructor
  · intro h
    cases h with
    | cons hs ht hrest => exact ⟨_, _, _, hs, ht, hrest, rfl⟩
  · rintro ⟨s, t, rest, hs, ht, hrest, rfl⟩
    exact .cons hs ht hrest

mutual

/-- A value is printed in one way only. -/
theorem Prints.unique {active : List Nat} {style : Style} {v : Value} {s : String} :
    Prints cells active style v s → ∀ {t : String}, Prints cells active style v t → s = t
  | .leaf hs, _, ht => ((prints_leaf hs).mp ht).symm
  | .list hs, _, ht => by
    obtain ⟨ts, hts, rfl⟩ := prints_list.mp ht
    rw [hs.unique hts]
  | .vec hs, _, ht => by
    obtain ⟨ts, hts, rfl⟩ := prints_vec.mp ht
    rw [hs.unique hts]
  | .map hs, _, ht => by
    obtain ⟨ts, hts, rfl⟩ := prints_map.mp ht
    rw [hs.unique hts]
  | .shut hs, _, ht => by
    rw [prints_atom, if_pos hs] at ht
    exact ht.symm
  | .opened hnot hcell hs, _, ht => by
    rw [prints_atom, if_neg (by simp [hnot, hcell])] at ht
    obtain ⟨contents, inner, hcontents, hinner, rfl⟩ := ht
    cases hcontents.symm.trans hcell
    rw [hs.unique hinner]

theorem PrintsAll.unique {active : List Nat} {style : Style} {vs : List Value} {ss : List String} :
    PrintsAll cells active style vs ss →
      ∀ {ts : List String}, PrintsAll cells active style vs ts → ss = ts
  | .nil, _, .nil => rfl
  | .cons hs hss, _, ht => by
    obtain ⟨t, rest, hfirst, hrest, rfl⟩ := printsAll_cons.mp ht
    rw [hs.unique hfirst, hss.unique hrest]

theorem PrintsEntries.unique {active : List Nat} {style : Style} {entries : Table}
    {ss : List (String × String)} : PrintsEntries cells active style entries ss →
      ∀ {ts : List (String × String)}, PrintsEntries cells active style entries ts → ss = ts
  | .nil, _, .nil => rfl
  | .cons hkey hs hss, _, ht => by
    obtain ⟨s, t, rest, hkey', hfirst, hrest, rfl⟩ := printsEntries_cons.mp ht
    rw [hkey.unique hkey', hs.unique hfirst, hss.unique hrest]

end

/-! ## The text that is computed -/

theorem prints_key {k : Value} (h : k.isKey = true) (atomText : Style → Nat → String) :
    Prints cells [] .readable k (render atomText .readable k) := by
  cases k with
  | str s => exact .leaf rfl
  | kw name => exact .leaf rfl
  | _ => simp [isKey] at h

mutual

/-- Where atoms get the texts they are printed as, so do all values. -/
theorem prints_render {active : List Nat} {atomText : Style → Nat → String}
    (hatoms : ∀ style id, Prints cells active style (.atom id) (atomText style id)) :
    ∀ (style : Style) (v : Value), v.EachMap Table.Keyed →
      Prints cells active style v (render atomText style v)
  | style, list _ items, h => .list (prints_renderAll hatoms style items fun _ hv => h.part hv)
  | style, vec _ items, h => .vec (prints_renderAll hatoms style items fun _ hv => h.part hv)
  | style, map id entries, h =>
    .map (prints_renderEntries hatoms style entries (h id entries .self) fun _ hv => h.part hv)
  | style, atom id, _ => hatoms style id
  | .display, str _, _ => .leaf rfl
  | .readable, str _, _ => .leaf rfl
  | _, nil, _ => .leaf rfl
  | _, bool _, _ => .leaf rfl
  | _, int _, _ => .leaf rfl
  | _, float _, _ => .leaf rfl
  | _, sym _, _ => .leaf rfl
  | _, kw _, _ => .leaf rfl
  | _, builtin _, _ => .leaf rfl
  | _, host _ _, _ => .leaf rfl
  | _, closure _ _ _ _, _ => .leaf rfl

theorem prints_renderAll {active : List Nat} {atomText : Style → Nat → String}
    (hatoms : ∀ style id, Prints cells active style (.atom id) (atomText style id)) :
    ∀ (style : Style) (vs : List Value), (∀ v ∈ vs, v.EachMap Table.Keyed) →
      PrintsAll cells active style vs (renderAll atomText style vs)
  | _, [], _ => .nil
  | style, v :: vs, h =>
    .cons (prints_render hatoms style v (h v List.mem_cons_self))
      (prints_renderAll hatoms style vs fun w hw => h w (List.mem_cons_of_mem v hw))

theorem prints_renderEntries {active : List Nat} {atomText : Style → Nat → String}
    (hatoms : ∀ style id, Prints cells active style (.atom id) (atomText style id)) :
    ∀ (style : Style) (entries : Table), Table.Keyed entries →
      (∀ v ∈ Table.flat entries, v.EachMap Table.Keyed) →
        PrintsEntries cells active style entries (renderEntries atomText style entries)
  | _, [], _, _ => .nil
  | style, (k, v) :: entries, hkeys, h =>
    .cons (prints_key (hkeys (k, v) List.mem_cons_self) atomText)
      (prints_render hatoms style v (h v (List.mem_cons_of_mem k List.mem_cons_self)))
      (prints_renderEntries hatoms style entries (fun e he => hkeys e (List.mem_cons_of_mem _ he))
        fun w hw => h w (List.mem_cons_of_mem k (List.mem_cons_of_mem v hw)))

end

/-- Cells that can be open together: different ones, each of which exists. -/
structure Open (cells : Array Value) (active : List Nat) : Prop where
  nodup : active.Nodup
  lt_size {id : Nat} : id ∈ active → id < cells.size

theorem Open.nil : Open cells [] :=
  ⟨List.nodup_nil, fun h => absurd h List.not_mem_nil⟩

theorem Open.cons {active : List Nat} {id : Nat} {contents : Value} (h : Open cells active)
    (hnot : id ∉ active) (hcell : cells[id]? = some contents) : Open cells (id :: active) := by
  refine ⟨List.nodup_cons.mpr ⟨hnot, h.nodup⟩, fun {other} hmem => ?_⟩
  rcases List.mem_cons.mp hmem with rfl | hmem
  · exact (Array.getElem?_eq_some_iff.mp hcell).1
  · exact h.lt_size hmem

theorem Open.length_le {active : List Nat} (h : Open cells active) :
    active.length ≤ cells.size := by
  have hsub : active.Subperm (List.range cells.size) :=
    List.subperm_of_subset h.nodup fun _ hid => List.mem_range.mpr (h.lt_size hid)
  simpa using hsub.length_le

/-- When as many cells are open as there are, no further one can be opened. -/
theorem Open.mem_or_eq_none {active : List Nat} (h : Open cells active)
    (hfull : cells.size ≤ active.length) (id : Nat) : id ∈ active ∨ cells[id]? = none := by
  cases hcell : cells[id]? with
  | none => exact Or.inr rfl
  | some contents =>
    refine Or.inl (by_contra fun hnot => ?_)
    have hle := (h.cons hnot hcell).length_le
    rw [List.length_cons] at hle
    omega

/-- The induction is on the number of cells that may still be opened. -/
theorem prints_atomText (hcells : ∀ contents ∈ cells, contents.EachMap Table.Keyed) {depth : Nat}
    {active : List Nat} (h : Open cells active) (hdepth : cells.size ≤ depth + active.length)
    (style : Style) (id : Nat) :
    Prints cells active style (.atom id) (atomText cells depth active style id) := by
  induction depth generalizing active style id with
  | zero => exact .shut (h.mem_or_eq_none (by omega) id)
  | succ depth ih =>
    rw [atomText]
    split
    · next hmem => exact .shut (Or.inl (List.contains_iff_mem.mp hmem))
    · next hnot =>
      rw [List.contains_iff_mem] at hnot
      split
      · next hcell => exact .shut (Or.inr hcell)
      · next contents hcell =>
        have hkeyed := hcells contents (Array.mem_of_getElem? hcell)
        refine .opened hnot hcell (prints_render (fun style id => ?_) style contents hkeyed)
        exact ih (h.cons hnot hcell) (by rw [List.length_cons]; omega) style id

theorem prints_text (hcells : ∀ contents ∈ cells, contents.EachMap Table.Keyed) (style : Style)
    {v : Value} (hv : v.EachMap Table.Keyed) : Prints cells [] style v (v.text cells style) :=
  prints_render (prints_atomText hcells .nil (Nat.le_add_right _ _)) style v hv

/-! ## What is printed on the way -/

/-- In the course of printing a value another one is printed, while the `active` cells are open. The
cells of the `path` are those in whose contents it stands, the innermost one first. -/
inductive Shows (cells : Array Value) (style : Style) (v : Value) :
    List Nat → List Nat → Style → Value → Prop
  | start : Shows cells style v [] [] style v
  | item {path active : List Nat} {s : Style} {id : ObjectId} {items : List Value} {w : Value} :
      Shows cells style v path active s (list id items) → w ∈ items →
      Shows cells style v path active s w
  | element {path active : List Nat} {s : Style} {id : ObjectId} {items : List Value} {w : Value} :
      Shows cells style v path active s (vec id items) → w ∈ items →
      Shows cells style v path active s w
  | key {path active : List Nat} {s : Style} {id : ObjectId} {entries : Table}
      {entry : Value × Value} :
      Shows cells style v path active s (map id entries) → entry ∈ entries →
      Shows cells style v path [] .readable entry.1
  | value {path active : List Nat} {s : Style} {id : ObjectId} {entries : Table}
      {entry : Value × Value} :
      Shows cells style v path active s (map id entries) → entry ∈ entries →
      Shows cells style v path active s entry.2
  | contents {path active : List Nat} {s : Style} {id : Nat} {c : Value} :
      Shows cells style v path active s (atom id) → id ∉ active → cells[id]? = some c →
      Shows cells style v (id :: path) (id :: active) s c

theorem PrintsAll.exists_of_mem {active : List Nat} {style : Style} {vs : List Value}
    {ts : List String} (h : PrintsAll cells active style vs ts) :
    ∀ v ∈ vs, ∃ t, Prints cells active style v t := by
  induction vs generalizing ts with
  | nil => exact List.forall_mem_nil _
  | cons v vs ih =>
    obtain ⟨t, rest, ht, hrest, -⟩ := printsAll_cons.mp h
    exact List.forall_mem_cons.mpr ⟨⟨t, ht⟩, ih hrest⟩

theorem PrintsEntries.exists_of_mem {active : List Nat} {style : Style} {entries : Table}
    {ts : List (String × String)} (h : PrintsEntries cells active style entries ts) :
    ∀ entry ∈ entries, (∃ s, Prints cells [] .readable entry.1 s) ∧
      ∃ t, Prints cells active style entry.2 t := by
  induction entries generalizing ts with
  | nil => exact List.forall_mem_nil _
  | cons entry entries ih =>
    obtain ⟨s, t, rest, hs, ht, hrest, -⟩ := printsEntries_cons.mp h
    exact List.forall_mem_cons.mpr ⟨⟨⟨s, hs⟩, t, ht⟩, ih hrest⟩

/-- If a value is printed, so is everything on the way. -/
theorem Shows.exists_prints {style s : Style} {v w : Value} {path active : List Nat} {t : String}
    (hv : Prints cells [] style v t) (h : Shows cells style v path active s w) :
    ∃ t, Prints cells active s w t := by
  induction h with
  | start => exact ⟨t, hv⟩
  | item _ hw ih =>
    obtain ⟨t, ht⟩ := ih
    obtain ⟨ts, hts, -⟩ := prints_list.mp ht
    exact hts.exists_of_mem _ hw
  | element _ hw ih =>
    obtain ⟨t, ht⟩ := ih
    obtain ⟨ts, hts, -⟩ := prints_vec.mp ht
    exact hts.exists_of_mem _ hw
  | key _ he ih =>
    obtain ⟨t, ht⟩ := ih
    obtain ⟨ts, hts, -⟩ := prints_map.mp ht
    exact (hts.exists_of_mem _ he).1
  | value _ he ih =>
    obtain ⟨t, ht⟩ := ih
    obtain ⟨ts, hts, -⟩ := prints_map.mp ht
    exact (hts.exists_of_mem _ he).2
  | contents _ hnot hcell ih =>
    obtain ⟨t, ht⟩ := ih
    rw [prints_atom, if_neg (by simp [hnot, hcell])] at ht
    obtain ⟨contents, inner, hcontents, hinner, -⟩ := ht
    cases hcontents.symm.trans hcell
    exact ⟨inner, hinner⟩

/-- The cells on the way to a value. Only while a key is printed are they not known to be open. -/
structure Along (cells : Array Value) (path active : List Nat) (w : Value) : Prop where
  isOpen : Open cells path
  keyed : w.EachMap Table.Keyed
  known : active = path ∨ w.isKey = true

theorem Along.known_of_part {path active : List Nat} {p w : Value} (h : Along cells path active w)
    (hp : p ∈ w.parts) : active = path := by
  refine h.known.resolve_right fun hkey => ?_
  cases w <;> simp_all [isKey, parts]

theorem Along.part {path active : List Nat} {p w : Value} (h : Along cells path active w)
    (hp : p ∈ w.parts) : Along cells path active p :=
  ⟨h.isOpen, h.keyed.part hp, Or.inl (h.known_of_part hp)⟩

theorem Along.atom {path active : List Nat} {id : Nat} (h : Along cells path active (.atom id)) :
    active = path :=
  h.known.resolve_right Bool.false_ne_true

theorem Shows.along {style s : Style} {v w : Value} {path active : List Nat}
    (hv : v.EachMap Table.Keyed) (hcells : ∀ contents ∈ cells, contents.EachMap Table.Keyed)
    (h : Shows cells style v path active s w) : Along cells path active w := by
  induction h with
  | start => exact ⟨.nil, hv, Or.inl rfl⟩
  | item _ hw ih => exact ih.part hw
  | element _ hw ih => exact ih.part hw
  | @key _ _ _ id entries entry _ he ih =>
    have hp := ih.part (Table.mem_flat.mpr ⟨entry, he, Or.inl rfl⟩)
    exact ⟨hp.isOpen, hp.keyed, Or.inr (ih.keyed id entries .self entry he)⟩
  | value _ he ih => exact ih.part (Table.mem_flat.mpr ⟨_, he, Or.inr rfl⟩)
  | contents _ hnot hcell ih =>
    have hactive := ih.atom
    subst hactive
    exact ⟨ih.isOpen.cons hnot hcell, hcells _ (Array.mem_of_getElem? hcell), Or.inl rfl⟩

end

end Value

open Value

/-- Whatever the cells hold, printing a value comes to an end, with the text that is computed. On
the way to anything that is printed no cell is opened twice; and an atom on the way is printed
without its contents just if its cell is open there or does not exist. -/
theorem printing_terminates {cells : Array Value} {v : Value} (hv : v.EachMap Table.Keyed)
    (hcells : ∀ contents ∈ cells, contents.EachMap Table.Keyed) (style : Style) :
    (∀ t, Prints cells [] style v t ↔ t = v.text cells style) ∧
    ∀ path active s w, Shows cells style v path active s w →
      path.Nodup ∧ path.length ≤ cells.size ∧ (∃ t, Prints cells active s w t) ∧
      ∀ id, w = .atom id → ∀ t, Prints cells active s w t ↔
        if id ∈ path ∨ cells[id]? = none then t = unexpandedAtom id
        else ∃ contents inner, cells[id]? = some contents ∧
          Prints cells (id :: path) s contents inner ∧ t = "(atom " ++ inner ++ ")" := by
  have htext := prints_text hcells style hv
  refine ⟨fun t => ⟨fun ht => ht.unique htext, fun ht => ht ▸ htext⟩, ?_⟩
  intro path active s w hshows
  have halong := hshows.along hv hcells
  refine ⟨halong.isOpen.nodup, halong.isOpen.length_le, hshows.exists_prints htext, ?_⟩
  rintro id rfl t
  rw [← halong.atom]
  exact prints_atom

/-- Two cells that hold each other, one of them in a map, and an atom whose cell does not exist. -/
theorem printing_terminates_circle :
    let cells : Array Value := #[.list none [.atom 1, .sym "x"], .map none [(.str "k", .atom 0)]]
    let v : Value := .vec none [.atom 0, .atom 9]
    (∀ t, Prints cells [] .readable v t ↔
      t = "[(atom ((atom \x7b\"k\" (atom #<0>)\x7d) x)) (atom #<9>)]") ∧
    Shows cells .readable v [1, 0] [1, 0] .readable (.atom 0) ∧
    (∀ t, Prints cells [1, 0] .readable (.atom 0) t ↔ t = "(atom #<0>)") := by
  intro cells v
  have hcells : ∀ contents ∈ cells, contents.EachMap Table.Keyed := by
    intro contents hmem
    simp only [cells, List.mem_toArray, List.mem_cons, List.not_mem_nil, or_false] at hmem
    rcases hmem with rfl | rfl <;> exact eachMap_of_checkMaps (by decide +kernel)
  have htext : v.text cells .readable =
      "[(atom ((atom \x7b\"k\" (atom #<0>)\x7d) x)) (atom #<9>)]" := by
    decide +kernel
  have houter : Shows cells .readable v [] [] .readable (.atom 0) :=
    .element .start List.mem_cons_self
  have hinner : Shows cells .readable v [0] [0] .readable (.atom 1) :=
    .item (.contents houter List.not_mem_nil rfl) List.mem_cons_self
  have hshows : Shows cells .readable v [1, 0] [1, 0] .readable (.atom 0) :=
    .value (.contents hinner (by decide) rfl) List.mem_cons_self
  obtain ⟨hprints, hway⟩ := printing_terminates
    (eachMap_of_checkMaps (v := v) (by decide +kernel)) hcells .readable
  obtain ⟨-, -, -, hatom⟩ := hway _ _ _ _ hshows
  refine ⟨htext ▸ hprints, hshows, fun t => (hatom 0 rfl t).trans ?_⟩
  rw [if_pos (Or.inl (by decide))]
  exact Iff.rfl

end Lisp
