import Lisp.Proofs.Equality
import Lisp.Proofs.RoundTrip
import Mathlib.Data.List.Nodup

/-!
# Texts of equal values

Equal values have equal texts, in both styles and whatever the cells hold. Maps are equal in
whatever order their entries stand, and are printed in the order of the texts of their keys:
different strings and keywords have different texts, so that order leaves no choice.
-/

namespace Lisp

/-! ## Texts of keys -/

theorem Text.escape_injective {cs ds : List Char} (h : escape cs = escape ds) : cs = ds := by
  rw [← unescape_escape cs, h, unescape_escape]

theorem Text.quoted_injective {s t : String} (h : quoted s = quoted t) : s = t := by
  have hlist := congrArg String.toList h
  simp only [quoted, String.toList_ofList, List.cons_append, List.cons.injEq, true_and,
    List.append_cancel_right_eq] at hlist
  exact String.toList_injective (escape_injective hlist)

/-- A quoted string begins with a quote, and a keyword with a colon. -/
theorem Text.quoted_ne_keyword (s name : String) : quoted s ≠ ":" ++ name := by
  intro h
  have hlist := congrArg String.toList h
  simp [quoted] at hlist

/-- Different keys have different texts. -/
theorem Value.render_injective_of_isKey {atomText : Style → Nat → String} {k l : Value}
    (hk : k.isKey = true) (hl : l.isKey = true)
    (h : render atomText .readable k = render atomText .readable l) : k = l := by
  cases k with
  | str s =>
    cases l with
    | str t => exact congrArg str (Text.quoted_injective h)
    | kw t => exact absurd h (Text.quoted_ne_keyword s t)
    | _ => simp [isKey] at hl
  | kw s =>
    cases l with
    | str t => exact absurd h.symm (Text.quoted_ne_keyword t s)
    | kw t =>
      simp only [render, String.append_right_inj] at h
      rw [h]
    | _ => simp [isKey] at hl
  | _ => simp [isKey] at hk

/-- What equals a key is that key. -/
theorem Value.eq_of_beq_of_isKey {k v : Value} (hk : k.isKey = true) (h : k.beq v = true) :
    v = k := by
  cases k with
  | str s => cases v <;> simp_all [beq]
  | kw s => cases v <;> simp_all [beq]
  | _ => simp [isKey] at hk

/-! ## Sorted entries -/

theorem Value.sortByKey_pairwise (entries : List (String × String)) :
    (sortByKey entries).Pairwise fun a b => a.1 ≤ b.1 := by
  have hsorted : (sortByKey entries).Pairwise fun a b => decide (a.1 ≤ b.1) = true := by
    refine List.pairwise_mergeSort (fun a b c hab hbc => ?_) (fun a b => ?_) entries
    · rw [decide_eq_true_eq] at hab hbc ⊢
      exact String.le_trans hab hbc
    · simpa using String.le_total a.1 b.1
  exact hsorted.imp of_decide_eq_true

/-- Where no key stands twice there is one order of the entries by key. -/
theorem Value.sortByKey_eq_of_perm {xs ys : List (String × String)} (hperm : xs.Perm ys)
    (hkeys : (xs.map Prod.fst).Nodup) : sortByKey xs = sortByKey ys := by
  have hxs : (sortByKey xs).Perm xs := List.mergeSort_perm xs _
  have hys : (sortByKey ys).Perm xs := (List.mergeSort_perm ys _).trans hperm.symm
  refine List.Perm.eq_of_pairwise ?_ (sortByKey_pairwise xs) (sortByKey_pairwise ys)
    (hxs.trans hys.symm)
  intro a b ha hb hab hba
  exact List.inj_on_of_nodup_map hkeys (hxs.mem_iff.mp ha) (hys.mem_iff.mp hb)
    (String.le_antisymm hab hba)

/-! ## Tables -/

/-- The entries of a map: its keys are strings and keywords, and none stands twice. -/
structure Table.Proper (entries : Table) : Prop where
  keyed : Keyed entries
  distinct : Distinct entries

instance : DecidablePred Table.Proper := fun entries =>
  have : Decidable (Table.Distinct entries) :=
    inferInstanceAs (Decidable (entries.Pairwise fun a b => a.1 ≠ b.1))
  decidable_of_iff (Table.Keyed entries ∧ Table.Distinct entries)
    ⟨fun h => ⟨h.1, h.2⟩, fun h => ⟨h.keyed, h.distinct⟩⟩

section

variable {atomText : Style → Nat → String} {style : Style} {xs ys : Table}

/-- The keys of a map have different texts. -/
theorem Table.Proper.nodup_keyTexts (h : Proper xs) :
    ((Value.renderEntries atomText style xs).map Prod.fst).Nodup := by
  rw [Value.renderEntries_eq_map, List.map_map]
  refine List.pairwise_map.mpr (h.distinct.imp_of_mem fun {a b} ha hb hne htext => hne ?_)
  exact Value.render_injective_of_isKey (h.keyed a ha) (h.keyed b hb) htext

theorem Value.sortByKey_renderEntries_perm (hperm : xs.Perm ys) (h : Table.Proper xs) :
    sortByKey (renderEntries atomText style xs) = sortByKey (renderEntries atomText style ys) := by
  refine sortByKey_eq_of_perm ?_ h.nodup_keyTexts
  simp only [renderEntries_eq_map]
  exact hperm.map _

/-- Maps of one size, the first covered by the second, have the same texts if equal values in them
have: the texts of the first stand among those of the second, and none stands there twice. -/
theorem Value.sortByKey_renderEntries_of_covered (h : Table.Proper xs)
    (hlength : xs.length = ys.length) (hcovered : Table.Covered xs ys)
    (hvalue : ∀ x ∈ xs, ∀ v, x.2.beq v = true →
      render atomText style x.2 = render atomText style v) :
    sortByKey (renderEntries atomText style xs) = sortByKey (renderEntries atomText style ys) := by
  have hnodup : (renderEntries atomText style xs).Nodup := List.Nodup.of_map _ h.nodup_keyTexts
  have hsubset : renderEntries atomText style xs ⊆ renderEntries atomText style ys := by
    simp only [renderEntries_eq_map]
    intro text htext
    obtain ⟨x, hx, rfl⟩ := List.mem_map.mp htext
    obtain ⟨y, hy, hkey, hval⟩ := hcovered x hx
    refine List.mem_map.mpr ⟨y, hy, ?_⟩
    rw [eq_of_beq_of_isKey (h.keyed x hx) hkey, hvalue x hx y.2 hval]
  have hle : (renderEntries atomText style ys).length ≤
      (renderEntries atomText style xs).length := by
    simp only [renderEntries_eq_map, List.length_map, hlength, Nat.le_refl]
  exact sortByKey_eq_of_perm ((List.subperm_of_subset hnodup hsubset).perm_of_length_le hle)
    h.nodup_keyTexts

end

/-- Tables that are built from the same entries, one by one, are the same. -/
theorem Table.foldl_insert_perm {xs ys : Table} (hperm : xs.Perm ys) (h : Proper xs) :
    xs.foldl (fun table entry => insert entry.1 entry.2 table) [] =
      ys.foldl (fun table entry => insert entry.1 entry.2 table) [] := by
  have hkeyed : Keyed ys := fun e he => h.keyed e (hperm.mem_iff.mpr he)
  refine (canonical_foldl_insert h.keyed canonical_nil).ext
    (canonical_foldl_insert hkeyed canonical_nil) fun key => ?_
  have hrev : xs.reverse.Perm ys.reverse :=
    xs.reverse_perm.trans (hperm.trans ys.reverse_perm.symm)
  rw [get?_foldl_insert h.keyed canonical_nil, get?_foldl_insert hkeyed canonical_nil,
    get?_perm hrev (fun e he => h.keyed e (List.mem_reverse.mp he))
      (xs.reverse_perm.symm.pairwise h.distinct fun hne => hne.symm)]

/-! ## Values -/

namespace Value

variable {atomText : Style → Nat → String}

theorem renderAll_eq_of_beqAll {style : Style} {xs ys : List Value}
    (hparts : ∀ x ∈ xs, ∀ y, x.beq y = true → render atomText style x = render atomText style y)
    (h : beqAll xs ys = true) : renderAll atomText style xs = renderAll atomText style ys := by
  induction xs generalizing ys with
  | nil =>
    cases ys with
    | nil => rfl
    | cons y ys => simp [beqAll] at h
  | cons x xs ih =>
    cases ys with
    | nil => simp [beqAll] at h
    | cons y ys =>
      obtain ⟨hx, hxs⟩ := List.forall_mem_cons.mp hparts
      rw [beqAll, Bool.and_eq_true] at h
      rw [renderAll, renderAll, hx y h.1, ih hxs h.2]

/-- Equal values have the same text, if equal parts of the first have. -/
theorem render_eq_of_parts {a b : Value} {style : Style} (ha : a.EachMap Table.Proper)
    (hparts : ∀ p ∈ a.parts, ∀ q, p.beq q = true →
      render atomText style p = render atomText style q)
    (h : a.beq b = true) : render atomText style a = render atomText style b := by
  cases beq_iff_equal.mp h with
  | same _ => rfl
  | list hxy =>
    rw [parts] at hparts
    rw [render, render, renderAll_eq_of_beqAll hparts hxy]
  | vec hxy =>
    rw [parts] at hparts
    rw [render, render, renderAll_eq_of_beqAll hparts hxy]
  | map hlength hxy =>
    have hcovered := Table.covered_of_entriesIn hxy fun _ he => he
    have hvalue := Table.all_of_parts hparts
    rw [render, render, sortByKey_renderEntries_of_covered (ha _ _ .self) hlength hcovered
      fun x hx => (hvalue x hx).2]

/-- Texts are taken of parts, which are smaller. -/
theorem render_eq_of_beq {a b : Value} {style : Style} (ha : a.EachMap Table.Proper)
    (h : a.beq b = true) : render atomText style a = render atomText style b := by
  induction hsize : sizeOf a using Nat.strongRecOn generalizing a b with
  | _ size ih =>
    subst hsize
    refine render_eq_of_parts ha (fun p hp q hpq => ?_) h
    exact ih (sizeOf p) (sizeOf_lt_of_mem_parts hp) (ha.part hp) hpq rfl

end Value

/-- Equal values have equal texts in both styles, whatever the cells hold. In particular the text of
a map does not depend on the order of its entries, nor on the order in which they were inserted. -/
theorem text_respects_beq (cells : Array Value) (style : Style) :
    (∀ a b : Value, a.EachMap Table.Proper → a.beq b = true →
      a.text cells style = b.text cells style) ∧
    ∀ (i j : ObjectId) (xs ys : Table), Table.Proper xs → xs.Perm ys →
      let inserted := List.foldl (fun table entry => Table.insert entry.1 entry.2 table) []
      (Value.map i xs).text cells style = (Value.map j ys).text cells style ∧
      (Value.map i (inserted xs)).text cells style =
        (Value.map j (inserted ys)).text cells style := by
  refine ⟨fun a b ha hab => Value.render_eq_of_beq ha hab, fun i j xs ys hxs hperm => ⟨?_, ?_⟩⟩
  · simp only [Value.text, Value.render, Value.sortByKey_renderEntries_perm hperm hxs]
  · simp only [Value.text, Value.render, Table.foldl_insert_perm hperm hxs]

/-- Two maps with the same entries in different orders, one of which holds two such maps again, with
a string and a keyword of the same characters for keys. The cell holds the atom that is printed. -/
theorem text_respects_beq_nested :
    let xs : Table := [(.kw "a", .atom 0), (.str "a", .str "\"")]
    let ys : Table := [(.str "a", .str "\""), (.kw "a", .atom 0)]
    let a : Value := .map (some 0) [(.str ":a", .map (some 1) xs), (.kw "b", .vec none [.nil])]
    let b : Value := .map (some 2) [(.kw "b", .vec none [.nil]), (.str ":a", .map (some 3) ys)]
    let cells : Array Value := #[.list none [.atom 0, a]]
    a.EachMap Table.Proper ∧ a.beq b = true ∧ a.text cells .display = b.text cells .display ∧
      Table.Proper xs ∧ xs.Perm ys ∧
      (Value.map none xs).text cells .readable = (Value.map (some 4) ys).text cells .readable := by
  intro xs ys a b cells
  have ha : a.EachMap Table.Proper := Value.eachMap_of_checkMaps (by decide +kernel)
  have hab : a.beq b = true := by decide +kernel
  have hxs : Table.Proper xs := by decide +kernel
  have hperm : xs.Perm ys := .swap _ _ _
  exact ⟨ha, hab, (text_respects_beq cells .display).1 a b ha hab, hxs, hperm,
    ((text_respects_beq cells .readable).2 none (some 4) xs ys hxs hperm).1⟩

end Lisp
