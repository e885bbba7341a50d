import Lisp.Proofs.Soundness
import Lisp.Proofs.Wrapping
import Mathlib.Data.List.Dedup

/-!
# Maps as finite maps

A map represents the partial function whose graph its entries are. Seen through it, the functions on
maps do what their names say: `get` and `contains?` apply it, `assoc` extends it, the last of
several values for a key counting, `dissoc` restricts it, and `keys` and `vals` list its graph. A
map made by `hash-map` extends the empty one, and so does the map that is read from a literal.
-/

namespace Lisp

open Table (Canonical Keyed flat get?)

namespace Table

/-! ## Entries -/

theorem contains_eq_isSome (entries : Table) (key : Value) :
    contains entries key = (get? entries key).isSome := by
  rw [contains, get?, Option.isSome_map, Bool.eq_iff_iff, List.find?_isSome, List.any_eq_true]

theorem isSome_get?_iff {entries : Table} (hk : Keyed entries) {key : Value} :
    (get? entries key).isSome = true ↔ key ∈ entries.map Prod.fst := by
  rw [← contains_eq_isSome, contains, List.any_eq_true, List.mem_map]
  refine exists_congr fun entry => and_congr_right fun he => ?_
  rw [Value.beq_iff_eq_of_isKey (hk entry he), eq_comm]

theorem mem_erase {entries : Table} (hk : Keyed entries) {key : Value} {entry : Value × Value} :
    entry ∈ erase entries key ↔ entry ∈ entries ∧ entry.1 ≠ key := by
  rw [erase, List.mem_filter]
  refine and_congr_right fun he => ?_
  rw [Bool.not_eq_true', ← Bool.not_eq_true, Value.beq_iff_eq_of_isKey (hk entry he), ne_comm]

theorem Keyed.erase {entries : Table} (hk : Keyed entries) (key : Value) :
    Keyed (erase entries key) :=
  fun entry he => hk entry ((mem_erase hk).mp he).1

theorem mem_foldl_erase {entries : Table} (hk : Keyed entries) {doomed : List Value}
    {entry : Value × Value} :
    entry ∈ doomed.foldl Table.erase entries ↔ entry ∈ entries ∧ entry.1 ∉ doomed := by
  induction doomed generalizing entries with
  | nil => simp
  | cons key doomed ih =>
    rw [List.foldl_cons, ih (hk.erase key), mem_erase hk, List.mem_cons, not_or, and_assoc]

/-! ## Keys and values in turn -/

theorem getElem?_flat (pairs : Table) (i : Nat) :
    (flat pairs)[2 * i]? = pairs[i]?.map Prod.fst := by
  induction pairs generalizing i with
  | nil => simp
  | cons pair pairs ih =>
    cases i with
    | zero => simp
    | succ i => simpa [Nat.mul_succ] using ih i

/-- An odd number of items, or one that is no string or keyword in the place of a key. -/
def Mispaired (items : List Value) : Prop :=
  items.length % 2 = 1 ∨ ∃ i key, items[2 * i]? = some key ∧ key.isKey = false

theorem not_mispaired_flat {pairs : Table} (hk : Keyed pairs) : ¬ Mispaired (flat pairs) := by
  rintro (hodd | ⟨i, key, hkey, hbad⟩)
  · rw [length_flat] at hodd
    omega
  · rw [getElem?_flat, Option.map_eq_some_iff] at hkey
    obtain ⟨pair, hpair, rfl⟩ := hkey
    rw [hk pair (List.mem_of_getElem? hpair)] at hbad
    cases hbad

theorem Mispaired.of_tail {key value : Value} {rest : List Value} (h : Mispaired rest) :
    Mispaired (key :: value :: rest) := by
  rcases h with hodd | ⟨i, other, hother, hbad⟩
  · refine .inl ?_
    simp only [List.length_cons]
    omega
  · exact .inr ⟨i + 1, other, hother, hbad⟩

theorem exists_flat {items : List Value} (h : ¬ Mispaired items) :
    ∃ pairs, items = flat pairs ∧ Keyed pairs := by
  fun_induction pairUp items with
  | case1 => exact ⟨[], rfl, canonical_nil.keyed⟩
  | case2 v => exact absurd (.inl rfl) h
  | case3 key value rest hkey ih =>
    obtain ⟨pairs, rfl, hk⟩ := ih fun hrest => h hrest.of_tail
    refine ⟨(key, value) :: pairs, rfl, ?_⟩
    intro pair hpair
    rcases List.mem_cons.mp hpair with rfl | hpair
    · exact hkey
    · exact hk pair hpair
  | case4 key value rest hkey => exact absurd (.inr ⟨0, key, rfl, by simpa using hkey⟩) h

end Table

/-! ## What a map represents -/

/-- The map is kept in order, and its entries are the graph of `f`. -/
def Value.Represents (m : Value) (f : Value → Option Value) : Prop :=
  ∃ id entries, m = .map id entries ∧ Canonical entries ∧
    ∀ key value, f key = some value ↔ (key, value) ∈ entries

theorem Value.represents_map {id : ObjectId} {entries : Table} {f : Value → Option Value}
    (h : Canonical entries) (hf : ∀ key, get? entries key = f key) :
    (Value.map id entries).Represents f :=
  ⟨id, entries, rfl, h, fun key _ => by
    rw [← hf key, Table.get?_eq_some_iff h.keyed h.distinct]⟩

theorem Table.get?_eq_of_graph {entries : Table} {f : Value → Option Value} (h : Canonical entries)
    (hf : ∀ key value, f key = some value ↔ (key, value) ∈ entries) (key : Value) :
    get? entries key = f key := by
  ext value
  rw [Table.get?_eq_some_iff h.keyed h.distinct, hf]

namespace TableOp

/-! ## Entering pairs -/

theorem extend_eq_ok_iff {op : TableOp} {entries : Table} {items : List Value} {v : Value} :
    op.extend entries items = .ok v ↔
      ∃ result, entries.insertPairs items = .ok result ∧ v = .map none result := by
  unfold extend
  cases entries.insertPairs items with
  | ok result => simp [eq_comm]
  | error fault => cases fault <;> simp

theorem extend_flat {op : TableOp} {entries pairs : Table} (hk : Keyed pairs) :
    op.extend entries (flat pairs) =
      .ok (.map none (entries.union (Table.ofEntries pairs.length.log2 pairs))) :=
  extend_eq_ok_iff.mpr ⟨_, Table.insertPairs_eq_ok.mpr ⟨pairs, rfl, hk, rfl⟩, rfl⟩

/-- Keys and values are refused just if they are not paired. -/
theorem extend_fails_iff {op : TableOp} {entries : Table} {items : List Value} :
    (∃ e, op.extend entries items = .error e) ↔ Table.Mispaired items := by
  constructor
  · rintro ⟨e, he⟩
    by_contra hpaired
    obtain ⟨pairs, rfl, hk⟩ := Table.exists_flat hpaired
    rw [extend_flat hk] at he
    cases he
  · intro hmispaired
    cases hextend : op.extend entries items with
    | error e => exact ⟨e, rfl⟩
    | ok v =>
      obtain ⟨result, hresult, -⟩ := extend_eq_ok_iff.mp hextend
      obtain ⟨pairs, rfl, hk, -⟩ := Table.insertPairs_eq_ok.mp hresult
      exact absurd hmispaired (Table.not_mispaired_flat hk)

theorem represents_extended {entries pairs : Table} (h : Canonical entries) (hk : Keyed pairs) :
    (Value.map none (entries.union (Table.ofEntries pairs.length.log2 pairs))).Represents
      fun key => (get? pairs.reverse key).or (get? entries key) := by
  have hadded := Table.canonical_ofEntries pairs.length.log2 hk
  refine Value.represents_map (Table.canonical_union h hadded) fun key => ?_
  rw [Table.get?_union h hadded, Table.get?_ofEntries _ hk]

/-! ## The functions on maps -/

/-- What the functions make of a map that represents `f`. -/
structure Laws (m : Value) (f : Value → Option Value) : Prop where
  get (key : Value) : run .get [m, key] = .ok ((f key).getD .nil)
  /-- A key whose value is `nil` is told from one that is absent. -/
  contains (key : Value) : run .contains [m, key] = .ok (.bool (f key).isSome)
  /-- Position by position the keys and the values are the graph, each entry once, and the different
  keys are counted. -/
  entries : ∃ ks vs, run .keys [m] = .ok (.list none ks) ∧ run .vals [m] = .ok (.list none vs) ∧
    SequenceOp.run .count [m] = .ok (.int (Int64.ofNat ks.length)) ∧
    ks.Nodup ∧ ks.length = vs.length ∧ ∀ key value, (key, value) ∈ ks.zip vs ↔ f key = some value
  /-- The last pair with a key counts, else what was there before. -/
  assoc {pairs : Table} : Keyed pairs → ∃ m', run .assoc (m :: flat pairs) = .ok m' ∧
    m'.Represents fun key => (get? pairs.reverse key).or (f key)
  /-- The listed keys are removed and no others; absent ones are ignored. -/
  dissoc (doomed : List Value) : ∃ m', run .dissoc (m :: doomed) = .ok m' ∧
    m'.Represents fun key => if key ∈ doomed then none else f key
  refused (args : List Value) :
    (∃ e, run .assoc (m :: args) = .error e) ↔ Table.Mispaired args

theorem keys_zip_vals (entries : Table) :
    (entries.map Prod.fst).zip (entries.map Prod.snd) = entries := by
  rw [List.zip_map', List.map_id']

theorem nodup_keys {entries : Table} (h : Canonical entries) : (entries.map Prod.fst).Nodup :=
  List.pairwise_map.mpr h.distinct

theorem laws {m : Value} {f : Value → Option Value} (h : m.Represents f) : Laws m f := by
  obtain ⟨id, entries, rfl, hcanonical, hgraph⟩ := h
  have hf := Table.get?_eq_of_graph hcanonical hgraph
  constructor
  case get =>
    intro key
    rw [← hf key]
    rfl
  case contains =>
    intro key
    rw [← hf key, ← Table.contains_eq_isSome]
    rfl
  case entries =>
    refine ⟨entries.map Prod.fst, entries.map Prod.snd, rfl, rfl, ?_, nodup_keys hcanonical, ?_, ?_⟩
    · rw [List.length_map]
      rfl
    · rw [List.length_map, List.length_map]
    · intro key value
      rw [keys_zip_vals, hgraph]
  case assoc =>
    intro pairs hk
    refine ⟨_, extend_flat hk, ?_⟩
    simpa only [hf] using represents_extended hcanonical hk
  case dissoc =>
    intro doomed
    have hsub := Table.foldl_erase_sublist doomed entries
    refine ⟨_, rfl, none, _, rfl, hcanonical.sublist hsub, fun key value => ?_⟩
    rw [Table.mem_foldl_erase hcanonical.keyed, ← hgraph]
    by_cases hdoomed : key ∈ doomed <;> simp [hdoomed]
  case refused => exact fun args => extend_fails_iff

/-! ## Maps that are made of pairs -/

theorem run_hashMap_eq_ok_iff {args : List Value} {v : Value} :
    run .hashMap args = .ok v ↔
      ∃ pairs entries, args = flat pairs ∧ Table.Denotes pairs entries ∧ v = .map none entries := by
  refine extend_eq_ok_iff.trans ?_
  constructor
  · rintro ⟨entries, hentries, rfl⟩
    obtain ⟨pairs, hflat, hdenotes⟩ := Table.insertPairs_eq_ok_iff.mp hentries
    exact ⟨pairs, entries, hflat, hdenotes, rfl⟩
  · rintro ⟨pairs, entries, hflat, hdenotes, rfl⟩
    exact ⟨entries, Table.insertPairs_eq_ok_iff.mpr ⟨pairs, hflat, hdenotes⟩, rfl⟩

/-- The map of pairs has as many entries as the pairs have different keys. -/
theorem length_of_denotes {pairs entries : Table} (h : Table.Denotes pairs entries) :
    entries.length = (pairs.map Prod.fst).dedup.length := by
  have hperm : (entries.map Prod.fst).Perm (pairs.map Prod.fst).dedup := by
    refine (List.perm_ext_iff_of_nodup (nodup_keys h.canonical) (List.nodup_dedup _)).mpr ?_
    intro key
    have hkeyed : Keyed pairs.reverse := fun pair hpair => h.keyed pair (List.mem_reverse.mp hpair)
    rw [← Table.isSome_get?_iff h.canonical.keyed, h.last, Table.isSome_get?_iff hkeyed,
      List.mem_dedup, List.map_reverse, List.mem_reverse]
  rw [← hperm.length_eq, List.length_map]

open Grammar Reader

/-- A literal is read as the map of its forms. -/
theorem read_braces_iff {source : String} {ts : List Token} {args : List Value} {n : Nat}
    (hsource : tokens source = .opening .curly :: (ts ++ [.closing .curly]))
    (hargs : DerivesAll ts args n) (hn : n < maxNesting) (v : Value) :
    read source = .ok v ↔ run .hashMap args = .ok v := by
  rw [read_eq_ok_iff, run_hashMap_eq_ok_iff, ← tokens, hsource]
  constructor
  · rintro (⟨hblank, -⟩ | ⟨k, hform, -⟩)
    · rw [tokens, hblank] at hsource
      cases hsource
    · generalize hts : Token.opening .curly :: (ts ++ [.closing .curly]) = us at hform
      cases hform with
      | bracket hall henc =>
        obtain ⟨hopening, hbody⟩ := List.cons.inj hts
        cases hopening
        obtain ⟨-, rfl, -⟩ := hargs.unique hall (ends_closing _ _) (ends_closing _ _) hbody
        cases henc with
        | map hdenotes => exact ⟨_, _, rfl, hdenotes, rfl⟩
      | _ => cases hts
  · rintro ⟨pairs, entries, rfl, hdenotes, rfl⟩
    exact .inr ⟨n + 1, .bracket hargs (.map hdenotes), hn⟩

/-- Maps are finite maps. Every map that is kept in order represents one, and the functions on maps
make of it what they should. The map of pairs represents the last value given for each key, it is
what the empty map becomes by entering the pairs, and it is what is read from any literal whose
forms are the pairs; its entries are as many as the pairs have different keys. Nothing is made of an
odd number of keys and values, or of a key that is no string or keyword, and only then. -/
theorem maps_are_finite_maps :
    (∀ id entries, Canonical entries → ∃ f, (Value.map id entries).Represents f) ∧
    (∀ m f, m.Represents f → Laws m f) ∧
    (∀ pairs, Keyed pairs → ∃ m, run .hashMap (flat pairs) = .ok m ∧
      m.Represents (get? pairs.reverse) ∧
      SequenceOp.run .count [m] =
        .ok (.int (Int64.ofNat (pairs.map Prod.fst).dedup.length))) ∧
    (∀ id args v, run .hashMap args = .ok v ↔ run .assoc (.map id [] :: args) = .ok v) ∧
    (∀ source ts args n, tokens source = .opening .curly :: (ts ++ [.closing .curly]) →
      DerivesAll ts args n → n < maxNesting →
      ∀ v, read source = .ok v ↔ run .hashMap args = .ok v) ∧
    ∀ args, (∃ e, run .hashMap args = .error e) ↔ Table.Mispaired args := by
  refine ⟨fun id entries h => ⟨get? entries, Value.represents_map h fun _ => rfl⟩,
    fun m f h => laws h, fun pairs hk => ?_, fun id args v => ?_,
    fun source ts args n hsource hargs hn => read_braces_iff hsource hargs hn,
    fun args => extend_fails_iff⟩
  · have hdenotes := Table.denotes_ofEntries hk
    refine ⟨_, run_hashMap_eq_ok_iff.mpr ⟨pairs, _, rfl, hdenotes, rfl⟩,
      Value.represents_map hdenotes.canonical hdenotes.last, ?_⟩
    rw [← length_of_denotes hdenotes]
    rfl
  · exact extend_eq_ok_iff.trans extend_eq_ok_iff.symm

/-- A string and a keyword of the same text are different keys; the second value given for the
string is `nil`, which is told from a key that is absent, and removing an absent key changes
nothing. -/
theorem maps_are_finite_maps_same_text :
    ∃ m m', run .assoc [.map none [(.str "a", .int 1), (.kw "a", .int 2)], .str "a", .int 3,
        .str "a", .nil] = .ok m ∧
      run .get [m, .str "a"] = .ok .nil ∧ run .contains [m, .str "a"] = .ok (.bool true) ∧
      run .get [m, .kw "a"] = .ok (.int 2) ∧
      run .dissoc [m, .str "a", .kw "b"] = .ok m' ∧
      run .contains [m', .str "a"] = .ok (.bool false) ∧
      run .contains [m', .kw "a"] = .ok (.bool true) := by
  obtain ⟨hrepresents, hlaws, -⟩ := maps_are_finite_maps
  have hcanonical : Canonical [(.str "a", .int 1), (.kw "a", .int 2)] :=
    .cons rfl (List.forall_mem_singleton.mpr ⟨rfl, by decide⟩) (Table.canonical_singleton rfl)
  obtain ⟨f, hf⟩ := hrepresents none _ hcanonical
  have hpairs : Keyed [(.str "a", .int 3), (.str "a", .nil)] := by decide
  obtain ⟨m, hm, hg⟩ := (hlaws _ f hf).assoc hpairs
  obtain ⟨m', hm', hg'⟩ := (hlaws m _ hg).dissoc [.str "a", .kw "b"]
  have hstring : get? [(.str "a", .int 3), (.str "a", .nil)].reverse (.str "a") = some .nil := by
    decide +kernel
  have hkeyword : get? [(.str "a", .int 3), (.str "a", .nil)].reverse (.kw "a") = none := by
    decide +kernel
  obtain ⟨_, _, hentries, _, hgraph⟩ := hf
  cases hentries
  have hbefore : f (.kw "a") = some (.int 2) := (hgraph _ _).mpr (by simp)
  refine ⟨m, m', hm, ((hlaws m _ hg).get _).trans ?_, ((hlaws m _ hg).contains _).trans ?_,
    ((hlaws m _ hg).get _).trans ?_, hm', ((hlaws m' _ hg').contains _).trans ?_,
    ((hlaws m' _ hg').contains _).trans ?_⟩
  · rw [hstring]
    rfl
  · rw [hstring]
    rfl
  · rw [hkeyword, hbefore]
    rfl
  · rw [if_pos (by simp)]
    rfl
  · rw [if_neg (by simp), hkeyword, hbefore]
    rfl

end TableOp

end Lisp
