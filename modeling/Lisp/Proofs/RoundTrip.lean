import Lisp.Builtin.Text
import Lisp.Proofs.Reader
import Lisp.Proofs.Scanner

/-!
# Reading back what is printed

The readable text of a form that has been read, and that holds no float, reads as the same form. A
value is `Printable` within a depth if its text spells tokens from which the grammar derives it no
deeper than that. Words print as themselves but for integers, strings are escaped so that unescaping
gives them back, and a map prints its entries in another order, which denotes the same table. So
every value that the grammar derives is printable within the depth of its derivation.
-/

namespace Lisp

namespace Text

theorem unescape_cons {c : Char} (h : c ≠ '\\') (cs : List Char) :
    unescape (c :: cs) = c :: unescape cs := by
  rw [unescape]
  all_goals simp [h]

theorem unescape_escape (cs : List Char) : unescape (escape cs) = cs := by
  fun_induction escape cs with
  | case1 => rfl
  | case2 cs ih => rw [unescape, ih]
  | case3 cs ih => rw [unescape, ih]
  | case4 cs ih => rw [unescape, ih]
  | case5 c cs hslash _ _ ih => rw [unescape_cons hslash, ih]

end Text

/-! ## Integers -/

theorem contains_eq_false_of_isDigit {c : Char} (h : c.isDigit = true) {others : List Char}
    (ho : others.any Char.isDigit = false) : others.contains c = false := by
  rw [List.contains_eq_mem, decide_eq_false_iff_not]
  intro hm
  exact List.any_eq_false.mp ho c hm h

theorem isBlank_eq_false_of_isDigit {c : Char} (h : c.isDigit = true) :
    Text.isBlank c = false := by
  obtain ⟨hlow, hhigh⟩ := Char.isDigit_iff_toNat.mp h
  have hlow : 48 ≤ c.toNat := hlow
  have hhigh : c.toNat ≤ 57 := hhigh
  simp only [Text.isBlank, Text.blankRanges, List.any_cons, List.any_nil, Bool.or_false,
    Bool.or_eq_false_iff, Bool.and_eq_false_iff, decide_eq_false_iff_not, Nat.not_le]
  omega

theorem isDelimiter_eq_false_of_isDigit {c : Char} (h : c.isDigit = true) :
    isDelimiter c = false := by
  rw [isDelimiter, isBlank_eq_false_of_isDigit h, contains_eq_false_of_isDigit h rfl]
  rfl

theorem beginsWord_of_isDigit {c : Char} (h : c.isDigit = true) : beginsWord c = true := by
  rw [beginsWord, isDelimiter_eq_false_of_isDigit h, contains_eq_false_of_isDigit h rfl]
  rfl

namespace Decimal

theorem splitSign_of_isDigit {c : Char} (h : c.isDigit = true) (cs : List Char) :
    splitSign (c :: cs) = (false, c :: cs) := by
  rw [splitSign]
  · rintro _ ⟨⟩
    simp at h
  · rintro _ ⟨⟩
    simp at h

theorem isDigit_of_mem_toDigits {n : Nat} {c : Char} (h : c ∈ Nat.toDigits 10 n) :
    c.isDigit = true :=
  Nat.isDigit_of_mem_toDigits (by decide) (by decide) h

theorem natural?_toDigits (n : Nat) : natural? (Nat.toDigits 10 n) = some n := by
  have hdigits : (Nat.toDigits 10 n).all Char.isDigit = true := by
    rw [List.all_eq_true]
    exact fun c hc => isDigit_of_mem_toDigits hc
  rw [natural?, value_eq, Nat.ofDigitChars_ten_toDigits, hdigits]
  simp [Nat.toDigits_ne_nil]

theorem integer?_toDigits (n : Nat) : integer? (Nat.toDigits 10 n) = some (n : Int) := by
  cases hds : Nat.toDigits 10 n with
  | nil => exact absurd hds Nat.toDigits_ne_nil
  | cons c cs =>
    have hc : c.isDigit = true := isDigit_of_mem_toDigits (hds ▸ List.mem_cons_self)
    rw [integer?, splitSign_of_isDigit hc, ← hds]
    simp [natural?_toDigits]

theorem integer?_minus_toDigits (n : Nat) :
    integer? ('-' :: Nat.toDigits 10 n) = some (-(n : Int)) := by
  simp [integer?, splitSign, natural?_toDigits]

/-- The decimal text of an integer stands for it. -/
theorem integer?_toString (n : Int) : integer? (toString n).toList = some n := by
  rw [Int.toString_eq_repr]
  cases n with
  | ofNat m =>
    rw [Int.repr, Nat.toList_repr]
    exact integer?_toDigits m
  | negSucc m =>
    rw [Int.repr, String.toList_append, Nat.toList_repr]
    exact integer?_minus_toDigits (m + 1)

end Decimal

theorem isWord_toDigits (n : Nat) : IsWord (Nat.toDigits 10 n) := by
  have hdigits : ∀ c ∈ Nat.toDigits 10 n, c.isDigit = true :=
    fun c hc => Decimal.isDigit_of_mem_toDigits hc
  cases hds : Nat.toDigits 10 n with
  | nil => exact absurd hds Nat.toDigits_ne_nil
  | cons c cs =>
    rw [hds] at hdigits
    exact ⟨beginsWord_of_isDigit (hdigits c List.mem_cons_self),
      fun d hd => isDelimiter_eq_false_of_isDigit (hdigits d (List.mem_cons_of_mem _ hd))⟩

theorem isWord_toString (n : Int) : IsWord (toString n).toList := by
  rw [Int.toString_eq_repr]
  cases n with
  | ofNat m =>
    rw [Int.repr, Nat.toList_repr]
    exact isWord_toDigits m
  | negSucc m =>
    -- The sign begins the word, and digits go on with it.
    rw [Int.repr, String.toList_append, Nat.toList_repr]
    refine ⟨by decide, fun d hd => isDelimiter_eq_false_of_isDigit ?_⟩
    exact Decimal.isDigit_of_mem_toDigits hd

theorem int64?_toInt (n : Int64) : int64? n.toInt = some n := by
  rw [int64?, if_pos ⟨n.minValue_le_toInt, n.toInt_le⟩, Int64.ofInt_toInt]

theorem Value.ofWord_toString (n : Int64) : ofWord (toString n.toInt).toList = .int n := by
  unfold ofWord
  rw [Decimal.integer?_toString, Option.bind_some, int64?_toInt]

/-! ## Parts of a value -/

/-- `v.Within w`: the value `v` occurs in `w`. -/
inductive Value.Within (v : Value) : Value → Prop
  | self : Within v v
  | list {id : ObjectId} {items : List Value} {w : Value} :
      w ∈ items → Within v w → Within v (.list id items)
  | vec {id : ObjectId} {items : List Value} {w : Value} :
      w ∈ items → Within v w → Within v (.vec id items)
  | key {id : ObjectId} {entries : List (Value × Value)} {entry : Value × Value} :
      entry ∈ entries → Within v entry.1 → Within v (.map id entries)
  | value {id : ObjectId} {entries : List (Value × Value)} {entry : Value × Value} :
      entry ∈ entries → Within v entry.2 → Within v (.map id entries)
  | param {params : List Value} {body w : Value} {scope : Nat} {isMacro : Bool} :
      w ∈ params → Within v w → Within v (.closure params body scope isMacro)
  | body {params : List Value} {body : Value} {scope : Nat} {isMacro : Bool} :
      Within v body → Within v (.closure params body scope isMacro)

/-- No float occurs in the value. -/
def Value.FloatFree (v : Value) : Prop :=
  ∀ x, ¬ Value.Within (.float x) v

theorem Value.floatFree_list {id : ObjectId} {items : List Value} :
    FloatFree (.list id items) ↔ ∀ w ∈ items, w.FloatFree := by
  refine ⟨fun h w hw x hx => h x (.list hw hx), fun h x hx => ?_⟩
  cases hx with
  | list hw hx => exact h _ hw x hx

theorem Value.floatFree_vec {id : ObjectId} {items : List Value} :
    FloatFree (.vec id items) ↔ ∀ w ∈ items, w.FloatFree := by
  refine ⟨fun h w hw x hx => h x (.vec hw hx), fun h x hx => ?_⟩
  cases hx with
  | vec hw hx => exact h _ hw x hx

theorem Value.floatFree_map {id : ObjectId} {entries : Table} :
    FloatFree (.map id entries) ↔ ∀ e ∈ entries, e.1.FloatFree ∧ e.2.FloatFree := by
  refine ⟨fun h e he => ⟨fun x hx => h x (.key he hx), fun x hx => h x (.value he hx)⟩,
    fun h x hx => ?_⟩
  cases hx with
  | key he hx => exact (h _ he).1 x hx
  | value he hx => exact (h _ he).2 x hx

/-! ## Texts of values -/

namespace Value

variable (atomText : Style → Nat → String)

theorem renderAll_eq_map (style : Style) (vs : List Value) :
    renderAll atomText style vs = vs.map (render atomText style) := by
  induction vs with
  | nil => rfl
  | cons v vs ih => rw [renderAll, ih, List.map_cons]

theorem renderEntries_eq_map (style : Style) (entries : List (Value × Value)) :
    renderEntries atomText style entries =
      entries.map fun e => (render atomText .readable e.1, render atomText style e.2) := by
  induction entries with
  | nil => rfl
  | cons e entries ih => rw [renderEntries, ih, List.map_cons]

/-- A word that stands for no number prints as itself. -/
theorem ofWord_cases (word : List Char) :
    (∃ n, ofWord word = .int n) ∨ (∃ x, ofWord word = .float x) ∨
      (render atomText .readable (ofWord word)).toList = word := by
  unfold ofWord
  split
  · next n _ => exact Or.inl ⟨n, rfl⟩
  · split
    · next d _ => exact Or.inr (Or.inl ⟨d.toDouble, rfl⟩)
    · refine Or.inr (Or.inr ?_)
      split <;> simp [render]

/-- The entries of a map in the order in which they print. -/
def byKeyText (entries : Table) : Table :=
  entries.mergeSort fun a b =>
    decide (a.1.render atomText .readable ≤ b.1.render atomText .readable)

theorem byKeyText_perm (entries : Table) :
    entries.Perm (byKeyText atomText entries) :=
  (List.mergeSort_perm entries _).symm

theorem sortByKey_renderEntries (style : Style) (entries : Table) :
    sortByKey (renderEntries atomText style entries) = (byKeyText atomText entries).map
      fun e => (e.1.render atomText .readable, e.2.render atomText style) := by
  rw [renderEntries_eq_map, sortByKey, byKeyText, List.map_mergeSort]
  exact fun _ _ _ _ => rfl

end Value

theorem Text.toList_bracketed (b : Bracket) (parts : List String) :
    (Text.bracketed (String.singleton b.opener) (String.singleton b.closer) parts).toList =
      b.opener :: ((" ".intercalate parts).toList ++ [b.closer]) := by
  simp [Text.bracketed]

/-- The entries of a map print like a list of keys and values in turn. -/
theorem intercalate_pairs (pairs : List (String × String)) :
    " ".intercalate (pairs.map fun e => e.1 ++ " " ++ e.2) =
      " ".intercalate (pairs.flatMap fun e => [e.1, e.2]) := by
  induction pairs with
  | nil => rfl
  | cons e pairs ih =>
    cases pairs with
    | nil => simp [String.intercalate_cons_cons]
    | cons e' pairs =>
      simp only [List.map_cons, List.flatMap_cons, List.cons_append, List.nil_append,
        String.intercalate_cons_cons] at ih ⊢
      rw [ih]
      simp only [String.append_assoc]

/-! ## Printable values -/

open Grammar

/-- The text of the value spells tokens from which it is derived, at most `n` deep. -/
def Printable (atomText : Style → Nat → String) (v : Value) (n : Nat) : Prop :=
  ∃ ts k, k ≤ n ∧ Derives ts v k ∧ Spells (v.render atomText .readable).toList ts

section

variable {atomText : Style → Nat → String}

theorem Printable.mono {v : Value} {n m : Nat} (h : Printable atomText v n) (hle : n ≤ m) :
    Printable atomText v m := by
  obtain ⟨ts, k, hk, hv, hs⟩ := h
  exact ⟨ts, k, Nat.le_trans hk hle, hv, hs⟩

theorem printable_str (s : String) : Printable atomText (.str s) 1 := by
  refine ⟨[.string (String.ofList (Text.escape s.toList))], 1, Nat.le_refl 1, ?_, ?_⟩
  · have h := Derives.string (String.ofList (Text.escape s.toList))
    rwa [String.toList_ofList, Text.unescape_escape, String.ofList_toList] at h
  · rw [Value.render, Text.quoted, String.toList_ofList]
    exact spells_quoted s.toList

theorem printable_of_isWord {v : Value} (hw : IsWord (v.render atomText .readable).toList)
    (hv : Value.ofWord (v.render atomText .readable).toList = v) : Printable atomText v 1 := by
  refine ⟨_, 1, Nat.le_refl 1, ?_, hw.spells⟩
  have h := Derives.word (v.render atomText .readable)
  rwa [hv, ← String.ofList_toList (s := v.render atomText .readable)] at h

theorem printable_ofWord {word : List Char} (hw : IsWord word)
    (hfree : (Value.ofWord word).FloatFree) : Printable atomText (.ofWord word) 1 := by
  rcases Value.ofWord_cases atomText word with ⟨n, hn⟩ | ⟨x, hx⟩ | hself
  · -- An integer may print as another word, such as `7` for `+007`, which stands for it too.
    rw [hn]
    exact printable_of_isWord (isWord_toString n.toInt) (Value.ofWord_toString n)
  · rw [hx] at hfree
    exact absurd .self (hfree x)
  · exact printable_of_isWord (hself.symm ▸ hw) (by rw [hself])

theorem printable_nil : Printable atomText .nil 1 :=
  printable_of_isWord (by simp [Value.render, IsWord]; decide) (by simp [Value.render]; rfl)

/-- The symbol that a mark stands for reads as that symbol. -/
theorem printable_mark (m : Mark) : Printable atomText (.sym m.symbol) 1 := by
  refine printable_of_isWord ?_ ?_
  · cases m <;> simp [Value.render, Mark.symbol, IsWord] <;> decide
  · cases m <;> simp [Value.render, Mark.symbol] <;> rfl

/-- Printable values in a row spell tokens from which they are derived one after another. -/
theorem spells_items {vs : List Value} {n : Nat} (h : ∀ v ∈ vs, Printable atomText v n) :
    ∃ ts k, k ≤ n ∧ DerivesAll ts vs k ∧
      Spells (" ".intercalate (vs.map (Value.render atomText .readable))).toList ts := by
  induction vs with
  | nil => exact ⟨[], 0, Nat.zero_le n, .nil, spells_nil⟩
  | cons v vs ih =>
    obtain ⟨ts, k, hk, hv, hs⟩ := h v List.mem_cons_self
    obtain ⟨us, l, hl, hvs, hss⟩ := ih fun w hw => h w (List.mem_cons_of_mem _ hw)
    refine ⟨ts ++ us, max k l, Nat.max_le.mpr ⟨hk, hl⟩, .cons hv hvs, ?_⟩
    cases vs with
    | nil =>
      -- No space follows the last value, and no token is left.
      cases hvs
      simpa using hs
    | cons w vs =>
      rw [List.map_cons, List.map_cons, String.intercalate_cons_cons, String.toList_append,
        String.toList_append, List.append_assoc]
      exact hs.space hss

/-- Between brackets printable values print as what the brackets make of them. -/
theorem printable_bracketed {b : Bracket} {vs : List Value} {v : Value} {n : Nat}
    (h : ∀ w ∈ vs, Printable atomText w n) (henc : Encloses b vs v)
    (ht : v.render atomText .readable = Text.bracketed (String.singleton b.opener)
      (String.singleton b.closer) (vs.map (Value.render atomText .readable))) :
    Printable atomText v (n + 1) := by
  obtain ⟨ts, k, hk, hvs, hs⟩ := spells_items h
  refine ⟨_, k + 1, Nat.succ_le_succ hk, .bracket hvs henc, ?_⟩
  rw [ht, Text.toList_bracketed]
  exact hs.bracketed b

theorem printable_list {vs : List Value} {n : Nat} (h : ∀ v ∈ vs, Printable atomText v n) :
    Printable atomText (.list none vs) (n + 1) := by
  refine printable_bracketed h (.list vs) ?_
  rw [Value.render, Value.renderAll_eq_map]
  rfl

theorem printable_vec {vs : List Value} {n : Nat} (h : ∀ v ∈ vs, Printable atomText v n) :
    Printable atomText (.vec none vs) (n + 1) := by
  refine printable_bracketed h (.vector vs) ?_
  rw [Value.render, Value.renderAll_eq_map]
  rfl

/-- A map prints its entries sorted by the texts of their keys, and these denote the same table. -/
theorem printable_map {entries : Table} {n : Nat} (hcan : Table.Canonical entries)
    (h : ∀ e ∈ entries, Printable atomText e.1 n ∧ Printable atomText e.2 n) :
    Printable atomText (.map none entries) (n + 1) := by
  have hperm := Value.byKeyText_perm atomText entries
  have hitems : ∀ v ∈ Table.flat (Value.byKeyText atomText entries), Printable atomText v n := by
    intro v hv
    obtain ⟨e, he, hv⟩ := Table.mem_flat.mp hv
    obtain ⟨hkey, hvalue⟩ := h e (hperm.mem_iff.mpr he)
    rcases hv with rfl | rfl
    · exact hkey
    · exact hvalue
  refine printable_bracketed hitems (.map (hcan.denotes_perm hperm)) ?_
  rw [Value.render, Value.sortByKey_renderEntries, Text.bracketed, intercalate_pairs,
    Text.bracketed, Table.flat, List.map_flatMap, List.flatMap_map]
  rfl

mutual

/-- A value that is derived is printable within the depth of its derivation. -/
theorem printable_of_derives {ts : List Token} {v : Value} {n : Nat} :
    Derives ts v n → (∀ text, .word text ∈ ts → IsWord text.toList) → v.FloatFree →
      Printable atomText v n
  | .string body, _, _ => printable_str _
  | .word text, hwords, hfree => printable_ofWord (hwords text List.mem_cons_self) hfree
  | .bracket hall henc, hwords, hfree => by
    have hitems := printable_of_derivesAll hall fun text ht => hwords text (by simp [ht])
    cases henc with
    | list vs => exact printable_list fun w hw => hitems w hw (Value.floatFree_list.mp hfree w hw)
    | vector vs => exact printable_vec fun w hw => hitems w hw (Value.floatFree_vec.mp hfree w hw)
    | @map pairs entries hden =>
      -- Values that a later equal key has replaced are not printed, and may hold floats.
      refine printable_map hden.canonical fun e he => ?_
      obtain ⟨hkey, hvalue⟩ := Value.floatFree_map.mp hfree e he
      exact ⟨hitems e.1 (Table.mem_flat.mpr ⟨e, hden.mem he, Or.inl rfl⟩) hkey,
        hitems e.2 (Table.mem_flat.mpr ⟨e, hden.mem he, Or.inr rfl⟩) hvalue⟩
  | @Derives.mark ts v n m hform, hwords, hfree => by
    have hv : Printable atomText v n :=
      printable_of_derives hform (fun text ht => hwords text (List.mem_cons_of_mem _ ht))
        (Value.floatFree_list.mp hfree v (by simp))
    refine printable_list fun w hw => ?_
    rcases List.mem_cons.mp hw with rfl | hw
    · exact (printable_mark m).mono hform.depth_pos
    · rw [List.mem_singleton.mp hw]
      exact hv

theorem printable_of_derivesAll {ts : List Token} {vs : List Value} {n : Nat} :
    DerivesAll ts vs n → (∀ text, .word text ∈ ts → IsWord text.toList) →
      ∀ v ∈ vs, v.FloatFree → Printable atomText v n
  | .nil, _, v, hm, _ => absurd hm List.not_mem_nil
  | .cons hform hall, hwords, v, hm, hfree => by
    rcases List.mem_cons.mp hm with heq | hm
    · rw [heq] at hfree ⊢
      exact (printable_of_derives hform (fun text ht => hwords text (List.mem_append_left _ ht))
        hfree).mono (Nat.le_max_left _ _)
    · exact (printable_of_derivesAll hall
        (fun text ht => hwords text (List.mem_append_right _ ht)) v hm hfree).mono
          (Nat.le_max_right _ _)

end

end

/-! ## Equality with itself -/

theorem Value.beq_self_of_derives {ts : List Token} {v : Value} {n : Nat} (h : Derives ts v n) :
    v.beq v = true := by
  cases h with
  | string body => simp [beq]
  | word text =>
    unfold ofWord
    split
    · simp [beq]
    · split
      · simp [beq]
      · split <;> simp [beq]
  | bracket _ henc =>
    cases henc with
    | list vs => simp [beq, sameItems, sameAll_self, withPtrEq]
    | vector vs => simp [beq, sameItems, sameAll_self, withPtrEq]
    | map _ => simp [beq, sameTable, sameEntries_self, withPtrEq]
  | mark m _ => simp [beq, sameItems, sameAll_self, withPtrEq]

theorem Value.beqAll_self_of_beq {vs : List Value} (h : ∀ v ∈ vs, v.beq v = true) :
    beqAll vs vs = true := by
  induction vs with
  | nil => rw [beqAll]
  | cons v vs ih =>
    rw [beqAll, h v List.mem_cons_self, ih fun w hw => h w (List.mem_cons_of_mem _ hw)]
    rfl

/-! ## The round trip -/

theorem Value.read_text {cells : Array Value} {v : Value}
    (h : Printable (Value.atomText cells cells.size []) v Reader.maxNesting) :
    read (v.text cells .readable) = .ok v := by
  obtain ⟨ts, k, hk, hv, hs⟩ := h
  have htokens := hs.tokenize_eq
  rw [String.ofList_toList] at htokens
  refine read_eq_ok_iff.mpr (Or.inr ⟨k, ?_, hk⟩)
  rw [Value.text, htokens]
  exact hv

theorem Value.readAll_joinedText {cells : Array Value} {vs : List Value}
    (h : ∀ v ∈ vs, Printable (Value.atomText cells cells.size []) v Reader.maxNesting) :
    readAll (Value.joinedText cells .readable " " vs) = .ok vs := by
  obtain ⟨ts, k, hk, hvs, hs⟩ := spells_items h
  have htokens := hs.tokenize_eq
  rw [String.ofList_toList] at htokens
  obtain ⟨pieces, hpieces, hts, hvalues⟩ := hvs.pieces
  refine Reader.forms_eq_ok_iff.mpr ⟨pieces, fun p hp => ?_, ?_, hvalues⟩
  · obtain ⟨hp, hdepth⟩ := hpieces p hp
    exact ⟨hp, Nat.le_trans hdepth hk⟩
  · rw [← hts]
    exact htokens

/-- Readable texts read back: what is read from any text, if there are no floats in it, prints as
a text of the same form, and several forms print as a text of the same forms. -/
theorem read_readable_text (cells : Array Value) :
    (∀ (source : String) (v : Value), read source = .ok v → v.FloatFree →
      read (v.text cells .readable) = .ok v ∧ v.beq v = true) ∧
    ∀ (source : String) (forms : List Value), readAll source = .ok forms →
      (∀ v ∈ forms, v.FloatFree) →
      readAll (Value.joinedText cells .readable " " forms) = .ok forms ∧
        Value.beqAll forms forms = true := by
  constructor
  · intro source v h hfree
    rcases read_eq_ok_iff.mp h with ⟨-, rfl⟩ | ⟨n, hv, hn⟩
    · -- A blank text reads as `nil`, whose text is not blank.
      exact ⟨Value.read_text (printable_nil.mono (by decide)), by rw [Value.beq]⟩
    · refine ⟨Value.read_text ?_, Value.beq_self_of_derives hv⟩
      exact (printable_of_derives hv (fun text ht => tokenize_proper ht) hfree).mono hn
  · intro source forms h hfree
    obtain ⟨pieces, hpieces, htokens, rfl⟩ := Reader.forms_eq_ok_iff.mp h
    refine ⟨Value.readAll_joinedText fun v hv => ?_, Value.beqAll_self_of_beq fun v hv => ?_⟩
    · obtain ⟨p, hp, rfl⟩ := List.mem_map.mp hv
      obtain ⟨hderived, hdepth⟩ := hpieces p hp
      refine (printable_of_derives hderived (fun text ht => ?_) (hfree _ hv)).mono hdepth
      exact tokenize_proper (htokens ▸ List.mem_flatMap.mpr ⟨p, hp, ht⟩)
    · obtain ⟨p, hp, rfl⟩ := List.mem_map.mp hv
      exact Value.beq_self_of_derives (hpieces p hp).1

/-- Escapes, the least integer and the empty keyword survive. -/
theorem read_readable_text_escapes :
    ∃ source v, read source = .ok v ∧ readAll source = .ok [v] ∧
      v = .list none [.sym "quote",
        .list none [.str "\\\x22\n", .int (-9223372036854775808), .kw ""]] ∧
      read (v.text #[.str "x"] .readable) = .ok v ∧
      readAll (Value.joinedText #[.str "x"] .readable " " [v]) = .ok [v] := by
  have hread : read "'(\x22\\\\\\\x22\\n\x22 -9223372036854775808 :)" = .ok (.list none
      [.sym "quote", .list none [.str "\\\x22\n", .int (-9223372036854775808), .kw ""]]) := by
    rfl
  have hreadAll : readAll "'(\x22\\\\\\\x22\\n\x22 -9223372036854775808 :)" = .ok [.list none
      [.sym "quote", .list none [.str "\\\x22\n", .int (-9223372036854775808), .kw ""]]] := by
    rfl
  have hfree : Value.FloatFree (.list none [.sym "quote",
      .list none [.str "\\\x22\n", .int (-9223372036854775808), .kw ""]]) := by
    simp only [Value.floatFree_list, List.forall_mem_cons]
    exact ⟨nofun, ⟨nofun, nofun, nofun, nofun⟩, nofun⟩
  obtain ⟨hone, hmany⟩ := read_readable_text #[.str "x"]
  exact ⟨_, _, hread, hreadAll, rfl, (hone _ _ hread hfree).1,
    (hmany _ _ hreadAll fun v hv => List.mem_singleton.mp hv ▸ hfree).1⟩

end Lisp
