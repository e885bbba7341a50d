import Lisp.Proofs.Grammar

/-!
# The reader accepts the grammar

The reader is a machine with a stack of open forms. `Reads base [] used v` says that from the stack
`base` it takes the tokens `used`, keeps some form open above `base` all the while, and hands `v` to
`base` with the last of them: it has read one form there. Soundness follows what is open above
`base` (`Opened`), completeness follows the derivation, and together they say that a form is read
just where the grammar derives one that fits below the nesting limit (`reads_iff`).
-/

namespace Lisp

def OpenForm.isMark : OpenForm → Bool
  | .mark _ => true
  | .bracket _ _ _ => false

namespace Reader

open Grammar

/-! ## One token -/

theorem close_eq_ok_iff {p : Position} {items : List Value} {b : Bracket} {v : Value} :
    close p items b = .ok v ↔ Encloses b items v := by
  constructor
  · intro h
    cases b with
    | round =>
      cases h
      exact .list items
    | square =>
      cases h
      exact .vector items
    | curly =>
      simp only [close] at h
      split at h
      · next entries hpairs =>
        cases h
        obtain ⟨pairs, rfl, hden⟩ := Table.insertPairs_eq_ok_iff.mp hpairs
        exact .map hden
      · cases h
      · cases h
  · intro h
    cases h with
    | list => rfl
    | vector => rfl
    | map hden => rw [close, Table.insertPairs_eq_ok_iff.mpr ⟨_, rfl, hden⟩]

theorem start_eq_ok {stack : List OpenForm} {lexeme : Lexeme} {progress : Progress}
    (h : start stack lexeme = .ok progress) :
    stack.length < maxNesting ∧
    ((∃ b, lexeme.token = .opening b ∧
        progress = .partly (.bracket b lexeme.position [] :: stack)) ∨
      (∃ m, lexeme.token = .mark m ∧ progress = .partly (.mark m :: stack)) ∨
      ∃ v, Derives [lexeme.token] v 1 ∧ progress = deliver v stack) := by
  unfold start at h
  split at h
  · cases h
  · next hroom =>
    refine ⟨Nat.lt_of_not_le hroom, ?_⟩
    split at h
    · next b ht =>
      cases h
      exact Or.inl ⟨b, ht, rfl⟩
    · next m ht =>
      cases h
      exact Or.inr (Or.inl ⟨m, ht, rfl⟩)
    · next body ht =>
      cases h
      exact Or.inr (Or.inr ⟨_, ht ▸ Derives.string body, rfl⟩)
    · next text ht =>
      cases h
      exact Or.inr (Or.inr ⟨_, ht ▸ Derives.word text, rfl⟩)
    · cases h
    · cases h
    · cases h

/-- What a token that is taken can do: end the innermost bracket, or begin a form that goes on or
is whole at once. -/
theorem feed_eq_ok {stack : List OpenForm} {lexeme : Lexeme} {progress : Progress}
    (h : feed stack lexeme = .ok progress) :
    (∃ b p items outer v, stack = .bracket b p items :: outer ∧ lexeme.token = .closing b ∧
      Encloses b items.reverse v ∧ progress = deliver v outer) ∨
    stack.length < maxNesting ∧
    ((∃ b, lexeme.token = .opening b ∧
        progress = .partly (.bracket b lexeme.position [] :: stack)) ∨
      (∃ m, lexeme.token = .mark m ∧ progress = .partly (.mark m :: stack)) ∨
      ∃ v, Derives [lexeme.token] v 1 ∧ progress = deliver v stack) := by
  unfold feed at h
  split at h
  · next b p items outer c ht =>
    split at h
    · next hbc =>
      subst hbc
      cases hclose : close p items.reverse b with
      | error e =>
        rw [hclose] at h
        cases h
      | ok v =>
        rw [hclose] at h
        cases h
        exact Or.inl ⟨b, p, items, outer, v, rfl, ht, close_eq_ok_iff.mp hclose, rfl⟩
    · exact Or.inr (start_eq_ok h)
  · exact Or.inr (start_eq_ok h)

/-- What a token can be refused for, and the place that is named then. -/
inductive Refused (lexeme : Lexeme) : ReadFault → Position → Prop
  | nesting : Refused lexeme .nestingTooDeep lexeme.position
  | closing {b : Bracket} : lexeme.token = .closing b →
      Refused lexeme .closingDelimiter lexeme.position
  | caret : lexeme.token = .caret → Refused lexeme .metadata lexeme.position
  | string : lexeme.token = .unterminatedString →
      Refused lexeme .unterminatedString lexeme.position
  | unpaired {p : Position} : lexeme.token = .closing .curly → Refused lexeme .unpairedMap p
  | key {kind : Kind} {p : Position} : lexeme.token = .closing .curly →
      Refused lexeme (.badKey kind) p

theorem refused_of_start {stack : List OpenForm} {lexeme : Lexeme} {e : Error}
    (h : start stack lexeme = .error e) :
    ∃ fault p, e = .reader fault p ∧ Refused lexeme fault p := by
  unfold start at h
  split at h
  · cases h
    exact ⟨_, _, rfl, .nesting⟩
  · split at h <;> cases h
    · next ht => exact ⟨_, _, rfl, .closing ht⟩
    · next ht => exact ⟨_, _, rfl, .caret ht⟩
    · next ht => exact ⟨_, _, rfl, .string ht⟩

/-- Only a map can be refused at its closing bracket. -/
theorem refused_of_close {b : Bracket} {p : Position} {items : List Value} {lexeme : Lexeme}
    {e : Error} (ht : lexeme.token = .closing b) (h : close p items b = .error e) :
    ∃ fault p, e = .reader fault p ∧ Refused lexeme fault p := by
  cases b with
  | round => cases h
  | square => cases h
  | curly =>
    simp only [close] at h
    split at h <;> cases h
    · exact ⟨_, _, rfl, .unpaired ht⟩
    · exact ⟨_, _, rfl, .key ht⟩

theorem refused_of_feed {stack : List OpenForm} {lexeme : Lexeme} {e : Error}
    (h : feed stack lexeme = .error e) :
    ∃ fault p, e = .reader fault p ∧ Refused lexeme fault p := by
  unfold feed at h
  split at h
  · next b p items outer c ht =>
    split at h
    · next hbc =>
      subst hbc
      cases hclose : close p items.reverse b with
      | ok v =>
        rw [hclose] at h
        cases h
      | error e' =>
        rw [hclose] at h
        cases h
        exact refused_of_close ht hclose
    · exact refused_of_start h
  · exact refused_of_start h

theorem feed_closing {b : Bracket} {p : Position} {items : List Value} {outer : List OpenForm}
    {lexeme : Lexeme} {v : Value} (ht : lexeme.token = .closing b)
    (henc : Encloses b items.reverse v) :
    feed (.bracket b p items :: outer) lexeme = .ok (deliver v outer) := by
  simp only [feed, ht, ↓reduceIte]
  rw [close_eq_ok_iff.mpr henc]
  rfl

/-- A token that is no closing bracket begins a form. -/
theorem feed_eq_start {stack : List OpenForm} {lexeme : Lexeme}
    (ht : ∀ b, lexeme.token ≠ .closing b) : feed stack lexeme = start stack lexeme := by
  unfold feed
  split
  · next h => exact absurd h (ht _)
  · rfl

theorem feed_opening {stack : List OpenForm} {lexeme : Lexeme} {b : Bracket}
    (hroom : stack.length < maxNesting) (ht : lexeme.token = .opening b) :
    feed stack lexeme = .ok (.partly (.bracket b lexeme.position [] :: stack)) := by
  rw [feed_eq_start (by simp [ht]), start, if_neg (Nat.not_le.mpr hroom), ht]

theorem feed_mark {stack : List OpenForm} {lexeme : Lexeme} {m : Mark}
    (hroom : stack.length < maxNesting) (ht : lexeme.token = .mark m) :
    feed stack lexeme = .ok (.partly (.mark m :: stack)) := by
  rw [feed_eq_start (by simp [ht]), start, if_neg (Nat.not_le.mpr hroom), ht]

theorem feed_string {stack : List OpenForm} {lexeme : Lexeme} {body : String}
    (hroom : stack.length < maxNesting) (ht : lexeme.token = .string body) :
    feed stack lexeme =
      .ok (deliver (.str (String.ofList (Text.unescape body.toList))) stack) := by
  rw [feed_eq_start (by simp [ht]), start, if_neg (Nat.not_le.mpr hroom), ht]

theorem feed_word {stack : List OpenForm} {lexeme : Lexeme} {text : String}
    (hroom : stack.length < maxNesting) (ht : lexeme.token = .word text) :
    feed stack lexeme = .ok (deliver (.ofWord text.toList) stack) := by
  rw [feed_eq_start (by simp [ht]), start, if_neg (Nat.not_le.mpr hroom), ht]

/-! ## Handing over a value -/

/-- How many forms are open. -/
def Progress.height : Progress → Nat
  | .whole _ => 0
  | .partly stack => stack.length

/-- With a form the marks right before it end; all that was open around them stays open. -/
theorem deliver_height (v : Value) (stack : List OpenForm) :
    (deliver v stack).height = (stack.dropWhile OpenForm.isMark).length := by
  induction stack generalizing v with
  | nil => rfl
  | cons form stack ih =>
    cases form with
    | mark m => exact ih _
    | bracket b p items => rfl

theorem deliver_height_le (v : Value) (stack : List OpenForm) :
    (deliver v stack).height ≤ stack.length := by
  rw [deliver_height]
  exact (List.dropWhile_sublist _).length_le

/-- A value that is handed over opens no form. -/
theorem ne_deliver_of_length_lt {progress : Progress} {stack : List OpenForm}
    (h : stack.length < progress.height) (v : Value) : progress ≠ deliver v stack := by
  rintro rfl
  exact Nat.not_lt.mpr (deliver_height_le v stack) h

theorem deliver_injective {v w : Value} {stack : List OpenForm}
    (h : deliver v stack = deliver w stack) : v = w := by
  induction stack generalizing v w with
  | nil =>
    cases h
    rfl
  | cons form stack ih =>
    cases form with
    | mark m =>
      have hlist := ih h
      simp only [Value.list.injEq, List.cons.injEq] at hlist
      exact hlist.2.2.1
    | bracket b p items =>
      simp only [deliver, Progress.partly.injEq, List.cons.injEq, OpenForm.bracket.injEq] at h
      exact h.1.2.2.1

theorem deliver_ne_partly_nil (v : Value) (stack : List OpenForm) :
    deliver v stack ≠ .partly [] := by
  induction stack generalizing v with
  | nil => simp [deliver]
  | cons form stack ih =>
    cases form with
    | mark m => exact ih _
    | bracket b p items => simp [deliver]

theorem feed_ne_partly_nil {stack : List OpenForm} {lexeme : Lexeme} :
    feed stack lexeme ≠ .ok (.partly []) := by
  intro h
  rcases feed_eq_ok h with ⟨_, _, _, outer, v, -, -, -, hp⟩ |
    ⟨-, ⟨b, -, hp⟩ | ⟨m, -, hp⟩ | ⟨v, -, hp⟩⟩
  · exact deliver_ne_partly_nil v outer hp.symm
  · simp at hp
  · simp at hp
  · exact deliver_ne_partly_nil v stack hp.symm

/-! ## Reading one form -/

/-- From the stack `above ++ base` the tokens end the forms above `base` and hand `v` to `base`,
not before the last token. With nothing above `base` the tokens are read as one form there. -/
inductive Reads (base : List OpenForm) : List OpenForm → List Lexeme → Value → Prop
  | last {above : List OpenForm} {lexeme : Lexeme} {v : Value} :
      feed (above ++ base) lexeme = .ok (deliver v base) → Reads base above [lexeme] v
  | more {above above' : List OpenForm} {lexeme : Lexeme} {rest : List Lexeme} {v : Value} :
      feed (above ++ base) lexeme = .ok (.partly (above' ++ base)) → above' ≠ [] →
      Reads base above' rest v → Reads base above (lexeme :: rest) v

theorem Reads.used_ne_nil {base above : List OpenForm} {used : List Lexeme} {v : Value}
    (h : Reads base above used v) : used ≠ [] := by
  cases h <;> simp

/-- What an innermost bracket is handed is an element of the bracketed form. -/
theorem Reads.in_bracket {base above : List OpenForm} {b : Bracket} {p : Position}
    {items : List Value} {used rest : List Lexeme} {v w : Value}
    (h : Reads (.bracket b p items :: base) above used v)
    (hrest : Reads base [.bracket b p (v :: items)] rest w) :
    Reads base (above ++ [.bracket b p items]) (used ++ rest) w := by
  induction h with
  | last hfeed =>
    refine .more ?_ (List.cons_ne_nil _ _) hrest
    simpa [deliver] using hfeed
  | @more above above' lexeme tail v hfeed hne _ ih =>
    have hne' : above' ++ [.bracket b p items] ≠ [] := by simp
    refine .more ?_ hne' (ih hrest)
    simpa using hfeed

/-- What a mark is handed makes the marked form whole. -/
theorem Reads.in_mark {base above : List OpenForm} {m : Mark} {used : List Lexeme} {v : Value}
    (h : Reads (.mark m :: base) above used v) :
    Reads base (above ++ [.mark m]) used (.list none [.sym m.symbol, v]) := by
  induction h with
  | last hfeed =>
    refine .last ?_
    simpa [deliver] using hfeed
  | @more above above' lexeme tail v hfeed hne _ ih =>
    have hne' : above' ++ [.mark m] ≠ [] := by simp
    refine .more ?_ hne' ih
    simpa using hfeed

/-! ## Soundness -/

/-- The tokens since a stack of `depth` forms have opened the forms above it. An open bracket has
the place of its token. -/
inductive Opened (depth : Nat) : List OpenForm → List Lexeme → Prop
  | nil : Opened depth [] []
  | mark {above : List OpenForm} {ls : List Lexeme} {lexeme : Lexeme} {m : Mark} :
      Opened depth above ls → lexeme.token = .mark m →
      Opened depth (.mark m :: above) (ls ++ [lexeme])
  | bracket {above : List OpenForm} {ls us : List Lexeme} {lexeme : Lexeme} {b : Bracket}
      {items : List Value} {n : Nat} : Opened depth above ls → lexeme.token = .opening b →
      DerivesAll (us.map Lexeme.token) items.reverse n →
      depth + above.length + (n + 1) ≤ maxNesting →
      Opened depth (.bracket b lexeme.position items :: above) (ls ++ lexeme :: us)

/-- Once a form is whole, its value has become that of a form on `base`, or an element of one that
is still open above it. -/
theorem Opened.deliver {base above : List OpenForm} {ls us : List Lexeme} {v : Value} {n : Nat}
    (h : Opened base.length above ls) (hv : Derives (us.map Lexeme.token) v n)
    (hfits : base.length + above.length + n ≤ maxNesting) :
    (∃ w k, Derives ((ls ++ us).map Lexeme.token) w k ∧ base.length + k ≤ maxNesting ∧
      Reader.deliver v (above ++ base) = Reader.deliver w base) ∨
    ∃ above', above' ≠ [] ∧ Opened base.length above' (ls ++ us) ∧
      Reader.deliver v (above ++ base) = .partly (above' ++ base) := by
  induction h generalizing us v n with
  | nil => exact Or.inl ⟨v, n, hv, hfits, rfl⟩
  | @mark above ls lexeme m _ ht ih =>
    rw [List.append_assoc, List.singleton_append]
    have hmarked : Derives ((lexeme :: us).map Lexeme.token) (.list none [.sym m.symbol, v])
        (n + 1) := by
      rw [List.map_cons, ht]
      exact hv.mark m
    refine ih hmarked ?_
    simp only [List.length_cons] at hfits
    omega
  | @bracket above ls us' lexeme b items k hopen ht hall hroom =>
    refine Or.inr ⟨.bracket b lexeme.position (v :: items) :: above, List.cons_ne_nil _ _, ?_, rfl⟩
    rw [List.append_assoc, List.cons_append]
    have hall' : DerivesAll ((us' ++ us).map Lexeme.token) (v :: items).reverse (max k n) := by
      rw [List.map_append, List.reverse_cons]
      exact hall.snoc hv
    refine .bracket hopen ht hall' ?_
    simp only [List.length_cons] at hfits
    omega

/-- One token further, either the form around has ended, or a form is read on `base`, or it is
still open. -/
theorem Opened.feed {base above : List OpenForm} {ls : List Lexeme} {lexeme : Lexeme}
    {progress : Progress} (h : Opened base.length above ls)
    (hfeed : Reader.feed (above ++ base) lexeme = .ok progress) :
    (∃ b p items outer v, base = .bracket b p items :: outer ∧
      progress = Reader.deliver v outer) ∨
    (∃ w k, Derives ((ls ++ [lexeme]).map Lexeme.token) w k ∧ base.length + k ≤ maxNesting ∧
      progress = Reader.deliver w base) ∨
    ∃ above', above' ≠ [] ∧ Opened base.length above' (ls ++ [lexeme]) ∧
      progress = .partly (above' ++ base) := by
  rcases feed_eq_ok hfeed with ⟨b, p, items, outer, v, hstack, ht, henc, rfl⟩ | ⟨hroom, hstart⟩
  · cases h with
    | nil => exact Or.inl ⟨b, p, items, outer, v, hstack, rfl⟩
    | mark _ _ => simp at hstack
    | @bracket above ls us opener b' items' n hopen hopener hall hfits =>
      simp only [List.cons_append, List.cons.injEq, OpenForm.bracket.injEq] at hstack
      obtain ⟨⟨rfl, rfl, rfl⟩, rfl⟩ := hstack
      rw [List.append_assoc, List.cons_append]
      have hform : Derives ((opener :: (us ++ [lexeme])).map Lexeme.token) v (n + 1) := by
        rw [List.map_cons, List.map_append, List.map_singleton, hopener, ht]
        exact .bracket hall henc
      exact Or.inr (hopen.deliver hform (by omega))
  · rw [List.length_append] at hroom
    rcases hstart with ⟨b, ht, rfl⟩ | ⟨m, ht, rfl⟩ | ⟨v, hv, rfl⟩
    · refine Or.inr (Or.inr ⟨.bracket b lexeme.position [] :: above, List.cons_ne_nil _ _, ?_, rfl⟩)
      exact .bracket h ht .nil (by omega)
    · exact Or.inr (Or.inr ⟨.mark m :: above, List.cons_ne_nil _ _, .mark h ht, rfl⟩)
    · exact Or.inr (h.deliver hv (by omega))

theorem Reads.derives {base above : List OpenForm} {ls used : List Lexeme} {v : Value}
    (h : Reads base above used v) (hopen : Opened base.length above ls) :
    ∃ n, Derives ((ls ++ used).map Lexeme.token) v n ∧ base.length + n ≤ maxNesting := by
  -- Where the machine stands after a token is told by how many forms are open then.
  induction h generalizing ls with
  | @last above lexeme v hfeed =>
    rcases hopen.feed hfeed with ⟨b, p, items, outer, w, rfl, hp⟩ | ⟨w, k, hw, hk, hp⟩ |
      ⟨above', hne, -, hp⟩
    · refine absurd hp (ne_deliver_of_length_lt ?_ w)
      simp [deliver, Progress.height]
    · rw [deliver_injective hp]
      exact ⟨k, hw, hk⟩
    · refine absurd hp.symm (ne_deliver_of_length_lt ?_ v)
      have hpos := List.length_pos_iff.mpr hne
      simp only [Progress.height, List.length_append]
      omega
  | @more above above' lexeme rest v hfeed hne _ ih =>
    have hpos := List.length_pos_iff.mpr hne
    rcases hopen.feed hfeed with ⟨b, p, items, outer, w, rfl, hp⟩ | ⟨w, k, -, -, hp⟩ |
      ⟨above'', -, hopen', hp⟩
    · refine absurd hp (ne_deliver_of_length_lt ?_ w)
      simp only [Progress.height, List.length_append, List.length_cons]
      omega
    · refine absurd hp (ne_deliver_of_length_lt ?_ w)
      simp only [Progress.height, List.length_append]
      omega
    · simp only [Progress.partly.injEq] at hp
      rw [List.append_cancel_right hp] at ih
      rw [List.append_cons]
      exact ih hopen'

/-! ## Completeness -/

mutual

theorem reads_of_derives {ts : List Token} {v : Value} {n : Nat} :
    Derives ts v n → ∀ {used : List Lexeme} {base : List OpenForm},
      used.map Lexeme.token = ts → base.length + n ≤ maxNesting → Reads base [] used v
  | .string body, used, base, ht, hfits => by
    obtain ⟨lexeme, rfl, htoken⟩ := List.map_eq_singleton_iff.mp ht
    exact .last (feed_string hfits htoken)
  | .word text, used, base, ht, hfits => by
    obtain ⟨lexeme, rfl, htoken⟩ := List.map_eq_singleton_iff.mp ht
    exact .last (feed_word hfits htoken)
  | @Derives.bracket b ts vs v n hall henc, used, base, ht, hfits => by
    obtain ⟨opener, used, rfl, hopener, ht⟩ := List.map_eq_cons_iff.mp ht
    obtain ⟨inner, closers, rfl, hinner, hclosers⟩ := List.map_eq_append_iff.mp ht
    obtain ⟨closer, rfl, hcloser⟩ := List.map_eq_singleton_iff.mp hclosers
    have hroom : base.length < maxNesting := by omega
    have hfeed : feed ([] ++ base) opener =
        .ok (.partly ([.bracket b opener.position []] ++ base)) :=
      feed_opening hroom hopener
    refine .more hfeed (List.cons_ne_nil _ _) ?_
    -- The elements are read in the open bracket, which their closing bracket then ends.
    refine reads_all_of_derivesAll hall hinner (by omega) (.last ?_)
    exact feed_closing hcloser (by simpa using henc)
  | .mark m hform, used, base, ht, hfits => by
    obtain ⟨lexeme, used, rfl, htoken, ht⟩ := List.map_eq_cons_iff.mp ht
    have hroom : base.length < maxNesting := by omega
    have hfeed : feed ([] ++ base) lexeme = .ok (.partly ([.mark m] ++ base)) :=
      feed_mark hroom htoken
    refine .more hfeed (List.cons_ne_nil _ _) ?_
    exact (reads_of_derives hform ht (by simp only [List.length_cons]; omega)).in_mark

theorem reads_all_of_derivesAll {ts : List Token} {vs : List Value} {n : Nat} :
    DerivesAll ts vs n → ∀ {used rest : List Lexeme} {base : List OpenForm} {b : Bracket}
      {p : Position} {items : List Value} {w : Value}, used.map Lexeme.token = ts →
      base.length + (n + 1) ≤ maxNesting →
      Reads base [.bracket b p (vs.reverse ++ items)] rest w →
      Reads base [.bracket b p items] (used ++ rest) w
  | .nil, used, rest, base, b, p, items, w, ht, hfits, hrest => by
    rw [List.map_eq_nil_iff.mp ht]
    exact hrest
  | .cons hform hall, used, rest, base, b, p, items, w, ht, hfits, hrest => by
    obtain ⟨first, others, rfl, hfirst, hothers⟩ := List.map_eq_append_iff.mp ht
    rw [List.append_assoc]
    refine Reads.in_bracket (reads_of_derives hform hfirst ?_)
      (reads_all_of_derivesAll hall hothers ?_ ?_)
    · simp only [List.length_cons]
      omega
    · omega
    · simpa using hrest

end

/-- A form is read where the grammar derives one that fits below the nesting limit. -/
theorem reads_iff {base : List OpenForm} {used : List Lexeme} {v : Value} :
    Reads base [] used v ↔
      ∃ n, Derives (used.map Lexeme.token) v n ∧ base.length + n ≤ maxNesting := by
  constructor
  · intro h
    simpa using h.derives .nil
  · rintro ⟨n, hv, hfits⟩
    exact reads_of_derives hv rfl hfits

/-! ## Whole texts -/

/-- Goes on with the tokens that are left. -/
def resume (last : Position) (rest : List Lexeme) : Progress → Except Error (List Value)
  | .whole v => (forms [] last rest).map (v :: ·)
  | .partly stack => forms stack last rest

theorem forms_cons {stack : List OpenForm} {lexeme : Lexeme} {progress : Progress}
    (h : feed stack lexeme = .ok progress) (last : Position) (rest : List Lexeme) :
    forms stack last (lexeme :: rest) = resume lexeme.position rest progress := by
  rw [forms, h]
  cases progress <;> rfl

/-- Once a form is read on `base`, the reader goes on with the forms of `base` open as before. -/
theorem Reads.forms_append {base above : List OpenForm} {used : List Lexeme} {v : Value}
    (h : Reads base above used v) (last : Position) (rest : List Lexeme) :
    ∃ last', forms (above ++ base) last (used ++ rest) = resume last' rest (deliver v base) := by
  induction h generalizing last with
  | @last above lexeme v hfeed => exact ⟨lexeme.position, forms_cons hfeed last rest⟩
  | @more above above' lexeme tail v hfeed _ _ ih =>
    rw [List.cons_append, forms_cons hfeed]
    exact ih lexeme.position

theorem exists_reads_of_forms {above : List OpenForm} {last : Position} {ls : List Lexeme}
    {vs : List Value} (h : forms above last ls = .ok vs) (hne : above ≠ [] ∨ ls ≠ []) :
    ∃ used rest last' v vs', ls = used ++ rest ∧ vs = v :: vs' ∧ Reads [] above used v ∧
      forms [] last' rest = .ok vs' := by
  induction ls generalizing above last with
  | nil =>
    cases above with
    | nil => simp at hne
    | cons innermost above => simp [forms] at h
  | cons lexeme rest ih =>
    cases hfeed : feed above lexeme with
    | error e => simp [forms, hfeed] at h
    | ok progress =>
      rw [forms_cons hfeed] at h
      rw [← List.append_nil above] at hfeed
      cases progress with
      | whole v =>
        cases hrest : forms [] lexeme.position rest with
        | error e => simp [resume, hrest, Except.map] at h
        | ok vs' =>
          simp only [resume, hrest, Except.map, Except.ok.injEq] at h
          exact ⟨[lexeme], rest, lexeme.position, v, vs', rfl, h.symm, .last hfeed, hrest⟩
      | partly stack =>
        have hstack : stack ≠ [] := by
          rintro rfl
          exact feed_ne_partly_nil hfeed
        obtain ⟨used, rest', last', v, vs', rfl, rfl, hreads, hforms⟩ := ih h (Or.inl hstack)
        refine ⟨lexeme :: used, rest', last', v, vs', rfl, rfl, ?_, hforms⟩
        exact .more (by simpa using hfeed) hstack hreads

/-- The forms of a token list are those of the pieces into which the grammar cuts it. -/
theorem forms_eq_ok_iff {last : Position} {ls : List Lexeme} {vs : List Value} :
    forms [] last ls = .ok vs ↔
      ∃ pieces : List Piece, (∀ p ∈ pieces, p.Derived ∧ p.depth ≤ maxNesting) ∧
        ls.map Lexeme.token = pieces.flatMap Piece.tokens ∧ vs = pieces.map Piece.value := by
  constructor
  · intro h
    induction vs generalizing last ls with
    | nil =>
      by_cases hne : ls = []
      · exact ⟨[], by simp [hne]⟩
      · obtain ⟨_, _, _, _, _, -, hvs, -⟩ := exists_reads_of_forms h (Or.inr hne)
        cases hvs
    | cons v vs ih =>
      have hne : ls ≠ [] := by
        rintro rfl
        simp [forms] at h
      obtain ⟨used, rest, last', w, ws, rfl, hvs, hreads, hforms⟩ :=
        exists_reads_of_forms h (Or.inr hne)
      cases hvs
      obtain ⟨n, hn, hfits⟩ := reads_iff.mp hreads
      obtain ⟨pieces, hp, ht, rfl⟩ := ih hforms
      refine ⟨⟨used.map Lexeme.token, v, n⟩ :: pieces, ?_, by simp [ht], rfl⟩
      intro p hmem
      rcases List.mem_cons.mp hmem with rfl | hmem
      · exact ⟨hn, by simpa using hfits⟩
      · exact hp p hmem
  · rintro ⟨pieces, hp, ht, rfl⟩
    induction pieces generalizing last ls with
    | nil =>
      rw [List.map_eq_nil_iff.mp ht]
      rfl
    | cons p pieces ih =>
      obtain ⟨used, rest, rfl, hused, hrest⟩ := List.map_eq_append_iff.mp ht
      obtain ⟨hderived, hdepth⟩ := hp p List.mem_cons_self
      have hreads : Reads [] [] used p.value :=
        reads_of_derives hderived hused (by simpa using hdepth)
      obtain ⟨last', hforms⟩ := hreads.forms_append last rest
      rw [List.nil_append] at hforms
      rw [hforms, deliver, resume,
        ih (fun q hq => hp q (List.mem_cons_of_mem _ hq)) hrest]
      rfl

theorem Reads.form_eq {above : List OpenForm} {ls : List Lexeme} {v : Value}
    (h : Reads [] above ls v) (last : Position) : form above last ls = .ok v := by
  induction h generalizing last with
  | last hfeed =>
    rw [List.append_nil] at hfeed
    rw [form, hfeed]
    rfl
  | more hfeed _ _ ih =>
    rw [List.append_nil, List.append_nil] at hfeed
    rw [form, hfeed]
    exact ih _

theorem exists_reads_of_form {above : List OpenForm} {last : Position} {ls : List Lexeme}
    {v : Value} (h : form above last ls = .ok v) (hne : above ≠ [] ∨ ls ≠ []) :
    Reads [] above ls v := by
  induction ls generalizing above last with
  | nil =>
    cases above with
    | nil => simp at hne
    | cons innermost above => simp [form] at h
  | cons lexeme rest ih =>
    cases hfeed : feed above lexeme with
    | error e => simp [form, hfeed] at h
    | ok progress =>
      rw [form, hfeed] at h
      rw [← List.append_nil above] at hfeed
      cases progress with
      | whole w =>
        cases rest with
        | nil =>
          cases h
          exact .last hfeed
        | cons extra rest => cases h
      | partly stack =>
        have hstack : stack ≠ [] := by
          rintro rfl
          exact feed_ne_partly_nil hfeed
        exact .more (by simpa using hfeed) hstack (ih h (Or.inl hstack))

end Reader

/-- A text is read as one form if it is blank or the grammar derives its tokens as a whole. -/
theorem read_eq_ok_iff {source : String} {v : Value} :
    read source = .ok v ↔
      tokenize source = [] ∧ v = .nil ∨
      ∃ n, Grammar.Derives ((tokenize source).map Lexeme.token) v n ∧ n ≤ Reader.maxNesting := by
  unfold read
  by_cases hblank : tokenize source = []
  · simp only [hblank, Reader.form, List.isEmpty_nil, ↓reduceIte, Except.ok.injEq, true_and,
      List.map_nil]
    constructor
    · exact fun h => Or.inl h.symm
    · rintro (h | ⟨n, hn, -⟩)
      · exact h.symm
      · exact absurd rfl hn.tokens_ne_nil
  · constructor
    · intro h
      obtain ⟨n, hn, hfits⟩ := Reader.reads_iff.mp (Reader.exists_reads_of_form h (Or.inr hblank))
      exact Or.inr ⟨n, hn, by simpa using hfits⟩
    · rintro (⟨h, -⟩ | ⟨n, hn, hfits⟩)
      · exact absurd h hblank
      · exact (Reader.reads_iff.mpr ⟨n, hn, by simpa using hfits⟩).form_eq {}

open Grammar Reader in
/-- The reader accepts exactly the grammar. A text has the forms of the pieces into which its tokens
are cut, each of them no deeper than the limit, and there is at most one way to cut them. On any
stack of open forms, a form is read just where the grammar derives one that fits; it takes a token
at least, and afterwards the reader goes on with the open forms as they were, but for the marks
right before the form, which end with it. -/
theorem readAll_accepts_grammar (source : String) :
    (∀ forms : List Value, readAll source = .ok forms ↔
      ∃ pieces : List Piece, (∀ p ∈ pieces, p.Derived ∧ p.depth ≤ maxNesting) ∧
        (tokenize source).map Lexeme.token = pieces.flatMap Piece.tokens ∧
        forms = pieces.map Piece.value) ∧
    (∀ ps qs : List Piece, (∀ p ∈ ps, p.Derived) → (∀ q ∈ qs, q.Derived) →
      ps.flatMap Piece.tokens = qs.flatMap Piece.tokens → ps = qs) ∧
    (∀ (base : List OpenForm) (used : List Lexeme) (v : Value), Reads base [] used v ↔
      ∃ n, Derives (used.map Lexeme.token) v n ∧ base.length + n ≤ maxNesting) ∧
    ∀ (base : List OpenForm) (used : List Lexeme) (v : Value), Reads base [] used v →
      used ≠ [] ∧
      (deliver v base).height = (base.dropWhile OpenForm.isMark).length ∧
      ∀ last rest, ∃ last', Reader.forms base last (used ++ rest) =
        resume last' rest (deliver v base) :=
  ⟨fun _ => forms_eq_ok_iff, fun _ _ hp hq e => pieces_unique hp hq e, fun _ _ _ => reads_iff,
    fun base _ v h => ⟨h.used_ne_nil, deliver_height v base, h.forms_append⟩⟩

open Grammar Reader in
/-- A marked map with a key given twice nests three deep, and the later value counts. -/
theorem readAll_accepts_grammar_marked_map :
    ∃ piece : Piece, piece.Derived ∧ piece.depth = 3 ∧
      piece.value = .list none [.sym "quote", .map none [(.kw "k", .sym "b")]] ∧
      readAll "'\x7b:k a :k b\x7d" = .ok [piece.value] ∧
      (∀ qs : List Piece, (∀ q ∈ qs, q.Derived) → qs.flatMap Piece.tokens = piece.tokens →
        [piece] = qs) ∧
      ∃ used, Reads [.mark .deref] [] used piece.value ∧ used ≠ [] := by
  have hmap : Encloses .curly [.kw "k", .sym "a", .kw "k", .sym "b"]
      (.map none [(.kw "k", .sym "b")]) := by
    apply (close_eq_ok_iff (p := {})).mp
    simp [close, Table.insertPairs, Table.pairUp, Value.isKey, Table.ofEntries, Table.insert,
      Table.union, Value.beq, Except.map, Nat.log2]
  have hitems : DerivesAll [.word ":k", .word "a", .word ":k", .word "b"]
      [.kw "k", .sym "a", .kw "k", .sym "b"] 1 :=
    .cons (.word ":k") (.cons (.word "a") (.cons (.word ":k") (.cons (.word "b") .nil)))
  have hderived := (Derives.bracket hitems hmap).mark .quote
  have htokens : (tokenize "'\x7b:k a :k b\x7d").map Lexeme.token =
      [.mark .quote, .opening .curly, .word ":k", .word "a", .word ":k", .word "b",
        .closing .curly] := by decide
  obtain ⟨hread, hunique, hreads, hused⟩ := readAll_accepts_grammar "'\x7b:k a :k b\x7d"
  refine ⟨⟨_, _, _⟩, hderived, rfl, rfl, ?_, ?_, tokenize "'\x7b:k a :k b\x7d", ?_⟩
  · refine (hread _).mpr ⟨[⟨_, _, _⟩], ?_, htokens.trans (List.append_nil _).symm, rfl⟩
    intro p hp
    rw [List.mem_singleton.mp hp]
    exact ⟨hderived, by decide⟩
  · intro qs hq e
    refine hunique _ qs ?_ hq ?_
    · intro p hp
      rw [List.mem_singleton.mp hp]
      exact hderived
    · rw [e]
      rfl
  · have h := (hreads [.mark .deref] (tokenize "'\x7b:k a :k b\x7d") _).mpr
      ⟨3, htokens ▸ hderived, by decide⟩
    exact ⟨h, (hused _ _ _ h).1⟩

end Lisp
