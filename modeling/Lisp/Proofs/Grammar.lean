import Lisp.Proofs.Table
import Lisp.Reader.Form

/-!
# The grammar of forms

When a list of tokens is a form, what its value is and how deep it nests. A string or a word nests
one deep, an empty pair of brackets too, and anything else one deeper than the deepest form in it.
The grammar is unambiguous: of two forms that begin the same list of tokens neither is longer, and
they have the same value and the same depth (`Derives.unique`), so a list of tokens is cut into
forms in one way at most (`pieces_unique`).
-/

namespace Lisp.Grammar

/-- `Encloses b vs v`: the forms `vs` between brackets of the shape `b` stand for `v`. -/
inductive Encloses : Bracket → List Value → Value → Prop
  | list (vs : List Value) : Encloses .round vs (.list none vs)
  | vector (vs : List Value) : Encloses .square vs (.vec none vs)
  | map {pairs entries : Table} : Table.Denotes pairs entries →
      Encloses .curly (Table.flat pairs) (.map none entries)

mutual

/-- `Derives ts v n`: the tokens `ts` are a form with the value `v` that nests `n` deep. -/
inductive Derives : List Token → Value → Nat → Prop
  | string (body : String) :
      Derives [.string body] (.str (String.ofList (Text.unescape body.toList))) 1
  | word (text : String) : Derives [.word text] (.ofWord text.toList) 1
  | bracket {b : Bracket} {ts : List Token} {vs : List Value} {v : Value} {n : Nat} :
      DerivesAll ts vs n → Encloses b vs v →
      Derives (.opening b :: (ts ++ [.closing b])) v (n + 1)
  | mark {ts : List Token} {v : Value} {n : Nat} (m : Mark) :
      Derives ts v n → Derives (.mark m :: ts) (.list none [.sym m.symbol, v]) (n + 1)

/-- Forms that stand one after another, and the depth of the deepest of them. -/
inductive DerivesAll : List Token → List Value → Nat → Prop
  | nil : DerivesAll [] [] 0
  | cons {ts us : List Token} {v : Value} {vs : List Value} {n m : Nat} :
      Derives ts v n → DerivesAll us vs m → DerivesAll (ts ++ us) (v :: vs) (max n m)

end

/-- The tokens of one form, its value and its depth. -/
structure Piece where
  tokens : List Token
  value : Value
  depth : Nat

def Piece.Derived (piece : Piece) : Prop :=
  Derives piece.tokens piece.value piece.depth

theorem DerivesAll.snoc {ts us : List Token} {vs : List Value} {v : Value} {n m : Nat} :
    DerivesAll ts vs n → Derives us v m → DerivesAll (ts ++ us) (vs ++ [v]) (max n m)
  | .nil, hv => by simpa using DerivesAll.cons hv .nil
  | .cons hform hall, hv => by
    rw [List.append_assoc, List.cons_append, Nat.max_assoc]
    exact .cons hform (hall.snoc hv)

theorem DerivesAll.pieces {ts : List Token} {vs : List Value} {n : Nat} :
    DerivesAll ts vs n → ∃ pieces : List Piece, (∀ p ∈ pieces, p.Derived ∧ p.depth ≤ n) ∧
      ts = pieces.flatMap Piece.tokens ∧ vs = pieces.map Piece.value
  | .nil => ⟨[], by simp⟩
  | @DerivesAll.cons ts us v vs n m hform hall => by
    obtain ⟨pieces, hpieces, rfl, rfl⟩ := hall.pieces
    refine ⟨⟨ts, v, n⟩ :: pieces, fun p hp => ?_, by simp, by simp⟩
    rcases List.mem_cons.mp hp with rfl | hp
    · exact ⟨hform, Nat.le_max_left n m⟩
    · exact ⟨(hpieces p hp).1, Nat.le_trans (hpieces p hp).2 (Nat.le_max_right n m)⟩

/-! ## Unambiguity -/

theorem Encloses.unique {b : Bracket} {vs : List Value} {v w : Value} (h : Encloses b vs v)
    (h' : Encloses b vs w) : v = w := by
  cases h with
  | list =>
    cases h'
    rfl
  | vector =>
    cases h'
    rfl
  | @map pairs entries hden =>
    generalize hvs : Table.flat pairs = vs at h'
    cases h' with
    | map hden' =>
      cases Table.flat_injective hvs
      rw [hden.unique hden']

/-- No form begins with this list of tokens: it is empty or goes on with a closing bracket. -/
def Ends : List Token → Prop
  | [] => True
  | t :: _ => ∃ b, t = .closing b

theorem ends_closing (b : Bracket) (r : List Token) : Ends (.closing b :: r) :=
  ⟨b, rfl⟩

/-- A form has a first token, and that is no closing bracket. -/
theorem Derives.not_ends {ts : List Token} {v : Value} {n : Nat} (h : Derives ts v n)
    (r : List Token) : ¬ Ends (ts ++ r) := by
  cases h <;> simp [Ends]

theorem Derives.tokens_ne_nil {ts : List Token} {v : Value} {n : Nat} (h : Derives ts v n) :
    ts ≠ [] := by
  cases h <;> simp

theorem Derives.depth_pos {ts : List Token} {v : Value} {n : Nat} (h : Derives ts v n) :
    0 < n := by
  cases h <;> simp

mutual

/-- Of two forms that begin the same list of tokens neither is longer. -/
theorem Derives.unique {ts : List Token} {v : Value} {n : Nat} :
    Derives ts v n → ∀ {us r s : List Token} {w : Value} {m : Nat}, Derives us w m →
      ts ++ r = us ++ s → ts = us ∧ v = w ∧ n = m
  | .string _, _, _, _, _, _, h, e => by
    cases h with
    | string =>
      simp only [List.cons_append, List.cons.injEq, Token.string.injEq] at e
      obtain ⟨rfl, -⟩ := e
      exact ⟨rfl, rfl, rfl⟩
    | _ => simp at e
  | .word _, _, _, _, _, _, h, e => by
    cases h with
    | word =>
      simp only [List.cons_append, List.cons.injEq, Token.word.injEq] at e
      obtain ⟨rfl, -⟩ := e
      exact ⟨rfl, rfl, rfl⟩
    | _ => simp at e
  | .bracket hall henc, _, _, _, _, _, h, e => by
    cases h with
    | bracket hall' henc' =>
      simp only [List.cons_append, List.append_assoc, List.cons.injEq, Token.opening.injEq,
        List.nil_append] at e
      obtain ⟨rfl, e⟩ := e
      obtain ⟨rfl, rfl, rfl⟩ := DerivesAll.unique hall hall' (ends_closing _ _) (ends_closing _ _) e
      exact ⟨rfl, henc.unique henc', rfl⟩
    | _ => simp at e
  | .mark _ hform, _, _, _, _, _, h, e => by
    cases h with
    | mark _ hform' =>
      simp only [List.cons_append, List.cons.injEq, Token.mark.injEq] at e
      obtain ⟨rfl, e⟩ := e
      obtain ⟨rfl, rfl, rfl⟩ := Derives.unique hform hform' e
      exact ⟨rfl, rfl, rfl⟩
    | _ => simp at e

/-- Forms that stand one after another are as many as there can be. -/
theorem DerivesAll.unique {ts : List Token} {vs : List Value} {n : Nat} :
    DerivesAll ts vs n → ∀ {us r s : List Token} {ws : List Value} {m : Nat}, DerivesAll us ws m →
      Ends r → Ends s → ts ++ r = us ++ s → ts = us ∧ vs = ws ∧ n = m
  | .nil, _, r, s, _, _, h, hr, _, e => by
    cases h with
    | nil => exact ⟨rfl, rfl, rfl⟩
    | cons hform _ =>
      rw [List.nil_append, List.append_assoc] at e
      exact absurd (e ▸ hr) (hform.not_ends _)
  | .cons hform hall, _, r, s, _, _, h, hr, hs, e => by
    cases h with
    | nil =>
      rw [List.nil_append, List.append_assoc] at e
      exact absurd (e ▸ hs) (hform.not_ends _)
    | cons hform' hall' =>
      rw [List.append_assoc, List.append_assoc] at e
      obtain ⟨rfl, rfl, rfl⟩ := Derives.unique hform hform' e
      obtain ⟨rfl, rfl, rfl⟩ := DerivesAll.unique hall hall' hr hs (List.append_cancel_left e)
      exact ⟨rfl, rfl, rfl⟩

end

/-- A list of tokens is cut into forms in one way at most. -/
theorem pieces_unique {ps qs : List Piece} (hp : ∀ p ∈ ps, p.Derived) (hq : ∀ q ∈ qs, q.Derived)
    (e : ps.flatMap Piece.tokens = qs.flatMap Piece.tokens) : ps = qs := by
  induction ps generalizing qs with
  | nil =>
    cases qs with
    | nil => rfl
    | cons q qs =>
      have hne := (hq q List.mem_cons_self).tokens_ne_nil
      simp only [List.flatMap_nil, List.flatMap_cons] at e
      exact absurd (List.append_eq_nil_iff.mp e.symm).1 hne
  | cons p ps ih =>
    cases qs with
    | nil =>
      have hne := (hp p List.mem_cons_self).tokens_ne_nil
      simp only [List.flatMap_nil, List.flatMap_cons] at e
      exact absurd (List.append_eq_nil_iff.mp e).1 hne
    | cons q qs =>
      simp only [List.flatMap_cons] at e
      obtain ⟨ht, hv, hd⟩ := (hp p List.mem_cons_self).unique (hq q List.mem_cons_self) e
      rw [ht] at e
      have hpq : p = q := by
        cases p
        cases q
        simp only [Piece.mk.injEq]
        exact ⟨ht, hv, hd⟩
      rw [hpq, ih (fun p' h => hp p' (List.mem_cons_of_mem _ h))
        (fun q' h => hq q' (List.mem_cons_of_mem _ h)) (List.append_cancel_left e)]

end Lisp.Grammar
