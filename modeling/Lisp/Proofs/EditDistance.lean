import Lisp.Text.Suggestion

/-!
# Spelling suggestions

The distance of two texts is given by recursion on both (`levenshtein`), and it is the least number
of single-character edits (`Edits`) that turn the one into the other. Edits can be read from either
end, so the distance does not depend on the end at which the recursion starts. The rows of distances
start at the other one: each holds the distances from a beginning of the source to the beginnings of
the target. A suggestion is then the first of the candidates at the least distance.
-/

namespace Lisp.Text

/-! ## The distance by recursion -/

/-- Equal first characters cost nothing, different ones an edit: the first character of the source
is replaced or deleted, or that of the target is inserted before it. -/
def levenshtein : List Char → List Char → Nat
  | [], target => target.length
  | source, [] => source.length
  | c :: source, d :: target =>
    if c = d then levenshtein source target
    else
      min (min (levenshtein source target) (levenshtein source (d :: target)))
        (levenshtein (c :: source) target) + 1
termination_by source target => source.length + target.length

@[simp] theorem levenshtein_nil_left (target : List Char) :
    levenshtein [] target = target.length := by
  rw [levenshtein]

@[simp] theorem levenshtein_nil_right (source : List Char) :
    levenshtein source [] = source.length := by
  cases source <;> simp [levenshtein]

theorem levenshtein_cons_self (c : Char) (source target : List Char) :
    levenshtein (c :: source) (c :: target) = levenshtein source target := by
  rw [levenshtein, if_pos rfl]

theorem levenshtein_cons_of_ne {c d : Char} (h : c ≠ d) (source target : List Char) :
    levenshtein (c :: source) (d :: target) =
      min (min (levenshtein source target) (levenshtein source (d :: target)))
        (levenshtein (c :: source) target) + 1 := by
  rw [levenshtein, if_neg h]

theorem levenshtein_comm (source target : List Char) :
    levenshtein source target = levenshtein target source := by
  fun_induction levenshtein source target with
  | case1 target => rw [levenshtein_nil_right]
  | case2 source => rw [levenshtein_nil_left]
  | case3 source d target ih => rw [levenshtein_cons_self, ih]
  | case4 c source d target hne ih₁ ih₂ ih₃ =>
    rw [levenshtein_cons_of_ne (Ne.symm hne), ih₁, ih₂, ih₃, Nat.min_right_comm]

/-- One character more in the source costs at most one edit more, if one character less in the
target does. -/
theorem levenshtein_cons_le_of {source : List Char}
    (h : ∀ d target, levenshtein source target ≤ levenshtein source (d :: target) + 1)
    (c : Char) (target : List Char) :
    levenshtein (c :: source) target ≤ levenshtein source target + 1 := by
  cases target with
  | nil => simp
  | cons d target =>
    by_cases hcd : c = d
    · subst hcd
      rw [levenshtein_cons_self]
      exact h c target
    · rw [levenshtein_cons_of_ne hcd]
      omega

/-- One character less in the target costs at most one edit more. -/
theorem levenshtein_le_cons_right (source : List Char) (d : Char) (target : List Char) :
    levenshtein source target ≤ levenshtein source (d :: target) + 1 := by
  induction source generalizing d target with
  | nil =>
    simp only [levenshtein_nil_left, List.length_cons]
    omega
  | cons c source ih =>
    have hdelete := levenshtein_cons_le_of ih c target
    by_cases hcd : c = d
    · subst hcd
      rw [levenshtein_cons_self]
      exact hdelete
    · have hless := ih d target
      rw [levenshtein_cons_of_ne hcd]
      omega

theorem levenshtein_cons_left_le (c : Char) (source target : List Char) :
    levenshtein (c :: source) target ≤ levenshtein source target + 1 :=
  levenshtein_cons_le_of (levenshtein_le_cons_right source) c target

theorem levenshtein_cons_right_le (source : List Char) (d : Char) (target : List Char) :
    levenshtein source (d :: target) ≤ levenshtein source target + 1 := by
  rw [levenshtein_comm source, levenshtein_comm source]
  exact levenshtein_cons_left_le d target source

/-- The three ways to go on may be compared whether or not the first characters are equal. -/
theorem levenshtein_cons_cons (c d : Char) (source target : List Char) :
    levenshtein (c :: source) (d :: target) =
      min (min (levenshtein source target + if c = d then 0 else 1)
        (levenshtein source (d :: target) + 1)) (levenshtein (c :: source) target + 1) := by
  by_cases hcd : c = d
  · subst hcd
    have hdelete := levenshtein_le_cons_right source c target
    have hinsert := levenshtein_le_cons_right target c source
    rw [levenshtein_comm target, levenshtein_comm target] at hinsert
    rw [levenshtein_cons_self, if_pos rfl]
    omega
  · rw [levenshtein_cons_of_ne hcd, if_neg hcd]
    omega

/-! ## Edits -/

/-- `Edits source target n`: going over both texts once, `n` edits turn the first one into the
second. -/
inductive Edits : List Char → List Char → Nat → Prop
  | nil : Edits [] [] 0
  | keep {source target : List Char} {n : Nat} (c : Char) :
      Edits source target n → Edits (c :: source) (c :: target) n
  | replace {source target : List Char} {n : Nat} (c d : Char) :
      Edits source target n → Edits (c :: source) (d :: target) (n + 1)
  | delete {source target : List Char} {n : Nat} (c : Char) :
      Edits source target n → Edits (c :: source) target (n + 1)
  | insert {source target : List Char} {n : Nat} (d : Char) :
      Edits source target n → Edits source (d :: target) (n + 1)

theorem edits_nil_left (target : List Char) : Edits [] target target.length := by
  induction target with
  | nil => exact .nil
  | cons d target ih => exact .insert d ih

theorem edits_nil_right (source : List Char) : Edits source [] source.length := by
  induction source with
  | nil => exact .nil
  | cons c source ih => exact .delete c ih

theorem edits_levenshtein (source target : List Char) :
    Edits source target (levenshtein source target) := by
  fun_induction levenshtein source target with
  | case1 target => exact edits_nil_left target
  | case2 source => exact edits_nil_right source
  | case3 source d target ih => exact .keep d ih
  | case4 c source d target _ ih₁ ih₂ ih₃ =>
    rcases Nat.le_total
      (min (levenshtein source target) (levenshtein source (d :: target)))
      (levenshtein (c :: source) target) with hmin | hmin
    · rw [Nat.min_eq_left hmin]
      rcases Nat.le_total (levenshtein source target) (levenshtein source (d :: target)) with h | h
      · rw [Nat.min_eq_left h]
        exact .replace c d ih₁
      · rw [Nat.min_eq_right h]
        exact .delete c ih₂
    · rw [Nat.min_eq_right hmin]
      exact .insert d ih₃

theorem Edits.levenshtein_le {source target : List Char} {n : Nat} (h : Edits source target n) :
    levenshtein source target ≤ n := by
  induction h with
  | nil => simp
  | keep c _ ih =>
    rw [levenshtein_cons_self]
    exact ih
  | replace c d _ ih =>
    rw [levenshtein_cons_cons]
    split <;> omega
  | @delete source target n c _ ih =>
    exact Nat.le_trans (levenshtein_cons_left_le c source target) (Nat.succ_le_succ ih)
  | @insert source target n d _ ih =>
    exact Nat.le_trans (levenshtein_cons_right_le source d target) (Nat.succ_le_succ ih)

theorem Edits.append {source target source' target' : List Char} {n m : Nat}
    (h : Edits source target n) (h' : Edits source' target' m) :
    Edits (source ++ source') (target ++ target') (n + m) := by
  induction h with
  | nil => simpa using h'
  | keep c _ ih => exact .keep c ih
  | replace c d _ ih => exact Nat.add_right_comm .. ▸ .replace c d ih
  | delete c _ ih => exact Nat.add_right_comm .. ▸ .delete c ih
  | insert d _ ih => exact Nat.add_right_comm .. ▸ .insert d ih

theorem Edits.reverse {source target : List Char} {n : Nat} (h : Edits source target n) :
    Edits source.reverse target.reverse n := by
  induction h with
  | nil => exact .nil
  | keep c _ ih => simpa using ih.append (.keep c .nil)
  | replace c d _ ih => simpa using ih.append (.replace c d .nil)
  | delete c _ ih => simpa using ih.append (.delete c .nil)
  | insert d _ ih => simpa using ih.append (.insert d .nil)

/-- The distance is the same from either end. -/
theorem levenshtein_reverse (source target : List Char) :
    levenshtein source.reverse target.reverse = levenshtein source target := by
  refine Nat.le_antisymm (edits_levenshtein source target).reverse.levenshtein_le ?_
  simpa using (edits_levenshtein source.reverse target.reverse).reverse.levenshtein_le

theorem levenshtein_snoc_snoc (source target : List Char) (c d : Char) :
    levenshtein (source ++ [c]) (target ++ [d]) =
      min (min (levenshtein source target + if c = d then 0 else 1)
        (levenshtein source (target ++ [d]) + 1)) (levenshtein (source ++ [c]) target + 1) := by
  have hsource : c :: source.reverse = (source ++ [c]).reverse := by simp
  have htarget : d :: target.reverse = (target ++ [d]).reverse := by simp
  have h := levenshtein_cons_cons c d source.reverse target.reverse
  rw [hsource, htarget] at h
  simpa only [levenshtein_reverse] using h

/-! ## The rows of distances -/

/-- The distances from a source to the beginnings of a target that are longer than `done`, given the
rest of the target. -/
def distancesFrom (source done : List Char) : List Char → List Nat
  | [] => []
  | d :: rest => levenshtein source (done ++ [d]) :: distancesFrom source (done ++ [d]) rest

/-- The distances from a source to all the beginnings of a target. -/
def distances (source target : List Char) : List Nat :=
  levenshtein source [] :: distancesFrom source [] target

theorem distancesFrom_nil_left (done rest : List Char) :
    distancesFrom [] done rest = List.range' (done.length + 1) rest.length := by
  induction rest generalizing done with
  | nil => rfl
  | cons d rest ih => simp [distancesFrom, ih, List.range'_succ]

theorem range_eq_distances (target : List Char) :
    List.range (target.length + 1) = distances [] target := by
  rw [distances, distancesFrom_nil_left, levenshtein_nil_left, List.range_eq_range',
    List.range'_succ]
  rfl

/-- Each new entry is the distance of texts one character longer than those of its neighbours. -/
theorem nextDistances_eq (source : List Char) (c : Char) (done rest : List Char) :
    nextDistances c (levenshtein (source ++ [c]) done) (levenshtein source done) rest
        (distancesFrom source done rest) =
      distancesFrom (source ++ [c]) done rest := by
  induction rest generalizing done with
  | nil => rfl
  | cons d rest ih =>
    simp only [distancesFrom, nextDistances]
    rw [← levenshtein_snoc_snoc, ih]

theorem distanceRow_distances (source target : List Char) (c : Char) :
    distanceRow target (distances source target) c = distances (source ++ [c]) target := by
  have hfirst : levenshtein source [] + 1 = levenshtein (source ++ [c]) [] := by simp
  rw [distances, distanceRow, hfirst, nextDistances_eq, distances]

/-- After a beginning of the source the row holds the distances from it. -/
theorem foldl_distanceRow (source rest target : List Char) :
    rest.foldl (distanceRow target) (distances source target) =
      distances (source ++ rest) target := by
  induction rest generalizing source with
  | nil => simp
  | cons c rest ih =>
    rw [List.foldl_cons, distanceRow_distances, ih, List.append_assoc, List.singleton_append]

theorem getLastD_distancesFrom (source done rest : List Char) :
    (levenshtein source done :: distancesFrom source done rest).getLastD 0 =
      levenshtein source (done ++ rest) := by
  induction rest generalizing done with
  | nil => simp [distancesFrom]
  | cons d rest ih =>
    rw [distancesFrom, List.getLastD_cons, List.getLastD_cons, ← List.getLastD_cons, ih,
      List.append_assoc, List.singleton_append]

theorem editDistance_eq (source target : List Char) :
    editDistance source target = levenshtein source target := by
  rw [editDistance, range_eq_distances, foldl_distanceRow]
  exact getLastD_distancesFrom source [] target

/-! ## Suggestions -/

/-- The distance from a name to a candidate. -/
def distanceTo (name candidate : String) : Nat :=
  levenshtein name.toList candidate.toList

/-- The candidate differs from the name, by no more edits than a third of the bytes of the name;
one edit is always allowed, and more than three are not. -/
def Near (name candidate : String) : Prop :=
  1 ≤ distanceTo name candidate ∧
    distanceTo name candidate ≤ max 1 (min 3 (name.utf8ByteSize / 3))

instance (name candidate : String) : Decidable (Near name candidate) :=
  inferInstanceAs (Decidable (_ ∧ _))

/-- The near candidates before this one are further away, and those after it are no closer. -/
structure Chosen (name : String) (before : List String) (found : String) (after : List String) :
    Prop where
  near : Near name found
  closer : ∀ c ∈ before, Near name c → distanceTo name found < distanceTo name c
  least : ∀ c ∈ after, Near name c → distanceTo name found ≤ distanceTo name c

/-- The first of the closest candidates. -/
def IsFirstClosest (name : String) (candidates : List String) (found : String) : Prop :=
  ∃ before after, candidates = before ++ found :: after ∧ Chosen name before found after

section

variable {name : String}

/-- Of two chosen candidates neither stands before the other. -/
theorem Chosen.eq {before between after after' : List String} {s t : String}
    (hs : Chosen name before s after) (ht : Chosen name (before ++ between) t after')
    (h : s :: after = between ++ t :: after') : s = t := by
  cases between with
  | nil => exact (List.cons.inj h).1
  | cons c between =>
    obtain ⟨rfl, rfl⟩ := List.cons.inj h
    have hlt := ht.closer s (by simp) hs.near
    have hle := hs.least t (by simp) ht.near
    exact absurd hle (Nat.not_le_of_lt hlt)

theorem IsFirstClosest.unique {candidates : List String} {s t : String}
    (hs : IsFirstClosest name candidates s) (ht : IsFirstClosest name candidates t) : s = t := by
  obtain ⟨before, after, rfl, hs⟩ := hs
  obtain ⟨before', after', heq, ht⟩ := ht
  rcases List.append_eq_append_iff.mp heq with ⟨between, rfl, hrest⟩ | ⟨between, rfl, hrest⟩
  · exact hs.eq ht hrest
  · exact (ht.eq hs hrest).symm

theorem IsFirstClosest.exists_near {candidates : List String} {s : String}
    (h : IsFirstClosest name candidates s) : ∃ c ∈ candidates, Near name c := by
  obtain ⟨before, after, rfl, hs⟩ := h
  exact ⟨s, by simp, hs.near⟩

/-- A candidate at the end is chosen if it is closer than the one that was. -/
theorem IsFirstClosest.snoc_of_lt {candidates : List String} {s c : String}
    (h : IsFirstClosest name candidates s) (hc : Near name c)
    (hlt : distanceTo name c < distanceTo name s) : IsFirstClosest name (candidates ++ [c]) c := by
  obtain ⟨before, after, rfl, hs⟩ := h
  refine ⟨before ++ s :: after, [], rfl, hc, fun d hd hnear => ?_, fun d hd => by simp at hd⟩
  refine Nat.lt_of_lt_of_le hlt ?_
  rcases List.mem_append.mp hd with hd | hd
  · exact Nat.le_of_lt (hs.closer d hd hnear)
  · rcases List.mem_cons.mp hd with rfl | hd
    · exact Nat.le_refl _
    · exact hs.least d hd hnear

/-- Any other candidate at the end changes nothing. -/
theorem IsFirstClosest.snoc {candidates : List String} {s c : String}
    (h : IsFirstClosest name candidates s)
    (hle : Near name c → distanceTo name s ≤ distanceTo name c) :
    IsFirstClosest name (candidates ++ [c]) s := by
  obtain ⟨before, after, rfl, hs⟩ := h
  refine ⟨before, after ++ [c], by simp, hs.near, hs.closer, fun d hd hnear => ?_⟩
  rcases List.mem_append.mp hd with hd | hd
  · exact hs.least d hd hnear
  · rw [List.mem_singleton.mp hd] at hnear ⊢
    exact hle hnear

/-- Takes one more candidate into account. -/
def consider (name : String) (best : Option (String × Nat)) (candidate : String) :
    Option (String × Nat) :=
  if Near name candidate then
    match best with
    | none => some (candidate, distanceTo name candidate)
    | some found =>
      if distanceTo name candidate < found.2 then some (candidate, distanceTo name candidate)
      else best
  else best

/-- What is kept of the candidates so far: the first of the closest ones with its distance, or
nothing if none is near. -/
def Kept (name : String) (candidates : List String) : Option (String × Nat) → Prop
  | none => ∀ c ∈ candidates, ¬ Near name c
  | some found => found.2 = distanceTo name found.1 ∧ IsFirstClosest name candidates found.1

theorem Kept.consider {candidates : List String} {best : Option (String × Nat)}
    (h : Kept name candidates best) (c : String) :
    Kept name (candidates ++ [c]) (consider name best c) := by
  unfold Text.consider
  split
  · next hnear =>
    cases best with
    | none =>
      refine ⟨rfl, candidates, [], rfl, hnear, fun d hd hd' => absurd hd' (h d hd), ?_⟩
      exact fun d hd => by simp at hd
    | some found =>
      obtain ⟨hdistance, hfound⟩ := h
      simp only [hdistance]
      split
      · next hlt => exact ⟨rfl, hfound.snoc_of_lt hnear hlt⟩
      · next hle => exact ⟨hdistance, hfound.snoc fun _ => Nat.le_of_not_lt hle⟩
  · next hfar =>
    cases best with
    | none =>
      intro d hd
      rcases List.mem_append.mp hd with hd | hd
      · exact h d hd
      · rw [List.mem_singleton.mp hd]
        exact hfar
    | some found => exact ⟨h.1, h.2.snoc fun hnear => absurd hnear hfar⟩

theorem Kept.foldl {done : List String} {best : Option (String × Nat)} (h : Kept name done best)
    (rest : List String) : Kept name (done ++ rest) (rest.foldl (Text.consider name) best) := by
  induction rest generalizing done best with
  | nil => simpa using h
  | cons c rest ih => simpa using ih (h.consider c)

end

/-- Candidates that are not near are left out at once. -/
theorem suggest_eq (name : String) (candidates : List String) :
    suggest name candidates = (candidates.foldl (consider name) none).map Prod.fst := by
  rw [suggest, List.foldl_filterMap]
  congr 2
  funext best c
  unfold consider
  have hdistance : editDistance name.toList c.toList = distanceTo name c := editDistance_eq _ _
  rw [hdistance]
  by_cases hnear : Near name c
  · have hwithin : 0 < distanceTo name c ∧ distanceTo name c ≤ tolerance name := hnear
    cases best with
    | none => rw [if_pos hnear, if_pos hwithin]
    | some kept => rw [if_pos hnear, if_pos hwithin]
  · have hwithin : ¬ (0 < distanceTo name c ∧ distanceTo name c ≤ tolerance name) := hnear
    rw [if_neg hnear, if_neg hwithin]

theorem kept_foldl_consider (name : String) (candidates : List String) :
    Kept name candidates (candidates.foldl (consider name) none) := by
  have hnil : Kept name [] none := fun c hc => absurd hc List.not_mem_nil
  exact hnil.foldl candidates

theorem suggest_eq_none_iff (name : String) (candidates : List String) :
    suggest name candidates = none ↔ ∀ c ∈ candidates, ¬ Near name c := by
  have hkept := kept_foldl_consider name candidates
  rw [suggest_eq, Option.map_eq_none_iff]
  constructor
  · intro hnone
    rwa [hnone] at hkept
  · intro hfar
    cases hbest : candidates.foldl (consider name) none with
    | none => rfl
    | some found =>
      rw [hbest] at hkept
      obtain ⟨c, hc, hnear⟩ := hkept.2.exists_near
      exact absurd hnear (hfar c hc)

theorem suggest_eq_some_iff (name : String) (candidates : List String) (s : String) :
    suggest name candidates = some s ↔ IsFirstClosest name candidates s := by
  have hkept := kept_foldl_consider name candidates
  rw [suggest_eq, Option.map_eq_some_iff]
  constructor
  · rintro ⟨found, hbest, rfl⟩
    rw [hbest] at hkept
    exact hkept.2
  · intro hs
    cases hbest : candidates.foldl (consider name) none with
    | none =>
      rw [hbest] at hkept
      obtain ⟨c, hc, hnear⟩ := hs.exists_near
      exact absurd hnear (hkept c hc)
    | some found =>
      rw [hbest] at hkept
      exact ⟨found, rfl, hkept.2.unique hs⟩

/-- The rows give the distance, and the suggestion is the first candidate in the order of the list
whose distance to the name is least among those that differ from it within its tolerance; there is
none just if there is no such candidate. -/
theorem suggestion_is_first_closest :
    (∀ source target, editDistance source target = levenshtein source target) ∧
    ∀ name candidates,
      (∀ s, suggest name candidates = some s ↔
        ∃ before after, candidates = before ++ s :: after ∧ Near name s ∧
          (∀ c ∈ before, Near name c → distanceTo name s < distanceTo name c) ∧
          ∀ c ∈ after, Near name c → distanceTo name s ≤ distanceTo name c) ∧
      (suggest name candidates = none ↔ ∀ c ∈ candidates, ¬ Near name c) := by
  refine ⟨editDistance_eq,
    fun name candidates => ⟨fun s => ?_, suggest_eq_none_iff name candidates⟩⟩
  rw [suggest_eq_some_iff]
  constructor
  · rintro ⟨before, after, hsplit, hs⟩
    exact ⟨before, after, hsplit, hs.near, hs.closer, hs.least⟩
  · rintro ⟨before, after, hsplit, hnear, hcloser, hleast⟩
    exact ⟨before, after, hsplit, hnear, hcloser, hleast⟩

end Lisp.Text
