import Lisp.Proofs.Soundness

/-!
# Renaming frames and objects

The numbers of frames and objects have no meaning beyond telling them apart. Values in which they
are renamed are equal just if the values themselves are, have the same texts, and are taken apart
and put together alike: whatever a function makes of renamed values without evaluating anything is
what it makes of the values, renamed. The numbers of cells are not renamed, since texts show them.
-/

namespace Lisp

/-- Other numbers for frames and objects, different ones for different ones. Frames keep their
order, in which enclosing frames come first. -/
structure Renaming where
  frame : FrameId → FrameId
  object : Nat → Nat
  frame_lt {f g : FrameId} : f < g → frame f < frame g
  object_injective {i j : Nat} : object i = object j → i = j

namespace Renaming

variable (r : Renaming)

/-- All numbers stay as they are. -/
def id : Renaming := ⟨fun f => f, fun i => i, fun h => h, fun h => h⟩

@[simp] theorem frame_beq (f g : FrameId) : (r.frame f == r.frame g) = (f == g) := by
  rcases Nat.lt_trichotomy f g with h | rfl | h
  · rw [beq_eq_false_iff_ne.mpr (Nat.ne_of_lt h),
      beq_eq_false_iff_ne.mpr (Nat.ne_of_lt (r.frame_lt h))]
  · rw [beq_self_eq_true, beq_self_eq_true]
  · rw [beq_eq_false_iff_ne.mpr (Nat.ne_of_gt h),
      beq_eq_false_iff_ne.mpr (Nat.ne_of_gt (r.frame_lt h))]

@[simp] theorem object_beq (i j : ObjectId) : (i.map r.object == j.map r.object) = (i == j) := by
  rw [Bool.eq_iff_iff, beq_iff_eq, beq_iff_eq]
  exact (Option.map_injective fun _ _ => r.object_injective).eq_iff

end Renaming

/-! ## Values -/

namespace Value

mutual

/-- The value with its frames and objects renamed. -/
def rename (r : Renaming) : Value → Value
  | nil => nil
  | bool b => bool b
  | int n => int n
  | float x => float x
  | str s => str s
  | sym name => sym name
  | kw name => kw name
  | list id items => list (id.map r.object) (renameAll r items)
  | vec id items => vec (id.map r.object) (renameAll r items)
  | map id entries => map (id.map r.object) (renameEntries r entries)
  | atom id => atom id
  | builtin b => builtin b
  | host name id => host name id
  | closure params body scope isMacro =>
    closure (renameAll r params) (rename r body) (r.frame scope) isMacro

def renameAll (r : Renaming) : List Value → List Value
  | [] => []
  | v :: vs => rename r v :: renameAll r vs

def renameEntries (r : Renaming) : List (Value × Value) → List (Value × Value)
  | [] => []
  | (k, v) :: entries => (rename r k, rename r v) :: renameEntries r entries

end

end Value

/-- The table with its keys and values renamed. -/
def Table.rename (r : Renaming) (entries : Table) : Table :=
  entries.map (Prod.map (Value.rename r) (Value.rename r))

@[simp] theorem Table.rename_nil (r : Renaming) : Table.rename r [] = [] := rfl

@[simp] theorem Table.rename_cons (r : Renaming) (entry : Value × Value) (entries : Table) :
    Table.rename r (entry :: entries) =
      (entry.1.rename r, entry.2.rename r) :: Table.rename r entries :=
  rfl

@[simp] theorem Table.length_rename (r : Renaming) (entries : Table) :
    (Table.rename r entries).length = entries.length :=
  List.length_map _

namespace Value

section

variable (r : Renaming)

theorem renameAll_eq_map (vs : List Value) : renameAll r vs = vs.map (rename r) := by
  induction vs with
  | nil => rfl
  | cons v vs ih => rw [renameAll, ih, List.map_cons]

theorem renameEntries_eq (entries : Table) : renameEntries r entries = entries.rename r := by
  induction entries with
  | nil => rfl
  | cons entry entries ih => rw [renameEntries, ih, Table.rename_cons]

theorem length_renameEntries (entries : Table) :
    (renameEntries r entries).length = entries.length := by
  rw [renameEntries_eq, Table.length_rename]

@[simp] theorem rename_list (id : ObjectId) (items : List Value) :
    (list id items).rename r = list (id.map r.object) (items.map (rename r)) := by
  rw [rename, renameAll_eq_map]

@[simp] theorem rename_vec (id : ObjectId) (items : List Value) :
    (vec id items).rename r = vec (id.map r.object) (items.map (rename r)) := by
  rw [rename, renameAll_eq_map]

@[simp] theorem rename_map (id : ObjectId) (entries : Table) :
    (map id entries).rename r = map (id.map r.object) (entries.rename r) := by
  rw [rename, renameEntries_eq]

@[simp] theorem rename_atom (id : Nat) : (atom id).rename r = atom id := rfl

@[simp] theorem rename_closure (params : List Value) (body : Value) (scope : FrameId)
    (isMacro : Bool) :
    (closure params body scope isMacro).rename r =
      closure (params.map (rename r)) (body.rename r) (r.frame scope) isMacro := by
  rw [rename, renameAll_eq_map]

theorem rename_of_isScalar {v : Value} (h : v.isScalar = true) : v.rename r = v := by
  cases v <;> first | rfl | cases h

@[simp] theorem rename_nil : nil.rename r = nil := rfl

@[simp] theorem rename_bool (b : Bool) : (bool b).rename r = bool b := rfl

@[simp] theorem rename_int (n : Int64) : (int n).rename r = int n := rfl

@[simp] theorem rename_str (s : String) : (str s).rename r = str s := rfl

@[simp] theorem rename_sym (name : String) : (sym name).rename r = sym name := rfl

@[simp] theorem rename_kw (name : String) : (kw name).rename r = kw name := rfl

/-! Views of a renamed value. -/

@[simp] theorem kind_rename (v : Value) : (v.rename r).kind = v.kind := by cases v <;> rfl

@[simp] theorem isTruthy_rename (v : Value) : (v.rename r).isTruthy = v.isTruthy := by
  cases v <;> rfl

@[simp] theorem isKey_rename (v : Value) : (v.rename r).isKey = v.isKey := by cases v <;> rfl

@[simp] theorem number?_rename (v : Value) : (v.rename r).number? = v.number? := by cases v <;> rfl

@[simp] theorem sym?_rename (v : Value) : (v.rename r).sym? = v.sym? := by cases v <;> rfl

@[simp] theorem seq?_rename (v : Value) :
    (v.rename r).seq? = v.seq?.map (List.map (rename r)) := by
  cases v with
  | list id items => rw [rename_list, seq?, seq?, Option.map_some]
  | vec id items => rw [rename_vec, seq?, seq?, Option.map_some]
  | _ => rfl

theorem identify_rename (id : Nat) (v : Value) :
    (v.rename r).identify (r.object id) = (v.identify id).rename r := by
  cases v with
  | list id' items => cases id' <;> simp [identify]
  | vec id' items => cases id' <;> simp [identify]
  | map id' entries => cases id' <;> simp [identify]
  | _ => rfl

/-! ## Equality -/

mutual

theorem same_rename : ∀ v w : Value, same (v.rename r) (w.rename r) = same v w
  | list i xs, w => by cases w <;> simp [same, rename, sameAll_rename xs]
  | vec i xs, w => by cases w <;> simp [same, rename, sameAll_rename xs]
  | map i xs, w => by cases w <;> simp [same, rename, sameEntries_rename xs]
  | closure ps a f l, w => by
    cases w <;> simp [same, rename, sameAll_rename ps, same_rename a]
  | nil, w => by cases w <;> rfl
  | bool _, w => by cases w <;> rfl
  | int _, w => by cases w <;> rfl
  | float _, w => by cases w <;> rfl
  | str _, w => by cases w <;> rfl
  | sym _, w => by cases w <;> rfl
  | kw _, w => by cases w <;> rfl
  | atom _, w => by cases w <;> rfl
  | builtin _, w => by cases w <;> rfl
  | host _ _, w => by cases w <;> rfl

theorem sameAll_rename : ∀ vs ws : List Value,
    sameAll (renameAll r vs) (renameAll r ws) = sameAll vs ws
  | [], ws => by cases ws <;> simp [sameAll, renameAll]
  | v :: vs, ws => by
    cases ws <;> simp [sameAll, renameAll, same_rename v, sameAll_rename vs]

theorem sameEntries_rename : ∀ xs ys : List (Value × Value),
    sameEntries (renameEntries r xs) (renameEntries r ys) = sameEntries xs ys
  | [], ys => by cases ys <;> simp [sameEntries, renameEntries]
  | (k, v) :: xs, ys => by
    cases ys <;>
      simp [sameEntries, renameEntries, same_rename k, same_rename v, sameEntries_rename xs]

end

theorem sameItems_rename (i j : ObjectId) (xs ys : List Value) :
    sameItems (i.map r.object) (j.map r.object) (renameAll r xs) (renameAll r ys) =
      sameItems i j xs ys := by
  simp [sameItems, withPtrEq, sameAll_rename]

theorem sameTable_rename (i j : ObjectId) (xs ys : List (Value × Value)) :
    sameTable (i.map r.object) (j.map r.object) (renameEntries r xs) (renameEntries r ys) =
      sameTable i j xs ys := by
  simp [sameTable, withPtrEq, sameEntries_rename]

mutual

theorem beq_rename : ∀ v w : Value, beq (v.rename r) (w.rename r) = beq v w
  | list i xs, w => by
    cases w <;> simp [beq, rename, sameItems_rename, beqAll_rename xs]
  | vec i xs, w => by
    cases w <;> simp [beq, rename, sameItems_rename, beqAll_rename xs]
  | map i xs, w => by
    cases w <;> simp [beq, rename, sameTable_rename, entriesIn_rename xs, length_renameEntries]
  | closure _ _ _ _, w => by cases w <;> simp [beq, rename]
  | nil, w => by cases w <;> simp [beq, rename]
  | bool _, w => by cases w <;> simp [beq, rename]
  | int _, w => by cases w <;> simp [beq, rename]
  | float _, w => by cases w <;> simp [beq, rename]
  | str _, w => by cases w <;> simp [beq, rename]
  | sym _, w => by cases w <;> simp [beq, rename]
  | kw _, w => by cases w <;> simp [beq, rename]
  | atom _, w => by cases w <;> simp [beq, rename]
  | builtin _, w => by cases w <;> simp [beq, rename]
  | host _ _, w => by cases w <;> simp [beq, rename]

theorem beqAll_rename : ∀ vs ws : List Value,
    beqAll (renameAll r vs) (renameAll r ws) = beqAll vs ws
  | [], ws => by cases ws <;> simp [beqAll, renameAll]
  | v :: vs, ws => by
    cases ws <;> simp [beqAll, renameAll, beq_rename v, beqAll_rename vs]

theorem entriesIn_rename : ∀ xs ahead ys : List (Value × Value),
    entriesIn (renameEntries r xs) (renameEntries r ahead) (renameEntries r ys) =
      entriesIn xs ahead ys
  | [], ahead, ys => by simp [entriesIn, renameEntries]
  | (k, v) :: xs, ahead, ys => by
    have htail : (renameEntries r ahead).tail = renameEntries r ahead.tail := by
      cases ahead <;> rfl
    have hsearched : (renameEntries r ahead).take 1 ++ renameEntries r ys =
        (ahead.take 1 ++ ys).map (Prod.map (rename r) (rename r)) := by
      simp [renameEntries_eq, Table.rename]
    have hkey : ((fun entry => beq (k.rename r) entry.1) ∘ Prod.map (rename r) (rename r)) =
        fun entry : Value × Value => beq k entry.1 := funext fun entry => beq_rename k entry.1
    rw [renameEntries, entriesIn, entriesIn, hsearched, List.find?_map, hkey, htail,
      entriesIn_rename xs]
    cases (ahead.take 1 ++ ys).find? fun entry => beq k entry.1 with
    | none => rfl
    | some entry => simp [beq_rename v]

end

/-! ## Texts -/

mutual

theorem render_rename (atomText : Style → Nat → String) : ∀ (style : Style) (v : Value),
    render atomText style (v.rename r) = render atomText style v
  | style, list id items => by simp [render, rename, renderAll_rename atomText style items]
  | style, vec id items => by simp [render, rename, renderAll_rename atomText style items]
  | style, map id entries => by simp [render, rename, renderEntries_rename atomText style entries]
  | _, nil => rfl
  | _, bool _ => rfl
  | _, int _ => rfl
  | _, float _ => rfl
  | _, str _ => rfl
  | _, sym _ => rfl
  | _, kw _ => rfl
  | _, atom _ => rfl
  | _, builtin _ => rfl
  | _, host _ _ => rfl
  | _, closure _ _ _ _ => rfl

theorem renderAll_rename (atomText : Style → Nat → String) : ∀ (style : Style) (vs : List Value),
    renderAll atomText style (renameAll r vs) = renderAll atomText style vs
  | _, [] => by simp [renderAll, renameAll]
  | style, v :: vs => by
    simp [renderAll, renameAll, render_rename atomText style v, renderAll_rename atomText style vs]

theorem renderEntries_rename (atomText : Style → Nat → String) :
    ∀ (style : Style) (entries : List (Value × Value)),
      renderEntries atomText style (renameEntries r entries) = renderEntries atomText style entries
  | _, [] => by simp [renderEntries, renameEntries]
  | style, (k, v) :: entries => by
    simp [renderEntries, renameEntries, render_rename atomText .readable k,
      render_rename atomText style v, renderEntries_rename atomText style entries]

end

theorem atomText_rename (cells : Array Value) (depth : Nat) (active : List Nat) :
    atomText (cells.map (rename r)) depth active = atomText cells depth active := by
  induction depth generalizing active with
  | zero => rfl
  | succ depth ih =>
    funext style id
    rw [atomText, atomText, Array.getElem?_map, ih]
    cases cells[id]? with
    | none => rfl
    | some contents => simp only [Option.map_some, render_rename]

theorem text_rename (cells : Array Value) (style : Style) (v : Value) :
    (v.rename r).text (cells.map (rename r)) style = v.text cells style := by
  rw [text, text, atomText_rename, render_rename, Array.size_map]

theorem joinedText_rename (cells : Array Value) (style : Style) (separator : String)
    (vs : List Value) :
    joinedText (cells.map (rename r)) style separator (vs.map (rename r)) =
      joinedText cells style separator vs := by
  rw [joinedText, joinedText, List.map_map]
  exact congrArg _ (List.map_congr_left fun v _ => text_rename r cells style v)

end

end Value

/-! ## Values that stay as they are -/

/-- Nothing within the extent is renamed. -/
structure Renaming.Fixes (r : Renaming) (x : Extent) : Prop where
  frame : ∀ f < x.frames, r.frame f = f
  object : ∀ i < x.objects, r.object i = i

theorem Renaming.fixes_empty (r : Renaming) : r.Fixes .empty :=
  ⟨fun _ h => absurd h (Nat.not_lt_zero _), fun _ h => absurd h (Nat.not_lt_zero _)⟩

theorem Renaming.fixes_id (x : Extent) : id.Fixes x :=
  ⟨fun _ _ => rfl, fun _ _ => rfl⟩

namespace Value

variable {r : Renaming} {x : Extent}

theorem objectId_map_eq_self (hr : r.Fixes x) {id : ObjectId} (h : ∀ i ∈ id, i < x.objects) :
    id.map r.object = id := by
  cases id with
  | none => rfl
  | some i => rw [Option.map_some, hr.object i (h i rfl)]

mutual

theorem rename_eq_self (hr : r.Fixes x) : ∀ v : Value, v.Sound x → v.rename r = v
  | list id items, h => by
    obtain ⟨hid, hitems⟩ := sound_list.mp h
    rw [rename, objectId_map_eq_self hr hid, renameAll_eq_self hr items hitems]
  | vec id items, h => by
    obtain ⟨hid, hitems⟩ := sound_vec.mp h
    rw [rename, objectId_map_eq_self hr hid, renameAll_eq_self hr items hitems]
  | map id entries, h => by
    obtain ⟨hid, -, hentries⟩ := sound_map.mp h
    rw [rename, objectId_map_eq_self hr hid, renameEntries_eq_self hr entries hentries]
  | closure params body scope isMacro, h => by
    obtain ⟨hscope, hbody, hparams⟩ := sound_closure.mp h
    rw [rename, renameAll_eq_self hr params hparams, rename_eq_self hr body hbody,
      hr.frame scope hscope]
  | nil, _ => rfl
  | bool _, _ => rfl
  | int _, _ => rfl
  | float _, _ => rfl
  | str _, _ => rfl
  | sym _, _ => rfl
  | kw _, _ => rfl
  | atom _, _ => rfl
  | builtin _, _ => rfl
  | host _ _, _ => rfl

theorem renameAll_eq_self (hr : r.Fixes x) : ∀ vs : List Value, (∀ v ∈ vs, v.Sound x) →
    renameAll r vs = vs
  | [], _ => rfl
  | v :: vs, h => by
    obtain ⟨hv, hvs⟩ := List.forall_mem_cons.mp h
    rw [renameAll, rename_eq_self hr v hv, renameAll_eq_self hr vs hvs]

theorem renameEntries_eq_self (hr : r.Fixes x) : ∀ entries : List (Value × Value),
    (∀ entry ∈ entries, entry.1.Sound x ∧ entry.2.Sound x) → renameEntries r entries = entries
  | [], _ => rfl
  | (k, v) :: entries, h => by
    obtain ⟨⟨hk, hv⟩, hentries⟩ := List.forall_mem_cons.mp h
    rw [renameEntries, rename_eq_self hr k hk, rename_eq_self hr v hv,
      renameEntries_eq_self hr entries hentries]

end

theorem map_rename_eq_self (hr : r.Fixes x) {vs : List Value} (h : ∀ v ∈ vs, v.Sound x) :
    vs.map (rename r) = vs := by
  rw [← renameAll_eq_map, renameAll_eq_self hr vs h]

end Value

/-! ## Errors and results -/

namespace Error

/-- The error with what it throws renamed. -/
def rename (r : Renaming) : Error → Error
  | .thrown v => .thrown (v.rename r)
  | e => e

theorem Plain.rename_eq {e : Error} (h : e.Plain) (r : Renaming) : e.rename r = e := by
  cases e with
  | thrown v => exact h.elim
  | _ => rfl

theorem payload_rename (r : Renaming) (e : Error) : (e.rename r).payload = e.payload.rename r := by
  cases e <;> simp only [rename, payload, Value.rename_str]

end Error

theorem Yields.map_eq_self {α : Type} {P : α → Prop} {res : Except Error α} (h : Yields P res)
    {f : α → α} (hf : ∀ a, P a → f a = a) : res.map f = res := by
  cases res with
  | ok a => exact congrArg _ (hf a h)
  | error e => rfl

/-- Results may be changed before or after they are renamed. -/
theorem except_map_comm {α β γ δ : Type} {res : Except Error α} {f : α → β} {g : β → δ} {f' : α → γ}
    {g' : γ → δ} (h : ∀ a, g (f a) = g' (f' a)) : (res.map f).map g = (res.map f').map g' := by
  cases res with
  | ok a => exact congrArg _ (h a)
  | error e => rfl

/-! ## Tables -/

namespace Table

open Value (beq_rename)

variable (r : Renaming)

theorem get?_rename (entries : Table) (key : Value) :
    (entries.rename r).get? (key.rename r) = (entries.get? key).map (Value.rename r) := by
  induction entries with
  | nil => rfl
  | cons entry entries ih =>
    rw [rename_cons, get?_cons, get?_cons, beq_rename, ih]
    split <;> rfl

theorem contains_rename (entries : Table) (key : Value) :
    (entries.rename r).contains (key.rename r) = entries.contains key := by
  induction entries with
  | nil => rfl
  | cons entry entries ih =>
    rw [contains] at ih
    rw [rename_cons, contains, contains, List.any_cons, List.any_cons, beq_rename, ih, contains]

theorem erase_rename (entries : Table) (key : Value) :
    (entries.rename r).erase (key.rename r) = (entries.erase key).rename r := by
  induction entries with
  | nil => rfl
  | cons entry entries ih =>
    rw [erase] at ih
    rw [rename_cons, erase, erase, List.filter_cons, List.filter_cons, beq_rename, ih, erase]
    split <;> rfl

theorem foldl_erase_rename (doomed : List Value) (entries : Table) :
    (doomed.map (Value.rename r)).foldl erase (entries.rename r) =
      (doomed.foldl erase entries).rename r := by
  induction doomed generalizing entries with
  | nil => rfl
  | cons key doomed ih => rw [List.map_cons, List.foldl_cons, List.foldl_cons, erase_rename, ih]

theorem inOrder_rename (k l : Value) : inOrder (k.rename r) (l.rename r) = inOrder k l := by
  cases k <;> cases l <;> rfl

theorem union_rename (xs ys : Table) :
    union (xs.rename r) (ys.rename r) = (union xs ys).rename r := by
  fun_induction union xs ys with
  | case1 ys => rw [rename_nil, union]
  | case2 xs hxs =>
    cases xs with
    | nil => exact absurd rfl hxs
    | cons x xs => rw [rename_nil, rename_cons, union]; exact List.cons_ne_nil _ _
  | case3 x xs y ys hkey ih =>
    rw [rename_cons, rename_cons, rename_cons, union, beq_rename, if_pos hkey, ih]
  | case4 x xs y ys hkey horder ih =>
    rw [rename_cons, rename_cons, rename_cons, union, beq_rename, if_neg hkey, inOrder_rename,
      if_pos horder, ← ih, rename_cons]
  | case5 x xs y ys hkey horder ih =>
    rw [rename_cons, rename_cons, rename_cons, union, beq_rename, if_neg hkey, inOrder_rename,
      if_neg horder, ← ih, rename_cons]

theorem ofEntries_rename (depth : Nat) (entries : Table) :
    ofEntries depth (entries.rename r) = (ofEntries depth entries).rename r := by
  induction depth generalizing entries with
  | zero =>
    have hfold : ∀ table : Table,
        (entries.rename r).foldl (fun table entry => insert entry.1 entry.2 table)
          (table.rename r) =
          rename r (entries.foldl (fun table entry => insert entry.1 entry.2 table) table) := by
      induction entries with
      | nil => exact fun _ => rfl
      | cons entry entries ih =>
        intro table
        rw [rename_cons, List.foldl_cons, List.foldl_cons, ← ih, insert, insert, ← union_rename]
        rfl
    exact hfold []
  | succ depth ih =>
    have htake : ∀ n, (entries.rename r).take n = rename r (entries.take n) :=
      fun n => List.map_take.symm
    have hdrop : ∀ n, (entries.rename r).drop n = rename r (entries.drop n) :=
      fun n => List.map_drop.symm
    rw [ofEntries, ofEntries, length_rename, htake, hdrop, ih, ih, union_rename]

theorem pairUp_rename (items : List Value) :
    pairUp (items.map (Value.rename r)) = (pairUp items).map (rename r) := by
  fun_induction pairUp items with
  | case1 => rfl
  | case2 v => rfl
  | case3 key value rest hkey ih =>
    rw [List.map_cons, List.map_cons, pairUp, Value.isKey_rename, if_pos hkey, ih]
    cases pairUp rest <;> rfl
  | case4 key value rest hkey =>
    rw [List.map_cons, List.map_cons, pairUp, Value.isKey_rename, if_neg hkey, Value.kind_rename]
    rfl

theorem insertPairs_rename (entries : Table) (items : List Value) :
    insertPairs (entries.rename r) (items.map (Value.rename r)) =
      (insertPairs entries items).map (rename r) := by
  rw [insertPairs, insertPairs, List.length_map, pairUp_rename]
  split
  · cases pairUp items with
    | error fault => rfl
    | ok added =>
      simp only [Except.map]
      rw [length_rename, ofEntries_rename, union_rename]
  · rfl

end Table

/-! ## Functions on values -/

section

variable (r : Renaming)

theorem Signature.mismatch_rename (s : Signature) (args : List Value) :
    s.mismatch (args.map (Value.rename r)) = s.mismatch args := by
  rw [mismatch, mismatch, List.length_map]

namespace Arithmetic

theorem integer_rename (v : Value) : integer (v.rename r) = integer v := by
  cases v <;> rfl

theorem steps_rename (op : Arithmetic) (acc : Int64) (args : List Value) :
    op.steps acc (args.map (Value.rename r)) = op.steps acc args := by
  induction args generalizing acc with
  | nil => rfl
  | cons arg args ih =>
    have hstep : op.step acc (arg.rename r) = op.step acc arg := by
      rw [step, step, integer_rename]
    rw [List.map_cons, steps, steps, hstep]
    split
    · rfl
    · exact ih _

theorem stepsFrom_rename (op : Arithmetic) (first : Value) (args : List Value) :
    op.stepsFrom (first.rename r) (args.map (Value.rename r)) = op.stepsFrom first args := by
  rw [stepsFrom, stepsFrom, integer_rename]
  split
  · rfl
  · exact steps_rename r op _ args

theorem run_rename (op : Arithmetic) (args : List Value) :
    op.run (args.map (Value.rename r)) = (op.run args).map (Value.rename r) := by
  rw [(yields_run op args).map_eq_self fun v => Value.rename_of_isScalar r]
  cases op with
  | add => exact steps_rename r .add 0 args
  | mul => exact steps_rename r .mul 1 args
  | sub =>
    rcases args with _ | ⟨first, _ | ⟨second, rest⟩⟩
    · rfl
    · rfl
    · exact stepsFrom_rename r .sub first (second :: rest)
  | div =>
    rcases args with _ | ⟨first, _ | ⟨second, rest⟩⟩
    · rfl
    · exact steps_rename r .div 1 [first]
    · exact stepsFrom_rename r .div first (second :: rest)

end Arithmetic

theorem Comparison.run_rename (op : Comparison) (args : List Value) :
    op.run (args.map (Value.rename r)) = (op.run args).map (Value.rename r) := by
  rw [(yields_run op args).map_eq_self fun v => Value.rename_of_isScalar r]
  have hordered : ∀ relation a b,
      ordered relation (a.rename r) (b.rename r) = ordered relation a b := by
    intro relation a b
    simp only [ordered, number, Value.number?_rename, Value.kind_rename]
  rcases args with _ | ⟨a, _ | ⟨b, _ | ⟨c, rest⟩⟩⟩
  · cases op <;> rfl
  · cases op <;> rfl
  · cases op with
    | equal => simp only [List.map_cons, List.map_nil, run, Value.beq_rename]
    | _ => exact hordered _ a b
  · cases op <;> simp [run, Signature.mismatch]

theorem Predicate.run_rename (op : Predicate) (args : List Value) :
    op.run (args.map (Value.rename r)) = (op.run args).map (Value.rename r) := by
  rw [(yields_run op args).map_eq_self fun v => Value.rename_of_isScalar r]
  have hholds : ∀ v : Value, op.holds (v.rename r) = op.holds v := by
    intro v
    cases op <;> cases v <;> rfl
  rcases args with _ | ⟨a, _ | ⟨b, rest⟩⟩
  · rfl
  · simp only [List.map_cons, List.map_nil, run, hholds]
  · simp [run, Signature.mismatch]

namespace SequenceOp

theorem elements_rename (function : String) (v : Value) :
    elements function (v.rename r) = (elements function v).map (List.map (Value.rename r)) := by
  cases v <;> simp [elements, Value.rename, Value.renameAll_eq_map, Except.map, Value.kind]

theorem size_rename (v : Value) : size (v.rename r) = size v := by
  cases v <;> simp [size, Value.rename, Value.renameAll_eq_map, Value.renameEntries_eq, Value.kind]

theorem concatAll_rename (args : List Value) :
    concatAll (args.map (Value.rename r)) = (concatAll args).map (List.map (Value.rename r)) := by
  induction args with
  | nil => rfl
  | cons arg args ih =>
    rw [List.map_cons, concatAll, concatAll, elements_rename, ih]
    cases elements "concat" arg with
    | error e => rfl
    | ok items => exact except_map_comm fun rest => (List.map_append).symm

theorem nthOf_rename (items : List Value) (index : Value) :
    nthOf (items.map (Value.rename r)) (index.rename r) =
      (nthOf items index).map (Value.rename r) := by
  cases index with
  | int i =>
    have hat : at? (items.map (Value.rename r)) i = (at? items i).map (Value.rename r) := by
      unfold at?
      split
      · rw [List.getElem?_map]
      · rfl
    rw [Value.rename_int, nthOf, nthOf, hat, List.length_map]
    cases at? items i <;> rfl
  | _ => rfl

theorem run_rename (op : SequenceOp) (args : List Value) :
    op.run (args.map (Value.rename r)) = (op.run args).map (Value.rename r) := by
  have hlist : ∀ items : List Value, Value.list none (items.map (Value.rename r)) =
      (Value.list none items).rename r := fun items => (Value.rename_list r none items).symm
  have hvec : ∀ items : List Value, Value.vec none (items.map (Value.rename r)) =
      (Value.vec none items).rename r := fun items => (Value.rename_vec r none items).symm
  have hconcat : concat.run (args.map (Value.rename r)) =
      (concat.run args).map (Value.rename r) := by
    rw [run, run, concatAll_rename]
    exact except_map_comm hlist
  rcases args with _ | ⟨a, _ | ⟨b, _ | ⟨c, rest⟩⟩⟩
  · cases op <;> rfl
  · cases op with
    | concat => exact hconcat
    | vec => cases a <;> simp [run, elements, Except.map, Value.rename, Value.renameAll_eq_map,
        Value.kind]
    | isEmpty =>
      rw [List.map_cons, List.map_nil, run, run, size_rename]
      cases size a <;> rfl
    | count =>
      rw [List.map_cons, List.map_nil, run, run, size_rename]
      cases size a <;> rfl
    | first =>
      rw [List.map_cons, List.map_nil, run, run, elements_rename]
      refine except_map_comm fun items => ?_
      cases items <;> rfl
    | rest =>
      rw [List.map_cons, List.map_nil, run, run, elements_rename]
      refine except_map_comm fun items => ?_
      rw [← hlist, List.map_tail]
    | _ => rfl
  · cases op with
    | concat => exact hconcat
    | cons =>
      rw [List.map_cons, List.map_cons, List.map_nil, run, run, elements_rename]
      exact except_map_comm fun items => hlist (a :: items)
    | nth =>
      rw [List.map_cons, List.map_cons, List.map_nil, run, run, elements_rename]
      cases elements "nth" a with
      | error e => rfl
      | ok items => exact nthOf_rename r items b
    | _ => simp [run, Signature.mismatch, Except.map]
  · cases op with
    | concat => exact hconcat
    | list => exact congrArg Except.ok (hlist (a :: b :: c :: rest))
    | vector => exact congrArg Except.ok (hvec (a :: b :: c :: rest))
    | _ => simp [run, Signature.mismatch, Except.map]

end SequenceOp

namespace TableOp

theorem entriesOf_rename (op : TableOp) (v : Value) :
    op.entriesOf (v.rename r) = (op.entriesOf v).map (Table.rename r) := by
  cases v with
  | map id entries => rw [Value.rename_map]; rfl
  | _ => rfl

theorem extend_rename (op : TableOp) (entries : Table) (pairs : List Value) :
    op.extend (entries.rename r) (pairs.map (Value.rename r)) =
      (op.extend entries pairs).map (Value.rename r) := by
  rw [extend, extend, Table.insertPairs_rename]
  cases Table.insertPairs entries pairs with
  | ok table => exact congrArg _ (Value.rename_map r none table).symm
  | error fault => cases fault <;> rfl

theorem run_rename (op : TableOp) (args : List Value) :
    op.run (args.map (Value.rename r)) = (op.run args).map (Value.rename r) := by
  have hassoc : ∀ m pairs, assoc.run ((m :: pairs).map (Value.rename r)) =
      (assoc.run (m :: pairs)).map (Value.rename r) := by
    intro m pairs
    rw [List.map_cons, run, run, entriesOf_rename]
    cases entriesOf assoc m with
    | error e => rfl
    | ok entries => exact extend_rename r assoc entries pairs
  have hdissoc : ∀ m doomed, dissoc.run ((m :: doomed).map (Value.rename r)) =
      (dissoc.run (m :: doomed)).map (Value.rename r) := by
    intro m doomed
    rw [List.map_cons, run, run, entriesOf_rename]
    refine except_map_comm fun entries => ?_
    rw [Value.rename_map, Table.foldl_erase_rename, Option.map_none]
  cases op with
  | hashMap => exact extend_rename r hashMap [] args
  | assoc =>
    cases args with
    | nil => rfl
    | cons m pairs => exact hassoc m pairs
  | dissoc =>
    cases args with
    | nil => rfl
    | cons m doomed => exact hdissoc m doomed
  | get =>
    rcases args with _ | ⟨m, _ | ⟨key, _ | ⟨c, rest⟩⟩⟩
    · rfl
    · simp [run, Signature.mismatch, Except.map]
    · cases m with
      | map id entries =>
        have hvalue : ((Table.get? entries key).map (Value.rename r)).getD .nil =
            ((Table.get? entries key).getD .nil).rename r := by
          cases Table.get? entries key <;> rfl
        simp [run, entriesOf, Except.map, Table.get?_rename, hvalue]
      | _ => rfl
    · simp [run, Signature.mismatch, Except.map]
  | contains =>
    rcases args with _ | ⟨m, _ | ⟨key, _ | ⟨c, rest⟩⟩⟩
    · rfl
    · rfl
    · rw [List.map_cons, List.map_cons, List.map_nil, run, run, entriesOf_rename]
      refine except_map_comm fun entries => ?_
      rw [Table.contains_rename, Value.rename_bool]
    · exact congrArg _ (Signature.mismatch_rename r _ (m :: key :: c :: rest))
  | keys =>
    rcases args with _ | ⟨m, _ | ⟨key, rest⟩⟩
    · rfl
    · rw [List.map_cons, List.map_nil, run, run, entriesOf_rename]
      refine except_map_comm fun entries => ?_
      simp [Table.rename]
    · exact congrArg _ (Signature.mismatch_rename r _ (m :: key :: rest))
  | vals =>
    rcases args with _ | ⟨m, _ | ⟨key, rest⟩⟩
    · rfl
    · rw [List.map_cons, List.map_nil, run, run, entriesOf_rename]
      refine except_map_comm fun entries => ?_
      simp [Table.rename]
    · exact congrArg _ (Signature.mismatch_rename r _ (m :: key :: rest))

end TableOp

namespace TextOp

theorem string_rename (v : Value) : string (v.rename r) = string v := by
  cases v <;> rfl

theorem run_rename (cells : Array Value) (op : TextOp) (args : List Value) :
    op.run (cells.map (Value.rename r)) (args.map (Value.rename r)) =
      (op.run cells args).map (Value.rename r) := by
  rw [(yields_run cells op args).map_eq_self fun v => Value.rename_eq_self r.fixes_empty v]
  cases op with
  | str => rw [run, run, Value.joinedText_rename]
  | prStr => rw [run, run, Value.joinedText_rename]
  | readString =>
    rcases args with _ | ⟨v, _ | ⟨w, rest⟩⟩
    · rfl
    · rw [List.map_cons, List.map_nil, run, run, string_rename]
    · simp [run, Signature.mismatch]
  | symbol =>
    rcases args with _ | ⟨v, _ | ⟨w, rest⟩⟩
    · rfl
    · cases v <;> rfl
    · simp [run, Signature.mismatch]
  | keyword =>
    rcases args with _ | ⟨v, _ | ⟨w, rest⟩⟩
    · rfl
    · cases v <;> rfl
    · simp [run, Signature.mismatch]

end TextOp

theorem CellOp.cellOf_rename (function : String) (v : Value) :
    cellOf function (v.rename r) = cellOf function v := by
  cases v <;> rfl

theorem ControlOp.spread_rename (arg : Value) (args : List Value) :
    spread (arg.rename r) (args.map (Value.rename r)) =
      (spread arg args).map (List.map (Value.rename r)) := by
  induction args generalizing arg with
  | nil => exact SequenceOp.elements_rename r "apply" arg
  | cons next rest ih =>
    rw [List.map_cons, spread, spread, ih]
    exact except_map_comm fun items => rfl

/-! ## Bindings -/

/-- The bindings with their values renamed. -/
def Bindings.rename (bindings : Bindings) : Bindings :=
  bindings.map fun binding => (binding.1, binding.2.rename r)

@[simp] theorem Bindings.rename_nil : Bindings.rename r [] = [] := rfl

@[simp] theorem Bindings.rename_cons (name : String) (v : Value) (bindings : Bindings) :
    Bindings.rename r ((name, v) :: bindings) = (name, v.rename r) :: bindings.rename r := rfl

theorem Bindings.set_rename (name : String) (v : Value) (bindings : Bindings) :
    Bindings.set name (v.rename r) (bindings.rename r) = (bindings.set name v).rename r := by
  induction bindings with
  | nil => rfl
  | cons binding rest ih =>
    obtain ⟨n, w⟩ := binding
    rw [rename_cons, set, set, ih]
    split <;> rfl

theorem Bindings.get?_rename (name : String) (bindings : Bindings) :
    (bindings.rename r).get? name = (bindings.get? name).map (Value.rename r) := by
  induction bindings with
  | nil => rfl
  | cons binding rest ih =>
    obtain ⟨n, w⟩ := binding
    rw [rename_cons, get?, get?, ih]
    split <;> rfl

namespace Params

theorem arity_rename (params : List Value) :
    arity (params.map (Value.rename r)) = arity params := by
  simp only [arity, List.findIdx?_map, List.length_map, Function.comp_def, Value.sym?_rename]

theorem head?_sym?_rename (params : List Value) :
    (params.map (Value.rename r)).head?.bind Value.sym? = params.head?.bind Value.sym? := by
  cases params with
  | nil => rfl
  | cons param params => exact Value.sym?_rename r param

theorem bindFrom_rename (shortage : Error) (restId : ObjectId) (bound : Bindings)
    (params args : List Value) :
    bindFrom shortage (restId.map r.object) (bound.rename r) (params.map (Value.rename r))
        (args.map (Value.rename r)) =
      (bindFrom shortage restId bound params args).map (Bindings.rename r) := by
  induction params generalizing bound args with
  | nil => rfl
  | cons param params ih =>
    rw [List.map_cons, bindFrom.eq_def, bindFrom.eq_def shortage restId]
    dsimp only
    rw [Value.sym?_rename, Value.kind_rename, head?_sym?_rename]
    split
    · rfl
    · split
      · rw [← Value.rename_list, Bindings.set_rename]
        rfl
      · rfl
    · cases args with
      | nil => rfl
      | cons arg args =>
        rw [List.map_cons]
        dsimp only
        rw [Bindings.set_rename]
        exact ih _ args

theorem bind_rename (restId : ObjectId) (params args : List Value) :
    bind (restId.map r.object) (params.map (Value.rename r)) (args.map (Value.rename r)) =
      (bind restId params args).map (Bindings.rename r) := by
  rw [bind, bind, arity_rename, List.length_map]
  exact bindFrom_rename r _ restId [] params args

theorem check_rename (params : List Value) :
    check (params.map (Value.rename r)) = check params := by
  induction params with
  | nil => rfl
  | cons param params ih =>
    rw [List.map_cons, check, check, Value.sym?_rename, Value.kind_rename, head?_sym?_rename, ih,
      List.length_map]

end Params

/-! ## Code -/

namespace Template

theorem unquoted?_rename (items : List Value) :
    unquoted? (items.map (Value.rename r)) = (unquoted? items).map (Value.rename r) := by
  rcases items with _ | ⟨head, _ | ⟨code, _ | ⟨extra, rest⟩⟩⟩
  · rfl
  · cases head <;> rfl
  · cases head with
    | sym name =>
      simp only [List.map_cons, List.map_nil, Value.rename_sym, unquoted?]
      split <;> rfl
    | _ => rfl
  · cases head <;> rfl

theorem spliced?_rename (v : Value) :
    spliced? (v.rename r) = (spliced? v).map (List.map (Value.rename r)) := by
  cases v with
  | list id items =>
    cases items with
    | nil => rfl
    | cons head operands =>
      cases head with
      | sym name =>
        simp only [Value.rename_list, List.map_cons, Value.rename_sym, spliced?]
        split <;> rfl
      | _ => rfl
  | _ => rfl

mutual

theorem expand_rename : ∀ template : Value,
    expand (template.rename r) = (expand template).map (Value.rename r)
  | .list id items => by
    rw [Value.rename_list, expand, expand, expandList_rename items id]
  | .map id entries => by
    rw [Value.rename_map, expand, expand]
    simp [quoted, Except.map]
  | .vec id items => by simp [expand, Except.map]
  | .closure params body scope isMacro => by simp [expand, Except.map]
  | .sym _ => rfl
  | .nil => rfl
  | .bool _ => rfl
  | .int _ => rfl
  | .float _ => rfl
  | .str _ => rfl
  | .kw _ => rfl
  | .atom _ => rfl
  | .builtin _ => rfl
  | .host _ _ => rfl

theorem expandList_rename : ∀ (items : List Value) (id : ObjectId),
    expandList (id.map r.object) (items.map (Value.rename r)) =
      (expandList id items).map (Value.rename r)
  | [], id => by
    rw [List.map_nil, expandList, expandList]
    simp [Except.map]
  | head :: tail, id => by
    have htail := expandList_rename tail none
    rw [Option.map_none] at htail
    have hwhole := unquoted?_rename r (head :: tail)
    rw [List.map_cons] at hwhole
    rw [List.map_cons, expandList, expandList, hwhole, htail, spliced?_rename, expand_rename head]
    cases unquoted? (head :: tail) with
    | some code => rfl
    | none =>
      cases expandList none tail with
      | error e => rfl
      | ok rest =>
        cases spliced? head with
        | none =>
          refine except_map_comm fun first => ?_
          simp
        | some operands =>
          cases operands with
          | nil => rfl
          | cons code others => simp [Except.map]

end

end Template

namespace Step

theorem boundName_rename (form : String) (v : Value) :
    boundName form (v.rename r) = boundName form v := by
  rw [boundName, boundName, Value.sym?_rename, Value.kind_rename]

theorem letBindings_rename (v : Value) :
    letBindings (v.rename r) = (letBindings v).map (List.map (Value.rename r)) := by
  rw [letBindings, letBindings, Value.seq?_rename, Value.kind_rename]
  cases v.seq? with
  | none => rfl
  | some items =>
    simp only [Option.map_some, List.length_map]
    split <;> rfl

theorem parameters_rename (v : Value) :
    parameters (v.rename r) = (parameters v).map (List.map (Value.rename r)) := by
  rw [parameters, parameters, Value.seq?_rename, Value.kind_rename]
  cases v.seq? with
  | none => rfl
  | some params =>
    simp only [Option.map_some, Params.check_rename]
    cases Params.check params <;> rfl

theorem catchClause_rename (v : Value) :
    catchClause (v.rename r) =
      (catchClause v).map fun clause => (clause.1, clause.2.rename r) := by
  cases v with
  | list id items =>
    cases items with
    | nil => rfl
    | cons head operands =>
      cases head with
      | sym name =>
        simp only [Value.rename_list, List.map_cons, Value.rename_sym, catchClause]
        split
        · rcases operands with _ | ⟨target, _ | ⟨handler, _ | ⟨extra, rest⟩⟩⟩
          · rfl
          · rfl
          · simp only [List.map_cons, List.map_nil, boundName_rename]
            cases boundName "catch*" target <;> rfl
          · simp [Except.map]
        · rfl
      | _ => rfl
  | _ => rfl

theorem asMacro_rename (v : Value) :
    asMacro (v.rename r) = (asMacro v).map (Value.rename r) := by
  cases v with
  | closure params body scope isMacro => simp [asMacro, Except.map]
  | _ => rfl

end Step

end

end Lisp
