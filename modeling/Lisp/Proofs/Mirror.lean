import Lisp.Proofs.Copy
import Lisp.Proofs.Tracking

/-!
# Runs on copies

All actions keep states sound and keep a copy of the state a copy, and all the steps of evaluation
do if the evaluators they are given do. So what is shown here holds of every run as soon as it is
shown where evaluators are made: that states stay sound, and that the names of frames and objects do
not matter.
-/

namespace Lisp

/-! ## What runs pass on -/

/-- When the members of a type are sound, and how they are renamed. -/
structure Shape (α : Type) where
  sound : Extent → α → Prop
  rename : Renaming → α → α
  mono {x y : Extent} {a : α} : x ≤ y → sound x a → sound y a

namespace Shape

/-- Data that name nothing. -/
abbrev plain (α : Type) : Shape α := ⟨fun _ _ => True, fun _ a => a, fun _ h => h⟩

abbrev value : Shape Value :=
  ⟨fun x v => v.Sound x, fun r v => v.rename r, fun hxy hv => hv.mono hxy⟩

abbrev values : Shape (List Value) :=
  ⟨fun x vs => ∀ v ∈ vs, v.Sound x, fun r vs => vs.map (Value.rename r),
    fun hxy hvs v hv => (hvs v hv).mono hxy⟩

/-- Sound values under given keys. -/
abbrev entries (keys : List Value) : Shape Table :=
  ⟨fun x es => es.map Prod.fst = keys ∧ ∀ e ∈ es, e.2.Sound x, fun r es => es.rename r,
    fun hxy hes => ⟨hes.1, fun e he => (hes.2 e he).mono hxy⟩⟩

abbrev frame : Shape FrameId :=
  ⟨fun x f => f < x.frames, fun r f => r.frame f, fun hxy hf => Nat.lt_of_lt_of_le hf hxy.frames⟩

abbrev cell : Shape Nat :=
  ⟨fun x id => id < x.cells, fun _ id => id, fun hxy hid => Nat.lt_of_lt_of_le hid hxy.cells⟩

/-- The name and the handler of a clause. -/
abbrev clause : Shape (String × Value) :=
  ⟨fun x c => c.2.Sound x, fun r c => (c.1, c.2.rename r), fun hxy hc => hc.mono hxy⟩

end Shape

/-- A step with sound code in a frame that exists. -/
def Step.Sound (x : Extent) : Step → Prop
  | .done v => v.Sound x
  | .tail code scope => code.Sound x ∧ scope < x.frames

def Step.rename (r : Renaming) : Step → Step
  | .done v => .done (v.rename r)
  | .tail code scope => .tail (code.rename r) (r.frame scope)

theorem Step.Sound.mono {x y : Extent} (hxy : x ≤ y) {step : Step} (h : step.Sound x) :
    step.Sound y := by
  cases step with
  | done v => exact Value.Sound.mono h hxy
  | tail code scope => exact ⟨h.1.mono hxy, Nat.lt_of_lt_of_le h.2 hxy.frames⟩

abbrev Shape.step : Shape Step := ⟨Step.Sound, Step.rename, fun hxy h => h.mono hxy⟩

/-! ## Outcomes -/

/-- The outcomes of two runs from a state of extent `x`: they are the same but for names, in a state
that has grown and its copy, unless the second run gives up. -/
inductive Outcome.Mirrors (S : Pairing) {α : Type} (s : Shape α) (x : Extent) :
    Outcome α → Outcome α → Prop
  | ok {a : α} {m n : Machine} : x ≤ m.extent → m.Copied S n → s.sound m.extent a →
      Mirrors S s x (.ok a m) (.ok (s.rename S.names a) n)
  | error {e : Error} {m n : Machine} : x ≤ m.extent → m.Copied S n → e.Sound m.extent →
      Mirrors S s x (.error e m) (.error (e.rename S.names) n)
  | paused {p : Pause} : Mirrors S s x (.paused p) (.paused p)
  | gaveUp {p : Pause} {o : Outcome α} : S.gives p → Mirrors S s x o (.paused p)

theorem Outcome.Mirrors.weaken {S : Pairing} {α : Type} {s : Shape α} {x y : Extent}
    {o o' : Outcome α} (h : o.Mirrors S s y o') (hxy : x ≤ y) : o.Mirrors S s x o' := by
  cases h with
  | ok hle hmn ha => exact .ok (Extent.le_trans hxy hle) hmn ha
  | error hle hmn he => exact .error (Extent.le_trans hxy hle) hmn he
  | paused => exact .paused
  | gaveUp hp => exact .gaveUp hp

/-- From every state that has at least the extent `x` and every copy of it, the two actions have
outcomes that mirror each other. -/
def Action.Mirrors (S : Pairing) {α : Type} (s : Shape α) (x : Extent) (a b : Action α) : Prop :=
  ∀ m n, x ≤ m.extent → m.Copied S n → (a m).Mirrors S s m.extent (b n)

section

variable {S : Pairing}

namespace Action

/-! ## Sequencing -/

namespace Mirrors

variable {α β : Type} {s : Shape α} {t : Shape β} {x : Extent} {a b : Action α}

theorem pure {u : α} (hu : s.sound x u) :
    Mirrors S s x (Pure.pure u) (Pure.pure (s.rename S.names u)) :=
  fun _ _ hle hmn => .ok (Extent.le_refl _) hmn (s.mono hle hu)

theorem fail {e : Error} (he : e.Sound x) :
    Mirrors S s x (Action.fail e) (Action.fail (e.rename S.names)) :=
  fun _ _ hle hmn => .error (Extent.le_refl _) hmn (he.mono hle)

theorem fail_plain {e : Error} (he : e.Plain) :
    Mirrors S s x (Action.fail e) (Action.fail e) := by
  have h := fail (S := S) (s := s) (x := x) he.sound
  rwa [he.rename_eq] at h

theorem pause (p : Pause) : Mirrors S s x (Action.pause p) (Action.pause p) :=
  fun _ _ _ _ => .paused

theorem ofExcept {res res' : Except Error α} (h : Yields (s.sound x) res)
    (hres : res' = res.map (s.rename S.names)) :
    Mirrors S s x (Action.ofExcept res) (Action.ofExcept res') := by
  subst hres
  cases res with
  | ok u => exact pure h
  | error e => exact fail_plain h

/-- Data that name nothing are the same in both runs. -/
theorem ofExcept_self {res res' : Except Error α} (h : Yields (s.sound x) res) (hres : res' = res)
    (hs : ∀ u, s.rename S.names u = u) :
    Mirrors S s x (Action.ofExcept res) (Action.ofExcept res') := by
  refine ofExcept h ?_
  rw [hres, h.map_eq_self fun u _ => hs u]

theorem bind {f g : α → Action β} (hab : Mirrors S s x a b)
    (hfg : ∀ y, x ≤ y → ∀ u, s.sound y u → Mirrors S t y (f u) (g (s.rename S.names u))) :
    Mirrors S t x (a >>= f) (b >>= g) := by
  intro m n hle hmn
  have h := hab m n hle hmn
  rw [bind_apply, bind_apply]
  generalize a m = o, b n = o' at h ⊢
  cases h with
  | @ok u m' n' hle' hmn' hu =>
    exact (hfg m'.extent (Extent.le_trans hle hle') u hu m' n' (Extent.le_refl _) hmn').weaken hle'
  | error hle' hmn' he => exact .error hle' hmn' he
  | paused => exact .paused
  | gaveUp hp => exact .gaveUp hp

theorem attempt {f g : Except Error α → Action β} (hab : Mirrors S s x a b)
    (hok : ∀ y, x ≤ y → ∀ u, s.sound y u →
      Mirrors S t y (f (.ok u)) (g (.ok (s.rename S.names u))))
    (herror : ∀ y, x ≤ y → ∀ e : Error, e.Sound y →
      Mirrors S t y (f (.error e)) (g (.error (e.rename S.names)))) :
    Mirrors S t x (Action.attempt a f) (Action.attempt b g) := by
  intro m n hle hmn
  have h := hab m n hle hmn
  unfold Action.attempt
  generalize a m = o, b n = o' at h ⊢
  cases h with
  | @ok u m' n' hle' hmn' hu =>
    exact (hok m'.extent (Extent.le_trans hle hle') u hu m' n' (Extent.le_refl _) hmn').weaken hle'
  | @error e m' n' hle' hmn' he =>
    exact (herror m'.extent (Extent.le_trans hle hle') e he m' n'
      (Extent.le_refl _) hmn').weaken hle'
  | paused => exact .paused
  | gaveUp hp => exact .gaveUp hp

/-- Below the limit, runs one level deeper are enough. -/
theorem nested_of_le (hab : Mirrors S.deeper s x a b) {m n : Machine} (hle : x ≤ m.extent)
    (hmn : m.Copied S n) (hm : m.depth + 1 ≤ m.depthLimit) (hn : n.depth + 1 ≤ n.depthLimit) :
    (Action.nested a m).Mirrors S s m.extent (Action.nested b n) := by
  have h := hab { m with depth := m.depth + 1 } { n with depth := n.depth + 1 } hle hmn.deeper
  unfold Action.nested
  rw [if_neg (Nat.not_lt.mpr hm), if_neg (Nat.not_lt.mpr hn)]
  generalize a _ = o, b _ = o' at h ⊢
  cases h with
  | ok hle' hmn' hu => exact .ok hle' hmn'.shallower hu
  | error hle' hmn' he => exact .error hle' hmn'.shallower he
  | paused => exact .paused
  | gaveUp hp => exact .gaveUp hp

/-- Runs at the same depth reach the limit together. -/
theorem nested (hlift : S.lift = 0) (hab : Mirrors S.deeper s x a b) :
    Mirrors S s x (Action.nested a) (Action.nested b) := by
  intro m n hle hmn
  have hdepth : n.depth = m.depth := by rw [hmn.lift, hmn.depth, hlift, Nat.add_zero]
  have hlimit : n.depthLimit = m.depthLimit := hmn.limit_copy.trans hmn.limit.symm
  by_cases hdeep : m.depth + 1 ≤ m.depthLimit
  · exact nested_of_le hab hle hmn hdeep (hdepth ▸ hlimit ▸ hdeep)
  · unfold Action.nested
    rw [hdepth, hlimit, if_pos (Nat.not_le.mp hdeep), if_pos (Nat.not_le.mp hdeep)]
    exact fail_plain (e := .eval .recursionLimit) (by trivial) m n hle hmn

end Mirrors

/-! ## Actions on the state -/

section

variable {x : Extent}

theorem mirrors_lookup {f : FrameId} (hf : f < x.frames) (name : String) :
    Mirrors S .value x (lookup f name) (lookup (S.names.frame f) name) := by
  intro m n hle hmn
  have hfound := hmn.get? (Nat.lt_of_lt_of_le hf hle.frames) name
  unfold lookup
  rw [Frames.lookup, Frames.lookup, hfound]
  refine Mirrors.ofExcept (x := m.extent) ?_ ?_ m n (Extent.le_refl _) hmn
  · cases hv : m.frames.get? f name with
    | none => trivial
    | some v => exact hmn.sound.find? hv
  · cases m.frames.get? f name <;> rfl

theorem mirrors_define (f : FrameId) (name : String) {v : Value}
    (hv : v.Sound x) :
    Mirrors S (.plain Unit) x (define f name v)
      (define (S.names.frame f) name (v.rename S.names)) := by
  intro m n hle hmn
  refine .ok ?_ (hmn.define f name (hv.mono hle)) trivial
  rw [m.extent_define]
  exact Extent.le_refl _

theorem mirrors_enter {parent : FrameId} (hparent : parent < x.frames) {bindings : Bindings}
    (hbindings : bindings.Sound x) :
    Mirrors S .frame x (enter parent bindings)
      (enter (S.names.frame parent) (bindings.rename S.names)) := by
  intro m n hle hmn
  have hentered := hmn.enter (Nat.lt_of_lt_of_le hparent hle.frames) (hbindings.mono hle)
  unfold enter
  rw [← hmn.frames_size]
  exact .ok (m.le_enter _) hentered (by simp [Machine.extent])

theorem mirrors_enterCall {scope : FrameId} (hscope : scope < x.frames) (params : List Value)
    {args : List Value} (hargs : ∀ a ∈ args, a.Sound x) :
    Mirrors S .frame x (enterCall scope params args)
      (enterCall (S.names.frame scope) (params.map (Value.rename S.names))
        (args.map (Value.rename S.names))) := by
  intro m n hle hmn
  have hle' := Extent.le_trans hle m.le_newObject
  have hid : ∀ i ∈ some m.objects, i < m.objects + 1 := by simp
  have hyields := Params.yields_bind (x := Machine.extent { m with objects := m.objects + 1 }) hid
    params fun a ha => (hargs a ha).mono hle'
  have hbind := Params.bind_rename S.names (some m.objects) params args
  rw [Option.map_some, hmn.objects] at hbind
  unfold enterCall
  rw [hbind]
  cases hbound : Params.bind (some m.objects) params args with
  | error e =>
    rw [hbound] at hyields
    exact Mirrors.fail_plain hyields m n hle hmn
  | ok bindings =>
    rw [hbound] at hyields
    have henter := mirrors_enter (S := S) (Nat.lt_of_lt_of_le hscope hle'.frames) hyields _ _
      (Extent.le_refl _) hmn.newObject
    exact henter.weaken m.le_newObject

theorem mirrors_root : Mirrors S .frame x root root := by
  intro m n hle hmn
  unfold root
  rw [hmn.root]
  cases hroot : m.root with
  | none => exact Mirrors.fail_plain (by trivial) m n hle hmn
  | some f => exact .ok (Extent.le_refl _) hmn (hmn.sound.root f hroot)

theorem mirrors_make {v : Value} (hv : v.Sound x) :
    Mirrors S .value x (make v) (make (v.rename S.names)) := by
  intro m n hle hmn
  have hmade : (v.rename S.names).identify n.objects = (v.identify m.objects).rename S.names := by
    rw [← hmn.objects, Value.identify_rename]
  unfold make
  rw [hmade]
  exact .ok m.le_newObject hmn.newObject
    (hv.identify (Extent.le_trans hle m.le_newObject) (Nat.lt_succ_self _))

theorem mirrors_makeList {items : List Value} (h : ∀ item ∈ items, item.Sound x) :
    Mirrors S .value x (make (.list none items))
      (make (.list none (items.map (Value.rename S.names)))) := by
  have hlist : (Value.list none items).Sound x := Value.sound_list_none.mpr h
  have hmake := mirrors_make (S := S) hlist
  rwa [Value.rename_list] at hmake

theorem mirrors_newCell {v : Value} (hv : v.Sound x) :
    Mirrors S .cell x (newCell v) (newCell (v.rename S.names)) := by
  intro m n hle hmn
  unfold newCell
  rw [hmn.cells_size]
  exact .ok (m.le_newCell v) (hmn.newCell (hv.mono hle)) (by simp [Machine.extent])

theorem mirrors_readCell {id : Nat} (hid : id < x.cells) :
    Mirrors S .value x (readCell id) (readCell id) := by
  intro m n hle hmn
  obtain ⟨v, hcell⟩ : ∃ v, m.cells[id]? = some v :=
    ⟨_, Array.getElem?_eq_getElem (Nat.lt_of_lt_of_le hid hle.cells)⟩
  unfold readCell
  rw [hmn.cells, Array.getElem?_map, hcell]
  exact .ok (Extent.le_refl _) hmn (hmn.sound.cells _ (Array.mem_of_getElem? hcell))

theorem mirrors_writeCell {id : Nat} (hid : id < x.cells) {v : Value} (hv : v.Sound x) :
    Mirrors S .value x (writeCell id v) (writeCell id (v.rename S.names)) := by
  intro m n hle hmn
  have hlt : id < m.cells.size := Nat.lt_of_lt_of_le hid hle.cells
  have hextent := m.extent_writeCell id v
  unfold writeCell
  rw [if_pos hlt, if_pos (hmn.cells_size ▸ hlt)]
  refine .ok ?_ (hmn.writeCell id (hv.mono hle)) ?_
  · rw [hextent]
    exact Extent.le_refl _
  · rw [hextent]
    exact hv.mono hle

theorem mirrors_textOf (style : Style) (v : Value) :
    Mirrors S (.plain String) x (textOf style v) (textOf style (v.rename S.names)) := by
  intro m n _ hmn
  unfold textOf
  rw [hmn.cells, Value.text_rename]
  exact .ok (Extent.le_refl _) hmn trivial

theorem mirrors_write (text : String) : Mirrors S (.plain Unit) x (write text) (write text) := by
  intro m n _ hmn
  simp only [write, modify, hmn.world]
  exact .ok (Extent.le_refl _) (hmn.outside _) trivial

theorem mirrors_nextLine : Mirrors S (.plain _) x nextLine nextLine := by
  intro m n _ hmn
  unfold nextLine
  rw [hmn.world]
  split
  · exact .paused
  · exact .ok (Extent.le_refl _) hmn trivial
  · dsimp only
    split
    · exact .ok (Extent.le_refl _) (hmn.outside _) trivial
    · exact .ok (Extent.le_refl _) (hmn.outside _) trivial

theorem mirrors_readFile (reader path : String) :
    Mirrors S (.plain String) x (readFile reader path) (readFile reader path) := by
  intro m n hle hmn
  unfold readFile
  rw [hmn.world]
  split
  · exact .paused
  · exact .ok (Extent.le_refl _) hmn trivial
  · exact Mirrors.fail_plain (by trivial) m n hle hmn

end

end Action

/-! ## Builtin functions -/

section

variable {x : Extent}

theorem Signature.mirrors_mismatch {α : Type} {s : Shape α} (sig : Signature) (args : List Value) :
    Action.Mirrors S s x (Action.fail (sig.mismatch args))
      (Action.fail (sig.mismatch (args.map (Value.rename S.names)))) := by
  rw [mismatch_rename]
  exact .fail_plain (by trivial)

theorem CellOp.mirrors_cellOf (function : String) {v : Value} (hv : v.Sound x) :
    Action.Mirrors S .cell x (Action.ofExcept (cellOf function v))
      (Action.ofExcept (cellOf function (v.rename S.names))) :=
  .ofExcept_self (yields_cellOf function hv) (cellOf_rename S.names function v) fun _ => rfl

theorem CellOp.mirrors_run (op : CellOp) {args : List Value} (hargs : ∀ a ∈ args, a.Sound x) :
    Action.Mirrors S .value x (op.run args) (op.run (args.map (Value.rename S.names))) := by
  rcases args with _ | ⟨v, _ | ⟨w, _ | ⟨u, rest⟩⟩⟩
  · cases op <;> exact Signature.mirrors_mismatch _ []
  · have hv : v.Sound x := hargs v List.mem_cons_self
    cases op with
    | atom =>
      refine .bind (Action.mirrors_newCell hv) fun y _ id hid => ?_
      exact .pure (s := .value) (Value.sound_atom.mpr hid)
    | deref =>
      exact .bind (mirrors_cellOf "deref" hv) fun y _ id hid => Action.mirrors_readCell hid
    | reset => exact Signature.mirrors_mismatch _ [v]
  · have hv : v.Sound x := hargs v List.mem_cons_self
    have hw : w.Sound x := hargs w (by simp)
    cases op with
    | reset =>
      exact .bind (mirrors_cellOf "reset!" hv) fun y hy id hid =>
        Action.mirrors_writeCell hid (hw.mono hy)
    | _ => exact Signature.mirrors_mismatch _ [v, w]
  · cases op <;> exact Signature.mirrors_mismatch _ (v :: w :: u :: rest)

namespace ConsoleOp

theorem mirrors_printLine (style : Style) (args : List Value) :
    Action.Mirrors S .value x (printLine style args)
      (printLine style (args.map (Value.rename S.names))) := by
  intro m n hle hmn
  have hwrite : Action.Mirrors S .value x
      (Action.write (Value.joinedText m.cells style " " args ++ "\n") >>= fun _ => pure .nil)
      (Action.write (Value.joinedText m.cells style " " args ++ "\n") >>= fun _ => pure .nil) :=
    .bind (Action.mirrors_write _) fun y _ _ _ => .pure (s := .value) (Value.sound_of_isScalar rfl)
  have htext : printLine style (args.map (Value.rename S.names)) n =
      (Action.write (Value.joinedText m.cells style " " args ++ "\n") >>= fun _ =>
        pure Value.nil) n := by
    rw [← Value.joinedText_rename S.names, ← hmn.cells]
    rfl
  rw [htext]
  exact hwrite m n hle hmn

theorem mirrors_promptLine (prompt : String) :
    Action.Mirrors S .value x (promptLine prompt) (promptLine prompt) := by
  refine .bind (Action.mirrors_write prompt) fun y _ _ _ => ?_
  refine .bind Action.mirrors_nextLine fun z _ line _ => ?_
  rcases line with _ | (fault | text)
  · exact .pure (s := .value) (Value.sound_of_isScalar rfl)
  · exact .fail_plain (by trivial)
  · exact .pure (s := .value) (Value.sound_of_isScalar rfl)

theorem mirrors_string (v : Value) :
    Action.Mirrors S (.plain String) x (Action.ofExcept (TextOp.string v))
      (Action.ofExcept (TextOp.string (v.rename S.names))) := by
  refine .ofExcept_self ?_ (TextOp.string_rename S.names v) fun _ => rfl
  cases v <;> trivial

theorem mirrors_run (op : ConsoleOp) (args : List Value) :
    Action.Mirrors S .value x (op.run args) (op.run (args.map (Value.rename S.names))) := by
  have hscalar : ∀ {y} {v : Value}, v.isScalar = true → Shape.value.sound y v :=
    fun h => Value.sound_of_isScalar h
  rcases args with _ | ⟨v, _ | ⟨w, rest⟩⟩
  · cases op with
    | prn => exact mirrors_printLine .readable []
    | println => exact mirrors_printLine .display []
    | timeMs =>
      intro m n hle hmn
      have hclock : timeMs.run [] n = .ok (.int m.world.clock) n := by
        rw [← hmn.world]
        rfl
      rw [List.map_nil, hclock]
      exact .ok (a := Value.int m.world.clock) (Extent.le_refl _) hmn (hscalar rfl)
    | _ => exact Signature.mirrors_mismatch _ []
  · cases op with
    | prn => exact mirrors_printLine .readable [v]
    | println => exact mirrors_printLine .display [v]
    | slurp =>
      refine .bind (mirrors_string v) fun y _ path _ => ?_
      refine .bind (Action.mirrors_readFile "slurp" path) fun z _ content _ => ?_
      exact .pure (s := .value) (hscalar rfl)
    | readline => exact .bind (mirrors_string v) fun y _ prompt _ => mirrors_promptLine prompt
    | timeMs => exact Signature.mirrors_mismatch _ [v]
  · cases op with
    | prn => exact mirrors_printLine .readable (v :: w :: rest)
    | println => exact mirrors_printLine .display (v :: w :: rest)
    | _ => exact Signature.mirrors_mismatch _ (v :: w :: rest)

end ConsoleOp

theorem Step.mirrors_callHost (name : String) (id : Nat) {args : List Value}
    (hargs : ∀ a ∈ args, a.Sound x) :
    Action.Mirrors S .value x (callHost name id args)
      (callHost name id (args.map (Value.rename S.names))) := by
  intro m n hle hmn
  unfold callHost
  rw [hmn.hosts]
  cases hhost : m.hosts[id]? with
  | none => exact Action.Mirrors.fail_plain (by trivial) m n hle hmn
  | some f =>
    have hf := hmn.sound.hosts f (Array.mem_of_getElem? hhost)
    dsimp only
    rw [hf.rename]
    cases hres : f args with
    | ok v => exact Action.Mirrors.pure (s := .value) (hf.ok hargs hres) m n hle hmn
    | error e => exact Action.Mirrors.fail (hf.error hargs hres) m n hle hmn

end

/-! ## Evaluators -/

/-- Whatever sound code one evaluator evaluates and whatever it calls, the other one does the same
with it renamed. -/
structure Evaluator.Mirrors (S : Pairing) (ev ev' : Evaluator) : Prop where
  eval {x : Extent} {code : Value} {scope : FrameId} : code.Sound x → scope < x.frames →
    Action.Mirrors S .value x (ev.eval code scope)
      (ev'.eval (code.rename S.names) (S.names.frame scope))
  call {x : Extent} {f : Value} {args : List Value} : f.Sound x → (∀ a ∈ args, a.Sound x) →
    Action.Mirrors S .value x (ev.call f args)
      (ev'.call (f.rename S.names) (args.map (Value.rename S.names)))

section

variable {ev ev' : Evaluator} (hev : Evaluator.Mirrors S ev ev')
include hev

theorem ControlOp.mirrors_mapCall {x : Extent} {f : Value} (hf : f.Sound x) {items : List Value}
    (hitems : ∀ item ∈ items, item.Sound x) :
    Action.Mirrors S .values x (mapCall ev f items)
      (mapCall ev' (f.rename S.names) (items.map (Value.rename S.names))) := by
  induction items generalizing x with
  | nil => exact .pure (s := .values) (List.forall_mem_nil _)
  | cons item rest ih =>
    obtain ⟨hitem, hrest⟩ := List.forall_mem_cons.mp hitems
    refine .bind (hev.call hf (List.forall_mem_singleton.mpr hitem)) fun y hy v hv => ?_
    refine .bind (ih (hf.mono hy) (Shape.values.mono hy hrest)) fun z hz vs hvs => ?_
    exact .pure (s := .values) (List.forall_mem_cons.mpr ⟨hv.mono hz, hvs⟩)

theorem Step.mirrors_evalAll {x : Extent} {scope : FrameId} (hscope : scope < x.frames)
    {items : List Value} (hitems : ∀ item ∈ items, item.Sound x) :
    Action.Mirrors S .values x (evalAll ev scope items)
      (evalAll ev' (S.names.frame scope) (items.map (Value.rename S.names))) := by
  induction items generalizing x with
  | nil => exact .pure (s := .values) (List.forall_mem_nil _)
  | cons code rest ih =>
    obtain ⟨hcode, hrest⟩ := List.forall_mem_cons.mp hitems
    refine .bind (hev.eval hcode hscope) fun y hy v hv => ?_
    refine .bind (ih (Shape.frame.mono hy hscope) (Shape.values.mono hy hrest))
      fun z hz vs hvs => ?_
    exact .pure (s := .values) (List.forall_mem_cons.mpr ⟨hv.mono hz, hvs⟩)

theorem Step.mirrors_evalEntries {x : Extent} {scope : FrameId} (hscope : scope < x.frames)
    {entries : Table} (hentries : ∀ entry ∈ entries, entry.2.Sound x) :
    Action.Mirrors S (.entries (entries.map Prod.fst)) x (evalEntries ev scope entries)
      (evalEntries ev' (S.names.frame scope) (entries.rename S.names)) := by
  induction entries generalizing x with
  | nil => exact .pure (s := .entries []) ⟨rfl, List.forall_mem_nil _⟩
  | cons entry rest ih =>
    obtain ⟨hentry, hrest⟩ := List.forall_mem_cons.mp hentries
    refine .bind (hev.eval hentry hscope) fun y hy v hv => ?_
    refine .bind (ih (Shape.frame.mono hy hscope) fun e he => (hrest e he).mono hy)
      fun z hz es hes => ?_
    refine .pure (s := .entries _) ⟨?_, List.forall_mem_cons.mpr ⟨hv.mono hz, hes.2⟩⟩
    rw [List.map_cons, List.map_cons, hes.1]

theorem Step.mirrors_inSequence {x : Extent} {scope : FrameId} (hscope : scope < x.frames)
    {code : Value} (hcode : code.Sound x) {rest : List Value} (hrest : ∀ c ∈ rest, c.Sound x) :
    Action.Mirrors S .step x (inSequence ev scope code rest)
      (inSequence ev' (S.names.frame scope) (code.rename S.names)
        (rest.map (Value.rename S.names))) := by
  induction rest generalizing x code with
  | nil => exact .pure (s := .step) (u := .tail code scope) ⟨hcode, hscope⟩
  | cons next rest ih =>
    obtain ⟨hnext, hrest⟩ := List.forall_mem_cons.mp hrest
    refine .bind (hev.eval hcode hscope) fun y hy _ _ => ?_
    exact ih (Shape.frame.mono hy hscope) (hnext.mono hy) (Shape.values.mono hy hrest)

theorem ControlOp.mirrors_run {x : Extent} (op : ControlOp) {args : List Value}
    (hargs : ∀ a ∈ args, a.Sound x) :
    Action.Mirrors S .value x (op.run ev args) (op.run ev' (args.map (Value.rename S.names))) := by
  have hswap : ∀ {a f : Value} {args : List Value}, a.Sound x → f.Sound x →
      (∀ b ∈ args, b.Sound x) →
      Action.Mirrors S .value x (swap.run ev (a :: f :: args))
        (swap.run ev' ((a :: f :: args).map (Value.rename S.names))) := by
    intro a f args ha hf hargs
    refine .bind (CellOp.mirrors_cellOf "swap!" ha) fun y hy id hid => ?_
    refine .bind (Action.mirrors_readCell hid) fun z hz current hcurrent => ?_
    have hyz := Extent.le_trans hy hz
    refine .bind (hev.call (hf.mono hyz) (List.forall_mem_cons.mpr
      ⟨hcurrent, Shape.values.mono hyz hargs⟩)) fun w hw next hnext => ?_
    exact Action.mirrors_writeCell (Shape.cell.mono (Extent.le_trans hz hw) hid) hnext
  have happly : ∀ {f arg : Value} {args : List Value}, f.Sound x → arg.Sound x →
      (∀ b ∈ args, b.Sound x) →
      Action.Mirrors S .value x (apply.run ev (f :: arg :: args))
        (apply.run ev' ((f :: arg :: args).map (Value.rename S.names))) := by
    intro f arg args hf harg hargs
    refine .bind (.ofExcept (s := .values) (yields_spread harg hargs)
      (spread_rename S.names arg args)) fun y hy all hall => ?_
    exact hev.call (hf.mono hy) hall
  rcases args with _ | ⟨a, _ | ⟨b, rest⟩⟩
  · cases op <;> exact Signature.mirrors_mismatch _ []
  · have ha : a.Sound x := hargs a List.mem_cons_self
    cases op with
    | throw => exact .fail (e := .thrown a) ha
    | eval => exact .bind Action.mirrors_root fun y hy f hf => hev.eval (ha.mono hy) hf
    | _ => exact Signature.mirrors_mismatch _ [a]
  · obtain ⟨ha, hb, hrest⟩ : a.Sound x ∧ b.Sound x ∧ ∀ c ∈ rest, c.Sound x := by simpa using hargs
    cases op with
    | swap => exact hswap ha hb hrest
    | apply => exact happly ha hb hrest
    | map =>
      cases rest with
      | nil =>
        refine .bind (.ofExcept (s := .values) (SequenceOp.yields_elements "map" hb)
          (SequenceOp.elements_rename S.names "map" b)) fun y hy items hitems => ?_
        refine .bind (mirrors_mapCall hev (ha.mono hy) hitems) fun z hz results hresults => ?_
        exact Action.mirrors_makeList hresults
      | cons c rest => exact Signature.mirrors_mismatch _ (a :: b :: c :: rest)
    | _ => exact Signature.mirrors_mismatch _ (a :: b :: rest)

theorem Builtin.mirrors_run {x : Extent} (b : Builtin) {args : List Value}
    (hargs : ∀ a ∈ args, a.Sound x) :
    Action.Mirrors S .value x (b.run ev args) (b.run ev' (args.map (Value.rename S.names))) := by
  cases b with
  | arithmetic op =>
    exact .ofExcept ((op.yields_run args).imp fun _ => Value.sound_of_isScalar)
      (op.run_rename S.names args)
  | comparison op =>
    exact .ofExcept ((op.yields_run args).imp fun _ => Value.sound_of_isScalar)
      (op.run_rename S.names args)
  | predicate op =>
    exact .ofExcept ((op.yields_run args).imp fun _ => Value.sound_of_isScalar)
      (op.run_rename S.names args)
  | sequence op =>
    refine .bind (.ofExcept (s := .value) (op.yields_run hargs) (op.run_rename S.names args)) ?_
    exact fun y _ v hv => Action.mirrors_make hv
  | table op =>
    refine .bind (.ofExcept (s := .value) (op.yields_run hargs) (op.run_rename S.names args)) ?_
    exact fun y _ v hv => Action.mirrors_make hv
  | text op =>
    intro m n hle hmn
    have hyields := (op.yields_run m.cells args).imp fun v hv => hv.mono (Extent.empty_le m.extent)
    have hrename := op.run_rename S.names m.cells args
    rw [← hmn.cells] at hrename
    exact Action.Mirrors.ofExcept (s := .value) hyields hrename m n (Extent.le_refl _) hmn
  | cell op => exact op.mirrors_run hargs
  | console op => exact op.mirrors_run args
  | control op => exact op.mirrors_run hev hargs

/-! ## Steps -/

namespace Step

theorem mirrors_evalData {x : Extent} {scope : FrameId} (hscope : scope < x.frames) {v : Value}
    (hv : v.Sound x) :
    Action.Mirrors S .value x (evalData ev scope v)
      (evalData ev' (S.names.frame scope) (v.rename S.names)) := by
  cases v with
  | sym name => exact Action.mirrors_lookup hscope name
  | list id items =>
    rw [Value.rename_list]
    refine .bind (mirrors_evalAll hev hscope (Value.sound_list.mp hv).2) fun y _ vs hvs => ?_
    exact Action.mirrors_makeList hvs
  | vec id items =>
    rw [Value.rename_vec]
    refine .bind (mirrors_evalAll hev hscope (Value.sound_vec.mp hv).2) fun y _ vs hvs => ?_
    have hvec : (Value.vec none vs).Sound y := Value.sound_vec_none.mpr hvs
    have hmake := Action.mirrors_make (S := S) hvec
    rwa [Value.rename_vec] at hmake
  | map id entries =>
    obtain ⟨-, hcanonical, hentries⟩ := Value.sound_map.mp hv
    rw [Value.rename_map]
    refine .bind (mirrors_evalEntries hev hscope fun e he => (hentries e he).2)
      fun y hy es hes => ?_
    have hsound : Table.Sound y es := by
      intro e he
      have hkey : e.1 ∈ entries.map Prod.fst := hes.1 ▸ List.mem_map_of_mem he
      obtain ⟨entry, hm, hfst⟩ := List.mem_map.mp hkey
      exact ⟨hfst ▸ (hentries entry hm).1.mono hy, hes.2 e he⟩
    have hmap : (Value.map none es).Sound y :=
      Value.sound_map_none.mpr ⟨hcanonical.of_keys hes.1, hsound⟩
    have hmake := Action.mirrors_make (S := S) hmap
    rwa [Value.rename_map] at hmake
  | closure params body inner isMacro =>
    rw [Value.rename_closure]
    have hpure := Action.Mirrors.pure (S := S) (s := .value) hv
    dsimp only at hpure
    rwa [Value.rename_closure] at hpure
  | _ => exact .pure (s := .value) hv

theorem mirrors_bindPairs : ∀ (pairs : List Value) {x : Extent} {scope : FrameId},
    scope < x.frames → (∀ v ∈ pairs, v.Sound x) →
    Action.Mirrors S (.plain Unit) x (bindPairs ev scope pairs)
      (bindPairs ev' (S.names.frame scope) (pairs.map (Value.rename S.names)))
  | [], _, _, _, _ => .pure (s := .plain Unit) trivial
  | [_], _, _, _, _ => .pure (s := .plain Unit) trivial
  | target :: code :: rest, x, scope, hscope, h => by
    obtain ⟨-, hcode, hrest⟩ : target.Sound x ∧ code.Sound x ∧ ∀ v ∈ rest, v.Sound x := by
      simpa using h
    refine .bind (.ofExcept_self (s := .plain String) (yields_boundName "let*" target)
      (boundName_rename S.names "let*" target) fun _ => rfl) fun y hy name _ => ?_
    refine .bind (hev.eval (hcode.mono hy) (Shape.frame.mono hy hscope)) fun z hz v hv => ?_
    refine .bind (Action.mirrors_define scope name hv) fun w hw _ _ => ?_
    have hle := Extent.le_trans (Extent.le_trans hy hz) hw
    exact mirrors_bindPairs rest (Shape.frame.mono hle hscope) (Shape.values.mono hle hrest)

theorem mirrors_apply {x : Extent} {args : List Value} (hargs : ∀ a ∈ args, a.Sound x) {f : Value}
    (hf : f.Sound x) :
    Action.Mirrors S .step x (apply ev args f)
      (apply ev' (args.map (Value.rename S.names)) (f.rename S.names)) := by
  have hnot : Action.Mirrors S .step x
      (Action.textOf .readable f >>= fun text => Action.fail (.notCallable text))
      (Action.textOf .readable (f.rename S.names) >>= fun text =>
        Action.fail (.notCallable text)) :=
    .bind (Action.mirrors_textOf .readable f) fun y _ text _ => .fail_plain (by trivial)
  cases f with
  | builtin b => exact .bind (b.mirrors_run hev hargs) fun y _ v hv => .pure (s := .step) hv
  | host name id =>
    exact .bind (mirrors_callHost name id hargs) fun y _ v hv => .pure (s := .step) hv
  | closure params body scope isMacro =>
    obtain ⟨hscope, hbody, -⟩ := Value.sound_closure.mp hf
    rw [Value.rename_closure]
    refine .bind (Action.mirrors_enterCall hscope params hargs) fun y hy frame hframe => ?_
    exact .pure (s := .step) (u := .tail body frame) ⟨hbody.mono hy, hframe⟩
  | list id items =>
    rw [Value.rename_list] at hnot ⊢
    exact hnot
  | vec id items =>
    rw [Value.rename_vec] at hnot ⊢
    exact hnot
  | map id entries =>
    rw [Value.rename_map] at hnot ⊢
    exact hnot
  | _ => exact hnot

theorem mirrors_callForm {x : Extent} {scope : FrameId} (hscope : scope < x.frames) {head : Value}
    (hhead : head.Sound x) {operands : List Value} (hoperands : ∀ a ∈ operands, a.Sound x) :
    Action.Mirrors S .step x (callForm ev scope head operands)
      (callForm ev' (S.names.frame scope) (head.rename S.names)
        (operands.map (Value.rename S.names))) := by
  refine .bind (hev.eval hhead hscope) fun y hy f hf => ?_
  refine .bind (mirrors_evalAll hev (Shape.frame.mono hy hscope) (Shape.values.mono hy hoperands))
    fun z hz args hargs => ?_
  exact mirrors_apply hev hargs (hf.mono hz)

section

variable {expand expand' : Value → FrameId → Action Value}
  (hexpand : ∀ {x : Extent} {form : Value} {scope : FrameId}, form.Sound x → scope < x.frames →
    Action.Mirrors S .value x (expand form scope)
      (expand' (form.rename S.names) (S.names.frame scope)))

theorem mirrors_tryCatch {x : Extent} {scope : FrameId} (hscope : scope < x.frames)
    {body clause : Value} (hbody : body.Sound x) (hclause : clause.Sound x) :
    Action.Mirrors S .step x (special ev expand scope .tryCatch [body, clause])
      (special ev' expand' (S.names.frame scope) .tryCatch
        [body.rename S.names, clause.rename S.names]) := by
  refine .bind (.ofExcept (s := .clause) (yields_catchClause hclause)
    (catchClause_rename S.names clause)) fun y hy c hc => ?_
  have hscope' := Shape.frame.mono hy hscope
  refine .attempt (hev.eval (hbody.mono hy) hscope') (fun z _ v hv => ?_) fun z hz e he => ?_
  · exact .pure (s := .step) hv
  · have hpayload : Bindings.Sound z [(c.1, e.payload)] :=
      List.forall_mem_singleton.mpr he.payload
    have henter := Action.mirrors_enter (S := S) (Shape.frame.mono hz hscope') hpayload
    rw [Bindings.rename_cons, Bindings.rename_nil, ← Error.payload_rename] at henter
    refine .bind henter fun w hw inner hinner => ?_
    exact .pure (s := .step) (u := .tail c.2 inner) ⟨hc.mono (Extent.le_trans hz hw), hinner⟩

include hexpand

theorem mirrors_special {x : Extent} {scope : FrameId} (hscope : scope < x.frames)
    (form : SpecialForm) {args : List Value} (hargs : ∀ a ∈ args, a.Sound x) :
    Action.Mirrors S .step x (special ev expand scope form args)
      (special ev' expand' (S.names.frame scope) form (args.map (Value.rename S.names))) := by
  have harity : Action.Mirrors S .step x
      (Action.fail (.arity form.name form.arity args.length))
      (Action.fail (.arity form.name form.arity (args.map (Value.rename S.names)).length)) := by
    rw [List.length_map]
    exact .fail_plain (by trivial)
  have hname : ∀ form target, Action.Mirrors S (.plain String) x
      (Action.ofExcept (boundName form target))
      (Action.ofExcept (boundName form (target.rename S.names))) := fun form target =>
    .ofExcept_self (yields_boundName form target) (boundName_rename S.names form target)
      fun _ => rfl
  rcases args with _ | ⟨a, _ | ⟨b, _ | ⟨c, _ | ⟨d, rest⟩⟩⟩⟩
  · cases form <;> exact harity
  · have ha : a.Sound x := hargs a List.mem_cons_self
    cases form with
    | sequence => exact mirrors_inSequence hev hscope ha (List.forall_mem_nil _)
    | quote => exact .pure (s := .step) ha
    | quasiquote =>
      refine .bind (.ofExcept (s := .value) (Template.yields_expand a ha)
        (Template.expand_rename S.names a)) fun y hy code hcode => ?_
      exact .pure (s := .step) (u := .tail code scope) ⟨hcode, Shape.frame.mono hy hscope⟩
    | macroExpand =>
      exact .bind (hexpand ha hscope) fun y _ expanded he => .pure (s := .step) he
    | tryCatch => exact .pure (s := .step) (u := .tail a scope) ⟨ha, hscope⟩
    | _ => exact harity
  · obtain ⟨ha, hb⟩ : a.Sound x ∧ b.Sound x := by simpa using hargs
    cases form with
    | branch =>
      refine .bind (hev.eval ha hscope) fun y hy c hc => ?_
      dsimp only
      rw [Value.isTruthy_rename]
      cases c.isTruthy with
      | true =>
        exact .pure (s := .step) (u := .tail b scope) ⟨hb.mono hy, Shape.frame.mono hy hscope⟩
      | false => exact .pure (s := .step) (u := .done .nil) (Value.sound_of_isScalar rfl)
    | define =>
      refine .bind (hname "def!" a) fun y hy name _ => ?_
      refine .bind (hev.eval (hb.mono hy) (Shape.frame.mono hy hscope)) fun z hz v hv => ?_
      refine .bind (Action.mirrors_define scope name hv) fun w hw _ _ => ?_
      exact .pure (s := .step) (u := .done v) (hv.mono hw)
    | defineMacro =>
      refine .bind (hname "defmacro!" a) fun y hy name _ => ?_
      refine .bind (hev.eval (hb.mono hy) (Shape.frame.mono hy hscope)) fun z hz v hv => ?_
      refine .bind (.ofExcept (s := .value) (yields_asMacro hv) (asMacro_rename S.names v))
        fun w hw expander hexpander => ?_
      refine .bind (Action.mirrors_define scope name hexpander) fun u hu _ _ => ?_
      exact .pure (s := .step) (u := .done expander) (hexpander.mono hu)
    | letIn =>
      refine .bind (.ofExcept (s := .values) (yields_letBindings ha)
        (letBindings_rename S.names a)) fun y hy pairs hpairs => ?_
      have hnone : Bindings.Sound y [] := List.forall_mem_nil _
      refine .bind (Action.mirrors_enter (Shape.frame.mono hy hscope) hnone)
        fun z hz inner hinner => ?_
      refine .bind (mirrors_bindPairs hev pairs hinner (Shape.values.mono hz hpairs))
        fun w hw _ _ => ?_
      exact .pure (s := .step) (u := .tail b inner)
        ⟨hb.mono (Extent.le_trans hy (Extent.le_trans hz hw)), Shape.frame.mono hw hinner⟩
    | sequence => exact mirrors_inSequence hev hscope ha (List.forall_mem_singleton.mpr hb)
    | function =>
      refine .bind (.ofExcept (s := .values) (yields_parameters ha)
        (parameters_rename S.names a)) fun y hy params hparams => ?_
      have hclosure : (Value.closure params b scope false).Sound y :=
        Value.sound_closure.mpr ⟨Shape.frame.mono hy hscope, hb.mono hy, hparams⟩
      have hdone := Action.Mirrors.pure (S := S) (s := .step) (u := .done _) hclosure
      dsimp only [rename] at hdone
      rwa [Value.rename_closure] at hdone
    | tryCatch => exact mirrors_tryCatch hev hscope ha hb
    | _ => exact harity
  · obtain ⟨ha, hb, hc⟩ : a.Sound x ∧ b.Sound x ∧ c.Sound x := by simpa using hargs
    cases form with
    | branch =>
      refine .bind (hev.eval ha hscope) fun y hy v hv => ?_
      have hscope' := Shape.frame.mono hy hscope
      dsimp only
      rw [Value.isTruthy_rename]
      cases v.isTruthy with
      | true => exact .pure (s := .step) (u := .tail b scope) ⟨hb.mono hy, hscope'⟩
      | false => exact .pure (s := .step) (u := .tail c scope) ⟨hc.mono hy, hscope'⟩
    | sequence => exact mirrors_inSequence hev hscope ha (List.forall_mem_cons.mp hargs).2
    | _ => exact harity
  · obtain ⟨ha, hrest⟩ := List.forall_mem_cons.mp hargs
    cases form with
    | sequence => exact mirrors_inSequence hev hscope ha hrest
    | _ => exact harity

theorem mirrors_ofForm {x : Extent} {scope : FrameId} (hscope : scope < x.frames) {form : Value}
    (hform : form.Sound x) :
    Action.Mirrors S .step x (ofForm ev expand scope form)
      (ofForm ev' expand' (S.names.frame scope) (form.rename S.names)) := by
  have hdata : Action.Mirrors S .step x (evalData ev scope form >>= fun v => pure (.done v))
      (evalData ev' (S.names.frame scope) (form.rename S.names) >>= fun v => pure (.done v)) :=
    .bind (mirrors_evalData hev hscope hform) fun y _ v hv => .pure (s := .step) (u := .done v) hv
  cases form with
  | list id items =>
    cases items with
    | nil => exact hdata
    | cons head operands =>
      obtain ⟨hhead, hoperands⟩ := List.forall_mem_cons.mp (Value.sound_list.mp hform).2
      rw [Value.rename_list, List.map_cons, ofForm, ofForm, Value.sym?_rename]
      split
      · exact mirrors_special hev hexpand hscope _ hoperands
      · exact mirrors_callForm hev hscope hhead hoperands
  | vec id items =>
    rw [Value.rename_vec] at hdata ⊢
    exact hdata
  | map id entries =>
    rw [Value.rename_map] at hdata ⊢
    exact hdata
  | closure params body inner isMacro =>
    rw [Value.rename_closure] at hdata ⊢
    exact hdata
  | _ => exact hdata

end

end Step

/-! ## Runs -/

namespace Evaluator

omit hev

/-- What a macro call evaluates or passes on is sound. -/
structure MacroCall.Sound (x : Extent) (call : MacroCall) : Prop where
  body : call.body.Sound x
  scope : call.scope < x.frames
  operands : ∀ a ∈ call.operands, a.Sound x

def MacroCall.rename (r : Renaming) (call : MacroCall) : MacroCall :=
  ⟨call.params.map (Value.rename r), call.body.rename r, r.frame call.scope,
    call.operands.map (Value.rename r)⟩

theorem sound_of_macroCall? {m : Machine} (h : m.Sound) {scope : FrameId} {form : Value}
    (hform : form.Sound m.extent) {call : MacroCall}
    (hcall : macroCall? m.frames scope form = some call) : call.Sound m.extent := by
  unfold macroCall? at hcall
  split at hcall
  · split at hcall
    · next hfound =>
      cases hcall
      obtain ⟨hinner, hbody, -⟩ := Value.sound_closure.mp (h.find? hfound)
      exact ⟨hbody, hinner, (List.forall_mem_cons.mp (Value.sound_list.mp hform).2).2⟩
    · cases hcall
  · cases hcall

/-- A form is a macro call just if it is one, renamed, in a copy. -/
theorem macroCall?_copied {m n : Machine} (hmn : m.Copied S n) {scope : FrameId}
    (hscope : scope < m.frames.size) (form : Value) :
    macroCall? n.frames (S.names.frame scope) (form.rename S.names) =
      (macroCall? m.frames scope form).map (MacroCall.rename S.names) := by
  cases form with
  | list id items =>
    cases items with
    | nil => rfl
    | cons head operands =>
      cases head with
      | sym name =>
        rw [Value.rename_list, List.map_cons, Value.rename_sym, macroCall?, macroCall?,
          hmn.get? hscope]
        cases m.frames.get? scope name with
        | none => rfl
        | some v =>
          cases v with
          | closure params body inner isMacro =>
            rw [Option.map_some, Value.rename_closure]
            cases isMacro <;> rfl
          | _ => rfl
      | _ => rfl
  | _ => rfl

include hev

theorem mirrors_expand (fuel : Nat) {x : Extent} {form : Value} {scope : FrameId}
    (hform : form.Sound x) (hscope : scope < x.frames) :
    Action.Mirrors S .value x (ev.expand fuel form scope)
      (ev'.expand fuel (form.rename S.names) (S.names.frame scope)) := by
  induction fuel generalizing x form with
  | zero => exact .pause .fuel
  | succ fuel ih =>
    intro m n hle hmn
    have hscope' : scope < m.frames.size := Nat.lt_of_lt_of_le hscope hle.frames
    rw [expand_succ, expand_succ, macroCall?_copied hmn hscope']
    cases hcall : macroCall? m.frames scope form with
    | none => exact .ok (Extent.le_refl _) hmn (hform.mono hle)
    | some call =>
      have hsound := sound_of_macroCall? hmn.sound (hform.mono hle) hcall
      refine Action.Mirrors.bind (x := m.extent)
        (Action.mirrors_enterCall hsound.scope call.params hsound.operands)
        (fun y hy frame hframe => ?_) m n (Extent.le_refl _) hmn
      refine .bind (hev.eval (hsound.body.mono hy) hframe) fun z hz next hnext => ?_
      exact ih hnext (Shape.frame.mono (Extent.le_trans hy hz) hscope')

theorem mirrors_loop (fuel : Nat) {x : Extent} {code : Value} {scope : FrameId}
    (hcode : code.Sound x) (hscope : scope < x.frames) :
    Action.Mirrors S .value x (ev.loop fuel code scope)
      (ev'.loop fuel (code.rename S.names) (S.names.frame scope)) := by
  induction fuel generalizing x code scope with
  | zero => exact .pause .fuel
  | succ fuel ih =>
    rw [loop_succ, loop_succ]
    refine .bind (mirrors_expand hev fuel hcode hscope) fun y hy form hform => ?_
    refine .bind (Step.mirrors_ofForm hev (mirrors_expand hev fuel) (Shape.frame.mono hy hscope)
      hform) fun z hz step hstep => ?_
    cases step with
    | done v => exact .pure (s := .value) hstep
    | tail code' scope' => exact ih hstep.1 hstep.2

theorem mirrors_applied {x : Extent} {f : Value} (hf : f.Sound x) {args : List Value}
    (hargs : ∀ a ∈ args, a.Sound x) :
    Action.Mirrors S .value x (ev.applied f args)
      (ev'.applied (f.rename S.names) (args.map (Value.rename S.names))) := by
  refine .bind (Step.mirrors_apply hev hargs hf) fun y _ step hstep => ?_
  cases step with
  | done v => exact .pure (s := .value) hstep
  | tail body frame => exact hev.eval hstep.1 hstep.2

end Evaluator

end

end

end Lisp
