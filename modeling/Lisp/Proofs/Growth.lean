import Lisp.Proofs.Transparency

/-!
# States only grow

Nothing that is done to a state takes a frame, a name or a cell away. So the state at the end of an
evaluation has grown from that at its start, however it ends. Between the two the same is said by an
evaluator that remembers a state: from the moment that state comes up, each state it meets has grown
from it, so nothing is ever put back to what it was.
-/

namespace Lisp

/-! ## Growth -/

/-- A frame has the same parent as before, and binds all the names it bound. -/
structure Frame.Extends (old new : Frame) : Prop where
  parent : new.parent = old.parent
  names {name : String} : (old.bindings.get? name).isSome = true →
    (new.bindings.get? name).isSome = true

/-- The frames of the first state are still there in the second one, where they may bind more names,
and there are no fewer cells. -/
structure Machine.Grows (m n : Machine) : Prop where
  frames {f : FrameId} {old : Frame} : m.frames[f]? = some old →
    ∃ new, n.frames[f]? = some new ∧ old.Extends new
  cells : m.cells.size ≤ n.cells.size

theorem Frame.Extends.refl (frame : Frame) : frame.Extends frame :=
  ⟨rfl, fun h => h⟩

theorem Frame.Extends.trans {x y z : Frame} (hxy : x.Extends y) (hyz : y.Extends z) : x.Extends z :=
  ⟨hyz.parent.trans hxy.parent, fun h => hyz.names (hxy.names h)⟩

theorem Bindings.get?_set_isSome {bindings : Bindings} {key : String} (name : String) (v : Value)
    (h : (bindings.get? key).isSome = true) : ((bindings.set name v).get? key).isSome = true := by
  induction bindings with
  | nil => cases h
  | cons binding rest ih =>
    rw [set]
    split
    · next hname =>
      rw [get?] at h ⊢
      split
      · rfl
      · next hkey => rwa [if_neg hkey] at h
    · rw [get?] at h ⊢
      split
      · rfl
      · next hkey =>
        rw [if_neg hkey] at h
        exact ih h

namespace Machine

variable {m n o : Machine}

theorem grows_of_eq (hframes : n.frames = m.frames) (hcells : n.cells.size = m.cells.size) :
    m.Grows n :=
  ⟨fun {_ old} h => ⟨old, by rw [hframes, h], .refl old⟩, Nat.le_of_eq hcells.symm⟩

theorem Grows.refl (m : Machine) : m.Grows m :=
  grows_of_eq rfl rfl

theorem Grows.trans (hmn : m.Grows n) (hno : n.Grows o) : m.Grows o := by
  refine ⟨fun h => ?_, Nat.le_trans hmn.cells hno.cells⟩
  obtain ⟨_, hn, hext⟩ := hmn.frames h
  obtain ⟨new, ho, hext'⟩ := hno.frames hn
  exact ⟨new, ho, hext.trans hext'⟩

theorem grows_define (m : Machine) (f : FrameId) (name : String) (v : Value) :
    m.Grows { m with frames := m.frames.set f name v } := by
  refine ⟨fun {g old} h => ?_, Nat.le_refl _⟩
  show ∃ new, (m.frames.set f name v)[g]? = some new ∧ old.Extends new
  rw [Frames.set, Array.getElem?_modify, h]
  split
  · exact ⟨_, rfl, rfl, Bindings.get?_set_isSome name v⟩
  · exact ⟨old, rfl, .refl old⟩

theorem grows_enter (m : Machine) (frame : Frame) :
    m.Grows { m with frames := m.frames.push frame } := by
  refine ⟨fun {f old} h => ⟨old, ?_, .refl old⟩, Nat.le_refl _⟩
  have hlt : f < m.frames.size := (Array.getElem?_eq_some_iff.mp h).1
  show (m.frames.push frame)[f]? = some old
  rw [Array.getElem?_push, if_neg (Nat.ne_of_lt hlt), h]

theorem grows_newCell (m : Machine) (v : Value) : m.Grows { m with cells := m.cells.push v } := by
  refine ⟨fun {_ old} h => ⟨old, h, .refl old⟩, ?_⟩
  show m.cells.size ≤ (m.cells.push v).size
  rw [Array.size_push]
  exact Nat.le_succ _

/-- Whatever is done to a state, it has grown from where it had grown from. -/
theorem kept_grows (s : Machine) : Kept s.Grows where
  define f name v h := h.trans (grows_define _ f name v)
  enter frame h := h.trans (grows_enter _ frame)
  newCell v h := h.trans (grows_newCell _ v)
  writeCell _ _ h := h.trans (grows_of_eq rfl Array.size_setIfInBounds)
  newObject h := h.trans (grows_of_eq rfl rfl)
  outside _ h := h.trans (grows_of_eq rfl rfl)
  depth _ h := h.trans (grows_of_eq rfl rfl)

/-! ## What is still there -/

/-- Along the way to the frame that binds a name the frames may bind it by now, but none is gone. -/
theorem Grows.find?_isSome (h : m.Grows n) {name : String} {depth : Nat} {f : FrameId}
    (hfound : (m.frames.find? name depth f).isSome = true) :
    (n.frames.find? name depth f).isSome = true := by
  induction depth generalizing f with
  | zero => cases hfound
  | succ depth ih =>
    rw [Frames.find?] at hfound ⊢
    cases hold : m.frames[f]? with
    | none =>
      rw [hold] at hfound
      cases hfound
    | some old =>
      obtain ⟨new, hnew, hext⟩ := h.frames hold
      rw [hold] at hfound
      rw [hnew]
      dsimp only at hfound ⊢
      cases hbound : new.bindings.get? name with
      | some w => rfl
      | none =>
        have hunbound : old.bindings.get? name = none := by
          rw [← Option.not_isSome_iff_eq_none]
          intro hsome
          have hstill := hext.names hsome
          rw [hbound] at hstill
          cases hstill
        rw [hunbound] at hfound
        rw [hext.parent]
        cases hparent : old.parent with
        | none =>
          rw [hparent] at hfound
          cases hfound
        | some p =>
          rw [hparent] at hfound
          exact ih hfound

theorem Grows.lookup (h : m.Grows n) {scope : FrameId} {name : String} {v : Value}
    (hv : m.frames.lookup scope name = .ok v) : ∃ w, n.frames.lookup scope name = .ok w := by
  have hold : (m.frames.get? scope name).isSome = true := by
    unfold Frames.lookup at hv
    split at hv
    · next hget => rw [hget]; rfl
    · cases hv
  obtain ⟨w, hw⟩ := Option.isSome_iff_exists.mp (h.find?_isSome hold)
  refine ⟨w, ?_⟩
  rw [Frames.lookup, Frames.get?, hw]

theorem Grows.getElem?_cells (h : m.Grows n) {id : Nat} {v : Value} (hv : m.cells[id]? = some v) :
    ∃ w, n.cells[id]? = some w := by
  have hlt : id < m.cells.size := (Array.getElem?_eq_some_iff.mp hv).1
  exact ⟨_, Array.getElem?_eq_getElem (Nat.lt_of_lt_of_le hlt h.cells)⟩

end Machine

/-- A new atom is named by a number that no atom had in a state that this one has grown from. -/
theorem CellOp.run_atom_fresh {m n : Machine} (h : m.Grows n) (ev : Evaluator) (v : Value) :
    ∃ id n', (Builtin.cell .atom).run ev [v] n = .ok (.atom id) n' ∧ m.cells[id]? = none ∧
      n'.cells[id]? = some v :=
  ⟨n.cells.size, _, rfl, Array.getElem?_eq_none h.cells, Array.getElem?_push_size⟩

/-! ## Remembering a state -/

/-- An evaluation one level deeper under a limit that is not that of the state. -/
def Action.nestedUnder {α : Type} (limit : Nat) (x : Action α) : Action α := fun m =>
  if m.depth < limit then (x (m.toDepth (m.depth + 1))).leave else .error (.eval .recursionLimit) m

section

variable (s : Machine) (alarm : Pause)

open Classical in
/-- Looks at the frames and the cells. Whether those of `s` have come up is remembered as the limit
of the state, which is 0 until then. From then on it gives up with the alarm if they have not grown
from those of `s`. -/
noncomputable def Action.look : Action Unit := fun m =>
  if m.depthLimit = 0 then
    if m.frames = s.frames ∧ m.cells = s.cells then .ok () (m.withLimit 1) else .ok () m
  else if s.Grows m then .ok () m else .paused alarm

/-- Looks at the state before an action and after it, also if it fails. -/
noncomputable def Action.looking {α : Type} (x : Action α) : Action α := do
  look s alarm
  attempt x fun r => do
    look s alarm
    ofExcept r

variable (limit : Nat)

mutual

/-- Evaluates an expression and looks at the state before and after every evaluation and call on the
way, from outside and from within. -/
noncomputable def rememberingEval : Nat → Value → FrameId → Action Value
  | 0, _, _ => Action.pause .fuel
  | fuel + 1, code, scope =>
    Action.looking s alarm (Action.nestedUnder limit (Action.looking s alarm
      (Evaluator.loop ⟨rememberingEval fuel, rememberingCall fuel⟩ fuel code scope)))

/-- Applies a function and looks at the state before and after every evaluation and call. -/
noncomputable def rememberingCall : Nat → Value → List Value → Action Value
  | 0, _, _ => Action.pause .fuel
  | fuel + 1, f, args =>
    Action.looking s alarm
      (Evaluator.applied ⟨rememberingEval fuel, rememberingCall fuel⟩ f args)

end

/-- The evaluator that remembers whether the state `s` has come up. Under the limit it behaves like
the plain one, whatever the alarm, just if no state comes up later that has not grown from `s`. -/
noncomputable def rememberingEvaluator (fuel : Nat) : Evaluator :=
  ⟨rememberingEval s alarm limit fuel, rememberingCall s alarm limit fuel⟩

end

/-- The second state is the first one, but remembers `s` instead of the limit, and if `s` has come
up it has grown from there. -/
structure Remembers (s : Machine) (limit : Nat) (m n : Machine) : Prop where
  eq : m = n.withLimit limit
  grown : n.depthLimit ≠ 0 → s.Grows m

section

variable {s : Machine} {limit : Nat}

theorem stable_remembers {gives : Pause → Prop} : Stable (Remembers s limit) gives where
  same h := h.eq ▸ ⟨rfl, rfl, rfl, rfl, rfl, rfl, rfl⟩
  define f name v h := ⟨by rw [h.eq]; rfl, fun hn =>
    (Machine.kept_grows s).define f name v (h.grown hn)⟩
  enter frame h := ⟨by rw [h.eq]; rfl, fun hn =>
    (Machine.kept_grows s).enter frame (h.grown hn)⟩
  newCell v h := ⟨by rw [h.eq]; rfl, fun hn =>
    (Machine.kept_grows s).newCell v (h.grown hn)⟩
  writeCell id v h := ⟨by rw [h.eq]; rfl, fun hn =>
    (Machine.kept_grows s).writeCell id v (h.grown hn)⟩
  newObject h := ⟨by rw [h.eq]; rfl, fun hn =>
    (Machine.kept_grows s).newObject (h.grown hn)⟩
  print _ h := ⟨by rw [h.eq]; rfl, fun hn =>
    (Machine.kept_grows s).outside _ (h.grown hn)⟩
  input h := .inr ⟨by rw [h.eq]; rfl, fun _ => ⟨by rw [h.eq]; rfl, fun hn =>
    (Machine.kept_grows s).outside _ (h.grown hn)⟩⟩

theorem Remembers.toDepth {m n : Machine} (h : Remembers s limit m n) (depth : Nat) :
    Remembers s limit (m.toDepth depth) (n.toDepth depth) :=
  ⟨by rw [h.eq]; rfl, fun hn => (Machine.kept_grows s).depth depth (h.grown hn)⟩

theorem Remembers.depth_eq {m n : Machine} (h : Remembers s limit m n) : n.depth = m.depth := by
  rw [h.eq]
  rfl

variable {gives : Pause → Prop} {α : Type} {x y : Action α}

/-- To look changes nothing but what is remembered, and never sets off the alarm. -/
theorem Action.tracks_look (alarm : Pause) :
    Tracks (Remembers s limit) gives (Pure.pure ()) (look s alarm) := by
  intro m n h
  have hstable : Stable (Remembers s limit) gives := stable_remembers
  have hmatches := hstable.same h
  unfold look
  split
  · split
    · next hsame =>
      refine .ok ⟨h.eq, fun _ => Machine.grows_of_eq ?_ ?_⟩
      · rw [hmatches.frames, hsame.1]
      · rw [hmatches.cells, hsame.2]
    · exact .ok h
  · next hseen =>
    have hgrown : s.Grows n := (h.grown hseen).trans
      (Machine.grows_of_eq hmatches.frames.symm (by rw [hmatches.cells]))
    rw [if_pos hgrown]
    exact .ok h

theorem Action.Tracks.looking (hx : Tracks (Remembers s limit) gives x y) (alarm : Pause) :
    Tracks (Remembers s limit) gives x (y.looking s alarm) := by
  have hsame : (do
      Pure.pure ()
      Action.attempt x fun r => do
        Pure.pure ()
        Action.ofExcept r) = x := by
    funext m
    show Action.attempt x Action.ofExcept m = x m
    unfold Action.attempt
    cases x m <;> rfl
  rw [← hsame]
  exact .bind (Action.tracks_look alarm) fun _ => .attempt hx fun r =>
    .bind (Action.tracks_look alarm) fun _ => .ofExcept r

theorem Action.Tracks.nestedUnder (hx : Tracks (Remembers s limit) gives x y) :
    Tracks (Remembers s limit) gives (Action.nested x) (Action.nestedUnder limit y) := by
  intro m n h
  have hlimit : m.depthLimit = limit := by
    rw [h.eq]
    rfl
  unfold Action.nestedUnder
  rw [h.depth_eq]
  split
  · next hroom =>
    rw [Action.nested_of_lt x (hlimit ▸ hroom)]
    refine (hx _ _ (h.toDepth (m.depth + 1))).leave fun hmn => ?_
    rw [hmn.depth_eq]
    exact hmn.toDepth _
  · next hfull =>
    rw [Action.nested_of_le x (hlimit ▸ Nat.le_of_not_lt hfull)]
    exact .error h

theorem tracks_rememberingEvaluator (alarm : Pause) (fuel : Nat) :
    Evaluator.Tracks (Remembers s limit) gives (evaluator fuel)
      (rememberingEvaluator s alarm limit fuel) := by
  induction fuel with
  | zero => exact ⟨fun _ _ => .pause .fuel, fun _ _ => .pause .fuel⟩
  | succ fuel ih =>
    constructor
    · intro code scope
      have hloop := Evaluator.tracks_loop stable_remembers ih (.refl _ fuel) code scope
      exact ((hloop.looking alarm).nestedUnder).looking alarm
    · intro f args
      exact (Evaluator.tracks_applied stable_remembers ih f args).looking alarm

theorem Outcome.Agree.eq_of_remembers {o o' : Outcome α}
    (h : o.Agree (Remembers s limit) (fun _ => False) o') : o = o'.withLimit limit := by
  cases h with
  | ok h => exact congrArg (Outcome.ok _) h.eq
  | error h => exact congrArg (Outcome.error _) h.eq
  | paused => rfl
  | gaveUp hp => exact hp.elim

end

/-! ## Runs -/

/-- What an evaluator can be asked to do. -/
inductive Task where
  | eval (code : Value) (scope : FrameId)
  | call (f : Value) (args : List Value)
  | expand (form : Value) (scope : FrameId)
  | builtin (b : Builtin) (args : List Value)

def Task.run (ev : Evaluator) (fuel : Nat) : Task → Action Value
  | eval code scope => ev.eval code scope
  | call f args => ev.call f args
  | expand form scope => ev.expand fuel form scope
  | builtin b args => b.run ev args

theorem Task.tracks_run {R : Machine → Machine → Prop} {gives : Pause → Prop}
    (hR : Stable R gives) {ev ev' : Evaluator} (hev : Evaluator.Tracks R gives ev ev')
    (fuel : Nat) (task : Task) :
    Action.Tracks R gives (task.run ev fuel) (task.run ev' fuel) := by
  cases task with
  | eval code scope => exact hev.eval code scope
  | call f args => exact hev.call f args
  | expand form scope => exact Evaluator.tracks_expand hR hev (.refl _ fuel) form scope
  | builtin b args => exact Builtin.tracks_run hR hev b args

/-- The task ends in a state that has grown from the one in which it starts, and whatever state is
remembered on the way, no state is found later that has not grown from that one. -/
def Task.OnlyGrows (task : Task) (fuel : Nat) : Prop :=
  ∀ m, (task.run (evaluator fuel) fuel m).Ends m.Grows ∧
    ∀ s alarm, task.run (evaluator fuel) fuel m =
      ((task.run (rememberingEvaluator s alarm m.depthLimit fuel) fuel).looking s alarm
        (m.withLimit 0)).withLimit m.depthLimit

theorem Task.ends_grows (task : Task) (fuel : Nat) (m : Machine) :
    (task.run (evaluator fuel) fuel m).Ends m.Grows := by
  have hm := Machine.kept_grows m
  exact (task.tracks_run hm.stable (hm.tracks_evaluator fuel) fuel m m ⟨rfl, .refl m⟩).ends_kept

theorem Task.onlyGrows (task : Task) (fuel : Nat) : task.OnlyGrows fuel := by
  refine fun m => ⟨task.ends_grows fuel m, fun s alarm => ?_⟩
  have hstart : Remembers s m.depthLimit m (m.withLimit 0) := ⟨rfl, fun h => absurd rfl h⟩
  refine (Action.Tracks.looking ?_ alarm m _ hstart).eq_of_remembers
  exact task.tracks_run stable_remembers (tracks_rememberingEvaluator alarm fuel) fuel

/-- One task after another leads from a state to a later one, whether they fail or not. -/
inductive Later (m : Machine) : Machine → Prop
  | start : Later m m
  | ended {n n' : Machine} {v : Value} (task : Task) (fuel : Nat) :
      Later m n → task.run (evaluator fuel) fuel n = .ok v n' → Later m n'
  | failed {n n' : Machine} {e : Error} (task : Task) (fuel : Nat) :
      Later m n → task.run (evaluator fuel) fuel n = .error e n' → Later m n'

theorem Later.grows {m n : Machine} (h : Later m n) : m.Grows n := by
  induction h with
  | start => exact .refl m
  | @ended n n' v task fuel _ hrun ih =>
    have hends := task.ends_grows fuel n
    rw [hrun] at hends
    exact ih.trans hends
  | @failed n n' e task fuel _ hrun ih =>
    have hends := task.ends_grows fuel n
    rw [hrun] at hends
    exact ih.trans hends

/-- Whatever an evaluator is asked to do, and however that ends, the state only grows. So a name
that is bound where it is looked up remains bound there, a cell remains, and the number of a new
atom has never been that of another one. -/
theorem state_only_grows :
    (∀ (task : Task) (fuel : Nat), task.OnlyGrows fuel) ∧
    (∀ m n, Later m n → m.Grows n) ∧
    ∀ m n : Machine, m.Grows n →
      (∀ scope name v, m.frames.lookup scope name = .ok v →
        ∃ w, n.frames.lookup scope name = .ok w) ∧
      (∀ (id : Nat) v, m.cells[id]? = some v → ∃ w, n.cells[id]? = some w) ∧
      ∀ ev v, ∃ id n', (Builtin.cell .atom).run ev [v] n = .ok (.atom id) n' ∧
        m.cells[id]? = none ∧ n'.cells[id]? = some v :=
  ⟨Task.onlyGrows, fun _ _ h => h.grows, fun _ _ h => ⟨fun _ _ _ hv => h.lookup hv,
    fun _ _ hv => h.getElem?_cells hv, fun ev v => CellOp.run_atom_fresh h ev v⟩⟩

/-- An evaluation that binds a name anew, to another atom, and throws that one: the name is bound,
the old atom is there, and a further atom is neither of the two. -/
theorem state_only_grows_past_failure :
    let m : Machine := { frames := #[⟨[("a", .atom 0)], none⟩], cells := #[.nil] }
    let code : Value := .list none [.sym "do",
      .list none [.sym "def!", .sym "a", .list none [.builtin (.cell .atom), .nil]],
      .list none [.builtin (.control .throw), .sym "a"]]
    ∃ e n, (Task.eval code 0).run (evaluator 9) 9 m = .error e n ∧ n.cells.size = 2 ∧ Later m n ∧
      (∃ w, n.frames.lookup 0 "a" = .ok w) ∧ (∃ w, n.cells[0]? = some w) ∧
      ∃ id n', (Builtin.cell .atom).run (evaluator 0) [.nil] n = .ok (.atom id) n' ∧
        m.cells[id]? = none := by
  intro m code
  obtain ⟨e, n, hfailed, hsize⟩ := Outcome.exists_of_errorWith (fun _ n => n.cells.size == 2)
    (o := (Task.eval code 0).run (evaluator 9) 9 m) (by decide +kernel)
  have hlater : Later m n := .failed (.eval code 0) 9 .start hfailed
  obtain ⟨hnames, hcells, hfresh⟩ := state_only_grows.2.2 m n (state_only_grows.2.1 m n hlater)
  obtain ⟨id, n', hrun, hnone, -⟩ := hfresh (evaluator 0) .nil
  exact ⟨e, n, hfailed, beq_iff_eq.mp hsize, hlater, hnames 0 "a" (.atom 0) rfl, hcells 0 .nil rfl,
    id, n', hrun, hnone⟩

end Lisp
