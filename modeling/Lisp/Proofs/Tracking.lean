import Lisp.Eval.Basic

/-!
# Two runs side by side

One run tracks another if they end alike whenever they start in related states. Actions that do not
evaluate anything track themselves, and all the steps of evaluation carry the tracking of their
evaluators over to what they do. So whatever is to be shown of a run, step by step, has to be shown
only where evaluators are made.
-/

namespace Lisp

/-! ## Agreement -/

/-- The outcomes of two runs: they are the same, in related states, unless the first run gives up
with a pause that `gives` admits. -/
inductive Outcome.Agree (R : Machine → Machine → Prop) (gives : Pause → Prop) {α : Type} :
    Outcome α → Outcome α → Prop
  | ok {a : α} {m n : Machine} : R m n → Agree R gives (.ok a m) (.ok a n)
  | error {e : Error} {m n : Machine} : R m n → Agree R gives (.error e m) (.error e n)
  | paused {p : Pause} : Agree R gives (.paused p) (.paused p)
  | gaveUp {p : Pause} {o : Outcome α} : gives p → Agree R gives (.paused p) o

theorem Outcome.Agree.ok_of_eq {R : Machine → Machine → Prop} {gives : Pause → Prop} {α : Type}
    {a b : α} {m n : Machine} (hab : a = b) (h : R m n) :
    Agree R gives (.ok a m) (.ok b n) :=
  hab ▸ .ok h

/-- From related states the two actions have outcomes that agree. -/
def Action.Tracks (R : Machine → Machine → Prop) (gives : Pause → Prop) {α : Type}
    (x y : Action α) : Prop :=
  ∀ m n, R m n → (x m).Agree R gives (y n)

/-- Two states that differ in their depths and limits only, and in the lines that come in and go
out. -/
structure Machine.Matches (m n : Machine) : Prop where
  frames : m.frames = n.frames
  cells : m.cells = n.cells
  hosts : m.hosts = n.hosts
  objects : m.objects = n.objects
  root : m.root = n.root
  files : m.world.files = n.world.files
  clock : m.world.clock = n.world.clock

/-- The same state with another input. -/
def Machine.withInput (m : Machine) (input : Option (List (Option String))) : Machine :=
  { m with world := { m.world with input } }

/-- The same state after some more output. -/
def Machine.printed (m : Machine) (s : String) : Machine :=
  { m with world := { m.world with output := m.world.output ++ s } }

/-- A relation between matching states that stay related when both are changed as actions change
them. Either they have the same input, or the first one has none and a wait for it is a reason to
give up. -/
structure Stable (R : Machine → Machine → Prop) (gives : Pause → Prop) : Prop where
  same {m n : Machine} : R m n → m.Matches n
  define {m n : Machine} (f : FrameId) (name : String) (v : Value) : R m n →
    R { m with frames := m.frames.set f name v } { n with frames := n.frames.set f name v }
  enter {m n : Machine} (frame : Frame) : R m n →
    R { m with frames := m.frames.push frame } { n with frames := n.frames.push frame }
  newCell {m n : Machine} (v : Value) : R m n →
    R { m with cells := m.cells.push v } { n with cells := n.cells.push v }
  writeCell {m n : Machine} (id : Nat) (v : Value) : R m n →
    R { m with cells := m.cells.setIfInBounds id v } { n with cells := n.cells.setIfInBounds id v }
  newObject {m n : Machine} : R m n →
    R { m with objects := m.objects + 1 } { n with objects := n.objects + 1 }
  print {m n : Machine} (s : String) : R m n → R (m.printed s) (n.printed s)
  input {m n : Machine} : R m n → (gives .input ∧ m.world.input = none) ∨
    (m.world.input = n.world.input ∧ ∀ input, R (m.withInput input) (n.withInput input))

section

variable {R : Machine → Machine → Prop} {gives : Pause → Prop}

namespace Action

/-! ## Sequencing -/

theorem bind_apply {α β : Type} (x : Action α) (f : α → Action β) (m : Machine) :
    (x >>= f) m = match x m with
      | .ok a m' => f a m'
      | .error e m' => .error e m'
      | .paused p => .paused p :=
  rfl

namespace Tracks

variable {α β : Type} {x y : Action α}

theorem pure (a : α) : Tracks R gives (Pure.pure a) (Pure.pure a) :=
  fun _ _ h => .ok h

theorem fail (e : Error) : Tracks R gives (Action.fail e : Action α) (Action.fail e) :=
  fun _ _ h => .error h

theorem pause (p : Pause) : Tracks R gives (Action.pause p : Action α) (Action.pause p) :=
  fun _ _ _ => .paused

theorem ofExcept (r : Except Error α) : Tracks R gives (Action.ofExcept r) (Action.ofExcept r) := by
  cases r with
  | ok a => exact .pure a
  | error e => exact .fail e

theorem bind {f g : α → Action β} (hx : Tracks R gives x y)
    (hf : ∀ a, Tracks R gives (f a) (g a)) : Tracks R gives (x >>= f) (y >>= g) := by
  intro m n h
  have hxy := hx m n h
  rw [bind_apply, bind_apply]
  generalize x m = o, y n = o' at hxy ⊢
  cases hxy with
  | ok h => exact hf _ _ _ h
  | error h => exact .error h
  | paused => exact .paused
  | gaveUp hp => exact .gaveUp hp

theorem attempt {f g : Except Error α → Action β} (hx : Tracks R gives x y)
    (hf : ∀ r, Tracks R gives (f r) (g r)) :
    Tracks R gives (Action.attempt x f) (Action.attempt y g) := by
  intro m n h
  have hxy := hx m n h
  unfold Action.attempt
  generalize x m = o, y n = o' at hxy ⊢
  cases hxy with
  | ok h => exact hf _ _ _ h
  | error h => exact hf _ _ _ h
  | paused => exact .paused
  | gaveUp hp => exact .gaveUp hp

/-- Below the limit it is enough that outcomes agree one level deeper. -/
theorem nested {S : Machine → Machine → Prop}
    (hsame : ∀ m n, R m n → m.depth = n.depth ∧ m.depthLimit = n.depthLimit)
    (hx : ∀ m n, R m n → m.depth < m.depthLimit →
      (x { m with depth := m.depth + 1 }).Agree S gives (y { n with depth := n.depth + 1 }))
    (hout : ∀ m n, S m n → R { m with depth := m.depth - 1 } { n with depth := n.depth - 1 }) :
    Tracks R gives (Action.nested x) (Action.nested y) := by
  intro m n h
  obtain ⟨hdepth, hlimit⟩ := hsame m n h
  have hiff : m.depthLimit < m.depth + 1 ↔ n.depthLimit < n.depth + 1 := by rw [hdepth, hlimit]
  unfold Action.nested
  by_cases hdeep : m.depthLimit < m.depth + 1
  · rw [if_pos hdeep, if_pos (hiff.mp hdeep)]
    exact .error h
  · rw [if_neg hdeep, if_neg (mt hiff.mpr hdeep)]
    have hxy := hx m n h (by omega)
    generalize x _ = o, y _ = o' at hxy ⊢
    cases hxy with
    | ok h => exact .ok (hout _ _ h)
    | error h => exact .error (hout _ _ h)
    | paused => exact .paused
    | gaveUp hp => exact .gaveUp hp

end Tracks

/-! ## Actions on the state -/

section

variable (hR : Stable R gives)
include hR

theorem tracks_lookup (f : FrameId) (name : String) :
    Tracks R gives (lookup f name) (lookup f name) := by
  intro m n h
  unfold lookup
  rw [(hR.same h).frames]
  exact Tracks.ofExcept _ m n h

theorem tracks_define (f : FrameId) (name : String) (v : Value) :
    Tracks R gives (define f name v) (define f name v) :=
  fun _ _ h => .ok (hR.define f name v h)

theorem tracks_enter (parent : FrameId) (bindings : Bindings) :
    Tracks R gives (enter parent bindings) (enter parent bindings) :=
  fun _ _ h => .ok_of_eq (congrArg Array.size (hR.same h).frames) (hR.enter _ h)

theorem tracks_enterCall (scope : FrameId) (params args : List Value) :
    Tracks R gives (enterCall scope params args) (enterCall scope params args) := by
  intro m n h
  have hbind : Params.bind (some m.objects) params args =
      Params.bind (some n.objects) params args := by
    rw [(hR.same h).objects]
  unfold enterCall
  rw [hbind]
  split
  · exact tracks_enter hR scope _ _ _ (hR.newObject h)
  · exact .error h

theorem tracks_root : Tracks R gives root root := by
  intro m n h
  unfold root
  rw [(hR.same h).root]
  split
  · exact .ok h
  · exact .error h

theorem tracks_make (v : Value) : Tracks R gives (make v) (make v) :=
  fun _ _ h => .ok_of_eq (congrArg v.identify (hR.same h).objects) (hR.newObject h)

theorem tracks_newCell (v : Value) : Tracks R gives (newCell v) (newCell v) :=
  fun _ _ h => .ok_of_eq (congrArg Array.size (hR.same h).cells) (hR.newCell v h)

theorem tracks_readCell (id : Nat) : Tracks R gives (readCell id) (readCell id) := by
  intro m n h
  unfold readCell
  rw [(hR.same h).cells]
  split
  · exact .ok h
  · exact .error h

theorem tracks_writeCell (id : Nat) (v : Value) :
    Tracks R gives (writeCell id v) (writeCell id v) := by
  intro m n h
  have hsize : id < m.cells.size ↔ id < n.cells.size := by rw [(hR.same h).cells]
  unfold writeCell
  by_cases hid : id < n.cells.size
  · rw [if_pos (hsize.mpr hid), if_pos hid]
    exact .ok (hR.writeCell id v h)
  · rw [if_neg (mt hsize.mp hid), if_neg hid]
    exact .error h

theorem tracks_textOf (style : Style) (v : Value) :
    Tracks R gives (textOf style v) (textOf style v) :=
  fun _ _ h => .ok_of_eq (congrArg (v.text · style) (hR.same h).cells) h

theorem tracks_write (s : String) : Tracks R gives (write s) (write s) :=
  fun _ _ h => .ok (hR.print s h)

theorem tracks_nextLine : Tracks R gives nextLine nextLine := by
  intro m n h
  unfold nextLine
  rcases hR.input h with ⟨hp, hnone⟩ | ⟨hsame, hrest⟩
  · rw [hnone]
    exact .gaveUp hp
  · rw [hsame]
    split
    · exact .paused
    · exact .ok h
    · dsimp only
      split
      · exact .ok (hrest _)
      · exact .ok (hrest _)

theorem tracks_readFile (reader path : String) :
    Tracks R gives (readFile reader path) (readFile reader path) := by
  intro m n h
  unfold readFile
  rw [(hR.same h).files]
  split
  · exact .paused
  · exact .ok h
  · exact .error h

end

end Action

/-! ## Builtin functions -/

section

variable (hR : Stable R gives)
include hR

theorem CellOp.tracks_run (op : CellOp) (args : List Value) :
    Action.Tracks R gives (op.run args) (op.run args) := by
  unfold run
  split
  · exact .bind (Action.tracks_newCell hR _) fun id => .pure _
  · exact .bind (.ofExcept _) fun id => Action.tracks_readCell hR id
  · exact .bind (.ofExcept _) fun id => Action.tracks_writeCell hR id _
  · exact .fail _

theorem ConsoleOp.tracks_printLine (style : Style) (args : List Value) :
    Action.Tracks R gives (printLine style args) (printLine style args) := by
  intro m n h
  have hwrite : Action.Tracks R gives (do
      Action.write (Value.joinedText n.cells style " " args ++ "\n")
      return .nil : Action Value) _ := .bind (Action.tracks_write hR _) fun _ => .pure Value.nil
  have htext : printLine style args m = (do
      Action.write (Value.joinedText n.cells style " " args ++ "\n")
      return .nil : Action Value) m := by
    rw [← (hR.same h).cells]
    rfl
  rw [htext]
  exact hwrite m n h

theorem ConsoleOp.tracks_promptLine (prompt : String) :
    Action.Tracks R gives (promptLine prompt) (promptLine prompt) := by
  refine .bind (Action.tracks_write hR prompt) fun _ =>
    .bind (Action.tracks_nextLine hR) fun line => ?_
  split
  · exact .pure _
  · exact .pure _
  · exact .fail _

theorem ConsoleOp.tracks_run (op : ConsoleOp) (args : List Value) :
    Action.Tracks R gives (op.run args) (op.run args) := by
  unfold run
  split
  · exact tracks_printLine hR _ _
  · exact tracks_printLine hR _ _
  · exact .bind (.ofExcept _) fun path => .bind (Action.tracks_readFile hR _ path) fun _ => .pure _
  · exact .bind (.ofExcept _) fun prompt => tracks_promptLine hR prompt
  · intro m n h
    exact .ok_of_eq (congrArg Value.int (hR.same h).clock) h
  · exact .fail _

theorem Step.tracks_callHost (name : String) (id : Nat) (args : List Value) :
    Action.Tracks R gives (callHost name id args) (callHost name id args) := by
  intro m n h
  unfold callHost
  rw [(hR.same h).hosts]
  split
  · exact Action.Tracks.ofExcept _ m n h
  · exact .error h

end

/-! ## Evaluators -/

/-- One evaluator tracks another in whatever it evaluates and calls. -/
structure Evaluator.Tracks (R : Machine → Machine → Prop) (gives : Pause → Prop)
    (ev ev' : Evaluator) : Prop where
  eval (code : Value) (scope : FrameId) :
    Action.Tracks R gives (ev.eval code scope) (ev'.eval code scope)
  call (f : Value) (args : List Value) : Action.Tracks R gives (ev.call f args) (ev'.call f args)

section

variable (hR : Stable R gives) {ev ev' : Evaluator} (hev : Evaluator.Tracks R gives ev ev')

section

include hev

theorem ControlOp.tracks_mapCall (f : Value) (items : List Value) :
    Action.Tracks R gives (mapCall ev f items) (mapCall ev' f items) := by
  induction items with
  | nil => exact .pure []
  | cons item rest ih => exact .bind (hev.call f [item]) fun v => .bind ih fun vs => .pure _

theorem Step.tracks_evalAll (scope : FrameId) (items : List Value) :
    Action.Tracks R gives (evalAll ev scope items) (evalAll ev' scope items) := by
  induction items with
  | nil => exact .pure []
  | cons code rest ih => exact .bind (hev.eval code scope) fun v => .bind ih fun vs => .pure _

theorem Step.tracks_evalEntries (scope : FrameId) (entries : Table) :
    Action.Tracks R gives (evalEntries ev scope entries) (evalEntries ev' scope entries) := by
  induction entries with
  | nil => exact .pure []
  | cons entry rest ih => exact .bind (hev.eval entry.2 scope) fun v => .bind ih fun es => .pure _

theorem Step.tracks_inSequence (scope : FrameId) (code : Value) (rest : List Value) :
    Action.Tracks R gives (inSequence ev scope code rest) (inSequence ev' scope code rest) := by
  induction rest generalizing code with
  | nil => exact .pure _
  | cons next rest ih => exact .bind (hev.eval code scope) fun _ => ih next

end

include hR hev

theorem ControlOp.tracks_run (op : ControlOp) (args : List Value) :
    Action.Tracks R gives (op.run ev args) (op.run ev' args) := by
  unfold run
  split
  · exact .fail _
  · exact .bind (Action.tracks_root hR) fun f => hev.eval _ f
  · refine .bind (.ofExcept _) fun items => .bind (tracks_mapCall hev _ items) fun results => ?_
    exact Action.tracks_make hR _
  · exact .bind (.ofExcept _) fun args => hev.call _ args
  · refine .bind (.ofExcept _) fun id => .bind (Action.tracks_readCell hR id) fun current => ?_
    exact .bind (hev.call _ _) fun next => Action.tracks_writeCell hR id next
  · exact .fail _

theorem Builtin.tracks_run (b : Builtin) (args : List Value) :
    Action.Tracks R gives (b.run ev args) (b.run ev' args) := by
  cases b with
  | arithmetic op => exact .ofExcept _
  | comparison op => exact .ofExcept _
  | predicate op => exact .ofExcept _
  | sequence op => exact .bind (.ofExcept _) fun v => Action.tracks_make hR v
  | table op => exact .bind (.ofExcept _) fun v => Action.tracks_make hR v
  | text op =>
    intro m n h
    simp only [run, (hR.same h).cells]
    exact Action.Tracks.ofExcept _ m n h
  | cell op => exact op.tracks_run hR args
  | console op => exact op.tracks_run hR args
  | control op => exact op.tracks_run hR hev args

/-! ## Steps -/

namespace Step

theorem tracks_evalData (scope : FrameId) (v : Value) :
    Action.Tracks R gives (evalData ev scope v) (evalData ev' scope v) := by
  unfold evalData
  split
  · exact Action.tracks_lookup hR scope _
  · exact .bind (tracks_evalAll hev scope _) fun vs => Action.tracks_make hR _
  · exact .bind (tracks_evalAll hev scope _) fun vs => Action.tracks_make hR _
  · exact .bind (tracks_evalEntries hev scope _) fun es => Action.tracks_make hR _
  · exact .pure _

theorem tracks_bindPairs (scope : FrameId) (pairs : List Value) :
    Action.Tracks R gives (bindPairs ev scope pairs) (bindPairs ev' scope pairs) := by
  fun_induction bindPairs ev scope pairs with
  | case1 target code rest ih =>
    rw [bindPairs]
    refine .bind (.ofExcept _) fun name => .bind (hev.eval code scope) fun v => ?_
    exact .bind (Action.tracks_define hR scope name v) fun _ => ih
  | case2 pairs hpairs =>
    rw [bindPairs.eq_2 _ _ _ hpairs]
    exact .pure ()

theorem tracks_apply (args : List Value) (f : Value) :
    Action.Tracks R gives (apply ev args f) (apply ev' args f) := by
  unfold apply
  split
  · exact .bind (Builtin.tracks_run hR hev _ args) fun v => .pure _
  · exact .bind (tracks_callHost hR _ _ args) fun v => .pure _
  · exact .bind (Action.tracks_enterCall hR _ _ args) fun frame => .pure _
  · exact .bind (Action.tracks_textOf hR .readable _) fun text => .fail _

theorem tracks_callForm (scope : FrameId) (head : Value) (operands : List Value) :
    Action.Tracks R gives (callForm ev scope head operands) (callForm ev' scope head operands) :=
  .bind (hev.eval head scope) fun f => .bind (tracks_evalAll hev scope operands) fun args =>
    tracks_apply hR hev args f

section

variable {expand expand' : Value → FrameId → Action Value}
  (hexpand : ∀ form scope, Action.Tracks R gives (expand form scope) (expand' form scope))
include hexpand

theorem tracks_special (scope : FrameId) (form : SpecialForm) (args : List Value) :
    Action.Tracks R gives (special ev expand scope form args)
      (special ev' expand' scope form args) := by
  unfold special
  split
  · exact .bind (hev.eval _ scope) fun c => .pure _
  · exact .bind (hev.eval _ scope) fun c => .pure _
  · refine .bind (.ofExcept _) fun name => .bind (hev.eval _ scope) fun v => ?_
    exact .bind (Action.tracks_define hR scope name v) fun _ => .pure _
  · refine .bind (.ofExcept _) fun name => .bind (hev.eval _ scope) fun v => ?_
    refine .bind (.ofExcept _) fun expander => ?_
    exact .bind (Action.tracks_define hR scope name expander) fun _ => .pure _
  · refine .bind (.ofExcept _) fun pairs => .bind (Action.tracks_enter hR scope []) fun inner => ?_
    exact .bind (tracks_bindPairs hR hev inner pairs) fun _ => .pure _
  · exact tracks_inSequence hev scope _ _
  · exact .bind (.ofExcept _) fun params => .pure _
  · exact .pure _
  · exact .bind (.ofExcept _) fun code => .pure _
  · exact .bind (hexpand _ scope) fun expanded => .pure _
  · exact .pure _
  · refine .bind (.ofExcept _) fun clause => .attempt (hev.eval _ scope) fun r => ?_
    cases r with
    | ok v => exact .pure _
    | error e => exact .bind (Action.tracks_enter hR scope _) fun inner => .pure _
  · exact .fail _

theorem tracks_ofForm (scope : FrameId) (form : Value) :
    Action.Tracks R gives (ofForm ev expand scope form) (ofForm ev' expand' scope form) := by
  unfold ofForm
  split
  · split
    · exact tracks_special hR hev hexpand scope _ _
    · exact tracks_callForm hR hev scope _ _
  · exact .bind (tracks_evalData hR hev scope form) fun v => .pure _

end

end Step

/-! ## Runs -/

namespace Evaluator

omit hR hev in
/-- A macro call is expanded once, and the form that results is expanded further. -/
theorem expand_succ (ev : Evaluator) (fuel : Nat) (form : Value) (scope : FrameId) (m : Machine) :
    ev.expand (fuel + 1) form scope m =
      match macroCall? m.frames scope form with
      | none => .ok form m
      | some call => (do
          let frame ← Action.enterCall call.scope call.params call.operands
          let next ← ev.eval call.body frame
          ev.expand fuel next scope) m := by
  rw [expand]
  dsimp only
  cases macroCall? m.frames scope form with
  | none => rfl
  | some call =>
    simp only [Action.bind_apply]
    cases Action.enterCall call.scope call.params call.operands m with
    | ok frame m' => dsimp only; cases ev.eval call.body frame m' <;> rfl
    | error e m' => rfl
    | paused p => rfl

omit hR hev in
/-- An expression is expanded and takes a step, which has the value or leads on. -/
theorem loop_succ (ev : Evaluator) (fuel : Nat) (code : Value) (scope : FrameId) :
    ev.loop (fuel + 1) code scope = (do
      let form ← ev.expand fuel code scope
      match ← Step.ofForm ev (ev.expand fuel) scope form with
      | .done v => return v
      | .tail code' scope' => ev.loop fuel code' scope') := by
  funext m
  rw [loop]
  simp only [Action.bind_apply]
  cases ev.expand fuel code scope m with
  | ok form m' =>
    dsimp only
    cases Step.ofForm ev (ev.expand fuel) scope form m' with
    | ok step m'' => cases step <;> rfl
    | error e m'' => rfl
    | paused p => rfl
  | error e m' => rfl
  | paused p => rfl

/-- Two amounts of fuel for runs of which the first tracks the second: they are the same, or the
first is less and running out of it is a reason to give up. -/
def FuelFor (gives : Pause → Prop) (fuel fuel' : Nat) : Prop :=
  fuel = fuel' ∨ gives .fuel ∧ fuel ≤ fuel'

omit hR hev in
theorem FuelFor.refl (gives : Pause → Prop) (fuel : Nat) : FuelFor gives fuel fuel :=
  Or.inl rfl

omit hR hev in
theorem FuelFor.succ {fuel fuel' : Nat} (h : FuelFor gives (fuel + 1) fuel') :
    ∃ k, fuel' = k + 1 ∧ FuelFor gives fuel k := by
  rcases h with h | ⟨hp, h⟩
  · exact ⟨fuel, h.symm, Or.inl rfl⟩
  · obtain ⟨k, rfl⟩ := Nat.exists_eq_add_of_lt h
    exact ⟨fuel + k, rfl, Or.inr ⟨hp, Nat.le_add_right fuel k⟩⟩

omit hR hev in
/-- A run without fuel tracks a run that would pause without it. -/
theorem FuelFor.zero {fuel' : Nat} (h : FuelFor gives 0 fuel') {α : Type} {y : Action α}
    (hy : fuel' = 0 → y = Action.pause .fuel) : Action.Tracks R gives (Action.pause .fuel) y := by
  rcases h with h | ⟨hp, -⟩
  · rw [hy h.symm]
    exact .pause .fuel
  · exact fun _ _ _ => .gaveUp hp

theorem tracks_expand {fuel fuel' : Nat} (hfuel : FuelFor gives fuel fuel') (form : Value)
    (scope : FrameId) :
    Action.Tracks R gives (ev.expand fuel form scope) (ev'.expand fuel' form scope) := by
  induction fuel generalizing fuel' form with
  | zero =>
    refine hfuel.zero fun h => ?_
    rw [h, expand]
  | succ fuel ih =>
    obtain ⟨k, rfl, hk⟩ := hfuel.succ
    intro m n h
    -- Whether the form is a macro call is seen in the frames, which both states share.
    rw [expand_succ, expand_succ, (hR.same h).frames]
    split
    · exact .ok h
    · next call _ =>
      have hcall : Action.Tracks R gives
          (do let frame ← Action.enterCall call.scope call.params call.operands
              let next ← ev.eval call.body frame
              ev.expand fuel next scope) _ :=
        .bind (Action.tracks_enterCall hR _ _ _) fun frame =>
          .bind (hev.eval call.body frame) fun next => ih hk next
      exact hcall m n h

theorem tracks_loop {fuel fuel' : Nat} (hfuel : FuelFor gives fuel fuel') (code : Value)
    (scope : FrameId) :
    Action.Tracks R gives (ev.loop fuel code scope) (ev'.loop fuel' code scope) := by
  induction fuel generalizing fuel' code scope with
  | zero =>
    refine hfuel.zero fun h => ?_
    rw [h, loop]
  | succ fuel ih =>
    obtain ⟨k, rfl, hk⟩ := hfuel.succ
    have hexpand := tracks_expand hR hev hk
    rw [loop_succ, loop_succ]
    refine .bind (hexpand code scope) fun form => ?_
    refine .bind (Step.tracks_ofForm hR hev hexpand scope form) fun step => ?_
    cases step with
    | done v => exact .pure v
    | tail code' scope' => exact ih hk code' scope'

theorem tracks_applied (f : Value) (args : List Value) :
    Action.Tracks R gives (ev.applied f args) (ev'.applied f args) := by
  refine .bind (Step.tracks_apply hR hev args f) fun step => ?_
  cases step with
  | done v => exact .pure v
  | tail body frame => exact hev.eval body frame

end Evaluator

end

end

end Lisp
