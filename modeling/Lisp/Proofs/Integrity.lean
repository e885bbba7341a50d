import Lisp.Proofs.Depth
import Lisp.Proofs.Mirror

/-!
# What never breaks

From the start of an interpreter on, whatever it is asked and however that ends, nothing that its
state holds or that is passed around in a run names a cell or a frame that does not exist, and maps
have proper keys, each of them once. This is said of the states between requests, and of every
moment of a run by an evaluator that oversees itself: before and after each evaluation and each call
it looks at the state and at the values in play, and gives up as soon as something is amiss.
-/

namespace Lisp

/-! ## Oversight -/

/-- The values of a result, a thrown one included. -/
def valuesOf : Except Error (List Value) → List Value
  | .ok vs => vs
  | .error e => [e.payload]

/-- What is allowed in a state, given the values in play or the error that has come up. -/
abbrev Policy := Machine → Except Error (List Value) → Prop

/-- The outcome, unless it is a pause, is allowed. -/
def Outcome.Leaves (allowed : Policy) : Outcome Value → Prop
  | .ok v m => allowed m (.ok [v])
  | .error e m => allowed m (.error e)
  | .paused _ => True

open Classical in
/-- Runs an action on the given values, and gives up with the alarm if they are not allowed or what
the action leaves is not. -/
noncomputable def Action.overseen (allowed : Policy) (alarm : Pause) (given : List Value)
    (x : Action Value) : Action Value := fun m =>
  if allowed m (.ok given) ∧ (x m).Leaves allowed then x m else .paused alarm

section

variable (allowed : Policy) (alarm : Pause)

mutual

/-- Evaluates an expression and oversees every evaluation and call on the way. Code that is to be
evaluated in a frame counts as a closure made there. -/
noncomputable def overseenEval : Nat → Value → FrameId → Action Value
  | 0, _, _ => Action.pause .fuel
  | fuel + 1, code, scope =>
    Action.overseen allowed alarm [.closure [] code scope false]
      (Action.nested (Evaluator.loop ⟨overseenEval fuel, overseenCall fuel⟩ fuel code scope))

/-- Applies a function and oversees every evaluation and call on the way. -/
noncomputable def overseenCall : Nat → Value → List Value → Action Value
  | 0, _, _ => Action.pause .fuel
  | fuel + 1, f, args =>
    Action.overseen allowed alarm (f :: args)
      (Evaluator.applied ⟨overseenEval fuel, overseenCall fuel⟩ f args)

end

/-- The evaluator that oversees itself. It behaves like the plain one, whatever the alarm, just if
nothing comes up that is not allowed. -/
noncomputable def overseenEvaluator (fuel : Nat) : Evaluator :=
  ⟨overseenEval allowed alarm fuel, overseenCall allowed alarm fuel⟩

end

/-! ## Two runs on one state -/

/-- Two runs that differ in nothing. -/
def Pairing.same (depth limit : Nat) : Pairing := ⟨.id, depth, 0, limit, fun _ => False⟩

theorem Value.Sound.rename_id {x : Extent} {v : Value} (h : v.Sound x) : v.rename .id = v :=
  rename_eq_self (Renaming.fixes_id x) v h

theorem Value.map_rename_id {x : Extent} {vs : List Value} (h : ∀ v ∈ vs, v.Sound x) :
    vs.map (rename .id) = vs :=
  map_rename_eq_self (Renaming.fixes_id x) h

theorem Error.Sound.rename_id {x : Extent} {e : Error} (h : e.Sound x) : e.rename .id = e := by
  cases e with
  | thrown v => exact congrArg Error.thrown (Value.Sound.rename_id h)
  | _ => rfl

theorem Machine.Sound.copied_self {m : Machine} (h : m.Sound) :
    m.Copied (.same m.depth m.depthLimit) m :=
  h.copied (Renaming.fixes_id _) (fun _ _ => rfl) (fun _ => rfl) (fun _ => rfl) rfl rfl rfl rfl rfl
    rfl rfl rfl

section

variable {depth limit : Nat} {m n : Machine}

theorem Machine.Copied.eq (h : m.Copied (.same depth limit) n) : n = m := by
  have hframes : n.frames = m.frames := by
    refine Array.ext_getElem? fun f => ?_
    cases hf : m.frames[f]? with
    | some frame =>
      have hlt : f < m.frames.size := (Array.getElem?_eq_some_iff.mp hf).1
      have hcopy : n.frames[f]? = some (frame.rename .id) := h.frames hf
      rwa [(h.sound.frames hf).rename_eq_self (Renaming.fixes_id _) hlt] at hcopy
    | none =>
      have hsize : m.frames.size = n.frames.size := h.frames_size
      exact Array.getElem?_eq_none (hsize ▸ Array.getElem?_eq_none_iff.mp hf)
  have hcells : n.cells = m.cells := by
    rw [h.cells]
    refine (Array.map_congr_left fun v hv => ?_).trans (Array.map_id _)
    exact (h.sound.cells v hv).rename_id
  have hroot : n.root = m.root := h.root.trans Option.map_id'
  have hobjects : n.objects = m.objects := h.objects.symm
  have hdepth : n.depth = m.depth := h.lift.trans h.depth.symm
  have hlimit : n.depthLimit = m.depthLimit := h.limit_copy.trans h.limit.symm
  cases n
  cases m
  simp only [Machine.mk.injEq]
  exact ⟨hframes, hcells, h.hosts, hobjects, hroot, hdepth, hlimit, h.world⟩

theorem Outcome.Mirrors.eq {x : Extent} {o o' : Outcome Value}
    (h : o.Mirrors (.same depth limit) .value x o') : o' = o := by
  cases h with
  | ok _ hmn hv =>
    rw [hmn.eq]
    exact congrArg (Outcome.ok · _) hv.rename_id
  | error _ hmn he =>
    rw [hmn.eq]
    exact congrArg (Outcome.error · _) he.rename_id
  | paused => rfl
  | gaveUp hp => exact hp.elim

theorem Outcome.Mirrors.ends_sound {x : Extent} {o o' : Outcome Value}
    (h : o.Mirrors (.same depth limit) .value x o') : o.Ends Machine.Sound := by
  cases h with
  | ok _ hmn _ => exact hmn.sound
  | error _ hmn _ => exact hmn.sound
  | paused => trivial
  | gaveUp hp => exact hp.elim

end

/-! ## Nothing amiss -/

/-- The values in play, or those that an error holds, are sound. -/
def SoundIn (x : Extent) : Except Error (List Value) → Prop
  | .ok vs => ∀ v ∈ vs, v.Sound x
  | .error e => e.Sound x

/-- A policy that allows all that is sound. -/
def Policy.AllowsSound (allowed : Policy) : Prop :=
  ∀ m result, m.Sound → SoundIn m.extent result → allowed m result

section

variable {allowed : Policy} (hallowed : allowed.AllowsSound) {depth limit : Nat}
include hallowed

theorem Outcome.Mirrors.leaves {x : Extent} {o o' : Outcome Value}
    (h : o.Mirrors (.same depth limit) .value x o') : o.Leaves allowed := by
  cases h with
  | ok _ hmn hv => exact hallowed _ _ hmn.sound (List.forall_mem_singleton.mpr hv)
  | error _ hmn he => exact hallowed _ _ hmn.sound he
  | paused => trivial
  | gaveUp hp => exact hp.elim

theorem Action.Mirrors.overseen (alarm : Pause) {x : Extent} {given : List Value}
    (hgiven : ∀ v ∈ given, v.Sound x) {a b : Action Value}
    (hab : Mirrors (.same depth limit) .value x a b) :
    Mirrors (.same depth limit) .value x a (b.overseen allowed alarm given) := by
  intro m n hle hmn
  have h := hab m n hle hmn
  have hb : (b n).Leaves allowed := h.eq ▸ h.leaves hallowed
  have hn : allowed n (.ok given) := hmn.eq ▸ hallowed m _ hmn.sound (Shape.values.mono hle hgiven)
  unfold Action.overseen
  rwa [if_pos ⟨hn, hb⟩]

theorem mirrors_overseenEvaluator (alarm : Pause) (fuel depth limit : Nat) :
    Evaluator.Mirrors (.same depth limit) (evaluator fuel)
      (overseenEvaluator allowed alarm fuel) := by
  -- The induction is on the fuel, for all depths: an evaluation runs its parts one level deeper.
  induction fuel generalizing depth with
  | zero => exact ⟨fun _ _ => .pause .fuel, fun _ _ => .pause .fuel⟩
  | succ fuel ih =>
    constructor
    · intro x code scope hcode hscope
      show Action.Mirrors _ _ x (eval (fuel + 1) code scope)
        (overseenEval allowed alarm (fuel + 1) (code.rename .id) scope)
      have hloop : Action.Mirrors (.same (depth + 1) limit) .value x
          ((evaluator fuel).loop fuel code scope)
          ((overseenEvaluator allowed alarm fuel).loop fuel (code.rename .id) scope) :=
        Evaluator.mirrors_loop (ih (depth + 1)) fuel hcode hscope
      have hgiven : ∀ v ∈ [Value.closure [] code scope false], v.Sound x :=
        List.forall_mem_singleton.mpr
          (Value.sound_closure.mpr ⟨hscope, hcode, List.forall_mem_nil _⟩)
      rw [hcode.rename_id] at hloop ⊢
      rw [eval, overseenEval]
      exact (Action.Mirrors.nested (S := .same depth limit) rfl hloop).overseen hallowed
        alarm hgiven
    · intro x f args hf hargs
      show Action.Mirrors _ _ x (call (fuel + 1) f args)
        (overseenCall allowed alarm (fuel + 1) (f.rename .id) (args.map (Value.rename .id)))
      have happlied : Action.Mirrors (.same depth limit) .value x
          ((evaluator fuel).applied f args)
          ((overseenEvaluator allowed alarm fuel).applied (f.rename .id)
            (args.map (Value.rename .id))) :=
        Evaluator.mirrors_applied (ih depth) hf hargs
      rw [hf.rename_id, Value.map_rename_id hargs] at happlied ⊢
      rw [call, overseenCall]
      exact happlied.overseen hallowed alarm (List.forall_mem_cons.mpr ⟨hf, hargs⟩)

end

/-! ## Sessions -/

section

variable {S : Pairing} {ev ev' : Evaluator} (hev : Evaluator.Mirrors S ev ev') {x : Extent}

namespace Interpreter

include hev in
theorem mirrors_evalRootWith {code : Value} (hcode : code.Sound x) :
    Action.Mirrors S .value x (evalRootWith ev code) (evalRootWith ev' (code.rename S.names)) :=
  .bind Action.mirrors_root fun _ hy _ hf => hev.eval (hcode.mono hy) hf

include hev in
theorem mirrors_evalFormsWith {last : Value} (hlast : last.Sound x) {forms : List Value}
    (hforms : ∀ form ∈ forms, form.Sound x) :
    Action.Mirrors S .value x (evalFormsWith ev last forms)
      (evalFormsWith ev' (last.rename S.names) (forms.map (Value.rename S.names))) := by
  induction forms generalizing x last with
  | nil => exact .pure (s := .value) hlast
  | cons form rest ih =>
    obtain ⟨hform, hrest⟩ := List.forall_mem_cons.mp hforms
    refine .bind (mirrors_evalRootWith hev hform) fun y hy v hv => ?_
    exact ih hv (Shape.values.mono hy hrest)

/-- What is read from a text does not depend on names. -/
theorem mirrors_readAll (source : String) :
    Action.Mirrors S .values x (Action.ofExcept (readAll source))
      (Action.ofExcept (readAll source)) := by
  have hyields := yields_readAll source
  refine .ofExcept (hyields.imp fun forms h => Shape.values.mono (Extent.empty_le x) h) ?_
  exact (hyields.map_eq_self fun forms h => Value.map_rename_eq_self S.names.fixes_empty h).symm

theorem mirrors_read (source : String) :
    Action.Mirrors S .value x (Action.ofExcept (read source)) (Action.ofExcept (read source)) := by
  have hyields := yields_read source
  refine .ofExcept (hyields.imp fun form h => Shape.value.mono (Extent.empty_le x) h) ?_
  exact (hyields.map_eq_self fun form h => Value.rename_eq_self S.names.fixes_empty form h).symm

include hev in
theorem mirrors_evalTextWith (source : String) :
    Action.Mirrors S .value x (evalTextWith ev source) (evalTextWith ev' source) :=
  .bind (mirrors_readAll source) fun _ _ _ hforms =>
    mirrors_evalFormsWith hev (Value.sound_of_isScalar rfl) hforms

theorem mirrors_setArguments (args : List String) :
    Action.Mirrors S (.plain Unit) x (setArguments args) (setArguments args) := by
  have hargs : (Value.list none (args.map .str)).Sound .empty := by
    refine Value.sound_list_none.mpr fun v hv => ?_
    obtain ⟨arg, -, rfl⟩ := List.mem_map.mp hv
    exact Value.sound_of_isScalar rfl
  refine .bind Action.mirrors_root fun y _ f _ => ?_
  have hdefine := Action.mirrors_define (S := S) f "*ARGV*" (hargs.mono (Extent.empty_le y))
  rwa [Value.rename_eq_self S.names.fixes_empty _ hargs] at hdefine

include hev in
theorem mirrors_answer (request : Request) :
    Action.Mirrors S .value x (request.answer ev) (request.answer ev') := by
  have hscalar : ∀ {y} {v : Value}, v.isScalar = true → Shape.value.sound y v :=
    fun h => Value.sound_of_isScalar h
  cases request with
  | evalText source => exact mirrors_evalTextWith hev source
  | readEvalPrint source =>
    refine .bind (mirrors_read source) fun y _ form hform => ?_
    refine .bind (mirrors_evalRootWith hev hform) fun z _ v _ => ?_
    refine .bind (Action.mirrors_textOf .readable v) fun w _ text _ => ?_
    exact .pure (s := .value) (hscalar rfl)
  | loadFile path =>
    refine .bind (Action.mirrors_readFile "load" path) fun y _ source _ => ?_
    refine .bind (mirrors_evalTextWith hev source) fun z _ _ _ => ?_
    exact .pure (s := .value) (hscalar rfl)
  | setArguments args =>
    exact .bind (mirrors_setArguments args) fun y _ _ _ => .pure (s := .value) (hscalar rfl)

end Interpreter

end

theorem Policy.allowsSound_true : Policy.AllowsSound fun _ _ => True :=
  fun _ _ _ _ => trivial

namespace Interpreter

theorem sound_bare (limit : Nat) (world : World) : (bare limit world).Sound where
  frames {f frame} hf := by
    have hmem : frame ∈ #[(⟨rootBindings, none⟩ : Frame)] := Array.mem_of_getElem? hf
    cases Array.mem_singleton.mp hmem
    refine ⟨fun binding hb => ?_, by simp⟩
    rcases List.mem_append.mp hb with hb | hb
    · obtain ⟨b, -, rfl⟩ := List.mem_map.mp hb
      exact Value.sound_of_isScalar rfl
    · simp only [List.mem_cons, List.not_mem_nil, or_false] at hb
      rcases hb with rfl | rfl
      · exact Value.sound_of_isScalar rfl
      · exact Value.sound_list_none.mpr (List.forall_mem_nil _)
  cells := by simp [bare]
  root := by simp [bare]
  hosts := by simp [bare]

/-- A run that answers a request leaves a sound state and sound values. -/
theorem mirrors_answer_self {m : Machine} (h : m.Sound) (request : Request) (fuel : Nat)
    {allowed : Policy} (hallowed : allowed.AllowsSound) (alarm : Pause) :
    (request.answer (evaluator fuel) m).Mirrors (.same m.depth m.depthLimit) .value m.extent
      (request.answer (overseenEvaluator allowed alarm fuel) m) :=
  mirrors_answer (mirrors_overseenEvaluator hallowed alarm fuel m.depth m.depthLimit) request m m
    (Extent.le_refl _) h.copied_self

theorem Session.sound {m n : Machine} (h : Session m n) (hm : m.Sound) : n.Sound := by
  have hserve : ∀ {n : Machine} (request : Request), n.Sound →
      Outcome.Ends Machine.Sound (request.run n) := by
    intro n request hn
    have hends := (mirrors_answer_self hn request fuel Policy.allowsSound_true .fuel).ends_sound
    rw [request.run_eq, Action.bind_apply]
    cases hanswer : request.answer (evaluator fuel) n with
    | ok v n' => rwa [hanswer] at hends
    | error e n' => rwa [hanswer] at hends
    | paused p => trivial
  induction h with
  | start => exact hm
  | served request _ hrun ih =>
    have hends := hserve request ih
    rwa [hrun] at hends
  | failed request _ hrun ih =>
    have hends := hserve request ih
    rwa [hrun] at hends
  | outside world _ ih => exact ⟨ih.frames, ih.cells, ih.root, ih.hosts⟩

end Interpreter

/-- Whatever allows all that is sound allows every state of a session, and every moment of every run
that answers a request in it. -/
theorem Policy.AllowsSound.session {allowed : Policy} (hallowed : allowed.AllowsSound)
    {withPrelude : Bool} {limit : Nat} {world : World} {m : Machine}
    (h : Interpreter.Session (Interpreter.start withPrelude limit world) m) :
    allowed m (.ok []) ∧ ∀ (request : Interpreter.Request) (fuel : Nat) (alarm : Pause),
      request.answer (overseenEvaluator allowed alarm fuel) m = request.answer (evaluator fuel) m ∧
      (request.answer (evaluator fuel) m).Leaves allowed := by
  have hstart := (Interpreter.session_start withPrelude limit world).sound
    (Interpreter.sound_bare limit world)
  have hm := h.sound hstart
  refine ⟨hallowed m _ hm (List.forall_mem_nil _), fun request fuel alarm => ?_⟩
  have hanswer := Interpreter.mirrors_answer_self hm request fuel hallowed alarm
  exact ⟨hanswer.eq, hanswer.leaves hallowed⟩

/-! ## Occurrence in a state -/

/-- A value stands in the state: some frame binds it, or some cell contains it. -/
def Machine.Holds (m : Machine) (v : Value) : Prop :=
  (∃ frame ∈ m.frames, ∃ binding ∈ frame.bindings, binding.2 = v) ∨ v ∈ m.cells

/-- A value occurs in something that stands in the state, or in one of the values in play. -/
def Machine.Has (m : Machine) (result : Except Error (List Value)) (w : Value) : Prop :=
  ∃ v, (m.Holds v ∨ v ∈ valuesOf result) ∧ w.Occurs v

theorem Machine.Sound.anchored {m : Machine} (h : m.Sound) {result : Except Error (List Value)}
    (hresult : SoundIn m.extent result) {w : Value} (hw : m.Has result w) :
    w.Anchored m.extent := by
  obtain ⟨v, hv, hwv⟩ := hw
  suffices hsound : v.Sound m.extent from hsound w hwv
  rcases hv with (⟨frame, hframe, binding, hb, rfl⟩ | hcell) | hplay
  · obtain ⟨f, hf⟩ := Array.mem_iff_getElem?.mp hframe
    exact (h.frames hf).bindings binding hb
  · exact h.cells v hcell
  · cases result with
    | ok vs => exact hresult v hplay
    | error e =>
      cases List.mem_singleton.mp hplay
      exact Error.Sound.payload hresult

theorem Outcome.exists_error_and {α : Type} {o : Outcome α} {P : Machine → Prop}
    (ho : (o matches .error _ _) = true) (h : ∀ e m, o = .error e m → P m) :
    ∃ e m, o = .error e m ∧ P m := by
  cases o with
  | ok a m => cases ho
  | error e m => exact ⟨e, m, rfl, h e m rfl⟩
  | paused p => cases ho

/-! ## Cells and frames -/

namespace Frames

/-- From the frame outwards there are only frames that exist, and there is an outermost one. -/
inductive Rooted (frames : Frames) : FrameId → Prop
  | outermost {f : FrameId} {frame : Frame} : frames[f]? = some frame → frame.parent = none →
      Rooted frames f
  | within {f p : FrameId} {frame : Frame} : frames[f]? = some frame → frame.parent = some p →
      Rooted frames p → Rooted frames f

/-- The search for a name, from a frame outwards for as long as it takes, ends with a value or with
none. -/
inductive Walk (frames : Frames) (name : String) : FrameId → Option Value → Prop
  | found {f : FrameId} {frame : Frame} {v : Value} : frames[f]? = some frame →
      frame.bindings.get? name = some v → Walk frames name f (some v)
  | outwards {f p : FrameId} {frame : Frame} {answer : Option Value} : frames[f]? = some frame →
      frame.bindings.get? name = none → frame.parent = some p → Walk frames name p answer →
      Walk frames name f answer
  | unbound {f : FrameId} {frame : Frame} : frames[f]? = some frame →
      frame.bindings.get? name = none → frame.parent = none → Walk frames name f none

end Frames

theorem Machine.Sound.rooted {m : Machine} (h : m.Sound) (f : FrameId) :
    f < m.frames.size → m.frames.Rooted f := by
  induction f using Nat.strongRecOn with
  | ind f ih =>
    intro hf
    have hframe := Array.getElem?_eq_getElem hf
    cases hp : m.frames[f].parent with
    | none => exact .outermost hframe hp
    | some p =>
      have hlt := (h.frames hframe).parent p hp
      exact .within hframe hp (ih p hlt (Nat.lt_trans hlt hf))

/-- The bound on a search never cuts it short. -/
theorem Machine.Sound.walk {m : Machine} (h : m.Sound) (name : String) (f : FrameId) :
    ∀ {depth : Nat}, f < m.frames.size → f < depth →
      m.frames.Walk name f (m.frames.find? name depth f) := by
  induction f using Nat.strongRecOn with
  | ind f ih =>
    intro depth hf hdepth
    have hframe := Array.getElem?_eq_getElem hf
    obtain ⟨k, rfl⟩ := Nat.exists_eq_add_of_lt hdepth
    rw [Frames.find?, hframe]
    dsimp only
    cases hname : m.frames[f].bindings.get? name with
    | some v => exact .found hframe hname
    | none =>
      cases hp : m.frames[f].parent with
      | none => exact .unbound hframe hname hp
      | some p =>
        have hlt := (h.frames hframe).parent p hp
        exact .outwards hframe hname hp
          (ih p hlt (Nat.lt_trans hlt hf) (Nat.lt_of_lt_of_le hlt (Nat.le_add_right f k)))

/-- No handle dangles: atoms name cells and closures name frames that exist, no error is about a
cell that does not, frames are nested in finitely many others, and names are looked up in all of
them. -/
structure Machine.Intact (m : Machine) (result : Except Error (List Value)) : Prop where
  atoms {id : Nat} : m.Has result (.atom id) → id < m.cells.size
  closures {params : List Value} {body : Value} {scope : FrameId} {isMacro : Bool} :
    m.Has result (.closure params body scope isMacro) → m.frames.Rooted scope
  known (id : Nat) : result ≠ .error (.eval (.unknownAtom id))
  frames {f : FrameId} : f < m.frames.size → m.frames.Rooted f
  lookups {f : FrameId} (name : String) : f < m.frames.size →
    m.frames.Walk name f (m.frames.get? f name)

theorem Machine.allowsSound_intact : Policy.AllowsSound Machine.Intact := by
  intro m result hm hresult
  refine ⟨fun hatom => hm.anchored hresult hatom, fun hclosure => ?_, fun id heq => ?_,
    fun hf => hm.rooted _ hf, fun name hf => hm.walk name _ hf (Nat.lt_succ_self _)⟩
  · exact hm.rooted _ (hm.anchored hresult hclosure)
  · subst heq
    have hsound : Error.Sound m.extent (.eval (.unknownAtom id)) := hresult
    exact hsound.ne_unknownAtom id rfl

open Interpreter in
/-- No handle dangles in any state of a session, nor at any moment of a run that answers a request,
with any amount of fuel: overseen by that policy, the run is the plain one. -/
theorem handles_never_dangle {withPrelude : Bool} {limit : Nat} {world : World} {m : Machine}
    (h : Session (start withPrelude limit world) m) :
    m.Intact (.ok []) ∧ ∀ (request : Request) (fuel : Nat) (alarm : Pause),
      request.answer (overseenEvaluator Machine.Intact alarm fuel) m =
        request.answer (evaluator fuel) m ∧
      (request.answer (evaluator fuel) m).Leaves Machine.Intact :=
  Machine.allowsSound_intact.session h

open Interpreter in
/-- A cell that contains a closure, made in a frame that binds another cell, which contains the
first one: no handle dangles after a call that throws them away. -/
theorem handles_never_dangle_cycle :
    ∃ e n, (Request.evalText "(def! a (atom nil)) (def! f (let* (b (atom [a])) (fn* (& x)
        (throw (list b x f))))) (reset! a \x7b\"k\" f\x7d) (f a)").run (start false 9 {}) =
        .error e n ∧
      n.Intact (.ok []) ∧ ∀ (request : Request) (fuel : Nat) (alarm : Pause),
        request.answer (overseenEvaluator Machine.Intact alarm fuel) n =
          request.answer (evaluator fuel) n ∧
        (request.answer (evaluator fuel) n).Leaves Machine.Intact :=
  Outcome.exists_error_and (by decide +kernel) fun _ _ hrun =>
    handles_never_dangle (.failed _ .start hrun)

/-! ## Keys of maps -/

/-- Every map has only strings and keywords for keys, and no two that are equal. -/
def Machine.WellKeyed (m : Machine) (result : Except Error (List Value)) : Prop :=
  ∀ id entries, m.Has result (.map id entries) →
    (∀ entry ∈ entries, entry.1.isKey = true) ∧
    entries.Pairwise fun a b => a.1.beq b.1 = false

theorem Machine.allowsSound_wellKeyed : Policy.AllowsSound Machine.WellKeyed := by
  intro m result hm hresult id entries hmap
  have hcanonical : Table.Canonical entries := (hm.anchored hresult hmap).2
  refine ⟨hcanonical.keyed, hcanonical.distinct.imp_of_mem fun {a b} _ hb hne => ?_⟩
  rw [← Bool.not_eq_true, Value.beq_iff_eq_of_isKey (hcanonical.keyed b hb)]
  exact hne

open Interpreter in
/-- Maps are well keyed in every state of a session, and at every moment of a run that answers a
request, with any amount of fuel. -/
theorem maps_stay_well_keyed {withPrelude : Bool} {limit : Nat} {world : World} {m : Machine}
    (h : Session (start withPrelude limit world) m) :
    m.WellKeyed (.ok []) ∧ ∀ (request : Request) (fuel : Nat) (alarm : Pause),
      request.answer (overseenEvaluator Machine.WellKeyed alarm fuel) m =
        request.answer (evaluator fuel) m ∧
      (request.answer (evaluator fuel) m).Leaves Machine.WellKeyed :=
  Machine.allowsSound_wellKeyed.session h

open Interpreter in
/-- Keys that are given twice, to a literal and to functions, stay single in a map that is
thrown. -/
theorem maps_stay_well_keyed_doubled :
    ∃ e n, (Request.evalText "(def! m \x7b:a 1 \"a\" \x7b:b 2 :b 3\x7d\x7d) (throw (assoc m :a
        (atom (hash-map \"b\" 1 \"b\" (dissoc m 5 :a))) :a 4))").run (start false 9 {}) =
        .error e n ∧
      n.WellKeyed (.ok []) ∧ ∀ (request : Request) (fuel : Nat) (alarm : Pause),
        request.answer (overseenEvaluator Machine.WellKeyed alarm fuel) n =
          request.answer (evaluator fuel) n ∧
        (request.answer (evaluator fuel) n).Leaves Machine.WellKeyed :=
  Outcome.exists_error_and (by decide +kernel) fun _ _ hrun =>
    maps_stay_well_keyed (.failed _ .start hrun)

end Lisp
