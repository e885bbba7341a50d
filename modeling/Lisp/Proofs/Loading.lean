import Lisp.Proofs.Integrity
import Lisp.Proofs.Limit
import Lisp.Proofs.Prelude
import Lisp.Proofs.Wrapping

/-!
# Two ways to load a file

An interpreter can be asked to load a file, and a program can call `load-file`, which is written in
the language itself: it makes the text of the file one form and evaluates that. Either way the forms
of the file are evaluated in the root frame one after another. In the call they are two levels
deeper, and a frame and an object have been made before them; as long as the recursion limit is not
met, that is all the difference there is.
-/

namespace Lisp

/-! ## Forms one after another -/

/-- A sequence that ends with `nil` evaluates the forms before it. -/
theorem Evaluator.loop_sequence {ev : Evaluator} {rounds : Nat} {id : ObjectId} {scope : FrameId}
    {forms : List Value} {m : Machine}
    (h : macroCall? m.frames scope (.list id (.sym "do" :: (forms ++ [.nil]))) = none) :
    ev.loop (rounds + 3) (.list id (.sym "do" :: (forms ++ [.nil]))) scope m =
      (ev.evalEach scope forms >>= fun _ => return .nil) m := by
  have hform : Step.ofForm ev (ev.expand (rounds + 2)) scope
      (.list id (.sym "do" :: (forms ++ [.nil]))) =
        ev.evalEach scope forms >>= fun _ => return .tail .nil scope :=
    Step.special_sequence ev (ev.expand (rounds + 2)) scope forms .nil
  rw [loop_succ, Action.bind_apply, expand_eq_self h]
  dsimp only
  rw [hform, Action.bind_assoc, Action.bind_apply, Action.bind_apply]
  cases ev.evalEach scope forms m <;> rfl

theorem mirrors_evalEach {S : Pairing} {ev ev' : Evaluator} (hev : Evaluator.Mirrors S ev ev')
    {x : Extent} {scope : FrameId} (hscope : scope < x.frames) {forms : List Value}
    (hforms : ∀ form ∈ forms, form.Sound x) :
    Action.Mirrors S (.plain Unit) x (ev.evalEach scope forms)
      (ev'.evalEach (S.names.frame scope) (forms.map (Value.rename S.names))) := by
  induction forms generalizing x with
  | nil => exact .pure (s := .plain Unit) trivial
  | cons form rest ih =>
    obtain ⟨hform, hrest⟩ := List.forall_mem_cons.mp hforms
    refine .bind (hev.eval hform hscope) fun y hy _ _ => ?_
    exact ih (Shape.frame.mono hy hscope) (Shape.values.mono hy hrest)

namespace Action

variable {β : Type} {m : Machine}

theorem readFile_bind {path content : String} (h : m.world.files path = some (.ok content))
    (reader : String) (next : String → Action β) :
    (readFile reader path >>= next) m = next content m := by
  rw [bind_apply, readFile, h]

end Action

theorem Interpreter.evalRootWith_eq {root : FrameId} {m : Machine} (hroot : m.root = some root)
    (ev : Evaluator) (code : Value) : evalRootWith ev code m = ev.eval code root m :=
  Action.root_bind hroot _

/-- The root frame stays the same, so forms are evaluated in it. -/
theorem Interpreter.evalFormsWith_eq {fuel : Nat} {root : FrameId} {m : Machine}
    (hroot : m.root = some root) (last : Value) (forms : List Value) :
    (evalFormsWith (evaluator fuel) last forms >>= fun _ => return Value.nil) m =
      ((evaluator fuel).evalEach root forms >>= fun _ => return Value.nil) m := by
  induction forms generalizing m last with
  | nil => rfl
  | cons form rest ih =>
    have hends : ((evaluator fuel).eval form root m).Ends fun n => n.root = some root :=
      (Machine.kept_setting fun r _ => r = some root).ends_eval hroot fuel form root
    rw [evalFormsWith, Evaluator.evalEach, Action.bind_assoc, Action.bind_assoc,
      Action.bind_apply, Action.bind_apply, evalRootWith_eq hroot]
    cases heval : (evaluator fuel).eval form root m with
    | ok v n =>
      rw [heval] at hends
      exact ih hends v
    | error e n => rfl
    | paused p => rfl

/-! ## A call of the loader -/

/-- The number with one left out. -/
def past (bound n : Nat) : Nat := if n < bound then n else n + 1

theorem past_of_lt {bound n : Nat} (h : n < bound) : past bound n = n :=
  if_pos h

theorem past_add (bound k : Nat) : past bound (bound + k) = bound + 1 + k := by
  rw [past, if_neg (by omega)]
  omega

theorem past_lt {bound i j : Nat} (h : i < j) : past bound i < past bound j := by
  unfold past
  split <;> split <;> omega

theorem past_injective {bound i j : Nat} (h : past bound i = past bound j) : i = j := by
  unfold past at h
  split at h <;> split at h <;> omega

/-- The next frame and the next object are left out. -/
def Renaming.shift (x : Extent) : Renaming :=
  ⟨past x.frames, past x.objects, past_lt, past_injective⟩

theorem Renaming.fixes_shift (x : Extent) : (shift x).Fixes x :=
  ⟨fun _ => past_of_lt, fun _ => past_of_lt⟩

namespace Loader

/-- As seen from the root frame, `load-file` is the function of the prelude, and the functions it
uses are the builtin ones. -/
structure Bound (frames : Frames) (root : FrameId) : Prop where
  loadFile : frames.get? root "load-file" =
    some (.closure [.sym "f"] Prelude.loadFileBody root false)
  eval : frames.get? root "eval" = some (.builtin (.control .eval))
  readString : frames.get? root "read-string" = some (.builtin (.text .readString))
  str : frames.get? root "str" = some (.builtin (.text .str))
  slurp : frames.get? root "slurp" = some (.builtin (.console .slurp))

/-- The call of `load-file` with the name of a file. -/
def loadFileCall (path : String) : Value := .list none [.sym "load-file", .str path]

/-- The state in the call: there is a frame for the parameter. -/
def called (m : Machine) (root : FrameId) (path : String) : Machine :=
  { m with
    frames := m.frames.push ⟨[("f", .str path)], some root⟩
    objects := m.objects + 1 }

/-- The run of a request, and the same in the call, which gives up where it meets the limit. -/
def pairing (m : Machine) (alarm : Pause) : Pairing :=
  ⟨.shift m.extent, m.depth, 2, m.depthLimit, (· = alarm)⟩

section

variable {m : Machine} (hm : m.Sound) (root : FrameId) (path : String)

include hm in
theorem copied_called (alarm : Pause) :
    m.Copied (pairing m alarm) ((called m root path).toDepth (m.depth + 2)) := by
  refine hm.copied (Renaming.fixes_shift _) (fun f hf => ?_) (fun k => ?_) (fun k => ?_) rfl rfl rfl
    rfl rfl rfl rfl rfl
  · show (m.frames.push _)[f]? = m.frames[f]?
    rw [Array.getElem?_push, if_neg (Nat.ne_of_lt hf)]
  · show past m.frames.size (m.frames.size + k) = (m.frames.push _).size + k
    rw [past_add, Array.size_push]
  · exact past_add m.objects k

include hm in
/-- Names mean the same in the root frame as before the call. -/
theorem find?_called {f : FrameId} (hf : f < m.frames.size)
    {depth : Nat} (hdepth : f < depth) (name : String) :
    (called m root path).frames.find? name depth f = m.frames.get? f name := by
  have hcopy := copied_called hm root path .fuel
  have hfixed : (Renaming.shift m.extent).frame f = f := past_of_lt hf
  have hfound := hcopy.find? name f hf (Nat.lt_succ_self f) (hfixed.symm ▸ hdepth)
  have hvalue : (m.frames.get? f name).map (Value.rename (.shift m.extent)) =
      m.frames.get? f name := by
    cases hv : m.frames.get? f name with
    | none => rfl
    | some v => exact congrArg some (Value.rename_eq_self (Renaming.fixes_shift _) v (hm.find? hv))
  exact (hfixed ▸ hfound).trans hvalue

include hm in
/-- In the frame of the call only its parameter is different. -/
theorem get?_called (hlt : root < m.frames.size) (name : String) (hname : name ≠ "f") :
    (called m root path).frames.get? m.frames.size name = m.frames.get? root name := by
  have hframe : (called m root path).frames[m.frames.size]? =
      some ⟨[("f", .str path)], some root⟩ :=
    Array.getElem?_push_size
  rw [Frames.get?, Frames.find?, hframe]
  dsimp only
  rw [Bindings.get?, if_neg (by simpa using hname), Bindings.get?]
  exact find?_called hm root path hlt hlt name

theorem get?_called_param :
    (called m root path).frames.get? m.frames.size "f" = some (.str path) := by
  have hframe : (called m root path).frames[m.frames.size]? =
      some ⟨[("f", .str path)], some root⟩ :=
    Array.getElem?_push_size
  rw [Frames.get?, Frames.find?, hframe]
  rfl

end

/-! ## What the call does -/

section

variable {m : Machine} (hm : m.Sound) {root : FrameId} (hroot : m.root = some root)
  (hbound : Bound m.frames root) {path content : String}
  (hfile : m.world.files path = some (.ok content)) {fuel : Nat} (hfuel : 5 ≤ fuel) (alarm : Pause)
include hm hroot hbound hfile hfuel

/-- In the call, the text of the file is read as one form. -/
theorem settles_form :
    Settles alarm (fuel + 1)
      (.list none [.sym "read-string", .list none [.sym "str", .str "(do ",
        .list none [.sym "slurp", .sym "f"], .str "\nnil)"]])
      m.frames.size (called m root path) (read (wrapped content)) := by
  obtain ⟨k, rfl⟩ := Nat.exists_eq_add_of_le' hfuel
  have hlt : root < m.frames.size := hm.root root hroot
  have hslurp : Settles alarm (k + 4) (.list none [.sym "slurp", .sym "f"]) m.frames.size
      (called m root path) (.ok (.str content)) := by
    refine settles_builtin (.console .slurp) [.str path] (by omega) (by decide)
      ((get?_called hm root path hlt "slurp" (by decide)).trans hbound.slurp) ?_ fun ev depth => ?_
    · exact .cons (settles_symbol (by omega) (get?_called_param root path)) .nil
    · have hcalled : ((called m root path).toDepth depth).world.files path = some (.ok content) :=
        hfile
      exact Action.readFile_bind hcalled "slurp" _
  have hstr : Settles alarm (k + 5) (.list none [.sym "str", .str "(do ",
      .list none [.sym "slurp", .sym "f"], .str "\nnil)"]) m.frames.size
      (called m root path) (.ok (.str (wrapped content))) := by
    refine settles_builtin (.text .str) [.str "(do ", .str content, .str "\nnil)"] (by omega)
      (by decide) ((get?_called hm root path hlt "str" (by decide)).trans hbound.str) ?_
      fun ev depth => ?_
    · exact .cons (settles_string _ (by omega)) (.cons hslurp
        (.cons (settles_string _ (by omega)) .nil))
    · have htext : Value.joinedText m.cells .display "" [.str "(do ", .str content, .str "\nnil)"] =
          wrapped content := by
        simp [Value.joinedText, Value.text, Value.render, wrapped, String.intercalate_cons_cons,
          String.append_assoc]
      show Outcome.ok (Value.str (Value.joinedText m.cells .display "" _)) _ = _
      rw [htext]
      rfl
  refine settles_builtin (.text .readString) [.str (wrapped content)] (by omega) (by decide)
    ((get?_called hm root path hlt "read-string" (by decide)).trans hbound.readString)
    (.cons hstr .nil) fun ev depth => ?_
  rfl

/-- The call evaluates the one form in the root frame. -/
theorem eqUnless_loadFile :
    (boundedEval alarm (fuel + 2) (loadFileCall path) root m).EqUnless alarm
      ((Action.ofExcept (read (wrapped content))
        ((called m root path).toDepth (m.depth + 1))).andThen
        fun form => boundedEval alarm (fuel + 1) form root).leave := by
  obtain ⟨k, rfl⟩ := Nat.exists_eq_add_of_le' hfuel
  have hlt : root < m.frames.size := hm.root root hroot
  have heval := (get?_called hm root path hlt "eval" (by decide)).trans hbound.eval
  have hform := settles_form hm hroot hbound hfile hfuel alarm (m.depth + 1)
  show (Action.nestedWithin alarm _ (m.toDepth m.depth)).EqUnless alarm _
  refine .nestedWithin ?_
  refine eqUnless_call (by omega) (by decide) hbound.loadFile rfl
    (settles_all (.cons (settles_string path (by omega)) .nil) _)
    (o := .ok (.tail Prelude.loadFileBody m.frames.size)
      ((called m root path).toDepth (m.depth + 1)))
    (.of_eq rfl) ?_
  cases hread : read (wrapped content) with
  | error e =>
    rw [hread] at hform
    exact eqUnless_call (by omega) (by decide) heval rfl (.bind hform (.of_eq rfl)) (.of_eq rfl)
      (.of_eq rfl)
  | ok form =>
    rw [hread] at hform
    have happly : Step.apply (boundedEvaluator alarm (k + 6)) [form] (.builtin (.control .eval))
        ((called m root path).toDepth (m.depth + 1)) =
          ((boundedEvaluator alarm (k + 6)).eval form root >>= fun v => return Step.done v)
            ((called m root path).toDepth (m.depth + 1)) := by
      have hcalled : ((called m root path).toDepth (m.depth + 1)).root = some root := hroot
      show (Action.root >>= (boundedEvaluator alarm (k + 6)).eval form >>= fun v =>
        return Step.done v) _ = _
      rw [Action.bind_assoc, Action.root_bind hcalled]
    refine eqUnless_call (by omega) (by decide) heval rfl (.bind hform (.of_eq rfl))
      (.of_eq happly) (.of_eq ?_)
    rw [Action.bind_apply]
    show _ = (boundedEvaluator alarm (k + 6)).eval form root
      ((called m root path).toDepth (m.depth + 1))
    cases (boundedEvaluator alarm (k + 6)).eval form root
      ((called m root path).toDepth (m.depth + 1)) <;> rfl

/-- The call evaluates the forms of the file, if they can be read and `do` is no macro. -/
theorem eqUnless_forms {forms : List Value}
    (hread : read (wrapped content) = .ok (.list none (.sym "do" :: (forms ++ [.nil]))))
    (hsequence : m.frames.bindsMacro root "do" = false) :
    (boundedEval alarm (fuel + 2) (loadFileCall path) root m).EqUnless alarm
      (((boundedEvaluator alarm fuel).evalEach root forms >>= fun _ => return Value.nil)
        ((called m root path).toDepth (m.depth + 2))).leave.leave := by
  have hcall := eqUnless_loadFile hm hroot hbound hfile hfuel alarm
  have hlt : root < m.frames.size := hm.root root hroot
  have hplain : Evaluator.macroCall? (called m root path).frames root
      (.list none (.sym "do" :: (forms ++ [.nil]))) = none := by
    refine macroCall?_eq_none ?_
    rw [Frames.bindsMacro, Frames.get?, find?_called hm root path hlt (Nat.lt_succ_self root)]
    exact hsequence
  obtain ⟨k, rfl⟩ := Nat.exists_eq_add_of_le' hfuel
  rw [hread] at hcall
  exact hcall.trans (.leave (.nestedWithin (.of_eq (Evaluator.loop_sequence hplain))))

end

end Loader

/-! ## The two ways agree -/

/-- What two runs leave is the same but for names: in the root frame, in all frames of the first
one, in the cells and outside. -/
structure Machine.Alike (names : Renaming) (root : FrameId) (m n : Machine) : Prop where
  bindings : n.frames[root]? = m.frames[root]?.map (Frame.rename names)
  frames {f : FrameId} {frame : Frame} : m.frames[f]? = some frame →
    n.frames[names.frame f]? = some (frame.rename names)
  cells : n.cells = m.cells.map (Value.rename names)
  world : n.world = m.world
  depth : n.depth = m.depth

/-- Two outcomes of loading a file: both are `nil`, or both fail, or both wait for the same. -/
inductive Outcome.LoadedAlike (names : Renaming) (root : FrameId) :
    Outcome Value → Outcome Value → Prop
  | loaded {m n : Machine} : m.Alike names root n → LoadedAlike names root (.ok .nil m) (.ok .nil n)
  | failed {e e' : Error} {m n : Machine} : m.Alike names root n →
      LoadedAlike names root (.error e m) (.error e' n)
  | paused {p : Pause} : LoadedAlike names root (.paused p) (.paused p)

theorem Outcome.LoadedAlike.eq_paused {names : Renaming} {root : FrameId} {p : Pause}
    {o : Outcome Value} (h : LoadedAlike names root (.paused p) o) : o = .paused p := by
  cases h
  rfl

theorem Outcome.LoadedAlike.exists_loaded {names : Renaming} {root : FrameId} {m : Machine}
    {o : Outcome Value} (h : LoadedAlike names root (.ok .nil m) o) :
    ∃ n, o = .ok .nil n ∧ m.Alike names root n := by
  cases h with
  | loaded halike => exact ⟨_, rfl, halike⟩

theorem Machine.Copied.alike {S : Pairing} {m n : Machine} (h : m.Copied S n) {root : FrameId}
    (hroot : root < m.frames.size) (hfixed : S.names.frame root = root) :
    m.Alike S.names root (n.toDepth m.depth) where
  bindings := by
    have hframe := Array.getElem?_eq_getElem hroot
    have hcopy := h.frames hframe
    rw [hfixed] at hcopy
    rw [hframe]
    exact hcopy
  frames := h.frames
  cells := h.cells
  world := h.world
  depth := rfl

namespace Interpreter

theorem answer_loadFile_eq {m : Machine} {root : FrameId} (hroot : m.root = some root)
    {path content : String} (hfile : m.world.files path = some (.ok content)) (fuel : Nat) :
    (Request.loadFile path).answer (evaluator fuel) m =
      (Action.ofExcept (readAll content) >>= fun forms =>
        (evaluator fuel).evalEach root forms >>= fun _ => return Value.nil) m := by
  rw [Request.answer, Action.readFile_bind hfile]
  rw [evalTextWith, Action.bind_assoc, Action.bind_apply, Action.bind_apply]
  cases readAll content with
  | ok forms => exact evalFormsWith_eq hroot .nil forms
  | error e => rfl

end Interpreter

open Interpreter Loader Reader in
/-- In the call the forms are two levels deeper, which takes two units of fuel more. -/
theorem loadedAlike_of_fuel {m : Machine} (hm : m.Sound) {root : FrameId}
    (hroot : m.root = some root) (hbound : Bound m.frames root)
    (hsequence : m.frames.bindsMacro root "do" = false) {path content : String}
    (hfile : m.world.files path = some (.ok content))
    (hnest : NestsBelow content (maxNesting - 1))
    (hmark : ∀ mark, (tokens content).getLast? ≠ some (.mark mark)) {fuel : Nat} (hfuel : 5 ≤ fuel)
    {alarm : Pause}
    (halarm : boundedEval alarm (fuel + 2) (loadFileCall path) root m ≠ .paused alarm) :
    Outcome.LoadedAlike (.shift m.extent) root ((Request.loadFile path).answer (evaluator fuel) m)
      (eval (fuel + 2) (loadFileCall path) root m) := by
  have hlt : root < m.frames.size := hm.root root hroot
  have hcopy := copied_called hm root path alarm
  have hfixed : (pairing m alarm).names.frame root = root := past_of_lt hlt
  rw [eval_eq_boundedEval halarm, answer_loadFile_eq hroot hfile]
  rcases read_wrapped_cases hnest hmark with ⟨forms, hall, hone⟩ | ⟨e, e', hall, hone⟩
  · have hcall :=
      (eqUnless_forms hm hroot hbound hfile hfuel alarm hone hsequence).resolve_left halarm
    have hsound : ∀ form ∈ forms, form.Sound .empty := by
      have hyields := yields_readAll content
      rw [hall] at hyields
      exact hyields
    -- The forms name nothing, so the two runs evaluate the same forms in the same frame.
    have hmirror := mirrors_evalEach (mirrors_boundedEvaluator (S := pairing m alarm) rfl fuel)
      (x := m.extent) hlt (Shape.values.mono (Extent.empty_le _) hsound) m _
      (Extent.le_refl _) hcopy
    rw [hfixed, Value.map_rename_eq_self (pairing m alarm).names.fixes_empty hsound] at hmirror
    rw [hcall] at halarm ⊢
    rw [hall]
    show Outcome.LoadedAlike _ root (((evaluator fuel).evalEach root forms >>= fun _ =>
      return Value.nil) m) _
    rw [Action.bind_apply] at halarm ⊢
    rw [Action.bind_apply]
    generalize (evaluator fuel).evalEach root forms m = o,
      (boundedEvaluator alarm fuel).evalEach root forms _ = o' at hmirror halarm ⊢
    have halike {n n' : Machine} (hle : m.extent ≤ n.extent) (hn : n.Copied (pairing m alarm) n') :
        n.Alike (.shift m.extent) root (n'.toDepth (n'.depth - 1 - 1)) := by
      have hdepth : n'.depth - 1 - 1 = n.depth := by
        rw [hn.lift, hn.depth]
        rfl
      rw [hdepth]
      exact hn.alike (Nat.lt_of_lt_of_le hlt hle.frames) hfixed
    cases hmirror with
    | ok hle hn _ => exact .loaded (halike hle hn)
    | error hle hn _ => exact .failed (halike hle hn)
    | paused => exact .paused
    | gaveUp hp => exact absurd (congrArg Outcome.paused hp) halarm
  · have hcall := eqUnless_loadFile hm hroot hbound hfile hfuel alarm
    rw [hone] at hcall
    rw [hcall.resolve_left halarm, hall]
    exact .failed (hcopy.alike hlt hfixed)

theorem Interpreter.tracks_answer_loadFile {gives : Pause → Prop} {ev ev' : Evaluator}
    (hev : Evaluator.Tracks Eq gives ev ev') (path : String) :
    Action.Tracks Eq gives ((Request.loadFile path).answer ev)
      ((Request.loadFile path).answer ev') :=
  tracks_answer stable_eq hev (.loadFile path)

open Interpreter Loader Reader in
/-- A request to load a file and a call of `load-file` agree. In every sound state in which
`load-file` and the functions it uses are not rebound and `do` is no macro, and for every file whose
forms nest less deep than one below the limit of the reader and whose last token is no mark, as long
as the call does not meet the recursion limit: both load the file and leave the same bindings, cells
and output, up to the numbers of the frames and objects made on the way, or both fail, or neither
comes to an end. For each fuel of the request that is so with two units more for the call. An
interpreter has the same fuel for both, and what is enough for the call is enough for the
request. -/
theorem call_loads_as_request {m : Machine} (hm : m.Sound) {root : FrameId}
    (hroot : m.root = some root) (hbound : Bound m.frames root)
    (hsequence : m.frames.bindsMacro root "do" = false) {path content : String}
    (hfile : m.world.files path = some (.ok content))
    (hnest : NestsBelow content (maxNesting - 1))
    (hmark : ∀ mark, (tokens content).getLast? ≠ some (.mark mark)) :
    ∃ names : Renaming, names.Fixes m.extent ∧
      (∀ k, 5 ≤ k → WithinLimit (k + 2) (evalRootWith · (loadFileCall path)) m →
        Outcome.LoadedAlike names root ((Request.loadFile path).answer (evaluator k) m)
          (evalRootWith (evaluator (k + 2)) (loadFileCall path) m)) ∧
      (WithinLimit fuel (evalRootWith · (loadFileCall path)) m →
        evalValue (loadFileCall path) m ≠ .paused .fuel →
        Outcome.LoadedAlike names root (loadFile path m) (evalValue (loadFileCall path) m)) := by
  have halike : ∀ k, 5 ≤ k → WithinLimit (k + 2) (evalRootWith · (loadFileCall path)) m →
      Outcome.LoadedAlike (.shift m.extent) root
        ((Request.loadFile path).answer (evaluator k) m)
        (evalRootWith (evaluator (k + 2)) (loadFileCall path) m) := by
    rintro k hk ⟨alarm, halarm⟩
    simp only [evalRootWith_eq hroot] at halarm ⊢
    exact loadedAlike_of_fuel hm hroot hbound hsequence hfile hnest hmark hk halarm
  refine ⟨.shift m.extent, Renaming.fixes_shift _, halike, fun hlimit hends => ?_⟩
  obtain ⟨k, hk⟩ : ∃ k, fuel = k + 5 + 2 := ⟨fuel - 7, by decide⟩
  have hcall : Outcome.LoadedAlike (.shift m.extent) root
      ((Request.loadFile path).answer (evaluator (k + 5)) m)
      (evalValue (loadFileCall path) m) := by
    show Outcome.LoadedAlike _ _ _ (evalRootWith (evaluator fuel) (loadFileCall path) m)
    rw [hk] at hlimit ⊢
    exact halike (k + 5) (Nat.le_add_left 5 k) hlimit
  -- Two units less are enough for the request too, since they are for what is alike.
  have hrequest : loadFile path m = (Request.loadFile path).answer (evaluator (k + 5)) m := by
    rw [← Request.answer_loadFile]
    have hle : k + 5 ≤ fuel := hk ▸ Nat.le_add_right _ 2
    refine (tracks_answer_loadFile (tracks_evaluator_of_le hle) path m m rfl).eq_of_ne_fuel ?_
    intro hpaused
    rw [hpaused] at hcall
    exact hends hcall.eq_paused
  exact hrequest ▸ hcall

/-! ## Files of an interpreter with a prelude -/

/-- A world in which every file holds the text. -/
def World.ofText (text : String) : World := { files := fun _ => some (.ok text) }

theorem Loader.bound_extended (limit : Nat) (world : World) (more : Bindings) :
    Bound (Prelude.extended limit world (Prelude.bindings ++ more)).frames 0 :=
  ⟨rfl, rfl, rfl, rfl, rfl⟩

/-- A macro that leaves nothing of its operands. -/
def Loader.discarding : Value := .closure [.sym "&", .sym "xs"] .nil 0 true

open Interpreter Prelude in
/-- A program can make `do` such a macro. -/
theorem Loader.session_redefined (world : World) :
    Session (start true 1000 world)
      (extended 1000 world (bindings ++ [("do", discarding)])) := by
  have hread : readAll "(defmacro! do (fn* (& xs) nil))" =
      .ok [definition "defmacro!" "do" [.sym "&", .sym "xs"] .nil] :=
    eq_ok_of_toOption (by decide +kernel)
  have hform : evalValue (definition "defmacro!" "do" [.sym "&", .sym "xs"] .nil)
      (extended 1000 world bindings) =
        .ok discarding (extended 1000 world (bindings ++ [("do", discarding)])) := by
    rfl
  rw [start_eq (by decide)]
  exact .served_text .start (evalText_singleton hread hform)

theorem Outcome.exists_eq_nil_and (o : Outcome Value) (check : Machine → Bool)
    (h : (match o with
      | .ok .nil n => check n
      | _ => false) = true) : ∃ n, o = .ok .nil n ∧ check n = true := by
  split at h
  · next n => exact ⟨n, rfl, h⟩
  · cases h

open Interpreter Loader Reader in
/-- A file that ends with a comment, and defines a function within a frame of its own: the frame is
made one place further up in the call. With fuel for twelve levels the request loads it, and with
two more the call does. -/
theorem call_loads_as_request_trailing_comment :
    ∃ names n n', Renaming.Fixes names ⟨1, 0, 0⟩ ∧
      (∃ n₁ n₂, (Request.loadFile "f").answer (evaluator 12)
          (start true 1000 (.ofText "(def! g (let* (k (atom 7)) (fn* () k))) ; 7")) = .ok .nil n₁ ∧
        evalRootWith (evaluator 14) (loadFileCall "f")
          (start true 1000 (.ofText "(def! g (let* (k (atom 7)) (fn* () k))) ; 7")) = .ok .nil n₂ ∧
        n₁.Alike names 0 n₂) ∧
      loadFile "f" (start true 1000 (.ofText "(def! g (let* (k (atom 7)) (fn* () k))) ; 7")) =
        .ok .nil n ∧
      evalValue (loadFileCall "f")
        (start true 1000 (.ofText "(def! g (let* (k (atom 7)) (fn* () k))) ; 7")) = .ok .nil n' ∧
      n.Alike names 0 n' ∧ n.cells = #[.int 7] ∧
      n.frames.get? 0 "g" = some (.closure [] (.sym "k") 1 false) ∧
      n'.frames.get? 0 "g" = some (.closure [] (.sym "k") 2 false) := by
  have hsound := (session_start true 1000
    (.ofText "(def! g (let* (k (atom 7)) (fn* () k))) ; 7")).sound (sound_bare 1000 _)
  have hlast : (tokens "(def! g (let* (k (atom 7)) (fn* () k))) ; 7").getLast? =
      some (.closing .round) := by decide +kernel
  have hshort : (tokens "(def! g (let* (k (atom 7)) (fn* () k))) ; 7").length < maxNesting - 1 := by
    decide +kernel
  rw [Prelude.start_eq (by decide)] at hsound ⊢
  have hfile : (World.ofText "(def! g (let* (k (atom 7)) (fn* () k))) ; 7").files "f" =
      some (.ok "(def! g (let* (k (atom 7)) (fn* () k))) ; 7") := rfl
  have hbound := bound_extended 1000 (.ofText "(def! g (let* (k (atom 7)) (fn* () k))) ; 7") []
  obtain ⟨n, hrequest, hn⟩ := Outcome.exists_eq_nil_and (loadFile "f" (Prelude.extended 1000
      (.ofText "(def! g (let* (k (atom 7)) (fn* () k))) ; 7") Prelude.bindings))
    (fun n => decide (n.cells = #[.int 7] ∧
      n.frames.get? 0 "g" = some (.closure [] (.sym "k") 1 false))) (by decide +kernel)
  obtain ⟨n', hcall, hn'⟩ := Outcome.exists_eq_nil_and (evalValue (loadFileCall "f")
      (Prelude.extended 1000 (.ofText "(def! g (let* (k (atom 7)) (fn* () k))) ; 7")
        Prelude.bindings))
    (fun n' => decide (n'.frames.get? 0 "g" = some (.closure [] (.sym "k") 2 false)))
    (by decide +kernel)
  obtain ⟨names, hfixes, hfuel, halike⟩ := call_loads_as_request hsound rfl hbound rfl hfile
    (nestsBelow_of_length hshort) (by rw [hlast]; nofun)
  have hfew : ∃ n₁ n₂, (Request.loadFile "f").answer (evaluator 12) (Prelude.extended 1000
        (.ofText "(def! g (let* (k (atom 7)) (fn* () k))) ; 7") Prelude.bindings) = .ok .nil n₁ ∧
      evalRootWith (evaluator 14) (loadFileCall "f") (Prelude.extended 1000
        (.ofText "(def! g (let* (k (atom 7)) (fn* () k))) ; 7") Prelude.bindings) = .ok .nil n₂ ∧
      n₁.Alike names 0 n₂ := by
    obtain ⟨n₁, hloaded, -⟩ := Outcome.exists_eq_nil_and ((Request.loadFile "f").answer
      (evaluator 12) (Prelude.extended 1000
        (.ofText "(def! g (let* (k (atom 7)) (fn* () k))) ; 7") Prelude.bindings))
      (fun _ => true) (by decide +kernel)
    have hsame := hfuel 12 (by decide) (.of_ok (by decide +kernel))
    rw [hloaded] at hsame
    obtain ⟨n₂, hcalled, h⟩ := hsame.exists_loaded
    exact ⟨n₁, n₂, hloaded, hcalled, h⟩
  replace halike := halike (.of_ok (by decide +kernel)) (by rw [hcall]; nofun)
  rw [hrequest, hcall] at halike
  cases halike with
  | loaded h =>
    obtain ⟨hcells, hg⟩ := of_decide_eq_true hn
    exact ⟨names, n, n', hfixes, hfew, hrequest, hcall, h, hcells, hg, of_decide_eq_true hn'⟩

open Interpreter Loader Reader in
/-- Where `do` has been made a macro, the call loads nothing of a file that is loaded on request,
and a mark at the end of a file is an error on request only. -/
theorem call_loads_otherwise :
    (∃ m n n', Session (start true 1000 (.ofText "(def! x 1)")) m ∧ Bound m.frames 0 ∧
      NestsBelow "(def! x 1)" (maxNesting - 1) ∧
      WithinLimit fuel (evalRootWith · (loadFileCall "f")) m ∧
      loadFile "f" m = .ok .nil n ∧ n.frames.get? 0 "x" = some (.int 1) ∧
      evalValue (loadFileCall "f") m = .ok .nil n' ∧ n'.frames.get? 0 "x" = none) ∧
    ∃ e n n', Bound (start true 1000 (.ofText "'")).frames 0 ∧ NestsBelow "'" (maxNesting - 1) ∧
      WithinLimit fuel (evalRootWith · (loadFileCall "f")) (start true 1000 (.ofText "'")) ∧
      loadFile "f" (start true 1000 (.ofText "'")) = .error e n ∧
      evalValue (loadFileCall "f") (start true 1000 (.ofText "'")) = .ok .nil n' := by
  constructor
  · obtain ⟨n, hrequest, hn⟩ := Outcome.exists_eq_nil_and (loadFile "f" (Prelude.extended 1000
        (.ofText "(def! x 1)") (Prelude.bindings ++ [("do", discarding)])))
      (fun n => decide (n.frames.get? 0 "x" = some (.int 1))) (by decide +kernel)
    obtain ⟨n', hcall, hn'⟩ := Outcome.exists_eq_nil_and (evalValue (loadFileCall "f")
        (Prelude.extended 1000 (.ofText "(def! x 1)") (Prelude.bindings ++ [("do", discarding)])))
      (fun n' => decide (n'.frames.get? 0 "x" = none)) (by decide +kernel)
    exact ⟨_, n, n', session_redefined _, bound_extended 1000 _ _,
      nestsBelow_of_length (by decide +kernel), .of_ok (by decide +kernel), hrequest,
      of_decide_eq_true hn, hcall, of_decide_eq_true hn'⟩
  · rw [Prelude.start_eq (by decide)]
    obtain ⟨e, n, hrequest, -⟩ := Outcome.exists_error_and (P := fun _ => True)
      (o := loadFile "f" (Prelude.extended 1000 (.ofText "'") Prelude.bindings)) (by decide +kernel)
      fun _ _ _ => trivial
    obtain ⟨n', hcall, -⟩ := Outcome.exists_eq_nil_and (evalValue (loadFileCall "f")
      (Prelude.extended 1000 (.ofText "'") Prelude.bindings)) (fun _ => true) (by decide +kernel)
    exact ⟨e, n, n', bound_extended 1000 _ [], nestsBelow_of_length (by decide +kernel),
      .of_ok (by decide +kernel), hrequest, hcall⟩

end Lisp
