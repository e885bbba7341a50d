import Lisp.Proofs.Parameters

/-!
# Scopes

Frames are shared: several handles may name one frame, and a frame is seen from all frames within
it. What a name means there is told by the history of the frames alone: by the frame within which
each of them was made, and by the values that names were given in them, one after another. A name
means what it was last given in the nearest frame that binds it, and giving it a value somewhere
changes what it means just where that frame is the nearest one.
-/

namespace Lisp

/-! ## Names in growing frames -/

namespace Frames

/-- Every frame is newer than the one around it. -/
def Ordered (frames : Frames) : Prop :=
  ∀ (f : FrameId) (frame : Frame), frames[f]? = some frame → ∀ p ∈ frame.parent, p < f

variable {frames : Frames} {name : String}

/-- Frames further out than there can be are not looked at. -/
theorem Ordered.find?_eq (h : frames.Ordered) {f : FrameId} :
    ∀ {d : Nat}, f < d → frames.find? name d f = frames.get? f name := by
  induction f using Nat.strongRecOn with
  | ind f ih =>
    intro d hd
    obtain ⟨k, rfl⟩ := Nat.exists_eq_add_of_lt hd
    rw [get?, find?, find?]
    cases hf : frames[f]? with
    | none => rfl
    | some frame =>
      dsimp only
      cases frame.bindings.get? name with
      | some v => rfl
      | none =>
        dsimp only
        cases hp : frame.parent with
        | none => rfl
        | some p =>
          have hlt : p < f := h f frame hf p hp
          exact (ih p hlt (Nat.lt_of_lt_of_le hlt (Nat.le_add_right f k))).trans (ih p hlt hlt).symm

/-- A name is looked for in the frame itself, and then in those around it. -/
theorem Ordered.get?_eq (h : frames.Ordered) {f : FrameId} {frame : Frame}
    (hf : frames[f]? = some frame) :
    frames.get? f name =
      (frame.bindings.get? name).or (frame.parent.bind fun p => frames.get? p name) := by
  rw [get?, find?, hf]
  dsimp only
  cases frame.bindings.get? name with
  | some v => rfl
  | none =>
    dsimp only
    cases hp : frame.parent with
    | none => rfl
    | some p => exact h.find?_eq (h f frame hf p hp)

theorem Ordered.push (h : frames.Ordered) {frame : Frame}
    (hparent : ∀ p ∈ frame.parent, p < frames.size) : Ordered (frames.push frame) := by
  intro f frame' hf p hp
  rw [Array.getElem?_push] at hf
  split at hf
  · next heq =>
    cases hf
    exact heq ▸ hparent p hp
  · exact h f frame' hf p hp

/-- A new frame changes nothing for the others. -/
theorem Ordered.get?_push (h : frames.Ordered) (frame : Frame) {f : FrameId}
    (hf : f < frames.size) :
    get? (frames.push frame) f name = frames.get? f name := by
  have hfind : ∀ d f, f < frames.size →
      find? (frames.push frame) name d f = frames.find? name d f := by
    intro d
    induction d with
    | zero => exact fun _ _ => rfl
    | succ d ih =>
      intro f hf
      rw [find?, find?, Array.getElem?_push_lt hf, Array.getElem?_eq_getElem hf]
      dsimp only
      cases frames[f].bindings.get? name with
      | some v => rfl
      | none =>
        dsimp only
        cases hp : frames[f].parent with
        | none => rfl
        | some p => exact ih p (Nat.lt_trans (h f _ (Array.getElem?_eq_getElem hf) p hp) hf)
  exact hfind (f + 1) f hf

/-- From a new frame names mean what they do from the frame around it, but for those it binds. -/
theorem Ordered.get?_push_size (h : frames.Ordered) (bindings : Bindings) {scope : FrameId}
    (hscope : scope < frames.size) (name : String) :
    get? (frames.push ⟨bindings, some scope⟩) frames.size name =
      (bindings.get? name).or (frames.get? scope name) := by
  have hordered : Ordered (frames.push ⟨bindings, some scope⟩) := by
    refine h.push ?_
    rintro p ⟨⟩
    exact hscope
  rw [hordered.get?_eq Array.getElem?_push_size]
  exact congrArg _ (h.get?_push _ hscope)

theorem set_push (frame : Frame) (v : Value) :
    set (frames.push frame) frames.size name v =
      frames.push { frame with bindings := frame.bindings.set name v } := by
  refine Array.ext_getElem? fun i => ?_
  rw [set, Array.getElem?_modify, Array.getElem?_push, Array.getElem?_push]
  by_cases hi : i = frames.size
  · rw [if_pos hi.symm, if_pos hi, if_pos hi]
    rfl
  · rw [if_neg (Ne.symm hi), if_neg hi, if_neg hi]

/-! ## Visible names -/

theorem mem_namesFrom {seen : List String} {depth : Nat} {f : FrameId} :
    name ∈ frames.namesFrom seen depth f ↔
      name ∉ seen ∧ (frames.find? name depth f).isSome = true := by
  induction depth generalizing seen f with
  | zero => simp [namesFrom, find?]
  | succ depth ih =>
    rw [namesFrom, find?]
    cases frames[f]? with
    | none => simp
    | some frame =>
      dsimp only
      have hnew : name ∈ (frame.bindings.map Prod.fst).filter (fun name => !seen.contains name) ↔
          name ∈ frame.bindings.names ∧ name ∉ seen := by
        simp [Bindings.names]
      cases hbound : frame.bindings.get? name with
      | some v =>
        have hmem : name ∈ frame.bindings.names := by
          rw [← Bindings.get?_isSome_iff, hbound]
          rfl
        cases frame.parent with
        | none =>
          rw [hnew]
          simp [hmem]
        | some p =>
          rw [List.mem_append, ih, hnew, List.mem_append, hnew]
          simp [hmem]
      | none =>
        have hmem : name ∉ frame.bindings.names := by
          rw [← Bindings.get?_isSome_iff, hbound]
          exact Bool.false_ne_true
        cases frame.parent with
        | none =>
          rw [hnew]
          simp [hmem]
        | some p =>
          rw [List.mem_append, ih, hnew, List.mem_append, hnew]
          simp [hmem]

theorem nodup_namesFrom
    (h : ∀ (f : FrameId) (frame : Frame), frames[f]? = some frame → frame.bindings.names.Nodup)
    (seen : List String) (depth : Nat) (f : FrameId) : (frames.namesFrom seen depth f).Nodup := by
  induction depth generalizing seen f with
  | zero => exact List.nodup_nil
  | succ depth ih =>
    rw [namesFrom]
    cases hf : frames[f]? with
    | none => exact List.nodup_nil
    | some frame =>
      have hnew := (h f frame hf).filter fun name => !seen.contains name
      dsimp only
      cases frame.parent with
      | none => exact hnew
      | some p =>
        refine List.nodup_append.mpr ⟨hnew, ih _ p, fun a ha b hb hab => ?_⟩
        -- A name that is new here is left out further on.
        exact (mem_namesFrom.mp hb).1 (List.mem_append_left _ (hab ▸ ha))

end Frames

/-! ## Operations and their history -/

/-- What can be done with environments. They are named by handles, which are numbered in the order
in which they are given out. -/
inductive ScopeOp where
  | new
  | child (outer : Nat)
  | share (handle : Nat)
  | bind (outer : Nat) (params args : List Value)
  | set (handle : Nat) (name : String) (v : Value)

/-- The value that a name was last given in a frame. -/
def lastGiven (sets : List (FrameId × String × Value)) (f : FrameId) (name : String) :
    Option Value :=
  latest name ((sets.filter fun set => set.1 == f).map Prod.snd)

theorem lastGiven_append (sets : List (FrameId × String × Value)) (g : FrameId)
    (new : List (String × Value)) (f : FrameId) (name : String) :
    lastGiven (sets ++ new.map (g, ·)) f name =
      if g = f then (latest name new).or (lastGiven sets f name) else lastGiven sets f name := by
  rw [lastGiven, List.filter_append, List.map_append, latest_append]
  split
  · next h =>
    subst h
    have hall : (new.map (g, ·)).filter (fun set => set.1 == g) = new.map (g, ·) := by
      refine List.filter_eq_self.mpr fun set hset => ?_
      obtain ⟨binding, -, rfl⟩ := List.mem_map.mp hset
      exact BEq.rfl
    rw [hall, List.map_map]
    exact congrArg (fun sets => (latest name sets).or _) (List.map_id new)
  · next h =>
    have hnone : (new.map (g, ·)).filter (fun set => set.1 == f) = [] := by
      refine List.filter_eq_nil_iff.mpr fun set hset => ?_
      obtain ⟨binding, -, rfl⟩ := List.mem_map.mp hset
      simpa using h
    rw [hnone]
    rfl

theorem lastGiven_eq_none {sets : List (FrameId × String × Value)} {f : FrameId}
    (h : ∀ set ∈ sets, set.1 ≠ f) (name : String) : lastGiven sets f name = none := by
  have hnone : sets.filter (fun set => set.1 == f) = [] := by simpa using h
  rw [lastGiven, hnone]
  rfl

/-- Environments in use: a machine with their frames, and the frame that each handle names. The rest
is history: the frame within which each frame was made, and the values that names were given in
frames, one after another. -/
structure Scopes where
  machine : Machine := {}
  handles : List FrameId := []
  parents : List (Option FrameId) := []
  sets : List (FrameId × String × Value) := []

namespace Scopes

/-- Gives out a handle for a frame that has been made, if it has. -/
def adopt (s : Scopes) (parent : Option FrameId) (sets : List (String × Value)) :
    Outcome FrameId → Scopes
  | .ok f m => ⟨m, s.handles ++ [f], s.parents ++ [parent], s.sets ++ sets.map (f, ·)⟩
  | .error _ m => { s with machine := m }
  | .paused _ => s

/-- Does one thing after another; nothing is done with a handle that has not been given out. -/
def perform (s : Scopes) : ScopeOp → Scopes
  | .new => s.adopt none [] (Action.enterAlone s.machine)
  | .child outer =>
    match s.handles[outer]? with
    | none => s
    | some p => s.adopt (some p) [] (Action.enter p [] s.machine)
  | .share handle =>
    match s.handles[handle]? with
    | none => s
    | some f => { s with handles := s.handles ++ [f] }
  | .bind outer params args =>
    match s.handles[outer]? with
    | none => s
    | some p => s.adopt (some p) (Params.assignments (some s.machine.objects) params args)
        (Action.enterCall p params args s.machine)
  | .set handle name v =>
    match s.handles[handle]? with
    | none => s
    | some f =>
      match Action.define f name v s.machine with
      | .ok _ m => { s with machine := m, sets := s.sets ++ [(f, name, v)] }
      | .error _ m => { s with machine := m }
      | .paused _ => s

def after (ops : List ScopeOp) : Scopes :=
  ops.foldl perform {}

/-- The value that a name was last given in a frame. -/
def value (s : Scopes) (f : FrameId) (name : String) : Option Value :=
  lastGiven s.sets f name

/-- The frame within which a frame was made. -/
def parent (s : Scopes) (f : FrameId) : Option FrameId :=
  s.parents[f]?.join

/-- The second frame is the first one or around it. -/
inductive Chain (s : Scopes) : FrameId → FrameId → Prop
  | here {f : FrameId} : Chain s f f
  | outwards {f p g : FrameId} : s.parent f = some p → Chain s p g → Chain s f g

/-- From the first frame outwards, the second is the first that binds the name. -/
inductive Nearest (s : Scopes) (name : String) : FrameId → FrameId → Prop
  | here {f : FrameId} : (s.value f name).isSome = true → Nearest s name f f
  | outwards {f p g : FrameId} : s.value f name = none → s.parent f = some p →
      Nearest s name p g → Nearest s name f g

def get? (s : Scopes) (f : FrameId) (name : String) : Option Value :=
  s.machine.frames.get? f name

/-! ## The frames are as their history says -/

structure Faithful (s : Scopes) : Prop where
  size : s.parents.length = s.machine.frames.size
  ordered : s.machine.frames.Ordered
  handles {f : FrameId} : f ∈ s.handles → f < s.machine.frames.size
  sets {set : FrameId × String × Value} : set ∈ s.sets → set.1 < s.machine.frames.size
  parents {f : FrameId} {frame : Frame} : s.machine.frames[f]? = some frame →
    s.parents[f]? = some frame.parent
  nodup {f : FrameId} {frame : Frame} : s.machine.frames[f]? = some frame →
    frame.bindings.names.Nodup
  values {f : FrameId} {frame : Frame} : s.machine.frames[f]? = some frame →
    ∀ name, frame.bindings.get? name = s.value f name

theorem faithful_start : Faithful {} where
  size := rfl
  ordered := fun _ _ h => by cases h
  handles h := absurd h List.not_mem_nil
  sets h := absurd h List.not_mem_nil
  parents h := by cases h
  nodup h := by cases h
  values h := by cases h

section

variable {s : Scopes} (hs : s.Faithful)
include hs

/-- A new frame is bound as it was made. -/
theorem Faithful.adopt {parent : Option FrameId} {sets : List (String × Value)} {m : Machine}
    (hparent : ∀ p ∈ parent, p < s.machine.frames.size)
    (hm : m.frames = s.machine.frames.push ⟨Bindings.setAll [] sets, parent⟩) :
    (s.adopt parent sets (.ok s.machine.frames.size m)).Faithful := by
  have hsize : m.frames.size = s.machine.frames.size + 1 := by rw [hm, Array.size_push]
  have hframe {f : FrameId} {frame : Frame} (hf : m.frames[f]? = some frame) :
      (f = s.machine.frames.size ∧ frame = ⟨Bindings.setAll [] sets, parent⟩) ∨
        s.machine.frames.size ≠ f ∧ s.machine.frames[f]? = some frame := by
    rw [hm, Array.getElem?_push] at hf
    split at hf
    · next heq => exact .inl ⟨heq, (Option.some.inj hf).symm⟩
    · next hne => exact .inr ⟨Ne.symm hne, hf⟩
  constructor
  · show (s.parents ++ [parent]).length = m.frames.size
    rw [List.length_append, hs.size, hsize]
    rfl
  · show m.frames.Ordered
    rw [hm]
    exact hs.ordered.push hparent
  · intro f hf
    show f < m.frames.size
    rw [hsize]
    rcases List.mem_append.mp hf with hf | hf
    · exact Nat.lt_succ_of_lt (hs.handles hf)
    · rw [List.mem_singleton.mp hf]
      exact Nat.lt_succ_self _
  · intro set hset
    show set.1 < m.frames.size
    rw [hsize]
    rcases List.mem_append.mp hset with hset | hset
    · exact Nat.lt_succ_of_lt (hs.sets hset)
    · obtain ⟨binding, -, rfl⟩ := List.mem_map.mp hset
      exact Nat.lt_succ_self _
  · intro f frame hf
    show (s.parents ++ [parent])[f]? = some frame.parent
    rcases hframe hf with ⟨rfl, rfl⟩ | ⟨-, hf⟩
    · rw [← hs.size]
      exact List.getElem?_concat_length
    · have hlt : f < s.machine.frames.size := (Array.getElem?_eq_some_iff.mp hf).1
      rw [List.getElem?_append_left (hs.size ▸ hlt)]
      exact hs.parents hf
  · intro f frame hf
    rcases hframe hf with ⟨rfl, rfl⟩ | ⟨-, hf⟩
    · exact @Bindings.nodup_names_setAll [] List.nodup_nil sets
    · exact hs.nodup hf
  · intro f frame hf name
    show _ = lastGiven (s.sets ++ sets.map (s.machine.frames.size, ·)) f name
    rw [lastGiven_append]
    rcases hframe hf with ⟨rfl, rfl⟩ | ⟨hne, hf⟩
    · rw [if_pos rfl, lastGiven_eq_none fun set hset => Nat.ne_of_lt (hs.sets hset)]
      exact Bindings.get?_setAll [] sets name
    · rw [if_neg hne]
      exact hs.values hf name

theorem Faithful.set {f : FrameId} (hf : f < s.machine.frames.size) (name : String) (v : Value) :
    Faithful { s with
      machine := { s.machine with frames := s.machine.frames.set f name v }
      sets := s.sets ++ [(f, name, v)] } := by
  have hsize : (s.machine.frames.set f name v).size = s.machine.frames.size := Array.size_modify
  have hframe {g : FrameId} {frame : Frame}
      (hg : (s.machine.frames.set f name v)[g]? = some frame) :
      ∃ old, s.machine.frames[g]? = some old ∧ frame.parent = old.parent ∧
        frame.bindings = if f = g then old.bindings.set name v else old.bindings := by
    rw [Frames.set, Array.getElem?_modify] at hg
    split at hg
    · next heq =>
      obtain ⟨old, hold, rfl⟩ := Option.map_eq_some_iff.mp hg
      exact ⟨old, hold, rfl, (if_pos heq).symm⟩
    · next hne => exact ⟨frame, hg, rfl, (if_neg hne).symm⟩
  constructor
  · exact hs.size.trans hsize.symm
  · intro g frame hg p hp
    obtain ⟨old, hold, hparent, -⟩ := hframe hg
    exact hs.ordered g old hold p (hparent ▸ hp)
  · exact fun h => hsize.symm ▸ hs.handles h
  · intro set hset
    show set.1 < (s.machine.frames.set f name v).size
    rw [hsize]
    rcases List.mem_append.mp hset with hset | hset
    · exact hs.sets hset
    · rwa [List.mem_singleton.mp hset]
  · intro g frame hg
    obtain ⟨old, hold, hparent, -⟩ := hframe hg
    rw [hparent]
    exact hs.parents hold
  · intro g frame hg
    obtain ⟨old, hold, -, hbindings⟩ := hframe hg
    rw [hbindings]
    split
    · exact Bindings.nodup_names_set (hs.nodup hold) name v
    · exact hs.nodup hold
  · intro g frame hg other
    obtain ⟨old, hold, -, hbindings⟩ := hframe hg
    show _ = lastGiven (s.sets ++ [(name, v)].map (f, ·)) g other
    rw [lastGiven_append, hbindings]
    split
    · rw [Bindings.get?_set, hs.values hold, latest, latest]
      split <;> rfl
    · exact hs.values hold other

/-- The history stays true, whatever is done. -/
theorem Faithful.perform (op : ScopeOp) : (s.perform op).Faithful := by
  have hhandle {h : Nat} {f : FrameId} (hf : s.handles[h]? = some f) :
      f < s.machine.frames.size :=
    hs.handles (List.mem_of_getElem? hf)
  cases op with
  | new => exact hs.adopt (fun _ h => by cases h) rfl
  | child outer =>
    rw [Scopes.perform]
    split
    · exact hs
    · next p hp =>
      refine hs.adopt ?_ rfl
      rintro _ ⟨⟩
      exact hhandle hp
  | share handle =>
    rw [Scopes.perform]
    split
    · exact hs
    · next f hf =>
      refine ⟨hs.size, hs.ordered, fun {g} hg => ?_, hs.sets, hs.parents, hs.nodup, hs.values⟩
      rcases List.mem_append.mp hg with hg | hg
      · exact hs.handles hg
      · rw [List.mem_singleton.mp hg]
        exact hhandle hf
  | bind outer params args =>
    rw [Scopes.perform]
    split
    · exact hs
    · next p hp =>
      rw [Action.enterCall]
      cases hbind : Params.bind (some s.machine.objects) params args with
      | error e => exact hs
      | ok bindings =>
        rw [Params.bindFrom_eq_ok hbind]
        refine hs.adopt ?_ rfl
        rintro _ ⟨⟩
        exact hhandle hp
  | set handle name v =>
    rw [Scopes.perform]
    split
    · exact hs
    · next f hf => exact hs.set (hhandle hf) name v

end

theorem faithful_after (ops : List ScopeOp) : (after ops).Faithful := by
  have hrun {s : Scopes} (hs : s.Faithful) : (ops.foldl perform s).Faithful := by
    induction ops generalizing s with
    | nil => exact hs
    | cons op ops ih => exact ih (hs.perform op)
  exact hrun faithful_start

/-! ## Look-ups -/

section

variable {s : Scopes} (hs : s.Faithful)
include hs

/-- A name is looked for in the frame itself, and then in those around it. -/
theorem Faithful.get?_eq {f : FrameId} (hf : f < s.machine.frames.size) (name : String) :
    s.get? f name = (s.value f name).or ((s.parent f).bind fun p => s.get? p name) := by
  have hframe := Array.getElem?_eq_getElem hf
  rw [get?, hs.ordered.get?_eq hframe, hs.values hframe, parent, hs.parents hframe]
  rfl

theorem Faithful.parent_lt {f p : FrameId} (h : s.parent f = some p) :
    p < f ∧ f < s.machine.frames.size := by
  have hjoin : s.parents[f]? = some (some p) := Option.join_eq_some_iff.mp h
  have hf : f < s.machine.frames.size :=
    hs.size ▸ (List.getElem?_eq_some_iff.mp hjoin).1
  have hframe := Array.getElem?_eq_getElem hf
  have hparent := Option.some.inj ((hs.parents hframe).symm.trans hjoin)
  exact ⟨hs.ordered f _ hframe p hparent, hf⟩

theorem Faithful.get?_eq_some_iff {name : String} {v : Value} {f : FrameId} :
    f < s.machine.frames.size →
      (s.get? f name = some v ↔ ∃ g, s.Nearest name f g ∧ s.value g name = some v) := by
  induction f using Nat.strongRecOn with
  | ind f ih =>
    intro hf
    rw [hs.get?_eq hf]
    cases hvalue : s.value f name with
    | some w =>
      rw [Option.some_or]
      constructor
      · rintro ⟨⟩
        exact ⟨f, .here (hvalue ▸ rfl), hvalue⟩
      · rintro ⟨g, hnear, hg⟩
        cases hnear with
        | here => exact hvalue.symm.trans hg
        | outwards hnone => cases hvalue.symm.trans hnone
    | none =>
      rw [Option.none_or]
      cases hp : s.parent f with
      | none =>
        constructor
        · rintro ⟨⟩
        · rintro ⟨g, hnear, hg⟩
          cases hnear with
          | here => cases hvalue.symm.trans hg
          | outwards _ hp' => cases hp.symm.trans hp'
      | some p =>
        have hlt := (hs.parent_lt hp).1
        rw [Option.bind_some, ih p hlt (Nat.lt_trans hlt hf)]
        constructor
        · rintro ⟨g, hnear, hg⟩
          exact ⟨g, .outwards hvalue hp hnear, hg⟩
        · rintro ⟨g, hnear, hg⟩
          cases hnear with
          | here => cases hvalue.symm.trans hg
          | outwards _ hp' hnear =>
            cases hp.symm.trans hp'
            exact ⟨g, hnear, hg⟩

theorem Faithful.get?_eq_none_iff {name : String} {f : FrameId} :
    f < s.machine.frames.size →
      (s.get? f name = none ↔ ∀ g, s.Chain f g → s.value g name = none) := by
  induction f using Nat.strongRecOn with
  | ind f ih =>
    intro hf
    rw [hs.get?_eq hf, Option.or_eq_none_iff]
    constructor
    · rintro ⟨hvalue, hrest⟩ g hchain
      cases hchain with
      | here => exact hvalue
      | @outwards _ p _ hp hchain =>
        have hlt := (hs.parent_lt hp).1
        rw [hp, Option.bind_some, ih p hlt (Nat.lt_trans hlt hf)] at hrest
        exact hrest g hchain
    · intro h
      refine ⟨h f .here, ?_⟩
      cases hp : s.parent f with
      | none => rfl
      | some p =>
        have hlt := (hs.parent_lt hp).1
        rw [Option.bind_some, ih p hlt (Nat.lt_trans hlt hf)]
        exact fun g hchain => h g (.outwards hp hchain)

/-! ## Setting a name -/

variable {handle : Nat} {g : FrameId} (hg : s.handles[handle]? = some g)

omit hs
include hg

theorem perform_set (name : String) (v : Value) :
    s.perform (.set handle name v) =
      { s with
        machine := { s.machine with frames := s.machine.frames.set g name v }
        sets := s.sets ++ [(g, name, v)] } := by
  rw [perform, hg]
  rfl

theorem size_perform_set (name : String) (v : Value) :
    (s.perform (.set handle name v)).machine.frames.size = s.machine.frames.size := by
  rw [perform_set hg]
  exact Array.size_modify

theorem parent_perform_set (name : String) (v : Value) (f : FrameId) :
    (s.perform (.set handle name v)).parent f = s.parent f := by
  rw [perform_set hg]
  rfl

theorem value_perform_set (name : String) (v : Value) (f : FrameId) (other : String) :
    (s.perform (.set handle name v)).value f other =
      if g = f ∧ name = other then some v else s.value f other := by
  rw [perform_set hg]
  show lastGiven (s.sets ++ [(name, v)].map (g, ·)) f other = _
  rw [lastGiven_append, latest, latest, Option.none_or]
  by_cases hf : g = f
  · rw [if_pos hf]
    by_cases hname : name = other
    · rw [if_pos hname, if_pos ⟨hf, hname⟩]
      rfl
    · rw [if_neg hname, if_neg fun h => hname h.2]
      rfl
  · rw [if_neg hf, if_neg fun h => hf h.1]
    rfl

include hs

/-- Where the frame is not the nearest one that binds the name, nothing changes. -/
theorem Faithful.get?_perform_set {name other : String} {v : Value} {f : FrameId} :
    f < s.machine.frames.size →
    ¬ (other = name ∧ (s.perform (.set handle name v)).Nearest name f g) →
    (s.perform (.set handle name v)).get? f other = s.get? f other := by
  have hs' := hs.perform (.set handle name v)
  have hsize := size_perform_set hg name v
  induction f using Nat.strongRecOn with
  | ind f ih =>
    intro hf hfar
    have hvalue : (s.perform (.set handle name v)).value f other = s.value f other := by
      rw [value_perform_set hg]
      refine if_neg ?_
      rintro ⟨rfl, rfl⟩
      refine hfar ⟨rfl, .here ?_⟩
      rw [value_perform_set hg, if_pos ⟨rfl, rfl⟩]
      rfl
    rw [hs'.get?_eq (hsize ▸ hf), hs.get?_eq hf, hvalue, parent_perform_set hg]
    cases hnone : s.value f other with
    | some w => rfl
    | none =>
      cases hp : s.parent f with
      | none => rfl
      | some p =>
        have hlt := (hs.parent_lt hp).1
        refine ih p hlt (Nat.lt_trans hlt hf) ?_
        rintro ⟨rfl, hnear⟩
        exact hfar
          ⟨rfl, .outwards (hvalue.trans hnone) ((parent_perform_set hg _ v f).trans hp) hnear⟩

end

/-- The laws of scopes hold after every sequence of operations, from every handle. A name means what
it was last given in the nearest frame that binds it, and nothing if no frame of the chain does.
Where a name is given a value, look-ups change only for that name, and only if the frame is then the
nearest one that binds it; there they give the value. The visible names are those that mean
something, each once. -/
theorem scope_chain_laws (ops : List ScopeOp) {handle : Nat} {f : FrameId}
    (hf : (after ops).handles[handle]? = some f) :
    (∀ name v, (after ops).get? f name = some v ↔
      ∃ g, (after ops).Nearest name f g ∧ (after ops).value g name = some v) ∧
    (∀ name, (after ops).get? f name = none ↔
      ∀ g, (after ops).Chain f g → (after ops).value g name = none) ∧
    (∀ (handle' : Nat) g name v other, (after ops).handles[handle']? = some g →
      ((other = name ∧ (after (ops ++ [.set handle' name v])).Nearest name f g →
          (after (ops ++ [.set handle' name v])).get? f other = some v) ∧
        (¬ (other = name ∧ (after (ops ++ [.set handle' name v])).Nearest name f g) →
          (after (ops ++ [.set handle' name v])).get? f other = (after ops).get? f other))) ∧
    ((after ops).machine.frames.names f).Nodup ∧
    ∀ name, name ∈ (after ops).machine.frames.names f ↔ (after ops).get? f name ≠ none := by
  have hs := faithful_after ops
  have hlt : f < (after ops).machine.frames.size := hs.handles (List.mem_of_getElem? hf)
  refine ⟨fun name v => hs.get?_eq_some_iff hlt, fun name => hs.get?_eq_none_iff hlt, ?_, ?_, ?_⟩
  · intro handle' g name v other hg
    have hafter : after (ops ++ [.set handle' name v]) =
        (after ops).perform (.set handle' name v) := List.foldl_append
    rw [hafter]
    refine ⟨?_, hs.get?_perform_set hg hlt⟩
    rintro ⟨rfl, hnear⟩
    have hlt' : f < ((after ops).perform (.set handle' other v)).machine.frames.size := by
      rwa [size_perform_set hg]
    refine ((hs.perform _).get?_eq_some_iff hlt').mpr ⟨g, hnear, ?_⟩
    rw [value_perform_set hg, if_pos ⟨rfl, rfl⟩]
  · exact Frames.nodup_namesFrom (fun _ _ => hs.nodup) [] (f + 1) f
  · intro name
    rw [Frames.names, Frames.mem_namesFrom, Option.isSome_iff_ne_none]
    exact ⟨fun h => h.2, fun h => ⟨List.not_mem_nil, h⟩⟩

/-- A frame, a frame within it, and another handle of the first one. What is set through that handle
is seen from within, until the name is bound there too. -/
theorem scope_chain_laws_shared :
    let ops : List ScopeOp := [.new, .set 0 "x" (.int 1), .child 0, .share 0]
    (after ops).handles = [0, 1, 0] ∧ (after ops).get? 1 "x" = some (.int 1) ∧
    (after (ops ++ [.set 2 "x" (.int 5)])).get? 1 "x" = some (.int 5) ∧
    (after (ops ++ [.set 1 "x" (.int 3)] ++ [.set 2 "x" (.int 5)])).get? 1 "x" = some (.int 3) ∧
    "x" ∈ (after ops).machine.frames.names 1 := by
  intro ops
  have hinner : (after ops).handles[1]? = some 1 := rfl
  have houter : (after ops).handles[2]? = some 0 := rfl
  obtain ⟨hget, -, hset, -, hnames⟩ := scope_chain_laws ops hinner
  have hone : (after ops).get? 1 "x" = some (.int 1) :=
    (hget "x" (.int 1)).mpr ⟨0, .outwards rfl rfl (.here rfl), rfl⟩
  have hfive := (hset 2 0 "x" (.int 5) "x" houter).1 ⟨rfl, .outwards rfl rfl (.here rfl)⟩
  have hinnerThen : (after (ops ++ [.set 1 "x" (.int 3)])).handles[1]? = some 1 := rfl
  obtain ⟨hgetThen, -, hsetThen, -, -⟩ := scope_chain_laws (ops ++ [.set 1 "x" (.int 3)]) hinnerThen
  have hthree := (hgetThen "x" (.int 3)).mpr ⟨1, .here rfl, rfl⟩
  refine ⟨rfl, hone, hfive, ?_, (hnames "x").mpr (hone ▸ Option.some_ne_none _)⟩
  rw [(hsetThen 2 0 "x" (.int 5) "x" rfl).2 ?_, hthree]
  -- The inner frame binds the name, so the outer one is not the nearest.
  rintro ⟨-, hnear⟩
  cases hnear with
  | outwards hnone => cases hnone

end Scopes

end Lisp
