import Lisp.Machine
import Lisp.Proofs.Renaming

/-!
# Sound states and copies of them

In a sound state everything that is named exists, and frames are younger than the frames around
them. A copy of a state has its frames and objects named differently and may be deeper by some
levels; names mean in it what they mean in the state itself. Whatever actions do to a state, the
same thing done to a copy of it, with names changed, makes a copy again.
-/

namespace Lisp

/-! ## Sound states -/

/-- A host function makes sound results of sound arguments, in no way that depends on the numbers
of frames and objects. -/
structure HostFunction.Respectful (f : HostFunction) : Prop where
  ok {x : Extent} {args : List Value} {v : Value} :
    (∀ a ∈ args, a.Sound x) → f args = .ok v → v.Sound x
  error {x : Extent} {args : List Value} {e : Error} :
    (∀ a ∈ args, a.Sound x) → f args = .error e → e.Sound x
  rename (r : Renaming) (args : List Value) :
    f (args.map (Value.rename r)) =
      ((f args).map (Value.rename r)).mapError (Error.rename r)

/-- What the frame at place `f` binds is sound, and the frame around it is older. -/
structure Frame.Sound (x : Extent) (f : FrameId) (frame : Frame) : Prop where
  bindings : frame.bindings.Sound x
  parent : ∀ p ∈ frame.parent, p < f

theorem Frame.Sound.mono {x y : Extent} {f : FrameId} {frame : Frame} (h : frame.Sound x f)
    (hxy : x ≤ y) : frame.Sound y f :=
  ⟨h.bindings.mono hxy, h.parent⟩

def Machine.extent (m : Machine) : Extent := ⟨m.frames.size, m.cells.size, m.objects⟩

/-- All that the state holds is sound. -/
structure Machine.Sound (m : Machine) : Prop where
  frames {f : FrameId} {frame : Frame} : m.frames[f]? = some frame → frame.Sound m.extent f
  cells : ∀ v ∈ m.cells, v.Sound m.extent
  root : ∀ f ∈ m.root, f < m.frames.size
  hosts : ∀ f ∈ m.hosts, f.Respectful

/-! ## Copies of a state -/

/-- The frame with what it binds and the frame around it renamed. -/
def Frame.rename (r : Renaming) (frame : Frame) : Frame :=
  ⟨frame.bindings.rename r, frame.parent.map r.frame⟩

/-- How two runs differ: in names, by some levels of depth under one limit, and in that the second
one may give up with some pauses. -/
structure Pairing where
  names : Renaming
  depth : Nat
  lift : Nat
  limit : Nat
  gives : Pause → Prop

/-- The runs one level deeper. -/
def Pairing.deeper (S : Pairing) : Pairing := { S with depth := S.depth + 1 }

/-- `m.Copied S n`: the state `m` is sound, and `n` is a copy of it. What is made next in `m` is
renamed to what is made next in `n`; frames of `n` that are a copy of none are never seen. -/
structure Machine.Copied (S : Pairing) (m n : Machine) : Prop where
  sound : m.Sound
  frames {f : FrameId} {frame : Frame} : m.frames[f]? = some frame →
    n.frames[S.names.frame f]? = some (frame.rename S.names)
  nextFrame (k : Nat) : S.names.frame (m.frames.size + k) = n.frames.size + k
  nextObject (k : Nat) : S.names.object (m.objects + k) = n.objects + k
  cells : n.cells = m.cells.map (Value.rename S.names)
  hosts : n.hosts = m.hosts
  root : n.root = m.root.map S.names.frame
  world : n.world = m.world
  depth : m.depth = S.depth
  lift : n.depth = S.depth + S.lift
  limit : m.depthLimit = S.limit
  limit_copy : n.depthLimit = S.limit

/-- A renaming that leaves alone all that a state has made leaves its frames alone. -/
theorem Frame.Sound.rename_eq_self {r : Renaming} {x : Extent} {f : FrameId} {frame : Frame}
    (h : frame.Sound x f) (hr : r.Fixes x) (hf : f < x.frames) : frame.rename r = frame := by
  have heach : ∀ binding ∈ frame.bindings, (binding.1, binding.2.rename r) = id binding := by
    intro binding hb
    rw [Value.rename_eq_self hr _ (h.bindings binding hb)]
    rfl
  have hbindings : frame.bindings.rename r = frame.bindings :=
    (List.map_congr_left heach).trans (List.map_id _)
  have hparent : frame.parent.map r.frame = frame.parent := by
    cases hp : frame.parent with
    | none => rfl
    | some p => rw [Option.map_some, hr.frame p (Nat.lt_trans (h.parent p hp) hf)]
  rw [Frame.rename, hbindings, hparent]

/-- A state with the same frames, cells and so on is a copy under a renaming that leaves alone all
that has been made. -/
theorem Machine.Sound.copied {S : Pairing} {m n : Machine} (h : m.Sound)
    (hr : S.names.Fixes m.extent)
    (hframes : ∀ f < m.frames.size, n.frames[f]? = m.frames[f]?)
    (hnextFrame : ∀ k, S.names.frame (m.frames.size + k) = n.frames.size + k)
    (hnextObject : ∀ k, S.names.object (m.objects + k) = n.objects + k)
    (hcells : n.cells = m.cells) (hhosts : n.hosts = m.hosts) (hroot : n.root = m.root)
    (hworld : n.world = m.world) (hdepth : m.depth = S.depth) (hlift : n.depth = S.depth + S.lift)
    (hlimit : m.depthLimit = S.limit) (hlimit' : n.depthLimit = S.limit) : m.Copied S n where
  sound := h
  frames {f frame} hf := by
    have hlt : f < m.frames.size := (Array.getElem?_eq_some_iff.mp hf).1
    rw [(h.frames hf).rename_eq_self hr hlt, hr.frame f hlt, hframes f hlt, hf]
  nextFrame := hnextFrame
  nextObject := hnextObject
  cells := by
    rw [hcells]
    refine ((Array.map_congr_left fun v hv => ?_).trans (Array.map_id _)).symm
    exact Value.rename_eq_self hr v (h.cells v hv)
  hosts := hhosts
  root := by
    rw [hroot]
    cases hf : m.root with
    | none => rfl
    | some f => rw [Option.map_some, hr.frame f (h.root f hf)]
  world := hworld
  depth := hdepth
  lift := hlift
  limit := hlimit
  limit_copy := hlimit'

theorem Machine.Copied.frames_size {S : Pairing} {m n : Machine} (h : m.Copied S n) :
    S.names.frame m.frames.size = n.frames.size :=
  h.nextFrame 0

theorem Machine.Copied.objects {S : Pairing} {m n : Machine} (h : m.Copied S n) :
    S.names.object m.objects = n.objects :=
  h.nextObject 0

theorem Machine.Copied.cells_size {S : Pairing} {m n : Machine} (h : m.Copied S n) :
    n.cells.size = m.cells.size := by
  rw [h.cells, Array.size_map]

theorem Machine.Sound.find? {m : Machine} (h : m.Sound) {name : String} {depth : Nat} {f : FrameId}
    {v : Value} (hv : m.frames.find? name depth f = some v) : v.Sound m.extent := by
  induction depth generalizing f with
  | zero => cases hv
  | succ depth ih =>
    rw [Frames.find?] at hv
    split at hv
    · cases hv
    · next frame hf =>
      split at hv
      · next w hw =>
        cases hv
        exact (h.frames hf).bindings.get? hw
      · split at hv
        · cases hv
        · exact ih hv

/-- A name means the same in a copied frame. -/
theorem Machine.Copied.find? {S : Pairing} {m n : Machine} (h : m.Copied S n) (name : String)
    (f : FrameId) : ∀ {d d' : Nat}, f < m.frames.size → f < d → S.names.frame f < d' →
      n.frames.find? name d' (S.names.frame f) =
        (m.frames.find? name d f).map (Value.rename S.names) := by
  -- Enclosing frames are older, in the copy too, so the induction is on the number of the frame.
  induction f using Nat.strongRecOn with
  | ind f ih =>
    intro d d' hf hd hd'
    obtain ⟨k, rfl⟩ := Nat.exists_eq_add_of_lt hd
    obtain ⟨k', rfl⟩ := Nat.exists_eq_add_of_lt hd'
    obtain ⟨frame, hframe⟩ : ∃ frame, m.frames[f]? = some frame :=
      ⟨_, Array.getElem?_eq_getElem hf⟩
    rw [Frames.find?, Frames.find?, hframe, h.frames hframe]
    dsimp only [Frame.rename]
    rw [Bindings.get?_rename]
    cases frame.bindings.get? name with
    | some v => rfl
    | none =>
      cases hp : frame.parent with
      | none => rfl
      | some p =>
        have hlt : p < f := (h.sound.frames hframe).parent p hp
        have hk : p < f + k := Nat.lt_of_lt_of_le hlt (Nat.le_add_right _ _)
        have hk' : S.names.frame p < S.names.frame f + k' :=
          Nat.lt_of_lt_of_le (S.names.frame_lt hlt) (Nat.le_add_right _ _)
        exact ih p hlt (Nat.lt_trans hlt hf) hk hk'

theorem Machine.Copied.get? {S : Pairing} {m n : Machine} (h : m.Copied S n) {f : FrameId}
    (hf : f < m.frames.size) (name : String) :
    n.frames.get? (S.names.frame f) name = (m.frames.get? f name).map (Value.rename S.names) :=
  h.find? name f hf (Nat.lt_succ_self _) (Nat.lt_succ_self _)

/-! ## Changes of a state and its copy -/

section

variable {S : Pairing} {m n : Machine}

theorem Machine.extent_define (m : Machine) (f : FrameId) (name : String) (v : Value) :
    Machine.extent { m with frames := m.frames.set f name v } = m.extent := by
  rw [extent, extent, Frames.set, Array.size_modify]

theorem Machine.Sound.define (h : m.Sound) (f : FrameId) (name : String) {v : Value}
    (hv : v.Sound m.extent) : Machine.Sound { m with frames := m.frames.set f name v } := by
  have hextent := m.extent_define f name v
  refine ⟨fun {g frame} hg => ?_, ?_, ?_, h.hosts⟩
  · rw [hextent]
    dsimp only [Frames.set] at hg
    rw [Array.getElem?_modify] at hg
    split at hg
    · obtain ⟨old, hold, rfl⟩ := Option.map_eq_some_iff.mp hg
      exact ⟨(h.frames hold).bindings.set name hv, (h.frames hold).parent⟩
    · exact h.frames hg
  · rw [hextent]
    exact h.cells
  · rw [Frames.set, Array.size_modify]
    exact h.root

theorem Machine.Copied.define (h : m.Copied S n) (f : FrameId) (name : String) {v : Value}
    (hv : v.Sound m.extent) :
    Machine.Copied S { m with frames := m.frames.set f name v }
      { n with frames := n.frames.set (S.names.frame f) name (v.rename S.names) } where
  sound := h.sound.define f name hv
  frames {g frame} hg := by
    dsimp only [Frames.set] at hg ⊢
    rw [Array.getElem?_modify] at hg ⊢
    by_cases hfg : f = g
    · subst hfg
      rw [if_pos rfl] at hg ⊢
      obtain ⟨old, hold, rfl⟩ := Option.map_eq_some_iff.mp hg
      rw [h.frames hold, Option.map_some]
      simp only [Frame.rename, Bindings.set_rename]
    · have hfg' : S.names.frame f ≠ S.names.frame g := fun heq =>
        hfg (by simpa [heq] using S.names.frame_beq f g)
      rw [if_neg hfg] at hg
      rw [if_neg hfg']
      exact h.frames hg
  nextFrame k := by simpa only [Frames.set, Array.size_modify] using h.nextFrame k
  nextObject := h.nextObject
  cells := h.cells
  hosts := h.hosts
  root := h.root
  world := h.world
  depth := h.depth
  lift := h.lift
  limit := h.limit
  limit_copy := h.limit_copy

theorem Machine.le_enter (m : Machine) (frame : Frame) :
    m.extent ≤ Machine.extent { m with frames := m.frames.push frame } :=
  ⟨by simp [extent], Nat.le_refl _, Nat.le_refl _⟩

theorem Machine.Sound.enter (h : m.Sound) {parent : FrameId} {bindings : Bindings}
    (hparent : parent < m.frames.size) (hbindings : bindings.Sound m.extent) :
    Machine.Sound { m with frames := m.frames.push ⟨bindings, some parent⟩ } := by
  have hle := m.le_enter ⟨bindings, some parent⟩
  refine ⟨fun {g frame} hg => ?_, fun v hv => (h.cells v hv).mono hle, fun f hf => ?_, h.hosts⟩
  · dsimp only at hg
    rw [Array.getElem?_push] at hg
    split at hg
    · next hsize =>
      cases hg
      refine ⟨hbindings.mono hle, fun p hp => ?_⟩
      cases hp
      exact hsize ▸ hparent
    · exact (h.frames hg).mono hle
  · exact Nat.lt_of_lt_of_le (h.root f hf) hle.frames

theorem Machine.Copied.enter (h : m.Copied S n) {parent : FrameId} {bindings : Bindings}
    (hparent : parent < m.frames.size) (hbindings : bindings.Sound m.extent) :
    Machine.Copied S { m with frames := m.frames.push ⟨bindings, some parent⟩ }
      { n with frames := n.frames.push (Frame.rename S.names ⟨bindings, some parent⟩) } where
  sound := h.sound.enter hparent hbindings
  frames {g frame} hg := by
    dsimp only at hg ⊢
    rw [Array.getElem?_push] at hg ⊢
    by_cases hsize : g = m.frames.size
    · rw [if_pos hsize] at hg
      cases hg
      rw [if_pos (hsize ▸ h.frames_size)]
    · rw [if_neg hsize] at hg
      have hold := h.frames hg
      have hne : S.names.frame g ≠ n.frames.size := by
        intro heq
        rw [heq, Array.getElem?_eq_none (Nat.le_refl _)] at hold
        cases hold
      rw [if_neg hne, hold]
  nextFrame k := by
    have hnext := h.nextFrame (1 + k)
    rw [← Nat.add_assoc, ← Nat.add_assoc] at hnext
    simpa only [Array.size_push] using hnext
  nextObject := h.nextObject
  cells := h.cells
  hosts := h.hosts
  root := h.root
  world := h.world
  depth := h.depth
  lift := h.lift
  limit := h.limit
  limit_copy := h.limit_copy

theorem Machine.le_newObject (m : Machine) :
    m.extent ≤ Machine.extent { m with objects := m.objects + 1 } :=
  ⟨Nat.le_refl _, Nat.le_refl _, Nat.le_succ _⟩

theorem Machine.Copied.newObject (h : m.Copied S n) :
    Machine.Copied S { m with objects := m.objects + 1 } { n with objects := n.objects + 1 } where
  sound :=
    { frames := fun hg => (h.sound.frames hg).mono m.le_newObject
      cells := fun v hv => (h.sound.cells v hv).mono m.le_newObject
      root := h.sound.root
      hosts := h.sound.hosts }
  frames := h.frames
  nextFrame := h.nextFrame
  nextObject k := by
    have hnext := h.nextObject (1 + k)
    rwa [← Nat.add_assoc, ← Nat.add_assoc] at hnext
  cells := h.cells
  hosts := h.hosts
  root := h.root
  world := h.world
  depth := h.depth
  lift := h.lift
  limit := h.limit
  limit_copy := h.limit_copy

theorem Machine.le_newCell (m : Machine) (v : Value) :
    m.extent ≤ Machine.extent { m with cells := m.cells.push v } :=
  ⟨Nat.le_refl _, by simp [extent], Nat.le_refl _⟩

theorem Machine.Copied.newCell (h : m.Copied S n) {v : Value} (hv : v.Sound m.extent) :
    Machine.Copied S { m with cells := m.cells.push v }
      { n with cells := n.cells.push (v.rename S.names) } where
  sound :=
    { frames := fun hg => (h.sound.frames hg).mono (m.le_newCell v)
      cells := Array.forall_mem_push.mpr
        ⟨hv.mono (m.le_newCell v), fun w hw => (h.sound.cells w hw).mono (m.le_newCell v)⟩
      root := h.sound.root
      hosts := h.sound.hosts }
  frames := h.frames
  nextFrame := h.nextFrame
  nextObject := h.nextObject
  cells := by rw [Array.map_push, h.cells]
  hosts := h.hosts
  root := h.root
  world := h.world
  depth := h.depth
  lift := h.lift
  limit := h.limit
  limit_copy := h.limit_copy

theorem Machine.extent_writeCell (m : Machine) (id : Nat) (v : Value) :
    Machine.extent { m with cells := m.cells.setIfInBounds id v } = m.extent := by
  rw [extent, extent, Array.size_setIfInBounds]

theorem Machine.Copied.writeCell (h : m.Copied S n) (id : Nat) {v : Value}
    (hv : v.Sound m.extent) :
    Machine.Copied S { m with cells := m.cells.setIfInBounds id v }
      { n with cells := n.cells.setIfInBounds id (v.rename S.names) } where
  sound :=
    { frames := fun hg => m.extent_writeCell id v ▸ h.sound.frames hg
      cells := fun w hw => by
        rw [m.extent_writeCell id v]
        rcases Array.mem_or_eq_of_mem_setIfInBounds hw with hw | rfl
        · exact h.sound.cells w hw
        · exact hv
      root := h.sound.root
      hosts := h.sound.hosts }
  frames := h.frames
  nextFrame := h.nextFrame
  nextObject := h.nextObject
  cells := by rw [Array.map_setIfInBounds, h.cells]
  hosts := h.hosts
  root := h.root
  world := h.world
  depth := h.depth
  lift := h.lift
  limit := h.limit
  limit_copy := h.limit_copy

theorem Machine.Copied.deeper (h : m.Copied S n) :
    Machine.Copied S.deeper { m with depth := m.depth + 1 } { n with depth := n.depth + 1 } :=
  ⟨⟨h.sound.frames, h.sound.cells, h.sound.root, h.sound.hosts⟩, h.frames, h.nextFrame,
    h.nextObject, h.cells, h.hosts, h.root, h.world, congrArg (· + 1) h.depth,
    by rw [h.lift, Pairing.deeper, Nat.add_right_comm], h.limit, h.limit_copy⟩

theorem Machine.Copied.shallower (h : m.Copied S.deeper n) :
    Machine.Copied S { m with depth := m.depth - 1 } { n with depth := n.depth - 1 } :=
  ⟨⟨h.sound.frames, h.sound.cells, h.sound.root, h.sound.hosts⟩, h.frames, h.nextFrame,
    h.nextObject, h.cells, h.hosts, h.root, h.world, congrArg (· - 1) h.depth,
    by rw [h.lift, Pairing.deeper, Nat.add_right_comm, Nat.add_sub_cancel], h.limit, h.limit_copy⟩

theorem Machine.Copied.outside (h : m.Copied S n) (world : World) :
    Machine.Copied S { m with world } { n with world } :=
  ⟨⟨h.sound.frames, h.sound.cells, h.sound.root, h.sound.hosts⟩, h.frames, h.nextFrame,
    h.nextObject, h.cells, h.hosts, h.root, rfl, h.depth, h.lift, h.limit, h.limit_copy⟩

end

end Lisp
