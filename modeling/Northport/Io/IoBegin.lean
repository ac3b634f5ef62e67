/-
# How an I/O packet begins (`IoManager.cpp`)

`Begin` takes the stack of a device from the graph of nodes and makes the frames of the packet.  It
writes to the first frame, whether there is one or not: the stack of a device of the kernel has no
transport API at all.
-/
import Northport.Drivers.NodeGraph
import Northport.Io.IoManager

namespace Northport.Io

open Lib Drivers List IopFrame

/-- The transport APIs of the driver instances on a stack. -/
def instances (stack : List DeviceNode) : List (Option ℕ) :=
  stack.filterMap fun
    | .driverInstance transportDevice => some transportDevice
    | _ => none

/-- The descriptor that was met since the last instance. -/
def lastDescriptor (next : Option DeviceDescriptor) (stack : List DeviceNode) :
    Option DeviceDescriptor :=
  stack.foldl (fun
    | _, .descriptor desc => some desc
    | _, .driverInstance _ => none
    | next, .api => next) next

/-- **What the frames of a packet should be**: there is one for each transport API down to the first
instance without one, and it carries the descriptor in front of its instance. -/
structure FramesOf (stack : List DeviceNode) (frames : List IopFrame) : Prop where
  nonempty : frames ≠ []
  apis : frames.map api = ((instances stack).takeWhile Option.isSome).filterMap id
  descriptor : ∀ pre api post, stack = pre ++ .driverInstance (some api) :: post →
    none ∉ instances pre → (frames.map descriptor)[(instances pre).length]? =
      some (lastDescriptor none pre)

lemma descriptor_stackFrames {pre post : List DeviceNode} {api : ℕ} (h : none ∉ instances pre)
    (next : Option DeviceDescriptor) :
    ((stackFrames next (pre ++ .driverInstance (some api) :: post)).map
      descriptor)[(instances pre).length]? = some (lastDescriptor next pre) := by
  induction pre generalizing next with
  | nil => rfl
  | cons node pre ih =>
    cases node with
    | api => exact ih h next
    | descriptor desc => exact ih h (some desc)
    | driverInstance transportDevice =>
      cases transportDevice with
      | none => exact absurd mem_cons_self h
      | some api => exact ih (fun hmem => h (mem_cons_of_mem _ hmem)) none

/-- The frames that the loop makes are right, exactly if the first instance on the stack has a
transport API. -/
lemma framesOf_iff {stack : List DeviceNode} {frames : List IopFrame}
    (hapis : frames.map api = (stackFrames none stack).map api)
    (hdesc : frames.map descriptor = (stackFrames none stack).map descriptor) :
    FramesOf stack frames ↔ ∃ api, (instances stack).head? = some (some api) := by
  have hfilter := hapis.trans (map_api_stackFrames none stack)
  change _ = ((instances stack).takeWhile Option.isSome).filterMap id at hfilter
  constructor
  · intro h
    have hne := h.nonempty
    rw [ne_eq, ← map_eq_nil_iff (f := api), hfilter] at hne
    rcases hinst : instances stack with _ | ⟨_ | api, l⟩
    · exact absurd (by rw [hinst]; rfl) hne
    · exact absurd (by rw [hinst]; rfl) hne
    · exact ⟨api, rfl⟩
  · rintro ⟨api, hapi⟩
    obtain ⟨l, hinst⟩ := head?_eq_some_iff.mp hapi
    refine ⟨?_, hfilter, ?_⟩
    · rw [ne_eq, ← map_eq_nil_iff (f := IopFrame.api), hfilter, hinst]
      nofun
    · rintro pre api post rfl hpre
      rw [hdesc]
      exact descriptor_stackFrames hpre none

lemma map_modifyHead {α β : Type*} {f : α → α} {g : α → β} (h : ∀ a, g (f a) = g a) (l : List α) :
    (l.modifyHead f).map g = l.map g := by
  cases l with
  | nil => rfl
  | cons a l => exact congrArg (· :: l.map g) (h a)

lemma beginPacket_iff (beginning : IopBeginning) (stack : List DeviceNode) :
    (∀ iop ∈ beginPacket beginning stack, FramesOf stack iop.frames) ↔
      stack = [] ∨ ∃ api, (instances stack).head? = some (some api) := by
  by_cases hnil : stack = []
  · exact iff_of_true (by simp [beginPacket, hnil]) (Or.inl hnil)
  rw [beginPacket, if_neg hnil, or_iff_right hnil]
  simp only [Option.mem_some_iff, forall_eq']
  -- the buffer of the first frame is all that changes after the loop
  refine framesOf_iff (map_modifyHead ?_ _) (map_modifyHead ?_ _)
  all_goals exact fun _ => rfl

section

variable (transportDevice : ℕ → Option ℕ) (driverData : ℕ → ℕ)

/-- The node at an address, as `Begin` sees it. -/
def onStack (g : NodeGraph) (a : ℕ) : Option DeviceNode :=
  g.nodes[a]?.map fun node =>
    match node.data with
    | .driverInstance _ => .driverInstance (transportDevice a)
    | .descriptor _ => .descriptor ⟨node.id, driverData a⟩
    | .api _ => .api

/-- The stack that `Begin` gets; all its addresses are those of nodes. -/
def deviceStack (g : NodeGraph) (fuel id : ℕ) : Option (List DeviceNode) :=
  (g.getStackFromId fuel id).map (List.filterMap (onStack transportDevice driverData g))

/-- **`Begin` in every graph**, whatever the transport APIs of the instances are: it ends, and it
returns nothing or the packet that it should exactly if the stack is empty or its first instance has
a transport API. -/
theorem begin_iff (beginning : IopBeginning) (ops : List GraphOp) : Always NodeGraph.step (fun g =>
    ∀ id, ∃ fuel stack, deviceStack transportDevice driverData g fuel id = some stack ∧
      ((∀ iop ∈ beginPacket beginning stack, FramesOf stack iop.frames) ↔
        stack = [] ∨ ∃ api, (instances stack).head? = some (some api))) NodeGraph.init ops := by
  refine always_of_invariant NodeGraph.Inv (fun g hg id => ?_) (fun _ _ _ hg hstep => hg.step hstep)
    NodeGraph.inv_init ops
  obtain ⟨fuel, addresses, hstack⟩ := hg.getStackFromId_ends id
  exact ⟨fuel, _, congrArg (Option.map _) hstack, beginPacket_iff beginning _⟩

end

/-- A device of the kernel: there is no transport API on its stack, and the packet has no frame. -/
theorem begin_kernelApi : ∃ g stack iop, run NodeGraph.step NodeGraph.init [.addApi none] = some g ∧
    deviceStack (fun _ => none) (fun _ => 0) g 2 2 = some stack ∧
      beginPacket ⟨0, 0, 0, 0⟩ stack = some iop ∧ iop.frames = [] :=
  ⟨_, _, _, rfl, rfl, rfl, rfl⟩

end Northport.Io
