/-
# The walk of an I/O packet through the device stack (`IoManager.cpp`)

A packet has a frame for each device of a stack.  `End` calls `begin_op` of one frame after the
other, turns around at the last frame or at a failure, and calls `end_op` on the way back.  The
walk keeps the index of the next frame and the direction, and it turns around at the last frame
whatever the direction is: a packet of two frames or more that gets as far as the last one never
leaves it again.

The answers of the drivers are given by a stream: the answer to the first call, to the second one,
and so on.
-/
import Mathlib.Data.List.Basic
import Mathlib.Tactic

namespace Northport.Io

open List

/-! ### Packets -/

structure DeviceDescriptor where
  id : ℕ
  driverData : ℕ
deriving DecidableEq, Repr

/-- A node of the stack below a device. -/
inductive DeviceNode where
  | driverInstance (transportDevice : Option ℕ)
  | descriptor (desc : DeviceDescriptor)
  | api
deriving DecidableEq, Repr

structure IopFrame where
  /-- The device whose driver is called. -/
  api : ℕ
  descriptor : Option DeviceDescriptor
  buffer : ℕ := 0
  addr : ℕ := 0
  length : ℕ := 0
deriving DecidableEq, Repr

/-- A call that `ContinueOne` makes on a frame. -/
inductive IopCall where
  | beginOp (index : ℕ)
  | endOp (index : ℕ)
deriving DecidableEq, Repr

structure IoPacket where
  frames : List IopFrame
  type : ℕ
  nextIndex : ℕ
  directionMod : ℤ
  failure : Bool
  /-- The calls so far. -/
  calls : List IopCall
deriving DecidableEq, Repr

structure IopBeginning where
  type : ℕ
  buffer : ℕ
  addr : ℕ
  length : ℕ

/-- A driver instance gives a frame for its transport device, with the descriptor that was met
since the last frame; an instance without a transport device is the end. -/
def stackFrames : Option DeviceDescriptor → List DeviceNode → List IopFrame
  | _, [] => []
  | _, .descriptor desc :: stack => stackFrames (some desc) stack
  | next, .api :: stack => stackFrames next stack
  | _, .driverInstance none :: _ => []
  | next, .driverInstance (some api) :: stack =>
    { api, descriptor := next } :: stackFrames none stack

namespace IoPacket

/-- A packet whose walk has not begun. -/
def start (type : ℕ) (frames : List IopFrame) : IoPacket := ⟨frames, type, 0, 1, false, []⟩

end IoPacket

/-- `Begin` with the stack of the device.  The first frame is primed with the buffer; if there is
none, then the buffer is written to storage behind the vector. -/
def beginPacket (beginning : IopBeginning) (deviceStack : List DeviceNode) : Option IoPacket :=
  if deviceStack = [] then none
  else
    some (.start beginning.type ((stackFrames none deviceStack).modifyHead fun frame => { frame with
      buffer := beginning.buffer, addr := beginning.addr, length := beginning.length }))

/-- The devices of the frames are those that the driver instances use, down to the first instance
that uses none. -/
lemma map_api_stackFrames (next : Option DeviceDescriptor) (stack : List DeviceNode) :
    (stackFrames next stack).map IopFrame.api =
      ((stack.filterMap fun
        | .driverInstance transportDevice => some transportDevice
        | _ => none).takeWhile Option.isSome).filterMap id := by
  induction stack generalizing next with
  | nil => rfl
  | cons node stack ih =>
    cases node with
    | api => simpa [stackFrames] using ih next
    | descriptor desc => simpa [stackFrames] using ih (some desc)
    | driverInstance transportDevice =>
      cases transportDevice with
      | none => simp [stackFrames]
      | some api => simpa [stackFrames] using ih none

namespace IoPacket

variable (answer : ℕ → Bool)

/-! ### The walk -/

/-- The driver of the next frame is called. -/
def callFrame (iop : IoPacket) : IoPacket :=
  if iop.directionMod > 0 then
    let iop' := { iop with calls := iop.calls ++ [.beginOp iop.nextIndex] }
    if answer iop.calls.length then iop' else { iop' with directionMod := -1, failure := true }
  else
    let iop' := { iop with calls := iop.calls ++ [.endOp iop.nextIndex] }
    if answer iop.calls.length then iop' else { iop' with failure := true }

/-- `ContinueOne`: the result of the walk when it has come to its end. -/
def continueOne (iop : IoPacket) : Option (Option Bool × IoPacket) :=
  if iop.nextIndex < iop.frames.length then
    let iop := iop.callFrame answer
    if iop.directionMod = -1 ∧ iop.nextIndex = 0 then some (some !iop.failure, iop)
    else if iop.nextIndex = iop.frames.length - 1 then some (none, { iop with directionMod := -1 })
    else some (none, { iop with nextIndex := (iop.nextIndex + iop.directionMod).toNat })
  else none

/-- The loop of `End`. -/
def endPacket : ℕ → IoPacket → Option (Bool × IoPacket)
  | 0, _ => none
  | fuel + 1, iop =>
    (iop.continueOne answer).bind fun
      | (some result, iop) => some (result, iop)
      | (none, iop) => endPacket fuel iop

/-! ### What the walk is for -/

/-- The first of the frames whose `begin_op` fails. -/
def firstFailure (n : ℕ) : Option ℕ := (range n).find? fun i => !answer i

/-- Down from the frame before `n`. -/
def endOps (n : ℕ) : List IopCall := (range n).reverse.map .endOp

def beginOps (n : ℕ) : List IopCall := (range n).map .beginOp

/-- The calls of a complete walk over `n` frames. -/
def fullWalk (n : ℕ) : List IopCall :=
  match firstFailure answer n with
  | some k => beginOps (k + 1) ++ endOps k
  | none => beginOps n ++ endOps n

/-- **The walk is complete**: it comes to its end, has made the calls of a complete walk, and its
result is whether all of them have succeeded. -/
def Completes (iop : IoPacket) : Prop :=
  ∃ fuel result iop', iop.endPacket answer fuel = some (result, iop') ∧
    iop'.calls = fullWalk answer iop.frames.length ∧
    (result = true ↔ ∀ i < iop'.calls.length, answer i = true)

variable {answer} {iop iop' : IoPacket} {i j n : ℕ} {result failure : Bool} {calls : List IopCall}
  {k : ℕ}

/-! ### Single steps -/

lemma endPacket_of_none (h : iop.continueOne answer = some (none, iop')) (fuel : ℕ) :
    iop.endPacket answer (fuel + 1) = iop'.endPacket answer fuel := by
  rw [endPacket, h]
  rfl

lemma endPacket_of_some (h : iop.continueOne answer = some (some result, iop')) (fuel : ℕ) :
    iop.endPacket answer (fuel + 1) = some (result, iop') := by
  rw [endPacket, h]
  rfl

variable (iop) in
/-- The packet on the way up, at frame `i`, with the frames before it behind it. -/
def up (i : ℕ) : IoPacket :=
  { iop with nextIndex := i, directionMod := 1, failure := false, calls := beginOps i }

variable (iop) in
/-- The packet on the way down. -/
def down (i : ℕ) (failure : Bool) (calls : List IopCall) : IoPacket :=
  { iop with nextIndex := i, directionMod := -1, failure := failure, calls := calls }

lemma start_eq_up (type : ℕ) (frames : List IopFrame) :
    start type frames = (start type frames).up 0 := rfl

lemma beginOps_succ (i : ℕ) : beginOps (i + 1) = beginOps i ++ [.beginOp i] := by
  simp [beginOps, range_succ]

lemma endOps_succ (i : ℕ) : endOps (i + 1) = .endOp i :: endOps i := by
  simp [endOps, range_succ]

lemma length_beginOps (i : ℕ) : (beginOps i).length = i := by simp [beginOps]

/-- What follows the call. -/
lemma continueOne_of_call (hi : iop.nextIndex < iop.frames.length)
    (h : iop.callFrame answer = iop') : iop.continueOne answer =
      if iop'.directionMod = -1 ∧ iop'.nextIndex = 0 then some (some !iop'.failure, iop')
      else if iop'.nextIndex = iop'.frames.length - 1 then
        some (none, { iop' with directionMod := -1 })
      else some (none, { iop' with nextIndex := (iop'.nextIndex + iop'.directionMod).toNat }) := by
  rw [continueOne, if_pos hi, h]

/-- A `begin_op` that succeeds. -/
lemma callFrame_up (ha : answer i = true) :
    (iop.up i).callFrame answer = { iop.up i with calls := beginOps (i + 1) } := by
  simp [callFrame, up, length_beginOps, ha, beginOps_succ]

variable (iop) in
/-- A `begin_op` that fails turns the walk around. -/
lemma callFrame_failure (ha : answer i = false) :
    (iop.up i).callFrame answer = iop.down i true (beginOps (i + 1)) := by
  simp [callFrame, up, down, length_beginOps, ha, beginOps_succ]

/-- On the way up before the last frame. -/
lemma continueOne_up (hi : i + 1 < iop.frames.length) (ha : answer i = true) :
    (iop.up i).continueOne answer = some (none, iop.up (i + 1)) := by
  rw [continueOne_of_call (Nat.lt_of_succ_lt hi) (callFrame_up ha), if_neg, if_neg]
  · rfl
  · show ¬ i = iop.frames.length - 1
    omega
  · exact fun h => absurd h.1 (by simp [up])

/-- At the last frame the walk turns around. -/
lemma continueOne_last (hi : i + 1 = iop.frames.length) (ha : answer i = true) :
    (iop.up i).continueOne answer = some (none, iop.down i false (beginOps (i + 1))) := by
  rw [continueOne_of_call (Nat.lt_of_succ_le hi.le) (callFrame_up ha), if_neg, if_pos]
  · rfl
  · show i = iop.frames.length - 1
    omega
  · exact fun h => absurd h.1 (by simp [up])

/-- What a step does on the way down, after the call. -/
lemma continueOne_down (hi : i < iop.frames.length)
    (hcall : iop'.callFrame answer = iop.down i failure calls) (hiop : iop'.nextIndex = i)
    (hframes : iop'.frames = iop.frames) : iop'.continueOne answer =
      if i = 0 then some (some !failure, iop.down 0 failure calls)
      else if i + 1 = iop.frames.length then some (none, iop.down i failure calls)
      else some (none, iop.down (i - 1) failure calls) := by
  rw [continueOne_of_call (by rwa [hiop, hframes]) hcall]
  by_cases hzero : i = 0
  · subst hzero
    rfl
  rw [if_neg hzero, if_neg (fun h => hzero h.2)]
  by_cases hlast : i + 1 = iop.frames.length
  · rw [if_pos hlast, if_pos]
    · rfl
    · show i = iop.frames.length - 1
      omega
  · rw [if_neg hlast, if_neg]
    · have hprev : ((i : ℤ) + -1).toNat = i - 1 := by omega
      simp only [down, hprev]
    · show ¬ i = iop.frames.length - 1
      omega

variable (iop answer i) in
lemma callFrame_down (failure : Bool) (calls : List IopCall) :
    (iop.down i failure calls).callFrame answer =
      iop.down i (failure || !answer calls.length) (calls ++ [.endOp i]) := by
  cases ha : answer calls.length <;> simp [callFrame, down, ha]

/-! ### The way up and the way down -/

/-- Up to frame `i` every `begin_op` has succeeded. -/
lemma endPacket_up (hi : i < iop.frames.length) (ha : ∀ j < i, answer j = true) (fuel : ℕ) :
    (iop.up 0).endPacket answer (fuel + i) = (iop.up i).endPacket answer fuel := by
  induction i generalizing fuel with
  | zero => rfl
  | succ i ih =>
    rw [← add_assoc, add_right_comm, ih (by omega) fun j hj => ha j (by omega),
      endPacket_of_none (continueOne_up hi (ha i (by omega)))]

variable (answer) in
/-- **The way down** from a frame that is not the last one calls `end_op` of each frame. -/
lemma endPacket_down (failure : Bool) (calls : List IopCall) (hi : i + 1 < iop.frames.length) :
    ∃ result iop', (iop.down i failure calls).endPacket answer (i + 1) = some (result, iop') ∧
      iop'.calls = calls ++ endOps (i + 1) ∧
      (result = true ↔ failure = false ∧ ∀ j < i + 1, answer (calls.length + j) = true) := by
  induction i generalizing failure calls with
  | zero =>
    have hstep := continueOne_down (by omega) (callFrame_down answer iop 0 failure calls) rfl rfl
    refine ⟨_, _, endPacket_of_some hstep 0, rfl, ?_⟩
    simp
  | succ i ih =>
    have hstep := continueOne_down (by omega) (callFrame_down answer iop (i + 1) failure calls) rfl rfl
    rw [if_neg (by omega), if_neg (by omega)] at hstep
    obtain ⟨result, iop', hrun, hcalls, hresult⟩ := ih (failure || !answer calls.length)
      (calls ++ [.endOp (i + 1)]) (by omega)
    refine ⟨result, iop', (endPacket_of_none hstep (i + 1)).trans hrun, ?_, ?_⟩
    · rw [hcalls, endOps_succ (i + 1), append_assoc, singleton_append]
    · rw [hresult, length_append, length_singleton, Nat.forall_lt_succ_left (n := i + 1)]
      simp [add_assoc, add_comm 1, and_assoc]

/-- **The last frame is never left**, unless it is the only one. -/
lemma endPacket_last (hi : i + 1 = iop.frames.length) (hpos : i ≠ 0) (fuel : ℕ) :
    (iop.down i failure calls).endPacket answer fuel = none := by
  induction fuel generalizing failure calls with
  | zero => rfl
  | succ fuel ih =>
    have hstep := continueOne_down (by omega) (callFrame_down answer iop i failure calls) rfl rfl
    rw [if_neg hpos, if_pos hi] at hstep
    rw [endPacket_of_none hstep]
    exact ih

/-! ### The whole walk -/

lemma firstFailure_eq_some (hk : k < n) (ha : ∀ j < k, answer j = true) (hfail : answer k = false) :
    firstFailure answer n = some k := by
  rw [firstFailure]
  simp [hk, hfail]
  exact ha

lemma firstFailure_eq_none (ha : ∀ j < n, answer j = true) : firstFailure answer n = none := by
  rw [firstFailure, find?_eq_none]
  intro j hj
  simp [ha j (mem_range.mp hj)]

/-- After a failure the result is false, and it should be. -/
lemma result_iff_of_failure (hk : k < calls.length) (hfail : answer k = false)
    (hresult : result = false) : result = true ↔ ∀ i < calls.length, answer i = true := by
  refine iff_of_false (by simp [hresult]) fun h => ?_
  rw [h k hk] at hfail
  cases hfail

/-- The walk ends at once when the first `begin_op` fails. -/
lemma completes_of_first (hlen : 0 < iop.frames.length) (hfail : answer 0 = false) :
    (iop.up 0).Completes answer := by
  have hstep := continueOne_down hlen (callFrame_failure iop hfail) rfl rfl
  refine ⟨1, _, _, endPacket_of_some hstep 0, ?_, ?_⟩
  · show beginOps 1 = fullWalk answer iop.frames.length
    rw [fullWalk, firstFailure_eq_some hlen (by simp) hfail]
    rfl
  · exact result_iff_of_failure (k := 0) (by simp [down, length_beginOps]) hfail rfl

/-- The walk turns around at the first failure, if that is before the last frame. -/
lemma completes_of_failure (hk : k + 2 < iop.frames.length) (ha : ∀ j < k + 1, answer j = true)
    (hfail : answer (k + 1) = false) : (iop.up 0).Completes answer := by
  have hstep := continueOne_down (by omega) (callFrame_failure iop hfail) rfl rfl
  rw [if_neg (by omega), if_neg (by omega), Nat.add_sub_cancel] at hstep
  obtain ⟨result, iop', hrun, hcalls, hresult⟩ :=
    endPacket_down answer true (beginOps (k + 2)) (show k + 1 < iop.frames.length by omega)
  refine ⟨k + 2 + (k + 1), result, iop', ?_, ?_, ?_⟩
  · rw [endPacket_up (by omega) ha, endPacket_of_none hstep, hrun]
  · have hlen : k + 1 < (iop.up 0).frames.length := by
      show k + 1 < iop.frames.length
      omega
    rw [hcalls, fullWalk, firstFailure_eq_some hlen ha hfail]
  · refine result_iff_of_failure ?_ hfail ?_
    · rw [hcalls, length_append, length_beginOps]
      omega
    · simpa using hresult

/-- The walk turns around at the only frame. -/
lemma completes_of_single (hn : iop.frames.length = 1) : (iop.up 0).Completes answer := by
  cases ha : answer 0 with
  | false => exact completes_of_first (by omega) ha
  | true =>
    have hstep := continueOne_down (by omega) (callFrame_down answer iop 0 false (beginOps 1)) rfl rfl
    refine ⟨2, _, _, (endPacket_of_none (continueOne_last hn.symm ha) 1).trans
      (endPacket_of_some hstep 0), ?_, ?_⟩
    · show beginOps 1 ++ endOps 1 = fullWalk answer iop.frames.length
      rw [fullWalk, hn, firstFailure_eq_none]
      intro j hj
      rwa [Nat.lt_one_iff.mp hj]
    · have hlen : (iop.down 0 (false || !answer (beginOps 1).length)
          (beginOps 1 ++ [.endOp 0])).calls.length = 2 := rfl
      rw [hlen, length_beginOps, Nat.forall_lt_succ_left]
      simp [ha]

/-- The walk that gets to the last of several frames does not return. -/
lemma endPacket_of_last (hn : 1 < iop.frames.length)
    (ha : ∀ j, j + 1 < iop.frames.length → answer j = true) (hi : i < iop.frames.length)
    (fuel : ℕ) : (iop.up i).endPacket answer fuel = none := by
  induction fuel generalizing i with
  | zero => rfl
  | succ fuel ih =>
    by_cases hlast : i + 1 = iop.frames.length
    · cases hai : answer i with
      | true =>
        rw [endPacket_of_none (continueOne_last hlast hai)]
        exact endPacket_last hlast (by omega) fuel
      | false =>
        have hstep := continueOne_down hi (callFrame_failure iop hai) rfl rfl
        rw [if_neg (by omega), if_pos hlast] at hstep
        rw [endPacket_of_none hstep]
        exact endPacket_last hlast (by omega) fuel
    · rw [endPacket_of_none (continueOne_up (by omega) (ha i (by omega)))]
      exact ih (by omega)

/-- **A packet is walked through exactly if** it has one frame, or a `begin_op` before that of the
last frame fails. -/
theorem completes_iff (answer : ℕ → Bool) (type : ℕ) (frames : List IopFrame)
    (hframes : frames ≠ []) : (start type frames).Completes answer ↔
      frames.length = 1 ∨ ∃ j, j + 1 < frames.length ∧ answer j = false := by
  have hpos : 0 < frames.length := length_pos_of_ne_nil hframes
  constructor
  · rintro ⟨fuel, result, iop', hrun, -⟩
    by_contra hnot
    rw [not_or, not_exists] at hnot
    have hnone : ((start type frames).up 0).endPacket answer fuel = none :=
      endPacket_of_last (show 1 < frames.length by omega)
        (fun j hj => by simpa using fun h => hnot.2 j ⟨hj, h⟩) hpos fuel
    rw [← start_eq_up, hrun] at hnone
    cases hnone
  · rintro (hone | hfail)
    · exact (start_eq_up type frames).symm ▸ completes_of_single hone
    · -- the first of the failures is the one that counts
      have hfail : ∃ j, answer j = false ∧ j + 1 < frames.length := by simpa [and_comm] using hfail
      obtain ⟨hk, hklen⟩ := Nat.find_spec hfail
      have ha : ∀ j < Nat.find hfail, answer j = true := by
        intro j hj
        have := Nat.find_min hfail hj
        rw [not_and] at this
        cases haj : answer j with
        | true => rfl
        | false => exact absurd (Nat.lt_trans (Nat.succ_lt_succ hj) hklen) (this haj)
      generalize Nat.find hfail = k at hk hklen ha
      cases k with
      | zero => exact (start_eq_up type frames).symm ▸ completes_of_first hpos hk
      | succ k => exact (start_eq_up type frames).symm ▸ completes_of_failure hklen ha hk

/-- Three devices, the second of which refuses its part of the operation. -/
theorem completes_iff_threeFrames : (start 0 [{ api := 1, descriptor := none },
    { api := 2, descriptor := none }, { api := 3, descriptor := none }]).Completes (· ≠ 1) :=
  (completes_iff _ 0 _ (by decide)).mpr (.inr ⟨1, by decide, by decide⟩)

/-- Two devices, all calls to which succeed: `End` does not return. -/
theorem two_frames_diverge : ¬ (start 0 [{ api := 1, descriptor := none },
    { api := 2, descriptor := none }]).Completes fun _ => true := by
  rintro ⟨fuel, result, iop', hrun, -⟩
  have hnone : ((start 0 [{ api := 1, descriptor := none }, { api := 2, descriptor := none }]).up
      0).endPacket (fun _ => true) fuel = none :=
    endPacket_of_last (by decide) (fun _ _ => rfl) (by decide) fuel
  rw [← start_eq_up, hrun] at hnone
  cases hnone

end IoPacket

end Northport.Io
