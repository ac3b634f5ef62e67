/-
# Which driver a load name belongs to

`AddManifest` refuses a manifest with the friendly name of another one or with one of its load
names.  Hence a load name belongs to at most one of the registered manifests, and the search for
it does not depend on their order.
-/
import Northport.Drivers.DriverManager
import Northport.Lib.Run
import Mathlib.Data.List.Find

namespace Northport.Drivers

open Lib Syslib List Option DriverManager

namespace DriverManager

variable {s s' : DriverManager} {manifest : DriverManifest} {device : DeviceDescriptor}
  {answer : DriverAnswer} {answers : ℕ → DriverAnswer} {fuel : ℕ} {loadNow : Bool}
  {l : List DriverManifest}

/-! ### What the calls do to the manifests -/

lemma manifests_attachOrPush : (s.attachOrPush answer manifest device).manifests = s.manifests := by
  obtain ⟨images, count, attached, s₁, rfl, h | h⟩ := attachDevice_cases s answer manifest device
  · rw [attachOrPush, h]
    rfl
  · rw [attachOrPush, h]
    cases answer.addDevice <;> rfl

lemma manifests_attachLoop {turn : ℕ} (h : attachLoop answers manifest fuel turn s = some s') :
    s'.manifests = s.manifests := by
  induction fuel generalizing turn s with
  | zero => exact absurd h (by simp [attachLoop])
  | succ fuel ih =>
    rw [attachLoop] at h
    split at h
    · rw [← some.inj h]
    · rw [ih h, manifests_attachOrPush]

/-- Registering a manifest leaves the devices alone. -/
lemma register_kept : (s.register manifest loadNow answer).manifests = s.manifests ++ [manifest] ∧
    (s.register manifest loadNow answer).unclaimedDevs = s.unclaimedDevs := by
  rw [register]
  cases loadNow with
  | false => exact ⟨rfl, rfl⟩
  | true =>
    obtain ⟨images, count, h⟩ := ensureRunning_eq { s with
      manifests := s.manifests ++ [manifest]
      stats := { s.stats with manifestCount := s.stats.manifestCount + 1 } } answer manifest
    rw [if_pos rfl, h]
    exact ⟨rfl, rfl⟩

lemma manifests_addManifest {accepted : Bool}
    (h : s.addManifest fuel manifest loadNow answers = some (accepted, s')) :
    s'.manifests = s.manifests ∨
      s.conflicts manifest = false ∧ s'.manifests = s.manifests ++ [manifest] := by
  rw [addManifest] at h
  split_ifs at h with hconflict
  · cases h
    exact .inl rfl
  · obtain ⟨s₁, hloop, heq⟩ := map_eq_some_iff.mp h
    cases heq
    refine .inr ⟨Bool.eq_false_of_not_eq_true hconflict, ?_⟩
    rw [manifests_attachLoop hloop, register_kept.1]

lemma manifests_addDescriptor {loadNames : List LoadName} :
    (s.addDescriptor loadNames answer).2.manifests = s.manifests := by
  rw [addDescriptor]
  split
  · rfl
  · exact manifests_attachOrPush

/-! ### Names that belong to one manifest -/

/-- **No two manifests** have the same friendly name or a load name in common. -/
structure Distinct (manifests : List DriverManifest) : Prop where
  friendlyName : manifests.Pairwise fun m m' => m.friendlyName ≠ m'.friendlyName
  loadName : manifests.Pairwise fun m m' => ∀ name ∈ m.loadNames, name ∉ m'.loadNames

/-- A manifest without conflicts shares no name with any of the others. -/
lemma of_conflicts (h : s.conflicts manifest = false) : ∀ m ∈ s.manifests,
    m.friendlyName ≠ manifest.friendlyName ∧ ∀ name ∈ m.loadNames, name ∉ manifest.loadNames := by
  intro m hm
  rw [conflicts, List.any_eq_false] at h
  have hname := h m hm
  rw [Bool.or_eq_true, not_or, stringEq_iff, isSome_iff_ne_none, not_not] at hname
  refine ⟨hname.1, fun name hn hn' => ?_⟩
  have hnone := find?_eq_none.mp hname.2 m hm
  exact hnone (anyMatches_iff.mpr ⟨name, hn, hn'⟩)

lemma Distinct.append (h : Distinct s.manifests) (hconflict : s.conflicts manifest = false) :
    Distinct (s.manifests ++ [manifest]) := by
  have hnew := of_conflicts hconflict
  constructor
  · refine pairwise_append.mpr ⟨h.friendlyName, pairwise_singleton _ _, ?_⟩
    intro m hm m' hm'
    rw [mem_singleton.mp hm']
    exact (hnew m hm).1
  · refine pairwise_append.mpr ⟨h.loadName, pairwise_singleton _ _, ?_⟩
    intro m hm m' hm'
    rw [mem_singleton.mp hm']
    exact (hnew m hm).2

/-- A load name is found in one manifest only. -/
lemma Distinct.unique (h : Distinct l) {m m' : DriverManifest} (hm : m ∈ l) (hm' : m' ∈ l)
    {name : LoadName} (hn : name ∈ m.loadNames) (hn' : name ∈ m'.loadNames) : m = m' := by
  have hsymm : Std.Symm fun m m' : DriverManifest => ∀ name ∈ m.loadNames, name ∉ m'.loadNames :=
    ⟨fun _ _ hdisj name hn hn' => hdisj name hn' hn⟩
  by_contra hne
  exact h.loadName.forall hm hm' hne name hn hn'

/-- Where the search for a name ends does not depend on the order. -/
lemma Distinct.find_perm {l' : List DriverManifest} (h : Distinct l) (hperm : l'.Perm l)
    (name : LoadName) : (l'.find? fun m => anyMatches m.loadNames [name]) =
      l.find? fun m => anyMatches m.loadNames [name] := by
  refine find?_eq_find?_of_perm hperm ?_
  rintro m ⟨hm, hmatch⟩ m' ⟨hm', hmatch'⟩
  obtain ⟨n, hn, hname⟩ := anyMatches_iff.mp hmatch
  obtain ⟨n', hn', hname'⟩ := anyMatches_iff.mp hmatch'
  rw [mem_singleton] at hname hname'
  exact h.unique (hperm.mem_iff.mp hm) (hperm.mem_iff.mp hm') (hname ▸ hn) (hname' ▸ hn')

/-- The registered manifests have distinct names, and where a load name leads to does not depend on
their order. -/
structure Registered (s : DriverManager) : Prop where
  distinct : Distinct s.manifests
  order : ∀ (name : LoadName) (l : List DriverManifest), l.Perm s.manifests →
    { s with manifests := l }.locateDriver [name] = s.locateDriver [name]

lemma Distinct.registered (h : Distinct s.manifests) : Registered s :=
  ⟨h, fun name _ hperm => h.find_perm hperm name⟩

lemma Distinct.step {op : DriverOp} (h : Distinct s.manifests) (hstep : s.step fuel op = some s') :
    Distinct s'.manifests := by
  cases op with
  | addManifest manifest loadNow answers =>
    obtain ⟨⟨accepted, s₁⟩, hadd, rfl⟩ := map_eq_some_iff.mp hstep
    rcases manifests_addManifest hadd with heq | ⟨hconflict, heq⟩
    · rw [heq]
      exact h
    · rw [heq]
      exact Distinct.append h hconflict
  | addDescriptor loadNames answer =>
    cases hstep
    rw [manifests_addDescriptor]
    exact h

/-! ### Manifests without devices -/

/-- As long as no device waits for a driver, `AddManifest` returns. -/
lemma addManifest_of_nil (fuel : ℕ) (loadNow : Bool) (answers : ℕ → DriverAnswer)
    (h : s.unclaimedDevs = []) : ∃ accepted s',
      s.addManifest (fuel + 1) manifest loadNow answers = some (accepted, s') ∧
        s'.unclaimedDevs = [] := by
  rw [addManifest]
  split_ifs
  · exact ⟨false, s, rfl, h⟩
  · have hnil : (s.register manifest loadNow (answers 0)).unclaimedDevs = [] :=
      register_kept.2.trans h
    refine ⟨true, _, ?_, hnil⟩
    rw [attachLoop, locateDevice, hnil]
    rfl

/-- A call of `AddManifest`. -/
structure ManifestCall where
  manifest : DriverManifest
  loadNow : Bool
  answers : ℕ → DriverAnswer

def ManifestCall.op (call : ManifestCall) : DriverOp :=
  .addManifest call.manifest call.loadNow call.answers

lemma run_manifestCalls (fuel : ℕ) (calls : List ManifestCall) (h : s.unclaimedDevs = []) :
    ∃ s', run (step (fuel + 1)) s (calls.map ManifestCall.op) = some s' := by
  induction calls generalizing s with
  | nil => exact ⟨s, rfl⟩
  | cons call calls ih =>
    obtain ⟨accepted, s₁, hadd, hnil⟩ := addManifest_of_nil (s := { s with calls := s.calls + 1 })
      fuel call.loadNow call.answers h
    have hstep : s.step (fuel + 1) call.op = some s₁ := by
      rw [step.eq_def, ManifestCall.op]
      dsimp only
      rw [hadd]
      rfl
    rw [map_cons, run_cons hstep]
    exact ih hnil

/-- **Every sequence of `AddManifest` calls** comes to its end and leaves manifests with distinct
names behind; so does every sequence of calls in which descriptors are added as well. -/
theorem manifests_registered (fuel : ℕ) :
    (∀ calls : List ManifestCall, ∃ s,
      run (step (fuel + 1)) init (calls.map ManifestCall.op) = some s ∧ Registered s) ∧
    ∀ ops, Always (step fuel) Registered init ops := by
  have halways : ∀ fuel ops, Always (step fuel) Registered init ops := fun fuel ops =>
    always_of_invariant (fun s => Distinct s.manifests) (fun s h => h.registered)
      (fun s o s' h hstep => h.step hstep) ⟨Pairwise.nil, Pairwise.nil⟩ ops
  refine ⟨fun calls => ?_, halways fuel⟩
  obtain ⟨s, hrun⟩ := run_manifestCalls (s := init) fuel calls rfl
  exact ⟨s, hrun, (halways (fuel + 1) _).of_run hrun⟩

end DriverManager

/-! ### Drivers that run -/

/-- A call of `AttachDevice`, or of `EnsureRunning` if there is no device. -/
structure LoadOp where
  manifest : DriverManifest
  answer : DriverAnswer
  device : Option DeviceDescriptor

def LoadOp.call (op : LoadOp) (s : DriverManager) : DriverManager :=
  match op.device with
  | none => (s.ensureRunning op.answer op.manifest).2
  | some device => (s.attachDevice op.answer op.manifest device).2

/-- The manager, and the manifests of the drivers that accepted the last `Init` event they got. -/
structure DriverRuns where
  manager : DriverManager
  accepted : List ℕ

namespace DriverRuns

/-- The event `Init` is sent to a driver when its image has been loaded. -/
def sendInit (s : DriverRuns) (op : LoadOp) : List ℕ :=
  if s.manager.runtimeImage op.manifest.address = false ∧ op.answer.image = true then
    let others := s.accepted.erase op.manifest.address
    if op.answer.init then op.manifest.address :: others else others
  else s.accepted

def step (s : DriverRuns) (op : LoadOp) : Option DriverRuns :=
  some ⟨op.call s.manager, s.sendInit op⟩

def init : DriverRuns := ⟨DriverManager.init, []⟩

/-- **What a call should do**, which runs `EnsureRunning` in any case. -/
structure Correct (s : DriverRuns) (op : LoadOp) : Prop where
  running : (s.manager.ensureRunning op.answer op.manifest).1 = true →
    op.manifest.address ∈ s.sendInit op
  addDevice : (op.call s.manager).offers ≠ s.manager.offers → op.manifest.address ∈ s.sendInit op
  loadedCount : (op.call s.manager).stats.loadedCount = (s.sendInit op).length

/-- A driver with an image has accepted `Init`. -/
def Settled (s : DriverRuns) (op : LoadOp) : Prop :=
  s.manager.runtimeImage op.manifest.address = true → op.manifest.address ∈ s.accepted

structure Inv (s : DriverRuns) : Prop where
  image : ∀ a ∈ s.accepted, s.manager.runtimeImage a = true
  loadedCount : s.manager.stats.loadedCount = s.accepted.length

variable {s : DriverRuns} {op : LoadOp}

/-- A device is offered only to a driver that runs. -/
lemma call_eq (op : LoadOp) (s : DriverManager) :
    (op.call s).runtimeImage = (s.ensureRunning op.answer op.manifest).2.runtimeImage ∧
    (op.call s).stats.loadedCount = (s.ensureRunning op.answer op.manifest).2.stats.loadedCount ∧
    ((op.call s).offers ≠ s.offers → (s.ensureRunning op.answer op.manifest).1 = true) := by
  obtain ⟨images, count, hrun⟩ := ensureRunning_eq s op.answer op.manifest
  rw [LoadOp.call]
  cases op.device with
  | none => simp [hrun]
  | some device =>
    dsimp only [attachDevice]
    cases (s.ensureRunning op.answer op.manifest).1
    · simp [hrun]
    · cases haccept : op.answer.addDevice <;> simp [offerDevice, haccept]

/-- `EnsureRunning`, by what was loaded before and what the driver answers. -/
lemma Inv.ensureRunning (h : s.Inv) (op : LoadOp) :
    Inv ⟨(s.manager.ensureRunning op.answer op.manifest).2, s.sendInit op⟩ ∧
    (((s.manager.ensureRunning op.answer op.manifest).1 = true →
      op.manifest.address ∈ s.sendInit op) ↔ s.Settled op) := by
  rw [DriverManager.ensureRunning, sendInit, Settled]
  by_cases hrunning : s.manager.runtimeImage op.manifest.address = true
  · simp [hrunning, h]
  · have hnew : op.manifest.address ∉ s.accepted := fun ha => hrunning (h.image _ ha)
    rw [Bool.not_eq_true] at hrunning
    simp only [hrunning, erase_of_not_mem hnew]
    cases op.answer.image with
    | false => simp [h]
    | true =>
      have himage (a : ℕ) (ha : a ∈ s.accepted) :
          Function.update s.manager.runtimeImage op.manifest.address true a = true := by
        rw [Function.update_of_ne (ne_of_mem_of_not_mem ha hnew), h.image a ha]
      cases op.answer.init with
      | false => simpa using ⟨himage, h.loadedCount⟩
      | true =>
        refine ⟨⟨?_, congrArg (· + 1) h.loadedCount⟩, by simp⟩
        exact forall_mem_cons.mpr ⟨Function.update_self .., himage⟩

lemma Inv.correct_iff (h : s.Inv) (op : LoadOp) : s.Correct op ↔ s.Settled op := by
  obtain ⟨-, hcount, hoffer⟩ := call_eq op s.manager
  obtain ⟨hinv, hiff⟩ := h.ensureRunning op
  constructor
  · intro hcorrect
    exact hiff.mp hcorrect.running
  · intro hsettled
    have hrunning := hiff.mpr hsettled
    exact ⟨hrunning, fun hne => hrunning (hoffer hne), hcount.trans hinv.loadedCount⟩

lemma Inv.step {s' : DriverRuns} (h : s.Inv) (hstep : s.step op = some s') : s'.Inv := by
  cases hstep
  obtain ⟨himage, hcount, -⟩ := call_eq op s.manager
  obtain ⟨hinv, -⟩ := h.ensureRunning op
  exact ⟨himage ▸ hinv.image, hcount.trans hinv.loadedCount⟩

/-- **`EnsureRunning` and `AttachDevice` do what they should** exactly if no driver is asked for that
has an image but refused `Init`: it counts as running. -/
theorem correct_iff_settled (ops : List LoadOp) :
    Allowed step Correct init ops ↔ Allowed step Settled init ops :=
  allowed_iff Inv (fun _ op h => h.correct_iff op) (fun _ _ _ h _ hstep => h.step hstep)
    (⟨by simp [init], rfl⟩ : init.Inv) ops

/-- A driver that refuses `Init` is offered a device by the next call. -/
theorem refused_is_offered : ¬ Allowed step Correct init
    [⟨⟨0, [], []⟩, ⟨true, false, true⟩, none⟩, ⟨⟨0, [], []⟩, ⟨true, true, true⟩, some ⟨2, []⟩⟩] := by
  intro h
  have hsecond := (h.2 _ rfl).1
  exact absurd (hsecond.addDevice (by decide)) (by decide)

end DriverRuns

end Northport.Drivers
