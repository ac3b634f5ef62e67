/-
# The devices that no driver has taken

`LocateDevice` finds an unclaimed device and leaves it in the list.  `AddManifest` therefore finds
the device that it has just attached again, and does not return: it returns exactly if no unclaimed
device has a load name of the manifest.  In all other respects the list of the unclaimed devices is
kept as it should be.
-/
import Northport.Drivers.DriverManifests

namespace Northport.Drivers

open Lib List Option

namespace DriverManager

/-- **The devices are accounted for.** -/
structure Accounted (s : DriverManager) : Prop where
  accepted : ∀ offer ∈ s.offers, offer.accepted = true →
    ∀ device ∈ s.unclaimedDevs, device.id ≠ offer.device
  never_again : s.offers.Pairwise fun offer later =>
    offer.accepted = true → later.device ≠ offer.device
  once : s.offers.Pairwise fun offer later =>
    later.call = offer.call → later.device ≠ offer.device
  nodup : (s.unclaimedDevs.map DeviceDescriptor.id).Nodup
  count : s.stats.unclaimedDescriptors = s.unclaimedDevs.length

/-- An accepted manifest has no load name of an unclaimed device. -/
def CallOk (s : DriverManager) : DriverOp → Prop
  | .addManifest manifest _ _ =>
    s.conflicts manifest = false → s.locateDevice manifest.loadNames = none
  | .addDescriptor _ _ => True

/-- Accounted for, by ids that were given out and in calls that were made. -/
structure Inv (s : DriverManager) : Prop where
  accounted : Accounted s
  device_lt : ∀ device ∈ s.unclaimedDevs, device.id < s.idAlloc
  offer_lt : ∀ offer ∈ s.offers, offer.device < s.idAlloc
  call_le : ∀ offer ∈ s.offers, offer.call ≤ s.calls

variable {s s' : DriverManager} {manifest : DriverManifest} {device : DeviceDescriptor}
  {answer : DriverAnswer} {answers : ℕ → DriverAnswer} {fuel turn : ℕ} {loadNow : Bool}

lemma inv_init : Inv init where
  accounted := ⟨by simp [init], Pairwise.nil, Pairwise.nil, nodup_nil, rfl⟩
  device_lt := by simp [init]
  offer_lt := by simp [init]
  call_le := by simp [init]

/-! ### A device that is found stays in the list -/

variable (s answer manifest device) in
lemma unclaimedDevs_attachOrPush : ∃ l,
    (s.attachOrPush answer manifest device).unclaimedDevs = s.unclaimedDevs ++ l := by
  obtain ⟨images, count, attached, s₁, rfl, h | h⟩ := attachDevice_cases s answer manifest device
  · exact ⟨[device], by rw [attachOrPush, h]; rfl⟩
  · cases ha : answer.addDevice with
    | false => exact ⟨[device], by rw [attachOrPush, h, ha]; rfl⟩
    | true => exact ⟨[], by rw [attachOrPush, h, ha, append_nil]; rfl⟩

variable (device) in
/-- **The loop does not end** once it has found a device. -/
lemma attachLoop_eq_none (h : s.locateDevice manifest.loadNames = some device) :
    attachLoop answers manifest fuel turn s = none := by
  induction fuel generalizing turn s with
  | zero => rfl
  | succ fuel ih =>
    rw [attachLoop, h]
    obtain ⟨l, hl⟩ := unclaimedDevs_attachOrPush s manifest device (answers turn)
    refine ih ?_
    rw [locateDevice, hl, find?_append]
    exact or_eq_some_iff.mpr (.inl h)

lemma locateDevice_register {names : List LoadName} :
    (s.register manifest loadNow answer).locateDevice names = s.locateDevice names := by
  rw [locateDevice, register_kept.2]
  rfl

/-- `AddManifest` comes to its end exactly if it is called as it should be. -/
lemma addManifest_isSome_iff :
    (s.addManifest (fuel + 1) manifest loadNow answers).isSome ↔
      (s.conflicts manifest = false → s.locateDevice manifest.loadNames = none) := by
  rw [addManifest]
  split_ifs with hconflict
  · simp [hconflict]
  · rw [isSome_map]
    cases hloc : s.locateDevice manifest.loadNames with
    | none =>
      rw [attachLoop, locateDevice_register, hloc]
      simp
    | some device =>
      rw [attachLoop_eq_none _ (locateDevice_register.trans hloc)]
      simpa using hconflict

/-! ### What a call keeps -/

lemma Inv.register (h : Inv s) : Inv (s.register manifest loadNow answer) := by
  rw [DriverManager.register]
  cases loadNow with
  | false => exact ⟨⟨h.1.1, h.1.2, h.1.3, h.1.4, h.1.5⟩, h.2, h.3, h.4⟩
  | true =>
    obtain ⟨images, count, heq⟩ := ensureRunning_eq { s with
      manifests := s.manifests ++ [manifest]
      stats := { s.stats with manifestCount := s.stats.manifestCount + 1 } } answer manifest
    rw [heq]
    exact ⟨⟨h.1.1, h.1.2, h.1.3, h.1.4, h.1.5⟩, h.2, h.3, h.4⟩

lemma Inv.addManifest (h : Inv s) {accepted : Bool}
    (hadd : s.addManifest (fuel + 1) manifest loadNow answers = some (accepted, s')) : Inv s' := by
  have hok := addManifest_isSome_iff.mp (isSome_iff_exists.mpr ⟨_, hadd⟩)
  rw [DriverManager.addManifest] at hadd
  split_ifs at hadd with hconflict
  · cases hadd
    exact h
  · obtain ⟨s₁, hloop, heq⟩ := map_eq_some_iff.mp hadd
    cases heq
    rw [attachLoop, locateDevice_register, hok (Bool.eq_false_of_not_eq_true hconflict)] at hloop
    rw [← some.inj hloop]
    exact h.register

/-- A new descriptor is offered to at most one driver, and unclaimed unless it was accepted. -/
lemma Inv.descriptor (h : Inv s) (devs : List DeviceDescriptor) (offers : List Offer)
    (hdevs : s'.unclaimedDevs = s.unclaimedDevs ++ devs) (hoffers : s'.offers = s.offers ++ offers)
    (hdev : ∀ d ∈ devs, d.id = s.idAlloc) (hone : devs.length ≤ 1)
    (hoffer : ∀ o ∈ offers, o.device = s.idAlloc ∧ o.call ≤ s'.calls) (hone' : offers.length ≤ 1)
    (haccepted : ∀ o ∈ offers, o.accepted = true → devs = [])
    (hcount : s'.stats.unclaimedDescriptors = s'.unclaimedDevs.length)
    (hid : s.idAlloc < s'.idAlloc) (hcalls : s.calls ≤ s'.calls) : Inv s' := by
  obtain ⟨⟨h₁, h₂, h₃, h₄, -⟩, h₆, h₇, h₈⟩ := h
  -- a list of at most one offer has no two that repeat each other
  have hpair : ∀ R : Offer → Offer → Prop, offers.Pairwise R := by
    intro R
    match offers, hone' with
    | [], _ => exact Pairwise.nil
    | [o], _ => exact pairwise_singleton R o
  have hold : ∀ o ∈ s.offers, ∀ o' ∈ offers, o'.device ≠ o.device := by
    intro o ho o' ho'
    have := h₇ o ho
    have := (hoffer o' ho').1
    omega
  refine ⟨⟨?_, ?_, ?_, ?_, hcount⟩, ?_, ?_, ?_⟩
  · rw [hoffers, hdevs]
    intro o ho hacc d hd
    rcases mem_append.mp ho with ho | ho <;> rcases mem_append.mp hd with hd | hd
    · exact h₁ o ho hacc d hd
    · have := h₇ o ho
      have := hdev d hd
      omega
    · have := h₆ d hd
      have := (hoffer o ho).1
      omega
    · rw [haccepted o ho hacc] at hd
      cases hd
  · rw [hoffers]
    exact pairwise_append.mpr ⟨h₂, hpair _, fun o ho o' ho' _ => hold o ho o' ho'⟩
  · rw [hoffers]
    exact pairwise_append.mpr ⟨h₃, hpair _, fun o ho o' ho' _ => hold o ho o' ho'⟩
  · rw [hdevs, map_append]
    refine nodup_append.mpr ⟨h₄, ?_, ?_⟩
    · match devs, hone with
      | [], _ => exact nodup_nil
      | [d], _ => exact nodup_singleton _
    · rintro _ hd _ hd' rfl
      obtain ⟨d, hd, heq⟩ := mem_map.mp hd
      obtain ⟨d', hd', heq'⟩ := mem_map.mp hd'
      have := h₆ d hd
      have := hdev d' hd'
      omega
  · rw [hdevs]
    exact forall_mem_append.mpr ⟨fun d hd => (h₆ d hd).trans hid,
      fun d hd => (hdev d hd).trans_lt hid⟩
  · rw [hoffers]
    exact forall_mem_append.mpr ⟨fun o ho => (h₇ o ho).trans hid,
      fun o ho => (hoffer o ho).1.trans_lt hid⟩
  · rw [hoffers]
    exact forall_mem_append.mpr ⟨fun o ho => (h₈ o ho).trans hcalls, fun o ho => (hoffer o ho).2⟩

lemma Inv.addDescriptor (h : Inv s) {loadNames : List LoadName} :
    Inv (s.addDescriptor loadNames answer).2 := by
  have hcount := h.accounted.count
  rw [DriverManager.addDescriptor]
  split
  · refine h.descriptor [⟨s.idAlloc, loadNames⟩] [] rfl
      (append_nil _).symm (by simp) le_rfl (by simp) (by simp) (by simp) ?_
      (Nat.lt_succ_self _) le_rfl
    simp [pushUnclaimed, hcount]
  · rename_i driver hdriver
    obtain ⟨images, count, attached, s₁, rfl, heq | heq⟩ := attachDevice_cases { s with
      idAlloc := s.idAlloc + 1
      attachedDriver := Function.update s.attachedDriver s.idAlloc none
      stats := { s.stats with
        totalDescriptors := s.stats.totalDescriptors + 1
        unclaimedDescriptors := s.stats.unclaimedDescriptors + 1 } } answer driver
      ⟨s.idAlloc, loadNames⟩
    · -- the driver could not be loaded
      rw [attachOrPush, heq]
      refine h.descriptor [⟨s.idAlloc, loadNames⟩] [] rfl
        (append_nil _).symm (by simp) le_rfl (by simp) (by simp) (by simp) ?_
        (Nat.lt_succ_self _) le_rfl
      simp [pushUnclaimed, hcount]
    · rw [attachOrPush, heq]
      cases answer.addDevice with
      | false =>
        refine h.descriptor [⟨s.idAlloc, loadNames⟩] [⟨s.calls, s.idAlloc, false⟩] rfl rfl
          (by simp) le_rfl (by simp [pushUnclaimed]) le_rfl (by simp) ?_ ?_ le_rfl
        · simp [pushUnclaimed, hcount]
        · show s.idAlloc < s.idAlloc + 1 + 1
          omega
      | true =>
        refine h.descriptor [] [⟨s.calls, s.idAlloc, true⟩]
          (append_nil _).symm rfl (by simp) (by simp) (by simp) le_rfl (by simp) ?_ ?_ le_rfl
        · simp [hcount]
        · show s.idAlloc < s.idAlloc + 1 + 1
          omega

lemma Inv.step {op : DriverOp} (h : Inv s) (hstep : s.step (fuel + 1) op = some s') : Inv s' := by
  have hcall : Inv { s with calls := s.calls + 1 } :=
    ⟨⟨h.1.1, h.1.2, h.1.3, h.1.4, h.1.5⟩, h.2, h.3, fun o ho => (h.4 o ho).trans (Nat.le_succ _)⟩
  cases op with
  | addManifest manifest loadNow answers =>
    obtain ⟨⟨accepted, s₁⟩, hadd, rfl⟩ := map_eq_some_iff.mp hstep
    exact hcall.addManifest hadd
  | addDescriptor loadNames answer =>
    rw [← some.inj hstep]
    exact hcall.addDescriptor

/-! ### Whole runs -/

variable (fuel) in
/-- A call comes to its end exactly if it meets its condition. -/
lemma step_isSome_iff {op : DriverOp} : (s.step (fuel + 1) op).isSome ↔ CallOk s op := by
  cases op with
  | addManifest manifest loadNow answers =>
    rw [step, isSome_map, addManifest_isSome_iff]
    exact Iff.rfl
  | addDescriptor loadNames answer => exact iff_of_true rfl trivial

lemma run_isSome_iff (ops : List DriverOp) : (run (step (fuel + 1)) s ops).isSome ↔
    Allowed (step (fuel + 1)) CallOk s ops := by
  induction ops generalizing s with
  | nil => exact iff_of_true rfl trivial
  | cons op ops ih =>
    rw [run, allowed_cons, ← step_isSome_iff fuel]
    cases s.step (fuel + 1) op with
    | none => simp
    | some s' => simpa using ih

/-- **A sequence of calls** comes to its end with all devices accounted for after every call exactly
if each of them meets its condition. -/
theorem devices_accounted_iff (fuel : ℕ) (ops : List DriverOp) :
    ((run (step (fuel + 1)) init ops).isSome ∧
      Always (step (fuel + 1)) Accounted init ops) ↔
    Allowed (step (fuel + 1)) CallOk init ops := by
  rw [← run_isSome_iff]
  refine and_iff_left ?_
  exact always_of_invariant Inv (fun s h => h.accounted) (fun s o s' h => h.step) inv_init ops

/-- A device waits, and then its driver is added, which takes it: `AddManifest` does not return. -/
theorem attach_forever : ¬ ∃ fuel s, run (step fuel) init
    [.addDescriptor [⟨0, [1]⟩] ⟨true, true, true⟩,
      .addManifest ⟨1, [65], [⟨0, [1]⟩]⟩ false fun _ => ⟨true, true, true⟩] = some s := by
  rintro ⟨fuel, s', hrun⟩
  obtain ⟨s, hs⟩ : ∃ s, s = ({ init with calls := 1 }.addDescriptor [⟨0, [1]⟩]
    ⟨true, true, true⟩).2 := ⟨_, rfl⟩
  have hfirst : step fuel init (.addDescriptor [⟨0, [1]⟩] ⟨true, true, true⟩) =
      some s := by
    rw [hs]
    rfl
  rw [run_cons hfirst] at hrun
  have hloop : attachLoop (fun _ => ⟨true, true, true⟩) ⟨1, [65], [⟨0, [1]⟩]⟩ fuel 1
      ({ s with calls := s.calls + 1 }.register ⟨1, [65], [⟨0, [1]⟩]⟩ false ⟨true, true, true⟩) =
        none := by
    rw [hs]
    exact attachLoop_eq_none ⟨2, [⟨0, [1]⟩]⟩ rfl
  have hconflict : { s with calls := s.calls + 1 }.conflicts ⟨1, [65], [⟨0, [1]⟩]⟩ = false := by
    rw [hs]
    rfl
  rw [run, step, addManifest, hconflict, if_neg (by decide),
    hloop] at hrun
  cases hrun

end DriverManager

end Northport.Drivers
