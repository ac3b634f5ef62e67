/-
# The driver manager (`DriverManager.cpp`)

Drivers are registered by manifests and devices by descriptors, and both carry load names.  A
descriptor with a load name of a manifest is offered to the driver of the manifest; one that no
driver has taken is kept in the list of the unclaimed devices.

What a driver answers is given with each call: how loading its image goes, and its answers to the
events `Init` and `AddDevice`.  Beside the data of the manager the state has a log of the offers.
-/
import Northport.Lib.Word
import Northport.Syslib.Strings

namespace Northport.Drivers

open Lib Syslib

structure LoadName where
  type : ℕ
  str : List UInt8
deriving DecidableEq, Repr

def LoadName.length (name : LoadName) : ℕ := name.str.length

/-- The comparison in the loops of `LocateDriver` and `LocateDevice`. -/
def nameMatches (testName name : LoadName) : Bool :=
  testName.type == name.type && testName.length == name.length &&
    memcmp testName.str name.str testName.length == 0

/-- One of the names is one of the others. -/
def anyMatches (own names : List LoadName) : Bool :=
  own.any fun name => names.any fun testName => nameMatches testName name

structure DriverManifest where
  /-- Where the manifest is, which tells it from every other one. -/
  address : ℕ
  friendlyName : List UInt8
  loadNames : List LoadName
deriving DecidableEq, Repr

structure DeviceDescriptor where
  id : ℕ
  loadNames : List LoadName
deriving DecidableEq, Repr

/-- The answers to what may be asked of a driver in order to attach a device. -/
structure DriverAnswer where
  /-- Whether `LoadElf` returns an image, which it does only together with the driver's manifest. -/
  image : Bool
  init : Bool
  addDevice : Bool
deriving DecidableEq, Repr

structure DriverStats where
  manifestCount : ℕ
  loadedCount : ℕ
  unclaimedDescriptors : ℕ
  totalDescriptors : ℕ
deriving DecidableEq, Repr

/-- A device was offered to a driver, during the given call. -/
structure Offer where
  call : ℕ
  device : ℕ
  accepted : Bool
deriving DecidableEq, Repr

structure DriverManager where
  manifests : List DriverManifest
  /-- Whether the manifest at the address has a runtime image. -/
  runtimeImage : ℕ → Bool
  unclaimedDevs : List DeviceDescriptor
  attachedDriver : ℕ → Option ℕ
  stats : DriverStats
  idAlloc : ℕ
  /-- The calls so far. -/
  calls : ℕ
  offers : List Offer

namespace DriverManager

/-- After `Init`: the kernel itself has the first id. -/
def init : DriverManager := ⟨[], fun _ => false, [], fun _ => none, ⟨0, 0, 0, 0⟩, 2, 0, []⟩

variable (s : DriverManager)

def locateDriver (names : List LoadName) : Option DriverManifest :=
  s.manifests.find? fun manifest => anyMatches manifest.loadNames names

def locateDevice (names : List LoadName) : Option DeviceDescriptor :=
  s.unclaimedDevs.find? fun dev => anyMatches dev.loadNames names

/-- `EnsureRunning`.  An image that was loaded once counts as running from then on. -/
def ensureRunning (answer : DriverAnswer) (manifest : DriverManifest) : Bool × DriverManager :=
  if s.runtimeImage manifest.address then (true, s)
  else if answer.image then
    let loaded := { s with runtimeImage := Function.update s.runtimeImage manifest.address true }
    if answer.init then
      (true, { loaded with stats := { s.stats with loadedCount := s.stats.loadedCount + 1 } })
    else (false, loaded)
  else (false, s)

/-- `n--` of an unsigned number, which wraps around at 0. -/
def decrement64 (n : ℕ) : ℕ := if n = 0 then wordSize - 1 else n - 1

@[simp] lemma decrement64_succ (n : ℕ) : decrement64 (n + 1) = n := rfl

/-- A driver that runs is sent the event `AddDevice`. -/
def offerDevice (answer : DriverAnswer) (device : DeviceDescriptor) : Bool × DriverManager :=
  let offered := { s with
    idAlloc := s.idAlloc + 1
    offers := s.offers ++ [(⟨s.calls, device.id, answer.addDevice⟩ : Offer)] }
  if answer.addDevice then
    (true, { offered with
      attachedDriver := Function.update s.attachedDriver device.id (some s.idAlloc)
      stats := { s.stats with
        unclaimedDescriptors := decrement64 s.stats.unclaimedDescriptors } })
  else (false, { offered with attachedDriver := Function.update s.attachedDriver device.id none })

/-- `AttachDevice`. -/
def attachDevice (answer : DriverAnswer) (driver : DriverManifest) (device : DeviceDescriptor) :
    Bool × DriverManager :=
  let running := s.ensureRunning answer driver
  if running.1 then running.2.offerDevice answer device else (false, running.2)

/-- The manifest has the name of another one, or a load name. -/
def conflicts (manifest : DriverManifest) : Bool :=
  s.manifests.any fun scan =>
    stringEq scan.friendlyName manifest.friendlyName || (s.locateDriver manifest.loadNames).isSome

/-- The device goes to the end of the unclaimed ones. -/
def pushUnclaimed (device : DeviceDescriptor) : DriverManager :=
  { s with unclaimedDevs := s.unclaimedDevs ++ [device] }

/-- The device is attached or becomes unclaimed. -/
def attachOrPush (answer : DriverAnswer) (driver : DriverManifest) (device : DeviceDescriptor) :
    DriverManager :=
  let attached := s.attachDevice answer driver device
  if attached.1 then attached.2 else attached.2.pushUnclaimed device

/-- The loop of `AddManifest` over the devices that the driver might handle. -/
def attachLoop (answers : ℕ → DriverAnswer) (manifest : DriverManifest) :
    ℕ → ℕ → DriverManager → Option DriverManager
  | 0, _, _ => none
  | fuel + 1, turn, s =>
    match s.locateDevice manifest.loadNames with
    | none => some s
    | some device =>
      attachLoop answers manifest fuel (turn + 1) (s.attachOrPush (answers turn) manifest device)

/-- The manifest is entered into the list, and loaded if that is asked for. -/
def register (manifest : DriverManifest) (loadNow : Bool) (answer : DriverAnswer) :
    DriverManager :=
  let s := { s with
    manifests := s.manifests ++ [manifest]
    stats := { s.stats with manifestCount := s.stats.manifestCount + 1 } }
  if loadNow then (s.ensureRunning answer manifest).2 else s

/-- `AddManifest`: whether the manifest was accepted, and the state afterwards.  The first answer is
for loading the driver at once. -/
def addManifest (fuel : ℕ) (manifest : DriverManifest) (loadNow : Bool)
    (answers : ℕ → DriverAnswer) : Option (Bool × DriverManager) :=
  if s.conflicts manifest then some (false, s)
  else
    (attachLoop answers manifest fuel 1 (s.register manifest loadNow (answers 0))).map
      fun s => (true, s)

/-- `AddDescriptor`: the id of the descriptor, and the state afterwards. -/
def addDescriptor (loadNames : List LoadName) (answer : DriverAnswer) : ℕ × DriverManager :=
  let desc : DeviceDescriptor := ⟨s.idAlloc, loadNames⟩
  let s := { s with
    idAlloc := s.idAlloc + 1
    attachedDriver := Function.update s.attachedDriver desc.id none
    stats := { s.stats with
      totalDescriptors := s.stats.totalDescriptors + 1
      unclaimedDescriptors := s.stats.unclaimedDescriptors + 1 } }
  match s.locateDriver loadNames with
  | none => (desc.id, s.pushUnclaimed desc)
  | some driver => (desc.id, s.attachOrPush answer driver desc)

end DriverManager

inductive DriverOp where
  | addManifest (manifest : DriverManifest) (loadNow : Bool) (answers : ℕ → DriverAnswer)
  | addDescriptor (loadNames : List LoadName) (answer : DriverAnswer)

/-- A call from outside. -/
def DriverManager.step (fuel : ℕ) (s : DriverManager) : DriverOp → Option DriverManager
  | .addManifest manifest loadNow answers =>
    ({ s with calls := s.calls + 1 }.addManifest fuel manifest loadNow answers).map Prod.snd
  | .addDescriptor loadNames answer =>
    some ({ s with calls := s.calls + 1 }.addDescriptor loadNames answer).2

/-! ### Names -/

@[simp] lemma nameMatches_iff {testName name : LoadName} :
    nameMatches testName name = true ↔ testName = name := by
  obtain ⟨t, a⟩ := testName
  obtain ⟨u, b⟩ := name
  simp only [nameMatches, LoadName.length, Bool.and_eq_true, beq_iff_eq, LoadName.mk.injEq]
  constructor
  · rintro ⟨⟨ht, hlen⟩, hcmp⟩
    exact ⟨ht, (memcmp_eq_zero_iff hlen).mp hcmp⟩
  · rintro ⟨ht, rfl⟩
    exact ⟨⟨ht, rfl⟩, (memcmp_eq_zero_iff rfl).mpr rfl⟩

lemma anyMatches_iff {own names : List LoadName} :
    anyMatches own names = true ↔ ∃ name ∈ own, name ∈ names := by
  simp [anyMatches]

namespace DriverManager

variable {s : DriverManager} {answer : DriverAnswer} {manifest : DriverManifest}
  {device : DeviceDescriptor}

/-! ### What the parts of a call change -/

/-- Loading a driver changes nothing but what is known of its image. -/
lemma ensureRunning_eq (s : DriverManager) (answer : DriverAnswer) (manifest : DriverManifest) :
    ∃ images count, (s.ensureRunning answer manifest).2 =
      { s with runtimeImage := images, stats := { s.stats with loadedCount := count } } := by
  rw [ensureRunning]
  by_cases hrunning : s.runtimeImage manifest.address = true
  · rw [if_pos hrunning]
    exact ⟨s.runtimeImage, s.stats.loadedCount, rfl⟩
  · rw [if_neg hrunning]
    cases answer.image
    · exact ⟨s.runtimeImage, s.stats.loadedCount, rfl⟩
    · cases answer.init
      · exact ⟨_, s.stats.loadedCount, rfl⟩
      · exact ⟨_, _, rfl⟩

/-- A device that is attached has been offered and accepted; one that is not attached may have been
offered. -/
lemma attachDevice_cases (s : DriverManager) (answer : DriverAnswer) (manifest : DriverManifest)
    (device : DeviceDescriptor) : ∃ images count attached, ∃ s₁ : DriverManager, s₁ =
        { s with
          runtimeImage := images
          attachedDriver := attached
          stats := { s.stats with loadedCount := count } } ∧
      (s.attachDevice answer manifest device = (false, s₁) ∨
        s.attachDevice answer manifest device = (answer.addDevice, { s₁ with
          idAlloc := s.idAlloc + 1
          offers := s.offers ++ [⟨s.calls, device.id, answer.addDevice⟩]
          stats := { s₁.stats with
            unclaimedDescriptors := if answer.addDevice then
              decrement64 s.stats.unclaimedDescriptors else s.stats.unclaimedDescriptors } })) := by
  obtain ⟨images, count, hrun⟩ := ensureRunning_eq s answer manifest
  rw [attachDevice]
  by_cases hrunning : (s.ensureRunning answer manifest).1 = true
  · rw [if_pos hrunning, hrun, offerDevice]
    cases answer.addDevice
    · exact ⟨images, count, Function.update s.attachedDriver device.id none, _, rfl, .inr rfl⟩
    · exact ⟨images, count, Function.update s.attachedDriver device.id (some s.idAlloc), _, rfl,
        .inr rfl⟩
  · rw [if_neg hrunning, hrun]
    exact ⟨images, count, s.attachedDriver, _, rfl, .inl rfl⟩

end DriverManager

end Northport.Drivers
