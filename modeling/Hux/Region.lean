import Hux.Descriptor

/-!
# Registrations, local regions and imported ones

A region handle describes what its caller asked for and shares a registration
that covers at least that range. What a peer imports is the descriptor the
handle exports, with a flag that a later notice clears.
-/

namespace Hux
open Wire (Bytes)

/-- What one provider gave back for a registered range. -/
structure RegistrationKey where
  provider : Bytes
  localKey : Nat
  remoteKey : Nat
  deriving DecidableEq, Repr

structure Registration where
  base : Nat
  length : Nat
  device : DeviceId
  access : AccessFlags
  keys : List RegistrationKey
  /-- The first provider's keys. -/
  localKey : Nat
  remoteKey : Nat
  deriving DecidableEq, Repr

def Registration.localKeyFor (r : Registration) (provider : Bytes) : Option Nat :=
  (r.keys.find? (·.provider == provider)).map (·.localKey)

/-- Whether a request for a range can be served by a registration: the same
device, no permission missing, the remote ones exactly, and the whole range
inside. -/
def registrationCovers (r : Registration) (addr length : Nat) (device : DeviceId)
    (access : AccessFlags) : Bool :=
  let remote := AccessFlags.remoteRead ||| AccessFlags.remoteWrite
  if r.device ≠ device then false
  else if access &&& ~~~r.access ≠ 0 then false
  else if access &&& remote ≠ r.access &&& remote then false
  else if addr < r.base then false
  else decide (addr - r.base ≤ r.length) && decide (length ≤ r.length - (addr - r.base))

theorem registrationCovers_range {r : Registration} {addr length : Nat} {device : DeviceId}
    {access : AccessFlags} (h : registrationCovers r addr length device access = true) :
    r.base ≤ addr ∧ addr + length ≤ r.base + r.length := by
  simp only [registrationCovers] at h
  split at h; · cases h
  split at h; · cases h
  split at h; · cases h
  split at h; · cases h
  simp only [Bool.and_eq_true, decide_eq_true_eq] at h
  omega

structure MemoryRegion where
  origin : Identity
  id : RegionId
  generation : Generation
  base : Nat
  length : Nat
  device : DeviceId
  access : AccessFlags
  reg : Registration
  deriving DecidableEq, Repr

def MemoryRegion.localKeyFor (r : MemoryRegion) (provider : Bytes) : Option Nat :=
  r.reg.localKeyFor provider

/-- The address is the handle's own, the keys are its registration's. -/
def MemoryRegion.descriptor (r : MemoryRegion) : RegionDescriptor where
  major := 0
  minor := 0
  origin := r.origin
  region := r.id
  generation := r.generation
  base := r.base
  length := r.length
  remoteKey := r.reg.remoteKey
  providerKeys := r.reg.keys.map fun k => ⟨k.provider, k.remoteKey⟩
  device := r.device
  access := r.access

/-- The named transport's key, or the unnamed one where none is named. -/
def RegionDescriptor.remoteKeyFor (d : RegionDescriptor) (provider : Bytes) : Option Nat :=
  match d.providerKeys.find? (·.provider == provider) with
  | some k => some k.remoteKey
  | none => if d.providerKeys.isEmpty then some d.remoteKey else none

/-- An imported region. Which object it is matters: importing again replaces
the object, and a notice on its way clears the flag of the one it found. -/
abbrev RemoteId := Nat

structure RemoteRegion where
  desc : RegionDescriptor
  valid : Bool
  deriving DecidableEq, Repr

end Hux
