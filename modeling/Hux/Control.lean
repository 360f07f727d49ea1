import Hux.Descriptor

/-!
# Bodies of control messages

The bodies the engine writes and reads: ready handoffs, region notices, and the
number of a notification. Framing belongs to the transports.

* `ReadyHandoffBody.decode_encode`, `RegionInvalidateBody.decode_encode`: a body is read
  back, a notice also when more follows it;
* `decodeReadyHandoff_ok_iff`, `decodeRegionInvalidate_ok_iff`: the lengths that are read;
* `decodeReadyHandoffWithin`, `decodeRegionInvalidateWithin`: the reads that are made.
-/

namespace Hux
open Wire

inductive ControlType
  | invalid | readyHandoff | notification | regionInvalidate | notificationAck
  | notificationRefused
  deriving DecidableEq, Repr

/-- The 16-bit number a message carries. -/
def ControlType.code : ControlType → Nat
  | .invalid => 0
  | .readyHandoff => 1
  | .notification => 2
  | .regionInvalidate => 3
  | .notificationAck => 4
  | .notificationRefused => 5

structure ControlMessage where
  peer : PeerId := 0
  type : Nat
  payload : Bytes
  conn : Option ConnId
  deriving DecidableEq, Repr

def kNotificationHeaderBytes : Nat := 8

def encodeU64 (v : Nat) : Bytes := putLE 8 v

def decodeU64 (b : Bytes) : Except Status Nat :=
  if b.length < 8 then .error .invalidArgument else .ok (leAt b 0 8)

structure ReadyHandoffBody where
  request : RequestId
  region : RegionId
  generation : Generation
  offset : Nat
  length : Nat
  deriving DecidableEq, Repr

def kReadyHandoffBytes : Nat := 36

def encodeReadyHandoff (b : ReadyHandoffBody) : Bytes :=
  putLE 8 b.request ++ (putLE 8 b.region ++ (putLE 4 b.generation ++
  (putLE 8 b.offset ++ putLE 8 b.length)))

def decodeReadyHandoff (b : Bytes) : Except Status ReadyHandoffBody :=
  if b.length ≠ kReadyHandoffBytes then .error .invalidArgument
  else .ok ⟨leAt b 0 8, leAt b 8 8, leAt b 16 4, leAt b 20 8, leAt b 28 8⟩

/-- The exporter's identity is absent in the short form an older sender writes. -/
structure RegionInvalidateBody where
  region : RegionId
  generation : Generation
  origin : Option Identity
  deriving DecidableEq, Repr

def kRegionInvalidateBytes : Nat := 12
def kRegionInvalidateWithOriginBytes : Nat := 36

def encodeRegionInvalidate (b : RegionInvalidateBody) : Bytes :=
  putLE 8 b.region ++ (putLE 4 b.generation ++
    match b.origin with
    | some id => encodeIdentity id
    | none => [])

/-- The short form exactly, or at least the long one. -/
def decodeRegionInvalidate (b : Bytes) : Except Status RegionInvalidateBody :=
  if b.length ≠ kRegionInvalidateBytes ∧ b.length < kRegionInvalidateWithOriginBytes then
    .error .invalidArgument
  else if b.length ≥ kRegionInvalidateWithOriginBytes then
    match decodeIdentity b kRegionInvalidateBytes with
    | .ok id => .ok ⟨leAt b 0 8, leAt b 8 4, some id⟩
    | .error _ => .error .invalidArgument
  else .ok ⟨leAt b 0 8, leAt b 8 4, none⟩

/-! ## Reading back what was written -/

/-- Every field is within the width the source's type gives it. -/
structure ReadyHandoffBody.Fits (b : ReadyHandoffBody) : Prop where
  request : b.request < 2 ^ 64
  region : b.region < 2 ^ 64
  generation : b.generation < 2 ^ 32
  offset : b.offset < 2 ^ 64
  length : b.length < 2 ^ 64

structure RegionInvalidateBody.Fits (b : RegionInvalidateBody) : Prop where
  region : b.region < 2 ^ 64
  generation : b.generation < 2 ^ 32
  origin : ∀ id ∈ b.origin, id.Fits

theorem ReadyHandoffBody.decode_encode {b : ReadyHandoffBody} (fits : b.Fits) :
    decodeReadyHandoff (encodeReadyHandoff b) = .ok b := by
  obtain ⟨request, region, generation, offset, length⟩ := fits
  simp [decodeReadyHandoff, encodeReadyHandoff, kReadyHandoffBytes, leAt_skip,
    leAt_head 8 _ _ request, leAt_head 8 _ _ region, leAt_head 4 _ _ generation,
    leAt_head 8 _ _ offset, leAt_putLE 8 _ length]

section
variable {b : Bytes}

theorem decodeRegionInvalidate_short (short : b.length = 12) :
    decodeRegionInvalidate b = .ok ⟨leAt b 0 8, leAt b 8 4, none⟩ := by
  simp [decodeRegionInvalidate, kRegionInvalidateBytes, kRegionInvalidateWithOriginBytes, short]

theorem decodeRegionInvalidate_long (long : 36 ≤ b.length) :
    decodeRegionInvalidate b =
      .ok ⟨leAt b 0 8, leAt b 8 4, some ⟨leAt b 12 8, leAt b 20 8, leAt b 28 8⟩⟩ := by
  simp [decodeRegionInvalidate, kRegionInvalidateBytes, kRegionInvalidateWithOriginBytes,
    decodeIdentity, kIdentityBytes, long, Nat.not_lt.mpr long]

theorem decodeRegionInvalidate_ok_iff :
    (∃ body, decodeRegionInvalidate b = .ok body) ↔ b.length = 12 ∨ 36 ≤ b.length := by
  constructor
  · rintro ⟨body, ok⟩
    unfold decodeRegionInvalidate kRegionInvalidateBytes kRegionInvalidateWithOriginBytes at ok
    split at ok
    · cases ok
    · omega
  · rintro (short | long)
    · exact ⟨_, decodeRegionInvalidate_short short⟩
    · exact ⟨_, decodeRegionInvalidate_long long⟩

theorem decodeReadyHandoff_ok_iff : (∃ body, decodeReadyHandoff b = .ok body) ↔ b.length = 36 := by
  unfold decodeReadyHandoff kReadyHandoffBytes
  split <;> simp_all

end

namespace RegionInvalidateBody
variable {b : RegionInvalidateBody} (fits : b.Fits)
include fits

/-- What follows the long form is not looked at. -/
theorem decode_encode_append {id : Identity} (origin : b.origin = some id) (more : Bytes) :
    decodeRegionInvalidate (encodeRegionInvalidate b ++ more) = .ok b := by
  obtain ⟨host, process, engine⟩ := fits.origin id origin
  obtain ⟨region, generation, -⟩ := fits
  obtain ⟨_, _, _⟩ := b
  cases origin
  rw [decodeRegionInvalidate_long (by simp [encodeRegionInvalidate, encodeIdentity]; omega)]
  simp [encodeRegionInvalidate, encodeIdentity, leAt_skip, leAt_head 8 _ _ region,
    leAt_head 4 _ _ generation, leAt_head 8 _ _ host, leAt_head 8 _ _ process,
    leAt_head 8 _ _ engine]

theorem decode_encode : decodeRegionInvalidate (encodeRegionInvalidate b) = .ok b := by
  cases origin : b.origin with
  | some id => simpa using decode_encode_append fits origin []
  | none =>
    obtain ⟨region, generation, -⟩ := fits
    obtain ⟨_, _, _⟩ := b
    cases origin
    rw [decodeRegionInvalidate_short (by simp [encodeRegionInvalidate])]
    simp [encodeRegionInvalidate, leAt_skip, leAt_head 8 _ _ region, leAt_putLE 4 _ generation]

end RegionInvalidateBody

/-! ## Reading within the body -/

/-- With the reads it makes; none if one is past the end. -/
def decodeReadyHandoffWithin (b : Bytes) : Option (Except Status ReadyHandoffBody) :=
  if b.length ≠ kReadyHandoffBytes then some (.error .invalidArgument)
  else do
    let request ← readLE b 0 8
    let region ← readLE b 8 8
    let generation ← readLE b 16 4
    let offset ← readLE b 20 8
    let length ← readLE b 28 8
    return .ok ⟨request, region, generation, offset, length⟩

def decodeRegionInvalidateWithin (b : Bytes) : Option (Except Status RegionInvalidateBody) :=
  if b.length ≠ kRegionInvalidateBytes ∧ b.length < kRegionInvalidateWithOriginBytes then
    some (.error .invalidArgument)
  else do
    let region ← readLE b 0 8
    let generation ← readLE b 8 4
    if b.length ≥ kRegionInvalidateWithOriginBytes then
      match ← decodeIdentityWithin b kRegionInvalidateBytes with
      | .ok id => return .ok ⟨region, generation, some id⟩
      | .error _ => return .error .invalidArgument
    else return .ok ⟨region, generation, none⟩

theorem decodeReadyHandoffWithin_eq (b : Bytes) :
    decodeReadyHandoffWithin b = some (decodeReadyHandoff b) := by
  unfold decodeReadyHandoffWithin decodeReadyHandoff kReadyHandoffBytes
  split
  · rfl
  · rename_i long
    have read (i w : Nat) (inside : i + w ≤ 36) : readLE b i w = some (leAt b i w) :=
      readLE_of_le (by omega)
    simp [read]

theorem decodeRegionInvalidateWithin_eq (b : Bytes) :
    decodeRegionInvalidateWithin b = some (decodeRegionInvalidate b) := by
  unfold decodeRegionInvalidateWithin decodeRegionInvalidate
  split
  · rfl
  · rename_i long
    have read (i w : Nat) (inside : i + w ≤ 12) : readLE b i w = some (leAt b i w) := by
      simp only [kRegionInvalidateBytes, kRegionInvalidateWithOriginBytes] at long
      exact readLE_of_le (by omega)
    rw [read 0 8 (by decide), read 8 4 (by decide), decodeIdentityWithin_eq]
    dsimp only [Option.bind_eq_bind, Option.bind_some]
    split
    · cases decodeIdentity b kRegionInvalidateBytes <;> rfl
    · rfl

end Hux
