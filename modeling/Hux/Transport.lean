import Hux.Control
import Hux.Chunking

/-!
# The contract between the engine and its transports

`transport/provider.h`: what a provider is asked to do, with a state of its own
and an environment that answers for the hardware and the peers. A function is
`none` where an answer is not a possible one.
-/

namespace Hux
open Wire (Bytes)

/-- Something a peer wrote, as `poll_peer_arrivals` surfaces it. -/
structure PeerArrival where
  token : Nat
  sender : PeerId
  deriving DecidableEq, Repr

/-- The providers of one engine. A provider takes the operations of a
submission in order and reports how far it got: each is offered in turn
(`offer`), what was taken is entered in the provider's books (`land`), and the
submission ends with a status (`finish`). -/
structure Transport where
  State : Type
  Answer : Type
  offer : ProviderId → Option ConnId → SubOp → State → Answer → Option (Bool × State)
  land : ProviderId → Option ConnId → SubOp → State → State
  /-- From how many were taken, and whether one was refused. -/
  finish : ProviderId → Option ConnId → Nat → Bool → State → Answer →
    Option ((Status × Int) × State)
  poll : ProviderId → Nat → State → Answer → Option ((Status × List CompletionEvent) × State)
  sendControl : ProviderId → Option ConnId → ControlType → Bytes → State → Answer →
    Option (Status × State)
  /-- How many connections took it and how many refused. -/
  broadcastControl : ProviderId → ControlType → Bytes → State → Answer →
    Option ((Status × Nat × Nat) × State)
  pollControl : ProviderId → Nat → State → Answer →
    Option ((Status × List ControlMessage) × State)
  pollPeerArrivals : ProviderId → Nat → State → Answer →
    Option ((Status × List PeerArrival) × State)
  /-- The connection is a new object; its number is the engine's. -/
  connect : ProviderId → ConnId → Bytes → State → Answer → Option (Status × State)
  disconnect : ProviderId → ConnId → State → Answer → Option (Status × State)
  alive : ProviderId → ConnId → State → Bool
  /-- What happens with no call of the engine's. -/
  environment : State → Answer → Option State

inductive ProgressMode
  | thread | explicit
  deriving DecidableEq, Repr

/-- A configuration that `EngineConfig::validate` passes, without the fields
that only providers read. -/
structure EngineConfig where
  progress : ProgressMode
  chunkBytes : Nat
  cqBatch : Nat
  maxInflightRequests : Nat
  schedulerQuantumBytes : Nat
  notifyQueueDepth : Nat
  notifyMaxPayload : Nat
  completionQueueDepth : Nat
  readyQueueDepth : Nat
  chunk_pos : 0 < chunkBytes
  chunk_small : chunkBytes ≤ 0xffffffff
  cq_pos : 0 < cqBatch
  inflight_pos : 0 < maxInflightRequests
  notify_pos : 0 < notifyQueueDepth
  payload_pos : 0 < notifyMaxPayload

/-- What an engine is made with. -/
structure Setup (W : Type) where
  cfg : EngineConfig
  /-- How many providers, in preference order. -/
  providers : Nat
  some_provider : 0 < providers
  caps : ProviderId → ProviderCaps
  relativeCapacity : ProviderId → W
  identity : Identity
  /-- Whether there is a device backend. -/
  device : Bool

/-! ## Where a peer is and how to dial it -/

def kMetadataMagic : Nat := 0x58554821
def kMetadataMajor : Nat := 1
def kMetadataMinor : Nat := 0

def nameIpc : Bytes := [0x69, 0x70, 0x63]
def nameLocal : Bytes := [0x6c, 0x6f, 0x63, 0x61, 0x6c]

/-- IPC needs one host, the same-process path one address space. -/
def suits (provider : Bytes) (locality : Locality) : Bool :=
  if provider = nameIpc then locality == .sameHost || locality == .sameProcess
  else if provider = nameLocal then locality == .sameProcess
  else true

/-- The part of a provider's name before `#`. -/
def family (name : Bytes) : Bytes := name.takeWhile (· ≠ 0x23)

/-- A provider of the peer's, with what dials it. -/
structure Offer where
  name : Bytes
  blob : Bytes
  deriving DecidableEq, Repr

/-- What `add_peer` reads out of a peer's metadata. -/
structure Metadata where
  identity : Identity
  locality : Locality
  offered : List Offer
  providerMeta : Bytes
  deriving DecidableEq, Repr

/-- The offers from position `i` on, and where they end. -/
def readOffers (b : Bytes) : Nat → Nat → Option (List Offer × Nat)
  | 0, i => some ([], i)
  | count + 1, i =>
    if b.length < i + 2 then none
    else
      let n := Wire.leAt b i 2
      if b.length < i + 2 + n + 2 then none
      else
        let mlen := Wire.leAt b (i + 2 + n) 2
        let j := i + 2 + n + 2
        if b.length < j + mlen then none
        else
          (readOffers b count (j + mlen)).map fun (rest, stop) =>
            (⟨(b.drop (i + 2)).take n, (b.drop j).take mlen⟩ :: rest, stop)

def readMetadata (mine : Identity) (b : Bytes) : Except Status Metadata :=
  let envelope := decide (kIdentityBytes + 8 ≤ b.length) &&
    Wire.leAt b kIdentityBytes 4 == kMetadataMagic
  if envelope then
    if Wire.leAt b (kIdentityBytes + 4) 2 ≠ kMetadataMajor then .error .unsupported
    else
      match decodeIdentity b 0 with
      | .error _ => .ok ⟨.zero, .remote, [], b⟩
      | .ok id =>
        if b.length < kIdentityBytes + 10 then .error .invalidArgument
        else
          match readOffers b (Wire.leAt b (kIdentityBytes + 8) 2) (kIdentityBytes + 10) with
          | none => .error .invalidArgument
          | some (offered, stop) =>
            if stop ≠ b.length then .error .invalidArgument
            else .ok ⟨id, localityOf mine id, offered, b.drop kIdentityBytes⟩
  else .ok ⟨.zero, .remote, [], b⟩

/-- The first provider that suits where the peer is and that the peer offers,
with what dials it. -/
def chooseProvider {W : Type} (setup : Setup W) (m : Metadata) : Option (ProviderId × Bytes) :=
  (List.range setup.providers).findSome? fun p =>
    let name := (setup.caps p).name
    if !suits name m.locality then none
    else if m.offered.isEmpty then some (p, m.providerMeta)
    else (m.offered.find? (·.name == name)).map fun o => (p, o.blob)

/-- The other providers of its family that the peer offers too. -/
def siblings {W : Type} (setup : Setup W) (m : Metadata) (chosen : ProviderId) :
    List (ProviderId × Bytes) :=
  (List.range setup.providers).filterMap fun p =>
    let name := (setup.caps p).name
    if p = chosen then none
    else if !suits name m.locality || family name ≠ family (setup.caps chosen).name then none
    else (m.offered.find? (·.name == name)).map fun o => (p, o.blob)

end Hux
