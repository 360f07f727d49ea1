import Hux.Ledger
import Hux.Transport

/-!
# The engine's state and its atoms

`EngineImpl` and the tables behind it. A call is a program with one atom for
each stretch of code under a lock and for each atomic access, in the order of
the source. The tables are unordered in the source, so where one is walked the
environment gives the order.
-/

namespace Hux
open Interleave (Prog Tid)
open Wire (Bytes)

/-! ## State -/

structure DeviceEvent where
  recorded : Bool
  query : Status
  complete : Bool
  deriving DecidableEq, Repr

structure Notification where
  peer : PeerId
  id : Nat
  payload : Bytes
  deriving DecidableEq, Repr

structure ReadyEvent where
  request : Nat
  peer : PeerId
  addr : Option Nat
  bytes : Nat
  region : RegionId := 0
  generation : Generation := 0
  span : Span := ⟨0, 0⟩
  deriving DecidableEq, Repr

/-- `PeerImpl`, without what nothing reads. -/
structure Peer (W : Type) where
  identity : Identity
  lanes : List (Lane W)

/-- The tables of regions and peers, and the objects behind them. -/
structure Directory (W : Type) where
  regions : List MemoryRegion
  /-- `remotes_`, in the order of its keys. -/
  remotes : List ((PeerId × RegionId) × RemoteId)
  remoteObjects : RemoteId → RemoteRegion
  peers : List PeerId
  peerObjects : PeerId → Peer W
  connected : PeerId → Bool
  nextRegion : RegionId
  nextPeer : PeerId
  nextRemote : RemoteId
  nextConn : ConnId

/-- The counters of `stats_` other than those of requests accepted and ended. -/
structure Counters where
  requestsWouldBlock : Nat := 0
  peakInflightRequests : Nat := 0
  submitDeferred : Nat := 0
  readyHandoffsSent : Nat := 0
  readyHandoffsFailed : Nat := 0
  readyHandoffsReceived : Nat := 0
  notificationsSent : Nat := 0
  notificationsReceived : Nat := 0
  notificationsDropped : Nat := 0
  notificationAcksFailed : Nat := 0
  regionInvalidatesSent : Nat := 0
  regionInvalidatesFailed : Nat := 0
  completionsDropped : Nat := 0
  readyEventsDropped : Nat := 0
  deriving DecidableEq, Repr

/-- What a thread found out that the tables do not keep. -/
inductive Remark
  /-- The number and the payload a notification goes out with. -/
  | numbered (q : RequestId) (id : Nat) (payload : Bytes)
  /-- A notification was taken out for an answer that came in on a connection. -/
  | answered (q : RequestId) (conn : Option ConnId) (ack : Bool)
  /-- Pushed onto `notifications_`. -/
  | queued (n : Notification)
  /-- What the first examination of an event since the request was admitted came
  to: the answer of its query, or that it is not recorded. -/
  | examined (q : RequestId) (e : EventId) (answer : Status)
  /-- Work of a lane of the request was left in `pending_`. -/
  | deferred (q : RequestId)
  deriving DecidableEq

structure World (T : Transport) (W : Type) where
  ledger : Ledger
  transport : T.State
  dir : Directory W
  closed : Bool
  stopping : Bool
  /-- The thread that has `progress_mu_`. -/
  progressing : Option Tid
  rrCursor : Nat
  nextNotify : Nat
  notifications : List Notification
  readyEvents : List ReadyEvent
  completed : List Handle
  counters : Counters
  events : EventId → DeviceEvent
  /-- Newest first; only the remarks themselves depend on it. -/
  remarks : List Remark

/-- What the environment adds to a step: a transport's answer, or the order in
which an unordered table is walked. -/
inductive Answer (T : Transport)
  | nothing
  | transport (a : T.Answer)
  | order (l : List Nat)

/-! ## Directory -/

namespace Directory
variable {W : Type}

def findRegion (d : Directory W) (id : RegionId) : Option MemoryRegion :=
  d.regions.find? (·.id == id)

def findRemote (d : Directory W) (peer : PeerId) (id : RegionId) :
    Option (RemoteId × RegionDescriptor) :=
  (d.remotes.find? (·.1 == (peer, id))).map fun x => (x.2, (d.remoteObjects x.2).desc)

/-- Insertion into an ordered map, replacing what the key had. -/
def insertRemote (key : PeerId × RegionId) (obj : RemoteId) :
    List ((PeerId × RegionId) × RemoteId) → List ((PeerId × RegionId) × RemoteId)
  | [] => [(key, obj)]
  | (k, o) :: rest =>
    if k = key then (key, obj) :: rest
    else if key.1 < k.1 ∨ key.1 = k.1 ∧ key.2 < k.2 then (key, obj) :: (k, o) :: rest
    else (k, o) :: insertRemote key obj rest

theorem mem_insertRemote {key : PeerId × RegionId} {obj : RemoteId}
    {l : List ((PeerId × RegionId) × RemoteId)} {x : (PeerId × RegionId) × RemoteId}
    (hx : x ∈ insertRemote key obj l) : x = (key, obj) ∨ x ∈ l := by
  induction l with
  | nil => simpa [insertRemote] using hx
  | cons y rest ih =>
    simp only [insertRemote] at hx
    split at hx
    · exact (List.mem_cons.mp hx).imp_right (List.mem_cons_of_mem _)
    · split at hx
      · simpa using hx
      · rcases List.mem_cons.mp hx with rfl | hx
        · exact .inr List.mem_cons_self
        · exact (ih hx).imp_right (List.mem_cons_of_mem _)

/-- What `import_region` refuses a decoded descriptor for, and the descriptor
it keeps: the first lane's key becomes the unnamed one. -/
def importable (caps : ProviderId → ProviderCaps) (p : Peer W) (d : RegionDescriptor) :
    Except Status RegionDescriptor :=
  if p.identity ≠ .zero ∧ d.origin ≠ p.identity then .error .staleGeneration
  else if d.providerKeys.isEmpty then .ok d
  else
    let keyOf (l : Lane W) := d.providerKeys.find? (·.provider == (caps l.provider).name)
    if p.lanes.any fun l => (keyOf l).isSome then
      match p.lanes.head?.bind keyOf with
      | some k => .ok { d with remoteKey := k.remoteKey }
      | none => .ok d
    else .error .unsupported

/-- `remotes_[{id_, d.region}] = r`, for a new object. -/
def importRegion (d : Directory W) (peer : PeerId) (desc : RegionDescriptor) :
    RemoteId × Directory W :=
  (d.nextRemote,
    { d with
      remotes := insertRemote (peer, desc.region) d.nextRemote d.remotes
      remoteObjects := Function.update d.remoteObjects d.nextRemote ⟨desc, true⟩
      nextRemote := d.nextRemote + 1 })

/-- The imported regions a notice names: by the exporter's identity when it
carries one, else by the peer of its connection. -/
def named (d : Directory W) (peer : PeerId) (b : RegionInvalidateBody) : List RemoteId :=
  match b.origin with
  | some origin =>
    (d.remotes.filter fun x =>
      x.1.2 == b.region && (d.remoteObjects x.2).desc.origin == origin).map (·.2)
  | none =>
    if peer ≠ 0 then ((d.remotes.find? (·.1 == (peer, b.region))).map (·.2)).toList else []

def invalidate (d : Directory W) (obj : RemoteId) : Directory W :=
  { d with
    remoteObjects :=
      Function.update d.remoteObjects obj { d.remoteObjects obj with valid := false } }

/-- `peers_[id] = p`. -/
def addPeer (d : Directory W) (id : PeerId) (p : Peer W) : Directory W :=
  { d with
    peers := d.peers ++ [id]
    peerObjects := Function.update d.peerObjects id p
    connected := Function.update d.connected id true }

def hasConn (d : Directory W) (conn : ConnId) (id : PeerId) : Bool :=
  (d.peerObjects id).lanes.any (·.conn == some conn)

/-- The first lane's transport and connection. -/
def provider (d : Directory W) (id : PeerId) : Option ProviderId :=
  (d.peerObjects id).lanes.head?.map (·.provider)

def conn (d : Directory W) (id : PeerId) : Option ConnId :=
  (d.peerObjects id).lanes.head?.bind (·.conn)

end Directory

/-! ## Atoms -/

section
variable {T : Transport} {W : Type}

abbrev Engine (T : Transport) (W : Type) := Prog (World T W) (Answer T)

/-- Reads the state. -/
def look {α : Type} (f : World T W → α) : Engine T W α :=
  .atom (fun _ s _ => some (f s, s)) .ret

/-- Reads and writes outside the ledger and the transports. -/
def exchange {α : Type} (f : World T W → α × World T W) : Engine T W α :=
  .atom (fun _ s _ =>
    some ((f s).1, { (f s).2 with ledger := s.ledger, transport := s.transport })) .ret

def update (f : World T W → World T W) : Engine T W Unit := exchange fun s => ((), f s)

/-- Writes the ledger. -/
def write (f : Tid → Ledger → Ledger) : Engine T W Unit :=
  .atom (fun t s _ => some ((), { s with ledger := f t s.ledger })) .ret

/-- Writes the ledger and answers. -/
def transact {α : Type} (f : Tid → World T W → α × Ledger) : Engine T W α :=
  .atom (fun t s _ => some ((f t s).1, { s with ledger := (f t s).2 })) .ret

/-- Calls a transport. -/
def call {α : Type} (f : T.State → T.Answer → Option (α × T.State)) : Engine T W α :=
  .atom (fun _ s e =>
    match e with
    | .transport a => (f s.transport a).map fun (b, σ) => (b, { s with transport := σ })
    | _ => none) .ret

/-- Walks an unordered table: the elements come in the environment's order. -/
def walk (f : World T W → List Nat) : Engine T W (List Nat) :=
  .atom (fun _ s e =>
    match e with
    | .order l => if l.Perm (f s) then some (l, s) else none
    | _ => none) .ret

def count (f : Counters → Counters) : Engine T W Unit :=
  update fun s => { s with counters := f s.counters }

/-- A step that only adds to the remarks. -/
def remark (r : Remark) : Engine T W Unit := update fun s => { s with remarks := r :: s.remarks }

def World.examined (s : World T W) (q : RequestId) (e : EventId) : Bool :=
  s.remarks.any fun
    | .examined q' e' _ => q' = q ∧ e' = e
    | _ => false

/-- Remembers what an event was found like, the first time since admission. -/
def World.examine (s : World T W) (whose : Option RequestId) (e : EventId) (answer : Status) :
    World T W :=
  match whose with
  | some q =>
    if s.examined q e then s else { s with remarks := .examined q e answer :: s.remarks }
  | none => s

def request (h : Handle) (s : World T W) : Request := s.ledger.reqs h

/-- A method of a request that returns nothing. -/
def modify (h : Handle) (f : Request → Request) : Engine T W Unit :=
  write fun t l => l.put t h (f (l.reqs h))

end

end Hux
