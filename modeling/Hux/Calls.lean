import Hux.Progress

/-!
# The calls of an engine

The calls not met so far, `Call` with the program of each, and what the
environment does by itself.
-/

namespace Hux
open Wire (Bytes)

section
variable {T : Transport} {W : Type} [LaneCost W] (setup : Setup W)

/-- `notify_pending_[id] = req`, unless the engine is closed. Returns whether it
is. -/
def awaitAck (id : Nat) (q : RequestId) (r : Request) (payload : Bytes) : Engine T W Bool :=
  .atom (fun t s _ =>
    if s.closed then some (true, s)
    else some (false, { s with
      ledger := s.ledger.awaitAck t id q r
      remarks := .numbered q id payload :: s.remarks })) .ret

def notify (peer : PeerId) (payload : Bytes) : Engine T W Reply := do
  if setup.cfg.notifyMaxPayload < payload.length then return .request .invalidArgument none
  if ← look (·.closed) then return .request .invalidArgument none
  if !(← look (·.dir.connected peer)) then return .request .peerDisconnected none
  let id ← exchange fun s => (s.nextNotify, { s with nextNotify := s.nextNotify + 1 })
  let q ← transact fun _ s => (s.ledger.nextRequest, s.ledger.nextId)
  let r : Request := {
    kind := .write
    totalSubops := 0
    peer := peer
    heldRegions := []
    conn := none
    provider := none
    remoteTargets := []
    state := .waitNotifyAck }
  if ← awaitAck id q r payload then return .request .invalidArgument none
  let prov ← look fun s => (s.dir.provider peer).getD 0
  let conn ← look fun s => s.dir.conn peer
  let s ← call (T.sendControl prov conn .notification (encodeU64 id ++ payload))
  if s = .ok then
    count fun c => { c with notificationsSent := c.notificationsSent + 1 }
  else
    match ← takeNotification id false with
    | none => pure ()
    | some _ =>
      modify (.note q) (Request.fail · {
        status := s
        provider := (setup.caps prov).name
        peerId := peer
        detail := "control send failed" })
  return .request s (some (.note q))

def broadcastLoop (payload : Bytes) : List ProviderId → Engine T W (Nat × Nat × List ProviderId)
  | [] => pure (0, 0, [])
  | prov :: rest => do
    let (status, sent, refused) ← call (T.broadcastControl prov .regionInvalidate payload)
    let (sents, refuseds, oneByOne) ← broadcastLoop payload rest
    if status = .ok then pure (sent + sents, refused + refuseds, oneByOne)
    else pure (sents, refuseds, prov :: oneByOne)

def sendLoop (payload : Bytes) (oneByOne : List ProviderId) :
    List PeerId → Engine T W (Nat × Nat)
  | [] => pure (0, 0)
  | p :: rest => do
    let connected ← look (·.dir.connected p)
    let lane ← look fun s => (s.dir.peerObjects p).lanes.head?
    match lane with
    | some lane =>
      if connected ∧ lane.provider ∈ oneByOne then
        let s ← call (T.sendControl lane.provider lane.conn .regionInvalidate payload)
        let (sent, refused) ← sendLoop payload oneByOne rest
        pure (if s = .ok then (sent + 1, refused) else (sent, refused + 1))
      else sendLoop payload oneByOne rest
    | none => sendLoop payload oneByOne rest

/-- Refused while a request in flight uses the handle; from then on the region
is not to be found. -/
def dropRegion (r : MemoryRegion) : Engine T W Bool :=
  .atom (fun t s _ =>
    if s.ledger.uses r.id then some (false, s)
    else
      some (true, { s with
        ledger := s.ledger.log t (.deregistered r.id)
        dir := { s.dir with regions := s.dir.regions.filter (·.id ≠ r.id) } })) .ret

def deregisterMemory (r : MemoryRegion) : Engine T W Reply := do
  write fun _ l => l.retire r.id
  if ← dropRegion r then
    let payload := encodeRegionInvalidate ⟨r.id, r.generation, some r.origin⟩
    let (sent, refused, oneByOne) ← broadcastLoop payload (List.range setup.providers)
    let peers ← if oneByOne.isEmpty then pure [] else walk fun s => s.dir.peers
    let (sent', refused') ← sendLoop payload oneByOne peers
    count fun c => { c with
      regionInvalidatesSent := c.regionInvalidatesSent + sent + sent'
      regionInvalidatesFailed := c.regionInvalidatesFailed + refused + refused' }
    return .status .ok
  else return .status .wouldBlock

/-- A connection object of its own for each dial that succeeds. -/
def connect (prov : ProviderId) (blob : Bytes) : Engine T W (Status × ConnId) :=
  .atom (fun _ s e =>
    match e with
    | .transport a =>
      (T.connect prov s.dir.nextConn blob s.transport a).map fun (status, σ) =>
        ((status, s.dir.nextConn),
          { s with transport := σ, dir := { s.dir with nextConn := s.dir.nextConn + 1 } })
    | _ => none) .ret

def connectSiblings : List (ProviderId × Bytes) → Engine T W (List (Lane W))
  | [] => pure []
  | (prov, blob) :: rest => do
    let (status, conn) ← connect prov blob
    let more ← connectSiblings rest
    pure (if status = .ok then ⟨prov, some conn, setup.relativeCapacity prov⟩ :: more else more)

def addPeer (metadata : Bytes) : Engine T W Reply := do
  match readMetadata setup.identity metadata with
  | .error s => return .peer s none
  | .ok m =>
    match chooseProvider setup m with
    | none => return .peer .unsupported none
    | some (chosen, blob) =>
      let (status, conn) ← connect chosen blob
      if status ≠ .ok then return .peer status none
      let others ← connectSiblings setup (siblings setup m chosen)
      let id ← exchange fun s =>
        (s.dir.nextPeer, { s with dir := { s.dir with nextPeer := s.dir.nextPeer + 1 } })
      let lanes := ⟨chosen, some conn, setup.relativeCapacity chosen⟩ :: others
      update fun s => { s with dir := s.dir.addPeer id ⟨m.identity, lanes⟩ }
      return .peer .ok (some id)

def importRegion (peer : PeerId) (descriptor : Bytes) : Engine T W Reply := do
  match decodeDescriptor descriptor with
  | .error s => return .remote s none
  | .ok d =>
    let p ← look fun s => s.dir.peerObjects peer
    match Directory.importable setup.caps p d with
    | .error s => return .remote s none
    | .ok d =>
      let obj ← exchange fun s =>
        let (obj, dir) := s.dir.importRegion peer d
        (obj, { s with dir := dir })
      return .remote .ok (some obj)

def removePeer (peer : PeerId) : Engine T W Reply := do
  update fun s => { s with dir := { s.dir with
    connected := Function.update s.dir.connected peer false } }
  update fun s => { s with dir := { s.dir with peers := s.dir.peers.filter (· ≠ peer) } }
  endNotifications setup peer false {
    status := .peerDisconnected
    peerId := peer
    detail := "the peer was removed before acknowledging; whether it arrived is not known" }
  let lanes ← look fun s => (s.dir.peerObjects peer).lanes
  let first ← disconnectLanes .ok lanes
  return .status first

/-- The end of `register_memory`: a handle over a registration gets its number
and can be found. -/
def registerMemory (r : MemoryRegion) : Engine T W Reply := do
  let id ← exchange fun s =>
    (s.dir.nextRegion, { s with dir := { s.dir with nextRegion := s.dir.nextRegion + 1 } })
  update fun s => { s with dir := { s.dir with regions := s.dir.regions ++ [{ r with id := id }] } }
  return .status .ok

/-- Explicit mode is driven by whoever polls. -/
def pollProgress : Engine T W Status :=
  if setup.cfg.progress = .explicit then progress setup else pure .ok

def pollCompletions (maxItems : Nat) : Engine T W Reply := do
  let s ← pollProgress setup
  let out ← exchange fun s =>
    (s.completed.take maxItems, { s with completed := s.completed.drop maxItems })
  return .requests s out

def pollNotifications (maxItems : Nat) : Engine T W Reply := do
  let _ ← pollProgress setup
  let out ← exchange fun s =>
    (s.notifications.take maxItems, { s with notifications := s.notifications.drop maxItems })
  return .notifications out

def pollReadyEvents (maxItems : Nat) : Engine T W Reply := do
  let _ ← pollProgress setup
  let out ← exchange fun s =>
    (s.readyEvents.take maxItems, { s with readyEvents := s.readyEvents.drop maxItems })
  return .ready out

/-- As many turns as fit before the deadline; whether nothing is in flight. -/
def closeLoop : Nat → Engine T W Bool
  | 0 => look fun s => decide (s.ledger.inflight = ∅)
  | turns + 1 => do
    if ← look fun s => decide (s.ledger.inflight = ∅) then pure true
    else
      let _ ← progress setup
      closeLoop turns

def close (turns : Nat) : Engine T W Reply := do
  update fun s => { s with closed := true }
  if ← closeLoop setup turns then
    endNotifications setup 0 false {}
    update fun s => { s with stopping := true }
    return .status .ok
  else return .status .timeout

/-- `Request::cancel`, by someone who has the request. -/
def cancel (h : Handle) : Engine T W Reply :=
  .atom (fun t s _ =>
    if (request h s).made then
      let (status, l) := s.ledger.cancel t h
      some (.status status, { s with ledger := l })
    else none) .ret

/-- `Request::wait`, without a deadline. -/
def wait (h : Handle) : Engine T W Reply :=
  .atom (fun _ s _ =>
    if (request h s).made ∧ (request h s).terminal then
      some (.status (request h s).outcome, s)
    else none) .ret

/-- What the transports' side does by itself. -/
def transportStep : Engine T W Reply := do
  call fun σ a => (T.environment σ a).map fun σ' => ((), σ')
  return .status .ok

/-- A device event recorded, completed or failed. No backend takes back that it
was recorded. -/
def deviceStep (e : EventId) (d : DeviceEvent) : Engine T W Reply := do
  update fun s => { s with
    events := Function.update s.events e
      { d with recorded := (s.events e).recorded || d.recorded } }
  return .status .ok

end

inductive Call
  | read (peer : PeerId) (loc remote : RegionView) (opts : TransferOptions)
  | write (peer : PeerId) (loc remote : RegionView) (opts : TransferOptions)
  | readv (peer : PeerId) (loc remote : List RegionView) (opts : TransferOptions)
  | writev (peer : PeerId) (loc remote : List RegionView) (opts : TransferOptions)
  | notify (peer : PeerId) (payload : Bytes)
  | cancel (h : Handle)
  | wait (h : Handle)
  | progress
  | pollCompletions (maxItems : Nat)
  | pollNotifications (maxItems : Nat)
  | pollReadyEvents (maxItems : Nat)
  | registerMemory (r : MemoryRegion)
  | deregisterMemory (r : MemoryRegion)
  | addPeer (metadata : Bytes)
  | importRegion (peer : PeerId) (descriptor : Bytes)
  | removePeer (peer : PeerId)
  | close (turns : Nat)
  | transportStep
  | deviceStep (e : EventId) (d : DeviceEvent)
  deriving DecidableEq

/-- The segments a call asks to transfer, and which way. -/
def Call.transfer : Call → Option (PeerId × List RegionView × List RegionView × TransferOptions ×
    SubOpKind)
  | .read p l r o => some (p, [l], [r], o, .read)
  | .write p l r o => some (p, [l], [r], o, .write)
  | .readv p l r o => some (p, l, r, o, .read)
  | .writev p l r o => some (p, l, r, o, .write)
  | _ => none

def Call.body (T : Transport) {W : Type} [LaneCost W] (setup : Setup W) : Call → Engine T W Reply
  | .read p l r o => Hux.submitVector setup p [l] [r] o .read
  | .write p l r o => Hux.submitVector setup p [l] [r] o .write
  | .readv p l r o => Hux.submitVector setup p l r o .read
  | .writev p l r o => Hux.submitVector setup p l r o .write
  | .notify p b => Hux.notify setup p b
  | .cancel h => Hux.cancel h
  | .wait h => Hux.wait h
  | .progress => do return .status (← Hux.progress setup)
  | .pollCompletions n => Hux.pollCompletions setup n
  | .pollNotifications n => Hux.pollNotifications setup n
  | .pollReadyEvents n => Hux.pollReadyEvents setup n
  | .registerMemory r => Hux.registerMemory r
  | .deregisterMemory r => Hux.deregisterMemory setup r
  | .addPeer b => Hux.addPeer setup b
  | .importRegion p b => Hux.importRegion setup p b
  | .removePeer p => Hux.removePeer setup p
  | .close n => Hux.close setup n
  | .transportStep => Hux.transportStep
  | .deviceStep e d => Hux.deviceStep e d

/-- An engine no request was ever made of, over any tables and transports. -/
def World.start {T : Transport} {W : Type} (dir : Directory W) (σ : T.State) : World T W where
  ledger := {
    reqs := fun _ => { kind := .read, totalSubops := 0, peer := 0, heldRegions := [], conn := none
                       provider := none, remoteTargets := [], made := false }
    inflight := ∅
    pending := []
    notifyPending := []
    nextRequest := 1
    retired := fun _ => false
    accepted := 0
    succeeded := 0
    failed := 0
    cancelled := 0
    trace := [] }
  transport := σ
  dir := dir
  closed := false
  stopping := false
  progressing := none
  rrCursor := 0
  nextNotify := 1
  notifications := []
  readyEvents := []
  completed := []
  counters := {}
  events := fun _ => ⟨false, .ok, false⟩
  remarks := []

/-- An engine with the calls made of it. -/
abbrev Pools (T : Transport) (W : Type) := Interleave.Pool Call (World T W) (Answer T) Reply

/-- What it comes to from its start, by steps that all satisfy `ok`. -/
abbrev Runs {T : Transport} {W : Type} [LaneCost W] (setup : Setup W) (dir : Directory W)
    (σ : T.State) (ok : World T W → World T W → Prop) : Pools T W → Prop :=
  Interleave.Run (Call.body T setup) ok (World.start dir σ)

end Hux
