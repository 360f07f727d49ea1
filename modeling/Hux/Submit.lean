import Hux.World

/-!
# Submission

Admission of a transfer (`submitVector`), the posting of a lane's work turn by
turn (`postOps`, `drainPending`), and what ends a request that cannot succeed
once no lane will post again (`partDone`, `endAbandoned`).
-/

namespace Hux
open Wire (Bytes)

section
variable {T : Transport} {W : Type} [LaneCost W] (setup : Setup W)

/-! ## Ending a request -/

/-- Returns whether this caller is the one that took the request out. -/
def claim (q : RequestId) : Engine T W Bool :=
  transact fun t s =>
    if q ∈ s.ledger.inflight then (true, s.ledger.claim t q) else (false, s.ledger)

/-- `cancel_requested()`, as read by the thread that claimed the request. -/
def readCancel (q : RequestId) : Engine T W Bool :=
  transact fun t s =>
    let flag := (s.ledger.reqs (.transfer q)).cancelRequested
    (flag, s.ledger.log t (.cancelRead q flag))

def countEnding (q : RequestId) (o : Outcome) : Engine T W Unit :=
  write fun t l => l.count t q o

/-- `keep_completed_locked`: past its depth the oldest goes. -/
def keepCompleted (h : Handle) (s : World T W) : World T W :=
  let dropped := { s.counters with completionsDropped := s.counters.completionsDropped + 1 }
  if setup.cfg.completionQueueDepth = 0 then { s with counters := dropped }
  else
    let queue := s.completed ++ [h]
    if queue.length ≤ setup.cfg.completionQueueDepth then { s with completed := queue }
    else { s with completed := queue.tail, counters := dropped }

def publish (h : Handle) : Engine T W Unit :=
  .atom (fun t s _ =>
    let s' := keepCompleted setup h s
    some ((), { s' with ledger := s.ledger.log t (.published h), transport := s.transport })) .ret

def endAbandoned (q : RequestId) : Engine T W Unit := do
  if ← claim q then
    if ← readCancel q then
      countEnding q .cancelled
      modify (.transfer q) Request.finishCancelled
    else
      countEnding q .failed
      let e ← look fun s => (request (.transfer q) s).error
      modify (.transfer q) (Request.fail · e)
    publish setup (.transfer q)

def partDone (q : RequestId) : Engine T W Unit := do
  let last ← transact fun t s =>
    let (last, r) := (request (.transfer q) s).partFinished
    (last, s.ledger.put t (.transfer q) r)
  if last then
    if ← look fun s => (request (.transfer q) s).abandoning then
      let idle ← transact fun t s =>
        let (idle, r) := (request (.transfer q) s).sealIfIdle
        (idle, s.ledger.put t (.transfer q) r)
      if idle then endAbandoned setup q

/-! ## Posting -/

/-- How many operations make a turn: up to the quantum, and at least one. -/
def takeOps (maxBytes : Nat) : List SubOp → Nat → Nat → Nat
  | [], take, _ => take
  | op :: rest, take, bytes =>
    if 0 < take ∧ maxBytes < u64 (bytes + op.length) then take
    else takeOps maxBytes rest (take + 1) (u64 (bytes + op.length))

/-- Hands an operation of request `q` to its provider. -/
def offer (q : RequestId) (prov : ProviderId) (conn : Option ConnId) (op : SubOp) :
    Engine T W Bool :=
  .atom (fun t s e =>
    match e with
    | .transport a =>
      (T.offer prov conn op s.transport a).map fun (taken, σ) =>
        (taken, { s with transport := σ, ledger := s.ledger.log t (.offered q op taken) })
    | _ => none) .ret

def land (prov : ProviderId) (conn : Option ConnId) (op : SubOp) : Engine T W Unit :=
  .atom (fun _ s _ => some ((), { s with transport := T.land prov conn op s.transport })) .ret

/-- How many were taken, and whether one was refused. -/
def submitLoop (q : RequestId) (prov : ProviderId) (conn : Option ConnId) :
    List SubOp → Nat → Engine T W (Nat × Bool)
  | [], n => pure (n, false)
  | op :: rest, n => do
    if ← offer q prov conn op then
      land prov conn op
      submitLoop q prov conn rest (n + 1)
    else pure (n, true)

def submit (q : RequestId) (prov : ProviderId) (conn : Option ConnId) (ops : List SubOp) :
    Engine T W SubmitResult := do
  let (n, refused) ← submitLoop q prov conn ops 0
  let (status, errno) ← call (T.finish prov conn n refused)
  pure ⟨u32 n, status, errno⟩

def submitError (sr : SubmitResult) (provider : Bytes) (peer : PeerId) (outstanding : Nat) :
    ErrorInfo where
  status := if sr.status = .ok then .transportError else sr.status
  provider := provider
  peerId := peer
  providerErrno := sr.providerErrno
  mayHaveModifiedTarget := decide (0 < outstanding)
  detail := if outstanding = 0 then "submit rejected" else "partial submit"

/-- `note_error`, and what the error is for. -/
def noteError (q : RequestId) (news : News) (e : ErrorInfo) : Engine T W Unit :=
  write fun t l =>
    (l.put t (.transfer q) ((l.reqs (.transfer q)).noteError e)).log t (.brought q news)

/-- What the result of a submission means for the lane: put off, its next turn,
done, or failed. Returns what is left for a later turn. -/
def finishTurn (p : PendingSubmit) (offered : Nat) (sr : SubmitResult) :
    Engine T W (Option PendingSubmit) := do
  if sr.accepted < offered ∧ sr.status = .wouldBlock then
    count fun c => { c with submitDeferred := c.submitDeferred + 1 }
    pure (p.rest sr.accepted)
  else if sr.accepted = offered then
    match p.rest sr.accepted with
    | some later => pure (some later)
    | none =>
      partDone setup p.req
      pure none
  else
    let outstanding ← look fun s => (request (.transfer p.req) s).acceptedSubops
    let e := submitError sr (setup.caps p.provider).name p.peer outstanding
    noteError p.req (.refusal outstanding) e
    modify (.transfer p.req) (Request.setState · .draining)
    partDone setup p.req
    pure none

def postOps (p : PendingSubmit) (maxBytes : Nat) : Engine T W (Option PendingSubmit) := do
  let abandoning ← transact fun t s =>
    if (request (.transfer p.req) s).abandoning then (true, s.ledger)
    else (false, s.ledger.log t (.cleared p.req))
  if abandoning then
    partDone setup p.req
    pure none
  else
    let slice := p.ops.take (takeOps maxBytes p.ops 0 0)
    modify (.transfer p.req) (Request.setState · .inflight)
    let sr ← submit p.req p.provider p.conn slice
    write fun t l =>
      (l.put t (.transfer p.req) ((l.reqs (.transfer p.req)).addAcceptedSubops sr.accepted)).log t
        (.settled p.req)
    finishTurn setup p slice.length sr

/-- `whose` is the request the events are examined for, once it is admitted; it
only goes into the remarks. -/
def dependencyState (whose : Option RequestId) :
    List (Option EventId) → Status → Engine T W Status
  | [], state => pure state
  | none :: rest, state => dependencyState whose rest state
  | some e :: rest, state => do
    if ← exchange fun s => ((s.events e).recorded,
        if (s.events e).recorded then s else s.examine whose e .invalidArgument) then
      let (query, complete) ← exchange fun s =>
        (((s.events e).query, (s.events e).complete), s.examine whose e (s.events e).query)
      if query ≠ .ok then pure query
      else dependencyState whose rest (if complete then state else .wouldBlock)
    else pure .invalidArgument

def pushPending (ps : List PendingSubmit) : Engine T W Unit :=
  .atom (fun _ s _ => some ((), { s with
    ledger := s.ledger.defer ps
    remarks := ps.map (.deferred ·.req) ++ s.remarks })) .ret

/-- One lane's turn in a scheduling pass. -/
def drainTurn (p : PendingSubmit) : Engine T W (Option PendingSubmit) := do
  if ← look fun s => (request (.transfer p.req) s).abandoning then
    postOps setup p setup.cfg.schedulerQuantumBytes
  else
    let d ← dependencyState (some p.req) p.after .ok
    if d = .wouldBlock then pure (some p)
    else if d ≠ .ok then
      noteError p.req .dependency { status := d }
      postOps setup p setup.cfg.schedulerQuantumBytes
    else postOps setup p setup.cfg.schedulerQuantumBytes

def drainLoop : List PendingSubmit → Engine T W (List PendingSubmit)
  | [] => pure []
  | p :: rest => do
    let kept ← drainTurn setup p
    let more ← drainLoop rest
    pure (kept.toList ++ more)

/-- Takes everything pending, starting one further than the last pass. -/
def takePending : Engine T W (List PendingSubmit) :=
  .atom (fun _ s _ =>
    let n := s.ledger.pending.length
    if n = 0 then some ([], s)
    else
      let cursor := if n ≤ s.rrCursor then 0 else s.rrCursor
      some (s.ledger.pending.drop cursor ++ s.ledger.pending.take cursor,
        { s with ledger := s.ledger.drained, rrCursor := if 1 < n then 1 else 0 })) .ret

def drainPending : Engine T W Unit := do
  let turn ← takePending
  let stillWaiting ← drainLoop setup turn
  if !stillWaiting.isEmpty then pushPending stillWaiting

/-! ## Admission -/

/-- Lookups under the engine's lock, one atom each. -/
def lookup : Lookup (Engine T W) where
  findRegion id := look fun s => s.dir.findRegion id
  retired id := look fun s => s.ledger.retired id
  findRemote peer id := look fun s => s.dir.findRemote peer id
  valid obj := look fun s => (s.dir.remoteObjects obj).valid

structure TransferOptions where
  after : List (Option EventId) := []
  notify : Bool := false
  readyHandoff : Bool := true
  deriving DecidableEq, Repr

/-- What a call hands back. -/
inductive Reply
  | status (s : Status)
  | request (s : Status) (h : Option Handle)
  | requests (s : Status) (hs : List Handle)
  | notifications (ns : List Notification)
  | ready (evs : List ReadyEvent)
  | peer (s : Status) (p : Option PeerId)
  | remote (s : Status) (r : Option RemoteId)
  deriving DecidableEq, Repr

/-- The ranges a write's handoffs will name. -/
def collectTargets (peer : PeerId) : List RegionView → List RemoteTarget →
    Engine T W (List RemoteTarget)
  | [], targets => pure targets
  | seg :: rest, targets => do
    if seg.span.length = 0 then collectTargets peer rest targets
    else
      match ← look fun s => s.dir.findRemote peer seg.region with
      | some (_, desc) =>
        collectTargets peer rest (addRemoteTarget targets seg.region desc.generation seg.span)
      | none => collectTargets peer rest targets

/-- The bound on the submission queue. -/
def full : Engine T W Bool :=
  exchange fun s =>
    if setup.cfg.maxInflightRequests ≤ s.ledger.inflight.card then
      (true, { s with counters :=
          { s.counters with requestsWouldBlock := s.counters.requestsWouldBlock + 1 } })
    else (false, s)

def countAdmission (q : RequestId) (depth : Nat) : Engine T W Unit :=
  .atom (fun t s _ => some ((), { s with
    ledger := s.ledger.countAccepted t q
    counters :=
      { s.counters with peakInflightRequests := max s.counters.peakInflightRequests depth } })) .ret

/-- Admission itself: refused once the engine is closed or a held region is
retired. -/
def admission (q : RequestId) (r : Request) (ops : List SubOp) : Engine T W Status :=
  transact fun t s =>
    if s.closed then (.invalidArgument, s.ledger)
    else if r.heldRegions.any s.ledger.retired then (.staleGeneration, s.ledger)
    else (.ok, s.ledger.enter t q r ops)

/-- One piece of pending work for each lane that got any. -/
def makeParts (q : RequestId) (peer : PeerId) (after : List (Option EventId)) :
    List (Lane W) → List (List SubOp) → List PendingSubmit
  | lane :: lanes, ops :: perLane =>
    if h : ops = [] then makeParts q peer after lanes perLane
    else
      ⟨q, ops, h, lane.conn, peer, lane.provider, after⟩ :: makeParts q peer after lanes perLane
  | _, _ => []

def postParts : List PendingSubmit → Engine T W Unit
  | [] => pure ()
  | p :: rest => do
    match ← postOps setup p setup.cfg.schedulerQuantumBytes with
    | some later => pushPending [later]
    | none => pure ()
    postParts rest

/-- From the moment the request is in flight. -/
def startParts (q : RequestId) (after : List (Option EventId)) (parts : List PendingSubmit) :
    Engine T W Unit := do
  modify (.transfer q) (Request.setParts · (u32 parts.length))
  let dep ← dependencyState (some q) after .ok
  if dep = .wouldBlock then
    modify (.transfer q) (Request.setState · .waitDependency)
    pushPending parts
  else if dep ≠ .ok then
    noteError q .dependency { status := dep }
    postParts setup parts
  else postParts setup parts

/-- None unless a write asks for handoffs. -/
def handoffTargets (peer : PeerId) (remote : List RegionView) (kind : SubOpKind)
    (opts : TransferOptions) : Engine T W (List RemoteTarget) :=
  if kind = .write ∧ opts.readyHandoff then collectTargets peer remote [] else pure []

/-- Admits a request that is built, and posts what it can of it. -/
def launch (q : RequestId) (r : Request) (ops : List SubOp) (after : List (Option EventId))
    (parts : List PendingSubmit) : Engine T W Reply := do
  match ← admission q r ops with
  | .ok =>
    let depth ← look fun s => s.ledger.inflight.card
    countAdmission q depth
    startParts setup q after parts
    return .request .ok (some (.transfer q))
  | s => return .request s none

/-- `submit_vector` from where it has found the queue below its bound. -/
def submitBounded (peer : PeerId) (loc remote : List RegionView) (opts : TransferOptions)
    (kind : SubOpKind) : Engine T W Reply := do
  let q ← transact fun _ s => (s.ledger.nextRequest, s.ledger.nextId)
  let lanes ← look fun s => (s.dir.peerObjects peer).lanes
  match ← buildSubops lookup setup.caps setup.cfg.chunkBytes peer loc remote kind q lanes with
  | .error s => return .request s none
  | .ok built =>
    let ops := built.perLane.flatten
    if ops.length = 0 then return .request .invalidArgument none
    let targets ← handoffTargets peer remote kind opts
    let r : Request := {
      kind := kind
      totalSubops := u32 ops.length
      peer := peer
      heldRegions := built.held
      conn := lanes.head?.bind (·.conn)
      provider := lanes.head?.map (·.provider)
      remoteTargets := targets }
    launch setup q r ops opts.after (makeParts q peer opts.after lanes built.perLane)

/-- `submit_vector` from where it has found the peer connected. -/
def submitConnected (peer : PeerId) (loc remote : List RegionView) (opts : TransferOptions)
    (kind : SubOpKind) : Engine T W Reply := do
  let dep ← dependencyState none opts.after .ok
  if dep ≠ .ok ∧ dep ≠ .wouldBlock then return .request dep none
  if ← full setup then return .request .wouldBlock none
  submitBounded setup peer loc remote opts kind

def submitVector (peer : PeerId) (loc remote : List RegionView) (opts : TransferOptions)
    (kind : SubOpKind) : Engine T W Reply := do
  if ← look (·.closed) then return .request .invalidArgument none
  if loc.isEmpty || loc.length ≠ remote.length then return .request .invalidArgument none
  if opts.notify then return .request .unsupported none
  if !(← look (·.dir.connected peer)) then return .request .peerDisconnected none
  submitConnected setup peer loc remote opts kind

end

end Hux
