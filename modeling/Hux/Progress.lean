import Hux.Submit

/-!
# A turn of progress

`EngineImpl::progress`: a scheduling pass, the peers that departed, the
cancelled notifications, the control messages and arrivals of every transport,
and then the completions. `progress_mu_` is held across atoms, so it is part of
the state.
-/

namespace Hux
open Wire (Bytes)

section
variable {T : Transport} {W : Type} [LaneCost W] (setup : Setup W)

/-! ## Notifications and departed peers -/

/-- Takes the notifications a predicate matches out of `notify_pending_`; `said` only
goes into the history. -/
def forgetNotes (said : List Event) (gone : Ledger → Nat × RequestId → Bool) :
    Engine T W (List Nat) :=
  .atom (fun t s e =>
    match e with
    | .order l =>
      if l.Perm ((s.ledger.notifyPending.filter (gone s.ledger)).map (·.2)) then
        some (l, { s with ledger := { s.ledger.forgetNotes (gone s.ledger) with
          trace := said.map (t, ·) ++ s.ledger.trace } })
      else none
    | _ => none) .ret

def endNotes (e : ErrorInfo) : List RequestId → Engine T W Unit
  | [] => pure ()
  | q :: rest => do
    let cancelled ← if e.ok then pure true else look fun s => (request (.note q) s).cancelRequested
    if cancelled then modify (.note q) Request.finishCancelled
    else modify (.note q) (Request.fail · e)
    publish setup (.note q)
    endNotes e rest

/-- Those to a peer (every peer for 0), or only those whose caller cancelled. -/
def endNotifications (peer : PeerId) (onlyCancelled : Bool) (e : ErrorInfo) : Engine T W Unit := do
  let ended ← forgetNotes (if onlyCancelled then [.swept] else []) fun l n =>
    if onlyCancelled then (l.reqs (.note n.2)).cancelRequested
    else peer == 0 || (l.reqs (.note n.2)).peer == peer
  endNotes setup e ended

def disconnectLanes (first : Status) : List (Lane W) → Engine T W Status
  | [] => pure first
  | l :: rest => do
    match l.conn with
    | none => disconnectLanes first rest
    | some c =>
      let s ← call (T.disconnect l.provider c)
      disconnectLanes (if s ≠ .ok ∧ first = .ok then s else first) rest

def departedError (provider : Bytes) (peer : PeerId) (kind : SubOpKind) : ErrorInfo where
  status := .peerDisconnected
  provider := provider
  peerId := peer
  mayHaveModifiedTarget := kind == .write
  detail := "peer disconnected while the request was in flight"

/-- Takes the requests of a departed peer out of `inflight_`. -/
def strand (peer : PeerId) : Engine T W (List RequestId) :=
  .atom (fun t s e =>
    match e with
    | .order qs =>
      if qs.Nodup ∧ qs.toFinset = s.ledger.stranded peer then
        some (qs, { s with ledger := s.ledger.reap t qs })
      else none
    | _ => none) .ret

def reapLoop (provider : Bytes) (peer : PeerId) : List RequestId → Engine T W Unit
  | [] => pure ()
  | q :: rest => do
    modify (.transfer q) Request.sealAccepted
    countEnding q .failed
    modify (.transfer q) fun r => r.fail (departedError provider peer r.kind)
    publish setup (.transfer q)
    reapLoop provider peer rest

def reapPeer (peer : PeerId) : Engine T W Unit := do
  update fun s => { s with dir := { s.dir with
    connected := Function.update s.dir.connected peer false } }
  let lanes ← look fun s => (s.dir.peerObjects peer).lanes
  let _ ← disconnectLanes .ok lanes
  let stranded ← strand peer
  let provider := (lanes.head?.map fun l => (setup.caps l.provider).name).getD []
  reapLoop setup provider peer stranded
  endNotifications setup peer false {
    status := .peerDisconnected
    peerId := peer
    detail := "the peer went before acknowledging; whether it arrived is not known" }

def reapPeers : List PeerId → Engine T W Unit
  | [] => pure ()
  | p :: rest => do
    reapPeer setup p
    reapPeers rest

def laneGone (s : World T W) (peer : PeerId) : Bool :=
  (s.dir.peerObjects peer).lanes.any fun l =>
    match l.conn with
    | some c => !T.alive l.provider c s.transport
    | none => false

def reapDepartedPeers : Engine T W Unit := do
  let gone ← walk fun s => s.dir.peers.filter fun p => s.dir.connected p && laneGone s p
  reapPeers setup gone

/-! ## Control messages -/

/-- The engine's number for the peer a connection belongs to, 0 if none. -/
def peerForConn : Option ConnId → Engine T W PeerId
  | none => pure 0
  | some c => do
    let matching ← walk fun s => s.dir.peers.filter (s.dir.hasConn c)
    pure (matching.headD 0)

/-- `keep_ready_locked`: past the depth the new one goes. -/
def keepReady (ev : ReadyEvent) (s : World T W) : World T W :=
  if setup.cfg.readyQueueDepth ≤ s.readyEvents.length then
    { s with counters :=
        { s.counters with readyEventsDropped := s.counters.readyEventsDropped + 1 } }
  else { s with readyEvents := s.readyEvents ++ [ev] }

def handleReadyHandoff (peer : PeerId) (payload : Bytes) : Engine T W Unit := do
  match decodeReadyHandoff payload with
  | .error _ => pure ()
  | .ok b =>
    let region ← look fun s => s.dir.findRegion b.region
    let addr := match region with
      | some r => if (Span.mk b.offset b.length).within r.length then some (u64 (r.base + b.offset))
          else none
      | none => none
    count fun c => { c with readyHandoffsReceived := c.readyHandoffsReceived + 1 }
    update (keepReady setup ⟨b.request, peer, addr, b.length, b.region, b.generation,
      ⟨b.offset, b.length⟩⟩)

def handleNotification (prov : ProviderId) (m : ControlMessage) (peer : PeerId) :
    Engine T W Unit := do
  if m.payload.length < kNotificationHeaderBytes then pure ()
  else
    match decodeU64 (m.payload.take kNotificationHeaderBytes) with
    | .error _ => pure ()
    | .ok id =>
      let queued ← exchange fun s =>
        if s.notifications.length < setup.cfg.notifyQueueDepth then
          let n : Notification := ⟨peer, id, m.payload.drop kNotificationHeaderBytes⟩
          (true, { s with
            notifications := s.notifications ++ [n]
            remarks := .queued n :: s.remarks })
        else (false, s)
      count fun c =>
        if queued then { c with notificationsReceived := c.notificationsReceived + 1 }
        else { c with notificationsDropped := c.notificationsDropped + 1 }
      match m.conn with
      | none => pure ()
      | some c =>
        if queued then
          let sent ← call (T.sendControl prov (some c) .notificationAck (encodeU64 id))
          if sent ≠ .ok then
            count fun c => { c with notificationAcksFailed := c.notificationAcksFailed + 1 }
        else
          let _ ← call (T.sendControl prov (some c) .notificationRefused (encodeU64 id))

def invalidateLoop (generation : Generation) : List RemoteId → Engine T W Unit
  | [] => pure ()
  | obj :: rest => do
    let g ← look fun s => (s.dir.remoteObjects obj).desc.generation
    if g = generation then update fun s => { s with dir := s.dir.invalidate obj }
    invalidateLoop generation rest

def handleRegionInvalidate (peer : PeerId) (payload : Bytes) : Engine T W Unit := do
  match decodeRegionInvalidate payload with
  | .error _ => pure ()
  | .ok b =>
    let named ← look fun s => s.dir.named peer b
    invalidateLoop b.generation named

/-- `take_notification`: taken out by whoever ends it. -/
def takeNotification (id : Nat) (ack : Bool) : Engine T W (Option RequestId) :=
  transact fun t s =>
    match s.ledger.notifyPending.find? (·.1 == id) with
    | none => (none, s.ledger)
    | some n =>
      let l := s.ledger.forgetNotes (·.1 == id)
      (some n.2, if ack then l.log t (.acking n.2) else l)

def handleAck (m : ControlMessage) : Engine T W Unit := do
  match decodeU64 m.payload with
  | .error _ => pure ()
  | .ok id =>
    match ← takeNotification id true with
    | none => pure ()
    | some q =>
      remark (.answered q m.conn true)
      modify (.note q) (Request.markStage · .transferComplete)
      modify (.note q) Request.finishSuccess
      publish setup (.note q)

def handleRefused (peer : PeerId) (m : ControlMessage) : Engine T W Unit := do
  match decodeU64 m.payload with
  | .error _ => pure ()
  | .ok id =>
    match ← takeNotification id false with
    | none => pure ()
    | some q =>
      remark (.answered q m.conn false)
      modify (.note q) (Request.fail · {
        status := .resourceExhausted
        peerId := peer
        detail := "the peer's notification queue was full" })
      publish setup (.note q)

def handleControl (prov : ProviderId) (m : ControlMessage) : Engine T W Unit := do
  let peer ← peerForConn m.conn
  if m.type = ControlType.readyHandoff.code then handleReadyHandoff setup peer m.payload
  else if m.type = ControlType.notification.code then handleNotification setup prov m peer
  else if m.type = ControlType.regionInvalidate.code then handleRegionInvalidate peer m.payload
  else if m.type = ControlType.notificationAck.code then handleAck setup m
  else if m.type = ControlType.notificationRefused.code then handleRefused setup peer m
  else pure ()

def handleControls (prov : ProviderId) : List ControlMessage → Engine T W Unit
  | [] => pure ()
  | m :: rest => do
    handleControl setup prov m
    handleControls prov rest

def controlLoop : List ProviderId → Engine T W Unit
  | [] => pure ()
  | prov :: rest => do
    let (status, msgs) ← call (T.pollControl prov setup.cfg.cqBatch)
    if status = .ok then handleControls setup prov msgs
    controlLoop rest

def arrivalLoop : List ProviderId → Engine T W Unit
  | [] => pure ()
  | prov :: rest => do
    let (status, arrivals) ← call (T.pollPeerArrivals prov setup.cfg.cqBatch)
    if status = .ok ∧ arrivals ≠ [] then
      update fun s =>
        arrivals.foldl (fun s a => keepReady setup ⟨a.token, a.sender, none, 0, 0, 0, ⟨0, 0⟩⟩ s) s
    arrivalLoop rest

/-! ## Completions -/

/-- `send_control` of one ready handoff. -/
def sendHandoff (q : RequestId) (c : ConnId) (prov : ProviderId) (b : ReadyHandoffBody) :
    Engine T W Status :=
  .atom (fun t s e =>
    match e with
    | .transport a =>
      (T.sendControl prov (some c) .readyHandoff (encodeReadyHandoff b) s.transport a).map
        fun (sent, σ) => (sent, { s with transport := σ, ledger := s.ledger.log t (.handoff q b) })
    | _ => none) .ret

def sendHandoffs (q : RequestId) (conn : Option ConnId) (prov : ProviderId) :
    List RemoteTarget → Engine T W Unit
  | [] => pure ()
  | target :: rest => do
    let b : ReadyHandoffBody :=
      ⟨q, target.region, target.generation, target.span.offset, target.span.length⟩
    match conn with
    | none => pure ()
    | some c =>
      let sent ← sendHandoff q c prov b
      count fun c =>
        if sent = .ok then { c with readyHandoffsSent := c.readyHandoffsSent + 1 }
        else { c with readyHandoffsFailed := c.readyHandoffsFailed + 1 }
    sendHandoffs q conn prov rest

/-- Every operation was carried out and nobody cancelled. -/
def succeed (q : RequestId) : Engine T W Unit := do
  modify (.transfer q) (Request.markStage · .transferComplete)
  let r ← look (request (.transfer q))
  if setup.device ∧ r.kind = .read then
    modify (.transfer q) (Request.markStage · .targetReady)
  sendHandoffs q r.conn (r.provider.getD 0) r.remoteTargets
  countEnding q .succeeded
  modify (.transfer q) Request.finishSuccess
  publish setup (.transfer q)

/-- A request claimed with its last completion. -/
def finishClaimed (q : RequestId) : Engine T W Unit := do
  if ← readCancel q then
    countEnding q .cancelled
    modify (.transfer q) Request.finishCancelled
    publish setup (.transfer q)
  else if !(← look fun s => (request (.transfer q) s).error).ok then
    countEnding q .failed
    let e ← look fun s => (request (.transfer q) s).error
    modify (.transfer q) (Request.fail · e)
    publish setup (.transfer q)
  else succeed setup q

def completeEvent (ev : CompletionEvent) : Engine T W Unit := do
  if ← look fun s => decide (ev.request ∈ s.ledger.inflight) then
    let last ← transact fun t s =>
      let (last, r) := (request (.transfer ev.request) s).onSubopComplete ev
      (last, (s.ledger.put t (.transfer ev.request) r).log t
        (.brought ev.request (.completion ev)))
    if last then
      if ← claim ev.request then finishClaimed setup ev.request

def completeEvents : List CompletionEvent → Engine T W Unit
  | [] => pure ()
  | ev :: rest => do
    completeEvent setup ev
    completeEvents rest

def poll (prov : ProviderId) (maxEvents : Nat) : Engine T W (Status × List CompletionEvent) :=
  .atom (fun t s e =>
    match e with
    | .transport a =>
      (T.poll prov maxEvents s.transport a).map fun (r, σ) =>
        (r, { s with transport := σ, ledger := s.ledger.reported t r.2 })
    | _ => none) .ret

/-- Every transport's batch, and the first error. -/
def pollAll : List ProviderId → Status → Engine T W (Status × List CompletionEvent)
  | [], polled => pure (polled, [])
  | prov :: rest, polled => do
    let (status, batch) ← poll prov setup.cfg.cqBatch
    let (polled, more) ← pollAll rest (if status ≠ .ok ∧ polled = .ok then status else polled)
    pure (polled, batch ++ more)

/-- Takes `progress_mu_`, waiting for whoever has it. -/
def lockProgress : Engine T W Unit :=
  .atom (fun t s _ =>
    if s.progressing.isSome then none else some ((), { s with progressing := some t })) .ret

def unlockProgress : Engine T W Unit := update fun s => { s with progressing := none }

def progress : Engine T W Status := do
  lockProgress
  drainPending setup
  reapDepartedPeers setup
  endNotifications setup 0 true {}
  controlLoop setup (List.range setup.providers)
  arrivalLoop setup (List.range setup.providers)
  let (polled, events) ← pollAll setup (List.range setup.providers) .ok
  completeEvents setup events
  unlockProgress
  pure polled

end

end Hux
