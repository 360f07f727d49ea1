import Hux.Interleave
import Hux.Transport
import Hux.Congestion
import Hux.Verbs

/-!
# The native RDMA provider

`RdmaProvider` and `RdmaConnection`: posting, polling, path verification and
disconnecting, for any number of connections that share one completion queue and
one congestion controller. A call is a program with one atom for each stretch of
code under a lock and for each atomic access. `qp_mu_` is held across other
locks, so it is part of the state; what it guards is read once, when it is taken.

Connections are dialled and their queue pairs registered before the model
starts; none is destroyed.
-/

namespace Hux.Rdma
open Interleave (Prog Tid)

/-- What the provider reads of `RdmaConfig`. -/
structure RdmaConfig where
  signalPeriod : Nat
  sqDepth : Nat
  depth_lt : sqDepth < 2 ^ 32
  deriving DecidableEq, Repr

def directionOf (op : SubOp) : CcDirection :=
  match op.kind with
  | .write => .write
  | .read => .read

structure InflightKey where
  request : RequestId
  subId : Nat
  isWrite : Bool
  bytes : Nat
  postedAt : CcTime
  deriving DecidableEq, Repr

def InflightKey.direction (k : InflightKey) : CcDirection := if k.isWrite then .write else .read

def inflightKey (op : SubOp) (postedAt : CcTime) : InflightKey where
  request := op.request
  subId := op.subId
  isWrite := op.kind == .write
  bytes := op.length
  postedAt := postedAt

@[simp] theorem direction_inflightKey (op : SubOp) (postedAt : CcTime) :
    (inflightKey op postedAt).direction = directionOf op := by
  unfold InflightKey.direction inflightKey directionOf
  cases op.kind <;> rfl

/-! ## State -/

structure QueuePair where
  /-- `qp->qp_num`. -/
  num : Nat
  posted : Nat := 0
  reclaimed : Nat := 0
  sinceSignal : Nat := 0
  unsignalled : List (Nat × InflightKey) := []
  deriving DecidableEq, Repr

/-- `recv_buf_` and `recv_mr_`. -/
structure RecvBuffer where
  addr : Nat
  lkey : Nat
  deriving DecidableEq, Repr

structure RdmaConnection where
  qps : List QueuePair
  nextQp : Nat := 0
  failed : Bool := false
  recv : Option RecvBuffer := none
  /-- Whether `qp_mu_` is taken. -/
  locked : Bool := false
  deriving DecidableEq, Repr

/-- `ProviderStats`; nothing is ever added to `payload_bytes_copied`. -/
structure ProviderStats where
  subopsPosted : Nat := 0
  subopsCompleted : Nat := 0
  subopsFailed : Nat := 0
  payloadBytes : Nat := 0
  deriving DecidableEq, Repr

/-- What became of an operation, by connection, queue pair and sequence number. -/
inductive Line
  | accepted (c : ConnId) (i seq : Nat) (op : SubOp) (postedAt : CcTime)
  /-- `ibv_post_send` did not take it. -/
  | refused (c : ConnId) (i seq : Nat) (op : SubOp)
  /-- Put by a thread into the events of its poll. -/
  | reported (t : Tid) (c : ConnId) (i seq : Nat) (ev : CompletionEvent)
  deriving DecidableEq

structure World (F : Type) where
  regions : List (Nat × Mr)
  nextKey : Nat
  stats : ProviderStats
  stashed : List Wc
  verifyDone : List (Nat × WcStatus)
  arrivals : List PeerArrival
  connByQp : List (Nat × ConnId)
  conns : ConnId → RdmaConnection
  cc : CongestionController F
  adapter : Adapter
  /-- Whether the engine's `progress_mu_`, under which it polls, is taken. -/
  progressing : Bool
  /-- No modelled function reads what follows. Every completion drawn from the
  queue, oldest first. -/
  arrived : List Wc
  /-- The completions of transfers that the poll in progress has not handled. -/
  polling : List Wc
  /-- Those drawn while verifying a path and not set aside yet. -/
  verifying : List Wc
  /-- Oldest first. -/
  log : List Line
  /-- How often a count of bytes in flight went past 64 bits, and how often a
  release was clamped. -/
  wraps : Nat
  clamps : Nat
  /-- The lengths counted in flight, newest first. -/
  counted : PerDirection (List Nat)

inductive Answer
  | nothing
  | time (now : CcTime)
  | code (rc : Int)
  | region (mr : Mr)
  | drawn (ds : List Delivery)
  /-- `ibv_poll_cq` returned a negative number. -/
  | undrawn
  deriving DecidableEq

abbrev Provider (F : Type) := Prog (World F) Answer

section
variable {F : Type}

def World.setConn (s : World F) (c : ConnId) (f : RdmaConnection → RdmaConnection) : World F :=
  { s with conns := Function.update s.conns c (f (s.conns c)) }

def World.setQp (s : World F) (c : ConnId) (i : Nat) (f : QueuePair → QueuePair) : World F :=
  s.setConn c fun conn => { conn with qps := conn.qps.modify i f }

/-- `qps[i]`, for an index in range. -/
def World.qp (s : World F) (c : ConnId) (i : Nat) : QueuePair :=
  (s.conns c).qps.getD i { num := 0 }

/-! ## Atoms -/

def look {α : Type} (f : World F → α) : Provider F α :=
  .atom (fun _ s _ => some (f s, s)) .ret

def exchange {α : Type} (f : World F → α × World F) : Provider F α :=
  .atom (fun _ s _ => some ((f s).1, (f s).2)) .ret

def update (f : World F → World F) : Provider F Unit := exchange fun s => ((), f s)

/-- `CcClock::now()`. -/
def clock : Provider F CcTime :=
  .atom (fun _ s e =>
    match e with
    | .time t => some (t, s)
    | _ => none) .ret

/-- A verbs call that returns a code. -/
def verb (f : World F → Int → World F) : Provider F Int :=
  .atom (fun _ s e =>
    match e with
    | .code rc => some (rc, f s rc)
    | _ => none) .ret

/-- Takes `qp_mu_` and reads what it guards. -/
def lockQp (c : ConnId) : Provider F (List QueuePair) :=
  .atom (fun _ s _ =>
    if (s.conns c).locked then none
    else some ((s.conns c).qps, s.setConn c fun conn => { conn with locked := true })) .ret

def World.unlock (s : World F) (c : ConnId) : World F :=
  s.setConn c fun conn => { conn with locked := false }

def unlockQp (c : ConnId) : Provider F Unit := update fun s => s.unlock c

def markFailed (c : ConnId) : Provider F Unit :=
  update fun s => s.setConn c fun conn => { conn with failed := true }

/-! ## Congestion control -/

section
variable [CcReal F]

def World.onPost (s : World F) (d : CcDirection) (bytes : Nat) (now : CcTime) : World F :=
  { s with
    cc := s.cc.onPost d bytes now
    wraps := if s.cc.inflightBytes d + bytes < 2 ^ 64 then s.wraps else s.wraps + 1
    counted := s.counted.modify d (bytes :: ·) }

/-- A release, and whether it is clamped. -/
def World.release (s : World F) (d : CcDirection) (bytes : Nat) (cc : CongestionController F) :
    World F :=
  { s with
    cc := cc
    clamps := if bytes ≤ s.cc.inflightBytes d then s.clamps else s.clamps + 1
    counted := s.counted.modify d (·.erase bytes) }

def ccOnPost (d : CcDirection) (bytes : Nat) (now : CcTime) : Provider F Unit :=
  update fun s => s.onPost d bytes now

def ccOnFeedback (d : CcDirection) (bytes : Nat) (rtt : Nanoseconds) (now : CcTime) :
    Provider F Unit :=
  update fun s => s.release d bytes (s.cc.onFeedback d bytes rtt now)

omit [CcReal F] in
def ccOnError (d : CcDirection) (bytes : Nat) : Provider F Unit :=
  update fun s => s.release d bytes (s.cc.onError d bytes)

end

/-! ## Regions -/

/-- The caller's pointers are there; `address` is null for 0. -/
def registerRegion (address length : Nat) : Provider F (Status × Nat × Nat) :=
  if address = 0 ∨ length = 0 then pure (.invalidArgument, 0, 0)
  else
    .atom (fun _ s e =>
      match e with
      | .region mr =>
        some ((.ok, s.nextKey, mr.rkey),
          { s with
            nextKey := u64 (s.nextKey + 1)
            regions := (s.nextKey, mr) :: s.regions.filter (·.1 ≠ s.nextKey) })
      -- `errno`, where 12 is `ENOMEM`: a registration quota.
      | .code rc => some ((if rc = 12 then .resourceExhausted else .deviceError, 0, 0), s)
      | _ => none) .ret

def deregisterRegion (localKey : Nat) : Provider F Status := do
  let mr ← exchange fun s =>
    (s.regions.lookup localKey, { s with regions := s.regions.filter (·.1 ≠ localKey) })
  match mr with
  | none => pure .notFound
  | some _ =>
    let rc ← verb fun s _ => s
    pure (if rc = 0 then .ok else .deviceError)

/-! ## Submitting -/

/-- `a - b` for `uint64_t`. -/
def sub64 (a b : Nat) : Nat := u64 (a + (2 ^ 64 - b))

def QueuePair.used (q : QueuePair) : Nat := sub64 q.posted q.reclaimed

def QueuePair.room (depth : Nat) (q : QueuePair) : Nat :=
  if q.used ≥ depth then 0 else depth - q.used

def submitCapacity (cfg : RdmaConfig) (c : ConnId) : Provider F Nat :=
  .atom (fun _ s _ =>
    if (s.conns c).locked then none
    else some (u32 ((s.conns c).qps.map (·.room cfg.sqDepth)).sum, s)) .ret

/-- One turn of the search, with the best so far and its room. -/
def pickStep (depth : Nat) (qps : List QueuePair) (nextQp : Nat) (best : Option Nat × Nat)
    (i : Nat) : Option Nat × Nat :=
  let j := (nextQp + i) % qps.length
  match qps[j]? with
  | some q => if q.room depth > best.2 then (some j, q.room depth) else best
  | none => best

/-- The queue pair with the most room, the first of equals from a rotating
offset on. -/
def pickFrom (depth : Nat) (qps : List QueuePair) (nextQp : Nat) : Option Nat :=
  ((List.range qps.length).foldl (pickStep depth qps nextQp) (none, 0)).1

/-- The caller has `qp_mu_`, under which `qps` was read. -/
def pickQueuePairLocked (cfg : RdmaConfig) (c : ConnId) (qps : List QueuePair) :
    Provider F (Option Nat) :=
  exchange fun s =>
    (pickFrom cfg.sqDepth qps (s.conns c).nextQp,
      s.setConn c fun conn => { conn with nextQp := u32 (conn.nextQp + 1) % qps.length })

/-- With the operation itself in place of its index. -/
structure Planned where
  qpIndex : Nat
  op : SubOp
  signal : Bool
  mr : Mr
  deriving DecidableEq, Repr

/-- The locals of the planning loop. -/
structure Planning where
  nextSeq : List Nat
  since : List Nat
  plan : List Planned := []
  deriving DecidableEq, Repr

def Planning.init (qps : List QueuePair) : Planning where
  nextSeq := qps.map (·.posted)
  since := qps.map (·.sinceSignal)

/-- The work requests a queue pair would then have, this one not counted. -/
def Planning.used (g : Planning) (qps : List QueuePair) (qi : Nat) : Nat :=
  sub64 (g.nextSeq.getD qi 0) (qps.getD qi { num := 0 }).reclaimed

def Planning.push (cfg : RdmaConfig) (g : Planning) (qps : List QueuePair) (qi : Nat) (op : SubOp)
    (mr : Mr) : Planning :=
  let since := g.since.getD qi 0
  let signal := decide (u32 (since + 1) ≥ cfg.signalPeriod) ||
    decide (g.used qps qi + 1 ≥ cfg.sqDepth - cfg.sqDepth / 4)
  { nextSeq := g.nextSeq.modify qi fun n => u64 (n + 1)
    since := g.since.set qi (if signal then 0 else u32 (since + 1))
    plan := g.plan ++ [{ qpIndex := qi, op, signal, mr }] }

/-- Every queue pair a batch touched ends with a signalled operation. -/
def anchored : List Planned → List Planned
  | [] => []
  | p :: rest =>
    { p with signal := p.signal || rest.all (·.qpIndex ≠ p.qpIndex) } :: anchored rest

section
variable [CcReal F]

/-- Why planning stopped, and the plan. -/
def planLoop (cfg : RdmaConfig) (c : ConnId) (qps : List QueuePair) :
    List SubOp → Planning → Provider F (Status × List Planned)
  | [], g => pure (.ok, g.plan)
  | op :: rest, g => do
    let mr ← look fun s => s.regions.lookup op.localKey
    match mr with
    | none => pure (.notFound, g.plan)
    | some mr =>
      let q ← pickQueuePairLocked cfg c qps
      match q with
      | none => pure (.wouldBlock, g.plan)
      | some qi =>
        if g.used qps qi ≥ cfg.sqDepth then pure (.wouldBlock, g.plan)
        else
          let planTime ← clock
          let verdict ← look fun s => s.cc.allow (directionOf op) op.length planTime
          if verdict ≠ .allowed then pure (.wouldBlock, g.plan)
          else
            ccOnPost (directionOf op) op.length planTime
            planLoop cfg c qps rest (g.push cfg qps qi op mr)

end

def Planned.workRequest (p : Planned) (seq : Nat) : WorkRequest where
  wrId := makeWrId p.qpIndex seq
  opcode := match p.op.kind with
    | .write => .rdmaWrite
    | .read => .rdmaRead
  signalled := p.signal
  addr := p.op.localAddr
  length := u32 p.op.length
  lkey := p.mr.lkey
  remoteAddr := p.op.remoteAddr
  rkey := u32 p.op.remoteKey

/-- `ibv_post_send`: its code, and the sequence number posted under. -/
def postSend (c : ConnId) (p : Planned) : Provider F (Int × Nat) :=
  .atom (fun _ s e =>
    match e with
    | .code rc =>
      let q := s.qp c p.qpIndex
      some ((rc, q.posted),
        if rc = 0 then { s with adapter := s.adapter.post q.num (p.workRequest q.posted) }
        else { s with log := s.log ++ [.refused c p.qpIndex q.posted p.op] })
    | _ => none) .ret

def QueuePair.record (q : QueuePair) (seq : Nat) (p : Planned) (postedAt : CcTime) : QueuePair :=
  { q with
    unsignalled := q.unsignalled ++ [(seq, inflightKey p.op postedAt)]
    posted := u64 (q.posted + 1)
    sinceSignal := if p.signal then 0 else u32 (q.sinceSignal + 1) }

def recordPost (c : ConnId) (p : Planned) (seq : Nat) (postedAt : CcTime) : Provider F Unit :=
  update fun s =>
    { s.setQp c p.qpIndex (·.record seq p postedAt) with
      log := s.log ++ [.accepted c p.qpIndex seq p.op postedAt] }

def countPosted (op : SubOp) : Provider F Unit :=
  update fun s =>
    { s with
      stats := { s.stats with
        subopsPosted := u64 (s.stats.subopsPosted + 1)
        payloadBytes := u64 (s.stats.payloadBytes + op.length) } }

/-- The result, and what of the plan was not posted. -/
def postLoop (c : ConnId) : List Planned → SubmitResult → Provider F (SubmitResult × List Planned)
  | [], r => pure (r, [])
  | p :: rest, r => do
    let (rc, seq) ← postSend c p
    if rc ≠ 0 then
      -- 12 is `ENOMEM`.
      pure ({ r with
        status := if rc = 12 then .wouldBlock else .transportError
        providerErrno := rc }, p :: rest)
    else
      let postedAt ← clock
      recordPost c p seq postedAt
      countPosted p.op
      postLoop c rest { r with accepted := u32 (r.accepted + 1) }

def releaseLoop : List Planned → Provider F Unit
  | [] => pure ()
  | p :: rest => do
    let _ ← clock
    ccOnError (directionOf p.op) p.op.length
    releaseLoop rest

section
variable [CcReal F]

def submit (cfg : RdmaConfig) (conn : Option ConnId) (ops : List SubOp) :
    Provider F SubmitResult := do
  match conn with
  | none => pure ⟨0, .invalidArgument, 0⟩
  | some c =>
    let failed ← look fun s => (s.conns c).failed
    if failed then pure ⟨0, .peerDisconnected, 0⟩
    else if ops = [] then pure ⟨0, .ok, 0⟩
    else
      let capacity ← submitCapacity cfg c
      if capacity = 0 then pure ⟨0, .wouldBlock, 0⟩
      else
        let qps ← lockQp c
        let (status, plan) ← planLoop cfg c qps ops (.init qps)
        let (r, unposted) ← postLoop c (anchored plan) ⟨0, status, 0⟩
        releaseLoop unposted
        unlockQp c
        pure r

end

/-! ## Completions -/

/-- The status reported, and whether the target may have been modified. -/
def statusFromWc : WcStatus → Status × Bool
  | .success => (.ok, false)
  | .retryExcErr | .rnrRetryExcErr => (.peerDisconnected, false)
  | .remAccessErr | .remOpErr | .remInvReqErr => (.transportError, true)
  | .wrFlushErr => (.cancelled, false)
  | .locProtErr | .locLenErr => (.invalidArgument, false)
  | _ => (.transportError, true)

def InflightKey.event (k : InflightKey) (w : Wc) : CompletionEvent where
  request := k.request
  subId := k.subId
  bytes := k.bytes
  status := (statusFromWc w.status).1
  providerErrno := w.status.number
  mayHaveModifiedTarget := (statusFromWc w.status).2 && k.isWrite

/-- Draws from the shared completion queue; `mark` says who has what was drawn. -/
def drainCq (max : Int) (mark : List Wc → World F → World F) : Provider F (Option (List Wc)) :=
  if max ≤ 0 then pure (some [])
  else
    .atom (fun _ s e =>
      match e with
      | .drawn ds =>
        if (ds.length : Int) ≤ max then
          (s.adapter.deliverAll ds).map fun x =>
            (some x.1, mark x.1 { s with adapter := x.2, arrived := s.arrived ++ x.1 })
        else none
      | .undrawn => some (none, s)
      | _ => none) .ret

def noteVerified (num : Nat) (st : WcStatus) : Provider F Unit :=
  update fun s => { s with verifyDone := (num, st) :: s.verifyDone.filter (·.1 ≠ num) }

def takeVerified (num : Nat) : Provider F (Option WcStatus) :=
  exchange fun s =>
    (s.verifyDone.lookup num, { s with verifyDone := s.verifyDone.filter (·.1 ≠ num) })

/-- `repost_receive` of the connection that a completion names, if it has one. -/
def World.repostReceive (s : World F) (num : Nat) (rc : Int) : World F :=
  match s.connByQp.lookup num with
  | none => s
  | some c =>
    match (s.conns c).recv, (s.conns c).qps.head? with
    | some _, some q => if rc = 0 then { s with adapter := s.adapter.postRecv q.num } else s
    | _, _ => s

/-- A peer's write landed. -/
def noteArrival (w : Wc) : Provider F Unit :=
  if w.status = .success ∧ w.opcode = .recvRdmaWithImm then
    update fun s => { s with arrivals := s.arrivals ++ [⟨w.immData, 0⟩] }
  else pure ()

def absorbReceive (w : Wc) : Provider F Unit := do
  noteArrival w
  if w.status ≠ .success then pure ()
  else
    let _ ← verb fun s rc => s.repostReceive w.qpNum rc
    pure ()

/-! ## Polling -/

/-- `out->clear()`, and the completions set aside while paths were verified. -/
def takeStash (max : Nat) : Provider F (List Wc) :=
  exchange fun s =>
    (s.stashed.take max,
      { s with
        stashed := s.stashed.drop max
        polling := s.polling ++ (s.stashed.take max).filter Wc.transfer })

/-- The connection that a transfer's completion belongs to. -/
def findConn (w : Wc) : Provider F (Option ConnId) :=
  exchange fun s =>
    match s.connByQp.lookup w.qpNum with
    | some c => (some c, s)
    | none => (none, { s with polling := s.polling.drop 1 })

/-- The condition of the retire loop and the pop that begins its body. -/
def popFront (c : ConnId) (i seq : Nat) : Provider F (Option (Nat × InflightKey)) :=
  exchange fun s =>
    match (s.qp c i).unsignalled with
    | [] => (none, s)
    | x :: rest =>
      if x.1 ≤ seq then (some x, s.setQp c i fun q => { q with unsignalled := rest }) else (none, s)

def World.report (s : World F) (t : Tid) (c : ConnId) (i seq : Nat) (ev : CompletionEvent) :
    World F :=
  { s with
    stats := if ev.status = .ok then
        { s.stats with subopsCompleted := u64 (s.stats.subopsCompleted + 1) }
      else { s.stats with subopsFailed := u64 (s.stats.subopsFailed + 1) }
    log := s.log ++ [.reported t c i seq ev] }

/-- Counts an event and puts it out. -/
def report (c : ConnId) (i seq : Nat) (ev : CompletionEvent) : Provider F Unit :=
  .atom (fun t s _ => some ((), s.report t c i seq ev)) .ret

/-- `q.reclaimed = seq + 1`, and `qp_mu_` is left. -/
def reclaim (c : ConnId) (i seq : Nat) : Provider F Unit :=
  update fun s =>
    { (s.setQp c i fun q => { q with reclaimed := seq + 1 }).unlock c with
      polling := s.polling.drop 1 }

/-- Leaves `qp_mu_` for an index there is no queue pair for. -/
def skipCompletion (c : ConnId) : Provider F Unit :=
  update fun s => { s.unlock c with polling := s.polling.drop 1 }

/-- Anything but success broke the connection. -/
def noteFailure (c : ConnId) (w : Wc) : Provider F Unit :=
  if w.status ≠ .success then markFailed c else pure ()

section
variable [CcReal F]

/-- Bytes are released on failure too. -/
def giveBack (key : InflightKey) (w : Wc) (completedAt : CcTime) : Provider F Unit :=
  if (statusFromWc w.status).1 = .ok then
    ccOnFeedback key.direction key.bytes (completedAt - key.postedAt) completedAt
  else ccOnError key.direction key.bytes

/-- The last argument is how many entries there are: only the holder of `qp_mu_`
adds any. -/
def retireLoop (c : ConnId) (i : Nat) (w : Wc) (completedAt : CcTime) :
    Nat → Provider F (List CompletionEvent)
  | 0 => pure []
  | n + 1 => do
    let front ← popFront c i (wrSeq w.wrId)
    match front with
    | none => pure []
    | some (seq, key) =>
      giveBack key w completedAt
      report c i seq (key.event w)
      let rest ← retireLoop c i w completedAt n
      pure (key.event w :: rest)

/-- The body of the loop over what a poll drew. -/
def handle (w : Wc) : Provider F (List CompletionEvent) := do
  if w.wrId = kVerifyWrId then
    noteVerified w.qpNum w.status
    pure []
  else if w.wrId &&& kRecvWrId ≠ 0 then
    absorbReceive w
    pure []
  else
    let conn ← findConn w
    match conn with
    | none => pure []
    | some c =>
      noteFailure c w
      let qps ← lockQp c
      match qps[wrQpIndex w.wrId]? with
      | none =>
        skipCompletion c
        pure []
      | some q =>
        let completedAt ← clock
        let evs ← retireLoop c (wrQpIndex w.wrId) w completedAt q.unsignalled.length
        reclaim c (wrQpIndex w.wrId) (wrSeq w.wrId)
        pure evs

def handleLoop : List Wc → Provider F (List CompletionEvent)
  | [] => pure []
  | w :: ws => do
    let evs ← handle w
    let more ← handleLoop ws
    pure (evs ++ more)

/-- `static_cast<int>` of a `uint32_t`. -/
def int32 (n : Nat) : Int := if u32 n < 2 ^ 31 then u32 n else (u32 n : Int) - 2 ^ 32

omit [CcReal F] in
/-- What is left of the batch to draw, after what the stash gave. -/
def drawMore (max : Int) (taken : List Wc) : Provider F (Status × List Wc) :=
  if (taken.length : Int) < max then do
    let drawn ← drainCq (max - taken.length) fun ws s =>
      { s with polling := s.polling ++ ws.filter Wc.transfer }
    match drawn with
    | none => pure (.transportError, taken)
    | some ws => pure (.ok, taken ++ ws)
  else pure (.ok, taken)

def poll (maxEvents : Nat) : Provider F (Status × List CompletionEvent) := do
  if maxEvents = 0 then pure (.ok, [])
  else
    let taken ← takeStash (int32 maxEvents).toNat
    let (polled, ws) ← drawMore (int32 maxEvents) taken
    let evs ← handleLoop ws
    pure (polled, evs)

end

/-! ## Verifying a path -/

def stashCompletion (w : Wc) : Provider F Unit :=
  update fun s => { s with stashed := s.stashed ++ [w], verifying := s.verifying.erase w }

/-- Passes on what was drawn; the status of this connection's own completion, if
it was there. -/
def passOn (mine : Nat) : List Wc → Option WcStatus → Provider F (Option WcStatus)
  | [], seen => pure seen
  | w :: ws, seen => do
    if w.wrId = kVerifyWrId then
      if w.qpNum = mine then passOn mine ws (some w.status)
      else
        noteVerified w.qpNum w.status
        passOn mine ws seen
    else if w.wrId &&& kRecvWrId ≠ 0 then
      absorbReceive w
      passOn mine ws seen
    else
      stashCompletion w
      passOn mine ws seen

def proved (st : WcStatus) : Status := if st = .success then .ok else .transportError

/-- The loop, for at most so many rounds: the clock decides how many there are. -/
def verifyLoop (mine : Nat) (deadline : CcTime) : Nat → Provider F Status
  | 0 => pure .timeout
  | n + 1 => do
    let now ← clock
    if now ≥ deadline then pure .timeout
    else
      let done ← takeVerified mine
      match done with
      | some st => pure (proved st)
      | none =>
        let drawn ← drainCq 8 fun ws s =>
          { s with verifying := s.verifying ++ ws.filter Wc.transfer }
        match drawn with
        | none => pure .transportError
        | some ws =>
          let seen ← passOn mine ws none
          match seen with
          | some st => pure (proved st)
          | none => verifyLoop mine deadline n

def verifyPath (c : ConnId) (timeoutMs : Int) (rounds : Nat) : Provider F Status := do
  let conn ← look fun s => s.conns c
  match conn.qps.head?, conn.recv with
  | some q, some buf =>
    let rc ← verb fun s rc =>
      if rc = 0 then
        { s with
          adapter := s.adapter.post q.num
            { wrId := kVerifyWrId, opcode := .send, signalled := true, addr := buf.addr
              length := 8, lkey := buf.lkey } }
      else s
    if rc ≠ 0 then pure .transportError
    else
      let start ← clock
      verifyLoop q.num (start + timeoutMs * 1000000) rounds
  | _, _ => pure .unsupported

/-! ## Disconnecting -/

/-- `ibv_modify_qp` to the error state, queue pair by queue pair. -/
def errorLoop : List QueuePair → Status → Provider F Status
  | [], first => pure first
  | _ :: rest, first => do
    let rc ← verb fun s _ => s
    errorLoop rest (if rc ≠ 0 ∧ first = .ok then .transportError else first)

def disconnect (conn : Option ConnId) : Provider F Status := do
  match conn with
  | none => pure .invalidArgument
  | some c =>
    markFailed c
    let qps ← lockQp c
    let first ← errorLoop qps .ok
    unlockQp c
    pure first

/-! ## Calls -/

inductive Call
  | registerRegion (address length : Nat)
  | deregisterRegion (localKey : Nat)
  | submit (conn : Option ConnId) (ops : List SubOp)
  /-- The engine's progress turn polls, one turn at a time. -/
  | poll (maxEvents : Nat)
  | verifyPath (c : ConnId) (timeoutMs : Int) (rounds : Nat)
  | disconnect (conn : Option ConnId)
  deriving DecidableEq

inductive Reply
  | status (s : Status)
  | registered (s : Status) (localKey remoteKey : Nat)
  | submitted (r : SubmitResult)
  | polled (s : Status) (evs : List CompletionEvent)
  deriving DecidableEq

/-- `progress_mu_` is taken, and left. -/
def enterTurn : Provider F Unit :=
  .atom (fun _ s _ =>
    if s.progressing then none else some ((), { s with progressing := true })) .ret

def leaveTurn : Provider F Unit := update fun s => { s with progressing := false }

variable [CcReal F]

def turn (maxEvents : Nat) : Provider F (Status × List CompletionEvent) := do
  enterTurn
  let r ← poll maxEvents
  leaveTurn
  pure r

def body (cfg : RdmaConfig) : Call → Provider F Reply
  | .registerRegion address length => do
    let (s, lk, rk) ← registerRegion address length
    pure (.registered s lk rk)
  | .deregisterRegion key => do
    let s ← deregisterRegion key
    pure (.status s)
  | .submit conn ops => do
    let r ← submit cfg conn ops
    pure (.submitted r)
  | .poll maxEvents => do
    let (s, evs) ← turn maxEvents
    pure (.polled s evs)
  | .verifyPath c timeoutMs rounds => do
    let s ← verifyPath c timeoutMs rounds
    pure (.status s)
  | .disconnect conn => do
    let s ← disconnect conn
    pure (.status s)

end

/-! ## The start -/

/-- The queue pair numbers of the connections there are. Verbs gives no number
twice. -/
structure Dialled where
  nums : List (List Nat)
  distinct : nums.flatten.Nodup

/-- What `register_conn` made of it. -/
def Dialled.connByQp (d : Dialled) : List (Nat × ConnId) :=
  d.nums.zipIdx.flatMap fun x => x.1.map (·, x.2)

def Dialled.conn (d : Dialled) (recv : ConnId → Option RecvBuffer) (c : ConnId) :
    RdmaConnection where
  qps := (d.nums.getD c []).map fun num => { num }
  recv := recv c

/-- Before anything is posted. -/
def World.start {F : Type} (d : Dialled) (recv : ConnId → Option RecvBuffer)
    (receives : Nat → Nat) (regions : List (Nat × Mr)) (nextKey : Nat)
    (cc : CongestionController F) : World F where
  regions := regions
  nextKey := nextKey
  stats := {}
  stashed := []
  verifyDone := []
  arrivals := []
  connByQp := d.connByQp
  conns := d.conn recv
  cc := cc
  adapter := fun num => { receives := receives num }
  progressing := false
  arrived := []
  polling := []
  verifying := []
  log := []
  wraps := 0
  clamps := 0
  counted := ⟨[], []⟩

/-! ## A small provider -/

namespace Bench

/-- Two connections of one queue pair each. -/
def dialled : Dialled := ⟨[[1], [2]], by decide⟩

/-- Every work request is signalled. -/
def eager : RdmaConfig := ⟨1, 4, by decide⟩

/-- Every sixteenth is, and the last one of a batch. -/
def sparing : RdmaConfig := ⟨16, 64, by decide⟩

def world (cc : CongestionController ℚ) : World ℚ :=
  .start dialled (fun _ => some ⟨4096, 9⟩) (fun _ => 0) [(1, ⟨11, 12⟩)] 2 cc

def write (subId length : Nat) : SubOp := ⟨.write, 1, subId, 256, 1, 512, 12, length⟩

end Bench

end Hux.Rdma
