import Mathlib.Data.Finset.Card
import Hux.Interleave
import Hux.Control
import Hux.Request

/-!
# The ledger of requests

What the engine keeps about requests: the objects, which of them are in flight
or waiting for an acknowledgement, the work still to be posted, and the
counters. `trace` is a history of what was done to them and by which thread,
newest first; no modelled function reads it.
-/

namespace Hux
open Interleave (Tid)

/-- A request object. Transfers and notifications take their numbers from one
counter. -/
inductive Handle
  | transfer (q : RequestId)
  | note (q : RequestId)
  deriving DecidableEq, Repr

inductive Outcome
  | succeeded | failed | cancelled
  deriving DecidableEq, Repr

def Outcome.state : Outcome → RequestState
  | .succeeded => .succeeded
  | .failed => .failed
  | .cancelled => .cancelled

/-- A lane's work that has not been posted. Work is only ever put off with
something left in it. -/
structure PendingSubmit where
  req : RequestId
  ops : List SubOp
  left : ops ≠ []
  conn : Option ConnId
  peer : PeerId
  provider : ProviderId
  after : List (Option EventId)
  deriving DecidableEq

/-- What is left once the first `n` operations are taken, if anything is. -/
def PendingSubmit.rest (p : PendingSubmit) (n : Nat) : Option PendingSubmit :=
  if h : p.ops.drop n = [] then none else some { p with ops := p.ops.drop n, left := h }

/-- What can give a request its first error: a dependency of it failed, a lane of
it was refused with so many of its operations counted as accepted, or an event
of it came in. -/
inductive News
  | dependency
  | refusal (outstanding : Nat)
  | completion (ev : CompletionEvent)
  deriving DecidableEq

inductive Event
  /-- Put into `inflight_`, holding these regions, split into these. -/
  | admitted (q : RequestId) (regions : List RegionId) (ops : List SubOp)
  /-- Taken out of `inflight_` by `claim`, or by the reaper. -/
  | claimed (q : RequestId)
  | reaped (q : RequestId)
  /-- Counted in `requests_accepted`, and with how it ended. -/
  | accepted (q : RequestId)
  | counted (q : RequestId) (o : Outcome)
  | ended (h : Handle) (s : RequestState)
  | staged (h : Handle) (s : Stage)
  | published (h : Handle)
  /-- A lane found the request not abandoned and goes on to post; and its
  submission has been added up. -/
  | cleared (q : RequestId)
  | settled (q : RequestId)
  /-- An operation of a lane of `q` handed to a provider. -/
  | offered (q : RequestId) (op : SubOp) (taken : Bool)
  | reported (ev : CompletionEvent)
  /-- The request was told the news. -/
  | brought (q : RequestId) (news : News)
  | handoff (q : RequestId) (body : ReadyHandoffBody)
  /-- The cancel flag as the thread that claimed the request read it. -/
  | cancelRead (q : RequestId) (flag : Bool)
  /-- A cancellation accepted before the request had ended. -/
  | cancelled (h : Handle)
  /-- Taken out of `notify_pending_` for its acknowledgement. -/
  | acking (q : RequestId)
  /-- Every notification whose caller cancelled was taken out of there. -/
  | swept
  | deregistered (region : RegionId)
  deriving DecidableEq

/-- What changes in a request are worth a line of the history: that it ended,
and the stages it reached. -/
def changes (h : Handle) (r r' : Request) : List Event :=
  (if !r.terminal && r'.terminal then [.ended h r'.state] else []) ++
    ([Stage.accepted, .sourceReusable, .transferComplete, .targetReady, .failedSafe,
      .cancelledSafe].filter fun s => s ∈ r'.stages ∧ s ∉ r.stages).map (.staged h)

structure Ledger where
  reqs : Handle → Request
  inflight : Finset RequestId
  pending : List PendingSubmit
  notifyPending : List (Nat × RequestId)
  nextRequest : RequestId
  /-- `MemoryRegionImpl::retired_`, by handle. -/
  retired : RegionId → Bool
  accepted : Nat
  succeeded : Nat
  failed : Nat
  cancelled : Nat
  trace : List (Tid × Event)

namespace Ledger

@[simps] def log (l : Ledger) (t : Tid) (e : Event) : Ledger :=
  { l with trace := (t, e) :: l.trace }

/-- A request as a method left it. -/
@[simps] def put (l : Ledger) (t : Tid) (h : Handle) (r : Request) : Ledger :=
  { l with
    reqs := Function.update l.reqs h r
    trace := (changes h (l.reqs h) r).map (t, ·) ++ l.trace }

/-- `next_request_.fetch_add(1)`. -/
@[simps] def nextId (l : Ledger) : Ledger := { l with nextRequest := l.nextRequest + 1 }

/-- `inflight_[req_id] = req`. -/
def enter (l : Ledger) (t : Tid) (q : RequestId) (r : Request) (ops : List SubOp) : Ledger :=
  ({ l.put t (.transfer q) r with inflight := insert q l.inflight }).log t
    (.admitted q r.heldRegions ops)

@[simps] def countAccepted (l : Ledger) (t : Tid) (q : RequestId) : Ledger :=
  { l with accepted := l.accepted + 1, trace := (t, .accepted q) :: l.trace }

@[simps] def count (l : Ledger) (t : Tid) (q : RequestId) (o : Outcome) : Ledger :=
  { l with
    succeeded := l.succeeded + if o = .succeeded then 1 else 0
    failed := l.failed + if o = .failed then 1 else 0
    cancelled := l.cancelled + if o = .cancelled then 1 else 0
    trace := (t, .counted q o) :: l.trace }

@[simps] def defer (l : Ledger) (ps : List PendingSubmit) : Ledger :=
  { l with pending := l.pending ++ ps }

@[simps] def drained (l : Ledger) : Ledger := { l with pending := [] }

/-- `inflight_.erase(id)`, for a request that is there. -/
@[simps] def claim (l : Ledger) (t : Tid) (q : RequestId) : Ledger :=
  { l with inflight := l.inflight.erase q, trace := (t, .claimed q) :: l.trace }

/-- The requests of a peer that are in flight. -/
def stranded (l : Ledger) (peer : PeerId) : Finset RequestId :=
  l.inflight.filter fun q => (l.reqs (.transfer q)).peer = peer

@[simps] def reap (l : Ledger) (t : Tid) (qs : List RequestId) : Ledger :=
  { l with
    inflight := l.inflight \ qs.toFinset
    trace := qs.map (fun q => (t, .reaped q)) ++ l.trace }

@[simps] def reported (l : Ledger) (t : Tid) (evs : List CompletionEvent) : Ledger :=
  { l with trace := evs.map (fun ev => (t, .reported ev)) ++ l.trace }

/-- `cancel()`, and whether it was accepted before the end. -/
def cancel (l : Ledger) (t : Tid) (h : Handle) : Status × Ledger :=
  let (s, r) := (l.reqs h).cancel
  if (l.reqs h).terminal then (s, l) else (s, (l.put t h r).log t (.cancelled h))

@[simps] def retire (l : Ledger) (region : RegionId) : Ledger :=
  { l with retired := Function.update l.retired region true }

/-- Whether a request in flight uses the region. -/
def uses (l : Ledger) (region : RegionId) : Bool :=
  decide (∃ q ∈ l.inflight, region ∈ (l.reqs (.transfer q)).heldRegions)

/-- `notify_pending_[id] = req`. -/
def awaitAck (l : Ledger) (t : Tid) (id : Nat) (q : RequestId) (r : Request) : Ledger :=
  { l.put t (.note q) r with notifyPending := l.notifyPending.filter (·.1 ≠ id) ++ [(id, q)] }

@[simps] def forgetNotes (l : Ledger) (gone : Nat × RequestId → Bool) : Ledger :=
  { l with notifyPending := l.notifyPending.filter fun n => !gone n }

/-- Those whose caller cancelled. -/
@[simps] def sweep (l : Ledger) (t : Tid) : Ledger :=
  { l with
    notifyPending := l.notifyPending.filter fun n => !(l.reqs (.note n.2)).cancelRequested
    trace := (t, .swept) :: l.trace }

end Ledger

end Hux
