import Hux.Calls

/-!
# What threads do to requests

A thread inside a call holds resources: a lane's work, an event it polled, a
request it claimed. `Deed` says what can be done to one transfer, for which
resources; `Move` is a step of a thread as far as requests and transports are
concerned. Whether the engine's programs keep to these is the matter of
`Discipline`; what follows from keeping to them is that of the later modules.
-/

namespace Hux
open Interleave (Tid)

/-- How far the thread that took a request out of `inflight_` has got. -/
inductive Phase
  /-- Found idle by its last lane, or complete by its last event. -/
  | claimed (idle : Bool)
  /-- It read the cancel flag, set or not. -/
  | cancelling | uncancelled (idle : Bool)
  /-- It read the flag not set, and no error; and an error. -/
  | succeeding | failing
  | reaped
  | counted (o : Outcome) (reaped : Bool)
  | ended (o : Outcome)
  deriving DecidableEq

/-- How a request will end, once the thread in that phase counts it, and whether
that is for its peer's departure. -/
def Phase.Decides : Phase → Outcome → Bool → Prop
  | .cancelling, o, gone => o = .cancelled ∧ gone = false
  | .uncancelled true, o, gone | .failing, o, gone => o = .failed ∧ gone = false
  | .succeeding, o, gone => o = .succeeded ∧ gone = false
  | .reaped, o, gone => o = .failed ∧ gone = true
  | _, _, _ => False

inductive Res
  /-- A number from `next_request_` not used yet. -/
  | ticket (q : RequestId)
  /-- In flight but not in `requests_accepted` yet. -/
  | uncounted (q : RequestId)
  /-- In flight but not made into lanes' work yet. -/
  | unsplit (q : RequestId) (ops : List SubOp)
  | part (p : PendingSubmit)
  /-- The first `n` operations are with the provider; and one more is, but not
  in its books. -/
  | posting (p : PendingSubmit) (n : Nat)
  | landing (p : PendingSubmit) (n : Nat)
  /-- A lane with nothing left to post that has not said so. -/
  | spent (q : RequestId)
  /-- It was the last lane; and the request is abandoned; and nothing of it is
  outstanding. -/
  | lastPart (q : RequestId)
  | abandoned (q : RequestId)
  | idle (q : RequestId)
  /-- Polled; and its request found in flight. -/
  | event (ev : CompletionEvent)
  | found (ev : CompletionEvent)
  | lastEvent (q : RequestId)
  | ending (t : Tid) (q : RequestId) (ph : Phase)
  /-- A notification taken for its acknowledgement. -/
  | acking (q : RequestId)
  | retiring (region : RegionId)
  /-- What a call that succeeded leaves behind. -/
  | admittedBy (t : Tid) (q : RequestId) (regions : List RegionId)
  | deregisteredBy (t : Tid) (region : RegionId)
  deriving DecidableEq

/-- The lanes' work, as resources of whoever has it in hand. -/
def work (ps : List PendingSubmit) : Multiset Res := ps.map Res.part

@[simp] theorem work_nil : work [] = 0 := rfl

theorem work_cons (p : PendingSubmit) (ps : List PendingSubmit) :
    work (p :: ps) = work ps + {.part p} := by
  rw [add_comm, Multiset.singleton_add]
  rfl

theorem work_append (ps ps' : List PendingSubmit) : work (ps ++ ps') = work ps + work ps' := by
  simp [work]

@[simp] theorem work_singleton (p : PendingSubmit) : work [p] = {.part p} := rfl

/-- Events polled and not handled yet. -/
def events (evs : List CompletionEvent) : Multiset Res := evs.map Res.event

theorem events_append (evs more : List CompletionEvent) :
    events (evs ++ more) = events evs + events more := by
  simp [events]

theorem events_cons (ev : CompletionEvent) (evs : List CompletionEvent) :
    events (ev :: evs) = events evs + {.event ev} := by
  rw [add_comm, Multiset.singleton_add]
  rfl

/-- Requests taken from a departed peer, none of them ended yet. -/
def stranding (t : Tid) (qs : List RequestId) : Multiset Res := qs.map (Res.ending t · .reaped)

theorem stranding_cons (t : Tid) (q : RequestId) (qs : List RequestId) :
    stranding t (q :: qs) = stranding t qs + {.ending t q .reaped} := by
  rw [add_comm, Multiset.singleton_add]
  rfl

/-- A lane once its submission has been added up. -/
def settled (p : PendingSubmit) (accepted : Nat) : Res :=
  match p.rest accepted with
  | some later => .part later
  | none => .spent p.req

/-- The transfer a resource is about. -/
def Res.about : Res → Option RequestId
  | .ticket q | .uncounted q | .unsplit q _ | .spent q | .lastPart q | .abandoned q | .idle q
  | .lastEvent q | .ending _ q _ | .admittedBy _ q _ => some q
  | .part p | .posting p _ | .landing p _ => some p.req
  | .event ev | .found ev => some ev.request
  | .acking _ | .retiring _ | .deregisteredBy _ _ => none

/-- The transfer a line of the history is about. -/
def Event.about : Event → Option RequestId
  | .admitted q _ _ | .claimed q | .reaped q | .accepted q | .counted q _ | .cleared q | .settled q
  | .offered q _ _ | .brought q _ | .handoff q _ | .cancelRead q _ => some q
  | .ended (.transfer q) _ | .staged (.transfer q) _ | .published (.transfer q)
  | .cancelled (.transfer q) => some q
  | .reported ev => some ev.request
  | _ => none

/-- A transfer as its constructor makes it. -/
structure Request.New (r : Request) (ops : List SubOp) : Prop where
  made : r.made = true
  total : r.totalSubops = u32 ops.length
  state : r.state = .queued
  completed : r.completedSubops = 0
  accepted : r.acceptedSubops = 0
  unsealed : r.sealed = false
  parts : r.partsLeft = 0
  uncancelled : r.cancelRequested = false
  stages : r.stages = {.accepted}
  error : r.error = {}

/-- An error the news is for says that the target was not modified. -/
@[simp] def News.unflagged : News → Bool
  | .dependency => true
  | .refusal outstanding => outstanding == 0
  | .completion ev => ev.status != .ok && !ev.mayHaveModifiedTarget

/-- The method that ends a request with an outcome. The reaper brings an error,
which says of a write that the target may have been modified. -/
def Finishes (o : Outcome) (reaped : Bool) (r r' : Request) : Prop :=
  match o with
  | .succeeded => r' = r.finishSuccess
  | .failed => ∃ e, r' = r.fail e ∧ (reaped = true → e.ok = false ∧
      (r.kind = .write → e.mayHaveModifiedTarget = true))
  | .cancelled => r' = r.finishCancelled

/-- What thread `t` can do to transfer `q`: from its object, whether it is in
flight, and the resources the thread gives up, to those after, with what goes
into the history. -/
inductive Deed (t : Tid) (q : RequestId) :
    Request → Bool → Multiset Res → Request → Bool → Multiset Res → List Event → Prop
  | admission {r₀ r : Request} {fl : Bool} {ops : List SubOp} (new : r.New ops)
      (mine : ∀ op ∈ ops, op.request = q) :
      Deed t q r₀ fl {.ticket q} r true
        ({.admittedBy t q r.heldRegions} + {.unsplit q ops} + {.uncounted q})
        [.admitted q r.heldRegions ops]
  | accept {r : Request} {fl : Bool} : Deed t q r fl {.uncounted q} r fl 0 [.accepted q]
  | split {r : Request} {fl : Bool} {ops : List SubOp} {parts : List PendingSubmit}
      (all : parts.flatMap (·.ops) = ops) (mine : ∀ p ∈ parts, p.req = q) :
      Deed t q r fl {.unsplit q ops} (r.setParts (u32 parts.length)) fl (work parts) []
  | setState {r : Request} {fl : Bool} {x : Res} {s : RequestState} (mine : x.about = some q)
      (held : ∃ p n, x = .part p ∨ x = .posting p n) (going : isTerminal s = false) :
      Deed t q r fl {x} (r.setState s) fl {x} []
  | noteError {r : Request} {fl : Bool} {p : PendingSubmit} {e : ErrorInfo} {news : News}
      (mine : p.req = q) (flagged : news.unflagged = false → e.mayHaveModifiedTarget = true) :
      Deed t q r fl {.part p} (r.noteError e) fl {.part p} [.brought q news]
  | clear {r : Request} {fl : Bool} {p : PendingSubmit} (mine : p.req = q)
      (going : r.abandoning = false) :
      Deed t q r fl {.part p} r fl {.posting p 0} [.cleared q]
  | offer {r : Request} {fl : Bool} {p : PendingSubmit} {n : Nat} {op : SubOp} {taken : Bool}
      (mine : p.req = q) (next : p.ops[n]? = some op) :
      Deed t q r fl {.posting p n} r fl {if taken then .landing p n else .posting p n}
        [.offered q op taken]
  | settle {r : Request} {fl : Bool} {p : PendingSubmit} {n : Nat} (mine : p.req = q) :
      Deed t q r fl {.posting p n} (r.addAcceptedSubops (u32 n)) fl
        {settled p (u32 n)} [.settled q]
  | finishPart {r : Request} {fl : Bool} {x : Res}
      (lane : x = .spent q ∨ ∃ p, p.req = q ∧ x = .part p) :
      Deed t q r fl {x} r.partFinished.2 fl (if r.partFinished.1 then {.lastPart q} else 0) []
  | giveUp {r : Request} {fl : Bool} (going : r.abandoning = false) :
      Deed t q r fl {.lastPart q} r fl 0 []
  | sawAbandoning {r : Request} {fl : Bool} (stopped : r.abandoning = true) :
      Deed t q r fl {.lastPart q} r fl {.abandoned q} []
  | sealIfIdle {r : Request} {fl : Bool} :
      Deed t q r fl {.abandoned q} r.sealIfIdle.2 fl (if r.sealIfIdle.1 then {.idle q} else 0) []
  | claim {r : Request} {x : Res} {idle : Bool}
      (last : x = .idle q ∧ idle = true ∨ x = .lastEvent q ∧ idle = false) :
      Deed t q r true {x} r false {.ending t q (.claimed idle)} [.claimed q]
  | missed {r : Request} {x : Res} (last : x = .idle q ∨ x = .lastEvent q) :
      Deed t q r false {x} r false 0 []
  | readCancel {r : Request} {fl idle : Bool} :
      Deed t q r fl {.ending t q (.claimed idle)} r fl
        {.ending t q (if r.cancelRequested then .cancelling else .uncancelled idle)}
        [.cancelRead q r.cancelRequested]
  | readError {r : Request} {fl : Bool} :
      Deed t q r fl {.ending t q (.uncancelled false)} r fl
        {.ending t q (if r.error.ok then .succeeding else .failing)} []
  | count {r : Request} {fl reaped : Bool} {ph : Phase} {o : Outcome}
      (decided : ph.Decides o reaped) :
      Deed t q r fl {.ending t q ph} r fl {.ending t q (.counted o reaped)} [.counted q o]
  | mark {r : Request} {fl : Bool} {s : Stage} (stage : s = .transferComplete ∨ s = .targetReady) :
      Deed t q r fl {.ending t q .succeeding} (r.markStage s) fl {.ending t q .succeeding} []
  | handoff {r : Request} {fl : Bool} {b : ReadyHandoffBody} :
      Deed t q r fl {.ending t q .succeeding} r fl {.ending t q .succeeding} [.handoff q b]
  | sealReaped {r : Request} {fl : Bool} :
      Deed t q r fl {.ending t q .reaped} r.sealAccepted fl {.ending t q .reaped} []
  | finish {r r' : Request} {fl reaped : Bool} {o : Outcome} (how : Finishes o reaped r r') :
      Deed t q r fl {.ending t q (.counted o reaped)} r' fl {.ending t q (.ended o)} []
  | publish {r : Request} {fl : Bool} {o : Outcome} :
      Deed t q r fl {.ending t q (.ended o)} r fl 0 [.published (.transfer q)]
  | dropEvent {r : Request} {ev : CompletionEvent} (mine : ev.request = q) :
      Deed t q r false {.event ev} r false 0 []
  | find {r : Request} {ev : CompletionEvent} (mine : ev.request = q) :
      Deed t q r true {.event ev} r true {.found ev} []
  | complete {r : Request} {fl : Bool} {ev : CompletionEvent} (mine : ev.request = q) :
      Deed t q r fl {.found ev} (r.onSubopComplete ev).2 fl
        (if (r.onSubopComplete ev).1 then {.lastEvent q} else 0) [.brought q (.completion ev)]
  | cancel {r : Request} {fl : Bool} (made : r.made = true) (live : r.terminal = false) :
      Deed t q r fl 0 r.cancel.2 fl 0 [.cancelled (.transfer q)]

/-- What thread `t` can do to notification `q`. -/
inductive NoteDeed (t : Tid) (q : RequestId) :
    Request → Multiset Res → Request → Multiset Res → List Event → Prop
  | make {r₀ r : Request} (state : r.state = .waitNotifyAck)
      (uncancelled : r.cancelRequested = false)
      (stages : r.stages = {.accepted}) : NoteDeed t q r₀ {.ticket q} r 0 []
  | takeAck {r : Request} : NoteDeed t q r 0 r {.acking q} [.acking q]
  | mark {r : Request} : NoteDeed t q r 0 (r.markStage .transferComplete) 0 []
  | acknowledge {r : Request} : NoteDeed t q r {.acking q} r.finishSuccess 0 []
  | fail {r : Request} {e : ErrorInfo} : NoteDeed t q r 0 (r.fail e) 0 []
  | finishCancelled {r : Request} : NoteDeed t q r 0 r.finishCancelled 0 []
  | publish {r : Request} : NoteDeed t q r 0 r 0 [.published (.note q)]
  | cancel {r : Request} (made : r.made = true) (live : r.terminal = false) :
      NoteDeed t q r 0 r.cancel.2 0 [.cancelled (.note q)]

/-- A call of a transport that neither offers an operation nor reports one. -/
inductive Touched (T : Transport) : T.State → T.State → Prop
  | refl {σ : T.State} : Touched T σ σ
  | finish {σ σ' : T.State} {p : ProviderId} {c : Option ConnId} {n : Nat} {b : Bool} {a : T.Answer}
      {r : Status × Int} : T.finish p c n b σ a = some (r, σ') → Touched T σ σ'
  | sendControl {σ σ' : T.State} {p : ProviderId} {c : Option ConnId} {k : ControlType}
      {b : Wire.Bytes} {a : T.Answer} {r : Status} :
      T.sendControl p c k b σ a = some (r, σ') → Touched T σ σ'
  | broadcastControl {σ σ' : T.State} {p : ProviderId} {k : ControlType} {b : Wire.Bytes}
      {a : T.Answer} {r : Status × Nat × Nat} :
      T.broadcastControl p k b σ a = some (r, σ') → Touched T σ σ'
  | pollControl {σ σ' : T.State} {p : ProviderId} {n : Nat} {a : T.Answer}
      {r : Status × List ControlMessage} : T.pollControl p n σ a = some (r, σ') → Touched T σ σ'
  | pollPeerArrivals {σ σ' : T.State} {p : ProviderId} {n : Nat} {a : T.Answer}
      {r : Status × List PeerArrival} : T.pollPeerArrivals p n σ a = some (r, σ') → Touched T σ σ'
  | connect {σ σ' : T.State} {p : ProviderId} {c : ConnId} {b : Wire.Bytes} {a : T.Answer}
      {r : Status} : T.connect p c b σ a = some (r, σ') → Touched T σ σ'
  | disconnect {σ σ' : T.State} {p : ProviderId} {c : ConnId} {a : T.Answer} {r : Status} :
      T.disconnect p c σ a = some (r, σ') → Touched T σ σ'
  | environment {σ σ' : T.State} {a : T.Answer} : T.environment σ a = some σ' → Touched T σ σ'

namespace Ledger

/-- A deed entered in the ledger. -/
@[simps] def apply (l : Ledger) (t : Tid) (q : RequestId) (r : Request) (fl : Bool)
    (evs : List Event) : Ledger :=
  { l with
    reqs := Function.update l.reqs (.transfer q) r
    inflight := if fl then insert q l.inflight else l.inflight.erase q
    accepted := l.accepted + evs.count (.accepted q)
    succeeded := l.succeeded + evs.count (.counted q .succeeded)
    failed := l.failed + evs.count (.counted q .failed)
    cancelled := l.cancelled + evs.count (.counted q .cancelled)
    trace := evs.map (t, ·) ++ ((changes (.transfer q) (l.reqs (.transfer q)) r).map (t, ·) ++
      l.trace) }

/-- A notification's deed; what is pending may change with it. -/
@[simps] def applyNote (l : Ledger) (t : Tid) (q : RequestId) (r : Request) (evs : List Event)
    (pending : List (Nat × RequestId)) : Ledger :=
  { l with
    reqs := Function.update l.reqs (.note q) r
    notifyPending := pending
    trace := evs.map (t, ·) ++ ((changes (.note q) (l.reqs (.note q)) r).map (t, ·) ++ l.trace) }

def flying (l : Ledger) (q : RequestId) : Bool := decide (q ∈ l.inflight)

end Ledger

/-- A step of thread `t`, with the resources it gives up and those it gets. -/
inductive Move (T : Transport) (t : Tid) :
    Ledger × T.State → Multiset Res → Ledger × T.State → Multiset Res → Prop
  | touch {l : Ledger} {σ σ' : T.State} (touched : Touched T σ σ') : Move T t (l, σ) 0 (l, σ') 0
  | deed {l : Ledger} {σ σ' : T.State} {q : RequestId} {r : Request} {fl : Bool}
      {X X' : Multiset Res} {evs : List Event}
      (deed : Deed t q (l.reqs (.transfer q)) (l.flying q) X r fl X' evs)
      (touched : Touched T σ σ')
      (live : ∀ regions ops, .admitted q regions ops ∈ evs → ∀ R ∈ regions, l.retired R = false) :
      Move T t (l, σ) X (l.apply t q r fl evs, σ') X'
  | offer {l : Ledger} {σ σ' : T.State} {p : PendingSubmit} {n : Nat} {op : SubOp} {taken : Bool}
      {a : T.Answer} (next : p.ops[n]? = some op)
      (answer : T.offer p.provider p.conn op σ a = some (taken, σ')) :
      Move T t (l, σ) {.posting p n} (l.log t (.offered p.req op taken), σ')
        {if taken then .landing p n else .posting p n}
  | land {l : Ledger} {σ : T.State} {p : PendingSubmit} {n : Nat} {op : SubOp}
      (next : p.ops[n]? = some op) :
      Move T t (l, σ) {.landing p n} (l, T.land p.provider p.conn op σ) {.posting p (n + 1)}
  | poll {l : Ledger} {σ σ' : T.State} {p : ProviderId} {n : Nat} {a : T.Answer} {s : Status}
      {evs : List CompletionEvent} (answer : T.poll p n σ a = some ((s, evs), σ')) :
      Move T t (l, σ) 0 (l.reported t evs, σ') (events evs)
  | reap {l : Ledger} {σ : T.State} {peer : PeerId} {qs : List RequestId} (distinct : qs.Nodup)
      (all : qs.toFinset = l.stranded peer) :
      Move T t (l, σ) 0 (l.reap t qs, σ) (stranding t qs)
  | nextId {l : Ledger} {σ : T.State} :
      Move T t (l, σ) 0 (l.nextId, σ) {.ticket l.nextRequest}
  | defer {l : Ledger} {σ : T.State} {ps : List PendingSubmit} :
      Move T t (l, σ) (work ps) (l.defer ps, σ) 0
  | drain {l : Ledger} {σ : T.State} {ps : List PendingSubmit} (perm : ps.Perm l.pending) :
      Move T t (l, σ) 0 (l.drained, σ) (work ps)
  | retire {l : Ledger} {σ : T.State} {region : RegionId} :
      Move T t (l, σ) 0 (l.retire region, σ) {.retiring region}
  | deregister {l : Ledger} {σ : T.State} {region : RegionId} (free : l.uses region = false) :
      Move T t (l, σ) {.retiring region} (l.log t (.deregistered region), σ)
        {.deregisteredBy t region}
  | note {l : Ledger} {σ : T.State} {q : RequestId} {r : Request} {X X' : Multiset Res}
      {evs : List Event} {pending : List (Nat × RequestId)}
      (deed : NoteDeed t q (l.reqs (.note q)) X r X' evs)
      (kept : ∀ n ∈ pending, n ∈ l.notifyPending ∨ n.2 = q ∧ .ticket q ∈ X)
      (listed : .acking q ∈ evs → ∃ n ∈ l.notifyPending, n.2 = q) :
      Move T t (l, σ) X (l.applyNote t q r evs pending, σ) X'
  | forget {l : Ledger} {σ : T.State} {gone : Nat × RequestId → Bool} :
      Move T t (l, σ) 0 (l.forgetNotes gone, σ) 0
  | sweep {l : Ledger} {σ : T.State} : Move T t (l, σ) 0 (l.sweep t, σ) 0

/-! ## The ledger's functions as deeds -/

theorem changes_self (h : Handle) (r : Request) : changes h r r = [] := by
  simp [changes]

namespace Ledger
variable (l : Ledger) (t : Tid) (q : RequestId)

theorem flying_inflight : (if l.flying q then insert q l.inflight else l.inflight.erase q)
    = l.inflight := by
  by_cases h : q ∈ l.inflight <;> simp [flying, h]

/-- A method that leaves the request where it is. -/
theorem put_eq_apply (r : Request) : l.put t (.transfer q) r = l.apply t q r (l.flying q) [] := by
  simp [put, apply, flying_inflight]

theorem put_log_eq_apply (r : Request) (e : Event) (h : e ≠ .accepted q)
    (h' : ∀ o, e ≠ .counted q o) :
    (l.put t (.transfer q) r).log t e = l.apply t q r (l.flying q) [e] := by
  simp [put, log, apply, flying_inflight, h, h']

theorem self_eq_apply : l = l.apply t q (l.reqs (.transfer q)) (l.flying q) [] := by
  simp [apply, flying_inflight, changes_self]

theorem log_eq_apply (e : Event) (h : e ≠ .accepted q) (h' : ∀ o, e ≠ .counted q o) :
    l.log t e = l.apply t q (l.reqs (.transfer q)) (l.flying q) [e] := by
  simp [log, apply, flying_inflight, changes_self, h, h']

theorem enter_eq_apply (r : Request) (ops : List SubOp) :
    l.enter t q r ops = l.apply t q r true [.admitted q r.heldRegions ops] := by
  simp [enter, put, log, apply]

theorem countAccepted_eq_apply :
    l.countAccepted t q = l.apply t q (l.reqs (.transfer q)) (l.flying q) [.accepted q] := by
  simp [countAccepted, apply, flying_inflight, changes_self]

theorem count_eq_apply (o : Outcome) :
    l.count t q o = l.apply t q (l.reqs (.transfer q)) (l.flying q) [.counted q o] := by
  simp [count, apply, flying_inflight, changes_self, List.count_singleton]

theorem put_eq_applyNote (r : Request) :
    l.put t (.note q) r = l.applyNote t q r [] l.notifyPending := by
  simp [put, applyNote]

theorem log_eq_applyNote (e : Event) :
    l.log t e = l.applyNote t q (l.reqs (.note q)) [e] l.notifyPending := by
  simp [log, applyNote, changes_self]

theorem put_log_eq_applyNote (r : Request) (e : Event) :
    (l.put t (.note q) r).log t e = l.applyNote t q r [e] l.notifyPending := by
  simp [put, log, applyNote]

theorem awaitAck_eq_applyNote (id : Nat) (r : Request) :
    l.awaitAck t id q r =
      l.applyNote t q r [] (l.notifyPending.filter (·.1 ≠ id) ++ [(id, q)]) := by
  simp [awaitAck, put, applyNote]

theorem forget_log_eq_applyNote (gone : Nat × RequestId → Bool) (e : Event) :
    (l.forgetNotes gone).log t e =
      l.applyNote t q (l.reqs (.note q)) [e] (l.notifyPending.filter fun n => !gone n) := by
  simp [forgetNotes, log, applyNote, changes_self]

theorem claim_eq_apply : l.claim t q = l.apply t q (l.reqs (.transfer q)) false [.claimed q] := by
  simp [claim, apply, changes_self]

end Ledger

end Hux
