import Hux.Alone
import Hux.Deeds
import Hux.Remotes

/-!
# What each function can touch

One relation for what a step of the engine can do to the state as a whole,
sorted into kinds, and one lemma for each function: of which kinds its steps
can be. `effects_body` bounds the calls; the modules on closing, on departed peers, on
dependencies and on notifications each add only the order in which a few
functions take their steps.

* `Plain`: a step that leaves admission, peers, queues and notifications alone;
* `Effect`: every other step;
* `Effects K p`: the steps of `p` are plain or of the kinds `K`.
-/

namespace Hux
open Interleave (Tid Steps steps_ret steps_atom)
open Wire (Bytes)

/-! ## Requests -/

/-- What a request stays, whichever of its methods run. -/
structure Request.Ages (r r' : Request) : Prop where
  made : r'.made = r.made
  peer : r'.peer = r.peer
  terminal : r.terminal = true → r'.terminal = true
  abandoning : r.abandoning = true → r'.abandoning = true

namespace Request
variable (r : Request) (e : ErrorInfo)

theorem Ages.refl : r.Ages r := ⟨rfl, rfl, id, id⟩

/-- Nothing that makes a request stop is taken back. -/
theorem Ages.of {r r' : Request} (made : r'.made = r.made) (peer : r'.peer = r.peer)
    (terminal : r.terminal = true → r'.terminal = true)
    (cancelled : r.cancelRequested = true → r'.cancelRequested = true)
    (failed : r.error.ok = false → r'.error.ok = false) : r.Ages r' := by
  refine ⟨made, peer, terminal, ?_⟩
  intro stopped
  simp only [Request.abandoning, Bool.or_eq_true, Bool.not_eq_true'] at stopped ⊢
  exact stopped.imp (Or.imp terminal cancelled) failed

theorem ages_finished {r r' : Request} (made : r'.made = r.made) (peer : r'.peer = r.peer)
    (finished : r'.terminal = true) : r.Ages r' :=
  ⟨made, peer, fun _ => finished, fun _ => by simp [Request.abandoning, finished]⟩

theorem ages_setState (s : RequestState) : r.Ages (r.setState s) := by
  unfold setState
  split
  · exact .refl r
  · rename_i going
    simp only [Bool.or_eq_true, not_or, Bool.not_eq_true] at going
    exact .of rfl rfl (by simp [going.1]) id id

theorem ages_noteError : r.Ages (r.noteError e) := by
  rw [noteError_eq]
  exact .of rfl rfl id id (by simp +contextual)

theorem abandoning_noteError {e : ErrorInfo} (bad : e.ok = false) :
    (r.noteError e).abandoning = true := by
  rw [noteError_eq, abandoning, Bool.or_eq_true, Bool.not_eq_true']
  cases live : r.terminal with
  | true => exact .inl (by simpa [terminal] using .inl live)
  | false =>
    refine .inr ?_
    cases fine : r.error.ok <;> simp [bad, fine]

theorem ages_onSubopComplete (ev : CompletionEvent) : r.Ages (r.onSubopComplete ev).2 := by
  cases live : r.terminal with
  | true =>
    rw [r.onSubopComplete_terminal ev live]
    exact .refl r
  | false =>
    rw [r.onSubopComplete_live ev live]
    exact .of rfl rfl id id (by simp +contextual)

theorem ages_fail : r.Ages (r.fail e) := by
  cases live : r.terminal with
  | true =>
    simp only [fail, live, if_true]
    exact .refl r
  | false =>
    rw [r.fail_live e live]
    exact ages_finished rfl rfl rfl

theorem ages_finishSuccess : r.Ages r.finishSuccess := by
  cases live : r.terminal with
  | true =>
    simp only [finishSuccess, live, if_true]
    exact .refl r
  | false =>
    rw [r.finishSuccess_live live]
    exact ages_finished rfl rfl rfl

theorem ages_finishCancelled : r.Ages r.finishCancelled := by
  cases live : r.terminal with
  | true =>
    simp only [finishCancelled, live, if_true]
    exact .refl r
  | false =>
    rw [r.finishCancelled_live live]
    exact ages_finished rfl rfl rfl

theorem ages_cancel : r.Ages r.cancel.2 := by
  cases live : r.terminal with
  | true =>
    unfold cancel
    simp only [live, if_true]
    split <;> exact .refl r
  | false =>
    rw [r.cancel_live live]
    exact ⟨rfl, rfl, by simp [live], by simp [abandoning]⟩

end Request

/-! ## Steps -/

/-- A call of a transport that has nothing to do with notifications. -/
inductive Contact (T : Transport) : T.State → T.State → Prop
  | refl {σ : T.State} : Contact T σ σ
  | offer {σ σ' : T.State} {p : ProviderId} {c : Option ConnId} {op : SubOp} {a : T.Answer}
      {taken : Bool} : T.offer p c op σ a = some (taken, σ') → Contact T σ σ'
  | land {σ : T.State} {p : ProviderId} {c : Option ConnId} {op : SubOp} :
      Contact T σ (T.land p c op σ)
  | finish {σ σ' : T.State} {p : ProviderId} {c : Option ConnId} {n : Nat} {b : Bool} {a : T.Answer}
      {r : Status × Int} : T.finish p c n b σ a = some (r, σ') → Contact T σ σ'
  | poll {σ σ' : T.State} {p : ProviderId} {n : Nat} {a : T.Answer}
      {r : Status × List CompletionEvent} : T.poll p n σ a = some (r, σ') → Contact T σ σ'
  | sendControl {σ σ' : T.State} {p : ProviderId} {c : Option ConnId} {k : ControlType} {b : Bytes}
      {a : T.Answer} {r : Status} (other : k = .readyHandoff ∨ k = .regionInvalidate) :
      T.sendControl p c k b σ a = some (r, σ') → Contact T σ σ'
  | broadcastControl {σ σ' : T.State} {p : ProviderId} {b : Bytes} {a : T.Answer}
      {r : Status × Nat × Nat} :
      T.broadcastControl p .regionInvalidate b σ a = some (r, σ') → Contact T σ σ'
  | pollPeerArrivals {σ σ' : T.State} {p : ProviderId} {n : Nat} {a : T.Answer}
      {r : Status × List PeerArrival} : T.pollPeerArrivals p n σ a = some (r, σ') → Contact T σ σ'
  | connect {σ σ' : T.State} {p : ProviderId} {c : ConnId} {b : Bytes} {a : T.Answer}
      {r : Status} : T.connect p c b σ a = some (r, σ') → Contact T σ σ'
  | disconnect {σ σ' : T.State} {p : ProviderId} {c : ConnId} {a : T.Answer} {r : Status} :
      T.disconnect p c σ a = some (r, σ') → Contact T σ σ'
  | environment {σ σ' : T.State} {a : T.Answer} : T.environment σ a = some σ' → Contact T σ σ'

/-- Lines of the history that are not about a lane going out or an admission. -/
@[simp] def Event.Quiet : Event → Prop
  | .admitted _ _ _ | .cleared _ | .offered _ _ _ => False
  | _ => True

/-- Which request objects there are and what is done with them apart, nothing of
the ledger changes. -/
structure Ledger.Same (l l' : Ledger) : Prop where
  inflight : l'.inflight = l.inflight
  pending : l'.pending = l.pending
  notifyPending : l'.notifyPending = l.notifyPending
  nextRequest : l'.nextRequest = l.nextRequest
  retired : l'.retired = l.retired
  trace : ∃ lines, l'.trace = lines ++ l.trace ∧ ∀ x ∈ lines, x.2.Quiet

/-- Outside the ledger and the transports: counters and the queues of finished
requests and of ready events apart, nothing changes. -/
structure World.Same {T : Transport} {W : Type} (s s' : World T W) : Prop where
  dir : s'.dir = s.dir
  closed : s'.closed = s.closed
  stopping : s'.stopping = s.stopping
  nextNotify : s'.nextNotify = s.nextNotify
  notifications : s'.notifications = s.notifications
  events : s'.events = s.events
  remarks : s'.remarks = s.remarks
  rrCursor : s'.rrCursor = s.rrCursor
  progressing : s'.progressing = s.progressing

section
variable {T : Transport} {W : Type}

theorem World.Same.of {s : World T W} {l : Ledger} {σ : T.State} {ready : List ReadyEvent}
    {completed : List Handle} {counters : Counters} :
    s.Same { s with
      ledger := l
      transport := σ
      readyEvents := ready
      completed := completed
      counters := counters } :=
  ⟨rfl, rfl, rfl, rfl, rfl, rfl, rfl, rfl, rfl⟩

theorem World.Same.refl (s : World T W) : s.Same s := .of

theorem World.Same.trans {s s' s'' : World T W} (h : s.Same s') (h' : s'.Same s'') : s.Same s'' :=
  ⟨h'.dir.trans h.dir, h'.closed.trans h.closed, h'.stopping.trans h.stopping,
    h'.nextNotify.trans h.nextNotify, h'.notifications.trans h.notifications,
    h'.events.trans h.events, h'.remarks.trans h.remarks, h'.rrCursor.trans h.rrCursor,
    h'.progressing.trans h.progressing⟩

/-- A step that leaves admission, peers and notifications alone. -/
structure Plain (s s' : World T W) : Prop where
  same : s.Same s'
  ledger : s.ledger.Same s'.ledger
  ages : ∀ q, (s.ledger.reqs (.transfer q)).Ages (s'.ledger.reqs (.transfer q))
  notes : ∀ q, s'.ledger.reqs (.note q) = s.ledger.reqs (.note q)
  contact : Contact T s.transport s'.transport

inductive Kind
  | clear | post | pending | leave | enter | number | await | forget | note | settle | queue | letter
  | peer | meet | gate | device | remark | doubt | turn | table
  deriving DecidableEq

/-- About when a request's work may go out. -/
def Remark.gates : Remark → Bool
  | .examined _ _ _ | .deferred _ => true
  | _ => false

/-- What ends a notification short of an answer to it. -/
inductive NoteChange : Request → Request → Prop
  | mark {r : Request} (s : Stage) : NoteChange r (r.markStage s)
  | fail {r : Request} {e : ErrorInfo} (notFull : e.status ≠ .resourceExhausted) :
      NoteChange r (r.fail e)
  | finishCancelled {r : Request} : NoteChange r r.finishCancelled
  | cancel {r : Request} : NoteChange r r.cancel.2

theorem NoteChange.ages {r r' : Request} (h : NoteChange r r') : r.Ages r' := by
  cases h with
  | mark s => exact ⟨rfl, rfl, id, id⟩
  | fail => exact r.ages_fail _
  | finishCancelled => exact r.ages_finishCancelled
  | cancel => exact r.ages_cancel

/-- The answer to a notification. -/
inductive Settling : Request → Request → Prop
  | succeed {r : Request} : Settling r r.finishSuccess
  | fail {r : Request} (e : ErrorInfo) : Settling r (r.fail e)

theorem Settling.ages {r r' : Request} (h : Settling r r') : r.Ages r' := by
  cases h with
  | succeed => exact r.ages_finishSuccess
  | fail e => exact r.ages_fail e

/-- Every other step. -/
inductive Effect : Kind → World T W → World T W → Prop
  | clear {s : World T W} {t : Tid} {q : RequestId}
      (going : (s.ledger.reqs (.transfer q)).abandoning = false) :
      Effect .clear s { s with ledger := s.ledger.log t (.cleared q) }
  | offer {s : World T W} {t : Tid} {q : RequestId} {prov : ProviderId} {conn : Option ConnId}
      {op : SubOp} {taken : Bool} {a : T.Answer} {σ : T.State}
      (answer : T.offer prov conn op s.transport a = some (taken, σ)) :
      Effect .post s { s with transport := σ, ledger := s.ledger.log t (.offered q op taken) }
  | defer {s : World T W} {ps : List PendingSubmit} :
      Effect .pending s { s with
        ledger := s.ledger.defer ps
        remarks := ps.map (.deferred ·.req) ++ s.remarks }
  | drain {s : World T W} {n : Nat} (waiting : s.ledger.pending ≠ []) :
      Effect .pending s { s with ledger := s.ledger.drained, rrCursor := n }
  | claim {s : World T W} {t : Tid} {q : RequestId} :
      Effect .leave s { s with ledger := s.ledger.claim t q }
  | reap {s : World T W} {t : Tid} {qs : List RequestId} :
      Effect .leave s { s with ledger := s.ledger.reap t qs }
  | enter {s : World T W} {t : Tid} {q : RequestId} {r : Request} {ops : List SubOp}
      (opened : s.closed = false) (made : r.made = true) :
      Effect .enter s { s with ledger := s.ledger.enter t q r ops }
  | nextId {s : World T W} : Effect .number s { s with ledger := s.ledger.nextId }
  | nextNotify {s : World T W} : Effect .number s { s with nextNotify := s.nextNotify + 1 }
  | await {s : World T W} {t : Tid} {id : Nat} {q : RequestId} {r : Request} {payload : Bytes}
      (opened : s.closed = false) (made : r.made = true) :
      Effect .await s { s with
        ledger := s.ledger.awaitAck t id q r
        remarks := .numbered q id payload :: s.remarks }
  | forget {s s' : World T W} {gone : Nat × RequestId → Bool} {l : List (Tid × Event)}
      (quiet : ∀ x ∈ l, x.2.Quiet)
      (written : s' = { s with ledger :=
        { s.ledger.forgetNotes gone with trace := l ++ s.ledger.trace } }) :
      Effect .forget s s'
  | note {s s' : World T W} {q : RequestId} {r : Request} (same : s.Same s')
      (ledger : s.ledger.Same s'.ledger)
      (change : NoteChange (s.ledger.reqs (.note q)) r)
      (reqs : s'.ledger.reqs = Function.update s.ledger.reqs (.note q) r)
      (transport : s'.transport = s.transport) : Effect .note s s'
  | settle {s s' : World T W} {q : RequestId} {r : Request} (same : s.Same s')
      (ledger : s.ledger.Same s'.ledger)
      (change : Settling (s.ledger.reqs (.note q)) r)
      (reqs : s'.ledger.reqs = Function.update s.ledger.reqs (.note q) r)
      (transport : s'.transport = s.transport) : Effect .settle s s'
  | push {s : World T W} {n : Notification} :
      Effect .queue s { s with
        notifications := s.notifications ++ [n]
        remarks := .queued n :: s.remarks }
  | pop {s : World T W} {n : Nat} :
      Effect .queue s { s with notifications := s.notifications.drop n }
  | send {s : World T W} {prov : ProviderId} {c : Option ConnId} {k : ControlType} {b : Bytes}
      {a : T.Answer} {r : Status} {σ : T.State}
      (answer : T.sendControl prov c k b s.transport a = some (r, σ)) :
      Effect .letter s { s with transport := σ }
  | pollControl {s : World T W} {prov : ProviderId} {n : Nat} {a : T.Answer}
      {r : Status × List ControlMessage} {σ : T.State}
      (answer : T.pollControl prov n s.transport a = some (r, σ)) :
      Effect .letter s { s with transport := σ }
  | part {s : World T W} {p : PeerId} :
      Effect .peer s { s with dir := { s.dir with
        connected := Function.update s.dir.connected p false } }
  | erase {s : World T W} {p : PeerId} :
      Effect .peer s { s with dir := { s.dir with peers := s.dir.peers.filter (· ≠ p) } }
  | nextPeer {s : World T W} :
      Effect .meet s { s with dir := { s.dir with nextPeer := s.dir.nextPeer + 1 } }
  | addPeer {s : World T W} {id : PeerId} {p : Peer W} :
      Effect .meet s { s with dir := s.dir.addPeer id p }
  | close {s : World T W} : Effect .gate s { s with closed := true }
  | stop {s : World T W} : Effect .gate s { s with stopping := true }
  | device {s : World T W} {e : EventId} {d : DeviceEvent}
      (lasts : (s.events e).recorded = true → d.recorded = true) :
      Effect .device s { s with events := Function.update s.events e d }
  | remark {s : World T W} {r : Remark} (other : r.gates = false) :
      Effect .remark s { s with remarks := r :: s.remarks }
  | doubt {s : World T W} {q : RequestId} {e : EventId} {answer : Status} :
      Effect .doubt s { s with remarks := .examined q e answer :: s.remarks }
  | lock {s : World T W} {t : Tid} : Effect .turn s { s with progressing := some t }
  | unlock {s : World T W} : Effect .turn s { s with progressing := none }
  | tables {s s' : World T W} {σ : T.State} {d : Directory W} {r : RegionId → Bool}
      {l : List (Tid × Event)}
      (written : s' = { s with
        transport := σ
        dir := d
        ledger := { s.ledger with retired := r, trace := l ++ s.ledger.trace } })
      (peers : d.peers = s.dir.peers) (objects : d.peerObjects = s.dir.peerObjects)
      (connected : d.connected = s.dir.connected) (nextPeer : d.nextPeer = s.dir.nextPeer)
      (contact : Contact T s.transport σ) (quiet : ∀ x ∈ l, x.2.Quiet)
      (remotes : s.dir.RemotesStep d) : Effect .table s s'

/-- Every step of the program is plain or of one of the kinds. -/
abbrev Effects (T : Transport) (W : Type) {α : Type} (K : Set Kind) (p : Engine T W α) : Prop :=
  Steps (fun s s' : World T W => Plain s s' ∨ ∃ k ∈ K, Effect k s s') p

/-- Besides, every step is in a relation. -/
abbrev Also (T : Transport) (W : Type) {α : Type} (R : World T W → World T W → Prop) (K : Set Kind)
    (p : Engine T W α) : Prop :=
  Steps (fun s s' => R s s' ∧ (Plain s s' ∨ ∃ k ∈ K, Effect k s s')) p

theorem Also.effects {α : Type} {R : World T W → World T W → Prop} {K : Set Kind}
    {p : Engine T W α} (also : Also T W R K p) : Effects T W K p :=
  also.mono fun _ _ step => step.2

/-- They leave the ledger alone, and no operation is offered or reported. -/
abbrev Apart (T : Transport) (W : Type) {α : Type} (K : Set Kind) (p : Engine T W α) : Prop :=
  Also T W (fun s s' => s'.ledger = s.ledger ∧ Touched T s.transport s'.transport) K p

/-- Only request `q` can have changed, left the requests in flight, or been
reported. -/
structure Confined (q : RequestId) (s s' : World T W) : Prop where
  reqs : ∀ h, h ≠ .transfer q → s'.ledger.reqs h = s.ledger.reqs h
  inflight : ∀ q', q' ≠ q → (q' ∈ s'.ledger.inflight ↔ q' ∈ s.ledger.inflight)
  completed : ∀ h ∈ s'.completed, h = .transfer q ∨ h ∈ s.completed

theorem Confined.of_same {q : RequestId} {s s' : World T W} (reqs : s'.ledger.reqs = s.ledger.reqs)
    (inflight : s'.ledger.inflight = s.ledger.inflight) (completed : s'.completed = s.completed) :
    Confined q s s' := by
  refine ⟨by simp [reqs], by simp [inflight], ?_⟩
  rw [completed]
  exact fun _ => .inr

/-- They show only through one request. -/
abbrev Own (T : Transport) (W : Type) {α : Type} (K : Set Kind) (q : RequestId)
    (p : Engine T W α) : Prop :=
  Also T W (Confined q) K p

theorem Own.confined {α : Type} {q : RequestId} {p : Engine T W α} (own : Own T W .univ q p) :
    Steps (Confined q) p :=
  own.mono fun _ _ step => step.1

/-! ## The ledger's functions -/

namespace Ledger
variable {l l' l'' : Ledger} {t : Tid}

theorem Same.refl (l : Ledger) : l.Same l := ⟨rfl, rfl, rfl, rfl, rfl, [], rfl, by simp⟩

theorem Same.trans (h : l.Same l') (h' : l'.Same l'') : l.Same l'' := by
  obtain ⟨lines, told, quiet⟩ := h.trace
  obtain ⟨lines', told', quiet'⟩ := h'.trace
  refine ⟨h'.inflight.trans h.inflight, h'.pending.trans h.pending,
    h'.notifyPending.trans h.notifyPending, h'.nextRequest.trans h.nextRequest,
    h'.retired.trans h.retired, lines' ++ lines, ?_, ?_⟩
  · rw [told', told, List.append_assoc]
  · exact List.forall_mem_append.mpr ⟨quiet', quiet⟩

theorem quiet_changes (h : Handle) (r r' : Request) : ∀ e ∈ changes h r r', e.Quiet := by
  intro e he
  rcases List.mem_append.mp he with ended | staged
  · split at ended
    · obtain rfl := List.mem_singleton.mp ended
      trivial
    · cases ended
  · obtain ⟨s, -, rfl⟩ := List.mem_map.mp staged
    trivial

theorem same_put (l : Ledger) (t : Tid) (h : Handle) (r : Request) : l.Same (l.put t h r) := by
  refine ⟨rfl, rfl, rfl, rfl, rfl, _, rfl, ?_⟩
  intro x hx
  obtain ⟨e, he, rfl⟩ := List.mem_map.mp hx
  exact quiet_changes h _ r e he

theorem same_log (l : Ledger) (t : Tid) {e : Event} (quiet : e.Quiet) : l.Same (l.log t e) :=
  ⟨rfl, rfl, rfl, rfl, rfl, [(t, e)], rfl, by simpa using quiet⟩

theorem same_count (l : Ledger) (t : Tid) (q : RequestId) (o : Outcome) : l.Same (l.count t q o) :=
  ⟨rfl, rfl, rfl, rfl, rfl, [_], rfl, by simp⟩

theorem same_countAccepted (l : Ledger) (t : Tid) (q : RequestId) : l.Same (l.countAccepted t q) :=
  ⟨rfl, rfl, rfl, rfl, rfl, [_], rfl, by simp⟩

theorem same_reported (l : Ledger) (t : Tid) (evs : List CompletionEvent) :
    l.Same (l.reported t evs) := by
  refine ⟨rfl, rfl, rfl, rfl, rfl, _, rfl, ?_⟩
  intro x hx
  obtain ⟨ev, -, rfl⟩ := List.mem_map.mp hx
  trivial

end Ledger

/-! ## Atoms -/

variable {α β : Type} {K : Set Kind}

theorem Plain.refl (s : World T W) : Plain s s :=
  ⟨.refl s, .refl _, fun _ => .refl _, fun _ => rfl, .refl⟩

/-- A step of which only the ledger is left to look at. -/
theorem Plain.of_ledger {s : World T W} {l : Ledger} (same : s.ledger.Same l)
    (ages : ∀ q, (s.ledger.reqs (.transfer q)).Ages (l.reqs (.transfer q)))
    (notes : ∀ q, l.reqs (.note q) = s.ledger.reqs (.note q)) : Plain s { s with ledger := l } :=
  ⟨.of, same, ages, notes, .refl⟩

/-- A step that changes no request. -/
theorem Plain.of_transport {s : World T W} {l : Ledger} {σ : T.State} (same : s.ledger.Same l)
    (reqs : l.reqs = s.ledger.reqs) (contact : Contact T s.transport σ) :
    Plain s { s with ledger := l, transport := σ } :=
  ⟨.of, same, fun _ => reqs ▸ .refl _, fun _ => by rw [reqs],
    contact⟩

theorem Plain.put {s : World T W} {t : Tid} {q : RequestId} {r : Request}
    (ages : (s.ledger.reqs (.transfer q)).Ages r) :
    Plain s { s with ledger := s.ledger.put t (.transfer q) r } := by
  refine .of_ledger (s.ledger.same_put t _ r) ?_ (fun _ => by simp)
  intro q'
  by_cases mine : q' = q
  · subst mine
    simpa using ages
  · simpa [mine] using Request.Ages.refl _

theorem Plain.put_log {s : World T W} {t : Tid} {q : RequestId} {r : Request} {e : Event}
    (quiet : e.Quiet) (ages : (s.ledger.reqs (.transfer q)).Ages r) :
    Plain s { s with ledger := (s.ledger.put t (.transfer q) r).log t e } := by
  have put := Plain.put (t := t) ages
  exact .of_ledger (put.ledger.trans (Ledger.same_log _ t quiet)) put.ages put.notes

section
variable {R : World T W → World T W → Prop}

theorem steps_exchange {f : World T W → α × World T W}
    (step : ∀ s, R s { (f s).2 with ledger := s.ledger, transport := s.transport }) :
    Steps R (exchange f) := by
  refine steps_atom fun t s e b s' h => ?_
  cases h
  exact step s

theorem steps_transact {f : Tid → World T W → α × Ledger}
    (step : ∀ t s, R s { s with ledger := (f t s).2 }) : Steps R (transact f) := by
  refine steps_atom fun t s e b s' h => ?_
  cases h
  exact step t s

theorem steps_write {f : Tid → Ledger → Ledger}
    (step : ∀ t s, R s { s with ledger := f t s.ledger }) :
    Steps R (write f : Engine T W Unit) := by
  refine steps_atom fun t s e b s' h => ?_
  cases h
  exact step t s

theorem steps_call {f : T.State → T.Answer → Option (α × T.State)}
    (step : ∀ s a b σ, f s.transport a = some (b, σ) → R s { s with transport := σ }) :
    Steps R (call f : Engine T W α) := by
  refine steps_atom fun t s e b s' h => ?_
  dsimp only at h
  split at h
  · obtain ⟨x, answer, same⟩ := Option.map_eq_some_iff.mp h
    cases same
    exact step _ _ _ _ answer
  · cases h

end

/-- A program that changes nothing. -/
abbrev Looks (T : Transport) (W : Type) {α : Type} (p : Engine T W α) : Prop :=
  Steps (fun s s' => s' = s) p

theorem Looks.apart {p : Engine T W α} (looks : Looks T W p) : Apart T W K p := by
  refine looks.mono ?_
  rintro s s' rfl
  exact ⟨⟨rfl, .refl⟩, .inl (.refl _)⟩

theorem Looks.own {q : RequestId} {p : Engine T W α} (looks : Looks T W p) : Own T W K q p := by
  refine looks.mono ?_
  rintro s s' rfl
  exact ⟨.of_same rfl rfl rfl, .inl (.refl _)⟩

theorem Looks.effects {p : Engine T W α} (looks : Looks T W p) : Effects T W K p :=
  looks.apart.effects

theorem looks_look (f : World T W → α) : Looks T W (look f) := by
  refine steps_atom fun t s e b s' step => ?_
  cases step
  rfl

theorem apart_look (f : World T W → α) : Apart T W K (look f) := (looks_look f).apart

theorem effects_look (f : World T W → α) : Effects T W K (look f) := (looks_look f).effects

theorem World.Same.plain {s s' : World T W} (same : s.Same s') :
    Plain s { s' with ledger := s.ledger, transport := s.transport } :=
  ⟨⟨same.dir, same.closed, same.stopping, same.nextNotify, same.notifications, same.events,
    same.remarks, same.rrCursor, same.progressing⟩, .refl _, fun _ => .refl _, fun _ => rfl, .refl⟩

section
variable {f : World T W → α × World T W}

theorem apart_exchange (h : ∀ s : World T W, s.Same (f s).2) : Apart T W K (exchange f) :=
  steps_exchange fun s => ⟨⟨rfl, .refl⟩, .inl (h s).plain⟩

theorem effects_exchange (h : ∀ s : World T W, s.Same (f s).2) : Effects T W K (exchange f) :=
  (apart_exchange h).effects

/-- An atom outside the ledger that does something. -/
theorem apart_exchange_of {k : Kind} (allowed : k ∈ K)
    (h : ∀ s : World T W, s.Same (f s).2 ∨
      Effect k s { (f s).2 with ledger := s.ledger, transport := s.transport }) :
    Apart T W K (exchange f) :=
  steps_exchange fun s =>
    ⟨⟨rfl, .refl⟩, (h s).imp (·.plain) fun effect => ⟨k, allowed, effect⟩⟩

theorem effects_exchange_of {k : Kind} (allowed : k ∈ K)
    (h : ∀ s : World T W, s.Same (f s).2 ∨
      Effect k s { (f s).2 with ledger := s.ledger, transport := s.transport }) :
    Effects T W K (exchange f) :=
  (apart_exchange_of allowed h).effects

end

theorem apart_count (f : Counters → Counters) : Apart T W K (count f) :=
  apart_exchange fun _ => .of

theorem effects_count (f : Counters → Counters) : Effects T W K (count f) :=
  (apart_count f).effects

theorem effects_remark (remark : .remark ∈ K) {r : Remark} (other : r.gates = false) :
    Effects T W K (Hux.remark r) :=
  effects_exchange_of remark fun _ => .inr (.remark other)

theorem apart_walk (f : World T W → List Nat) : Apart T W K (walk f) := by
  refine steps_atom fun t s e b s' step => ?_
  split at step
  · split at step
    · cases step
      exact ⟨⟨rfl, .refl⟩, .inl (.refl s)⟩
    · cases step
  · cases step

theorem apart_call {f : T.State → T.Answer → Option (α × T.State)}
    (contact : ∀ σ a r σ', f σ a = some (r, σ') → Touched T σ σ' ∧ Contact T σ σ') :
    Apart T W K (call f : Engine T W α) := by
  refine steps_call fun s a b σ answer => ?_
  obtain ⟨touched, contact⟩ := contact _ _ _ _ answer
  exact ⟨⟨rfl, touched⟩, .inl (.of_transport (.refl _) rfl contact)⟩

theorem apart_finish (prov : ProviderId) (c : Option ConnId) (n : Nat) (b : Bool) :
    Apart T W K (call (T.finish prov c n b)) :=
  apart_call fun _ _ _ _ answer => ⟨.finish answer, .finish answer⟩

/-- A step on the ledger. -/
theorem Confined.of_ledger {q : RequestId} {s : World T W} {l : Ledger}
    (reqs : ∀ h, h ≠ .transfer q → l.reqs h = s.ledger.reqs h)
    (inflight : ∀ q', q' ≠ q → (q' ∈ l.inflight ↔ q' ∈ s.ledger.inflight)) :
    Confined q s { s with ledger := l } :=
  ⟨reqs, inflight, fun _ => .inr⟩

theorem Confined.put {t : Tid} {q : RequestId} {s : World T W} {r : Request} :
    Confined q s { s with ledger := s.ledger.put t (.transfer q) r } :=
  .of_ledger (fun h other => by simp [other]) fun _ _ => Iff.rfl

section
variable {q : RequestId} {f : Request → Request} (ages : ∀ r : Request, r.Ages (f r))
include ages

theorem own_modify : Own T W K q (modify (.transfer q) f) :=
  steps_write fun _ _ => ⟨.put, .inl (.put (ages _))⟩

theorem effects_modify : Effects T W K (modify (.transfer q) f) :=
  (own_modify ages).effects

end

/-! ## Ending and posting -/

section
variable {q : RequestId} (leave : .leave ∈ K) (post : .post ∈ K) (clear : .clear ∈ K)
  (pending : .pending ∈ K) (doubt : .doubt ∈ K) (setup : Setup W)

include leave in
theorem own_claim : Own T W K q (claim q) := by
  refine steps_transact fun t s => ?_
  split
  · exact ⟨.of_ledger (fun _ _ => rfl) fun q' other => by simp [other],
      .inr ⟨.leave, leave, .claim⟩⟩
  · exact ⟨.of_same rfl rfl rfl, .inl (.refl s)⟩

theorem own_readCancel : Own T W K q (readCancel q) :=
  steps_transact fun t s => ⟨.of_same rfl rfl rfl,
    .inl (.of_ledger (s.ledger.same_log t trivial) (fun _ => .refl _) fun _ => rfl)⟩

theorem own_countEnding (o : Outcome) : Own T W K q (countEnding q o) :=
  steps_write fun t s => ⟨.of_same rfl rfl rfl,
    .inl (.of_ledger (s.ledger.same_count t q o) (fun _ => .refl _) fun _ => rfl)⟩

theorem mem_keepCompleted {h h' : Handle} {s : World T W}
    (hh : h' ∈ (keepCompleted setup h s).completed) : h' = h ∨ h' ∈ s.completed := by
  simp only [keepCompleted] at hh
  split at hh
  · exact .inr hh
  split at hh
  · exact (List.mem_append.mp hh).symm.imp_left List.mem_singleton.mp
  · exact (List.mem_append.mp (List.mem_of_mem_tail hh)).symm.imp_left List.mem_singleton.mp

/-- A publication is one more of the finished requests. -/
theorem also_publish (h : Handle) : Also T W (fun s s' => s'.ledger.reqs = s.ledger.reqs ∧
      s'.ledger.inflight = s.ledger.inflight ∧ ∀ h' ∈ s'.completed, h' = h ∨ h' ∈ s.completed) K
    (publish setup h : Engine T W Unit) := by
  refine steps_atom fun t s e b s' step => ?_
  cases step
  refine ⟨⟨rfl, rfl, fun _ => mem_keepCompleted setup⟩,
    .inl ⟨?_, s.ledger.same_log t trivial, fun _ => .refl _, fun _ => rfl, .refl⟩⟩
  unfold keepCompleted
  dsimp only
  split
  · exact .of
  · split <;> exact .of

theorem effects_publish (h : Handle) : Effects T W K (publish setup h) :=
  (also_publish setup h).effects

theorem own_publish : Own T W K q (publish setup (.transfer q)) :=
  (also_publish setup _).mono fun _ _ step =>
    ⟨⟨by simp [step.1.1], by simp [step.1.2.1], step.1.2.2⟩, step.2⟩

include leave in
theorem own_endAbandoned : Own T W K q (endAbandoned setup q) := by
  refine .bind (own_claim leave) fun won => .ite ?_ (steps_ret _)
  refine .bind own_readCancel fun cancelled => ?_
  split
  · refine .bind (own_countEnding _) fun _ => ?_
    refine .bind (own_modify fun r => r.ages_finishCancelled) fun _ => ?_
    exact own_publish setup
  · refine .bind (own_countEnding _) fun _ => .bind (looks_look _).own fun e => ?_
    refine .bind (own_modify fun r => r.ages_fail e) fun _ => ?_
    exact own_publish setup

include leave in
theorem own_partDone : Own T W K q (partDone setup q) := by
  refine .bind (steps_transact fun t s => ⟨.put, .inl (.put (.of rfl rfl id id id))⟩) fun last => ?_
  refine .ite ?_ (steps_ret _)
  refine .bind (looks_look _).own fun stopped => .ite ?_ (steps_ret _)
  refine .bind (steps_transact fun t s => ⟨.put, .inl (.put (.of rfl rfl id id id))⟩) fun idle => ?_
  exact .ite (own_endAbandoned leave setup) (steps_ret _)

include post in
theorem own_offer (prov : ProviderId) (conn : Option ConnId) (op : SubOp) :
    Own T W K q (offer q prov conn op) := by
  refine steps_atom fun t s e b s' step => ?_
  dsimp only at step
  split at step
  · obtain ⟨x, answer, h⟩ := Option.map_eq_some_iff.mp step
    cases h
    exact ⟨.of_same rfl rfl rfl, .inr ⟨.post, post, .offer answer⟩⟩
  · cases step

theorem own_land (prov : ProviderId) (conn : Option ConnId) (op : SubOp) :
    Own T W K q (land prov conn op) := by
  refine steps_atom fun t s e b s' step => ?_
  cases step
  exact ⟨.of_same rfl rfl rfl, .inl (.of_transport (.refl _) rfl .land)⟩

include post in
theorem own_submitLoop (prov : ProviderId) (conn : Option ConnId) (ops : List SubOp) (n : Nat) :
    Own T W K q (submitLoop q prov conn ops n) := by
  induction ops generalizing n with
  | nil => exact steps_ret _
  | cons op rest ih =>
    refine .bind (own_offer post prov conn op) fun taken => ?_
    exact .ite (.bind (own_land prov conn op) fun _ => ih _) (steps_ret _)

include post in
theorem own_submit (prov : ProviderId) (conn : Option ConnId) (ops : List SubOp) :
    Own T W K q (submit q prov conn ops) := by
  refine .bind (own_submitLoop post prov conn ops 0) fun _ => ?_
  refine .bind (steps_call fun _ _ _ _ answer => ?_) fun _ => steps_ret _
  exact ⟨.of_same rfl rfl rfl, .inl (.of_transport (.refl _) rfl (.finish answer))⟩

/-- A method of the request, with a line of the history. -/
theorem own_tell {f : Request → Request} {e : Event} (quiet : e.Quiet)
    (ages : ∀ r : Request, r.Ages (f r)) :
    Own T W K q (write fun t l => (l.put t (.transfer q) (f (l.reqs (.transfer q)))).log t e) :=
  steps_write fun _ _ => ⟨.of_ledger (fun h other => by simp [other]) fun _ _ => Iff.rfl,
    .inl (.put_log quiet (ages _))⟩

theorem own_addAccepted (n : Nat) :
    Own T W K q (write fun t l => (l.put t (.transfer q)
      ((l.reqs (.transfer q)).addAcceptedSubops n)).log t (.settled q)) :=
  own_tell (f := (·.addAcceptedSubops n)) (e := .settled q) trivial fun _ => .of rfl rfl id id id

theorem own_noteError (news : News) (e : ErrorInfo) : Own T W K q (noteError q news e) :=
  own_tell (e := .brought q news) trivial fun r => r.ages_noteError e

include leave in
theorem own_finishTurn (p : PendingSubmit) (offered : Nat) (sr : SubmitResult) :
    Own T W K p.req (finishTurn setup p offered sr) := by
  refine .ite (.bind (steps_exchange fun s => ?_) fun _ => steps_ret _) (.ite ?_ ?_)
  · exact ⟨.of_same rfl rfl rfl, .inl (World.Same.plain .of)⟩
  · split
    · exact steps_ret _
    · exact .bind (own_partDone leave setup) fun _ => steps_ret _
  · refine .bind (looks_look _).own fun outstanding => ?_
    refine .bind (own_noteError _ _) fun _ => ?_
    refine .bind (own_modify fun r => r.ages_setState _) fun _ => ?_
    exact .bind (own_partDone leave setup) fun _ => steps_ret _

include leave post clear in
theorem own_postOps (p : PendingSubmit) (maxBytes : Nat) :
    Own T W K p.req (postOps setup p maxBytes) := by
  refine .bind (steps_transact fun t s => ?_) fun stopped => ?_
  · split
    · exact ⟨.of_same rfl rfl rfl, .inl (.refl s)⟩
    · rename_i going
      exact ⟨.of_same rfl rfl rfl,
        .inr ⟨.clear, clear, .clear (by simpa [request] using going)⟩⟩
  refine .ite (.bind (own_partDone leave setup) fun _ => steps_ret _) ?_
  refine .bind (own_modify fun r => r.ages_setState _) fun _ => ?_
  refine .bind (own_submit post _ _ _) fun sr => ?_
  exact .bind (own_addAccepted _) fun _ => own_finishTurn leave setup _ _ _

/-- A look at an event changes nothing or goes into the remarks. -/
theorem World.examine_or (s : World T W) (whose : Option RequestId) (e : EventId) (x : Status) :
    s.examine whose e x = s ∨ ∃ q, whose = some q ∧
      s.examine whose e x = { s with remarks := .examined q e x :: s.remarks } := by
  unfold examine
  split
  · split
    · exact .inl rfl
    · exact .inr ⟨_, rfl, rfl⟩
  · exact .inl rfl

theorem steps_dependencyState {R : World T W → World T W → Prop} {whose : Option RequestId}
    (same : ∀ s, R s s)
    (noted : ∀ q s e x, whose = some q → R s { s with remarks := .examined q e x :: s.remarks })
    (after : List (Option EventId)) (state : Status) :
    Steps R (dependencyState whose after state : Engine T W Status) := by
  have examined (s : World T W) (e : EventId) (answer : Status) :
      R s { s.examine whose e answer with ledger := s.ledger, transport := s.transport } := by
    rcases s.examine_or whose e answer with still | ⟨q, mine, noting⟩
    · rw [still]
      exact same s
    · rw [noting]
      exact noted q s e _ mine
  induction after generalizing state with
  | nil => exact steps_ret _
  | cons e rest ih =>
    cases e with
    | none => exact ih state
    | some e =>
      refine .bind (steps_exchange fun s => ?_) fun recorded => .ite ?_ (steps_ret _)
      · dsimp only
        split
        · exact same s
        · exact examined s e _
      · exact .bind (steps_exchange fun s => examined s e _) fun _ => .ite (steps_ret _) (ih _)

theorem apart_dependencyState {whose : Option RequestId}
    (noted : whose.isSome = true → .doubt ∈ K) (after : List (Option EventId)) (state : Status) :
    Apart T W K (dependencyState whose after state) := by
  refine steps_dependencyState (fun s => ⟨⟨rfl, .refl⟩, .inl (.refl s)⟩) ?_ after state
  rintro q s e x rfl
  exact ⟨⟨rfl, .refl⟩, .inr ⟨.doubt, noted rfl, .doubt⟩⟩

include pending in
theorem effects_pushPending (ps : List PendingSubmit) : Effects T W K (pushPending ps) := by
  refine ⟨fun t s e b s' h => ?_, steps_ret⟩
  cases h
  exact .inr ⟨.pending, pending, .defer⟩

include leave post clear doubt in
theorem effects_drainTurn (p : PendingSubmit) : Effects T W K (drainTurn setup p) := by
  refine .bind (effects_look _) fun stopped => .ite (own_postOps leave post clear setup p _).effects ?_
  refine .bind (apart_dependencyState (fun _ => doubt) _ _).effects fun d => .ite (steps_ret _) ?_
  refine .ite ?_ (own_postOps leave post clear setup p _).effects
  exact .bind (own_noteError _ _).effects fun _ => (own_postOps leave post clear setup p _).effects

include leave post clear doubt in
theorem effects_drainLoop (ps : List PendingSubmit) : Effects T W K (drainLoop setup ps) := by
  induction ps with
  | nil => exact steps_ret _
  | cons p rest ih =>
    exact .bind (effects_drainTurn leave post clear doubt setup p) fun _ => .bind ih fun _ =>
      steps_ret _

include pending in
theorem effects_takePending : Effects T W K takePending := by
  refine steps_atom fun t s e b s' step => ?_
  dsimp only at step
  split at step
  · cases step
    exact .inl (.refl s)
  · next waiting =>
    cases step
    refine .inr ⟨.pending, pending, .drain fun none => waiting ?_⟩
    rw [none]
    rfl

include leave post clear pending doubt in
theorem effects_drainPending : Effects T W K (drainPending setup) := by
  refine .bind (effects_takePending pending) fun turn => ?_
  refine .bind (effects_drainLoop leave post clear doubt setup turn) fun waiting => ?_
  exact .ite (effects_pushPending pending _) (steps_ret _)

include leave post clear pending in
theorem effects_postParts (parts : List PendingSubmit) : Effects T W K (postParts setup parts) := by
  induction parts with
  | nil => exact steps_ret _
  | cons p rest ih =>
    refine .bind (own_postOps leave post clear setup p _).effects fun later => ?_
    split
    · exact .bind (effects_pushPending pending _) fun _ => ih
    · exact ih

include leave post clear pending doubt in
theorem effects_startParts (after : List (Option EventId)) (parts : List PendingSubmit) :
    Effects T W K (startParts setup q after parts) := by
  refine .bind (effects_modify fun r => .of rfl rfl id id id) fun _ => ?_
  refine .bind (apart_dependencyState (fun _ => doubt) _ _).effects fun dep => .ite ?_ (.ite ?_ ?_)
  · refine .bind (effects_modify fun r => r.ages_setState _) fun _ => ?_
    exact effects_pushPending pending _
  · refine .bind (own_noteError _ _).effects fun _ => ?_
    exact effects_postParts leave post clear pending setup parts
  · exact effects_postParts leave post clear pending setup parts

theorem looks_collectTargets (peer : PeerId) (segs : List RegionView)
    (targets : List RemoteTarget) :
    Looks T W (collectTargets peer segs targets) := by
  induction segs generalizing targets with
  | nil => exact steps_ret _
  | cons seg rest ih =>
    refine .ite (ih _) (.bind (looks_look _) fun found => ?_)
    split <;> exact ih _

theorem looks_handoffTargets (peer : PeerId) (remote : List RegionView) (kind : SubOpKind)
    (opts : TransferOptions) :
    Looks T W (handoffTargets peer remote kind opts) :=
  .ite (looks_collectTargets _ _ _) (steps_ret _)

theorem effects_full : Effects T W K (full setup) := by
  refine effects_exchange fun s => ?_
  split <;> exact .of

theorem effects_countAdmission (depth : Nat) : Effects T W K (countAdmission q depth) := by
  refine steps_atom fun t s e b s' step => ?_
  cases step
  exact .inl ⟨.of, s.ledger.same_countAccepted t q,
    fun _ => .refl _, fun _ => rfl, .refl⟩

theorem effects_admission (enter : .enter ∈ K) {r : Request} (made : r.made = true)
    (ops : List SubOp) : Effects T W K (admission q r ops) := by
  refine steps_transact fun t s => ?_
  split
  · exact .inl (.refl s)
  split
  · exact .inl (.refl s)
  · rename_i opened _
    exact .inr ⟨.enter, enter, .enter (by simpa using opened) made⟩

theorem effects_nextId (number : .number ∈ K) :
    Effects T W K (transact fun _ s => (s.ledger.nextRequest, s.ledger.nextId)) :=
  steps_transact fun _ _ => .inr ⟨.number, number, .nextId⟩

include leave post clear pending doubt in
theorem effects_launch (enter : .enter ∈ K) {r : Request} (made : r.made = true) (ops : List SubOp)
    (after : List (Option EventId)) (parts : List PendingSubmit) :
    Effects T W K (launch setup q r ops after parts) := by
  refine .bind (effects_admission enter made ops) fun admitted => ?_
  split
  · refine .bind (effects_look _) fun depth => .bind (effects_countAdmission depth) fun _ => ?_
    exact .bind (effects_startParts leave post clear pending doubt setup after parts) fun _ =>
      steps_ret _
  · exact steps_ret _

variable [LaneCost W]

theorem looks_buildLoop (g : Plan W) (peer : PeerId) (loc remote : List RegionView)
    (b : Build W) :
    Looks T W (buildLoop lookup g peer loc remote b) := by
  induction loc generalizing remote b with
  | nil => exact steps_ret _
  | cons l ls ih =>
    obtain - | ⟨r, rs⟩ := remote
    · exact steps_ret _
    refine .bind (looks_look _) fun found => ?_
    split
    · exact steps_ret _
    refine .bind (looks_look _) fun retired => .ite (steps_ret _) ?_
    refine .bind (looks_look _) fun imported => ?_
    split
    · exact steps_ret _
    refine .bind (looks_look _) fun valid => .ite ?_ (steps_ret _)
    split
    · exact steps_ret _
    · exact ih _ _

theorem looks_buildSubops (caps : ProviderId → ProviderCaps) (chunkBytes : Nat) (peer : PeerId)
    (loc remote : List RegionView) (kind : SubOpKind) (req : RequestId) (lanes : List (Lane W)) :
    Looks T W (buildSubops lookup caps chunkBytes peer loc remote kind req lanes) := by
  refine .ite (steps_ret _) (.bind (looks_buildLoop _ _ _ _ _) fun built => ?_)
  split
  · exact steps_ret _
  split
  · exact steps_ret _
  refine .bind (looks_look _) fun found => ?_
  split <;> exact steps_ret _

include leave post clear pending doubt in
theorem effects_submitVector (enter : .enter ∈ K) (number : .number ∈ K) (peer : PeerId)
    (loc remote : List RegionView) (opts : TransferOptions) (kind : SubOpKind) :
    Effects T W K (submitVector setup peer loc remote opts kind) := by
  refine .bind (effects_look _) fun closed => .ite (steps_ret _) ?_
  refine .ite (steps_ret _) (.ite (steps_ret _) ?_)
  refine .bind (effects_look _) fun connected => .ite (steps_ret _) ?_
  refine .bind (apart_dependencyState (by simp) _ _).effects fun dep => .ite (steps_ret _) ?_
  refine .bind (effects_full setup) fun full => .ite (steps_ret _) ?_
  refine .bind (effects_nextId number) fun q => .bind (effects_look _) fun lanes => ?_
  refine .bind (Looks.effects (looks_buildSubops _ _ _ _ _ _ _ _)) fun built => ?_
  split
  · exact steps_ret _
  refine .ite (steps_ret _) (.bind (Looks.effects (looks_handoffTargets _ _ _ _)) fun targets => ?_)
  exact effects_launch leave post clear pending doubt setup enter rfl _ _ _

end

/-! ## Progress -/

section
variable {q : RequestId} (setup : Setup W) (leave : .leave ∈ K) (forget : .forget ∈ K)
  (note : .note ∈ K) (settle : .settle ∈ K) (queue : .queue ∈ K) (letter : .letter ∈ K)
  (peer : .peer ∈ K) (remark : .remark ∈ K) (turn : .turn ∈ K) (table : .table ∈ K)

include note in
theorem effects_modifyNote {f : Request → Request} (change : ∀ r, NoteChange r (f r)) :
    Effects T W K (modify (.note q) f) :=
  steps_write fun t s => .inr ⟨.note, note, .note .of
    (s.ledger.same_put t _ _) (change _) rfl rfl⟩

include settle in
theorem effects_settle {f : Request → Request} (change : ∀ r, Settling r (f r)) :
    Effects T W K (modify (.note q) f) :=
  steps_write fun t s => .inr ⟨.settle, settle, .settle .of
    (s.ledger.same_put t _ _) (change _) rfl rfl⟩

include forget in
theorem effects_forgetNotes {said : List Event} (quiet : ∀ e ∈ said, e.Quiet)
    (gone : Ledger → Nat × RequestId → Bool) :
    Effects T W K (forgetNotes said gone) := by
  refine steps_atom fun t s e b s' step => ?_
  split at step
  · split at step
    · cases step
      exact .inr ⟨.forget, forget, .forget (by simpa using quiet) rfl⟩
    · cases step
  · cases step

include note in
theorem effects_endNotes {e : ErrorInfo} (notFull : e.status ≠ .resourceExhausted)
    (qs : List RequestId) : Effects T W K (endNotes setup e qs) := by
  induction qs with
  | nil => exact steps_ret _
  | cons q rest ih =>
    have finish (cancelled : Bool) : Effects T W K (do
        if cancelled then modify (.note q) Request.finishCancelled
        else modify (.note q) (Request.fail · e)
        publish setup (.note q)
        endNotes setup e rest) := by
      cases cancelled with
      | false =>
        exact .bind (effects_modifyNote note fun _ => .fail notFull) fun _ =>
          .bind (effects_publish setup _) fun _ => ih
      | true =>
        exact .bind (effects_modifyNote note fun _ => .finishCancelled) fun _ =>
          .bind (effects_publish setup _) fun _ => ih
    unfold endNotes
    dsimp only
    split
    · exact finish true
    · exact .bind (effects_look _) fun cancelled => finish cancelled

include forget note in
theorem effects_endNotifications (p : PeerId) (onlyCancelled : Bool) {e : ErrorInfo}
    (notFull : e.status ≠ .resourceExhausted) :
    Effects T W K (endNotifications setup p onlyCancelled e) :=
  .bind (effects_forgetNotes forget (by cases onlyCancelled <;> simp) _) fun _ =>
    effects_endNotes setup note notFull _

theorem apart_disconnectLanes (first : Status) (lanes : List (Lane W)) :
    Apart T W K (disconnectLanes first lanes) := by
  induction lanes generalizing first with
  | nil => exact steps_ret _
  | cons l rest ih =>
    unfold disconnectLanes
    split
    · exact ih _
    · refine .bind (apart_call fun _ _ _ _ answer => ?_) fun _ => ih _
      exact ⟨.disconnect answer, .disconnect answer⟩

include leave in
theorem effects_strand (p : PeerId) : Effects T W K (strand p) := by
  refine steps_atom fun t s e b s' step => ?_
  split at step
  · split at step
    · cases step
      exact .inr ⟨.leave, leave, .reap⟩
    · cases step
  · cases step

theorem effects_reapLoop (provider : Bytes) (p : PeerId) (qs : List RequestId) :
    Effects T W K (reapLoop setup provider p qs) := by
  induction qs with
  | nil => exact steps_ret _
  | cons q rest ih =>
    refine .bind (effects_modify fun r => .of rfl rfl id id id) fun _ => ?_
    refine .bind (own_countEnding _).effects fun _ => ?_
    refine .bind (effects_modify fun r => r.ages_fail _) fun _ => ?_
    exact .bind (effects_publish setup _) fun _ => ih

include leave forget note peer in
theorem effects_reapPeer (p : PeerId) : Effects T W K (reapPeer setup p) := by
  refine .bind (effects_exchange_of peer fun s => .inr .part) fun _ => ?_
  refine .bind (effects_look _) fun lanes => .bind (apart_disconnectLanes _ _).effects fun _ => ?_
  refine .bind (effects_strand leave p) fun stranded => ?_
  refine .bind (effects_reapLoop setup _ _ _) fun _ => ?_
  exact effects_endNotifications setup forget note _ _ (by simp)

include leave forget note peer in
theorem effects_reapDepartedPeers : Effects T W K (reapDepartedPeers setup) := by
  refine .bind (apart_walk _).effects fun gone => ?_
  induction gone with
  | nil => exact steps_ret _
  | cons p rest ih => exact .bind (effects_reapPeer setup leave forget note peer p) fun _ => ih

theorem apart_peerForConn (conn : Option ConnId) : Apart T W K (peerForConn conn) := by
  cases conn with
  | none => exact steps_ret _
  | some c => exact .bind (apart_walk _) fun _ => steps_ret _

theorem same_keepReady (ev : ReadyEvent) (s : World T W) : s.Same (keepReady setup ev s) := by
  unfold keepReady
  split <;> exact .of

theorem apart_handleReadyHandoff (p : PeerId) (payload : Bytes) :
    Apart T W K (handleReadyHandoff setup p payload) := by
  unfold handleReadyHandoff
  split
  · exact steps_ret _
  · refine .bind (apart_look _) fun region => .bind (apart_count _) fun _ => ?_
    exact apart_exchange fun s => same_keepReady setup _ s

include letter in
theorem apart_sendControl (prov : ProviderId) (c : Option ConnId) (k : ControlType) (b : Bytes) :
    Apart T W K (call (T.sendControl prov c k b)) :=
  steps_call fun _ _ _ _ answer =>
    ⟨⟨rfl, .sendControl answer⟩, .inr ⟨.letter, letter, .send answer⟩⟩

include queue letter in
theorem apart_handleNotification (prov : ProviderId) (m : ControlMessage) (p : PeerId) :
    Apart T W K (handleNotification setup prov m p) := by
  unfold handleNotification
  refine .ite (steps_ret _) ?_
  split
  · exact steps_ret _
  refine .bind (apart_exchange_of queue fun s => ?_) fun queued => ?_
  · split
    · exact .inr .push
    · exact .inl (.refl s)
  refine .bind (apart_count _) fun _ => ?_
  split
  · exact steps_ret _
  · refine .ite (.bind (apart_sendControl letter _ _ _ _) fun sent => ?_) ?_
    · exact .ite (apart_count _) (steps_ret _)
    · exact .bind (apart_sendControl letter _ _ _ _) fun _ => steps_ret _

/-- A step that only writes the tables of regions. -/
theorem Effect.of_dir {s : World T W} {dir : Directory W} (peers : dir.peers = s.dir.peers)
    (objects : dir.peerObjects = s.dir.peerObjects) (connected : dir.connected = s.dir.connected)
    (nextPeer : dir.nextPeer = s.dir.nextPeer) (remotes : s.dir.RemotesStep dir) :
    Effect .table s { s with dir := dir } :=
  .tables (l := []) rfl peers objects connected nextPeer .refl (by simp) remotes

include table in
theorem apart_handleRegionInvalidate (p : PeerId) (payload : Bytes) :
    Apart T W K (handleRegionInvalidate p payload) := by
  unfold handleRegionInvalidate
  split
  · exact steps_ret _
  refine .bind (apart_look _) fun named => ?_
  induction named with
  | nil => exact steps_ret _
  | cons obj rest ih =>
    refine .bind (apart_look _) fun g => ?_
    refine .ite (.bind (apart_exchange_of table fun s => .inr ?_) fun _ => ih) ih
    exact .of_dir rfl rfl rfl rfl (.cleared obj rfl)

include forget in
theorem effects_takeNotification (id : Nat) (ack : Bool) :
    Effects T W K (takeNotification id ack) := by
  refine steps_transact fun t s => ?_
  split
  · exact .inl (.refl s)
  · rename_i n _
    refine .inr ⟨.forget, forget, ?_⟩
    cases ack with
    | false => exact .forget (l := []) (by simp) rfl
    | true => exact .forget (l := [(t, .acking n.2)]) (by simp) rfl

include forget note settle remark in
theorem effects_handleAck (m : ControlMessage) : Effects T W K (handleAck setup m) := by
  unfold handleAck
  split
  · exact steps_ret _
  refine .bind (effects_takeNotification forget _ _) fun taken => ?_
  split
  · exact steps_ret _
  refine .bind (effects_remark remark rfl) fun _ => ?_
  refine .bind (effects_modifyNote note fun _ => .mark _) fun _ => ?_
  exact .bind (effects_settle settle fun _ => .succeed) fun _ => effects_publish setup _

include forget settle remark in
theorem effects_handleRefused (p : PeerId) (m : ControlMessage) :
    Effects T W K (handleRefused setup p m) := by
  unfold handleRefused
  split
  · exact steps_ret _
  refine .bind (effects_takeNotification forget _ _) fun taken => ?_
  split
  · exact steps_ret _
  refine .bind (effects_remark remark rfl) fun _ => ?_
  exact .bind (effects_settle settle fun _ => .fail _) fun _ => effects_publish setup _

include forget note settle queue letter remark table in
theorem effects_handleControl (prov : ProviderId) (m : ControlMessage) :
    Effects T W K (handleControl setup prov m) := by
  refine .bind (apart_peerForConn _).effects fun p => ?_
  refine .ite (apart_handleReadyHandoff setup _ _).effects ?_
  refine .ite (apart_handleNotification setup queue letter prov m p).effects ?_
  refine .ite (apart_handleRegionInvalidate table p _).effects ?_
  refine .ite (effects_handleAck setup forget note settle remark m) ?_
  exact .ite (effects_handleRefused setup forget settle remark p m) (steps_ret _)

include forget note settle queue letter remark table in
theorem effects_handleControls (prov : ProviderId) (msgs : List ControlMessage) :
    Effects T W K (handleControls setup prov msgs) := by
  induction msgs with
  | nil => exact steps_ret _
  | cons m rest ih =>
    exact .bind (effects_handleControl setup forget note settle queue letter remark table prov m)
      fun _ => ih

include letter in
theorem apart_pollControl (prov : ProviderId) (n : Nat) :
    Apart T W K (call (T.pollControl prov n)) :=
  steps_call fun _ _ _ _ answer =>
    ⟨⟨rfl, .pollControl answer⟩, .inr ⟨.letter, letter, .pollControl answer⟩⟩

include forget note settle queue letter remark table in
theorem effects_controlLoop (provs : List ProviderId) :
    Effects T W K (controlLoop setup provs) := by
  induction provs with
  | nil => exact steps_ret _
  | cons prov rest ih =>
    refine .bind (apart_pollControl letter prov _).effects fun polled => .ite ?_ ih
    exact .bind (effects_handleControls setup forget note settle queue letter remark table prov _)
      fun _ => ih

theorem apart_arrivalLoop (provs : List ProviderId) : Apart T W K (arrivalLoop setup provs) := by
  induction provs with
  | nil => exact steps_ret _
  | cons prov rest ih =>
    refine .bind (apart_call fun _ _ _ _ answer => ?_) fun polled => ?_
    · exact ⟨.pollPeerArrivals answer, .pollPeerArrivals answer⟩
    refine .ite (.bind (apart_exchange fun s => ?_) fun _ => ih) ih
    dsimp only
    induction polled.2 generalizing s with
    | nil => exact .refl s
    | cons a more again =>
      exact (same_keepReady setup ⟨a.token, a.sender, none, 0, 0, 0, ⟨0, 0⟩⟩ s).trans (again _)

theorem effects_sendHandoffs (conn : Option ConnId) (prov : ProviderId)
    (targets : List RemoteTarget) :
    Effects T W K (sendHandoffs q conn prov targets) := by
  induction targets with
  | nil => exact steps_ret _
  | cons target rest ih =>
    cases conn with
    | none => exact ih
    | some c =>
      refine .bind ⟨?_, fun _ => trivial⟩ fun _ => .bind (effects_count _) fun _ => ih
      intro t s e r s' step
      dsimp only at step
      split at step
      · obtain ⟨x, answer, h⟩ := Option.map_eq_some_iff.mp step
        cases h
        exact .inl (.of_transport (s.ledger.same_log t trivial) rfl
          (.sendControl (.inl rfl) answer))
      · cases step

theorem effects_succeed : Effects T W K (succeed setup q) := by
  have marking (st : Stage) : Effects T W K (modify (.transfer q) (Request.markStage · st)) :=
    effects_modify fun r => .of rfl rfl id id id
  have finish (r : Request) : Effects T W K (do
      sendHandoffs q r.conn (r.provider.getD 0) r.remoteTargets
      countEnding q .succeeded
      modify (.transfer q) Request.finishSuccess
      publish setup (.transfer q)) :=
    .bind (effects_sendHandoffs _ _ _) fun _ => .bind (own_countEnding _).effects fun _ =>
      .bind (effects_modify fun r => r.ages_finishSuccess) fun _ => effects_publish setup _
  refine .bind (marking _) fun _ => .bind (effects_look _) fun r => ?_
  dsimp only
  split
  · exact .bind (marking _) fun _ => finish r
  · exact finish r

theorem effects_finishClaimed : Effects T W K (finishClaimed setup q) := by
  refine .bind own_readCancel.effects fun cancelled => .ite ?_ ?_
  · refine .bind (own_countEnding _).effects fun _ => ?_
    exact .bind (effects_modify fun r => r.ages_finishCancelled) fun _ => effects_publish setup _
  · refine .bind (effects_look _) fun e => .ite ?_ (effects_succeed setup)
    refine .bind (own_countEnding _).effects fun _ => .bind (effects_look _) fun e => ?_
    exact .bind (effects_modify fun r => r.ages_fail e) fun _ => effects_publish setup _

include leave in
theorem effects_completeEvents (evs : List CompletionEvent) :
    Effects T W K (completeEvents setup evs) := by
  induction evs with
  | nil => exact steps_ret _
  | cons ev rest ih =>
    refine .bind (.bind (effects_look _) fun found => .ite ?_ (steps_ret _)) fun _ => ih
    refine .bind (steps_transact fun t s => .inl (.put_log trivial
      (Request.ages_onSubopComplete _ ev))) fun last => .ite ?_ (steps_ret _)
    exact .bind (own_claim leave).effects fun won =>
      .ite (effects_finishClaimed setup) (steps_ret _)

theorem effects_poll (prov : ProviderId) (n : Nat) : Effects T W K (poll prov n) := by
  refine steps_atom fun t s e r s' step => ?_
  dsimp only at step
  split at step
  · obtain ⟨x, answer, h⟩ := Option.map_eq_some_iff.mp step
    cases h
    exact .inl (.of_transport (s.ledger.same_reported t _) rfl (.poll answer))
  · cases step

theorem effects_pollAll (provs : List ProviderId) (polled : Status) :
    Effects T W K (pollAll setup provs polled) := by
  induction provs generalizing polled with
  | nil => exact steps_ret _
  | cons prov rest ih =>
    exact .bind (effects_poll _ _) fun _ => .bind (ih _) fun _ => steps_ret _

include turn in
theorem apart_lockProgress : Apart T W K lockProgress := by
  refine steps_atom fun t s e r s' step => ?_
  split at step
  · cases step
  · cases step
    exact ⟨⟨rfl, .refl⟩, .inr ⟨.turn, turn, .lock⟩⟩

include turn in
theorem apart_unlockProgress : Apart T W K unlockProgress :=
  apart_exchange_of turn fun _ => .inr .unlock

/-- What comes between the scheduling pass and the end of a turn of progress. -/
def restOfProgress : Engine T W Status := do
  reapDepartedPeers setup
  endNotifications setup 0 true {}
  controlLoop setup (List.range setup.providers)
  arrivalLoop setup (List.range setup.providers)
  let (polled, events) ← pollAll setup (List.range setup.providers) .ok
  completeEvents setup events
  pure polled

theorem progress_eq : (progress setup : Engine T W Status) = (do
    lockProgress
    drainPending setup
    let polled ← restOfProgress setup
    unlockProgress
    pure polled) := by
  simp only [progress, restOfProgress, Interleave.Prog.bind_assoc]
  rfl

include leave forget note settle queue letter peer remark table in
theorem effects_restOfProgress : Effects T W K (restOfProgress setup) := by
  refine .bind (effects_reapDepartedPeers setup leave forget note peer) fun _ => ?_
  refine .bind (effects_endNotifications setup forget note 0 true (by decide)) fun _ => ?_
  refine .bind (effects_controlLoop setup forget note settle queue letter remark table _)
    fun _ => ?_
  refine .bind (apart_arrivalLoop setup _).effects fun _ => .bind (effects_pollAll setup _ _)
    fun polled => ?_
  exact .bind (effects_completeEvents setup leave _) fun _ => steps_ret _

/-! ## The calls -/

theorem apart_broadcastLoop (payload : Bytes) (provs : List ProviderId) :
    Apart T W K (broadcastLoop payload provs) := by
  induction provs with
  | nil => exact steps_ret _
  | cons prov rest ih =>
    refine .bind (apart_call fun _ _ _ _ answer => ?_) fun sent => ?_
    · exact ⟨.broadcastControl answer, .broadcastControl answer⟩
    exact .bind ih fun _ => .ite (steps_ret _) (steps_ret _)

theorem apart_sendLoop (payload : Bytes) (oneByOne : List ProviderId) (peers : List PeerId) :
    Apart T W K (sendLoop payload oneByOne peers) := by
  induction peers with
  | nil => exact steps_ret _
  | cons p rest ih =>
    refine .bind (apart_look _) fun connected => .bind (apart_look _) fun lane => ?_
    split
    · refine .ite (.bind (apart_call fun _ _ _ _ answer => ?_) fun sent => ?_) ih
      · exact ⟨.sendControl answer, .sendControl (.inr rfl) answer⟩
      exact .bind ih fun _ => steps_ret _
    · exact ih

include table in
theorem effects_dropRegion (r : MemoryRegion) : Effects T W K (dropRegion r) := by
  refine steps_atom fun t s e b s' step => ?_
  dsimp only at step
  split at step
  · cases step
    exact .inl (.refl s)
  · cases step
    exact .inr ⟨.table, table, .tables (l := [(t, .deregistered r.id)]) rfl rfl rfl rfl
      rfl .refl (by simp) (.same rfl rfl rfl)⟩

include table in
theorem effects_deregisterMemory (r : MemoryRegion) : Effects T W K (deregisterMemory setup r) := by
  refine .bind (steps_write fun t s => .inr ⟨.table, table, ?_⟩) fun _ => ?_
  · exact .tables (l := []) rfl rfl rfl rfl rfl .refl (by simp) (.same rfl rfl rfl)
  refine .bind (effects_dropRegion table r) fun dropped => .ite ?_ (steps_ret _)
  refine .bind (apart_broadcastLoop _ _).effects fun sent =>
    .ite (.bind (steps_ret _) fun _ => ?_) (.bind (apart_walk _).effects fun _ => ?_)
  all_goals exact .bind (apart_sendLoop _ _ _).effects fun _ => .bind (effects_count _) fun _ =>
    steps_ret _

include table in
theorem apart_connect (prov : ProviderId) (blob : Bytes) : Apart T W K (connect prov blob) := by
  refine steps_atom fun t s e r s' step => ?_
  dsimp only at step
  split at step
  · obtain ⟨x, answer, h⟩ := Option.map_eq_some_iff.mp step
    cases h
    exact ⟨⟨rfl, .connect answer⟩, .inr ⟨.table, table, .tables (l := []) rfl rfl rfl rfl rfl
      (.connect answer) (by simp) (.same rfl rfl rfl)⟩⟩
  · cases step

include table in
theorem apart_connectSiblings (offers : List (ProviderId × Bytes)) :
    Apart T W K (connectSiblings setup offers) := by
  induction offers with
  | nil => exact steps_ret _
  | cons o rest ih =>
    exact .bind (apart_connect table _ _) fun _ => .bind ih fun _ => steps_ret _

include table in
theorem apart_addPeer (meet : .meet ∈ K) (metadata : Bytes) :
    Apart T W K (addPeer setup metadata) := by
  unfold addPeer
  split
  · exact steps_ret _
  split
  · exact steps_ret _
  refine .bind (apart_connect table _ _) fun dialled => .ite (steps_ret _) ?_
  refine .bind (apart_connectSiblings setup table _) fun others => ?_
  refine .bind (apart_exchange_of meet fun s => .inr .nextPeer) fun id => ?_
  exact .bind (apart_exchange_of meet fun s => .inr .addPeer) fun _ => steps_ret _

include table in
theorem apart_importRegion (p : PeerId) (descriptor : Bytes) :
    Apart T W K (importRegion setup p descriptor) := by
  unfold importRegion
  split
  · exact steps_ret _
  refine .bind (apart_look _) fun _ => ?_
  split
  · exact steps_ret _
  refine .bind (apart_exchange_of table fun s => .inr ?_) fun _ => steps_ret _
  exact .of_dir rfl rfl rfl rfl (.imported p _ rfl)

include forget note peer in
theorem effects_removePeer (p : PeerId) : Effects T W K (removePeer setup p) := by
  refine .bind (effects_exchange_of peer fun s => .inr .part) fun _ => ?_
  refine .bind (effects_exchange_of peer fun s => .inr .erase) fun _ => ?_
  refine .bind (effects_endNotifications setup forget note _ _ (by simp)) fun _ => ?_
  refine .bind (effects_look _) fun lanes => ?_
  exact .bind (apart_disconnectLanes _ _).effects fun _ => steps_ret _

include table in
theorem apart_registerMemory (r : MemoryRegion) : Apart T W K (registerMemory r) := by
  refine .bind (apart_exchange_of table fun s => .inr ?_) fun id =>
    .bind (apart_exchange_of table fun s => .inr ?_) fun _ => steps_ret _
  all_goals exact .of_dir rfl rfl rfl rfl (.same rfl rfl rfl)

theorem apart_transportStep : Apart T W K transportStep := by
  refine .bind (apart_call ?_) fun _ => steps_ret _
  intro σ a x σ' answer
  obtain ⟨σ'', step, h⟩ := Option.map_eq_some_iff.mp answer
  cases h
  exact ⟨.environment step, .environment step⟩

theorem apart_deviceStep (device : .device ∈ K) (e : EventId) (d : DeviceEvent) :
    Apart T W K (deviceStep e d) :=
  .bind (apart_exchange_of device fun _ => .inr (.device fun was => by simp [was])) fun _ =>
    steps_ret _

theorem apart_wait (h : Handle) : Apart T W K (wait h) := by
  refine steps_atom fun t s e r s' step => ?_
  split at step
  · cases step
    exact ⟨⟨rfl, .refl⟩, .inl (.refl s)⟩
  · cases step

include note in
theorem effects_cancel (h : Handle) : Effects T W K (cancel h) := by
  refine steps_atom fun t s e r s' step => ?_
  dsimp only at step
  split at step
  · cases step
    unfold Ledger.cancel
    dsimp only
    split
    · exact .inl (.refl s)
    have same : s.ledger.Same ((s.ledger.put t h (s.ledger.reqs h).cancel.2).log t
      (.cancelled h)) :=
      (s.ledger.same_put t h _).trans (Ledger.same_log _ t trivial)
    cases h with
    | transfer q =>
      exact .inl (.of_ledger same (Plain.put (t := t) (Request.ages_cancel _)).ages (by simp))
    | note q => exact .inr ⟨.note, note, .note .of same .cancel rfl rfl⟩
  · cases step

theorem effects_awaitAck (await : .await ∈ K) {id : Nat} {r : Request} (made : r.made = true)
    (payload : Bytes) : Effects T W K (awaitAck id q r payload) := by
  refine steps_atom fun t s e b s' step => ?_
  split at step
  · cases step
    exact .inl (.refl s)
  · rename_i opened
    cases step
    exact .inr ⟨.await, await, .await (by simpa using opened) made⟩

include forget settle letter in
theorem effects_notify (number : .number ∈ K) (await : .await ∈ K) (p : PeerId)
    (payload : Bytes) : Effects T W K (notify setup p payload) := by
  refine .ite (steps_ret _) (.bind (effects_look _) fun closed => ?_)
  refine .ite (steps_ret _) (.bind (effects_look _) fun connected => ?_)
  refine .ite (steps_ret _) ?_
  refine .bind (effects_exchange_of number fun s => .inr .nextNotify) fun id => ?_
  refine .bind (effects_nextId number) fun q => ?_
  refine .bind (effects_awaitAck await rfl _) fun closed => .ite (steps_ret _) ?_
  refine .bind (effects_look _) fun prov => .bind (effects_look _) fun conn => ?_
  refine .bind (apart_sendControl letter _ _ _ _).effects fun sent => ?_
  refine .ite (.bind (effects_count _) fun _ => steps_ret _) ?_
  refine .bind (effects_takeNotification forget _ _) fun taken => ?_
  split
  · exact steps_ret _
  · exact .bind (effects_settle settle fun _ => .fail _) fun _ => steps_ret _

end

/-- What the steps of a turn of progress can be. -/
def turnKinds : List Kind :=
  [.clear, .post, .pending, .leave, .forget, .note, .settle, .queue, .letter, .peer, .remark, .doubt,
    .turn, .table]

section
variable (setup : Setup W) (all : ∀ k ∈ turnKinds, k ∈ K)
include all

theorem effects_turn : Effects T W K (progress setup) := by
  rw [progress_eq]
  have turn := all .turn (by decide)
  refine .bind (apart_lockProgress turn).effects fun _ => .bind ?_ fun _ => .bind ?_ fun _ =>
    .bind (apart_unlockProgress turn).effects fun _ => steps_ret _
  · apply effects_drainPending <;> exact all _ (by simp [turnKinds])
  · apply effects_restOfProgress <;> exact all _ (by simp [turnKinds])

theorem effects_polled : Effects T W K (pollProgress setup) :=
  .ite (effects_turn setup all) (steps_ret _)

theorem effects_closeLoop (turns : Nat) : Effects T W K (closeLoop setup turns) := by
  induction turns with
  | zero => exact effects_look _
  | succ turns ih =>
    refine .bind (effects_look _) fun empty => .ite (steps_ret _) ?_
    exact .bind (effects_turn setup all) fun _ => ih

theorem effects_close (gate : .gate ∈ K) (turns : Nat) : Effects T W K (close setup turns) := by
  refine .bind (effects_exchange_of gate fun s => .inr .close) fun _ => ?_
  refine .bind (effects_closeLoop setup all turns) fun drained => .ite ?_ (steps_ret _)
  refine .bind (effects_endNotifications setup (all _ (by decide)) (all _ (by decide)) 0 false
    (by decide)) fun _ => ?_
  exact .bind (effects_exchange_of gate fun s => .inr .stop) fun _ => steps_ret _

end

/-- What the steps of a call can be. -/
@[simp] def Call.kinds : Call → List Kind
  | .read _ _ _ _ | .write _ _ _ _ | .readv _ _ _ _ | .writev _ _ _ _ =>
    [.clear, .post, .pending, .leave, .enter, .number, .doubt]
  | .notify _ _ => [.number, .await, .forget, .settle, .letter]
  | .cancel _ => [.note]
  | .wait _ | .transportStep => []
  | .progress | .pollCompletions _ | .pollNotifications _ | .pollReadyEvents _ => turnKinds
  | .registerMemory _ | .deregisterMemory _ | .importRegion _ _ => [.table]
  | .addPeer _ => [.meet, .table]
  | .removePeer _ => [.forget, .note, .peer]
  | .close _ => .gate :: turnKinds
  | .deviceStep _ _ => [.device]

/-- Everything a call can do. -/
theorem effects_body [LaneCost W] (setup : Setup W) (c : Call) (all : ∀ k ∈ c.kinds, k ∈ K) :
    Effects T W K (c.body T setup) := by
  cases c with
  | read | write | readv | writev =>
    apply effects_submitVector <;> exact all _ (by simp)
  | notify => apply effects_notify <;> exact all _ (by simp)
  | cancel => exact effects_cancel (all _ (by simp)) _
  | wait => exact (apart_wait _).effects
  | progress => exact .bind (effects_turn setup all) fun _ => steps_ret _
  | pollCompletions | pollReadyEvents =>
    exact .bind (effects_polled setup all) fun _ => .bind (effects_exchange fun s => .of)
      fun _ => steps_ret _
  | pollNotifications =>
    have queue := all .queue (by simp [turnKinds])
    exact .bind (effects_polled setup all) fun _ =>
      .bind (effects_exchange_of queue fun s => .inr .pop) fun _ => steps_ret _
  | registerMemory => exact (apart_registerMemory (all _ (by simp)) _).effects
  | deregisterMemory => exact effects_deregisterMemory setup (all _ (by simp)) _
  | addPeer => apply (apart_addPeer _ _ _ _).effects <;> exact all _ (by simp)
  | importRegion => exact (apart_importRegion setup (all _ (by simp)) _ _).effects
  | removePeer => apply effects_removePeer <;> exact all _ (by simp)
  | close =>
    exact effects_close setup (fun k hk => all k (List.mem_cons_of_mem _ hk))
      (all _ List.mem_cons_self) _
  | transportStep => exact apart_transportStep.effects
  | deviceStep => exact (apart_deviceStep (all _ (by simp)) _ _).effects

end

end Hux
