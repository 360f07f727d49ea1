import Hux.Effects

/-!
# The letters of notifications

Between a control message and what comes of it, a thread of the engine takes
several steps. What it has still to do is a duty it holds.

* `Duty`: a number taken, a notification to send, a message that was read, an
  answer to give, an answer to act on;
* `NotesUntouched`: a step that has nothing to do with notifications;
* `Posting`: every other step, with the duties it takes on and meets;
* `dutiful_body`: every call keeps to these steps.
-/

namespace Hux
open Interleave (Tid Follows)
open Wire (Bytes)

/-- A control message that notifies, with the number it carries. -/
def ControlMessage.Notifies (m : ControlMessage) (id : Nat) : Prop :=
  m.type = ControlType.notification.code ∧ kNotificationHeaderBytes ≤ m.payload.length ∧
    decodeU64 (m.payload.take kNotificationHeaderBytes) = .ok id

/-- How a notification is answered. -/
def answerType (ack : Bool) : ControlType :=
  if ack then .notificationAck else .notificationRefused

/-- A control message that answers one. -/
def ControlMessage.Answers (m : ControlMessage) (ack : Bool) (id : Nat) : Prop :=
  m.type = (answerType ack).code ∧ decodeU64 m.payload = .ok id

/-- What a thread has still to do. -/
inductive Duty
  /-- Numbers it has taken and not used. -/
  | request (q : RequestId)
  | number (id : Nat)
  /-- To send the notification it recorded, and to fail it since that failed. -/
  | send (q : RequestId) (id : Nat) (payload : Bytes)
  | failed (q : RequestId) (id : Nat) (status : Status)
  /-- To handle a message. -/
  | letter (m : ControlMessage)
  /-- To answer a notification. -/
  | answer (id : Nat) (ack : Bool)
  /-- To act on an answer: the request is taken out, and then the answer noted. -/
  | taken (q : RequestId) (id : Nat) (ack : Bool) (conn : Option ConnId)
  | settle (q : RequestId) (ack : Bool)
  deriving DecidableEq

section
variable {T : Transport} {W : Type}

/-! ## Steps -/

/-- A notification does not look answered that did not before. -/
structure Request.NotAnswering (r r' : Request) : Prop where
  succeeded : r'.state = .succeeded → r.state = .succeeded
  refused : r'.error.status = .resourceExhausted → r.error.status = .resourceExhausted

theorem Request.NotAnswering.refl (r : Request) : r.NotAnswering r := ⟨id, id⟩

theorem Request.notAnswering_fail (r : Request) {e : ErrorInfo}
    (notFull : e.status ≠ .resourceExhausted) :
    r.NotAnswering (r.fail e) := by
  cases live : r.terminal with
  | true => simpa [Request.fail, live] using Request.NotAnswering.refl r
  | false =>
    rw [r.fail_live _ live]
    refine ⟨by simp, ?_⟩
    dsimp only
    split
    · exact id
    · exact fun h => absurd h notFull

theorem NoteChange.notAnswering {r r' : Request} (change : NoteChange r r') :
    r.NotAnswering r' := by
  cases change with
  | mark => exact ⟨id, id⟩
  | fail notFull => exact r.notAnswering_fail notFull
  | finishCancelled =>
    unfold Request.finishCancelled
    split
    · exact .refl r
    · exact ⟨by simp, id⟩
  | cancel =>
    unfold Request.cancel
    split
    · exact .refl r
    split
    · exact .refl r
    · exact ⟨by simp, id⟩

/-- Nothing of notifications is recorded, read, sent or answered. -/
structure NotesUntouched (s s' : World T W) : Prop where
  pending : s'.ledger.notifyPending ⊆ s.ledger.notifyPending
  notes : ∀ q, (request (.note q) s).NotAnswering (request (.note q) s')
  nextRequest : s'.ledger.nextRequest = s.ledger.nextRequest
  nextNotify : s'.nextNotify = s.nextNotify
  queue : s'.notifications.length ≤ s.notifications.length
  remarks : ∃ l, s'.remarks = l ++ s.remarks ∧ ∀ r ∈ l, r.gates = true
  contact : Contact T s.transport s'.transport

/-- The kinds of steps that are like that. -/
def Kind.untouched : Kind → Bool
  | .number | .await | .settle | .queue | .letter | .remark => false
  | _ => true

abbrev untouched : Set Kind := {k | k.untouched = true}

variable {s s' : World T W}

theorem NotesUntouched.refl (s : World T W) : NotesUntouched s s :=
  ⟨List.Subset.refl _, fun _ => .refl _, rfl, rfl, le_rfl, ⟨[], rfl, by simp⟩, .refl⟩

/-- A step on the ledger, and on the transports. -/
theorem NotesUntouched.of_ledger {l : Ledger} {σ : T.State}
    (pending : l.notifyPending ⊆ s.ledger.notifyPending)
    (notes : ∀ q, l.reqs (.note q) = s.ledger.reqs (.note q))
    (nextRequest : l.nextRequest = s.ledger.nextRequest) (contact : Contact T s.transport σ) :
    NotesUntouched s { s with ledger := l, transport := σ } := by
  refine ⟨pending, fun q => ?_, nextRequest, rfl, le_rfl, ⟨[], rfl, by simp⟩, contact⟩
  simp only [request, notes q]
  exact .refl _

/-- A step outside the ledger and the transports. -/
theorem NotesUntouched.of_rest (ledger : s'.ledger = s.ledger)
    (transport : s'.transport = s.transport) (nextNotify : s'.nextNotify = s.nextNotify)
    (queue : s'.notifications.length ≤ s.notifications.length)
    (remarks : ∃ l, s'.remarks = l ++ s.remarks ∧ ∀ r ∈ l, r.gates = true) :
    NotesUntouched s s' where
  pending := ledger ▸ List.Subset.refl _
  notes := by
    intro q
    simp only [request, ledger]
    exact .refl _
  nextRequest := by rw [ledger]
  nextNotify := nextNotify
  queue := queue
  remarks := remarks
  contact := transport ▸ .refl

theorem Plain.untouched (h : Plain s s') : NotesUntouched s s' where
  pending := h.ledger.notifyPending ▸ List.Subset.refl _
  notes := by
    intro q
    simp only [request, h.notes q]
    exact .refl _
  nextRequest := h.ledger.nextRequest
  nextNotify := h.same.nextNotify
  queue := h.same.notifications ▸ le_rfl
  remarks := ⟨[], h.same.remarks, by simp⟩
  contact := h.contact

theorem Effect.untouched {k : Kind} (h : Effect k s s') (kind : k ∈ untouched) :
    NotesUntouched s s' := by
  have still : ∃ l, s.remarks = l ++ s.remarks ∧ ∀ r ∈ l, r.gates = true := ⟨[], rfl, by simp⟩
  cases h with
  | nextId | nextNotify | await | settle | push | pop | send | pollControl | remark => cases kind
  | offer answer => exact .of_ledger (List.Subset.refl _) (fun _ => rfl) rfl (.offer answer)
  | clear | claim | reap | drain =>
    exact ⟨List.Subset.refl _, fun _ => .refl _, rfl, rfl, le_rfl, still, .refl⟩
  | defer =>
    refine ⟨List.Subset.refl _, fun _ => .refl _, rfl, rfl, le_rfl, ⟨_, rfl, ?_⟩, .refl⟩
    simp [Remark.gates]
  | enter =>
    exact .of_ledger (List.Subset.refl _) (fun _ => by simp [Ledger.enter]) rfl .refl
  | forget _ written =>
    subst written
    exact .of_ledger (List.filter_subset_self _) (fun _ => rfl) rfl .refl
  | @note _ _ q r same ledger change reqs transport =>
    refine ⟨ledger.notifyPending ▸ List.Subset.refl _, fun q' => ?_, ledger.nextRequest,
      same.nextNotify, same.notifications ▸ le_rfl, ⟨[], same.remarks, by simp⟩, transport ▸ .refl⟩
    simp only [request, reqs]
    by_cases this : q' = q
    · subst this
      rw [Function.update_self]
      exact change.notAnswering
    · rw [Function.update_of_ne (by simpa using this)]
      exact .refl _
  | part | erase | nextPeer | addPeer | close | stop | device | lock | unlock =>
    exact .of_rest rfl rfl rfl le_rfl still
  | doubt => exact .of_rest rfl rfl rfl le_rfl ⟨[_], rfl, by simp [Remark.gates]⟩
  | tables written _ _ _ _ contact _ =>
    subst written
    exact ⟨List.Subset.refl _, fun _ => .refl _, rfl, rfl, le_rfl, still, contact⟩

/-- A step with the duties it meets and those it takes on. -/
inductive Posting (setup : Setup W) : World T W → Multiset Duty → World T W → Multiset Duty → Prop
  | untouched {s s' : World T W} (step : NotesUntouched s s') : Posting setup s 0 s' 0
  | nextId {s : World T W} :
      Posting setup s 0 { s with ledger := s.ledger.nextId } {.request s.ledger.nextRequest}
  | nextNotify {s : World T W} :
      Posting setup s 0 { s with nextNotify := s.nextNotify + 1 } {.number s.nextNotify}
  | await {s : World T W} {t : Tid} {id : Nat} {q : RequestId} {r : Request} {payload : Bytes}
      (waiting : r.state = .waitNotifyAck) (clean : r.error.ok = true) :
      Posting setup s {.number id, .request q}
        { s with
          ledger := s.ledger.awaitAck t id q r
          remarks := .numbered q id payload :: s.remarks } {.send q id payload}
  | send {s : World T W} {q : RequestId} {id : Nat} {payload : Bytes} {prov : ProviderId}
      {conn : Option ConnId} {a : T.Answer} {σ : T.State}
      (answer : T.sendControl prov conn .notification (encodeU64 id ++ payload) s.transport a =
        some (.ok, σ)) :
      Posting setup s {.send q id payload} { s with transport := σ } 0
  | sendFails {s : World T W} {q : RequestId} {id : Nat} {payload : Bytes} {prov : ProviderId}
      {conn : Option ConnId} {a : T.Answer} {σ : T.State} {status : Status} (error : status ≠ .ok)
      (answer : T.sendControl prov conn .notification (encodeU64 id ++ payload) s.transport a =
        some (status, σ)) :
      Posting setup s {.send q id payload} { s with transport := σ } {.failed q id status}
  | poll {s : World T W} {prov : ProviderId} {n : Nat} {a : T.Answer}
      {r : Status × List ControlMessage} {σ : T.State}
      (answer : T.pollControl prov n s.transport a = some (r, σ)) :
      Posting setup s 0 { s with transport := σ } (Multiset.ofList (r.2.map .letter))
  | push {s : World T W} {m : ControlMessage} {id : Nat} {peer : PeerId} (notifies : m.Notifies id)
      (room : s.notifications.length < setup.cfg.notifyQueueDepth) :
      Posting setup s {.letter m}
        { s with
          notifications := s.notifications ++ [⟨peer, id, m.payload.drop kNotificationHeaderBytes⟩]
          remarks := .queued ⟨peer, id, m.payload.drop kNotificationHeaderBytes⟩ :: s.remarks }
        {.answer id true}
  | turnAway {s : World T W} {m : ControlMessage} {id : Nat} (notifies : m.Notifies id) :
      Posting setup s {.letter m} s {.answer id false}
  | answer {s : World T W} {id : Nat} {ack : Bool} {prov : ProviderId} {conn : Option ConnId}
      {a : T.Answer} {σ : T.State} {status : Status}
      (answer : T.sendControl prov conn (answerType ack) (encodeU64 id) s.transport a =
        some (status, σ)) :
      Posting setup s {.answer id ack} { s with transport := σ } 0
  | take {s s' : World T W} {m : ControlMessage} {id : Nat} {q : RequestId} {ack : Bool}
      (answers : m.Answers ack id) (waiting : (id, q) ∈ s.ledger.notifyPending)
      (step : NotesUntouched s s') : Posting setup s {.letter m} s' {.taken q id ack m.conn}
  | heed {s : World T W} {id : Nat} {q : RequestId} {ack : Bool} {conn : Option ConnId} :
      Posting setup s {.taken q id ack conn}
        { s with remarks := .answered q conn ack :: s.remarks } {.settle q ack}
  | succeed {s : World T W} {t : Tid} {q : RequestId} :
      Posting setup s {.settle q true}
        { s with ledger := s.ledger.put t (.note q) (s.ledger.reqs (.note q)).finishSuccess } 0
  | refuse {s : World T W} {t : Tid} {q : RequestId} {e : ErrorInfo} :
      Posting setup s {.settle q false}
        { s with ledger := s.ledger.put t (.note q) ((s.ledger.reqs (.note q)).fail e) } 0
  | fail {s : World T W} {t : Tid} {q : RequestId} {id : Nat} {status : Status} {e : ErrorInfo}
      (because : e.status = status) :
      Posting setup s {.failed q id status}
        { s with ledger := s.ledger.put t (.note q) ((s.ledger.reqs (.note q)).fail e) } 0

/-! ## Programs -/

/-- Run by thread `t` with duties `M`, the program keeps to the steps. Duties it
has left over do not matter. -/
abbrev Dutiful (T : Transport) {α : Type} (setup : Setup W) (t : Tid) (p : Engine T W α)
    (M : Multiset Duty) : Prop :=
  Follows (fun _ => Posting setup) t p (fun _ _ => True) M

namespace Dutiful
variable {α β : Type} {setup : Setup W} {t : Tid} {M : Multiset Duty}

theorem posting_untouched {s s' : World T W} (h : Plain s s' ∨ ∃ k ∈ untouched, Effect k s s') :
    Posting setup s 0 s' 0 := by
  rcases h with plain | ⟨k, kind, effect⟩
  · exact .untouched plain.untouched
  · exact .untouched (effect.untouched kind)

variable {p : Engine T W α}

theorem quiet (effects : Effects T W untouched p) : Dutiful T setup t p M :=
  (effects.follows (fun _ _ => posting_untouched) M).weaken fun _ _ _ => trivial

theorem next {g : α → Engine T W β} (effects : Effects T W untouched p)
    (rest : ∀ a, Dutiful T setup t (g a) M) : Dutiful T setup t (p >>= g) M := by
  refine Follows.bind (effects.follows (fun _ _ => posting_untouched) M) ?_
  rintro a _ rfl
  exact rest a

theorem bind {g : α → Engine T W β} (first : Dutiful T setup t p M)
    (rest : ∀ a, Dutiful T setup t (g a) 0) : Dutiful T setup t (p >>= g) M := by
  refine Follows.bind first fun a M' _ => ?_
  simpa using ((rest a).frame M').weaken fun _ _ _ => trivial

/-- Duties can be thrown off. -/
theorem more (h : Dutiful T setup t p 0) : Dutiful T setup t p M := by
  simpa using (h.frame M).weaken fun _ _ _ => trivial

theorem ite {c : Prop} [Decidable c] {p' : Engine T W α} (h : c → Dutiful T setup t p M)
    (h' : ¬c → Dutiful T setup t p' M) : Dutiful T setup t (if c then p else p') M := by
  split
  · exact h ‹_›
  · exact h' ‹_›

theorem ret (a : α) : Dutiful T setup t (pure a : Engine T W α) M := trivial

theorem framed_still (s : World T W) : Interleave.Framed (fun _ => Posting setup) t s M s M :=
  ⟨M, 0, 0, (add_zero M).symm, (add_zero M).symm, .untouched (.refl s)⟩

theorem framed {s s' : World T W} {M' : Multiset Duty} (h : Posting setup s 0 s' M') :
    Interleave.Framed (fun _ => Posting setup) t s M s' (M + M') :=
  ⟨M, 0, M', (add_zero M).symm, rfl, h⟩

end Dutiful

variable {t : Tid} {q : RequestId} (setup : Setup W)

variable {conn : Option ConnId} {id : Nat}

theorem dutiful_sendNote {prov : ProviderId} {payload : Bytes} {g : Status → Engine T W Reply}
    (sent : Dutiful T setup t (g .ok) 0)
    (lost : ∀ status, Dutiful T setup t (g status) {.failed q id status}) :
    Dutiful T setup t (call (T.sendControl prov conn .notification (encodeU64 id ++ payload)) >>= g)
      {.send q id payload} := by
  intro s e status s' step
  dsimp only at step
  split at step
  · obtain ⟨⟨answered, σ⟩, answer, h⟩ := Option.map_eq_some_iff.mp step
    cases h
    by_cases ok : answered = .ok
    · subst ok
      exact ⟨0, .of (.send answer), sent⟩
    · exact ⟨_, .of (.sendFails ok answer), lost _⟩
  · cases step

theorem dutiful_notify (peer : PeerId) (payload : Bytes) :
    Dutiful T setup t (notify setup peer payload) 0 := by
  refine .ite (fun _ => .ret _) fun _ => .next (effects_look _) fun closed => ?_
  refine .ite (fun _ => .ret _) fun _ => .next (effects_look _) fun connected => ?_
  refine .ite (fun _ => .ret _) fun _ => ?_
  have numbered {g : Nat → Engine T W Reply} (rest : ∀ id, Dutiful T setup t (g id) {.number id}) :
      Dutiful T setup t ((exchange fun s =>
        (s.nextNotify, { s with nextNotify := s.nextNotify + 1 })) >>= g) 0 := by
    intro s e b s' step
    cases step
    exact ⟨_, .of .nextNotify, rest _⟩
  refine numbered fun id => ?_
  have registered {g : RequestId → Engine T W Reply}
      (rest : ∀ q, Dutiful T setup t (g q) {.number id, .request q}) :
      Dutiful T setup t ((transact fun _ s => (s.ledger.nextRequest, s.ledger.nextId)) >>= g)
        {.number id} := by
    intro s e b s' step
    cases step
    exact ⟨_, Dutiful.framed .nextId, rest _⟩
  refine registered fun q => ?_
  have awaited {r : Request} {g : Bool → Engine T W Reply} (waiting : r.state = .waitNotifyAck)
      (clean : r.error.ok = true) (closed : Dutiful T setup t (g true) 0)
      (rest : Dutiful T setup t (g false) {.send q id payload}) :
      Dutiful T setup t (awaitAck id q r payload >>= g) {.number id, .request q} := by
    intro s e b s' step
    dsimp only at step
    split at step
    · cases step
      exact ⟨_, Dutiful.framed_still s, closed.more⟩
    · cases step
      exact ⟨_, .of (.await waiting clean), rest⟩
  refine awaited rfl rfl (.ret _) ?_
  refine .next (effects_look _) fun prov => .next (effects_look _) fun conn => ?_
  refine dutiful_sendNote setup (.next (effects_count _) fun _ => .ret _) fun status => ?_
  refine .ite (fun _ => .next (effects_count _) fun _ => .ret _) fun _ => ?_
  refine .next (effects_takeNotification (by rfl) _ _) fun taken => ?_
  split
  · exact .ret _
  · intro s e b s' step
    cases step
    exact ⟨0, .of (.fail rfl), Dutiful.ret _⟩

theorem dutiful_answer {prov : ProviderId} (ack : Bool) :
    Dutiful T setup t (call (T.sendControl prov conn (answerType ack) (encodeU64 id)))
      {.answer id ack} := by
  intro s e status s' step
  dsimp only at step
  split at step
  · obtain ⟨x, answer, h⟩ := Option.map_eq_some_iff.mp step
    cases h
    exact ⟨0, .of (.answer answer), trivial⟩
  · cases step

theorem dutiful_handleNotification (prov : ProviderId) (m : ControlMessage) (peer : PeerId)
    (type : m.type = ControlType.notification.code) :
    Dutiful T setup t (handleNotification setup prov m peer) {.letter m} := by
  refine .ite (fun _ => .ret _) fun long => ?_
  split
  · exact .ret _
  rename_i id decoded
  have notifies : m.Notifies id := ⟨type, Nat.not_lt.mp long, decoded⟩
  refine Follows.bind (Q := fun queued M => M = {.answer id queued}) ?_ ?_
  · intro s e queued s' step
    cases step
    by_cases room : s.notifications.length < setup.cfg.notifyQueueDepth
    · simp only [if_pos room]
      exact ⟨_, .of (.push notifies room), rfl⟩
    · simp only [if_neg room]
      exact ⟨_, .of (.turnAway notifies), rfl⟩
  rintro queued _ rfl
  refine Dutiful.next (effects_count _) fun _ => ?_
  split
  · exact .ret _
  cases queued with
  | true =>
    refine (dutiful_answer setup true).bind fun sent => ?_
    exact .ite (fun _ => .quiet (effects_count _)) fun _ => .ret _
  | false => exact (dutiful_answer setup false).bind fun _ => .ret _

/-- An answer to a notification is acted on by whoever takes it out. -/
theorem dutiful_takeNotification {m : ControlMessage} {ack : Bool} (answers : m.Answers ack id)
    (logged : Bool) {g : Option RequestId → Engine T W Unit} (none : Dutiful T setup t (g none) 0)
    (some : ∀ q, Dutiful T setup t (g (some q)) {.taken q id ack m.conn}) :
    Dutiful T setup t (takeNotification id logged >>= g) {.letter m} := by
  intro s e b s' step
  have effect := (effects_takeNotification (K := untouched) (by rfl) id logged).1 t s e b s' step
  have quiet : NotesUntouched s s' := by
    rcases effect with plain | ⟨k, kind, effect⟩
    · exact plain.untouched
    · exact effect.untouched kind
  simp only [Option.some.injEq, Prod.mk.injEq] at step
  obtain ⟨rfl, -⟩ := step
  split
  · refine ⟨{.letter m}, ⟨{.letter m}, 0, 0, by simp, by simp, .untouched quiet⟩, none.more⟩
  · rename_i n found
    have waiting : (id, n.2) ∈ s.ledger.notifyPending := by
      have this := List.find?_some found
      simp only [beq_iff_eq] at this
      exact this ▸ List.mem_of_find?_eq_some found
    exact ⟨_, .of (.take answers waiting quiet), some _⟩

theorem dutiful_heed {ack : Bool} {g : Unit → Engine T W Unit}
    (rest : Dutiful T setup t (g ()) {.settle q ack}) :
    Dutiful T setup t (remark (.answered q conn ack) >>= g) {.taken q id ack conn} := by
  intro s e b s' step
  cases step
  exact ⟨_, .of .heed, rest⟩

theorem dutiful_handleAck (m : ControlMessage) (type : m.type = ControlType.notificationAck.code) :
    Dutiful T setup t (handleAck setup m) {.letter m} := by
  unfold handleAck
  split
  · exact .ret _
  rename_i id decoded
  have answers : m.Answers true id := ⟨type, decoded⟩
  refine dutiful_takeNotification setup answers true (.ret _) fun q => ?_
  refine dutiful_heed setup (.next (effects_modifyNote (by rfl) fun _ => .mark _) fun _ => ?_)
  intro s e b s' step
  cases step
  exact ⟨0, .of .succeed, Dutiful.quiet (effects_publish setup _)⟩

theorem dutiful_handleRefused (peer : PeerId) (m : ControlMessage)
    (type : m.type = ControlType.notificationRefused.code) :
    Dutiful T setup t (handleRefused setup peer m) {.letter m} := by
  unfold handleRefused
  split
  · exact .ret _
  rename_i id decoded
  have answers : m.Answers false id := ⟨type, decoded⟩
  refine dutiful_takeNotification setup answers false (.ret _) fun q => ?_
  refine dutiful_heed setup ?_
  intro s e b s' step
  cases step
  exact ⟨0, .of .refuse, Dutiful.quiet (effects_publish setup _)⟩

theorem dutiful_handleControl (prov : ProviderId) (m : ControlMessage) :
    Dutiful T setup t (handleControl setup prov m) {.letter m} := by
  refine .next (apart_peerForConn _).effects fun peer => ?_
  refine .ite (fun _ => .quiet (apart_handleReadyHandoff setup _ _).effects) fun _ => ?_
  refine .ite (dutiful_handleNotification setup prov m peer) fun _ => ?_
  refine .ite (fun _ => .quiet (apart_handleRegionInvalidate (by rfl) _ _).effects) fun _ => ?_
  refine .ite (dutiful_handleAck setup m) fun _ => ?_
  exact .ite (dutiful_handleRefused setup peer m) fun _ => .ret _

theorem dutiful_handleControls (prov : ProviderId) (msgs : List ControlMessage) :
    Dutiful T setup t (handleControls setup prov msgs)
      (Multiset.ofList (msgs.map .letter)) := by
  induction msgs with
  | nil => exact .ret _
  | cons m rest ih =>
    rw [List.map_cons, ← Multiset.cons_coe, ← Multiset.singleton_add, add_comm]
    refine Follows.bind ((dutiful_handleControl setup prov m).frame _) ?_
    rintro - _ ⟨M', rfl, -⟩
    simpa [add_comm] using (Follows.frame ih M').weaken fun _ _ _ => trivial

theorem dutiful_controlLoop (provs : List ProviderId) :
    Dutiful T setup t (controlLoop setup provs) 0 := by
  induction provs with
  | nil => exact .ret _
  | cons prov rest ih =>
    intro s e polled s' step
    dsimp only at step
    split at step
    · obtain ⟨x, answer, h⟩ := Option.map_eq_some_iff.mp step
      cases h
      refine ⟨_, .of (.poll answer), ?_⟩
      exact Dutiful.ite (fun _ => (dutiful_handleControls setup prov _).bind fun _ => ih) fun _ =>
        Dutiful.more ih
    · cases step

theorem dutiful_progress : Dutiful T setup t (progress setup) 0 := by
  refine .next (apart_lockProgress (by rfl)).effects fun _ => ?_
  refine .next (effects_drainPending (by rfl) (by rfl) (by rfl) (by rfl) (by rfl) setup) fun _ => ?_
  refine .next (effects_reapDepartedPeers setup (by rfl) (by rfl) (by rfl) (by rfl)) fun _ => ?_
  refine .next (effects_endNotifications setup (by rfl) (by rfl) 0 true (by decide)) fun _ => ?_
  refine (dutiful_controlLoop setup _).bind fun _ => ?_
  refine .next (apart_arrivalLoop setup _).effects fun _ => ?_
  refine .next (effects_pollAll setup _ _) fun polled => ?_
  refine .next (effects_completeEvents setup (by rfl) _) fun _ => ?_
  exact .next (apart_unlockProgress (by rfl)).effects fun _ => .ret _

theorem dutiful_pollProgress : Dutiful T setup t (pollProgress setup) 0 :=
  .ite (fun _ => dutiful_progress setup) fun _ => .ret _

theorem dutiful_closeLoop (turns : Nat) : Dutiful T setup t (closeLoop setup turns) 0 := by
  induction turns with
  | zero => exact .quiet (effects_look _)
  | succ turns ih =>
    refine .next (effects_look _) fun empty => .ite (fun _ => .ret _) fun _ => ?_
    exact (dutiful_progress setup).bind fun _ => ih

/-- A number for a transfer. -/
theorem dutiful_nextId {g : RequestId → Engine T W Reply} (rest : ∀ q, Dutiful T setup t (g q) 0) :
    Dutiful T setup t ((transact fun _ s => (s.ledger.nextRequest, s.ledger.nextId)) >>= g) 0 := by
  intro s e b s' step
  cases step
  exact ⟨_, .of .nextId, (rest _).more⟩

variable [LaneCost W]

theorem dutiful_submitVector (peer : PeerId) (loc remote : List RegionView) (opts : TransferOptions)
    (kind : SubOpKind) :
    Dutiful T setup t (submitVector setup peer loc remote opts kind) 0 := by
  refine .next (effects_look _) fun closed => .ite (fun _ => .ret _) fun _ => ?_
  refine .ite (fun _ => .ret _) fun _ => .ite (fun _ => .ret _) fun _ => ?_
  refine .next (effects_look _) fun connected => .ite (fun _ => .ret _) fun _ => ?_
  refine .next (apart_dependencyState (by simp) _ _).effects fun dep => ?_
  refine .ite (fun _ => .ret _) fun _ => ?_
  refine .next (effects_full setup) fun full => .ite (fun _ => .ret _) fun _ => ?_
  refine dutiful_nextId setup fun q => .next (effects_look _) fun lanes => ?_
  refine .next (Looks.effects (looks_buildSubops _ _ _ _ _ _ _ _)) fun built => ?_
  split
  · exact .ret _
  refine .ite (fun _ => .ret _) fun _ => ?_
  refine .next (Looks.effects (looks_handoffTargets _ _ _ _)) fun targets => ?_
  exact .quiet (effects_launch (by rfl) (by rfl) (by rfl) (by rfl) (by rfl) setup (by rfl) rfl _ _ _)

/-- Every call keeps to the steps. -/
theorem dutiful_body (c : Call) (t : Tid) : Dutiful T setup t (c.body T setup) 0 := by
  cases c with
  | read | write | readv | writev => exact dutiful_submitVector setup _ _ _ _ _
  | notify => exact dutiful_notify setup _ _
  | progress => exact (dutiful_progress setup).bind fun _ => .ret _
  | pollCompletions | pollReadyEvents =>
    exact (dutiful_pollProgress setup).bind fun _ => .next (effects_exchange fun s => .of)
      fun _ => .ret _
  | pollNotifications =>
    refine (dutiful_pollProgress setup).bind fun _ => ?_
    intro s e b s' step
    cases step
    refine ⟨0, .of (.untouched (.of_rest rfl rfl rfl ?_ ⟨[], rfl, by simp⟩)), Dutiful.ret _⟩
    simp
  | close turns =>
    refine .next (effects_exchange_of (k := .gate) rfl fun s => .inr .close) fun _ => ?_
    refine (dutiful_closeLoop setup turns).bind fun empty => .ite (fun _ => ?_) fun _ => .ret _
    refine .next (effects_endNotifications setup (by rfl) (by rfl) 0 false (by decide)) fun _ => ?_
    exact .next (effects_exchange_of (k := .gate) rfl fun s => .inr .stop) fun _ => .ret _
  | _ => exact .quiet (effects_body setup _ (by simp [Kind.untouched]))

end

end Hux
