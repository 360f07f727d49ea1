import Hux.Discipline

/-!
# The engine's programs keep to the moves: progress and calls

A turn of progress and every call of an engine. `body_follows` says with which
resources a call returns: only a transfer that was admitted and a region that
was given back leave any.
-/

namespace Hux
open Interleave (Tid Follows)
open Wire (Bytes)

section
variable {T : Transport} {W : Type} {t : Tid} {q : RequestId} {setup : Setup W}

/-! ## Notifications and departed peers -/

/-- A deed on a notification that needs nothing in hand. -/
theorem idle_modifyNote {f : Request → Request} (deed : ∀ t r, NoteDeed t q r 0 (f r) 0 []) :
    Idle T W (modify (.note q) f) := fun t =>
  keeps_write fun l _ => l.put_eq_applyNote t q _ ▸ .note (deed t _) (fun _ => .inl) (by simp)

theorem idle_publishNote : Idle T W (publish setup (.note q)) := by
  intro t s e b s' h
  cases h
  refine ⟨0, .of ?_, rfl⟩
  simpa only [moves, s.ledger.log_eq_applyNote t q] using
    Move.note .publish (fun _ => .inl) (by simp)

theorem idle_forgetNotes {said : List Event} {gone : Ledger → Nat × RequestId → Bool}
    (moves : ∀ t l (σ : T.State), Move T t (l, σ) 0
      ({ l.forgetNotes (gone l) with trace := said.map (t, ·) ++ l.trace }, σ) 0) :
    Idle T W (forgetNotes said gone) := by
  intro t s e b s' h
  dsimp only at h
  split at h
  · split at h
    · cases h
      exact ⟨0, .of (moves t _ _), rfl⟩
    · cases h
  · cases h

theorem idle_endNotes (e : ErrorInfo) (qs : List RequestId) : Idle T W (endNotes setup e qs) := by
  induction qs with
  | nil => exact .pure _
  | cons q rest ih =>
    have finish (cancelled : Bool) : Idle T W (do
        if cancelled then modify (.note q) Request.finishCancelled
        else modify (.note q) (Request.fail · e)
        publish setup (.note q)
        endNotes setup e rest) := by
      cases cancelled with
      | false =>
        exact (idle_modifyNote fun _ _ => .fail).bind fun _ => idle_publishNote.bind fun _ => ih
      | true =>
        exact (idle_modifyNote fun _ _ => .finishCancelled).bind fun _ =>
          idle_publishNote.bind fun _ => ih
    unfold endNotes
    dsimp only
    split
    · exact finish true
    · exact (idle_look _).bind fun cancelled => finish cancelled

theorem idle_endNotifications (peer : PeerId) (onlyCancelled : Bool) (e : ErrorInfo) :
    Idle T W (endNotifications setup peer onlyCancelled e) := by
  refine (idle_forgetNotes fun t l σ => ?_).bind fun _ => idle_endNotes _ _
  cases onlyCancelled with
  | false => exact .forget
  | true => exact .sweep

theorem keeps_strand (peer : PeerId) :
    Keeps T W t (strand peer) (fun qs M => M = stranding t qs) 0 := by
  intro s e b s' h
  dsimp only at h
  split at h
  · split at h
    · rename_i listed
      cases h
      exact ⟨_, .of (.reap listed.1 listed.2), rfl⟩
    · cases h
  · cases h

theorem keeps_reapLoop (provider : Bytes) (peer : PeerId) (qs : List RequestId) :
    Spends T W t (reapLoop setup provider peer qs) (stranding t qs) := by
  induction qs with
  | nil => exact Keeps.ret rfl
  | cons q rest ih =>
    rw [stranding_cons]
    refine Follows.beside (keeps_modify fun _ _ => .sealReaped) fun _ => ?_
    refine Follows.beside (keeps_countEnding ⟨rfl, rfl⟩) fun _ => ?_
    have how (r : Request) :
        Finishes .failed true r (r.fail (departedError provider peer r.kind)) :=
      ⟨_, rfl, fun _ => ⟨rfl, fun write => by simp [departedError, write]⟩⟩
    refine Follows.beside (keeps_finish how) fun _ => ?_
    refine Follows.beside keeps_publish fun _ => ?_
    simpa using ih

theorem idle_reapPeer (peer : PeerId) : Idle T W (reapPeer setup peer) := by
  intro t
  refine (idle_update _).next fun _ => ?_
  refine (idle_look _).next fun lanes => ?_
  refine (apart_disconnectLanes _ _).idle.next fun _ => ?_
  refine (keeps_strand peer).onto fun qs => ?_
  refine (keeps_reapLoop _ _ _).onto fun _ => ?_
  exact idle_endNotifications _ _ _ t

theorem idle_reapPeers (peers : List PeerId) : Idle T W (reapPeers setup peers) := by
  induction peers with
  | nil => exact .pure _
  | cons p rest ih => exact (idle_reapPeer p).bind fun _ => ih

theorem idle_reapDepartedPeers : Idle T W (reapDepartedPeers setup) :=
  (apart_walk _).idle.bind fun _ => idle_reapPeers _

/-! ## Control messages -/

/-- A notification taken for its acknowledgement is in hand. -/
theorem keeps_takeNotification (id : Nat) (ack : Bool) :
    Keeps T W t (takeNotification id ack)
      (fun r M => M = match r with | some q => if ack then {.acking q} else 0 | none => 0) 0 := by
  refine keeps_transact fun s => ?_
  cases h : s.ledger.notifyPending.find? (·.1 == id) with
  | none => exact ⟨0, .touch .refl, rfl⟩
  | some n =>
    cases ack with
    | false => exact ⟨0, .forget, rfl⟩
    | true =>
      refine ⟨{.acking n.2}, ?_, rfl⟩
      simpa only [if_true, s.ledger.forget_log_eq_applyNote t n.2] using
        Move.note .takeAck (fun _ hn => .inl (List.mem_of_mem_filter hn))
          fun _ => ⟨n, List.mem_of_find?_eq_some h, rfl⟩

theorem idle_handleAck (m : ControlMessage) : Idle T W (handleAck setup m) := by
  intro t
  unfold handleAck
  split
  · exact Keeps.ret rfl
  refine (keeps_takeNotification _ _).next ?_
  rintro (- | q) _ rfl
  · exact Keeps.ret rfl
  refine (idle_remark _).next fun _ => (idle_modifyNote fun _ _ => .mark).next fun _ => ?_
  have acknowledge : Spends T W t (modify (.note q) Request.finishSuccess) {.acking q} :=
    keeps_write fun l _ => l.put_eq_applyNote t q _ ▸
      .note .acknowledge (fun _ => .inl) (by simp)
  refine acknowledge.onto fun _ => ?_
  exact idle_publishNote t

theorem idle_handleRefused (peer : PeerId) (m : ControlMessage) :
    Idle T W (handleRefused setup peer m) := by
  intro t
  unfold handleRefused
  split
  · exact Keeps.ret rfl
  refine (keeps_takeNotification _ _).next ?_
  rintro (- | q) _ rfl
  · exact Keeps.ret rfl
  exact ((idle_remark _).bind fun _ => (idle_modifyNote fun _ _ => .fail).bind fun _ =>
    idle_publishNote) t

theorem idle_handleControl (prov : ProviderId) (m : ControlMessage) :
    Idle T W (handleControl setup prov m) :=
  (apart_peerForConn _).idle.bind fun _ =>
    .ite (apart_handleReadyHandoff _ _ _).idle <|
      .ite (apart_handleNotification _ (Set.mem_univ _) (Set.mem_univ _) _ _ _).idle <|
      .ite (apart_handleRegionInvalidate (Set.mem_univ _) _ _).idle <| .ite (idle_handleAck _) <|
        .ite (idle_handleRefused _ _) (.pure _)

theorem idle_handleControls (prov : ProviderId) (msgs : List ControlMessage) :
    Idle T W (handleControls setup prov msgs) := by
  induction msgs with
  | nil => exact .pure _
  | cons m rest ih => exact (idle_handleControl _ _).bind fun _ => ih

theorem idle_controlLoop (provs : List ProviderId) : Idle T W (controlLoop setup provs) := by
  induction provs with
  | nil => exact .pure _
  | cons prov rest ih =>
    refine (apart_pollControl (Set.mem_univ _) _ _).idle.bind fun _ => ?_
    exact .ite ((idle_handleControls _ _).bind fun _ => ih) ih

/-! ## Completions -/

theorem keeps_sendHandoff (c : ConnId) (prov : ProviderId) (b : ReadyHandoffBody) :
    Keeps T W t (sendHandoff q c prov b)
      (fun _ M => M = {.ending t q .succeeding}) {.ending t q .succeeding} := by
  intro s e r s' h
  dsimp only at h
  split at h
  · simp only [Option.map_eq_some_iff, Prod.exists, Prod.mk.injEq] at h
    obtain ⟨sent, σ', answer, -, rfl⟩ := h
    refine ⟨{.ending t q .succeeding}, .of ?_, Keeps.ret rfl⟩
    rw [moves, s.ledger.log_eq_apply t q (.handoff q b) (by simp) (by simp)]
    exact .deed .handoff (.sendControl answer) (by simp)
  · cases h

theorem keeps_sendHandoffs (conn : Option ConnId) (prov : ProviderId)
    (targets : List RemoteTarget) :
    Keeps T W t (sendHandoffs q conn prov targets)
      (fun _ M => M = {.ending t q .succeeding}) {.ending t q .succeeding} := by
  induction targets with
  | nil => exact Keeps.ret rfl
  | cons target rest ih =>
    cases conn with
    | none => exact ih
    | some c =>
      refine (keeps_sendHandoff c prov _).onto fun sent => ?_
      exact (idle_count _).next fun _ => ih

theorem keeps_mark {s : Stage} (stage : s = .transferComplete ∨ s = .targetReady) :
    Keeps T W t (modify (.transfer q) (Request.markStage · s))
      (fun _ M => M = {.ending t q .succeeding}) {.ending t q .succeeding} :=
  keeps_modify fun _ _ => .mark stage

theorem keeps_succeed : Spends T W t (succeed setup q) {.ending t q .succeeding} := by
  refine (keeps_mark (.inl rfl)).onto fun _ => ?_
  refine (idle_look _).next fun r => ?_
  have finish : Spends T W t (do
      sendHandoffs q r.conn (r.provider.getD 0) r.remoteTargets
      countEnding q .succeeded
      modify (.transfer q) Request.finishSuccess
      publish setup (.transfer q)) {.ending t q .succeeding} := by
    refine (keeps_sendHandoffs _ _ _).onto fun _ => ?_
    exact keeps_ending ⟨rfl, rfl⟩ fun _ => rfl
  dsimp only
  split
  · refine (keeps_mark (.inr rfl)).onto fun _ => ?_
    exact finish
  · exact finish

/-- The error of a request claimed and not cancelled, read once. -/
theorem keeps_readError :
    Keeps T W t (look fun s => (request (.transfer q) s).error)
      (fun e M => M = {.ending t q (if e.ok then .succeeding else .failing)})
      {.ending t q (.uncancelled false)} :=
  keeps_look fun _ => ⟨_, .of_read .readError, rfl⟩

theorem keeps_finishClaimed :
    Spends T W t (finishClaimed setup q) {.ending t q (.claimed false)} := by
  refine keeps_readCancel.onto fun flag => ?_
  cases flag with
  | true => exact keeps_ending ⟨rfl, rfl⟩ fun _ => rfl
  | false =>
    refine keeps_readError.onto fun e => ?_
    cases h : e.ok with
    | false => exact keeps_failing ⟨rfl, rfl⟩
    | true => exact keeps_succeed

theorem keeps_completeEvent (ev : CompletionEvent) :
    Spends T W t (completeEvent setup ev) {.event ev} := by
  have found : Keeps T W t (look fun s => decide (ev.request ∈ s.ledger.inflight))
      (fun flying M => M = if flying then {.found ev} else 0) {.event ev} := by
    refine keeps_look fun s => ?_
    cases h : s.ledger.flying ev.request with
    | false =>
      exact ⟨0, .of_read (by rw [h]; exact .dropEvent rfl), by rw [← Ledger.flying, h]; rfl⟩
    | true =>
      exact ⟨{.found ev}, .of_read (by rw [h]; exact .find rfl), by rw [← Ledger.flying, h]; rfl⟩
  refine found.onto fun flying => ?_
  cases flying with
  | false => exact Keeps.ret rfl
  | true =>
    have complete : Keeps T W t (transact fun t s =>
        (((request (.transfer ev.request) s).onSubopComplete ev).1,
          (s.ledger.put t (.transfer ev.request)
            ((request (.transfer ev.request) s).onSubopComplete ev).2).log t
              (.brought ev.request (.completion ev))))
        (fun last M => M = if last then {.lastEvent ev.request} else 0) {.found ev} :=
      keeps_transact fun s =>
        ⟨_, .of_deed (.complete rfl)
          (s.ledger.put_log_eq_apply t _ _ _ (by simp) (by simp)) (by simp), rfl⟩
    refine complete.onto fun last => ?_
    cases last with
    | false => exact Keeps.ret rfl
    | true =>
      refine (keeps_claim (.inr ⟨rfl, rfl⟩)).onto fun won => ?_
      cases won with
      | false => exact Keeps.ret rfl
      | true => exact keeps_finishClaimed

theorem keeps_completeEvents (evs : List CompletionEvent) :
    Spends T W t (completeEvents setup evs) (events evs) := by
  induction evs with
  | nil => exact Keeps.ret rfl
  | cons ev rest ih =>
    rw [events_cons]
    refine Follows.beside (keeps_completeEvent ev) fun _ => ?_
    simpa using ih

theorem keeps_poll (prov : ProviderId) (n : Nat) :
    Keeps T W t (poll prov n)
      (fun r M => M = events r.2) 0 := by
  intro s e b s' h
  dsimp only at h
  split at h
  · simp only [Option.map_eq_some_iff, Prod.exists, Prod.mk.injEq] at h
    obtain ⟨status, evs, σ', answer, rfl, rfl⟩ := h
    exact ⟨_, .of (.poll answer), rfl⟩
  · cases h

theorem keeps_pollAll (provs : List ProviderId) (polled : Status) :
    Keeps T W t (pollAll setup provs polled)
      (fun r M => M = events r.2) 0 := by
  induction provs generalizing polled with
  | nil => exact Keeps.ret rfl
  | cons prov rest ih =>
    refine (keeps_poll _ _).next ?_
    rintro ⟨status, batch⟩ _ rfl
    rw [← add_zero (events batch)]
    refine Follows.seq (ih _) ?_
    rintro ⟨polled, more⟩ _ rfl
    exact Keeps.ret (events_append _ _).symm

theorem idle_progress : Idle T W (progress setup) := by
  refine (apart_lockProgress (Set.mem_univ _)).idle.bind fun _ => (idle_drainPending).bind fun _ =>
    idle_reapDepartedPeers.bind fun _ => (idle_endNotifications _ _ _).bind fun _ =>
    (idle_controlLoop _).bind fun _ => (apart_arrivalLoop _ _).idle.bind fun _ => fun t => ?_
  refine (keeps_pollAll _ _).next ?_
  rintro ⟨polled, evs⟩ _ rfl
  refine (keeps_completeEvents _).onto fun _ => ?_
  exact ((idle_update _).bind fun _ => .pure _) t

/-! ## Calls -/

theorem idle_pollProgress : Idle T W (pollProgress setup) :=
  .ite idle_progress (.pure _)

/-- The request of a notification is made with a number of its own; refused, the
number is lost. -/
theorem keeps_notify (peer : PeerId) (payload : Bytes) :
    Keeps T W t (notify setup peer payload)
      (fun _ M => ∀ x ∈ M, ∃ q, x = .ticket q) 0 := by
  have refuse {r : Reply} : Keeps T W t (pure r) (fun _ M => ∀ x ∈ M, ∃ q, x = .ticket q) 0 :=
    Keeps.ret (by simp)
  unfold notify
  split; · exact refuse
  refine (idle_look _).next fun closed => ?_
  split; · exact refuse
  refine (idle_look _).next fun connected => ?_
  split; · exact refuse
  refine (idle_exchange _).next fun id => ?_
  refine (keeps_transact fun s => ⟨{.ticket s.ledger.nextRequest}, .nextId, rfl⟩ :
    Keeps T W t _ (fun q M => M = {.ticket q}) 0).onto fun q => ?_
  have await {r : Request} (state : r.state = .waitNotifyAck)
    (uncancelled : r.cancelRequested = false) (stages : r.stages = {.accepted}) :
      Keeps T W t (awaitAck id q r payload)
        (fun closed M => M = if closed then {.ticket q} else 0) {.ticket q} := by
    intro s e closed s' step
    dsimp only at step
    split at step
    · cases step
      exact ⟨{.ticket q}, ⟨{.ticket q}, 0, 0, by simp, by simp, .touch .refl⟩, Keeps.ret rfl⟩
    · cases step
      refine ⟨0, .of ?_, Keeps.ret rfl⟩
      dsimp only [moves]
      rw [s.ledger.awaitAck_eq_applyNote t q]
      refine .note (.make state uncancelled stages) (fun n hn => ?_) (by simp)
      exact (List.mem_append.mp hn).imp List.mem_of_mem_filter fun new => by
        simp [List.mem_singleton.mp new]
  refine (await rfl rfl rfl).onto fun closed => ?_
  cases closed with
  | true => exact Keeps.ret (by simp)
  | false =>
    refine (idle_look _).next fun prov => (idle_look _).next fun conn => ?_
    refine (apart_sendControl (Set.mem_univ _) _ _ _ _).idle.next fun s => ?_
    dsimp only
    split
    · exact (idle_count _).next fun _ => refuse
    refine (keeps_takeNotification _ _).next ?_
    rintro (- | q') _ rfl
    · exact refuse
    exact (idle_modifyNote fun _ _ => .fail).next fun _ => refuse

/-- A region given back leaves a receipt; one that was in use stays retired. -/
theorem keeps_dropRegion (r : MemoryRegion) :
    Keeps T W t (dropRegion r)
      (fun dropped M => M = if dropped then {.deregisteredBy t r.id} else {.retiring r.id})
      {.retiring r.id} := by
  intro s e b s' h
  dsimp only at h
  split at h
  · cases h
    exact ⟨_, framed_still rfl rfl _, rfl⟩
  · rename_i free
    cases h
    exact ⟨_, .of (.deregister (by simpa using free)), rfl⟩

theorem keeps_deregisterMemory (r : MemoryRegion) :
    Keeps T W t (deregisterMemory setup r)
      (fun reply M => M = if reply = .status .ok then {.deregisteredBy t r.id}
        else {.retiring r.id}) 0 := by
  refine (keeps_write fun l σ => .retire :
    Keeps T W t (write fun _ l => l.retire r.id)
    (fun _ M => M = {.retiring r.id}) 0).onto fun _ => ?_
  refine (keeps_dropRegion r).onto fun dropped => ?_
  cases dropped with
  | false => exact Keeps.ret rfl
  | true =>
    refine (apart_broadcastLoop _ _).idle.next ?_
    rintro ⟨sent, refused, oneByOne⟩
    dsimp only
    split
    · exact (apart_sendLoop _ _ _).idle.next fun _ => (idle_count _).next fun _ => Keeps.ret rfl
    · refine (apart_walk _).idle.next fun peers => ?_
      exact (apart_sendLoop _ _ _).idle.next fun _ => (idle_count _).next fun _ => Keeps.ret rfl

theorem idle_removePeer (peer : PeerId) : Idle T W (removePeer setup peer) :=
  (idle_update _).bind fun _ => (idle_update _).bind fun _ => (idle_endNotifications _ _ _).bind
    fun _ => (idle_look _).bind fun _ => (apart_disconnectLanes _ _).idle.bind fun _ => .pure _

theorem idle_closeLoop (turns : Nat) : Idle T W (closeLoop setup turns) := by
  induction turns with
  | zero => exact idle_look _
  | succ turns ih =>
    exact (idle_look _).bind fun _ => .ite (.pure _) (idle_progress.bind fun _ => ih)

theorem idle_close (turns : Nat) : Idle T W (close setup turns) :=
  (idle_update _).bind fun _ => (idle_closeLoop _).bind fun _ => .ite
    ((idle_endNotifications _ _ _).bind fun _ => (idle_update _).bind fun _ => .pure _) (.pure _)

theorem idle_cancel (h : Handle) : Idle T W (cancel h) := by
  intro t s e b s' enabled
  dsimp only at enabled
  split at enabled
  · rename_i made
    cases enabled
    cases live : (request h s).terminal with
    | true =>
      refine ⟨0, framed_still ?_ ?_ 0, rfl⟩
      · simp [Ledger.cancel, show (s.ledger.reqs h).terminal = true from live]
      · rfl
    | false =>
      refine ⟨0, .of ?_, rfl⟩
      simp only [moves, Ledger.cancel, show (s.ledger.reqs h).terminal = false from live,
        Bool.false_eq_true, if_false]
      cases h with
      | transfer q =>
        exact .of_deed (.cancel made live) (s.ledger.put_log_eq_apply t q _ _ (by simp) (by simp))
          (by simp)
      | note q =>
        rw [s.ledger.put_log_eq_applyNote t q]
        exact .note (.cancel made live) (fun _ => .inl) (by simp)
  · cases enabled

/-- What a call can return with. -/
def Call.post (t : Tid) : Call → Reply → Multiset Res → Prop
  | .read _ loc _ _, r, M | .write _ loc _ _, r, M => Submitted t [loc] r M
  | .readv _ loc _ _, r, M | .writev _ loc _ _, r, M => Submitted t loc r M
  | .deregisterMemory region, r, M =>
    M = if r = .status .ok then {.deregisteredBy t region.id} else {.retiring region.id}
  | _, _, M => ∀ x ∈ M, ∃ q, x = .ticket q

theorem Idle.post {p : Engine T W Reply} (idle : Idle T W p) :
    Keeps T W t p (fun _ M => ∀ x ∈ M, ∃ q, x = .ticket q) 0 :=
  (idle t).weaken (by rintro _ _ rfl; simp)

/-- Every call keeps to the moves, on whatever thread it runs. -/
theorem body_follows [LaneCost W] (c : Call) (t : Tid) :
    Keeps T W t (c.body T setup) (c.post t) 0 := by
  cases c with
  | read p l r o => exact keeps_submitVector p [l] [r] o .read
  | write p l r o => exact keeps_submitVector p [l] [r] o .write
  | readv p l r o => exact keeps_submitVector p l r o .read
  | writev p l r o => exact keeps_submitVector p l r o .write
  | notify p b => exact keeps_notify p b
  | cancel h => exact (idle_cancel h).post
  | wait h => exact (apart_wait _).idle.post
  | progress => exact (idle_progress.bind fun _ => .pure _).post
  | pollCompletions n =>
    exact (idle_pollProgress.bind fun _ => (idle_exchange _).bind fun _ => .pure _).post
  | pollNotifications n =>
    exact (idle_pollProgress.bind fun _ => (idle_exchange _).bind fun _ => .pure _).post
  | pollReadyEvents n =>
    exact (idle_pollProgress.bind fun _ => (idle_exchange _).bind fun _ => .pure _).post
  | registerMemory r => exact (apart_registerMemory (Set.mem_univ _) _).idle.post
  | deregisterMemory r => exact keeps_deregisterMemory r
  | addPeer b => exact (apart_addPeer _ (Set.mem_univ _) (Set.mem_univ _) _).idle.post
  | importRegion p b => exact (apart_importRegion _ (Set.mem_univ _) _ _).idle.post
  | removePeer p => exact (idle_removePeer p).post
  | close n => exact (idle_close n).post
  | transportStep => exact apart_transportStep.idle.post
  | deviceStep e d => exact ((idle_update _).bind fun _ => .pure _).post

/-- What can be left when every call has returned. -/
def Res.Spare : Res → Prop
  | .ticket _ | .retiring _ | .admittedBy _ _ _ | .deregisteredBy _ _ => True
  | _ => False

theorem Submitted.spare {loc : List RegionView} {r : Reply} {M : Multiset Res}
    (h : Submitted t loc r M) : ∀ x ∈ M, x.Spare := by
  obtain ⟨s, -, -, only⟩ | ⟨q, -, rfl⟩ := h
  · intro x hx
    obtain ⟨q, rfl⟩ := only x hx
    trivial
  · simp [Res.Spare]

theorem Call.post_spare (t : Tid) (c : Call) (r : Reply) (M : Multiset Res) (h : c.post t r M) :
    ∀ x ∈ M, x.Spare := by
  have tickets (only : ∀ x ∈ M, ∃ q, x = .ticket q) : ∀ x ∈ M, x.Spare := by
    intro x hx
    obtain ⟨q, rfl⟩ := only x hx
    trivial
  cases c with
  | read | write | readv | writev => exact Submitted.spare h
  | deregisterMemory region =>
    obtain rfl := h
    split <;> simp [Res.Spare]
  | _ => exact tickets h

end

end Hux
