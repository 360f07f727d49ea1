import Hux.Sections

/-!
# Anchors

A work request that is not signalled is retired by a later signalled one on the
same queue pair. `submit` therefore ends what a batch puts on each queue pair with
a signalled one, its anchor. It is there when the connection's lock is left, unless
`ibv_post_send` refuses the rest of a batch at a place where what it took last was
not signalled.
-/

namespace Hux.Rdma
open Interleave (Tid Pool Run)

/-! ## The last of a plan -/

/-- The last operation of a plan on a queue pair. -/
def lastOn (i : Nat) : List Planned → Option Planned
  | [] => none
  | p :: rest => (lastOn i rest).or (if p.qpIndex = i then some p else none)

theorem lastOn_eq_none {i : Nat} {plan : List Planned} :
    lastOn i plan = none ↔ ∀ p ∈ plan, p.qpIndex ≠ i := by
  induction plan with
  | nil => simp [lastOn]
  | cons p rest ih => simp [lastOn, ih, and_comm]

theorem lastOn_cons_of_ne {i : Nat} {p : Planned} {rest : List Planned} (other : p.qpIndex ≠ i) :
    lastOn i (p :: rest) = lastOn i rest := by
  simp [lastOn, other]

/-- Marking the anchors moves no operation. -/
theorem qpIndex_anchored (plan : List Planned) :
    (anchored plan).map (·.qpIndex) = plan.map (·.qpIndex) := by
  induction plan with
  | nil => rfl
  | cons p rest ih => simp [anchored, ih]

theorem signal_of_lastOn_anchored {i : Nat} {plan : List Planned} {p : Planned}
    (last : lastOn i (anchored plan) = some p) : p.signal = true := by
  induction plan with
  | nil => cases last
  | cons p' rest ih =>
    rw [anchored, lastOn] at last
    cases later : lastOn i (anchored rest) with
    | some p'' =>
      rw [later] at last
      cases last
      exact ih later
    | none =>
      rw [later, Option.none_or] at last
      split at last
      · rename_i here
        cases last
        -- Nothing on this queue pair follows, so `anchored` marked it.
        have alone : ∀ p'' ∈ rest, p''.qpIndex ≠ p'.qpIndex := by
          have none_ := lastOn_eq_none.mp later
          have same := qpIndex_anchored rest
          intro p'' there eq
          have member : i ∈ (anchored rest).map (·.qpIndex) := by
            rw [same]
            exact List.mem_map.mpr ⟨p'', there, eq.trans here⟩
          obtain ⟨p₁, there₁, eq₁⟩ := List.mem_map.mp member
          exact none_ p₁ there₁ eq₁
        simpa using .inr alone
      · cases last

/-! ## The invariant -/

/-- What was posted last on a queue pair was posted signalled. -/
def Anchored (sends : List WorkRequest) : Prop :=
  ∀ wr, (posted sends).getLast? = some wr → wr.signalled = true

/-- Or will be, once what is left of a batch is posted. -/
def WillAnchor (sends : List WorkRequest) (rest : List Planned) (i : Nat) : Prop :=
  match lastOn i rest with
  | some p => p.signal = true
  | none => Anchored sends

/-- What a thread with a connection's lock has still to post, once it posts. -/
def Res.unposted : Res → List Planned
  | .sending _ rest | .sent _ _ _ rest => rest
  | _ => []

structure Anchoring (k : Core) (c : ConnId) (x : Res) : Prop where
  anchors : ∀ i q, (k.qps c)[i]? = some q → WillAnchor (k.sends q.num) x.unposted i
  /-- What is listed was posted. -/
  listed : ∀ q ∈ k.qps c, q.unsignalled ≠ [] → posted (k.sends q.num) ≠ []
  /-- And so was what is about to be listed. -/
  taken : ∀ p seq rest, x = .sent c p seq rest → ∀ q, (k.qps c)[p.qpIndex]? = some q →
    posted (k.sends q.num) ≠ []

def AnchoredRest (k : Core) (c : ConnId) : Prop := Anchoring k c (.holding c)

theorem willAnchor_congr {sends sends' : List WorkRequest} {rest : List Planned} {i : Nat}
    (same : posted sends' = posted sends) (h : WillAnchor sends rest i) :
    WillAnchor sends' rest i := by
  unfold WillAnchor Anchored at h ⊢
  rwa [same]

section
variable {cfg : RdmaConfig} {role : Role} {t : Tid} {k k' : Core} {F M M' : Multiset Res}
  {d : Dialled} {c : ConnId} {x x' : Res}

/-- A change that posts nothing and puts nothing on a list. -/
theorem Anchoring.mono (before : Anchoring k c x) (unposted : x'.unposted = x.unposted)
    (qps : ∀ (i : Nat) (q' : QueuePair), (k'.qps c)[i]? = some q' →
      ∃ q : QueuePair, (k.qps c)[i]? = some q ∧ q'.num = q.num ∧
        (q'.unsignalled ≠ [] → q.unsignalled ≠ []))
    (same : ∀ q ∈ k.qps c, posted (k'.sends q.num) = posted (k.sends q.num))
    (taken : ∀ p seq rest, x' = .sent c p seq rest → x = .sent c p seq rest) :
    Anchoring k' c x' where
  anchors i q' there' := by
    obtain ⟨q, there, num, -⟩ := qps i q' there'
    rw [unposted, num]
    exact willAnchor_congr (same q (List.mem_of_getElem? there)) (before.anchors i q there)
  listed q' hq' some_ := by
    obtain ⟨i, there'⟩ := List.getElem?_of_mem hq'
    obtain ⟨q, there, num, also⟩ := qps i q' there'
    rw [num, same q (List.mem_of_getElem? there)]
    exact before.listed q (List.mem_of_getElem? there) (also some_)
  taken p seq rest eq q' there' := by
    obtain ⟨q, there, num, -⟩ := qps _ q' there'
    rw [num, same q (List.mem_of_getElem? there)]
    exact before.taken p seq rest (taken p seq rest eq) q there

/-- A step on other connections. -/
theorem Anchoring.frame (untouched : Untouched k k' c) (before : Anchoring k c x) :
    Anchoring k' c x := by
  refine before.mono rfl ?_ untouched.posted fun _ _ _ eq => eq
  rw [untouched.qps]
  exact fun i q there => ⟨q, there, rfl, id⟩

/-- A step that leaves queue pairs and what was posted, to a resource that has
nothing to post. -/
theorem Anchoring.still (before : Anchoring k c x) (qps : k'.qps c = k.qps c)
    (sends : k'.sends = k.sends) (idle : x.unposted = []) (idle' : x'.unposted = [])
    (unsent : ∀ p seq rest, x' ≠ .sent c p seq rest) : Anchoring k' c x' := by
  refine before.mono (idle'.trans idle.symm) ?_ (fun _ _ => by rw [sends])
    fun p seq rest eq => absurd eq (unsent p seq rest)
  rw [qps]
  exact fun i q there => ⟨q, there, rfl, id⟩

/-- The plan of a batch anchors what it touches, and leaves the rest as anchored as
it was. -/
theorem Posting.anchors {rest : List Planned} (posting : Posting c x rest)
    (before : Anchoring k c x) {i : Nat} {q : QueuePair} (there : (k.qps c)[i]? = some q) :
    WillAnchor (k.sends q.num) rest i := by
  have now := before.anchors i q there
  cases posting with
  | planned qps plan =>
    unfold WillAnchor
    split
    · rename_i p last
      exact signal_of_lastOn_anchored last
    · exact now
  | sending rest => exact now

/-- A change to one queue pair that lists nothing new on it. -/
theorem Anchoring.setQp {i : Nat} {f : QueuePair → QueuePair} (before : Anchoring k c x)
    (qps : k'.qps = (k.setQp c i f).qps) (sends : k'.sends = k.sends)
    (num : ∀ q, (f q).num = q.num)
    (listed : ∀ q, (k.qps c)[i]? = some q → (f q).unsignalled ≠ [] → q.unsignalled ≠ [])
    (idle : x.unposted = []) (idle' : x'.unposted = [])
    (unsent : ∀ p seq rest, x' ≠ .sent c p seq rest) : Anchoring k' c x' := by
  refine before.mono (idle'.trans idle.symm) ?_ (fun _ _ => by rw [sends])
    fun p seq rest eq => absurd eq (unsent p seq rest)
  intro j q' there'
  rw [qps] at there'
  obtain ⟨q, there, ⟨-, rfl, rfl⟩ | ⟨-, rfl⟩⟩ := Core.of_qps_setQp there'
  · exact ⟨q, there, num q, listed q there⟩
  · exact ⟨q', there, rfl, id⟩

/-- The next work request of a batch is posted. -/
theorem Anchoring.send {p : Planned} {rest : List Planned} (before : Anchoring k c x)
    (sections : Sections d k M) (hx : x ∈ M) (posting : Posting c x (p :: rest)) :
    Anchoring (k.post (k.qp c p.qpIndex).num (p.workRequest (k.qp c p.qpIndex).posted)) c
      (.sent c p (k.qp c p.qpIndex).posted rest) := by
  obtain ⟨q₀, there₀⟩ :=
    sections.qp_of_lt (posting.inRange (sections.inRange x hx) p List.mem_cons_self)
  rw [Core.qp_eq there₀]
  have own := sections.posted_send there₀ there₀
  rw [if_pos rfl] at own
  have other {i : Nat} {q : QueuePair} (there : (k.qps c)[i]? = some q) (ne : p.qpIndex ≠ i) :
      posted ((k.post q₀.num (p.workRequest q₀.posted)).sends q.num) = posted (k.sends q.num) := by
    rw [sections.posted_send there₀ there, if_neg ne, List.append_nil]
  have each {i : Nat} {q : QueuePair} (there : (k.qps c)[i]? = some q) :
      WillAnchor ((k.post q₀.num (p.workRequest q₀.posted)).sends q.num) rest i := by
    have next := posting.anchors before there
    by_cases here : p.qpIndex = i
    · subst here
      cases there.symm.trans there₀
      unfold WillAnchor at next ⊢
      cases last : lastOn p.qpIndex rest with
      | some p' =>
        rw [lastOn, last] at next
        exact next
      | none =>
        -- It is the last one of the batch here, hence signalled.
        rw [lastOn, last, Option.none_or, if_pos rfl] at next
        intro wr hwr
        rw [own, List.getLast?_append, List.getLast?_singleton] at hwr
        cases hwr
        exact next
    · rwa [WillAnchor, lastOn_cons_of_ne here, Anchored, ← other there here] at next
  refine ⟨fun i q there => each there, fun q hq some_ => ?_, fun p' seq rest' eq q there => ?_⟩
  · obtain ⟨i, there⟩ := List.getElem?_of_mem hq
    by_cases here : p.qpIndex = i
    · subst here
      cases there.symm.trans there₀
      simp [own]
    · rw [other there here]
      exact before.listed q hq some_
  · cases eq
    cases there.symm.trans there₀
    simp [own]

/-- And put on the list. -/
theorem Anchoring.record {p : Planned} {seq : Nat} {rest : List Planned} {postedAt : CcTime}
    (before : Anchoring k c (.sent c p seq rest)) :
    Anchoring (k.record c p seq postedAt) c (.sending c rest) := by
  refine ⟨fun i q' there' => ?_, fun q' hq' some_ => ?_, fun _ _ _ eq => by cases eq⟩
  · obtain ⟨q, there, ⟨-, rfl, rfl⟩ | ⟨-, rfl⟩⟩ := Core.of_qps_setQp there'
    · exact before.anchors _ q there
    · exact before.anchors i q' there
  · obtain ⟨i, there'⟩ := List.getElem?_of_mem hq'
    obtain ⟨q, there, ⟨-, rfl, rfl⟩ | ⟨-, rfl⟩⟩ := Core.of_qps_setQp there'
    · exact before.taken p seq rest rfl q there
    · exact before.listed q' (List.mem_of_getElem? there) some_

end

/-! ## Steps and runs -/

/-- The connection whose batch was refused. -/
def Line.refusedOn : Line → Option ConnId
  | .refused c _ _ _ => some c
  | _ => none

/-- Where a step appends a refusal, what was posted last on each queue pair of that
connection had been posted signalled. -/
def Core.RefusesAnchored (k k' : Core) : Prop :=
  ∀ line ∈ k'.log.drop k.log.length, ∀ c ∈ line.refusedOn, ∀ q ∈ k.qps c,
    Anchored (k.sends q.num)

theorem Over.unposted {c : ConnId} {x : Res} (done : Over c x) : x.unposted = [] := by
  cases done with
  | holding => rfl
  | posting posting =>
    obtain ⟨rest, none_, posting⟩ : ∃ rest, rest = [] ∧ Posting c x rest := ⟨[], rfl, posting⟩
    cases posting with
    | planned qps plan => rfl
    | sending rest => exact none_

theorem Anchoring.inner {cfg : RdmaConfig} {t : Tid} {k k' : Core} {F M : Multiset Res}
    {d : Dialled} {c : ConnId} {o o' : Option Res} (sections : Sections d k (F + M))
    (mem : ∀ x ∈ o, x ∈ M) (refuses : k.RefusesAnchored k') (step : Inner cfg t M c k o k' o')
    (before : Guards AnchoredRest Anchoring k c o) : Guards AnchoredRest Anchoring k' c o' := by
  cases step with
  | lock | plan | open_ | miss | report | stop | skip =>
    exact Anchoring.still before rfl rfl rfl rfl fun _ _ _ => Res.noConfusion
  | unlock done =>
    exact Anchoring.still before rfl rfl done.unposted rfl fun _ _ _ => Res.noConfusion
  | send posting =>
    exact Anchoring.send before sections (Multiset.mem_add.mpr (.inr (mem _ rfl))) posting
  | record postedAt => exact Anchoring.record before
  | @refuse x p rest posting =>
    refine ⟨fun i q there => ?_, before.listed, fun _ _ _ eq => by cases eq⟩
    refine refuses (.refused c p.qpIndex (k.qp c p.qpIndex).posted p.op) ?_ c rfl q
      (List.mem_of_getElem? there)
    simp [Core.note]
  | @pop w ws n seq key rest front below =>
    refine Anchoring.setQp before rfl rfl (fun _ => rfl) (fun q there _ => ?_) rfl rfl
      fun _ _ _ => Res.noConfusion
    rw [Core.qp_eq there] at front
    simp [front]
  | @reclaim w ws x done =>
    have idle : x.unposted = [] := by cases done <;> rfl
    exact Anchoring.setQp before rfl rfl (fun _ => rfl) (fun _ _ => id) idle rfl
      fun _ _ _ => Res.noConfusion

theorem Anchoring.move {cfg : RdmaConfig} {role : Role} {t : Tid} {k k' : Core}
    {F M M' : Multiset Res} {d : Dialled} (move : Move cfg role t k M k' M')
    (refuses : k.RefusesAnchored k') (sections : Sections d k (F + M))
    (before : Guarded AnchoredRest Anchoring k (F + M)) :
    Guarded AnchoredRest Anchoring k' (F + M') := by
  refine before.move move sections (fun c untouched o h => ?_) fun c o o' step mem h => ?_
  · cases o with
    | none => exact Anchoring.frame untouched h
    | some x => exact Anchoring.frame untouched h
  · exact Anchoring.inner sections mem refuses step h

/-- Where `ibv_post_send` refuses a work request, what it took last on each queue
pair of the connection was signalled. -/
def RefusesAnchored {F : Type} (s s' : World F) : Prop :=
  ∀ line ∈ s'.log.drop s.log.length, ∀ c ∈ line.refusedOn, ∀ q ∈ (s.conns c).qps,
    ∀ wr ∈ (posted (s.adapter q.num).sends).getLast?, wr.signalled = true

instance {F : Type} (s s' : World F) : Decidable (RefusesAnchored s s') := by
  unfold RefusesAnchored
  infer_instance

/-- In every run whose refusals come where every queue pair is anchored, and at every
moment when the lock of a connection is free, as it is when `submit` leaves it: on each
queue pair with unretired work requests, the one posted last was posted signalled. -/
theorem anchor_kept {F : Type} [CcReal F] (cfg : RdmaConfig) (d : Dialled)
    (recv : ConnId → Option RecvBuffer) (receives : Nat → Nat) (regions : List (Nat × Mr))
    (nextKey : Nat) (cc : CongestionController F) {p : Pool Call (World F) Answer Reply}
    (run : Run (body cfg) RefusesAnchored (World.start d recv receives regions nextKey cc) p)
    (c : ConnId) (free : (p.shared.conns c).locked = false) :
    ∀ q ∈ (p.shared.conns c).qps, q.unsignalled ≠ [] →
      ∃ wr, (posted (p.shared.adapter q.num).sends).getLast? = some wr ∧ wr.signalled = true := by
  have starts : Guarded AnchoredRest Anchoring
      (World.start d recv receives regions nextKey cc).core 0 := by
    refine ⟨fun c _ => ⟨fun i q _ wr last => ?_, fun q hq some_ => ?_, fun _ _ _ eq => by cases eq⟩,
      fun x hx => by cases hx⟩
    · cases last
    · obtain ⟨num, -, rfl⟩ := List.mem_map.mp hq
      exact absurd rfl some_
  obtain ⟨held, -, -, inv⟩ := run_keeps (Guarded AnchoredRest Anchoring) (fun _ => True) starts
    (fun _ move refuses sections before => Anchoring.move move refuses sections before) run
    fun _ _ => trivial
  intro q hq some_
  have rest := inv.rest c free
  obtain ⟨i, there⟩ := List.getElem?_of_mem hq
  have last := List.getLast?_eq_some_getLast (rest.listed q hq some_)
  exact ⟨_, last, rest.anchors i q there _ last⟩

/-- Every write is signalled, and the second of two is refused. -/
theorem anchor_kept_signalled :
    ∃ p, Run (body Bench.eager) RefusesAnchored (Bench.world makeCcOff) p ∧ p.Quiet ∧
      ((p.shared.conns 0).qps.map fun q => q.unsignalled.length) = [1] ∧
      ∀ q ∈ (p.shared.conns 0).qps, q.unsignalled ≠ [] →
        ∃ wr, (posted (p.shared.adapter q.num).sends).getLast? = some wr ∧
          wr.signalled = true := by
  obtain ⟨p, run, quiet, listed, free⟩ := Run.of_enact (body Bench.eager)
    RefusesAnchored (Bench.world makeCcOff)
    [([.time 0, .code 0],
        [.spawn (.submit (some 0) [Bench.write 0 4, Bench.write 1 4]), .run 0 17]),
      ([.time 0, .code 12], [.run 0 4])]
    (fun p => p.Quiet ∧ ((p.shared.conns 0).qps.map fun q => q.unsignalled.length) = [1] ∧
      (p.shared.conns 0).locked = false) (by decide +kernel)
  exact ⟨p, run, quiet, listed,
    anchor_kept Bench.eager Bench.dialled _ _ _ _ makeCcOff run 0 free⟩

/-- Of a batch of two writes the second was to be the anchor, and `ibv_post_send`
returns `ENOMEM` for it: `submit` has returned, one write is unretired, and it was not
posted signalled. -/
theorem anchor_refused :
    ∃ p, Run (body Bench.sparing) (fun _ _ => True) (Bench.world makeCcOff) p ∧ p.Quiet ∧
      (p.shared.conns 0).locked = false ∧
      ∃ q ∈ (p.shared.conns 0).qps, q.unsignalled ≠ [] ∧
        ∃ wr ∈ (posted (p.shared.adapter q.num).sends).getLast?, wr.signalled = false := by
  exact Run.of_enact _ _ _
    [([.time 0, .code 0],
        [.spawn (.submit (some 0) [Bench.write 0 4, Bench.write 1 4]), .run 0 17]),
      ([.time 0, .code 12], [.run 0 4])]
    _ (by decide +kernel)

end Hux.Rdma
