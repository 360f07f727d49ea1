import Hux.Alone
import Hux.Rdma

/-!
# What threads do to queue pairs

`Core` is what the accounting of the provider is about: the queue pairs and
their locks, what the adapter was given and has completed, where each completion
is, and the bytes counted in flight. A thread inside a call holds resources: a
connection's `qp_mu_` with the batch it plans or posts, the progress turn with
the completions it has still to handle, bytes it claimed. `Move` is a step as
far as the core is concerned, and `follows_body` says that the provider's
programs make no others.
-/

namespace Hux.Rdma
open Interleave (Tid Moves Framed Follows Steps steps_atom)

/-! ## The core -/

structure Core where
  qps : ConnId → List QueuePair
  locked : ConnId → Bool
  sends : Nat → List WorkRequest
  delivered : Nat → Nat
  inflight : CcDirection → Nat
  connByQp : Nat → Option ConnId
  stashed : List Wc
  progressing : Bool
  arrived : List Wc
  polling : List Wc
  verifying : List Wc
  log : List Line
  wraps : Nat
  clamps : Nat
  counted : CcDirection → Multiset Nat
  window : Option Nat

namespace Core

def qp (k : Core) (c : ConnId) (i : Nat) : QueuePair := (k.qps c).getD i { num := 0 }

def setQp (k : Core) (c : ConnId) (i : Nat) (f : QueuePair → QueuePair) : Core :=
  { k with qps := Function.update k.qps c ((k.qps c).modify i f) }

def setLock (k : Core) (c : ConnId) (b : Bool) : Core :=
  { k with locked := Function.update k.locked c b }

def post (k : Core) (num : Nat) (wr : WorkRequest) : Core :=
  { k with sends := Function.update k.sends num (k.sends num ++ [wr]) }

def claim (k : Core) (d : CcDirection) (bytes : Nat) : Core :=
  { k with
    inflight := Function.update k.inflight d (u64 (k.inflight d + bytes))
    wraps := if k.inflight d + bytes < 2 ^ 64 then k.wraps else k.wraps + 1
    counted := Function.update k.counted d (bytes ::ₘ k.counted d) }

def release (k : Core) (d : CcDirection) (bytes : Nat) : Core :=
  { k with
    inflight := Function.update k.inflight d (released (k.inflight d) bytes)
    clamps := if bytes ≤ k.inflight d then k.clamps else k.clamps + 1
    counted := Function.update k.counted d ((k.counted d).erase bytes) }

def note (k : Core) (line : Line) : Core := { k with log := k.log ++ [line] }

def record (k : Core) (c : ConnId) (p : Planned) (seq : Nat) (postedAt : CcTime) : Core :=
  (k.setQp c p.qpIndex (·.record seq p postedAt)).note
    (.accepted c p.qpIndex seq p.op postedAt)

/-- The handling of the first completion in hand is over. -/
def handled (k : Core) (c : ConnId) : Core := { k.setLock c false with polling := k.polling.drop 1 }

def reclaim (k : Core) (c : ConnId) (i seq : Nat) : Core :=
  (k.setQp c i fun q => { q with reclaimed := seq + 1 }).handled c

def drew (k : Core) (ws : List Wc) (delivered : Nat → Nat) : Core :=
  { k with delivered := delivered, arrived := k.arrived ++ ws }

theorem sends_post (k : Core) (num num' : Nat) (wr : WorkRequest) :
    (k.post num wr).sends num' = if num' = num then k.sends num ++ [wr] else k.sends num' :=
  Function.update_apply ..

theorem qps_setQp_self (k : Core) (c : ConnId) (i : Nat) (f : QueuePair → QueuePair) :
    (k.setQp c i f).qps c = (k.qps c).modify i f := Function.update_self ..

theorem qps_setQp_of_ne {c c' : ConnId} (other : c' ≠ c) (k : Core) (i : Nat)
    (f : QueuePair → QueuePair) : (k.setQp c i f).qps c' = k.qps c' :=
  Function.update_of_ne other ..

/-- Each queue pair is the changed one or as it was. -/
theorem of_qps_setQp {k : Core} {c c' : ConnId} {i j : Nat} {f : QueuePair → QueuePair}
    {q' : QueuePair} (there' : ((k.setQp c i f).qps c')[j]? = some q') :
    ∃ q, (k.qps c')[j]? = some q ∧
      ((c' = c ∧ j = i ∧ q' = f q) ∨ (¬(c' = c ∧ j = i) ∧ q' = q)) := by
  by_cases own : c' = c
  · subst own
    rw [qps_setQp_self, List.getElem?_modify] at there'
    obtain ⟨q, there, rfl⟩ := Option.map_eq_some_iff.mp there'
    refine ⟨q, there, ?_⟩
    by_cases here : i = j
    · exact .inl ⟨rfl, here.symm, by rw [if_pos here]⟩
    · exact .inr ⟨fun h => here h.2.symm, by rw [if_neg here]⟩
  · rw [qps_setQp_of_ne own] at there'
    exact ⟨q', there', .inr ⟨fun h => own h.1, rfl⟩⟩

end Core

section
variable {F : Type}

def World.core (s : World F) : Core where
  qps c := (s.conns c).qps
  locked c := (s.conns c).locked
  sends num := (s.adapter num).sends
  delivered num := (s.adapter num).delivered
  inflight := s.cc.inflightBytes
  connByQp num := s.connByQp.lookup num
  stashed := s.stashed
  progressing := s.progressing
  arrived := s.arrived
  polling := s.polling
  verifying := s.verifying
  log := s.log
  wraps := s.wraps
  clamps := s.clamps
  counted d := s.counted.get d
  window := s.cc.fixed

theorem World.core_setConn (s : World F) (c : ConnId) (f : RdmaConnection → RdmaConnection) :
    (s.setConn c f).core =
      { s.core with
        qps := Function.update s.core.qps c (f (s.conns c)).qps
        locked := Function.update s.core.locked c (f (s.conns c)).locked } := by
  simp only [World.core, World.setConn, Core.mk.injEq, and_true]
  constructor <;>
  · funext c'
    by_cases same : c' = c
    · subst same; simp
    · simp [same]

/-- A change to a connection that leaves its queue pairs and its lock. -/
theorem World.core_setConn_same {s : World F} {c : ConnId} {f : RdmaConnection → RdmaConnection}
    (qps : (f (s.conns c)).qps = (s.conns c).qps)
    (locked : (f (s.conns c)).locked = (s.conns c).locked) : (s.setConn c f).core = s.core := by
  rw [World.core_setConn, qps, locked]
  simp [World.core]

theorem World.core_setQp (s : World F) (c : ConnId) (i : Nat) (f : QueuePair → QueuePair) :
    (s.setQp c i f).core = s.core.setQp c i f := by
  rw [World.setQp, World.core_setConn]
  simp [Core.setQp, World.core]

theorem World.core_unlock (s : World F) (c : ConnId) :
    (s.unlock c).core = s.core.setLock c false := by
  rw [World.unlock, World.core_setConn]
  simp [Core.setLock, World.core]

theorem World.core_post (s : World F) (num : Nat) (wr : WorkRequest) :
    ({ s with adapter := s.adapter.post num wr } : World F).core = s.core.post num wr := by
  simp only [World.core, Core.post, Core.mk.injEq, and_true, true_and, Adapter.post]
  constructor <;>
  · funext n
    by_cases same : n = num
    · subst same; simp
    · simp [same]

theorem World.core_onPost [CcReal F] (s : World F) (d : CcDirection) (bytes : Nat) (now : CcTime) :
    (s.onPost d bytes now).core = s.core.claim d bytes := by
  simp only [World.core, World.onPost, Core.claim, Core.mk.injEq, true_and]
  refine ⟨?_, rfl, ?_, s.cc.fixed_onPost d bytes now⟩
  · funext d'
    rw [CongestionController.inflightBytes_onPost, Function.update_apply]
  · funext d'
    rw [PerDirection.get_modify, Function.update_apply]
    split <;> rfl

/-- Both ways of giving bytes back. -/
theorem World.core_release (s : World F) (d : CcDirection) (bytes : Nat)
    (cc : CongestionController F) (gives : ∀ d', cc.inflightBytes d' =
      if d' = d then released (s.cc.inflightBytes d) bytes else s.cc.inflightBytes d')
    (fixed : cc.fixed = s.cc.fixed) : (s.release d bytes cc).core = s.core.release d bytes := by
  simp only [World.core, World.release, Core.release, Core.mk.injEq, true_and]
  refine ⟨?_, rfl, ?_, fixed⟩
  · funext d'
    rw [gives, Function.update_apply]
  · funext d'
    rw [PerDirection.get_modify, Function.update_apply]
    split <;> simp

end

/-! ## Drawing completions -/

/-- Completions the adapter can put out, with what it has then delivered. -/
inductive Draws (sends : Nat → List WorkRequest) :
    (Nat → Nat) → List Wc → (Nat → Nat) → Prop
  | nil (delivered : Nat → Nat) : Draws sends delivered [] delivered
  | sent {delivered delivered' : Nat → Nat} {w : Wc} {ws : List Wc} (skip : Nat) {wr : WorkRequest}
      (there : (sends w.qpNum)[delivered w.qpNum + skip]? = some wr) (id : w.wrId = wr.wrId)
      (rest : Draws sends
        (Function.update delivered w.qpNum (delivered w.qpNum + skip + 1)) ws delivered') :
      Draws sends delivered (w :: ws) delivered'
  | received {delivered delivered' : Nat → Nat} {w : Wc} {ws : List Wc} (id : w.wrId = kRecvWrId)
      (rest : Draws sends delivered ws delivered') : Draws sends delivered (w :: ws) delivered'

/-- Putting one completion out leaves what was posted. -/
theorem Adapter.deliver_spec {a a' : Adapter} {d : Delivery} {w : Wc}
    (h : a.deliver d = some (w, a')) :
    (fun num => (a' num).sends) = (fun num => (a num).sends) ∧
      ∀ ws delivered',
        Draws (fun num => (a' num).sends) (fun num => (a' num).delivered) ws delivered' →
        Draws (fun num => (a num).sends) (fun num => (a num).delivered) (w :: ws) delivered' := by
  cases d with
  | sent num skip status =>
    simp only [Adapter.deliver] at h
    split at h
    · rename_i wr there
      cases h
      have sends : (fun n => (Function.update a num
          { a num with delivered := (a num).delivered + skip + 1 } n).sends) =
          fun n => (a n).sends := by
        funext n
        by_cases same : n = num
        · subst same; simp
        · simp [same]
      refine ⟨sends, fun ws delivered' rest => .sent skip there rfl ?_⟩
      rw [sends] at rest
      convert rest using 1
      funext n
      by_cases same : n = num
      · subst same; simp
      · simp [same]
    · cases h
  | received num status imm =>
    simp only [Adapter.deliver] at h
    split at h
    · cases h
    · cases h
      have same {α : Type} (f : Qp → α) (unread : ∀ q r, f { q with receives := r } = f q) :
          (fun n => f (Function.update a num { a num with receives := (a num).receives - 1 } n)) =
            fun n => f (a n) := by
        funext n
        by_cases same : n = num
        · subst same; simp [unread]
        · simp [same]
      refine ⟨same Qp.sends fun _ _ => rfl, fun ws delivered' rest => .received rfl ?_⟩
      rwa [same Qp.sends fun _ _ => rfl, same Qp.delivered fun _ _ => rfl] at rest

theorem Adapter.deliverAll_spec {a a' : Adapter} {ds : List Delivery} {ws : List Wc}
    (h : a.deliverAll ds = some (ws, a')) :
    (fun num => (a' num).sends) = (fun num => (a num).sends) ∧
      Draws (fun num => (a num).sends) (fun num => (a num).delivered) ws
        (fun num => (a' num).delivered) := by
  induction ds generalizing a ws with
  | nil =>
    cases h
    exact ⟨rfl, .nil _⟩
  | cons d rest ih =>
    simp only [Adapter.deliverAll] at h
    split at h
    · rename_i w a₁ first
      obtain ⟨⟨ws', a₂⟩, more, eq⟩ := Option.map_eq_some_iff.mp h
      cases eq
      obtain ⟨sends, draws⟩ := ih more
      obtain ⟨sends₁, extend⟩ := Adapter.deliver_spec first
      exact ⟨sends.trans sends₁, extend _ _ draws⟩
    · cases h

theorem transfer_of_recv {w : Wc} (id : w.wrId = kRecvWrId) : w.transfer = false := by
  simp [Wc.transfer, id, kRecvWrId]

/-! ## Resources and moves -/

inductive Res
  /-- Bytes counted in flight for an operation in no list. -/
  | claim (d : CcDirection) (bytes : Nat)
  /-- `qp_mu_` of a connection, with the queue pairs as they are and a plan. -/
  | planning (c : ConnId) (qps : List QueuePair) (plan : List Planned)
  /-- What is left to post. -/
  | sending (c : ConnId) (rest : List Planned)
  /-- The adapter has taken `p`, and it is not recorded yet. -/
  | sent (c : ConnId) (p : Planned) (seq : Nat) (rest : List Planned)
  | holding (c : ConnId)
  /-- The progress turn, with the transfers' completions not handled yet. -/
  | turn (ws : List Wc)
  /-- The connection of the first one is known. -/
  | found (c : ConnId) (w : Wc) (ws : List Wc)
  /-- Its lock is taken; there is no such queue pair. -/
  | missed (c : ConnId) (w : Wc) (ws : List Wc)
  /-- So many entries are left to look at. -/
  | retiring (c : ConnId) (w : Wc) (n : Nat) (ws : List Wc)
  /-- An entry is off the list and not reported yet. -/
  | popped (c : ConnId) (w : Wc) (seq : Nat) (key : InflightKey) (n : Nat) (ws : List Wc)
  | retired (c : ConnId) (w : Wc) (ws : List Wc)
  /-- Completions of transfers drawn while verifying a path. -/
  | drawn (ws : List Wc)
  deriving DecidableEq

/-- The batch of a thread that has a connection's lock, to be posted next. -/
inductive Posting (c : ConnId) : Res → List Planned → Prop
  | planned (qps : List QueuePair) (plan : List Planned) :
      Posting c (.planning c qps plan) (anchored plan)
  | sending (rest : List Planned) : Posting c (.sending c rest) rest

/-- Nothing of the batch is left to post. -/
inductive Over (c : ConnId) : Res → Prop
  | holding : Over c (.holding c)
  | posting {x : Res} : Posting c x [] → Over c x

/-- The retire loop is at its end. -/
inductive Retired (c : ConnId) (w : Wc) (ws : List Wc) : Res → Prop
  | stopped : Retired c w ws (.retired c w ws)
  | exhausted : Retired c w ws (.retiring c w 0 ws)

/-- What is drawn and not set aside, if anything is. -/
def inHand (ws : List Wc) : Multiset Res := if ws = [] then 0 else {.drawn ws}

theorem eq_of_mem_inHand {ws : List Wc} {x : Res} (hx : x ∈ inHand ws) : x = .drawn ws := by
  unfold inHand at hx
  split at hx
  · cases hx
  · exact Multiset.mem_singleton.mp hx

/-- What a call may do that not every call does: claim bytes and give them back, or
draw completions and set them aside. -/
inductive Role
  | transfers | verifies | other
  deriving DecidableEq

def Call.role : Call → Role
  | .submit _ _ | .poll _ => .transfers
  | .verifyPath _ _ _ => .verifies
  | .registerRegion _ _ | .deregisterRegion _ | .disconnect _ => .other

inductive Move (cfg : RdmaConfig) (role : Role) (t : Tid) :
    Core → Multiset Res → Core → Multiset Res → Prop
  | still (k : Core) : Move cfg role t k 0 k 0
  | lock {k : Core} {c : ConnId} (free : k.locked c = false) :
      Move cfg role t k 0 (k.setLock c true) {.planning c (k.qps c) []}
  | plan {k : Core} {c : ConnId} {qps : List QueuePair} {plan : List Planned} {p : Planned}
      {q : QueuePair} (spend : role = .transfers) (there : qps[p.qpIndex]? = some q)
      (room : sub64 (q.posted + plan.countP (·.qpIndex = p.qpIndex)) q.reclaimed < cfg.sqDepth) :
      Move cfg role t k {.planning c qps plan} (k.claim (directionOf p.op) p.op.length)
        ({.planning c qps (plan ++ [p])} + {.claim (directionOf p.op) p.op.length})
  | send {k : Core} {c : ConnId} {x : Res} {p : Planned} {rest : List Planned}
      (posting : Posting c x (p :: rest)) :
      Move cfg role t k {x}
        (k.post (k.qp c p.qpIndex).num (p.workRequest (k.qp c p.qpIndex).posted))
        {.sent c p (k.qp c p.qpIndex).posted rest}
  | refuse {k : Core} {c : ConnId} {x : Res} {p : Planned} {rest : List Planned}
      (posting : Posting c x (p :: rest)) :
      Move cfg role t k {x}
        (k.note (.refused c p.qpIndex (k.qp c p.qpIndex).posted p.op))
        {.holding c}
  | record {k : Core} {c : ConnId} {p : Planned} {seq : Nat} {rest : List Planned}
      (spend : role = .transfers) (postedAt : CcTime) :
      Move cfg role t k ({.sent c p seq rest} + {.claim (directionOf p.op) p.op.length})
        (k.record c p seq postedAt) {.sending c rest}
  | giveBack {k : Core} (spend : role = .transfers) (d : CcDirection) (bytes : Nat) :
      Move cfg role t k {.claim d bytes} (k.release d bytes) 0
  | unlock {k : Core} {c : ConnId} {x : Res} (over_ : Over c x) :
      Move cfg role t k {x} (k.setLock c false) 0
  | enter {k : Core} (free : k.progressing = false) :
      Move cfg role t k 0 { k with progressing := true } {.turn []}
  | unstash {k : Core} (n : Nat) :
      Move cfg role t k {.turn []}
        { k with
          stashed := k.stashed.drop n
          polling := k.polling ++ (k.stashed.take n).filter Wc.transfer }
        {.turn ((k.stashed.take n).filter Wc.transfer)}
  | draw {k : Core} {ws new : List Wc} {delivered : Nat → Nat}
      (draws : Draws k.sends k.delivered new delivered) :
      Move cfg role t k {.turn ws}
        { k.drew new delivered with polling := k.polling ++ new.filter Wc.transfer }
        {.turn (ws ++ new.filter Wc.transfer)}
  | lose {k : Core} {w : Wc} {ws : List Wc} (unknown : k.connByQp w.qpNum = none) :
      Move cfg role t k {.turn (w :: ws)} { k with polling := k.polling.drop 1 } {.turn ws}
  | find {k : Core} {c : ConnId} {w : Wc} {ws : List Wc} (known : k.connByQp w.qpNum = some c) :
      Move cfg role t k {.turn (w :: ws)} k {.found c w ws}
  | open_ {k : Core} {c : ConnId} {w : Wc} {ws : List Wc} {q : QueuePair}
      (free : k.locked c = false) (there : (k.qps c)[wrQpIndex w.wrId]? = some q) :
      Move cfg role t k {.found c w ws} (k.setLock c true) {.retiring c w q.unsignalled.length ws}
  | miss {k : Core} {c : ConnId} {w : Wc} {ws : List Wc}
      (free : k.locked c = false) (missing : (k.qps c)[wrQpIndex w.wrId]? = none) :
      Move cfg role t k {.found c w ws} (k.setLock c true) {.missed c w ws}
  | skip {k : Core} {c : ConnId} {w : Wc} {ws : List Wc} :
      Move cfg role t k {.missed c w ws} (k.handled c) {.turn ws}
  | pop {k : Core} {c : ConnId} {w : Wc} {ws : List Wc} {n seq : Nat} {key : InflightKey}
      {rest : List (Nat × InflightKey)} (spend : role = .transfers)
      (front : (k.qp c (wrQpIndex w.wrId)).unsignalled = (seq, key) :: rest)
      (below : seq ≤ wrSeq w.wrId) :
      Move cfg role t k {.retiring c w (n + 1) ws}
        (k.setQp c (wrQpIndex w.wrId) fun q => { q with unsignalled := rest })
        ({.popped c w seq key n ws} + {.claim key.direction key.bytes})
  | report {k : Core} {c : ConnId} {w : Wc} {ws : List Wc} {n seq : Nat} {key : InflightKey} :
      Move cfg role t k {.popped c w seq key n ws}
        (k.note (.reported t c (wrQpIndex w.wrId) seq (key.event w)))
        {.retiring c w n ws}
  | stop {k : Core} {c : ConnId} {w : Wc} {ws : List Wc} {n : Nat}
      (front : ∀ x ∈ (k.qp c (wrQpIndex w.wrId)).unsignalled.head?, wrSeq w.wrId < x.1) :
      Move cfg role t k {.retiring c w (n + 1) ws} k {.retired c w ws}
  | reclaim {k : Core} {c : ConnId} {w : Wc} {ws : List Wc} {x : Res} (done : Retired c w ws x) :
      Move cfg role t k {x} (k.reclaim c (wrQpIndex w.wrId) (wrSeq w.wrId)) {.turn ws}
  | leave {k : Core} : Move cfg role t k {.turn []} { k with progressing := false } 0
  | prove {k : Core} {num : Nat} {wr : WorkRequest} (id : wr.wrId = kVerifyWrId)
      (opcode : wr.opcode = .send) : Move cfg role t k 0 (k.post num wr) 0
  | fetch {k : Core} {new : List Wc} {delivered : Nat → Nat} (verify : role = .verifies)
      (draws : Draws k.sends k.delivered new delivered) :
      Move cfg role t k 0
        { k.drew new delivered with verifying := k.verifying ++ new.filter Wc.transfer }
        (inHand (new.filter Wc.transfer))
  | setAside {k : Core} {w : Wc} {ws : List Wc} (verify : role = .verifies) :
      Move cfg role t k {.drawn (w :: ws)}
        { k with stashed := k.stashed ++ [w], verifying := k.verifying.erase w } (inHand ws)

/-! ## Programs -/

section
variable {F : Type} {cfg : RdmaConfig} {role : Role} {t : Tid} {α β : Type}

def moves (F : Type) (cfg : RdmaConfig) (role : Role) : Moves (World F) Res := fun t s M s' M' =>
  Move cfg role t s.core M s'.core M'

abbrev Keeps (cfg : RdmaConfig) (role : Role) (t : Tid) (p : Provider F α)
    (Q : α → Multiset Res → Prop) (M : Multiset Res) : Prop :=
  Follows (moves F cfg role) t p Q M

/-- Programs that leave the core as it is. -/
def Idle (p : Provider F α) : Prop := Steps (fun s s' => s'.core = s.core) p

theorem Idle.keeps {p : Provider F α} (idle : Idle p) (M : Multiset Res) :
    Keeps cfg role t p (fun _ M' => M' = M) M := by
  refine Steps.follows idle ?_ M
  intro s s' same
  unfold moves
  rw [same]
  exact .still _

variable {M : Multiset Res}

theorem Idle.next {p : Provider F α} {g : α → Provider F β} {Q : β → Multiset Res → Prop}
    (idle : Idle p) (rest : ∀ a, Keeps cfg role t (g a) Q M) : Keeps cfg role t (p >>= g) Q M := by
  refine Follows.onto (idle.keeps M) fun a => ?_
  exact rest a

theorem idle_look (f : World F → α) : Idle (look f) := by
  refine steps_atom fun t s e b s' step => ?_
  cases step
  rfl

theorem idle_exchange {f : World F → α × World F} (same : ∀ s, (f s).2.core = s.core) :
    Idle (exchange f) := by
  refine steps_atom fun t s e b s' step => ?_
  cases step
  exact same s

theorem idle_update {f : World F → World F} (same : ∀ s, (f s).core = s.core) :
    Idle (update f) := idle_exchange same

theorem idle_clock : Idle (clock : Provider F CcTime) := by
  refine steps_atom fun t s e b s' step => ?_
  split at step
  · cases step
    rfl
  · cases step

theorem idle_verb {f : World F → Int → World F} (same : ∀ s rc, (f s rc).core = s.core) :
    Idle (verb f) := by
  refine steps_atom fun t s e b s' step => ?_
  split at step
  · cases step
    exact same _ _
  · cases step

theorem idle_submitCapacity (c : ConnId) : Idle (submitCapacity cfg c : Provider F Nat) := by
  refine steps_atom fun t s e b s' step => ?_
  split at step
  · cases step
  · cases step
    rfl

theorem idle_markFailed (c : ConnId) : Idle (markFailed c : Provider F Unit) :=
  idle_update fun _ => World.core_setConn_same rfl rfl

theorem idle_countPosted (op : SubOp) : Idle (countPosted op : Provider F Unit) :=
  idle_update fun _ => rfl

theorem idle_registerRegion (address length : Nat) :
    Idle (registerRegion address length : Provider F (Status × Nat × Nat)) := by
  unfold registerRegion
  apply Steps.ite
  · exact trivial
  · refine steps_atom fun t s e b s' step => ?_
    split at step
    · cases step
      rfl
    · cases step
      rfl
    · cases step

theorem idle_deregisterRegion (localKey : Nat) :
    Idle (deregisterRegion localKey : Provider F Status) := by
  apply Steps.bind (idle_exchange fun _ => rfl)
  intro mr
  cases mr with
  | none => exact trivial
  | some mr => exact Steps.bind (idle_verb fun _ _ => rfl) fun _ => trivial

theorem idle_noteVerified (num : Nat) (st : WcStatus) :
    Idle (noteVerified num st : Provider F Unit) := idle_update fun _ => rfl

theorem idle_takeVerified (num : Nat) : Idle (takeVerified num : Provider F (Option WcStatus)) :=
  idle_exchange fun _ => rfl

theorem World.core_postRecv (s : World F) (num : Nat) :
    ({ s with adapter := s.adapter.postRecv num } : World F).core = s.core := by
  simp only [World.core, Core.mk.injEq, Adapter.postRecv, and_true, true_and]
  constructor <;>
  · funext n
    by_cases same : n = num
    · subst same; simp
    · simp [same]

theorem World.core_repostReceive (s : World F) (num : Nat) (rc : Int) :
    (s.repostReceive num rc).core = s.core := by
  unfold World.repostReceive
  split
  · rfl
  · split
    · split
      · exact s.core_postRecv _
      · rfl
    · rfl

theorem idle_absorbReceive (w : Wc) : Idle (absorbReceive w : Provider F Unit) := by
  unfold Idle absorbReceive noteArrival
  apply Steps.bind
  · apply Steps.ite
    · exact idle_update fun _ => rfl
    · exact trivial
  · intro _
    apply Steps.ite
    · exact trivial
    · exact Steps.bind (idle_verb fun s rc => s.core_repostReceive w.qpNum rc) fun _ => trivial

theorem idle_errorLoop (qps : List QueuePair) (first : Status) :
    Idle (errorLoop qps first : Provider F Status) := by
  induction qps generalizing first with
  | nil => exact trivial
  | cons q rest ih => exact Steps.bind (idle_verb fun _ _ => rfl) fun _ => ih _

/-! ## Atoms that move -/

theorem keeps_exchange {f : World F → α × World F} {Q : α → Multiset Res → Prop}
    (h : ∀ s, ∃ M', Move cfg role t s.core M (f s).2.core M' ∧ Q (f s).1 M') :
    Keeps cfg role t (exchange f) Q M := by
  intro s e b s' step
  cases step
  obtain ⟨M', move, post⟩ := h s
  exact ⟨M', Framed.of move, post⟩

theorem keeps_update {f : World F → World F} {M' : Multiset Res}
    (h : ∀ s, Move cfg role t s.core M (f s).core M') :
    Keeps cfg role t (update f) (fun _ M₁ => M₁ = M') M :=
  keeps_exchange fun s => ⟨M', h s, rfl⟩

theorem keeps_lockQp {c : ConnId} {Q : List QueuePair → Multiset Res → Prop}
    (h : ∀ k : Core, k.locked c = false →
      ∃ M', Move cfg role t k M (k.setLock c true) M' ∧ Q (k.qps c) M') :
    Keeps cfg role t (lockQp c : Provider F (List QueuePair)) Q M := by
  intro s e b s' step
  dsimp only at step
  split at step
  · cases step
  · rename_i free
    cases step
    obtain ⟨M', move, post⟩ := h s.core (by simpa [World.core] using free)
    have core : (s.setConn c fun conn => { conn with locked := true }).core =
        s.core.setLock c true := by
      rw [World.core_setConn]
      simp [Core.setLock, World.core]
    refine ⟨M', Framed.of ?_, post⟩
    unfold moves
    rw [core]
    exact move

theorem keeps_unlockQp {c : ConnId} {x : Res} (done : Over c x) :
    Keeps cfg role t (unlockQp c : Provider F Unit) (fun _ M => M = 0) {x} := by
  apply keeps_update
  intro s
  rw [World.core_unlock]
  exact .unlock done

theorem keeps_ccOnError (d : CcDirection) (bytes : Nat) :
    Keeps cfg .transfers t (ccOnError d bytes : Provider F Unit) (fun _ M => M = 0)
      {.claim d bytes} := by
  apply keeps_update
  intro s
  rw [World.core_release]
  · exact .giveBack rfl d bytes
  · intro d'
    exact CongestionController.inflightBytes_onError ..
  · exact CongestionController.fixed_onError ..

theorem keeps_drainCq {max : Int} {mark : List Wc → World F → World F}
    {Q : Option (List Wc) → Multiset Res → Prop} (nothing : Q (some []) M) (failed : Q none M)
    (h : ∀ (s s' : World F) new delivered, Draws s.core.sends s.core.delivered new delivered →
      s'.core = s.core.drew new delivered →
      ∃ M', Move cfg role t s.core M (mark new s').core M' ∧ Q (some new) M') :
    Keeps cfg role t (drainCq max mark) Q M := by
  unfold drainCq
  split
  · exact nothing
  · intro s e b s' step
    dsimp only at step
    split at step
    · split at step
      · obtain ⟨⟨new, a⟩, delivered, eq⟩ := Option.map_eq_some_iff.mp step
        cases eq
        obtain ⟨sends, draws⟩ := Adapter.deliverAll_spec delivered
        obtain ⟨M', move, post⟩ := h s { s with adapter := a, arrived := s.arrived ++ new } new
          (fun num => (a num).delivered) draws (by simp [World.core, Core.drew, sends])
        exact ⟨M', Framed.of move, post⟩
      · cases step
    · cases step
      exact ⟨M, ⟨M, 0, 0, (add_zero M).symm, (add_zero M).symm, .still _⟩, failed⟩
    · cases step

end

/-! ## Submitting -/

/-- The budget claimed for operations planned and not posted. -/
def claims (ps : List Planned) : Multiset Res :=
  ps.map fun p => Res.claim (directionOf p.op) p.op.length

@[simp] theorem claims_nil : claims [] = 0 := rfl

theorem claims_cons (p : Planned) (ps : List Planned) :
    claims (p :: ps) = claims ps + {.claim (directionOf p.op) p.op.length} := by
  rw [add_comm, Multiset.singleton_add]
  rfl

theorem claims_append (ps ps' : List Planned) : claims (ps ++ ps') = claims ps + claims ps' := by
  simp [claims]

theorem claims_anchored (ps : List Planned) : claims (anchored ps) = claims ps := by
  induction ps with
  | nil => rfl
  | cons p rest ih => rw [anchored, claims_cons, claims_cons, ih]

theorem sub64_congr {a a' : Nat} (same : u64 a = u64 a') (b : Nat) : sub64 a b = sub64 a' b := by
  unfold sub64 u64 at *
  rw [Nat.add_mod, same, ← Nat.add_mod]

/-- The picked queue pair is one of them. -/
theorem pickFrom_mem {depth : Nat} {qps : List QueuePair} {nextQp j : Nat}
    (picked : pickFrom depth qps nextQp = some j) : ∃ q, qps[j]? = some q := by
  suffices main : ∀ (l : List Nat) (best : Option Nat × Nat),
      (∀ j, best.1 = some j → ∃ q, qps[j]? = some q) →
      ∀ j, (l.foldl (pickStep depth qps nextQp) best).1 = some j → ∃ q, qps[j]? = some q from
    main _ (none, 0) (by simp) j picked
  intro l
  induction l with
  | nil => exact fun best start => start
  | cons i rest ih =>
    intro best start
    apply ih
    intro j hj
    dsimp only [pickStep] at hj
    cases there : qps[(nextQp + i) % qps.length]? with
    | none =>
      rw [there] at hj
      exact start j hj
    | some q =>
      rw [there] at hj
      dsimp only at hj
      split at hj
      · cases hj
        exact ⟨q, there⟩
      · exact start j hj

/-- `next_seq` counts the plan on top of what is posted. -/
structure Planning.Tracks (g : Planning) (qps : List QueuePair) : Prop where
  length : g.nextSeq.length = qps.length
  seq : ∀ qi q, qps[qi]? = some q →
    u64 (g.nextSeq.getD qi 0) = u64 (q.posted + g.plan.countP (·.qpIndex = qi))

theorem Planning.tracks_init (qps : List QueuePair) : (Planning.init qps).Tracks qps where
  length := by simp [Planning.init]
  seq qi q there := by simp [Planning.init, there]

theorem Planning.Tracks.push {g : Planning} {qps : List QueuePair} (tracks : g.Tracks qps)
    (cfg : RdmaConfig) (qi : Nat) (op : SubOp) (mr : Mr) :
    (g.push cfg qps qi op mr).Tracks qps where
  length := by simpa [Planning.push] using tracks.length
  seq qj q there := by
    have before := tracks.seq qj q there
    simp only [Planning.push, List.countP_append, List.countP_singleton]
    by_cases same : qi = qj
    · subst same
      have bound : qi < g.nextSeq.length := by
        rw [tracks.length]
        exact (List.getElem?_eq_some_iff.mp there).1
      simp only [List.getD_eq_getElem?_getD, List.getElem?_modify_eq,
        List.getElem?_eq_getElem bound, Option.map_eq_map, Option.map_some,
        Option.getD_some] at *
      simp only [u64, decide_true, ↓reduceIte] at *
      omega
    · simp only [List.getD_eq_getElem?_getD, List.getElem?_modify, same] at *
      simpa using before

theorem Planning.push_plan (cfg : RdmaConfig) (g : Planning) (qps : List QueuePair) (qi : Nat)
    (op : SubOp) (mr : Mr) :
    ∃ p : Planned, (g.push cfg qps qi op mr).plan = g.plan ++ [p] ∧ p.qpIndex = qi ∧ p.op = op :=
  ⟨_, rfl, rfl, rfl⟩

section
variable {F : Type} {cfg : RdmaConfig} {role : Role} {t : Tid}

variable {c : ConnId} {qps : List QueuePair}

/-- What is known of a picked queue pair's index, for any state. -/
theorem keeps_pickQueuePairLocked {M : Multiset Res} :
    Keeps cfg role t (pickQueuePairLocked cfg c qps : Provider F (Option Nat))
      (fun q M' => M' = M ∧ ∀ qi, q = some qi → ∃ x, qps[qi]? = some x) M := by
  intro s e b s' step
  cases step
  refine ⟨M, ⟨M, 0, 0, (add_zero M).symm, (add_zero M).symm, ?_⟩, rfl, fun qi => pickFrom_mem⟩
  unfold moves
  rw [World.core_setConn_same rfl rfl]
  exact .still _

variable {p : Planned}

theorem keeps_ccOnPost [CcReal F] {plan : List Planned} {q : QueuePair}
    (there : qps[p.qpIndex]? = some q)
    (room : sub64 (q.posted + plan.countP (·.qpIndex = p.qpIndex)) q.reclaimed < cfg.sqDepth)
    (now : CcTime) :
    Keeps cfg .transfers t (ccOnPost (directionOf p.op) p.op.length now : Provider F Unit)
      (fun _ M => M = {.planning c qps (plan ++ [p])} + {.claim (directionOf p.op) p.op.length})
      {.planning c qps plan} := by
  apply keeps_update
  intro s
  rw [World.core_onPost]
  exact .plan rfl there room

theorem keeps_planLoop [CcReal F] (ops : List SubOp) (g : Planning) (tracks : g.Tracks qps) :
    Keeps cfg .transfers t (planLoop cfg c qps ops g : Provider F (Status × List Planned))
      (fun r M => M = claims r.2 + {.planning c qps r.2})
      (claims g.plan + {.planning c qps g.plan}) := by
  induction ops generalizing g with
  | nil => exact rfl
  | cons op rest ih =>
    refine (idle_look _).next fun mr => ?_
    cases mr with
    | none => exact rfl
    | some mr =>
      apply Follows.bind keeps_pickQueuePairLocked
      rintro q _ ⟨rfl, valid⟩
      cases q with
      | none => exact rfl
      | some qi =>
        obtain ⟨q, there⟩ := valid qi rfl
        dsimp only
        split
        · exact rfl
        · rename_i room
          refine idle_clock.next fun planTime => ?_
          refine (idle_look _).next fun verdict => ?_
          split
          · exact rfl
          · obtain ⟨p, extended, rfl, rfl⟩ := g.push_plan cfg qps qi op mr
            have follows := ih _ (tracks.push cfg p.qpIndex p.op mr)
            rw [extended, claims_append, add_assoc] at follows
            apply Follows.seq (keeps_ccOnPost there ?_ planTime)
            · rintro _ _ rfl
              rwa [add_comm {Res.planning c qps _}]
            · rw [← sub64_congr (tracks.seq _ _ there)]
              simpa [Planning.used, there] using room

theorem keeps_recordPost {seq : Nat} {rest : List Planned} (postedAt : CcTime) :
    Keeps cfg .transfers t (recordPost c p seq postedAt : Provider F Unit)
      (fun _ M => M = {.sending c rest})
      ({.sent c p seq rest} + {.claim (directionOf p.op) p.op.length}) := by
  apply keeps_update
  intro s
  have core : ({ s.setQp c p.qpIndex (·.record seq p postedAt) with
      log := s.log ++ [.accepted c p.qpIndex seq p.op postedAt] } : World F).core =
      s.core.record c p seq postedAt := by
    unfold Core.record
    rw [← World.core_setQp]
    rfl
  rw [core]
  exact .record rfl postedAt

theorem keeps_postSend {x : Res} {rest : List Planned} (posting : Posting c x (p :: rest)) :
    Keeps cfg role t (postSend c p : Provider F (Int × Nat))
      (fun r M => if r.1 = 0 then M = {.sent c p r.2 rest} else M = {.holding c}) {x} := by
  intro s e b s' step
  dsimp only at step
  split at step
  · rename_i rc
    cases step
    by_cases taken : rc = 0
    · refine ⟨{.sent c p (s.qp c p.qpIndex).posted rest}, Framed.of ?_,
        Follows.ret (Eq.mpr (if_pos taken) rfl)⟩
      unfold moves
      rw [if_pos taken, World.core_post]
      exact .send posting
    · refine ⟨{.holding c}, Framed.of ?_, Follows.ret (Eq.mpr (if_neg taken) rfl)⟩
      unfold moves
      rw [if_neg taken]
      exact .refuse posting
  · cases step

theorem keeps_postLoop (plan : List Planned) {x : Res} (posting : Posting c x plan)
    (r : SubmitResult) :
    Keeps cfg .transfers t (postLoop c plan r : Provider F (SubmitResult × List Planned))
      (fun r M => ∃ x, Over c x ∧ M = claims r.2 + {x}) (claims plan + {x}) := by
  induction plan generalizing x r with
  | nil => exact ⟨x, .posting posting, rfl⟩
  | cons p rest ih =>
    apply Follows.seq (keeps_postSend posting)
    rintro ⟨rc, seq⟩ M post
    dsimp only at *
    by_cases taken : rc = 0
    · rw [if_pos taken] at post
      subst post
      rw [if_neg (not_not.mpr taken)]
      refine idle_clock.next fun postedAt => ?_
      rw [claims_cons, add_assoc, add_comm {Res.claim _ _}]
      refine Follows.beside (keeps_recordPost postedAt) fun _ => ?_
      refine (idle_countPosted p.op).next fun _ => ?_
      exact ih (.sending rest) _
    · rw [if_neg taken] at post
      subst post
      rw [if_pos taken]
      exact ⟨_, .holding, rfl⟩

theorem keeps_releaseLoop (ps : List Planned) :
    Keeps cfg .transfers t (releaseLoop ps : Provider F Unit) (fun _ M => M = 0) (claims ps) := by
  induction ps with
  | nil => exact rfl
  | cons p rest ih =>
    refine idle_clock.next fun _ => ?_
    rw [claims_cons]
    exact Follows.spend (keeps_ccOnError _ _) fun _ => ih

/-- What `submit` does with its plan. -/
theorem keeps_postPlan (qps : List QueuePair) (status : Status) (plan : List Planned) :
    Keeps cfg .transfers t (do
        let (r, unposted) ← postLoop c (anchored plan) ⟨0, status, 0⟩
        releaseLoop unposted
        unlockQp c
        pure r : Provider F SubmitResult)
      (fun _ M => M = 0) (claims plan + {.planning c qps plan}) := by
  rw [← claims_anchored]
  apply Follows.bind (keeps_postLoop _ (.planned qps plan) _)
  rintro ⟨r, unposted⟩ _ ⟨x, done, rfl⟩
  dsimp only
  rw [add_comm]
  refine Follows.spend (keeps_releaseLoop unposted) fun _ => ?_
  exact Follows.onto (keeps_unlockQp done) fun _ => rfl

theorem keeps_submit [CcReal F] (conn : Option ConnId) (ops : List SubOp) :
    Keeps cfg .transfers t (submit cfg conn ops : Provider F SubmitResult)
      (fun _ M => M = 0) 0 := by
  cases conn with
  | none => exact rfl
  | some c =>
    refine (idle_look _).next fun failed => ?_
    split
    · exact rfl
    · split
      · exact rfl
      · refine (idle_submitCapacity c).next fun capacity => ?_
        split
        · exact rfl
        · have locks : Keeps cfg .transfers t (lockQp c : Provider F (List QueuePair))
              (fun qps M => M = {.planning c qps []}) 0 :=
            keeps_lockQp fun k free => ⟨_, .lock free, rfl⟩
          refine Follows.onto locks fun qps => ?_
          have plans : Keeps cfg .transfers t (planLoop cfg c qps ops (.init qps) : Provider F _)
              (fun r M => M = claims r.2 + {.planning c qps r.2}) {.planning c qps []} := by
            simpa [Planning.init] using keeps_planLoop ops (.init qps) (Planning.tracks_init qps)
          apply Follows.bind plans
          rintro ⟨status, plan⟩ _ rfl
          exact keeps_postPlan qps status plan

/-! ## Polling -/

theorem keeps_giveBack [CcReal F] (key : InflightKey) (w : Wc) (completedAt : CcTime) :
    Keeps cfg .transfers t (giveBack key w completedAt : Provider F Unit) (fun _ M => M = 0)
      {.claim key.direction key.bytes} := by
  unfold giveBack
  split
  · apply keeps_update
    intro s
    rw [World.core_release]
    · exact .giveBack rfl _ _
    · intro d'
      exact CongestionController.inflightBytes_onFeedback ..
    · exact CongestionController.fixed_onFeedback ..
  · exact keeps_ccOnError _ _

/-- What the loop condition has found. -/
def Front (c : ConnId) (w : Wc) (n : Nat) (ws : List Wc) (front : Option (Nat × InflightKey))
    (M : Multiset Res) : Prop :=
  match front with
  | none => M = {.retired c w ws}
  | some x => M = {.popped c w x.1 x.2 n ws} + {.claim x.2.direction x.2.bytes}

variable {w : Wc} {ws : List Wc}

theorem keeps_popFront {n : Nat} :
    Keeps cfg .transfers t (popFront c (wrQpIndex w.wrId) (wrSeq w.wrId) :
        Provider F (Option (Nat × InflightKey)))
      (Front c w n ws) {.retiring c w (n + 1) ws} := by
  apply keeps_exchange
  intro s
  have same : s.core.qp c (wrQpIndex w.wrId) = s.qp c (wrQpIndex w.wrId) := rfl
  split
  · rename_i empty
    exact ⟨_, .stop (by simp [same, empty]), rfl⟩
  · rename_i x rest front
    split
    · rename_i below
      refine ⟨_, ?_, rfl⟩
      rw [World.core_setQp]
      exact .pop rfl front below
    · rename_i above
      refine ⟨_, .stop ?_, rfl⟩
      rw [same, front]
      intro y hy
      obtain rfl : x = y := by simpa using hy
      omega

theorem keeps_report {n seq : Nat} {key : InflightKey} :
    Keeps cfg role t (report c (wrQpIndex w.wrId) seq (key.event w) : Provider F Unit)
      (fun _ M => M = {.retiring c w n ws}) {.popped c w seq key n ws} := by
  intro s e b s' step
  cases step
  exact ⟨_, Framed.of .report, rfl⟩

theorem keeps_retireLoop [CcReal F] (completedAt : CcTime) (n : Nat) :
    Keeps cfg .transfers t (retireLoop c (wrQpIndex w.wrId) w completedAt n : Provider F _)
      (fun _ M => ∃ x, Retired c w ws x ∧ M = {x}) {.retiring c w n ws} := by
  induction n with
  | zero => exact ⟨_, .exhausted, rfl⟩
  | succ n ih =>
    apply Follows.bind keeps_popFront
    intro front M found
    cases front with
    | none =>
      obtain rfl := found
      exact ⟨_, .stopped, rfl⟩
    | some x =>
      obtain ⟨seq, key⟩ := x
      obtain rfl := found
      refine Follows.spend (keeps_giveBack key w completedAt) fun _ => ?_
      refine Follows.onto keeps_report fun _ => ?_
      apply Follows.bind ih
      intro _ M ended
      exact ended

/-- A transfer's completion, from its connection's lock on. -/
theorem keeps_retire [CcReal F] (q : QueuePair) : Keeps cfg .transfers t (do
        let completedAt ← clock
        let evs ← retireLoop c (wrQpIndex w.wrId) w completedAt q.unsignalled.length
        reclaim c (wrQpIndex w.wrId) (wrSeq w.wrId)
        pure evs : Provider F _)
      (fun _ M => M = {.turn ws}) {.retiring c w q.unsignalled.length ws} := by
  refine idle_clock.next fun completedAt => ?_
  apply Follows.bind (keeps_retireLoop completedAt _)
  rintro evs _ ⟨x, done, rfl⟩
  have reclaims :
      Keeps cfg .transfers t (reclaim c (wrQpIndex w.wrId) (wrSeq w.wrId) : Provider F Unit)
      (fun _ M => M = {.turn ws}) {x} := by
    apply keeps_update
    intro s
    have core : ({ (s.setQp c (wrQpIndex w.wrId) fun q =>
          { q with reclaimed := wrSeq w.wrId + 1 }).unlock c with
        polling := s.polling.drop 1 } : World F).core =
        s.core.reclaim c (wrQpIndex w.wrId) (wrSeq w.wrId) := by
      unfold Core.reclaim Core.handled
      rw [← World.core_setQp, ← World.core_unlock]
      rfl
    rw [core]
    exact .reclaim done
  exact Follows.onto reclaims fun _ => rfl

/-- What became known of a completion's connection. -/
def Found (w : Wc) (ws : List Wc) (conn : Option ConnId) (M : Multiset Res) : Prop :=
  match conn with
  | none => M = {.turn ws}
  | some c => M = {.found c w ws}

theorem keeps_findConn :
    Keeps cfg role t (findConn w : Provider F (Option ConnId)) (Found w ws) {.turn (w :: ws)} := by
  apply keeps_exchange
  intro s
  split
  · rename_i c known
    exact ⟨_, .find known, rfl⟩
  · rename_i unknown
    exact ⟨_, .lose unknown, rfl⟩

/-- What is known once a completion's connection is locked. -/
def Opened (c : ConnId) (w : Wc) (ws : List Wc) (qps : List QueuePair) (M : Multiset Res) : Prop :=
  match qps[wrQpIndex w.wrId]? with
  | none => M = {.missed c w ws}
  | some q => M = {.retiring c w q.unsignalled.length ws}

theorem keeps_open :
    Keeps cfg role t (lockQp c : Provider F (List QueuePair)) (Opened c w ws) {.found c w ws} := by
  apply keeps_lockQp
  intro k free
  unfold Opened
  split
  · rename_i missing
    exact ⟨_, .miss free missing, rfl⟩
  · rename_i q there
    exact ⟨_, .open_ free there, rfl⟩

theorem keeps_handle [CcReal F] (w : Wc) (ws : List Wc) :
    Keeps cfg .transfers t (handle w : Provider F _)
      (fun _ M => M = {.turn (ws.filter Wc.transfer)})
      {.turn ((w :: ws).filter Wc.transfer)} := by
  unfold handle
  by_cases verify : w.wrId = kVerifyWrId
  · have other : w.transfer = false := by simp [Wc.transfer, verify]
    rw [if_pos verify, List.filter_cons_of_neg (by simp [other])]
    exact (idle_noteVerified _ _).next fun _ => rfl
  rw [if_neg verify]
  by_cases recv : w.wrId &&& kRecvWrId ≠ 0
  · have other : w.transfer = false := by simp [Wc.transfer, recv]
    rw [if_pos recv, List.filter_cons_of_neg (by simp [other])]
    exact (idle_absorbReceive w).next fun _ => rfl
  have own : w.transfer = true := by simp [Wc.transfer, verify, not_not.mp recv]
  rw [if_neg recv, List.filter_cons_of_pos own]
  apply Follows.bind keeps_findConn
  intro conn M found
  cases conn with
  | none =>
    obtain rfl := found
    exact rfl
  | some c =>
    obtain rfl := found
    have notes : Idle (noteFailure c w : Provider F Unit) :=
      Steps.ite (idle_markFailed c) trivial
    refine notes.next fun _ => ?_
    apply Follows.bind keeps_open
    intro qps M opened
    cases there : qps[wrQpIndex w.wrId]? with
    | none =>
      obtain rfl : M = {.missed c w (ws.filter Wc.transfer)} := by
        rwa [Opened, there] at opened
      have skips : Keeps cfg .transfers t (skipCompletion c : Provider F Unit)
          (fun _ M => M = {.turn (ws.filter Wc.transfer)})
          {.missed c w (ws.filter Wc.transfer)} := by
        apply keeps_update
        intro s
        have core : ({ s.unlock c with polling := s.polling.drop 1 } : World F).core =
            s.core.handled c := by
          unfold Core.handled
          rw [← World.core_unlock]
          rfl
        rw [core]
        exact .skip
      exact Follows.onto skips fun _ => rfl
    | some q =>
      obtain rfl : M = {.retiring c w q.unsignalled.length (ws.filter Wc.transfer)} := by
        rwa [Opened, there] at opened
      exact keeps_retire q

theorem keeps_handleLoop [CcReal F] (ws : List Wc) :
    Keeps cfg .transfers t (handleLoop ws : Provider F _) (fun _ M => M = {.turn []})
      {.turn (ws.filter Wc.transfer)} := by
  induction ws with
  | nil => exact rfl
  | cons w rest ih =>
    refine Follows.onto (keeps_handle w rest) fun _ => ?_
    exact Follows.onto ih fun _ => rfl

theorem keeps_drawMore (max : Int) (taken : List Wc) :
    Keeps cfg role t (drawMore max taken : Provider F (Status × List Wc))
      (fun r M => M = {.turn (r.2.filter Wc.transfer)}) {.turn (taken.filter Wc.transfer)} := by
  unfold drawMore
  split
  · apply Follows.bind (Q := fun drawn M =>
      M = {.turn ((taken ++ drawn.getD []).filter Wc.transfer)})
    · apply keeps_drainCq
      · simp
      · simp
      · intro s s' new delivered draws core
        refine ⟨{.turn (taken.filter Wc.transfer ++ new.filter Wc.transfer)}, ?_, by simp⟩
        have marked : ({ s' with polling := s'.polling ++ new.filter Wc.transfer } : World F).core =
            { s'.core with polling := s'.core.polling ++ new.filter Wc.transfer } := rfl
        rw [marked, core]
        exact .draw draws
    · rintro drawn _ rfl
      cases drawn with
      | none => exact Follows.ret (by simp)
      | some ws => exact rfl
  · exact rfl

theorem keeps_poll [CcReal F] (maxEvents : Nat) :
    Keeps cfg .transfers t (poll maxEvents : Provider F _) (fun _ M => M = {.turn []})
      {.turn []} := by
  unfold poll
  split
  · exact rfl
  · have takes : Keeps cfg .transfers t (takeStash (int32 maxEvents).toNat : Provider F (List Wc))
        (fun taken M => M = {.turn (taken.filter Wc.transfer)}) {.turn []} :=
      keeps_exchange fun s => ⟨_, .unstash _, rfl⟩
    refine Follows.onto takes fun taken => ?_
    apply Follows.bind (keeps_drawMore _ taken)
    rintro ⟨polled, ws⟩ _ rfl
    dsimp only
    exact Follows.onto (keeps_handleLoop ws) fun _ => rfl

theorem keeps_turn [CcReal F] (maxEvents : Nat) :
    Keeps cfg .transfers t (turn maxEvents : Provider F _) (fun _ M => M = 0) 0 := by
  have enters : Keeps cfg .transfers t (enterTurn : Provider F Unit)
    (fun _ M => M = {.turn []}) 0 := by
    intro s e b s' step
    dsimp only at step
    split at step
    · cases step
    · rename_i free
      cases step
      exact ⟨_, Framed.of (.enter (by simpa [World.core] using free)), rfl⟩
  have leaves : Keeps cfg .transfers t (leaveTurn : Provider F Unit) (fun _ M => M = 0)
    {.turn []} :=
    keeps_update fun _ => .leave
  refine Follows.onto enters fun _ => ?_
  refine Follows.onto (keeps_poll maxEvents) fun r => ?_
  exact Follows.onto leaves fun _ => rfl

/-! ## Verifying and disconnecting -/

theorem keeps_stashCompletion :
    Keeps cfg .verifies t (stashCompletion w : Provider F Unit) (fun _ M => M = inHand ws)
      (inHand (w :: ws)) := by
  have some_ : inHand (w :: ws) = {.drawn (w :: ws)} := if_neg (by simp)
  rw [some_]
  exact keeps_update fun _ => .setAside rfl

theorem keeps_passOn (mine : Nat) (ws : List Wc) (seen : Option WcStatus) :
    Keeps cfg .verifies t (passOn mine ws seen : Provider F (Option WcStatus)) (fun _ M => M = 0)
      (inHand (ws.filter Wc.transfer)) := by
  induction ws generalizing seen with
  | nil => exact rfl
  | cons w rest ih =>
    unfold passOn
    by_cases verify : w.wrId = kVerifyWrId
    · have other : w.transfer = false := by simp [Wc.transfer, verify]
      rw [if_pos verify, List.filter_cons_of_neg (by simp [other])]
      split
      · exact ih _
      · exact (idle_noteVerified _ _).next fun _ => ih _
    rw [if_neg verify]
    by_cases recv : w.wrId &&& kRecvWrId ≠ 0
    · have other : w.transfer = false := by simp [Wc.transfer, recv]
      rw [if_pos recv, List.filter_cons_of_neg (by simp [other])]
      exact (idle_absorbReceive w).next fun _ => ih _
    have own : w.transfer = true := by simp [Wc.transfer, verify, not_not.mp recv]
    rw [if_neg recv, List.filter_cons_of_pos own]
    exact Follows.onto keeps_stashCompletion fun _ => ih _

theorem keeps_verifyLoop (mine : Nat) (deadline : CcTime) (rounds : Nat) :
    Keeps cfg .verifies t (verifyLoop mine deadline rounds : Provider F Status)
      (fun _ M => M = 0) 0 := by
  induction rounds with
  | zero => exact rfl
  | succ n ih =>
    refine idle_clock.next fun now => ?_
    split
    · exact rfl
    · refine (idle_takeVerified mine).next fun done => ?_
      cases done with
      | some st => exact rfl
      | none =>
        apply Follows.bind (Q := fun drawn M =>
          M = inHand ((drawn.getD []).filter Wc.transfer))
        · apply keeps_drainCq
          · rfl
          · rfl
          · intro s s' new delivered draws core
            refine ⟨inHand (new.filter Wc.transfer), ?_, rfl⟩
            have marked :
                ({ s' with verifying := s'.verifying ++ new.filter Wc.transfer } : World F).core =
                  { s'.core with verifying := s'.core.verifying ++ new.filter Wc.transfer } := rfl
            rw [marked, core]
            exact .fetch rfl draws
        · rintro drawn _ rfl
          cases drawn with
          | none => exact rfl
          | some ws =>
            refine Follows.onto (keeps_passOn mine ws none) fun seen => ?_
            cases seen with
            | some st => exact rfl
            | none => exact ih

theorem keeps_verifyPath (c : ConnId) (timeoutMs : Int) (rounds : Nat) :
    Keeps cfg .verifies t (verifyPath c timeoutMs rounds : Provider F Status)
      (fun _ M => M = 0) 0 := by
  refine (idle_look _).next fun conn => ?_
  split
  · rename_i q buf _ _
    have proves : Keeps cfg .verifies t (verb fun s rc =>
        if rc = 0 then
          { s with
            adapter := s.adapter.post q.num
              { wrId := kVerifyWrId, opcode := .send, signalled := true, addr := buf.addr
                length := 8, lkey := buf.lkey } }
        else s : Provider F Int) (fun _ M => M = 0) 0 := by
      intro s e b s' step
      dsimp only at step
      split at step
      · rename_i rc
        cases step
        refine ⟨0, Framed.of ?_, rfl⟩
        unfold moves
        split
        · rw [World.core_post]
          exact .prove rfl rfl
        · exact .still _
      · cases step
    refine Follows.onto proves fun rc => ?_
    split
    · exact rfl
    · exact idle_clock.next fun _ => keeps_verifyLoop _ _ _
  · exact rfl

theorem keeps_disconnect (conn : Option ConnId) :
    Keeps cfg role t (disconnect conn : Provider F Status) (fun _ M => M = 0) 0 := by
  cases conn with
  | none => exact rfl
  | some c =>
    refine (idle_markFailed c).next fun _ => ?_
    have locks : Keeps cfg role t (lockQp c : Provider F (List QueuePair))
        (fun qps M => M = {.planning c qps []}) 0 :=
      keeps_lockQp fun k free => ⟨_, .lock free, rfl⟩
    refine Follows.onto locks fun qps => ?_
    refine (idle_errorLoop qps .ok).next fun first => ?_
    exact Follows.onto (keeps_unlockQp (.posting (.planned qps []))) fun _ => rfl

/-- Every call makes no other moves, and leaves nothing behind. -/
theorem follows_body [CcReal F] (call : Call) (t : Tid) :
    Keeps cfg call.role t (body cfg call : Provider F Reply) (fun _ M => M = 0) 0 := by
  cases call with
  | registerRegion address length => exact (idle_registerRegion address length).next fun _ => rfl
  | deregisterRegion key => exact (idle_deregisterRegion key).next fun _ => rfl
  | submit conn ops => exact Follows.bind (keeps_submit conn ops) fun _ _ h => h
  | poll maxEvents => exact Follows.bind (keeps_turn maxEvents) fun _ _ h => h
  | verifyPath c timeoutMs rounds =>
    exact Follows.bind (keeps_verifyPath c timeoutMs rounds) fun _ _ h => h
  | disconnect conn => exact Follows.bind (keeps_disconnect conn) fun _ _ h => h

end

end Hux.Rdma
