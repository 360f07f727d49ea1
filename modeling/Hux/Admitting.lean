import Hux.Between
import Hux.Closing

/-!
# From a submission's checks to its admission

`submit_vector` looks whether the peer is connected, and at the bound on the requests in
flight, in sections of their own; the request is put in flight in a later one. What it
has found can have become false by then.

* `Admits`: a step that puts a request in flight;
* `PastBound`: a thread between the check of the bound and its admission;
* `guarded_submitBounded`: nothing but a submission that has made its checks admits.
-/

namespace Hux
open Interleave (Tid Run Passage Stable Pool steps_ret Between Guarded Idles)

section
variable {T : Transport} {W : Type} {t : Tid}

/-- The step puts a request to this peer in flight. -/
def Admits (peer : PeerId) (s s' : World T W) : Prop :=
  ∃ q, q ∉ s.ledger.inflight ∧ q ∈ s'.ledger.inflight ∧ (request (.transfer q) s').peer = peer

theorem not_admits (peer : PeerId) (s : World T W) : ¬Admits peer s s :=
  fun admits => by
    obtain ⟨q, out, into, -⟩ := admits
    exact out into

/-- Where nothing is admitted, nothing is added. -/
theorem inflight_subset {s s' : World T W} (none : ∀ peer, ¬Admits peer s s') :
    s'.ledger.inflight ⊆ s.ledger.inflight := by
  intro q into
  by_contra out
  exact none _ ⟨q, out, into, rfl⟩

/-- The steps of every call but admission. -/
abbrev unadmitting : Set Kind := {k | (k != .enter) = true}

theorem Effect.inflight_subset {k : Kind} {s s' : World T W} (h : Effect k s s')
    (kind : k ∈ unadmitting) : s'.ledger.inflight ⊆ s.ledger.inflight := by
  by_cases calm : k.isCalm = true
  · exact (h.calm calm).inflight
  cases h with
  | enter => cases kind
  | await | nextId | nextNotify | nextPeer | addPeer => exact Finset.Subset.refl _
  | _ => exact absurd rfl calm

theorem Effects.idles {α : Type} {p : Engine T W α} (effects : Effects T W unadmitting p) :
    Idles Admits t p := by
  refine .of_steps (effects.mono fun s s' step peer admits => ?_)
  obtain ⟨q, out, into, -⟩ := admits
  rcases step with plain | ⟨k, kind, effect⟩
  · exact out (plain.ledger.inflight ▸ into)
  · exact out (effect.inflight_subset kind into)

variable {found : PeerId → World T W → Prop} {checked : PeerId → Engine T W Reply → Prop}

theorem guarded_past {x : Option PeerId} {α : Type} {p : Engine T W α}
    {g : α → Engine T W Reply} (effects : Effects T W unadmitting p)
    (rest : ∀ a, Guarded Admits found checked t x (g a)) :
    Guarded Admits found checked t x (p >>= g) :=
  .past effects.idles rest

theorem guarded_launch {setup : Setup W} (q : RequestId) (r : Request) (ops : List SubOp)
    (after : List (Option EventId)) (parts : List PendingSubmit) :
    Guarded Admits found checked t (some r.peer) (launch setup q r ops after parts) := by
  refine .inr ⟨r.peer, rfl, fun s e b s' step => ⟨fun peer admits => ?_, .idle ?_⟩⟩
  · obtain ⟨q', out, into, rfl⟩ := admits
    cases step
    revert into
    dsimp only
    split_ifs
    · exact fun into => absurd into out
    · exact fun into => absurd into out
    · intro into
      obtain rfl : q' = q := (Finset.mem_insert.mp into).resolve_right out
      simp [request, Ledger.enter]
  · refine Effects.idles ?_
    cases b with
    | ok =>
      change Effects T W unadmitting (look (fun s => s.ledger.inflight.card) >>= _)
      refine .bind (effects_look _) fun depth => .bind (effects_countAdmission depth) fun _ => ?_
      refine .bind (effects_startParts ?_ ?_ ?_ ?_ ?_ setup after parts) fun _ => steps_ret _ <;> rfl
    | _ => exact steps_ret _

/-! ## A submission -/

variable [LaneCost W] (setup : Setup W)

/-- What is left of a call that submits, once it has come to `rest`. -/
def Submitting (rest : PeerId → List RegionView → List RegionView → TransferOptions → SubOpKind →
    Engine T W Reply) (peer : PeerId) (c : Call) (left : Engine T W Reply) : Prop :=
  ∃ loc remote opts kind, c.transfer = some (peer, loc, remote, opts, kind) ∧
    left = rest peer loc remote opts kind

/-- The thread has found the queue below its bound, and not put its request in flight. -/
def PastBound (p : Pools T W) (t : Tid) : Prop :=
  ∃ peer, Between Admits (Submitting (submitBounded setup)) peer p t

variable {setup}

theorem guarded_submitBounded (peer : PeerId) (loc remote : List RegionView)
    (opts : TransferOptions) (kind : SubOpKind) :
    Guarded Admits found checked t (some peer)
      (submitBounded setup peer loc remote opts kind) := by
  refine guarded_past (effects_nextId (by rfl)) fun q => guarded_past (effects_look _)
    fun lanes => ?_
  refine guarded_past (Looks.effects (looks_buildSubops _ _ _ _ _ _ _ _)) fun built => ?_
  split
  · trivial
  refine .ite trivial (guarded_past (Looks.effects (looks_handoffTargets _ _ _ _))
    fun targets => ?_)
  exact guarded_launch _ _ _ _ _

/-! ## The bound -/

/-- A call makes a check of its own before it admits anything, if it submits at all. -/
theorem guarded_body {checked : PeerId → Call → Engine T W Reply → Prop}
    (submits : ∀ c peer loc remote opts kind, c.transfer = some (peer, loc, remote, opts, kind) →
      Guarded Admits found (checked · c) t none (submitVector setup peer loc remote opts kind))
    (c : Call) : Guarded Admits found (checked · c) t none (c.body T setup) := by
  cases c with
  | read | write | readv | writev => exact submits _ _ _ _ _ _ rfl
  | _ => exact .idle (effects_body setup _ (by simp [turnKinds])).idles

theorem guarded_bound (c : Call) :
    Guarded Admits (fun _ s => s.ledger.inflight.card < setup.cfg.maxInflightRequests)
      (Submitting (submitBounded setup) · c) t none (c.body T setup) := by
  refine guarded_body (fun c peer loc remote opts kind submits => ?_) c
  refine guarded_past (effects_look _) fun closed => .ite trivial (.ite trivial (.ite trivial ?_))
  refine guarded_past (effects_look _) fun connected => .ite trivial ?_
  refine guarded_past (apart_dependencyState (by simp) _ _).effects fun dep => .ite trivial ?_
  refine .inl ⟨(effects_full setup).idles.1, fun s e full s' step => ?_⟩
  cases full with
  | true => exact .inl trivial
  | false =>
    refine .inr ⟨peer, ?_, ⟨loc, remote, opts, kind, submits, rfl⟩,
      guarded_submitBounded peer loc remote opts kind⟩
    by_cases room : setup.cfg.maxInflightRequests ≤ s.ledger.inflight.card
    · simp [room] at step
    · simp only [room, if_false] at step
      cases step
      exact Nat.lt_of_not_le room

omit [LaneCost W] in
theorem stable_bounded (setup : Setup W) :
    Stable (Working fun s s' => ∀ peer, Admits peer s s' →
        s.ledger.inflight.card < setup.cfg.maxInflightRequests) fun s : World T W =>
      s.ledger.inflight.card ≤ setup.cfg.maxInflightRequests := by
  intro s s' step bounded
  rcases step.work.cases with shut | ⟨t, q, r, ops, -, -, rfl⟩ | ⟨t, id, q, r, -, -, -, rfl⟩
  · exact (Finset.card_le_card shut.inflight).trans bounded
  · by_cases there : q ∈ s.ledger.inflight
    · simpa [Ledger.enter, there] using bounded
    · have room := step.met _ ⟨q, there, by simp [Ledger.enter], rfl⟩
      simpa [Ledger.enter, there] using Nat.succ_le_of_lt room
  · exact bounded

/-- No two threads are between their check of the bound and their admission. -/
def OneAdmitting (setup : Setup W) (p : Pools T W) : Prop :=
  ∀ t u, PastBound setup p t → PastBound setup p u → t = u

/-- In every run in which no two submissions are between their check of the bound and
their admission, the bound is kept. -/
theorem submissions_are_bounded (setup : Setup W) (dir : Directory W) (σ : T.State)
    {p : Pools T W}
    (run : Passage (Call.body T setup) (fun p _ => OneAdmitting setup p)
      (.start (World.start dir σ)) p) :
    p.shared.ledger.inflight.card ≤ setup.cfg.maxInflightRequests := by
  have finds := run.finds (fun t c => guarded_bound c) not_admits .start
    fun p p' _ _ alone peer t between room acts => by
      have none (peer' : PeerId) : ¬Admits peer' p.shared p'.shared := fun admits => by
        obtain ⟨u, other, between'⟩ := acts peer' admits
        exact other (alone u t ⟨peer', between'⟩ ⟨peer, between⟩)
      exact (Finset.card_le_card (inflight_subset none)).trans_lt room
  exact run_keeps (stable_bounded setup) (by simp [World.start])
    (Run.start.further (Passage.mono (fun _ _ h peer admits => (h.2 peer admits).1) finds.2))

/-- Two writes, one after the other. -/
theorem submissions_are_bounded_writes :
    ∃ p, Passage (Call.body Pair.transport Pair.setup) (fun p _ => OneAdmitting Pair.setup p)
        (.start (World.start Pair.directory Pair.state)) p ∧
      p.shared.ledger.inflight = {1, 2} ∧ p.shared.ledger.inflight.card ≤ 4 := by
  obtain ⟨p, run, flying⟩ := Passage.of_enact (Call.body Pair.transport Pair.setup)
    (fun p _ => p.Serial) (World.start Pair.directory Pair.state)
    [([.nothing, .transport .nothing], [.spawn (Pair.write []), .run 0 21, .spawn (Pair.write []),
      .run 1 11])]
    (fun p => p.shared.ledger.inflight = {1, 2}) (by decide +kernel)
  have alone : Passage (Call.body Pair.transport Pair.setup) (fun p _ => OneAdmitting Pair.setup p)
      (.start (World.start Pair.directory Pair.state)) p :=
    Passage.mono (fun p _ serial t u first second => by
      obtain ⟨peer, first⟩ := first
      obtain ⟨peer', second⟩ := second
      exact serial.eq first second) run
  exact ⟨p, alone, flying, submissions_are_bounded (T := Pair.transport) Pair.setup Pair.directory
    Pair.state alone⟩

/-- Five writes that each look for a free place before any of them is admitted. -/
def Pair.fiveAtOnce : List (Interleave.Cue Call) :=
  [.spawn (Pair.write []), .spawn (Pair.write []), .spawn (Pair.write []), .spawn (Pair.write []),
    .spawn (Pair.write []), .run 0 3, .run 1 3, .run 2 3, .run 3 3, .run 4 3,
    .run 0 8, .run 1 8, .run 2 8, .run 3 8, .run 4 8]

/-- Five threads find four places free, and then each is admitted. -/
theorem submissions_exceed_bound :
    Pair.setup.cfg.maxInflightRequests = 4 ∧
    ∃ p, Pair.Runs (fun _ _ => True) p ∧
      p.shared.ledger.inflight.card = 5 := by
  exact ⟨rfl, Pair.run_of_play .nothing Pair.fiveAtOnce (by decide +kernel)⟩

end

end Hux
