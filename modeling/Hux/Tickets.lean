import Hux.Effects
import Hux.Rely

/-!
# Numbers are given out once

Requests, notifications and peers get their numbers from counters, some steps
before they are recorded under them.

* `Mark`: a number a thread has taken and not used yet, or a peer it found
  connected;
* `Taking`: a step, with the marks it takes and uses up;
* `Lasting`: what is recorded under a number is never replaced, and a peer that
  departed does not come back;
* `Run.lasting`: so in every step of every run.
-/

namespace Hux
open Interleave (Tid Follows Run Onward Matched)
open Wire (Bytes)
open Multiset (mem_add mem_singleton count_singleton count_add)

/-- The number in a handle. -/
def Handle.number : Handle → RequestId
  | .transfer q | .note q => q

section
variable {T : Transport} {W : Type}

/-! ## Steps that record nothing -/

/-- A line about an admission. -/
def Event.isAdmission : Event → Bool
  | .admitted _ _ _ => true
  | _ => false

theorem Event.Quiet.not_admission {e : Event} (h : e.Quiet) : e.isAdmission = false := by
  cases e <;> first | rfl | exact h.elim

/-- The history goes on with lines that are about no admission. -/
def Ledger.Continues (l l' : Ledger) : Prop :=
  ∃ lines, l'.trace = lines ++ l.trace ∧ ∀ x ∈ lines, x.2.isAdmission = false

theorem Ledger.Continues.refl (l : Ledger) : l.Continues l := ⟨[], rfl, by simp⟩

variable {l l' : Ledger}

/-- One more line. -/
theorem Ledger.Continues.line {x : Tid × Event} (told : l'.trace = x :: l.trace)
    (other : x.2.isAdmission = false) : l.Continues l' :=
  ⟨[x], told, by simpa using other⟩

theorem Ledger.Same.continues (h : l.Same l') : l.Continues l' := by
  obtain ⟨lines, told, quiet⟩ := h.trace
  exact ⟨lines, told, fun x hx => (quiet x hx).not_admission⟩

/-- An admission is news. -/
theorem Ledger.Continues.none (h : l.Continues l') {x : Tid × Event} {more : List (Tid × Event)}
    (told : l'.trace = x :: (more ++ l.trace)) : x.2.isAdmission = false := by
  obtain ⟨lines, told', other⟩ := h
  rw [told, ← List.cons_append] at told'
  have same := List.append_cancel_right told'
  exact other x (same ▸ List.mem_cons_self)

/-- Nothing is recorded and no number is taken. -/
structure Calm (s s' : World T W) : Prop where
  told : s.ledger.Continues s'.ledger
  inflight : s'.ledger.inflight ⊆ s.ledger.inflight
  notes : s'.ledger.notifyPending ⊆ s.ledger.notifyPending
  ages : ∀ h, (request h s).Ages (request h s')
  nextRequest : s'.ledger.nextRequest = s.ledger.nextRequest
  nextNotify : s'.nextNotify = s.nextNotify
  peers : s'.dir.peers ⊆ s.dir.peers
  connected : ∀ p, s'.dir.connected p = true → s.dir.connected p = true
  objects : s'.dir.peerObjects = s.dir.peerObjects
  nextPeer : s'.dir.nextPeer = s.dir.nextPeer
  closed : s.closed = true → s'.closed = true

/-- The kinds of steps that record nothing. -/
def Kind.isCalm : Kind → Bool
  | .enter | .number | .await | .meet => false
  | _ => true

variable {s s' : World T W}

theorem Plain.calm (h : Plain s s') : Calm s s' where
  told := h.ledger.continues
  inflight := h.ledger.inflight ▸ subset_rfl
  notes := h.ledger.notifyPending ▸ List.Subset.refl _
  ages := by
    intro handle
    cases handle with
    | transfer q => exact h.ages q
    | note q =>
      simp only [request, h.notes q]
      exact .refl _
  nextRequest := h.ledger.nextRequest
  nextNotify := h.same.nextNotify
  peers := h.same.dir ▸ List.Subset.refl _
  connected := by simp [h.same.dir]
  objects := by rw [h.same.dir]
  nextPeer := by rw [h.same.dir]
  closed := by simp [h.same.closed]

/-- A step on the ledger that records nothing. -/
theorem Calm.of_ledger (told : s.ledger.Continues l) (inflight : l.inflight ⊆ s.ledger.inflight)
    (notes : l.notifyPending ⊆ s.ledger.notifyPending) (reqs : l.reqs = s.ledger.reqs)
    (nextRequest : l.nextRequest = s.ledger.nextRequest) : Calm s { s with ledger := l } where
  told := told
  inflight := inflight
  notes := notes
  ages := by
    intro h
    simp only [request, reqs]
    exact .refl _
  nextRequest := nextRequest
  nextNotify := rfl
  peers := List.Subset.refl _
  connected := fun _ => id
  objects := rfl
  nextPeer := rfl
  closed := id

/-- A step outside the ledger that records nothing. -/
theorem Calm.of_rest (ledger : s'.ledger = s.ledger) (nextNotify : s'.nextNotify = s.nextNotify)
    (peers : s'.dir.peers ⊆ s.dir.peers)
    (connected : ∀ p, s'.dir.connected p = true → s.dir.connected p = true)
    (objects : s'.dir.peerObjects = s.dir.peerObjects)
    (nextPeer : s'.dir.nextPeer = s.dir.nextPeer)
    (closed : s.closed = true → s'.closed = true) : Calm s s' where
  told := ledger ▸ .refl _
  inflight := ledger ▸ subset_rfl
  notes := ledger ▸ List.Subset.refl _
  ages := by
    intro h
    simp only [request, ledger]
    exact .refl _
  nextRequest := by rw [ledger]
  nextNotify := nextNotify
  peers := peers
  connected := connected
  objects := objects
  nextPeer := nextPeer
  closed := closed

/-- One notification changes. -/
theorem Calm.of_note {q : RequestId} {r : Request} (same : s.Same s')
    (ledger : s.ledger.Same s'.ledger) (ages : (request (.note q) s).Ages r)
    (reqs : s'.ledger.reqs = Function.update s.ledger.reqs (.note q) r) : Calm s s' where
  told := ledger.continues
  inflight := ledger.inflight ▸ subset_rfl
  notes := ledger.notifyPending ▸ List.Subset.refl _
  ages := by
    intro h
    simp only [request, reqs]
    by_cases this : h = .note q
    · subst this
      rw [Function.update_self]
      exact ages
    · simpa [this] using .refl _
  nextRequest := ledger.nextRequest
  nextNotify := same.nextNotify
  peers := same.dir ▸ List.Subset.refl _
  connected := by simp [same.dir]
  objects := by rw [same.dir]
  nextPeer := by rw [same.dir]
  closed := by simp [same.closed]

theorem Effect.calm {k : Kind} (h : Effect k s s') (calm : k.isCalm = true) : Calm s s' := by
  cases h with
  | enter | nextId | nextNotify | await | nextPeer | addPeer => cases calm
  | clear => exact .of_ledger (.line rfl rfl) (Finset.Subset.refl _) (List.Subset.refl _) rfl rfl
  | claim =>
    exact .of_ledger (.line rfl rfl) (Finset.erase_subset _ _) (List.Subset.refl _) rfl rfl
  | reap =>
    refine .of_ledger ⟨_, rfl, ?_⟩ Finset.sdiff_subset (List.Subset.refl _) rfl rfl
    simp [Event.isAdmission]
  | forget quiet written =>
    subst written
    refine .of_ledger ⟨_, rfl, ?_⟩ (Finset.Subset.refl _) (List.filter_subset_self _) rfl rfl
    exact fun x hx => (quiet x hx).not_admission
  | offer =>
    exact ⟨.line rfl rfl, Finset.Subset.refl _, List.Subset.refl _, fun _ => .refl _, rfl, rfl,
      List.Subset.refl _, fun _ => id, rfl, rfl, id⟩
  | defer | drain =>
    exact ⟨.refl _, Finset.Subset.refl _, List.Subset.refl _, fun _ => .refl _, rfl, rfl,
      List.Subset.refl _, fun _ => id, rfl, rfl, id⟩
  | note same ledger change reqs => exact .of_note same ledger change.ages reqs
  | settle same ledger change reqs => exact .of_note same ledger change.ages reqs
  | push | pop | send | pollControl | stop | device | remark | doubt | lock | unlock =>
    exact .of_rest rfl rfl (List.Subset.refl _) (fun _ => id) rfl rfl id
  | close => exact .of_rest rfl rfl (List.Subset.refl _) (fun _ => id) rfl rfl fun _ => rfl
  | @part _ p =>
    refine .of_rest rfl rfl (List.Subset.refl _) ?_ rfl rfl id
    intro p' up
    by_cases this : p' = p <;> simp_all
  | erase => exact .of_rest rfl rfl (List.filter_subset_self _) (fun _ => id) rfl rfl id
  | tables written peers objects connected nextPeer _ quiet =>
    subst written
    exact ⟨⟨_, rfl, fun x hx => (quiet x hx).not_admission⟩, Finset.Subset.refl _,
      List.Subset.refl _, fun _ => .refl _, rfl, rfl,
      peers ▸ List.Subset.refl _, by simp [connected], objects, nextPeer, id⟩

/-! ## Marks -/

end

/-- A number a thread has taken and not used, or a peer it found connected. -/
inductive Mark
  | request (q : RequestId)
  | note (id : Nat)
  | peer (p : PeerId)
  | met (p : PeerId)
  deriving DecidableEq

section
variable {T : Transport} {W : Type}

/-- A step with the marks it uses up and those it takes. -/
inductive Taking : World T W → Multiset Mark → World T W → Multiset Mark → Prop
  | calm {s s' : World T W} (step : Calm s s') : Taking s 0 s' 0
  | met {s : World T W} {p : PeerId} (connected : s.dir.connected p = true) : Taking s 0 s {.met p}
  | nextId {s : World T W} :
      Taking s 0 { s with ledger := s.ledger.nextId } {.request s.ledger.nextRequest}
  | nextNotify {s : World T W} :
      Taking s 0 { s with nextNotify := s.nextNotify + 1 } {.note s.nextNotify}
  | nextPeer {s : World T W} :
      Taking s 0 { s with dir := { s.dir with nextPeer := s.dir.nextPeer + 1 } }
        {.peer s.dir.nextPeer}
  | enter {s : World T W} {t : Tid} {q : RequestId} {r : Request} {ops : List SubOp}
      (made : r.made = true) :
      Taking s {.met r.peer, .request q} { s with ledger := s.ledger.enter t q r ops } 0
  | await {s : World T W} {t : Tid} {id : Nat} {q : RequestId} {r : Request} {payload : Bytes}
      (made : r.made = true) :
      Taking s {.met r.peer, .note id, .request q}
        { s with
          ledger := s.ledger.awaitAck t id q r
          remarks := .numbered q id payload :: s.remarks } 0
  | addPeer {s : World T W} {id : PeerId} {p : Peer W} :
      Taking s {.peer id} { s with dir := s.dir.addPeer id p } 0

/-- Run by thread `t` with marks `M`, the program takes and uses marks as it
should. What it has left over does not matter. -/
abbrev Marked (T : Transport) (W : Type) {α : Type} (t : Tid) (p : Engine T W α)
    (M : Multiset Mark) : Prop :=
  Follows (fun _ => Taking) t p (fun _ _ => True) M

namespace Marked
variable {α β : Type} {t : Tid} {M : Multiset Mark}

/-- The kinds of steps a program without marks may take. -/
abbrev free : Set Kind := {k | k.isCalm = true}

theorem taking_free {s s' : World T W} (h : Plain s s' ∨ ∃ k ∈ free, Effect k s s') :
    Taking s 0 s' 0 := by
  rcases h with plain | ⟨k, free, effect⟩
  · exact .calm plain.calm
  · exact .calm (effect.calm free)

variable {p : Engine T W α}

theorem calm (effects : Effects T W free p) : Marked T W t p M :=
  (effects.follows (fun _ _ => taking_free) M).weaken fun _ _ _ => trivial

theorem next {g : α → Engine T W β} (effects : Effects T W free p)
    (rest : ∀ a, Marked T W t (g a) M) : Marked T W t (p >>= g) M := by
  refine Follows.bind (effects.follows (fun _ _ => taking_free) M) ?_
  rintro a _ rfl
  exact rest a

/-- Marks can be thrown away. -/
theorem more (h : Marked T W t p 0) : Marked T W t p M := by
  simpa using (h.frame M).weaken fun _ _ _ => trivial

theorem ite {c : Prop} [Decidable c] {p' : Engine T W α} (h : Marked T W t p M)
    (h' : Marked T W t p' M) : Marked T W t (if c then p else p') M := by
  split <;> assumption

theorem ret (a : α) : Marked T W t (pure a : Engine T W α) M := trivial

/-- What a thread takes it has besides what it had. -/
theorem framed {s s' : World T W} {M' : Multiset Mark} (h : Taking s 0 s' M') :
    Interleave.Framed (fun _ => Taking) t s M s' (M + M') :=
  ⟨M, 0, M', (add_zero M).symm, rfl, h⟩

theorem framed_still (s : World T W) : Interleave.Framed (fun _ => Taking) t s M s M :=
  ⟨M, 0, 0, (add_zero M).symm, (add_zero M).symm, .calm (Plain.refl s).calm⟩

theorem connected {p : PeerId} {g : Bool → Engine T W β} (up : Marked T W t (g true) (M + {.met p}))
    (down : Marked T W t (g false) M) : Marked T W t (look (·.dir.connected p) >>= g) M := by
  have looked : Follows (fun _ => Taking) t (look (·.dir.connected p) : Engine T W Bool)
      (fun b M' => M' = if b then M + {.met p} else M) M := by
    intro s e b s' step
    cases step
    cases found : s.dir.connected p with
    | true => exact ⟨_, framed (.met found), by simp [found, Follows]⟩
    | false => exact ⟨M, framed_still s, by simp [found, Follows]⟩
  refine Follows.bind looked ?_
  rintro (_ | _) _ rfl
  · exact down
  · exact up

theorem nextId {g : RequestId → Engine T W β} (rest : ∀ q, Marked T W t (g q) (M + {.request q})) :
    Marked T W t ((transact fun _ s => (s.ledger.nextRequest, s.ledger.nextId)) >>= g) M := by
  intro s e b s' step
  cases step
  exact ⟨_, framed .nextId, rest _⟩

theorem nextNotify {g : Nat → Engine T W β} (rest : ∀ id, Marked T W t (g id) (M + {.note id})) :
    Marked T W t ((exchange fun s =>
      (s.nextNotify, { s with nextNotify := s.nextNotify + 1 })) >>= g) M := by
  intro s e b s' step
  cases step
  exact ⟨_, framed .nextNotify, rest _⟩

theorem nextPeer {g : PeerId → Engine T W β} (rest : ∀ p, Marked T W t (g p) (M + {.peer p})) :
    Marked T W t ((exchange fun s =>
      (s.dir.nextPeer, { s with dir := { s.dir with nextPeer := s.dir.nextPeer + 1 } })) >>= g)
      M := by
  intro s e b s' step
  cases step
  exact ⟨_, framed .nextPeer, rest _⟩

theorem addPeer {id : PeerId} {p : Peer W} {g : Unit → Engine T W β}
    (rest : ∀ u, Marked T W t (g u) M) :
    Marked T W t (update (fun s => { s with dir := s.dir.addPeer id p }) >>= g)
      (M + {.peer id}) := by
  intro s e b s' step
  cases step
  exact ⟨M, ⟨M, {.peer id}, 0, rfl, (add_zero M).symm, .addPeer⟩, rest _⟩

end Marked

section
variable {t : Tid} {q : RequestId} {r : Request}

theorem marked_admission (made : r.made = true) (ops : List SubOp) {g : Status → Engine T W Reply}
    (rest : ∀ b, Marked T W t (g b) 0) :
    Marked T W t (admission q r ops >>= g) {.met r.peer, .request q} := by
  intro s e b s' step
  cases step
  dsimp only
  split
  · exact ⟨_, Marked.framed_still s, (rest _).more⟩
  split
  · exact ⟨_, Marked.framed_still s, (rest _).more⟩
  · exact ⟨0, .of (.enter made), rest _⟩

theorem marked_awaitAck {id : Nat} (made : r.made = true) {payload : Bytes}
    {g : Bool → Engine T W Reply} (rest : ∀ b, Marked T W t (g b) 0) :
    Marked T W t (awaitAck id q r payload >>= g) {.met r.peer, .note id, .request q} := by
  intro s e b s' step
  dsimp only at step
  split at step
  · cases step
    exact ⟨_, Marked.framed_still s, (rest _).more⟩
  · cases step
    exact ⟨0, .of (.await made), rest _⟩

theorem marked_launch (setup : Setup W) (made : r.made = true) (ops : List SubOp)
    (after : List (Option EventId)) (parts : List PendingSubmit) :
    Marked T W t (launch setup q r ops after parts) {.met r.peer, .request q} := by
  refine marked_admission made ops fun admitted => ?_
  split
  · refine .next (effects_look _) fun depth => .next (effects_countAdmission depth) fun _ => ?_
    exact .next (effects_startParts (by rfl) (by rfl) (by rfl) (by rfl) (by rfl) setup after parts)
      fun _ => .ret _
  · exact .ret _

theorem marked_notify (setup : Setup W) (t : Tid) (peer : PeerId) (payload : Bytes) :
    Marked T W t (notify setup peer payload) 0 := by
  refine .ite (.ret _) (.next (effects_look _) fun closed => .ite (.ret _) (.connected ?_ (.ret _)))
  refine .nextNotify fun id => .nextId fun q => marked_awaitAck rfl fun closed => ?_
  refine .ite (.ret _) (.next (effects_look _) fun prov => ?_)
  refine .next (effects_look _) fun conn => ?_
  refine .next (apart_sendControl (by rfl) _ _ _ _).effects fun sent => ?_
  refine .ite (.next (effects_count _) fun _ => .ret _) ?_
  refine .next (effects_takeNotification (by rfl) _ _) fun taken => ?_
  split
  · exact .ret _
  · exact .next (effects_settle (by rfl) fun _ => .fail _) fun _ => .ret _

theorem marked_addPeer (setup : Setup W) (t : Tid) (metadata : Bytes) :
    Marked T W t (addPeer setup metadata) 0 := by
  unfold addPeer
  split
  · exact .ret _
  split
  · exact .ret _
  refine .next (apart_connect (by rfl) _ _).effects fun dialled => .ite (.ret _) ?_
  refine .next (apart_connectSiblings setup (by rfl) _).effects fun others => .nextPeer fun id => ?_
  exact .addPeer fun _ => .ret _

end

variable [LaneCost W] (setup : Setup W)

theorem marked_submitVector (t : Tid) (peer : PeerId) (loc remote : List RegionView)
    (opts : TransferOptions) (kind : SubOpKind) :
    Marked T W t (submitVector setup peer loc remote opts kind) 0 := by
  refine .next (effects_look _) fun closed => .ite (.ret _) (.ite (.ret _) (.ite (.ret _) ?_))
  refine .connected ?_ (.ret _)
  refine .next (apart_dependencyState (by simp) _ _).effects fun dep => .ite (.ret _) ?_
  refine .next (effects_full setup) fun full => .ite (.ret _) (.nextId fun q => ?_)
  refine .next (effects_look _) fun lanes => .next (Looks.effects
    (looks_buildSubops _ _ _ _ _ _ _ _)) ?_
  intro built
  split
  · exact .ret _
  refine .ite (.ret _) (.next (Looks.effects (looks_handoffTargets _ _ _ _)) fun targets => ?_)
  exact marked_launch setup rfl _ _ _

/-- Every call takes and uses its numbers as it should. -/
theorem marked_body (c : Call) (t : Tid) : Marked T W t (c.body T setup) 0 := by
  cases c with
  | read | write | readv | writev => exact marked_submitVector setup t _ _ _ _ _
  | notify => exact marked_notify setup t _ _
  | addPeer => exact marked_addPeer setup t _
  | _ => exact .calm (effects_body setup _ (by simp [turnKinds, Kind.isCalm]))

end

/-! ## What marks say -/

section
variable {T : Transport} {W : Type}

/-- The peer's number is not one that a thread is about to use. -/
def Met (s : World T W) (M : Multiset Mark) (p : PeerId) : Prop :=
  p < s.dir.nextPeer ∧ .peer p ∉ M

theorem Met.add {s : World T W} {M : Multiset Mark} {p : PeerId} (h : Met s M p) {m : Mark}
    (other : m ≠ .peer p) : Met s (M + {m}) p := by
  refine ⟨h.1, ?_⟩
  rw [mem_add, mem_singleton]
  rintro (old | new)
  · exact h.2 old
  · exact other new.symm

/-- With what is recorded, and with the marks of all threads. -/
structure Numbered (s : World T W) (M : Multiset Mark) : Prop where
  once : ∀ m, (∀ p, m ≠ .met p) → M.count m ≤ 1
  unused : ∀ h : Handle, .request h.number ∈ M →
    h.number < s.ledger.nextRequest ∧ (request h s).made = false
  made : ∀ h, (request h s).made = true → h.number < s.ledger.nextRequest
  inflight : ∀ q ∈ s.ledger.inflight, (request (.transfer q) s).made = true
  pending : ∀ n ∈ s.ledger.notifyPending,
    (request (.note n.2) s).made = true ∧ n.1 < s.nextNotify
  note : ∀ id, .note id ∈ M → id < s.nextNotify ∧ ∀ n ∈ s.ledger.notifyPending, n.1 ≠ id
  peer : ∀ p, .peer p ∈ M → p < s.dir.nextPeer ∧ p ∉ s.dir.peers ∧ s.dir.connected p = false
  known : ∀ p, p ∈ s.dir.peers ∨ s.dir.connected p = true → p < s.dir.nextPeer
  met : ∀ p, .met p ∈ M → Met s M p
  target : ∀ h, (request h s).made = true → Met s M (request h s).peer

/-- The peers of an engine have numbers that were given out. -/
def Directory.Numbered (d : Directory W) : Prop :=
  ∀ p, p ∈ d.peers ∨ d.connected p = true → p < d.nextPeer

theorem numbered_start {dir : Directory W} (known : dir.Numbered) (σ : T.State) :
    Numbered (World.start dir σ) 0 where
  once := by simp
  unused := by simp
  made := by simp [request, World.start]
  inflight := by simp [World.start]
  pending := by simp [World.start]
  note := by simp
  peer := by simp
  known := known
  met := by simp
  target := by simp [request, World.start]

namespace Numbered
variable {s s' : World T W} {M F : Multiset Mark}

theorem met_of_known (h : Numbered s M) {p : PeerId}
    (known : p ∈ s.dir.peers ∨ s.dir.connected p = true) : Met s M p := by
  refine ⟨h.known p known, fun held => ?_⟩
  obtain ⟨-, unlisted, down⟩ := h.peer p held
  rcases known with listed | up
  · exact unlisted listed
  · simp [down] at up

theorem calm (h : Numbered s M) (step : Calm s s') : Numbered s' M where
  once := h.once
  unused := by
    intro handle held
    rw [step.nextRequest, (step.ages handle).made]
    exact h.unused handle held
  made := by
    intro handle made
    rw [(step.ages handle).made] at made
    rw [step.nextRequest]
    exact h.made handle made
  inflight := by
    intro q hq
    rw [(step.ages _).made]
    exact h.inflight q (step.inflight hq)
  pending := by
    intro n hn
    rw [(step.ages _).made, step.nextNotify]
    exact h.pending n (step.notes hn)
  note := by
    intro id held
    rw [step.nextNotify]
    exact ⟨(h.note id held).1, fun n hn => (h.note id held).2 n (step.notes hn)⟩
  peer := by
    intro p held
    obtain ⟨given, unlisted, down⟩ := h.peer p held
    rw [step.nextPeer]
    refine ⟨given, fun listed => unlisted (step.peers listed), ?_⟩
    by_contra up
    simp [step.connected p (Bool.eq_true_of_not_eq_false up)] at down
  known := by
    intro p known
    rw [step.nextPeer]
    exact h.known p (known.imp (fun listed => step.peers listed) (step.connected p))
  met := by
    intro p held
    rw [Met, step.nextPeer]
    exact h.met p held
  target := by
    intro handle made
    rw [(step.ages handle).made] at made
    rw [Met, step.nextPeer, (step.ages handle).peer]
    exact h.target handle made

theorem found (h : Numbered s F) {p : PeerId} (up : s.dir.connected p = true) :
    Numbered s (F + {.met p}) where
  once := by
    intro m kind
    have other := h.once m kind
    simpa [count_singleton, kind p] using other
  unused := by simpa using h.unused
  made := h.made
  inflight := h.inflight
  pending := h.pending
  note := by simpa using h.note
  peer := by simpa using h.peer
  known := h.known
  met := by
    intro p' held
    rw [mem_add, mem_singleton] at held
    have met : Met s F p' := by
      rcases held with old | new
      · exact h.met p' old
      · cases new
        exact h.met_of_known (.inr up)
    exact met.add (by simp)
  target := fun handle made => (h.target handle made).add (by simp)

/-- A number just taken is in nobody else's hand. -/
theorem once_add {m : Mark} (once : ∀ m, (∀ p, m ≠ .met p) → F.count m ≤ 1) (new : m ∉ F) :
    ∀ m', (∀ p, m' ≠ .met p) → (F + {m}).count m' ≤ 1 := by
  intro m' kind
  rw [count_add, count_singleton]
  split
  · rename_i same
    subst same
    rw [Multiset.count_eq_zero.mpr new]
  · exact once m' kind

theorem nextId (h : Numbered s F) :
    Numbered { s with ledger := s.ledger.nextId } (F + {.request s.ledger.nextRequest}) where
  once := by
    refine once_add h.once fun held => ?_
    exact Nat.lt_irrefl _ (h.unused (.note s.ledger.nextRequest) held).1
  unused := by
    intro handle held
    rw [mem_add, mem_singleton, Mark.request.injEq] at held
    rcases held with old | new
    · exact ⟨Nat.lt_succ_of_lt (h.unused handle old).1, (h.unused handle old).2⟩
    · refine ⟨new ▸ Nat.lt_succ_self _, ?_⟩
      by_contra made
      have given := h.made handle (Bool.eq_true_of_not_eq_false made)
      exact Nat.lt_irrefl _ (new ▸ given)
  made := fun handle made => Nat.lt_succ_of_lt (h.made handle made)
  inflight := h.inflight
  pending := h.pending
  note := by simpa using h.note
  peer := by simpa using h.peer
  known := h.known
  met := by
    intro p held
    exact (h.met p (by simpa using held)).add (by simp)
  target := fun handle made => (h.target handle made).add (by simp)

theorem nextNotify (h : Numbered s F) :
    Numbered { s with nextNotify := s.nextNotify + 1 } (F + {.note s.nextNotify}) where
  once := by
    refine once_add h.once fun held => ?_
    exact Nat.lt_irrefl _ (h.note s.nextNotify held).1
  unused := fun handle held => h.unused handle (by simpa using held)
  made := h.made
  inflight := h.inflight
  pending := fun n hn => ⟨(h.pending n hn).1, Nat.lt_succ_of_lt (h.pending n hn).2⟩
  note := by
    intro id held
    rw [mem_add, mem_singleton, Mark.note.injEq] at held
    rcases held with old | new
    · exact ⟨Nat.lt_succ_of_lt (h.note id old).1, (h.note id old).2⟩
    · subst new
      exact ⟨Nat.lt_succ_self _, fun n hn => Nat.ne_of_lt (h.pending n hn).2⟩
  peer := by simpa using h.peer
  known := h.known
  met := by
    intro p held
    exact (h.met p (by simpa using held)).add (by simp)
  target := fun handle made => (h.target handle made).add (by simp)

theorem nextPeer (h : Numbered s F) :
    Numbered { s with dir := { s.dir with nextPeer := s.dir.nextPeer + 1 } }
      (F + {.peer s.dir.nextPeer}) where
  once := by
    refine once_add h.once fun held => ?_
    exact Nat.lt_irrefl _ (h.peer s.dir.nextPeer held).1
  unused := fun handle held => h.unused handle (by simpa using held)
  made := h.made
  inflight := h.inflight
  pending := h.pending
  note := by simpa using h.note
  peer := by
    intro p held
    rw [mem_add, mem_singleton, Mark.peer.injEq] at held
    rcases held with old | new
    · exact ⟨Nat.lt_succ_of_lt (h.peer p old).1, (h.peer p old).2⟩
    · subst new
      refine ⟨Nat.lt_succ_self _, fun listed => ?_, ?_⟩
      · exact Nat.lt_irrefl _ (h.known _ (.inl listed))
      · by_contra up
        exact Nat.lt_irrefl _ (h.known _ (.inr (Bool.eq_true_of_not_eq_false up)))
  known := fun p known => Nat.lt_succ_of_lt (h.known p known)
  met := by
    intro p held
    have old := h.met p (by simpa using held)
    exact ⟨Nat.lt_succ_of_lt old.1, (old.add (by simp [Nat.ne_of_gt old.1])).2⟩
  target := by
    intro handle made
    have old := h.target handle made
    exact ⟨Nat.lt_succ_of_lt old.1, (old.add (by simp [Nat.ne_of_gt old.1])).2⟩

/-- Marks that are used up or thrown away. -/
theorem drop (h : Numbered s (F + M)) : Numbered s F where
  once := fun m kind => (Multiset.count_le_of_le m (Multiset.le_add_right F M)).trans
    (h.once m kind)
  unused := fun handle held => h.unused handle (mem_add.mpr (.inl held))
  made := h.made
  inflight := h.inflight
  pending := h.pending
  note := fun id held => h.note id (mem_add.mpr (.inl held))
  peer := fun p held => h.peer p (mem_add.mpr (.inl held))
  known := h.known
  met := by
    intro p held
    have old := h.met p (mem_add.mpr (.inl held))
    exact ⟨old.1, fun held' => old.2 (mem_add.mpr (.inl held'))⟩
  target := by
    intro handle made
    have old := h.target handle made
    exact ⟨old.1, fun held' => old.2 (mem_add.mpr (.inl held'))⟩

/-- A mark in one thread's hand is in no other's. -/
theorem alone {m : Mark} (h : Numbered s (F + M)) (kind : ∀ p, m ≠ .met p) (held : m ∈ M) :
    m ∉ F := by
  intro other
  have once := h.once m kind
  rw [count_add] at once
  have first := Multiset.one_le_count_iff_mem.mpr held
  have second := Multiset.one_le_count_iff_mem.mpr other
  omega

/-- A request recorded under a number that was in the thread's hand. -/
theorem record {x : Handle} {r : Request} {l : Ledger} {remarks : List Remark}
    (h : Numbered s (F + M)) (made : r.made = true) (number : .request x.number ∈ M)
    (met : .met r.peer ∈ M) (reqs : l.reqs = Function.update s.ledger.reqs x r)
    (nextRequest : l.nextRequest = s.ledger.nextRequest)
    (inflight : ∀ q ∈ l.inflight, q ∈ s.ledger.inflight ∨ x = .transfer q)
    (pending : ∀ n ∈ l.notifyPending, n ∈ s.ledger.notifyPending ∨
      x = .note n.2 ∧ .note n.1 ∈ M) :
    Numbered { s with ledger := l, remarks := remarks } F := by
  have kept : ∀ h', h' ≠ x →
      request h' { s with ledger := l, remarks := remarks } = request h' s := by
    intro h' other
    simp [request, reqs, other]
  have new : request x { s with ledger := l, remarks := remarks } = r := by simp [request, reqs]
  have old := h.drop
  have taken := h.unused x (mem_add.mpr (.inr number))
  refine ⟨old.once, ?_, ?_, ?_, ?_, ?_, old.peer, old.known, old.met, ?_⟩
  · intro h' held
    by_cases this : h' = x
    · subst this
      exact absurd held (h.alone (by simp) number)
    · rw [kept h' this]
      exact nextRequest ▸ old.unused h' held
  · intro h' made'
    show h'.number < l.nextRequest
    rw [nextRequest]
    by_cases this : h' = x
    · exact this ▸ taken.1
    · exact old.made h' (kept h' this ▸ made')
  · intro q hq
    by_cases this : .transfer q = x
    · rw [this, new]
      exact made
    · rw [kept _ this]
      rcases inflight q hq with before | same
      · exact old.inflight q before
      · exact absurd same.symm this
  · intro n hn
    rcases pending n hn with before | ⟨same, held⟩
    · have known := old.pending n before
      refine ⟨?_, known.2⟩
      rw [kept _ ?_]
      · exact known.1
      · rintro rfl
        simp [taken.2] at known
    · refine ⟨?_, (h.note n.1 (mem_add.mpr (.inr held))).1⟩
      rw [← same, new]
      exact made
  · intro id held
    refine ⟨(old.note id held).1, fun n hn => ?_⟩
    rcases pending n hn with before | ⟨-, mine⟩
    · exact (old.note id held).2 n before
    · rintro rfl
      exact h.alone (by simp) mine held
  · intro h' made'
    by_cases this : h' = x
    · subst this
      rw [new]
      exact ⟨(h.met r.peer (mem_add.mpr (.inr met))).1, fun held =>
        (h.met r.peer (mem_add.mpr (.inr met))).2 (mem_add.mpr (.inl held))⟩
    · rw [kept h' this] at made' ⊢
      exact old.target h' made'

theorem addPeer {id : PeerId} {p : Peer W} (h : Numbered s (F + {.peer id})) :
    Numbered { s with dir := s.dir.addPeer id p } F := by
  have old := h.drop
  have mine : Mark.peer id ∈ F + {.peer id} := by simp
  have given := (h.peer id mine).1
  refine ⟨old.once, old.unused, old.made, old.inflight, old.pending, old.note, ?_, ?_, old.met,
    old.target⟩
  · intro p' held
    have other : p' ≠ id := by
      rintro rfl
      exact h.alone (by simp) (Multiset.mem_singleton_self _) held
    obtain ⟨given', unlisted, down⟩ := old.peer p' held
    refine ⟨given', ?_, ?_⟩
    · simp [Directory.addPeer, unlisted, other]
    · simpa [Directory.addPeer, other] using down
  · intro p' known
    by_cases this : p' = id
    · exact this ▸ given
    · refine old.known p' ?_
      simpa [Directory.addPeer, this] using known

/-- Every step keeps the numbers in order. -/
theorem taking {M' : Multiset Mark} (h : Numbered s (F + M)) (step : Taking s M s' M') :
    Numbered s' (F + M') := by
  cases step with
  | calm step => exact h.calm step
  | met up => exact h.drop.found up
  | nextId => exact h.drop.nextId
  | nextNotify => exact h.drop.nextNotify
  | nextPeer => exact h.drop.nextPeer
  | @enter t q r ops made =>
    rw [add_zero]
    refine h.record (x := .transfer q) made (by simp [Handle.number]) (by simp) rfl rfl ?_ ?_
    · intro q' hq
      simpa [Ledger.enter, or_comm, eq_comm] using hq
    · exact fun n hn => .inl hn
  | @await t id q r payload made =>
    rw [add_zero]
    refine h.record (x := .note q) made (by simp [Handle.number]) (by simp) rfl rfl ?_ ?_
    · exact fun q' hq => .inl hq
    · intro n hn
      rcases List.mem_append.mp hn with before | new
      · exact .inl (List.mem_filter.mp before).1
      · cases List.mem_singleton.mp new
        exact .inr ⟨rfl, by simp⟩
  | addPeer =>
    rw [add_zero]
    exact h.addPeer

end Numbered

/-! ## What lasts -/

/-- A peer keeps its lanes, and one that departed does not come back. -/
structure Stays (p : PeerId) (s s' : World T W) : Prop where
  object : s'.dir.peerObjects p = s.dir.peerObjects p
  connected : s'.dir.connected p = true → s.dir.connected p = true

/-- A request that was made stays the same request, to the same peer. -/
structure Lasting (s s' : World T W) : Prop where
  inflight : ∀ q ∈ s.ledger.inflight, (request (.transfer q) s).made = true
  pending : ∀ n ∈ s.ledger.notifyPending, (request (.note n.2) s).made = true
  ages : ∀ h, (request h s).made = true → (request h s).Ages (request h s')
  stays : ∀ h, (request h s).made = true → Stays (request h s).peer s s'
  fresh : ∀ t q R ops lines,
    s'.ledger.trace = (t, .admitted q R ops) :: (lines ++ s.ledger.trace) →
      (request (.transfer q) s).made = false

section
variable {s s' : World T W} {M M' F : Multiset Mark}

theorem Met.stays {p : PeerId} (met : Met s (F + M) p) (step : Taking s M s' M') :
    Stays p s s' ∧ Met s' (F + M') p := by
  cases step with
  | calm step =>
    exact ⟨⟨by rw [step.objects], step.connected p⟩, by rw [Met, step.nextPeer]; exact met⟩
  | met | nextId | nextNotify =>
    have old : Met s F p := by simpa using met
    exact ⟨⟨rfl, id⟩, old.add (by simp)⟩
  | nextPeer =>
    have other := (Met.add (m := .peer s.dir.nextPeer) (by simpa using met)
      (by simp [Nat.ne_of_gt met.1])).2
    exact ⟨⟨rfl, id⟩, Nat.lt_succ_of_lt met.1, other⟩
  | enter | await =>
    exact ⟨⟨rfl, id⟩, met.1, fun held => met.2 (mem_add.mpr (.inl (by simpa using held)))⟩
  | @addPeer id =>
    have other : p ≠ id := by
      rintro rfl
      exact met.2 (by simp)
    refine ⟨⟨?_, ?_⟩, met.1, fun held => met.2 (mem_add.mpr (.inl (by simpa using held)))⟩
    · simp [Directory.addPeer, other]
    · simp [Directory.addPeer, other]

/-- A request recorded anew was not there before. -/
theorem Numbered.ages (h : Numbered s (F + M)) (step : Taking s M s' M') (x : Handle)
    (made : (request x s).made = true) : (request x s).Ages (request x s') := by
  have fresh {y : Handle} (number : .request y.number ∈ M) : x ≠ y := by
    rintro rfl
    simp [(h.unused x (mem_add.mpr (.inr number))).2] at made
  cases step with
  | calm step => exact step.ages x
  | met | nextId | nextNotify | nextPeer | addPeer => exact .refl _
  | @enter t q r ops =>
    have other : x ≠ .transfer q := fresh (by simp [Handle.number])
    simpa [request, Ledger.enter, other] using .refl _
  | @await t id q r =>
    have other : x ≠ .note q := fresh (by simp [Handle.number])
    simpa [request, Ledger.awaitAck, other] using .refl _

/-- The number of a transfer that is admitted was not in use. -/
theorem Numbered.fresh (h : Numbered s (F + M)) (step : Taking s M s' M') {t : Tid} {q : RequestId}
    {R : List RegionId} {ops : List SubOp} {lines : List (Tid × Event)}
    (told : s'.ledger.trace = (t, .admitted q R ops) :: (lines ++ s.ledger.trace)) :
    (request (.transfer q) s).made = false := by
  have other (continues : s.ledger.Continues s'.ledger) :
      (request (.transfer q) s).made = false := by
    cases continues.none told
  cases step with
  | calm step => exact other step.told
  | met | nextId | nextNotify | nextPeer | addPeer => exact other (.refl _)
  | await => exact other ((s.ledger.same_put _ _ _).continues)
  | @enter u q' r ops' =>
    have line := (List.cons.inj told).1
    simp only [Prod.mk.injEq, Event.admitted.injEq] at line
    obtain ⟨-, rfl, -⟩ := line
    exact (h.unused (.transfer q') (mem_add.mpr (.inr (by simp [Handle.number])))).2

theorem Numbered.lasting (h : Numbered s (F + M)) (step : Taking s M s' M') : Lasting s s' where
  inflight := h.inflight
  pending := fun n hn => (h.pending n hn).1
  ages := h.ages step
  stays := fun x made => ((h.target x made).stays step).1
  fresh := fun _ _ _ _ _ told => h.fresh step told

theorem Numbered.still (h : Numbered s M) : Lasting s s where
  inflight := h.inflight
  pending := fun n hn => (h.pending n hn).1
  ages := fun _ _ => .refl _
  stays := fun _ _ => ⟨rfl, id⟩
  fresh := by
    intro t q R ops lines told
    cases (Ledger.Continues.refl _).none told

end

variable [LaneCost W] {setup : Setup W} {dir : Directory W} {σ : T.State}
  {ok : World T W → World T W → Prop} {p p' p'' : Pools T W}

theorem Run.numbered (known : dir.Numbered)
    (run : Runs setup dir σ ok p) :
    ∃ held, Matched (fun _ => Taking) (fun _ _ _ _ => True) p held ∧
      Numbered p.shared held.sum :=
  run.invariant Numbered (fun c t => marked_body setup c t) (numbered_start known σ)
    fun _ _ _ _ _ _ h step _ => h.taking step

/-- In every step of every run, what is recorded lasts. -/
theorem Run.lasting (known : dir.Numbered)
    (run : Runs setup dir σ ok p) :
    Runs setup dir σ (fun s s' => ok s s' ∧ Lasting s s') p := by
  have started : Matched (fun _ => Taking) (fun _ _ _ _ => True)
      (.start (World.start dir σ) : Pools T W) [] :=
    ⟨rfl, by intro t ht; simp [Interleave.Pool.start] at ht⟩
  have on := Onward.invariant Numbered (fun c t => marked_body setup c t) (fun _ _ h => h.still)
    (fun _ _ _ _ _ _ h step _ => ⟨h.taking step, h.lasting step⟩) run.onward started
    (numbered_start known σ)
  exact Run.start.further on.1

theorem Run.lasting_step (known : dir.Numbered)
    (run : Runs setup dir σ ok p) {a : Interleave.Act Call (Answer T)}
    (step : p.step (Call.body T setup) a = some p') : Lasting p.shared p'.shared := by
  obtain ⟨held, matched, numbered⟩ := Run.numbered known run
  obtain ⟨held', -, ⟨-, -, same⟩ | ⟨t, -, F, M, M', -, before, -, moved⟩⟩ :=
    Interleave.step_matched (fun c t => marked_body setup c t) step matched
  · rw [same.1]
    exact numbered.still
  · exact (before ▸ numbered : Numbered p.shared (F + M)).lasting moved

/-- From when a peer is known on, so do its lanes and its departure. -/
theorem Run.stays (known : dir.Numbered)
    (run : Runs setup dir σ ok p) {peer : PeerId}
    (listed : peer ∈ p.shared.dir.peers) (on : Onward (Call.body T setup) ok p p')
    (later : Onward (Call.body T setup) ok p' p'') :
    Onward (Call.body T setup) (fun s s' => ok s s' ∧ Lasting s s' ∧ Stays peer s s') p' p'' := by
  obtain ⟨held, matched, numbered⟩ := Run.numbered known run
  have segment {p p' : Pools T W}
      {held : List (Multiset Mark)} (on : Onward (Call.body T setup) ok p p')
      (matched : Matched (fun _ => Taking) (fun _ _ _ _ => True) p held)
      (met : Numbered p.shared held.sum ∧ Met p.shared held.sum peer) :
      Onward (Call.body T setup) (fun s s' => ok s s' ∧ Lasting s s' ∧ Stays peer s s') p p' ∧
        ∃ held', Matched (fun _ => Taking) (fun _ _ _ _ => True) p' held' ∧
          Numbered p'.shared held'.sum ∧ Met p'.shared held'.sum peer :=
    Onward.invariant (fun s M => Numbered s M ∧ Met s M peer)
      (fun c t => marked_body setup c t) (fun _ _ h => ⟨h.1.still, rfl, id⟩)
      (fun _ _ _ _ _ _ h step _ => ⟨⟨h.1.taking step, (h.2.stays step).2⟩, h.1.lasting step,
        (h.2.stays step).1⟩) on matched met
  obtain ⟨-, held, matched, met⟩ :=
    segment on matched ⟨numbered, numbered.met_of_known (.inl listed)⟩
  exact (segment later matched met).1

end

end Hux
