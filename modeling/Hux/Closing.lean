import Hux.Work
import Hux.Discipline

/-!
# Closing an engine

`close` sets a flag that admission looks at, and then looks at the tables. What
it sees empty stays empty; what has left the tables it does not wait for.
-/

namespace Hux
open Interleave (Tid Run Onward Stable Relies Upholds Pool)
open Wire (Bytes)

section
variable {T : Transport} {W : Type}

/-! ## What `close` sees -/

/-- Closed with nothing in flight. -/
structure Emptied (s : World T W) : Prop where
  closed : s.closed = true
  inflight : s.ledger.inflight = ∅

/-- And with no notification waiting. -/
structure Silent (s : World T W) : Prop extends Emptied s where
  notes : s.ledger.notifyPending = []

/-- A step of some call that meets a condition. The engine is only stopped once
it is silent. -/
structure Working (ok : World T W → World T W → Prop) (s s' : World T W) : Prop where
  work : Work s s'
  met : ok s s'
  proper : s.stopping = false → s'.stopping = true → Silent s

/-- The steps of every call but `close`. -/
abbrev ungated : Set Kind := {k | (k != .gate) = true}

variable {ok : World T W → World T W → Prop} {t : Tid} {s : World T W}

theorem Effect.stopping {k : Kind} {s s' : World T W} (h : Effect k s s') (kind : k ∈ ungated) :
    s'.stopping = s.stopping := by
  cases h with
  | close | stop => cases kind
  | note same | settle same => exact same.stopping
  | forget _ written | tables written =>
    subst written
    rfl
  | _ => rfl

theorem within_ungated : Within ungated (Working ok) ok := by
  intro s s' step met
  rcases step with plain | ⟨k, kind, effect⟩
  · refine ⟨.inl plain, met, fun before after => ?_⟩
    simp [plain.same.stopping, before] at after
  · refine ⟨.inr ⟨k, effect⟩, met, fun before after => ?_⟩
    simp [effect.stopping kind, before] at after

theorem stable_closed : Stable (Working ok) fun s => s.closed = true :=
  fun _ _ step closed => step.work.closed closed

theorem stable_made (x : Handle) : Stable (Working ok) fun s => (request x s).made = true :=
  fun _ _ step made => step.work.made made

theorem stable_emptied : Stable (Working ok) (Emptied : World T W → Prop) := by
  intro s s' step drained
  refine ⟨step.work.closed drained.closed, ?_⟩
  have fewer := (step.work.shut drained.closed).inflight
  rw [drained.inflight] at fewer
  exact Finset.subset_empty.mp fewer

theorem stable_silent : Stable (Working ok) (Silent : World T W → Prop) := by
  intro s s' step silent
  refine ⟨stable_emptied s s' step silent.toEmptied, ?_⟩
  have fewer := (step.work.shut silent.closed).notes
  rw [silent.notes] at fewer
  exact List.subset_nil.mp fewer

theorem relies_closeLoop (setup : Setup W) (turns : Nat) (closed : s.closed = true) :
    Relies (Working ok) ok t (closeLoop setup turns)
      (fun empty s => s.closed = true ∧ (empty = true → Emptied s)) s := by
  have looked {s : World T W} (closed : s.closed = true) : Relies (Working ok) ok t
      (look fun s => decide (s.ledger.inflight = ∅))
      (fun empty s => s.closed = true ∧ (empty = true → Emptied s)) s := by
    refine within_ungated.look stable_closed closed fun s closed => ⟨closed, fun empty => ?_⟩
    exact ⟨closed, by simpa using empty⟩
  induction turns generalizing s with
  | zero => exact looked closed
  | succ turns ih =>
    refine (looked closed).bind ?_
    intro empty s seen
    cases empty with
    | true => exact seen
    | false =>
      have turn : Effects T W ungated (progress setup) :=
        effects_turn setup (by simp [turnKinds])
      exact within_ungated.keeping turn stable_closed seen.1 fun _ s closed => ih closed

/-- Ends every notification there is. -/
theorem relies_endAll (setup : Setup W) {e : ErrorInfo} (notFull : e.status ≠ .resourceExhausted)
    (drained : Emptied s) :
    Relies (Working ok) ok t (endNotifications setup 0 false e) (fun _ => Silent) s := by
  refine Upholds.bind (Q := fun _ => Silent) ?_ fun ended s silent =>
    within_ungated.relies (effects_endNotes setup (by rfl) notFull ended) stable_silent silent
  exact within_ungated.forgetNotes rfl stable_emptied drained fun s drained =>
    ⟨⟨drained.closed, drained.inflight⟩, by simp⟩

theorem relies_close (setup : Setup W) (turns : Nat) (s : World T W) :
    Relies (Working ok) ok t (close setup turns)
      (fun r s => r = .status .ok → Silent s ∧ s.stopping = true) s := by
  refine .atom (P := fun _ => True) (fun _ _ _ h => h) trivial ?_
  intro s e _ s' _ step met
  cases step
  refine ⟨⟨.inr ⟨_, .close⟩, met, by simp +contextual⟩, ?_⟩
  refine (relies_closeLoop setup turns rfl).bind ?_
  intro empty s seen
  cases empty with
  | false => simp [Upholds]
  | true =>
    refine (relies_endAll setup (by decide) (seen.2 rfl)).bind fun _ s silent => ?_
    refine .atom stable_silent silent ?_
    intro s e _ s' silent step met
    cases step
    refine ⟨⟨.inr ⟨_, .stop⟩, met, fun _ _ => silent⟩, fun _ => ⟨?_, rfl⟩⟩
    exact ⟨⟨silent.closed, silent.inflight⟩, silent.notes⟩

/-! ## What a submission returns -/

/-- With `kOk` comes a request, and it has been recorded. -/
def Made (r : Reply) (s : World T W) : Prop :=
  ∀ x, r = .request .ok x → ∃ h, x = some h ∧ (request h s).made = true

theorem relies_refused {a : Status} (refused : a ≠ .ok) :
    Relies (Working ok) ok t (pure (.request a none) : Engine T W Reply) Made s := by
  rintro x ⟨⟩
  exact absurd rfl refused

theorem relies_recorded (a : Status) {h : Handle} (made : (request h s).made = true) :
    Relies (Working ok) ok t (pure (.request a (some h)) : Engine T W Reply) Made s := by
  rintro x ⟨⟩
  exact ⟨h, rfl, made⟩

theorem relies_launch (setup : Setup W) {q : RequestId} {r : Request} (made : r.made = true)
    (ops : List SubOp) (after : List (Option EventId)) (parts : List PendingSubmit)
    (s : World T W) :
    Relies (Working ok) ok t (launch setup q r ops after parts) Made s := by
  have admitted : Relies (Working ok) ok t (admission q r ops)
      (fun a s => a = .ok → (request (.transfer q) s).made = true) s := by
    refine within_ungated.atom (effects_admission (by rfl) made ops) (P := fun _ => True)
      (fun _ _ _ h => h) trivial ?_
    intro s e a s' _ step _
    cases step
    dsimp only
    split
    · simp
    split
    · simp
    · simp [request, Ledger.enter, made]
  refine admitted.bind fun a s made => ?_
  have stable : Stable (Working ok) fun s => (request (.transfer q) s).made = true := stable_made _
  split
  · refine within_ungated.keeping (effects_look _) stable (made rfl) fun depth s made => ?_
    refine within_ungated.keeping (effects_countAdmission depth) stable made fun _ s made => ?_
    refine within_ungated.keeping (effects_startParts (by rfl) (by rfl) (by rfl) (by rfl) (by rfl) setup
      after parts) stable made fun _ s made => ?_
    exact relies_recorded _ made
  · rename_i refused
    exact relies_refused refused

theorem relies_notify (setup : Setup W) (peer : PeerId) (payload : Bytes) (s : World T W) :
    Relies (Working ok) ok t (notify setup peer payload) Made s := by
  refine upholds_ite (fun _ => relies_refused (by decide)) fun _ => ?_
  refine within_ungated.past (effects_look _) fun closed s =>
    upholds_ite (fun _ => relies_refused (by decide)) fun _ => ?_
  refine within_ungated.past (effects_look _) fun connected s =>
    upholds_ite (fun _ => relies_refused (by decide)) fun _ => ?_
  refine within_ungated.past (effects_exchange_of (k := .number) rfl fun s => .inr .nextNotify)
    fun id s => ?_
  refine within_ungated.past (effects_nextId (by rfl)) fun q s => ?_
  refine Upholds.bind (Q := fun closed s => closed = false →
    (request (.note q) s).made = true) ?_ ?_
  · refine within_ungated.atom (effects_awaitAck (by rfl) rfl _) (P := fun _ => True)
      (fun _ _ _ h => h) trivial ?_
    intro s e a s' _ step _
    split at step
    · cases step
      simp
    · cases step
      simp [request, Ledger.awaitAck]
  intro closed s made
  have stable : Stable (Working ok) fun s => (request (.note q) s).made = true := stable_made _
  cases closed with
  | true => exact relies_refused (by decide)
  | false =>
    refine within_ungated.keeping (effects_look _) stable (made rfl) fun prov s made => ?_
    refine within_ungated.keeping (effects_look _) stable made fun conn s made => ?_
    refine within_ungated.keeping (apart_sendControl (by rfl) _ _ _ _).effects stable made ?_
    intro sent s made
    refine upholds_ite (fun _ => ?_) fun _ => ?_
    · exact within_ungated.keeping (effects_count _) stable made fun _ s => relies_recorded _
    refine within_ungated.keeping (effects_takeNotification (by rfl) _ _) stable made ?_
    intro taken s made
    cases taken with
    | none => exact relies_recorded _ made
    | some =>
      exact within_ungated.keeping (effects_settle (by rfl) fun _ => .fail _) stable made
        fun _ s => relies_recorded _

/-- The calls that make requests. -/
def Call.submits : Call → Bool
  | .read _ _ _ _ | .write _ _ _ _ | .readv _ _ _ _ | .writev _ _ _ _ | .notify _ _ => true
  | _ => false

/-- What is known when a call has returned. -/
def Call.after (c : Call) (r : Reply) (s : World T W) : Prop :=
  (∀ n, c = .close n → r = .status .ok → Silent s ∧ s.stopping = true) ∧
    (c.submits = true → Made r s)

theorem stable_after (c : Call) (r : Reply) :
    Stable (Working ok) (c.after r : World T W → Prop) := by
  intro s s' step after
  refine ⟨fun n hc hr => ?_, fun submits x hr => ?_⟩
  · obtain ⟨silent, stopping⟩ := after.1 n hc hr
    exact ⟨stable_silent s s' step silent, step.work.stopping stopping⟩
  · obtain ⟨h, hx, made⟩ := after.2 submits x hr
    exact ⟨h, hx, step.work.made made⟩

/-- Nothing is recorded from when the engine is closed. -/
theorem shut_later {s s' : World T W} (later : Relation.ReflTransGen (Working ok) s s')
    (closed : s.closed = true) : s'.closed = true ∧ Shut s s' := by
  induction later with
  | refl => exact ⟨closed, Finset.Subset.refl _, List.Subset.refl _, fun _ => .refl _⟩
  | tail _ step ih =>
    have shut := step.work.shut ih.1
    refine ⟨step.work.closed ih.1, shut.inflight.trans ih.2.inflight, ?_, ?_⟩
    · exact List.Subset.trans shut.notes ih.2.notes
    · intro x
      have old := ih.2.ages x
      have new := shut.ages x
      exact ⟨new.made.trans old.made, new.peer.trans old.peer,
        fun h => new.terminal (old.terminal h), fun h => new.abandoning (old.abandoning h)⟩

/-! ## What `close` does not wait for -/

/-- The engine is only stopped when every request that is in none of the tables
is over. -/
def Awaited (s s' : World T W) : Prop :=
  s.stopping = false → s'.stopping = true →
    (∀ q, (request (.transfer q) s).made = true → q ∉ s.ledger.inflight →
      (request (.transfer q) s).terminal = true) ∧
    ∀ q, (request (.note q) s).made = true → (∀ id, (id, q) ∉ s.ledger.notifyPending) →
      (request (.note q) s).terminal = true

/-- Stopped, with every request over. -/
def Finished (s : World T W) : Prop :=
  s.closed = true ∧ ∀ x, (request x s).made = true → (request x s).terminal = true

theorem Shut.finished {s s' : World T W} (shut : Shut s s') (closed : s'.closed = true)
    (finished : Finished s) : Finished s' := by
  refine ⟨closed, fun x made => ?_⟩
  rw [(shut.ages x).made] at made
  exact (shut.ages x).terminal (finished.2 x made)

theorem stable_finished :
    Stable (Working Awaited) fun s : World T W => s.stopping = true → Finished s := by
  intro s s' step before stopping
  cases already : s.stopping with
  | true =>
    have finished := before already
    exact (step.work.shut finished.1).finished (step.work.closed finished.1) finished
  | false =>
    have silent := step.proper already stopping
    obtain ⟨transfers, notes⟩ := step.met already stopping
    refine (step.work.shut silent.closed).finished (step.work.closed silent.closed)
      ⟨silent.closed, fun x made => ?_⟩
    cases x with
    | transfer q => exact transfers q made (by simp [silent.inflight])
    | note q => exact notes q made (by simp [silent.notes])

/-! ## Runs -/

variable [LaneCost W]

theorem relies_submitVector (setup : Setup W) (peer : PeerId) (loc remote : List RegionView)
    (opts : TransferOptions) (kind : SubOpKind) (s : World T W) :
    Relies (Working ok) ok t (submitVector setup peer loc remote opts kind) Made s := by
  refine within_ungated.past (effects_look _) fun closed s =>
    upholds_ite (fun _ => relies_refused (by decide)) fun _ => ?_
  refine upholds_ite (fun _ => relies_refused (by decide)) fun paired => ?_
  have same : loc.length = remote.length := by
    simp only [Bool.or_eq_true, decide_eq_true_eq, not_or, not_not] at paired
    exact paired.2
  refine upholds_ite (fun _ => relies_refused (by decide)) fun _ => ?_
  refine within_ungated.past (effects_look _) fun connected s =>
    upholds_ite (fun _ => relies_refused (by decide)) fun _ => ?_
  refine within_ungated.past (apart_dependencyState (by simp) _ _).effects fun dep s =>
    upholds_ite (fun bad => relies_refused bad.1) fun _ => ?_
  refine within_ungated.past (effects_full setup) fun full s =>
    upholds_ite (fun _ => relies_refused (by decide)) fun _ => ?_
  refine within_ungated.past (effects_nextId (by rfl)) fun q s => ?_
  refine within_ungated.past (effects_look _) fun lanes s => ?_
  refine ((within_ungated.relies (Looks.effects (looks_buildSubops _ _ _ _ _ _ _ _))
    (P := fun _ => True) (fun _ _ _ h => h) trivial).knowing
    ((keeps_buildSubops lanes same).weaken fun _ _ h => h.2)).bind fun built s known => ?_
  split
  · exact relies_refused (known.2.error _ rfl)
  refine upholds_ite (fun _ => relies_refused (by decide)) fun _ => ?_
  refine within_ungated.past (Looks.effects (looks_handoffTargets _ _ _ _)) fun targets s => ?_
  exact relies_launch setup rfl _ _ _ s

theorem relies_body (setup : Setup W) (c : Call) (s : World T W) :
    Relies (Working ok) ok t (c.body T setup) c.after s := by
  have other (plain : (∀ n, c ≠ .close n) ∧ c.submits = false) (all : ∀ k ∈ c.kinds, k ∈ ungated) :
      Relies (Working ok) ok t (c.body T setup) c.after s := by
    refine (within_ungated.relies (effects_body setup c all) (P := fun _ => True)
      (fun _ _ _ h => h) trivial).weaken ?_
    intro r s _
    exact ⟨fun n hc => absurd hc (plain.1 n), fun submits => by simp [plain.2] at submits⟩
  cases c with
  | close n =>
    refine (relies_close setup n s).weaken fun r s h => ⟨?_, by simp [Call.submits]⟩
    rintro n ⟨⟩
    exact h
  | read | write | readv | writev =>
    exact (relies_submitVector setup _ _ _ _ _ s).weaken fun r s h => ⟨by simp, fun _ => h⟩
  | notify =>
    exact (relies_notify setup _ _ s).weaken fun r s h => ⟨by simp, fun _ => h⟩
  | _ => exact other ⟨by simp, rfl⟩ (by simp [turnKinds])

variable {setup : Setup W} {dir : Directory W} {σ : T.State}
  {p p' : Pools T W}

theorem reliant_of_run (run : Runs setup dir σ ok p) :
    p.Reliant (Working ok) ok fun _ c => c.after :=
  (run.onward.relies (fun _ => True) (fun _ _ => True) (fun _ _ _ h => h)
    (fun _ c r => stable_after c r) (fun _ c s _ _ _ => relies_body setup c s) trivial
    (Pool.upheld_start _) fun _ _ _ => trivial).2.1

/-- The same calls, when more is known of the steps from now on. -/
theorem reliant_of_narrower {ok' : World T W → World T W → Prop}
    (narrower : ∀ s s', ok' s s' → ok s s')
    (run : Runs setup dir σ ok p) :
    p.Reliant (Working ok') ok' fun _ c => c.after := by
  intro t th hth
  refine (reliant_of_run run t th hth).narrow ?_ narrower ?_
  · exact fun s s' step => ⟨step.work, narrower s s' step.met, step.proper⟩
  · exact fun s s' step met => ⟨step.work, met, step.proper⟩

/-- From one state of a run to a later one the engine works. -/
theorem working_of_onward {ok' : World T W → World T W → Prop}
    (narrower : ∀ s s', ok' s s' → ok s s')
    (run : Runs setup dir σ ok p)
    (on : Onward (Call.body T setup) ok' p p') :
    Relation.ReflTransGen (Working ok') p.shared p'.shared :=
  (on.relies (fun _ => True) (fun _ _ => True) (fun _ _ _ h => h)
    (fun _ c r => stable_after c r) (fun _ c s _ _ _ => relies_body setup c s) trivial
    (reliant_of_narrower narrower run) fun _ _ _ => trivial).2.2

/-- What stays true while the engine works is true in every state of a run. -/
theorem run_keeps {P : World T W → Prop} (stable : Stable (Working ok) P)
    (start : P (World.start dir σ)) (run : Runs setup dir σ ok p) :
    P p.shared :=
  stable.later (working_of_onward (fun _ _ h => h) .start run.onward) start

/-- In every run, once `close` has returned `kOk` nothing is in flight and no
notification waits; and from when the engine is closed nothing is added, and a
call that returns `kOk` returns a request that was recorded before. -/
theorem closed_engine_stays_drained (setup : Setup W) (dir : Directory W) (σ : T.State)
    {p : Pools T W}
    (run : Runs setup dir σ (fun _ _ => True) p) :
    (∀ t n, p.returned t = some (.close n, .status .ok) →
      p.shared.ledger.inflight = ∅ ∧ p.shared.ledger.notifyPending = []) ∧
    (p.shared.closed = true → ∀ p', Onward (Call.body T setup) (fun _ _ => True) p p' →
      p'.shared.ledger.inflight ⊆ p.shared.ledger.inflight ∧
      p'.shared.ledger.notifyPending ⊆ p.shared.ledger.notifyPending ∧
      ∀ t c x, c.submits = true → p'.returned t = some (c, .request .ok x) →
        ∃ h, x = some h ∧ (request h p.shared).made = true) := by
  constructor
  · intro t n done
    have silent := ((reliant_of_run run).returned done).1 n rfl rfl
    exact ⟨silent.1.inflight, silent.1.notes⟩
  · intro closed p' on
    have shut := (shut_later (working_of_onward (fun _ _ h => h) run on) closed).2
    refine ⟨shut.inflight, shut.notes, ?_⟩
    intro t c x submits done
    obtain ⟨h, hx, made⟩ := ((reliant_of_run (run.further on)).returned done).2 submits x rfl
    exact ⟨h, hx, (shut.ages h).made.symm.trans made⟩

/-- A write, so many steps of a turn of progress, and `close`. -/
def Pair.closeAfter (n : Nat) : List (Interleave.Cue Call) :=
  [.spawn (Pair.write []), .run 0 21, .spawn .progress, .run 1 n, .spawn (.close 0), .run 2 4]

/-- A write that is carried out, and then `close`. -/
theorem closed_engine_stays_drained_write :
    ∃ p, Pair.play .nothing (fun _ _ => true) [.spawn (Pair.write []), .run 0 21, .spawn .progress,
        .run 1 29, .spawn (.close 0), .run 2 4] = some p ∧
      p.returned 2 = some (.close 0, .status .ok) ∧
      p.shared.ledger.inflight = ∅ ∧ p.shared.ledger.notifyPending = [] := by
  obtain ⟨p, played, run, done⟩ := Pair.played .nothing (fun _ _ => True) (Pair.closeAfter 29)
    (fun p => p.returned 2 = some (.close 0, .status .ok)) (by decide +kernel)
  have drained := closed_engine_stays_drained (T := Pair.transport) Pair.setup Pair.directory
    Pair.state run
  exact ⟨p, played, done, drained.1 2 0 done⟩

end

end Hux
