import Hux.Tickets
import Hux.Local

/-!
# Calls among the steps of other calls

What a call can rely on: that the other calls take steps of the engine.

* `Work`: a step of the engine, whichever call makes it;
* `Work.cases`: it records a transfer or a notification, or it records nothing,
  and once the engine is closed it records nothing;
* `Effects.keeping`: a program goes on knowing what no step makes false.
-/

namespace Hux
open Interleave (Tid Stable Relies Upholds)

section
variable {T : Transport} {W : Type}

/-! ## Steps of the engine -/

/-- A step of some call. -/
def Work (s s' : World T W) : Prop := Plain s s' ∨ ∃ k, Effect k s s'

/-- Nothing is recorded, and what is there stays what it is. -/
structure Shut (s s' : World T W) : Prop where
  inflight : s'.ledger.inflight ⊆ s.ledger.inflight
  notes : s'.ledger.notifyPending ⊆ s.ledger.notifyPending
  ages : ∀ h, (request h s).Ages (request h s')

variable {s s' : World T W}

theorem Calm.shut (h : Calm s s') : Shut s s' := ⟨h.inflight, h.notes, h.ages⟩

theorem Work.cases (h : Work s s') :
    Shut s s' ∨
    (∃ t q r ops, s.closed = false ∧ r.made = true ∧
      s' = { s with ledger := s.ledger.enter t q r ops }) ∨
    ∃ t id q r payload, s.closed = false ∧ r.made = true ∧
      s' = { s with
        ledger := s.ledger.awaitAck t id q r
        remarks := .numbered q id payload :: s.remarks } := by
  rcases h with plain | ⟨k, effect⟩
  · exact .inl plain.calm.shut
  by_cases calm : k.isCalm = true
  · exact .inl (effect.calm calm).shut
  cases effect with
  | @enter _ t q r ops opened made => exact .inr (.inl ⟨t, q, r, ops, opened, made, rfl⟩)
  | @await _ t id q r payload opened made =>
    exact .inr (.inr ⟨t, id, q, r, payload, opened, made, rfl⟩)
  | nextId | nextNotify | nextPeer | addPeer =>
    exact .inl ⟨Finset.Subset.refl _, List.Subset.refl _, fun _ => .refl _⟩
  | _ => exact absurd rfl calm

/-- Once the engine is closed, nothing is recorded. -/
theorem Work.shut (h : Work s s') (closed : s.closed = true) : Shut s s' := by
  rcases h.cases with shut | ⟨t, q, r, ops, opened, -⟩ | ⟨t, id, q, r, -, opened, -⟩
  · exact shut
  · simp [closed] at opened
  · simp [closed] at opened

theorem Work.closed (h : Work s s') (closed : s.closed = true) : s'.closed = true := by
  rcases h with plain | ⟨k, effect⟩
  · exact plain.calm.closed closed
  by_cases calm : k.isCalm = true
  · exact (effect.calm calm).closed closed
  cases effect with
  | enter | await | nextId | nextNotify | nextPeer | addPeer => exact closed
  | _ => exact absurd rfl calm

theorem Work.stopping (h : Work s s') (stopping : s.stopping = true) : s'.stopping = true := by
  rcases h with plain | ⟨k, effect⟩
  · rw [plain.same.stopping]
    exact stopping
  cases effect with
  | note same | settle same =>
    rw [same.stopping]
    exact stopping
  | forget _ written | tables written =>
    subst written
    exact stopping
  | stop => rfl
  | _ => exact stopping

/-- A request that was made stays made. -/
theorem Work.made (h : Work s s') {x : Handle} (made : (request x s).made = true) :
    (request x s').made = true := by
  rcases h.cases with shut | ⟨t, q, r, ops, -, new, rfl⟩ | ⟨t, id, q, r, payload, -, new, rfl⟩
  · rw [(shut.ages x).made]
    exact made
  · by_cases this : x = .transfer q
    · simp [request, Ledger.enter, this, new]
    · simpa [request, Ledger.enter, this] using made
  · by_cases this : x = .note q
    · simp [request, Ledger.awaitAck, this, new]
    · simpa [request, Ledger.awaitAck, this] using made

end

/-! ## Programs among such steps -/

section
variable {T : Transport} {W : Type} {α β : Type} {G ok : World T W → World T W → Prop} {t : Tid}
  {s : World T W} {K : Set Kind}

/-- Those steps of the kinds `K` that meet `ok` are in `G`. -/
def Within (K : Set Kind) (G ok : World T W → World T W → Prop) : Prop :=
  ∀ s s', Plain s s' ∨ (∃ k ∈ K, Effect k s s') → ok s s' → G s s'

namespace Within
variable {R : World T W → World T W → Prop}

variable {p : Engine T W α} {P : World T W → Prop}

/-- A program that takes no other steps still knows what it knew. -/
theorem upholds (within : Within K G ok) (effects : Effects T W K p) (others : Stable R P)
    (self : Stable (fun s s' => (Plain s s' ∨ ∃ k ∈ K, Effect k s s') ∧ ok s s') P) (before : P s) :
    Upholds R G ok t p (fun _ => P) s :=
  Interleave.Steps.upholds effects within others self before

theorem relies (within : Within K G ok) (effects : Effects T W K p) (stable : Stable G P)
    (before : P s) :
    Relies G ok t p (fun _ => P) s :=
  within.upholds effects stable (fun s s' step => stable s s' (within s s' step.1 step.2)) before

theorem keeping (within : Within K G ok) (effects : Effects T W K p) {g : α → Engine T W β}
    {Q : β → World T W → Prop} (stable : Stable G P) (before : P s)
    (rest : ∀ a s, P s → Relies G ok t (g a) Q s) :
    Relies G ok t (p >>= g) Q s :=
  (within.relies effects stable before).bind rest

/-- A part of a program of which nothing need be known. -/
theorem past (within : Within K G ok) (effects : Effects T W K p) {g : α → Engine T W β}
    {Q : β → World T W → Prop} (rest : ∀ a s, Upholds R G ok t (g a) Q s) :
    Upholds R G ok t (p >>= g) Q s :=
  (within.upholds effects (P := fun _ => True) (fun _ _ _ => id) (fun _ _ _ => id) trivial).bind
    fun a s _ => rest a s

/-- One step, with what is known of the state it is taken in. -/
theorem atom (within : Within K G ok) {f : Tid → World T W → Answer T → Option (α × World T W)}
    (effects : Effects T W K (.atom f .ret : Engine T W α)) {Q : α → World T W → Prop}
    (stable : Stable R P) (before : P s)
    (learns : ∀ s e a s', P s → f t s e = some (a, s') → ok s s' → Q a s') :
    Upholds R G ok t (.atom f .ret) Q s :=
  .atom stable before fun s e a s' known step met =>
    ⟨within s s' (effects.1 t s e a s' step) met, learns s e a s' known step met⟩

/-- A look at the state, with what is known of the state it looks at. -/
theorem look (within : Within K G ok) {f : World T W → α} {Q : α → World T W → Prop}
    (stable : Stable R P) (before : P s) (seen : ∀ s, P s → Q (f s) s) :
    Upholds R G ok t (look f) Q s := by
  refine within.atom (effects_look f) stable before fun s e a s' known step _ => ?_
  cases step
  exact seen s known

theorem forgetNotes (within : Within K G ok) (forget : .forget ∈ K)
    {gone : Ledger → Nat × RequestId → Bool} {Q : World T W → Prop} (stable : Stable R P)
    (before : P s)
    (learns : ∀ s, P s → Q { s with ledger := s.ledger.forgetNotes (gone s.ledger) }) :
    Upholds R G ok t (forgetNotes [] gone) (fun _ => Q) s := by
  refine within.atom (effects_forgetNotes forget (by simp) gone) stable before ?_
  intro s e a s' known step _
  split at step
  · split at step
    · cases step
      exact learns s known
    · cases step
  · cases step

end Within

theorem upholds_ite {R : World T W → World T W → Prop} {c : Prop} [Decidable c]
    {p p' : Engine T W α} {Q : α → World T W → Prop} (h : c → Upholds R G ok t p Q s)
    (h' : ¬c → Upholds R G ok t p' Q s) : Upholds R G ok t (if c then p else p') Q s := by
  split
  · exact h ‹_›
  · exact h' ‹_›

end

theorem Pair.numbered : Pair.directory.Numbered := by
  rintro p (listed | up)
  · simp_all [Pair.directory]
  · simp_all [Pair.directory]

end Hux
