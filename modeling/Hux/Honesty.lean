import Mathlib.Algebra.BigOperators.Group.Finset.Basic
import Mathlib.Tactic.Abel
import Hux.Stages

/-!
# The local transport reports what it took

An operation that `LocalProvider` takes is entered in its queue once, under the
request and the number it was split off with, and leaves the queue when it is
polled. So what was taken is what was reported, what is queued, and what a
thread is about to enter.
-/

namespace Hux
open Interleave (Tid Run Pool weigh weigh_add weigh_singleton weigh_eq_zero)
open Multiset (mem_add mem_singleton mem_coe mem_singleton_self coe_add)

/-! ## Operations carry their request -/

/-- The operations of a request in a thread's hands. -/
@[simp] def Res.carries : Res → List SubOp
  | .unsplit _ ops => ops
  | .part p | .posting p _ | .landing p _ => p.ops
  | _ => []

section
variable {t : Tid} {q : RequestId} {r r' : Request} {fl fl' : Bool} {X X' : Multiset Res}
  {evs : List Event}

theorem settled_carries {p : PendingSubmit} {n : Nat} {op : SubOp}
    (carried : op ∈ (settled p n).carries) : op ∈ p.ops := by
  unfold settled at carried
  split at carried
  · rename_i later rest
    rw [Res.carries, (PendingSubmit.rest_req rest).2.2] at carried
    exact List.mem_of_mem_drop carried
  · cases carried

/-- What a deed leaves in a thread's hands came with it, or is newly split off. -/
theorem Deed.carries (deed : Deed t q r fl X r' fl' X' evs)
    (mine : ∀ x ∈ X, ∀ op ∈ x.carries, op.request = q) :
    ∀ x ∈ X', ∀ op ∈ x.carries, op.request = q := by
  cases deed with
  | admission _ own =>
    intro x hx op hop
    simp only [mem_add, mem_singleton] at hx
    obtain (rfl | rfl) | rfl := hx
    · cases hop
    · exact own op hop
    · cases hop
  | split all =>
    intro x hx op hop
    obtain ⟨p, there, rfl⟩ := List.mem_map.mp (mem_coe.mp hx)
    have listed : op ∈ _ := List.mem_flatMap.mpr ⟨p, there, show op ∈ p.ops from hop⟩
    exact mine _ (mem_singleton_self _) op (all ▸ listed)
  | setState => exact mine
  | settle =>
    intro x hx op hop
    rw [mem_singleton.mp hx] at hop
    exact mine _ (mem_singleton_self _) op (settled_carries hop)
  | offer =>
    intro x hx op hop
    refine mine _ (mem_singleton_self _) op ?_
    rw [mem_singleton.mp hx] at hop
    split at hop <;> exact hop
  | finishPart | sealIfIdle | complete =>
    intro x hx op hop
    split at hx
    · rw [mem_singleton.mp hx] at hop
      cases hop
    · simp at hx
  | readCancel | readError =>
    intro x hx op hop
    rw [mem_singleton.mp hx] at hop
    cases hop
  | _ => simp_all

theorem LifeRun.carries {ok : View → View → Prop} {a : Life} (run : LifeRun ok q a) :
    ∀ x ∈ a.tokens, ∀ op ∈ x.carries, op.request = q := by
  induction run with
  | start => simp [Life.start]
  | number _ _ ih =>
    intro x hx
    rcases mem_add.mp hx with old | new
    · exact ih x old
    · rw [mem_singleton.mp new]
      simp
  | step t _ step _ ih =>
    cases step with
    | deed deed =>
      have kept := deed.carries fun x hx => ih x (mem_add.mpr (.inr hx))
      intro x hx
      rcases mem_add.mp hx with old | new
      · exact ih x (mem_add.mpr (.inl old))
      · exact kept x new
    | @land _ _ _ _ p n =>
      intro x hx
      rcases mem_add.mp hx with old | new
      · exact ih x (mem_add.mpr (.inl old))
      · rw [mem_singleton.mp new]
        exact ih (.landing p n) (by simp)
    | report =>
      intro x hx
      rcases mem_add.mp hx with old | new
      · exact ih x old
      · obtain ⟨ev, -, rfl⟩ := List.mem_map.mp (mem_coe.mp new)
        simp
    | reap =>
      intro x hx
      rcases mem_add.mp hx with old | new
      · exact ih x old
      · rw [mem_singleton.mp new]
        simp
    | giveAway => exact fun x hx => ih x (mem_add.mpr (.inl hx))

end

/-! ## The queues -/

/-- Which operations of a request are among some completions. -/
def completed (q : RequestId) (evs : List CompletionEvent) : Multiset Nat :=
  ((evs.filter (·.request = q)).map (·.subId) : List Nat)

theorem completed_append (q : RequestId) (evs more : List CompletionEvent) :
    completed q (evs ++ more) = completed q evs + completed q more := by
  simp [completed]

namespace LocalState
variable (σ : LocalState) {S : Finset ProviderId} {prov : ProviderId} (q : RequestId)

/-- What the queues of some providers hold of a request. -/
def queued (S : Finset ProviderId) : Multiset Nat := ∑ p ∈ S, completed q (σ.completions p)

theorem queued_update (there : prov ∈ S) (evs : List CompletionEvent) :
    queued { σ with completions := Function.update σ.completions prov evs } q S +
        completed q (σ.completions prov) = σ.queued q S + completed q evs := by
  have others : ∑ p ∈ S.erase prov, completed q (Function.update σ.completions prov evs p) =
      ∑ p ∈ S.erase prov, completed q (σ.completions p) := by
    apply Finset.sum_congr rfl
    intro p hp
    rw [Function.update_of_ne (Finset.ne_of_mem_erase hp)]
  simp only [queued, ← Finset.add_sum_erase S _ there, others, Function.update_self]
  abel

end LocalState

/-- An operation taken and not in its provider's queue yet. -/
@[simp] def Res.owes (q : RequestId) : Res → Multiset Nat
  | .landing p n => if p.req = q then (p.ops[n]?.toList.map (·.subId) : List Nat) else 0
  | _ => 0

/-- Only the providers `S` have anything queued, and whatever was taken is
reported, queued, or about to be. -/
structure Square (S : Finset ProviderId) (s : Ledger × LocalState) (M : Multiset Res) : Prop where
  others : ∀ p ∉ S, s.2.completions p = []
  even : ∀ q, ((reports (history q s.1.trace)).map (·.subId) : Multiset Nat) + s.2.queued q S +
    weigh (Res.owes q) M = ((takenOps (history q s.1.trace)).map (·.subId) : List Nat)

theorem Res.owes_other {x : Res} {q q' : RequestId} (about : x.about = some q) (other : q ≠ q') :
    x.owes q' = 0 := by
  cases x with
  | landing p n =>
    have mine : p.req = q := Option.some.inj about
    simp [mine, other]
  | _ => rfl

theorem owes_events (q : RequestId) (evs : List CompletionEvent) :
    weigh (Res.owes q) (events evs) = 0 := weigh_events (fun _ => rfl) evs

/-- Of deeds, only one that offers an operation has anything taken. -/
theorem Deed.owes {t : Tid} {q : RequestId} {r r' : Request} {fl fl' : Bool} {X X' : Multiset Res}
    {evs : List Event} (deed : Deed t q r fl X r' fl' X' evs) :
    weigh (Res.owes q) X = 0 ∧
      weigh (Res.owes q) X' = ((evs.filterMap Event.takenOp).map (·.subId) : List Nat) := by
  cases deed with
  | split => exact ⟨rfl, weigh_work (fun _ => rfl) _⟩
  | setState _ held => obtain ⟨p, n, rfl | rfl⟩ := held <;> exact ⟨rfl, rfl⟩
  | @offer _ p n op taken mine next =>
    cases taken with
    | true => simp [Event.takenOp, mine, next]
    | false => exact ⟨rfl, rfl⟩
  | settle =>
    rw [weigh_singleton, weigh_singleton, settled_weight (f := Res.owes q) (fun _ => rfl)
      (fun _ => rfl)]
    exact ⟨rfl, rfl⟩
  | finishPart lane =>
    obtain rfl | ⟨p, -, rfl⟩ := lane <;> split <;> exact ⟨rfl, rfl⟩
  | claim last => obtain ⟨rfl, -⟩ | ⟨rfl, -⟩ := last <;> exact ⟨rfl, rfl⟩
  | missed last => obtain rfl | rfl := last <;> exact ⟨rfl, rfl⟩
  | sealIfIdle | complete => split <;> exact ⟨rfl, rfl⟩
  | _ => simp [List.filterMap_cons, Event.takenOp]

theorem Touched.completions {paired : ProviderId → Bool} {σ σ' : (localTransport paired).State}
    (touched : Touched (localTransport paired) σ σ') :
    LocalState.completions σ' = LocalState.completions σ := by
  cases touched with
  | refl => rfl
  | finish h | pollPeerArrivals h | connect h | disconnect h | pollControl h =>
    cases h
    rfl
  | sendControl h =>
    dsimp only [localTransport] at h
    split at h
    · cases h
      rfl
    · cases h
      unfold LocalState.deliver
      split <;> rfl
  | broadcastControl h =>
    cases h
    unfold LocalState.deliver
    split <;> rfl
  | @environment _ act h =>
    cases h
    cases act <;> rfl

namespace Square
variable {S : Finset ProviderId} {t : Tid} {l l' : Ledger} {σ σ' : LocalState}
  {F X X' : Multiset Res} {q : RequestId}

/-- A step that reports and takes nothing. -/
theorem still (square : Square S (l, σ) (F + X)) (queues : σ'.completions = σ.completions)
    (trace : ∀ q, reports (history q l'.trace) = reports (history q l.trace) ∧
      takenOps (history q l'.trace) = takenOps (history q l.trace))
    (owes : ∀ q, weigh (Res.owes q) X' = weigh (Res.owes q) X) : Square S (l', σ') (F + X') where
  others p out := by
    rw [queues]
    exact square.others p out
  even q := by
    have even := square.even q
    rw [weigh_add] at even ⊢
    rw [(trace q).1, (trace q).2, owes q]
    simpa only [LocalState.queued, queues] using even

theorem deed {r : Request} {fl : Bool} {evs : List Event} (square : Square S (l, σ) (F + X))
    (deed : Deed t q (l.reqs (.transfer q)) (l.flying q) X r fl X' evs)
    (queues : σ'.completions = σ.completions) :
    Square S (l.apply t q r fl evs, σ') (F + X') where
  others p out := by
    rw [queues]
    exact square.others p out
  even q' := by
    have even := square.even q'
    simp only [LocalState.queued, queues, weigh_add] at even ⊢
    by_cases mine : q' = q
    · subst mine
      have log := congrArg Life.log (l.life_apply t r fl 0 deed.tells)
      rw [show history q' (l.apply t q' r fl evs).trace = _ from log, reports_deed, takenOps_deed,
        deed.unreported, deed.owes.2, List.nil_append, List.map_append, ← coe_add, ← even,
        deed.owes.1]
      abel
    · have log := congrArg Life.log (l.life_apply_other t r fl 0 deed.tells mine)
      have none {Y : Multiset Res} (about : ∀ x ∈ Y, x.about = some q) :
          weigh (Res.owes q') Y = 0 :=
        weigh_eq_zero fun x hx => Res.owes_other (about x hx) (Ne.symm mine)
      rw [show history q' (l.apply t q r fl evs).trace = _ from log, none deed.gives]
      rw [none deed.takes] at even
      exact even

/-- A provider with an empty queue adds nothing. -/
theorem widen {s : Ledger × LocalState} {M : Multiset Res} (square : Square S s M)
    (prov : ProviderId) : Square (insert prov S) s M where
  others p out := square.others p fun there => out (Finset.mem_insert_of_mem there)
  even q := by
    by_cases there : prov ∈ S
    · rw [Finset.insert_eq_of_mem there]
      exact square.even q
    · have same : s.2.queued q (insert prov S) = s.2.queued q S := by
        simp [LocalState.queued, Finset.sum_insert there, square.others prov there, completed]
      rw [same]
      exact square.even q

theorem land {p : PendingSubmit} {n : Nat} {op : SubOp} (next : p.ops[n]? = some op)
    (mine : op.request = p.req) (square : Square S (l, σ) (F + {.landing p n}))
    (there : p.provider ∈ S) :
    Square S (l, σ.complete p.provider op) (F + {.posting p (n + 1)}) where
  others p' out := by
    have other : p' ≠ p.provider := by
      rintro rfl
      exact out there
    simpa [LocalState.complete, other] using square.others p' out
  even q := by
    have even := square.even q
    have grown := σ.queued_update q there
      (σ.completions p.provider ++
        [{ request := op.request, subId := op.subId, bytes := op.length }])
    have owed : Res.owes q (.landing p n) =
        completed q [{ request := op.request, subId := op.subId, bytes := op.length }] := by
      by_cases same : p.req = q <;> simp [completed, next, mine, same]
    rw [completed_append, add_left_comm, add_comm, add_left_cancel_iff] at grown
    rw [weigh_add, weigh_singleton, owed] at even
    rw [weigh_add, weigh_singleton, ← even, LocalState.complete, grown]
    simp only [Res.owes]
    abel

theorem poll {prov : ProviderId} {n : Nat} (square : Square S (l, σ) F) (there : prov ∈ S) :
    Square S (l.reported t (σ.poll prov n).1, (σ.poll prov n).2)
      (F + events (σ.poll prov n).1) where
  others p' out := by
    have other : p' ≠ prov := by
      rintro rfl
      exact out there
    simpa [LocalState.poll, other] using square.others p' out
  even q := by
    have even := square.even q
    have shrunk := σ.queued_update q there ((σ.completions prov).drop n)
    have parts : completed q (σ.completions prov) = completed q ((σ.completions prov).take n) +
        completed q ((σ.completions prov).drop n) := by
      rw [← completed_append, List.take_append_drop]
    rw [parts, ← add_assoc, add_right_cancel_iff] at shrunk
    have told : history q (l.reported t (σ.poll prov n).1).trace =
        (((σ.poll prov n).1.filter (·.request = q)).map fun ev => (t, .reported ev)) ++
          history q l.trace := by
      simp [history, List.filter_map, Function.comp_def, Event.about]
    rw [told, reports_reported, takenOps_reported, weigh_add, owes_events, ← even, ← shrunk,
      List.map_append, ← coe_add]
    simp only [LocalState.poll, completed]
    abel

/-- A step whose lines are about neither. -/
theorem silent {lines : List (Tid × Event)} (square : Square S (l, σ) (F + X))
    (queues : σ'.completions = σ.completions) (told : l'.trace = lines ++ l.trace)
    (silent : ∀ e ∈ lines, e.2.report = none ∧ e.2.takenOp = none)
    (owes : ∀ q, weigh (Res.owes q) X' = weigh (Res.owes q) X) : Square S (l', σ') (F + X') := by
  refine square.still queues (fun q => ?_) owes
  have none : reports (history q lines) = [] ∧ takenOps (history q lines) = [] := by
    constructor
    · exact List.filterMap_eq_nil_iff.mpr fun e he => (silent e (List.mem_filter.mp he).1).1
    · exact List.filterMap_eq_nil_iff.mpr fun e he => (silent e (List.mem_filter.mp he).1).2
  simp only [reports, takenOps] at none ⊢
  simp [told, none]

theorem move {paired : ProviderId → Bool} {s s' : Ledger × (localTransport paired).State}
    (move : Move (localTransport paired) t s X s' X')
    (mine : ∀ p n op, .landing p n ∈ X → p.ops[n]? = some op → op.request = p.req)
    (square : Square S s (F + X)) : ∃ S', Square S' s' (F + X') := by
  have work (q : RequestId) (ps : List PendingSubmit) : weigh (Res.owes q) (work ps) = 0 :=
    weigh_work (fun _ => rfl) ps
  cases move with
  | touch touched => exact ⟨S, square.still touched.completions (fun _ => ⟨rfl, rfl⟩) fun _ => rfl⟩
  | deed deed touched => exact ⟨S, square.deed deed touched.completions⟩
  | @offer l σ σ' p n op taken a next answer =>
    have deed : Deed t p.req (l.reqs (.transfer p.req)) (l.flying p.req) {.posting p n} _ _
      {if taken then .landing p n else .posting p n} [.offered p.req op taken] := .offer rfl next
    have same := l.log_eq_apply t p.req (.offered p.req op taken) (by simp) (by simp)
    have queues : LocalState.completions σ' = LocalState.completions σ := by
      dsimp only [localTransport] at answer
      split at answer
      · cases answer
        rfl
      · split at answer
        · rename_i copied
          cases answer
          obtain ⟨remote, -, rfl⟩ := Option.map_eq_some_iff.mp copied
          split <;> rfl
        · cases answer
          rfl
    rw [same]
    exact ⟨S, square.deed deed queues⟩
  | @land l σ p n op next =>
    exact ⟨_, (square.widen p.provider).land next (mine p n op (by simp) next)
      (Finset.mem_insert_self _ _)⟩
  | @poll l σ σ' prov n a s evs answer =>
    cases answer
    rw [add_zero] at square
    exact ⟨_, (square.widen prov).poll (Finset.mem_insert_self _ _)⟩
  | @reap l σ peer qs =>
    refine ⟨S, square.silent rfl rfl ?_ fun q => ?_⟩
    · intro e he
      obtain ⟨q, -, rfl⟩ := List.mem_map.mp he
      exact ⟨rfl, rfl⟩
    · exact weigh_eq_zero fun x hx => by
        obtain ⟨q, -, rfl⟩ := List.mem_map.mp (mem_coe.mp hx)
        rfl
  | nextId | retire => exact ⟨S, square.still rfl (fun _ => ⟨rfl, rfl⟩) fun _ => rfl⟩
  | defer => exact ⟨S, square.still rfl (fun _ => ⟨rfl, rfl⟩) fun q => (work q _).symm⟩
  | drain => exact ⟨S, square.still rfl (fun _ => ⟨rfl, rfl⟩) fun q => work q _⟩
  | deregister | sweep =>
    refine ⟨S, square.silent rfl (show _ = [_] ++ _ from rfl) ?_ fun _ => rfl⟩
    simp [Event.report, Event.takenOp]
  | @note l σ q r X X' evs pending deed _ _ =>
    refine ⟨S, square.silent rfl (List.append_assoc ..).symm ?_ fun q' => ?_⟩
    · intro e he
      rcases List.mem_append.mp he with line | line
      · obtain ⟨e, told, rfl⟩ := List.mem_map.mp line
        cases deed <;> simp_all [Event.report, Event.takenOp]
      · obtain ⟨e, changed, rfl⟩ := List.mem_map.mp line
        obtain rfl | ⟨stage, rfl⟩ := mem_changes changed <;> exact ⟨rfl, rfl⟩
    · cases deed <;> rfl
  | forget => exact ⟨S, square.still rfl (fun _ => ⟨rfl, rfl⟩) fun _ => rfl⟩

end Square

/-! ## Runs -/

variable {W : Type} [LaneCost W]

/-- Providers whose queues are empty to begin with report only what they took,
each operation once. -/
theorem Run.honest {paired : ProviderId → Bool} {setup : Setup W} {dir : Directory W}
    {σ : LocalState} (empty : ∀ p, σ.completions p = [])
    {ok : World (localTransport paired) W → World (localTransport paired) W → Prop}
    {p : Pool Call (World (localTransport paired) W) (Answer (localTransport paired)) Reply}
    (run : Run (Call.body (localTransport paired) setup) ok (World.start dir σ) p)
    (q : RequestId) :
    Run (Call.body (localTransport paired) setup) (fun s s' => ok s s' ∧ HonestFor q s s')
      (World.start dir σ) p := by
  refine Run.along (fun p run => ?_) run
  obtain ⟨held, -, -, S, square⟩ := Run.lives (fun _ _ => True) (fun _ _ _ => True)
    (fun _ _ _ _ => trivial) (fun s M => ∃ S, Square S s M)
    ⟨∅, fun p _ => empty p, fun q => rfl⟩
    (fun t s F X s' X' lives square move _ => by
      obtain ⟨S, square⟩ := square
      refine square.move move fun p n op landing next => ?_
      have about : Res.landing p n ∈ own p.req (F + X + work s.1.pending) :=
        Multiset.mem_filter.mpr ⟨by simp [landing], rfl⟩
      exact (lives.each p.req).carries _ about op (List.mem_of_getElem? next))
    (run.mono fun _ _ _ => trivial)
  have even := square.even q
  exact Multiset.le_iff_exists_add.mpr ⟨_, by rw [← even, add_assoc]⟩

end Hux
