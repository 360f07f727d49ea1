import Hux.Life
import Hux.Local

/-!
# Every transfer ends once

* `Gist` is what matters about a life for how it ends, and `Course` the seven
  forms it can have, from the number to the publication;
* `LifeStep.gist` lists the steps that change it;
* `Balance` relates the counters, what is in flight, and the threads that are
  between taking a request out of `inflight_` and counting it.
-/

namespace Hux
open Interleave (Tid Run Pool weigh weigh_add weigh_eq_zero)
open Multiset (card mem_filter mem_add mem_singleton_self)

/-! ## The course of a life -/

/-- The lines of the history that tell how a transfer begins and ends. -/
@[simp] def Event.milestone : Event → Bool
  | .admitted _ _ _ | .claimed _ | .reaped _ | .counted _ _ => true
  | .ended (.transfer _) _ | .published (.transfer _) => true
  | _ => false

def milestones (log : List (Tid × Event)) : List (Tid × Event) := log.filter (·.2.milestone)

/-- Resources of which there is one at most, in the hands of one thread. -/
@[simp] def Res.decisive : Res → Bool
  | .ticket _ | .ending _ _ _ => true
  | _ => false

def hand (M : Multiset Res) : Multiset Res := M.filter (·.decisive)

/-- The state a request has ended in. -/
def Request.final (r : Request) : Option RequestState := if r.terminal then some r.state else none

structure Gist where
  final : Option RequestState
  flying : Bool
  hand : Multiset Res
  log : List (Tid × Event)

def Life.gist (a : Life) : Gist where
  final := a.req.final
  flying := a.flying
  hand := Hux.hand a.tokens
  log := milestones a.log

/-- How a transfer went: who submitted what, and who took it out how and ended
it how. -/
structure Story where
  submitter : Tid
  regions : List RegionId
  ops : List SubOp
  ender : Tid
  reaped : Bool
  outcome : Outcome

/-- All of its milestones, oldest first. -/
def Story.lines (q : RequestId) (s : Story) : List (Tid × Event) :=
  [(s.submitter, .admitted q s.regions s.ops),
    (s.ender, if s.reaped then .reaped q else .claimed q),
    (s.ender, .counted q s.outcome),
    (s.ender, .ended (.transfer q) s.outcome.state),
    (s.ender, .published (.transfer q))]

/-- Newest first, once `k` of them are past. -/
def Story.past (q : RequestId) (s : Story) (k : Nat) : List (Tid × Event) :=
  ((s.lines q).take k).reverse

/-- Before a thread that took the request out has counted it. -/
@[simp] def Phase.undecided (gone : Bool) : Phase → Bool
  | .claimed _ | .cancelling | .uncancelled _ | .succeeding | .failing => !gone
  | .reaped => gone
  | .counted _ _ | .ended _ => false

theorem Phase.Decides.undecided {ph : Phase} {o : Outcome} {gone : Bool}
    (decided : ph.Decides o gone) : ph.undecided gone = true := by
  unfold Phase.Decides at decided
  split at decided
  all_goals first
    | obtain ⟨-, rfl⟩ := decided
      rfl
    | exact decided.elim

theorem Phase.Decides.gone {ph : Phase} {o : Outcome} {gone gone' : Bool}
    (decided : ph.Decides o gone) (undecided : ph.undecided gone' = true) : gone = gone' := by
  have := decided.undecided
  cases ph <;> simp_all

inductive Course (q : RequestId) : Gist → Prop
  | fresh : Course q ⟨none, false, 0, []⟩
  | numbered : Course q ⟨none, false, {.ticket q}, []⟩
  | flying (s : Story) : Course q ⟨none, true, 0, s.past q 1⟩
  | taken (s : Story) (ph : Phase) (undecided : ph.undecided s.reaped = true) :
      Course q ⟨none, false, {.ending s.ender q ph}, s.past q 2⟩
  | counted (s : Story) :
      Course q ⟨none, false, {.ending s.ender q (.counted s.outcome s.reaped)}, s.past q 3⟩
  | ended (s : Story) :
      Course q ⟨some s.outcome.state, false, {.ending s.ender q (.ended s.outcome)}, s.past q 4⟩
  | finished (s : Story) : Course q ⟨some s.outcome.state, false, 0, s.past q 5⟩

/-- The steps that change the gist of a life. -/
inductive Turn (t : Tid) (q : RequestId) : Gist → Gist → Prop
  | admission {fin : Option RequestState} {fl : Bool} {F : Multiset Res} {log : List (Tid × Event)}
      {regions : List RegionId} {ops : List SubOp} :
      Turn t q ⟨fin, fl, F + {.ticket q}, log⟩ ⟨none, true, F, (t, .admitted q regions ops) :: log⟩
  | giveAway {fin : Option RequestState} {fl : Bool} {F : Multiset Res}
      {log : List (Tid × Event)} : Turn t q ⟨fin, fl, F + {.ticket q}, log⟩ ⟨fin, fl, F, log⟩
  | take {fin : Option RequestState} {F : Multiset Res} {log : List (Tid × Event)}
      (reaped idle : Bool) :
      Turn t q ⟨fin, true, F, log⟩ ⟨fin, false,
        F + {.ending t q (if reaped then .reaped else .claimed idle)},
        (t, if reaped then .reaped q else .claimed q) :: log⟩
  | decide {fin : Option RequestState} {fl : Bool} {F : Multiset Res} {log : List (Tid × Event)}
      {ph ph' : Phase} (before : (∃ idle, ph = .claimed idle) ∨ ph = .uncancelled false)
      (after : ph'.undecided false = true) :
      Turn t q ⟨fin, fl, F + {.ending t q ph}, log⟩ ⟨fin, fl, F + {.ending t q ph'}, log⟩
  | count {fin : Option RequestState} {fl : Bool} {F : Multiset Res} {log : List (Tid × Event)}
      {ph : Phase} {o : Outcome} {reaped : Bool} (decided : ph.Decides o reaped) :
      Turn t q ⟨fin, fl, F + {.ending t q ph}, log⟩
        ⟨fin, fl, F + {.ending t q (.counted o reaped)}, (t, .counted q o) :: log⟩
  | finish {fl reaped : Bool} {F : Multiset Res} {log : List (Tid × Event)} {o : Outcome} :
      Turn t q ⟨none, fl, F + {.ending t q (.counted o reaped)}, log⟩
        ⟨some o.state, fl, F + {.ending t q (.ended o)}, (t, .ended (.transfer q) o.state) :: log⟩
  | finishLate {s : RequestState} {fl reaped : Bool} {F : Multiset Res} {log : List (Tid × Event)}
      {o : Outcome} : Turn t q ⟨some s, fl, F + {.ending t q (.counted o reaped)}, log⟩
        ⟨some s, fl, F + {.ending t q (.ended o)}, log⟩
  | publish {fin : Option RequestState} {fl : Bool} {F : Multiset Res}
      {log : List (Tid × Event)} {o : Outcome} :
      Turn t q ⟨fin, fl, F + {.ending t q (.ended o)}, log⟩
        ⟨fin, fl, F, (t, .published (.transfer q)) :: log⟩

/-! ## Which steps are turns -/

@[simp] theorem hand_zero : hand 0 = 0 := rfl

@[simp] theorem hand_add (M M' : Multiset Res) : hand (M + M') = hand M + hand M' :=
  Multiset.filter_add ..

@[simp] theorem hand_singleton (x : Res) : hand {x} = if x.decisive then {x} else 0 :=
  Multiset.filter_singleton ..

@[simp] theorem hand_cons (x : Res) (M : Multiset Res) :
    hand (x ::ₘ M) = if x.decisive then x ::ₘ hand M else hand M := by
  rw [← Multiset.singleton_add, hand_add, hand_singleton]
  split <;> simp

theorem hand_eq_zero {M : Multiset Res} (h : ∀ x ∈ M, x.decisive = false) : hand M = 0 :=
  Multiset.filter_eq_nil.mpr (by simpa using h)

theorem hand_work (ps : List PendingSubmit) : hand (work ps) = 0 :=
  hand_eq_zero (by simp [work])

theorem hand_events (evs : List CompletionEvent) : hand (events evs) = 0 :=
  hand_eq_zero (by simp [events])

@[simp] theorem milestones_cons (t : Tid) (e : Event) (log : List (Tid × Event)) :
    milestones ((t, e) :: log) =
      if e.milestone then (t, e) :: milestones log else milestones log := List.filter_cons

theorem milestones_append (log log' : List (Tid × Event)) :
    milestones (log ++ log') = milestones log ++ milestones log' := List.filter_append ..

/-- Of the changes of an object, only that it ended is a milestone. -/
theorem milestones_changes (t : Tid) (q : RequestId) (r r' : Request) :
    milestones ((changes (.transfer q) r r').map (t, ·)) =
      if !r.terminal && r'.terminal then [(t, .ended (.transfer q) r'.state)] else [] := by
  have staged (ss : List Stage) :
      milestones ((ss.map (Event.staged (.transfer q))).map (t, ·)) = [] := by
    simp [milestones, List.filter_map, Function.comp_def]
  rw [changes, List.map_append, milestones_append, staged, List.append_nil]
  split <;> simp [milestones]

/-- A method that leaves the end of the request as it was tells of no milestone. -/
theorem milestones_changes_same (t : Tid) (q : RequestId) {r r' : Request}
    (same : r'.final = r.final) : milestones ((changes (.transfer q) r r').map (t, ·)) = [] := by
  rw [milestones_changes]
  unfold Request.final at same
  cases h : r.terminal <;> cases h' : r'.terminal <;> simp_all

namespace Request
variable (r : Request)

variable {r' : Request}

theorem final_of_state {r : Request} (same : r'.state = r.state) : r'.final = r.final := by
  unfold final terminal
  rw [same]

theorem final_setState {s : RequestState} (going : isTerminal s = false) :
    (r.setState s).final = r.final := by
  unfold setState
  split
  · rfl
  · rename_i h
    simp_all [final, terminal]

theorem final_cancel (live : r.terminal = false) : r.cancel.2.final = none := by
  rw [r.cancel_live live]
  rfl

theorem final_live (live : r.terminal = false) : r.final = none := by
  simp [final, live]

variable {o : Outcome} {reaped : Bool}

/-- What ending a request writes. -/
theorem finishes_eq {r : Request} (how : Finishes o reaped r r') :
    r' = { r with error := r'.error, stages := r'.stages, state := r'.state } := by
  cases live : r.terminal <;> cases o
  case false.succeeded =>
    rw [show r' = _ from how, r.finishSuccess_live live]
  case false.failed =>
    obtain ⟨e, rfl, -⟩ := how
    rw [r.fail_live e live]
  case false.cancelled =>
    rw [show r' = _ from how, r.finishCancelled_live live]
  case true.succeeded => simp [show r' = _ from how, finishSuccess, live]
  case true.failed =>
    obtain ⟨e, rfl, -⟩ := how
    simp [fail, live]
  case true.cancelled => simp [show r' = _ from how, finishCancelled, live]

/-- Ending a request that has ended already does nothing. -/
theorem finishes_terminal {r : Request} (how : Finishes o reaped r r')
    (finished : r.terminal = true) : r' = r := by
  cases o with
  | succeeded => simpa [Finishes, finishSuccess, finished] using how
  | failed =>
    obtain ⟨e, rfl, -⟩ := how
    simp [fail, finished]
  | cancelled => simpa [Finishes, finishCancelled, finished] using how

theorem finishes_state {r : Request} (how : Finishes o reaped r r') (live : r.terminal = false) :
    r'.state = o.state := by
  cases o with
  | succeeded =>
    rw [show r' = _ from how, r.finishSuccess_live live]
    rfl
  | failed =>
    obtain ⟨e, rfl, -⟩ := how
    rw [r.fail_live e live]
    rfl
  | cancelled =>
    rw [show r' = _ from how, r.finishCancelled_live live]
    rfl

end Request

theorem Outcome.state_terminal (o : Outcome) : isTerminal o.state = true := by
  cases o <;> rfl

variable {t : Tid} {q : RequestId} {r : Request} {fl : Bool} {F : Multiset Res}
  {log : List (Tid × Event)}

/-- A deed between resources of which none is decisive, that says nothing of the
end, leaves the gist alone. -/
theorem gist_same {r' : Request} {X X' : Multiset Res} {evs : List Event}
    (final : r'.final = r.final) (hands : hand X' = hand X)
    (quiet : ∀ e ∈ evs, e.milestone = false) :
    Life.gist ⟨r', fl, F + X', evs.map (t, ·) ++ ((changes (.transfer q) r r').map (t, ·) ++ log)⟩ =
      Life.gist ⟨r, fl, F + X, log⟩ := by
  have none : milestones (evs.map (t, ·)) = [] :=
    List.filter_eq_nil_iff.mpr (by simpa using quiet)
  simp only [Life.gist, hand_add, hands, final, milestones_append, none,
    milestones_changes_same t q final, List.nil_append]

theorem Deed.gist {r' : Request} {fl' : Bool} {X X' : Multiset Res} {evs : List Event}
    (deed : Deed t q r fl X r' fl' X' evs) : let a : Life := ⟨r, fl, F + X, log⟩
    let b : Life := ⟨r', fl', F + X',
      evs.map (t, ·) ++ ((changes (.transfer q) r r').map (t, ·) ++ log)⟩
    b.gist = a.gist ∨ Turn t q a.gist b.gist := by
  intro a b
  cases deed with
  | admission new =>
    right
    have live : r'.final = none := by simp [Request.final, Request.terminal, new.state, isTerminal]
    have quiet : milestones ((changes (.transfer q) r r').map (t, ·)) = [] := by
      simp [milestones_changes, Request.terminal, new.state, isTerminal]
    simpa [a, b, Life.gist, live, quiet, milestones_append] using
      Turn.admission
  | accept | clear | giveUp | sawAbandoning | find | dropEvent | handoff =>
    exact .inl (gist_same rfl (by simp) (by simp))
  | split => exact .inl (gist_same rfl (by simp [hand_work]) (by simp))
  | setState _ held going =>
    refine .inl (gist_same (r.final_setState going) rfl (by simp))
  | noteError =>
    exact .inl (gist_same (Request.final_of_state (by rw [r.noteError_eq])) rfl
      (by simp))
  | offer =>
    refine .inl (gist_same rfl ?_ (by simp))
    split <;> simp
  | settle =>
    refine .inl (gist_same rfl ?_ (by simp))
    unfold settled
    split <;> simp
  | finishPart lane =>
    refine .inl (gist_same rfl ?_ (by simp))
    obtain rfl | ⟨p, -, rfl⟩ := lane <;> split <;> simp
  | sealIfIdle =>
    refine .inl (gist_same rfl ?_ (by simp))
    split <;> simp
  | @claim _ idle last =>
    right
    obtain ⟨rfl, -⟩ | ⟨rfl, -⟩ := last <;>
      simpa [a, b, Life.gist, changes_self]
        using Turn.take false idle
  | missed last =>
    refine .inl (gist_same rfl ?_ (by simp))
    obtain rfl | rfl := last <;> simp
  | @readCancel _ idle =>
    right
    have after : (if r.cancelRequested then Phase.cancelling else .uncancelled idle).undecided
        false = true := by
      split <;> rfl
    simpa [a, b, Life.gist, changes_self] using
      Turn.decide (.inl ⟨idle, rfl⟩) after
  | readError =>
    right
    have after : (if r.error.ok then Phase.succeeding else .failing).undecided false = true := by
      split <;> rfl
    simpa [a, b, Life.gist, changes_self] using
      Turn.decide (.inr rfl) after
  | count decided =>
    right
    simpa [a, b, Life.gist, changes_self] using Turn.count decided
  | mark => exact .inl (gist_same rfl rfl (by simp))
  | sealReaped => exact .inl (gist_same rfl rfl (by simp))
  | @finish _ _ _ o how =>
    right
    cases live : r.terminal with
    | true =>
      obtain rfl := Request.finishes_terminal how live
      have final : r'.final = some r'.state := by simp [Request.final, live]
      simpa [a, b, Life.gist, changes_self, final] using Turn.finishLate
    | false =>
      have state := Request.finishes_state how live
      have finished : r'.terminal = true := by rw [Request.terminal, state, o.state_terminal]
      have final : r'.final = some o.state := by simp [Request.final, finished, state]
      simpa [a, b, Life.gist, milestones_append, milestones_changes, live, finished, state, final,
        r.final_live live] using Turn.finish
  | publish =>
    right
    simpa [a, b, Life.gist, changes_self] using Turn.publish
  | complete =>
    refine .inl (gist_same (Request.final_of_state (by rw [r.onSubopComplete_eq])) ?_
      (by simp))
    split <;> simp
  | cancel made live =>
    refine .inl (gist_same ?_ rfl (by simp))
    rw [r.final_cancel live, r.final_live live]

theorem LifeStep.gist {a b : Life} (step : LifeStep t q a b) :
    b.gist = a.gist ∨ Turn t q a.gist b.gist := by
  cases step with
  | deed deed => exact deed.gist
  | land =>
    left
    simp [Life.gist]
  | @report _ _ _ log evs =>
    left
    have quiet : milestones (evs.map fun ev => (t, .reported ev)) = [] :=
      List.filter_eq_nil_iff.mpr (by simp)
    simp [Life.gist, hand_events, milestones_append, quiet]
  | reap =>
    right
    simpa [Life.gist] using Turn.take true false
  | giveAway =>
    right
    simpa [Life.gist] using Turn.giveAway

/-! ## The course is kept -/

theorem add_singleton_eq {x y : Res} (h : F + {x} = {y}) : F = 0 ∧ x = y := by
  have card : F = 0 := by
    have := congrArg card h
    simpa using this
  subst card
  simpa using h

theorem add_singleton_ne {x : Res} : F + {x} ≠ 0 := by
  intro h
  have := congrArg card h
  simp at this

theorem Course.turn {g g' : Gist} (turn : Turn t q g g') (course : Course q g) : Course q g' := by
  cases turn with
  | @admission _ _ F _ regions ops =>
    generalize held : F + {Res.ticket q} = H at course
    cases course with
    | numbered =>
      obtain ⟨rfl, -⟩ := add_singleton_eq held
      exact .flying ⟨t, regions, ops, 0, false, .failed⟩
    | fresh | flying | finished => exact absurd held add_singleton_ne
    | taken | counted | ended => cases (add_singleton_eq held).2
  | @giveAway _ _ F =>
    generalize held : F + {Res.ticket q} = H at course
    cases course with
    | numbered =>
      obtain ⟨rfl, -⟩ := add_singleton_eq held
      exact .fresh
    | fresh | flying | finished => exact absurd held add_singleton_ne
    | taken | counted | ended => cases (add_singleton_eq held).2
  | take reaped idle =>
    cases course with
    | flying s =>
      have := Course.taken (q := q) { s with ender := t, reaped := reaped }
        (if reaped then .reaped else .claimed idle) (by cases reaped <;> rfl)
      simpa [Story.past, Story.lines] using this
  | @decide _ _ F _ ph ph' before after =>
    generalize held : F + {Res.ending t q ph} = H at course
    cases course with
    | taken s ph₀ undecided =>
      obtain ⟨rfl, same⟩ := add_singleton_eq held
      cases same
      have claimed : s.reaped = false := by
        rcases before with ⟨idle, rfl⟩ | rfl <;> simpa using undecided
      exact .taken s ph' (claimed ▸ after)
    | fresh | flying | finished => exact absurd held add_singleton_ne
    | numbered => cases (add_singleton_eq held).2
    | counted | ended =>
      cases (add_singleton_eq held).2
      simp at before
  | @count _ _ F _ ph o reaped decided =>
    generalize held : F + {Res.ending t q ph} = H at course
    cases course with
    | taken s ph₀ undecided =>
      obtain ⟨rfl, same⟩ := add_singleton_eq held
      cases same
      have gone : reaped = s.reaped := decided.gone undecided
      exact gone ▸ .counted { s with outcome := o }
    | fresh | flying | finished => exact absurd held add_singleton_ne
    | numbered => cases (add_singleton_eq held).2
    | counted | ended =>
      cases (add_singleton_eq held).2
      simp [Phase.Decides] at decided
  | @finish _ reaped F _ o =>
    generalize held : F + {Res.ending t q (.counted o reaped)} = H at course
    cases course with
    | counted s =>
      obtain ⟨rfl, same⟩ := add_singleton_eq held
      cases same
      exact .ended s
    | fresh | flying => exact absurd held add_singleton_ne
    | numbered => cases (add_singleton_eq held).2
    | taken s ph undecided =>
      cases (add_singleton_eq held).2
      cases undecided
  | @finishLate _ _ reaped F _ o =>
    generalize held : F + {Res.ending t q (.counted o reaped)} = H at course
    cases course with
    | ended => cases (add_singleton_eq held).2
    | finished => exact absurd held add_singleton_ne
  | @publish _ _ F _ o =>
    generalize held : F + {Res.ending t q (.ended o)} = H at course
    cases course with
    | ended s =>
      obtain ⟨rfl, same⟩ := add_singleton_eq held
      cases same
      exact .finished s
    | fresh | flying | finished => exact absurd held add_singleton_ne
    | numbered | counted => cases (add_singleton_eq held).2
    | taken s ph undecided =>
      cases (add_singleton_eq held).2
      cases undecided

theorem LifeRun.course {ok : View → View → Prop} {a : Life} (run : LifeRun ok q a) :
    Course q a.gist := by
  induction run with
  | start => exact .fresh
  | @number a _ untouched ih =>
    have hands : hand a.tokens = 0 := hand_eq_zero fun x hx => by
      obtain ⟨ev, rfl⟩ := untouched.tokens x hx
      rfl
    have log : milestones a.log = [] := List.filter_eq_nil_iff.mpr fun e he => by
      obtain ⟨ev, h⟩ := untouched.log e he
      simp [h]
    simpa [Life.gist, untouched.grounded, a.req.final_live untouched.live, hands, log]
      using Course.numbered (q := q)
  | step t _ step _ ih =>
    rcases step.gist with same | turn
    · exact same ▸ ih
    · exact ih.turn turn

/-! ## The counters -/

/-- Admitted and not in `requests_accepted` yet. -/
@[simp] def Res.uncountedly : Res → Nat
  | .uncounted _ => 1
  | _ => 0

/-- Taken out of `inflight_` and not in any counter yet. -/
@[simp] def Res.undecided : Res → Nat
  | .ending _ _ (.counted _ _) | .ending _ _ (.ended _) => 0
  | .ending _ _ _ => 1
  | _ => 0

theorem weigh_work {A : Type} [AddCommMonoid A] {f : Res → A} (h : ∀ p, f (.part p) = 0)
    (ps : List PendingSubmit) :
    weigh f (work ps) = 0 :=
  weigh_eq_zero (by simp [work, h])

theorem weigh_events {A : Type} [AddCommMonoid A] {f : Res → A} (h : ∀ ev, f (.event ev) = 0)
    (evs : List CompletionEvent) :
    weigh f (events evs) = 0 :=
  weigh_eq_zero (by simp [events, h])

@[simp] theorem weigh_uncountedly_work (ps : List PendingSubmit) :
    weigh Res.uncountedly (work ps) = 0 := weigh_work (fun _ => rfl) ps

@[simp] theorem weigh_undecided_work (ps : List PendingSubmit) :
    weigh Res.undecided (work ps) = 0 := weigh_work (fun _ => rfl) ps

theorem weigh_stranding {f : Res → Nat} {n : Nat} {qs : List RequestId}
    (h : ∀ q, f (.ending t q .reaped) = n) : weigh f (stranding t qs) = n * qs.length := by
  simp [weigh, stranding, Function.comp_def, h, Nat.mul_comm]

/-- Every request that was accepted has ended, is in flight, or is with a thread
that is about to count it. -/
def Balance (l : Ledger) (M : Multiset Res) : Prop :=
  l.accepted + weigh Res.uncountedly M =
    l.succeeded + l.failed + l.cancelled + l.inflight.card + weigh Res.undecided M

def Ledger.counter (l : Ledger) : Outcome → Nat
  | .succeeded => l.succeeded
  | .failed => l.failed
  | .cancelled => l.cancelled

@[simp] def Event.isAccepted : Event → Bool
  | .accepted _ => true
  | _ => false

@[simp] def Event.isCounted (o : Outcome) : Event → Bool
  | .counted _ o' => o' == o
  | _ => false

/-- A counter is the number of lines of the history that say it was raised. -/
structure Tally (l : Ledger) : Prop where
  accepted : l.accepted = l.trace.countP (·.2.isAccepted)
  ended : ∀ o, l.counter o = l.trace.countP (·.2.isCounted o)

/-- Changes of an object are not about counters. -/
theorem countP_changes {f : Event → Bool} (ended : ∀ h s, f (.ended h s) = false)
    (staged : ∀ h s, f (.staged h s) = false) (t : Tid) (h : Handle) (r r' : Request) :
    ((changes h r r').map (t, ·)).countP (f ·.2) = 0 := by
  rw [List.countP_eq_zero]
  intro e he
  obtain ⟨e', he', rfl⟩ := List.mem_map.mp he
  obtain rfl | ⟨s, rfl⟩ := mem_changes he' <;> simp [ended, staged]

section
variable {T : Transport} {t : Tid}

variable {q : RequestId}

/-- A line about a transfer that raises a counter is the one about that counter. -/
theorem Event.isAccepted_eq {e : Event} (about : e.about = some q) :
    e.isAccepted = (e == .accepted q) := by
  cases e with
  | accepted q' =>
    obtain rfl : q' = q := Option.some.inj about
    simp
  | _ => rfl

theorem Event.isCounted_eq {e : Event} (about : e.about = some q) (o : Outcome) :
    e.isCounted o = (e == .counted q o) := by
  cases e with
  | counted q' o' =>
    obtain rfl : q' = q := Option.some.inj about
    by_cases same : o' = o <;> simp [same]
  | _ => rfl

variable {l : Ledger} {r' : Request} {fl' : Bool} {X X' : Multiset Res} {evs : List Event}

/-- The counters of a deed go with what it says. -/
theorem Deed.tally {r : Request} {fl : Bool} (deed : Deed t q r fl X r' fl' X' evs)
    (tally : Tally l) : Tally (l.apply t q r' fl' evs) := by
  constructor
  · have count : (evs.map (t, ·)).countP (·.2.isAccepted) = evs.count (.accepted q) := by
      rw [List.countP_map, List.count]
      apply List.countP_congr
      intro e he
      rw [Function.comp_apply, Event.isAccepted_eq (deed.tells e he)]
    simp only [Ledger.apply_accepted, Ledger.apply_trace, List.countP_append, count,
      countP_changes (f := Event.isAccepted) (fun _ _ => rfl) (fun _ _ => rfl), tally.accepted]
    omega
  · intro o
    have count : (evs.map (t, ·)).countP (·.2.isCounted o) = evs.count (.counted q o) := by
      rw [List.countP_map, List.count]
      apply List.countP_congr
      intro e he
      rw [Function.comp_apply, Event.isCounted_eq (deed.tells e he)]
    have counter : (l.apply t q r' fl' evs).counter o = l.counter o + evs.count (.counted q o) := by
      cases o <;> rfl
    simp only [counter, Ledger.apply_trace, List.countP_append, count,
      countP_changes (f := Event.isCounted o) (fun _ _ => rfl) (fun _ _ => rfl), tally.ended o]
    omega

/-- Whatever else happens says nothing that counts. -/
theorem Tally.quiet {l' : Ledger} (tally : Tally l) (accepted : l'.accepted = l.accepted)
    (counter : l'.counter = l.counter) (new : List (Tid × Event))
    (trace : l'.trace = new ++ l.trace)
    (none : ∀ e ∈ new, e.2.isAccepted = false ∧ ∀ o, e.2.isCounted o = false) : Tally l' := by
  refine ⟨?_, fun o => ?_⟩
  · have : new.countP (·.2.isAccepted) = 0 :=
      List.countP_eq_zero.mpr fun e he => Bool.eq_false_iff.mp (none e he).1
    rw [accepted, trace, List.countP_append, this, tally.accepted, zero_add]
  · have : new.countP (·.2.isCounted o) = 0 :=
      List.countP_eq_zero.mpr fun e he => Bool.eq_false_iff.mp ((none e he).2 o)
    rw [counter, trace, List.countP_append, this, tally.ended o, zero_add]

variable {s s' : Ledger × T.State}

theorem Move.tally (move : Move T t s X s' X') (tally : Tally s.1) : Tally s'.1 := by
  cases move with
  | touch | land | nextId | defer | drain | retire | forget => exact ⟨tally.accepted, tally.ended⟩
  | deed deed => exact deed.tally tally
  | offer =>
    refine tally.quiet rfl rfl [_] (Ledger.log_trace ..) ?_
    simp
  | sweep => exact tally.quiet rfl rfl [_] rfl (by simp)
  | poll =>
    refine tally.quiet rfl rfl _ (Ledger.reported_trace ..) ?_
    simp
  | reap =>
    refine tally.quiet rfl rfl _ (Ledger.reap_trace ..) ?_
    simp
  | deregister =>
    refine tally.quiet rfl rfl [_] (Ledger.log_trace ..) ?_
    simp
  | @note l σ q r X X' evs pending deed =>
    refine tally.quiet rfl rfl
      (evs.map (t, ·) ++ (changes (.note q) (l.reqs (.note q)) r).map (t, ·))
      (by simp) ?_
    intro e he
    rcases List.mem_append.mp he with he | he
    · obtain ⟨e', he', rfl⟩ := List.mem_map.mp he
      cases deed <;> simp_all
    · obtain ⟨e', he', rfl⟩ := List.mem_map.mp he
      obtain rfl | ⟨s, rfl⟩ := mem_changes he' <;> simp

theorem card_apply (l : Ledger) (q : RequestId) (r : Request) (fl : Bool) (evs : List Event) :
    (l.apply t q r fl evs).inflight.card + (l.flying q).toNat = l.inflight.card + fl.toNat := by
  by_cases flies : q ∈ l.inflight
  · cases fl with
    | true => simp [Ledger.flying, flies]
    | false =>
      have erased := Finset.card_erase_add_one flies
      simp only [Ledger.apply_inflight, Ledger.flying, flies]
      simpa using erased
  · cases fl <;> simp [Ledger.flying, flies]

/-- What a deed moves between `inflight_`, the counters and the threads. -/
theorem Deed.balanced {r : Request} {fl : Bool} (deed : Deed t q r fl X r' fl' X' evs)
    (fresh : .ticket q ∈ X → fl = false) :
    evs.count (.accepted q) + weigh Res.uncountedly X' + fl.toNat + weigh Res.undecided X =
      evs.count (.counted q .succeeded) + evs.count (.counted q .failed) +
        evs.count (.counted q .cancelled) + weigh Res.uncountedly X + fl'.toNat +
        weigh Res.undecided X' := by
  cases deed with
  | admission =>
    obtain rfl := fresh (by simp)
    simp
  | setState mine held =>
    obtain ⟨p, n, rfl | rfl⟩ := held <;> simp
  | finishPart lane =>
    obtain rfl | ⟨p, -, rfl⟩ := lane <;> split <;> simp
  | claim last =>
    obtain ⟨rfl, -⟩ | ⟨rfl, -⟩ := last <;> simp
  | missed last =>
    obtain rfl | rfl := last <;> simp
  | offer | sealIfIdle | complete | readCancel | readError =>
    split <;> simp
  | settle =>
    unfold settled
    split <;> simp
  | @count _ reaped ph o decided =>
    have undecided : Res.undecided (.ending t q ph) = 1 := by
      have := decided.undecided
      cases ph <;> first | rfl | cases this
    have counted : Res.undecided (.ending t q (.counted o reaped)) = 0 := rfl
    simp only [Interleave.weigh_singleton, undecided, counted]
    cases o <;> simp [add_comm]
  | _ => simp

variable {F : Multiset Res}

theorem Deed.balance (deed : Deed t q (l.reqs (.transfer q)) (l.flying q) X r' fl' X' evs)
    (fresh : .ticket q ∈ X → l.flying q = false) (balance : Balance l (F + X)) :
    Balance (l.apply t q r' fl' evs) (F + X') := by
  have card := card_apply (t := t) l q r' fl' evs
  have moved := deed.balanced fresh
  unfold Balance at balance ⊢
  simp only [Ledger.apply_accepted, Ledger.apply_succeeded, Ledger.apply_failed,
    Ledger.apply_cancelled, weigh_add] at balance ⊢
  omega

variable {ok : RequestId → View → View → Prop}

/-- A number not used yet is nobody's in flight. -/
theorem Lives.grounded {M : Multiset Res} (lives : Lives ok l M) (ticket : .ticket q ∈ M) :
    l.flying q = false := by
  have held : .ticket q ∈ (l.life M q).gist.hand := by
    have mine : .ticket q ∈ own q (M + work l.pending) :=
      mem_filter.mpr ⟨mem_add.mpr (.inl ticket), rfl⟩
    exact mem_filter.mpr ⟨mine, rfl⟩
  have course := (lives.each q).course
  generalize h : (l.life M q).gist = g at course held
  have flying : g.flying = l.flying q := by rw [← h]; rfl
  cases course <;> simp_all

theorem Move.balance (move : Move T t s X s' X') (lives : Lives ok s.1 (F + X))
    (balance : Balance s.1 (F + X)) : Balance s'.1 (F + X') := by
  cases move with
  | deed deed =>
    exact deed.balance (fun h => lives.grounded (mem_add.mpr (.inr h))) balance
  | @poll l _ _ _ _ _ _ evs =>
    have uncounted := weigh_events (f := Res.uncountedly) (fun _ => rfl) evs
    have undecided := weigh_events (f := Res.undecided) (fun _ => rfl) evs
    simpa [Balance, uncounted, undecided] using balance
  | @reap l σ peer qs distinct all =>
    have card : (l.inflight \ qs.toFinset).card + qs.length = l.inflight.card := by
      have sub : qs.toFinset ⊆ l.inflight := all ▸ Finset.filter_subset _ _
      rw [Finset.card_sdiff_of_subset sub, ← List.toFinset_card_of_nodup distinct]
      exact Nat.sub_add_cancel (Finset.card_le_card sub)
    have none : weigh Res.uncountedly (stranding t qs) = 0 := by
      simpa using weigh_stranding (f := Res.uncountedly) (n := 0) fun _ => rfl
    have each : weigh Res.undecided (stranding t qs) = qs.length := by
      simpa using weigh_stranding (f := Res.undecided) (n := 1) fun _ => rfl
    unfold Balance at balance ⊢
    simp only [weigh_add, none, each, Ledger.reap_inflight, Ledger.reap_accepted,
      Ledger.reap_succeeded, Ledger.reap_failed, Ledger.reap_cancelled] at balance ⊢
    simp at balance
    omega
  | note deed =>
    cases deed <;> simpa [Balance] using balance
  | offer =>
    split <;> simpa [Balance] using balance
  | _ => simpa [Balance] using balance

/-! ## The whole engine -/

theorem Course.turn_final {g g' : Gist} (turn : Turn t q g g') (course : Course q g)
    {s : RequestState} (h : g.final = some s) : g'.final = some s := by
  cases turn with
  | @admission _ _ F =>
    generalize held : F + {Res.ticket q} = H at course
    cases course with
    | ended => cases (add_singleton_eq held).2
    | finished => exact absurd held add_singleton_ne
    | _ => cases h
  | finish => cases h
  | _ => exact h

/-- No move changes the state a transfer has ended in. -/
theorem Move.final_keeps (move : Move T t s X s' X') (lives : Lives ok s.1 (F + X))
    {st : RequestState} (h : (s.1.reqs (.transfer q)).final = some st) :
    (s'.1.reqs (.transfer q)).final = some st := by
  cases move.life F q with
  | same _ life => exact (congrArg (·.req.final) life).trans h
  | step _ step =>
    rcases step.gist with same | turn
    · exact (congrArg (·.final) same).trans h
    · exact (lives.each q).course.turn_final turn h
  | number _ _ life => exact (congrArg (·.req.final) life).trans h

/-- The first `k` of the five milestones of transfer `q` are past, and nothing
else: it was admitted, taken out of `inflight_` by `claim` or by the reaper,
counted, moved to its final state and published, all but the first by one and
the same call. -/
def Told (q : RequestId) (l : Ledger) (k : Nat) : Prop :=
  ∃ s : Story, milestones (history q l.trace) = s.past q k ∧ (q ∈ l.inflight ↔ k = 1) ∧
    (l.reqs (.transfer q)).final = if 4 ≤ k then some s.outcome.state else none

theorem Course.told {M : Multiset Res} (course : Course q (l.life M q).gist) :
    ∃ k ≤ 5, Told q l k ∧ ((∀ t ph, .ending t q ph ∉ M) → k = 0 ∨ k = 1 ∨ k = 5) := by
  generalize h : (l.life M q).gist = g at course
  have final : (l.reqs (.transfer q)).final = g.final := by rw [← h]; rfl
  have flying : q ∈ l.inflight ↔ g.flying = true := by
    rw [← h]
    simp [Life.gist, Ledger.life, Ledger.flying]
  have log : milestones (history q l.trace) = g.log := by rw [← h]; rfl
  have held {t : Tid} {ph : Phase} (inHand : .ending t q ph ∈ g.hand) : .ending t q ph ∈ M := by
    rw [← h] at inHand
    have := Multiset.mem_of_mem_filter (Multiset.mem_of_mem_filter inHand)
    simpa [work] using this
  unfold Told
  rw [final, flying, log]
  cases course with
  | fresh => exact ⟨0, by simp, ⟨⟨0, [], [], 0, false, .failed⟩, by simp [Story.past]⟩, by simp⟩
  | numbered => exact ⟨0, by simp, ⟨⟨0, [], [], 0, false, .failed⟩, by simp [Story.past]⟩, by simp⟩
  | flying s => exact ⟨1, by simp, ⟨s, by simp⟩, by simp⟩
  | taken s =>
    exact ⟨2, by simp, ⟨s, by simp⟩, fun none => absurd (held (mem_singleton_self _)) (none _ _)⟩
  | counted s =>
    exact ⟨3, by simp, ⟨s, by simp⟩, fun none => absurd (held (mem_singleton_self _)) (none _ _)⟩
  | ended s =>
    exact ⟨4, by simp, ⟨s, by simp⟩, fun none => absurd (held (mem_singleton_self _)) (none _ _)⟩
  | finished s => exact ⟨5, by simp, ⟨s, by simp⟩, by simp⟩

variable {W : Type} [LaneCost W]

/-- In every run of an engine, over any transports and from any tables: each
transfer goes through its milestones once and in order; each counter has been
raised once for every line that says so; a state a transfer ended in never
changes; and whenever no call is in progress, every transfer is in flight or
over, and the counters balance. -/
theorem every_transfer_ends_once (setup : Setup W) (dir : Directory W) (σ : T.State)
    {p : Pools T W}
    (run : Runs setup dir σ (fun _ _ => True) p) :
    (∀ q, ∃ k ≤ 5, Told q p.shared.ledger k) ∧
    Tally p.shared.ledger ∧
    (∀ q a p' s, p.step (Call.body T setup) a = some p' →
      (p.shared.ledger.reqs (.transfer q)).final = some s →
      (p'.shared.ledger.reqs (.transfer q)).final = some s) ∧
    (p.Quiet →
      (∀ q, Told q p.shared.ledger 0 ∨ Told q p.shared.ledger 1 ∨ Told q p.shared.ledger 5) ∧
      p.shared.ledger.accepted = p.shared.ledger.succeeded + p.shared.ledger.failed +
        p.shared.ledger.cancelled + p.shared.ledger.inflight.card) := by
  obtain ⟨held, matched, lives, tally, balance⟩ :=
    Run.lives (fun _ _ => True) (fun _ _ _ => True) (fun _ _ _ _ => trivial)
      (fun s M => Tally s.1 ∧ Balance s.1 M) ⟨⟨rfl, fun o => by cases o <;> rfl⟩, rfl⟩
      (fun t s F X s' X' lives inv move _ => ⟨move.tally inv.1, move.balance lives inv.2⟩) run
  have told q := (lives.each q).course.told
  refine ⟨fun q => ?_, tally, fun q a p' s hs h => ?_, fun quiet => ⟨fun q => ?_, ?_⟩⟩
  · obtain ⟨k, bound, told, -⟩ := told q
    exact ⟨k, bound, told⟩
  · obtain ⟨held', -, ⟨-, -, same⟩ | ⟨t, -, F, M, M', -, hF, -, move⟩⟩ :=
      Interleave.step_matched (fun c t => body_follows c t) hs matched
    · rw [same.1]
      exact h
    · exact Move.final_keeps move (hF ▸ lives) h
  · have spare := matched.quiet Call.post_spare quiet
    obtain ⟨k, -, told, finished⟩ := told q
    obtain rfl | rfl | rfl := finished fun t ph h => spare _ h
    exacts [.inl told, .inr (.inl told), .inr (.inr told)]
  · have spare := matched.quiet Call.post_spare quiet
    have uncounted : weigh Res.uncountedly held.sum = 0 := weigh_eq_zero fun x hx => by
      have := spare x hx
      cases x <;> simp_all [Res.Spare]
    have undecided : weigh Res.undecided held.sum = 0 := weigh_eq_zero fun x hx => by
      have := spare x hx
      cases x <;> simp_all [Res.Spare]
    simpa [Balance, uncounted, undecided] using balance

/-- Eight bytes written in two turns, and the turn of progress that ends the request. -/
theorem every_transfer_ends_once_pair :
    ∃ p, Pair.play .nothing (fun _ _ => true)
        [.spawn (Pair.write []), .run 0 21, .spawn .progress, .run 1 29] = some p ∧
      (∃ k ≤ 5, Told 1 p.shared.ledger k) ∧ p.shared.ledger.succeeded = 1 ∧
      p.shared.ledger.accepted = p.shared.ledger.succeeded + p.shared.ledger.failed +
        p.shared.ledger.cancelled + p.shared.ledger.inflight.card := by
  obtain ⟨p, played, run, quiet, succeeded⟩ := Pair.played .nothing (fun _ _ => True)
    [.spawn (Pair.write []), .run 0 21, .spawn .progress, .run 1 29]
    (fun p => p.Quiet ∧ p.shared.ledger.succeeded = 1) (by decide +kernel)
  have once := every_transfer_ends_once (T := Pair.transport) Pair.setup Pair.directory Pair.state
    run
  exact ⟨p, played, once.1 1, succeeded, (once.2.2.2 quiet).2⟩

end

end Hux
