import Mathlib.Data.Multiset.OrderedMonoid
import Hux.Ending

/-!
# The books of one request

* `takenOps` and `reports`: what providers took of a request and reported of it,
  out of its history;
* `Books`: how these go with the counters of the request object and with the
  work the threads still have. It takes a request of fewer than `2 ^ 32`
  operations, and nothing from the providers.
-/

namespace Hux
open Interleave (Tid weigh weigh_add weigh_singleton weigh_eq_zero le_weigh)
open Multiset (mem_add mem_coe mem_filter)

/-! ## Out of the history -/

def Event.takenOp : Event → Option SubOp
  | .offered _ op true => some op
  | _ => none

def Event.report : Event → Option CompletionEvent
  | .reported ev => some ev
  | _ => none

/-- The operations providers took, newest first. -/
def takenOps (log : List (Tid × Event)) : List SubOp := log.filterMap (·.2.takenOp)

/-- The completions providers reported, newest first. -/
def reports (log : List (Tid × Event)) : List CompletionEvent := log.filterMap (·.2.report)

theorem filterMap_changes {α : Type} {f : Event → Option α} (ended : ∀ h s, f (.ended h s) = none)
    (staged : ∀ h s, f (.staged h s) = none) (t : Tid) (h : Handle) (r r' : Request) :
    ((changes h r r').map (t, ·)).filterMap (f ·.2) = [] := by
  rw [List.filterMap_eq_nil_iff]
  intro e he
  obtain ⟨e', he', rfl⟩ := List.mem_map.mp he
  obtain rfl | ⟨s, rfl⟩ := mem_changes he' <;> simp [ended, staged]

/-- What a deed adds. -/
theorem takenOps_deed (t : Tid) (q : RequestId) (r r' : Request) (evs : List Event)
    (log : List (Tid × Event)) :
    takenOps (evs.map (t, ·) ++ ((changes (.transfer q) r r').map (t, ·) ++ log)) =
      evs.filterMap Event.takenOp ++ takenOps log := by
  have none := filterMap_changes (f := Event.takenOp) (fun _ _ => rfl) (fun _ _ => rfl) t
    (.transfer q) r r'
  simp [takenOps, List.filterMap_map, none]

theorem reports_deed (t : Tid) (q : RequestId) (r r' : Request) (evs : List Event)
    (log : List (Tid × Event)) :
    reports (evs.map (t, ·) ++ ((changes (.transfer q) r r').map (t, ·) ++ log)) =
      evs.filterMap Event.report ++ reports log := by
  have none := filterMap_changes (f := Event.report) (fun _ _ => rfl) (fun _ _ => rfl) t
    (.transfer q) r r'
  simp [reports, List.filterMap_map, none]

variable {t : Tid} {q : RequestId}

/-- No deed reports anything. -/
theorem Deed.unreported {r r' : Request} {fl fl' : Bool} {X X' : Multiset Res} {evs : List Event}
    (deed : Deed t q r fl X r' fl' X' evs) : evs.filterMap Event.report = [] := by
  cases deed <;> simp [Event.report]

theorem takenOps_reported (t : Tid) (evs : List CompletionEvent) (log : List (Tid × Event)) :
    takenOps (evs.map (fun ev => (t, .reported ev)) ++ log) = takenOps log := by
  simp [takenOps, List.filterMap_map, Event.takenOp]

theorem reports_reported (t : Tid) (evs : List CompletionEvent) (log : List (Tid × Event)) :
    reports (evs.map (fun ev => (t, .reported ev)) ++ log) = evs ++ reports log := by
  simp [reports, List.filterMap_map, Event.report]

/-! ## In the threads' hands -/

namespace Res

/-- The operations still to be handed to a provider. -/
@[simp] def left : Res → Multiset SubOp
  | .unsplit _ ops => ops
  | .part p => p.ops
  | .posting p n => p.ops.drop n
  | .landing p n => p.ops.drop (n + 1)
  | _ => 0

/-- Operations a provider took that are not in `accepted_subops_` yet. -/
@[simp] def untold : Res → Nat
  | .posting _ n => n
  | .landing _ n => n + 1
  | _ => 0

/-- A lane that has not finished. -/
@[simp] def live : Res → Nat
  | .part _ | .posting _ _ | .landing _ _ | .spent _ => 1
  | _ => 0

/-- Not made into lanes yet. -/
@[simp] def whole : Res → Nat
  | .unsplit _ _ => 1
  | _ => 0

/-- The last lane's thread, on its way to end the request. -/
@[simp] def gate : Res → Nat
  | .lastPart _ | .abandoned _ | .idle _ => 1
  | _ => 0

end Res

theorem left_work (ps : List PendingSubmit) :
    weigh Res.left (work ps) = (ps.flatMap (·.ops) : List SubOp) := by
  induction ps with
  | nil => rfl
  | cons p rest ih => simp [work_cons, ih, add_comm]

theorem live_work (ps : List PendingSubmit) : weigh Res.live (work ps) = ps.length := by
  induction ps with
  | nil => rfl
  | cons p rest ih => simp [work_cons, ih]

@[simp] theorem untold_work (ps : List PendingSubmit) : weigh Res.untold (work ps) = 0 :=
  weigh_work (fun _ => rfl) ps

@[simp] theorem whole_work (ps : List PendingSubmit) : weigh Res.whole (work ps) = 0 :=
  weigh_work (fun _ => rfl) ps

@[simp] theorem gate_work (ps : List PendingSubmit) : weigh Res.gate (work ps) = 0 :=
  weigh_work (fun _ => rfl) ps

theorem settled_left (p : PendingSubmit) (n : Nat) :
    (settled p n).left = (p.ops.drop n : List SubOp) := by
  unfold settled
  split
  · rename_i later rest
    simp [(PendingSubmit.rest_req rest).2.2]
  · rename_i rest
    have none : p.ops.drop n = [] := by
      by_contra left
      simp [PendingSubmit.rest, left] at rest
    simp [none]

/-- What a lane weighs, whether it has work left or not. -/
theorem settled_weight {A : Type} {f : Res → A} {c : A} (part : ∀ p, f (.part p) = c)
    (spent : ∀ q, f (.spent q) = c) (p : PendingSubmit) (n : Nat) : f (settled p n) = c := by
  unfold settled
  split
  exacts [part _, spent _]

/-- Without lanes and with none to come there is nothing left to post, and
nothing to add up. -/
theorem none_left {M : Multiset Res} (live : weigh Res.live M = 0) (whole : weigh Res.whole M = 0) :
    weigh Res.left M = 0 ∧ weigh Res.untold M = 0 := by
  have none {x : Res} (hx : x ∈ M) : x.live = 0 ∧ x.whole = 0 :=
    ⟨Nat.le_zero.mp (live ▸ le_weigh hx), Nat.le_zero.mp (whole ▸ le_weigh hx)⟩
  constructor
  · refine weigh_eq_zero fun x hx => ?_
    have := none hx
    cases x <;> simp_all
  · refine weigh_eq_zero fun x hx => ?_
    have := none hx
    cases x <;> simp_all

/-- What the books say of resources. -/
def load (M : Multiset Res) : Multiset SubOp × Nat × Nat × Nat :=
  (weigh Res.left M, weigh Res.untold M, weigh Res.live M, weigh Res.whole M)

/-- What they say of the object, but for the seal. -/
def Request.counts (r : Request) : Nat × Nat × Nat := (r.totalSubops, r.acceptedSubops, r.partsLeft)

/-! ## The books -/

structure Books (ops : List SubOp) (a : Life) : Prop where
  total : a.req.totalSubops = ops.length
  /-- What was taken and what is left are operations of the request, each once. -/
  within : (takenOps a.log : Multiset SubOp) + weigh Res.left a.tokens ≤ ops
  added : (takenOps a.log).length = a.req.acceptedSubops + weigh Res.untold a.tokens
  one : weigh Res.whole a.tokens + weigh Res.gate a.tokens ≤ 1
  before : weigh Res.whole a.tokens = 1 → weigh Res.live a.tokens = 0
  parts : weigh Res.whole a.tokens = 0 → a.req.partsLeft = weigh Res.live a.tokens
  after : weigh Res.gate a.tokens = 1 → weigh Res.live a.tokens = 0
  sealed : a.flying = true → a.req.sealed = true →
    weigh Res.live a.tokens = 0 ∧ weigh Res.whole a.tokens = 0

namespace Books
variable {ops : List SubOp} {t : Tid} {q : RequestId} {r r' : Request} {fl fl' : Bool}
  {F X X' : Multiset Res} {log log' : List (Tid × Event)}

variable {a : Life}

theorem taken_le (books : Books ops a) :
    (takenOps a.log).length + (weigh Res.left a.tokens).card ≤ ops.length := by
  simpa using Multiset.card_le_card books.within

/-- A step that takes nothing, gives up no lane and seals nothing that flies. -/
theorem mono (books : Books ops ⟨r, fl, F + X, log⟩) (counts : r'.counts = r.counts)
    (taken : takenOps log' = takenOps log) (load : load X' = load X)
    (gate : weigh Res.gate X' ≤ weigh Res.gate X)
    (sealed : fl' = true → r'.sealed = true → fl = true ∧ r.sealed = true) :
    Books ops ⟨r', fl', F + X', log'⟩ := by
  obtain ⟨htotal, hwithin, hadded, hone, hbefore, hparts, hafter, hsealed⟩ := books
  simp only [Request.counts, Prod.mk.injEq] at counts
  simp only [Hux.load, Prod.mk.injEq] at load
  obtain ⟨total, accepted, parts⟩ := counts
  obtain ⟨left, untold, live, whole⟩ := load
  simp only [weigh_add] at hwithin hadded hone hbefore hparts hafter hsealed
  refine ⟨total.trans htotal, ?_, ?_, ?_, ?_, ?_, ?_, ?_⟩ <;>
    simp only [weigh_add, taken, left, untold, live, whole, accepted, parts]
  · exact hwithin
  · exact hadded
  · omega
  · exact hbefore
  · exact hparts
  · intro h
    exact hafter (by omega)
  · intro flies sealed'
    obtain ⟨rfl, h⟩ := sealed flies sealed'
    exact hsealed rfl h

theorem of_split {parts : List PendingSubmit} (small : ops.length < 2 ^ 32)
    (books : Books ops ⟨r, fl, F + {.unsplit q (parts.flatMap (·.ops))}, log⟩)
    (taken : takenOps log' = takenOps log) :
    Books ops ⟨r.setParts (u32 parts.length), fl, F + work parts, log'⟩ := by
  have le : parts.length ≤ (parts.flatMap (·.ops)).length := by
    clear books
    induction parts with
    | nil => simp
    | cons p rest ih =>
      have : 0 < p.ops.length := List.length_pos_iff.mpr p.left
      simp only [List.flatMap_cons, List.length_append, List.length_cons]
      omega
  have bound := books.taken_le
  obtain ⟨htotal, hwithin, hadded, hone, hbefore, hparts, hafter, hsealed⟩ := books
  simp only [weigh_add, weigh_singleton, Res.left, Res.untold, Res.whole, Res.live, Res.gate,
    Multiset.card_add, Multiset.coe_card] at hwithin hadded hone hbefore hafter hsealed bound
  have fits : u32 parts.length = parts.length := u32_of_lt (by omega)
  refine ⟨htotal, ?_, ?_, ?_, ?_, ?_, ?_, ?_⟩ <;>
    simp only [weigh_add, taken, left_work, live_work, untold_work, whole_work, gate_work,
      Request.setParts, fits]
  · exact hwithin
  · exact hadded
  · omega
  · omega
  · omega
  · omega
  · intro flies sealed
    have := hsealed flies sealed
    omega

variable {p : PendingSubmit} {n : Nat}

/-- The next operation of a lane goes from what is left to what was taken. -/
theorem of_offer {op : SubOp} (books : Books ops ⟨r, fl, F + {.posting p n}, log⟩)
    (next : p.ops[n]? = some op) (taken : takenOps log' = op :: takenOps log) :
    Books ops ⟨r, fl, F + {.landing p n}, log'⟩ := by
  obtain ⟨at_n, rfl⟩ := List.getElem?_eq_some_iff.mp next
  have split : p.ops.drop n = p.ops[n] :: p.ops.drop (n + 1) := List.drop_eq_getElem_cons at_n
  obtain ⟨htotal, hwithin, hadded, hone, hbefore, hparts, hafter, hsealed⟩ := books
  simp only [weigh_add, weigh_singleton, Res.left, Res.untold, Res.whole, Res.live, Res.gate]
    at hwithin hadded hone hbefore hparts hafter hsealed
  refine ⟨htotal, ?_, ?_, ?_, ?_, ?_, ?_, ?_⟩ <;>
    simp only [weigh_add, weigh_singleton, Res.left, Res.untold, Res.whole, Res.live, Res.gate,
      taken]
  · rw [split] at hwithin
    refine le_trans (le_of_eq ?_) hwithin
    simp only [← Multiset.cons_coe, ← Multiset.singleton_add]
    ac_rfl
  · simp only [List.length_cons]
    omega
  · exact hone
  · exact hbefore
  · exact hparts
  · exact hafter
  · exact hsealed

/-- A count of operations a lane has posted fits into its counter. -/
theorem untold_small (small : ops.length < 2 ^ 32) (books : Books ops a)
    (posting : .posting p n ∈ a.tokens) : u32 n = n := by
  have bound := books.taken_le
  have added := books.added
  have : n ≤ weigh Res.untold a.tokens := le_weigh (f := Res.untold) posting
  exact u32_of_lt (by omega)

theorem of_settle (small : ops.length < 2 ^ 32)
    (books : Books ops ⟨r, fl, F + {.posting p n}, log⟩) (taken : takenOps log' = takenOps log) :
    Books ops ⟨r.addAcceptedSubops (u32 n), fl, F + {settled p (u32 n)}, log'⟩ := by
  have few : u32 n = n := books.untold_small small (p := p) (by simp)
  have bound := books.taken_le
  obtain ⟨htotal, hwithin, hadded, hone, hbefore, hparts, hafter, hsealed⟩ := books
  simp only [weigh_add, weigh_singleton, Res.left, Res.untold, Res.whole, Res.live, Res.gate]
    at hwithin hadded hone hbefore hparts hafter hsealed bound
  have sum : u32 (r.acceptedSubops + n) = r.acceptedSubops + n := u32_of_lt (by omega)
  rw [few]
  refine ⟨htotal, ?_, ?_, ?_, ?_, ?_, ?_, ?_⟩ <;>
    simp only [weigh_add, weigh_singleton, settled_left, taken, Request.addAcceptedSubops, sum,
      settled_weight (f := Res.untold) (fun _ => rfl) (fun _ => rfl),
      settled_weight (f := Res.whole) (fun _ => rfl) (fun _ => rfl),
      settled_weight (f := Res.live) (fun _ => rfl) (fun _ => rfl),
      settled_weight (f := Res.gate) (fun _ => rfl) (fun _ => rfl)]
  · exact hwithin
  · omega
  · exact hone
  · exact hbefore
  · exact hparts
  · exact hafter
  · exact hsealed

theorem of_finishPart {x : Res} (lane : x = .spent q ∨ ∃ p, p.req = q ∧ x = .part p)
    (books : Books ops ⟨r, fl, F + {x}, log⟩) (taken : takenOps log' = takenOps log) :
    Books ops ⟨r.partFinished.2, fl,
      F + (if r.partFinished.1 then {.lastPart q} else 0), log'⟩ := by
  have weights : x.untold = 0 ∧ x.whole = 0 ∧ x.live = 1 ∧ x.gate = 0 := by
    obtain rfl | ⟨p, -, rfl⟩ := lane <;> simp
  obtain ⟨untold, whole, live, gate⟩ := weights
  obtain ⟨htotal, hwithin, hadded, hone, hbefore, hparts, hafter, hsealed⟩ := books
  simp only [weigh_add, weigh_singleton, untold, whole, live, gate]
    at hwithin hadded hone hbefore hparts hafter hsealed
  have parts := hparts (by omega)
  have fewer := le_trans (add_le_add_right (Multiset.le_add_right _ _) _) hwithin
  by_cases last : r.partsLeft - 1 = 0
  · have done : r.partFinished.1 = true := by simp [Request.partFinished, last]
    rw [done, if_pos rfl]
    refine ⟨htotal, ?_, ?_, ?_, ?_, ?_, ?_, ?_⟩ <;>
      simp only [weigh_add, weigh_singleton, Res.left, Res.untold, Res.whole, Res.live, Res.gate,
        taken, Request.partFinished, add_zero]
    · exact fewer
    · exact hadded
    · omega
    · omega
    · omega
    · omega
    · intro flies sealed
      have := hsealed flies sealed
      omega
  · have more : r.partFinished.1 = false := by simp [Request.partFinished, last]
    rw [more, if_neg (by simp), add_zero]
    refine ⟨htotal, ?_, ?_, ?_, ?_, ?_, ?_, ?_⟩ <;> simp only [taken, Request.partFinished]
    · exact fewer
    · exact hadded
    · omega
    · omega
    · omega
    · omega
    · intro flies sealed
      have := hsealed flies sealed
      omega

theorem of_sealIfIdle (books : Books ops ⟨r, fl, F + {.abandoned q}, log⟩)
    (taken : takenOps log' = takenOps log) :
    Books ops ⟨r.sealIfIdle.2, fl, F + (if r.sealIfIdle.1 then {.idle q} else 0), log'⟩ := by
  obtain ⟨htotal, hwithin, hadded, hone, hbefore, hparts, hafter, hsealed⟩ := books
  simp only [weigh_add, weigh_singleton, Res.left, Res.untold, Res.whole, Res.live, Res.gate,
    add_zero] at hwithin hadded hone hbefore hparts hafter hsealed
  have gone := hafter (by omega)
  cases r.sealIfIdle.1 with
  | true =>
    refine ⟨htotal, ?_, ?_, ?_, ?_, ?_, ?_, ?_⟩ <;>
      simp only [if_true, weigh_add, weigh_singleton, Res.left, Res.untold, Res.whole, Res.live,
        Res.gate, taken, Request.sealIfIdle, add_zero]
    · exact hwithin
    · exact hadded
    · omega
    · omega
    · exact hparts
    · exact hafter
    · omega
  | false =>
    refine ⟨htotal, ?_, ?_, ?_, ?_, ?_, ?_, ?_⟩ <;>
      simp only [Bool.false_eq_true, if_false, add_zero, taken, Request.sealIfIdle]
    · exact hwithin
    · exact hadded
    · omega
    · omega
    · exact hparts
    · omega
    · omega

/-- Every step of a request that is past its admission keeps its books. -/
theorem step {b : Life} (small : ops.length < 2 ^ 32) (step : LifeStep t q a b)
    (past : .ticket q ∉ a.tokens)
    (grounded : ∀ t ph, .ending t q ph ∈ a.tokens → a.flying = false) (books : Books ops a) :
    Books ops b := by
  cases step with
  | @deed r r' fl fl' F X X' log evs deed =>
    have still (h : evs.filterMap Event.takenOp = []) :
        takenOps (evs.map (t, ·) ++ ((changes (.transfer q) r r').map (t, ·) ++ log)) =
          takenOps log := by
      rw [takenOps_deed, h, List.nil_append]
    cases deed with
    | admission => simp at past
    | split all mine =>
      subst all
      exact of_split small books (still rfl)
    | setState mine held =>
      have counts (s : RequestState) : (r.setState s).counts = r.counts := by
        rw [r.setState_eq]
        rfl
      exact books.mono (counts _) (still rfl) rfl le_rfl
        fun flies sealed => ⟨flies, by rwa [r.setState_eq] at sealed⟩
    | noteError =>
      exact books.mono (by rw [r.noteError_eq]; rfl) (still rfl) rfl le_rfl
        fun flies sealed => ⟨flies, by rwa [r.noteError_eq] at sealed⟩
    | clear =>
      exact books.mono rfl (still rfl) (by simp [load])
        (by simp) fun flies sealed => ⟨flies, sealed⟩
    | @offer _ p n op taken mine next =>
      cases taken with
      | true => exact of_offer books next (takenOps_deed ..)
      | false => exact books.mono rfl (still rfl) rfl le_rfl fun flies sealed => ⟨flies, sealed⟩
    | settle => exact of_settle small books (still rfl)
    | finishPart lane => exact of_finishPart lane books (still rfl)
    | sealIfIdle => exact of_sealIfIdle books (still rfl)
    | accept | giveUp | sawAbandoning | readError | count | handoff | publish | dropEvent | find =>
      exact books.mono rfl (still rfl) (by simp [load])
        (by simp) fun flies sealed => ⟨flies, sealed⟩
    | claim last =>
      refine books.mono rfl (still rfl) ?_ (by simp) nofun
      obtain ⟨rfl, -⟩ | ⟨rfl, -⟩ := last <;> simp [load]
    | missed last =>
      refine books.mono rfl (still rfl) ?_ (by simp) nofun
      obtain rfl | rfl := last <;> simp [load]
    | readCancel =>
      refine books.mono rfl (still rfl) ?_ ?_ fun flies sealed => ⟨flies, sealed⟩ <;>
        simp [load]
    | mark => exact books.mono rfl (still rfl) rfl le_rfl fun flies sealed => ⟨flies, sealed⟩
    | sealReaped =>
      refine books.mono rfl (still rfl) rfl le_rfl fun flies => ?_
      exact absurd ((grounded t .reaped (by simp)).symm.trans flies) (by simp)
    | finish how =>
      have same : r'.counts = r.counts ∧ r'.sealed = r.sealed := by
        rw [Request.finishes_eq how]
        exact ⟨rfl, rfl⟩
      exact books.mono same.1 (still rfl)
        (by simp [load])
        (by simp) fun flies sealed => ⟨flies, same.2 ▸ sealed⟩
    | @complete _ ev mine =>
      have same : (r.onSubopComplete ev).2.counts = r.counts ∧
          (r.onSubopComplete ev).2.sealed = r.sealed := by
        rw [r.onSubopComplete_eq]
        exact ⟨rfl, rfl⟩
      refine books.mono same.1 (still rfl) ?_ ?_ fun flies sealed => ⟨flies, same.2 ▸ sealed⟩ <;>
        split <;> simp [load]
    | cancel made live =>
      refine books.mono (by rw [r.cancel_live live]; rfl) (still rfl) rfl le_rfl
        fun flies sealed => ⟨flies, by rwa [r.cancel_live live] at sealed⟩
  | land =>
    exact books.mono rfl rfl (by simp [load])
      (by simp) fun flies sealed => ⟨flies, sealed⟩
  | @report r fl F log evs mine =>
    have books : Books ops ⟨r, fl, F + 0, log⟩ := by rwa [add_zero]
    have weightless {A : Type} [AddCommMonoid A] {f : Res → A} (h : ∀ ev, f (.event ev) = 0) :
        weigh f (events evs) = weigh f 0 := weigh_events h evs
    refine books.mono rfl (takenOps_reported t evs log) ?_ (weightless fun _ => rfl).le
      fun flies sealed => ⟨flies, sealed⟩
    simp only [load, weightless (f := Res.left) fun _ => rfl,
      weightless (f := Res.untold) fun _ => rfl, weightless (f := Res.live) fun _ => rfl,
      weightless (f := Res.whole) fun _ => rfl]
  | @reap r F log =>
    have books : Books ops ⟨r, true, F + 0, log⟩ := by rwa [add_zero]
    refine books.mono rfl rfl ?_ ?_ nofun
    all_goals simp [load]
  | giveAway => simp at past

end Books

/-! ## Over a whole life -/

/-- Before admission there are only stray reports. -/
structure Blank (q : RequestId) (a : Life) : Prop where
  unmade : a.req.made = false
  grounded : a.flying = false
  tokens : ∀ x ∈ a.tokens, x = .ticket q ∨ ∃ ev, x = .event ev
  log : ∀ e ∈ a.log, ∃ ev, e.2 = .reported ev

variable {a : Life}

theorem Blank.weightless (blank : Blank q a) {F X : Multiset Res} (tokens : a.tokens = F + X)
    {A : Type} [AddCommMonoid A] {f : Res → A} (ticket : f (.ticket q) = 0)
    (event : ∀ ev, f (.event ev) = 0) : weigh f F = 0 := by
  refine weigh_eq_zero fun x hx => ?_
  obtain rfl | ⟨ev, rfl⟩ := blank.tokens x (tokens ▸ mem_add.mpr (.inl hx))
  exacts [ticket, event ev]

theorem Blank.takenOps (blank : Blank q a) : takenOps a.log = [] :=
  List.filterMap_eq_nil_iff.mpr fun e he => by
    obtain ⟨ev, h⟩ := blank.log e he
    simp [h, Event.takenOp]

variable {ops : List SubOp}

theorem Blank.admitted {r₀ r : Request} {fl : Bool} {F : Multiset Res}
    {log log' : List (Tid × Event)} (blank : Blank q ⟨r₀, fl, F + {.ticket q}, log⟩)
    (new : r.New ops) (small : ops.length < 2 ^ 32) (taken : Hux.takenOps log' = Hux.takenOps log) :
    Books ops ⟨r, true, F + ({.admittedBy t q r.heldRegions} + {.unsplit q ops} + {.uncounted q}),
      log'⟩ := by
  have left := blank.weightless rfl (f := Res.left) rfl fun _ => rfl
  have untold := blank.weightless rfl (f := Res.untold) rfl fun _ => rfl
  have live := blank.weightless rfl (f := Res.live) rfl fun _ => rfl
  have whole := blank.weightless rfl (f := Res.whole) rfl fun _ => rfl
  have gate := blank.weightless rfl (f := Res.gate) rfl fun _ => rfl
  refine ⟨new.total.trans (u32_of_lt small), ?_, ?_, ?_, ?_, ?_, ?_, ?_⟩ <;>
    simp only [weigh_add, weigh_singleton, left, untold, live, whole, gate, Res.left, Res.untold,
      Res.live, Res.whole, Res.gate, taken, blank.takenOps, new.accepted, new.parts, new.unsealed]
  all_goals simp

theorem Blank.step {b : Life} (step : LifeStep t q a b) (blank : Blank q a) :
    Blank q b ∨ ∃ R ops, (t, .admitted q R ops) ∈ b.log ∧
      (∀ op ∈ ops, op.request = q) ∧ (ops.length < 2 ^ 32 → Books ops b) := by
  cases step with
  | @deed r r' fl fl' F X X' log evs deed =>
    have given (x : Res) (hx : x ∈ X) : x = .ticket q ∨ ∃ ev, x = .event ev :=
      blank.tokens x (mem_add.mpr (.inr hx))
    cases deed with
    | @admission _ _ ops new mine =>
      refine .inr ⟨r'.heldRegions, ops, by simp, mine, fun small => blank.admitted new small ?_⟩
      rw [takenOps_deed]
      rfl
    | setState mine held =>
      obtain ⟨p, n, rfl | rfl⟩ := held <;> simp at given
    | finishPart lane =>
      obtain rfl | ⟨p, -, rfl⟩ := lane <;> simp at given
    | claim last =>
      obtain ⟨rfl, -⟩ | ⟨rfl, -⟩ := last <;> simp at given
    | missed last =>
      obtain rfl | rfl := last <;> simp at given
    | dropEvent =>
      refine .inl ⟨blank.unmade, rfl, fun x hx => blank.tokens x ?_, ?_⟩
      · exact mem_add.mpr (.inl (by simpa using hx))
      · simpa [changes_self] using blank.log
    | find => cases blank.grounded
    | cancel made =>
      have unmade : r.made = false := blank.unmade
      simp [unmade] at made
    | _ => simp at given
  | @land _ _ F _ p n =>
    obtain h | ⟨ev, h⟩ := blank.tokens (.landing p n) (by simp) <;> cases h
  | report mine =>
    refine .inl ⟨blank.unmade, blank.grounded, fun x hx => ?_, fun e he => ?_⟩
    · rcases mem_add.mp hx with hx | hx
      · exact blank.tokens x hx
      · obtain ⟨ev, -, rfl⟩ := List.mem_map.mp (mem_coe.mp hx)
        exact .inr ⟨ev, rfl⟩
    · rcases List.mem_append.mp he with he | he
      · obtain ⟨ev, -, rfl⟩ := List.mem_map.mp he
        exact ⟨ev, rfl⟩
      · exact blank.log e he
  | reap => cases blank.grounded
  | giveAway =>
    refine .inl ⟨blank.unmade, blank.grounded, fun x hx => blank.tokens x ?_, blank.log⟩
    exact mem_add.mpr (.inl hx)

variable {R : List RegionId}

/-- Once the history has a milestone, the number has been used. -/
theorem Course.past (course : Course q a.gist) (admitted : (t, .admitted q R ops) ∈ a.log) :
    .ticket q ∉ a.tokens := by
  intro ticket
  have held : .ticket q ∈ a.gist.hand := mem_filter.mpr ⟨ticket, rfl⟩
  have told : (t, .admitted q R ops) ∈ a.gist.log := List.mem_filter.mpr ⟨admitted, rfl⟩
  generalize a.gist = g at course held told
  cases course <;> simp at held told

theorem Course.grounded (course : Course q a.gist) {ph : Phase}
    (ending : .ending t q ph ∈ a.tokens) : a.flying = false := by
  have held : .ending t q ph ∈ a.gist.hand := mem_filter.mpr ⟨ending, rfl⟩
  have flying : a.gist.flying = a.flying := rfl
  generalize a.gist = g at course held flying
  cases course <;> simp_all

theorem LifeStep.log_grows {b : Life} (step : LifeStep t q a b) : ∀ e ∈ a.log, e ∈ b.log := by
  intro e he
  cases step with
  | deed => exact List.mem_append_right _ (List.mem_append_right _ he)
  | report => exact List.mem_append_right _ he
  | reap => exact List.mem_cons_of_mem _ he
  | land | giveAway => exact he

/-- Every life is blank or keeps books, for the operations it was admitted with. -/
theorem LifeRun.books {ok : View → View → Prop} (run : LifeRun ok q a) :
    Blank q a ∨ ∃ t R ops, (t, .admitted q R ops) ∈ a.log ∧
      (∀ op ∈ ops, op.request = q) ∧ (ops.length < 2 ^ 32 → Books ops a) := by
  induction run with
  | start => exact .inl ⟨rfl, rfl, by simp [Life.start], by simp [Life.start]⟩
  | number _ untouched =>
    refine .inl ⟨untouched.unmade, untouched.grounded, fun x hx => ?_, untouched.log⟩
    rcases mem_add.mp hx with hx | hx
    · exact .inr (untouched.tokens x hx)
    · exact .inl (Multiset.mem_singleton.mp hx)
  | step t run step _ ih =>
    obtain blank | ⟨t₀, R, ops, admitted, mine, books⟩ := ih
    · obtain blank | ⟨R, ops, admitted, mine, books⟩ := blank.step step
      · exact .inl blank
      · exact .inr ⟨t, R, ops, admitted, mine, books⟩
    · refine .inr ⟨t₀, R, ops, step.log_grows _ admitted, mine, fun small => ?_⟩
      exact (books small).step small step (run.course.past admitted)
        fun _ _ ending => run.course.grounded ending

theorem Story.mem_past {s : Story} {k : Nat} {e : Tid × Event} (h : e ∈ s.past q k) :
    e ∈ s.lines q := List.mem_of_mem_take (List.mem_reverse.mp h)

/-- Every milestone of a life is one of a story's. -/
theorem Course.story {g : Gist} (course : Course q g) :
    ∃ s : Story, ∀ e ∈ g.log, e ∈ s.lines q := by
  cases course with
  | fresh | numbered => exact ⟨⟨0, [], [], 0, false, .failed⟩, by simp⟩
  | flying s | taken s | counted s | ended s | finished s =>
    exact ⟨s, fun e he => Story.mem_past he⟩

/-- A transfer is admitted once. -/
theorem Course.admitted_once (course : Course q a.gist) {t' : Tid} {R' : List RegionId}
    {ops' : List SubOp} (h : (t, .admitted q R ops) ∈ a.log)
    (h' : (t', .admitted q R' ops') ∈ a.log) : t = t' ∧ R = R' ∧ ops = ops' := by
  obtain ⟨s, lines⟩ := course.story
  have told := lines _ (List.mem_filter.mpr ⟨h, rfl⟩)
  have told' := lines _ (List.mem_filter.mpr ⟨h', rfl⟩)
  cases taken : s.reaped <;> simp_all [Story.lines]

theorem LifeRun.books_of {ok : View → View → Prop} (run : LifeRun ok q a)
    (admitted : (t, .admitted q R ops) ∈ a.log) (small : ops.length < 2 ^ 32) : Books ops a := by
  obtain blank | ⟨t', R', ops', admitted', -, books⟩ := run.books
  · obtain ⟨ev, h⟩ := blank.log _ admitted
    cases h
  · obtain ⟨-, -, rfl⟩ := run.course.admitted_once admitted admitted'
    exact books small

end Hux
