import Hux.Books

/-!
# Completions against submissions

What a request's completed count, its seal and its error say while it is in
flight (`Flight`), and what is certain once a thread has claimed it (`Drained`):
nothing of it is left to post and everything that was taken has been reported.
Providers are `Honest`: they report what they took, each operation once.
-/

namespace Hux
open Interleave (Tid weigh weigh_add weigh_singleton weigh_eq_zero weigh_mono)

/-- Operation by operation, no more reports than submissions. -/
def Honest (log : List (Tid × Event)) : Prop :=
  ((reports log).map (·.subId) : Multiset Nat) ≤ (takenOps log).map (·.subId)

theorem Honest.length_le {log : List (Tid × Event)} (honest : Honest log) :
    (reports log).length ≤ (takenOps log).length := by
  simpa using Multiset.card_le_card honest

/-- As many reports as submissions means one for each. -/
theorem Honest.perm {log : List (Tid × Event)} (honest : Honest log)
    (even : (reports log).length = (takenOps log).length) :
    ((reports log).map (·.subId)).Perm ((takenOps log).map (·.subId)) :=
  Multiset.coe_eq_coe.mp (Multiset.eq_of_le_of_card_le honest (by simp [even]))

def CompletionEvent.bad (ev : CompletionEvent) : Bool := ev.status ≠ .ok

namespace Res

/-- Reported and not counted yet. -/
@[simp] def undelivered : Res → Nat
  | .event _ | .found _ => 1
  | _ => 0

/-- Those of them with an error. -/
@[simp] def badNews : Res → Nat
  | .event ev | .found ev => ev.bad.toNat
  | _ => 0

/-- A thread that saw the request abandoned. -/
@[simp] def stopping : Res → Nat
  | .abandoned _ | .idle _ => 1
  | _ => 0

@[simp] def idles : Res → Nat
  | .idle _ => 1
  | _ => 0

@[simp] def lasts : Res → Nat
  | .lastEvent _ => 1
  | _ => 0

/-- A thread that claimed the request and has not read the cancel flag; and one
that read it not set and has not read the error. -/
@[simp] def unread : Res → Nat
  | .ending _ _ (.claimed _) => 1
  | _ => 0

@[simp] def uncancelled : Res → Nat
  | .ending _ _ (.uncancelled _) => 1
  | _ => 0

end Res

/-! ## In flight -/

/-- Whatever has not gone out must not go out. -/
def Request.Stopped (r : Request) : Prop := r.cancelRequested = true ∨ r.error.ok = false

/-- What the last completion is measured against has been reached. -/
def Request.Reached (r : Request) : Prop :=
  r.totalSubops ≤ r.completedSubops ∨ r.sealed = true ∧ r.acceptedSubops ≤ r.completedSubops

structure Flight (a : Life) : Prop where
  counted : (reports a.log).length = a.req.completedSubops + weigh Res.undelivered a.tokens
  clean : a.req.error.ok = true →
    (reports a.log).countP (·.bad) = weigh Res.badNews a.tokens
  stopping : 0 < weigh Res.stopping a.tokens → a.req.Stopped
  sealed : a.req.sealed = true → a.req.Stopped
  idle : 0 < weigh Res.idles a.tokens →
    a.req.sealed = true ∧ a.req.acceptedSubops ≤ a.req.completedSubops
  last : 0 < weigh Res.lasts a.tokens → a.req.Reached

/-- Once claimed. -/
structure Drained (ops : List SubOp) (a : Life) : Prop where
  left : weigh Res.left a.tokens = 0
  even : (reports a.log).length = (takenOps a.log).length
  delivered : weigh Res.undelivered a.tokens = 0
  clean : a.req.error.ok = true → (reports a.log).countP (·.bad) = 0
  unread : 0 < weigh Res.unread a.tokens → a.req.Stopped ∨ (takenOps a.log).length = ops.length
  uncancelled : 0 < weigh Res.uncancelled a.tokens →
    a.req.error.ok = false ∨ (takenOps a.log).length = ops.length

/-- What is claimed with its last completion, or found idle when the last lane
gave up, has nothing outstanding. -/
theorem Flight.nothing_outstanding {ops : List SubOp} {a : Life} (flight : Flight a)
    (books : Books ops a) (flies : a.flying = true) (honest : Honest a.log)
    (reached : a.req.Reached) :
    weigh Res.left a.tokens = 0 ∧ (reports a.log).length = (takenOps a.log).length ∧
      weigh Res.undelivered a.tokens = 0 ∧
      (a.req.Stopped ∨ (takenOps a.log).length = ops.length) := by
  have taken := books.taken_le
  have reported := honest.length_le
  have counted := flight.counted
  have total := books.total
  rcases reached with all | ⟨sealed, accepted⟩
  · have none : (weigh Res.left a.tokens).card = 0 := by omega
    exact ⟨Multiset.card_eq_zero.mp none, by omega, by omega, .inr (by omega)⟩
  · obtain ⟨live, whole⟩ := books.sealed flies sealed
    obtain ⟨left, untold⟩ := none_left live whole
    have added := books.added
    exact ⟨left, by omega, by omega, .inl (flight.sealed sealed)⟩

/-- What of the object the accounts in flight are about. -/
def Request.account (r : Request) : Nat × Nat × Nat × Bool :=
  (r.totalSubops, r.acceptedSubops, r.completedSubops, r.sealed)

/-- An error and a cancellation are never taken back. -/
structure Request.Worsens (r r' : Request) : Prop where
  error : r'.error.ok = true → r.error.ok = true
  cancelled : r.cancelRequested = true → r'.cancelRequested = true

theorem Request.Worsens.refl (r : Request) : r.Worsens r := ⟨id, id⟩

section
variable {ops : List SubOp} {t : Tid} {q : RequestId} {r r' : Request} {fl fl' : Bool}
  {F X X' : Multiset Res} {log log' : List (Tid × Event)}

theorem Request.Worsens.failed (worsens : r.Worsens r') (bad : r.error.ok = false) :
    r'.error.ok = false := by
  by_contra ok
  simp [worsens.error (by simpa using ok)] at bad

theorem Request.Stopped.mono (worsens : r.Worsens r') (stopped : r.Stopped) : r'.Stopped :=
  stopped.imp worsens.cancelled worsens.failed

theorem Flight.mono (flight : Flight ⟨r, fl, F + X, log⟩) (same : r'.account = r.account)
    (worsens : r.Worsens r') (reported : reports log' = reports log)
    (undelivered : weigh Res.undelivered X' = weigh Res.undelivered X)
    (bad : weigh Res.badNews X' = weigh Res.badNews X)
    (stopping : weigh Res.stopping X' ≤ weigh Res.stopping X)
    (idles : weigh Res.idles X' ≤ weigh Res.idles X)
    (lasts : weigh Res.lasts X' ≤ weigh Res.lasts X) : Flight ⟨r', fl', F + X', log'⟩ := by
  obtain ⟨total, accepted, completed, sealed⟩ : r'.totalSubops = r.totalSubops ∧
      r'.acceptedSubops = r.acceptedSubops ∧ r'.completedSubops = r.completedSubops ∧
      r'.sealed = r.sealed := by
    simpa [Request.account] using same
  obtain ⟨hcounted, hclean, hstopping, hsealed, hidle, hlast⟩ := flight
  simp only [weigh_add] at hcounted hclean hstopping hidle hlast
  refine ⟨?_, ?_, ?_, ?_, ?_, ?_⟩ <;>
    simp only [weigh_add, Request.Reached, reported, undelivered, bad, total, accepted, completed,
      sealed]
  · exact hcounted
  · exact fun ok => hclean (worsens.error ok)
  · exact fun h => (hstopping (by omega)).mono worsens
  · exact fun h => (hsealed h).mono worsens
  · exact fun h => hidle (by omega)
  · exact fun h => hlast (by omega)

theorem Drained.mono (drained : Drained ops ⟨r, fl, F + X, log⟩)
    (worsens : r.Worsens r') (reported : reports log' = reports log)
    (taken : takenOps log' = takenOps log) (left : weigh Res.left X' ≤ weigh Res.left X)
    (undelivered : weigh Res.undelivered X' ≤ weigh Res.undelivered X)
    (unread : weigh Res.unread X' ≤ weigh Res.unread X)
    (uncancelled : weigh Res.uncancelled X' ≤ weigh Res.uncancelled X) :
    Drained ops ⟨r', fl', F + X', log'⟩ := by
  obtain ⟨hleft, heven, hdelivered, hclean, hunread, huncancelled⟩ := drained
  simp only [weigh_add] at hleft hdelivered hunread huncancelled
  refine ⟨?_, ?_, ?_, ?_, ?_, ?_⟩ <;> simp only [weigh_add, reported, taken]
  · exact Multiset.le_zero.mp (hleft ▸ add_le_add_right left _)
  · exact heven
  · omega
  · exact fun ok => hclean (worsens.error ok)
  · exact fun h => (hunread (by omega)).imp_left (·.mono worsens)
  · exact fun h => (huncancelled (by omega)).imp_left worsens.failed

/-! ## Once claimed -/

namespace Request

theorem worsens_setState (s : RequestState) : r.Worsens (r.setState s) := by
  rw [r.setState_eq]
  exact ⟨id, id⟩

theorem worsens_noteError (e : ErrorInfo) : r.Worsens (r.noteError e) := by
  rw [r.noteError_eq]
  refine ⟨fun ok => ?_, id⟩
  dsimp only at ok
  split at ok
  · exact ok
  · rename_i h
    simp [ok] at h

theorem worsens_complete (ev : CompletionEvent) : r.Worsens (r.onSubopComplete ev).2 := by
  cases live : r.terminal with
  | true =>
    rw [r.onSubopComplete_terminal ev live]
    exact .refl r
  | false =>
    rw [r.onSubopComplete_live ev live]
    refine ⟨fun ok => ?_, id⟩
    dsimp only at ok
    split at ok
    · exact ok
    · rename_i h
      simp_all [eventError, ErrorInfo.ok]

theorem worsens_cancel (live : r.terminal = false) : r.Worsens r.cancel.2 := by
  rw [r.cancel_live live]
  exact ⟨id, fun _ => rfl⟩

theorem worsens_finishes {o : Outcome} {reaped : Bool} (how : Finishes o reaped r r') :
    r.Worsens r' := by
  refine ⟨fun ok => ?_, by rw [finishes_eq how]; exact id⟩
  cases live : r.terminal with
  | true => rwa [finishes_terminal how live] at ok
  | false =>
    cases o with
    | succeeded => rwa [show r' = _ from how, r.finishSuccess_live live] at ok
    | failed =>
      obtain ⟨e, rfl, -⟩ := how
      rw [r.fail_live e live] at ok
      dsimp only at ok
      split at ok
      · exact ok
      · rename_i h
        simp [ok] at h
    | cancelled => rwa [show r' = _ from how, r.finishCancelled_live live] at ok

end Request

variable {x : Res}

/-- Nobody has a lane's work any more. -/
theorem Drained.none_left (drained : Drained ops ⟨r, fl, F + {x}, log⟩) : x.left = 0 := by
  have := drained.left
  simp only [weigh_add, weigh_singleton] at this
  exact (add_eq_zero.mp this).2

/-- Nor an event. -/
theorem Drained.none_undelivered (drained : Drained ops ⟨r, fl, F + {x}, log⟩) :
    x.undelivered = 0 := by
  have := drained.delivered
  simp only [weigh_add, weigh_singleton] at this
  omega

variable {a b : Life}

theorem Drained.step (small : ops.length < 2 ^ 32) (step : LifeStep t q a b)
    (grounded : a.flying = false) (past : .ticket q ∉ a.tokens) (books : Books ops a)
    (honest : Honest b.log) (drained : Drained ops a) : Drained ops b := by
  cases step with
  | @deed r r' fl fl' F X X' log evs deed =>
    have still (h : evs.filterMap Event.takenOp = []) :
        takenOps (evs.map (t, ·) ++ ((changes (.transfer q) r r').map (t, ·) ++ log)) =
          takenOps log := by
      rw [takenOps_deed, h, List.nil_append]
    have silent :
        reports (evs.map (t, ·) ++ ((changes (.transfer q) r r').map (t, ·) ++ log)) =
          reports log := by
      rw [reports_deed, deed.unreported, List.nil_append]
    cases deed with
    | admission => simp at past
    | split all =>
      subst all
      refine drained.mono ⟨id, id⟩ silent (still rfl) ?_ ?_ ?_ ?_
      · simp [left_work]
      all_goals exact (weigh_work (fun _ => rfl) _).trans_le (Nat.zero_le _)
    | noteError =>
      have none := drained.none_left
      simp [PendingSubmit.left] at none
    | @offer _ p n op taken mine next =>
      have none : p.ops.drop n = [] := by simpa using drained.none_left
      rw [List.drop_eq_nil_iff, ← List.getElem?_eq_none_iff, next] at none
      cases none
    | dropEvent | find | complete =>
      have none := drained.none_undelivered
      simp at none
    | claim => cases grounded
    | setState mine held =>
      exact drained.mono (Request.worsens_setState _) silent (still rfl) le_rfl le_rfl le_rfl le_rfl
    | @settle _ p n mine =>
      have few : u32 n = n := books.untold_small small (p := p) (by simp)
      rw [few] at still silent ⊢
      refine drained.mono ⟨id, id⟩ silent (still rfl) ?_ ?_ ?_ ?_ <;> rw [weigh_singleton]
      · rw [settled_left, weigh_singleton]
        exact le_rfl
      all_goals
        refine le_of_eq_of_le (settled_weight (c := 0) (fun _ => rfl) (fun _ => rfl) p n) ?_
        exact Nat.zero_le _
    | finishPart lane =>
      refine drained.mono ⟨id, id⟩ silent (still rfl) ?_ ?_ ?_ ?_ <;>
      split <;> simp
    | missed last =>
      refine drained.mono ⟨id, id⟩ silent (still rfl) ?_ ?_ ?_ ?_ <;> simp
    | sealIfIdle | readError =>
      refine drained.mono ⟨id, id⟩ silent (still rfl) ?_ ?_ ?_ ?_ <;>
      split <;> simp
    | readCancel =>
      obtain ⟨hleft, heven, hdelivered, hclean, hunread, huncancelled⟩ := drained
      simp only [weigh_add, weigh_singleton, Res.left, Res.undelivered, Res.unread,
        Res.uncancelled] at hleft hdelivered hunread huncancelled
      refine ⟨?_, ?_, ?_, ?_, ?_, ?_⟩ <;> simp only [weigh_add, weigh_singleton, silent, still rfl]
      · exact hleft
      · exact heven
      · exact hdelivered
      · exact hclean
      · intro
        exact hunread (by omega)
      · cases flag : r.cancelRequested with
        | true =>
          intro h
          exact huncancelled (by simpa [flag] using h)
        | false =>
          intro h
          rcases hunread (by omega) with (stopped | bad) | all
          · simp [flag] at stopped
          · exact .inl bad
          · exact .inr all
    | finish how =>
      refine drained.mono (Request.worsens_finishes how) silent (still rfl) ?_ ?_ ?_ ?_ <;>
        simp
    | cancel made live =>
      exact drained.mono (Request.worsens_cancel live) silent (still rfl) le_rfl le_rfl
        le_rfl le_rfl
    | sealReaped | mark =>
      exact drained.mono ⟨id, id⟩ silent (still rfl) le_rfl le_rfl le_rfl le_rfl
    | _ =>
      refine drained.mono ⟨id, id⟩ silent (still rfl) ?_ ?_ ?_ ?_ <;>
        simp
  | land =>
    refine drained.mono ⟨id, id⟩ rfl rfl ?_ ?_ ?_ ?_ <;>
      simp
  | @report r fl F log evs mine =>
    -- a provider that reported everything it took can report no more
    have more := honest.length_le
    rw [reports_reported, takenOps_reported, List.length_append] at more
    have even : (reports log).length = (takenOps log).length := drained.even
    obtain rfl : evs = [] := List.length_eq_zero_iff.mp (by omega)
    simpa [events] using drained
  | reap => cases grounded
  | giveAway => simp at past

/-! ## While in flight -/

theorem undelivered_events (evs : List CompletionEvent) :
    weigh Res.undelivered (events evs) = evs.length := by
  simp [weigh, events, Function.comp_def]

theorem badNews_events (evs : List CompletionEvent) :
    weigh Res.badNews (events evs) = evs.countP (·.bad) := by
  induction evs with
  | nil => rfl
  | cons ev rest ih =>
    rw [events_cons, weigh_add, ih, weigh_singleton, List.countP_cons]
    cases h : ev.bad <;> simp [h]

theorem Flight.of_settle {p : PendingSubmit} {n m : Nat}
    (books : Books ops ⟨r, true, F + {.posting p n}, log⟩)
    (reported : reports log' = reports log) (flight : Flight ⟨r, true, F + {.posting p n}, log⟩) :
    Flight ⟨r.addAcceptedSubops m, true, F + {settled p m}, log'⟩ := by
  have unsealed : r.sealed = false := by
    by_contra sealed
    have := (books.sealed rfl (by simpa using sealed)).1
    simp at this
  obtain ⟨hcounted, hclean, hstopping, hsealed, hidle, hlast⟩ := flight
  simp only [weigh_add, weigh_singleton, Res.undelivered, Res.badNews, Res.stopping, Res.idles,
    Res.lasts, add_zero] at hcounted hclean hstopping hidle hlast
  refine ⟨?_, ?_, ?_, ?_, ?_, ?_⟩ <;>
    simp only [weigh_add, weigh_singleton, reported, add_zero,
      settled_weight (f := Res.undelivered) (fun _ => rfl) (fun _ => rfl),
      settled_weight (f := Res.badNews) (fun _ => rfl) (fun _ => rfl),
      settled_weight (f := Res.stopping) (fun _ => rfl) (fun _ => rfl),
      settled_weight (f := Res.idles) (fun _ => rfl) (fun _ => rfl),
      settled_weight (f := Res.lasts) (fun _ => rfl) (fun _ => rfl)]
  · exact hcounted
  · exact hclean
  · exact hstopping
  · exact hsealed
  · intro h
    simp [unsealed] at hidle
    omega
  · intro h
    rcases hlast h with all | ⟨sealed, -⟩
    · exact .inl all
    · simp [unsealed] at sealed

theorem Flight.of_sealIfIdle (reported : reports log' = reports log)
    (flight : Flight ⟨r, true, F + {.abandoned q}, log⟩) :
    Flight ⟨r.sealIfIdle.2, true, F + (if r.sealIfIdle.1 then {.idle q} else 0), log'⟩ := by
  obtain ⟨hcounted, hclean, hstopping, hsealed, hidle, hlast⟩ := flight
  simp only [weigh_add, weigh_singleton, Res.undelivered, Res.badNews, Res.stopping, Res.idles,
    Res.lasts, add_zero] at hcounted hclean hstopping hidle hlast
  have stopped : r.sealIfIdle.2.Stopped := hstopping (by omega)
  have reached (h : 0 < weigh Res.lasts F) : r.sealIfIdle.2.Reached := by
    rcases hlast h with all | ⟨-, idle⟩
    exacts [.inl all, .inr ⟨rfl, idle⟩]
  cases idle : r.sealIfIdle.1 with
  | false =>
    simp only [Bool.false_eq_true, if_false, add_zero]
    refine ⟨reported ▸ hcounted, reported ▸ hclean, fun _ => stopped, fun _ => stopped, ?_, reached⟩
    exact fun h => ⟨rfl, (hidle h).2⟩
  | true =>
    have settled : r.acceptedSubops ≤ r.completedSubops := by
      simp only [Request.sealIfIdle, Bool.and_eq_true, decide_eq_true_eq] at idle
      exact idle.2
    simp only [if_true]
    refine ⟨?_, ?_, fun _ => stopped, fun _ => stopped, fun _ => ⟨rfl, settled⟩, ?_⟩ <;>
      simp only [weigh_add, weigh_singleton, Res.undelivered, Res.badNews, Res.lasts, add_zero,
        reported]
    exacts [hcounted, hclean, reached]

theorem Flight.of_complete {ev : CompletionEvent} (small : ops.length < 2 ^ 32)
    (books : Books ops ⟨r, true, F + {.found ev}, log⟩) (honest : Honest log)
    (live : r.terminal = false) (reported : reports log' = reports log)
    (flight : Flight ⟨r, true, F + {.found ev}, log⟩) :
    Flight ⟨(r.onSubopComplete ev).2, true,
      F + (if (r.onSubopComplete ev).1 then {.lastEvent q} else 0), log'⟩ := by
  have taken := books.taken_le
  have few := honest.length_le
  obtain ⟨hcounted, hclean, hstopping, hsealed, hidle, hlast⟩ := flight
  simp only [weigh_add, weigh_singleton, Res.undelivered, Res.badNews, Res.stopping, Res.idles,
    Res.lasts, add_zero] at hcounted hclean hstopping hidle hlast
  dsimp only at taken
  have next : u32 (r.completedSubops + 1) = r.completedSubops + 1 := u32_of_lt (by omega)
  have worsens := Request.worsens_complete (r := r) ev
  have last := r.onSubopComplete_last ev live
  have eq := r.onSubopComplete_live ev live
  rw [next] at last eq
  have completed : (r.onSubopComplete ev).2.completedSubops = r.completedSubops + 1 := by rw [eq]
  have sealed : (r.onSubopComplete ev).2.sealed = r.sealed := by rw [eq]
  have accepted : (r.onSubopComplete ev).2.acceptedSubops = r.acceptedSubops := by rw [eq]
  have total : (r.onSubopComplete ev).2.totalSubops = r.totalSubops := by rw [eq]
  -- a request without an error has just been told of none
  have fine (ok : (r.onSubopComplete ev).2.error.ok = true) : ev.bad = false := by
    have before := worsens.error ok
    rw [eq] at ok
    by_contra bad
    simp_all [CompletionEvent.bad, Request.eventError, ErrorInfo.ok]
  have light {f : Res → Nat} (h : f (.lastEvent q) = 0) :
      weigh f (if (r.onSubopComplete ev).1 then {.lastEvent q} else 0) = 0 := by
    split <;> simp [h]
  refine ⟨?_, fun ok => ?_, fun h => ?_, fun h => ?_, fun h => ?_, fun h => ?_⟩
  · rw [weigh_add, light rfl, reported, completed]
    omega
  · have same := hclean (worsens.error ok)
    rw [weigh_add, light rfl, reported]
    simp only [fine ok, Bool.toNat_false, add_zero] at same ⊢
    exact same
  · rw [weigh_add, light rfl] at h
    exact (hstopping h).mono worsens
  · exact (hsealed (sealed ▸ h)).mono worsens
  · rw [weigh_add, light rfl] at h
    have idle := hidle h
    rw [sealed, accepted, completed]
    exact ⟨idle.1, by omega⟩
  · unfold Request.Reached
    rw [sealed, accepted, completed, total]
    by_cases done : (r.onSubopComplete ev).1 = true
    · rw [last, decide_eq_true_eq] at done
      split at done
      · rename_i sealed
        exact .inr ⟨sealed, done⟩
      · exact .inl done
    · rw [if_neg done, add_zero] at h
      rcases hlast h with all | ⟨sealed, idle⟩
      · exact .inl (by omega)
      · exact .inr ⟨sealed, by omega⟩

theorem Flight.step (small : ops.length < 2 ^ 32) (step : LifeStep t q a b)
    (flies : a.flying = true) (after : b.flying = true) (live : a.req.terminal = false)
    (free : ∀ x ∈ a.tokens, x.decisive = false) (books : Books ops a) (honest : Honest a.log)
    (flight : Flight a) : Flight b := by
  cases step with
  | @deed r r' fl fl' F X X' log evs deed =>
    have silent :
        reports (evs.map (t, ·) ++ ((changes (.transfer q) r r').map (t, ·) ++ log)) =
          reports log := by
      rw [reports_deed, deed.unreported, List.nil_append]
    have not_decisive {x : Res} (h : x ∈ X) : x.decisive = false :=
      free x (Multiset.mem_add.mpr (.inr h))
    obtain rfl : fl = true := flies
    cases deed with
    | split all =>
      subst all
      refine flight.mono rfl ⟨id, id⟩ silent ?_ ?_ ?_ ?_ ?_ <;>
        rw [weigh_work (fun _ => rfl)] <;> simp
    | setState mine held =>
      exact flight.mono (by rw [r.setState_eq]; rfl) (Request.worsens_setState _) silent rfl
        rfl le_rfl le_rfl le_rfl
    | noteError =>
      exact flight.mono (by rw [r.noteError_eq]; rfl) (Request.worsens_noteError _) silent rfl rfl
        le_rfl le_rfl le_rfl
    | settle => exact flight.of_settle books silent
    | finishPart lane =>
      refine flight.mono rfl ⟨id, id⟩ silent ?_ ?_ ?_ ?_ ?_ <;>
        obtain rfl | ⟨p, -, rfl⟩ := lane <;> split <;>
        simp
    | sawAbandoning abandoned =>
      have stopped : r.Stopped := by
        have live : r.terminal = false := live
        simpa [Request.abandoning, live, Request.Stopped] using abandoned
      obtain ⟨hcounted, hclean, -, hsealed, hidle, hlast⟩ := flight
      simp only [weigh_add, weigh_singleton, Res.undelivered, Res.badNews, Res.idles, Res.lasts]
        at hcounted hclean hidle hlast
      refine ⟨?_, ?_, fun _ => stopped, fun _ => stopped, ?_, ?_⟩ <;>
        simp only [silent, weigh_add, weigh_singleton, Res.undelivered, Res.badNews, Res.idles,
          Res.lasts]
      exacts [hcounted, hclean, hidle, hlast]
    | sealIfIdle => exact flight.of_sealIfIdle silent
    | claim => cases after
    | admission | readCancel | readError | count | mark | handoff | sealReaped | finish | publish =>
      cases not_decisive (Multiset.mem_singleton_self _)
    | complete => exact flight.of_complete small books honest live silent
    | cancel made =>
      exact flight.mono (by rw [r.cancel_live live]; rfl) (Request.worsens_cancel live)
        silent rfl rfl le_rfl le_rfl le_rfl
    | offer =>
      refine flight.mono rfl (.refl _) silent ?_ ?_ ?_ ?_ ?_ <;> split <;>
        simp
    | _ =>
      refine flight.mono rfl (.refl _) silent ?_ ?_ ?_ ?_ ?_ <;>
        simp
  | land =>
    refine flight.mono rfl (.refl _) rfl ?_ ?_ ?_ ?_ ?_ <;>
      simp
  | @report r fl F log evs mine =>
    have none {f : Res → Nat} (h : ∀ ev, f (.event ev) = 0) : weigh f (events evs) = 0 :=
      weigh_events h evs
    obtain ⟨hcounted, hclean, hstopping, hsealed, hidle, hlast⟩ := flight
    dsimp only at hcounted hclean hstopping hsealed hidle hlast
    refine ⟨?_, fun ok => ?_, ?_, hsealed, ?_, ?_⟩ <;>
      simp only [weigh_add, undelivered_events, badNews_events, reports_reported,
        List.length_append, List.countP_append, none (f := Res.stopping) fun _ => rfl,
        none (f := Res.idles) fun _ => rfl, none (f := Res.lasts) fun _ => rfl, add_zero]
    · omega
    · have := hclean ok
      omega
    exacts [hstopping, hidle, hlast]
  | reap => cases after
  | giveAway => cases free (.ticket q) (by simp)

theorem badNews_le (x : Res) : x.badNews ≤ x.undelivered := by
  cases x <;> simp [Bool.toNat_le]

/-- Claiming a request that was found complete or idle. -/
theorem Flight.claim {idle : Bool} (last : x = .idle q ∨ x = .lastEvent q)
    (books : Books ops ⟨r, true, F + {x}, log⟩) (honest : Honest log)
    (reported : reports log' = reports log) (taken : takenOps log' = takenOps log)
    (free : ∀ x ∈ F, x.decisive = false) (flight : Flight ⟨r, true, F + {x}, log⟩) :
    Drained ops ⟨r, false, F + {.ending t q (.claimed idle)}, log'⟩ := by
  have reached : r.Reached := by
    obtain rfl | rfl := last
    · exact .inr (flight.idle (by simp))
    · exact flight.last (by simp)
  obtain ⟨left, even, delivered, all⟩ := flight.nothing_outstanding books rfl honest reached
  have weightless : x.left = 0 ∧ x.undelivered = 0 ∧ x.badNews = 0 := by
    obtain rfl | rfl := last <;> simp
  simp only [weigh_add, weigh_singleton, weightless, add_zero] at left delivered
  refine ⟨?_, ?_, ?_, fun ok => ?_, fun _ => ?_, fun h => ?_⟩
  · simpa using left
  · simpa [reported, taken] using even
  · simpa using delivered
  · have bad := flight.clean ok
    have fewer : weigh Res.badNews F ≤ weigh Res.undelivered F := weigh_mono badNews_le F
    simp only [weigh_add, weigh_singleton, weightless, add_zero] at bad
    rw [reported]
    omega
  · simpa [taken] using all
  · have none : weigh Res.uncancelled F = 0 := weigh_eq_zero fun x hx => by
      have := free x hx
      cases x <;> simp_all
    simp [none] at h

/-! ## Over a whole life -/

theorem Deed.undelivered_le {evs : List Event} (deed : Deed t q r fl X r' fl' X' evs) :
    weigh Res.undelivered X' ≤ weigh Res.undelivered X := by
  cases deed with
  | split => exact (weigh_work (fun _ => rfl) _).trans_le (Nat.zero_le _)
  | settle =>
    rw [weigh_singleton, settled_weight (f := Res.undelivered) (fun _ => rfl) (fun _ => rfl)]
    exact Nat.zero_le _
  | offer | finishPart | sealIfIdle | complete => split <;> simp
  | setState => exact le_rfl
  | _ => simp

variable {ok : View → View → Prop}

theorem LifeRun.undelivered_le (run : LifeRun ok q a) :
    weigh Res.undelivered a.tokens ≤ (reports a.log).length := by
  induction run with
  | start => exact Nat.zero_le _
  | number _ _ ih => simpa using ih
  | step t _ step _ ih =>
    cases step with
    | deed deed =>
      have := deed.undelivered_le
      rw [reports_deed, deed.unreported]
      simp only [weigh_add, List.nil_append] at ih ⊢
      omega
    | land => simpa using ih
    | report =>
      simp only [weigh_add, undelivered_events, reports_reported, List.length_append] at ih ⊢
      omega
    | reap => simpa [reports, Event.report] using ih
    | giveAway => simpa using ih

theorem LifeRun.honest (honest : ∀ v v', ok v v' → Honest v'.log) (run : LifeRun ok q a) :
    Honest a.log := by
  induction run with
  | start => exact le_rfl
  | number _ _ ih => exact ih
  | step _ _ _ allowed _ => exact honest _ _ allowed

theorem Course.free (course : Course q a.gist) (flies : a.flying = true) :
    (∀ x ∈ a.tokens, x.decisive = false) ∧ a.req.terminal = false ∧
      ∀ t, (t, .claimed q) ∉ a.log := by
  have flying : a.gist.flying = true := flies
  have hand : hand a.tokens = a.gist.hand := rfl
  have final : a.req.final = a.gist.final := rfl
  have log : milestones a.log = a.gist.log := rfl
  generalize a.gist = g at course flying hand final log
  cases course with
  | flying s =>
    refine ⟨fun x hx => ?_, ?_, fun t h => ?_⟩
    · by_contra decisive
      have : x ∈ Hux.hand a.tokens := Multiset.mem_filter.mpr ⟨hx, by simpa using decisive⟩
      simp [hand] at this
    · by_contra finished
      simp [Request.final, finished] at final
    · have : (t, .claimed q) ∈ milestones a.log := List.mem_filter.mpr ⟨h, rfl⟩
      simp [log, Story.past, Story.lines] at this
  | _ => cases flying

theorem Flight.admitted {r₀ : Request} (blank : Blank q ⟨r₀, fl, F + {.ticket q}, log⟩)
    (none : weigh Res.undelivered F = 0) (silent : reports log' = []) (new : r.New ops) :
    Flight ⟨r, true, F + ({.admittedBy t q r.heldRegions} + {.unsplit q ops} + {.uncounted q}),
      log'⟩ := by
  have stopping := blank.weightless rfl (f := Res.stopping) rfl fun _ => rfl
  have idles := blank.weightless rfl (f := Res.idles) rfl fun _ => rfl
  have lasts := blank.weightless rfl (f := Res.lasts) rfl fun _ => rfl
  have bad : weigh Res.badNews F = 0 := Nat.le_zero.mp (none ▸ weigh_mono badNews_le F)
  refine ⟨?_, fun _ => ?_, ?_, ?_, ?_, ?_⟩ <;>
    simp only [weigh_add, weigh_singleton, none, bad, stopping, idles, lasts, silent,
      Res.undelivered, Res.badNews, Res.stopping, Res.idles, Res.lasts, new.completed,
      new.unsealed]
  all_goals simp

theorem LifeStep.flew (step : LifeStep t q a b) (used : .ticket q ∉ a.tokens)
    (flies : b.flying = true) : a.flying = true := by
  cases step with
  | deed deed =>
    cases deed with
    | admission => simp at used
    | claim | missed | dropEvent => cases flies
    | find => rfl
    | _ => exact flies
  | reap => rfl
  | land | report | giveAway => exact flies

/-- The step that takes a request out, from what the accounts said before it. -/
theorem LifeStep.drains (step : LifeStep t q a b) {u : Tid} (claimed : (u, .claimed q) ∈ b.log)
    (first : (u, .claimed q) ∉ a.log) (course : Course q a.gist) (books : Books ops a)
    (honest : Honest a.log) (flight : a.flying = true → Flight a) : Drained ops b := by
  obtain ⟨r, r', fl, fl', F, X, X', log, evs, deed, rfl, rfl, told⟩ := step.told claimed first rfl
  cases deed with
  | claim last =>
    have free := (course.free rfl).1
    refine (flight rfl).claim (last.imp And.left And.left) books honest ?_ ?_ fun x hx =>
      free x (by simp [hx])
    · rw [reports_deed]
      rfl
    · rw [takenOps_deed]
      rfl
  | _ => simp at told

theorem LifeStep.takesOff (step : LifeStep t q a b) {u : Tid} {R : List RegionId}
    (admitted : (u, .admitted q R ops) ∈ b.log) (blank : Blank q a)
    (none : weigh Res.undelivered a.tokens = 0) (silent : reports a.log = []) :
    b.flying = true ∧ Flight b := by
  have first : (u, .admitted q R ops) ∉ a.log := fun h => by
    obtain ⟨ev, h⟩ := blank.log _ h
    cases h
  obtain ⟨r, r', fl, fl', F, X, X', log, evs, deed, rfl, rfl, told⟩ := step.told admitted first rfl
  have quiet := reports_deed t q r r' evs log
  cases deed with
  | admission new =>
    refine ⟨rfl, Flight.admitted blank ?_ ?_ new⟩
    · simpa using none
    · exact quiet.trans silent
  | _ => simp at told

/-- With honest providers: in flight the accounts hold, and once claimed the
request is drained. -/
theorem LifeRun.delivery (honest : ∀ v v', ok v v' → Honest v'.log) (run : LifeRun ok q a)
    {t₀ : Tid} {R : List RegionId} (admitted : (t₀, .admitted q R ops) ∈ a.log)
    (small : ops.length < 2 ^ 32) :
    (a.flying = true → Flight a) ∧ ((∃ t, (t, .claimed q) ∈ a.log) → Drained ops a) := by
  induction run with
  | start => simp [Life.start] at admitted
  | number _ untouched =>
    obtain ⟨ev, h⟩ := untouched.log _ admitted
    cases h
  | @step a b t run step allowed ih =>
    obtain blank | ⟨t₁, R₁, ops₁, earlier, -⟩ := run.books
    · -- admitted by this very step
      have honest := run.honest honest
      have silent : reports a.log = [] := List.eq_nil_of_length_eq_zero <| Nat.le_zero.mp <| by
        simpa [blank.takenOps] using honest.length_le
      have none := run.undelivered_le
      rw [silent, List.length_nil, Nat.le_zero] at none
      have course := (run.step t step allowed).course
      obtain ⟨flies, flight⟩ := step.takesOff admitted blank none silent
      refine ⟨fun _ => flight, ?_⟩
      rintro ⟨u, claimed⟩
      exact absurd claimed ((course.free flies).2.2 u)
    · obtain ⟨rfl, rfl, rfl⟩ := (run.step t step allowed).course.admitted_once admitted
        (step.log_grows _ earlier)
      obtain ⟨flight, drained⟩ := ih earlier
      have books := run.books_of earlier small
      have past := run.course.past earlier
      have before := run.honest honest
      refine ⟨fun flies => ?_, ?_⟩
      · have flew := step.flew past flies
        obtain ⟨free, live, -⟩ := run.course.free flew
        exact (flight flew).step small step flew flies live free books before
      · rintro ⟨u, claimed⟩
        by_cases first : (u, .claimed q) ∈ a.log
        · have grounded : a.flying = false := by
            by_contra flew
            exact (run.course.free (by simpa using flew)).2.2 u first
          exact (drained ⟨u, first⟩).step small step grounded past books (honest _ _ allowed)
        · exact step.drains claimed first run.course books before flight

end

end Hux
