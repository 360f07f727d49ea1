import Hux.Stages

/-!
# What a failed write says about its target

* a request fails with a reason (`LifeRun.reason`);
* the first error stays, and says whether the target may have been modified, as
  the news it is for or the reaper has it (`Deed.first_error`);
* news that does not set the flag is timely if nothing of the write may have
  arrived or be on its way (`News.Timely`, `Harmless`);
* under that condition a failed write never hides a modified target
  (`failed_writes_are_flagged`); without it, it can
  (`failed_write_hides_modified_target`);
* no operation is taken twice, whatever the providers do (`operations_are_taken_once`).
-/

namespace Hux
open Interleave (Tid Run Pool weigh weigh_add weigh_singleton le_weigh)
open Multiset (mem_add mem_singleton mem_coe)

section
variable {ops : List SubOp} {t : Tid} {q : RequestId} {r r' : Request} {fl fl' : Bool}
  {F X X' : Multiset Res} {log log' : List (Tid × Event)} {a b : Life} {evs : List Event}

/-! ## Every failure has a reason -/

/-- But for a new request, errors, cancellations and the end stay. -/
theorem Deed.lasting (deed : Deed t q r fl X r' fl' X' evs) (used : .ticket q ∉ X) :
    r.Worsens r' ∧ (r.terminal = true → r'.terminal = true) := by
  cases deed with
  | admission => simp at used
  | setState _ _ going =>
    refine ⟨Request.worsens_setState _, fun finished => ?_⟩
    simp [Request.setState, finished]
  | noteError =>
    refine ⟨Request.worsens_noteError _, fun finished => ?_⟩
    simp [Request.noteError, finished]
  | finish how =>
    refine ⟨Request.worsens_finishes how, fun finished => ?_⟩
    rw [Request.finishes_terminal how finished, finished]
  | complete =>
    refine ⟨Request.worsens_complete _, fun finished => ?_⟩
    rw [r.onSubopComplete_terminal _ finished, finished]
  | cancel _ live =>
    refine ⟨Request.worsens_cancel live, fun finished => ?_⟩
    simp [live] at finished
  | _ => exact ⟨⟨id, id⟩, id⟩

/-- Held by a thread that saw the request abandoned; that claimed it as such; and
that will fail it for the error it has. -/
@[simp] def Res.stops : Res → Bool
  | .abandoned _ | .idle _ => true
  | _ => false

@[simp] def Res.gives : Res → Bool
  | .ending _ _ (.claimed true) => true
  | _ => false

@[simp] def Res.blames : Res → Bool
  | .ending _ _ (.uncancelled true) | .ending _ _ .failing | .ending _ _ (.counted .failed false) =>
    true
  | _ => false

/-- Any of these. -/
def Res.reason (x : Res) : Bool := x.stops || x.gives || x.blames

structure Reason (a : Life) : Prop where
  stops : ∀ x ∈ a.tokens, x.stops = true → a.req.Stopped ∨ a.req.terminal = true
  gives : ∀ x ∈ a.tokens, x.gives = true → a.req.Stopped
  blames : ∀ x ∈ a.tokens, x.blames = true → a.req.error.ok = false
  failed : a.req.final = some .failed → a.req.error.ok = false

/-- What is left to check of a step: the resources it hands out, and the end. -/
theorem Reason.mono (reason : Reason ⟨r, fl, F + X, log⟩) (worsens : r.Worsens r')
    (finished : r.terminal = true → r'.terminal = true)
    (stops : ∀ x ∈ X', x.stops = true → r'.Stopped ∨ r'.terminal = true)
    (gives : ∀ x ∈ X', x.gives = true → r'.Stopped)
    (blames : ∀ x ∈ X', x.blames = true → r'.error.ok = false)
    (failed : r'.final = some .failed → r.final = some .failed ∨ r'.error.ok = false) :
    Reason ⟨r', fl', F + X', log'⟩ := by
  have given {x : Res} (h : x ∈ F) : x ∈ F + X := mem_add.mpr (.inl h)
  refine ⟨fun x hx h => ?_, fun x hx h => ?_, fun x hx h => ?_, fun h => ?_⟩
  · rcases mem_add.mp hx with hx | hx
    · exact (reason.stops x (given hx) h).imp (·.mono worsens) finished
    · exact stops x hx h
  · rcases mem_add.mp hx with hx | hx
    · exact (reason.gives x (given hx) h).mono worsens
    · exact gives x hx h
  · rcases mem_add.mp hx with hx | hx
    · exact worsens.failed (reason.blames x (given hx) h)
    · exact blames x hx h
  · rcases failed h with before | bad
    · exact worsens.failed (reason.failed before)
    · exact bad

theorem Reason.plain (reason : Reason ⟨r, fl, F + X, log⟩) (worsens : r.Worsens r')
    (finished : r.terminal = true → r'.terminal = true) (none : ∀ x ∈ X', x.reason = false)
    (failed : r'.final = some .failed → r.final = some .failed ∨ r'.error.ok = false) :
    Reason ⟨r', fl', F + X', log'⟩ := by
  simp only [Res.reason, Bool.or_eq_false_iff] at none
  refine reason.mono worsens finished (fun x hx h => ?_) (fun x hx h => ?_) (fun x hx h => ?_)
    failed <;>
    simp only [none x hx, reduceCtorEq] at h

theorem Reason.deed (deed : Deed t q r fl X r' fl' X' evs) (used : .ticket q ∉ X)
    (live : fl = true → r.terminal = false) (reason : Reason ⟨r, fl, F + X, log⟩) :
    Reason ⟨r', fl', F + X', log'⟩ := by
  obtain ⟨worsens, finished⟩ := deed.lasting used
  have held {x : Res} (h : x ∈ X) : x ∈ F + X := mem_add.mpr (.inr h)
  have failed (h : r'.final = some .failed) : r.final = some .failed ∨ r'.error.ok = false := by
    rcases deed.ends h with before | ⟨o, gone, state, rfl, how, alive⟩
    · exact .inl before
    · obtain rfl : o = .failed := by cases o <;> first | rfl | cases state
      obtain ⟨e, rfl, brought⟩ := how
      refine .inr ?_
      cases gone with
      | false => exact worsens.failed (reason.blames _ (held (Multiset.mem_singleton_self _)) rfl)
      | true =>
        obtain ⟨bad, -⟩ := brought rfl
        rw [r.fail_live e alive]
        cases h : r.error.ok <;> simp [h, bad]
  cases deed with
  | admission => simp at used
  | sawAbandoning stopped =>
    refine reason.mono worsens finished (fun _ _ _ => ?_) (by simp)
      (by simp) failed
    simpa [Request.abandoning, Request.Stopped, or_assoc, or_comm, or_left_comm] using stopped
  | sealIfIdle =>
    have stops := reason.stops (.abandoned q) (held (by simp)) rfl
    refine reason.mono worsens finished (fun _ _ _ => stops) ?_ ?_ failed <;> split <;>
      simp
  | claim last =>
    refine reason.mono worsens finished (by simp) (fun x hx gives => ?_)
      (by simp) failed
    obtain ⟨rfl, -⟩ | ⟨-, rfl⟩ := last
    · refine (reason.stops (.idle q) (held (by simp)) rfl).resolve_right ?_
      simp [live rfl]
    · obtain rfl := mem_singleton.mp hx
      cases gives
  | @readCancel _ idle =>
    refine reason.mono worsens finished ?_ ?_ (fun x hx blames => ?_) failed
    · split <;> simp
    · split <;> simp
    · obtain rfl := mem_singleton.mp hx
      cases flag : r.cancelRequested <;> simp only [flag] at blames
      · obtain rfl : idle = true := by
          cases idle <;> first | rfl | cases blames
        have stopped := reason.gives (.ending t q (.claimed true)) (held (by simp)) rfl
        exact stopped.resolve_left (by simp [flag])
      · cases blames
  | readError =>
    refine reason.mono worsens finished ?_ ?_ (fun x hx blames => ?_) failed
    · split <;> simp
    · split <;> simp
    · obtain rfl := mem_singleton.mp hx
      cases h : r.error.ok <;> simp only [h] at blames
      · rfl
      · cases blames
  | @count _ gone ph o decided =>
    refine reason.mono worsens finished (by simp) (by simp)
      (fun x hx blames => ?_) failed
    obtain rfl := mem_singleton.mp hx
    refine reason.blames (.ending t q ph) (held (by simp)) ?_
    unfold Phase.Decides at decided
    split at decided
    all_goals first
      | obtain ⟨rfl, rfl⟩ := decided
        first | rfl | cases blames
      | exact decided.elim
  | split =>
    exact reason.plain worsens finished
      (fun x hx => of_mem_work (f := Res.reason) (fun _ => rfl) hx) failed
  | setState _ lane =>
    refine reason.plain worsens finished (fun x hx => ?_) failed
    obtain rfl := mem_singleton.mp hx
    obtain ⟨p, n, rfl | rfl⟩ := lane <;> rfl
  | settle =>
    refine reason.plain worsens finished (fun x hx => ?_) failed
    rw [mem_singleton.mp hx]
    exact settled_weight (f := Res.reason) (fun _ => rfl) (fun _ => rfl) _ _
  | offer | finishPart | complete =>
    refine reason.plain worsens finished ?_ failed
    split <;> simp [Res.reason]
  | _ =>
    exact reason.plain worsens finished
      (by simp [Res.reason]) failed

/-- The number of a request is used when it is admitted. -/
theorem Deed.admits (deed : Deed t q r fl X r' fl' X' evs) (ticket : .ticket q ∈ X) :
    ∃ ops, r'.New ops ∧ X = {.ticket q} ∧ fl' = true ∧
      X' = {.admittedBy t q r'.heldRegions} + {.unsplit q ops} + {.uncounted q} := by
  cases deed with
  | admission new => exact ⟨_, new, rfl, rfl, rfl⟩
  | setState _ lane => obtain ⟨p, n, rfl | rfl⟩ := lane <;> simp at ticket
  | finishPart lane => obtain rfl | ⟨p, -, rfl⟩ := lane <;> simp at ticket
  | claim last => obtain ⟨rfl, -⟩ | ⟨rfl, -⟩ := last <;> simp at ticket
  | missed last => obtain rfl | rfl := last <;> simp at ticket
  | _ => simp at ticket

theorem Reason.admitted {r₀ : Request} (blank : Blank q ⟨r₀, fl, F + {.ticket q}, log⟩)
    (new : r.New ops) :
    Reason ⟨r, true, F + ({.admittedBy t q r.heldRegions} + {.unsplit q ops} + {.uncounted q}),
      log'⟩ := by
  have none (x : Res) (hx : x ∈ F + ({.admittedBy t q r.heldRegions} + {.unsplit q ops} +
      {.uncounted q})) : x.reason = false := by
    simp only [mem_add, mem_singleton] at hx
    rcases hx with hx | (rfl | rfl) | rfl
    · obtain rfl | ⟨ev, rfl⟩ := blank.tokens x (mem_add.mpr (.inl hx)) <;> rfl
    all_goals rfl
  simp only [Res.reason, Bool.or_eq_false_iff] at none
  refine ⟨fun x hx h => ?_, fun x hx h => ?_, fun x hx h => ?_, fun h => ?_⟩
  · simp only [none x hx, reduceCtorEq] at h
  · simp only [none x hx, reduceCtorEq] at h
  · simp only [none x hx, reduceCtorEq] at h
  · simp [Request.final, Request.terminal, new.state, isTerminal] at h

/-- A request that fails has an error. -/
theorem LifeRun.reason {ok : View → View → Prop} (run : LifeRun ok q a) : Reason a := by
  induction run with
  | start =>
    exact ⟨by simp [Life.start], by simp [Life.start], by simp [Life.start], by
      simp [Life.start, Request.final, Request.terminal, isTerminal]⟩
  | @number a _ _ ih =>
    have ih : Reason ⟨a.req, a.flying, a.tokens + 0, a.log⟩ := by simpa using ih
    exact ih.plain (.refl _) id (by simp [Res.reason]) .inl
  | step t run step _ ih =>
    cases step with
    | @deed r r' fl fl' F X X' log evs deed =>
      by_cases ticket : .ticket q ∈ X
      · obtain blank | ⟨u, R, ops, admitted, -⟩ := run.books
        · obtain ⟨ops, new, rfl, rfl, rfl⟩ := deed.admits ticket
          exact .admitted blank new
        · exact absurd (mem_add.mpr (.inr ticket)) (run.course.past admitted)
      · exact ih.deed deed ticket fun flies => (run.course.free flies).2.1
    | land =>
      exact ih.plain (.refl _) id (by simp [Res.reason]) .inl
    | @report r fl F log evs mine =>
      have ih : Reason ⟨r, fl, F + 0, log⟩ := by simpa using ih
      refine ih.plain (.refl _) id (fun x hx => ?_) .inl
      obtain ⟨ev, -, rfl⟩ := List.mem_map.mp (mem_coe.mp hx)
      rfl
    | @reap r F log =>
      have ih : Reason ⟨r, true, F + 0, log⟩ := by simpa using ih
      exact ih.plain (.refl _) id (by simp [Res.reason]) .inl
    | @giveAway r fl F log =>
      have : Reason ⟨r, fl, F + 0, log⟩ := ih.plain (.refl _) id (by simp) .inl
      simpa using this

/-! ## Lanes in the middle of a submission -/

@[simp] def Event.clears : Event → Bool
  | .cleared _ => true
  | _ => false

@[simp] def Event.settles : Event → Bool
  | .settled _ => true
  | _ => false

/-- How many lines of a history say so. -/
def tellings (f : Event → Bool) (log : List (Tid × Event)) : Nat := log.countP (f ·.2)

@[simp] def Res.posts : Res → Nat
  | .posting _ _ | .landing _ _ => 1
  | _ => 0

theorem Deed.lanes (deed : Deed t q r fl X r' fl' X' evs) :
    weigh Res.posts X' + evs.countP Event.settles =
      weigh Res.posts X + evs.countP Event.clears := by
  cases deed with
  | split => simp [weigh_work (f := Res.posts) (fun _ => rfl)]
  | settle =>
    rw [weigh_singleton, settled_weight (f := Res.posts) (fun _ => rfl) (fun _ => rfl)]
    simp
  | setState => rfl
  | offer | sealIfIdle | readCancel | readError | complete =>
    split <;> simp
  | finishPart lane =>
    obtain rfl | ⟨p, -, rfl⟩ := lane <;> split <;> simp
  | claim last =>
    obtain ⟨rfl, -⟩ | ⟨rfl, -⟩ := last <;> simp
  | missed last => obtain rfl | rfl := last <;> simp
  | _ => simp

theorem tellings_deed {f : Event → Bool} (ended : ∀ h s, f (.ended h s) = false)
    (staged : ∀ h s, f (.staged h s) = false) (evs : List Event) :
    tellings f (evs.map (t, ·) ++ ((changes (.transfer q) r r').map (t, ·) ++ log)) =
      evs.countP f + tellings f log := by
  simp only [tellings, List.countP_append, countP_changes ended staged, List.countP_map, zero_add]
  rfl

theorem tellings_reported {f : Event → Bool} (none : ∀ ev, f (.reported ev) = false)
    (evs : List CompletionEvent) :
    tellings f (evs.map (fun ev => (t, .reported ev)) ++ log) = tellings f log := by
  have zero : (evs.map fun ev => ((t, .reported ev) : Tid × Event)).countP (f ·.2) = 0 := by
    simp [List.countP_eq_zero, none]
  simp [tellings, List.countP_append, zero]

/-- The lanes that have been cleared and not settled are in some thread's hands. -/
theorem LifeRun.lanes {ok : View → View → Prop} (run : LifeRun ok q a) :
    weigh Res.posts a.tokens + tellings Event.settles a.log = tellings Event.clears a.log := by
  induction run with
  | start => rfl
  | number _ _ ih => simpa using ih
  | step t _ step _ ih =>
    cases step with
    | deed deed =>
      have lanes := deed.lanes
      rw [tellings_deed (fun _ _ => rfl) (fun _ _ => rfl),
        tellings_deed (fun _ _ => rfl) (fun _ _ => rfl)]
      simp only [weigh_add] at ih ⊢
      omega
    | land => simpa using ih
    | report =>
      rw [tellings_reported fun _ => rfl, tellings_reported fun _ => rfl, weigh_add,
        weigh_events (fun _ => rfl)]
      exact ih
    | reap => simpa [tellings] using ih
    | giveAway => simpa using ih

/-! ## Nothing of it arrived -/

/-- No lane is in the middle of a submission, and whatever providers took has
been reported, with an error that says the target was not modified. -/
structure Harmless (log : List (Tid × Event)) : Prop where
  settled : tellings Event.settles log = tellings Event.clears log
  even : (reports log).length = (takenOps log).length
  bad : ∀ ev ∈ reports log, ev.status ≠ .ok ∧ ev.mayHaveModifiedTarget = false

theorem Harmless.mono (harmless : Harmless log)
    (settles : tellings Event.settles log' = tellings Event.settles log)
    (clears : tellings Event.clears log' = tellings Event.clears log)
    (reported : reports log' = reports log) (taken : takenOps log' = takenOps log) :
    Harmless log' :=
  ⟨by rw [settles, clears, harmless.settled], by rw [reported, taken, harmless.even],
    by rw [reported]; exact harmless.bad⟩

/-- A deed that says nothing of lanes and operations. -/
theorem Harmless.deed (harmless : Harmless log) (settles : evs.countP Event.settles = 0)
    (clears : evs.countP Event.clears = 0) (reported : evs.filterMap Event.report = [])
    (taken : evs.filterMap Event.takenOp = []) :
    Harmless (evs.map (t, ·) ++ ((changes (.transfer q) r r').map (t, ·) ++ log)) := by
  refine harmless.mono ?_ ?_ ?_ ?_
  · rw [tellings_deed (fun _ _ => rfl) (fun _ _ => rfl), settles, zero_add]
  · rw [tellings_deed (fun _ _ => rfl) (fun _ _ => rfl), clears, zero_add]
  · rw [reports_deed, reported, List.nil_append]
  · rw [takenOps_deed, taken, List.nil_append]

/-- Once a request has an error, it stays so. -/
theorem Harmless.step (step : LifeStep t q a b) (bad : a.req.error.ok = false)
    (lanes : weigh Res.posts a.tokens + tellings Event.settles a.log = tellings Event.clears a.log)
    (honest : Honest b.log) (harmless : Harmless a.log) : Harmless b.log := by
  have idle {x : Res} (hx : x ∈ a.tokens) : x.posts = 0 := by
    have := le_weigh (f := Res.posts) hx
    have := harmless.settled
    omega
  cases step with
  | @deed r r' fl fl' F X X' log evs deed =>
    cases deed with
    | clear _ going => simp [Request.abandoning, bad] at going
    | offer | settle => cases idle (mem_add.mpr (.inr (Multiset.mem_singleton_self _)))
    | _ => exact harmless.deed (by simp) (by simp)
             (by simp [Event.report]) (by simp [Event.takenOp])
  | @report r fl F log evs =>
    have more := honest.length_le
    rw [reports_reported, takenOps_reported, List.length_append] at more
    have even : (reports log).length = (takenOps log).length := harmless.even
    obtain rfl : evs = [] := List.length_eq_zero_iff.mp (by omega)
    exact harmless
  | reap => exact harmless.mono rfl rfl rfl rfl
  | land | giveAway => exact harmless

/-- The first error stays. -/
theorem Deed.error_stays (deed : Deed t q r fl X r' fl' X' evs) (bad : r.error.ok = false)
    (still : r'.error.ok = false) : r'.error = r.error ∧ r'.kind = r.kind := by
  cases deed with
  | admission new => simp [new.error, ErrorInfo.ok] at still
  | setState => rw [r.setState_eq]; exact ⟨rfl, rfl⟩
  | noteError => rw [r.noteError_eq]; simp [bad]
  | complete =>
    cases live : r.terminal
    · rw [r.onSubopComplete_live _ live]
      simp [bad]
    · rw [r.onSubopComplete_terminal _ live]
      exact ⟨rfl, rfl⟩
  | @finish _ _ _ o how =>
    refine ⟨?_, by rw [Request.finishes_eq how]⟩
    cases live : r.terminal
    · cases o with
      | succeeded => rw [show r' = _ from how, r.finishSuccess_live live]
      | failed =>
        obtain ⟨e, rfl, -⟩ := how
        rw [r.fail_live e live]
        simp [bad]
      | cancelled => rw [show r' = _ from how, r.finishCancelled_live live]
    · rw [Request.finishes_terminal how live]
  | cancel _ live => rw [r.cancel_live live]; exact ⟨rfl, rfl⟩
  | _ => exact ⟨rfl, rfl⟩

theorem changes_same (h : Handle) (state : r'.state = r.state) (stages : r'.stages = r.stages) :
    changes h r r' = [] := by
  simp [changes, Request.terminal, state, stages]

/-- A first error is for some news or the one a request is ended with; and it has
the flag if the news, or the reaper of a write, gives it. -/
theorem Deed.first_error (deed : Deed t q r fl X r' fl' X' evs) (before : r.error.ok = true)
    (bad : r'.error.ok = false) :
    r.terminal = false ∧ r'.kind = r.kind ∧
      ((∃ news, evs = [.brought q news] ∧ changes (.transfer q) r r' = [] ∧
          (news.unflagged = false → r'.error.mayHaveModifiedTarget = true)) ∨
        ∃ gone, X = {.ending t q (.counted .failed gone)} ∧
          (gone = true → r.kind = .write → r'.error.mayHaveModifiedTarget = true)) := by
  cases deed with
  | admission new => simp [new.error, ErrorInfo.ok] at bad
  | setState => simp [r.setState_eq, before] at bad
  | @noteError _ _ e news _ flagged =>
    rw [r.noteError_eq] at bad ⊢
    cases live : r.terminal <;> cases fine : e.ok <;> simp [live, fine, before] at bad
    exact ⟨rfl, rfl, .inl ⟨news, rfl, changes_same _ rfl rfl,
      by simpa [fine, before] using flagged⟩⟩
  | @complete _ ev =>
    cases live : r.terminal
    · rw [r.onSubopComplete_live _ live] at bad ⊢
      by_cases ok : ev.status = .ok
      · simp [ok, before] at bad
      · refine ⟨rfl, rfl, .inl ⟨_, rfl, changes_same _ rfl rfl, fun flagged => ?_⟩⟩
        simpa [ok, before, Request.eventError] using flagged
    · simp [r.onSubopComplete_terminal _ live, before] at bad
  | @finish _ _ gone o how =>
    cases live : r.terminal
    · cases o with
      | succeeded => simp [show r' = _ from how, r.finishSuccess_live live, before] at bad
      | failed =>
        refine ⟨rfl, by rw [Request.finishes_eq how], .inr ⟨gone, rfl, fun reaped write => ?_⟩⟩
        obtain ⟨e, rfl, brought⟩ := how
        obtain ⟨wrong, flagged⟩ := brought reaped
        simpa [r.fail_live e live, wrong, before] using flagged write
      | cancelled => simp [show r' = _ from how, r.finishCancelled_live live, before] at bad
    · simp [Request.finishes_terminal how live, before] at bad
  | cancel _ live => simp [r.cancel_live live, before] at bad
  | _ => simp_all [Request.setParts, Request.addAcceptedSubops, Request.partFinished,
      Request.sealIfIdle, Request.markStage, Request.sealAccepted]

/-- Providers took nothing, and no lane is in the middle of a submission. -/
def NothingTaken (log : List (Tid × Event)) : Prop :=
  tellings Event.settles log = tellings Event.clears log ∧ takenOps log = []

theorem NothingTaken.harmless (nothing : NothingTaken log) (honest : Honest log) :
    Harmless log := by
  have none : reports log = [] := by
    have := honest.length_le
    rw [nothing.2, List.length_nil, Nat.le_zero] at this
    exact List.length_eq_zero_iff.mp this
  exact ⟨nothing.1, by simp [none, nothing.2], by simp [none]⟩

/-- What providers took of a request before news reached it that does not set the
flag: nothing, if a dependency failed or a lane was refused that found nothing
accepted; if it is an error event, only what was reported with such errors. -/
def News.Timely (log : List (Tid × Event)) : News → Prop
  | .dependency => NothingTaken log
  | .refusal outstanding => outstanding = 0 → NothingTaken log
  | .completion ev => ev.status ≠ .ok → ev.mayHaveModifiedTarget = false → Harmless log

theorem News.Timely.harmless {news : News} (timely : news.Timely log)
    (unflagged : news.unflagged = true) (honest : Honest log) : Harmless log := by
  cases news with
  | dependency => exact NothingTaken.harmless timely honest
  | refusal => exact (timely (by simpa using unflagged)).harmless honest
  | completion ev =>
    simp only [News.unflagged, Bool.and_eq_true, bne_iff_ne, ne_eq, Bool.not_eq_true'] at unflagged
    exact timely unflagged.1 unflagged.2

/-- The news a step brought, between a transfer's history before and after. -/
def newsBetween (log : List (Tid × Event)) : List (Tid × Event) → Option News
  | (_, .brought _ news) :: rest => if rest = log then some news else none
  | _ => none

/-- News that finds a write going on without an error is timely. -/
def NewsTimely (r : Request) (log log' : List (Tid × Event)) : Prop :=
  r.kind = .write → r.terminal = false → r.error.ok = true →
    ∀ news ∈ newsBetween log log', news.Timely log

/-- A write whose error says that the target was not modified, was harmless when
the error was recorded and has stayed so. -/
theorem LifeRun.harmless {ok : View → View → Prop} (honest : ∀ v v', ok v v' → Honest v'.log)
    (timely : ∀ v v', ok v v' → NewsTimely v.req v.log v'.log)
    (run : LifeRun ok q a) (bad : a.req.error.ok = false) (write : a.req.kind = .write)
    (unflagged : a.req.error.mayHaveModifiedTarget = false) : Harmless a.log := by
  induction run with
  | start => cases bad
  | number _ _ ih => exact ih bad write unflagged
  | @step a b t run step allowed ih =>
    have stays (error : b.req.error = a.req.error) (kind : b.req.kind = a.req.kind) :
        Harmless b.log := by
      rw [error] at bad unflagged
      rw [kind] at write
      exact (ih bad write unflagged).step step bad run.lanes (honest _ _ allowed)
    cases step with
    | @deed r r' fl fl' F X X' log evs deed =>
      by_cases before : r.error.ok = true
      · obtain ⟨live, kind, ⟨news, rfl, silent, flagged⟩ | ⟨gone, rfl, flagged⟩⟩ :=
          deed.first_error before bad
        · have told : news.Timely log :=
            timely _ _ allowed (kind ▸ write) live before news (by
              simp [newsBetween, silent, Life.view])
          have reported : Honest log := by
            have after : Honest (_ ++ (_ ++ log)) := honest _ _ allowed
            rwa [Honest, reports_deed, takenOps_deed] at after
          have silence : news.unflagged = true := by
            by_contra loud
            simp [flagged (by simpa using loud)] at unflagged
          exact (told.harmless silence reported).deed rfl rfl rfl rfl
        · cases gone with
          | true => simp [flagged rfl (kind ▸ write)] at unflagged
          | false =>
            have ending := run.reason.blames _ (mem_add.mpr (.inr (mem_singleton.mpr rfl))) rfl
            simp [before] at ending
      · obtain ⟨error, kind⟩ := deed.error_stays (by simpa using before) bad
        exact stays error kind
    | land | report | reap | giveAway => exact stays rfl rfl

variable {T : Transport} {W : Type} [LaneCost W]

/-- The providers of a transfer have reported only what they took, and news that
finds it a write going on without an error is timely. -/
def NewsInTime (q : RequestId) (l l' : Ledger) : Prop :=
  Honest (history q l'.trace) ∧
    NewsTimely (l.reqs (.transfer q)) (history q l.trace) (history q l'.trace)

/-- A write that failed, and of which anything completed or may have modified the
target, says so. -/
theorem failed_writes_are_flagged (setup : Setup W) (dir : Directory W) (σ : T.State)
    (q : RequestId) {p : Pools T W}
    (run : Runs setup dir σ (fun s s' => NewsInTime q s.ledger s'.ledger) p)
    (write : (p.shared.ledger.reqs (.transfer q)).kind = .write)
    (failed : (p.shared.ledger.reqs (.transfer q)).state = .failed)
    {ev : CompletionEvent} (reported : ev ∈ reports (history q p.shared.ledger.trace))
    (harm : ev.status = .ok ∨ ev.mayHaveModifiedTarget = true) :
    (p.shared.ledger.reqs (.transfer q)).error.mayHaveModifiedTarget = true := by
  obtain ⟨held, -, lives, -⟩ :=
    Run.lives (NewsInTime q)
      (fun q' v v' => q' = q → Honest v'.log ∧ NewsTimely v.req v.log v'.log)
      (fun _ _ inTime _ same => same ▸ inTime) (fun _ _ => True) trivial
      (fun _ _ _ _ _ _ _ _ _ _ => trivial) run
  have life := lives.each q
  by_contra unflagged
  have bad := life.reason.failed (by
    simp [Ledger.life, Request.final, Request.terminal, failed, isTerminal])
  have harmless := life.harmless (fun _ _ h => (h rfl).1) (fun _ _ h => (h rfl).2) bad write
    (by simpa [Ledger.life] using unflagged)
  obtain ⟨notOk, unmodified⟩ := harmless.bad ev reported
  rcases harm with ok | modified
  · exact notOk ok
  · simp [unmodified] at modified

instance (log : List (Tid × Event)) : Decidable (Harmless log) :=
  decidable_of_iff (tellings Event.settles log = tellings Event.clears log ∧
    (reports log).length = (takenOps log).length ∧
    ∀ ev ∈ reports log, ev.status ≠ .ok ∧ ev.mayHaveModifiedTarget = false)
    ⟨fun ⟨settled, even, bad⟩ => ⟨settled, even, bad⟩, fun h => ⟨h.settled, h.even, h.bad⟩⟩

instance (log : List (Tid × Event)) : Decidable (NothingTaken log) :=
  inferInstanceAs (Decidable (_ ∧ _))

instance (log : List (Tid × Event)) (news : News) : Decidable (news.Timely log) := by
  cases news <;> unfold News.Timely <;> infer_instance

instance (r : Request) (log log' : List (Tid × Event)) : Decidable (NewsTimely r log log') :=
  inferInstanceAs (Decidable (_ → _))

instance (q : RequestId) (l l' : Ledger) : Decidable (NewsInTime q l l') :=
  inferInstanceAs (Decidable (_ ∧ _))

/-- The target is withdrawn after the first of two turns, and the second refused. -/
theorem failed_writes_are_flagged_partial :
    ∃ p, Pair.play (.withdraw 2) (fun s s' => decide (NewsInTime 1 s.ledger s'.ledger))
        [.spawn (Pair.write []), .run 0 21, .spawn .transportStep, .run 1 1, .spawn .progress,
          .run 2 29] = some p ∧
      (p.shared.ledger.reqs (.transfer 1)).state = .failed ∧
      (p.shared.ledger.reqs (.transfer 1)).error.mayHaveModifiedTarget = true := by
  obtain ⟨p, played, run, write, failed, ev, reported, ok⟩ := Pair.played (.withdraw 2)
    (fun s s' => NewsInTime 1 s.ledger s'.ledger)
    [.spawn (Pair.write []), .run 0 21, .spawn .transportStep, .run 1 1, .spawn .progress,
      .run 2 29]
    (fun p => (p.shared.ledger.reqs (.transfer 1)).kind = .write ∧
      (p.shared.ledger.reqs (.transfer 1)).state = .failed ∧
      ∃ ev ∈ reports (history 1 p.shared.ledger.trace), ev.status = .ok) (by decide +kernel)
  exact ⟨p, played, failed, failed_writes_are_flagged (T := Pair.transport) Pair.setup
    Pair.directory Pair.state 1 run write failed reported (.inl ok)⟩

/-- A write of two turns that depends on an event. The first turn is carried out;
then the event fails, and the second is given up with an error that says the
target was not modified. -/
theorem failed_write_hides_modified_target :
    ∃ p, Pair.Runs (HonestFor 1) p ∧
      (p.shared.ledger.reqs (.transfer 1)).kind = .write ∧
      (p.shared.ledger.reqs (.transfer 1)).state = .failed ∧
      (∃ ev ∈ reports (history 1 p.shared.ledger.trace), ev.status = .ok) ∧
      (p.shared.ledger.reqs (.transfer 1)).error.mayHaveModifiedTarget = false := by
  exact Pair.run_of_play .nothing
    [.spawn (.deviceStep 0 ⟨true, .ok, true⟩), .run 0 1, .spawn (Pair.write [some 0]), .run 1 25,
      .spawn (.deviceStep 0 ⟨true, .internal, true⟩), .run 2 1, .spawn .progress, .run 3 25]
    (by decide +kernel)

/-! ## Whatever the providers do -/

section
variable {setup : Setup W} {dir : Directory W} {σ : T.State}
  {p : Pools T W} {R : List RegionId}
  (run : Runs setup dir σ (fun _ _ => True) p)
include run

/-- A transfer that failed has an error, and `wait` answers with it. -/
theorem failures_have_reasons (is : p.shared.ledger.reqs (.transfer q) = r)
    (failed : r.state = .failed) : r.error.ok = false ∧ r.outcome = r.error.status := by
  subst is
  obtain ⟨M, life⟩ := Run.life run q
  have bad := life.reason.failed (by
    simp [Ledger.life, Request.final, Request.terminal, failed, isTerminal])
  exact ⟨bad, by simp_all [Request.outcome, Ledger.life]⟩

/-- The providers take each operation of a transfer once at most, and no other. -/
theorem operations_are_taken_once
    (admitted : (t, .admitted q R ops) ∈ p.shared.ledger.trace) (small : ops.length < 2 ^ 32) :
    (takenOps (history q p.shared.ledger.trace)).Subperm ops := by
  obtain ⟨M, life⟩ := Run.life run q
  have books := life.books_of ((mem_history rfl).mpr admitted) small
  exact Multiset.coe_le.mp (le_self_add.trans books.within)

end

theorem failures_have_reasons_refused :
    ∃ p : Pair.Pools, (p.shared.ledger.reqs (.transfer 1)).error.ok = false := by
  obtain ⟨p, -, run, failed⟩ := Pair.played (.withdraw 2) (fun _ _ => True)
    [.spawn .transportStep, .run 0 1, .spawn (Pair.write []), .run 1 30]
    (fun p => (p.shared.ledger.reqs (.transfer 1)).state = .failed) (by decide +kernel)
  exact ⟨p, (failures_have_reasons run rfl failed).1⟩

theorem operations_are_taken_once_pair : ∃ (p : Pair.Pools) (op op' : SubOp),
    (takenOps (history 1 p.shared.ledger.trace)).Subperm [op, op'] := by
  obtain ⟨p, -, run, admitted⟩ := Pair.played .nothing (fun _ _ => True)
    [.spawn (Pair.write []), .run 0 17]
    (fun p => (0, .admitted 1 [1] [⟨.write, 1, 0, 4096, 1, 8192, 2, 4⟩,
      ⟨.write, 1, 1, 4100, 1, 8196, 2, 4⟩]) ∈ p.shared.ledger.trace) (by decide +kernel)
  exact ⟨p, _, _, operations_are_taken_once run admitted (by simp)⟩

end

end Hux
