import Hux.Blame

/-!
# Cancellations

The thread that ends a transfer reads the cancel flag once, and an
acknowledgement does not look at it at all. A cancellation that comes in time
(`InTime`) is never followed by success (`timely_cancel_never_succeeds`); one
that comes later can be (`cancel_then_success`).
-/

namespace Hux
open Interleave (Tid Run Pool)
open Multiset (mem_add mem_coe mem_singleton filter)

section
variable {t : Tid} {q : RequestId} {r r' : Request} {fl fl' : Bool} {F X X' : Multiset Res}
  {log log' : List (Tid × Event)} {a b : Life} {evs : List Event}

/-! ## Transfers -/

/-- The steps of a transfer's life that cancel it in time. -/
def TimelyFor (q : RequestId) (v v' : View) : Prop :=
  ∃ new, v'.log = new ++ v.log ∧ ∀ e ∈ new, e.2 = .cancelled (.transfer q) →
    ∀ u, (u, .cancelRead q false) ∉ v.log

/-- A cancelled request has its flag set, and a thread that read the flag not set
means that nobody cancelled. -/
structure Firm (q : RequestId) (a : Life) : Prop where
  flag : ∀ u, (u, .cancelled (.transfer q)) ∈ a.log →
    a.req.cancelRequested = true ∧ ∃ t R ops, (t, .admitted q R ops) ∈ a.log
  read : (∃ u idle, .ending u q (.uncancelled idle) ∈ a.tokens) ∨ a.gist.Succeeds →
    ∃ u, (u, .cancelRead q false) ∈ a.log
  apart : ∀ u v, (u, .cancelled (.transfer q)) ∈ a.log → (v, .cancelRead q false) ∉ a.log

theorem LifeStep.worsens (step : LifeStep t q a b) (used : .ticket q ∉ a.tokens) :
    a.req.Worsens b.req := by
  cases step with
  | deed deed => exact (deed.lasting fun h => used (mem_add.mpr (.inr h))).1
  | land | report | reap | giveAway => exact .refl _

/-- How a thread comes to have read the flag not set. -/
theorem Deed.uncancelled (deed : Deed t q r fl X r' fl' X' evs) {u : Tid} {idle : Bool}
    (held : .ending u q (.uncancelled idle) ∈ X') :
    .ending u q (.uncancelled idle) ∈ X ∨ evs = [.cancelRead q false] := by
  cases deed with
  | setState => exact .inl held
  | split =>
    obtain ⟨p, -, h⟩ := List.mem_map.mp (mem_coe.mp held)
    cases h
  | settle =>
    have same := mem_singleton.mp held
    unfold settled at same
    split at same <;> cases same
  | readCancel =>
    cases flag : r.cancelRequested
    · exact .inr rfl
    · simp [flag] at held
  | offer | finishPart | sealIfIdle | readError | complete => split at held <;> simp at held
  | _ => simp at held

theorem LifeStep.uncancelled (step : LifeStep t q a b) {u : Tid} {idle : Bool}
    (held : .ending u q (.uncancelled idle) ∈ b.tokens) :
    .ending u q (.uncancelled idle) ∈ a.tokens ∨ (t, .cancelRead q false) ∈ b.log := by
  cases step with
  | deed deed =>
    rcases mem_add.mp held with kept | given
    · exact .inl (mem_add.mpr (.inl kept))
    · rcases deed.uncancelled given with had | rfl
      · exact .inl (mem_add.mpr (.inr had))
      · exact .inr (by simp)
  | land | reap => exact .inl (by simpa using held)
  | report =>
    rcases mem_add.mp held with kept | given
    · exact .inl kept
    · obtain ⟨ev, -, h⟩ := List.mem_map.mp (mem_coe.mp given)
      cases h
  | giveAway => exact .inl (mem_add.mpr (.inl held))

theorem LifeRun.firm {ok : View → View → Prop} (timely : ∀ v v', ok v v' → TimelyFor q v v')
    (run : LifeRun ok q a) : Firm q a := by
  induction run with
  | start =>
    refine ⟨by simp [Life.start], fun h => ?_, by simp [Life.start]⟩
    simp [succeeds_iff, Life.start, Request.final, Request.terminal, isTerminal] at h
  | number _ _ ih =>
    refine ⟨ih.flag, fun h => ih.read ?_, ih.apart⟩
    simpa [succeeds_iff, Res.succeeds] using h
  | @step a b t run step allowed ih =>
    obtain ⟨new, lines, inTime⟩ := timely _ _ allowed
    refine ⟨fun u cancelled => ?_, fun h => ?_, fun u v cancelled read => ?_⟩
    · by_cases before : (u, .cancelled (.transfer q)) ∈ a.log
      · obtain ⟨flag, t₀, R, ops, admitted⟩ := ih.flag u before
        exact ⟨(step.worsens (run.course.past admitted)).cancelled flag,
          t₀, R, ops, step.log_grows _ admitted⟩
      · obtain ⟨r, r', fl, fl', F, X, X', log, evs, deed, rfl, rfl, told⟩ :=
          step.told cancelled before rfl
        cases deed with
        | cancel made live =>
          refine ⟨by rw [r.cancel_live live], ?_⟩
          obtain blank | ⟨t₀, R, ops, admitted, -⟩ := run.books
          · simp [show r.made = false from blank.unmade] at made
          · exact ⟨t₀, R, ops, step.log_grows _ admitted⟩
        | _ => simp at told
    · have before (h : (∃ u idle, .ending u q (.uncancelled idle) ∈ a.tokens) ∨ a.gist.Succeeds) :
          ∃ u, (u, .cancelRead q false) ∈ b.log := by
        obtain ⟨u, read⟩ := ih.read h
        exact ⟨u, step.log_grows _ read⟩
      rcases h with ⟨u, idle, held⟩ | success
      · rcases step.uncancelled held with held | read
        · exact before (.inl ⟨u, idle, held⟩)
        · exact ⟨t, read⟩
      · rcases step.newly_succeeds success with success | ⟨⟨u, held⟩, -⟩
        · exact before (.inr success)
        · exact before (.inl ⟨u, false, held⟩)
    · by_cases earlier : (u, .cancelled (.transfer q)) ∈ a.log
      · by_cases readBefore : (v, .cancelRead q false) ∈ a.log
        · exact ih.apart u v earlier readBefore
        · obtain ⟨r, r', fl, fl', F, X, X', log, evs, deed, rfl, rfl, told⟩ :=
            step.told read readBefore rfl
          have flag : r.cancelRequested = true := (ih.flag u earlier).1
          cases deed <;> simp_all
      · have unread : (v, .cancelRead q false) ∉ a.log := by
          rw [show b.log = _ from lines] at cancelled
          exact inTime _ ((List.mem_append.mp cancelled).resolve_right earlier) rfl v
        obtain ⟨r, r', fl, fl', F, X, X', log, evs, deed, rfl, rfl, told⟩ :=
          step.told cancelled earlier rfl
        -- a step that cancels reads nothing
        have none : .cancelRead q false ∉ evs := by cases deed <;> simp_all
        simp only [List.mem_append, List.mem_map, Prod.mk.injEq, exists_eq_right_right] at read
        rcases read with ⟨said, -⟩ | ⟨change, -⟩ | before
        · exact none said
        · obtain h | ⟨s, h⟩ := mem_changes change <;> cases h
        · exact unread before

/-! ## Notifications -/

/-- Resources that tell how far notification `q` is. -/
def Res.noted (q : RequestId) : Res → Bool
  | .ticket q' | .acking q' => q' = q
  | _ => false

def Event.noted (q : RequestId) : Event → Bool
  | .cancelled (.note q') | .acking q' => q' = q
  | .swept => true
  | _ => false

/-- The lines up to the last sweep. -/
def upToSweep (trace : List (Tid × Event)) : List (Tid × Event) := trace.dropWhile (·.2 ≠ .swept)

theorem upToSweep_append {new trace : List (Tid × Event)} (none : ∀ e ∈ new, e.2 ≠ .swept) :
    upToSweep (new ++ trace) = upToSweep trace :=
  List.dropWhile_append_of_pos (by simpa using none)

/-- The same of a notification; the thread that took it for its acknowledgement
stands for the one that read the flag. -/
structure Noted (q : RequestId) (l : Ledger) (M : Multiset Res) : Prop where
  unmade : .ticket q ∈ M ∨ l.nextRequest ≤ q → (l.reqs (.note q)).made = false
  flag : ∀ u, (u, .cancelled (.note q)) ∈ l.trace →
    (l.reqs (.note q)).made = true ∧ (l.reqs (.note q)).cancelRequested = true
  acked : .acking q ∈ M ∨ (l.reqs (.note q)).state = .succeeded ∨
    .targetReady ∈ (l.reqs (.note q)).stages → ∃ u, (u, .acking q) ∈ l.trace
  apart : ∀ u v, (u, .cancelled (.note q)) ∈ l.trace → (v, .acking q) ∉ l.trace
  swept : ∀ n ∈ l.notifyPending, n.2 = q → ∀ u, (u, .cancelled (.note q)) ∉ upToSweep l.trace

variable {l l' : Ledger} {M : Multiset Res} {q' : RequestId} {pending : List (Nat × RequestId)}

/-- A step that is not about it. -/
theorem Noted.mono (new : List (Tid × Event)) (h : Noted q l (F + X))
    (same : l'.reqs (.note q) = l.reqs (.note q)) (next : l.nextRequest ≤ l'.nextRequest)
    (fewer : ∀ n ∈ l'.notifyPending, n.2 = q → n ∈ l.notifyPending)
    (trace : l'.trace = new ++ l.trace) (silent : ∀ e ∈ new, e.2.noted q = false)
    (plain : ∀ x ∈ X', x.noted q = false) : Noted q l' (F + X') := by
  have given (x : Res) (hx : x ∈ F + X') (noted : x.noted q = true) : x ∈ F + X := by
    rcases mem_add.mp hx with hx | hx
    · exact mem_add.mpr (.inl hx)
    · simp [plain x hx] at noted
  have told {e : Tid × Event} (he : e ∈ l'.trace) (noted : e.2.noted q = true) : e ∈ l.trace := by
    rw [trace, List.mem_append] at he
    refine he.resolve_left fun he => ?_
    simp [silent e he] at noted
  have mine {q' : RequestId} (same : q' = q) : decide (q' = q) = true := decide_eq_true same
  refine ⟨fun held => ?_, fun u cancelled => ?_, fun held => ?_, fun u v cancelled acking => ?_,
    fun n hn this u => ?_⟩
  · rw [same]
    exact h.unmade (held.imp (given _ · (mine rfl)) next.trans)
  · rw [same]
    exact h.flag u (told cancelled (mine rfl))
  · rw [same] at held
    obtain ⟨u, acking⟩ := h.acked (held.imp_left (given _ · (mine rfl)))
    exact ⟨u, trace ▸ List.mem_append_right _ acking⟩
  · exact h.apart u v (told cancelled (mine rfl)) (told acking (mine rfl))
  · rw [trace, upToSweep_append fun e he swept => by simpa [swept, Event.noted] using silent e he]
    exact h.swept n (fewer n hn this) this u

theorem Deed.unnoted (deed : Deed t q r fl X r' fl' X' evs) :
    (∀ x ∈ X', x.noted q' = false) ∧ ∀ e ∈ evs, e.noted q' = false := by
  cases deed with
  | split => exact ⟨fun x hx => of_mem_work (f := Res.noted q') (fun _ => rfl) hx, by simp⟩
  | setState _ held => obtain ⟨p, n, rfl | rfl⟩ := held <;> simp [Res.noted]
  | settle =>
    refine ⟨?_, by simp [Event.noted]⟩
    unfold settled
    split <;> simp [Res.noted]
  | offer | finishPart | sealIfIdle | complete =>
    exact ⟨by split <;> simp [Res.noted], by simp [Event.noted]⟩
  | _ => simp [Res.noted, Event.noted]

theorem unnoted_changes (h : Handle) : ∀ e ∈ (changes h r r').map (t, ·), e.2.noted q = false := by
  intro e he
  obtain ⟨e, change, rfl⟩ := List.mem_map.mp he
  obtain rfl | ⟨s, rfl⟩ := mem_changes change <;> rfl

/-- What a deed adds to the history, if what it says itself is not about it. -/
theorem unnoted_lines (h : Handle) (silent : ∀ e ∈ evs, e.noted q = false) :
    ∀ e ∈ evs.map (t, ·) ++ (changes h r r').map (t, ·), e.2.noted q = false := by
  refine List.forall_mem_append.mpr ⟨?_, unnoted_changes h⟩
  simpa using silent

/-- What a notification's deeds can do, once it is made. -/
theorem NoteDeed.lasting (deed : NoteDeed t q r X r' X' evs) (used : .ticket q ∉ X) :
    r'.made = r.made ∧ (r.cancelRequested = true → r'.cancelRequested = true) ∧
      (r'.state = .succeeded → r.state = .succeeded ∨ .acking q ∈ X) ∧
      (.targetReady ∈ r'.stages → .targetReady ∈ r.stages ∨ .acking q ∈ X) := by
  cases deed with
  | make => simp at used
  | takeAck | publish => exact ⟨rfl, id, .inl, .inl⟩
  | mark => exact ⟨rfl, id, .inl, fun h => .inl (by simpa [Request.markStage] using h)⟩
  | acknowledge =>
    refine ⟨?_, fun flag => ?_, fun _ => .inr (by simp), fun _ => .inr (by simp)⟩ <;>
      cases live : r.terminal <;> simp_all [Request.finishSuccess]
  | fail =>
    cases live : r.terminal with
    | true => simp [Request.fail, live]
    | false => simp_all [r.fail_live]
  | finishCancelled =>
    cases live : r.terminal with
    | true => simp [Request.finishCancelled, live]
    | false => simp_all [r.finishCancelled_live]
  | cancel _ live => simp_all [r.cancel_live]

theorem NoteDeed.tells (deed : NoteDeed t q r X r' X' evs) :
    evs = [] ∨ evs = [.acking q] ∨ evs = [.published (.note q)] ∨ evs = [.cancelled (.note q)] := by
  cases deed <;> simp

/-- What may happen next: a cancellation before the thread that ends the request
has read the flag or taken the acknowledgement, and an acknowledgement only of
what nobody cancelled since `end_notifications` last looked for it. -/
def Ledger.Timely (l : Ledger) : Event → Prop
  | .cancelled (.transfer q) => ∀ o ∈ l.trace, o.2 ≠ .cancelRead q false
  | .cancelled (.note q) => ∀ o ∈ l.trace, o.2 ≠ .acking q
  | .acking q => ∀ o ∈ l.trace.takeWhile (·.2 ≠ .swept), o.2 ≠ .cancelled (.note q)
  | _ => True

def InTime (l l' : Ledger) : Prop :=
  ∃ new, l'.trace = new ++ l.trace ∧ ∀ e ∈ new, l.Timely e.2

/-- A number not used yet is held once, and was counted. -/
theorem Lives.one_ticket {ok : RequestId → View → View → Prop}
    (lives : Lives ok l (F + {.ticket q})) : .ticket q ∉ F ∧ q < l.nextRequest := by
  have mine : .ticket q ∈ (l.life (F + {.ticket q}) q).tokens :=
    Multiset.mem_filter.mpr ⟨by simp, rfl⟩
  constructor
  · intro held
    have twice : 2 ≤ (l.life (F + {.ticket q}) q).gist.hand.count (.ticket q) := by
      have one := Multiset.count_pos.mpr held
      change 2 ≤ ((filter _ (filter _ _)).count _)
      rw [Multiset.count_filter_of_pos (by rfl), Multiset.count_filter_of_pos (by rfl)]
      simp
      omega
    have course := (lives.each q).course
    generalize (l.life (F + {.ticket q}) q).gist = g at course twice
    cases course <;> simp at twice
  · by_contra later
    obtain ⟨ev, h⟩ := (lives.later q (not_lt.mp later)).tokens _ mine
    cases h

theorem Noted.make (h : Noted q l (F + {.ticket q})) (one : .ticket q ∉ F)
    (counted : q < l.nextRequest) (live : r.state ≠ .succeeded)
    (unready : .targetReady ∉ r.stages) : Noted q (l.applyNote t q r [] pending) F := by
  have unmade : (l.reqs (.note q)).made = false := h.unmade (.inl (by simp))
  have told {e : Tid × Event} (he : e ∈ (l.applyNote t q r [] pending).trace)
      (noted : e.2.noted q = true) : e ∈ l.trace := by
    refine (List.mem_append.mp he |>.resolve_left (by simp) |> List.mem_append.mp).resolve_left ?_
    exact fun he => by simp [unnoted_changes _ e he] at noted
  have uncancelled (u : Tid) (cancelled : (u, .cancelled (.note q)) ∈
      (l.applyNote t q r [] pending).trace) : False := by
    simpa [unmade] using (h.flag u (told cancelled (decide_eq_true rfl))).1
  refine ⟨fun held => ?_, fun u cancelled => (uncancelled u cancelled).elim, fun held => ?_,
    fun u v cancelled => (uncancelled u cancelled).elim, fun n hn this u cancelled => ?_⟩
  · exact (held.elim one (not_le.mpr counted)).elim
  · have acking : .acking q ∈ F := by simpa [live, unready] using held
    obtain ⟨u, acking⟩ := h.acked (.inl (mem_add.mpr (.inl acking)))
    exact ⟨u, by simp [acking]⟩
  · exact uncancelled u (List.dropWhile_sublist _ |>.subset cancelled)

theorem Noted.deed (deed : NoteDeed t q (l.reqs (.note q)) X r X' evs) (used : .ticket q ∉ X)
    (fewer : pending ⊆ l.notifyPending)
    (listed : .acking q ∈ evs → ∃ n ∈ l.notifyPending, n.2 = q)
    (inTime : InTime l (l.applyNote t q r evs pending)) (h : Noted q l (F + X)) :
    Noted q (l.applyNote t q r evs pending) (F + X') := by
  obtain ⟨made, flag, succeeds, ready⟩ := deed.lasting used
  have given {x : Res} (hx : x ∈ F) : x ∈ F + X := mem_add.mpr (.inl hx)
  have gives : ∀ x ∈ X', x = .acking q ∧ evs = [.acking q] := by cases deed <;> simp
  have told {e : Tid × Event} (he : e ∈ (l.applyNote t q r evs pending).trace)
      (noted : e.2.noted q = true) : e ∈ l.trace ∨ e.2 ∈ evs ∧ e ∈ evs.map (t, ·) := by
    rcases List.mem_append.mp he with line | rest
    · obtain ⟨e, said, rfl⟩ := List.mem_map.mp line
      exact .inr ⟨said, line⟩
    · refine .inl ((List.mem_append.mp rest).resolve_left fun change => ?_)
      simp [unnoted_changes _ e change] at noted
  have cancels (said : .cancelled (.note q) ∈ evs) : (l.reqs (.note q)).made = true ∧
      r.cancelRequested = true ∧ evs = [.cancelled (.note q)] := by
    cases deed with
    | cancel made live => simp_all [Request.cancel_live]
    | _ => simp at said
  have mine {q' : RequestId} (same : q' = q) : decide (q' = q) = true := decide_eq_true same
  obtain ⟨new, lines, timely⟩ := inTime
  have inTime : ∀ e ∈ evs.map (t, ·), e ∈ new := by
    rw [Ledger.applyNote_trace, ← List.append_assoc] at lines
    intro e he
    rw [← List.append_cancel_right lines]
    exact List.mem_append_left _ he
  refine ⟨fun held => ?_, fun u cancelled => ?_, fun held => ?_, fun u v cancelled acking => ?_,
    fun n hn this u => ?_⟩
  · simp only [Ledger.applyNote_reqs, Function.update_self, made]
    refine h.unmade (held.imp_left fun held => given ((mem_add.mp held).resolve_right
      fun held => ?_))
    cases (gives _ held).1
  · simp only [Ledger.applyNote_reqs, Function.update_self, made]
    rcases told cancelled (mine rfl) with before | ⟨now, -⟩
    · exact (h.flag u before).imp_right flag
    · exact ⟨(cancels now).1, (cancels now).2.1⟩
  · simp only [Ledger.applyNote_reqs, Function.update_self] at held
    have before (acked : .acking q ∈ F + X ∨ (l.reqs (.note q)).state = .succeeded ∨
        .targetReady ∈ (l.reqs (.note q)).stages) :
        ∃ u, (u, .acking q) ∈ (l.applyNote t q r evs pending).trace :=
      (h.acked acked).imp fun u acking => by simp [acking]
    rcases held with held | succeeded | reached
    · rcases mem_add.mp held with kept | new
      · exact before (.inl (given kept))
      · exact ⟨t, by simp [(gives _ new).2]⟩
    · exact before ((succeeds succeeded).elim (.inr ∘ .inl) (.inl <| mem_add.mpr <| .inr ·))
    · exact before ((ready reached).elim (.inr ∘ .inr) (.inl <| mem_add.mpr <| .inr ·))
  · rcases told cancelled (mine rfl) with earlier | ⟨now, cancels'⟩
    · rcases told acking (mine rfl) with acking | ⟨said, acks⟩
      · exact h.apart u v earlier acking
      · -- it was still listed, so the last sweep found it uncancelled
        obtain ⟨n, hn, this⟩ := listed said
        rw [← List.takeWhile_append_dropWhile (p := (·.2 ≠ .swept)) (l := l.trace)] at earlier
        rcases List.mem_append.mp earlier with since | before
        · exact timely _ (inTime _ acks) _ since rfl
        · exact h.swept n hn this u before
    · obtain ⟨-, -, rfl⟩ := cancels now
      rcases told acking (mine rfl) with acking | ⟨said, -⟩
      · exact timely _ (inTime _ cancels') _ acking rfl
      · simp at said
  · rw [Ledger.applyNote_trace, ← List.append_assoc, upToSweep_append]
    · exact h.swept n (fewer hn) this u
    · intro e he swept
      rcases List.mem_append.mp he with said | change
      · obtain ⟨e, said, rfl⟩ := List.mem_map.mp said
        obtain rfl : e = .swept := swept
        rcases deed.tells with rfl | rfl | rfl | rfl <;> simp at said
      · simpa [swept, Event.noted] using unnoted_changes (q := q) _ e change

/-- If it stays pending, it was not cancelled. -/
theorem Noted.sweep (h : Noted q l M) : Noted q (l.sweep t) M := by
  have told {e : Tid × Event} (he : e ∈ (l.sweep t).trace) (other : e.2 ≠ .swept) : e ∈ l.trace :=
    (List.mem_cons.mp he).resolve_left fun same => other (same ▸ rfl)
  refine ⟨h.unmade, fun u cancelled => h.flag u (told cancelled nofun), fun held => ?_,
    fun u v cancelled acking => h.apart u v (told cancelled nofun) (told acking nofun),
    fun n hn this u cancelled => ?_⟩
  · exact (h.acked held).imp fun u acking => List.mem_cons_of_mem _ acking
  · have set := (h.flag u (told (List.dropWhile_sublist _ |>.subset cancelled) nofun)).2
    subst this
    simp [set] at hn

theorem Move.noted {T : Transport} {s s' : Ledger × T.State}
    {ok : RequestId → View → View → Prop} (move : Move T t s X s' X')
    (lives : Lives ok s.1 (F + X)) (inTime : InTime s.1 s'.1)
    (h : Noted q s.1 (F + X)) : Noted q s'.1 (F + X') := by
  have all {l : List (Nat × RequestId)} : ∀ n ∈ l, n.2 = q → n ∈ l := fun _ hn _ => hn
  cases move with
  | touch => exact h
  | deed deed =>
    obtain ⟨plain, silent⟩ := deed.unnoted
    exact h.mono _ (by simp) le_rfl all (List.append_assoc _ _ _).symm
      (unnoted_lines _ silent) plain
  | @offer l _ _ p _ op taken _ =>
    refine h.mono [(t, .offered p.req op taken)] rfl le_rfl all rfl ?_ ?_
    · simp [Event.noted]
    · split <;> simp [Res.noted]
  | land | defer | retire => exact h.mono [] rfl le_rfl all rfl (by simp) (by simp [Res.noted])
  | forget =>
    exact h.mono [] rfl le_rfl (fun n hn _ => (List.mem_filter.mp hn).1) rfl (by simp) (by simp)
  | sweep => simpa using h.sweep
  | @poll _ _ _ _ _ _ _ evs =>
    refine h.mono (evs.map fun ev => (t, .reported ev)) rfl le_rfl all rfl ?_ fun x hx => ?_
    · simp [Event.noted]
    · obtain ⟨ev, -, rfl⟩ := List.mem_map.mp (mem_coe.mp hx)
      rfl
  | @reap _ _ _ qs =>
    refine h.mono (qs.map fun q => (t, .reaped q)) rfl le_rfl all rfl ?_ fun x hx => ?_
    · simp [Event.noted]
    · obtain ⟨q, -, rfl⟩ := List.mem_map.mp (mem_coe.mp hx)
      rfl
  | nextId =>
    refine ⟨fun held => h.unmade ?_, h.flag, fun held => h.acked ?_, h.apart, h.swept⟩
    · rcases held with held | later
      · rcases mem_add.mp held with held | new
        · exact .inl (mem_add.mpr (.inl held))
        · obtain ⟨⟩ := mem_singleton.mp new
          exact .inr le_rfl
      · exact .inr (Nat.le_of_succ_le later)
    · simpa using held
  | drain =>
    exact h.mono [] rfl le_rfl all rfl (by simp)
      fun x hx => of_mem_work (f := Res.noted q) (fun _ => rfl) hx
  | @deregister _ _ R =>
    exact h.mono [(t, .deregistered R)] rfl le_rfl all rfl (by simp [Event.noted])
      (by simp [Res.noted])
  | @note l _ q' r _ _ evs _ deed kept listed =>
    by_cases mine : q' = q
    · subst mine
      by_cases ticket : .ticket q' ∈ X
      · cases deed with
        | make state _ stages =>
          rw [add_zero]
          exact h.make lives.one_ticket.1 lives.one_ticket.2 (by simp [state]) (by simp [stages])
        | _ => simp at ticket
      · refine h.deed deed ticket (fun n hn => ?_) listed inTime
        exact (kept n hn).resolve_right fun new => ticket new.2
    · refine h.mono _ (by simp [Ne.symm mine]) le_rfl (fun n hn this => ?_)
        (List.append_assoc _ _ _).symm (unnoted_lines _ ?_) ?_
      · exact (kept n hn).resolve_right fun new => mine (new.1.symm.trans this)
      · rcases deed.tells with rfl | rfl | rfl | rfl <;> simp [Event.noted, mine]
      · cases deed <;> simp [Res.noted, mine]

/-! ## The whole engine -/

theorem InTime.timelyFor (inTime : InTime l l') (q : RequestId) :
    TimelyFor q (l.view q) (l'.view q) := by
  obtain ⟨new, lines, timely⟩ := inTime
  refine ⟨history q new, by simp [Ledger.view, lines], fun e he cancelled u read => ?_⟩
  have := timely e (List.mem_filter.mp he).1
  rw [cancelled] at this
  exact this _ (List.mem_filter.mp read).1 rfl

variable {T : Transport} {W : Type} [LaneCost W]

/-- A request whose cancellation was accepted in time does not succeed, has no
target ready, and is not handed off. -/
theorem timely_cancel_never_succeeds (setup : Setup W) (dir : Directory W) (σ : T.State)
    {p : Pools T W}
    (run : Runs setup dir σ (fun s s' => InTime s.ledger s'.ledger) p)
    {u : Tid} {h : Handle} (cancelled : (u, .cancelled h) ∈ p.shared.ledger.trace) :
    (p.shared.ledger.reqs h).state ≠ .succeeded ∧
      .targetReady ∉ (p.shared.ledger.reqs h).stages ∧
      ∀ v q body, h = .transfer q → (v, .handoff q body) ∉ p.shared.ledger.trace := by
  obtain ⟨held, -, lives, noted⟩ :=
    Run.lives InTime TimelyFor (fun _ _ inTime => inTime.timelyFor) (fun s M => ∀ q, Noted q s.1 M)
      (fun q => by constructor <;> simp [World.start])
      (fun t s F X s' X' lives inv move inTime q => move.noted lives inTime (inv q)) run
  cases h with
  | transfer q =>
    have life := lives.each q
    have firm := life.firm fun _ _ timely => timely
    have dim : ¬(p.shared.ledger.life held.sum q).gist.Succeeds := by
      intro success
      obtain ⟨v, read⟩ := firm.read (.inr success)
      exact firm.apart u v (List.mem_filter.mpr ⟨cancelled, by simp [Event.about]⟩) read
    refine ⟨fun succeeded => dim (succeeds_iff.mpr (.inr ?_)),
      fun ready => dim (life.means ready), ?_⟩
    · simp [Ledger.life, Request.final, Request.terminal, succeeded, isTerminal]
    · rintro v _ body ⟨⟩ sent
      exact dim (life.handedOff (List.mem_filter.mpr ⟨sent, by simp [Event.about]⟩))
  | note q =>
    have unacked : ¬∃ v, (v, .acking q) ∈ p.shared.ledger.trace := by
      rintro ⟨v, acking⟩
      exact (noted q).apart u v cancelled acking
    refine ⟨fun succeeded => unacked ((noted q).acked (.inr (.inl succeeded))),
      fun ready => unacked ((noted q).acked (.inr (.inr ready))), ?_⟩
    rintro _ _ _ ⟨⟩

instance (l : Ledger) (e : Event) : Decidable (l.Timely e) := by
  unfold Ledger.Timely
  split <;> infer_instance

instance (l l' : Ledger) : Decidable (InTime l l') :=
  decidable_of_iff
    (l'.trace = l'.trace.take (l'.trace.length - l.trace.length) ++ l.trace ∧
      ∀ e ∈ l'.trace.take (l'.trace.length - l.trace.length), l.Timely e.2)
    ⟨fun h => ⟨_, h⟩, fun ⟨new, lines, timely⟩ => by
      have : l'.trace.take (l'.trace.length - l.trace.length) = new := by simp [lines]
      rw [this]
      exact ⟨lines, timely⟩⟩

namespace Pair

/-- All eight bytes, and tells the peer when they are there. -/
def announcedWrite : Call := .write 1 ⟨1, ⟨0, 8⟩⟩ ⟨1, ⟨0, 8⟩⟩ {}

/-- The peer acknowledges the first notification. -/
def ack : LocalAct :=
  .deliver 0 { type := ControlType.notificationAck.code, payload := encodeU64 1, conn := some 0 }

end Pair

/-- A write cancelled between its turns. -/
theorem timely_cancel_never_succeeds_write :
    ∃ p, Pair.play .nothing (fun s s' => decide (InTime s.ledger s'.ledger))
        [.spawn Pair.announcedWrite, .run 0 22, .spawn (.cancel (.transfer 1)), .run 1 1,
          .spawn .progress, .run 2 20] = some p ∧
      (1, .cancelled (.transfer 1)) ∈ p.shared.ledger.trace ∧
      (p.shared.ledger.reqs (.transfer 1)).terminal = true ∧
      (p.shared.ledger.reqs (.transfer 1)).state ≠ .succeeded ∧
      .targetReady ∉ (p.shared.ledger.reqs (.transfer 1)).stages := by
  obtain ⟨p, played, run, cancelled, finished⟩ := Pair.played .nothing
    (fun s s' => InTime s.ledger s'.ledger)
    [.spawn Pair.announcedWrite, .run 0 22, .spawn (.cancel (.transfer 1)), .run 1 1,
      .spawn .progress, .run 2 20]
    (fun p => (1, .cancelled (.transfer 1)) ∈ p.shared.ledger.trace ∧
      (p.shared.ledger.reqs (.transfer 1)).terminal = true) (by decide +kernel)
  have never := timely_cancel_never_succeeds (T := Pair.transport) Pair.setup Pair.directory
    Pair.state run cancelled
  exact ⟨p, played, cancelled, finished, never.1, never.2.1⟩

/-- A write cancelled after the thread that ends it has read the flag: it
succeeds all the same, and the peer is told so after `cancel` returned. And a
notification cancelled after `progress` looked for cancelled ones, whose
acknowledgement arrives in the same turn. -/
theorem cancel_then_success :
    (∃ p, Pair.Runs (fun _ _ => True) p ∧
      p.returned 2 = some (.cancel (.transfer 1), .status .ok) ∧
      (2, .cancelled (.transfer 1)) ∈ p.shared.ledger.trace ∧
      (p.shared.ledger.reqs (.transfer 1)).state = .succeeded ∧
      .targetReady ∈ (p.shared.ledger.reqs (.transfer 1)).stages ∧
      (1, .handoff 1 ⟨1, 1, 1, 0, 8⟩) ∈
        p.shared.ledger.trace.takeWhile (· ≠ (2, .cancelled (.transfer 1)))) ∧
    ∃ p, Pair.Runs (fun _ _ => True) p ∧
      p.returned 2 = some (.cancel (.note 1), .status .ok) ∧
      (2, .cancelled (.note 1)) ∈ p.shared.ledger.trace ∧
      (p.shared.ledger.reqs (.note 1)).state = .succeeded ∧
      .targetReady ∈ (p.shared.ledger.reqs (.note 1)).stages := by
  constructor
  · exact Pair.run_of_play .nothing
      [.spawn Pair.announcedWrite, .run 0 22, .spawn .progress, .run 1 22,
        .spawn (.cancel (.transfer 1)), .run 2 1, .run 1 9]
      (by decide +kernel)
  · exact Pair.run_of_play Pair.ack
      [.spawn (.notify 1 [7]), .run 0 9, .spawn .progress, .run 1 4, .spawn (.cancel (.note 1)),
        .run 2 1, .spawn .transportStep, .run 3 1, .run 1 9]
      (by decide +kernel)

end

end Hux
