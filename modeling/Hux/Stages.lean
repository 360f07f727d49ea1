import Hux.Delivery

/-!
# What the stages promise

* a request that is safe, not because its peer has gone, has everything it sent
  reported, and nothing more of it goes out (`safe_stages_are_sound`);
* a request is ready, reusable or handed off only when all of it has arrived
  (`success_is_sound`).
-/

namespace Hux
open Interleave (Tid Run Pool weigh le_weigh)
open Multiset (mem_filter mem_add mem_singleton_self mem_singleton mem_coe)

section
variable {ops : List SubOp} {t : Tid} {q : RequestId} {r r' : Request} {fl fl' : Bool}
  {F X X' : Multiset Res} {log log' : List (Tid × Event)} {a b : Life}

/-! ## What a history has by when -/

/-- What holds of every line and those before it. -/
def Along (P : Tid × Event → List (Tid × Event) → Prop) (log : List (Tid × Event)) : Prop :=
  ∀ x older, x :: older <:+ log → P x older

theorem Along.append {P : Tid × Event → List (Tid × Event) → Prop} (new : List (Tid × Event))
    (along : Along P log) (added : ∀ x mid, x :: mid <:+ new → P x (mid ++ log)) :
    Along P (new ++ log) := by
  induction new with
  | nil => exact along
  | cons y new ih =>
    intro x older last
    rcases List.suffix_cons_iff.mp last with same | earlier
    · obtain ⟨rfl, rfl⟩ := List.cons.inj same
      exact added _ _ (List.suffix_refl _)
    · exact ih (fun x mid h => added x mid (h.trans (List.suffix_cons _ _))) x older earlier

def Stage.safe : Stage → Bool
  | .failedSafe | .cancelledSafe => true
  | _ => false

/-- Nothing is offered once the request is claimed, and it is not safe before
all that was taken is reported. -/
structure Sound (q : RequestId) (x : Tid × Event) (older : List (Tid × Event)) : Prop where
  offer : ∀ op taken, x.2 = .offered q op taken → ∀ u, (u, .claimed q) ∉ older
  safe : ∀ s, x.2 = .staged (.transfer q) s → s.safe = true →
    (∃ u, (u, .reaped q) ∈ older) ∨ (∃ u, (u, .claimed q) ∈ older) ∧
      ((reports older).map (·.subId)).Perm ((takenOps older).map (·.subId))

variable {e : Tid × Event}

/-- A request with any milestone has been admitted. -/
theorem Course.begun (course : Course q a.gist) (he : e ∈ a.log)
    (milestone : e.2.milestone = true) : ∃ t R ops, (t, .admitted q R ops) ∈ a.log := by
  have told : e ∈ a.gist.log := List.mem_filter.mpr ⟨he, milestone⟩
  have log {e : Tid × Event} (h : e ∈ a.gist.log) : e ∈ a.log := (List.mem_filter.mp h).1
  generalize a.gist = g at course told log
  cases course with
  | fresh | numbered => cases told
  | flying s | taken s | counted s | ended s | finished s =>
    exact ⟨s.submitter, s.regions, s.ops, log (by simp [Story.past, Story.lines])⟩

variable {u : Tid}

/-- A request some thread is ending was claimed or reaped. -/
theorem Course.takenOut (course : Course q a.gist) {ph : Phase}
    (ending : .ending u q ph ∈ a.tokens) :
    (∃ u, (u, .reaped q) ∈ a.log) ∨ ∃ u, (u, .claimed q) ∈ a.log := by
  have held : .ending u q ph ∈ a.gist.hand := mem_filter.mpr ⟨ending, rfl⟩
  have log {e : Tid × Event} (h : e ∈ a.gist.log) : e ∈ a.log := (List.mem_filter.mp h).1
  generalize a.gist = g at course held log
  cases course with
  | fresh | numbered | flying | finished => simp at held
  | taken s | counted s | ended s =>
    cases taken : s.reaped
    · exact .inr ⟨s.ender, log (by simp [Story.past, Story.lines, taken])⟩
    · exact .inl ⟨s.ender, log (by simp [Story.past, Story.lines, taken])⟩

variable {s : Stage}

theorem mem_changes_staged {h : Handle} (staged : .staged h s ∈ changes h r r') :
    s ∈ r'.stages ∧ s ∉ r.stages := by
  simp only [changes, List.mem_append, List.mem_map, List.mem_filter, decide_eq_true_eq] at staged
  rcases staged with ended | ⟨s, ⟨-, new⟩, same⟩
  · split at ended <;> simp at ended
  · cases same
    exact new

variable {evs : List Event}

/-- Where a deed's stages come from. -/
theorem Deed.stages (deed : Deed t q r fl X r' fl' X' evs) (reached : s ∈ r'.stages) :
    s ∈ r.stages ∨ s = .accepted ∨
      (s = .transferComplete ∨ s = .targetReady) ∧ X' = {.ending t q .succeeding} ∨
      ∃ o reaped, X = {.ending t q (.counted o reaped)} ∧ Finishes o reaped r r' ∧ evs = [] := by
  cases deed with
  | admission new =>
    rw [new.stages] at reached
    exact .inr (.inl (Finset.mem_singleton.mp reached))
  | setState =>
    rw [r.setState_eq] at reached
    exact .inl reached
  | noteError =>
    rw [r.noteError_eq] at reached
    exact .inl reached
  | mark stage =>
    rcases Finset.mem_insert.mp reached with rfl | before
    · exact .inr (.inr (.inl ⟨stage, rfl⟩))
    · exact .inl before
  | finish how => exact .inr (.inr (.inr ⟨_, _, rfl, how, rfl⟩))
  | complete =>
    rw [r.onSubopComplete_eq] at reached
    exact .inl reached
  | cancel _ live =>
    rw [r.cancel_live live] at reached
    exact .inl reached
  | _ => exact .inl reached

/-- The lines of a change say nothing of submissions and completions. -/
theorem quiet_changes {mid : List (Tid × Event)} (h : Handle)
    (within : mid ⊆ (changes h r r').map (t, ·)) : reports mid = [] ∧ takenOps mid = [] := by
  constructor <;> refine List.filterMap_eq_nil_iff.mpr fun e he => ?_ <;>
    · obtain ⟨e, change, rfl⟩ := List.mem_map.mp (within he)
      obtain rfl | ⟨s, rfl⟩ := mem_changes change <;> rfl

theorem Sound.of_deed (deed : Deed t q r fl X r' fl' X' evs)
    (course : Course q (Life.gist ⟨r, fl, F + X, log⟩)) (honest : Honest log)
    (drained : (∃ u, (u, .claimed q) ∈ log) → ∃ ops, Drained ops ⟨r, fl, F + X, log⟩)
    {x : Tid × Event} {mid : List (Tid × Event)}
    (new : x :: mid <:+ evs.map (t, ·) ++ (changes (.transfer q) r r').map (t, ·)) :
    Sound q x (mid ++ log) := by
  refine ⟨fun op taken offered u claimed => ?_, fun s staged safe => ?_⟩
  · have told : x ∈ evs.map (t, ·) := by
      rcases List.mem_append.mp (new.subset List.mem_cons_self) with h | h
      · exact h
      · obtain ⟨e, change, rfl⟩ := List.mem_map.mp h
        obtain rfl | ⟨s, rfl⟩ := mem_changes change <;> cases offered
    obtain ⟨e, told, rfl⟩ := List.mem_map.mp told
    obtain rfl : e = .offered q op taken := offered
    cases deed with
    | @offer _ p n _ _ mine next =>
      rw [changes_self] at new
      obtain rfl : mid = [] := by
        have := new.length_le
        simpa using this
      obtain ⟨ops, drained⟩ := drained ⟨u, claimed⟩
      have none : p.ops.drop n = [] := by simpa using drained.none_left
      have bound := (List.getElem?_eq_some_iff.mp next).1
      have := List.drop_eq_nil_iff.mp none
      omega
    | _ => simp at told
  · obtain ⟨u, e⟩ := x
    obtain rfl : e = .staged (.transfer q) s := staged
    have told : .staged (.transfer q) s ∈ changes (.transfer q) r r' := by
      rcases List.mem_append.mp (new.subset List.mem_cons_self) with h | h
      · obtain ⟨e, told, same⟩ := List.mem_map.mp h
        cases same
        cases deed <;> simp at told
      · obtain ⟨e, told, same⟩ := List.mem_map.mp h
        cases same
        exact told
    obtain ⟨reached, first⟩ := mem_changes_staged told
    rcases deed.stages reached with before | rfl | ⟨rfl | rfl, -⟩ | ⟨o, gone, rfl, -, rfl⟩
    · exact absurd before first
    · cases safe
    · cases safe
    · cases safe
    · have within : mid ⊆ (changes (.transfer q) r r').map (t, ·) := fun y hy =>
        new.subset (List.mem_cons_of_mem _ hy)
      rcases course.takenOut (mem_add.mpr (.inr (mem_singleton_self _)))
        with ⟨u, reaped⟩ | ⟨u, claimed⟩
      · exact .inl ⟨u, List.mem_append_right _ reaped⟩
      · obtain ⟨ops, drained⟩ := drained ⟨u, claimed⟩
        refine .inr ⟨⟨u, List.mem_append_right _ claimed⟩, ?_⟩
        have quiet := quiet_changes _ within
        simp only [reports, takenOps, List.filterMap_append] at quiet ⊢
        rw [quiet.1, quiet.2]
        exact honest.perm drained.even

variable {ok : View → View → Prop}

theorem LifeRun.sound (honest : ∀ v v', ok v v' → Honest v'.log) (run : LifeRun ok q a)
    (small : ∀ t R ops, (t, .admitted q R ops) ∈ a.log → ops.length < 2 ^ 32) :
    Along (Sound q) a.log := by
  induction run with
  | start => exact fun x older h => by simp [Life.start] at h
  | number _ _ ih => exact ih small
  | @step a b t run step _ ih =>
    have along := ih fun t R ops h => small t R ops (step.log_grows _ h)
    cases step with
    | @deed r r' fl fl' F X X' log evs deed =>
      rw [← List.append_assoc]
      refine along.append _ fun x mid new => .of_deed deed run.course (run.honest honest) ?_ new
      rintro ⟨u, claimed⟩
      obtain ⟨t₀, R, ops, admitted⟩ := run.course.begun claimed rfl
      have bound := small t₀ R ops (List.mem_append_right _ (List.mem_append_right _ admitted))
      exact ⟨ops, (run.delivery honest admitted bound).2 ⟨u, claimed⟩⟩
    | report =>
      refine along.append _ fun x mid new => ?_
      obtain ⟨ev, -, rfl⟩ := List.mem_map.mp (new.subset List.mem_cons_self)
      exact ⟨by rintro _ _ ⟨⟩, by rintro _ ⟨⟩⟩
    | reap =>
      refine along.append [_] fun x mid new => ?_
      obtain rfl := List.mem_singleton.mp (new.subset List.mem_cons_self)
      exact ⟨by rintro _ _ ⟨⟩, by rintro _ ⟨⟩⟩
    | land | giveAway => exact along

theorem mem_history {q : RequestId} (about : e.2.about = some q) : e ∈ history q log ↔ e ∈ log := by
  simp [history, about]

theorem history_cons {q : RequestId} (about : e.2.about = some q) :
    history q (e :: log) = e :: history q log := by
  simp [history, about]

variable {T : Transport} {W : Type} [LaneCost W]

/-- Whatever the providers of a transfer reported in each state, they had taken. -/
def HonestFor (q : RequestId) (_ s : World T W) : Prop := Honest (history q s.ledger.trace)

theorem Run.life_of_honest {setup : Setup W} {dir : Directory W} {σ : T.State} {q : RequestId}
    {p : Pools T W}
    (run : Runs setup dir σ (HonestFor q) p) :
    ∃ (M : Multiset Res) (ok : View → View → Prop), (∀ v v', ok v v' → Honest v'.log) ∧
      LifeRun ok q (p.shared.ledger.life M q) := by
  obtain ⟨held, -, lives, -⟩ :=
    Run.lives (fun _ l => Honest (history q l.trace)) (fun q' _ v => q' = q → Honest v.log)
      (fun _ _ honest _ same => same ▸ honest) (fun _ _ => True) trivial
        (fun _ _ _ _ _ _ _ _ _ _ => trivial) run
  exact ⟨held.sum, _, fun _ _ h => h rfl, lives.each q⟩

/-- A request that is safe, and was not reaped, has had everything a provider
took of it reported when it gets there; and nothing is handed to a provider for
it after that. -/
theorem safe_stages_are_sound (setup : Setup W) (dir : Directory W) (σ : T.State) (q : RequestId)
    {p : Pools T W}
    (run : Runs setup dir σ (HonestFor q) p)
    (small : ∀ t R ops, (t, .admitted q R ops) ∈ p.shared.ledger.trace → ops.length < 2 ^ 32)
    {newer older : List (Tid × Event)} {t : Tid} {s : Stage}
    (reached : p.shared.ledger.trace = newer ++ (t, .staged (.transfer q) s) :: older)
    (safe : s = .failedSafe ∨ s = .cancelledSafe) (alive : ∀ u, (u, .reaped q) ∉ older) :
    ((reports (history q older)).map (·.subId)).Perm
        ((takenOps (history q older)).map (·.subId)) ∧
      ∀ u op taken, (u, .offered q op taken) ∉ newer := by
  obtain ⟨M, ok, honest, life⟩ := Run.life_of_honest run
  have along := life.sound honest fun t R ops h => small t R ops ((mem_history rfl).mp h)
  have split : (p.shared.ledger.life M q).log =
      history q newer ++ (t, .staged (.transfer q) s) :: history q older := by
    show history q p.shared.ledger.trace = _
    rw [reached, history_append, history_cons rfl]
  have sound := along (t, .staged (.transfer q) s) (history q older) ⟨_, split.symm⟩
  have isSafe : s.safe = true := by
    obtain rfl | rfl := safe <;> rfl
  rcases sound.safe s rfl isSafe with ⟨u, reaped⟩ | ⟨⟨u, claimed⟩, perm⟩
  · exact absurd ((mem_history rfl).mp reaped) (alive u)
  · refine ⟨perm, fun v op taken offered => ?_⟩
    obtain ⟨newest, later, parts⟩ := List.append_of_mem ((mem_history (q := q) rfl).mpr offered)
    rw [parts, List.append_assoc, List.cons_append] at split
    have sound := along (v, .offered q op taken) _ ⟨newest, split.symm⟩
    exact sound.offer op taken rfl u (by simp [claimed])

instance (log : List (Tid × Event)) : Decidable (Honest log) :=
  inferInstanceAs (Decidable ((_ : Multiset Nat) ≤ _))

instance (q : RequestId) (s s' : World T W) : Decidable (HonestFor q s s') :=
  inferInstanceAs (Decidable (Honest _))

/-- Whether every request of a history has few enough operations. -/
def fewOps (log : List (Tid × Event)) : Bool :=
  log.all fun e => match e.2 with
    | .admitted _ _ ops => decide (ops.length < 2 ^ 32)
    | _ => true

theorem fewOps_admitted (few : fewOps log = true) (t : Tid) (R : List RegionId) (ops : List SubOp)
    (admitted : (t, .admitted q R ops) ∈ log) : ops.length < 2 ^ 32 := by
  simpa using List.all_eq_true.mp few _ admitted

/-- Cancelled after the first of its two turns. -/
theorem safe_stages_are_sound_cancelled :
    ∃ p newer older, Pair.play .nothing (fun _ s => decide (Honest (history 1 s.ledger.trace)))
        [.spawn (Pair.write []), .run 0 21, .spawn (.cancel (.transfer 1)), .run 1 1,
          .spawn .progress, .run 2 20] = some p ∧
      p.shared.ledger.trace = newer ++ (2, .staged (.transfer 1) .cancelledSafe) :: older ∧
      (takenOps (history 1 older)).length = 1 ∧
      ((reports (history 1 older)).map (·.subId)).Perm
        ((takenOps (history 1 older)).map (·.subId)) ∧
      ∀ u op taken, (u, .offered 1 op taken) ∉ newer := by
  obtain ⟨p, played, run, reached, unreaped, one, few⟩ :=
    Pair.played .nothing (fun _ s => Honest (history 1 s.ledger.trace))
      [.spawn (Pair.write []), .run 0 21, .spawn (.cancel (.transfer 1)), .run 1 1,
        .spawn .progress, .run 2 20]
      (fun p => p.shared.ledger.trace = p.shared.ledger.trace.take 2 ++
          (2, .staged (.transfer 1) .cancelledSafe) :: p.shared.ledger.trace.drop 3 ∧
        (∀ e ∈ p.shared.ledger.trace.drop 3, e.2 ≠ .reaped 1) ∧
        (takenOps (history 1 (p.shared.ledger.trace.drop 3))).length = 1 ∧
        fewOps p.shared.ledger.trace = true) (by decide +kernel)
  exact ⟨p, _, _, played, reached, one,
    safe_stages_are_sound (T := Pair.transport) Pair.setup Pair.directory Pair.state 1
      run (fewOps_admitted few) reached (.inr rfl) fun u reaped => unreaped _ reaped rfl⟩

/-! ## Success -/

/-- The thread that ends a request has decided that it succeeded. -/
@[simp] def Phase.succeeds : Phase → Bool
  | .succeeding | .counted .succeeded _ | .ended .succeeded => true
  | _ => false

@[simp] def Res.succeeds : Res → Bool
  | .ending _ _ ph => ph.succeeds
  | _ => false

def Gist.Succeeds (g : Gist) : Prop := (∃ x ∈ g.hand, x.succeeds = true) ∨ g.final = some .succeeded

theorem succeeds_iff : a.gist.Succeeds ↔
    (∃ x ∈ a.tokens, x.succeeds = true) ∨ a.req.final = some .succeeded := by
  refine or_congr_left ⟨fun ⟨x, held, h⟩ => ⟨x, (mem_filter.mp held).1, h⟩,
    fun ⟨x, held, h⟩ => ⟨x, mem_filter.mpr ⟨held, ?_⟩, h⟩⟩
  cases x <;> first | rfl | cases h

theorem Phase.Decides.succeeds {ph : Phase} {o : Outcome} {gone : Bool}
    (decided : ph.Decides o gone) :
    (Phase.counted o gone).succeeds = ph.succeeds := by
  unfold Phase.Decides at decided
  split at decided
  all_goals first
    | obtain ⟨rfl, -⟩ := decided
      rfl
    | exact decided.elim

/-- A decision for success stands. -/
theorem Course.turn_succeeds {g g' : Gist} (turn : Turn t q g g') (course : Course q g)
    (success : g.Succeeds) : g'.Succeeds := by
  rcases success with ⟨x, held, success⟩ | final
  case inr => exact .inr (course.turn_final turn final)
  have stays {F : Multiset Res} {y : Res} (h : x ∈ F + {y}) : x ∈ F ∨ x = y := by simpa using h
  have with_another {F M : Multiset Res} (h : x ∈ F) : ∃ x ∈ F + M, x.succeeds = true :=
    ⟨x, mem_add.mpr (.inl h), success⟩
  cases turn with
  | admission | giveAway =>
    rcases stays held with h | rfl
    · exact .inl ⟨x, h, success⟩
    · cases success
  | take => exact .inl (with_another held)
  | decide before =>
    rcases stays held with h | rfl
    · exact .inl (with_another h)
    · rcases before with ⟨idle, rfl⟩ | rfl <;> cases success
  | count decided =>
    rcases stays held with h | rfl
    · exact .inl (with_another h)
    · refine .inl ⟨_, mem_add.mpr (.inr (mem_singleton_self _)), ?_⟩
      exact decided.succeeds.trans success
  | @finish _ _ _ _ o | @finishLate _ _ _ _ _ o =>
    rcases stays held with h | rfl
    · exact .inl (with_another h)
    · refine .inl ⟨_, mem_add.mpr (.inr (mem_singleton_self _)), ?_⟩
      cases o <;> first | rfl | cases success
  | @publish _ _ F _ o =>
    rcases stays held with h | rfl
    · exact .inl ⟨x, h, success⟩
    · generalize last : F + {Res.ending t q (.ended o)} = H at course
      have o_succeeded : o = .succeeded := by cases o <;> first | rfl | cases success
      cases course with
      | ended s =>
        cases (add_singleton_eq last).2
        exact .inr (congrArg (some ·.state) o_succeeded)
      | fresh | flying | finished => exact absurd last add_singleton_ne
      | numbered | counted => cases (add_singleton_eq last).2
      | taken s ph undecided =>
        cases (add_singleton_eq last).2
        cases undecided

/-- No request that was decided to succeed ends otherwise. -/
theorem Course.succeeds_final {g : Gist} (course : Course q g) (success : g.Succeeds)
    {s : RequestState} (final : g.final = some s) : s = .succeeded := by
  rcases success with ⟨x, held, success⟩ | succeeded
  · cases course with
    | ended story =>
      obtain rfl := mem_singleton.mp held
      cases final
      cases h : story.outcome <;> simp_all [Outcome.state]
    | finished => simp at held
    | _ => cases final
  · exact Option.some.inj (final.symm.trans succeeded)

variable {x : Res}

theorem Deed.newly_succeeds (deed : Deed t q r fl X r' fl' X' evs) (held : x ∈ X')
    (success : x.succeeds = true) :
    (∃ x ∈ X, x.succeeds = true) ∨
      X = {.ending t q (.uncancelled false)} ∧ r.error.ok = true ∧ r' = r := by
  cases deed with
  | readError =>
    obtain rfl := mem_singleton.mp held
    cases none : r.error.ok
    · simp [none] at success
    · exact .inr ⟨rfl, rfl, rfl⟩
  | count decided =>
    obtain rfl := mem_singleton.mp held
    exact .inl ⟨_, mem_singleton_self _, decided.succeeds.symm.trans success⟩
  | @finish _ _ _ o how =>
    obtain rfl := mem_singleton.mp held
    refine .inl ⟨_, mem_singleton_self _, ?_⟩
    cases o <;> first | rfl | cases success
  | admission =>
    simp only [mem_add, mem_singleton] at held
    obtain (rfl | rfl) | rfl := held <;> cases success
  | setState | mark | handoff => exact .inl ⟨x, held, success⟩
  | split =>
    obtain ⟨p, -, rfl⟩ := List.mem_map.mp (mem_coe.mp held)
    cases success
  | settle =>
    obtain rfl := mem_singleton.mp held
    unfold settled at success
    split at success <;> cases success
  | offer | finishPart | sealIfIdle | readCancel | complete =>
    split at held <;> simp at held <;> subst held <;> cases success
  | _ => simp_all

/-- How a deed ends a request. -/
theorem Deed.ends (deed : Deed t q r fl X r' fl' X' evs) {s : RequestState}
    (final : r'.final = some s) :
    r.final = some s ∨ ∃ o gone, s = o.state ∧ X = {.ending t q (.counted o gone)} ∧
      Finishes o gone r r' ∧ r.terminal = false := by
  cases deed with
  | admission new => simp [Request.final, Request.terminal, new.state, isTerminal] at final
  | setState _ _ going => exact .inl (r.final_setState going ▸ final)
  | noteError =>
    rw [r.noteError_eq] at final
    exact .inl final
  | @finish _ _ gone o how =>
    cases live : r.terminal
    · have state := Request.finishes_state how live
      simp only [Request.final, Request.terminal, state, o.state_terminal, if_true,
        Option.some.injEq] at final
      exact .inr ⟨o, gone, final.symm, rfl, how, rfl⟩
    · exact .inl (Request.finishes_terminal how live ▸ final)
  | complete =>
    rw [r.onSubopComplete_eq] at final
    exact .inl final
  | cancel _ live =>
    rw [r.final_cancel live] at final
    cases final
  | _ => exact .inl final

/-- How a decision for success is made. -/
theorem LifeStep.newly_succeeds (step : LifeStep t q a b) (success : b.gist.Succeeds) :
    a.gist.Succeeds ∨ (∃ u, .ending u q (.uncancelled false) ∈ a.tokens) ∧ a.req.error.ok = true ∧
      b.req = a.req := by
  rw [succeeds_iff] at success ⊢
  rcases success with ⟨x, held, success⟩ | final
  · cases step with
    | @deed r r' fl fl' F X X' log evs deed =>
      rcases mem_add.mp held with h | h
      · exact .inl (.inl ⟨x, mem_add.mpr (.inl h), success⟩)
      · rcases deed.newly_succeeds h success with ⟨x, h, success⟩ | ⟨rfl, ok, same⟩
        · exact .inl (.inl ⟨x, mem_add.mpr (.inr h), success⟩)
        · exact .inr ⟨⟨t, by simp⟩, ok, same⟩
    | land | reap =>
      rcases mem_add.mp held with h | h
      · exact .inl (.inl ⟨x, by simp [h], success⟩)
      · obtain rfl := mem_singleton.mp h
        cases success
    | report =>
      rcases mem_add.mp held with h | h
      · exact .inl (.inl ⟨x, h, success⟩)
      · obtain ⟨ev, -, rfl⟩ := List.mem_map.mp (mem_coe.mp h)
        cases success
    | giveAway => exact .inl (.inl ⟨x, mem_add.mpr (.inl held), success⟩)
  · cases step with
    | @deed r r' fl fl' F X X' log evs deed =>
      rcases deed.ends final with before | ⟨o, gone, state, rfl, -, -⟩
      · exact .inl (.inr before)
      · obtain rfl : o = .succeeded := by cases o <;> first | rfl | cases state
        exact .inl (.inl ⟨.ending t q (.counted .succeeded gone), by simp, rfl⟩)
    | land | reap | report | giveAway => exact .inl (.inr final)

theorem Course.claimed (course : Course q a.gist) {idle : Bool}
    (ending : .ending u q (.uncancelled idle) ∈ a.tokens) : ∃ u, (u, .claimed q) ∈ a.log := by
  have held : .ending u q (.uncancelled idle) ∈ a.gist.hand := mem_filter.mpr ⟨ending, rfl⟩
  have log {e : Tid × Event} (h : e ∈ a.gist.log) : e ∈ a.log := (List.mem_filter.mp h).1
  generalize a.gist = g at course held log
  cases course with
  | fresh | numbered | flying | finished | counted | ended => simp at held
  | taken s ph undecided =>
    cases mem_singleton.mp held
    have unreaped : s.reaped = false := by simpa using undecided
    exact ⟨s.ender, log (by simp [Story.past, Story.lines, unreaped])⟩

/-- A request some thread decided to succeed was claimed. -/
theorem LifeRun.succeeds_claimed (run : LifeRun ok q a) (success : a.gist.Succeeds) :
    ∃ u, (u, .claimed q) ∈ a.log := by
  induction run with
  | start => simp [succeeds_iff, Life.start, Request.final, Request.terminal, isTerminal] at success
  | number _ _ ih =>
    refine ih (succeeds_iff.mpr ?_)
    simpa [succeeds_iff] using success
  | step t run step _ ih =>
    rcases step.newly_succeeds success with before | ⟨⟨u, ending⟩, -⟩
    · obtain ⟨u, claimed⟩ := ih before
      exact ⟨u, step.log_grows _ claimed⟩
    · obtain ⟨u, claimed⟩ := run.course.claimed ending
      exact ⟨u, step.log_grows _ claimed⟩

/-- Held by a thread that ends a request for its last completion. -/
def Res.prompted : Res → Bool
  | .lastEvent _ | .ending _ _ (.claimed false) | .ending _ _ (.uncancelled false) => true
  | _ => false

theorem of_mem_work {f : Res → Bool} {c : Bool} (part : ∀ p, f (.part p) = c)
    {ps : List PendingSubmit} (hx : x ∈ work ps) : f x = c := by
  obtain ⟨p, -, rfl⟩ := List.mem_map.mp (mem_coe.mp hx)
  exact part p

theorem Deed.prompted (deed : Deed t q r fl X r' fl' X' evs) (held : x ∈ X')
    (prompted : x.prompted = true) : (∃ x ∈ X, x.prompted = true) ∨ ∃ ev, .found ev ∈ X := by
  cases deed with
  | admission =>
    simp only [mem_add, mem_singleton] at held
    obtain (rfl | rfl) | rfl := held <;> cases prompted
  | split => simp [of_mem_work (f := Res.prompted) (fun _ => rfl) held] at prompted
  | setState _ lane =>
    obtain rfl := mem_singleton.mp held
    obtain ⟨p, n, rfl | rfl⟩ := lane <;> cases prompted
  | settle =>
    rw [mem_singleton.mp held] at prompted
    rw [settled_weight (f := Res.prompted) (fun _ => rfl) (fun _ => rfl)] at prompted
    cases prompted
  | complete => exact .inr ⟨_, mem_singleton_self _⟩
  | claim last =>
    obtain rfl := mem_singleton.mp held
    obtain ⟨-, rfl⟩ | ⟨rfl, -⟩ := last
    · cases prompted
    · exact .inl ⟨_, mem_singleton_self _, rfl⟩
  | @readCancel _ idle =>
    obtain rfl := mem_singleton.mp held
    cases flag : r.cancelRequested <;> simp only [flag] at prompted
    · cases idle
      · exact .inl ⟨_, mem_singleton_self _, rfl⟩
      · cases prompted
    · cases prompted
  | offer | finishPart | sealIfIdle | readError =>
    split at held <;> simp at held <;> subst held <;> cases prompted
  | _ => simp_all [Res.prompted]

theorem exists_report {log : List (Tid × Event)} (some : 0 < (reports log).length) :
    ∃ u ev, (u, .reported ev) ∈ log := by
  obtain ⟨ev, told⟩ := List.exists_mem_of_length_pos some
  obtain ⟨⟨u, e⟩, line, report⟩ := List.mem_filterMap.mp told
  cases e with
  | reported ev' => exact ⟨u, ev', line⟩
  | _ => cases report

theorem exists_offer {log : List (Tid × Event)} {op : SubOp}
    (taken : op ∈ takenOps (history q log)) : ∃ u, (u, .offered q op true) ∈ log := by
  obtain ⟨⟨u, e⟩, line, took⟩ := List.mem_filterMap.mp taken
  obtain ⟨traced, about⟩ := List.mem_filter.mp line
  cases e with
  | offered q' op' b =>
    cases b with
    | false => cases took
    | true =>
      cases took
      obtain rfl : q' = q := by simpa [Event.about] using about
      exact ⟨u, traced⟩
  | _ => cases took

theorem LifeRun.prompted_reported (run : LifeRun ok q a) (held : x ∈ a.tokens)
    (prompted : x.prompted = true) : ∃ u ev, (u, .reported ev) ∈ a.log := by
  induction run generalizing x with
  | start => simp [Life.start] at held
  | number _ _ ih =>
    rcases mem_add.mp held with h | h
    · exact ih h prompted
    · obtain rfl := mem_singleton.mp h
      cases prompted
  | @step a b t run step _ ih =>
    have grows (before : ∃ u ev, (u, Event.reported ev) ∈ a.log) :
        ∃ u ev, (u, Event.reported ev) ∈ b.log := by
      obtain ⟨u, ev, told⟩ := before
      exact ⟨u, ev, step.log_grows _ told⟩
    cases step with
    | @deed r r' fl fl' F X X' log evs deed =>
      rcases mem_add.mp held with h | h
      · exact grows (ih (mem_add.mpr (.inl h)) prompted)
      · rcases deed.prompted h prompted with ⟨y, hy, prompted⟩ | ⟨ev, found⟩
        · exact grows (ih (mem_add.mpr (.inr hy)) prompted)
        · have owed := le_weigh (f := Res.undelivered) (mem_add.mpr (.inr found) : _ ∈ F + X)
          exact grows (exists_report (Nat.lt_of_lt_of_le Nat.one_pos
            (owed.trans run.undelivered_le)))
    | land | reap =>
      rcases mem_add.mp held with h | h
      · exact grows (ih (by simp [h]) prompted)
      · obtain rfl := mem_singleton.mp h
        cases prompted
    | report =>
      rcases mem_add.mp held with h | h
      · exact grows (ih h prompted)
      · obtain ⟨ev, -, rfl⟩ := List.mem_map.mp (mem_coe.mp h)
        cases prompted
    | giveAway => exact grows (ih (mem_add.mpr (.inl held)) prompted)

/-- And it was told of a completion. -/
theorem LifeRun.succeeds_reported (run : LifeRun ok q a) (success : a.gist.Succeeds) :
    ∃ u ev, (u, .reported ev) ∈ a.log := by
  induction run with
  | start => simp [succeeds_iff, Life.start, Request.final, Request.terminal, isTerminal] at success
  | number _ _ ih =>
    refine ih (succeeds_iff.mpr ?_)
    simpa [succeeds_iff] using success
  | step t run step _ ih =>
    rcases step.newly_succeeds success with before | ⟨⟨u, ending⟩, -⟩
    · obtain ⟨u, ev, told⟩ := ih before
      exact ⟨u, ev, step.log_grows _ told⟩
    · obtain ⟨u, ev, told⟩ := run.prompted_reported ending rfl
      exact ⟨u, ev, step.log_grows _ told⟩

/-- A drained request gets no error but by failing. -/
theorem Drained.step_error (step : LifeStep t q a b) (used : .ticket q ∉ a.tokens)
    (drained : Drained ops a) : b.req.error = a.req.error ∨ b.req.final = some .failed := by
  cases step with
  | @deed r r' fl fl' F X X' log evs deed =>
    cases deed with
    | admission => simp at used
    | setState => exact .inl (by rw [r.setState_eq])
    | @noteError _ p => exact absurd drained.none_left (by simpa using p.left)
    | complete => cases drained.none_undelivered
    | @finish _ _ _ o how =>
      cases live : r.terminal
      · cases o with
        | succeeded => exact .inl (by rw [show r' = _ from how, r.finishSuccess_live live])
        | failed =>
          refine .inr ?_
          rw [Request.final, Request.terminal, Request.finishes_state how live]
          rfl
        | cancelled => exact .inl (by rw [show r' = _ from how, r.finishCancelled_live live])
      · exact .inl (by rw [Request.finishes_terminal how live])
    | cancel _ live => exact .inl (by rw [r.cancel_live live])
    | _ => exact .inl rfl
  | land | report | reap | giveAway => exact .inl rfl

theorem LifeStep.takenOps_le (step : LifeStep t q a b) :
    (takenOps a.log).length ≤ (takenOps b.log).length := by
  cases step with
  | deed => simp [takenOps_deed]
  | report => simp [takenOps_reported]
  | reap => simp [takenOps, Event.takenOp]
  | land | giveAway => exact le_rfl

/-- A request some thread decided to succeed has no error and was taken whole. -/
theorem LifeRun.arrived (honest : ∀ v v', ok v v' → Honest v'.log) (run : LifeRun ok q a)
    {t₀ : Tid} {R : List RegionId} (admitted : (t₀, .admitted q R ops) ∈ a.log)
    (small : ops.length < 2 ^ 32) (success : a.gist.Succeeds) :
    a.req.error.ok = true ∧ (takenOps a.log).length = ops.length := by
  induction run with
  | start => cases admitted
  | number _ untouched =>
    obtain ⟨ev, h⟩ := untouched.log _ admitted
    cases h
  | @step a b t run step allowed ih =>
    have next := run.step t step allowed
    have newly_succeeds := step.newly_succeeds success
    obtain ⟨u, claimed⟩ : ∃ u, (u, .claimed q) ∈ a.log := by
      rcases newly_succeeds with before | ⟨⟨u, ending⟩, -⟩
      exacts [run.succeeds_claimed before, run.course.claimed ending]
    obtain ⟨t₁, R₁, ops₁, earlier⟩ := run.course.begun claimed rfl
    obtain ⟨rfl, rfl, rfl⟩ := next.course.admitted_once admitted (step.log_grows _ earlier)
    have drained := (run.delivery honest earlier small).2 ⟨u, claimed⟩
    obtain ⟨error, whole⟩ : b.req.error.ok = true ∧ (takenOps a.log).length = ops.length := by
      rcases newly_succeeds with before | ⟨⟨v, ending⟩, none, same⟩
      · obtain ⟨none, whole⟩ := ih earlier before
        refine ⟨?_, whole⟩
        rcases drained.step_error step (run.course.past earlier) with same | failed
        · rw [same, none]
        · cases next.course.succeeds_final success failed
      · refine ⟨same ▸ none, ?_⟩
        have heavy : 0 < weigh Res.uncancelled a.tokens :=
          Nat.lt_of_lt_of_le Nat.one_pos (le_weigh (f := Res.uncancelled) ending)
        rcases drained.uncancelled heavy with bad | whole
        · simp [none] at bad
        · exact whole
    have least := step.takenOps_le
    have most := (next.books_of admitted small).taken_le
    exact ⟨error, by omega⟩

theorem LifeStep.succeeds_keeps (step : LifeStep t q a b) (course : Course q a.gist)
    (success : a.gist.Succeeds) : b.gist.Succeeds := by
  rcases step.gist with same | turn
  · exact same ▸ success
  · exact course.turn_succeeds turn success

theorem LifeStep.final_keeps (step : LifeStep t q a b) (course : Course q a.gist)
    {s : RequestState} (final : a.req.final = some s) : b.req.final = some s := by
  rcases step.gist with same | turn
  · exact (congrArg (·.final) same).trans final
  · exact course.turn_final turn final

/-- What reaching a stage says of the request that reached it. -/
def Stage.Means (s : Stage) (a : Life) : Prop :=
  match s with
  | .targetReady | .sourceReusable => a.gist.Succeeds
  | .failedSafe => a.req.final = some .failed
  | .cancelledSafe => a.req.final = some .cancelled
  | _ => True

theorem Stage.Means.keeps (step : LifeStep t q a b) (course : Course q a.gist) (means : s.Means a) :
    s.Means b := by
  cases s with
  | targetReady | sourceReusable => exact step.succeeds_keeps course means
  | failedSafe | cancelledSafe => exact step.final_keeps course means
  | _ => trivial

theorem Finishes.means {o : Outcome} {gone : Bool} (how : Finishes o gone r r')
    (live : r.terminal = false) (reached : s ∈ r'.stages) :
    s ∈ r.stages ∨ s.Means ⟨r', fl, F, log⟩ := by
  have final : r'.final = some o.state := by
    simp [Request.final, Request.terminal, Request.finishes_state how live, o.state_terminal]
  cases o with
  | succeeded =>
    rw [show r' = _ from how, r.finishSuccess_live live] at reached
    simp only [Finset.mem_insert] at reached
    obtain rfl | rfl | rfl | before := reached
    exacts [.inr trivial, .inr (.inr final), .inr (.inr final), .inl before]
  | failed =>
    obtain ⟨e, rfl, -⟩ := how
    rw [r.fail_live e live] at reached
    obtain rfl | before := Finset.mem_insert.mp reached
    exacts [.inr final, .inl before]
  | cancelled =>
    rw [show r' = _ from how, r.finishCancelled_live live] at reached
    obtain rfl | before := Finset.mem_insert.mp reached
    exacts [.inr final, .inl before]

theorem LifeStep.means (step : LifeStep t q a b) (reached : s ∈ b.req.stages) :
    s ∈ a.req.stages ∨ s.Means b := by
  cases step with
  | @deed r r' fl fl' F X X' log evs deed =>
    rcases deed.stages reached with before | rfl | ⟨rfl | rfl, rfl⟩ | ⟨o, gone, -, how, -⟩
    · exact .inl before
    · exact .inr trivial
    · exact .inr trivial
    · exact .inr (succeeds_iff.mpr (.inl ⟨.ending t q .succeeding, by simp, rfl⟩))
    · cases live : r.terminal
      · exact how.means live reached
      · exact .inl (Request.finishes_terminal how live ▸ reached)
  | land | report | reap | giveAway => exact .inl reached

theorem LifeStep.handsOff (step : LifeStep t q a b) {body : ReadyHandoffBody}
    (sent : (u, .handoff q body) ∈ b.log) (first : (u, .handoff q body) ∉ a.log) :
    b.gist.Succeeds := by
  obtain ⟨r, r', fl, fl', F, X, X', log, evs, deed, rfl, rfl, told⟩ := step.told sent first rfl
  cases deed with
  | handoff => exact succeeds_iff.mpr (.inl ⟨.ending t q .succeeding, by simp, rfl⟩)
  | _ => simp at told

theorem LifeRun.means (run : LifeRun ok q a) (reached : s ∈ a.req.stages) : s.Means a := by
  induction run with
  | start =>
    obtain rfl : s = .accepted := by simpa [Life.start] using reached
    trivial
  | @number a _ _ ih =>
    have means := ih reached
    cases s with
    | targetReady | sourceReusable =>
      refine succeeds_iff.mpr ((succeeds_iff.mp means).imp_left ?_)
      rintro ⟨x, held, success⟩
      exact ⟨x, mem_add.mpr (.inl held), success⟩
    | _ => exact means
  | step t run step _ ih =>
    rcases step.means reached with before | means
    · exact (ih before).keeps step run.course
    · exact means

theorem LifeRun.handedOff (run : LifeRun ok q a) {body : ReadyHandoffBody}
    (sent : (u, .handoff q body) ∈ a.log) : a.gist.Succeeds := by
  induction run with
  | start => cases sent
  | number _ untouched =>
    obtain ⟨ev, h⟩ := untouched.log _ sent
    cases h
  | @step a _ t run step _ ih =>
    by_cases before : (u, .handoff q body) ∈ a.log
    · exact step.succeeds_keeps run.course (ih before)
    · exact step.handsOff sent before

/-- A request succeeds only once a provider has taken something of it. -/
theorem Run.success_taken {setup : Setup W} {dir : Directory W} {σ : T.State} {q : RequestId}
    {p : Pools T W} {ok : World T W → World T W → Prop}
    (run : Runs setup dir σ ok p)
    (honest : Honest (history q p.shared.ledger.trace))
    (succeeded : (p.shared.ledger.reqs (.transfer q)).state = .succeeded) :
    ∃ u op, (u, .offered q op true) ∈ p.shared.ledger.trace := by
  obtain ⟨M, life⟩ := Run.life run q
  have success : (p.shared.ledger.life M q).gist.Succeeds :=
    .inr (by simp [Life.gist, Ledger.life, Request.final, Request.terminal, succeeded, isTerminal])
  obtain ⟨u, ev, told⟩ := life.succeeds_reported success
  have some : 0 < (takenOps (history q p.shared.ledger.trace)).length := by
    refine Nat.lt_of_lt_of_le (List.length_pos_of_mem (a := ev) ?_) honest.length_le
    exact List.mem_filterMap.mpr ⟨_, told, rfl⟩
  obtain ⟨op, taken⟩ := List.exists_mem_of_length_pos some
  obtain ⟨v, line⟩ := exists_offer taken
  exact ⟨v, op, line⟩

/-- A request succeeds, has its target ready or its source reusable, or is handed
off, only when all of its operations were taken, each was reported once and
without an error, and it has no error; and it is never ready as well as safe, or
safe in two ways. -/
theorem success_is_sound (setup : Setup W) (dir : Directory W) (σ : T.State) (q : RequestId)
    {p : Pools T W}
    (run : Runs setup dir σ (HonestFor q) p)
    (small : ∀ t R ops, (t, .admitted q R ops) ∈ p.shared.ledger.trace → ops.length < 2 ^ 32) :
    ((p.shared.ledger.reqs (.transfer q)).state = .succeeded ∨
      .targetReady ∈ (p.shared.ledger.reqs (.transfer q)).stages ∨
      .sourceReusable ∈ (p.shared.ledger.reqs (.transfer q)).stages ∨
      (∃ u body, (u, .handoff q body) ∈ p.shared.ledger.trace) →
      ∃ t R ops, (t, .admitted q R ops) ∈ p.shared.ledger.trace ∧
        (p.shared.ledger.reqs (.transfer q)).totalSubops = ops.length ∧
        (takenOps (history q p.shared.ledger.trace)).Perm ops ∧
        ((reports (history q p.shared.ledger.trace)).map (·.subId)).Perm (ops.map (·.subId)) ∧
        (∀ ev ∈ reports (history q p.shared.ledger.trace), ev.status = .ok) ∧
        (p.shared.ledger.reqs (.transfer q)).error.ok = true) ∧
    ∀ s ∈ [Stage.targetReady, .failedSafe, .cancelledSafe],
      ∀ s' ∈ [Stage.targetReady, .failedSafe, .cancelledSafe],
      s ∈ (p.shared.ledger.reqs (.transfer q)).stages →
      s' ∈ (p.shared.ledger.reqs (.transfer q)).stages → s = s' := by
  obtain ⟨M, ok, honest, life⟩ := Run.life_of_honest run
  refine ⟨fun good => ?_, fun s hs s' hs' reached reached' => ?_⟩
  · have success : (p.shared.ledger.life M q).gist.Succeeds := by
      rcases good with succeeded | ready | reusable | ⟨u, body, sent⟩
      · exact .inr (by simp [Life.gist, Ledger.life, Request.final, Request.terminal, succeeded,
          isTerminal])
      · exact life.means (s := .targetReady) ready
      · exact life.means (s := .sourceReusable) reusable
      · exact life.handedOff ((mem_history rfl).mpr sent)
    obtain ⟨u, claimed⟩ := life.succeeds_claimed success
    obtain ⟨t, R, ops, admitted⟩ := life.course.begun claimed rfl
    have traced := (mem_history rfl).mp admitted
    have few := small t R ops traced
    have books := life.books_of admitted few
    have drained := (life.delivery honest admitted few).2 ⟨u, claimed⟩
    obtain ⟨error, whole⟩ := life.arrived honest admitted few success
    have taken : (takenOps (history q p.shared.ledger.trace)).Perm ops := by
      have within := le_self_add.trans books.within
      exact Multiset.coe_eq_coe.mp (Multiset.eq_of_le_of_card_le within whole.ge)
    refine ⟨t, R, ops, traced, books.total, taken, ?_, fun ev told => ?_, error⟩
    · exact ((life.honest honest).perm drained.even).trans (taken.map _)
    · have clean := List.countP_eq_zero.mp (drained.clean error) ev told
      simpa [CompletionEvent.bad] using clean
  · have means := life.means reached
    have means' := life.means reached'
    -- such a request ends in no other way, and no request ends in two
    have success {x : RequestState} := life.course.succeeds_final (s := x)
    simp only [List.mem_cons, List.not_mem_nil, or_false] at hs hs'
    obtain rfl | rfl | rfl := hs <;> obtain rfl | rfl | rfl := hs' <;> first
      | rfl
      | cases success means means'
      | cases success means' means
      | cases means.symm.trans means'

theorem success_is_sound_pair :
    ∃ p t R ops, Pair.play .nothing (fun _ s => decide (Honest (history 1 s.ledger.trace)))
        [.spawn (Pair.write []), .run 0 21, .spawn .progress, .run 1 29] = some p ∧
      (p.shared.ledger.reqs (.transfer 1)).state = .succeeded ∧
      (t, .admitted 1 R ops) ∈ p.shared.ledger.trace ∧
      ((reports (history 1 p.shared.ledger.trace)).map (·.subId)).Perm (ops.map (·.subId)) := by
  obtain ⟨p, played, run, succeeded, few⟩ :=
    Pair.played .nothing (fun _ s => Honest (history 1 s.ledger.trace))
      [.spawn (Pair.write []), .run 0 21, .spawn .progress, .run 1 29]
      (fun p => (p.shared.ledger.reqs (.transfer 1)).state = .succeeded ∧
        fewOps p.shared.ledger.trace = true) (by decide +kernel)
  obtain ⟨t, R, ops, admitted, -, -, reported, -⟩ :=
    (success_is_sound (T := Pair.transport) Pair.setup Pair.directory Pair.state 1
      run (fewOps_admitted few)).1 (.inl succeeded)
  exact ⟨p, t, R, ops, played, succeeded, admitted, reported⟩

end

end Hux
