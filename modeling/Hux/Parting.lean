import Hux.Blame
import Hux.Departure
import Hux.Honesty

/-!
# What a removed peer still gets

`remove_peer` lowers the peer's flag and disconnects its lanes. It leaves
`pending_` as it is, `post_ops` does not look at the flag, and `LocalProvider`
has nothing to disconnect. So a request to the peer stops only where nothing of
it was about to be posted when the flag went down.
-/

namespace Hux
open Interleave (Tid Run Onward Stable Pool weigh weigh_eq_zero le_weigh)

/-! ## Lanes in the middle of a submission -/

section
variable {t : Tid} {q : RequestId} {r r' : Request} {fl fl' : Bool} {X X' : Multiset Res}
  {evs : List Event} {a : Life} {ok : View → View → Prop}

theorem Deed.made (deed : Deed t q r fl X r' fl' X' evs) (made : r.made = true) :
    r'.made = true := by
  cases deed with
  | admission new => exact new.made
  | setState => rw [(r.ages_setState _).made, made]
  | noteError => rw [(r.ages_noteError _).made, made]
  | complete => rw [(r.ages_onSubopComplete _).made, made]
  | cancel => rw [r.ages_cancel.made, made]
  | @finish _ _ _ o how =>
    cases o with
    | succeeded => rw [show r' = _ from how, r.ages_finishSuccess.made, made]
    | failed =>
      obtain ⟨e, rfl, -⟩ := how
      rw [(r.ages_fail e).made, made]
    | cancelled => rw [show r' = _ from how, r.ages_finishCancelled.made, made]
  | _ => exact made

theorem LifeStep.made {b : Life} (step : LifeStep t q a b) (made : a.req.made = true) :
    b.req.made = true := by
  cases step with
  | deed deed => exact deed.made made
  | land | report | reap | giveAway => exact made

/-- A request that was admitted has its object. -/
theorem LifeRun.made (run : LifeRun ok q a) {t : Tid} {R : List RegionId} {ops : List SubOp}
    (admitted : (t, .admitted q R ops) ∈ a.log) : a.req.made = true := by
  induction run with
  | start => cases admitted
  | number _ untouched =>
    obtain ⟨ev, h⟩ := untouched.log _ admitted
    cases h
  | @step a b u _ step _ ih =>
    by_cases before : (t, .admitted q R ops) ∈ a.log
    · exact step.made (ih before)
    · obtain ⟨r, r', fl, fl', F, X, X', log, evs, deed, -, rfl, told⟩ :=
        step.told admitted before rfl
      cases deed with
      | admission new => exact new.made
      | _ => simp at told

/-- So has one whose work is in some thread's hands. -/
theorem LifeRun.made_of_carried (run : LifeRun ok q a) {x : Res} (held : x ∈ a.tokens)
    (carries : x.carries ≠ []) : a.req.made = true := by
  obtain blank | ⟨t, R, ops, admitted, -⟩ := run.books
  · obtain rfl | ⟨ev, rfl⟩ := blank.tokens x held <;> exact absurd rfl carries
  · exact run.made admitted

/-- What goes out to a provider goes out between the two lines. -/
theorem LifeRun.midway (run : LifeRun ok q a) {p : PendingSubmit} {n : Nat}
    (held : .posting p n ∈ a.tokens) :
    tellings Event.settles a.log < tellings Event.clears a.log := by
  have lanes := run.lanes
  have one : Res.posts (.posting p n) ≤ weigh Res.posts a.tokens := le_weigh held
  have some : Res.posts (.posting p n) = 1 := rfl
  omega

/-- A step that hands an operation to a provider is taken by a thread that is
posting a lane; one that begins to, by a thread that has a lane's work. -/
theorem LifeStep.posted {b : Life} {lines : List (Tid × Event)} (run : LifeRun ok q a)
    (step : LifeStep t q a b) (told : b.log = lines ++ a.log) :
    (∀ u op taken, (u, .offered q op taken) ∈ lines →
      tellings Event.settles a.log < tellings Event.clears a.log) ∧
    (tellings Event.clears a.log < tellings Event.clears b.log → a.req.made = true) := by
  cases step with
  | @deed r r' fl fl' F X X' log evs deed =>
    rw [← List.append_assoc] at told
    have added := List.append_cancel_right told
    constructor
    · intro u op taken offered
      rw [← added, List.mem_append, List.mem_map, List.mem_map] at offered
      obtain ⟨e, there, same⟩ | ⟨e, there, same⟩ := offered
      · obtain ⟨-, rfl⟩ := Prod.mk.inj same
        cases deed with
        | @offer _ p n => exact run.midway (p := p) (n := n) (by simp)
        | _ => simp at there
      · obtain ⟨-, rfl⟩ := Prod.mk.inj same
        obtain h | ⟨_, h⟩ := mem_changes there <;> cases h
    · intro more
      rw [tellings_deed (fun _ _ => rfl) (fun _ _ => rfl)] at more
      cases deed with
      | @clear _ p => exact run.made_of_carried (x := .part p) (by simp) p.left
      | _ => simp at more
  | @report r fl F log evs mine =>
    have added := List.append_cancel_right told
    constructor
    · intro u op taken offered
      rw [← added] at offered
      simp at offered
    · intro more
      rw [tellings_reported fun _ => rfl] at more
      exact absurd more (Nat.lt_irrefl _)
  | reap =>
    have added : [(t, .reaped q)] = lines := List.append_cancel_right told
    constructor
    · intro u op taken offered
      rw [← added] at offered
      simp at offered
    · intro more
      simp [tellings] at more
  | land | giveAway =>
    have none : [] = lines := List.append_cancel_right told
    constructor
    · intro u op taken offered
      rw [← none] at offered
      cases offered
    · intro more
      exact absurd more (Nat.lt_irrefl _)

end

/-! ## Steps -/

section
variable {T : Transport} {W : Type}

theorem Move.told {t : Tid} {s s' : Ledger × T.State} {X X' : Multiset Res}
    (move : Move T t s X s' X') : ∃ lines, s'.1.trace = lines ++ s.1.trace := by
  cases move with
  | deed | note => exact ⟨_, (List.append_assoc ..).symm⟩
  | offer | deregister | sweep => exact ⟨[_], rfl⟩
  | poll | reap => exact ⟨_, rfl⟩
  | touch | land | nextId | defer | drain | retire | forget => exact ⟨[], rfl⟩

/-- How many lanes of a request found it not abandoned, and how many of those have
added up what the provider took. -/
def clears (q : RequestId) (s : World T W) : Nat :=
  tellings Event.clears (history q s.ledger.trace)

def settles (q : RequestId) (s : World T W) : Nat :=
  tellings Event.settles (history q s.ledger.trace)

/-- A lane of the request is being posted. -/
def Midway (q : RequestId) (s : World T W) : Prop := settles q s < clears q s

/-- What a step adds to the history: of a request, only when it has its object, and
an operation only when a lane is being posted. -/
structure Outgoing (s s' : World T W) : Prop where
  told : ∃ lines, s'.ledger.trace = lines ++ s.ledger.trace ∧
    ∀ t q op taken, (t, .offered q op taken) ∈ lines → Midway q s
  made : ∀ q, Midway q s ∨ clears q s < clears q s' → (request (.transfer q) s).made = true

variable {s : World T W}

theorem Midway.made {okq : RequestId → View → View → Prop} {M : Multiset Res} {q : RequestId}
    (lives : Lives okq s.ledger M) (midway : Midway q s) :
    (request (.transfer q) s).made = true := by
  have lanes := (lives.each q).lanes
  have some : weigh Res.posts (s.ledger.life M q).tokens ≠ 0 := by
    intro none
    rw [none, zero_add] at lanes
    exact Nat.ne_of_lt midway lanes
  obtain ⟨x, held, posts⟩ : ∃ x ∈ (s.ledger.life M q).tokens, x.posts ≠ 0 := by
    by_contra none
    push Not at none
    exact some (weigh_eq_zero none)
  refine (lives.each q).made_of_carried held ?_
  cases x with
  | posting p | landing p => exact p.left
  | _ => exact absurd rfl posts

variable {s' : World T W}

/-- A step of a life that adds a line of that kind is that deed. -/
theorem Outgoing.of_move {okq : RequestId → View → View → Prop} {t : Tid} {F X X' : Multiset Res}
    (lives : Lives okq s.ledger (F + X)) (move : moves T W t s X s' X') : Outgoing s s' := by
  obtain ⟨lines, told⟩ := move.told
  have grown (q : RequestId) : history q s'.ledger.trace =
      history q lines ++ history q s.ledger.trace := by
    rw [← history_append]
    exact congrArg (history q) told
  have each (q : RequestId) :
      (∀ u op taken, (u, .offered q op taken) ∈ history q lines → Midway q s) ∧
      (clears q s < clears q s' → (request (.transfer q) s).made = true) := by
    have still (life : history q s'.ledger.trace = history q s.ledger.trace) :
        (∀ u op taken, (u, .offered q op taken) ∈ history q lines → Midway q s) ∧
        (clears q s < clears q s' → (request (.transfer q) s).made = true) := by
      have none : history q lines = [] := List.append_cancel_right (grown q ▸ life)
      constructor
      · intro u op taken offered
        simp [none] at offered
      · intro more
        simp [clears, life] at more
    cases move.life F q with
    | same _ life => exact still (congrArg Life.log life)
    | number _ _ life => exact still (congrArg Life.log life)
    | step _ step => exact step.posted (lives.each q) (grown q)
  constructor
  · exact ⟨lines, told, fun u q op taken offered => (each q).1 u op taken
      ((mem_history rfl).mpr offered)⟩
  · intro q why
    rcases why with midway | cleared
    · exact midway.made lives
    · exact (each q).2 cleared

/-! ## Runs -/

/-- A lane is posted only while its peer is connected, and no peer's flag goes
down while a lane of a request to it is being posted. -/
structure PartsClean (s s' : World T W) : Prop where
  cleared : ∀ q, clears q s < clears q s' →
    s.dir.connected (request (.transfer q) s).peer = true
  parted : ∀ q, Midway q s → s.dir.connected (request (.transfer q) s).peer = true →
    s'.dir.connected (request (.transfer q) s).peer = true

theorem exists_told {f : Event → Bool} {q : RequestId} {log : List (Tid × Event)}
    (some : 0 < tellings f (history q log)) : ∃ e ∈ log, q ∈ e.2.about := by
  obtain ⟨e, there, -⟩ := List.countP_pos_iff.mp some
  obtain ⟨listed, about⟩ := List.mem_filter.mp there
  exact ⟨e, listed, of_decide_eq_true about⟩

instance (q : RequestId) (s : World T W) : Decidable (Midway q s) :=
  inferInstanceAs (Decidable (_ < _))

instance (s s' : World T W) : Decidable (PartsClean s s') :=
  decidable_of_iff ((∀ e ∈ s'.ledger.trace, ∀ q ∈ e.2.about, clears q s < clears q s' →
      s.dir.connected (request (.transfer q) s).peer = true) ∧
    ∀ e ∈ s.ledger.trace, ∀ q ∈ e.2.about, Midway q s →
      s.dir.connected (request (.transfer q) s).peer = true →
      s'.dir.connected (request (.transfer q) s).peer = true) <| by
    constructor
    · rintro ⟨cleared, parted⟩
      refine ⟨fun q more => ?_, fun q midway => ?_⟩
      · obtain ⟨e, there, about⟩ := exists_told (Nat.zero_lt_of_lt more)
        exact cleared e there q about more
      · obtain ⟨e, there, about⟩ := exists_told (Nat.zero_lt_of_lt midway)
        exact parted e there q about midway
    · intro clean
      exact ⟨fun _ _ q _ => clean.cleared q, fun _ _ q _ => clean.parted q⟩

variable {peer : PeerId}

/-- A flag goes down in a step that writes nothing else. -/
theorem Work.parts (work : Work s s') (up : s.dir.connected peer = true)
    (down : s'.dir.connected peer = false) : s'.ledger = s.ledger := by
  have not_same (same : s'.dir.connected = s.dir.connected) : s'.ledger = s.ledger := by
    rw [same, up] at down
    cases down
  rcases work with plain | ⟨k, effect⟩
  · exact not_same (by rw [plain.same.dir])
  cases effect with
  | part | addPeer => rfl
  | note same | settle same => exact not_same (by rw [same.dir])
  | forget _ written =>
    subst written
    exact not_same rfl
  | tables written _ _ connected =>
    subst written
    exact not_same connected
  | _ => exact not_same rfl

/-- Whatever is being posted goes to a peer that is connected. -/
def PostsToConnected (s : World T W) : Prop :=
  ∀ q, Midway q s → s.dir.connected (request (.transfer q) s).peer = true

/-- The steps of a run in which peers part cleanly. -/
def Parting (s s' : World T W) : Prop := PartsClean s s' ∧ Outgoing s s' ∧ Lasting s s'

theorem Outgoing.settles_le (posts : Outgoing s s') (q : RequestId) :
    settles q s ≤ settles q s' := by
  obtain ⟨lines, told, -⟩ := posts.told
  simp [settles, told, tellings]

theorem stable_postsToConnected :
    Stable (Working Parting) (PostsToConnected : World T W → Prop) := by
  intro s s' step toConnected q midway
  obtain ⟨clean, posts, lasting⟩ := step.met
  have begun : Midway q s ∨ clears q s < clears q s' := by
    have fewer := posts.settles_le q
    unfold Midway at midway ⊢
    omega
  have up := begun.elim (toConnected q) (clean.cleared q)
  rw [(lasting.ages _ (posts.made q begun)).peer]
  by_contra lowered
  have same := step.work.parts up (Bool.eq_false_of_not_eq_true lowered)
  have before : Midway q s := by simpa [Midway, clears, settles, same] using midway
  exact lowered (clean.parted q before up)

/-- From a state on, no operation has been handed to a provider for a peer whose
flag is down. -/
def Withheld (peer : PeerId) (older : List (Tid × Event)) (s : World T W) : Prop :=
  s.dir.connected peer = false ∧ PostsToConnected s ∧ ∃ lines, s.ledger.trace = lines ++ older ∧
    ∀ t q op taken, (t, .offered q op taken) ∈ lines →
      (request (.transfer q) s).made = true ∧ (request (.transfer q) s).peer ≠ peer

theorem stable_withheld (older : List (Tid × Event)) :
    Stable (Working fun s s' => Parting s s' ∧ Stays peer s s')
      (Withheld peer older : World T W → Prop) := by
  intro s s' step withheld
  obtain ⟨down, toConnected, lines, older, none⟩ := withheld
  obtain ⟨parting, stays⟩ := step.met
  obtain ⟨-, posts, lasting⟩ := parting
  obtain ⟨added, told, offers⟩ := posts.told
  have lasts {q : RequestId} (made : (request (.transfer q) s).made = true)
      (other : (request (.transfer q) s).peer ≠ peer) :
      (request (.transfer q) s').made = true ∧ (request (.transfer q) s').peer ≠ peer := by
    have ages := lasting.ages _ made
    rw [ages.made, ages.peer]
    exact ⟨made, other⟩
  refine ⟨?_, stable_postsToConnected s s' ⟨step.work, step.met.1, step.proper⟩ toConnected,
    added ++ lines, ?_, ?_⟩
  · by_contra up
    simp [stays.connected (Bool.eq_true_of_not_eq_false up)] at down
  · rw [told, older, List.append_assoc]
  · intro t q op taken offered
    rcases List.mem_append.mp offered with new | old
    · have midway := offers t q op taken new
      refine lasts (posts.made q (.inl midway)) fun whose => ?_
      simp [← whose, toConnected q midway] at down
    · have before := none t q op taken old
      exact lasts before.1 before.2

/-- A request stays the one it is. -/
theorem stable_target (q : RequestId) :
    Stable (Working fun s s' => Parting s s' ∧ Stays peer s s') fun s : World T W =>
      (request (.transfer q) s).made = true ∧ (request (.transfer q) s).peer = peer := by
  intro s s' step known
  obtain ⟨made, whose⟩ := known
  have ages := step.met.1.2.2.ages _ made
  rw [ages.made, ages.peer]
  exact ⟨made, whose⟩

variable [LaneCost W] {setup : Setup W} {dir : Directory W} {σ : T.State}
  {ok : World T W → World T W → Prop} {p p' : Pools T W}

/-- In every step of every run, what goes out goes out as posts do. -/
theorem Run.posts (run : Runs setup dir σ ok p)
    (on : Onward (Call.body T setup) ok p p') :
    Onward (Call.body T setup) (fun s s' => ok s s' ∧ Outgoing s s') p p' := by
  obtain ⟨held, matched, lives, -⟩ := Run.lives (fun _ _ => True) (fun _ _ _ => True)
    (fun _ _ _ _ => trivial) (fun _ _ => True) trivial (fun _ _ _ _ _ _ _ _ _ _ => trivial)
    (run.mono fun _ _ _ => trivial)
  refine (Onward.invariant (fun s M => Lives (fun _ _ _ => True) s.ledger M)
    (fun c t => body_follows c t) ?_ ?_ on matched lives).1
  · intro s M lives
    refine ⟨⟨[], rfl, by simp⟩, ?_⟩
    rintro q (midway | more)
    · exact midway.made lives
    · exact absurd more (Nat.lt_irrefl _)
  · intro t s F X s' X' lives move _
    exact ⟨lives.move move fun _ => trivial, .of_move lives move⟩

theorem Run.toConnected (known : dir.Numbered)
    (run : Runs setup dir σ PartsClean p) :
    PostsToConnected p.shared := by
  have parting : Runs setup dir σ Parting p := by
    have posted := Run.start.further (Run.posts .start run.onward)
    exact (Run.lasting known posted).mono fun _ _ h => ⟨h.1.1, h.1.2, h.2⟩
  refine run_keeps stable_postsToConnected ?_ parting
  intro q midway
  exact absurd midway (Nat.lt_irrefl _)

theorem Run.withheld (known : dir.Numbered) {p₀ p₁ p₂ : Pools T W}
    (run : Runs setup dir σ PartsClean p₀)
    (listed : peer ∈ p₀.shared.dir.peers) (on : Onward (Call.body T setup) PartsClean p₀ p₁)
    (down : p₁.shared.dir.connected peer = false)
    (later : Onward (Call.body T setup) PartsClean p₁ p₂) :
    Withheld peer p₁.shared.ledger.trace p₂.shared ∧
      Relation.ReflTransGen (Working fun s s' => Parting s s' ∧ Stays peer s s')
        p₁.shared p₂.shared := by
  have stays := Run.stays known (Run.start.further (Run.posts .start run.onward)) listed
    (Run.posts run on) (Run.posts (run.further on) later)
  have working : Relation.ReflTransGen (Working fun s s' => Parting s s' ∧ Stays peer s s')
      p₁.shared p₂.shared :=
    working_of_onward (fun _ _ h => h.1.1) (run.further on)
      (stays.mono fun _ _ h => ⟨⟨h.1.1, h.1.2, h.2.1⟩, h.2.2⟩)
  refine ⟨(stable_withheld _).later working ?_, working⟩
  exact ⟨down, Run.toConnected known (run.further on), [], rfl, by simp⟩

end

variable {W : Type} [LaneCost W]

/-- In every run in which lanes are posted only to connected peers, and no flag
goes down while a lane of a request to that peer is being posted: once
`remove_peer` has returned, no operation of a request to the peer is handed to a
provider, and one that had an operation left to post never succeeds. -/
theorem removed_peer_gets_nothing_more (paired : ProviderId → Bool) (setup : Setup W)
    {dir : Directory W} (known : dir.Numbered) {σ : LocalState} (empty : ∀ p, σ.completions p = [])
    {peer : PeerId} {t : Tid} {r : Reply}
    {p₀ p₁ p₂ : Pool Call (World (localTransport paired) W) (Answer (localTransport paired)) Reply}
    (run : Run (Call.body (localTransport paired) setup) PartsClean (World.start dir σ) p₀)
    (listed : peer ∈ p₀.shared.dir.peers)
    (on : Onward (Call.body (localTransport paired) setup) PartsClean p₀ p₁)
    (new : p₀.threads.length ≤ t) (done : p₁.returned t = some (.removePeer peer, r))
    (later : Onward (Call.body (localTransport paired) setup) PartsClean p₁ p₂) :
    (∃ lines, p₂.shared.ledger.trace = lines ++ p₁.shared.ledger.trace ∧
      ∀ u q op taken, (u, .offered q op taken) ∈ lines →
        (request (.transfer q) p₂.shared).peer ≠ peer) ∧
    ∀ u q regions ops, (u, .admitted q regions ops) ∈ p₁.shared.ledger.trace →
      ops.length < 2 ^ 32 → (request (.transfer q) p₁.shared).peer = peer →
      (takenOps (history q p₁.shared.ledger.trace)).length < ops.length →
      (request (.transfer q) p₂.shared).state ≠ .succeeded := by
  have down : p₁.shared.dir.connected peer = false :=
    removed_keeps stable_departed (fun t s => relies_departed setup s) known run listed on new done
  obtain ⟨⟨-, -, lines, told, none⟩, working⟩ := Run.withheld known run listed on down later
  refine ⟨⟨lines, told, fun u q op taken offered => (none u q op taken offered).2⟩, ?_⟩
  intro u q regions ops admitted small whose unposted succeeded
  have honest := Run.honest empty (run.further on) q
  obtain ⟨M₁, ok₁, -, life₁⟩ := Run.life_of_honest (honest.mono fun _ _ h => h.2)
  have made := life₁.made ((mem_history rfl).mpr admitted)
  have target := ((stable_target q).later working ⟨made, whose⟩).2
  -- nothing more of it was taken
  have taken : takenOps (history q p₂.shared.ledger.trace) =
      takenOps (history q p₁.shared.ledger.trace) := by
    have nothing : takenOps (history q lines) = [] := by
      apply List.filterMap_eq_nil_iff.mpr
      intro e he
      cases line : e.2 with
      | offered q' op taken =>
        obtain ⟨there, about⟩ := List.mem_filter.mp he
        obtain rfl : q' = q := by simpa [line, Event.about] using about
        exact absurd target (none e.1 q' op taken (line ▸ there)).2
      | _ => rfl
    rw [told, history_append, takenOps, List.filterMap_append]
    exact congrArg (· ++ _) nothing
  obtain ⟨M, ok, honest, life⟩ := Run.life_of_honest
    ((Run.honest empty ((run.further on).further later) q).mono fun _ _ h => h.2)
  have ended : (p₂.shared.ledger.reqs (.transfer q)).state = .succeeded := succeeded
  have success : (p₂.shared.ledger.life M q).gist.Succeeds :=
    .inr (by simp [Life.gist, Ledger.life, Request.final, Request.terminal, ended, isTerminal])
  have begun : (u, .admitted q regions ops) ∈ (p₂.shared.ledger.life M q).log :=
    (mem_history rfl).mpr (told ▸ List.mem_append_right _ admitted)
  have whole : (takenOps (history q p₂.shared.ledger.trace)).length = ops.length :=
    (life.arrived honest begun small success).2
  rw [taken] at whole
  exact Nat.ne_of_lt unposted whole

/-! ## A pair that is cut short -/

/-- What the pair's write is split into. -/
def Pair.halves : List SubOp :=
  [⟨.write, 1, 0, 4096, 1, 8192, 2, 4⟩, ⟨.write, 1, 1, 4100, 1, 8196, 2, 4⟩]

/-- The answers both parties give. -/
def Pair.whole : List (Answer Pair.transport) :=
  [.nothing, .transport .nothing, .order [], .order [1]]

/-- The first half is written and the write cancelled before the peer is removed. -/
theorem removed_peer_gets_nothing_more_cancelled :
    ∃ p₁ p₂ : Pair.Pools,
      Onward (Call.body Pair.transport Pair.setup) PartsClean
        (.start (World.start Pair.directory Pair.state)) p₁ ∧
      p₁.returned 2 = some (.removePeer 1, .status .ok) ∧
      (takenOps (history 1 p₁.shared.ledger.trace)).length = 1 ∧
      Onward (Call.body Pair.transport Pair.setup) PartsClean p₁ p₂ ∧
      p₂.returned 3 = some (.progress, .status .ok) ∧
      (request (.transfer 1) p₂.shared).state ≠ .succeeded := by
  obtain ⟨p₁, p₂, run, later, done, admitted, whose, half, progressed⟩ :=
    Run.of_enacts (Call.body Pair.transport Pair.setup) PartsClean
      (World.start Pair.directory Pair.state)
      [(Pair.whole, [.spawn (Pair.write []), .run 0 21, .spawn (.cancel (.transfer 1)), .run 1 1,
        .spawn (.removePeer 1), .run 2 5])] [(Pair.whole, [.spawn .progress, .run 3 20])]
      (fun p₁ p₂ => p₁.returned 2 = some (.removePeer 1, .status .ok) ∧
        (0, .admitted 1 [1] Pair.halves) ∈ p₁.shared.ledger.trace ∧
        (request (.transfer 1) p₁.shared).peer = 1 ∧
        (takenOps (history 1 p₁.shared.ledger.trace)).length = 1 ∧
        p₂.returned 3 = some (.progress, .status .ok)) (by decide +kernel)
  have empty (p : ProviderId) : Pair.state.completions p = [] := rfl
  have stopped := (removed_peer_gets_nothing_more (fun _ => true) Pair.setup Pair.numbered empty
    .start (by decide) run.onward (Nat.zero_le 2) done later).2 0 1 [1] Pair.halves admitted
    (by decide) whose (by rw [half]; decide)
  exact ⟨p₁, p₂, run.onward, done, half, later, progressed, stopped⟩

/-- The first half is written; the peer is removed; then the second half is
written too, and the write succeeds. -/
theorem removed_peer_is_written_to :
    ∃ p₁ p₂ : Pair.Pools,
      Onward (Call.body Pair.transport Pair.setup) (fun _ _ => True)
        (.start (World.start Pair.directory Pair.state)) p₁ ∧
      p₁.returned 1 = some (.removePeer 1, .status .ok) ∧
      (request (.transfer 1) p₁.shared).peer = 1 ∧
      (0, .admitted 1 [1] Pair.halves) ∈ p₁.shared.ledger.trace ∧
      takenOps (history 1 p₁.shared.ledger.trace) = Pair.halves.take 1 ∧
      Onward (Call.body Pair.transport Pair.setup) (fun _ _ => True) p₁ p₂ ∧
      p₂.returned 2 = some (.progress, .status .ok) ∧
      takenOps (history 1 p₂.shared.ledger.trace) = Pair.halves.reverse ∧
      (request (.transfer 1) p₂.shared).state = .succeeded := by
  obtain ⟨p₁, p₂, run, later, done, whose, admitted, half, progressed, both, succeeded⟩ :=
    Run.of_enacts (Call.body Pair.transport Pair.setup) (fun _ _ => True)
      (World.start Pair.directory Pair.state)
      [(Pair.whole, [.spawn (Pair.write []), .run 0 21, .spawn (.removePeer 1), .run 1 5])]
      [(Pair.whole, [.spawn .progress, .run 2 29])]
      (fun p₁ p₂ => p₁.returned 1 = some (.removePeer 1, .status .ok) ∧
        (request (.transfer 1) p₁.shared).peer = 1 ∧
        (0, .admitted 1 [1] Pair.halves) ∈ p₁.shared.ledger.trace ∧
        takenOps (history 1 p₁.shared.ledger.trace) = Pair.halves.take 1 ∧
        p₂.returned 2 = some (.progress, .status .ok) ∧
        takenOps (history 1 p₂.shared.ledger.trace) = Pair.halves.reverse ∧
        (request (.transfer 1) p₂.shared).state = .succeeded) (by decide +kernel)
  exact ⟨p₁, p₂, run.onward, done, whose, admitted, half, later, progressed, both, succeeded⟩

end Hux
