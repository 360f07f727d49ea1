import Hux.Admitting

/-!
# Peers that depart

The flag of a departed peer goes down before its transfers and notifications are
taken out of the tables, and stays down. A transfer or a notification that looked
at the flag before can still be recorded after.
-/

namespace Hux
open Interleave (Tid Run Onward Passage Stable Relies Upholds Pool Between Guarded Spares)

section
variable {T : Transport} {W : Type} {peer : PeerId} {ok : World T W → World T W → Prop} {t : Tid}
  {s : World T W}

/-! ## Conditions -/

/-- A step that puts a request to the peer in flight finds the peer connected. -/
def AdmitsToConnected (peer : PeerId) (s s' : World T W) : Prop :=
  Admits peer s s' → s.dir.connected peer = true

/-- A step that records a notification finds its peer connected. -/
def RecordsToConnected (s s' : World T W) : Prop :=
  ∀ n, n ∉ s.ledger.notifyPending → n ∈ s'.ledger.notifyPending →
    s.dir.connected (request (.note n.2) s').peer = true

/-- A step after the peer is known. -/
def Knowing (peer : PeerId) (ok : World T W → World T W → Prop) (s s' : World T W) : Prop :=
  ok s s' ∧ Lasting s s' ∧ Stays peer s s'

theorem stable_departed :
    Stable (Working (Knowing peer ok)) fun s : World T W => s.dir.connected peer = false := by
  intro s s' step down
  by_contra up
  simp [step.met.2.2.connected (Bool.eq_true_of_not_eq_false up)] at down

theorem relies_part (s : World T W) :
    Relies (Working (Knowing peer ok)) (Knowing peer ok) t
      (update fun s => { s with dir := { s.dir with
        connected := Function.update s.dir.connected peer false } })
      (fun _ s => s.dir.connected peer = false) s := by
  refine within_ungated.atom (effects_exchange_of (k := .peer) rfl fun s => .inr .part)
    (P := fun _ => True) (fun _ _ _ h => h) trivial ?_
  intro s e _ s' _ step _
  cases step
  simp

/-- Once `remove_peer` has begun, the flag is down. -/
theorem relies_departed (setup : Setup W) (s : World T W) :
    Relies (Working (Knowing peer ok)) (Knowing peer ok) t (removePeer setup peer)
      (fun _ s => s.dir.connected peer = false) s := by
  have effects : Effects T W ungated (removePeer setup peer) :=
    effects_removePeer (K := ungated) setup rfl rfl rfl peer
  refine (relies_part s).bind ?_
  intro _ s down
  exact within_ungated.relies (effects.2 ()) stable_departed down

/-! ## Transfers -/

theorem stable_stranded (before : Finset RequestId) :
    Stable (Working (Knowing peer (AdmitsToConnected peer))) fun s : World T W =>
      s.dir.connected peer = false ∧ s.ledger.stranded peer ⊆ before := by
  intro s s' step known
  obtain ⟨down, fewer⟩ := known
  refine ⟨stable_departed s s' step down, fun q hq => fewer ?_⟩
  obtain ⟨flying, whose⟩ := Finset.mem_filter.mp hq
  by_cases there : q ∈ s.ledger.inflight
  · have lasting := step.met.2.1
    have same := (lasting.ages _ (lasting.inflight q there)).peer
    exact Finset.mem_filter.mpr ⟨there, same.symm.trans whose⟩
  · have up := step.met.1 ⟨q, there, flying, whose⟩
    rw [down] at up
    cases up

theorem Ledger.stranded_reap {l : Ledger} {qs : List RequestId}
    (all : qs.toFinset = l.stranded peer) : (l.reap t qs).stranded peer = ∅ := by
  refine Finset.filter_eq_empty_iff.mpr fun q hq whose => ?_
  obtain ⟨flying, out⟩ := Finset.mem_sdiff.mp hq
  exact out (all ▸ Finset.mem_filter.mpr ⟨flying, whose⟩)

/-- `bump_epoch` is the first that the reaper does to a peer. -/
theorem step_reapPeer {setup : Setup W} {body : Call → Engine T W Reply}
    {p p' : Pools T W} {c : Call} {e : Answer T}
    {k : Unit → Engine T W Reply} (there : p.threads[t]? = some ⟨c, reapPeer setup peer >>= k⟩)
    (step : p.step body (.run t e) = some p') : p'.shared = { p.shared with dir :=
      { p.shared.dir with connected := Function.update p.shared.dir.connected peer false } } := by
  obtain ⟨_, taken⟩ := Pool.step_atom there step
  exact (Prod.mk.inj (Option.some.inj taken)).2.symm

/-- The erase loop takes out whatever is in flight to the peer. -/
theorem step_strand {body : Call → Engine T W Reply}
    {p p' : Pools T W} {c : Call} {e : Answer T}
    {k : List RequestId → Engine T W Reply} (there : p.threads[t]? = some ⟨c, strand peer >>= k⟩)
    (step : p.step body (.run t e) = some p') :
    p'.shared.dir = p.shared.dir ∧ p'.shared.ledger.stranded peer = ∅ := by
  obtain ⟨qs, taken⟩ := Pool.step_atom there step
  split at taken
  · split at taken
    · rename_i all
      rw [← (Prod.mk.inj (Option.some.inj taken)).2]
      exact ⟨rfl, Ledger.stranded_reap all.2⟩
    · cases taken
  · cases taken

/-! ## Notifications -/

/-- The peer has departed and no notification to it waits. -/
def NoneAwaited (peer : PeerId) (s : World T W) : Prop :=
  s.dir.connected peer = false ∧
    ∀ n ∈ s.ledger.notifyPending, (request (.note n.2) s).peer ≠ peer

theorem stable_noneAwaited :
    Stable (Working (Knowing peer RecordsToConnected)) (NoneAwaited peer : World T W → Prop) := by
  intro s s' step known
  obtain ⟨down, none⟩ := known
  refine ⟨stable_departed s s' step down, fun n hn whose => ?_⟩
  by_cases there : n ∈ s.ledger.notifyPending
  · have lasting := step.met.2.1
    have same := (lasting.ages _ (lasting.pending n there)).peer
    exact none n there (same.symm.trans whose)
  · have up := step.met.1 n there hn
    rw [whose, down] at up
    cases up

/-- The table after the first step of `end_notifications`. -/
theorem noneAwaited_forgetNotes (down : s.dir.connected peer = false) :
    NoneAwaited peer { s with ledger := s.ledger.forgetNotes fun n =>
      if false then (s.ledger.reqs (.note n.2)).cancelRequested
      else peer == 0 || (s.ledger.reqs (.note n.2)).peer == peer } := by
  refine ⟨down, fun n hn whose => ?_⟩
  have kept := (List.mem_filter.mp hn).2
  simp [show (s.ledger.reqs (.note n.2)).peer = peer from whose] at kept

theorem step_forgetNotes {body : Call → Engine T W Reply}
    {p p' : Pools T W} {c : Call} {e : Answer T}
    {g : Ledger → Nat × RequestId → Bool} {k : List RequestId → Engine T W Reply}
    (there : p.threads[t]? = some ⟨c, forgetNotes [] g >>= k⟩)
    (step : p.step body (.run t e) = some p') : p'.shared =
      { p.shared with ledger := p.shared.ledger.forgetNotes (g p.shared.ledger) } := by
  obtain ⟨ended, taken⟩ := Pool.step_atom there step
  split at taken
  · split at taken
    · exact (Prod.mk.inj (Option.some.inj taken)).2.symm
    · cases taken
  · cases taken

theorem relies_endNotifications (setup : Setup W) {e : ErrorInfo}
    (notFull : e.status ≠ .resourceExhausted) (down : s.dir.connected peer = false) :
    Relies (Working (Knowing peer RecordsToConnected)) (Knowing peer RecordsToConnected) t
      (endNotifications setup peer false e) (fun _ => NoneAwaited peer) s := by
  refine Upholds.bind (Q := fun _ => NoneAwaited peer) ?_ fun ended s none =>
    within_ungated.relies (effects_endNotes setup (by rfl) notFull ended) stable_noneAwaited none
  exact within_ungated.forgetNotes rfl stable_departed down fun s down =>
    noneAwaited_forgetNotes down

theorem relies_removePeer (setup : Setup W) (s : World T W) :
    Relies (Working (Knowing peer RecordsToConnected)) (Knowing peer RecordsToConnected) t
      (removePeer setup peer) (fun _ => NoneAwaited peer) s := by
  refine (relies_part s).bind fun _ s down => ?_
  refine within_ungated.keeping (effects_exchange_of (k := .peer) rfl fun s => .inr .erase)
    stable_departed down fun _ s down => ?_
  refine (relies_endNotifications setup (by simp) down).bind fun _ s none => ?_
  refine within_ungated.keeping (effects_look _) stable_noneAwaited none fun lanes s none => ?_
  exact within_ungated.keeping (apart_disconnectLanes _ _).effects stable_noneAwaited none
    fun _ s none => none

/-! ## Runs -/

variable [LaneCost W] {setup : Setup W} {dir : Directory W} {σ : T.State}
  {p₀ p₁ p₂ : Pools T W}

theorem working_of_known (known : dir.Numbered)
    (run : Runs setup dir σ ok p₀)
    (listed : peer ∈ p₀.shared.dir.peers) (on : Onward (Call.body T setup) ok p₀ p₁)
    (later : Onward (Call.body T setup) ok p₁ p₂) :
    Relation.ReflTransGen (Working (Knowing peer ok)) p₁.shared p₂.shared :=
  working_of_onward (fun _ _ h => h.1) (run.further on) (Run.stays known run listed on later)

/-- What `remove_peer` makes true, and no step makes false, is true once it has
returned. -/
theorem removed_keeps {P : World T W → Prop} (stable : Stable (Working (Knowing peer ok)) P)
    (relies : ∀ t s, Relies (Working (Knowing peer ok)) (Knowing peer ok) t
      (removePeer setup peer) (fun _ => P) s) (known : dir.Numbered)
    (run : Runs setup dir σ ok p₀) (listed : peer ∈ p₀.shared.dir.peers)
    (on : Onward (Call.body T setup) ok p₀ p₁) {r : Reply} (new : p₀.threads.length ≤ t)
    (done : p₁.returned t = some (.removePeer peer, r)) : P p₁.shared := by
  have narrowed := Run.stays known run listed .refl on
  have post (t : Tid) (c : Call) (_ : Reply) : Stable (Working (Knowing peer ok))
      fun s : World T W => p₀.threads.length ≤ t → c = .removePeer peer → P s :=
    fun s s' step keeps new this => stable s s' step (keeps new this)
  have calls (t : Tid) (c : Call) (s : World T W) :
      Relies (Working (Knowing peer ok)) (Knowing peer ok) t (c.body T setup)
        (fun _ s => p₀.threads.length ≤ t → c = .removePeer peer → P s) s := by
    by_cases this : c = .removePeer peer
    · subst this
      exact (relies t s).weaken fun _ _ keeps _ _ => keeps
    · exact (relies_body setup c s).weaken fun _ _ _ _ same => absurd same this
  have old : p₀.Reliant (Working (Knowing peer ok)) (Knowing peer ok)
      fun t c _ s => p₀.threads.length ≤ t → c = .removePeer peer → P s := by
    intro t th hth
    refine (reliant_of_narrower (fun _ _ h => h.1) run t th hth).weaken ?_
    intro _ _ _ new _
    exact absurd (List.getElem?_eq_some_iff.mp hth).1 (Nat.not_lt.mpr new)
  have each := (narrowed.relies (fun _ => True) (fun _ _ => True) (fun _ _ _ h => h) post
    (fun t c s _ _ _ => calls t c s) trivial old fun _ _ _ => trivial).2.1
  exact each.returned done new rfl

/-! ### Transfers -/

variable (setup) in
/-- The thread has found the peer connected, and not put its request in flight. -/
def PastConnected (peer : PeerId) (p : Pools T W) (t : Tid) : Prop :=
  Between Admits (Submitting (submitConnected setup)) peer p t

variable (setup) in
/-- The peer's flag goes down only while no thread is between its look at the flag and
its admission. -/
def DepartsUnwatched (peer : PeerId) (p p' : Pools T W) : Prop :=
  p.shared.dir.connected peer = true → p'.shared.dir.connected peer = false →
    ∀ t, ¬PastConnected setup peer p t

theorem guarded_submitConnected {found : PeerId → World T W → Prop}
    {checked : PeerId → Engine T W Reply → Prop} (peer : PeerId) (loc remote : List RegionView)
    (opts : TransferOptions) (kind : SubOpKind) :
    Guarded Admits found checked t (some peer)
      (submitConnected setup peer loc remote opts kind) := by
  have waits : Effects T W unadmitting (dependencyState none opts.after .ok) :=
    (apart_dependencyState (by simp) _ _).effects
  refine guarded_past waits fun dep => .ite trivial ?_
  refine guarded_past (effects_full setup) fun full => .ite trivial ?_
  exact guarded_submitBounded peer loc remote opts kind

theorem guarded_connected (c : Call) :
    Guarded Admits (fun i s => i = peer → s.dir.connected i = true)
      (Submitting (submitConnected setup) · c) t none (c.body T setup) := by
  refine guarded_body (fun c i loc remote opts kind submits => ?_) c
  refine guarded_past (effects_look _) fun closed => .ite trivial (.ite trivial (.ite trivial ?_))
  refine .inl ⟨(effects_look _).idles.1, fun s e connected s' step => ?_⟩
  obtain ⟨up, rfl⟩ : s.dir.connected i = connected ∧ s = s' := by
    cases step
    exact ⟨rfl, rfl⟩
  cases connected with
  | false => exact .inl trivial
  | true =>
    exact .inr ⟨i, fun _ => up, ⟨loc, remote, opts, kind, submits, rfl⟩,
      guarded_submitConnected i loc remote opts kind⟩

/-- Whoever has found the peer connected still finds it so. -/
abbrev Watchful (setup : Setup W) (peer : PeerId) (p : Pools T W) :
    Prop :=
  p.Wary Admits (fun i s => i = peer → s.dir.connected i = true)
    (Submitting (submitConnected setup))

theorem Watchful.further (watchful : Watchful setup peer p₀)
    (on : Passage (Call.body T setup) (DepartsUnwatched setup peer) p₀ p₁) :
    Watchful setup peer p₁ ∧ Onward (Call.body T setup) (AdmitsToConnected peer) p₀ p₁ := by
  have finds := on.finds (fun t c => guarded_connected c) not_admits watchful
    fun p p' _ _ unwatched i t between up _ is => by
      subst is
      by_contra down
      exact unwatched (up rfl) (Bool.eq_false_of_not_eq_true down) t between
  exact ⟨finds.1, Passage.mono (fun _ _ finds admits => (finds.2 peer admits).1 rfl) finds.2⟩

/-- In every run in which the flag of a known peer goes down only while no submission is
between its look at the flag and its admission: once the reaper has called `bump_epoch`,
no transfer to the peer is put in flight, and after an erase loop none is ever in flight
again. -/
theorem departed_peer_gets_no_transfer (setup : Setup W) {dir : Directory W} (known : dir.Numbered)
    (σ : T.State) {peer : PeerId} {p₀ p₁ p₂ : Pools T W}
    (run : Passage (Call.body T setup) (DepartsUnwatched setup peer)
      (.start (World.start dir σ)) p₀)
    (listed : peer ∈ p₀.shared.dir.peers)
    (on : Passage (Call.body T setup) (DepartsUnwatched setup peer) p₀ p₁)
    {t : Tid} {c : Call} {k : Unit → Engine T W Reply} {e : Answer T}
    (reaps : p₁.threads[t]? = some ⟨c, reapPeer setup peer >>= k⟩)
    (bumps : p₁.step (Call.body T setup) (.run t e) = some p₂)
    (unwatched : DepartsUnwatched setup peer p₁ p₂) :
    ∀ p₃, Passage (Call.body T setup) (DepartsUnwatched setup peer) p₂ p₃ →
      (∀ p₄, Passage (Call.body T setup) (DepartsUnwatched setup peer) p₃ p₄ →
        p₄.shared.ledger.stranded peer ⊆ p₃.shared.ledger.stranded peer) ∧
      ∀ t c k e p₄ p₅, p₃.threads[t]? = some ⟨c, strand peer >>= k⟩ →
        p₃.step (Call.body T setup) (.run t e) = some p₄ →
        Passage (Call.body T setup) (DepartsUnwatched setup peer) p₄ p₅ →
        p₅.shared.ledger.stranded peer = ∅ := by
  have begun : Watchful setup peer (.start (World.start dir σ) : Pool _ _ _ _) := .start
  obtain ⟨watchful, onward⟩ := begun.further run
  have run := Run.start.further onward
  have bumped := on.tail ⟨⟨_, bumps⟩, unwatched⟩
  have fewer {p₃ p₄} (later : Passage (Call.body T setup) (DepartsUnwatched setup peer) p₂ p₃)
      (more : Passage (Call.body T setup) (DepartsUnwatched setup peer) p₃ p₄) :
      p₃.shared.dir.connected peer = false ∧
        p₄.shared.ledger.stranded peer ⊆ p₃.shared.ledger.stranded peer := by
    obtain ⟨watchful, toBump⟩ := watchful.further bumped
    obtain ⟨watchful, onward⟩ := watchful.further later
    obtain ⟨-, rest⟩ := watchful.further more
    have down : p₂.shared.dir.connected peer = false := by simp [step_reapPeer reaps bumps]
    have down := stable_departed.later (working_of_known known run listed toBump onward) down
    exact ⟨down, ((stable_stranded _).later (working_of_known known run listed (toBump.trans onward)
      rest) ⟨down, Finset.Subset.refl _⟩).2⟩
  intro p₃ later
  refine ⟨fun p₄ more => (fewer later more).2, ?_⟩
  intro t c k e p₄ p₅ there step more
  obtain ⟨same, none⟩ := step_strand there step
  have down := (fewer later .refl).1
  have erased : Passage (Call.body T setup) (DepartsUnwatched setup peer) p₂ p₄ :=
    later.tail ⟨⟨_, step⟩, fun up _ => by simp [down] at up⟩
  have left := (fewer erased more).2
  rw [none] at left
  exact Finset.subset_empty.mp left

/-- Once the notifications of a peer whose flag is down are taken out, none waits. -/
theorem endNotifications_clears {p₃ : Pools T W}
    (known : dir.Numbered)
    (run : Runs setup dir σ RecordsToConnected p₀)
    (listed : peer ∈ p₀.shared.dir.peers)
    (on : Onward (Call.body T setup) RecordsToConnected p₀ p₁)
    (down : p₁.shared.dir.connected peer = false) {c : Call} {err : ErrorInfo}
    {k : Unit → Engine T W Reply} {e : Answer T}
    (there : p₁.threads[t]? = some ⟨c, endNotifications setup peer false err >>= k⟩)
    (step : p₁.step (Call.body T setup) (.run t e) = some p₂)
    (later : Onward (Call.body T setup) RecordsToConnected p₂ p₃) :
    ∀ n ∈ p₃.shared.ledger.notifyPending, (request (.note n.2) p₃.shared).peer ≠ peer := by
  have written := step_forgetNotes (k := fun ended => endNotes setup err ended >>= k)
    (g := fun l n => if false then (l.reqs (.note n.2)).cancelRequested
      else peer == 0 || (l.reqs (.note n.2)).peer == peer) there step
  have none : NoneAwaited peer p₂.shared := written ▸ noneAwaited_forgetNotes down
  have fewer : p₂.shared.ledger.notifyPending ⊆ p₁.shared.ledger.notifyPending := by
    rw [written]
    exact List.filter_sublist.subset
  have first : Onward (Call.body T setup) RecordsToConnected p₁ p₂ :=
    .single ⟨⟨_, step⟩, fun n out into => absurd (fewer into) out⟩
  exact (stable_noneAwaited.later (working_of_known known run listed (on.trans first) later) none).2

/-- As between the pair, but each side finds the other gone. -/
abbrev Pair.severed : Transport := { Pair.transport with alive := fun _ _ _ => false }

abbrev Pair.Severed := Pool Call (World Pair.severed ℚ) (Answer Pair.severed) Reply

/-- What the engine is answered on such a channel. -/
def Pair.answers : List (Answer Pair.severed) :=
  [.nothing, .transport .nothing, .order [], .order [1]]

instance (s s' : World T W) : Decidable (RecordsToConnected s s') :=
  decidable_of_iff (∀ n ∈ s'.ledger.notifyPending, n ∉ s.ledger.notifyPending →
      s.dir.connected (request (.note n.2) s').peer = true)
    ⟨fun h n out into => h n into out, fun h n into out => h n out into⟩

/-- A turn of progress finds the peer gone: where the reaper comes to it, after
`bump_epoch`, and before and after the erase loop. -/
def Pair.reaping : Option (Pair.Severed × Pair.Severed × Pair.Severed × Pair.Severed) := do
  let p₁ ← (Pool.start (World.start Pair.directory Pair.state)).play
    (Call.body Pair.severed Pair.setup) (fun p _ => p.threads.all (·.call.transfer.isNone))
    Pair.answers [.spawn .progress, .run 0 3]
  let p₂ ← p₁.step (Call.body Pair.severed Pair.setup) (.run 0 .nothing)
  let p₃ ← p₂.play (Call.body Pair.severed Pair.setup)
    (fun p _ => p.threads.all (·.call.transfer.isNone)) Pair.answers [.run 0 2]
  let p₄ ← p₃.step (Call.body Pair.severed Pair.setup) (.run 0 (.order []))
  pure (p₁, p₂, p₃, p₄)

/-- Where no call submits, none is between its look at the flag and its admission. -/
theorem departsUnwatched_of_none {p p' : Pools T W}
    (none : p.threads.all (·.call.transfer.isNone) = true) : DepartsUnwatched setup peer p p' := by
  intro _ _ t between
  obtain ⟨th, first, there, -, ⟨loc, remote, opts, kind, submits, -⟩, -⟩ := between
  have silent := List.all_eq_true.mp none th (List.mem_of_getElem? there)
  simp [submits] at silent

theorem passage_of_none {p p' : Pools T W} {answers : List (Answer T)}
    {cues : List (Interleave.Cue Call)} (played : p.play (Call.body T setup)
      (fun p _ => p.threads.all (·.call.transfer.isNone)) answers cues = some p') :
    Passage (Call.body T setup) (DepartsUnwatched setup peer) p p' :=
  Passage.mono (fun _ _ => departsUnwatched_of_none) (Passage.play played)

/-- A turn of progress that finds the peer gone. -/
theorem departed_peer_gets_no_transfer_severed :
    ∃ (p₁ p₂ p₃ p₄ : Pair.Severed) (k k' : _ → Engine Pair.severed ℚ Reply),
      Passage (Call.body Pair.severed Pair.setup)
        (DepartsUnwatched Pair.setup 1) (.start (World.start Pair.directory Pair.state)) p₁ ∧
      p₁.threads[0]? = some ⟨.progress, reapPeer Pair.setup 1 >>= k⟩ ∧
      p₁.step (Call.body Pair.severed Pair.setup) (.run 0 .nothing) = some p₂ ∧
      p₃.threads[0]? = some ⟨.progress, strand 1 >>= k'⟩ ∧
      p₃.step (Call.body Pair.severed Pair.setup) (.run 0 (.order [])) = some p₄ ∧
      ∀ p₅, Passage (Call.body Pair.severed Pair.setup) (DepartsUnwatched Pair.setup 1) p₄ p₅ →
        p₅.shared.ledger.stranded 1 = ∅ := by
  have shown : (Pair.reaping.map fun x =>
      (x.1.shared.dir.peers, x.1.threads.all (·.call.transfer.isNone))) = some ([1], true) := rfl
  have reaps : ∃ (k : Unit → Engine Pair.severed ℚ Status)
    (k' : Status → Engine Pair.severed ℚ Reply), (Pair.reaping.map fun x => x.1.threads[0]?) =
        some (some ⟨.progress, reapPeers Pair.setup [1] >>= k >>= k'⟩) := ⟨_, _, rfl⟩
  have strands : ∃ k', (Pair.reaping.map fun x => x.2.2.1.threads[0]?) =
      some (some ⟨.progress, strand 1 >>= k'⟩) := ⟨_, rfl⟩
  obtain ⟨k₀, k₁, reaps⟩ := reaps
  obtain ⟨k', strands⟩ := strands
  cases reaped : Pair.reaping with
  | none => cases reaped
  | some x =>
    rw [reaped] at shown reaps strands
    simp only [Pair.reaping, Option.bind_eq_bind, Option.bind_eq_some_iff, Option.pure_def,
      Option.some.injEq] at reaped
    obtain ⟨p₁, first, p₂, bumps, p₃, second, p₄, erases, rfl⟩ := reaped
    simp only [Option.map_some, Option.some.injEq, Prod.mk.injEq, reapPeers,
      Interleave.Prog.bind_assoc] at shown reaps strands
    have run : Passage _ (DepartsUnwatched Pair.setup 1) _ p₁ := passage_of_none first
    have gone := departed_peer_gets_no_transfer (T := Pair.severed) Pair.setup Pair.numbered
      Pair.state run (by simp [shown.1]) .refl reaps bumps (departsUnwatched_of_none shown.2)
    exact ⟨p₁, p₂, p₃, p₄, _, k', run, reaps, bumps, strands, erases,
      fun p₅ => (gone p₃ (passage_of_none second)).2 0 _ _ _ p₄ p₅ strands erases⟩

/-- A write finds the peer connected; another thread finds it gone and takes its
transfers out; then the write is put in flight. -/
theorem transfer_admitted_to_departed_peer :
    ∃ p₁ p₂, Run (Call.body Pair.severed Pair.setup) (fun _ _ => True)
        (World.start Pair.directory Pair.state) p₁ ∧
      Onward (Call.body Pair.severed Pair.setup) (fun _ _ => True) p₁ p₂ ∧
      p₁.returned 1 = some (.progress, .status .ok) ∧
      p₁.shared.dir.connected 1 = false ∧ p₁.shared.ledger.inflight = ∅ ∧
      p₂.shared.ledger.stranded 1 = {1} := by
  exact Run.of_enacts _ _ _
    [(Pair.answers, [.spawn (Pair.write []), .run 0 2, .spawn .progress, .run 1 13])]
    [(Pair.answers, [.run 0 9])] _ (by decide +kernel)

end

end Hux
