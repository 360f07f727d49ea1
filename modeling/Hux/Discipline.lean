import Hux.Effects

/-!
# The engine's programs keep to the moves

One lemma for each function of the engine: with which resources it can be
called, and with which it returns. `Idle` programs need none and leave none.
This module has the functions that end, post and submit transfers; `Conduct` has
the others.
-/

namespace Hux
open Interleave (Tid Moves Framed Follows)

section
variable {T : Transport} {W : Type} {α β : Type} {t : Tid} {q : RequestId}

def moves (T : Transport) (W : Type) : Moves (World T W) Res := fun t s M s' M' =>
  Move T t (s.ledger, s.transport) M (s'.ledger, s'.transport) M'

/-- Run by thread `t` with resources `M`, the program keeps to the moves and
returns as `Q` says. -/
abbrev Keeps (T : Transport) (W : Type) (t : Tid) (p : Engine T W α) (Q : α → Multiset Res → Prop)
    (M : Multiset Res) : Prop :=
  Follows (moves T W) t p Q M

/-- The program uses up all of them. -/
abbrev Spends (T : Transport) (W : Type) (t : Tid) (p : Engine T W α) (M : Multiset Res) : Prop :=
  Keeps T W t p (fun _ M' => M' = 0) M

/-- The program needs no resources and leaves none. -/
def Idle (T : Transport) (W : Type) (p : Engine T W α) : Prop := ∀ t, Spends T W t p 0

variable {Q : α → Multiset Res → Prop} {M : Multiset Res}

theorem Keeps.ret {a : α} (h : Q a M) : Keeps T W t (pure a : Engine T W α) Q M := h

theorem Keeps.next {p : Engine T W α} {g : α → Engine T W β} {Q' : β → Multiset Res → Prop}
    (h : Keeps T W t p Q M) (hg : ∀ a M', Q a M' → Keeps T W t (g a) Q' M') :
    Keeps T W t (p >>= g) Q' M :=
  Follows.bind h hg

/-- A part that uses none of them, with what is known of its result. -/
theorem Keeps.knowing {p : Engine T W α} {g : α → Engine T W β} {P : α → Prop}
    {R : β → Multiset Res → Prop} (h : Keeps T W t p (fun a M => M = 0 ∧ P a) 0)
    (hg : ∀ a, P a → Keeps T W t (g a) R M) : Keeps T W t (p >>= g) R M := by
  rw [← add_zero M]
  refine Follows.seq h ?_
  rintro a _ ⟨rfl, ha⟩
  simpa using hg a ha

namespace Idle

theorem pure (a : α) : Idle T W (pure a : Engine T W α) := fun _ => Keeps.ret rfl

variable {p : Engine T W α}

theorem next {g : α → Engine T W β} {Q : β → Multiset Res → Prop} {M : Multiset Res}
    (h : Idle T W p) (hg : ∀ a, Keeps T W t (g a) Q M) : Keeps T W t (p >>= g) Q M :=
  Keeps.knowing ((h t).weaken fun _ _ none => ⟨none, trivial⟩) fun a _ => hg a

theorem bind {g : α → Engine T W β} (h : Idle T W p) (hg : ∀ a, Idle T W (g a)) :
    Idle T W (p >>= g) := fun t => h.next fun a => hg a t

theorem ite {c : Prop} [Decidable c] {p' : Engine T W α} (h : Idle T W p) (h' : Idle T W p') :
    Idle T W (if c then p else p') := by
  split <;> assumption

end Idle

/-! ## Atoms -/

theorem Apart.idle {p : Engine T W α} (apart : Apart T W .univ p) : Idle T W p := by
  intro t
  refine apart.follows ?_ 0
  rintro s s' ⟨⟨ledger, touched⟩, -⟩
  rw [moves, ledger]
  exact .touch touched

theorem idle_look (f : World T W → α) : Idle T W (look f) := by
  intro t s e b s' h
  cases h
  exact ⟨0, .of (.touch .refl), rfl⟩

theorem idle_exchange (f : World T W → α × World T W) : Idle T W (exchange f) := by
  intro t s e b s' h
  cases h
  exact ⟨0, .of (.touch .refl), rfl⟩

theorem idle_update (f : World T W → World T W) : Idle T W (update f) := idle_exchange _

theorem idle_count (f : Counters → Counters) : Idle T W (count f) := idle_update _

theorem idle_remark (r : Remark) : Idle T W (remark r) := idle_update _

/-- A step that changes nothing a move is about, whatever the thread holds. -/
theorem framed_still {s s' : World T W} (ledger : s'.ledger = s.ledger)
    (transport : s'.transport = s.transport) (M : Multiset Res) :
    Framed (moves T W) t s M s' M :=
  ⟨M, 0, 0, (add_zero M).symm, (add_zero M).symm, by
    simpa only [moves, ledger, transport] using Move.touch .refl⟩

variable {X : Multiset Res}

/-- An atom that writes the ledger. -/
theorem keeps_transact {f : Tid → World T W → α × Ledger}
    (move : ∀ s : World T W, ∃ X', Move T t (s.ledger, s.transport) X ((f t s).2, s.transport) X' ∧
      Q (f t s).1 X') :
    Keeps T W t (transact f) Q X := by
  intro s e b s' h
  cases h
  obtain ⟨X', hm, hq⟩ := move s
  exact ⟨X', .of hm, hq⟩

/-- One that does not write it on some branch, whatever the thread holds. -/
theorem keeps_transact_or {f : Tid → World T W → α × Ledger}
    (move : ∀ s : World T W, (f t s).2 = s.ledger ∧ Q (f t s).1 X ∨
      ∃ X', Move T t (s.ledger, s.transport) X ((f t s).2, s.transport) X' ∧ Q (f t s).1 X') :
    Keeps T W t (transact f) Q X := by
  intro s e b s' h
  cases h
  obtain ⟨same, hq⟩ | ⟨X', hm, hq⟩ := move s
  · refine ⟨X, framed_still ?_ ?_ X, hq⟩
    exacts [same, rfl]
  · exact ⟨X', .of hm, hq⟩

theorem keeps_write {f : Tid → Ledger → Ledger} {Y : Multiset Res}
    (move : ∀ (l : Ledger) (σ : T.State), Move T t (l, σ) X (f t l, σ) Y) :
    Keeps T W t (write f) (fun _ M => M = Y) X := by
  intro s e b s' h
  cases h
  exact ⟨Y, .of (move _ _), rfl⟩

variable {r : Request} {X' : Multiset Res}

/-- A deed that admits nothing. -/
theorem Move.of_deed {l l' : Ledger} {σ : T.State} {fl : Bool} {evs : List Event}
    (deed : Deed t q (l.reqs (.transfer q)) (l.flying q) X r fl X' evs)
    (same : l' = l.apply t q r fl evs) (none : ∀ regions ops, .admitted q regions ops ∉ evs) :
    Move T t (l, σ) X (l', σ) X' :=
  same ▸ .deed deed .refl fun regions ops h => absurd h (none regions ops)

/-- A read that tells the thread something about the request. -/
theorem Move.of_read {l : Ledger} {σ : T.State}
    (deed : Deed t q (l.reqs (.transfer q)) (l.flying q) X (l.reqs (.transfer q)) (l.flying q) X'
      []) :
    Move T t (l, σ) X (l, σ) X' :=
  .of_deed deed (l.self_eq_apply t q) (by simp)

theorem keeps_look {f : World T W → α}
    (move : ∀ s : World T W, ∃ X', Move T t (s.ledger, s.transport) X (s.ledger, s.transport) X' ∧
      Q (f s) X') :
    Keeps T W t (look f) Q X := by
  intro s e b s' h
  cases h
  obtain ⟨X', hm, hq⟩ := move s
  exact ⟨X', .of hm, hq⟩

variable {f : Request → Request}

theorem keeps_modify (deed : ∀ r fl, Deed t q r fl X (f r) fl X' []) :
    Keeps T W t (modify (.transfer q) f) (fun _ M => M = X') X :=
  keeps_write fun l _ => .of_deed (deed _ _) (l.put_eq_apply t q _) (by simp)

/-! ## Ending a request -/

variable {x : Res}

theorem keeps_claim {idle : Bool}
    (last : x = .idle q ∧ idle = true ∨ x = .lastEvent q ∧ idle = false) :
    Keeps T W t (claim q)
      (fun won M => M = if won then {.ending t q (.claimed idle)} else 0) {x} := by
  refine keeps_transact fun s => ?_
  by_cases h : q ∈ s.ledger.inflight
  · have flying : s.ledger.flying q = true := by simp [Ledger.flying, h]
    refine ⟨{.ending t q (.claimed idle)}, ?_, by simp [h]⟩
    simp only [h, if_true]
    exact .of_deed (by rw [flying]; exact .claim last) (s.ledger.claim_eq_apply t q) (by simp)
  · have grounded : s.ledger.flying q = false := by simp [Ledger.flying, h]
    refine ⟨0, ?_, by simp [h]⟩
    simp only [h, if_false]
    exact .of_read (by rw [grounded]; exact .missed (last.imp And.left And.left))

theorem keeps_readCancel {idle : Bool} :
    Keeps T W t (readCancel q)
      (fun flag M => M = {.ending t q (if flag then .cancelling else .uncancelled idle)})
      {.ending t q (.claimed idle)} :=
  keeps_transact fun s =>
    ⟨_, .of_deed .readCancel (s.ledger.log_eq_apply t q _ (by simp) (by simp)) (by simp), rfl⟩

variable {ph : Phase} {o : Outcome} {reaped : Bool}

theorem keeps_countEnding (decided : ph.Decides o reaped) :
    Keeps T W t (countEnding q o)
      (fun _ M => M = {.ending t q (.counted o reaped)}) {.ending t q ph} :=
  keeps_write fun l _ => .of_deed (.count decided) (l.count_eq_apply t q o) (by simp)

theorem keeps_finish (how : ∀ r, Finishes o reaped r (f r)) :
    Keeps T W t (modify (.transfer q) f)
      (fun _ M => M = {.ending t q (.ended o)}) {.ending t q (.counted o reaped)} :=
  keeps_modify fun r _ => .finish (how r)

variable {setup : Setup W}

theorem keeps_publish : Spends T W t (publish setup (.transfer q)) {.ending t q (.ended o)} := by
  intro s e b s' h
  cases h
  refine ⟨0, .of ?_, rfl⟩
  exact .of_deed .publish (s.ledger.log_eq_apply t q _ (by simp) (by simp)) (by simp)

/-- Counted, finished and published, in this order. -/
theorem keeps_ending (decided : ph.Decides o reaped) (how : ∀ r, Finishes o reaped r (f r)) :
    Spends T W t (do countEnding q o; modify (.transfer q) f; publish setup (.transfer q))
      {.ending t q ph} := by
  refine (keeps_countEnding decided).onto fun _ => ?_
  refine (keeps_finish how).onto fun _ => ?_
  exact keeps_publish

/-- The same with the error read again before it is recorded. -/
theorem keeps_failing (decided : ph.Decides .failed false) : Spends T W t (do
      countEnding q .failed
      let e ← look fun s => (request (.transfer q) s).error
      modify (.transfer q) (Request.fail · e)
      publish setup (.transfer q)) {.ending t q ph} := by
  refine (keeps_countEnding decided).onto fun _ => ?_
  refine (idle_look _).next fun e => ?_
  have how (r : Request) : Finishes .failed false r (r.fail e) := ⟨e, rfl, nofun⟩
  refine (keeps_finish how).onto fun _ => ?_
  exact keeps_publish

theorem keeps_endAbandoned : Spends T W t (endAbandoned setup q) {.idle q} := by
  refine (keeps_claim (.inl ⟨rfl, rfl⟩)).onto fun won => ?_
  cases won with
  | false => exact Keeps.ret rfl
  | true =>
    refine keeps_readCancel.onto fun flag => ?_
    cases flag with
    | false => exact keeps_failing ⟨rfl, rfl⟩
    | true => exact keeps_ending ⟨rfl, rfl⟩ fun _ => rfl

theorem keeps_partDone (lane : x = .spent q ∨ ∃ p, p.req = q ∧ x = .part p) :
    Spends T W t (partDone setup q) {x} := by
  have finish : Keeps T W t (transact fun t s =>
      ((request (.transfer q) s).partFinished.1,
        s.ledger.put t (.transfer q) (request (.transfer q) s).partFinished.2))
      (fun last M => M = if last then {.lastPart q} else 0) {x} :=
    keeps_transact fun s =>
      ⟨_, .of_deed (.finishPart lane) (s.ledger.put_eq_apply t q _) (by simp), rfl⟩
  refine finish.onto fun last => ?_
  cases last with
  | false => exact Keeps.ret rfl
  | true =>
    have abandoning : Keeps T W t (look fun s => (request (.transfer q) s).abandoning)
        (fun stopped M => M = if stopped then {.abandoned q} else 0) {.lastPart q} := by
      refine keeps_look fun s => ?_
      cases h : (request (.transfer q) s).abandoning with
      | false => exact ⟨_, .of_read (.giveUp h), rfl⟩
      | true => exact ⟨_, .of_read (.sawAbandoning h), rfl⟩
    refine abandoning.onto fun stopped => ?_
    cases stopped with
    | false => exact Keeps.ret rfl
    | true =>
      have sealing : Keeps T W t (transact fun t s =>
          ((request (.transfer q) s).sealIfIdle.1,
            s.ledger.put t (.transfer q) (request (.transfer q) s).sealIfIdle.2))
          (fun idle M => M = if idle then {.idle q} else 0) {.abandoned q} :=
        keeps_transact fun s =>
          ⟨_, .of_deed .sealIfIdle (s.ledger.put_eq_apply t q _) (by simp), rfl⟩
      refine sealing.onto fun idle => ?_
      cases idle with
      | false => exact Keeps.ret rfl
      | true => exact keeps_endAbandoned

/-! ## Posting -/

variable {p : PendingSubmit} {n : Nat}

theorem keeps_offer {op : SubOp} (next : p.ops[n]? = some op) :
    Keeps T W t (offer p.req p.provider p.conn op)
      (fun taken M => M = {if taken then .landing p n else .posting p n}) {.posting p n} := by
  intro s e b s' h
  dsimp only at h
  split at h
  · simp only [Option.map_eq_some_iff, Prod.exists, Prod.mk.injEq] at h
    obtain ⟨taken, σ', answer, rfl, rfl⟩ := h
    exact ⟨_, .of (.offer next answer), rfl⟩
  · cases h

theorem keeps_land {op : SubOp} (next : p.ops[n]? = some op) :
    Keeps T W t (land p.provider p.conn op)
      (fun _ M => M = {.posting p (n + 1)}) {.landing p n} := by
  intro s e b s' h
  cases h
  exact ⟨_, .of (.land next), rfl⟩

/-- The invariant of the submission loop: the slice starts where the count of
those taken is. -/
theorem keeps_submitLoop (slice : List SubOp) (n : Nat)
    (at_n : ∃ later, p.ops.drop n = slice ++ later) :
    Keeps T W t (submitLoop p.req p.provider p.conn slice n)
      (fun r M => M = {.posting p r.1} ∧ n ≤ r.1 ∧ r.1 ≤ n + slice.length) {.posting p n} := by
  induction slice generalizing n with
  | nil => exact Keeps.ret ⟨rfl, le_rfl, le_rfl⟩
  | cons op rest ih =>
    obtain ⟨later, at_n⟩ := at_n
    have next : p.ops[n]? = some op := by
      have : (p.ops.drop n)[0]? = some op := by simp [at_n]
      simpa using this
    refine (keeps_offer next).onto fun taken => ?_
    cases taken with
    | false =>
      exact Keeps.ret ⟨rfl, le_rfl, Nat.le_add_right _ _⟩
    | true =>
      refine (keeps_land next).onto fun _ => ?_
      have rest_at : p.ops.drop (n + 1) = rest ++ later := by
        rw [← List.drop_drop, at_n]
        rfl
      refine (ih (n + 1) ⟨later, rest_at⟩).weaken ?_
      rintro r M ⟨hM, lower, upper⟩
      refine ⟨hM, by omega, ?_⟩
      simp only [List.length_cons]
      omega

theorem keeps_submit (k : Nat) :
    Keeps T W t (submit p.req p.provider p.conn (p.ops.take k))
      (fun sr M => ∃ n ≤ (p.ops.take k).length, sr.accepted = u32 n ∧ M = {.posting p n})
      {.posting p 0} := by
  refine (keeps_submitLoop (p.ops.take k) 0 ⟨p.ops.drop k, by simp⟩).next ?_
  rintro ⟨n, refused⟩ _ ⟨rfl, -, upper⟩
  refine (apart_finish _ _ _ _).idle.next ?_
  rintro ⟨status, errno⟩
  exact Keeps.ret ⟨n, by simpa using upper, rfl, rfl⟩

theorem keeps_setState {s : RequestState} (mine : x.about = some q)
    (held : ∃ p n, x = .part p ∨ x = .posting p n) (going : isTerminal s = false) :
    Keeps T W t (modify (.transfer q) (Request.setState · s)) (fun _ M => M = {x})
      {x} :=
  keeps_modify fun _ _ => .setState mine held going

theorem keeps_noteError {news : News} {e : ErrorInfo}
    (flagged : news.unflagged = false → e.mayHaveModifiedTarget = true) :
    Keeps T W t (noteError p.req news e) (fun _ M => M = {.part p}) {.part p} :=
  keeps_write fun l _ => .of_deed (.noteError rfl flagged)
    (l.put_log_eq_apply t p.req _ _ (by simp) (by simp)) (by simp)

theorem submitError_flagged (sr : SubmitResult) (provider : Wire.Bytes) (peer : PeerId)
    (outstanding : Nat) (taken : (News.refusal outstanding).unflagged = false) :
    (submitError sr provider peer outstanding).mayHaveModifiedTarget = true := by
  simpa [submitError, Nat.pos_iff_ne_zero] using taken

theorem PendingSubmit.rest_of_lt (h : n < p.ops.length) : ∃ later, p.rest n = some later := by
  have left : p.ops.drop n ≠ [] := by simpa using h
  exact ⟨_, dif_neg left⟩

theorem PendingSubmit.rest_req {later : PendingSubmit} (h : p.rest n = some later) :
    later.req = p.req ∧ later.after = p.after ∧ later.ops = p.ops.drop n := by
  unfold PendingSubmit.rest at h
  split at h
  · cases h
  · cases h; exact ⟨rfl, rfl, rfl⟩

/-- What a lane's turn leaves in hand is what it returns for a later turn. -/
def Later (later : Option PendingSubmit) (M : Multiset Res) : Prop :=
  M = work later.toList

theorem keeps_partDone_none (lane : x = .spent p.req ∨ ∃ p', p'.req = p.req ∧ x = .part p') :
    Keeps T W t (do partDone setup p.req; pure none) Later
      {x} := by
  refine (keeps_partDone lane).onto fun _ => ?_
  exact Keeps.ret rfl

theorem settled_of_rest {later : PendingSubmit} (h : p.rest n = some later) :
    settled p n = .part later := by
  simp [settled, h]

theorem keeps_finishTurn {offered : Nat} (within : offered ≤ p.ops.length) {sr : SubmitResult}
    (upTo : sr.accepted ≤ offered) :
    Keeps T W t (finishTurn setup p offered sr) Later
      {settled p sr.accepted} := by
  unfold finishTurn
  split
  · rename_i deferred
    obtain ⟨later, rest⟩ := PendingSubmit.rest_of_lt (p := p) (deferred.1.trans_le within)
    refine (idle_count _).next fun _ => Keeps.ret ?_
    rw [settled_of_rest rest, rest]
    rfl
  · rename_i notDeferred
    split
    · split
      · rename_i later rest
        rw [settled_of_rest rest]
        exact Keeps.ret rfl
      · rename_i rest
        have spent : settled p sr.accepted = .spent p.req := by simp [settled, rest]
        rw [spent]
        exact keeps_partDone_none (.inl rfl)
    · rename_i short
      -- fewer than offered, so something of the lane is left to be given up
      obtain ⟨later, rest⟩ := PendingSubmit.rest_of_lt (p := p)
        ((lt_of_le_of_ne upTo short).trans_le within)
      have mine := (PendingSubmit.rest_req rest).1
      rw [settled_of_rest rest, ← mine]
      refine (idle_look _).next fun outstanding => ?_
      refine (keeps_noteError (submitError_flagged _ _ _ _)).onto fun _ => ?_
      refine (keeps_setState rfl ⟨later, 0, .inl rfl⟩ rfl).onto fun _ => ?_
      refine (keeps_partDone (.inr ⟨later, rfl, rfl⟩)).onto fun _ => ?_
      exact Keeps.ret rfl

theorem keeps_postOps (maxBytes : Nat) :
    Keeps T W t (postOps setup p maxBytes) Later
      {.part p} := by
  have clear : Keeps T W t (transact fun t s =>
      if (request (.transfer p.req) s).abandoning then (true, s.ledger)
      else (false, s.ledger.log t (.cleared p.req)))
      (fun abandoning M => M = if abandoning then {.part p} else {.posting p 0}) {.part p} := by
    refine keeps_transact_or fun s => ?_
    cases h : (request (.transfer p.req) s).abandoning with
    | true => exact .inl ⟨rfl, rfl⟩
    | false =>
      exact .inr ⟨_, .of_deed (.clear rfl h)
        (s.ledger.log_eq_apply t p.req _ (by simp) (by simp)) (by simp), rfl⟩
  refine clear.onto fun abandoning => ?_
  cases abandoning with
  | true => exact keeps_partDone_none (.inr ⟨p, rfl, rfl⟩)
  | false =>
    refine (keeps_setState rfl ⟨p, 0, .inr rfl⟩ rfl).onto fun _ => ?_
    refine (keeps_submit _).next ?_
    rintro ⟨accepted, status, errno⟩ _ ⟨n, bound, rfl, rfl⟩
    refine (keeps_write (Y := {settled p (u32 n)}) fun l σ => .of_deed (.settle rfl)
      (l.put_log_eq_apply t p.req _ _ (by simp) (by simp)) (by simp)).onto fun _ => ?_
    exact keeps_finishTurn (List.length_take_le' _ _) ((Nat.mod_le n _).trans bound)

theorem keeps_pushPending (ps : List PendingSubmit) : Spends T W t (pushPending ps) (work ps) := by
  intro s e b s' h
  cases h
  exact ⟨0, .of .defer, rfl⟩

theorem keeps_drainTurn : Keeps T W t (drainTurn setup p) Later {.part p} := by
  refine (idle_look _).next fun abandoning => ?_
  split
  · exact keeps_postOps _
  · refine (apart_dependencyState (fun _ => Set.mem_univ _) _ _).idle.next fun d => ?_
    split
    · exact Keeps.ret rfl
    · split
      · refine (keeps_noteError (by simp)).onto fun _ => ?_
        exact keeps_postOps _
      · exact keeps_postOps _

theorem keeps_drainLoop (ps : List PendingSubmit) :
    Keeps T W t (drainLoop setup ps)
      (fun kept M => M = work kept) (work ps) := by
  induction ps with
  | nil => exact Keeps.ret rfl
  | cons p rest ih =>
    rw [work_cons]
    refine Follows.beside keeps_drainTurn fun kept => ?_
    rw [add_comm]
    refine Follows.beside ih fun more => ?_
    exact Keeps.ret (work_append _ _).symm

theorem keeps_takePending : Keeps T W t takePending (fun ps M => M = work ps) 0 := by
  intro s e b s' h
  dsimp only at h
  split at h
  · cases h
    exact ⟨0, .of (.touch .refl), rfl⟩
  · cases h
    refine ⟨_, .of (.drain ?_), rfl⟩
    exact List.perm_append_comm.trans (List.Perm.of_eq (List.take_append_drop _ _))

theorem idle_drainPending : Idle T W (drainPending setup) := by
  intro t
  refine keeps_takePending.onto fun turn => ?_
  refine (keeps_drainLoop turn).onto fun waiting => ?_
  split
  · exact keeps_pushPending waiting
  · rename_i none
    have empty : waiting = [] := by simpa using none
    exact Keeps.ret (by simp [empty])

/-! ## Admission -/

/-- What the lookups found, as far as it does not depend on when. -/
structure Resolved [LaneCost W] (g : Plan W) (loc : List RegionView) (b : Build W)
    (r : Except Status (Build W)) : Prop where
  ok : ∀ b', r = .ok b' → ∃ segs, segs.map (·.region.id) = loc.map (·.region) ∧
    splitSegments g segs b = .ok b'
  error : ∀ s, r = .error s → s ≠ .ok

theorem keeps_findRegion (id : RegionId) :
    Keeps T W t (lookup.findRegion id)
      (fun r M => M = 0 ∧ ∀ lr ∈ r, lr.id = id) 0 := by
  refine keeps_look fun s => ⟨0, .touch .refl, rfl, fun lr h => ?_⟩
  simpa using List.find?_some h

theorem keeps_buildLoop [LaneCost W] {g : Plan W} {peer : PeerId} (loc remote : List RegionView)
    (b : Build W) (same : loc.length = remote.length) :
    Keeps T W t (buildLoop lookup g peer loc remote b)
      (fun r M => M = 0 ∧ Resolved g loc b r) 0 := by
  have refuse {loc : List RegionView} {b : Build W} {s : Status} (h : s ≠ .ok) :
      Keeps T W t (pure (.error s))
        (fun r M => M = 0 ∧ Resolved g loc b r) 0 :=
    Keeps.ret ⟨rfl, ⟨nofun, by rintro _ ⟨⟩; exact h⟩⟩
  induction loc generalizing remote b with
  | nil =>
    refine Keeps.ret ⟨rfl, ⟨fun b' h => ⟨[], rfl, ?_⟩, nofun⟩⟩
    simpa [splitSegments] using h
  | cons l ls ih =>
    obtain - | ⟨r, rs⟩ := remote
    · cases same
    refine (keeps_findRegion _).next ?_
    rintro (- | lr) _ ⟨rfl, found⟩
    · exact refuse (by decide)
    refine (idle_look _).next fun retired => ?_
    split
    · exact refuse (by decide)
    refine (idle_look _).next fun imported => ?_
    split
    · exact refuse (by decide)
    rename_i ptr desc
    refine (idle_look _).next fun valid => ?_
    split
    · split
      · rename_i s refused
        exact refuse (splitSegment_error refused)
      · rename_i b₁ first
        refine (ih rs b₁ (Nat.succ.inj same)).weaken ?_
        rintro result M ⟨rfl, ok, error⟩
        refine ⟨rfl, ⟨fun b' h => ?_, error⟩⟩
        obtain ⟨segs, ids, rest⟩ := ok b' h
        refine ⟨⟨lr, desc, l.span, r.span⟩ :: segs, ?_, by simp only [splitSegments, first, rest]⟩
        simp [ids, found lr rfl]
    · exact refuse (by decide)

/-- What is known of the lanes' work once it is built. -/
structure BuiltFor (q : RequestId) (loc : List RegionView) (lanes : List (Lane W))
    (r : Except Status Built) : Prop where
  held : ∀ built, r = .ok built → built.held = loc.map (·.region)
  lanes : ∀ built, r = .ok built → built.perLane.length = lanes.length
  mine : ∀ built, r = .ok built → ∀ op ∈ built.perLane.flatten, op.request = q
  error : ∀ s, r = .error s → s ≠ .ok

theorem keeps_buildSubops [LaneCost W] {caps : ProviderId → ProviderCaps} {chunkBytes : Nat}
    {peer : PeerId} {loc remote : List RegionView} {kind : SubOpKind} (lanes : List (Lane W))
    (same : loc.length = remote.length) :
    Keeps T W t (buildSubops lookup caps chunkBytes peer loc remote kind q lanes)
      (fun r M => M = 0 ∧ BuiltFor q loc lanes r) 0 := by
  have refuse {s : Status} (h : s ≠ .ok) :
      Keeps T W t (pure (.error s))
        (fun r M => M = 0 ∧ BuiltFor q loc lanes r) 0 := by
    exact Keeps.ret ⟨rfl, ⟨nofun, nofun, nofun, by rintro _ ⟨⟩; exact h⟩⟩
  unfold buildSubops
  split
  · exact refuse (by decide)
  refine (keeps_buildLoop loc remote _ same).next ?_
  rintro result _ ⟨rfl, ok, error⟩
  split
  · exact refuse (error _ rfl)
  rename_i b
  obtain ⟨segs, ids, run⟩ := ok b rfl
  obtain ⟨⟨perLane, mine⟩, held⟩ := splitSegments_grown run
  have built (addr : Nat) :
      Keeps T W t (pure (.ok ⟨b.out, b.held, addr, b.total⟩))
        (fun r M => M = 0 ∧ BuiltFor q loc lanes r) 0 := by
    refine Keeps.ret ⟨rfl, ⟨?_, ?_, ?_, nofun⟩⟩
    · rintro _ ⟨⟩
      simpa [Build.start, ids] using held
    · rintro _ ⟨⟩
      simpa [Build.start] using perLane
    · rintro _ ⟨⟩ op hop
      obtain ⟨ops, hops, hop⟩ := List.mem_flatten.mp hop
      exact mine (Build.start_mine _ _) ops hops op hop
  split
  · exact built 0
  · refine (idle_look _).next fun found => ?_
    split
    · exact built 0
    · exact built _

theorem makeParts_req (peer : PeerId) (after : List (Option EventId)) (lanes : List (Lane W))
    (perLane : List (List SubOp)) :
    ∀ p ∈ makeParts q peer after lanes perLane, p.req = q ∧ p.after = after := by
  induction lanes generalizing perLane with
  | nil => simp [makeParts]
  | cons lane lanes ih =>
    obtain - | ⟨ops, perLane⟩ := perLane
    · simp [makeParts]
    unfold makeParts
    split
    · exact ih perLane
    · exact List.forall_mem_cons.mpr ⟨⟨rfl, rfl⟩, ih perLane⟩

theorem makeParts_ops (peer : PeerId) (after : List (Option EventId)) (lanes : List (Lane W))
    (perLane : List (List SubOp)) (same : perLane.length = lanes.length) :
    (makeParts q peer after lanes perLane).flatMap (·.ops) = perLane.flatten := by
  induction lanes generalizing perLane with
  | nil => simp [makeParts, List.length_eq_zero_iff.mp same]
  | cons lane lanes ih =>
    obtain - | ⟨ops, perLane⟩ := perLane
    · cases same
    have rest := ih perLane (Nat.succ.inj same)
    unfold makeParts
    split
    · rename_i empty
      simpa [empty] using rest
    · simpa using rest

theorem keeps_postParts (parts : List PendingSubmit) :
    Spends T W t (postParts setup parts) (work parts) := by
  induction parts with
  | nil => exact Keeps.ret rfl
  | cons p rest ih =>
    rw [work_cons]
    refine Follows.beside (keeps_postOps _) fun later => ?_
    cases later with
    | none => simpa using ih
    | some later =>
      refine Follows.beside (keeps_pushPending [later]) fun _ => ?_
      simpa using ih

variable {ops : List SubOp}

theorem keeps_startParts (after : List (Option EventId)) {parts : List PendingSubmit}
    (all : parts.flatMap (·.ops) = ops) (mine : ∀ p ∈ parts, p.req = q) (some_part : parts ≠ []) :
    Spends T W t (startParts setup q after parts) {.unsplit q ops} := by
  refine (keeps_modify fun _ _ => .split all mine).onto fun _ => ?_
  obtain ⟨p, rest, rfl⟩ := List.exists_cons_of_ne_nil some_part
  obtain rfl := mine p List.mem_cons_self
  refine (apart_dependencyState (fun _ => Set.mem_univ _) _ _).idle.next fun dep => ?_
  split
  · rw [work_cons]
    refine Follows.beside (keeps_setState rfl ⟨p, 0, .inl rfl⟩ rfl) fun _ => ?_
    rw [← work_cons]
    exact keeps_pushPending _
  · split
    · rw [work_cons]
      refine Follows.beside (keeps_noteError (by simp)) fun _ => ?_
      rw [← work_cons]
      exact keeps_postParts _
    · exact keeps_postParts _

theorem keeps_admission (new : r.New ops) (mine : ∀ op ∈ ops, op.request = q) :
    Keeps T W t (admission q r ops)
      (fun s M => M = if s = .ok then
        {.admittedBy t q r.heldRegions} + {.unsplit q ops} + {.uncounted q} else {.ticket q})
      {.ticket q} := by
  refine keeps_transact_or fun s => ?_
  by_cases closed : s.closed
  · exact .inl (by simp [closed])
  by_cases stale : r.heldRegions.any s.ledger.retired
  · exact .inl (by simp [closed, stale])
  have live : ∀ R ∈ r.heldRegions, s.ledger.retired R = false := by simpa using stale
  refine .inr ⟨_, ?_, by simp [closed, stale]; rfl⟩
  simp only [closed, stale, if_false, Bool.false_eq_true, s.ledger.enter_eq_apply]
  refine .deed (.admission new mine) .refl ?_
  rintro regions ops' h R hR
  simp only [List.mem_singleton, Event.admitted.injEq] at h
  exact live R (h.2.1 ▸ hR)

theorem keeps_countAdmission (depth : Nat) :
    Spends T W t (countAdmission q depth) {.uncounted q} := by
  intro s e b s' h
  cases h
  refine ⟨0, .of ?_, rfl⟩
  exact .of_deed .accept (s.ledger.countAccepted_eq_apply t q) (by simp)

/-- What `submit_vector` returns with: a refusal that leaves at most a number
unused, or a request that holds the regions the call named. -/
def Submitted (t : Tid) (loc : List RegionView) (r : Reply) (M : Multiset Res) : Prop :=
  (∃ s, s ≠ .ok ∧ r = .request s none ∧ ∀ x ∈ M, ∃ q, x = .ticket q) ∨
    ∃ q, r = .request .ok (some (.transfer q)) ∧ M = {.admittedBy t q (loc.map (·.region))}

theorem keeps_launch (after : List (Option EventId)) {parts : List PendingSubmit}
    (new : r.New ops) (own : ∀ op ∈ ops, op.request = q) (all : parts.flatMap (·.ops) = ops)
    (mine : ∀ p ∈ parts, p.req = q) (some_part : parts ≠ []) :
    Keeps T W t (launch setup q r ops after parts)
      (fun reply M =>
        (∃ s, s ≠ .ok ∧ reply = .request s none ∧ ∀ x ∈ M, ∃ q, x = .ticket q) ∨
          reply = .request .ok (some (.transfer q)) ∧ M = {.admittedBy t q r.heldRegions})
      {.ticket q} := by
  refine (keeps_admission new own).onto fun s => ?_
  split
  · rw [if_pos rfl]
    refine (idle_look _).next fun depth => ?_
    refine Follows.spend (keeps_countAdmission depth) fun _ => ?_
    refine Follows.beside (keeps_startParts after all mine some_part) fun _ => ?_
    exact Keeps.ret (.inr ⟨rfl, add_zero _⟩)
  · rename_i refused
    rw [if_neg (by simpa using refused)]
    exact Keeps.ret (.inl ⟨s, by simpa using refused, rfl, by simp⟩)

theorem keeps_submitVector [LaneCost W] (peer : PeerId) (loc remote : List RegionView)
    (opts : TransferOptions) (kind : SubOpKind) :
    Keeps T W t (submitVector setup peer loc remote opts kind) (Submitted t loc)
      0 := by
  have refuse {s : Status} (h : s ≠ .ok) :
      Keeps T W t (pure (.request s none)) (Submitted t loc) 0 :=
    Keeps.ret (.inl ⟨s, h, rfl, by simp⟩)
  have refuse' {s : Status} {q : RequestId} (h : s ≠ .ok) :
      Keeps T W t (pure (.request s none)) (Submitted t loc) {.ticket q} :=
    Keeps.ret (.inl ⟨s, h, rfl, by simp⟩)
  refine (idle_look _).next fun closed => ?_
  split; · exact refuse (by decide)
  split; · exact refuse (by decide)
  rename_i shape
  split; · exact refuse (by decide)
  refine (idle_look _).next fun connected => ?_
  split; · exact refuse (by decide)
  refine (apart_dependencyState (fun _ => Set.mem_univ _) _ _).idle.next fun dep => ?_
  split
  · rename_i failed
    exact refuse failed.1
  refine (idle_exchange _).next fun full => ?_
  split; · exact refuse (by decide)
  refine (keeps_transact fun s => ⟨{.ticket s.ledger.nextRequest}, .nextId, rfl⟩ :
    Keeps T W t _ (fun q M => M = {.ticket q}) 0).onto fun q => ?_
  refine (idle_look _).next fun lanes => ?_
  have same : loc.length = remote.length := by simp_all
  refine (keeps_buildSubops lanes same).knowing fun result built => ?_
  split
  · exact refuse' (built.error _ rfl)
  rename_i b
  dsimp only
  split; · exact refuse' (by decide)
  rename_i some_op
  refine (looks_handoffTargets _ _ _ _).apart.idle.next fun targets => ?_
  have ops := makeParts_ops (q := q) peer opts.after lanes b.perLane (built.lanes b rfl)
  have parts : makeParts q peer opts.after lanes b.perLane ≠ [] := by
    intro none
    rw [none] at ops
    exact some_op (by rw [← ops]; rfl)
  refine (keeps_launch opts.after ⟨rfl, rfl, rfl, rfl, rfl, rfl, rfl, rfl, rfl, rfl⟩
    (built.mine b rfl) ops (fun p hp => (makeParts_req _ _ _ _ p hp).1) parts).weaken ?_
  rintro r M (refused | ⟨rfl, rfl⟩)
  · exact .inl refused
  · exact .inr ⟨q, rfl, by rw [← built.held b rfl]⟩

end

end Hux
