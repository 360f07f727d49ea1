import Hux.Amid
import Hux.Discipline
import Hux.Local

/-!
# Submission is all or nothing

A submission is judged by the steps it takes itself, each from the state it finds
to the state it leaves; the other calls do what they like in between.

* `Spared`: a step that a caller who was refused cannot tell;
* `Confined`: a step that shows only through one request;
* `Dealt`: what becomes of each operation of a request that was admitted.
-/

namespace Hux
open Interleave (Tid Ends Took Steps steps_ret steps_atom steps_true)

section
variable {T : Transport} {W : Type} {α : Type} {t : Tid} {q : RequestId}

/-! ## Steps -/

/-- Requests, queues and providers are as before. -/
structure Spared (s s' : World T W) : Prop where
  reqs : s'.ledger.reqs = s.ledger.reqs
  inflight : s'.ledger.inflight = s.ledger.inflight
  pending : s'.ledger.pending = s.ledger.pending
  completed : s'.completed = s.completed
  transport : s'.transport = s.transport

theorem Spared.refl (s : World T W) : Spared s s := ⟨rfl, rfl, rfl, rfl, rfl⟩

theorem Looks.spared {p : Engine T W α} (looks : Looks T W p) : Steps Spared p :=
  looks.mono fun s _ same => same ▸ .refl s

theorem Spared.confined {s s' : World T W} (spared : Spared s s') : Confined q s s' :=
  .of_same spared.reqs spared.inflight spared.completed

theorem Looks.confined {p : Engine T W α} (looks : Looks T W p) : Steps (Confined q) p :=
  looks.spared.mono fun _ _ => Spared.confined

/-! ### Programs that are confined -/

variable (setup : Setup W)

theorem confined_dependencyState (first : Option RequestId) (after : List (Option EventId))
    (state : Status) :
    Steps (Confined q) (dependencyState first after state : Engine T W Status) :=
  steps_dependencyState (fun _ => .of_same rfl rfl rfl) (fun _ _ _ _ _ => .of_same rfl rfl rfl) _ _

theorem confined_pushPending (ps : List PendingSubmit) :
    Steps (Confined q) (pushPending ps : Engine T W Unit) := by
  refine steps_atom fun t s e b s' step => ?_
  cases step
  exact .of_same rfl rfl rfl

theorem confined_postParts (parts : List PendingSubmit) (mine : ∀ p ∈ parts, p.req = q) :
    Steps (Confined q) (postParts setup parts : Engine T W Unit) := by
  induction parts with
  | nil => exact steps_ret _
  | cons p rest ih =>
    obtain ⟨rfl, mine⟩ := List.forall_mem_cons.mp mine
    refine .bind (own_postOps (Set.mem_univ _) (Set.mem_univ _) (Set.mem_univ _) setup p _).confined fun later => ?_
    split
    · exact .bind (confined_pushPending _) fun _ => ih mine
    · exact ih mine

theorem confined_startParts (after : List (Option EventId)) (parts : List PendingSubmit)
    (mine : ∀ p ∈ parts, p.req = q) :
    Steps (Confined q) (startParts setup q after parts : Engine T W Unit) := by
  refine .bind (steps_write fun _ _ => .put) fun _ => ?_
  refine .bind (confined_dependencyState _ _ _) fun dep => ?_
  refine .ite (.bind (steps_write fun _ _ => .put) fun _ => confined_pushPending _) (.ite ?_ ?_)
  · exact .bind (own_noteError (K := Set.univ) _ _).confined fun _ =>
      confined_postParts setup parts mine
  · exact confined_postParts setup parts mine

/-! ## Operations -/

/-- A provider accepts the operation. -/
def Accepts (t : Tid) (q : RequestId) (op : SubOp) (x : World T W × World T W) : Prop :=
  ∃ σ, x.2 = { x.1 with transport := σ, ledger := x.1.ledger.log t (.offered q op true) }

/-- It is put into `pending_`. -/
def Queues (q : RequestId) (op : SubOp) (x : World T W × World T W) : Prop :=
  ∃ ps, x.2.ledger.pending = x.1.ledger.pending ++ ps ∧ ∃ p ∈ ps, p.req = q ∧ op ∈ p.ops

/-- The request has failed, ended or been cancelled, and so gives up whatever has
not gone out. -/
def GivesUp (q : RequestId) (x : World T W × World T W) : Prop :=
  (request (.transfer q) x.2).abandoning = true

/-- What becomes of an operation by the steps `l`. -/
def Dealt (t : Tid) (q : RequestId) (op : SubOp) (l : List (World T W × World T W)) : Prop :=
  (∃ x ∈ l, Accepts t q op x) ∨ (∃ x ∈ l, Queues q op x) ∨ ∃ x ∈ l, GivesUp q x

theorem Dealt.mono {op : SubOp} {l l' : List (World T W × World T W)} (h : Dealt t q op l)
    (more : l ⊆ l') : Dealt t q op l' := by
  rcases h with ⟨x, hx, dealt⟩ | ⟨x, hx, dealt⟩ | ⟨x, hx, dealt⟩
  · exact .inl ⟨x, more hx, dealt⟩
  · exact .inr (.inl ⟨x, more hx, dealt⟩)
  · exact .inr (.inr ⟨x, more hx, dealt⟩)

/-- The first operations were accepted, and unless one was refused all were. -/
theorem ends_submitLoop (prov : ProviderId) (conn : Option ConnId) (ops : List SubOp) (n : Nat) :
    Ends t (submitLoop q prov conn ops n : Engine T W (Nat × Bool)) fun r l =>
      ∃ k ≤ ops.length, r.1 = n + k ∧ ∀ op ∈ ops.take k, ∃ x ∈ l, Accepts t q op x := by
  induction ops generalizing n with
  | nil => exact .ret ⟨0, le_rfl, rfl, by simp⟩
  | cons op rest ih =>
    have offered : Ends t (offer q prov conn op : Engine T W Bool)
        fun taken l => taken = true → ∃ x ∈ l, Accepts t q op x := by
      refine .atom fun s e taken s' step yes => ?_
      dsimp only at step
      split at step
      · obtain ⟨x, -, h⟩ := Option.map_eq_some_iff.mp step
        cases h
        exact ⟨_, List.mem_singleton_self _, x.2, by rw [yes]⟩
      · cases step
    refine offered.bind fun taken l accepted => .ite (fun yes => ?_) fun _ => ?_
    · refine (steps_true _).ends.bind fun _ l' _ => (ih (n + 1)).weaken ?_
      rintro r l'' ⟨k, few, sum, taken⟩
      refine ⟨k + 1, by simpa using few, by omega, ?_⟩
      rw [List.take_succ_cons]
      refine List.forall_mem_cons.mpr ⟨?_, fun op hop => ?_⟩
      · obtain ⟨x, hx, this⟩ := accepted yes
        exact ⟨x, by simp [hx], this⟩
      · obtain ⟨x, hx, this⟩ := taken op hop
        exact ⟨x, by simp [hx], this⟩
    · exact .ret ⟨0, Nat.zero_le _, rfl, by simp⟩

theorem ends_submit (prov : ProviderId) (conn : Option ConnId) (ops : List SubOp) :
    Ends t (submit q prov conn ops : Engine T W SubmitResult) fun sr l =>
      ∃ k ≤ ops.length, sr.accepted = u32 k ∧ ∀ op ∈ ops.take k, ∃ x ∈ l, Accepts t q op x := by
  refine (ends_submitLoop prov conn ops 0).bind ?_
  rintro ⟨n, refused⟩ l ⟨k, few, sum, accepted⟩
  refine (steps_true _).ends.bind fun answer l' _ => .ret ⟨k, few, ?_, ?_⟩
  · simp [show n = k by omega]
  · intro op hop
    obtain ⟨x, hx, this⟩ := accepted op hop
    exact ⟨x, by simp [hx], this⟩

/-- An error stops the request. -/
theorem ends_noteError {news : News} {e : ErrorInfo} (bad : e.ok = false) :
    Ends t (noteError q news e : Engine T W Unit)
      fun _ l => ∃ x ∈ l, GivesUp q x := by
  refine .atom fun s _ _ s' step => ?_
  cases step
  refine ⟨_, List.mem_singleton_self _, ?_⟩
  simpa [GivesUp, request] using Request.abandoning_noteError _ bad

/-- A turn leaves what was not accepted for later, or fails the request. -/
theorem ends_finishTurn (p : PendingSubmit) (offered : Nat) (sr : SubmitResult) :
    Ends t (finishTurn setup p offered sr : Engine T W (Option PendingSubmit)) fun later l =>
      later = p.rest sr.accepted ∨ ∃ x ∈ l, GivesUp p.req x := by
  refine .ite (fun _ => ?_) fun _ => .ite (fun _ => ?_) fun _ => ?_
  · exact (steps_true _).ends.bind fun _ _ _ => .ret (.inl rfl)
  · split
    · rename_i later rest
      exact .ret (.inl rest.symm)
    · rename_i rest
      exact (steps_true _).ends.bind fun _ _ _ => .ret (.inl rest.symm)
  · refine (looks_look _).ends.bind fun outstanding l₀ _ => ?_
    have bad : (submitError sr (setup.caps p.provider).name p.peer outstanding).ok = false := by
      simp only [submitError, ErrorInfo.ok]
      split
      · rfl
      · simpa using ‹_›
    refine (ends_noteError bad).bind fun _ l₁ stopped => ?_
    refine (steps_true _).ends.bind fun _ l₂ _ => ?_
    refine (steps_true _).ends.bind fun _ l₃ _ => .ret (.inr ?_)
    obtain ⟨x, hx, this⟩ := stopped
    exact ⟨x, by simp [hx], this⟩

theorem PendingSubmit.mem_rest {p : PendingSubmit} {n : Nat} {op : SubOp}
    (left : op ∈ p.ops.drop n) : ∃ w, p.rest n = some w ∧ w.req = p.req ∧ op ∈ w.ops := by
  have some_left : p.ops.drop n ≠ [] := List.ne_nil_of_mem left
  exact ⟨_, dif_neg some_left, rfl, left⟩

theorem ends_postOps (p : PendingSubmit) (maxBytes : Nat) :
    Ends t (postOps setup p maxBytes : Engine T W (Option PendingSubmit)) fun later l =>
      ∀ op ∈ p.ops, (∃ x ∈ l, Accepts t p.req op x) ∨
        (∃ w, later = some w ∧ w.req = p.req ∧ op ∈ w.ops) ∨ ∃ x ∈ l, GivesUp p.req x := by
  have seen : Ends t (transact fun t s =>
      if (request (.transfer p.req) s).abandoning then (true, s.ledger)
      else (false, s.ledger.log t (.cleared p.req)) : Engine T W Bool)
      fun abandoning l => abandoning = true → ∃ x ∈ l, GivesUp p.req x := by
    refine .atom fun s _ abandoning s' step yes => ?_
    cases step
    dsimp only at yes ⊢
    split at yes
    · rename_i stopped
      rw [if_pos stopped]
      exact ⟨_, List.mem_singleton_self _, stopped⟩
    · cases yes
  refine seen.bind fun abandoning l stopped => .ite (fun yes => ?_) fun _ => ?_
  · refine (steps_true _).ends.bind fun _ l' _ => .ret fun op _ => .inr (.inr ?_)
    obtain ⟨x, hx, this⟩ := stopped yes
    exact ⟨x, by simp [hx], this⟩
  dsimp only
  refine (steps_true _).ends.bind fun _ l₁ _ => ?_
  refine (ends_submit _ _ _).bind fun sr l₂ sent => ?_
  obtain ⟨k, few, sum, accepted⟩ := sent
  refine (steps_true _).ends.bind fun _ l₃ _ => ?_
  refine (ends_finishTurn setup p _ sr).weaken fun later l₄ turn op hop => ?_
  rcases turn with rest | ⟨x, hx, this⟩
  · rw [← List.take_append_drop k p.ops] at hop
    rcases List.mem_append.mp hop with first | left
    · have inside : k ≤ takeOps maxBytes p.ops 0 0 := few.trans (List.length_take_le _ _)
      rw [List.take_take, Nat.min_eq_left inside] at accepted
      obtain ⟨x, hx, this⟩ := accepted op first
      exact .inl ⟨x, by simp [hx], this⟩
    · refine .inr (.inl ?_)
      have more : op ∈ p.ops.drop sr.accepted := by
        rw [sum]
        exact List.drop_subset_drop_left _ (Nat.mod_le _ _) left
      obtain ⟨w, h, this⟩ := PendingSubmit.mem_rest more
      exact ⟨w, rest.trans h, this⟩
  · exact .inr (.inr ⟨x, by simp [hx], this⟩)

theorem ends_pushPending (ps : List PendingSubmit) :
    Ends t (pushPending ps : Engine T W Unit) fun _ l =>
      ∀ p ∈ ps, ∀ op ∈ p.ops, ∃ x ∈ l, Queues p.req op x := by
  refine .atom fun s _ _ s' step p hp op hop => ?_
  cases step
  exact ⟨_, List.mem_singleton_self _, ps, rfl, p, hp, rfl, hop⟩

theorem ends_postParts (parts : List PendingSubmit) :
    Ends t (postParts setup parts : Engine T W Unit) fun _ l =>
      ∀ p ∈ parts, ∀ op ∈ p.ops, Dealt t p.req op l := by
  induction parts with
  | nil => exact .ret (by simp)
  | cons p rest ih =>
    refine (ends_postOps setup p _).bind fun later l first => ?_
    split
    · rename_i w
      refine (ends_pushPending [w]).bind fun _ l' queued => ih.weaken fun _ l'' others => ?_
      refine List.forall_mem_cons.mpr ⟨fun op hop => ?_, fun p' hp' op hop =>
        (others p' hp' op hop).mono (by simp)⟩
      rcases first op hop with ⟨x, hx, this⟩ | ⟨w', h, same, left⟩ | ⟨x, hx, this⟩
      · exact .inl ⟨x, by simp [hx], this⟩
      · cases h
        obtain ⟨x, hx, this⟩ := queued w (by simp) op left
        exact .inr (.inl ⟨x, by simp [hx], same ▸ this⟩)
      · exact .inr (.inr ⟨x, by simp [hx], this⟩)
    · refine ih.weaken fun _ l' others => ?_
      refine List.forall_mem_cons.mpr ⟨fun op hop => ?_, fun p' hp' op hop =>
        (others p' hp' op hop).mono (by simp)⟩
      rcases first op hop with ⟨x, hx, this⟩ | ⟨w', none, -⟩ | ⟨x, hx, this⟩
      · exact .inl ⟨x, by simp [hx], this⟩
      · cases none
      · exact .inr (.inr ⟨x, by simp [hx], this⟩)

theorem ends_startParts (after : List (Option EventId)) (parts : List PendingSubmit)
    (mine : ∀ p ∈ parts, p.req = q) :
    Ends t (startParts setup q after parts : Engine T W Unit) fun _ l =>
      ∀ p ∈ parts, ∀ op ∈ p.ops, Dealt t q op l := by
  have posted (l₀ : List (World T W × World T W)) : Ends t (postParts setup parts : Engine T W Unit)
      fun _ l => ∀ p ∈ parts, ∀ op ∈ p.ops, Dealt t q op (l₀ ++ l) :=
    (ends_postParts setup parts).weaken fun _ l dealt p hp op hop =>
      (mine p hp ▸ dealt p hp op hop).mono (by simp)
  refine (steps_true _).ends.bind fun _ l₁ _ => ?_
  refine (steps_true _).ends.bind fun dep l₂ _ => ?_
  refine .ite (fun _ => ?_) fun _ => .ite (fun _ => ?_) fun _ => ?_
  · refine (steps_true _).ends.bind fun _ l₃ _ => (ends_pushPending parts).weaken ?_
    intro _ l₄ queued p hp op hop
    obtain ⟨x, hx, this⟩ := queued p hp op hop
    exact .inr (.inl ⟨x, by simp [hx], mine p hp ▸ this⟩)
  · refine (steps_true _).ends.bind fun _ l₃ _ => (posted (l₁ ++ (l₂ ++ l₃))).weaken ?_
    intro _ l₄ dealt
    simpa using dealt
  · refine (posted (l₁ ++ l₂)).weaken fun _ l₃ dealt => ?_
    simpa using dealt

/-! ## Submissions -/

/-- The request is put in flight, made of these operations. -/
def Enters (t : Tid) (q : RequestId) (r : Request) (ops : List SubOp) (x : World T W × World T W) :
    Prop :=
  x.2 = { x.1 with ledger := x.1.ledger.enter t q r ops }

/-- What a submission returns with, and has done by then. -/
inductive Outcomes (t : Tid) : Reply → List (World T W × World T W) → Prop
  /-- Nothing. -/
  | refused {s : Status} {l : List (World T W × World T W)} (error : s ≠ .ok)
      (spared : ∀ x ∈ l, Spared x.1 x.2) : Outcomes t (.request s none) l
  /-- It has put the request it returns in flight, and dealt with all of it. -/
  | admitted {q : RequestId} {r : Request} {ops : List SubOp} {l : List (World T W × World T W)}
      (enters : ∃ x ∈ l, Enters t q r ops x) (dealt : ∀ op ∈ ops, Dealt t q op l)
      (confined : ∀ x ∈ l, Confined q x.1 x.2) :
      Outcomes t (.request .ok (some (.transfer q))) l

/-- A program that ends a submission of which nothing shows yet. -/
def Concludes (t : Tid) (p : Engine T W Reply) : Prop :=
  ∀ l₀ : List (World T W × World T W), (∀ x ∈ l₀, Spared x.1 x.2) →
    Ends t p fun reply l => Outcomes t reply (l₀ ++ l)

namespace Concludes

theorem refuse {s : Status} (error : s ≠ .ok) :
    Concludes t (pure (.request s none) : Engine T W Reply) := by
  intro l₀ spared
  refine .ret (.refused error ?_)
  simpa using spared

theorem knowing {p : Engine T W α} {g : α → Engine T W Reply} {P : α → Prop}
    (steps : Steps Spared p) (known : Ends t p fun a _ => P a)
    (rest : ∀ a, P a → Concludes t (g a)) : Concludes t (p >>= g) := by
  intro l₀ spared
  refine (steps.ends.and known).bind fun a l ⟨still, known⟩ => ?_
  have before : ∀ x ∈ l₀ ++ l, Spared x.1 x.2 := by
    intro x hx
    rcases List.mem_append.mp hx with hx | hx
    · exact spared x hx
    · exact still x hx
  refine (rest a known (l₀ ++ l) before).weaken fun reply l' h => ?_
  rwa [List.append_assoc] at h

theorem next {p : Engine T W α} {g : α → Engine T W Reply} (steps : Steps Spared p)
    (rest : ∀ a, Concludes t (g a)) : Concludes t (p >>= g) :=
  knowing (P := fun _ => True) steps (fun _ _ _ => trivial) fun a _ => rest a

theorem ite {c : Prop} [Decidable c] {p p' : Engine T W Reply} (h : c → Concludes t p)
    (h' : ¬c → Concludes t p') : Concludes t (if c then p else p') := by
  split
  · exact h ‹_›
  · exact h' ‹_›

end Concludes

theorem concludes_launch {r : Request} {ops : List SubOp} (after : List (Option EventId))
    {parts : List PendingSubmit} (all : parts.flatMap (·.ops) = ops)
    (mine : ∀ p ∈ parts, p.req = q) :
    Concludes t (launch setup q r ops after parts : Engine T W Reply) := by
  intro l₀ spared
  have admitted : Ends t (admission q r ops : Engine T W Status) fun s l =>
      (s ≠ .ok ∧ ∀ x ∈ l, Spared x.1 x.2) ∨
        s = .ok ∧ ∃ x, l = [x] ∧ Enters t q r ops x := by
    refine .atom fun s _ _ s' step => ?_
    cases step
    dsimp only
    split
    · exact .inl ⟨by simp, by simp [Spared.refl]⟩
    split
    · exact .inl ⟨by simp, by simp [Spared.refl]⟩
    · exact .inr ⟨rfl, _, rfl, rfl⟩
  refine admitted.bind fun s l₁ done => ?_
  split
  · obtain ⟨no, -⟩ | ⟨-, x, rfl, enters⟩ := done
    · exact absurd rfl no
    refine (looks_look _).confined (q := q) |>.ends.bind fun depth l₂ looked => ?_
    have counted : Steps (Confined q) (countAdmission q depth : Engine T W Unit) := by
      refine steps_atom fun t s e b s' step => ?_
      cases step
      exact .of_same rfl rfl rfl
    refine counted.ends.bind fun _ l₃ counted => ?_
    refine ((ends_startParts setup after parts mine).and
      (confined_startParts setup after parts mine).ends).bind fun _ l₄ started => .ret ?_
    refine .admitted ⟨x, by simp, enters⟩ (fun op hop => ?_) ?_
    · rw [← all] at hop
      obtain ⟨p, hp, hop⟩ := List.mem_flatMap.mp hop
      exact (started.1 p hp op hop).mono fun x hx => by simp [hx]
    · have entering : Confined q x.1 x.2 := by
        rw [enters]
        exact .of_ledger (fun h other => by simp [Ledger.enter, other])
          fun q' other => by simp [Ledger.enter, other]
      simp only [List.append_nil, List.mem_append, List.mem_singleton]
      rintro y (before | rfl | at_look | at_count | after)
      · exact (spared y before).confined
      · exact entering
      · exact looked y at_look
      · exact counted y at_count
      · exact started.2 y after
  · rename_i no
    obtain ⟨error, still⟩ | ⟨rfl, -⟩ := done
    · refine .ret (.refused error ?_)
      simp only [List.append_nil, List.mem_append]
      rintro x (before | now)
      · exact spared x before
      · exact still x now
    · exact absurd rfl no

theorem spared_full : Steps Spared (full setup : Engine T W Bool) := by
  refine steps_exchange fun s => ?_
  dsimp only
  split <;> exact ⟨rfl, rfl, rfl, rfl, rfl⟩

theorem concludes_submitVector [LaneCost W] (peer : PeerId) (loc remote : List RegionView)
    (opts : TransferOptions) (kind : SubOpKind) :
    Concludes t (submitVector setup peer loc remote opts kind : Engine T W Reply) := by
  refine .next (looks_look _).spared fun closed => .ite (fun _ => .refuse (by decide)) fun _ => ?_
  refine .ite (fun _ => .refuse (by decide)) fun shape => ?_
  refine .ite (fun _ => .refuse (by decide)) fun _ => ?_
  refine .next (looks_look _).spared fun connected => ?_
  refine .ite (fun _ => .refuse (by decide)) fun _ => ?_
  refine .next (steps_dependencyState .refl (by simp) _ _) fun dep => ?_
  refine .ite (fun failed => .refuse failed.1) fun _ => ?_
  refine .next (spared_full setup) fun full => .ite (fun _ => .refuse (by decide)) fun _ => ?_
  refine .next (steps_transact fun _ _ => ⟨rfl, rfl, rfl, rfl, rfl⟩) fun q => ?_
  refine .next (looks_look _).spared fun lanes => ?_
  have same : loc.length = remote.length := by simp_all
  refine .knowing (Looks.spared (looks_buildSubops _ _ _ _ _ _ _ _))
    ((keeps_buildSubops lanes same).ends.weaken fun _ _ h => h.choose_spec.2) fun result built => ?_
  split
  · exact .refuse (built.error _ rfl)
  rename_i b
  dsimp only
  refine .ite (fun _ => .refuse (by decide)) fun _ => ?_
  refine .next (Looks.spared (looks_handoffTargets _ _ _ _)) fun targets => ?_
  exact concludes_launch setup opts.after
    (makeParts_ops peer opts.after lanes b.perLane (built.lanes b rfl))
    fun p hp => (makeParts_req _ _ _ _ p hp).1

/-- A call that submits, whatever states its steps find: either it reports an
error and hands back nothing, and no step of it changed a request, a queue or a
provider; or it reports none and hands back a request that it put in flight, with
each operation accepted, left in `pending_` or given up as the request was
failing, and nothing else of what it did shows but through that request. -/
theorem submission_is_all_or_nothing [LaneCost W] (c : Call) (submits : c.transfer.isSome = true)
    {l : List (World T W × World T W)} {reply : Reply}
    (took : Took t (c.body T setup) l reply) :
    (∃ s, s ≠ .ok ∧ reply = .request s none ∧ ∀ x ∈ l, Spared x.1 x.2) ∨
      ∃ q r ops, reply = .request .ok (some (.transfer q)) ∧ (∃ x ∈ l, Enters t q r ops x) ∧
        (∀ op ∈ ops, Dealt t q op l) ∧ ∀ x ∈ l, Confined q x.1 x.2 := by
  have concludes : Concludes t (c.body T setup : Engine T W Reply) := by
    cases c with
    | read | write | readv | writev => exact concludes_submitVector setup _ _ _ _ _
    | _ => simp [Call.transfer] at submits
  have outcome : Outcomes t reply l := concludes [] (by simp) l reply took
  cases outcome with
  | refused error spared => exact .inl ⟨_, error, rfl, spared⟩
  | admitted enters dealt confined => exact .inr ⟨_, _, _, rfl, enters, dealt, confined⟩

/-- The write of two chunks, of which the second is left for a later turn. -/
theorem submission_is_all_or_nothing_write :
    ∃ l q r ops, Took 0 ((Pair.write []).body Pair.transport Pair.setup) l
        (.request .ok (some (.transfer 1))) ∧
      (∃ x ∈ l, Enters 0 q r ops x) ∧ ∀ op ∈ ops, Dealt 0 q op l := by
  obtain ⟨p, -, run, done⟩ := Pair.played .nothing (fun _ _ => True)
    [.spawn (Pair.write []), .run 0 21]
    (fun p => p.returned 0 = some (Pair.write [], .request .ok (some (.transfer 1))))
    (by decide +kernel)
  obtain ⟨l, took⟩ := run.took done
  rcases submission_is_all_or_nothing Pair.setup (Pair.write []) rfl took with
    ⟨s, error, reply, -⟩ | ⟨q, r, ops, -, enters, dealt, -⟩
  · cases reply
  · exact ⟨l, q, r, ops, took, enters, dealt⟩

end

end Hux
