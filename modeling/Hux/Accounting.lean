import Hux.Flow
import Hux.Reports

/-!
# Queue-pair accounting

What `submit` accepts on a queue pair is numbered from 0; what is listed there as
unretired is a window of that sequence, from what was reported on to what was posted
last. The window's lower end is `reclaimed` whenever the connection's lock is free,
and its length is bounded by the depth of the send queue. Everything below it has been
reported, once, with the status of the first completion at or after it.
-/

namespace Hux.Rdma
open Interleave (Tid)
open Multiset (mem_add mem_singleton_self)

/-! ## What the log says of a queue pair -/

/-- What was accepted, as `submit` lists it. -/
def Line.listed : Line → Option (Nat × InflightKey)
  | .accepted _ _ seq op postedAt => some (seq, inflightKey op postedAt)
  | _ => none

def Line.told : Line → Option (Nat × CompletionEvent)
  | .reported _ _ _ seq ev => some (seq, ev)
  | _ => none

def Core.accepted (k : Core) (c : ConnId) (i : Nat) : List (Nat × InflightKey) :=
  (k.lines c i).filterMap Line.listed

def Core.reported (k : Core) (c : ConnId) (i : Nat) : List (Nat × CompletionEvent) :=
  (k.lines c i).filterMap Line.told

section
variable {k : Core} {line : Line} {c : ConnId} {i : Nat}

theorem Core.accepted_note (other : line.listed = none) :
    (k.note line).accepted c i = k.accepted c i := by
  by_cases own : line.place = (c, i)
  · simp [Core.accepted, Core.lines_note_own own, List.filterMap_append, other]
  · rw [Core.accepted, Core.lines_note_other own]
    rfl

theorem Core.reported_note (other : line.told = none) :
    (k.note line).reported c i = k.reported c i := by
  by_cases own : line.place = (c, i)
  · simp [Core.reported, Core.lines_note_own own, List.filterMap_append, other]
  · rw [Core.reported, Core.lines_note_other own]
    rfl

end

theorem Core.accepted_record_own {k : Core} {c : ConnId} {p : Planned} {seq : Nat}
    {postedAt : CcTime} :
    (k.record c p seq postedAt).accepted c p.qpIndex =
      k.accepted c p.qpIndex ++ [(seq, inflightKey p.op postedAt)] := by
  rw [Core.accepted, Core.record, Core.lines_note_own rfl, List.filterMap_append]
  rfl

theorem Core.accepted_record_other {k : Core} {c : ConnId} {p : Planned} {seq i : Nat}
    {postedAt : CcTime} (other : p.qpIndex ≠ i) :
    (k.record c p seq postedAt).accepted c i = k.accepted c i := by
  have place : (Line.accepted c p.qpIndex seq p.op postedAt).place ≠ (c, i) :=
    fun h => other (Prod.ext_iff.mp h).2
  rw [Core.accepted, Core.record, Core.lines_note_other place]
  rfl

/-! ## The window -/

/-- The account of a queue pair: what is reported goes up to `told`, what is listed
starts at `low`. -/
structure Account (cfg : RdmaConfig) (k : Core) (c : ConnId) (i : Nat) (q : QueuePair)
    (pending planned told low : Nat) : Prop where
  numbered : (k.accepted c i).map (·.1) = List.range q.posted
  listed : q.unsignalled = (k.accepted c i).drop low
  reported : (k.reported c i).map (·.1) = List.range told
  ids : (posted (k.sends q.num)).map (·.wrId) = (List.range (q.posted + pending)).map (makeWrId i)
  reclaimed_le : q.reclaimed ≤ told
  told_le : told ≤ low
  low_le : low ≤ q.posted
  room : q.posted + planned ≤ q.reclaimed + cfg.sqDepth
  short : q.posted < 2 ^ 48

/-- Work requests the adapter has taken and that are not listed yet. -/
def Res.pending (i : Nat) : Res → Nat
  | .sent _ p _ _ => if p.qpIndex = i then 1 else 0
  | _ => 0

/-- Work requests planned and not listed yet. -/
def Res.planned (i : Nat) : Res → Nat
  | .planning _ _ plan => plan.countP (·.qpIndex = i)
  | .sending _ rest => rest.countP (·.qpIndex = i)
  | .sent _ p _ rest => (p :: rest).countP (·.qpIndex = i)
  | _ => 0

/-- How far retiring has gone on a queue pair. -/
def Res.Retires (k : Core) (c : ConnId) (i : Nat) (q : QueuePair) (told low : Nat) : Res → Prop
  | .retiring _ w n _ =>
    if i = wrQpIndex w.wrId then
      told = low ∧ low ≤ wrSeq w.wrId + 1 ∧ n = q.unsignalled.length
    else told = q.reclaimed ∧ low = q.reclaimed
  | .popped _ w seq key n _ =>
    if i = wrQpIndex w.wrId then
      told = seq ∧ low = seq + 1 ∧ seq ≤ wrSeq w.wrId ∧ n = q.unsignalled.length ∧
        (seq, key) ∈ k.accepted c i
    else told = q.reclaimed ∧ low = q.reclaimed
  | .retired _ w _ =>
    if i = wrQpIndex w.wrId then told = wrSeq w.wrId + 1 ∧ low = wrSeq w.wrId + 1
    else told = q.reclaimed ∧ low = q.reclaimed
  | _ => told = q.reclaimed ∧ low = q.reclaimed

structure AtWork (cfg : RdmaConfig) (k : Core) (c : ConnId) (x : Res) : Prop where
  account : ∀ i q, (k.qps c)[i]? = some q → ∃ told low,
    Account cfg k c i q (x.pending i) (x.planned i) told low ∧ x.Retires k c i q told low
  snapshot : ∀ qps plan, x = .planning c qps plan → qps = k.qps c
  next : ∀ p seq rest, x = .sent c p seq rest → seq = (k.qp c p.qpIndex).posted

/-- When nobody has the lock it is as when somebody has it and does nothing. -/
def AtRest (cfg : RdmaConfig) (k : Core) (c : ConnId) : Prop := AtWork cfg k c (.holding c)

section
variable {cfg : RdmaConfig} {k k' : Core} {c : ConnId} {i : Nat} {q : QueuePair}
  {pending planned told low : Nat} {x : Res}

theorem Account.posted_eq (account : Account cfg k c i q pending planned told low) :
    (k.accepted c i).length = q.posted := by
  simpa using congrArg List.length account.numbered

theorem Account.sent_eq (account : Account cfg k c i q pending planned told low) :
    (posted (k.sends q.num)).length = q.posted + pending := by
  simpa using congrArg List.length account.ids

variable {n : Nat}

/-- The number of an accepted operation is its place. -/
theorem Account.seq_eq (account : Account cfg k c i q pending planned told low)
    {y : Nat × InflightKey} (there : (k.accepted c i)[n]? = some y) : y.1 = n := by
  have bound : n < q.posted := account.posted_eq ▸ (List.getElem?_eq_some_iff.mp there).1
  have place := congrArg (·[n]?) account.numbered
  simpa [there, List.getElem?_range bound] using place

/-- A step that leaves what a connection's accounts are about. -/
structure SameBooks (k k' : Core) (c : ConnId) : Prop where
  qps : k'.qps c = k.qps c
  posted : ∀ q ∈ k.qps c, posted (k'.sends q.num) = posted (k.sends q.num)
  accepted : ∀ i, k'.accepted c i = k.accepted c i
  reported : ∀ i, k'.reported c i = k.reported c i

theorem Untouched.books (untouched : Untouched k k' c) : SameBooks k k' c where
  qps := untouched.qps
  posted := untouched.posted
  accepted i := by
    rw [Core.accepted, untouched.lines]
    rfl
  reported i := by
    rw [Core.reported, untouched.lines]
    rfl

theorem AtWork.still {x' : Res} (before : AtWork cfg k c x) (same : SameBooks k k' c)
    (pending : ∀ i, x'.pending i = x.pending i) (planned : ∀ i, x'.planned i ≤ x.planned i)
    (retires : ∀ i q told low, (k.qps c)[i]? = some q → x.Retires k c i q told low →
      x'.Retires k' c i q told low)
    (snapshot : ∀ qps plan, x' = .planning c qps plan → qps = k'.qps c)
    (next : ∀ p seq rest, x' = .sent c p seq rest → seq = (k'.qp c p.qpIndex).posted) :
    AtWork cfg k' c x' where
  account i q there := by
    rw [same.qps] at there
    obtain ⟨told, low, account, place⟩ := before.account i q there
    refine ⟨told, low, ?_, retires i q told low there place⟩
    exact {
      numbered := by rw [same.accepted, account.numbered]
      listed := by rw [same.accepted, account.listed]
      reported := by rw [same.reported, account.reported]
      ids := by rw [same.posted q (List.mem_of_getElem? there), pending, account.ids]
      reclaimed_le := account.reclaimed_le
      told_le := account.told_le
      low_le := account.low_le
      room := (Nat.add_le_add_left (planned i) _).trans account.room
      short := account.short }
  snapshot := snapshot
  next := next

theorem AtWork.frame (before : AtWork cfg k c x) (untouched : Untouched k k' c) :
    AtWork cfg k' c x := by
  have qp (i : Nat) : k'.qp c i = k.qp c i := by rw [Core.qp, untouched.qps]; rfl
  refine before.still untouched.books (fun _ => rfl) (fun _ => Nat.le_refl _) ?_ ?_ ?_
  · intro i q told low _ retires
    cases x with
    | popped =>
      unfold Res.Retires at retires ⊢
      rwa [untouched.books.accepted]
    | _ => exact retires
  · intro qps plan eq
    rw [untouched.qps]
    exact before.snapshot qps plan eq
  · intro p seq rest eq
    rw [qp]
    exact before.next p seq rest eq

/-- Nothing is being retired. -/
def Res.Calm (x : Res) : Prop :=
  ∀ k c i q told low, x.Retires k c i q told low ↔ told = q.reclaimed ∧ low = q.reclaimed

/-- From one resource that retires nothing to another that plans nothing. -/
theorem AtWork.calm {x' : Res} (before : AtWork cfg k c x) (same : SameBooks k k' c)
    (calm : x.Calm) (calm' : x'.Calm) (pending : ∀ i, x.pending i = 0)
    (pending' : ∀ i, x'.pending i = 0) (planned : ∀ i, x'.planned i = 0)
    (snapshot : ∀ qps plan, x' = .planning c qps plan → qps = k'.qps c) : AtWork cfg k' c x' := by
  refine before.still same (fun i => (pending' i).trans (pending i).symm)
    (fun i => planned i ▸ Nat.zero_le _) ?_ snapshot ?_
  · intro i q told low _ retires
    exact (calm' ..).mpr ((calm ..).mp retires)
  · rintro p seq rest rfl
    have := pending' p.qpIndex
    simp [Res.pending] at this

/-! ## Posting -/

theorem sub64_of_le {a b : Nat} (le : b ≤ a) (small : a < 2 ^ 64) : sub64 a b = a - b := by
  unfold sub64 u64
  omega

variable {p : Planned}

/-- The plan takes one more operation where there is room for it. -/
theorem AtWork.plan {qps : List QueuePair} {plan : List Planned}
    (before : AtWork cfg k c (.planning c qps plan)) (there : qps[p.qpIndex]? = some q)
    (room : sub64 (q.posted + plan.countP (·.qpIndex = p.qpIndex)) q.reclaimed < cfg.sqDepth) :
    AtWork cfg (k.claim (directionOf p.op) p.op.length) c (.planning c qps (plan ++ [p])) where
  account i q' there' := by
    obtain ⟨told, low, account, retires⟩ := before.account i q' there'
    refine ⟨told, low, { account with room := ?_ }, retires⟩
    have planned : Res.planned i (.planning c qps (plan ++ [p])) =
        plan.countP (·.qpIndex = i) + if p.qpIndex = i then 1 else 0 := by
      simp [Res.planned]
    have before' := account.room
    rw [planned]
    simp only [Res.planned] at before'
    by_cases own : p.qpIndex = i
    · subst own
      rw [before.snapshot qps plan rfl] at there
      cases there'.symm.trans there
      have depth := cfg.depth_lt
      have short := account.short
      have low_le := account.low_le
      have told_le := account.told_le
      have reclaimed_le := account.reclaimed_le
      rw [sub64_of_le (by omega) (by omega)] at room
      rw [if_pos rfl]
      omega
    · rw [if_neg own]
      exact before'
  snapshot qps' plan' eq := by
    cases eq
    exact before.snapshot qps plan rfl
  next _ _ _ eq := by cases eq

theorem countP_anchored (plan : List Planned) (i : Nat) :
    (anchored plan).countP (·.qpIndex = i) = plan.countP (·.qpIndex = i) := by
  induction plan with
  | nil => rfl
  | cons p rest ih => simp [anchored, List.countP_cons, ih]

variable {rest : List Planned}

theorem Posting.planned_eq (posting : Posting c x rest) (i : Nat) :
    x.planned i = rest.countP (·.qpIndex = i) := by
  cases posting with
  | planned qps plan => exact (countP_anchored plan i).symm
  | sending rest => rfl

theorem Posting.pending_eq (posting : Posting c x rest) (i : Nat) : x.pending i = 0 := by
  cases posting <;> rfl

theorem Posting.calm (posting : Posting c x rest) : x.Calm := by
  cases posting <;> exact fun _ _ _ _ _ _ => Iff.rfl

/-- The adapter takes the next work request, under the next number. -/
theorem AtWork.send {d : Dialled} {M : Multiset Res} (before : AtWork cfg k c x)
    (sections : Sections d k M) (hx : x ∈ M) (posting : Posting c x (p :: rest)) :
    AtWork cfg (k.post (k.qp c p.qpIndex).num (p.workRequest (k.qp c p.qpIndex).posted)) c
      (.sent c p (k.qp c p.qpIndex).posted rest) := by
  obtain ⟨q₀, there₀⟩ :=
    sections.qp_of_lt (posting.inRange (sections.inRange x hx) p List.mem_cons_self)
  rw [Core.qp_eq there₀]
  refine ⟨fun i q there => ?_, (fun _ _ eq => by cases eq), fun p' seq rest' eq => ?_⟩
  · obtain ⟨told, low, account, retires⟩ := before.account i q there
    refine ⟨told, low, { account with ids := ?_, room := ?_ }, (posting.calm ..).mp retires⟩
    · have ids := account.ids
      rw [posting.pending_eq, Nat.add_zero] at ids
      rw [sections.posted_send there₀ there, List.map_append, ids, Res.pending]
      by_cases own : p.qpIndex = i
      · subst own
        cases there.symm.trans there₀
        rw [if_pos rfl, if_pos rfl, List.range_succ]
        simp [Planned.workRequest]
      · rw [if_neg own, if_neg own]
        simp
    · have room := account.room
      rw [posting.planned_eq] at room
      exact room
  · cases eq
    exact congrArg QueuePair.posted (Core.qp_eq there₀).symm

/-- The account of a queue pair that a step does not touch. -/
theorem Account.elsewhere (account : Account cfg k c i q pending planned told low)
    (lines : k'.lines c i = k.lines c i) (sends : k'.sends = k.sends) :
    Account cfg k' c i q pending planned told low := by
  have accepted : k'.accepted c i = k.accepted c i := by rw [Core.accepted, lines]; rfl
  have reported : k'.reported c i = k.reported c i := by rw [Core.reported, lines]; rfl
  exact { account with
    numbered := by rw [accepted, account.numbered]
    listed := by rw [accepted, account.listed]
    reported := by rw [reported, account.reported]
    ids := by rw [sends, account.ids] }

variable {seq : Nat}

/-- What the adapter took is put on the list, under its number. -/
theorem AtWork.record {postedAt : CcTime} (before : AtWork cfg k c (.sent c p seq rest))
    (short : ∀ q ∈ (k.record c p seq postedAt).qps c, q.posted < 2 ^ 48) :
    AtWork cfg (k.record c p seq postedAt) c (.sending c rest) := by
  refine ⟨fun i q' there' => ?_, (fun _ _ eq => by cases eq), fun _ _ _ eq => by cases eq⟩
  obtain ⟨q, there, ⟨-, rfl, rfl⟩ | ⟨elsewhere, rfl⟩⟩ := Core.of_qps_setQp there'
  · obtain ⟨told, low, account, rfl, rfl⟩ := before.account _ q there
    have seq_eq := before.next p seq rest rfl
    rw [Core.qp_eq there] at seq_eq
    have small := account.short
    have posted_eq : (q.record seq p postedAt).posted = q.posted + 1 :=
      u64_of_lt (by omega)
    have reported : (k.record c p seq postedAt).reported c p.qpIndex =
        k.reported c p.qpIndex := Core.reported_note rfl
    have room := account.room
    simp only [Res.planned, List.countP_cons_of_pos, decide_true] at room
    refine ⟨q.reclaimed, q.reclaimed, ?_, rfl, rfl⟩
    exact {
      numbered := by
        rw [Core.accepted_record_own, List.map_append, account.numbered, posted_eq,
          List.range_succ, seq_eq]
        rfl
      listed := by
        rw [Core.accepted_record_own, List.drop_append_of_le_length
          (account.posted_eq ▸ account.low_le), ← account.listed]
        rfl
      reported := by rw [reported, account.reported]
      ids := by
        have ids := account.ids
        rw [Res.pending, if_pos rfl] at ids
        rw [posted_eq]
        exact ids
      reclaimed_le := Nat.le_refl _
      told_le := Nat.le_refl _
      low_le := by
        rw [posted_eq]
        exact account.low_le.trans (Nat.le_succ _)
      room := by
        rw [posted_eq]
        simp only [Res.planned]
        change _ ≤ q.reclaimed + _
        omega
      short := short _ (List.mem_of_getElem? there') }
  · have other : p.qpIndex ≠ i := fun same => elsewhere ⟨rfl, same.symm⟩
    obtain ⟨told, low, account, retires⟩ := before.account i q' there
    rw [show Res.pending i (.sent c p seq rest) = Res.pending i (.sending c rest) from if_neg other,
      show Res.planned i (.sent c p seq rest) = Res.planned i (.sending c rest) by
        simp [Res.planned, other]] at account
    have lines : (k.record c p seq postedAt).lines c i = k.lines c i :=
      Core.lines_note_other fun h => other (Prod.ext_iff.mp h).2
    exact ⟨told, low, account.elsewhere lines rfl, retires⟩

/-! ## Retiring -/

variable {key : InflightKey}

/-- What is listed first has the number the list starts at. -/
theorem Account.front (account : Account cfg k c i q pending planned told low)
    {rest : List (Nat × InflightKey)} (front : q.unsignalled = (seq, key) :: rest) :
    seq = low ∧ low < q.posted ∧ rest = (k.accepted c i).drop (low + 1) ∧
      (seq, key) ∈ k.accepted c i := by
  have listed := account.listed.symm.trans front
  have first : (k.accepted c i)[low]? = some (seq, key) := by
    rw [← List.head?_drop, listed]
    rfl
  refine ⟨account.seq_eq first, ?_, ?_, List.mem_of_getElem? first⟩
  · rw [← account.posted_eq]
    exact (List.getElem?_eq_some_iff.mp first).1
  · rw [← List.tail_drop, listed]
    rfl

/-- A completion in hand is one of a listed work request. -/
structure Due (k : Core) (c : ConnId) (w : Wc) (q : QueuePair) : Prop where
  there : (k.qps c)[wrQpIndex w.wrId]? = some q
  ge : q.reclaimed ≤ wrSeq w.wrId
  lt : wrSeq w.wrId < (posted (k.sends q.num)).length

variable {w : Wc} {ws : List Wc}

theorem Flow.due {d : Dialled} {M : Multiset Res} (flow : Flow k M) (sections : Sections d k M)
    (hx : x ∈ M) (subject : x.subject = some (c, w)) (hand : x.hand = some (w :: ws)) :
    ∃ q, Due k c w q := by
  obtain ⟨q, done, rest, there, num, reclaimed, came⟩ := flow.queuePair sections hx subject hand
  have fresh := flow.fresh c _ q there
  rw [came] at fresh
  refine ⟨q, there, reclaimed ▸ fresh.nextSeq_le, ?_⟩
  exact (fresh.each w (by simp)).2.2.trans_le (postsAmong_le _ _)

theorem AtWork.open_ (before : AtRest cfg k c) (due : Due k c w q) :
    AtWork cfg (k.setLock c true) c (.retiring c w q.unsignalled.length ws) := by
  have untouched : Untouched k (k.setLock c true) c := .rfl' rfl rfl rfl
  refine AtWork.still before untouched.books (fun _ => rfl) (fun _ => Nat.le_refl _) ?_
    (fun _ _ eq => by cases eq) fun _ _ _ eq => by cases eq
  rintro i q' told low there' ⟨rfl, rfl⟩
  dsimp only [Res.Retires]
  split
  · rename_i own
    subst own
    cases there'.symm.trans due.there
    exact ⟨rfl, due.ge.trans (Nat.le_succ _), rfl⟩
  · exact ⟨rfl, rfl⟩

/-- The retire loop is at its end where the window starts right after the completion. -/
theorem Account.ends (account : Account cfg k c i q 0 planned told low) (due : Due k c w q)
    (le : low ≤ wrSeq w.wrId + 1) (front : ∀ y ∈ q.unsignalled.head?, wrSeq w.wrId < y.1) :
    low = wrSeq w.wrId + 1 := by
  refine Nat.le_antisymm le ?_
  cases h : q.unsignalled with
  | nil =>
    -- Nothing is listed: everything posted is below the window.
    have none_ := List.drop_eq_nil_iff.mp (account.listed.symm.trans h)
    rw [account.posted_eq] at none_
    have lt := due.lt
    rw [account.sent_eq] at lt
    exact Nat.le_trans lt none_
  | cons y rest =>
    obtain ⟨seq, key⟩ := y
    obtain ⟨rfl, -⟩ := account.front h
    exact front (seq, key) (by rw [h]; rfl)

theorem AtWork.stop (before : AtWork cfg k c (.retiring c w n ws)) (due : Due k c w q)
    (front : ∀ y ∈ q.unsignalled.head?, wrSeq w.wrId < y.1) : AtWork cfg k c (.retired c w ws) := by
  refine ⟨fun i q' there' => ?_, (fun _ _ eq => by cases eq), fun _ _ _ eq => by cases eq⟩
  obtain ⟨told, low, account, retires⟩ := before.account i q' there'
  refine ⟨told, low, account, ?_⟩
  simp only [Res.Retires] at retires ⊢
  split at retires
  · rename_i own
    subst own
    cases there'.symm.trans due.there
    obtain ⟨rfl, le, -⟩ := retires
    have ended := account.ends due le front
    rw [if_pos rfl]
    exact ⟨ended, ended⟩
  · rename_i other
    rw [if_neg other]
    exact retires

/-- One entry goes off the list. -/
theorem AtWork.pop {rest : List (Nat × InflightKey)}
    (before : AtWork cfg k c (.retiring c w (n + 1) ws))
    (front : (k.qp c (wrQpIndex w.wrId)).unsignalled = (seq, key) :: rest)
    (below : seq ≤ wrSeq w.wrId) :
    AtWork cfg (k.setQp c (wrQpIndex w.wrId) fun q => { q with unsignalled := rest }) c
      (.popped c w seq key n ws) := by
  refine ⟨fun i q' there' => ?_, (fun _ _ eq => by cases eq), fun _ _ _ eq => by cases eq⟩
  obtain ⟨q, there, ⟨-, rfl, rfl⟩ | ⟨elsewhere, rfl⟩⟩ := Core.of_qps_setQp there'
  · obtain ⟨told, low, account, retires⟩ := before.account _ q there
    obtain ⟨rfl, -, length⟩ := (if_pos rfl).mp retires
    rw [Core.qp_eq there] at front
    obtain ⟨rfl, lt, rest_eq, member⟩ := account.front front
    refine ⟨seq, seq + 1, ?_, ?_⟩
    · exact { account with
        listed := rest_eq
        told_le := Nat.le_succ _
        low_le := lt }
    · rw [front, List.length_cons] at length
      exact (if_pos rfl).mpr ⟨rfl, rfl, below, Nat.succ.inj length, member⟩
  · have other : i ≠ wrQpIndex w.wrId := fun same => elsewhere ⟨rfl, same⟩
    obtain ⟨told, low, account, retires⟩ := before.account i q' there
    simp only [Res.Retires, if_neg other] at retires
    refine ⟨told, low, { account with }, ?_⟩
    simpa only [Res.Retires, if_neg other] using retires

/-- And is reported. -/
theorem AtWork.report {t : Tid} (before : AtWork cfg k c (.popped c w seq key n ws)) :
    AtWork cfg (k.note (.reported t c (wrQpIndex w.wrId) seq (key.event w))) c
      (.retiring c w n ws) := by
  refine ⟨fun i q there => ?_, (fun _ _ eq => by cases eq), fun _ _ _ eq => by cases eq⟩
  obtain ⟨told, low, account, retires⟩ := before.account i q there
  by_cases own : i = wrQpIndex w.wrId
  · subst own
    obtain ⟨rfl, rfl, below, length, -⟩ := (if_pos rfl).mp retires
    refine ⟨told + 1, told + 1, ?_, (if_pos rfl).mpr ⟨rfl, Nat.succ_le_succ below, length⟩⟩
    exact { account with
      numbered := by rw [Core.accepted_note rfl, account.numbered]
      listed := by rw [Core.accepted_note rfl, account.listed]
      reported := by
        rw [Core.reported, Core.lines_note_own rfl, List.filterMap_append, List.map_append,
          List.range_succ, ← account.reported]
        rfl
      reclaimed_le := account.reclaimed_le.trans (Nat.le_succ _)
      told_le := Nat.le_refl _ }
  · simp only [Res.Retires, if_neg own] at retires
    refine ⟨told, low, account.elsewhere (Core.lines_note_other ?_) rfl, ?_⟩
    · exact fun h => own (Prod.ext_iff.mp h).2.symm
    · simpa only [Res.Retires, if_neg own] using retires

/-- At the end of the loop the window starts right after the completion. -/
theorem Retired.low_eq (done : Retired c w ws x) (due : Due k c w q)
    (account : Account cfg k c (wrQpIndex w.wrId) q 0 planned told low)
    (retires : x.Retires k c (wrQpIndex w.wrId) q told low) :
    told = wrSeq w.wrId + 1 ∧ low = wrSeq w.wrId + 1 := by
  cases done with
  | stopped => exact (if_pos rfl).mp retires
  | exhausted =>
    obtain ⟨rfl, le, none_⟩ := (if_pos rfl).mp retires
    have ended := account.ends due le (by simp [List.length_eq_zero_iff.mp none_.symm])
    exact ⟨ended, ended⟩

theorem Retired.calm_elsewhere (done : Retired c w ws x) (other : i ≠ wrQpIndex w.wrId)
    (retires : x.Retires k c i q told low) : told = q.reclaimed ∧ low = q.reclaimed := by
  cases done <;> exact (if_neg other).mp retires

/-- The queue pair is reclaimed up to the completion, and the lock is left. -/
theorem AtWork.reclaim (before : AtWork cfg k c x) (due : Due k c w q) (done : Retired c w ws x) :
    AtRest cfg (k.reclaim c (wrQpIndex w.wrId) (wrSeq w.wrId)) c := by
  have pending (j : Nat) : x.pending j = 0 := by cases done <;> rfl
  refine ⟨fun i q' there' => ?_, (fun _ _ eq => by cases eq), fun _ _ _ eq => by cases eq⟩
  obtain ⟨q₁, there, ⟨-, rfl, rfl⟩ | ⟨elsewhere, rfl⟩⟩ := Core.of_qps_setQp there'
  · cases there.symm.trans due.there
    obtain ⟨told, low, account, retires⟩ := before.account _ q there
    rw [pending] at account
    obtain ⟨rfl, rfl⟩ := done.low_eq due account retires
    refine ⟨wrSeq w.wrId + 1, wrSeq w.wrId + 1, ?_, rfl, rfl⟩
    exact { account with
      reclaimed_le := Nat.le_refl _
      room := by
        have room := account.room
        have le := account.reclaimed_le
        change q.posted + 0 ≤ wrSeq w.wrId + 1 + cfg.sqDepth
        omega }
  · have other : i ≠ wrQpIndex w.wrId := fun same => elsewhere ⟨rfl, same⟩
    obtain ⟨told, low, account, retires⟩ := before.account i q' there
    rw [pending] at account
    refine ⟨told, low, ?_, done.calm_elsewhere other retires⟩
    exact { account with room := (Nat.add_le_add_left (Nat.zero_le _) _).trans account.room }

theorem Over.calm (done : Over c x) : x.Calm ∧ ∀ i, x.pending i = 0 := by
  cases done with
  | holding => exact ⟨fun _ _ _ _ _ _ => Iff.rfl, fun _ => rfl⟩
  | posting posting => exact ⟨posting.calm, posting.pending_eq⟩

/-- Fewer than 2^48 work requests have been posted on every queue pair. -/
def Core.Short (k : Core) : Prop := ∀ c, ∀ q ∈ k.qps c, q.posted < 2 ^ 48

theorem AtWork.inner {t : Tid} {d : Dialled} {F M : Multiset Res} {o o' : Option Res}
    (sections : Sections d k (F + M)) (flow : Flow k (F + M)) (short : k'.Short)
    (step : Inner cfg t M c k o k' o') (mem : ∀ x ∈ o, x ∈ M)
    (before : Guards (AtRest cfg) (AtWork cfg) k c o) :
    Guards (AtRest cfg) (AtWork cfg) k' c o' := by
  have mine {x : Res} (hx : x ∈ M) : x ∈ F + M := mem_add.mpr (.inr hx)
  have same {k' : Core} (qps : k'.qps c = k.qps c) (sends : k'.sends = k.sends)
      (log : k'.log = k.log) : SameBooks k k' c := (Untouched.rfl' qps sends log).books
  have calm : Res.Calm (.holding c) := fun _ _ _ _ _ _ => Iff.rfl
  cases step with
  | lock free =>
    refine AtWork.calm before (same rfl rfl rfl) calm calm (fun _ => rfl) (fun _ => rfl)
      (fun _ => rfl) fun qps plan eq => ?_
    cases eq
    rfl
  | plan there room => exact AtWork.plan before there room
  | send posting => exact AtWork.send before sections (mine (mem _ rfl)) posting
  | @refuse x p rest posting =>
    exact AtWork.calm before ⟨rfl, fun _ _ => rfl, fun i => Core.accepted_note rfl,
        fun i => Core.reported_note rfl⟩ posting.calm calm
      posting.pending_eq (fun _ => rfl) (fun _ => rfl) fun _ _ eq => by cases eq
  | record postedAt => exact AtWork.record before (short c)
  | unlock done =>
    exact AtWork.calm before (same rfl rfl rfl) done.calm.1 calm done.calm.2 (fun _ => rfl)
      (fun _ => rfl) fun _ _ eq => by cases eq
  | open_ found free there =>
    obtain ⟨q, due⟩ := flow.due sections (mine found) rfl rfl
    cases there.symm.trans due.there
    exact AtWork.open_ before due
  | miss found free missing =>
    exact AtWork.calm before (same rfl rfl rfl) calm (fun _ _ _ _ _ _ => Iff.rfl) (fun _ => rfl)
      (fun _ => rfl) (fun _ => rfl) fun _ _ eq => by cases eq
  | skip =>
    exact AtWork.calm before (same rfl rfl rfl) (fun _ _ _ _ _ _ => Iff.rfl) calm (fun _ => rfl)
      (fun _ => rfl) (fun _ => rfl) fun _ _ eq => by cases eq
  | pop front below => exact AtWork.pop before front below
  | report => exact AtWork.report before
  | stop front =>
    obtain ⟨q, due⟩ := flow.due sections (mine (mem _ rfl)) rfl rfl
    rw [Core.qp_eq due.there] at front
    exact AtWork.stop before due front
  | @reclaim w ws x done =>
    have subject : x.subject = some (c, w) := by cases done <;> rfl
    have hand : x.hand = some (w :: ws) := by cases done <;> rfl
    obtain ⟨q, due⟩ := flow.due sections (mine (mem _ rfl)) subject hand
    exact AtWork.reclaim before due done

/-! ## What is reported -/

/-- Everything reported was accepted under its number, and has the status of the first
completion at or after it. -/
def Told (k : Core) : Prop :=
  ∀ (c i : Nat) q, (k.qps c)[i]? = some q → ∀ y ∈ k.reported c i, ∃ key w,
    (y.1, key) ∈ k.accepted c i ∧
      (k.came q.num).find? (fun v => y.1 ≤ wrSeq v.wrId) = some w ∧ y.2 = key.event w

/-- Every line of the log is about a queue pair there is. -/
def Placed (k : Core) : Prop :=
  ∀ line ∈ k.log, ∃ q, (k.qps line.place.1)[line.place.2]? = some q

structure Accounts (cfg : RdmaConfig) (k : Core) (M : Multiset Res) : Prop where
  guarded : Guarded (AtRest cfg) (AtWork cfg) k M
  flow : Flow k M
  told : Told k
  placed : Placed k

variable {role : Role} {t : Tid} {d : Dialled} {F M M' : Multiset Res}

theorem Move.log_grows (move : Move cfg role t k M k' M') : k.log <+: k'.log := by
  cases move with
  | refuse | record | report => exact List.prefix_append ..
  | _ => exact List.prefix_refl _

theorem Move.came_grows (move : Move cfg role t k M k' M') (num : Nat) :
    k.came num <+: k'.came num := by
  have grows : k.arrived <+: k'.arrived := by
    cases move with
    | draw | fetch => exact List.prefix_append ..
    | _ => exact List.prefix_refl _
  exact (grows.filter _).filter _

/-- Whatever state a connection is in, its accounts are in order. -/
theorem Accounts.atWork (accounts : Accounts cfg k M) (sections : Sections d k M) (c : ConnId) :
    ∃ x, AtWork cfg k c x ∧ (k.locked c = false → x = .holding c) := by
  cases h : k.locked c with
  | false => exact ⟨.holding c, accounts.guarded.rest c h, fun _ => rfl⟩
  | true =>
    obtain ⟨x, hx, own⟩ := sections.holder h
    exact ⟨x, accounts.guarded.during x hx c own, fun free => by cases free⟩

theorem Accounts.numbered (accounts : Accounts cfg k M) (sections : Sections d k M) :
    Flow.AllNumbered k := by
  intro c i q there
  obtain ⟨x, atWork, -⟩ := accounts.atWork sections c
  obtain ⟨told, low, account, -⟩ := atWork.account i q there
  have bound : x.pending i ≤ 1 := by
    unfold Res.pending
    split
    · split <;> omega
    · omega
  have short := account.short
  exact ⟨q.posted + x.pending i, by omega, account.ids, accounts.flow.proofs q.num⟩

theorem Accounts.told_move (accounts : Accounts cfg k (F + M)) (sections : Sections d k (F + M))
    (move : Move cfg role t k M k' M') : Told k' := by
  have old {c i : Nat} {q' : QueuePair} (there' : (k'.qps c)[i]? = some q')
      {y : Nat × CompletionEvent} (hy : y ∈ k.reported c i) :
      ∃ key w, (y.1, key) ∈ k'.accepted c i ∧
        (k'.came q'.num).find? (fun v => y.1 ≤ wrSeq v.wrId) = some w ∧ y.2 = key.event w := by
    obtain ⟨q, there, num⟩ := move.qp_before there'
    obtain ⟨key, w, accepted, first, event⟩ := accounts.told c i q there y hy
    have more : k.accepted c i <+: k'.accepted c i := (move.log_grows.filter _).filterMap _
    obtain ⟨later, came⟩ := move.came_grows q.num
    refine ⟨key, w, more.subset accepted, ?_, event⟩
    rw [← num, ← came, List.find?_append, first, Option.some_or]
  cases move with
  | @report c₀ w ws n seq key =>
    intro c i q there y hy
    by_cases own : (c₀, wrQpIndex w.wrId) = (c, i)
    · cases own
      rw [Core.reported, Core.lines_note_own rfl, List.filterMap_append] at hy
      rcases List.mem_append.mp hy with hy | hy
      · exact old there hy
      · obtain rfl : y = (seq, key.event w) := by simpa [Line.told] using hy
        have hx : .popped c₀ w seq key n ws ∈ F + {.popped c₀ w seq key n ws} := by simp
        have atWork := accounts.guarded.during _ hx c₀ rfl
        obtain ⟨told, low, account, retires⟩ := atWork.account _ q there
        obtain ⟨rfl, -, below, -, accepted⟩ := (if_pos rfl).mp retires
        obtain ⟨q₀, done, rest, there₀, -, reclaimed, came⟩ :=
          accounts.flow.queuePair sections hx rfl rfl
        cases there.symm.trans there₀
        have fresh := accounts.flow.fresh _ _ _ there
        rw [came] at fresh
        refine ⟨key, w, ?_, ?_, rfl⟩
        · rwa [Core.accepted_note rfl]
        · -- Those handled before are all below the window.
          have skipped : done.find? (fun v => told ≤ wrSeq v.wrId) = none := by
            apply List.find?_eq_none.mpr
            intro v hv
            have lt := fresh.lt_nextSeq hv
            have le := account.reclaimed_le
            simp only [decide_eq_true_eq]
            omega
          change (k.came q.num).find? _ = some w
          rw [came, List.find?_append, skipped, Option.none_or, List.find?_cons_of_pos]
          simpa using below
    · have lines : (k.note (.reported t c₀ (wrQpIndex w.wrId) seq (key.event w))).lines c i =
          k.lines c i := Core.lines_note_other own
      rw [Core.reported, lines] at hy
      exact old there hy
  | refuse =>
    intro c i q there y hy
    rw [Core.reported_note rfl] at hy
    exact old there hy
  | record =>
    intro c i q there y hy
    rw [Core.record, Core.reported_note rfl] at hy
    exact old there hy
  | _ => exact fun c i q there y hy => old there hy

theorem Accounts.placed_move (accounts : Accounts cfg k (F + M)) (sections : Sections d k (F + M))
    (move : Move cfg role t k M k' M') : Placed k' := by
  have mine {x : Res} (hx : x ∈ M) : x ∈ F + M := mem_add.mpr (.inr hx)
  have still {c i : Nat} (there : ∃ q, (k.qps c)[i]? = some q) : ∃ q, (k'.qps c)[i]? = some q := by
    obtain ⟨q, there⟩ := there
    have same := congrArg (·[i]?) (move.nums c)
    simp only [List.getElem?_map, there, Option.map_some] at same
    obtain ⟨q', there', -⟩ := Option.map_eq_some_iff.mp same
    exact ⟨q', there'⟩
  have old {line : Line} (hl : line ∈ k.log) :
      ∃ q, (k'.qps line.place.1)[line.place.2]? = some q := still (accounts.placed line hl)
  have new {line : Line} (there : ∃ q, (k.qps line.place.1)[line.place.2]? = some q) :
      ∀ line' ∈ k.log ++ [line], ∃ q, (k'.qps line'.place.1)[line'.place.2]? = some q := by
    intro line' hl
    rcases List.mem_append.mp hl with hl | hl
    · exact old hl
    · cases List.mem_singleton.mp hl
      exact still there
  cases move with
  | refuse posting =>
    exact new (sections.qp_of_lt
      (posting.inRange (sections.inRange _ (mine (mem_singleton_self _))) _
        List.mem_cons_self))
  | @record c p seq rest spend postedAt =>
    have range : ∀ p' ∈ p :: rest, p'.qpIndex < d.width c :=
      sections.inRange (.sent c p seq rest) (mine (by simp))
    exact new (sections.qp_of_lt (range p List.mem_cons_self))
  | report =>
    obtain ⟨q, -, -, there, -⟩ :=
      accounts.flow.queuePair sections (mine (mem_singleton_self _)) rfl rfl
    exact new ⟨q, there⟩
  | _ => exact fun line hl => old hl

theorem Accounts.move (accounts : Accounts cfg k (F + M)) (sections : Sections d k (F + M))
    (narrow : ∀ c, d.width c ≤ 2 ^ 14) (short : k'.Short) (orderly : k.Orderly k')
    (move : Move cfg role t k M k' M') : Accounts cfg k' (F + M') where
  guarded := by
    refine accounts.guarded.move move sections (fun c untouched o h => ?_)
      fun c o o' step mem h => AtWork.inner sections accounts.flow short step mem h
    cases o with
    | none => exact AtWork.frame h untouched
    | some x => exact AtWork.frame h untouched
  flow := accounts.flow.move sections narrow (accounts.numbered sections) orderly move
  told := accounts.told_move sections move
  placed := accounts.placed_move sections move

/-- `reclaimed` only goes up. -/
theorem Accounts.reclaimed_le (accounts : Accounts cfg k (F + M)) (sections : Sections d k (F + M))
    (move : Move cfg role t k M k' M') {i : Nat} {q q' : QueuePair}
    (there : (k.qps c)[i]? = some q) (there' : (k'.qps c)[i]? = some q') :
    q.reclaimed ≤ q'.reclaimed := by
  cases move with
  | record | pop =>
    obtain ⟨q₁, there₁, ⟨-, -, rfl⟩ | ⟨-, rfl⟩⟩ := Core.of_qps_setQp there'
    · cases there.symm.trans there₁
      exact Nat.le_refl _
    · cases there.symm.trans there₁
      exact Nat.le_refl _
  | @reclaim c₀ w ws x done =>
    have subject : x.subject = some (c₀, w) := by cases done <;> rfl
    have hand : x.hand = some (w :: ws) := by cases done <;> rfl
    obtain ⟨q₀, due⟩ := accounts.flow.due sections
      (mem_add.mpr (.inr (mem_singleton_self x))) subject hand
    obtain ⟨q₁, there₁, ⟨rfl, rfl, rfl⟩ | ⟨-, rfl⟩⟩ := Core.of_qps_setQp there'
    · cases there.symm.trans there₁
      cases there.symm.trans due.there
      exact due.ge.trans (Nat.le_succ _)
    · cases there.symm.trans there₁
      exact Nat.le_refl _
  | _ =>
    cases there.symm.trans there'
    exact Nat.le_refl _

end

theorem Accounts.start {F : Type} (cfg : RdmaConfig) (d : Dialled)
    (recv : ConnId → Option RecvBuffer) (receives : Nat → Nat) (regions : List (Nat × Mr))
    (nextKey : Nat) (cc : CongestionController F) :
    Accounts cfg (World.start d recv receives regions nextKey cc).core 0 where
  guarded := by
    refine ⟨fun c _ => ⟨fun i q there => ?_, (fun _ _ eq => by cases eq),
      fun _ _ _ eq => by cases eq⟩, fun x hx => by cases hx⟩
    obtain ⟨num, -, rfl⟩ := List.mem_map.mp (List.mem_of_getElem? there)
    refine ⟨0, 0, ?_, rfl, rfl⟩
    exact ⟨rfl, rfl, rfl, rfl, Nat.le_refl _, Nat.le_refl _, Nat.le_refl _, Nat.zero_le _,
      Nat.two_pow_pos _⟩
  flow := .start d recv receives regions nextKey cc
  told _ _ _ _ _ hy := by cases hy
  placed _ hl := by cases hl

end Hux.Rdma
