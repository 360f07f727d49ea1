import Hux.RdmaMoves

/-!
# Critical sections of the provider

What every move keeps of the provider as a whole: the connections are those that
were dialled, a plan only names queue pairs there are, each `qp_mu_` is with at
most one thread, and so is the progress turn.
-/

namespace Hux.Rdma
open Interleave (Tid Pool Run weigh weigh_add weigh_singleton weigh_zero le_weigh weigh_eq_zero)
open Multiset (mem_singleton_self mem_add mem_singleton)

/-- The connection whose `qp_mu_` a resource comes with. -/
def Res.section_ : Res → Option ConnId
  | .planning c _ _ | .sending c _ | .sent c _ _ _ | .holding c | .missed c _ _
  | .retiring c _ _ _ | .popped c _ _ _ _ _ | .retired c _ _ => some c
  | .claim _ _ | .turn _ | .found _ _ _ | .drawn _ => none

/-- Whether it comes with the progress turn. -/
def Res.turning : Res → Bool
  | .turn _ | .found _ _ _ | .missed _ _ _ | .retiring _ _ _ _ | .popped _ _ _ _ _ _
  | .retired _ _ _ => true
  | .claim _ _ | .planning _ _ _ | .sending _ _ | .sent _ _ _ _ | .holding _ | .drawn _ => false

def Res.locks (c : ConnId) (x : Res) : Nat := if x.section_ = some c then 1 else 0

def Res.turns (x : Res) : Nat := if x.turning then 1 else 0

/-- How many queue pairs a connection has. -/
def Dialled.width (d : Dialled) (c : ConnId) : Nat := (d.nums.getD c []).length

/-- A plan names queue pairs there are. -/
def Res.InRange (d : Dialled) : Res → Prop
  | .planning c qps plan => qps.length = d.width c ∧ ∀ p ∈ plan, p.qpIndex < d.width c
  | .sending c rest => ∀ p ∈ rest, p.qpIndex < d.width c
  | .sent c p _ rest => ∀ p' ∈ p :: rest, p'.qpIndex < d.width c
  | _ => True

structure Confined (d : Dialled) (k : Core) (M : Multiset Res) : Prop where
  nums : ∀ c, (k.qps c).map (·.num) = d.nums.getD c []
  inRange : ∀ x ∈ M, x.InRange d
  locks : ∀ c, weigh (Res.locks c) M = (k.locked c).toNat
  turns : weigh Res.turns M = k.progressing.toNat

/-- And no connection is forgotten. -/
structure Sections (d : Dialled) (k : Core) (M : Multiset Res) : Prop extends Confined d k M where
  known : ∀ num, k.connByQp num = d.connByQp.lookup num

theorem mem_anchored {p : Planned} {plan : List Planned} (h : p ∈ anchored plan) :
    ∃ p' ∈ plan, p'.qpIndex = p.qpIndex ∧ p'.op = p.op := by
  induction plan with
  | nil => cases h
  | cons p' rest ih =>
    rw [anchored, List.mem_cons] at h
    rcases h with rfl | h
    · exact ⟨p', List.mem_cons_self, rfl, rfl⟩
    · obtain ⟨p', there, same⟩ := ih h
      exact ⟨p', List.mem_cons_of_mem _ there, same⟩

namespace Posting
variable {c : ConnId} {x : Res} {rest : List Planned}

theorem section_ (posting : Posting c x rest) : x.section_ = some c := by cases posting <;> rfl

theorem turning (posting : Posting c x rest) : x.turning = false := by cases posting <;> rfl

theorem inRange {d : Dialled} (posting : Posting c x rest) (range : x.InRange d) :
    ∀ p ∈ rest, p.qpIndex < d.width c := by
  cases posting with
  | planned qps plan =>
    intro p hp
    obtain ⟨p', there, same, -⟩ := mem_anchored hp
    exact same ▸ range.2 p' there
  | sending rest => exact range

end Posting

variable {c : ConnId} {x : Res}

theorem Over.section_ (done : Over c x) : x.section_ = some c := by
  cases done with
  | holding => rfl
  | posting posting => exact posting.section_

theorem Over.turning (done : Over c x) : x.turning = false := by
  cases done with
  | holding => rfl
  | posting posting => exact posting.turning

theorem Retired.section_ {w : Wc} {ws : List Wc} (done : Retired c w ws x) :
    x.section_ = some c := by
  cases done <;> rfl

theorem Retired.turning {w : Wc} {ws : List Wc} (done : Retired c w ws x) : x.turning = true := by
  cases done <;> rfl

@[simp] theorem weigh_inHand {A : Type} [AddCommMonoid A] (f : Res → A) (ws : List Wc)
    (none_ : f (.drawn ws) = 0) : weigh f (inHand ws) = 0 := by
  unfold inHand
  split
  · rfl
  · rw [weigh_singleton, none_]

namespace Core
variable (k : Core) (c : ConnId) (i : Nat)

theorem nums_setQp {f : QueuePair → QueuePair} (same : ∀ q, (f q).num = q.num) (c' : ConnId) :
    ((k.setQp c i f).qps c').map (·.num) = (k.qps c').map (·.num) := by
  by_cases own : c' = c
  · subst own
    apply List.ext_getElem?
    intro j
    simp only [setQp, Function.update_self, List.getElem?_map, List.getElem?_modify]
    cases (k.qps c')[j]? with
    | none => rfl
    | some q =>
      by_cases there : i = j
      · simp [there, same]
      · simp [there]
  · simp [setQp, own]

end Core

theorem Res.locks_of (own : x.section_ = some c) (c' : ConnId) :
    x.locks c' = if c = c' then 1 else 0 := by
  simp [Res.locks, own]

section
variable {cfg : RdmaConfig} {role : Role} {t : Tid} {k k' : Core} {M M' : Multiset Res}

/-- A move takes a connection's lock, leaves it, or lets it be. -/
theorem Move.locks (move : Move cfg role t k M k' M') (c : ConnId) :
    (weigh (Res.locks c) M' = weigh (Res.locks c) M ∧ k'.locked c = k.locked c) ∨
      (k.locked c = false ∧ k'.locked c = true ∧ weigh (Res.locks c) M = 0 ∧
        weigh (Res.locks c) M' = 1) ∨
      (k'.locked c = false ∧ weigh (Res.locks c) M = 1 ∧ weigh (Res.locks c) M' = 0) := by
  have other {c' : ConnId} {b : Bool} (ne : c' ≠ c) : (k.setLock c' b).locked c = k.locked c := by
    simp [Core.setLock, Ne.symm ne]
  have own (b : Bool) : (k.setLock c b).locked c = b := by simp [Core.setLock]
  have without {x : Res} (h : x.section_ = none) : x.locks c = 0 := by simp [Res.locks, h]
  have taken {c' : ConnId} (x : Res) (h : x.section_ = some c') (free : k.locked c' = false) :
      (x.locks c = 0 ∧ (k.setLock c' true).locked c = k.locked c) ∨
        (k.locked c = false ∧ (k.setLock c' true).locked c = true ∧ x.locks c = 1) := by
    by_cases eq : c' = c
    · subst eq
      exact .inr ⟨free, own true, by rw [Res.locks_of h, if_pos rfl]⟩
    · exact .inl ⟨by rw [Res.locks_of h, if_neg eq], other eq⟩
  have left {c' : ConnId} (x : Res) (h : x.section_ = some c') :
      (x.locks c = 0 ∧ (k.setLock c' false).locked c = k.locked c) ∨
        ((k.setLock c' false).locked c = false ∧ x.locks c = 1) := by
    by_cases eq : c' = c
    · subst eq
      exact .inr ⟨own false, by rw [Res.locks_of h, if_pos rfl]⟩
    · exact .inl ⟨by rw [Res.locks_of h, if_neg eq], other eq⟩
  cases move with
  | lock free =>
    simp only [weigh_zero, weigh_singleton]
    exact (taken _ rfl free).imp id fun h => .inl ⟨h.1, h.2.1, trivial, h.2.2⟩
  | open_ free | miss free =>
    simp only [weigh_singleton, without (x := .found _ _ _) rfl]
    exact (taken _ rfl free).imp id fun h => .inl ⟨h.1, h.2.1, trivial, h.2.2⟩
  | unlock done =>
    simp only [weigh_singleton, weigh_zero]
    exact (left _ done.section_).imp (fun h => ⟨h.1.symm, h.2⟩) fun h => .inr ⟨h.1, h.2, trivial⟩
  | skip =>
    simp only [weigh_singleton, without (x := .turn _) rfl]
    exact (left (.missed _ _ _) rfl).imp (fun h => ⟨h.1.symm, h.2⟩) fun h =>
      .inr ⟨h.1, h.2, trivial⟩
  | reclaim done =>
    simp only [weigh_singleton, without (x := .turn _) rfl]
    exact (left _ done.section_).imp (fun h => ⟨h.1.symm, h.2⟩) fun h => .inr ⟨h.1, h.2, trivial⟩
  | send posting | refuse posting =>
    refine .inl ⟨?_, rfl⟩
    simp only [weigh_singleton]
    rw [Res.locks_of posting.section_, Res.locks_of rfl]
  | fetch | setAside =>
    refine .inl ⟨?_, rfl⟩
    rw [weigh_inHand _ _ rfl]
    rfl
  | still | plan | record | giveBack | enter | unstash | draw | lose | find | pop | report | stop
  | leave | prove =>
    refine .inl ⟨?_, rfl⟩
    simp [Res.locks, Res.section_]

/-- A move takes the progress turn, leaves it, or lets it be. -/
theorem Move.turns (move : Move cfg role t k M k' M') :
    (weigh Res.turns M' = weigh Res.turns M ∧ k'.progressing = k.progressing) ∨
      (k.progressing = false ∧ k'.progressing = true ∧ weigh Res.turns M = 0 ∧
        weigh Res.turns M' = 1) ∨
      (k'.progressing = false ∧ weigh Res.turns M = 1 ∧ weigh Res.turns M' = 0) := by
  cases move with
  | enter free => exact .inr (.inl ⟨free, rfl, rfl, rfl⟩)
  | leave => exact .inr (.inr ⟨rfl, rfl, rfl⟩)
  | send posting | refuse posting =>
    refine .inl ⟨?_, rfl⟩
    simp [Res.turns, posting.turning]
    rfl
  | unlock done =>
    refine .inl ⟨?_, rfl⟩
    simp [Res.turns, done.turning]
  | reclaim done =>
    refine .inl ⟨?_, rfl⟩
    simp [Res.turns, done.turning]
    rfl
  | fetch | setAside =>
    refine .inl ⟨?_, rfl⟩
    rw [weigh_inHand _ _ rfl]
    rfl
  | still | lock | plan | record | giveBack | unstash | draw | lose | find | open_ | miss | skip
  | pop | report | stop | prove =>
    refine .inl ⟨?_, rfl⟩
    simp [Res.turns, Res.turning]

theorem Move.nums (move : Move cfg role t k M k' M') (c : ConnId) :
    (k'.qps c).map (·.num) = (k.qps c).map (·.num) := by
  cases move with
  | record | pop | reclaim =>
    apply k.nums_setQp
    intro q
    rfl
  | _ => rfl

theorem Move.qp_before (move : Move cfg role t k M k' M') {c i : Nat} {q' : QueuePair}
    (there' : (k'.qps c)[i]? = some q') : ∃ q, (k.qps c)[i]? = some q ∧ q.num = q'.num := by
  have same := congrArg (·[i]?) (move.nums c)
  simp only [List.getElem?_map, there', Option.map_some] at same
  exact Option.map_eq_some_iff.mp same.symm

variable {d : Dialled}

theorem Move.inRange (move : Move cfg role t k M k' M')
    (width : ∀ c, (k.qps c).length = d.width c) (before : ∀ x ∈ M, x.InRange d) :
    ∀ x ∈ M', x.InRange d := by
  cases move with
  | lock => simpa [Res.InRange] using width _
  | @plan c qps plan p q spend there room =>
    obtain ⟨length, range⟩ : qps.length = d.width c ∧ ∀ p ∈ plan, p.qpIndex < d.width c :=
      before _ (mem_singleton_self _)
    have bound : p.qpIndex < d.width c := by
      rw [← length]
      exact (List.getElem?_eq_some_iff.mp there).1
    simp only [mem_add, mem_singleton]
    rintro x (rfl | rfl)
    · refine ⟨length, ?_⟩
      simpa [or_imp, forall_and] using ⟨range, bound⟩
    · trivial
  | send posting =>
    have range := posting.inRange (before _ (mem_singleton_self _))
    intro x hx
    rw [mem_singleton.mp hx]
    exact range
  | @record c p seq rest spend postedAt =>
    have range : ∀ p' ∈ p :: rest, p'.qpIndex < d.width c := before (.sent c p seq rest) (by simp)
    intro x hx
    rw [mem_singleton.mp hx]
    exact fun p' hp => range p' (List.mem_cons_of_mem _ hp)
  | fetch | setAside =>
    intro x hx
    cases eq_of_mem_inHand hx
    trivial
  | still | refuse | giveBack | unlock | enter | unstash | draw | lose | find | open_ | miss | skip
  | pop | report | stop | reclaim | leave | prove =>
    simp [Res.InRange]

variable {F : Multiset Res}

theorem Confined.move (move : Move cfg role t k M k' M') (before : Confined d k (F + M)) :
    Confined d k' (F + M') where
  nums c := (move.nums c).trans (before.nums c)
  inRange x hx := by
    rcases mem_add.mp hx with old | new
    · exact before.inRange x (mem_add.mpr (.inl old))
    · refine move.inRange (fun c => ?_) (fun y hy => ?_) x new
      · rw [Dialled.width, ← before.nums c, List.length_map]
      · exact before.inRange y (mem_add.mpr (.inr hy))
  locks c := by
    have now := before.locks c
    have bound := Bool.toNat_le (k.locked c)
    rw [weigh_add] at now ⊢
    rcases move.locks c with ⟨held, same⟩ | ⟨free, taken, none_, one⟩ | ⟨free, one, none_⟩
    · rw [held, same, now]
    · rw [taken, one]
      rw [none_, free] at now
      simpa using now
    · rw [free, none_]
      rw [one] at now
      simp
      omega
  turns := by
    have now := before.turns
    have bound := Bool.toNat_le k.progressing
    rw [weigh_add] at now ⊢
    rcases move.turns with ⟨held, same⟩ | ⟨free, taken, none_, one⟩ | ⟨free, one, none_⟩
    · rw [held, same, now]
    · rw [taken, one]
      rw [none_, free] at now
      simpa using now
    · rw [free, none_]
      rw [one] at now
      simp
      omega

theorem Sections.move (move : Move cfg role t k M k' M') (before : Sections d k (F + M)) :
    Sections d k' (F + M') where
  toConfined := .move move before.toConfined
  known num := by
    rw [← before.known num]
    cases move <;> rfl

variable {x : Res} {c : ConnId}

/-- What a thread moves with and what others hold come with different locks. -/
theorem Confined.apart {y : Res} (sections : Confined d k (F + M)) (hx : x ∈ M)
    (own : x.section_ = some c) (hy : y ∈ F) : y.section_ ≠ some c := by
  intro also
  have now := sections.locks c
  have bound := Bool.toNat_le (k.locked c)
  have first := le_weigh (f := Res.locks c) hx
  have second := le_weigh (f := Res.locks c) hy
  rw [Res.locks_of own, if_pos rfl] at first
  rw [Res.locks_of also, if_pos rfl] at second
  rw [weigh_add] at now
  omega

/-- Whoever has a lock has it locked. -/
theorem Confined.locked (sections : Confined d k M) (hx : x ∈ M) (own : x.section_ = some c) :
    k.locked c = true := by
  have now := sections.locks c
  have first := le_weigh (f := Res.locks c) hx
  rw [Res.locks_of own, if_pos rfl] at first
  cases h : k.locked c with
  | true => rfl
  | false => rw [h] at now; simp at now; omega

/-- And somebody has one that is locked. -/
theorem Confined.holder (sections : Confined d k M) (taken : k.locked c = true) :
    ∃ x ∈ M, x.section_ = some c := by
  by_contra nobody
  push Not at nobody
  have now := sections.locks c
  rw [taken, weigh_eq_zero fun x hx => by simp [Res.locks, nobody x hx]] at now
  cases now

theorem Confined.progressing (sections : Confined d k M) (hx : x ∈ M) (own : x.turning = true) :
    k.progressing = true := by
  have now := sections.turns
  have first := le_weigh (f := Res.turns) hx
  rw [Res.turns, if_pos own] at first
  cases h : k.progressing with
  | true => rfl
  | false => rw [h] at now; simp at now; omega

/-- The progress turn is with one thread. -/
theorem Confined.turn_apart {y : Res} (sections : Confined d k (F + M)) (hx : x ∈ M)
    (own : x.turning = true) (hy : y ∈ F) : y.turning = false := by
  by_contra also
  have now := sections.turns
  have bound := Bool.toNat_le k.progressing
  have first := le_weigh (f := Res.turns) hx
  have second := le_weigh (f := Res.turns) hy
  rw [Res.turns, if_pos own] at first
  rw [Res.turns, if_pos (by simpa using also)] at second
  rw [weigh_add] at now
  omega

end

/-! ## One connection at a time -/

variable {k : Core} {i : Nat}

theorem Core.qp_eq {c : Nat} {q : QueuePair} (there : (k.qps c)[i]? = some q) : k.qp c i = q := by
  simp [Core.qp, there]

/-- A list with something in it is that of a queue pair there is. -/
theorem Core.qp_of_front {c : Nat} {x : Nat × InflightKey} {rest : List (Nat × InflightKey)}
    (front : (k.qp c i).unsignalled = x :: rest) : ∃ q, (k.qps c)[i]? = some q := by
  cases there : (k.qps c)[i]? with
  | none => simp [Core.qp, there] at front
  | some q => exact ⟨q, rfl⟩

/-- No two queue pairs have one number. -/
theorem Dialled.injective (d : Dialled) {c c' i' num : Nat}
    (there : (d.nums.getD c [])[i]? = some num) (there' : (d.nums.getD c' [])[i']? = some num) :
    c = c' ∧ i = i' := by
  obtain ⟨each, apart⟩ := List.nodup_flatten.mp d.distinct
  have listed {c i : Nat} (h : (d.nums.getD c [])[i]? = some num) :
      ∃ bound : c < d.nums.length, num ∈ d.nums[c] ∧ d.nums[c][i]? = some num := by
    rw [List.getD_eq_getElem?_getD] at h
    cases hc : d.nums[c]? with
    | none => simp [hc] at h
    | some l =>
      obtain ⟨bound, rfl⟩ := List.getElem?_eq_some_iff.mp hc
      rw [hc, Option.getD_some] at h
      exact ⟨bound, List.mem_of_getElem? h, h⟩
  obtain ⟨bound, member, place⟩ := listed there
  obtain ⟨bound', member', place'⟩ := listed there'
  have same : c = c' := by
    by_contra ne
    rcases Nat.lt_or_gt_of_ne ne with lt | gt
    · exact List.pairwise_iff_getElem.mp apart c c' bound bound' lt member member'
    · exact List.pairwise_iff_getElem.mp apart c' c bound' bound gt member' member
  subst same
  refine ⟨rfl, ?_⟩
  obtain ⟨_, hi⟩ := List.getElem?_eq_some_iff.mp place
  obtain ⟨_, hi'⟩ := List.getElem?_eq_some_iff.mp place'
  exact (each _ (List.getElem_mem bound)).getElem_inj_iff.mp (hi.trans hi'.symm)

section
variable {k : Core} {M : Multiset Res} {d : Dialled}

theorem Confined.length (sections : Confined d k M) (c : ConnId) :
    (k.qps c).length = d.width c := by
  rw [Dialled.width, ← sections.nums c, List.length_map]

variable {c i : Nat}

theorem Confined.qp_of_lt (sections : Confined d k M) (bound : i < d.width c) :
    ∃ q, (k.qps c)[i]? = some q :=
  ⟨_, List.getElem?_eq_getElem (sections.length c ▸ bound)⟩

variable {q : QueuePair}

theorem Confined.lt_of_qp (sections : Confined d k M) (there : (k.qps c)[i]? = some q) :
    i < d.width c :=
  sections.length c ▸ (List.getElem?_eq_some_iff.mp there).1

theorem Confined.num (sections : Confined d k M) (there : (k.qps c)[i]? = some q) :
    (d.nums.getD c [])[i]? = some q.num := by
  rw [← sections.nums c, List.getElem?_map, there]
  rfl

theorem Confined.num_inj (sections : Confined d k M) {c' i' : Nat} {q' : QueuePair}
    (there : (k.qps c)[i]? = some q) (there' : (k.qps c')[i']? = some q') (same : q.num = q'.num) :
    c = c' ∧ i = i' :=
  d.injective (sections.num there) (same ▸ sections.num there')

/-- A connection with queue pairs is among those dialled. -/
theorem Confined.inside (sections : Confined d k M) (there : (k.qps c)[i]? = some q) :
    c < d.nums.length := by
  by_contra outside
  have none_ := sections.nums c
  rw [List.getD_eq_getElem?_getD, List.getElem?_eq_none (Nat.not_lt.mp outside)] at none_
  rw [List.map_eq_nil_iff.mp none_] at there
  cases there

end

/-- What `submit` has posted on a queue pair. -/
def posted (sends : List WorkRequest) : List WorkRequest := sends.filter (·.opcode ≠ .send)

def Line.place : Line → ConnId × Nat
  | .accepted c i _ _ _ | .refused c i _ _ | .reported _ c i _ _ => (c, i)

def Core.lines (k : Core) (c : ConnId) (i : Nat) : List Line := k.log.filter (·.place = (c, i))

/-- What a step of a thread without a connection's lock leaves of it. -/
structure Untouched (k k' : Core) (c : ConnId) : Prop where
  qps : k'.qps c = k.qps c
  posted : ∀ q ∈ k.qps c, posted (k'.sends q.num) = posted (k.sends q.num)
  lines : ∀ i, k'.lines c i = k.lines c i

variable {k' : Core}

theorem Untouched.rfl' (qps : k'.qps c = k.qps c) (sends : k'.sends = k.sends)
    (log : k'.log = k.log) : Untouched k k' c :=
  ⟨qps, fun _ _ => by rw [sends], fun _ => by rw [Core.lines, log]; rfl⟩

theorem Core.lines_note_own {line : Line} {c : Nat} (place : line.place = (c, i)) :
    (k.note line).lines c i = k.lines c i ++ [line] := by
  simp [Core.lines, Core.note, place]

theorem Core.lines_note_other {line : Line} {c : Nat} (other : line.place ≠ (c, i)) :
    (k.note line).lines c i = k.lines c i := by
  simp [Core.lines, Core.note, other]

theorem posted_send {sends : List WorkRequest} {wr : WorkRequest} (opcode : wr.opcode = .send) :
    posted (sends ++ [wr]) = posted sends := by
  simp [posted, opcode]

theorem posted_workRequest (sends : List WorkRequest) (p : Planned) (seq : Nat) :
    posted (sends ++ [p.workRequest seq]) = posted sends ++ [p.workRequest seq] := by
  have opcode : (p.workRequest seq).opcode ≠ .send := by
    unfold Planned.workRequest
    cases p.op.kind <;> exact WrOpcode.noConfusion
  simp [posted, opcode]

variable {cfg : RdmaConfig} {t : Tid} {d : Dialled}

/-- What is posted once the adapter has taken a work request of one of its queue pairs. -/
theorem Confined.posted_send {M : Multiset Res} (sections : Confined d k M) {c : ConnId} {i : Nat}
    {p : Planned} {q q₀ : QueuePair} (there₀ : (k.qps c)[p.qpIndex]? = some q₀)
    (there : (k.qps c)[i]? = some q) :
    posted ((k.post q₀.num (p.workRequest q₀.posted)).sends q.num) =
      posted (k.sends q.num) ++ if p.qpIndex = i then [p.workRequest q₀.posted] else [] := by
  rw [Core.sends_post]
  by_cases here : p.qpIndex = i
  · subst here
    cases there.symm.trans there₀
    rw [if_pos rfl, if_pos rfl, posted_workRequest]
  · have apart : q.num ≠ q₀.num := fun same => here (sections.num_inj there there₀ same).2.symm
    rw [if_neg apart, if_neg here, List.append_nil]

/-- A move of a thread without a connection's lock leaves what the lock guards. -/
theorem Move.elsewhere {role : Role} {M M' F : Multiset Res} (move : Move cfg role t k M k' M')
    (sections : Sections d k (F + M)) (c : ConnId) :
    (∃ x ∈ M, x.section_ = some c) ∨ Untouched k k' c := by
  have other {c' i : Nat} {f : QueuePair → QueuePair} (ne : c' ≠ c) :
      (k.setQp c' i f).qps c = k.qps c := by simp [Core.setQp, Ne.symm ne]
  cases move with
  | @send c' x p rest posting =>
    by_cases own : c' = c
    · exact .inl ⟨x, mem_singleton_self x, own ▸ posting.section_⟩
    · refine .inr ⟨rfl, fun q hq => ?_, fun _ => rfl⟩
      have range := posting.inRange (sections.inRange x (by simp))
      obtain ⟨q', there'⟩ := sections.qp_of_lt (range p List.mem_cons_self)
      obtain ⟨i, there⟩ := List.getElem?_of_mem hq
      have ne : q.num ≠ (k.qp c' p.qpIndex).num := by
        rw [Core.qp_eq there']
        exact fun same => own (sections.num_inj there there' same).1.symm
      simp [Core.post, ne]
  | @refuse c' x p rest posting =>
    by_cases own : c' = c
    · exact .inl ⟨x, mem_singleton_self x, own ▸ posting.section_⟩
    · exact .inr ⟨rfl, fun _ _ => rfl, fun i => Core.lines_note_other fun h =>
        own (Prod.ext_iff.mp h).1⟩
  | @record c' p seq rest spend postedAt =>
    by_cases own : c' = c
    · exact .inl ⟨.sent c' p seq rest, by simp, own ▸ rfl⟩
    · exact .inr ⟨other own, fun _ _ => rfl, fun i => Core.lines_note_other fun h =>
        own (Prod.ext_iff.mp h).1⟩
  | @pop c' w ws n seq key rest spend front below =>
    by_cases own : c' = c
    · exact .inl ⟨.retiring c' w (n + 1) ws, by simp, own ▸ rfl⟩
    · exact .inr (.rfl' (other own) rfl rfl)
  | @report c' w ws n seq key =>
    by_cases own : c' = c
    · exact .inl ⟨.popped c' w seq key n ws, by simp, own ▸ rfl⟩
    · exact .inr ⟨rfl, fun _ _ => rfl, fun i => Core.lines_note_other fun h =>
        own (Prod.ext_iff.mp h).1⟩
  | @reclaim c' w ws x done =>
    by_cases own : c' = c
    · exact .inl ⟨x, by simp, own ▸ done.section_⟩
    · exact .inr (.rfl' (other own) rfl rfl)
  | @prove num wr id opcode =>
    refine .inr ⟨rfl, fun q hq => ?_, fun _ => rfl⟩
    by_cases same : q.num = num
    · simp [Core.post, same, posted_send opcode]
    · simp [Core.post, same]
  | still | lock | plan | giveBack | unlock | enter | unstash | draw | lose | find | open_ | miss
  | skip | stop | leave | fetch | setAside => exact .inr (.rfl' rfl rfl rfl)

/-- A step of the thread that has a connection's lock, takes it or leaves it: before
and after, what the thread has with the lock. `M` is all it moves with. -/
inductive Inner (cfg : RdmaConfig) (t : Tid) (M : Multiset Res) (c : ConnId) :
    Core → Option Res → Core → Option Res → Prop
  | lock {k : Core} (free : k.locked c = false) :
      Inner cfg t M c k none (k.setLock c true) (some (.planning c (k.qps c) []))
  | plan {k : Core} {qps : List QueuePair} {plan : List Planned} {p : Planned} {q : QueuePair}
      (there : qps[p.qpIndex]? = some q)
      (room : sub64 (q.posted + plan.countP (·.qpIndex = p.qpIndex)) q.reclaimed < cfg.sqDepth) :
      Inner cfg t M c k (some (.planning c qps plan)) (k.claim (directionOf p.op) p.op.length)
        (some (.planning c qps (plan ++ [p])))
  | send {k : Core} {x : Res} {p : Planned} {rest : List Planned}
      (posting : Posting c x (p :: rest)) :
      Inner cfg t M c k (some x)
        (k.post (k.qp c p.qpIndex).num (p.workRequest (k.qp c p.qpIndex).posted))
        (some (.sent c p (k.qp c p.qpIndex).posted rest))
  | refuse {k : Core} {x : Res} {p : Planned} {rest : List Planned}
      (posting : Posting c x (p :: rest)) :
      Inner cfg t M c k (some x)
        (k.note (.refused c p.qpIndex (k.qp c p.qpIndex).posted p.op))
        (some (.holding c))
  | record {k : Core} {p : Planned} {seq : Nat} {rest : List Planned} (postedAt : CcTime) :
      Inner cfg t M c k (some (.sent c p seq rest)) (k.record c p seq postedAt)
        (some (.sending c rest))
  | unlock {k : Core} {x : Res} (over_ : Over c x) :
      Inner cfg t M c k (some x) (k.setLock c false) none
  | open_ {k : Core} {w : Wc} {ws : List Wc} {q : QueuePair} (found : .found c w ws ∈ M)
      (free : k.locked c = false) (there : (k.qps c)[wrQpIndex w.wrId]? = some q) :
      Inner cfg t M c k none (k.setLock c true) (some (.retiring c w q.unsignalled.length ws))
  | miss {k : Core} {w : Wc} {ws : List Wc} (found : .found c w ws ∈ M)
      (free : k.locked c = false) (missing : (k.qps c)[wrQpIndex w.wrId]? = none) :
      Inner cfg t M c k none (k.setLock c true) (some (.missed c w ws))
  | skip {k : Core} {w : Wc} {ws : List Wc} :
      Inner cfg t M c k (some (.missed c w ws)) (k.handled c) none
  | pop {k : Core} {w : Wc} {ws : List Wc} {n seq : Nat} {key : InflightKey}
      {rest : List (Nat × InflightKey)}
      (front : (k.qp c (wrQpIndex w.wrId)).unsignalled = (seq, key) :: rest)
      (below : seq ≤ wrSeq w.wrId) :
      Inner cfg t M c k (some (.retiring c w (n + 1) ws))
        (k.setQp c (wrQpIndex w.wrId) fun q => { q with unsignalled := rest })
        (some (.popped c w seq key n ws))
  | report {k : Core} {w : Wc} {ws : List Wc} {n seq : Nat} {key : InflightKey} :
      Inner cfg t M c k (some (.popped c w seq key n ws))
        (k.note (.reported t c (wrQpIndex w.wrId) seq (key.event w)))
        (some (.retiring c w n ws))
  | stop {k : Core} {w : Wc} {ws : List Wc} {n : Nat}
      (front : ∀ x ∈ (k.qp c (wrQpIndex w.wrId)).unsignalled.head?, wrSeq w.wrId < x.1) :
      Inner cfg t M c k (some (.retiring c w (n + 1) ws)) k (some (.retired c w ws))
  | reclaim {k : Core} {w : Wc} {ws : List Wc} {x : Res} (done : Retired c w ws x) :
      Inner cfg t M c k (some x) (k.reclaim c (wrQpIndex w.wrId) (wrSeq w.wrId)) none

section
variable {cfg : RdmaConfig} {role : Role} {t : Tid} {k k' : Core} {M M' F : Multiset Res}
  {d : Dialled} {c : ConnId} {x : Res}

/-- What comes with a connection's lock came with it before, or the lock was free. -/
theorem Move.within (move : Move cfg role t k M k' M') (hx : x ∈ M') (own : x.section_ = some c) :
    ∃ o, Inner cfg t M c k o k' (some x) ∧ (o = none → k.locked c = false) ∧
      ∀ y ∈ o, y ∈ M ∧ y.section_ = some c := by
  have kept {y : Res} (hy : y ∈ M) (own : y.section_ = some c)
      (inner : Inner cfg t M c k (some y) k' (some x)) :
      ∃ o, Inner cfg t M c k o k' (some x) ∧ (o = none → k.locked c = false) ∧
        ∀ y ∈ o, y ∈ M ∧ y.section_ = some c := by
    refine ⟨some y, inner, (fun eq => by cases eq), ?_⟩
    rintro _ ⟨⟩
    exact ⟨hy, own⟩
  have taken (free : k.locked c = false) (inner : Inner cfg t M c k none k' (some x)) :
      ∃ o, Inner cfg t M c k o k' (some x) ∧ (o = none → k.locked c = false) ∧
        ∀ y ∈ o, y ∈ M ∧ y.section_ = some c :=
    ⟨none, inner, fun _ => free, fun _ hy => by cases hy⟩
  cases move with
  | lock free =>
    cases mem_singleton.mp hx
    cases own
    exact taken free (.lock free)
  | plan spend there room =>
    rcases mem_add.mp hx with hx | hx
    · cases mem_singleton.mp hx
      cases own
      exact kept (mem_singleton_self _) rfl (.plan there room)
    · cases mem_singleton.mp hx
      cases own
  | send posting =>
    cases mem_singleton.mp hx
    cases own
    exact kept (mem_singleton_self _) posting.section_ (.send posting)
  | refuse posting =>
    cases mem_singleton.mp hx
    cases own
    exact kept (mem_singleton_self _) posting.section_ (.refuse posting)
  | record spend postedAt =>
    cases mem_singleton.mp hx
    cases own
    exact kept (mem_add.mpr (.inl (mem_singleton_self _))) rfl (.record postedAt)
  | open_ free there =>
    cases mem_singleton.mp hx
    cases own
    exact taken free (.open_ (mem_singleton_self _) free there)
  | miss free missing =>
    cases mem_singleton.mp hx
    cases own
    exact taken free (.miss (mem_singleton_self _) free missing)
  | pop spend front below =>
    rcases mem_add.mp hx with hx | hx
    · cases mem_singleton.mp hx
      cases own
      exact kept (mem_singleton_self _) rfl (.pop front below)
    · cases mem_singleton.mp hx
      cases own
  | report =>
    cases mem_singleton.mp hx
    cases own
    exact kept (mem_singleton_self _) rfl .report
  | stop front =>
    cases mem_singleton.mp hx
    cases own
    exact kept (mem_singleton_self _) rfl (.stop front)
  | fetch | setAside =>
    cases eq_of_mem_inHand hx
    cases own
  | still | giveBack | unlock | leave | prove => cases hx
  | enter | unstash | draw | lose | find | skip | reclaim =>
    cases mem_singleton.mp hx
    cases own

/-- A lock is left by the end of a batch or of a completion's handling. -/
theorem Move.leaving (move : Move cfg role t k M k' M') (sections : Sections d k (F + M))
    (hx : x ∈ M) (own : x.section_ = some c) (free : k'.locked c = false) :
    Inner cfg t M c k (some x) k' none := by
  have locked : k.locked c = true := sections.locked (mem_add.mpr (.inr hx)) own
  cases move with
  | unlock done =>
    cases mem_singleton.mp hx
    cases own.symm.trans done.section_
    exact .unlock done
  | skip =>
    cases mem_singleton.mp hx
    cases own
    exact .skip
  | reclaim done =>
    cases mem_singleton.mp hx
    cases own.symm.trans done.section_
    exact .reclaim done
  | still | lock | enter | prove | fetch => cases hx
  | open_ | miss =>
    cases mem_singleton.mp hx
    cases own
  | plan | send | refuse | record | giveBack | unstash | draw | lose | find | pop | report | stop
  | leave | setAside => cases locked.symm.trans free

end

/-- An invariant of connections: what is true of one at rest, and of one whose lock
a thread has with some resource. -/
structure Guarded (Rest : Core → ConnId → Prop) (During : Core → ConnId → Res → Prop) (k : Core)
    (M : Multiset Res) : Prop where
  rest : ∀ c, k.locked c = false → Rest k c
  during : ∀ x ∈ M, ∀ c, x.section_ = some c → During k c x

/-- What is true of a connection, by what comes with its lock. -/
def Guards (Rest : Core → ConnId → Prop) (During : Core → ConnId → Res → Prop) (k : Core)
    (c : ConnId) : Option Res → Prop
  | none => Rest k c
  | some x => During k c x

/-- Only the thread that moves can break it, for a connection it takes, has or
leaves. -/
theorem Guarded.move {Rest : Core → ConnId → Prop} {During : Core → ConnId → Res → Prop}
    {role : Role} {M M' F : Multiset Res} (before : Guarded Rest During k (F + M))
    (move : Move cfg role t k M k' M') (sections : Sections d k (F + M))
    (frame : ∀ c, Untouched k k' c → ∀ o, Guards Rest During k c o → Guards Rest During k' c o)
    (inner : ∀ c o o', Inner cfg t M c k o k' o' → (∀ x ∈ o, x ∈ M) →
      Guards Rest During k c o → Guards Rest During k' c o') :
    Guarded Rest During k' (F + M') where
  rest c free := by
    by_cases mine : ∃ x ∈ M, x.section_ = some c
    · obtain ⟨x, hx, own⟩ := mine
      refine inner c (some x) none (move.leaving sections hx own free) ?_
        (before.during x (mem_add.mpr (.inr hx)) c own)
      rintro _ ⟨⟩
      exact hx
    · apply frame c ((move.elsewhere sections c).resolve_left mine) none
      apply before.rest
      rcases move.locks c with ⟨-, same⟩ | ⟨unlocked, -⟩ | ⟨-, one, -⟩
      · rw [← same, free]
      · exact unlocked
      · push Not at mine
        rw [weigh_eq_zero fun x hx => by simp [Res.locks, mine x hx]] at one
        cases one
  during x hx c own := by
    rcases mem_add.mp hx with old | new
    · have untouched := (move.elsewhere sections c).resolve_left fun h => by
        obtain ⟨y, hy, same⟩ := h
        exact sections.apart hy same old own
      exact frame c untouched (some x) (before.during x (mem_add.mpr (.inl old)) c own)
    · obtain ⟨o, step, free, had⟩ := move.within new own
      refine inner c o (some x) step (fun y hy => (had y hy).1) ?_
      cases o with
      | none => exact before.rest c (free rfl)
      | some y =>
        obtain ⟨hy, own⟩ := had y rfl
        exact before.during y (mem_add.mpr (.inr hy)) c own

variable {F : Type}

theorem Dialled.nums_start (d : Dialled) (recv : ConnId → Option RecvBuffer)
    (receives : Nat → Nat) (regions : List (Nat × Mr)) (nextKey : Nat)
    (cc : CongestionController F) (c : ConnId) :
    ((World.start d recv receives regions nextKey cc).core.qps c).map (·.num) =
      d.nums.getD c [] := by
  simp [World.start, World.core, Dialled.conn, Function.comp_def]

theorem Sections.start (d : Dialled) (recv : ConnId → Option RecvBuffer) (receives : Nat → Nat)
    (regions : List (Nat × Mr)) (nextKey : Nat) (cc : CongestionController F) :
    Sections d (World.start d recv receives regions nextKey cc).core 0 where
  nums := d.nums_start recv receives regions nextKey cc
  inRange := by simp
  locks _ := rfl
  turns := rfl
  known _ := rfl

/-- What the calls in progress hold, call by call. -/
abbrev Held {F : Type} [CcReal F] (cfg : RdmaConfig) (p : Pool Call (World F) Answer Reply)
    (held : List (Multiset Res)) : Prop :=
  Interleave.Allotted (fun call => moves F cfg call.role) (fun _ _ _ M => M = 0)
    (fun _ _ => True) p held

/-- What the moves of calls of some kind keep, from the start on, is true at every
moment of a run of such calls. -/
theorem run_keeps [CcReal F] {recv : ConnId → Option RecvBuffer} {receives : Nat → Nat}
    {regions : List (Nat × Mr)} {nextKey : Nat} {cc : CongestionController F}
    {ok : World F → World F → Prop} (Inv : Core → Multiset Res → Prop) (kind : Call → Prop)
    (start : Inv (World.start d recv receives regions nextKey cc).core 0)
    (step : ∀ {call : Call} {t : Tid} {s s' : World F} {F₁ M M' : Multiset Res}, kind call →
      Move cfg call.role t s.core M s'.core M' → ok s s' → Sections d s.core (F₁ + M) →
      Inv s.core (F₁ + M) → Inv s'.core (F₁ + M'))
    {p : Pool Call (World F) Answer Reply}
    (run : Run (body cfg) ok (World.start d recv receives regions nextKey cc) p)
    (calls : ∀ th ∈ p.threads, kind th.call) :
    ∃ held, Held cfg p held ∧ Sections d p.shared.core held.sum ∧ Inv p.shared.core held.sum := by
  have keep (call : Call) (t : Tid) (s : World F) (F₁ M : Multiset Res) (s' : World F)
      (M' : Multiset Res) (is : kind call)
      (inv : Sections d s.core (F₁ + M) ∧ Inv s.core (F₁ + M))
      (move : moves F cfg call.role t s M s' M') (hok : ok s s') :
      Sections d s'.core (F₁ + M') ∧ Inv s'.core (F₁ + M') :=
    ⟨.move move inv.1, step is move hok inv.1 inv.2⟩
  exact run.allotted_among (fun s M => Sections d s.core M ∧ Inv s.core M)
    (fun _ _ => True) kind follows_body (fun _ => trivial) (fun _ _ _ _ _ _ _ _ => trivial)
    ⟨.start d recv receives regions nextKey cc, start⟩ keep calls

/-- A step of a thread is one of its moves, with what the calls hold. -/
theorem Held.step [CcReal F] {p p' : Pool Call (World F) Answer Reply}
    {held : List (Multiset Res)} {e : Answer} (each : Held cfg p held)
    (hs : p.step (body cfg) (.run t e) = some p') :
    ∃ role F₁ M M', held.sum = F₁ + M ∧ Move cfg role t p.shared.core M p'.shared.core M' := by
  obtain ⟨-, -, ⟨_, is, -⟩ | ⟨th, _, _, F₁, M, M', is, -, sum, -, move⟩⟩ :=
    Interleave.step_allotted follows_body (fun _ => trivial) (fun _ _ _ _ _ _ _ _ => trivial) hs
      each
  · cases is
  · cases is
    exact ⟨_, F₁, M, M', sum, move⟩

end Hux.Rdma
