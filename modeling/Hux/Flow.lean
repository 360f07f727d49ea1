import Mathlib.Data.Multiset.OrderedMonoid
import Hux.Sections

/-!
# The way of completions

The completions of one queue pair come in the order of its work requests, and are
on their way to being handled in that order: with the poll in progress, set aside
for the next one, or with a thread that verifies a path. `Flow` says so. It needs
that nothing is drawn past completions of the same queue pair that such a thread
still has, nor past those set aside unless it is by such a thread (`Orderly`).
-/

namespace Hux.Rdma
open Interleave (Tid weigh weigh_add weigh_singleton weigh_zero)
open Multiset (mem_singleton_self mem_singleton mem_add)

/-! ## Numbered work requests -/

/-- How many of the first `n` entries were posted by `submit`. -/
def postsAmong (sends : List WorkRequest) (n : Nat) : Nat := (posted (sends.take n)).length

theorem posted_append (sends sends' : List WorkRequest) :
    posted (sends ++ sends') = posted sends ++ posted sends' := List.filter_append ..

variable {sends : List WorkRequest} {n : Nat}

theorem postsAmong_mono {sends' : List WorkRequest} {n' : Nat} (more : sends <+: sends')
    (le : n ≤ n') : postsAmong sends n ≤ postsAmong sends' n' := by
  obtain ⟨rest, rfl⟩ := more
  have longer : sends.take n <+: (sends ++ rest).take n' := by
    rw [List.take_append]
    exact (List.take_prefix_take_left le).trans (List.prefix_append ..)
  exact (longer.filter _).length_le

theorem postsAmong_le (sends : List WorkRequest) (n : Nat) :
    postsAmong sends n ≤ (posted sends).length :=
  ((List.take_prefix n sends).filter _).length_le

variable {m : Nat} {wr : WorkRequest}

theorem postsAmong_succ (there : sends[m]? = some wr) (own : wr.opcode ≠ .send) :
    postsAmong sends (m + 1) = postsAmong sends m + 1 := by
  unfold postsAmong
  rw [List.take_add_one, there, posted_append]
  simp [posted, own]

/-- The place of an entry among those `submit` posted. -/
theorem getElem?_postsAmong (there : sends[m]? = some wr) (own : wr.opcode ≠ .send) :
    (posted sends)[postsAmong sends m]? = some wr := by
  obtain ⟨bound, rfl⟩ := List.getElem?_eq_some_iff.mp there
  have split : posted sends = posted (sends.take m) ++ sends[m] :: posted (sends.drop (m + 1)) := by
    conv_lhs => rw [← List.take_append_drop m sends, List.drop_eq_getElem_cons bound, posted_append]
    exact congrArg _ (List.filter_cons_of_pos (by simpa using own))
  rw [split, postsAmong, List.getElem?_append_right (Nat.le_refl _)]
  simp

/-- Queue pair `i` with `n` work requests of `submit`, and those of path
verifications. -/
structure Numbered (i n : Nat) (sends : List WorkRequest) : Prop where
  ids : (posted sends).map (·.wrId) = (List.range n).map (makeWrId i)
  proofs : ∀ wr ∈ sends, wr.opcode = .send → wr.wrId = kVerifyWrId

variable {i : Nat}

theorem Numbered.id_eq (numbered : Numbered i n sends) (there : sends[m]? = some wr)
    (own : wr.opcode ≠ .send) :
    postsAmong sends m < n ∧ wr.wrId = makeWrId i (postsAmong sends m) := by
  have place := congrArg (·[postsAmong sends m]?) numbered.ids
  simp only [List.getElem?_map, getElem?_postsAmong there own, Option.map_some] at place
  have bound : postsAmong sends m < n := by
    by_contra outside
    rw [List.getElem?_eq_none (by simpa using outside)] at place
    cases place
  rw [List.getElem?_range bound] at place
  exact ⟨bound, Option.some.inj place⟩

/-! ## Completions in order -/

/-- Completions of queue pair `i`, of work requests from `lo` on and before `hi`, in
order. -/
structure Fresh (i lo hi : Nat) (ws : List Wc) : Prop where
  le : lo ≤ hi
  increasing : ws.Pairwise fun v w => wrSeq v.wrId < wrSeq w.wrId
  each : ∀ w ∈ ws, wrQpIndex w.wrId = i ∧ lo ≤ wrSeq w.wrId ∧ wrSeq w.wrId < hi

namespace Fresh
variable {i lo mid hi : Nat} {ws ws' : List Wc}

theorem nil (le : lo ≤ hi) : Fresh i lo hi [] := ⟨le, .nil, by simp⟩

theorem mono {lo' hi' : Nat} (fresh : Fresh i lo hi ws) (below : lo' ≤ lo) (above : hi ≤ hi') :
    Fresh i lo' hi' ws where
  le := below.trans (fresh.le.trans above)
  increasing := fresh.increasing
  each w hw :=
    have ⟨own, ge, lt⟩ := fresh.each w hw
    ⟨own, below.trans ge, lt.trans_le above⟩

theorem append (fresh : Fresh i lo mid ws) (fresh' : Fresh i mid hi ws') :
    Fresh i lo hi (ws ++ ws') where
  le := fresh.le.trans fresh'.le
  increasing := by
    refine List.pairwise_append.mpr ⟨fresh.increasing, fresh'.increasing, fun v hv w hw => ?_⟩
    exact (fresh.each v hv).2.2.trans_le (fresh'.each w hw).2.1
  each w hw := by
    rcases List.mem_append.mp hw with hw | hw
    · exact (fresh.mono (Nat.le_refl _) fresh'.le).each w hw
    · exact (fresh'.mono fresh.le (Nat.le_refl _)).each w hw

theorem cons {w : Wc} (own : wrQpIndex w.wrId = i) (ge : lo ≤ wrSeq w.wrId)
    (fresh : Fresh i (wrSeq w.wrId + 1) hi ws) : Fresh i lo hi (w :: ws) := by
  have first : Fresh i lo (wrSeq w.wrId + 1) [w] :=
    ⟨ge.trans (Nat.le_succ _), List.pairwise_singleton .., by simpa using ⟨own, ge⟩⟩
  exact first.append fresh

end Fresh

/-- Those of one queue pair. -/
def ofQp (num : Nat) (ws : List Wc) : List Wc := ws.filter fun w => w.qpNum = num

theorem ofQp_append (num : Nat) (ws ws' : List Wc) :
    ofQp num (ws ++ ws') = ofQp num ws ++ ofQp num ws' := List.filter_append ..

theorem ofQp_cons_self (w : Wc) (ws : List Wc) : ofQp w.qpNum (w :: ws) = w :: ofQp w.qpNum ws := by
  simp [ofQp]

variable {num : Nat} {w : Wc}

theorem ofQp_cons_of_ne (other : w.qpNum ≠ num) (ws : List Wc) :
    ofQp num (w :: ws) = ofQp num ws := by
  simp [ofQp, other]

theorem ofQp_erase_self (w : Wc) (ws : List Wc) :
    ofQp w.qpNum (ws.erase w) = (ofQp w.qpNum ws).erase w := (List.erase_filter ..).symm

theorem ofQp_erase_of_ne (other : w.qpNum ≠ num) (ws : List Wc) :
    ofQp num (ws.erase w) = ofQp num ws := by
  unfold ofQp
  rw [← List.erase_filter, List.erase_of_not_mem]
  simp [other]

theorem mem_ofQp {ws : List Wc} : w ∈ ofQp num ws ↔ w ∈ ws ∧ w.qpNum = num := by
  simp [ofQp]

/-- What is drawn of one queue pair's transfers is of later work requests than what
was delivered before. -/
theorem Draws.fresh {sends : Nat → List WorkRequest} {delivered delivered' : Nat → Nat}
    {new : List Wc} (draws : Draws sends delivered new delivered')
    (numbered : Numbered i n (sends num)) (narrow : i < 2 ^ 14) (short : n ≤ 2 ^ 48) :
    Fresh i (postsAmong (sends num) (delivered num)) (postsAmong (sends num) (delivered' num))
      (ofQp num (new.filter Wc.transfer)) := by
  induction draws with
  | nil => exact .nil (Nat.le_refl _)
  | @sent delivered delivered' w ws skip wr there id rest ih =>
    by_cases own : w.qpNum = num
    · subst own
      rw [Function.update_self] at ih
      by_cases send : wr.opcode = .send
      · -- The completion of a path's verification.
        have other : w.transfer = false := by
          simp [Wc.transfer, id, numbered.proofs wr (List.mem_of_getElem? there) send]
        rw [List.filter_cons_of_neg (by simp [other])]
        exact ih.mono (postsAmong_mono (List.prefix_refl _) (by omega)) (Nat.le_refl _)
      · obtain ⟨bound, is⟩ := numbered.id_eq there send
        have seqLt := bound.trans_le short
        have wrId := id.trans is
        rw [List.filter_cons_of_pos (transfer_makeWrId narrow wrId), ofQp_cons_self]
        rw [postsAmong_succ there send] at ih
        have seq := congrArg wrSeq wrId
        rw [wrSeq_makeWrId, Nat.mod_eq_of_lt seqLt] at seq
        apply Fresh.cons
        · rw [wrId, wrQpIndex_makeWrId, Nat.mod_eq_of_lt (narrow.trans (by decide))]
        · rw [seq]
          exact postsAmong_mono (List.prefix_refl _) (by omega)
        · rwa [seq]
    · rw [Function.update_of_ne (Ne.symm own)] at ih
      rw [List.filter_cons]
      split
      · rwa [ofQp_cons_of_ne own]
      · exact ih
  | received id rest ih =>
    rw [List.filter_cons_of_neg (by simp [transfer_of_recv id])]
    exact ih

/-! ## Whose completion it is -/

variable {d : Dialled} {c : ConnId}

theorem Dialled.mem_connByQp :
    (num, c) ∈ d.connByQp ↔ ∃ i : Nat, (d.nums.getD c [])[i]? = some num := by
  simp only [Dialled.connByQp, List.mem_flatMap, List.mem_map, Prod.mk.injEq, Prod.exists]
  constructor
  · rintro ⟨l, c', there, _, member, rfl, rfl⟩
    rw [List.mem_zipIdx_iff_getElem?] at there
    rw [List.getD_eq_getElem?_getD, there]
    exact List.getElem?_of_mem member
  · rintro ⟨i, there⟩
    rw [List.getD_eq_getElem?_getD] at there
    cases hc : d.nums[c]? with
    | none => simp [hc] at there
    | some l =>
      rw [hc] at there
      exact ⟨l, c, List.mem_zipIdx_iff_getElem?.mpr hc, num, List.mem_of_getElem? there, rfl, rfl⟩

theorem Dialled.place_of_lookup (known : d.connByQp.lookup num = some c) :
    ∃ i : Nat, (d.nums.getD c [])[i]? = some num := by
  rw [← Dialled.mem_connByQp]
  obtain ⟨l₁, l₂, split, -⟩ := List.lookup_eq_some_iff.mp known
  simp [split]

theorem Dialled.lookup_of_place (there : (d.nums.getD c [])[i]? = some num) :
    d.connByQp.lookup num = some c := by
  cases known : d.connByQp.lookup num with
  | none =>
    have absent := List.lookup_eq_none_iff.mp known _ (Dialled.mem_connByQp.mpr ⟨i, there⟩)
    simp at absent
  | some c' =>
    obtain ⟨i', there'⟩ := Dialled.place_of_lookup known
    rw [(d.injective there' there).1]

/-! ## The order kept -/

def Core.came (k : Core) (num : Nat) : List Wc := ofQp num (k.arrived.filter Wc.transfer)

/-- Where a queue pair's work requests go on after those whose completions have been
handled. -/
def nextSeq (done : List Wc) : Nat :=
  match done.getLast? with
  | some w => wrSeq w.wrId + 1
  | none => 0

@[simp] theorem nextSeq_append (done : List Wc) (w : Wc) :
    nextSeq (done ++ [w]) = wrSeq w.wrId + 1 := by
  simp [nextSeq]

theorem Fresh.lt_nextSeq {lo hi : Nat} {done rest : List Wc}
    (fresh : Fresh i lo hi (done ++ rest)) {v : Wc} (hv : v ∈ done) :
    wrSeq v.wrId < nextSeq done := by
  obtain ⟨first, w, rfl⟩ := (List.eq_nil_or_concat' done).resolve_left (List.ne_nil_of_mem hv)
  rw [nextSeq_append]
  rcases List.mem_append.mp hv with before | last
  · have apart := (List.pairwise_append.mp (List.pairwise_append.mp fresh.increasing).1).2.2
    exact (apart v before w (by simp)).trans (Nat.lt_succ_self _)
  · rw [List.mem_singleton.mp last]
    exact Nat.lt_succ_self _

theorem Fresh.nextSeq_le {lo hi : Nat} {done rest : List Wc}
    (fresh : Fresh i lo hi (done ++ w :: rest)) : nextSeq done ≤ wrSeq w.wrId := by
  unfold nextSeq
  split
  · rename_i v last
    exact (List.pairwise_append.mp fresh.increasing).2.2 v (List.mem_of_getLast? last) w (by simp)
  · exact Nat.zero_le _

/-- The completions that come with the progress turn. -/
def Res.hand : Res → Option (List Wc)
  | .turn ws => some ws
  | .found _ w ws | .missed _ w ws | .retiring _ w _ ws | .popped _ w _ _ _ ws | .retired _ w ws =>
    some (w :: ws)
  | _ => none

/-- The completion being handled, and the connection found for it. -/
def Res.subject : Res → Option (ConnId × Wc)
  | .found c w _ | .missed c w _ | .retiring c w _ _ | .popped c w _ _ _ _ | .retired c w _ =>
    some (c, w)
  | _ => none

theorem Res.turning_of_hand {x : Res} {ws : List Wc} (hand : x.hand = some ws) :
    x.turning = true := by
  cases x <;> first | rfl | cases hand

/-- One strand of completions, if there are any. -/
def strand (ws : List Wc) : Multiset (List Wc) := if ws = [] then 0 else {ws}

/-- What a thread that verifies a path has of one queue pair. -/
def Res.strand (num : Nat) : Res → Multiset (List Wc)
  | .drawn ws => Rdma.strand (ofQp num ws)
  | _ => 0

theorem weigh_strand_inHand (num : Nat) (ws : List Wc) :
    weigh (Res.strand num) (inHand ws) = strand (ofQp num ws) := by
  unfold inHand
  split
  · rename_i empty
    rw [empty]
    rfl
  · rw [weigh_singleton]
    rfl

/-- The completions of a queue pair that are to be handled: those in hand, then those set
aside, then those of a path's verification. -/
def Core.waiting (k : Core) (num : Nat) : List Wc :=
  ofQp num k.polling ++ (ofQp num k.stashed ++ ofQp num k.verifying)

/-- The completions of a queue pair: those handled, then those that wait. -/
def Ordered (k : Core) (q : QueuePair) : Prop :=
  ∃ done, q.reclaimed = nextSeq done ∧ k.came q.num = done ++ k.waiting q.num

structure Flow (k : Core) (M : Multiset Res) : Prop where
  proofs : ∀ num, ∀ wr ∈ k.sends num, wr.opcode = .send → wr.wrId = kVerifyWrId
  fresh : ∀ c i q, (k.qps c)[i]? = some q →
    Fresh i 0 (postsAmong (k.sends q.num) (k.delivered q.num)) (k.came q.num)
  order : ∀ (c i : Nat) q, (k.qps c)[i]? = some q → Ordered k q
  hands : ∀ x ∈ M, ∀ ws, x.hand = some ws → k.polling = ws
  idle : k.progressing = false → k.polling = []
  subjects : ∀ x ∈ M, ∀ c w, x.subject = some (c, w) → k.connByQp w.qpNum = some c
  /-- A completion in hand has its queue pair. -/
  hit : ∀ c w ws, .missed c w ws ∉ M
  /-- What is drawn of one queue pair while verifying is with one thread. -/
  strands : ∀ num, weigh (Res.strand num) M = strand (ofQp num k.verifying)
  transfers : ∀ w ∈ k.verifying ++ k.stashed, w.transfer = true

/-- What is drawn is drawn past no completion of its queue pair that a path's
verification has, nor, unless by such, past one that is set aside. -/
def Core.Orderly (k k' : Core) : Prop :=
  ∀ w ∈ k'.arrived.drop k.arrived.length, w.transfer = true →
    (∀ v ∈ k.verifying, v.qpNum ≠ w.qpNum) ∧
      (k'.verifying = k.verifying → ∀ v ∈ k.stashed, v.qpNum ≠ w.qpNum)

section
variable {k k' : Core} {q : QueuePair} {new ws : List Wc} {delivered : Nat → Nat}

/-- Nothing of a queue pair waits where what is drawn of it could overtake it. -/
theorem Core.Orderly.ofQp_eq_nil (orderly : k.Orderly k') (arrived : k'.arrived = k.arrived ++ new)
    (num : Nat) :
    ofQp num (new.filter Wc.transfer) = [] ∨ ofQp num k.verifying = [] ∧
      (k'.verifying = k.verifying → ofQp num k.stashed = []) := by
  by_cases none_ : ofQp num (new.filter Wc.transfer) = []
  · exact .inl none_
  · obtain ⟨w, hw⟩ := List.exists_mem_of_ne_nil _ none_
    obtain ⟨there, rfl⟩ := mem_ofQp.mp hw
    obtain ⟨there, transfer⟩ := List.mem_filter.mp there
    obtain ⟨verifying, stashed⟩ := orderly w (by simpa [arrived] using there) transfer
    refine .inr ⟨List.filter_eq_nil_iff.mpr ?_, fun same => List.filter_eq_nil_iff.mpr ?_⟩
    · simpa using verifying
    · simpa using stashed same

theorem came_drew (k : Core) (new : List Wc) (delivered : Nat → Nat) (num : Nat) :
    (k.drew new delivered).came num = k.came num ++ ofQp num (new.filter Wc.transfer) := by
  rw [Core.came, Core.drew, List.filter_append, ofQp_append]
  rfl

namespace Ordered

/-- What comes is the last to be handled. -/
theorem grow (ordered : Ordered k q) (came : k'.came q.num = k.came q.num ++ ws)
    (waiting : k'.waiting q.num = k.waiting q.num ++ ws) : Ordered k' q := by
  obtain ⟨done, reclaimed, order⟩ := ordered
  exact ⟨done, reclaimed, by rw [came, waiting, order, List.append_assoc]⟩

/-- What waits is passed on in its order. -/
theorem pass (ordered : Ordered k q) (arrived : k'.arrived = k.arrived)
    (waiting : k'.waiting q.num = k.waiting q.num) : Ordered k' q := by
  obtain ⟨done, reclaimed, order⟩ := ordered
  exact ⟨done, reclaimed, by rw [waiting, ← order, Core.came, arrived, ← Core.came]⟩

theorem draw (ordered : Ordered k q) (orderly : k.Orderly
      { k.drew new delivered with polling := k.polling ++ new.filter Wc.transfer }) :
    Ordered { k.drew new delivered with polling := k.polling ++ new.filter Wc.transfer } q := by
  refine ordered.grow (came_drew k new delivered q.num) ?_
  rcases orderly.ofQp_eq_nil rfl q.num with none_ | ⟨verifying, stashed⟩
  · simp [Core.waiting, ofQp_append, none_, Core.drew]
  · simp [Core.waiting, ofQp_append, verifying, stashed rfl, Core.drew]

theorem fetch (ordered : Ordered k q) :
    Ordered { k.drew new delivered with verifying := k.verifying ++ new.filter Wc.transfer } q := by
  refine ordered.grow (came_drew k new delivered q.num) ?_
  simp [Core.waiting, ofQp_append, Core.drew]

theorem unstash (ordered : Ordered k q) (transfers : ∀ w ∈ k.stashed, w.transfer = true) (n : Nat) :
    Ordered { k with
      stashed := k.stashed.drop n
      polling := k.polling ++ (k.stashed.take n).filter Wc.transfer } q := by
  refine ordered.pass rfl ?_
  have all : (k.stashed.take n).filter Wc.transfer = k.stashed.take n :=
    List.filter_eq_self.mpr fun w hw => transfers w (List.mem_of_mem_take hw)
  have split : ofQp q.num k.stashed =
      ofQp q.num (k.stashed.take n) ++ ofQp q.num (k.stashed.drop n) := by
    rw [← ofQp_append, List.take_append_drop]
  simp [Core.waiting, all, ofQp_append, split]

theorem lose (ordered : Ordered k q) (held : k.polling = w :: ws) (other : w.qpNum ≠ q.num) :
    Ordered { k with polling := k.polling.drop 1 } q := by
  refine ordered.pass rfl ?_
  simp [Core.waiting, held, ofQp_cons_of_ne other]

theorem setAside (ordered : Ordered k q) (all : ofQp w.qpNum k.verifying = w :: ofQp w.qpNum ws) :
    Ordered { k with stashed := k.stashed ++ [w], verifying := k.verifying.erase w } q := by
  refine ordered.pass rfl ?_
  dsimp only [Core.waiting]
  rw [ofQp_append q.num k.stashed]
  by_cases own : w.qpNum = q.num
  · rw [← own, ofQp_erase_self, all, List.erase_cons_head, ofQp_cons_self]
    simp [ofQp]
  · rw [ofQp_erase_of_ne own, ofQp_cons_of_ne own]
    simp [ofQp]

/-- The completion in hand counts as handled for its own queue pair. -/
theorem reclaim (ordered : Ordered k q) (held : k.polling = w :: ws) (own : q.num = w.qpNum)
    (c i : Nat) :
    Ordered (k.reclaim c i (wrSeq w.wrId)) { q with reclaimed := wrSeq w.wrId + 1 } := by
  obtain ⟨done, -, order⟩ := ordered
  have rest : (k.reclaim c i (wrSeq w.wrId)).polling = ws := by
    simp [Core.reclaim, Core.handled, Core.setQp, held]
  refine ⟨done ++ [w], (nextSeq_append done w).symm, ?_⟩
  rw [Core.waiting, held, own, ofQp_cons_self] at order
  rw [Core.waiting, rest, own, List.append_assoc]
  exact order

end Ordered

end

variable {cfg : RdmaConfig} {role : Role} {t : Tid} {k k' : Core} {M M' : Multiset Res}

/-- Without a path's verification nothing is set aside. -/
theorem Move.unverified (move : Move cfg role t k M k' M') (transfers : role ≠ .verifies)
    (none_ : k.verifying ++ k.stashed = []) : k'.verifying ++ k'.stashed = [] := by
  cases move with
  | fetch verify | setAside verify => exact absurd verify transfers
  | unstash n =>
    obtain ⟨verifying, stashed⟩ := List.append_eq_nil_iff.mp none_
    simp [verifying, stashed]
  | _ => exact none_

theorem Move.polling (move : Move cfg role t k M k' M') :
    k'.polling = k.polling ∨ ∃ x ∈ M, x.turning = true := by
  cases move with
  | unstash | draw | lose | skip => exact .inr ⟨_, mem_singleton_self _, rfl⟩
  | reclaim done => exact .inr ⟨_, mem_singleton_self _, done.turning⟩
  | _ => exact .inl rfl

/-- A completion gets its connection from the table, and keeps it. -/
theorem Move.subject (move : Move cfg role t k M k' M') {x : Res} (hx : x ∈ M')
    (subject : x.subject = some (c, w)) :
    k.connByQp w.qpNum = some c ∨ ∃ y ∈ M, y.subject = some (c, w) := by
  cases move with
  | find known =>
    cases mem_singleton.mp hx
    cases subject
    exact .inl known
  | open_ | miss | report | stop =>
    cases mem_singleton.mp hx
    exact .inr ⟨_, mem_singleton_self _, subject⟩
  | pop =>
    rcases mem_add.mp hx with hx | hx
    · cases mem_singleton.mp hx
      exact .inr ⟨_, mem_singleton_self _, subject⟩
    · cases mem_singleton.mp hx
      cases subject
  | fetch | setAside =>
    cases eq_of_mem_inHand hx
    cases subject
  | still | giveBack | unlock | leave | prove => cases hx
  | plan =>
    rcases mem_add.mp hx with hx | hx
    · cases mem_singleton.mp hx
      cases subject
    · cases mem_singleton.mp hx
      cases subject
  | lock | send | refuse | record | enter | unstash | draw | lose | skip | reclaim =>
    cases mem_singleton.mp hx
    cases subject

namespace Flow
variable {cfg : RdmaConfig} {role : Role} {t : Tid} {k k' : Core} {F M M' : Multiset Res}
  {d : Dialled}

/-- The queue pair of a completion in hand. -/
theorem queuePair (flow : Flow k M) (sections : Sections d k M) {x : Res} {c : ConnId} {w : Wc}
    {ws : List Wc} (hx : x ∈ M) (subject : x.subject = some (c, w))
    (hand : x.hand = some (w :: ws)) :
    ∃ q done rest, (k.qps c)[wrQpIndex w.wrId]? = some q ∧ q.num = w.qpNum ∧
      q.reclaimed = nextSeq done ∧ k.came q.num = done ++ w :: rest := by
  have known := flow.subjects x hx c w subject
  rw [sections.known] at known
  obtain ⟨i, place⟩ := Dialled.place_of_lookup known
  rw [← sections.nums c, List.getElem?_map] at place
  obtain ⟨q, there, num⟩ := Option.map_eq_some_iff.mp place
  obtain ⟨done, reclaimed, came⟩ := flow.order c i q there
  rw [Core.waiting, flow.hands x hx _ hand, num, ofQp_cons_self] at came
  have index := ((flow.fresh c i q there).each w (by rw [num, came]; simp)).1
  rw [index]
  exact ⟨q, done, _, there, num, reclaimed, by rw [num]; exact came⟩

theorem proofs_move (flow : Flow k (F + M)) (move : Move cfg role t k M k' M') :
    ∀ num, ∀ wr ∈ k'.sends num, wr.opcode = .send → wr.wrId = kVerifyWrId := by
  have posts {num : Nat} {wr : WorkRequest} (own : wr.opcode = .send → wr.wrId = kVerifyWrId) :
      ∀ num', ∀ wr' ∈ (k.post num wr).sends num', wr'.opcode = .send → wr'.wrId = kVerifyWrId := by
    intro num' wr' hwr' send
    rw [Core.sends_post] at hwr'
    split at hwr'
    · rcases List.mem_append.mp hwr' with old | new
      · exact flow.proofs num wr' old send
      · cases List.mem_singleton.mp new
        exact own send
    · exact flow.proofs num' wr' hwr' send
  cases move with
  | @send c x p rest posting =>
    refine posts fun send => ?_
    unfold Planned.workRequest at send
    cases h : p.op.kind <;> rw [h] at send <;> cases send
  | prove id opcode => exact posts fun _ => id
  | _ => exact flow.proofs

theorem subjects_move (flow : Flow k (F + M)) (move : Move cfg role t k M k' M') :
    ∀ x ∈ F + M', ∀ c w, x.subject = some (c, w) → k'.connByQp w.qpNum = some c := by
  have same : k'.connByQp = k.connByQp := by cases move <;> rfl
  intro x hx c w subject
  rw [same]
  rcases mem_add.mp hx with old | new
  · exact flow.subjects x (mem_add.mpr (.inl old)) c w subject
  · rcases move.subject new subject with known | ⟨y, hy, own⟩
    · exact known
    · exact flow.subjects y (mem_add.mpr (.inr hy)) c w own

theorem hit_move (flow : Flow k (F + M)) (sections : Sections d k (F + M))
    (move : Move cfg role t k M k' M') (c : ConnId) (w : Wc) (ws : List Wc) :
    .missed c w ws ∉ F + M' := by
  intro hx
  rcases mem_add.mp hx with old | new
  · exact flow.hit c w ws (mem_add.mpr (.inl old))
  · obtain ⟨o, inner, -, -⟩ := move.within new rfl
    cases inner with
    | miss found free missing =>
      obtain ⟨q, -, -, there, -⟩ :=
        flow.queuePair sections (mem_add.mpr (.inr found)) rfl rfl
      cases missing.symm.trans there

/-- What a thread that verifies a path has of a queue pair is all there is of it. -/
theorem drawn (flow : Flow k M) {w : Wc} {ws : List Wc} (hx : .drawn (w :: ws) ∈ M) :
    ofQp w.qpNum k.verifying = w :: ofQp w.qpNum ws := by
  have part := Interleave.le_weigh (f := Res.strand w.qpNum) hx
  rw [flow.strands, Res.strand, ofQp_cons_self] at part
  have whole : w :: ofQp w.qpNum ws ∈ strand (ofQp w.qpNum k.verifying) :=
    Multiset.mem_of_le part (by simp [strand])
  unfold strand at whole
  split at whole
  · cases whole
  · exact (mem_singleton.mp whole).symm

theorem transfers_move (flow : Flow k (F + M)) (move : Move cfg role t k M k' M') :
    ∀ w ∈ k'.verifying ++ k'.stashed, w.transfer = true := by
  have set_aside : ∀ w ∈ k.stashed, w.transfer = true := fun w hw =>
    flow.transfers w (List.mem_append.mpr (.inr hw))
  have verifying : ∀ w ∈ k.verifying, w.transfer = true := fun w hw =>
    flow.transfers w (List.mem_append.mpr (.inl hw))
  cases move with
  | unstash n =>
    intro w hw
    rcases List.mem_append.mp hw with hw | hw
    · exact verifying w hw
    · exact set_aside w (List.mem_of_mem_drop hw)
  | fetch =>
    intro w hw
    rcases List.mem_append.mp hw with hw | hw
    · rcases List.mem_append.mp hw with hw | hw
      · exact verifying w hw
      · exact (List.mem_filter.mp hw).2
    · exact set_aside w hw
  | @setAside w₀ ws verify =>
    have all := flow.drawn (w := w₀) (mem_add.mpr (.inr (mem_singleton_self _)))
    have member : w₀ ∈ k.verifying := (mem_ofQp.mp (all ▸ List.mem_cons_self)).1
    intro w hw
    rcases List.mem_append.mp hw with hw | hw
    · exact verifying w (List.mem_of_mem_erase hw)
    · rcases List.mem_append.mp hw with hw | hw
      · exact set_aside w hw
      · cases List.mem_singleton.mp hw
        exact verifying _ member
  | _ => exact flow.transfers

theorem strands_move (flow : Flow k (F + M)) (move : Move cfg role t k M k' M')
    (orderly : k.Orderly k') (num : Nat) :
    weigh (Res.strand num) (F + M') = strand (ofQp num k'.verifying) := by
  have posted {c : ConnId} {x : Res} {rest : List Planned} (posting : Posting c x rest) :
      x.strand num = 0 := by cases posting <;> rfl
  have now := flow.strands num
  rw [weigh_add] at now ⊢
  cases move with
  | @fetch new delivered verify draws =>
    rw [weigh_zero, add_zero] at now
    rw [weigh_strand_inHand, ofQp_append]
    rcases orderly.ofQp_eq_nil rfl num with none_ | ⟨empty, -⟩
    · rw [none_, List.append_nil, now]
      exact add_zero _
    · -- Something new of this queue pair: no thread has anything of it.
      rw [now, empty, List.nil_append]
      exact zero_add _
  | @setAside w ws verify =>
    have all := flow.drawn (w := w) (mem_add.mpr (.inr (mem_singleton_self _)))
    rw [weigh_strand_inHand]
    by_cases own : w.qpNum = num
    · subst own
      rw [weigh_singleton, Res.strand, ofQp_cons_self, all] at now
      rw [ofQp_erase_self, all, List.erase_cons_head]
      rw [add_eq_right.mp now, zero_add]
    · rw [ofQp_erase_of_ne own, ← now, weigh_singleton, Res.strand, ofQp_cons_of_ne own]
  | send posting | refuse posting =>
    rw [weigh_singleton, posted posting] at now
    exact now
  | unlock done =>
    cases done with
    | holding => exact now
    | posting posting =>
      rw [weigh_singleton, posted posting] at now
      exact now
  | reclaim done => cases done <;> exact now
  | still | lock | plan | record | giveBack | enter | unstash | draw | lose | find | open_ | miss
  | skip | pop | report | stop | leave | prove => exact now

theorem hands_move (flow : Flow k (F + M)) (sections : Sections d k (F + M))
    (move : Move cfg role t k M k' M') :
    ∀ x ∈ F + M', ∀ ws, x.hand = some ws → k'.polling = ws := by
  have had {x : Res} {ws : List Wc} (hx : x ∈ M) (hand : x.hand = some ws) : k.polling = ws :=
    flow.hands x (mem_add.mpr (.inr hx)) ws hand
  intro x hx ws hand
  rcases mem_add.mp hx with old | new
  · rcases move.polling with same | ⟨y, hy, turning⟩
    · rw [same]
      exact flow.hands x (mem_add.mpr (.inl old)) ws hand
    · cases (sections.turn_apart hy turning old).symm.trans (Res.turning_of_hand hand)
  · cases move with
    | enter free =>
      cases mem_singleton.mp new
      cases hand
      exact flow.idle free
    | unstash | draw | lose =>
      cases mem_singleton.mp new
      cases hand
      simp [had (mem_singleton_self _) rfl]
    | skip =>
      cases mem_singleton.mp new
      cases hand
      simp [Core.handled, had (mem_singleton_self _) rfl]
    | @reclaim c w _ y done =>
      cases mem_singleton.mp new
      cases hand
      have held : y.hand = some (w :: ws) := by cases done <;> rfl
      simp [Core.reclaim, Core.handled, Core.setQp, had (mem_singleton_self _) held]
    | find | open_ | miss | report | stop =>
      cases mem_singleton.mp new
      exact had (mem_singleton_self _) hand
    | pop =>
      rcases mem_add.mp new with new | new
      · cases mem_singleton.mp new
        exact had (mem_singleton_self _) hand
      · cases mem_singleton.mp new
        cases hand
    | plan =>
      rcases mem_add.mp new with new | new
      · cases mem_singleton.mp new
        cases hand
      · cases mem_singleton.mp new
        cases hand
    | fetch | setAside =>
      cases eq_of_mem_inHand new
      cases hand
    | still | giveBack | unlock | leave | prove => cases new
    | lock | send | refuse | record =>
      cases mem_singleton.mp new
      cases hand

theorem idle_move (flow : Flow k (F + M)) (sections : Sections d k (F + M))
    (move : Move cfg role t k M k' M') (free : k'.progressing = false) : k'.polling = [] := by
  have busy {x : Res} (hx : x ∈ M) (turning : x.turning = true) : k.progressing = true :=
    sections.progressing (mem_add.mpr (.inr hx)) turning
  cases move with
  | enter => cases free
  | leave => exact flow.hands _ (mem_add.mpr (.inr (mem_singleton_self _))) [] rfl
  | unstash | draw | lose | skip =>
    cases free.symm.trans (busy (mem_singleton_self _) rfl)
  | reclaim done => cases free.symm.trans (busy (mem_singleton_self _) done.turning)
  | still | lock | plan | send | refuse | record | giveBack | unlock | find | open_ | miss | pop
  | report | stop | prove | fetch | setAside => exact flow.idle free

/-- The work requests of every queue pair are numbered. -/
def AllNumbered (k : Core) : Prop :=
  ∀ c i q, (k.qps c)[i]? = some q → ∃ n ≤ 2 ^ 48, Numbered i n (k.sends q.num)

theorem fresh_move (flow : Flow k (F + M)) (sections : Sections d k (F + M))
    (narrow : ∀ c, d.width c ≤ 2 ^ 14) (numbered : AllNumbered k)
    (move : Move cfg role t k M k' M') {c i : Nat} {q' : QueuePair}
    (there' : (k'.qps c)[i]? = some q') :
    Fresh i 0 (postsAmong (k'.sends q'.num) (k'.delivered q'.num)) (k'.came q'.num) := by
  obtain ⟨q, there, num⟩ := move.qp_before there'
  rw [← num]
  have now := flow.fresh c i q there
  have drawn {new : List Wc} {delivered : Nat → Nat}
      (draws : Draws k.sends k.delivered new delivered) :
      Fresh i 0 (postsAmong (k.sends q.num) (delivered q.num))
        (k.came q.num ++ ofQp q.num (new.filter Wc.transfer)) := by
    obtain ⟨n, short, numbered⟩ := numbered c i q there
    exact now.append (draws.fresh numbered ((sections.lt_of_qp there).trans_le (narrow c)) short)
  have posts (num' : Nat) (wr : WorkRequest) :
      Fresh i 0 (postsAmong ((k.post num' wr).sends q.num) (k.delivered q.num)) (k.came q.num) := by
    refine now.mono (Nat.le_refl _) (postsAmong_mono ?_ (Nat.le_refl _))
    rw [Core.sends_post]
    split
    · rename_i same
      rw [same]
      exact List.prefix_append ..
    · exact List.prefix_refl _
  cases move with
  | @draw ws new delivered draws =>
    have fresh := drawn draws
    rw [← came_drew k new delivered] at fresh
    exact fresh
  | @fetch new delivered verify draws =>
    have fresh := drawn draws
    rw [← came_drew k new delivered] at fresh
    exact fresh
  | send | prove => exact posts _ _
  | _ => exact now

/-- Retiring a completion leaves those of the other queue pairs as they are. -/
theorem order_reclaim (flow : Flow k M) (sections : Sections d k M) {c₀ : ConnId} {w : Wc}
    {ws : List Wc} {x : Res} (retired : Retired c₀ w ws x) (hx : x ∈ M) {c i : Nat} {q' : QueuePair}
    (there' : ((k.reclaim c₀ (wrQpIndex w.wrId) (wrSeq w.wrId)).qps c)[i]? = some q') :
    Ordered (k.reclaim c₀ (wrQpIndex w.wrId) (wrSeq w.wrId)) q' := by
  have subject : x.subject = some (c₀, w) := by cases retired <;> rfl
  have hand : x.hand = some (w :: ws) := by cases retired <;> rfl
  have held := flow.hands x hx _ hand
  obtain ⟨q₀, -, -, there₀, num₀, -⟩ := flow.queuePair sections hx subject hand
  obtain ⟨q, there, ⟨rfl, rfl, rfl⟩ | ⟨elsewhere, rfl⟩⟩ := Core.of_qps_setQp there'
  · cases there.symm.trans there₀
    exact (flow.order c _ q₀ there).reclaim held num₀ c _
  · have other : w.qpNum ≠ q'.num := fun own =>
      elsewhere (sections.num_inj there there₀ (own.symm.trans num₀.symm))
    exact (flow.order c i q' there).lose held other

theorem order_move (flow : Flow k (F + M)) (sections : Sections d k (F + M))
    (orderly : k.Orderly k') (move : Move cfg role t k M k' M') {c i : Nat} {q' : QueuePair}
    (there' : (k'.qps c)[i]? = some q') : Ordered k' q' := by
  have same {q : QueuePair} (there : (k.qps c)[i]? = some q) (num : q'.num = q.num)
      (reclaimed : q'.reclaimed = q.reclaimed) : Ordered k q' := by
    unfold Ordered
    rw [num, reclaimed]
    exact flow.order c i q there
  have mine {x : Res} (hx : x ∈ M) : x ∈ F + M := mem_add.mpr (.inr hx)
  cases move with
  | draw => exact (flow.order c i q' there').draw orderly
  | fetch => exact (flow.order c i q' there').fetch
  | unstash n =>
    refine (flow.order c i q' there').unstash (fun w hw => ?_) n
    exact flow.transfers w (List.mem_append.mpr (.inr hw))
  | @lose w ws unknown =>
    refine (flow.order c i q' there').lose (flow.hands _ (mine (mem_singleton_self _)) _ rfl) ?_
    intro own
    rw [sections.known, own, Dialled.lookup_of_place (sections.num there')] at unknown
    cases unknown
  | skip => exact absurd (mine (mem_singleton_self _)) (flow.hit _ _ _)
  | setAside =>
    exact (flow.order c i q' there').setAside (flow.drawn (mine (mem_singleton_self _)))
  | reclaim retired =>
    exact flow.order_reclaim sections retired (mine (mem_singleton_self _)) there'
  | record | pop =>
    obtain ⟨q, there, ⟨-, -, rfl⟩ | ⟨-, rfl⟩⟩ := Core.of_qps_setQp there'
    · exact same there rfl rfl
    · exact same there rfl rfl
  | still | lock | plan | send | refuse | giveBack | unlock | enter | find | open_ | miss | report
  | stop | leave | prove => exact same there' rfl rfl

theorem move (flow : Flow k (F + M)) (sections : Sections d k (F + M))
    (narrow : ∀ c, d.width c ≤ 2 ^ 14) (numbered : AllNumbered k) (orderly : k.Orderly k')
    (move : Move cfg role t k M k' M') : Flow k' (F + M') where
  proofs := flow.proofs_move move
  fresh _ _ _ := flow.fresh_move sections narrow numbered move
  order _ _ _ := flow.order_move sections orderly move
  hands := flow.hands_move sections move
  idle := flow.idle_move sections move
  subjects := flow.subjects_move move
  hit := flow.hit_move sections move
  strands := flow.strands_move move orderly
  transfers := flow.transfers_move move

theorem start {F : Type} (d : Dialled) (recv : ConnId → Option RecvBuffer)
    (receives : Nat → Nat) (regions : List (Nat × Mr)) (nextKey : Nat)
    (cc : CongestionController F) :
    Flow (World.start d recv receives regions nextKey cc).core 0 where
  proofs _ _ hwr := by cases hwr
  fresh _ _ _ _ := .nil (Nat.zero_le _)
  order c i q there := by
    obtain ⟨num, -, rfl⟩ := List.mem_map.mp (List.mem_of_getElem? there)
    exact ⟨[], rfl, rfl⟩
  hands x hx := by cases hx
  idle _ := rfl
  subjects x hx := by cases hx
  hit _ _ _ hx := by cases hx
  strands _ := rfl
  transfers _ hw := by cases hw

end Flow

end Hux.Rdma
