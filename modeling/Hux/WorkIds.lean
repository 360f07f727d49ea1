import Hux.Capacity

/-!
# Work request ids

A completion is traced back to the work request it is of by its id alone, which has room
for fifteen bits of the queue pair's index and 48 of the number on it.

* `alone_retireLoop`, `alone_handle`: what the handling of a completion comes to, while
  the thread has the connection's lock.
-/

namespace Hux.Rdma
open Interleave (Tid Prog Alone alone_ret alone_sure)

/-- `n` of `build_connection`. -/
def qpCount (qpPerConn : Nat) : Nat := if qpPerConn = 0 then 1 else qpPerConn

/-- What is in flight has the numbers from `reclaimed` up to `posted`. -/
structure QueuePair.Numbered (q : QueuePair) : Prop where
  seqs : q.unsignalled.map (·.1) = List.range' q.reclaimed (q.posted - q.reclaimed)
  small : q.posted < 2 ^ 64

/-- Once the work requests up to a number are retired. -/
def QueuePair.retired (q : QueuePair) (seq : Nat) : QueuePair :=
  { q with unsignalled := q.unsignalled.filter (seq < ·.1), reclaimed := seq + 1 }

theorem takeWhile_le_eq_filter {α : Type} {l : List (Nat × α)} {n : Nat}
    (sorted : l.Pairwise (·.1 < ·.1)) :
    l.takeWhile (·.1 ≤ n) = l.filter (·.1 ≤ n) ∧ l.dropWhile (·.1 ≤ n) = l.filter (n < ·.1) := by
  induction l with
  | nil => exact ⟨rfl, rfl⟩
  | cons x l ih =>
    obtain ⟨first, rest⟩ := List.pairwise_cons.mp sorted
    by_cases below : x.1 ≤ n
    · simp [below, ih rest, Nat.not_lt.mpr below]
    · have above : ∀ y ∈ l, n < y.1 := fun y hy => (Nat.not_le.mp below).trans (first y hy)
      have none_ : l.filter (·.1 ≤ n) = [] := by simpa using above
      have all : l.filter (n < ·.1) = l := by simpa using above
      simp [Nat.not_le.mp below, none_, all]

section
variable {F : Type} [CcReal F] {t : Tid} {s : World F} {c : ConnId} {i : Nat} {q : QueuePair}
  {w : Wc}

omit [CcReal F] in
theorem World.qp_eq (there : (s.conns c).qps[i]? = some q) : s.qp c i = q := by
  simp [World.qp, List.getD_eq_getElem?_getD, there]

omit [CcReal F] in
theorem World.qps_setQp (there : (s.conns c).qps[i]? = some q) (f : QueuePair → QueuePair) :
    ((s.setQp c i f).conns c).qps[i]? = some (f q) := by
  simp [World.setQp, World.setConn, there]

theorem alone_giveBack (completedAt : CcTime) (key : InflightKey) :
    ∃ s₁ : World F, s₁.conns = s.conns ∧
    ∀ {β : Type} {k : Unit → Provider F β} {b : β} {s'},
      Alone t (giveBack key w completedAt >>= k) s b s' ↔ Alone t (k ()) s₁ b s' := by
  unfold giveBack
  split
  · exact ⟨s.release _ _ _, rfl, alone_update⟩
  · exact ⟨s.release _ _ _, rfl, alone_update⟩

omit [CcReal F] in
theorem alone_report {seq : Nat} {ev : CompletionEvent} {β : Type} {k : Unit → Provider F β}
    {b : β} {s' : World F} : Alone t (report c i seq ev >>= k) s b s' ↔
      Alone t (k ()) (s.report t c i seq ev) b s' :=
  alone_sure .nothing fun _ => rfl

/-- The loop retires the front of the list, as far as the completion's number goes. -/
theorem alone_retireLoop (completedAt : CcTime) (there : (s.conns c).qps[i]? = some q) :
    ∃ s₁ : World F, (s₁.conns c).qps[i]? =
      some { q with unsignalled := q.unsignalled.dropWhile (·.1 ≤ wrSeq w.wrId) } ∧
    ∀ {β : Type} {k : List CompletionEvent → Provider F β} {b : β} {s'},
      Alone t (retireLoop c i w completedAt q.unsignalled.length >>= k) s b s' ↔
        Alone t (k ((q.unsignalled.takeWhile (·.1 ≤ wrSeq w.wrId)).map (·.2.event w))) s₁ b s' := by
  induction listed : q.unsignalled generalizing s q with
  | nil => exact ⟨s, by rw [there, List.dropWhile_nil, ← listed], Iff.rfl⟩
  | cons x rest ih =>
    have front : (s.qp c i).unsignalled = x :: rest := World.qp_eq there ▸ listed
    simp only [List.length_cons, retireLoop, Prog.bind_assoc, popFront, alone_exchange, front]
    by_cases below : x.1 ≤ wrSeq w.wrId
    · obtain ⟨s₁, same, gave⟩ := alone_giveBack (t := t) (w := w)
        (s := s.setQp c i fun q => { q with unsignalled := rest }) completedAt x.2
      have there₁ : ((s₁.report t c i x.1 (x.2.event w)).conns c).qps[i]? =
          some { q with unsignalled := rest } := by
        change (s₁.conns c).qps[i]? = _
        rw [same, World.qps_setQp there]
      obtain ⟨s₂, there₂, retires⟩ := ih there₁ rfl
      refine ⟨s₂, by simpa [below] using there₂, ?_⟩
      intro β k b s'
      simp only [if_pos below, Prog.bind_assoc, gave, alone_report, retires]
      simp [below]
    · have stays : (x :: rest).dropWhile (·.1 ≤ wrSeq w.wrId) = q.unsignalled := by
        simp [below, listed]
      refine ⟨s, by rw [there, stays], ?_⟩
      simp [below]

omit [CcReal F] in
theorem alone_noteFailure : ∃ s₁ : World F, (s₁.conns c).qps = (s.conns c).qps ∧
    (s₁.conns c).locked = (s.conns c).locked ∧
    ∀ {β : Type} {k : Unit → Provider F β} {b : β} {s'},
      Alone t (noteFailure c w >>= k) s b s' ↔ Alone t (k ()) s₁ b s' := by
  unfold noteFailure
  split
  · exact ⟨s.setConn c fun conn => { conn with failed := true }, by simp [World.setConn],
      by simp [World.setConn], alone_update⟩
  · exact ⟨s, rfl, rfl, Iff.rfl⟩

/-- The completion of a transfer, on a connection that no other thread has the lock of. -/
theorem alone_handle (data : w.wrId ≠ kVerifyWrId) (sent : w.wrId &&& kRecvWrId = 0)
    (found : s.connByQp.lookup w.qpNum = some c) (free : (s.conns c).locked = false)
    (there : (s.conns c).qps[wrQpIndex w.wrId]? = some q) :
    (∃ evs s', Alone t (handle w) s evs s') ∧ ∀ evs s', Alone t (handle w) s evs s' →
      evs = (q.unsignalled.takeWhile (·.1 ≤ wrSeq w.wrId)).map (·.2.event w) ∧
      (s'.conns c).qps[wrQpIndex w.wrId]? =
        some { q with
          unsignalled := q.unsignalled.dropWhile (·.1 ≤ wrSeq w.wrId)
          reclaimed := wrSeq w.wrId + 1 } := by
  obtain ⟨s₁, qps, locked, noted⟩ := alone_noteFailure (t := t) (w := w) (c := c) (s := s)
  have there₁ : ((s₁.setConn c fun conn => { conn with locked := true }).conns c).qps[wrQpIndex
      w.wrId]? = some q := by
    simp [World.setConn, qps, there]
  have form (evs s') : Alone t (handle w) s evs s' ↔ ∃ completedAt, Alone t (do
      let evs ← retireLoop c (wrQpIndex w.wrId) w completedAt q.unsignalled.length
      reclaim c (wrQpIndex w.wrId) (wrSeq w.wrId)
      pure evs) (s₁.setConn c fun conn => { conn with locked := true }) evs s' := by
    rw [handle, if_neg data, if_neg (not_not.mpr sent), findConn, alone_exchange]
    simp only [found]
    rw [noted, alone_lockQp (locked.trans free), qps]
    simp only [there]
    rw [alone_clock]
  have ends (completedAt : CcTime) := alone_retireLoop (t := t) (w := w)
    completedAt there₁
  constructor
  · obtain ⟨s₂, -, retires⟩ := ends 0
    exact ⟨_, _, (form _ _).mpr ⟨0, retires.mpr (alone_update.mpr (.ret _ _))⟩⟩
  · intro evs s' run
    obtain ⟨completedAt, run⟩ := (form evs s').mp run
    obtain ⟨s₂, there₂, retires⟩ := ends completedAt
    rw [retires, reclaim, alone_update] at run
    obtain ⟨rfl, rfl⟩ := alone_ret.mp run
    refine ⟨rfl, ?_⟩
    simp [World.unlock, World.setConn, World.setQp, there₂]

end

theorem QueuePair.Numbered.sorted {q : QueuePair} (numbered : q.Numbered) :
    q.unsignalled.Pairwise (·.1 < ·.1) := by
  have sorted : (q.unsignalled.map (·.1)).Pairwise (· < ·) :=
    numbered.seqs ▸ List.pairwise_lt_range'
  exact List.pairwise_map.mp sorted

/-- What the ids are for: a completion of a transfer is told from the others, its queue pair
is found, and what was posted on it up to that work request is retired. -/
def Traced {F : Type} [CcReal F] (t : Tid) (s : World F) (c : ConnId) (i seq : Nat) (q : QueuePair)
    (w : Wc) : Prop :=
  w.wrId ≠ kVerifyWrId ∧ w.wrId &&& kRecvWrId = 0 ∧ wrQpIndex w.wrId = i ∧
    (∃ evs s', Alone t (handle w) s evs s') ∧ ∀ evs s', Alone t (handle w) s evs s' →
      evs = (q.unsignalled.filter (·.1 ≤ seq)).map (·.2.event w) ∧
      (s'.conns c).qps[i]? = some (q.retired seq)

/-- Of a connection with so many queue pairs, exactly those work requests are traced back
whose index and number have room in the id, but for the first one of queue pair 2^14. So all
are with no more than 2^14 queue pairs and 2^48 work requests on each. -/
theorem work_requests_traced_iff {F : Type} [CcReal F] (t : Tid) (s : World F) (c : ConnId)
    (qpPerConn : Nat) (width : (s.conns c).qps.length = qpCount qpPerConn)
    (free : (s.conns c).locked = false) (i : Nat) (q : QueuePair)
    (there : (s.conns c).qps[i]? = some q) (numbered : q.Numbered) (seq : Nat)
    (flying : q.reclaimed ≤ seq ∧ seq < q.posted) (w : Wc) (id : w.wrId = makeWrId i seq)
    (found : s.connByQp.lookup w.qpNum = some c) :
    (Traced t s c i seq q w ↔ i < 2 ^ 15 ∧ seq < 2 ^ 48 ∧ ¬(i = 2 ^ 14 ∧ seq = 0)) ∧
    (qpPerConn ≤ 2 ^ 14 → q.posted ≤ 2 ^ 48 → Traced t s c i seq q w) := by
  have data : w.wrId = kVerifyWrId ↔ i % 2 ^ 16 = 2 ^ 14 ∧ seq % 2 ^ 48 = 0 :=
    id ▸ makeWrId_eq_kVerifyWrId
  have sent : w.wrId &&& kRecvWrId = 0 ↔ i % 2 ^ 16 < 2 ^ 15 := id ▸ makeWrId_and_kRecvWrId
  have index : wrQpIndex w.wrId = i % 2 ^ 15 := id ▸ wrQpIndex_makeWrId i seq
  have number : wrSeq w.wrId = seq % 2 ^ 48 := id ▸ wrSeq_makeWrId i seq
  have main : Traced t s c i seq q w ↔ i < 2 ^ 15 ∧ seq < 2 ^ 48 ∧ ¬(i = 2 ^ 14 ∧ seq = 0) := by
    constructor
    · rintro ⟨unverified, unreceived, own, ⟨evs, s', run⟩, ends⟩
      obtain ⟨-, ends'⟩ := alone_handle unverified unreceived found free (own ▸ there)
      have after := (ends' evs s' run).2
      rw [own, (ends evs s' run).2, Option.some.injEq] at after
      have reclaimed : seq + 1 = wrSeq w.wrId + 1 := congrArg QueuePair.reclaimed after
      have unlike := mt data.mpr unverified
      omega
    · rintro ⟨narrow, short, later⟩
      have own : wrQpIndex w.wrId = i := by omega
      have same : wrSeq w.wrId = seq := by omega
      have unverified : w.wrId ≠ kVerifyWrId := mt data.mp (by omega)
      have unreceived := sent.mpr (by omega)
      obtain ⟨returns, ends⟩ := alone_handle (t := t) unverified unreceived found free (own ▸ there)
      refine ⟨unverified, unreceived, own, returns, fun evs s' run => ?_⟩
      obtain ⟨rfl, after⟩ := ends evs s' run
      obtain ⟨retired, left⟩ := takeWhile_le_eq_filter (n := seq) numbered.sorted
      rw [same, own, left] at after
      rw [same, retired]
      exact ⟨rfl, after⟩
  refine ⟨main, fun few short => main.mpr ?_⟩
  have inside := (List.getElem?_eq_some_iff.mp there).1
  rw [width, qpCount] at inside
  split at inside <;> omega

namespace Bench

def two : QueuePair where
  num := 1
  posted := 2
  unsignalled := [(0, inflightKey (write 7 4) 0), (1, inflightKey (write 8 6) 0)]

/-- A connection with queue pairs that nothing was posted on, and these. -/
def among (idle : Nat) (qs : List QueuePair) : World ℚ :=
  (world makeCcOff).setConn 0 fun conn =>
    { conn with qps := List.replicate idle { num := 3 } ++ qs }

theorem qps_among (idle : Nat) (q : QueuePair) :
    ((among idle [q]).conns 0).qps.length = idle + 1 ∧
      ((among idle [q]).conns 0).qps[idle]? = some q := by
  simp [among, World.setConn]

end Bench

/-- The second of two writes completes. -/
theorem work_requests_traced_iff_second :
    Traced 0 (Bench.among 0 [Bench.two]) 0 0 1 Bench.two
      ⟨makeWrId 0 1, 1, .success, .rdmaWrite, 0⟩ :=
  (work_requests_traced_iff 0 (Bench.among 0 [Bench.two]) 0 1 rfl rfl 0 Bench.two rfl
    ⟨rfl, by decide⟩ 1 (by decide) _ rfl rfl).1.mpr (by decide)

/-- With 2^14 + 1 queue pairs, the first work request of the last one has the id that paths
are verified with: its completion is noted as such, and nothing is retired. -/
theorem first_request_taken_for_verification :
    let s := Bench.among (2 ^ 14) [Bench.two]
    (s.conns 0).qps.length = qpCount (2 ^ 14 + 1) ∧ (s.conns 0).qps[2 ^ 14]? = some Bench.two ∧
      Bench.two.Numbered ∧ makeWrId (2 ^ 14) 0 = kVerifyWrId ∧
      ∃ s', Alone 0 (handle ⟨makeWrId (2 ^ 14) 0, 1, .success, .rdmaWrite, 0⟩) s [] s' ∧
        (s'.conns 0).qps = (s.conns 0).qps ∧ s'.verifyDone = [(1, .success)] := by
  have verify : makeWrId (2 ^ 14) 0 = kVerifyWrId := by decide
  obtain ⟨length, there⟩ := Bench.qps_among (2 ^ 14) Bench.two
  refine ⟨length, there, ⟨rfl, by decide⟩, verify, ?_⟩
  rw [handle, if_pos verify]
  exact ⟨_, alone_update.mpr (.ret _ _), rfl, rfl⟩

end Hux.Rdma
