import Hux.Accounting

/-!
# Runs of the provider

* `queue_pairs_account`: without a path's verification, queue pairs are accounted for
  and every accepted operation is reported once;
* `verification_undisturbing`: with one, this is still so and with the right status, as
  long as completions are drawn in order (`Orderly`).
-/

namespace Hux.Rdma
open Interleave (Tid Pool Run Onward)

/-- What a line reports of an operation. -/
def Line.reports (c i seq : Nat) : Line → Bool
  | .reported _ c' i' n _ => (c', i', n) = (c, i, seq)
  | _ => false

variable {c i seq : Nat}

theorem Line.reports_iff {line : Line} :
    line.reports c i seq = true ↔ ∃ t ev, line = .reported t c i seq ev := by
  cases line with
  | reported t c' i' n ev =>
    constructor
    · intro h
      obtain ⟨rfl, rfl, rfl⟩ : c' = c ∧ i' = i ∧ n = seq := by simpa [Line.reports] using h
      exact ⟨t, ev, rfl⟩
    · rintro ⟨_, _, ⟨⟩⟩
      simp [Line.reports]
  | _ => simp [Line.reports]

/-- The lines that report one operation, counted among the numbers reported. -/
theorem Core.count_reported (k : Core) (c i seq : Nat) :
    (k.log.filter (Line.reports c i seq)).length = ((k.reported c i).map (·.1)).count seq := by
  unfold Core.reported Core.lines
  induction k.log with
  | nil => rfl
  | cons line rest ih =>
    by_cases place : line.place = (c, i)
    · cases line with
      | reported t c' i' n ev =>
        cases place
        by_cases num : n = seq
        · simp [Line.reports, Line.place, Line.told, ih, num]
        · simp [Line.reports, Line.place, Line.told, ih, num]
      | accepted | refused =>
        rw [List.filter_cons_of_neg (by simp [Line.reports]),
          List.filter_cons_of_pos (by simpa using place), List.filterMap_cons_none rfl]
        exact ih
    · have other : line.reports c i seq = false := by
        by_contra own
        obtain ⟨t, ev, rfl⟩ := Line.reports_iff.mp (by simpa using own)
        exact place rfl
      simp [other, place, ih]

variable {k : Core}

theorem Core.mem_accepted {op : SubOp} {postedAt : CcTime}
    (line : .accepted c i seq op postedAt ∈ k.log) :
    (seq, inflightKey op postedAt) ∈ k.accepted c i := by
  refine List.mem_filterMap.mpr ⟨_, List.mem_filter.mpr ⟨line, ?_⟩, rfl⟩
  simp [Line.place]

theorem Core.mem_reported {t : Tid} {ev : CompletionEvent} (line : .reported t c i seq ev ∈ k.log) :
    (seq, ev) ∈ k.reported c i := by
  refine List.mem_filterMap.mpr ⟨_, List.mem_filter.mpr ⟨line, ?_⟩, rfl⟩
  simp [Line.place]

/-- And back. -/
theorem Core.of_mem_accepted {key : InflightKey} (member : (seq, key) ∈ k.accepted c i) :
    ∃ op postedAt, .accepted c i seq op postedAt ∈ k.log ∧ key = inflightKey op postedAt := by
  obtain ⟨line, inLines, listed⟩ := List.mem_filterMap.mp member
  obtain ⟨there, place⟩ := List.mem_filter.mp inLines
  clear member inLines
  cases line with
  | accepted c' i' n op postedAt =>
    obtain ⟨rfl, rfl⟩ : c' = c ∧ i' = i := by simpa [Line.place] using place
    cases listed
    exact ⟨op, postedAt, there, rfl⟩
  | refused | reported => cases listed

theorem Core.of_mem_reported {ev : CompletionEvent} (member : (seq, ev) ∈ k.reported c i) :
    ∃ t, .reported t c i seq ev ∈ k.log := by
  obtain ⟨line, inLines, told⟩ := List.mem_filterMap.mp member
  obtain ⟨there, place⟩ := List.mem_filter.mp inLines
  clear member inLines
  cases line with
  | reported t c' i' n ev =>
    obtain ⟨rfl, rfl⟩ : c' = c ∧ i' = i := by simpa [Line.place] using place
    cases told
    exact ⟨t, there⟩
  | refused | accepted => cases told

section
variable {cfg : RdmaConfig} {k : Core} {c i : Nat} {q : QueuePair} {pending planned told low : Nat}

/-- What is listed are the numbers of the window. -/
theorem Account.window (account : Account cfg k c i q pending planned told low) :
    q.unsignalled.map (·.1) = List.range' low (q.posted - low) := by
  rw [account.listed, List.map_drop, account.numbered, List.range_eq_range', List.drop_range']
  simp

theorem Account.reported_once (account : Account cfg k c i q pending planned told low) (seq : Nat) :
    (k.log.filter (Line.reports c i seq)).length = if seq < told then 1 else 0 := by
  rw [Core.count_reported, account.reported]
  split
  · rename_i below
    exact List.count_eq_one_of_mem List.nodup_range (List.mem_range.mpr below)
  · rename_i above
    exact List.count_eq_zero.mpr (by simpa using above)

/-- Each number is accepted once. -/
theorem Account.key_eq (account : Account cfg k c i q pending planned told low) {seq : Nat}
    {key key' : InflightKey} (listed : (seq, key) ∈ k.accepted c i)
    (listed' : (seq, key') ∈ k.accepted c i) : key = key' := by
  obtain ⟨n, there⟩ := List.getElem?_of_mem listed
  obtain ⟨n', there'⟩ := List.getElem?_of_mem listed'
  obtain rfl : seq = n := account.seq_eq there
  obtain rfl : seq = n' := account.seq_eq there'
  cases there.symm.trans there'
  rfl

end

/-! ## Without verification -/

/-- Fewer than 2^48 work requests have been posted on each queue pair. -/
def Short {F : Type} (d : Dialled) (_ s' : World F) : Prop :=
  ∀ c < d.nums.length, ∀ q ∈ (s'.conns c).qps, q.posted < 2 ^ 48

instance {F : Type} (d : Dialled) (s s' : World F) : Decidable (Short d s s') := by
  unfold Short
  infer_instance

theorem Short.core {F : Type} {d : Dialled} {s s' : World F} {M : Multiset Res}
    (short : Short d s s') (sections : Sections d s'.core M) : s'.core.Short := by
  intro c q hq
  obtain ⟨i, there⟩ := List.getElem?_of_mem hq
  exact short c (sections.inside there) q hq

/-- What is kept where no path is verified. -/
def Unverified (cfg : RdmaConfig) (k : Core) (M : Multiset Res) : Prop :=
  Accounts cfg k M ∧ k.verifying ++ k.stashed = []

theorem Core.orderly_of_nil {k' : Core} (none_ : k.verifying ++ k.stashed = []) : k.Orderly k' := by
  obtain ⟨verifying, stashed⟩ := List.append_eq_nil_iff.mp none_
  intro w _ _
  simp [verifying, stashed]

/-- What a handled completion is of, or is past, has been reported. -/
theorem Accounts.below {cfg : RdmaConfig} {M : Multiset Res} {pending planned told low : Nat}
    {q : QueuePair} {w : Wc} (accounts : Accounts cfg k M) (none_ : k.verifying ++ k.stashed = [])
    (there : (k.qps c)[i]? = some q) (account : Account cfg k c i q pending planned told low)
    (arrived : w ∈ k.arrived) (transfer : w.transfer = true) (own : w.qpNum = q.num)
    (ge : seq ≤ wrSeq w.wrId) (handled : w ∉ k.polling) : seq < told := by
  obtain ⟨verifying, stashed⟩ := List.append_eq_nil_iff.mp none_
  obtain ⟨done, reclaimed, came⟩ := accounts.flow.order c i q there
  have fresh := accounts.flow.fresh c i q there
  rw [came] at fresh
  have member : w ∈ k.came q.num :=
    mem_ofQp.mpr ⟨List.mem_filter.mpr ⟨arrived, transfer⟩, own⟩
  rw [came, Core.waiting, verifying, stashed] at member
  rcases List.mem_append.mp member with before | still
  · have lt := fresh.lt_nextSeq before
    have le := account.reclaimed_le
    omega
  · exact absurd (mem_ofQp.mp (by simpa [ofQp] using still)).1 handled

/-- In every run without path verification, of any calls and any work requests and
completions: on each queue pair of at most 2^14 of a connection with fewer than 2^48
posts, the numbers listed run from `reclaimed` (from somewhat later while a poll with
the lock is retiring) to what is posted, at most the depth of the send queue; every
accepted operation is reported at most once, and exactly once and by its own request,
number and length when a completion at or after it has been handled, as all have been
when no poll is in progress; and what a poll returns is what it reports. -/
theorem queue_pairs_account {F : Type} [CcReal F] (cfg : RdmaConfig) (d : Dialled)
    (narrow : ∀ c, d.width c ≤ 2 ^ 14) (recv : ConnId → Option RecvBuffer) (receives : Nat → Nat)
    (regions : List (Nat × Mr)) (nextKey : Nat) (cc : CongestionController F)
    {p : Pool Call (World F) Answer Reply}
    (run : Run (body cfg) (Short d) (World.start d recv receives regions nextKey cc) p)
    (unverified : ∀ th ∈ p.threads, ∀ c timeoutMs rounds,
      th.call ≠ .verifyPath c timeoutMs rounds) :
    (∀ c i q, (p.shared.conns c).qps[i]? = some q →
      (∃ low, q.reclaimed ≤ low ∧ low ≤ q.posted ∧
        ((p.shared.conns c).locked = false → low = q.reclaimed) ∧
        q.unsignalled.map (·.1) = List.range' low (q.posted - low)) ∧
      q.posted ≤ q.reclaimed + cfg.sqDepth ∧
      ∀ seq op postedAt, .accepted c i seq op postedAt ∈ p.shared.log →
        (p.shared.log.filter (Line.reports c i seq)).length ≤ 1 ∧
        ∀ w ∈ p.shared.arrived, w.transfer = true → w.qpNum = q.num → seq ≤ wrSeq w.wrId →
          w ∉ p.shared.polling →
          ∃ t ev, p.shared.log.filter (Line.reports c i seq) = [.reported t c i seq ev] ∧
            ev.request = op.request ∧ ev.subId = op.subId ∧ ev.bytes = op.length) ∧
    (p.shared.progressing = false → p.shared.polling = []) ∧
    ∀ t maxEvents r, p.returned t = some (.poll maxEvents, r) →
      ∃ polled, r = .polled polled (toldBy t p.shared) := by
  have kind : ∀ th ∈ p.threads, th.call.role ≠ .verifies := by
    intro th hth role
    cases call : th.call with
    | verifyPath c timeoutMs rounds => exact unverified th hth _ _ _ call
    | _ => rw [call] at role; cases role
  obtain ⟨held, -, sections, accounts, none_⟩ := run_keeps (Unverified cfg)
    (fun call => call.role ≠ .verifies)
    ⟨.start cfg d recv receives regions nextKey cc, rfl⟩
    (fun transfers move short sections before =>
      ⟨before.1.move sections narrow (short.core (.move move sections))
        (Core.orderly_of_nil before.2) move, move.unverified transfers before.2⟩) run kind
  refine ⟨fun c i q there => ?_, accounts.flow.idle, fun t _ _ done => polled_eq run done⟩
  obtain ⟨x, atWork, rest⟩ := accounts.atWork sections c
  obtain ⟨told, low, account, retires⟩ := atWork.account i q there
  refine ⟨⟨low, account.reclaimed_le.trans account.told_le, account.low_le, fun free => ?_,
    account.window⟩, (Nat.le_add_right _ _).trans account.room, fun seq op postedAt line => ?_⟩
  · rw [rest free] at retires
    exact retires.2
  · have once : (p.shared.log.filter (Line.reports c i seq)).length = _ := account.reported_once seq
    refine ⟨by rw [once]; split <;> omega, fun w arrived transfer own ge handled => ?_⟩
    rw [if_pos (accounts.below none_ there account arrived transfer own ge handled)] at once
    obtain ⟨line', one⟩ := List.length_eq_one_iff.mp once
    have member : line' ∈ p.shared.log.filter (Line.reports c i seq) := by simp [one]
    obtain ⟨logged, reports⟩ := List.mem_filter.mp member
    obtain ⟨t, ev, rfl⟩ := Line.reports_iff.mp reports
    obtain ⟨key, w', listed, -, event⟩ :=
      accounts.told c i q there _ (Core.mem_reported logged)
    obtain rfl := account.key_eq (Core.mem_accepted line) listed
    refine ⟨t, ev, one, ?_⟩
    rw [show ev = _ from event]
    exact ⟨rfl, rfl, rfl⟩

theorem Bench.narrow (c : ConnId) : Bench.dialled.width c ≤ 2 ^ 14 := by
  rcases c with _ | _ | c
  · decide
  · decide
  · simp [Dialled.width, Bench.dialled]

/-- Three writes, of which the last one is signalled; its completion is polled. -/
theorem queue_pairs_account_polled :
    ∃ p, Run (body Bench.sparing) (Short Bench.dialled) (Bench.world makeCcOff) p ∧ p.Quiet ∧
      ∃ q, (p.shared.conns 0).qps = [q] ∧ q.reclaimed = 3 ∧ q.unsignalled.map (·.1) = [] ∧
        ∃ t ev, p.shared.log.filter (Line.reports 0 0 1) = [.reported t 0 0 1 ev] ∧
          ev.request = 1 ∧ ev.subId = 8 ∧ ev.bytes = 6 := by
  obtain ⟨p, run, quiet, counted, roles, free, accepted, arrived, polling⟩ := Run.of_enact
    (body Bench.sparing) (Short Bench.dialled) (Bench.world makeCcOff)
    [([.time 0, .code 0],
        [.spawn (.submit (some 0) [Bench.write 7 4, Bench.write 8 6, Bench.write 9 1]), .run 0 31]),
      ([.time 5, .drawn [.sent 1 2 .success]], [.spawn (.poll 8), .run 1 17])]
    (fun p => p.Quiet ∧
      ((p.shared.conns 0).qps.map fun q => (q.num, q.posted, q.reclaimed)) = [(1, 3, 3)] ∧
      p.threads.map (·.call.role) = [.transfers, .transfers] ∧
      (p.shared.conns 0).locked = false ∧
      .accepted 0 0 1 (Bench.write 8 6) 0 ∈ p.shared.log ∧
      ⟨makeWrId 0 2, 1, .success, .rdmaWrite, 0⟩ ∈ p.shared.arrived ∧ p.shared.polling = [])
    (by decide +kernel)
  obtain ⟨q, one, fields⟩ := List.map_eq_singleton_iff.mp counted
  simp only [Prod.mk.injEq] at fields
  obtain ⟨num, posted, reclaimed⟩ := fields
  have unverified : ∀ th ∈ p.threads, ∀ c timeoutMs rounds,
      th.call ≠ .verifyPath c timeoutMs rounds := by
    intro th hth c timeoutMs rounds is
    have member : th.call.role ∈ _ := roles ▸ List.mem_map_of_mem hth
    simp [is, Call.role] at member
  obtain ⟨⟨low, -, -, rest, window⟩, -, once⟩ :=
    (queue_pairs_account Bench.sparing Bench.dialled Bench.narrow _ _ _ _ makeCcOff run
      unverified).1 0 0 q (by rw [one]; rfl)
  refine ⟨p, run, quiet, q, one, reclaimed, ?_, ?_⟩
  · rw [window, rest free, reclaimed, posted]
    rfl
  · refine (once 1 (Bench.write 8 6) 0 accepted).2 _ arrived rfl num.symm (by decide) ?_
    rw [polling]
    exact List.not_mem_nil

/-! ## With verification -/

/-- No completion of a transfer is drawn while a path's verification has one of the same
queue pair, drawn and not set aside; nor, unless by a path's verification, while one is
set aside. -/
def Orderly {F : Type} (s s' : World F) : Prop :=
  ∀ w ∈ s'.arrived.drop s.arrived.length, w.transfer = true →
    (∀ v ∈ s.verifying, v.qpNum ≠ w.qpNum) ∧
      (s'.verifying = s.verifying → ∀ v ∈ s.stashed, v.qpNum ≠ w.qpNum)

instance {F : Type} (s s' : World F) : Decidable (Orderly s s') := by
  unfold Orderly
  infer_instance

theorem came_core {F : Type} (s : World F) (num : Nat) :
    (s.arrived.filter fun w => w.transfer && w.qpNum = num) = s.core.came num := by
  rw [Core.came, ofQp, List.filter_filter]
  exact List.filter_congr fun w _ => Bool.and_comm ..

/-- In every run whose completions are drawn in order, of any calls, among them any
number of path verifications: `reclaimed` goes down on no queue pair, and what is
reported of an operation is the status of the earliest completion of its queue pair
whose number is at least its own. -/
theorem verification_undisturbing {F : Type} [CcReal F] (cfg : RdmaConfig) (d : Dialled)
    (narrow : ∀ c, d.width c ≤ 2 ^ 14) (recv : ConnId → Option RecvBuffer) (receives : Nat → Nat)
    (regions : List (Nat × Mr)) (nextKey : Nat) (cc : CongestionController F)
    {p p' : Pool Call (World F) Answer Reply}
    (run : Run (body cfg) (fun s s' => Short d s s' ∧ Orderly s s')
      (World.start d recv receives regions nextKey cc) p)
    (on : Onward (body cfg) (fun s s' => Short d s s' ∧ Orderly s s') p p') :
    (∀ c (i : Nat) q q', (p.shared.conns c).qps[i]? = some q →
      (p'.shared.conns c).qps[i]? = some q' → q.reclaimed ≤ q'.reclaimed) ∧
    ∀ t c i seq ev, .reported t c i seq ev ∈ p'.shared.log →
      ∃ q op postedAt w, (p'.shared.conns c).qps[i]? = some q ∧
        .accepted c i seq op postedAt ∈ p'.shared.log ∧
        (p'.shared.arrived.filter fun v => v.transfer && v.qpNum = q.num).find?
          (fun v => seq ≤ wrSeq v.wrId) = some w ∧
        ev = (inflightKey op postedAt).event w := by
  have reach {p : Pool Call (World F) Answer Reply}
      (run : Run (body cfg) (fun s s' => Short d s s' ∧ Orderly s s')
        (World.start d recv receives regions nextKey cc) p) :
      ∃ held, Held cfg p held ∧ Sections d p.shared.core held.sum ∧
        Accounts cfg p.shared.core held.sum :=
    run_keeps (Accounts cfg) (fun _ => True) (.start cfg d recv receives regions nextKey cc)
      (fun _ move ok sections before =>
        before.move sections narrow (ok.1.core (.move move sections)) ok.2 move) run
      fun _ _ => trivial
  constructor
  · induction on with
    | refl =>
      intro c i q q' there there'
      cases there.symm.trans there'
      exact Nat.le_refl _
    | @tail p₁ p₂ before step ih =>
      obtain ⟨⟨a, hs⟩, -⟩ := step
      intro c i q q' there there'
      cases a with
      | spawn call =>
        cases hs
        exact ih c i q q' there there'
      | run t e =>
        obtain ⟨held, each, sections, accounts⟩ := reach (run.further before)
        obtain ⟨role, F₁, M, M', sum, move⟩ := each.step hs
        rw [sum] at sections accounts
        obtain ⟨q₁, there₁, -⟩ := move.qp_before there'
        exact (ih c i q q₁ there there₁).trans (accounts.reclaimed_le sections move there₁ there')
  · intro t c i seq ev line
    obtain ⟨held, -, sections, accounts⟩ := reach (run.further on)
    obtain ⟨q, there⟩ := accounts.placed _ line
    obtain ⟨key, w, listed, first, event⟩ := accounts.told c i q there _ (Core.mem_reported line)
    obtain ⟨op, postedAt, accepted, rfl⟩ := Core.of_mem_accepted listed
    exact ⟨q, op, postedAt, w, there, accepted, came_core p'.shared q.num ▸ first, event⟩

/-- A write's completion is drawn by a path's verification and set aside, and a poll
that comes later reports the write. -/
theorem verification_undisturbing_set_aside :
    ∃ p p', Run (body Bench.eager) (fun s s' => Short Bench.dialled s s' ∧ Orderly s s')
        (Bench.world makeCcOff) p ∧
      Onward (body Bench.eager) (fun s s' => Short Bench.dialled s s' ∧ Orderly s s') p p' ∧
      p.shared.stashed = [⟨makeWrId 0 0, 1, .success, .rdmaWrite, 0⟩] ∧
      ∃ t ev q op postedAt w, .reported t 0 0 0 ev ∈ p'.shared.log ∧
        (p'.shared.conns 0).qps[0]? = some q ∧ .accepted 0 0 0 op postedAt ∈ p'.shared.log ∧
        (p'.shared.arrived.filter fun v => v.transfer && v.qpNum = q.num).find?
          (fun v => 0 ≤ wrSeq v.wrId) = some w ∧ ev = (inflightKey op postedAt).event w := by
  obtain ⟨p, p', run, on, stashed, line, logged, reports⟩ := Run.of_enacts (body Bench.eager)
    (fun s s' => Short Bench.dialled s s' ∧ Orderly s s') (Bench.world makeCcOff)
    [([.time 0, .code 0], [.spawn (.submit (some 0) [Bench.write 7 4]), .run 0 13]),
      ([.time 0, .code 0, .drawn [.sent 1 0 .success]], [.spawn (.verifyPath 1 1000 4), .run 1 7])]
    [([.time 5, .drawn []], [.spawn (.poll 8), .run 2 11])]
    (fun p p' => p.shared.stashed = [⟨makeWrId 0 0, 1, .success, .rdmaWrite, 0⟩] ∧
      ∃ line ∈ p'.shared.log, line.reports 0 0 0 = true) (by decide +kernel)
  obtain ⟨t, ev, rfl⟩ := Line.reports_iff.mp reports
  obtain ⟨q, op, postedAt, w, shown⟩ :=
    (verification_undisturbing Bench.eager Bench.dialled Bench.narrow _ _ _ _ makeCcOff run on).2
      t 0 0 0 ev logged
  exact ⟨p, p', run, on, stashed, t, ev, q, op, postedAt, w, logged, shown⟩

/-- A thread in `verify_path` has drawn the completion of the first of two writes when a
poll draws that of the second, which failed: the first is reported with the status of the
second although it succeeded, and when the first is set aside and polled, `reclaimed`
goes from 2 back to 1. -/
theorem verification_disturbs :
    ∃ p p', Run (body Bench.eager) (Short Bench.dialled) (Bench.world makeCcOff) p ∧
      Onward (body Bench.eager) (Short Bench.dialled) p p' ∧
      (p.shared.conns 0).qps.map (·.reclaimed) = [2] ∧
      (p'.shared.conns 0).qps.map (·.reclaimed) = [1] ∧
      p'.shared.arrived.filter (·.qpNum = 1) =
        [⟨makeWrId 0 0, 1, .success, .rdmaWrite, 0⟩,
          ⟨makeWrId 0 1, 1, .retryExcErr, .rdmaWrite, 0⟩] ∧
      ∃ t ev, .reported t 0 0 0 ev ∈ p'.shared.log ∧ ev.status = .peerDisconnected := by
  obtain ⟨p, p', run, on, shown⟩ := Run.of_enacts (body Bench.eager)
    (Short Bench.dialled) (Bench.world makeCcOff)
    [([.time 0, .code 0],
        [.spawn (.submit (some 0) [Bench.write 7 4, Bench.write 8 6]), .run 0 22]),
      ([.time 0, .code 0, .drawn [.sent 1 0 .success]], [.spawn (.verifyPath 1 1000 4), .run 1 6]),
      ([.time 5, .drawn [.sent 1 0 .retryExcErr]], [.spawn (.poll 8), .run 2 15])]
    [([.time 5, .drawn []], [.run 1 1, .spawn (.poll 8), .run 3 8])]
    (fun p p' => (p.shared.conns 0).qps.map (·.reclaimed) = [2] ∧
      (p'.shared.conns 0).qps.map (·.reclaimed) = [1] ∧
      p'.shared.arrived.filter (·.qpNum = 1) =
        [⟨makeWrId 0 0, 1, .success, .rdmaWrite, 0⟩,
          ⟨makeWrId 0 1, 1, .retryExcErr, .rdmaWrite, 0⟩] ∧
      ∃ line ∈ p'.shared.log, line.reports 0 0 0 = true ∧
        ∀ y ∈ line.told, y.2.status = .peerDisconnected) (by decide +kernel)
  obtain ⟨before, after, arrived, line, logged, reports, status⟩ := shown
  obtain ⟨t, ev, rfl⟩ := Line.reports_iff.mp reports
  exact ⟨p, p', run, on,
    before, after, arrived, t, ev, logged, status _ rfl⟩

end Hux.Rdma
