import Mathlib.Algebra.BigOperators.Group.Finset.Basic
import Mathlib.Tactic.Abel
import Hux.Sections

/-!
# The congestion budget

The bytes a controller counts in flight are those of the operations in some
queue pair's list and those a thread has claimed for an operation that is in no
list: between planning and posting, and between retiring and reporting.
-/

namespace Hux.Rdma
open Interleave (Tid Pool Run Framed weigh weigh_add weigh_singleton map_weigh)

/-- The controllers a provider is made with. -/
inductive Made {F : Type} [CcReal F] : CongestionController F → Prop
  | off : Made makeCcOff
  | fixedWindow (window : Nat) : Made (makeCcFixedWindow window)
  | timely (p : TimelyParams F) (now now' : CcTime) : Made (makeCcTimely p now now')

variable {F : Type}

theorem Made.inflightBytes [CcReal F] {cc : CongestionController F} (made : Made cc)
    (d : CcDirection) : cc.inflightBytes d = 0 := by
  cases made <;> cases d <;> rfl

/-! ## What the lists hold -/

/-- A measure of the operations in a queue pair's list, summed up. -/
def QueuePair.total {A : Type} [AddCommMonoid A] (μ : InflightKey → A) (q : QueuePair) : A :=
  (q.unsignalled.map fun x => μ x.2).sum

/-- And over the first `n` connections. -/
def listed {A : Type} [AddCommMonoid A] (μ : InflightKey → A) (n : Nat)
    (qps : ConnId → List QueuePair) : A :=
  ∑ c ∈ Finset.range n, ((qps c).map (QueuePair.total μ)).sum

section
variable {A : Type} [AddCancelCommMonoid A]

theorem sum_map_modify {α : Type} (g : α → A) {l : List α} {i : Nat} {a : α} (f : α → α)
    (there : l[i]? = some a) : ((l.modify i f).map g).sum + g a = (l.map g).sum + g (f a) := by
  induction l generalizing i with
  | nil => cases there
  | cons b rest ih =>
    cases i with
    | zero =>
      cases there
      simp only [List.modify_zero_cons, List.map_cons, List.sum_cons]
      abel
    | succ i =>
      have rest := ih there
      simp only [List.modify_succ_cons, List.map_cons, List.sum_cons, add_assoc, rest]

variable (μ : InflightKey → A) {k : Core} {c n i : Nat}

/-- A change to one queue pair. -/
theorem listed_setQp {q : QueuePair} (inside : c < n) (there : (k.qps c)[i]? = some q)
    (f : QueuePair → QueuePair) :
    listed μ n (k.setQp c i f).qps + q.total μ = listed μ n k.qps + (f q).total μ := by
  have member : c ∈ Finset.range n := Finset.mem_range.mpr inside
  have changed := sum_map_modify (QueuePair.total μ) f there
  have rest : ∀ c' ∈ (Finset.range n).erase c,
      (((k.setQp c i f).qps c').map (QueuePair.total μ)).sum =
        ((k.qps c').map (QueuePair.total μ)).sum := by
    intro c' hc
    rw [Core.qps_setQp_of_ne (Finset.ne_of_mem_erase hc)]
  unfold listed
  rw [← Finset.add_sum_erase _ _ member, ← Finset.add_sum_erase _ _ member,
    Finset.sum_congr rfl rest, Core.qps_setQp_self, add_right_comm, changed, add_right_comm]

theorem listed_setQp_same {f : QueuePair → QueuePair} (same : ∀ q, (f q).total μ = q.total μ) :
    listed μ n (k.setQp c i f).qps = listed μ n k.qps := by
  refine Finset.sum_congr rfl fun c' _ => ?_
  by_cases own : c' = c
  · subst own
    rw [Core.qps_setQp_self]
    cases there : (k.qps c')[i]? with
    | none => rw [List.modify_eq_self (List.getElem?_eq_none_iff.mp there)]
    | some q =>
      have changed := sum_map_modify (QueuePair.total μ) f there
      rw [same] at changed
      exact add_right_cancel changed
  · rw [Core.qps_setQp_of_ne own]

theorem QueuePair.total_record (q : QueuePair) (seq : Nat) (p : Planned) (postedAt : CcTime) :
    (q.record seq p postedAt).total μ = q.total μ + μ (inflightKey p.op postedAt) := by
  simp [QueuePair.total, QueuePair.record]

end

theorem map_listed {A B : Type} [AddCommMonoid A] [AddCommMonoid B] (φ : A →+ B)
    (μ : InflightKey → A) (n : Nat) (qps : ConnId → List QueuePair) :
    φ (listed μ n qps) = listed (fun key => φ (μ key)) n qps := by
  simp [listed, QueuePair.total, map_list_sum, Function.comp_def]
  rfl

/-- The bytes an operation counts for, in one direction. -/
def InflightKey.counted (d : CcDirection) (key : InflightKey) : Nat :=
  if key.direction = d then key.bytes else 0

/-- The bytes of one direction in a queue pair's list. -/
def QueuePair.bytes (d : CcDirection) (q : QueuePair) : Nat :=
  (q.unsignalled.map fun x => x.2.counted d).sum

/-- And in those of the first `n` connections. -/
def unsignalledBytes (n : Nat) (qps : ConnId → List QueuePair) (d : CcDirection) : Nat :=
  ∑ c ∈ Finset.range n, ((qps c).map (QueuePair.bytes d)).sum

def World.unsignalledBytes {F : Type} (s : World F) (n : Nat) (d : CcDirection) : Nat :=
  Rdma.unsignalledBytes n (fun c => (s.conns c).qps) d

/-! ## The lengths counted -/

/-- The length of an operation, if it is one of that direction. -/
def InflightKey.lengths (d : CcDirection) (key : InflightKey) : Multiset Nat :=
  if key.direction = d then {key.bytes} else 0

def Res.lengths (d : CcDirection) : Res → Multiset Nat
  | .claim d' bytes => if d' = d then {bytes} else 0
  | _ => 0

/-- What is counted in flight is in some list, or some thread has claimed it. -/
def Counted (n : Nat) (k : Core) (M : Multiset Res) : Prop :=
  ∀ d, k.counted d = listed (InflightKey.lengths d) n k.qps + weigh (Res.lengths d) M

section
variable {cfg : RdmaConfig} {role : Role} {t : Tid} {k k' : Core} {F M M' : Multiset Res} {n : Nat}

theorem Posting.lengths {c : ConnId} {x : Res} {rest : List Planned} (posting : Posting c x rest)
    (d : CcDirection) : x.lengths d = 0 := by
  cases posting <;> rfl

/-- Moves that leave the lists, what is counted and the claims. -/
theorem Counted.same (before : Counted n k (F + M)) (qps : k'.qps = k.qps)
    (counted : k'.counted = k.counted)
    (claims : ∀ d, weigh (Res.lengths d) M' = weigh (Res.lengths d) M) :
    Counted n k' (F + M') := by
  intro d
  rw [qps, counted, weigh_add, claims, ← weigh_add, before]

theorem Counted.move {d : Dialled} (move : Move cfg role t k M k' M')
    (sections : Confined d k (F + M)) (before : Counted d.nums.length k (F + M)) :
    Counted d.nums.length k' (F + M') := by
  cases move with
  | @plan c qps plan p q spend there room =>
    intro dir
    have now := before dir
    simp only [weigh_add, weigh_singleton, Res.lengths, add_zero] at now
    simp only [Core.claim, Function.update_apply, weigh_add, weigh_singleton, Res.lengths, zero_add]
    by_cases own : dir = directionOf p.op
    · subst own
      rw [if_pos rfl, if_pos rfl, now, ← Multiset.singleton_add]
      abel
    · rw [if_neg own, if_neg (Ne.symm own), now, add_zero]
  | @record c p seq rest spend postedAt =>
    have range : ∀ p' ∈ p :: rest, p'.qpIndex < d.width c :=
      sections.inRange (.sent c p seq rest) (by simp)
    obtain ⟨q, there⟩ := sections.qp_of_lt (range p List.mem_cons_self)
    intro dir
    have now := before dir
    have changed := listed_setQp (InflightKey.lengths dir) (sections.inside there) there
      (·.record seq p postedAt)
    rw [QueuePair.total_record, ← add_assoc, add_right_comm] at changed
    have listed_ := add_right_cancel changed
    change k.counted dir = listed _ _ (k.setQp c p.qpIndex _).qps + _
    rw [now, listed_]
    simp only [weigh_add, weigh_singleton, Res.lengths, zero_add, add_zero]
    rw [add_right_comm, add_assoc, InflightKey.lengths, direction_inflightKey]
    rfl
  | giveBack spend dir bytes =>
    intro dir'
    have now := before dir'
    simp only [weigh_add, weigh_singleton, Res.lengths] at now
    simp only [Core.release, Function.update_apply, add_zero]
    by_cases own : dir' = dir
    · subst own
      rw [if_pos rfl] at now
      rw [if_pos rfl, now, ← add_assoc, ← Multiset.sub_singleton, Multiset.add_sub_cancel_right]
    · rw [if_neg (Ne.symm own), add_zero] at now
      rw [if_neg own, now]
  | @pop c w ws m seq key rest spend front below =>
    obtain ⟨q, there⟩ := Core.qp_of_front front
    intro dir
    have now := before dir
    have changed := listed_setQp (InflightKey.lengths dir) (sections.inside there) there
      (fun q => { q with unsignalled := rest })
    have split : q.total (InflightKey.lengths dir) = key.lengths dir +
        QueuePair.total (InflightKey.lengths dir) { q with unsignalled := rest } := by
      rw [Core.qp_eq there] at front
      simp [QueuePair.total, front]
    rw [split, ← add_assoc] at changed
    have listed_ := add_right_cancel changed
    change k.counted dir = _
    rw [now, ← listed_]
    simp only [weigh_add, weigh_singleton, Res.lengths, zero_add, add_zero]
    rw [add_assoc, add_comm (key.lengths dir)]
    rfl
  | @reclaim c w ws x done =>
    have none_ (dir : CcDirection) : x.lengths dir = 0 := by cases done <;> rfl
    intro dir
    have now := before dir
    have same : listed (InflightKey.lengths dir) d.nums.length
        (k.reclaim c (wrQpIndex w.wrId) (wrSeq w.wrId)).qps =
          listed (InflightKey.lengths dir) d.nums.length k.qps :=
      listed_setQp_same _ fun q => rfl
    rw [same]
    simp only [weigh_add, weigh_singleton, none_] at now ⊢
    exact now
  | send posting => exact before.same rfl rfl fun dir => by simp [posting.lengths dir]; rfl
  | refuse posting => exact before.same rfl rfl fun dir => by simp [posting.lengths dir]; rfl
  | unlock done =>
    refine before.same rfl rfl fun dir => ?_
    cases done with
    | holding => rfl
    | posting posting => simp [posting.lengths dir]
  | fetch | setAside =>
    refine before.same rfl rfl fun dir => ?_
    rw [weigh_inHand _ _ rfl]
    rfl
  | still | lock | enter | unstash | draw | lose | find | open_ | miss | skip | report | stop
  | leave | prove =>
    exact before.same rfl rfl fun dir => by simp [Res.lengths]

/-! ## The bytes counted -/

/-- What a move does to the controllers: nothing, or the bytes of an operation are
counted, or bytes that a thread claimed are given back. -/
theorem Move.counts (move : Move cfg role t k M k' M') :
    (k'.inflight = k.inflight ∧ k'.counted = k.counted ∧ k'.wraps = k.wraps ∧
      k'.clamps = k.clamps) ∨
      (∃ d bytes, k' = k.claim d bytes ∧ role = .transfers ∧ 0 < cfg.sqDepth) ∨
      ∃ d bytes, k' = k.release d bytes ∧ .claim d bytes ∈ M := by
  cases move with
  | plan spend _ room => exact .inr (.inl ⟨_, _, rfl, spend, Nat.zero_lt_of_lt room⟩)
  | giveBack spend d bytes => exact .inr (.inr ⟨d, bytes, rfl, Multiset.mem_singleton_self _⟩)
  | still | lock | record | pop | reclaim | send | refuse | unlock | fetch | setAside | enter
  | unstash | draw | lose | find | open_ | miss | skip | report | stop | leave | prove =>
    exact .inl ⟨rfl, rfl, rfl, rfl⟩

theorem Move.window (move : Move cfg role t k M k' M') : k'.window = k.window := by
  cases move <;> rfl

variable {d : CcDirection} {bytes : Nat}

theorem Counted.mem_of_claim (counted : Counted n k M) (claim : .claim d bytes ∈ M) :
    bytes ∈ k.counted d := by
  obtain ⟨M₁, rfl⟩ := Multiset.exists_cons_of_mem claim
  rw [counted d]
  simp [Res.lengths]

/-- The controllers add up what is counted. -/
structure Exact (k : Core) : Prop where
  sum : ∀ d, k.inflight d = (k.counted d).sum
  unclamped : k.clamps = 0

theorem Exact.claim (before : Exact k) (fits : k.inflight d + bytes < 2 ^ 64) :
    Exact (k.claim d bytes) := by
  refine ⟨fun dir => ?_, before.unclamped⟩
  simp only [Core.claim, Function.update_apply]
  by_cases own : dir = d
  · subst own
    rw [if_pos rfl, if_pos rfl, u64_of_lt fits, Multiset.sum_cons, before.sum, add_comm]
  · rw [if_neg own, if_neg own, before.sum]

theorem Exact.release (before : Exact k) (there : bytes ∈ k.counted d) :
    Exact (k.release d bytes) := by
  have split := Multiset.sum_erase there
  have covered : bytes ≤ k.inflight d := by
    rw [before.sum]
    omega
  refine ⟨fun dir => ?_, by simpa [Core.release, covered] using before.unclamped⟩
  simp only [Core.release, Function.update_apply]
  by_cases own : dir = d
  · subst own
    rw [if_pos rfl, if_pos rfl, released_of_le covered, before.sum]
    omega
  · rw [if_neg own, if_neg own, before.sum]

theorem Exact.move (move : Move cfg role t k M k' M') (unwrapped : k'.wraps = k.wraps)
    (counted : Counted n k (F + M)) (before : Exact k) : Exact k' := by
  rcases move.counts with ⟨inflight, same, -, clamps⟩ | ⟨d, bytes, rfl, -⟩ | ⟨d, bytes, rfl, claim⟩
  · exact ⟨fun dir => by rw [inflight, same, before.sum], clamps.trans before.unclamped⟩
  · exact before.claim (by simpa [Core.claim] using unwrapped)
  · exact before.release (counted.mem_of_claim (Multiset.mem_add.mpr (.inr claim)))

/-! ## The balance -/

def Res.claimed (d : CcDirection) : Res → Nat
  | .claim d' bytes => if d' = d then bytes else 0
  | _ => 0

structure Balanced (n : Nat) (k : Core) (M : Multiset Res) : Prop where
  bytes : ∀ d, k.inflight d = unsignalledBytes n k.qps d + weigh (Res.claimed d) M
  unclamped : k.clamps = 0

theorem Balanced.of_counted (counted : Counted n k M) (exact_ : Exact k) : Balanced n k M := by
  refine ⟨fun dir => ?_, exact_.unclamped⟩
  have key : (fun key : InflightKey => (key.lengths dir).sum) = InflightKey.counted dir := by
    funext key
    unfold InflightKey.lengths InflightKey.counted
    split <;> simp
  have claim : (fun x : Res => (x.lengths dir).sum) = Res.claimed dir := by
    funext x
    cases x with
    | claim d' bytes =>
      simp only [Res.lengths, Res.claimed]
      split <;> simp
    | _ => rfl
  have listed_ := map_listed Multiset.sumAddMonoidHom (InflightKey.lengths dir) n k.qps
  have claimed := map_weigh Multiset.sumAddMonoidHom (Res.lengths dir) M
  simp only [Multiset.coe_sumAddMonoidHom, key, claim] at listed_ claimed
  rw [exact_.sum, counted dir, Multiset.sum_add, listed_, claimed]
  rfl

/-- A call that spends nothing claims nothing. -/
theorem Move.unspent (move : Move cfg role t k M k' M') (idle : role ≠ .transfers)
    (dir : CcDirection) :
    weigh (Res.claimed dir) M' = weigh (Res.claimed dir) M := by
  have posted {c : ConnId} {x : Res} {rest : List Planned} (posting : Posting c x rest) :
      Res.claimed dir x = 0 := by cases posting <;> rfl
  cases move with
  | plan spend | record spend | giveBack spend | pop spend => exact absurd spend idle
  | send posting => simp [posted posting]; rfl
  | refuse posting => simp [posted posting]; rfl
  | unlock done =>
    cases done with
    | holding => rfl
    | posting posting => simp [posted posting]
  | reclaim done => cases done <;> rfl
  | fetch | setAside =>
    rw [weigh_inHand _ _ rfl]
    rfl
  | still | lock | enter | unstash | draw | lose | find | open_ | miss | skip | report | stop
  | leave | prove => simp [Res.claimed]

end

/-! ## Runs -/

/-- No call to `submit` or `poll` is in progress. -/
def Settled {F : Type} (p : Pool Call (World F) Answer Reply) : Prop :=
  ∀ th ∈ p.threads, th.call.role = .transfers → ∃ r, th.prog = .ret r

theorem settled_of_quiet {p : Pool Call (World F) Answer Reply} (quiet : p.Quiet) :
    Settled p := fun th hth _ => quiet th hth

/-- What a call in progress that spends nothing holds. -/
def Thrifty (call : Call) (M : Multiset Res) : Prop :=
  call.role ≠ .transfers → ∀ dir, weigh (Res.claimed dir) M = 0

theorem Thrifty.framed {cfg : RdmaConfig} {call : Call} {t : Tid} {s s' : World F}
    {M M' : Multiset Res} (before : Thrifty call M)
    (framed : Framed (moves F cfg call.role) t s M s' M') : Thrifty call M' := by
  intro idle dir
  have now := before idle dir
  obtain ⟨F₁, M₁, M₁', rfl, rfl, move⟩ := framed
  rw [weigh_add] at now ⊢
  rw [Move.unspent move idle dir]
  exact now

/-- No count of bytes in flight goes past 64 bits: where `on_post` adds to one,
what was counted before and what is added are below 2^64 together. -/
def Unwrapped {F : Type} (s s' : World F) : Prop := s'.wraps = s.wraps

instance {F : Type} (s s' : World F) : Decidable (Unwrapped s s') :=
  inferInstanceAs (Decidable (_ = _))

theorem Counted.start (d : Dialled) (recv : ConnId → Option RecvBuffer) (receives : Nat → Nat)
    (regions : List (Nat × Mr)) (nextKey : Nat) (cc : CongestionController F) :
    Counted d.nums.length (World.start d recv receives regions nextKey cc).core 0 := by
  intro dir
  have empty : listed (InflightKey.lengths dir) d.nums.length
      (World.start d recv receives regions nextKey cc).core.qps = 0 := by
    refine Finset.sum_eq_zero fun c _ => ?_
    simp [World.start, World.core, Dialled.conn, Function.comp_def, QueuePair.total]
  rw [empty]
  cases dir <;> rfl

theorem Exact.start [CcReal F] (d : Dialled) (recv : ConnId → Option RecvBuffer)
    (receives : Nat → Nat) (regions : List (Nat × Mr)) (nextKey : Nat)
    {cc : CongestionController F} (made : Made cc) :
    Exact (World.start d recv receives regions nextKey cc).core := by
  refine ⟨fun dir => ?_, rfl⟩
  have none_ : (World.start d recv receives regions nextKey cc).core.inflight dir = 0 :=
    made.inflightBytes dir
  rw [none_]
  cases dir <;> rfl

theorem budget_is_exact {F : Type} [CcReal F] (cfg : RdmaConfig) (d : Dialled)
    (recv : ConnId → Option RecvBuffer) (receives : Nat → Nat) (regions : List (Nat × Mr))
    (nextKey : Nat) (cc : CongestionController F) (made : Made cc)
    {p : Pool Call (World F) Answer Reply}
    (run : Run (body cfg) Unwrapped (World.start d recv receives regions nextKey cc) p) :
    (Settled p → ∀ dir,
        p.shared.cc.inflightBytes dir = p.shared.unsignalledBytes d.nums.length dir) ∧
      p.shared.clamps = 0 := by
  have step (call : Call) (t : Tid) (s : World F) (F₁ M : Multiset Res) (s' : World F)
      (M' : Multiset Res)
      (inv : Sections d s.core (F₁ + M) ∧ Counted d.nums.length s.core (F₁ + M) ∧ Exact s.core)
      (move : moves F cfg call.role t s M s' M') (unwrapped : Unwrapped s s') :
      Sections d s'.core (F₁ + M') ∧ Counted d.nums.length s'.core (F₁ + M') ∧ Exact s'.core :=
    ⟨.move move inv.1, .move move inv.1.toConfined inv.2.1, .move move unwrapped inv.2.1 inv.2.2⟩
  obtain ⟨held, allotted, -, counted, exact_⟩ := run.allotted
    (fun s M => Sections d s.core M ∧ Counted d.nums.length s.core M ∧ Exact s.core) Thrifty
    follows_body (fun _ _ _ => rfl) (fun _ _ _ _ _ _ framed before => before.framed framed)
    ⟨.start d recv receives regions nextKey cc, .start d recv receives regions nextKey cc,
      .start d recv receives regions nextKey made⟩ step
  have balanced : Balanced d.nums.length p.shared.core held.sum := .of_counted counted exact_
  refine ⟨fun settled dir => ?_, balanced.unclamped⟩
  -- A call in progress is one that claims nothing; the others have returned.
  have nothing : weigh (Res.claimed dir) held.sum = 0 := by
    refine allotted.weigh_eq_zero fun t th hth M follows thrifty => ?_
    by_cases spends : th.call.role = .transfers
    · obtain ⟨r, returned⟩ := settled th hth spends
      rw [returned] at follows
      have empty : M = 0 := follows
      rw [empty]
      rfl
    · exact thrifty spends dir
  have now := balanced.bytes dir
  rwa [nothing] at now

/-- Of three writes a window of ten bytes lets two through; then the first
completes. -/
theorem budget_is_exact_midway :
    ∃ p, Run (body Bench.eager) Unwrapped (Bench.world (makeCcFixedWindow 10)) p ∧
      p.Quiet ∧ p.shared.cc.inflightBytes .write = 6 ∧
      p.shared.unsignalledBytes 2 .write = 6 ∧ p.shared.clamps = 0 := by
  obtain ⟨p, run, quiet, counted⟩ := Run.of_enact (body Bench.eager)
    Unwrapped (Bench.world (makeCcFixedWindow 10))
    [([.time 0, .code 0],
        [.spawn (.submit (some 0) [Bench.write 0 4, Bench.write 1 6, Bench.write 2 1]), .run 0 26]),
      ([.time 5, .drawn [.sent 1 0 .success]], [.spawn (.poll 8), .run 1 12])]
    (fun p => p.Quiet ∧ p.shared.cc.inflightBytes .write = 6) (by decide +kernel)
  obtain ⟨exact_, unclamped⟩ := budget_is_exact Bench.eager Bench.dialled _ _ _ _ _
    (.fixedWindow 10) run
  have same := exact_ (settled_of_quiet quiet) .write
  rw [counted] at same
  exact ⟨p, run, quiet, counted, same.symm, unclamped⟩

/-- Two writes of 2^63 bytes, of which `ibv_post_send` sees the low 32 bits of the
length: together they are counted as none, and when one of them has completed the
other is still in the list, with nothing counted in flight and a clamped release. -/
theorem budget_wraps :
    ∃ p, Run (body Bench.eager) (fun _ _ => True) (Bench.world makeCcOff) p ∧ p.Quiet ∧
      p.shared.cc.inflightBytes .write = 0 ∧ p.shared.unsignalledBytes 2 .write = 2 ^ 63 ∧
      p.shared.clamps = 1 := by
  exact Run.of_enact _ _ _
    [([.time 0, .code 0],
        [.spawn (.submit (some 0) [Bench.write 0 (2 ^ 63), Bench.write 1 (2 ^ 63)]), .run 0 22]),
      ([.time 5, .drawn [.sent 1 0 .success]], [.spawn (.poll 8), .run 1 12])]
    _ (by decide +kernel)

end Hux.Rdma
