import Hux.Part
import Hux.Budget

/-!
# Destroying connections

`~RdmaConnection` takes the numbers of its queue pairs out of the provider's table and
destroys the queue pairs. What is in their lists then is in no list any more that a
completion could retire.
-/

namespace Hux.Rdma
open Interleave (Prog Tid Pool Run Moves Follows Framed Part weigh)

/-- A provider and the connections that have been destroyed. -/
structure Estate (F : Type) where
  world : World F
  gone : List ConnId

def Estate.provider (F : Type) : Part (Estate F) (World F) where
  get := Estate.world
  put w s := { s with world := w }
  get_put _ _ := rfl
  put_get _ := rfl
  put_put _ _ _ := rfl

inductive Errand
  | provider (call : Call)
  /-- The last reference to a connection goes. -/
  | destroy (c : ConnId)
  deriving DecidableEq

section
variable {F : Type}

def forgetConn (num : Nat) : Prog (Estate F) Answer Unit :=
  .atom (fun _ s _ => some ((), { s with
    world := { s.world with connByQp := s.world.connByQp.filter (·.1 ≠ num) } })) .ret

/-- For each queue pair `forget_conn` and `ibv_destroy_qp`; completions that the adapter
has for it may still be drawn. -/
def forgetLoop : List QueuePair → Prog (Estate F) Answer Unit
  | [] => pure ()
  | q :: rest => do
    forgetConn q.num
    forgetLoop rest

/-- `~RdmaConnection`. -/
def destroyConnection (c : ConnId) : Prog (Estate F) Answer Unit := do
  let qps ← (.atom (fun _ s _ => some ((s.world.conns c).qps, s)) .ret)
  forgetLoop qps
  .atom (fun _ s _ => some ((), { s with gone := c :: s.gone })) .ret

def carryOut [CcReal F] (cfg : RdmaConfig) : Errand → Prog (Estate F) Answer (Option Reply)
  | .provider call => do
    let r ← (body cfg call).on (Estate.provider F)
    pure (some r)
  | .destroy c => do
    destroyConnection c
    pure none

/-- The bytes in a connection's lists. -/
def World.outstanding (s : World F) (d : CcDirection) (c : ConnId) : Nat :=
  ((s.conns c).qps.map (QueuePair.bytes d)).sum

/-! ## Steps -/

/-- No step touches a connection that has been destroyed. -/
def LeftAlone (s s' : Estate F) : Prop :=
  ∀ c ∈ s.gone, s'.world.conns c = s.world.conns c

/-- A connection that is destroyed has no bytes in its lists. -/
def Drained (s s' : Estate F) : Prop :=
  ∀ c ∈ s'.gone, c ∉ s.gone → s.world.outstanding .write c = 0 ∧ s.world.outstanding .read c = 0

instance (s s' : Estate F) : Decidable (LeftAlone s s') :=
  inferInstanceAs (Decidable (∀ c ∈ s.gone, s'.world.conns c = s.world.conns c))

instance (s s' : Estate F) : Decidable (Drained s s') :=
  inferInstanceAs (Decidable (∀ c ∈ s'.gone, c ∉ s.gone →
    s.world.outstanding .write c = 0 ∧ s.world.outstanding .read c = 0))

/-- What a step of the destructor does. -/
inductive Destroys (s : Estate F) : Estate F → Prop
  | nothing : Destroys s s
  | forget (num : Nat) : Destroys s { s with
      world := { s.world with connByQp := s.world.connByQp.filter (·.1 ≠ num) } }
  | gone (c : ConnId) : Destroys s { s with gone := c :: s.gone }

/-- The moves of a call. -/
def errandMoves (F : Type) (cfg : RdmaConfig) : Errand → Moves (Estate F) Res
  | .provider call => Moves.on (Estate.provider F) (moves F cfg call.role)
  | .destroy _ => fun _ s M s' M' => Destroys s s' ∧ M = 0 ∧ M' = 0

theorem follows_forgetLoop {cfg : RdmaConfig} {c : ConnId} {t : Tid} (qps : List QueuePair) :
    Follows (errandMoves F cfg (.destroy c)) t (forgetLoop qps) (fun _ M => M = 0) 0 := by
  induction qps with
  | nil => exact rfl
  | cons q rest ih =>
    intro s e b s' h
    cases h
    exact ⟨0, .of ⟨.forget q.num, rfl, rfl⟩, ih⟩

theorem follows_destroyConnection {cfg : RdmaConfig} {t : Tid} (c : ConnId) :
    Follows (errandMoves F cfg (.destroy c)) t (destroyConnection c) (fun _ M => M = 0) 0 := by
  refine Follows.bind (Q := fun _ M => M = 0) (fun s e b s' h => ?_) ?_
  · cases h
    exact ⟨0, .of ⟨.nothing, rfl, rfl⟩, rfl⟩
  · rintro qps _ rfl
    refine (follows_forgetLoop qps).bind ?_
    rintro _ _ rfl s e b s' h
    cases h
    exact ⟨0, .of ⟨.gone c, rfl, rfl⟩, rfl⟩

theorem follows_carryOut [CcReal F] {cfg : RdmaConfig} (errand : Errand) (t : Tid) :
    Follows (errandMoves F cfg errand) t (carryOut cfg errand) (fun _ M => M = 0) 0 := by
  cases errand with
  | provider call =>
    refine (follows_body call t).on.bind ?_
    rintro r _ rfl
    exact rfl
  | destroy c =>
    refine (follows_destroyConnection c).bind ?_
    rintro _ _ rfl
    exact rfl

/-- The connections there are, without those destroyed. -/
def Estate.standing (n : Nat) (s : Estate F) : Finset ConnId :=
  (Finset.range n).filter (· ∉ s.gone)

/-- What every step keeps. -/
structure Kept (d : Dialled) (window : Option Nat) (s : Estate F) (M : Multiset Res) : Prop where
  confined : Confined d s.world.core M
  counted : Counted d.nums.length s.world.core M
  exact_ : Exact s.world.core
  window : s.world.cc.fixed = window
  empty : ∀ c ∈ s.gone, ∀ dir, s.world.outstanding dir c = 0

end

section
variable {F : Type} {cfg : RdmaConfig} {d : Dialled} {window : Option Nat} {s s' : Estate F}
  {G M M' : Multiset Res}

/-- The destructor leaves what the accounting is about, apart from the table. -/
theorem Kept.destroys (before : Kept d window s M) (destroys : Destroys s s')
    (drained : Drained s s') : Kept d window s' M := by
  cases destroys with
  | nothing => exact before
  | forget num =>
    exact ⟨⟨before.confined.nums, before.confined.inRange, before.confined.locks,
      before.confined.turns⟩, before.counted, ⟨before.exact_.sum, before.exact_.unclamped⟩,
      before.window, before.empty⟩
  | gone c =>
    refine ⟨before.confined, before.counted, before.exact_, before.window, fun c' hc dir => ?_⟩
    by_cases old : c' ∈ s.gone
    · exact before.empty c' old dir
    · obtain ⟨write, read⟩ := drained c' hc old
      cases dir with
      | write => exact write
      | read => exact read

theorem Kept.move {errand : Errand} {t : Tid} (before : Kept d window s (G + M))
    (move : errandMoves F cfg errand t s M s' M') (alone : LeftAlone s s') (drained : Drained s s')
    (unwrapped : Unwrapped s.world s'.world) : Kept d window s' (G + M') := by
  cases errand with
  | provider call =>
    obtain ⟨rest, move⟩ := move
    change Move cfg call.role t s.world.core M s'.world.core M' at move
    have same : s'.gone = s.gone := by rw [rest]; rfl
    refine ⟨before.confined.move move, before.counted.move move before.confined,
      before.exact_.move move unwrapped before.counted, ?_, fun c hc dir => ?_⟩
    · exact move.window.trans before.window
    · rw [same] at hc
      rw [World.outstanding, alone c hc]
      exact before.empty c hc dir
  | destroy c =>
    obtain ⟨destroys, rfl, rfl⟩ := move
    exact before.destroys destroys drained

end

/-! ## Runs -/

section
variable {F : Type}

/-- No call to `submit` or `poll` is in progress. -/
def Resting (p : Pool Errand (Estate F) Answer (Option Reply)) : Prop :=
  ∀ th ∈ p.threads, ∀ call, th.call = .provider call → call.role = .transfers →
    ∃ r, th.prog = .ret r

/-- What a call in progress that spends nothing holds. -/
def Frugal : Errand → Multiset Res → Prop
  | .provider call, M => Thrifty call M
  | .destroy _, M => ∀ dir, weigh (Res.claimed dir) M = 0

theorem Frugal.framed {cfg : RdmaConfig} {errand : Errand} {t : Tid} {s s' : Estate F}
    {M M' : Multiset Res} (before : Frugal errand M)
    (framed : Framed (errandMoves F cfg errand) t s M s' M') : Frugal errand M' := by
  cases errand with
  | provider call => exact Thrifty.framed before framed.of_on
  | destroy c =>
    obtain ⟨G, _, _, rfl, rfl, -, rfl, rfl⟩ := framed
    exact before

theorem Frugal.nothing {errand : Errand} : Frugal errand 0 := by
  cases errand with
  | provider call => exact fun _ _ => rfl
  | destroy c => exact fun _ => rfl

/-- The bytes in the lists are those of the connections that stand. -/
theorem Kept.unsignalledBytes {d : Dialled} {window : Option Nat} {s : Estate F}
    {M : Multiset Res} (kept : Kept d window s M) (dir : CcDirection) :
    s.world.unsignalledBytes d.nums.length dir =
      ∑ c ∈ s.standing d.nums.length, s.world.outstanding dir c := by
  symm
  apply Finset.sum_filter_of_ne
  intro c _ some_ gone
  exact some_ (kept.empty c gone dir)

/-- Where no step touches a connection that has been destroyed, and none is destroyed with
bytes in its lists: the bytes counted in flight are those in the lists of the connections
that stand. When all have been destroyed none are counted, and a fixed window lets any
operation out. -/
theorem teardown_releases [CcReal F] (cfg : RdmaConfig) (d : Dialled)
    (recv : ConnId → Option RecvBuffer) (receives : Nat → Nat) (regions : List (Nat × Mr))
    (nextKey : Nat) (cc : CongestionController F) (made : Made cc)
    {p : Pool Errand (Estate F) Answer (Option Reply)}
    (run : Run (carryOut cfg)
      (fun s s' => LeftAlone s s' ∧ Drained s s' ∧ Unwrapped s.world s'.world)
      ⟨World.start d recv receives regions nextKey cc, []⟩ p) (rest : Resting p) :
    (∀ dir, p.shared.world.cc.inflightBytes dir =
        ∑ c ∈ p.shared.standing d.nums.length, p.shared.world.outstanding dir c) ∧
      ((∀ c < d.nums.length, c ∈ p.shared.gone) → ∀ dir,
        p.shared.world.cc.inflightBytes dir = 0 ∧
          ∀ window, cc = makeCcFixedWindow window → ∀ bytes now,
            p.shared.world.cc.allow dir bytes now = .allowed) := by
  obtain ⟨held, allotted, kept⟩ := run.allotted (Kept d cc.fixed) Frugal follows_carryOut
    (fun _ => Frugal.nothing) (fun _ _ _ _ _ _ framed before => before.framed framed)
    ⟨(Sections.start d recv receives regions nextKey cc).toConfined,
      .start d recv receives regions nextKey cc, .start d recv receives regions nextKey made, rfl,
      fun c hc => absurd hc List.not_mem_nil⟩
    (fun _ _ _ _ _ _ _ before move ok => before.move move ok.1 ok.2.1 ok.2.2)
  have balanced : Balanced d.nums.length p.shared.world.core held.sum :=
    .of_counted kept.counted kept.exact_
  have counted (dir : CcDirection) : p.shared.world.cc.inflightBytes dir =
      ∑ c ∈ p.shared.standing d.nums.length, p.shared.world.outstanding dir c := by
    have nothing : weigh (Res.claimed dir) held.sum = 0 := by
      refine allotted.weigh_eq_zero fun t th hth M follows frugal => ?_
      cases is : th.call with
      | destroy c =>
        rw [is] at frugal
        exact frugal dir
      | provider call =>
        by_cases spends : call.role = .transfers
        · obtain ⟨r, returned⟩ := rest th hth call is spends
          rw [returned] at follows
          have empty : M = 0 := follows
          rw [empty]
          rfl
        · rw [is] at frugal
          exact frugal spends dir
    have now := balanced.bytes dir
    rw [nothing, add_zero] at now
    rw [← kept.unsignalledBytes dir]
    exact now
  refine ⟨counted, fun all dir => ?_⟩
  have none_ : p.shared.standing d.nums.length = ∅ := by
    refine Finset.filter_eq_empty_iff.mpr fun c hc => ?_
    exact not_not.mpr (all c (Finset.mem_range.mp hc))
  have zero : p.shared.world.cc.inflightBytes dir = 0 := by
    rw [counted dir, none_, Finset.sum_empty]
  refine ⟨zero, fun window is bytes now => ?_⟩
  exact CongestionController.allow_of_none _ dir bytes (kept.window.trans (by rw [is]; rfl))
    zero now

theorem resting_of_quiet {p : Pool Errand (Estate F) Answer (Option Reply)} (quiet : p.Quiet) :
    Resting p := fun th hth _ _ _ => quiet th hth

end

/-- A write larger than the window completes and is polled, then both connections are
destroyed. -/
theorem teardown_releases_polled :
    ∃ p, Run (carryOut Bench.eager)
        (fun s s' => LeftAlone s s' ∧ Drained s s' ∧ Unwrapped s.world s'.world)
        ⟨Bench.world (makeCcFixedWindow 10), []⟩ p ∧
      p.shared.gone = [1, 0] ∧ p.shared.world.cc.inflightBytes .write = 0 ∧
      p.shared.world.cc.allow .write 12 0 = .allowed := by
  obtain ⟨p, run, quiet, gone⟩ := Run.of_enact (carryOut Bench.eager)
    (fun s s' => LeftAlone s s' ∧ Drained s s' ∧ Unwrapped s.world s'.world)
    ⟨Bench.world (makeCcFixedWindow 10), []⟩
    [([.time 0, .code 0], [.spawn (.provider (.submit (some 0) [Bench.write 0 12])), .run 0 13]),
      ([.time 5, .drawn [.sent 1 0 .success]], [.spawn (.provider (.poll 8)), .run 1 11]),
      ([.code 0], [.spawn (.destroy 0), .run 2 3, .spawn (.destroy 1), .run 3 3])]
    (fun p => p.Quiet ∧ p.shared.gone = [1, 0]) (by decide +kernel)
  have all : ∀ c < Bench.dialled.nums.length, c ∈ p.shared.gone := by
    rw [gone]
    decide
  obtain ⟨-, ended⟩ := teardown_releases Bench.eager Bench.dialled _ _ _ _ _ (.fixedWindow 10) run
    (resting_of_quiet quiet)
  obtain ⟨none_, allows⟩ := ended all .write
  exact ⟨p, run, gone, none_, allows 10 rfl 12 0⟩

/-- A write is outstanding when its connection is destroyed, and its completion is drawn
by the next poll: it stays counted after both connections are gone, and the window lets
nothing out any more. -/
theorem teardown_leaks :
    ∃ p, Run (carryOut Bench.eager) (fun s s' => LeftAlone s s' ∧ Unwrapped s.world s'.world)
        ⟨Bench.world (makeCcFixedWindow 10), []⟩ p ∧ p.Quiet ∧
      p.shared.gone = [1, 0] ∧ p.shared.world.arrived.map (·.qpNum) = [1] ∧
      p.shared.world.cc.inflightBytes .write = 12 ∧
      p.shared.world.cc.allow .write 1 0 = .overBudget := by
  exact Run.of_enact _ _ _
    [([.time 0, .code 0], [.spawn (.provider (.submit (some 0) [Bench.write 0 12])), .run 0 13]),
      ([.code 0], [.spawn (.destroy 0), .run 1 3]),
      ([.time 5, .drawn [.sent 1 0 .success]], [.spawn (.provider (.poll 8)), .run 2 5]),
      ([.code 0], [.spawn (.destroy 1), .run 3 3])]
    _ (by decide +kernel)

end Hux.Rdma
