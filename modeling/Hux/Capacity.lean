import Hux.Anchors

/-!
# Advertised capacity

`submit_capacity` adds up the room of all queue pairs. `submit` gives each operation to
the queue pair that had the most room before the batch, from a rotating offset on, and
stops where that one is full. So a batch within the capacity is taken as a whole exactly
if none of those queue pairs is chosen more often than it has room.
-/

namespace Hux.Rdma
open Interleave (Prog Tid Alone Able Steps alone_bind alone_ret alone_atom alone_sure)

/-! ## The choice -/

/-- The room of the queue pair at a place. -/
def roomAt (depth : Nat) (qps : List QueuePair) (j : Nat) : Nat :=
  (qps[j]?.map (·.room depth)).getD 0

/-- Of the queue pairs with the most room, the first from an offset on. -/
def roomiest (depth : Nat) (qps : List QueuePair) (o : Nat) : Option Nat :=
  ((List.range qps.length).find? fun i =>
    0 < roomAt depth qps ((o + i) % qps.length) ∧
      ∀ k < qps.length, roomAt depth qps k ≤ roomAt depth qps ((o + i) % qps.length)).map
    fun i => (o + i) % qps.length

/-- After so many turns: nothing that has room, or the first with the most. -/
def Foremost (room : Nat → Nat) (place : Nat → Nat) (m : Nat) (best : Option Nat × Nat) : Prop :=
  (best = (none, 0) ∧ ∀ k < m, room k = 0) ∨
    ∃ i < m, best = (some (place i), room i) ∧ 0 < room i ∧ (∀ k < m, room k ≤ room i) ∧
      ∀ k < i, room k < room i

theorem pickStep_eq {depth : Nat} {qps : List QueuePair} {o i : Nat} {best : Option Nat × Nat}
    (some_ : 0 < qps.length) :
    pickStep depth qps o best i =
      if roomAt depth qps ((o + i) % qps.length) > best.2 then
        (some ((o + i) % qps.length), roomAt depth qps ((o + i) % qps.length))
      else best := by
  have inside : (o + i) % qps.length < qps.length := Nat.mod_lt _ some_
  have there := List.getElem?_eq_getElem inside
  have room : roomAt depth qps ((o + i) % qps.length) =
      (qps[(o + i) % qps.length]).room depth := by
    rw [roomAt, there]
    rfl
  dsimp only [pickStep]
  rw [there, room]

theorem foremost_foldl {depth : Nat} {qps : List QueuePair} {o : Nat} (some_ : 0 < qps.length)
    (m : Nat) :
    Foremost (fun i => roomAt depth qps ((o + i) % qps.length)) (fun i => (o + i) % qps.length) m
      ((List.range m).foldl (pickStep depth qps o) (none, 0)) := by
  induction m with
  | zero => exact .inl ⟨rfl, fun k hk => absurd hk (Nat.not_lt_zero k)⟩
  | succ m ih =>
    rw [List.range_succ, List.foldl_append, List.foldl_cons, List.foldl_nil, pickStep_eq some_]
    rcases ih with ⟨none_, empty⟩ | ⟨i, before, best, positive, most, first⟩
    · rw [none_]
      by_cases more : roomAt depth qps ((o + m) % qps.length) > 0
      · rw [if_pos more]
        refine .inr ⟨m, Nat.lt_succ_self m, rfl, more, fun k hk => ?_, fun k hk => ?_⟩
        · rcases Nat.lt_succ_iff_lt_or_eq.mp hk with lt | rfl
          · rw [empty k lt]
            exact Nat.zero_le _
          · exact Nat.le_refl _
        · rw [empty k hk]
          exact more
      · rw [if_neg more]
        refine .inl ⟨rfl, fun k hk => ?_⟩
        rcases Nat.lt_succ_iff_lt_or_eq.mp hk with lt | rfl
        · exact empty k lt
        · exact Nat.eq_zero_of_not_pos more
    · rw [best]
      by_cases more : roomAt depth qps ((o + m) % qps.length) >
          roomAt depth qps ((o + i) % qps.length)
      · rw [if_pos more]
        refine .inr ⟨m, Nat.lt_succ_self m, rfl, Nat.zero_lt_of_lt more, fun k hk => ?_,
          fun k hk => (most k hk).trans_lt more⟩
        rcases Nat.lt_succ_iff_lt_or_eq.mp hk with lt | rfl
        · exact Nat.le_of_lt ((most k lt).trans_lt more)
        · exact Nat.le_refl _
      · rw [if_neg more]
        refine .inr ⟨i, before.trans (Nat.lt_succ_self m), rfl, positive, fun k hk => ?_, first⟩
        rcases Nat.lt_succ_iff_lt_or_eq.mp hk with lt | rfl
        · exact most k lt
        · exact Nat.not_lt.mp more

/-- Every place is visited. -/
theorem exists_offset {n o j : Nat} (inside : j < n) : ∃ i < n, (o + i) % n = j := by
  refine ⟨(j + (n - o % n)) % n, Nat.mod_lt _ (Nat.zero_lt_of_lt inside), ?_⟩
  have lt : o % n < n := Nat.mod_lt _ (Nat.zero_lt_of_lt inside)
  calc (o + (j + (n - o % n)) % n) % n
      = (o % n + (j + (n - o % n))) % n := by rw [Nat.add_mod_mod, ← Nat.mod_add_mod]
    _ = (j + n) % n := by
        congr 1
        omega
    _ = j := by rw [Nat.add_mod_right, Nat.mod_eq_of_lt inside]

/-- `pick_queue_pair_locked` makes that choice. -/
theorem pickFrom_eq (depth : Nat) (qps : List QueuePair) (o : Nat) :
    pickFrom depth qps o = roomiest depth qps o := by
  rcases Nat.eq_zero_or_pos qps.length with none_ | some_
  · simp [pickFrom, roomiest, none_]
  · unfold pickFrom roomiest
    rcases foremost_foldl some_ qps.length with ⟨best, empty⟩ |
      ⟨i, inside, best, positive, most, first⟩
    · rw [best, List.find?_eq_none.mpr]
      · rfl
      · intro i hi
        have none_ := empty i (List.mem_range.mp hi)
        simp only at none_
        simp [none_]
    · have found : (List.range qps.length).find? (fun i =>
          0 < roomAt depth qps ((o + i) % qps.length) ∧
            ∀ k < qps.length, roomAt depth qps k ≤ roomAt depth qps ((o + i) % qps.length)) =
          some i := by
        refine List.find?_range_eq_some.mpr ⟨?_, List.mem_range.mpr inside, fun k hk => ?_⟩
        · refine decide_eq_true ⟨positive, fun j hj => ?_⟩
          obtain ⟨k, hk, rfl⟩ := exists_offset (o := o) hj
          exact most k hk
        · have less := first k hk
          have missed : ¬ ∀ j < qps.length,
              roomAt depth qps j ≤ roomAt depth qps ((o + k) % qps.length) := fun all =>
            Nat.not_lt.mpr (all _ (Nat.mod_lt _ some_)) less
          simp [missed]
      rw [best, found]
      rfl

/-- The choices of a batch of so many operations, the offset moving on by one each time. -/
def choices (depth : Nat) (qps : List QueuePair) : Nat → Nat → List (Option Nat)
  | _, 0 => []
  | o, n + 1 => roomiest depth qps o :: choices depth qps (u32 (o + 1) % qps.length) n

/-- No queue pair is chosen more often than it has room. -/
def Spread (depth : Nat) (qps : List QueuePair) (o n : Nat) : Prop :=
  ∀ j < qps.length, (choices depth qps o n).count (some j) ≤ roomAt depth qps j

instance (depth : Nat) (qps : List QueuePair) (o n : Nat) : Decidable (Spread depth qps o n) := by
  unfold Spread
  infer_instance

/-- What `submit_capacity` returns. -/
def RdmaConnection.capacity (cfg : RdmaConfig) (conn : RdmaConnection) : Nat :=
  u32 (conn.qps.map (·.room cfg.sqDepth)).sum

/-! ## Planning -/

/-- Whatever has been posted, the next operation is allowed. -/
def Allows {F : Type} [CcReal F] (cc : CongestionController F) : Prop :=
  ∀ (posts : List (CcDirection × Nat × CcTime)) d bytes now,
    (posts.foldl (fun cc x => cc.onPost x.1 x.2.1 x.2.2) cc).allow d bytes now = .allowed

theorem Allows.onPost {F : Type} [CcReal F] {cc : CongestionController F} (allows : Allows cc)
    (d : CcDirection) (bytes : Nat) (now : CcTime) : Allows (cc.onPost d bytes now) :=
  fun posts => allows ((d, bytes, now) :: posts)

theorem allows_off {F : Type} [CcReal F] : Allows (makeCcOff : CongestionController F) := by
  have off : ∀ (posts : List (CcDirection × Nat × CcTime)) (inflight : PerDirection Nat)
    d bytes now, (posts.foldl (fun cc x => cc.onPost x.1 x.2.1 x.2.2)
        (.off inflight : CongestionController F)).allow d bytes now = .allowed := by
    intro posts
    induction posts with
    | nil => exact fun _ _ _ _ => rfl
    | cons x rest ih => exact fun inflight d bytes now => ih _ d bytes now
  exact fun posts d bytes now => off posts _ d bytes now

theorem sub64_add (a b n : Nat) : sub64 (a + n) b = u64 (sub64 a b + n) := by
  unfold sub64 u64
  omega

/-- The work requests a queue pair would then have, while the plan keeps within its
room. -/
theorem Planning.Tracks.used_eq {g : Planning} {qps : List QueuePair} {depth j : Nat}
    {q : QueuePair} (tracks : g.Tracks qps) (there : qps[j]? = some q) (small : depth < 2 ^ 32)
    (within : g.plan.countP (·.qpIndex = j) ≤ depth) (short : q.used < depth) :
    g.used qps j = q.used + g.plan.countP (·.qpIndex = j) := by
  have getD : qps.getD j { num := 0 } = q := by simp [there]
  rw [Planning.used, getD, sub64_congr (tracks.seq j q there), sub64_add]
  change u64 (q.used + _) = _
  exact u64_of_lt (by omega)

section
variable {F α β : Type} {t : Tid} {s s' : World F} {b : β}

theorem alone_look {f : World F → α} {k : α → Provider F β} :
    Alone t (look f >>= k) s b s' ↔ Alone t (k (f s)) s b s' :=
  alone_sure .nothing fun _ => rfl

theorem alone_exchange {f : World F → α × World F} {k : α → Provider F β} :
    Alone t (exchange f >>= k) s b s' ↔ Alone t (k (f s).1) (f s).2 b s' :=
  alone_sure .nothing fun _ => rfl

theorem alone_update {f : World F → World F} {k : Unit → Provider F β} :
    Alone t (update f >>= k) s b s' ↔ Alone t (k ()) (f s) b s' := alone_exchange

theorem alone_clock {k : CcTime → Provider F β} :
    Alone t (clock >>= k) s b s' ↔ ∃ now, Alone t (k now) s b s' := by
  simp only [clock, Prog.atom_bind, alone_atom, Prog.ret_bind]
  constructor
  · rintro ⟨e, now, s₁, step, rest⟩
    cases e with
    | time =>
      cases step
      exact ⟨_, rest⟩
    | _ => cases step
  · rintro ⟨now, rest⟩
    exact ⟨.time now, now, s, rfl, rest⟩

end

section
variable {F : Type} [CcReal F] {t : Tid} {cfg : RdmaConfig} {c : ConnId} {qps : List QueuePair}
  {s s' : World F}

/-- The choice is a queue pair with room, where there is one. -/
theorem exists_roomiest {depth : Nat} (open_ : ∃ j < qps.length, 0 < roomAt depth qps j) (o : Nat) :
    ∃ j q, roomiest depth qps o = some j ∧ qps[j]? = some q ∧ j < qps.length ∧
      0 < roomAt depth qps j := by
  obtain ⟨j₀, inside₀, positive₀⟩ := open_
  rw [← pickFrom_eq]
  have some_ := Nat.zero_lt_of_lt inside₀
  unfold pickFrom
  rcases foremost_foldl some_ qps.length with ⟨-, empty⟩ | ⟨i, -, best, positive, -⟩
  · obtain ⟨k, hk, rfl⟩ := exists_offset (o := o) inside₀
    exact absurd (empty k hk) (Nat.ne_of_gt positive₀)
  · have inside : (o + i) % qps.length < qps.length := Nat.mod_lt _ some_
    exact ⟨_, _, by rw [best], List.getElem?_eq_getElem inside, inside, positive⟩

theorem roomAt_eq {depth j : Nat} {q : QueuePair} (there : qps[j]? = some q) :
    roomAt depth qps j = q.room depth := by
  rw [roomAt, there]
  rfl

theorem room_pos {depth : Nat} {q : QueuePair} (positive : 0 < q.room depth) :
    q.used < depth ∧ q.room depth = depth - q.used := by
  unfold QueuePair.room at *
  split at positive
  · exact absurd positive (Nat.lt_irrefl 0)
  · rename_i short
    rw [if_neg short]
    exact ⟨Nat.not_le.mp short, rfl⟩

theorem countP_push {g : Planning} {qi j : Nat} {op : SubOp} {mr : Mr} :
    (g.push cfg qps qi op mr).plan.countP (·.qpIndex = j) =
      g.plan.countP (·.qpIndex = j) + if qi = j then 1 else 0 := by
  simp [Planning.push, List.countP_append, List.countP_singleton]

/-- How far planning gets, for operations whose keys are known and which the controller
allows. -/
theorem alone_planLoop {ops : List SubOp} {g : Planning} {x : Status × List Planned}
    (run : Alone t (planLoop cfg c qps ops g) s x s')
    (known : ∀ op ∈ ops, s.regions.lookup op.localKey ≠ none) (allows : Allows s.cc)
    (tracks : g.Tracks qps)
    (within : ∀ j < qps.length, g.plan.countP (·.qpIndex = j) ≤ roomAt cfg.sqDepth qps j)
    (open_ : ∃ j < qps.length, 0 < roomAt cfg.sqDepth qps j) :
    x.2.length ≤ g.plan.length + ops.length ∧
      (x.2.length = g.plan.length + ops.length ↔ ∀ j < qps.length,
        g.plan.countP (·.qpIndex = j) +
          (choices cfg.sqDepth qps (s.conns c).nextQp ops.length).count (some j) ≤
            roomAt cfg.sqDepth qps j) ∧
      s'.log = s.log := by
  induction ops generalizing g s with
  | nil =>
    obtain ⟨rfl, rfl⟩ := alone_ret.mp run
    simpa [choices] using within
  | cons op rest ih =>
    have here := known op List.mem_cons_self
    obtain ⟨mr, found⟩ := Option.ne_none_iff_exists'.mp here
    rw [planLoop, alone_look, found] at run
    dsimp only at run
    rw [pickQueuePairLocked, alone_exchange] at run
    dsimp only at run
    obtain ⟨j, q, chosen, there, inside, positive⟩ := exists_roomiest open_ (s.conns c).nextQp
    rw [pickFrom_eq, chosen] at run
    dsimp only at run
    rw [roomAt_eq there] at positive
    obtain ⟨short, room⟩ := room_pos positive
    have small := cfg.depth_lt
    have kept := within j inside
    rw [roomAt_eq there, room] at kept
    rw [tracks.used_eq there small (by omega) short] at run
    have now : (choices cfg.sqDepth qps (s.conns c).nextQp (op :: rest).length) =
        some j :: choices cfg.sqDepth qps (u32 ((s.conns c).nextQp + 1) % qps.length)
          rest.length := by
      rw [List.length_cons, choices, chosen]
    rw [now]
    split at run
    · rename_i full
      obtain ⟨rfl, rfl⟩ := alone_ret.mp run
      refine ⟨by simp, ?_, rfl⟩
      simp only [List.length_cons]
      constructor
      · intro all
        omega
      · intro all
        have mine := all j inside
        rw [List.count_cons_self, roomAt_eq there, room] at mine
        omega
    · rename_i free
      rw [alone_clock] at run
      obtain ⟨planTime, run⟩ := run
      rw [alone_look] at run
      have allowed : s.cc.allow (directionOf op) op.length planTime = .allowed :=
        allows [] (directionOf op) op.length planTime
      change Alone t (if s.cc.allow _ _ _ ≠ .allowed then _ else _) _ _ _ at run
      rw [allowed, if_neg (by simp), ccOnPost, alone_update] at run
      have fits : ∀ k < qps.length, (g.push cfg qps j op mr).plan.countP (·.qpIndex = k) ≤
          roomAt cfg.sqDepth qps k := by
        intro k hk
        rw [countP_push]
        split
        · rename_i same
          subst same
          rw [roomAt_eq there, room]
          omega
        · exact within k hk
      obtain ⟨most, all, log⟩ := ih run (fun op' hop => known op' (List.mem_cons_of_mem _ hop))
        (allows.onPost _ _ _) (tracks.push cfg j op mr) fits
      have one : (g.push cfg qps j op mr).plan.length = g.plan.length + 1 := by
        simp [Planning.push]
      have offset : ((World.onPost (s.setConn c fun conn =>
          { conn with nextQp := u32 (conn.nextQp + 1) % qps.length }) (directionOf op) op.length
            planTime).conns c).nextQp = u32 ((s.conns c).nextQp + 1) % qps.length := by
        simp [World.onPost, World.setConn]
      rw [one] at most all
      rw [offset] at all
      refine ⟨by simp only [List.length_cons]; omega, ?_, log⟩
      have length : x.2.length = g.plan.length + (op :: rest).length ↔
          x.2.length = g.plan.length + 1 + rest.length := by
        simp only [List.length_cons]
        omega
      rw [length, all]
      refine forall₂_congr fun k hk => ?_
      rw [countP_push, List.count_cons]
      by_cases same : j = k
      · subst same
        simp only [if_pos, beq_self_eq_true]
        omega
      · simp [same]

/-- `ibv_post_send` took everything. -/
def Unrefused (s s' : World F) : Prop :=
  ∀ line ∈ s'.log.drop s.log.length, line.refusedOn = none

instance (s s' : World F) : Decidable (Unrefused s s') := by
  unfold Unrefused
  infer_instance

omit [CcReal F] in
theorem alone_postSend {p : Planned} {β : Type} {k : Int × Nat → Provider F β} {b : β} :
    Alone t (postSend c p >>= k) s b s' ↔ ∃ rc : Int,
      Alone t (k (rc, (s.qp c p.qpIndex).posted))
        (if rc = 0 then
          { s with
            adapter := s.adapter.post (s.qp c p.qpIndex).num
              (p.workRequest (s.qp c p.qpIndex).posted) }
        else
          { s with log := s.log ++ [.refused c p.qpIndex (s.qp c p.qpIndex).posted p.op] })
        b s' := by
  simp only [postSend, Prog.atom_bind, alone_atom, Prog.ret_bind]
  constructor
  · rintro ⟨e, a, s₁, step, rest⟩
    cases e with
    | code rc =>
      cases step
      exact ⟨rc, rest⟩
    | _ => cases step
  · rintro ⟨rc, rest⟩
    exact ⟨.code rc, _, _, rfl, rest⟩

omit [CcReal F] in
/-- Without a refusal the whole plan is posted. -/
theorem alone_postLoop {plan : List Planned} {r : SubmitResult} {x : SubmitResult × List Planned}
    (run : Alone t (postLoop c plan r) s x s') (unrefused : Unrefused s s')
    (small : r.accepted + plan.length < 2 ^ 32) :
    x.1.accepted = r.accepted + plan.length ∧ x.2 = [] := by
  induction plan generalizing r s with
  | nil =>
    obtain ⟨rfl, rfl⟩ := alone_ret.mp run
    exact ⟨rfl, rfl⟩
  | cons p rest ih =>
    rw [postLoop, alone_postSend] at run
    obtain ⟨rc, run⟩ := run
    dsimp only at run
    by_cases taken : rc = 0
    · rw [if_pos taken, if_neg (not_not.mpr taken), alone_clock] at run
      obtain ⟨postedAt, run⟩ := run
      rw [recordPost, alone_update, countPosted, alone_update] at run
      rw [List.length_cons] at small ⊢
      have next : u32 (r.accepted + 1) = r.accepted + 1 := u32_of_lt (by omega)
      rw [next] at run
      have later : ∀ line ∈ s'.log.drop (s.log.length + 1), line.refusedOn = none := by
        intro line hl
        rw [← List.drop_drop] at hl
        exact unrefused line (List.mem_of_mem_drop hl)
      obtain ⟨accepted, none_⟩ := ih run (by simpa [Unrefused] using later) (by dsimp only; omega)
      dsimp only at accepted
      exact ⟨by omega, none_⟩
    · rw [if_neg taken, if_pos taken] at run
      obtain ⟨rfl, rfl⟩ := alone_ret.mp run
      have line := unrefused (.refused c p.qpIndex (s.qp c p.qpIndex).posted p.op) (by simp)
      cases line

omit [CcReal F] in
theorem alone_lockQp {β : Type} {k : List QueuePair → Provider F β} {b : β}
    (free : (s.conns c).locked = false) :
    Alone t (lockQp c >>= k) s b s' ↔
      Alone t (k (s.conns c).qps) (s.setConn c fun conn => { conn with locked := true }) b s' :=
  alone_sure .nothing fun _ => if_neg (by simp [free])

omit [CcReal F] in
theorem alone_submitCapacity {β : Type} {k : Nat → Provider F β} {b : β}
    (free : (s.conns c).locked = false) :
    Alone t (submitCapacity cfg c >>= k) s b s' ↔
      Alone t (k ((s.conns c).capacity cfg)) s b s' :=
  alone_sure .nothing fun _ => if_neg (by simp [free])

end

/-! ## Submitting -/

section
variable {F : Type} {t : Tid} {cfg : RdmaConfig} {c : ConnId} {s s' : World F}

/-- The log grows, by no refusal. -/
def Taken (s s' : World F) : Prop :=
  ∃ lines, s'.log = s.log ++ lines ∧ ∀ line ∈ lines, line.refusedOn = none

theorem Taken.refl (s : World F) : Taken s s := ⟨[], by simp, by simp⟩

theorem taken_of_log {s s' : World F} (same : s'.log = s.log) : Taken s s' :=
  ⟨[], by simpa using same, by simp⟩

theorem Taken.trans {s₁ s₂ s₃ : World F} (first : Taken s₁ s₂) (second : Taken s₂ s₃) :
    Taken s₁ s₃ := by
  obtain ⟨lines, log, none_⟩ := first
  obtain ⟨lines', log', none_'⟩ := second
  refine ⟨lines ++ lines', by rw [log', log, List.append_assoc], fun line hl => ?_⟩
  rcases List.mem_append.mp hl with hl | hl
  · exact none_ line hl
  · exact none_' line hl

theorem Taken.unrefused (taken : Taken s s') : Unrefused s s' := by
  obtain ⟨lines, log, none_⟩ := taken
  simpa [Unrefused, log] using none_

theorem able_look {α : Type} (f : World F → α) : Able Taken t (look f) :=
  ⟨fun s => ⟨.nothing, _, _, rfl, .refl s⟩, fun _ => trivial⟩

theorem able_exchange {α : Type} {f : World F → α × World F} (log : ∀ s, (f s).2.log = s.log) :
    Able Taken t (exchange f) :=
  ⟨fun s => ⟨.nothing, _, _, rfl, taken_of_log (log s)⟩, fun _ => trivial⟩

theorem able_clock : Able Taken t (clock : Provider F CcTime) :=
  ⟨fun s => ⟨.time 0, _, _, rfl, .refl s⟩, fun _ => trivial⟩

theorem able_planLoop [CcReal F] {qps : List QueuePair} (ops : List SubOp) (g : Planning) :
    Able Taken t (planLoop cfg c qps ops g : Provider F _) := by
  induction ops generalizing g with
  | nil => exact trivial
  | cons op rest ih =>
    refine (able_look _).bind fun mr => ?_
    cases mr with
    | none => exact trivial
    | some mr =>
      refine (able_exchange fun _ => rfl).bind fun q => ?_
      cases q with
      | none => exact trivial
      | some qi =>
        refine .ite trivial (able_clock.bind fun now => (able_look _).bind fun verdict => ?_)
        exact .ite trivial ((able_exchange fun _ => rfl).bind fun _ => ih _)

theorem able_postLoop (plan : List Planned) (r : SubmitResult) :
    Able Taken t (postLoop c plan r : Provider F _) := by
  induction plan generalizing r with
  | nil => exact trivial
  | cons p rest ih =>
    have posts : Able Taken t (postSend c p : Provider F _) :=
      ⟨fun s => ⟨.code 0, _, _, rfl, taken_of_log rfl⟩, fun _ => trivial⟩
    refine posts.bind fun x => ?_
    obtain ⟨rc, seq⟩ := x
    refine .ite trivial (able_clock.bind fun postedAt => ?_)
    have records : Able Taken t (recordPost c p seq postedAt : Provider F Unit) :=
      ⟨fun s => ⟨.nothing, _, _, rfl, [_], rfl, by simp [Line.refusedOn]⟩, fun _ => trivial⟩
    exact records.bind fun _ => (able_exchange fun _ => rfl).bind fun _ => ih _

theorem able_releaseLoop (rest : List Planned) :
    Able Taken t (releaseLoop rest : Provider F Unit) := by
  induction rest with
  | nil => exact trivial
  | cons p rest ih =>
    exact able_clock.bind fun _ => (able_exchange fun _ => rfl).bind fun _ => ih

theorem exists_alone {α : Type} {p : Provider F α} (able : Able Taken t p) (s : World F) :
    ∃ a s', Alone t p s a s' ∧ Taken s s' := by
  obtain ⟨a, s', run, steps⟩ := able.alone s
  refine ⟨a, s', run, ?_⟩
  clear run
  induction steps with
  | refl => exact .refl s
  | tail _ last ih => exact ih.trans last

theorem steps_releaseLoop (rest : List Planned) :
    Steps (fun s s' : World F => s'.log = s.log) (releaseLoop rest) := by
  induction rest with
  | nil => exact trivial
  | cons p rest ih =>
    have ticks : Steps (fun s s' : World F => s'.log = s.log) clock := by
      refine ⟨fun t s e b s' h => ?_, fun _ => trivial⟩
      cases e with
      | time =>
        cases h
        rfl
      | _ => cases h
    have gives (d : CcDirection) (bytes : Nat) :
        Steps (fun s s' : World F => s'.log = s.log) (ccOnError d bytes) :=
      ⟨fun t s e b s' h => by cases h; rfl, fun _ => trivial⟩
    exact ticks.bind fun _ => (gives _ _).bind fun _ => ih

end

theorem exists_room {cfg : RdmaConfig} {conn : RdmaConnection} (some_ : conn.capacity cfg ≠ 0) :
    ∃ j < conn.qps.length, 0 < roomAt cfg.sqDepth conn.qps j := by
  by_contra none_
  push Not at none_
  apply some_
  have zero : ∀ n ∈ conn.qps.map (·.room cfg.sqDepth), n = 0 := by
    intro n hn
    obtain ⟨q, hq, rfl⟩ := List.mem_map.mp hn
    obtain ⟨j, there⟩ := List.getElem?_of_mem hq
    have le := none_ j (List.getElem?_eq_some_iff.mp there).1
    rw [roomAt_eq there] at le
    exact Nat.le_zero.mp le
  rw [RdmaConnection.capacity, List.sum_eq_zero zero]
  rfl

/-- For every connection that no other call is using, and every batch within the
advertised capacity, of known keys and under a controller that allows every operation:
`submit` returns, and where `ibv_post_send` takes what it is given the whole batch is
accepted exactly if it is empty, or the connection has not failed and the batch is
spread within the room of each queue pair. -/
theorem capacity_usable_iff {F : Type} [CcReal F] (cfg : RdmaConfig) (t : Tid) (c : ConnId)
    (s : World F) (ops : List SubOp) (free : (s.conns c).locked = false)
    (known : ∀ op ∈ ops, s.regions.lookup op.localKey ≠ none) (allows : Allows s.cc)
    (within : ops.length ≤ (s.conns c).capacity cfg) :
    (∃ r s', Alone t (submit cfg (some c) ops) s r s' ∧ Unrefused s s') ∧
    ∀ r s', Alone t (submit cfg (some c) ops) s r s' → Unrefused s s' →
      (r.accepted = ops.length ↔ ops = [] ∨ (s.conns c).failed = false ∧
        Spread cfg.sqDepth (s.conns c).qps (s.conns c).nextQp ops.length) := by
  constructor
  · have tail : ∀ x : Status × List Planned, Able Taken t (do
        let y ← postLoop c (anchored x.2) ⟨0, x.1, 0⟩
        releaseLoop y.2
        unlockQp c
        pure y.1 : Provider F SubmitResult) := fun x =>
      (able_postLoop _ _).bind fun y =>
        (able_releaseLoop _).bind fun _ => (able_exchange fun _ => rfl).bind fun _ => trivial
    suffices returns : ∃ r s', Alone t (submit cfg (some c) ops) s r s' ∧ Taken s s' by
      obtain ⟨r, s', run, taken⟩ := returns
      exact ⟨r, s', run, taken.unrefused⟩
    simp only [submit, alone_look]
    by_cases failed : (s.conns c).failed = true
    · simp only [if_pos failed]
      exact ⟨_, _, alone_ret.mpr ⟨rfl, rfl⟩, .refl s⟩
    · simp only [if_neg failed]
      by_cases empty : ops = []
      · simp only [if_pos empty]
        exact ⟨_, _, alone_ret.mpr ⟨rfl, rfl⟩, .refl s⟩
      · simp only [if_neg empty, alone_submitCapacity free]
        by_cases full : (s.conns c).capacity cfg = 0
        · simp only [if_pos full]
          exact ⟨_, _, alone_ret.mpr ⟨rfl, rfl⟩, .refl s⟩
        · simp only [if_neg full, alone_lockQp free]
          exact exists_alone ((able_planLoop ops _).bind tail) _
  · intro r s' run unrefused
    rw [submit, alone_look] at run
    by_cases failed : (s.conns c).failed = true
    · rw [if_pos failed] at run
      obtain ⟨rfl, rfl⟩ := alone_ret.mp run
      simp [failed, eq_comm, List.length_eq_zero_iff]
    · rw [if_neg failed] at run
      by_cases empty : ops = []
      · rw [if_pos empty] at run
        obtain ⟨rfl, rfl⟩ := alone_ret.mp run
        simp [empty]
      · rw [if_neg empty, alone_submitCapacity free] at run
        have some_ : (s.conns c).capacity cfg ≠ 0 := by
          intro zero
          rw [zero] at within
          exact empty (List.length_eq_zero_iff.mp (Nat.le_zero.mp within))
        rw [if_neg some_, alone_lockQp free, alone_bind] at run
        obtain ⟨⟨status, plan⟩, s₁, planned, run⟩ := run
        dsimp only at run
        rw [alone_bind] at run
        obtain ⟨⟨r', unposted⟩, s₂, posted, run⟩ := run
        dsimp only at run
        rw [alone_bind] at run
        obtain ⟨_, s₃, released, run⟩ := run
        rw [unlockQp, alone_update] at run
        obtain ⟨rfl, rfl⟩ := alone_ret.mp run
        obtain ⟨most, all, log⟩ := alone_planLoop planned known allows (Planning.tracks_init _)
          (by simp [Planning.init]) (exists_room some_)
        simp only [Planning.init, List.length_nil, Nat.zero_add, List.countP_nil] at most all
        have through : Unrefused s₁ s₂ := by
          have same : s₃.log = s₂.log := (steps_releaseLoop unposted).alone released
          have log : s₁.log = s.log := log
          unfold Unrefused at unrefused ⊢
          rw [log, ← same]
          exact unrefused
        have bound : (s.conns c).capacity cfg < 2 ^ 32 := Nat.mod_lt _ (Nat.two_pow_pos 32)
        have length : (anchored plan).length = plan.length := by
          simpa using congrArg List.length (qpIndex_anchored plan)
        obtain ⟨accepted, -⟩ := alone_postLoop posted through (by dsimp only; omega)
        dsimp only at accepted most all
        have offset : ((s.setConn c fun conn => { conn with locked := true }).conns c).nextQp =
            (s.conns c).nextQp := by simp [World.setConn]
        rw [accepted, length, Nat.zero_add, all, offset]
        simp [empty, failed, Spread]

/-- Two queue pairs with room for one and for two work requests more, on the first
connection. -/
def Bench.uneven (offset : Nat) : World ℚ :=
  (Bench.world makeCcOff).setConn 0 fun conn =>
    { conn with qps := [{ num := 1, posted := 3 }, { num := 2, posted := 2 }], nextQp := offset }

/-- Two operations fit the queue pair that has the most room. -/
theorem capacity_usable_iff_spread :
    ∃ r s', Alone 0 (submit Bench.eager (some 0) [Bench.write 7 4, Bench.write 8 4])
        (Bench.uneven 0) r s' ∧ r.accepted = 2 := by
  have allows : Allows (Bench.uneven 0).cc := allows_off
  obtain ⟨⟨r, s', run, unrefused⟩, whole⟩ := capacity_usable_iff Bench.eager 0 0 (Bench.uneven 0)
    [Bench.write 7 4, Bench.write 8 4] (by decide) (by decide) allows (by decide)
  exact ⟨r, s', run, (whole r s' run unrefused).mpr (.inr ⟨by decide, by decide⟩)⟩

/-- Three operations are within the capacity, and only two are taken: all three are meant
for the queue pair with the most room, and the other has room for one. -/
theorem capacity_left_unused :
    ((Bench.uneven 0).conns 0).capacity Bench.eager = 3 ∧
      ∃ r s', Alone 0 (submit Bench.eager (some 0)
          [Bench.write 7 4, Bench.write 8 4, Bench.write 9 4]) (Bench.uneven 0) r s' ∧
        Unrefused (Bench.uneven 0) s' ∧ r = ⟨2, .wouldBlock, 0⟩ ∧
        (s'.conns 0).qps.map (·.room Bench.eager.sqDepth) = [1, 0] := by
  refine ⟨by decide, ?_⟩
  exact Prog.alone_of_perform [Answer.nothing, .time 0, .code 0] (fun (r : SubmitResult) s' =>
    Unrefused (Bench.uneven 0) s' ∧ r = ⟨2, .wouldBlock, 0⟩ ∧
      (s'.conns 0).qps.map (·.room Bench.eager.sqDepth) = [1, 0]) (by decide +kernel)

end Hux.Rdma
