import Hux.Between
import Hux.Budget

/-!
# The fixed window

`allow` and `on_post` are two critical sections of the controller, and submits on
different connections hold different locks in between. Where no two submits of one
direction are in between at once, what is counted in flight keeps within the window, or
is one operation larger than the whole window.
-/

namespace Hux.Rdma
open Interleave (Tid Pool Run Passage Between Idles Spares)

section
variable {F : Type} {window : Nat}

/-! ## Between `allow` and `on_post` -/

/-- The step counts an operation of so many bytes. -/
def Counts (x : CcDirection × Nat) (s s' : World F) : Prop :=
  s'.core.counted x.1 = x.2 ::ₘ s.core.counted x.1

theorem Counts.card {x : CcDirection × Nat} {s s' : World F} (counts : Counts x s s') :
    Multiset.card (s'.core.counted x.1) = Multiset.card (s.core.counted x.1) + 1 := by
  rw [counts, Multiset.card_cons]

theorem not_counts (x : CcDirection × Nat) {s s' : World F} (same : s'.core = s.core) :
    ¬Counts x s s' := by
  intro counts
  have more := counts.card
  rw [same] at more
  omega

/-- The window has room for so many more bytes. -/
def Core.Room (window : Nat) (x : CcDirection × Nat) (k : Core) : Prop :=
  k.inflight x.1 + x.2 ≤ window ∨ window < x.2 ∧ k.inflight x.1 = 0

/-- What `allow` finds of a fixed window, unless the sum wraps. -/
def Finds (window : Nat) (x : CcDirection × Nat) (s : World F) : Prop :=
  s.core.window = some window → s.core.inflight x.1 + x.2 < 2 ^ 64 → s.core.Room window x

variable [CcReal F]

theorem finds_of_allow {s : World F} {d : CcDirection} {bytes : Nat} {now : CcTime}
    (allowed : s.cc.allow d bytes now = .allowed) : Finds window (d, bytes) s := by
  intro fixed fits
  cases cc : s.cc with
  | off | timely => simp [World.core, cc, CongestionController.fixed] at fixed
  | fixedWindow w dirs =>
    simp only [World.core, cc, CongestionController.fixed, Option.some.injEq,
      CongestionController.inflightBytes, Core.Room] at fixed fits ⊢
    simp only [cc, CongestionController.allow, u64_of_lt fits] at allowed
    subst fixed
    split_ifs at allowed with within larger
    · exact .inl within
    · exact .inr larger

def Call.batch : Call → List SubOp
  | .submit _ ops => ops
  | _ => []

/-- What is left of a submit, where `allow` has let an operation of its batch out. -/
def Allowed (x : CcDirection × Nat) (call : Call) (left : Provider F Reply) : Prop :=
  ∃ op ∈ call.batch, x = (directionOf op, op.length) ∧ ∃ now k, left = ccOnPost x.1 x.2 now >>= k

/-- The thread has been allowed the bytes, and not counted them. -/
def PastAllow (x : CcDirection × Nat) (p : Pool Call (World F) Answer Reply) (t : Tid) : Prop :=
  Between Counts Allowed x p t

/-- In each direction at most one thread is between `allow` and `on_post`, and what
`allow` adds up for it does not wrap. -/
structure AsksInTurn (p : Pool Call (World F) Answer Reply) : Prop where
  alone : ∀ d bytes bytes' t u, PastAllow (d, bytes) p t → PastAllow (d, bytes') p u → t = u
  unwrapped : ∀ d bytes t, PastAllow (d, bytes) p t →
    p.shared.cc.inflightBytes d + bytes < 2 ^ 64

/-! ## Submits -/

variable {cfg : RdmaConfig} {role : Role} {t : Tid} {found : CcDirection × Nat → World F → Prop}
  {checked : CcDirection × Nat → Provider F Reply → Prop} {x : Option (CcDirection × Nat)}

omit [CcReal F] in
/-- A program counts nothing where its moves cannot plan. -/
theorem idles_of_keeps {α : Type} {p : Provider F α} {Q : α → Multiset Res → Prop}
    {M : Multiset Res} (none_ : role = .transfers → cfg.sqDepth = 0)
    (keeps : Keeps cfg role t p Q M) :
    Idles Counts t p := by
  refine .of_follows keeps fun s M s' M' move x counts => ?_
  have more := counts.card
  rcases Move.counts move with ⟨-, same, -⟩ | ⟨d, bytes, -, transfers, deep⟩ | ⟨d, bytes, eq, -⟩
  · rw [same] at more
    omega
  · simp [none_ transfers] at deep
  · have fewer : Multiset.card ((s.core.release d bytes).counted x.1) ≤
        Multiset.card (s.core.counted x.1) := by
      simp only [Core.release, Function.update_apply]
      split
      · rename_i same
        exact same ▸ Multiset.card_le_card (Multiset.erase_le _ _)
      · exact le_rfl
    rw [eq] at more
    omega

/-- Send queues that take nothing: under this configuration no operation can be planned. -/
def RdmaConfig.shut : RdmaConfig := ⟨1, 0, by decide⟩

omit [CcReal F] in
theorem idles_of_shut {α : Type} {p : Provider F α} {Q : α → Multiset Res → Prop}
    {M : Multiset Res} (keeps : Keeps .shut .transfers t p Q M) : Idles Counts t p :=
  idles_of_keeps (fun _ => rfl) keeps

omit [CcReal F] in
theorem idles_of_idle {α : Type} {p : Provider F α} (idle : Idle p) : Idles Counts t p :=
  .of_steps (idle.mono fun _ _ same x => not_counts x same)

theorem guarded_ccOnPost {d : CcDirection} {bytes : Nat} {now : CcTime}
    {k : Unit → Provider F Reply}
    (rest : ∀ a, Interleave.Guarded Counts found checked t none (k a)) :
    Interleave.Guarded Counts found checked t (some (d, bytes)) (ccOnPost d bytes now >>= k) := by
  refine .inr ⟨(d, bytes), rfl, fun s e b s' step => ⟨fun x counts => ?_, rest b⟩⟩
  cases step
  have core := World.core_onPost s d bytes now
  by_cases same : x.1 = d
  · have eq : bytes ::ₘ s.core.counted d = x.2 ::ₘ s.core.counted d := by
      simpa [Counts, core, Core.claim, same] using counts
    exact Prod.ext same ((Multiset.cons_inj_left _).mp eq).symm
  · have more := counts.card
    simp [core, Core.claim, same] at more

theorem guarded_planLoop {c : ConnId} {qps : List QueuePair} {call : Call}
    {g : Status × List Planned → Provider F Reply} (ops : List SubOp) (among : ops ⊆ call.batch)
    (pl : Planning) (rest : ∀ r, Interleave.Guarded Counts (Finds window) (Allowed · call) t none
      (g r)) :
    Interleave.Guarded Counts (Finds window) (Allowed · call) t none
      (planLoop cfg c qps ops pl >>= g) := by
  induction ops generalizing pl with
  | nil => exact rest _
  | cons op ops ih =>
    obtain ⟨member, among⟩ := List.cons_subset.mp among
    unfold planLoop
    rw [Interleave.Prog.bind_assoc]
    refine .past (idles_of_idle (idle_look _)) fun mr => ?_
    cases mr with
    | none => exact rest _
    | some mr =>
      dsimp only
      rw [Interleave.Prog.bind_assoc]
      have picks : Keeps cfg .other t (pickQueuePairLocked cfg c qps : Provider F _) _ 0 :=
        keeps_pickQueuePairLocked
      refine .past (idles_of_keeps (by simp) picks) fun q => ?_
      cases q with
      | none => exact rest _
      | some qi =>
        dsimp only
        split
        · exact rest _
        rw [Interleave.Prog.bind_assoc]
        refine .past (idles_of_idle idle_clock) fun planTime => ?_
        refine .inl ⟨(idles_of_idle (idle_look _)).1, fun s e verdict s' step => ?_⟩
        obtain ⟨answer, rfl⟩ : s.cc.allow (directionOf op) op.length planTime = verdict ∧
          s = s' := by
          cases step
          exact ⟨rfl, rfl⟩
        cases verdict with
        | allowed =>
          exact .inr ⟨(directionOf op, op.length), finds_of_allow answer,
            ⟨op, member, rfl, planTime, _, rfl⟩, guarded_ccOnPost fun _ => ih among _⟩
        | _ => exact .inl (rest _)

/-- Only a submit counts bytes, and only those it was allowed. -/
theorem guarded_window (call : Call) :
    Interleave.Guarded Counts (Finds window) (Allowed · call) t none
      (body cfg call : Provider F Reply) := by
  cases call with
  | submit conn ops =>
    cases conn with
    | none => trivial
    | some c =>
      unfold body submit
      dsimp only
      rw [Interleave.Prog.bind_assoc]
      refine .past (idles_of_idle (idle_look _)) fun failed => ?_
      split
      · trivial
      split
      · trivial
      rw [Interleave.Prog.bind_assoc]
      refine .past (idles_of_idle (idle_submitCapacity c)) fun capacity => ?_
      split
      · trivial
      rw [Interleave.Prog.bind_assoc]
      have locks : Keeps cfg .other t (lockQp c : Provider F (List QueuePair))
        (fun _ _ => True) 0 :=
        keeps_lockQp fun k free => ⟨_, .lock free, trivial⟩
      refine .past (idles_of_keeps (by simp) locks) fun qps => ?_
      rw [Interleave.Prog.bind_assoc]
      refine guarded_planLoop ops (List.Subset.refl _) _ fun planned => ?_
      exact .past (idles_of_shut (keeps_postPlan qps _ _)) fun r => trivial
  | poll maxEvents =>
    exact .past (idles_of_shut (keeps_turn maxEvents)) fun r => trivial
  | _ => exact .idle (idles_of_keeps (by simp [Call.role]) (follows_body _ t))

end

/-- What is counted keeps within the window, or is one operation larger than it; an
operation of no bytes counts for nothing. -/
def Windowed (window : Nat) (k : Core) : Prop :=
  ∀ d, k.inflight d ≤ window ∨
    ∃ bytes, window < bytes ∧ k.inflight d = bytes ∧ (k.counted d).filter (0 < ·) = {bytes}

section
variable {k : Core} {window bytes : Nat} {d : CcDirection}

theorem Windowed.claim (exact_ : Exact k) (before : Windowed window k)
    (room : k.inflight d + bytes ≤ window ∨ window < bytes ∧ k.inflight d = 0)
    (fits : k.inflight d + bytes < 2 ^ 64) : Windowed window (k.claim d bytes) := by
  intro dir
  simp only [Core.claim, Function.update_apply]
  by_cases own : dir = d
  · subst own
    rw [if_pos rfl, if_pos rfl, u64_of_lt fits]
    rcases room with within | ⟨larger, none_⟩
    · exact .inl within
    · refine .inr ⟨bytes, larger, by omega, ?_⟩
      -- Nothing is counted, so what else is in flight has no bytes.
      have empty : ∀ x ∈ k.counted dir, ¬ 0 < x := by
        intro x hx
        have split := Multiset.sum_erase hx
        rw [← exact_.sum dir, none_] at split
        omega
      rw [Multiset.filter_cons_of_pos _ (Nat.zero_lt_of_lt larger),
        Multiset.filter_eq_nil.mpr empty]
      rfl
  · rw [if_neg own, if_neg own]
    exact before dir

theorem Windowed.release (exact_ : Exact k) (there : bytes ∈ k.counted d)
    (before : Windowed window k) : Windowed window (k.release d bytes) := by
  intro dir
  have after := (exact_.release there).sum dir
  simp only [Core.release, Function.update_apply] at after ⊢
  by_cases own : dir = d
  · subst own
    rw [if_pos rfl, if_pos rfl] at after
    rw [if_pos rfl, if_pos rfl, after]
    have split := Multiset.sum_erase there
    have sum := exact_.sum dir
    rcases before dir with within | ⟨x, larger, inflight, only⟩
    · exact .inl (by omega)
    · rcases Nat.eq_zero_or_pos bytes with rfl | positive
      · refine .inr ⟨x, larger, by omega, ?_⟩
        obtain ⟨rest, eq⟩ := Multiset.exists_cons_of_mem there
        rw [← only, eq, Multiset.erase_cons_head, Multiset.filter_cons_of_neg _ (Nat.lt_irrefl 0)]
      · have mine : bytes ∈ (k.counted dir).filter (0 < ·) :=
          Multiset.mem_filter.mpr ⟨there, positive⟩
        rw [only, Multiset.mem_singleton] at mine
        exact .inl (by omega)
  · rw [if_neg own, if_neg own]
    exact before dir

end

/-! ## Runs -/

section
variable {F : Type} {cfg : RdmaConfig} {role : Role} {t : Tid} {s s' : World F}
  {G M M' : Multiset Res} {n window : Nat}

/-- What a step leaves of the room for an operation, where it counts nothing in that
direction. -/
theorem Core.Room.move {k k' : Core} {x : CcDirection × Nat} (move : Move cfg role t k M k' M')
    (other : ∀ bytes, k'.counted x.1 ≠ bytes ::ₘ k.counted x.1) (room : k.Room window x) :
    k'.Room window x := by
  unfold Core.Room at room ⊢
  rcases move.counts with ⟨same, -⟩ | ⟨d, bytes, rfl, -⟩ | ⟨d, bytes, rfl, -⟩
  · rwa [same]
  · have apart : x.1 ≠ d := fun same => other bytes (by simp [Core.claim, same])
    simpa [Core.claim, apart] using room
  · by_cases same : x.1 = d
    · have fewer : released (k.inflight d) bytes ≤ k.inflight d := Nat.sub_le _ _
      simp only [Core.release, same, Function.update_self] at room ⊢
      omega
    · simpa [Core.release, same] using room

theorem Windowed.move (move : Move cfg role t s.core M s'.core M')
    (counted : Counted n s.core (G + M)) (exact_ : Exact s.core)
    (roomy : ∀ x, Counts x s s' → s.core.Room window x ∧ s.core.inflight x.1 + x.2 < 2 ^ 64)
    (before : Windowed window s.core) : Windowed window s'.core ∧ s'.wraps = s.wraps := by
  rcases move.counts with ⟨inflight, same, wraps, -⟩ | ⟨d, bytes, eq, -⟩ | ⟨d, bytes, eq, claim⟩
  · refine ⟨fun dir => ?_, wraps⟩
    rw [inflight, same]
    exact before dir
  · obtain ⟨room, small⟩ := roomy (d, bytes) (by simp [Counts, eq, Core.claim])
    refine ⟨eq ▸ before.claim exact_ room small, ?_⟩
    have wraps := congrArg Core.wraps eq
    rwa [Core.claim, if_pos small] at wraps
  · have there := counted.mem_of_claim (Multiset.mem_add.mpr (.inr claim))
    exact ⟨eq ▸ before.release exact_ there, congrArg Core.wraps eq⟩

variable [CcReal F] {d : Dialled} {recv : ConnId → Option RecvBuffer} {receives : Nat → Nat}
  {regions : List (Nat × Mr)} {nextKey : Nat} {p p' : Pool Call (World F) Answer Reply}

/-- The window stays what it was made, and every step is a move. -/
theorem moved {ok : World F → World F → Prop} (run : Run (body cfg) ok
      (World.start d recv receives regions nextKey (makeCcFixedWindow window)) p)
    {a : Interleave.Act Call Answer} (hs : p.step (body cfg) a = some p') :
    p.shared.core.window = some window ∧ (p'.shared = p.shared ∨
      ∃ role t M M', Move cfg role t p.shared.core M p'.shared.core M') := by
  obtain ⟨held, each, fixed⟩ := run.allotted (fun s _ => s.core.window = some window)
    (fun _ _ => True) follows_body (fun _ => trivial) (fun _ _ _ _ _ _ _ _ => trivial) rfl
    (fun _ _ _ _ _ _ _ fixed move _ => (Move.window move).trans fixed)
  refine ⟨fixed, ?_⟩
  obtain ⟨-, -, ⟨-, -, same, -⟩ | ⟨th, t, -, -, M, M', -, -, -, -, move⟩⟩ :=
    Interleave.step_allotted follows_body (fun _ => trivial)
      (fun _ _ _ _ _ _ _ _ => trivial) hs each
  · exact .inl same
  · exact .inr ⟨_, t, M, M', move⟩

/-- What is counted was allowed, and there is still room for it. -/
theorem run_of_asksInTurn (passage : Passage (body cfg) (fun p _ => AsksInTurn p)
      (.start (World.start d recv receives regions nextKey (makeCcFixedWindow window))) p) :
    Run (body cfg) (fun s s' => ∀ x, Counts x s s' → s.core.window = some window →
        s.core.Room window x ∧ s.core.inflight x.1 + x.2 < 2 ^ 64)
      (World.start d recv receives regions nextKey (makeCcFixedWindow window)) p := by
  have finds := passage.finds (fun t call => guarded_window call)
    (fun x _ => not_counts x rfl) .start fun q q' before step asks x t between found acts => by
      obtain ⟨a, hs⟩ := step
      have run : Run (body cfg) (fun _ _ => True) _ q :=
        Run.start.further (Passage.mono (fun _ _ _ => trivial) before)
      obtain ⟨fixed, same | ⟨_, _, _, _, move⟩⟩ := moved run hs
      · exact same ▸ found
      · intro _ _
        refine (found fixed (asks.unwrapped x.1 x.2 t between)).move move fun bytes counts => ?_
        obtain ⟨u, other, between'⟩ := acts (x.1, bytes) counts
        exact other (asks.alone x.1 bytes x.2 u t between' between)
  refine Run.start.further (Passage.mono (fun q q' h x counts fixed => ?_) finds.2)
  obtain ⟨found, t, between⟩ := h.2 x counts
  have small := h.1.unwrapped x.1 x.2 t between
  exact ⟨found fixed small, small⟩

end

/-- In every run in which, in each direction, at most one submit is between `allow` and
`on_post` and its sum does not wrap, and in each direction: the bytes in flight are at
most the window, or exactly one operation is counted, which is larger than the window. -/
theorem window_binds {F : Type} [CcReal F] (cfg : RdmaConfig) (d : Dialled)
    (recv : ConnId → Option RecvBuffer) (receives : Nat → Nat) (regions : List (Nat × Mr))
    (nextKey window : Nat) {p : Pool Call (World F) Answer Reply}
    (run : Passage (body cfg) (fun p _ => AsksInTurn p)
      (.start (World.start d recv receives regions nextKey (makeCcFixedWindow window))) p)
    (dir : CcDirection) :
    p.shared.cc.inflightBytes dir ≤ window ∨
      ∃ bytes, window < bytes ∧ p.shared.cc.inflightBytes dir = bytes ∧
        (p.shared.counted.get dir).filter (0 < ·) = [bytes] := by
  have starts : Windowed window
      (World.start (F := F) d recv receives regions nextKey (makeCcFixedWindow window)).core := by
    intro dir
    exact .inl (by cases dir <;> exact Nat.zero_le _)
  obtain ⟨held, -, -, -, -, -, windowed⟩ := (run_of_asksInTurn run).allotted
    (fun s M => s.core.window = some window ∧ Sections d s.core M ∧
      Counted d.nums.length s.core M ∧ Exact s.core ∧ Windowed window s.core) (fun _ _ => True)
    follows_body (fun _ => trivial) (fun _ _ _ _ _ _ _ _ => trivial)
    ⟨rfl, .start d recv receives regions nextKey _, .start d recv receives regions nextKey _,
      .start d recv receives regions nextKey (.fixedWindow window), starts⟩
    fun call t s G M s' M' inv move roomy => by
      obtain ⟨fixed, sections, counted, exact_, windowed⟩ := inv
      obtain ⟨windowed', unwrapped⟩ := windowed.move move counted exact_
        fun x counts => roomy x counts fixed
      exact ⟨(Move.window move).trans fixed, .move move sections,
        .move move sections.toConfined counted, .move move unwrapped counted exact_, windowed'⟩
  refine (windowed dir).imp id fun h => ?_
  obtain ⟨bytes, larger, inflight, only⟩ := h
  refine ⟨bytes, larger, inflight, ?_⟩
  have perm : ((p.shared.counted.get dir).filter (0 < ·)).Perm [bytes] := by
    apply Multiset.coe_eq_coe.mp
    rw [← Multiset.filter_coe]
    exact only
  exact List.perm_singleton.mp perm

/-- A write larger than the window of ten bytes goes out alone, and the next one has to
wait. -/
theorem window_binds_large :
    ∃ p, Passage (body Bench.eager) (fun p _ => AsksInTurn p)
        (.start (Bench.world (makeCcFixedWindow 10))) p ∧ p.Quiet ∧
      p.shared.cc.inflightBytes .write = 12 ∧
      (p.shared.counted.get .write).filter (0 < ·) = [12] := by
  obtain ⟨p, passage, quiet, inflight⟩ := Passage.of_enact (body Bench.eager)
    (fun p _ => p.Serial ∧ ∀ th ∈ p.threads, ∀ op ∈ th.call.batch,
      p.shared.cc.inflightBytes (directionOf op) + op.length < 2 ^ 64)
    (Bench.world (makeCcFixedWindow 10))
    [([.time 0, .code 0],
        [.spawn (.submit (some 0) [Bench.write 0 12]), .run 0 13,
          .spawn (.submit (some 1) [Bench.write 1 1]), .run 1 8])]
    (fun p => p.Quiet ∧ p.shared.cc.inflightBytes .write = 12) (by decide +kernel)
  have run : Passage (body Bench.eager) (fun p _ => AsksInTurn p)
      (.start (Bench.world (makeCcFixedWindow 10))) p := by
    refine Passage.mono (fun p _ h => ?_) passage
    refine ⟨fun _ _ _ _ _ first second => h.1.eq first second, fun d bytes t between => ?_⟩
    obtain ⟨th, -, there, -, ⟨op, member, is, -⟩, -⟩ := between
    cases is
    exact h.2 th (List.mem_of_getElem? there) op member
  rcases window_binds Bench.eager Bench.dialled _ _ _ _ 10 run .write with
    within | ⟨bytes, -, counted, only⟩
  · omega
  · have twelve : bytes = 12 := by omega
    exact ⟨p, run, quiet, inflight, twelve ▸ only⟩

/-- Two submits on different connections are both allowed six bytes of a window of ten
before either is counted. -/
theorem window_exceeded :
    ∃ p, Run (body Bench.eager) (fun _ _ => True) (Bench.world (makeCcFixedWindow 10)) p ∧
      p.Quiet ∧ p.shared.cc.inflightBytes .write = 12 ∧ p.shared.counted.get .write = [6, 6] := by
  exact Run.of_enact _ _ _
    [([.time 0, .code 0],
        [.spawn (.submit (some 0) [Bench.write 0 6]), .spawn (.submit (some 1) [Bench.write 1 6]),
          .run 0 7, .run 1 7, .run 0 6, .run 1 6])]
    _ (by decide +kernel)

end Hux.Rdma
