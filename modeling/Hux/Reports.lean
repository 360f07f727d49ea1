import Hux.Output
import Hux.Sections

/-!
# What poll returns

The events that a call to `poll` returns are those it has reported, in order.
-/

namespace Hux.Rdma
open Interleave (Tid Pool Run Steps Puts steps_atom)

/-- The event a thread has put out by a line. -/
def Line.toldBy (t : Tid) : Line → Option CompletionEvent
  | .reported u _ _ _ ev => if u = t then some ev else none
  | _ => none

def toldBy {F : Type} (t : Tid) (s : World F) : List CompletionEvent :=
  s.log.filterMap (Line.toldBy t)

section
variable {F : Type} {α : Type} {t : Tid}

/-- Programs that report nothing. -/
def Silent (t : Tid) (p : Provider F α) : Prop := Steps (fun s s' => toldBy t s' = toldBy t s) p

theorem Idle.silent {p : Provider F α} (idle : Idle p) : Silent t p := by
  refine Steps.mono idle fun s s' same => ?_
  have log : s'.log = s.log := congrArg Core.log same
  rw [toldBy, log]
  rfl

theorem silent_exchange {f : World F → α × World F} (same : ∀ s, (f s).2.log = s.log) :
    Silent t (exchange f) := by
  refine steps_atom fun _ s _ _ _ step => ?_
  cases step
  rw [toldBy, same]
  rfl

theorem silent_lockQp (c : ConnId) : Silent t (lockQp c : Provider F (List QueuePair)) := by
  refine steps_atom fun _ s _ _ _ step => ?_
  split at step
  · cases step
  · cases step
    rfl

theorem silent_drainCq {max : Int} {mark : List Wc → World F → World F}
    (same : ∀ ws s, (mark ws s).log = s.log) : Silent t (drainCq max mark) := by
  unfold drainCq
  apply Steps.ite
  · exact trivial
  · refine steps_atom fun _ s _ _ _ step => ?_
    split at step
    · split at step
      · obtain ⟨x, -, eq⟩ := Option.map_eq_some_iff.mp step
        cases eq
        rw [toldBy, same]
        rfl
      · cases step
    · cases step
      rfl
    · cases step

theorem silent_popFront (c : ConnId) (i seq : Nat) :
    Silent t (popFront c i seq : Provider F (Option (Nat × InflightKey))) := by
  apply silent_exchange
  intro s
  split
  · rfl
  · split <;> rfl

theorem silent_findConn (w : Wc) : Silent t (findConn w : Provider F (Option ConnId)) := by
  apply silent_exchange
  intro s
  split <;> rfl

theorem silent_drawMore (max : Int) (taken : List Wc) :
    Silent t (drawMore max taken : Provider F (Status × List Wc)) := by
  unfold drawMore
  apply Steps.ite
  · apply Steps.bind
    · exact silent_drainCq fun _ _ => rfl
    · intro drawn
      cases drawn <;> exact trivial
  · exact trivial

theorem puts_report (c : ConnId) (i seq : Nat) (ev : CompletionEvent) :
    Puts (toldBy t) t (report c i seq ev : Provider F Unit) fun _ o => o = [ev] := by
  intro l r a b took threaded
  cases took with
  | atom step rest =>
    cases step
    cases rest
    obtain ⟨rfl, rfl⟩ := threaded
    refine ⟨[ev], ?_, rfl⟩
    simp [toldBy, World.report, Line.toldBy]

section
variable [CcReal F]

theorem silent_giveBack (key : InflightKey) (w : Wc) (completedAt : CcTime) :
    Silent t (giveBack key w completedAt : Provider F Unit) :=
  Steps.ite (silent_exchange fun _ => rfl) (silent_exchange fun _ => rfl)

theorem puts_retireLoop (c : ConnId) (i : Nat) (w : Wc) (completedAt : CcTime) (n : Nat) :
    Puts (toldBy t) t (retireLoop c i w completedAt n : Provider F _) fun evs o => o = evs := by
  induction n with
  | zero => exact .ret rfl
  | succ n ih =>
    apply Puts.after (silent_popFront c i _)
    intro front
    cases front with
    | none => exact .ret rfl
    | some x =>
      apply Puts.after (silent_giveBack x.2 w completedAt)
      intro _
      apply Puts.bind (puts_report c i x.1 _)
      rintro _ _ rfl
      apply Puts.bind ih
      rintro evs _ rfl
      exact .ret (by simp)

theorem puts_handle (w : Wc) :
    Puts (toldBy t) t (handle w : Provider F _) fun evs o => o = evs := by
  unfold handle
  split
  · exact .after (idle_noteVerified _ _).silent fun _ => .ret rfl
  · split
    · exact .after (idle_absorbReceive w).silent fun _ => .ret rfl
    · apply Puts.after (silent_findConn w)
      intro conn
      cases conn with
      | none => exact .ret rfl
      | some c =>
        have notes : Silent t (noteFailure c w : Provider F Unit) :=
          Steps.ite (idle_markFailed c).silent trivial
        apply Puts.after notes
        intro _
        apply Puts.after (silent_lockQp c)
        intro qps
        split
        · exact .after (silent_exchange fun _ => rfl) fun _ => .ret rfl
        · apply Puts.after idle_clock.silent
          intro completedAt
          apply Puts.bind (puts_retireLoop c _ w completedAt _)
          rintro evs _ rfl
          apply Puts.after (silent_exchange fun _ => rfl)
          intro _
          exact .ret (List.append_nil _)

theorem puts_handleLoop (ws : List Wc) :
    Puts (toldBy t) t (handleLoop ws : Provider F _) fun evs o => o = evs := by
  induction ws with
  | nil => exact .ret rfl
  | cons w rest ih =>
    apply Puts.bind (puts_handle w)
    rintro evs _ rfl
    apply Puts.bind ih
    rintro more _ rfl
    exact .ret (by simp)

theorem puts_poll (maxEvents : Nat) :
    Puts (toldBy t) t (poll maxEvents : Provider F _) fun r o => o = r.2 := by
  unfold poll
  split
  · exact .ret rfl
  · apply Puts.after (silent_exchange fun _ => rfl)
    intro taken
    apply Puts.after (silent_drawMore _ taken)
    intro r
    apply Puts.bind (puts_handleLoop r.2)
    rintro evs _ rfl
    exact .ret (List.append_nil _)

theorem puts_turn (maxEvents : Nat) :
    Puts (toldBy t) t (turn maxEvents : Provider F _) fun r o => o = r.2 := by
  have enters : Silent t (enterTurn : Provider F Unit) := by
    refine steps_atom fun _ s _ _ _ step => ?_
    split at step
    · cases step
    · cases step
      rfl
  apply Puts.after enters
  intro _
  apply Puts.bind (puts_poll maxEvents)
  rintro r _ rfl
  apply Puts.after (silent_exchange fun _ => rfl)
  intro _
  exact .ret (List.append_nil _)

/-- No thread puts out events of another. -/
theorem Move.toldBy {cfg : RdmaConfig} {role : Role} {u : Tid} {k k' : Core} {M M' : Multiset Res}
    (move : Move cfg role u k M k' M') (other : t ≠ u) :
    k'.log.filterMap (Line.toldBy t) = k.log.filterMap (Line.toldBy t) := by
  have notes {line : Line} (none_ : line.toldBy t = none) :
      (k.log ++ [line]).filterMap (Line.toldBy t) = k.log.filterMap (Line.toldBy t) := by
    simp [none_]
  cases move with
  | refuse | record => exact notes rfl
  | report => exact notes (if_neg (Ne.symm other))
  | _ => rfl

/-- In every run, what a call to `poll` has returned is what it has reported. -/
theorem polled_eq {cfg : RdmaConfig} {ok : World F → World F → Prop} {d : Dialled}
    {recv : ConnId → Option RecvBuffer} {receives : Nat → Nat} {regions : List (Nat × Mr)}
    {nextKey : Nat} {cc : CongestionController F} {p : Pool Call (World F) Answer Reply}
    (run : Run (body cfg) ok (World.start d recv receives regions nextKey cc) p) {maxEvents : Nat}
    {r : Reply} (done : p.returned t = some (.poll maxEvents, r)) :
    ∃ polled, r = .polled polled (toldBy t p.shared) := by
  have others : ∀ p p' u e,
      Run (body cfg) ok (World.start d recv receives regions nextKey cc) p →
      p.step (body cfg) (.run u e) = some p' → ∀ t ≠ u, toldBy t p'.shared = toldBy t p.shared := by
    intro p p' u e run hs t other
    obtain ⟨held, each, -⟩ := run_keeps (fun _ _ => True) (fun _ => True) trivial
      (fun _ _ _ _ _ => trivial) run fun _ _ => trivial
    obtain ⟨role, -, M, M', -, move⟩ := each.step hs
    exact move.toldBy other
  obtain ⟨l, took, threaded⟩ := run.threaded toldBy (fun _ => rfl) others done
  have puts : Puts (toldBy t) t (body cfg (.poll maxEvents) : Provider F Reply)
      fun r o => ∃ polled, r = .polled polled o := by
    apply Puts.bind (puts_turn maxEvents)
    rintro x _ rfl
    exact .ret ⟨x.1, by simp⟩
  obtain ⟨o, told, polled⟩ := puts l r [] _ took threaded
  rw [told]
  exact polled

end

end

end Hux.Rdma
