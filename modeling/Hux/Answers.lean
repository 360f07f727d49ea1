import Hux.Letters
import Hux.Work

/-!
# Who settles a notification

A notification ends well, or as refused, only for an answer the engine read: but
`take_notification` looks for the number alone, and notifications to all peers
are numbered together.

* `Heard`: what every step keeps of answers and of what was made of them;
* `FromPeer`: a step that acts on an answer of the peer addressed, if on any.
-/

namespace Hux
open Interleave (Tid Run Pool)
open Multiset (mem_add mem_singleton)

section
variable {T : Transport} {W : Type}

/-- The transports refuse a control message with other errors than the one that
stands for a full queue. -/
def Transport.NeverFull (T : Transport) : Prop :=
  ∀ prov c k b σ a r σ', T.sendControl prov c k b σ a = some (r, σ') → r ≠ .resourceExhausted

/-- A connection of the peer that the notification went to. -/
def Addressed (q : RequestId) (conn : Option ConnId) (s : World T W) : Prop :=
  ∃ c, conn = some c ∧ s.dir.hasConn c (request (.note q) s).peer = true

/-- If the step acts on an answer, it came in on such a connection. -/
def FromPeer (s s' : World T W) : Prop :=
  ∀ q conn ack, .answered q conn ack ∈ s'.remarks →
    .answered q conn ack ∈ s.remarks ∨ Addressed q conn s

/-- The engine acted on an answer of that peer. -/
def Answered (q : RequestId) (ack : Bool) (s : World T W) : Prop :=
  ∃ conn, .answered q conn ack ∈ s.remarks ∧ Addressed q conn s

/-- With what threads have still to do about answers. -/
structure Heard (s : World T W) (M : Multiset Duty) : Prop where
  taken : ∀ q id ack conn, .taken q id ack conn ∈ M → (request (.note q) s).made = true
  settle : ∀ q ack, .settle q ack ∈ M → Answered q ack s
  failed : ∀ q id status, .failed q id status ∈ M → status ≠ .resourceExhausted
  answered : ∀ q conn ack, .answered q conn ack ∈ s.remarks →
    (request (.note q) s).made = true ∧ Addressed q conn s
  succeeded : ∀ q, (request (.note q) s).state = .succeeded → Answered q true s
  refused : ∀ q, (request (.note q) s).error.status = .resourceExhausted → Answered q false s

variable {s s' : World T W} {M M' F : Multiset Duty} {q : RequestId} {setup : Setup W}

theorem Addressed.later {conn : Option ConnId} (h : Addressed q conn s)
    (made : (request (.note q) s).made = true) (lasting : Lasting s s') : Addressed q conn s' := by
  obtain ⟨c, rfl, mine⟩ := h
  refine ⟨c, rfl, ?_⟩
  rw [(lasting.ages _ made).peer]
  simpa [Directory.hasConn, (lasting.stays _ made).object] using mine

namespace Heard

theorem answered_later (h : Heard s M) {ack : Bool} (answered : Answered q ack s)
    (lasting : Lasting s s') (kept : s.remarks ⊆ s'.remarks) : Answered q ack s' := by
  obtain ⟨conn, told, mine⟩ := answered
  exact ⟨conn, kept told, mine.later (h.answered q conn ack told).1 lasting⟩

/-- What a step has to be asked. -/
theorem step (h : Heard s (F + M)) (lasting : Lasting s s') (kept : s.remarks ⊆ s'.remarks)
    (from_peer : FromPeer s s')
    (taken : ∀ q id ack conn, .taken q id ack conn ∈ M' → (request (.note q) s).made = true)
    (settle : ∀ q ack, .settle q ack ∈ M' → ∃ conn, .answered q conn ack ∈ s'.remarks)
    (failed : ∀ q id status, .failed q id status ∈ M' → status ≠ .resourceExhausted)
    (answered : ∀ q conn ack, .answered q conn ack ∈ s'.remarks →
      .answered q conn ack ∈ s.remarks ∨ (request (.note q) s).made = true)
    (succeeded : ∀ q, (request (.note q) s').state = .succeeded →
      (request (.note q) s).state = .succeeded ∨ Answered q true s)
    (refused : ∀ q, (request (.note q) s').error.status = .resourceExhausted →
      (request (.note q) s).error.status = .resourceExhausted ∨ Answered q false s) :
    Heard s' (F + M') := by
  have noted : ∀ q conn ack, .answered q conn ack ∈ s'.remarks →
      (request (.note q) s').made = true ∧ Addressed q conn s' := by
    intro q conn ack told
    have made : (request (.note q) s).made = true := by
      rcases answered q conn ack told with old | new
      · exact (h.answered q conn ack old).1
      · exact new
    refine ⟨by rw [(lasting.ages _ made).made]; exact made, ?_⟩
    rcases from_peer q conn ack told with old | new
    · exact (h.answered q conn ack old).2.later made lasting
    · exact Addressed.later new made lasting
  refine ⟨?_, ?_, ?_, noted, ?_, ?_⟩
  · intro q id ack conn held
    have made : (request (.note q) s).made = true := by
      rcases mem_add.mp held with old | new
      · exact h.taken q id ack conn (mem_add.mpr (.inl old))
      · exact taken q id ack conn new
    rw [(lasting.ages _ made).made]
    exact made
  · intro q ack held
    rcases mem_add.mp held with old | new
    · exact h.answered_later (h.settle q ack (mem_add.mpr (.inl old))) lasting kept
    · obtain ⟨conn, told⟩ := settle q ack new
      exact ⟨conn, told, (noted q conn ack told).2⟩
  · intro q id status held
    rcases mem_add.mp held with old | new
    · exact h.failed q id status (mem_add.mpr (.inl old))
    · exact failed q id status new
  · intro q now
    rcases succeeded q now with old | new
    · exact h.answered_later (h.succeeded q old) lasting kept
    · exact h.answered_later new lasting kept
  · intro q now
    rcases refused q now with old | new
    · exact h.answered_later (h.refused q old) lasting kept
    · exact h.answered_later new lasting kept

/-- A step that changes no notification and takes on nothing to be asked about. -/
theorem idle (h : Heard s (F + M)) (lasting : Lasting s s') (from_peer : FromPeer s s')
    (remarks : ∃ l, s'.remarks = l ++ s.remarks ∧ ∀ r ∈ l, ∀ q conn ack, r ≠ .answered q conn ack)
    (notes : ∀ q, (request (.note q) s).NotAnswering (request (.note q) s'))
    (taken : ∀ q id ack conn, .taken q id ack conn ∈ M' → (request (.note q) s).made = true)
    (settle : ∀ q ack, .settle q ack ∉ M')
    (failed : ∀ q id status, .failed q id status ∈ M' → status ≠ .resourceExhausted) :
    Heard s' (F + M') := by
  obtain ⟨l, told, other⟩ := remarks
  have kept : s.remarks ⊆ s'.remarks := by
    rw [told]
    exact List.subset_append_right _ _
  refine h.step lasting kept from_peer taken (fun q ack new => absurd new (settle q ack)) failed ?_
    (fun q now => .inl ((notes q).succeeded now)) fun q now => .inl ((notes q).refused now)
  intro q conn ack new
  rw [told] at new
  rcases List.mem_append.mp new with here | old
  · exact absurd rfl (other _ here q conn ack)
  · exact .inl old

/-- One notification is put. -/
theorem put (h : Heard s (F + M)) {t : Tid} {r : Request}
    (lasting : Lasting s { s with ledger := s.ledger.put t (.note q) r })
    (from_peer : FromPeer s { s with ledger := s.ledger.put t (.note q) r })
    (succeeded : r.state = .succeeded →
      (request (.note q) s).state = .succeeded ∨ Answered q true s)
    (refused : r.error.status = .resourceExhausted →
      (request (.note q) s).error.status = .resourceExhausted ∨ Answered q false s) :
    Heard { s with ledger := s.ledger.put t (.note q) r } (F + 0) := by
  refine h.step lasting (List.Subset.refl _) from_peer (by simp) (by simp) (by simp)
    (fun _ _ _ old => .inl old) ?_ ?_
  · intro q' now
    by_cases this : q' = q
    · subst this
      exact succeeded (by simpa [request] using now)
    · exact .inl (by simpa [request, this] using now)
  · intro q' now
    by_cases this : q' = q
    · subst this
      exact refused (by simpa [request] using now)
    · exact .inl (by simpa [request, this] using now)

theorem posting (notFull : T.NeverFull) (h : Heard s (F + M)) (move : Posting setup s M s' M')
    (from_peer : FromPeer s s') (lasting : Lasting s s') : Heard s' (F + M') := by
  have none (l : List Remark) : ∃ l', l = l' ++ l ∧ ∀ r ∈ l', ∀ q conn ack,
      r ≠ .answered q conn ack := ⟨[], rfl, by simp⟩
  have quiet {s₁ s₂ : World T W} (step : NotesUntouched s₁ s₂) : ∃ l, s₂.remarks = l ++ s₁.remarks ∧
      ∀ r ∈ l, ∀ q conn ack, r ≠ .answered q conn ack := by
    obtain ⟨l, told, gates⟩ := step.remarks
    refine ⟨l, told, ?_⟩
    rintro r hr q conn ack rfl
    cases gates _ hr
  cases move with
  | untouched step =>
    exact h.idle lasting from_peer (quiet step) step.notes (by simp) (by simp) (by simp)
  | nextId | nextNotify | send | turnAway | answer =>
    exact h.idle lasting from_peer (none _) (fun _ => .refl _) (by simp) (by simp) (by simp)
  | @await t id q r payload waiting clean =>
    refine h.idle lasting from_peer ⟨[_], rfl, by simp⟩ (fun q' => ?_) (by simp) (by simp) (by simp)
    by_cases this : q' = q
    · subst this
      constructor
      · simp [request, Ledger.awaitAck, waiting]
      · intro now
        simp [request, Ledger.awaitAck] at now
        simp [ErrorInfo.ok, now] at clean
    · simpa [request, Ledger.awaitAck, this] using .refl _
  | sendFails error answer =>
    refine h.idle lasting from_peer (none _) (fun _ => .refl _) (by simp) (by simp) ?_
    intro q id status held
    cases mem_singleton.mp held
    exact notFull _ _ _ _ _ _ _ _ answer
  | poll => exact h.idle lasting from_peer (none _) (fun _ => .refl _) (by simp) (by simp) (by simp)
  | push =>
    exact h.idle lasting from_peer ⟨[_], rfl, by simp⟩ (fun _ => .refl _) (by simp) (by simp)
      (by simp)
  | take answers waiting step =>
    refine h.idle lasting from_peer (quiet step) step.notes ?_ (by simp) (by simp)
    intro q id ack conn held
    cases mem_singleton.mp held
    exact lasting.pending _ waiting
  | @heed id q ack conn =>
    have made := h.taken q id ack conn (by simp)
    refine h.step lasting (List.subset_cons_self _ _) from_peer (by simp) ?_ (by simp) ?_
      (fun _ => .inl) fun _ => .inl
    · intro q' ack' held
      cases mem_singleton.mp held
      exact ⟨conn, List.mem_cons_self⟩
    · intro q' conn' ack' told
      rcases List.mem_cons.mp told with new | old
      · cases new
        exact .inr made
      · exact .inl old
  | @succeed t q =>
    refine h.put lasting from_peer (fun _ => .inr (h.settle q true (by simp))) fun now => .inl ?_
    unfold Request.finishSuccess at now
    split at now <;> exact now
  | @refuse t q e =>
    refine h.put lasting from_peer (fun now => .inl ?_) fun _ => .inr (h.settle q false (by simp))
    unfold Request.fail at now
    split at now
    · exact now
    · cases now
  | @fail t q id status e because =>
    have other := h.failed q id status (by simp)
    have change := (s.ledger.reqs (.note q)).notAnswering_fail (because ▸ other : e.status ≠ _)
    exact h.put lasting from_peer (fun now => .inl (change.succeeded now))
      fun now => .inl (change.refused now)

end Heard

theorem heard_start (dir : Directory W) (σ : T.State) : Heard (World.start dir σ) 0 := by
  refine ⟨?_, ?_, ?_, ?_, ?_, ?_⟩ <;> simp [World.start, request]

variable [LaneCost W]

/-- If answers are acted on only when they come in on a connection of the peer
addressed, then only such an answer makes a notification succeed, or fail as
refused. -/
theorem only_addressed_peer_settles (setup : Setup W) {dir : Directory W} (known : dir.Numbered)
    (notFull : T.NeverFull) (σ : T.State) {p : Pools T W}
    (run : Runs setup dir σ FromPeer p) (q : RequestId) :
    ((request (.note q) p.shared).state = .succeeded → Answered q true p.shared) ∧
      ((request (.note q) p.shared).state = .failed →
        (request (.note q) p.shared).error.status = .resourceExhausted →
          Answered q false p.shared) := by
  obtain ⟨held, -, heard⟩ := (Run.lasting known run).invariant Heard
    (fun c t => dutiful_body setup c t) (heard_start dir σ)
    fun _ _ _ _ _ _ h move met => h.posting notFull move met.1 met.2
  exact ⟨heard.succeeded q, fun _ => heard.refused q⟩

end

/-! ## Two peers -/

theorem neverFull_localTransport (paired : ProviderId → Bool) :
    (localTransport paired).NeverFull := by
  intro prov c k b σ a r σ' answer
  cases c with
  | none =>
    cases answer
    decide
  | some c =>
    cases answer
    decide

section
variable {T : Transport} {W : Type}

/-- Whether an answer that is noted came in on a connection of the peer
addressed. -/
def Remark.fromPeer (s : World T W) : Remark → Bool
  | .answered q conn _ => conn.any fun c => s.dir.hasConn c (request (.note q) s).peer
  | _ => true

instance (s s' : World T W) : Decidable (FromPeer s s') :=
  decidable_of_iff (∀ r ∈ s'.remarks, r ∈ s.remarks ∨ r.fromPeer s = true) (by
    constructor
    · intro h q conn ack told
      refine (h _ told).imp_right fun mine => ?_
      simpa [Addressed, Remark.fromPeer, Option.any_eq_true] using mine
    · intro h r told
      cases r with
      | answered q conn ack =>
        refine (h q conn ack told).imp_right fun mine => ?_
        simpa [Addressed, Remark.fromPeer, Option.any_eq_true] using mine
      | _ => exact .inr rfl)

end

namespace Pair

/-- The pair's engine with one more peer, on a connection of its own. -/
def wider : Directory ℚ :=
  { directory with
    peers := [1, 2]
    peerObjects := fun p =>
      if p = 2 then ⟨⟨1, 1, 3⟩, [⟨0, some 1, 1⟩]⟩ else directory.peerObjects p
    connected := fun p => p == 1 || p == 2
    nextPeer := 3
    nextConn := 2 }

/-- The acknowledgement of the first notification, on connection `c`. -/
def ackOn (c : ConnId) : LocalAct :=
  .deliver 0 { type := ControlType.notificationAck.code, payload := encodeU64 1, conn := some c }

/-- The first notification goes to peer 1; then that acknowledgement comes in,
and the engine makes progress. -/
def acked (c : ConnId) (check : World transport ℚ → World transport ℚ → Bool) : Option Pools :=
  (Pool.start (World.start wider state)).play (Call.body transport setup)
    (fun p p' => check p.shared p'.shared) [.nothing, .transport (ackOn c), .order [], .order [1],
      .order [2]]
    [.spawn (.notify 1 []), .run 0 9, .spawn .transportStep, .run 1 1, .spawn .progress, .run 2 14]

theorem run_of_acked (c : ConnId) (ok : World transport ℚ → World transport ℚ → Prop)
    [∀ s s', Decidable (ok s s')] (P : Pools → Prop) [DecidablePred P]
    (shown : ((acked c fun s s' => decide (ok s s')).any fun p => decide (P p)) = true) :
    ∃ p, Run (Call.body transport setup) ok (World.start wider state) p ∧ P p := by
  obtain ⟨p, found, shown⟩ := Option.any_eq_true _ _ |>.mp shown
  exact ⟨p, .further .start (Interleave.Onward.play found), of_decide_eq_true shown⟩

theorem numbered_wider : wider.Numbered := by
  rintro p (listed | up)
  · simp only [wider, List.mem_cons, List.not_mem_nil, or_false] at listed
    rcases listed with rfl | rfl <;> decide
  · simp only [wider, Bool.or_eq_true, beq_iff_eq] at up
    rcases up with rfl | rfl <;> decide

end Pair

/-- The acknowledgement comes from the peer addressed. -/
theorem only_addressed_peer_settles_pair :
    ∃ p, Run (Call.body Pair.transport Pair.setup) FromPeer (World.start Pair.wider Pair.state) p ∧
      (request (.note 1) p.shared).state = .succeeded ∧ Answered 1 true p.shared := by
  obtain ⟨p, run, succeeded⟩ := Pair.run_of_acked 0 FromPeer
    (fun p => (request (.note 1) p.shared).state = .succeeded) (by decide +kernel)
  exact ⟨p, run, succeeded, (only_addressed_peer_settles Pair.setup Pair.numbered_wider
    (neverFull_localTransport _) Pair.state run 1).1 succeeded⟩

/-- It comes from another peer, and the notification succeeds all the same. -/
theorem other_peer_settles_notification :
    ∃ p, Run (Call.body Pair.transport Pair.setup) (fun _ _ => True)
        (World.start Pair.wider Pair.state) p ∧
      (request (.note 1) p.shared).state = .succeeded ∧ (request (.note 1) p.shared).peer = 1 ∧
      p.shared.remarks = [.answered 1 (some 1) true, .numbered 1 1 []] ∧
      p.shared.dir.hasConn 1 1 = false ∧ p.shared.dir.hasConn 1 2 = true := by
  exact Pair.run_of_acked 1 _ _ (by decide +kernel)

end Hux
