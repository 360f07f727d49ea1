import Hux.Mail
import Hux.Work

/-!
# Agreement on notifications

Two engines, joined so that each reads what the other had accepted, in order and
once. What one holds of a notification it sent is then true of the other.

* `Posting.requests_le`, `Posting.numbers_le`, `Posting.sent_le`: a step gives a
  number to at most one notification, which it sends at most once;
* `Sends`: as a sender, the engine settles a notification only for an answer that
  it read, or because it was never sent;
* `Reached`: what the two reach together.
-/

namespace Hux
open Interleave (Run Onward Pool weigh weigh_singleton weigh_zero weigh_cons weigh_add)
open Wire (Bytes)
open Multiset (insert_eq_cons mem_singleton mem_singleton_self mem_add)

section
variable {T : Transport} {W : Type}

/-! ## What a step does to numbers -/

def Remark.number : Remark → Option (RequestId × Nat × Bytes)
  | .numbered q id payload => some (q, id, payload)
  | _ => none

/-- The notifications that were recorded, each with its request, its number and
its payload. -/
def World.numbers (s : World T W) : List (RequestId × Nat × Bytes) :=
  s.remarks.filterMap Remark.number

theorem World.mem_numbers {s : World T W} {q : RequestId} {id : Nat} {payload : Bytes} :
    (q, id, payload) ∈ s.numbers ↔ .numbered q id payload ∈ s.remarks := by
  constructor
  · intro h
    obtain ⟨r, hr, h⟩ := List.mem_filterMap.mp h
    cases r <;> cases h
    exact hr
  · exact fun h => List.mem_filterMap.mpr ⟨_, h, rfl⟩

/-- One if the number was given out, and else none. -/
def out (n next : Nat) : Nat := if n < next then 1 else 0

theorem out_succ (n next : Nat) : out n (next + 1) = out n next + if next = n then 1 else 0 := by
  unfold out
  split <;> split <;> split <;> omega

variable {next : Nat}

theorem out_mono (n : Nat) {next' : Nat} (h : next ≤ next') : out n next ≤ out n next' := by
  unfold out
  split <;> split <;> omega

/-- Whether it is this number, taken and not used. -/
def Duty.spare (q : RequestId) : Duty → Nat
  | .request q' => if q' = q then 1 else 0
  | _ => 0

def Duty.blank (id : Nat) : Duty → Nat
  | .number id' => if id' = id then 1 else 0
  | _ => 0

/-- Whether the notification of this number may still be sent for it. -/
def Duty.unsent (id : Nat) : Duty → Nat
  | .number id' | .send _ id' _ => if id' = id then 1 else 0
  | _ => 0

variable {s s' : World T W} {M M' F : Multiset Duty} {setup : Setup W}

theorem NotesUntouched.numbers (h : NotesUntouched s s') : s'.numbers = s.numbers := by
  obtain ⟨l, remarks, gates⟩ := h.remarks
  have none : l.filterMap Remark.number = [] := by
    refine List.filterMap_eq_nil_iff.mpr fun r hr => ?_
    have := gates r hr
    cases r <;> first | rfl | cases this
  rw [World.numbers, World.numbers, remarks, List.filterMap_append, none, List.nil_append]

namespace Posting

theorem numbers_subset (move : Posting setup s M s' M') : s.numbers ⊆ s'.numbers := by
  cases move with
  | untouched step | take _ _ step => rw [step.numbers]; exact List.Subset.refl _
  | await => exact List.subset_cons_self _ _
  | _ => exact List.Subset.refl _

theorem nextNotify_le (move : Posting setup s M s' M') : s.nextNotify ≤ s'.nextNotify := by
  cases move with
  | untouched step | take _ _ step => exact step.nextNotify.ge
  | nextNotify => exact Nat.le_succ _
  | _ => exact le_rfl

/-- A request number is given out once, and used once. -/
theorem requests_le (move : Posting setup s M s' M') (q : RequestId) :
    s'.numbers.countP (·.1 = q) + weigh (Duty.spare q) M' + out q s.ledger.nextRequest ≤
      s.numbers.countP (·.1 = q) + weigh (Duty.spare q) M + out q s'.ledger.nextRequest := by
  cases move with
  | untouched step | take _ _ step => simp [step.numbers, step.nextRequest, Duty.spare]
  | nextId =>
    have next := out_succ q s.ledger.nextRequest
    simp only [World.numbers, Ledger.nextId, weigh_singleton, weigh_zero,
      Duty.spare, next]
    omega
  | @await t id q' r payload waiting clean =>
    have same : (s.ledger.awaitAck t id q' r).nextRequest = s.ledger.nextRequest := rfl
    simp only [World.numbers, Remark.number, List.filterMap_cons, List.countP_cons,
      insert_eq_cons, weigh_cons, weigh_singleton, Duty.spare, same,
      decide_eq_true_eq]
    omega
  | poll => simp [World.numbers, weigh_letters (f := Duty.spare _) fun _ => rfl]
  | push | heed => simp [World.numbers, Remark.number, List.filterMap_cons, Duty.spare]
  | _ => simp [World.numbers, Duty.spare, Ledger.put]

/-- So is the number of a notification. -/
theorem numbers_le (move : Posting setup s M s' M') (id : Nat) :
    s'.numbers.countP (·.2.1 = id) + weigh (Duty.blank id) M' + out id s.nextNotify ≤
      s.numbers.countP (·.2.1 = id) + weigh (Duty.blank id) M + out id s'.nextNotify := by
  cases move with
  | untouched step | take _ _ step => simp [step.numbers, step.nextNotify, Duty.blank]
  | nextNotify =>
    have next := out_succ id s.nextNotify
    simp only [World.numbers, weigh_singleton, weigh_zero, Duty.blank, next]
    omega
  | await =>
    simp only [World.numbers, Remark.number, List.filterMap_cons, List.countP_cons,
      insert_eq_cons, weigh_cons, weigh_singleton, Duty.blank,
      decide_eq_true_eq]
    omega
  | poll => simp [World.numbers, weigh_letters (f := Duty.blank _) fun _ => rfl]
  | push | heed => simp [World.numbers, Remark.number, List.filterMap_cons, Duty.blank]
  | _ => simp [World.numbers, Duty.blank]

/-- Nor can a notification be sent for it more often. -/
theorem unsent_le (move : Posting setup s M s' M') (id : Nat) :
    weigh (Duty.unsent id) M' + out id s.nextNotify ≤
      weigh (Duty.unsent id) M + out id s'.nextNotify := by
  cases move with
  | untouched step | take _ _ step => simp [step.nextNotify, Duty.unsent]
  | nextNotify => simp [out_succ, Duty.unsent, Nat.add_comm]
  | await => simp [Duty.unsent]
  | poll => simp [weigh_letters (f := Duty.unsent _) fun _ => rfl]
  | _ => simp [Duty.unsent]

variable {id : Nat} {q : RequestId}

theorem pending (move : Posting setup s M s' M') (waits : (id, q) ∈ s'.ledger.notifyPending) :
    (id, q) ∈ s.ledger.notifyPending ∨ ∃ payload, (q, id, payload) ∈ s'.numbers := by
  cases move with
  | untouched step | take _ _ step => exact .inl (step.pending waits)
  | await =>
    rcases List.mem_append.mp waits with old | new
    · exact .inl (List.mem_of_mem_filter old)
    · cases List.mem_singleton.mp new
      exact .inr ⟨_, List.mem_cons_self⟩
  | _ => exact .inl waits

/-- What a thread takes on, it takes on for a reason. -/
theorem to_send (move : Posting setup s M s' M') {payload : Bytes} (new : .send q id payload ∈ M') :
    (q, id, payload) ∈ s'.numbers := by
  cases move with
  | await =>
    cases mem_singleton.mp new
    exact List.mem_cons_self
  | _ => simp at new

theorem to_take (move : Posting setup s M s' M') {ack : Bool} {conn : Option ConnId}
    (new : .taken q id ack conn ∈ M') :
    (id, q) ∈ s.ledger.notifyPending ∧ ∃ m, .letter m ∈ M ∧ m.Answers ack id := by
  cases move with
  | take answers waiting =>
    cases mem_singleton.mp new
    exact ⟨waiting, _, mem_singleton_self _, answers⟩
  | _ => simp at new

theorem to_settle (move : Posting setup s M s' M') {ack : Bool} (new : .settle q ack ∈ M') :
    ∃ id conn, .taken q id ack conn ∈ M := by
  cases move with
  | heed =>
    cases mem_singleton.mp new
    exact ⟨_, _, mem_singleton_self _⟩
  | _ => simp at new

/-- A notification looks answered only once it is settled, or cannot be sent. -/
theorem notes (move : Posting setup s M s' M') (q : RequestId) :
    (request (.note q) s).NotAnswering (request (.note q) s') ∨
      .settle q true ∈ M ∧ request (.note q) s' = (request (.note q) s).finishSuccess ∨
      (.settle q false ∈ M ∨ ∃ id status, .failed q id status ∈ M) ∧
        ∃ e, request (.note q) s' = (request (.note q) s).fail e := by
  cases move with
  | untouched step | take _ _ step => exact .inl (step.notes q)
  | @await t id q' r payload waiting clean =>
    by_cases this : q = q'
    · subst this
      refine .inl ⟨by simp [request, Ledger.awaitAck, waiting], fun now => ?_⟩
      simp [request, Ledger.awaitAck] at now
      simp [ErrorInfo.ok, now] at clean
    · exact .inl (by simpa [request, Ledger.awaitAck, this] using .refl _)
  | @succeed t q' =>
    by_cases this : q = q'
    · subst this
      exact .inr (.inl ⟨by simp, by simp [request]⟩)
    · exact .inl (by simpa [request, this] using .refl _)
  | @refuse t q' e =>
    by_cases this : q = q'
    · subst this
      exact .inr (.inr ⟨.inl (by simp), e, by simp [request]⟩)
    · exact .inl (by simpa [request, this] using .refl _)
  | @fail t q' id status e =>
    by_cases this : q = q'
    · subst this
      exact .inr (.inr ⟨.inr ⟨id, status, by simp⟩, e, by simp [request]⟩)
    · exact .inl (by simpa [request, this] using .refl _)
  | _ => exact .inl (.refl _)

/-- A notification ends well only for an acknowledgement. -/
theorem succeeded (move : Posting setup s M s' M')
    (now : (request (.note q) s').state = .succeeded) :
    (request (.note q) s).state = .succeeded ∨ .settle q true ∈ M := by
  rcases move.notes q with notFull | ⟨held, -⟩ | ⟨-, e, failed⟩
  · exact .inl (notFull.succeeded now)
  · exact .inr held
  · rw [failed] at now
    unfold Request.fail at now
    split at now
    · exact .inl now
    · cases now

/-- It ends as refused only for a refusal, or because it could not be sent. -/
theorem refused (move : Posting setup s M s' M')
    (now : (request (.note q) s').error.status = .resourceExhausted) :
    (request (.note q) s).error.status = .resourceExhausted ∨ .settle q false ∈ M ∨
      ∃ id status, .failed q id status ∈ M := by
  rcases move.notes q with notFull | ⟨-, finished⟩ | ⟨held, -⟩
  · exact .inl (notFull.refused now)
  · rw [finished] at now
    unfold Request.finishSuccess at now
    split at now <;> exact .inl now
  · exact .inr held

end Posting

/-! ## As a sender -/

variable {s s' : World T.logged W}

/-- What a step appends to the letters that were sent: the notification it was to
send, or none at all. -/
theorem Posting.sent (move : Posting setup s M s' M') :
    ∃ l, s'.transport.2.sent = s.transport.2.sent ++ l ∧
      ((∀ x ∈ l, x.noted = none) ∨
        ∃ q id payload, M = {.send q id payload} ∧ M' = 0 ∧
          l = [(ControlType.notification.code, encodeU64 id ++ payload)]) := by
  have none {σ : T.logged.State} (same : σ.2.sent = s.transport.2.sent) :
      ∃ l, σ.2.sent = s.transport.2.sent ++ l ∧ ((∀ x ∈ l, x.noted = none) ∨
        ∃ q id payload, M = {.send q id payload} ∧ M' = 0 ∧
          l = [(ControlType.notification.code, encodeU64 id ++ payload)]) :=
    ⟨[], by simp [same], .inl (by simp)⟩
  cases move with
  | untouched step | take _ _ step =>
    obtain ⟨-, l, sent, others⟩ := step.contact.mailbox
    exact ⟨l, sent, .inl fun x hx => (others x hx).1⟩
  | @send q id payload _ _ _ _ answer =>
    exact ⟨_, (sendControl_mailbox answer).2, .inr ⟨q, id, payload, rfl, rfl, rfl⟩⟩
  | sendFails error answer => exact none (by simp [(sendControl_mailbox answer).2, error])
  | poll answer => exact none (pollControl_mailbox answer).1
  | @answer id ack _ _ _ _ _ answer =>
    refine ⟨_, (sendControl_mailbox answer).2, .inl fun x hx => ?_⟩
    split at hx
    · cases List.mem_singleton.mp hx
      exact noted_answer ack _
    · cases hx
  | _ => exact none rfl

theorem Posting.read (move : Posting setup s M s' M') :
    s.transport.2.read <+: s'.transport.2.read := by
  cases move with
  | untouched step | take _ _ step => exact step.contact.mailbox.1 ▸ List.prefix_refl _
  | send answer | sendFails _ answer | answer answer =>
    exact (sendControl_mailbox answer).1 ▸ List.prefix_refl _
  | poll answer => exact ⟨_, (pollControl_mailbox answer).2.symm⟩
  | _ => exact List.prefix_refl _

theorem Posting.letter (move : Posting setup s M s' M') {m : ControlMessage}
    (new : .letter m ∈ M') : m.letter ∈ s'.transport.2.read := by
  cases move with
  | @poll _ _ _ r σ answer =>
    have hm : m ∈ r.2 := by simpa using new
    dsimp only
    rw [(pollControl_mailbox answer).2]
    exact List.mem_append_right _ (List.mem_map.mpr ⟨m, hm, rfl⟩)
  | _ => simp at new

/-- A notification is sent at most once for its number. -/
theorem Posting.sent_le (move : Posting setup s M s' M')
    (small : ∀ q id payload, .send q id payload ∈ M → id < 2 ^ 64) (id : Nat) :
    tally Letter.noted s'.transport.2.sent id + weigh (Duty.unsent id) M' + out id s.nextNotify ≤
      tally Letter.noted s.transport.2.sent id + weigh (Duty.unsent id) M +
        out id s'.nextNotify := by
  obtain ⟨l, sent, none | ⟨q, id', payload, rfl, rfl, rfl⟩⟩ := move.sent
  · have rest := move.unsent_le id
    rw [sent, tally_append, tally_eq_zero none]
    omega
  · have letter := noted_note (small q id' payload (by simp)) payload
    have next : out id s.nextNotify ≤ out id s'.nextNotify := out_mono id move.nextNotify_le
    rw [sent, tally_append, tally_singleton, letter]
    simp only [Option.some.injEq, weigh_zero, weigh_singleton, Duty.unsent]
    omega

/-- The engine read an answer to the notification. -/
def Replied (q : RequestId) (ack : Bool) (s : World T.logged W) : Prop :=
  ∃ id payload, (q, id, payload) ∈ s.numbers ∧
    ∃ x ∈ s.transport.2.read, x.answered ack = some id

/-- The number was given out, and no notification was or can be sent for it. -/
def Unsent (id : Nat) (s : World T.logged W) (M : Multiset Duty) : Prop :=
  id < s.nextNotify ∧ tally Letter.noted s.transport.2.sent id + weigh (Duty.unsent id) M = 0

/-- The notification went nowhere. -/
def Dropped (q : RequestId) (s : World T.logged W) (M : Multiset Duty) : Prop :=
  ∃ id payload, (q, id, payload) ∈ s.numbers ∧ Unsent id s M

/-- With what threads have still to send and to act on. -/
structure Sends (s : World T.logged W) (M : Multiset Duty) : Prop where
  requests : ∀ q, s.numbers.countP (·.1 = q) + weigh (Duty.spare q) M ≤ out q s.ledger.nextRequest
  numbers : ∀ id, s.numbers.countP (·.2.1 = id) + weigh (Duty.blank id) M ≤ out id s.nextNotify
  sent : ∀ id, tally Letter.noted s.transport.2.sent id + weigh (Duty.unsent id) M ≤
    out id s.nextNotify
  content : ∀ x ∈ s.transport.2.sent, ∀ id, x.noted = some id →
    ∃ q, (q, id, x.2.drop kNotificationHeaderBytes) ∈ s.numbers
  send : ∀ q id payload, .send q id payload ∈ M → (q, id, payload) ∈ s.numbers
  failed : ∀ q id status, .failed q id status ∈ M → Dropped q s M
  pending : ∀ id q, (id, q) ∈ s.ledger.notifyPending → ∃ payload, (q, id, payload) ∈ s.numbers
  letters : ∀ m, .letter m ∈ M → m.letter ∈ s.transport.2.read
  taken : ∀ q id ack conn, .taken q id ack conn ∈ M → Replied q ack s
  settle : ∀ q ack, .settle q ack ∈ M → Replied q ack s
  succeeded : ∀ q, (request (.note q) s).state = .succeeded → Replied q true s
  refused : ∀ q, (request (.note q) s).error.status = .resourceExhausted →
    Replied q false s ∨ Dropped q s M

theorem out_le_one (n next : Nat) : out n next ≤ 1 := by
  unfold out
  split <;> omega

theorem out_pos {n : Nat} (h : 0 < out n next) : n < next := by
  by_contra this
  simp [out, this] at h

theorem out_eq_one {n : Nat} (h : n < next) : out n next = 1 := if_pos h

theorem weigh_pos {f : Duty → Nat} {x : Duty} (h : x ∈ M) (pos : 0 < f x) : 0 < weigh f M := by
  obtain ⟨M, rfl⟩ := Multiset.exists_cons_of_mem h
  rw [weigh_cons]
  omega

theorem Replied.later {q : RequestId} {ack : Bool} (h : Replied q ack s)
    (move : Posting setup s M s' M') : Replied q ack s' := by
  obtain ⟨id, payload, told, x, hx, answers⟩ := h
  exact ⟨id, payload, move.numbers_subset told, x, move.read.subset hx, answers⟩

theorem eq_of_countP_le {α : Type} {P : α → Bool} {l : List α} (once : l.countP P ≤ 1) {a b : α}
    (ha : a ∈ l) (hb : b ∈ l) (pa : P a = true) (pb : P b = true) : a = b := by
  have ha' := List.mem_filter.mpr ⟨ha, pa⟩
  have hb' := List.mem_filter.mpr ⟨hb, pb⟩
  rw [List.countP_eq_length_filter] at once
  obtain ⟨x, alone⟩ := List.length_eq_one_iff.mp
    (Nat.le_antisymm once (List.length_pos_of_mem ha'))
  rw [alone, List.mem_singleton] at ha' hb'
  rw [ha', hb']

namespace Sends

variable {q : RequestId} {id : Nat}

theorem small (h : Sends s (F + M)) (few : s.nextNotify ≤ 2 ^ 64) {payload : Bytes}
    (held : .send q id payload ∈ M) : id < 2 ^ 64 := by
  have pos : 0 < weigh (Duty.unsent id) M := weigh_pos held (by simp [Duty.unsent])
  have bound := h.sent id
  rw [weigh_add] at bound
  have given : 0 < out id s.nextNotify := by omega
  exact Nat.lt_of_lt_of_le (out_pos given) few

theorem unsent (h : Sends s (F + M)) (few : s.nextNotify ≤ 2 ^ 64)
    (move : Posting setup s M s' M') (old : Unsent id s (F + M)) : Unsent id s' (F + M') := by
  have next := move.nextNotify_le
  have le := move.sent_le (fun _ _ _ held => h.small few held) id
  obtain ⟨given, none⟩ := old
  have given' : id < s'.nextNotify := by omega
  rw [out_eq_one given, out_eq_one given'] at le
  rw [weigh_add] at none
  refine ⟨given', ?_⟩
  rw [weigh_add]
  omega

theorem dropped (h : Sends s (F + M)) (few : s.nextNotify ≤ 2 ^ 64)
    (move : Posting setup s M s' M') (old : Dropped q s (F + M)) : Dropped q s' (F + M') := by
  obtain ⟨id, payload, told, unsent⟩ := old
  exact ⟨id, payload, move.numbers_subset told, h.unsent few move unsent⟩

/-- A notification that could not be sent is not sent again. -/
theorem fails (h : Sends s (F + M)) (move : Posting setup s M s' M') {status : Status}
    (new : .failed q id status ∈ M') : Dropped q s' (F + M') := by
  cases move with
  | @sendFails q' id' payload _ _ _ _ status' error answer =>
    cases mem_singleton.mp new
    have before := h.sent id
    have bound := out_le_one id s.nextNotify
    rw [weigh_add, weigh_singleton, Duty.unsent, if_pos rfl] at before
    have given : 0 < out id s.nextNotify := by omega
    refine ⟨id, payload, h.send q id payload (by simp), out_pos given, ?_⟩
    have sent := (sendControl_mailbox answer).2
    rw [if_neg error, List.append_nil] at sent
    have nothing : Duty.unsent id (.failed q id status) = 0 := rfl
    rw [weigh_add, weigh_singleton, nothing]
    dsimp only
    rw [sent]
    omega
  | _ => simp at new

theorem posting (h : Sends s (F + M)) (few : s.nextNotify ≤ 2 ^ 64)
    (move : Posting setup s M s' M') : Sends s' (F + M') where
  requests := by
    intro q
    have before := h.requests q
    have le := move.requests_le q
    rw [weigh_add] at before ⊢
    omega
  numbers := by
    intro id
    have before := h.numbers id
    have le := move.numbers_le id
    rw [weigh_add] at before ⊢
    omega
  sent := by
    intro id
    have before := h.sent id
    have le := move.sent_le (fun _ _ _ held => h.small few held) id
    rw [weigh_add] at before ⊢
    omega
  content := by
    intro x hx id number
    obtain ⟨l, sent, kinds⟩ := move.sent
    rw [sent] at hx
    rcases List.mem_append.mp hx with old | new
    · obtain ⟨q, told⟩ := h.content x old id number
      exact ⟨q, move.numbers_subset told⟩
    rcases kinds with none | ⟨q, id', payload, rfl, rfl, rfl⟩
    · rw [none x new] at number
      cases number
    · cases List.mem_singleton.mp new
      rw [noted_note (h.small few (mem_singleton_self _))] at number
      cases number
      refine ⟨q, move.numbers_subset ?_⟩
      simpa [encodeU64, kNotificationHeaderBytes] using h.send q id payload (by simp)
  send := by
    intro q id payload held
    rcases mem_add.mp held with old | new
    · exact move.numbers_subset (h.send q id payload (mem_add.mpr (.inl old)))
    · exact move.to_send new
  failed := by
    intro q id status held
    rcases mem_add.mp held with old | new
    · exact h.dropped few move (h.failed q id status (mem_add.mpr (.inl old)))
    · exact h.fails move new
  pending := by
    intro id q waits
    rcases move.pending waits with old | new
    · obtain ⟨payload, told⟩ := h.pending id q old
      exact ⟨payload, move.numbers_subset told⟩
    · exact new
  letters := by
    intro m held
    rcases mem_add.mp held with old | new
    · exact move.read.subset (h.letters m (mem_add.mpr (.inl old)))
    · exact move.letter new
  taken := by
    intro q id ack conn held
    rcases mem_add.mp held with old | new
    · exact (h.taken q id ack conn (mem_add.mpr (.inl old))).later move
    · obtain ⟨waits, m, held, answers⟩ := move.to_take new
      obtain ⟨payload, told⟩ := h.pending id q waits
      have read := h.letters m (mem_add.mpr (.inr held))
      exact Replied.later ⟨id, payload, told, m.letter, read, answers.answered⟩ move
  settle := by
    intro q ack held
    rcases mem_add.mp held with old | new
    · exact (h.settle q ack (mem_add.mpr (.inl old))).later move
    · obtain ⟨id, conn, held⟩ := move.to_settle new
      exact (h.taken q id ack conn (mem_add.mpr (.inr held))).later move
  succeeded := by
    intro q now
    rcases move.succeeded now with old | held
    · exact (h.succeeded q old).later move
    · exact (h.settle q true (mem_add.mpr (.inr held))).later move
  refused := by
    intro q now
    rcases move.refused now with old | held | ⟨id, status, held⟩
    · exact (h.refused q old).imp (·.later move) (h.dropped few move)
    · exact .inl ((h.settle q false (mem_add.mpr (.inr held))).later move)
    · exact .inr (h.dropped few move (h.failed q id status (mem_add.mpr (.inr held))))

end Sends

theorem sends_start (dir : Directory W) (σ : T.State) :
    Sends (T := T) (World.start dir (σ, ⟨[], []⟩)) 0 := by
  constructor <;> simp [World.start, World.numbers, tally, request, weigh]

/-- In every run with fewer numbers than there are, the engine settles a
notification only for an answer to it, or because it was never sent. -/
theorem Run.sends [LaneCost W] {dir : Directory W} {σ : T.State}
    {ok : World T.logged W → World T.logged W → Prop}
    {p : Pool Call (World T.logged W) (Answer T.logged) Reply}
    (run : Run (Call.body T.logged setup) ok (World.start dir (σ, ⟨[], []⟩)) p)
    (few : p.shared.nextNotify ≤ 2 ^ 64) : ∃ M, Sends p.shared M := by
  obtain ⟨held, -, sends⟩ := run.invariant (fun s M => s.nextNotify ≤ 2 ^ 64 → Sends s M)
    (fun c t => dutiful_body setup c t) (fun _ => sends_start dir σ) (by
      intro t s F M s' M' h move _ few'
      have few : s.nextNotify ≤ 2 ^ 64 := move.nextNotify_le.trans few'
      exact (h few).posting few move)
  exact ⟨_, sends few⟩

/-- `notifications_` stays within its depth. -/
theorem Run.shallow {T : Transport} [LaneCost W] {dir : Directory W} {σ : T.State}
    {ok : World T W → World T W → Prop} {p : Pools T W}
    (run : Runs setup dir σ ok p) :
    p.shared.notifications.length ≤ setup.cfg.notifyQueueDepth := by
  obtain ⟨held, -, shallow⟩ := run.invariant
    (fun s _ => s.notifications.length ≤ setup.cfg.notifyQueueDepth)
    (fun c t => dutiful_body setup c t) (Nat.zero_le _) (by
      intro t s F M s' M' h move _
      cases move with
      | untouched step | take _ _ step => exact step.queue.trans h
      | push _ room =>
        rw [List.length_append, List.length_singleton]
        exact room
      | _ => exact h)
  exact shallow

end

/-! ## Two engines -/

section
variable {T T' : Transport} {W W' : Type}

/-- What either engine has read, the other had accepted, in that order. -/
def Joined (s : World T.logged W) (s' : World T'.logged W') : Prop :=
  s.transport.2.read <+: s'.transport.2.sent ∧ s'.transport.2.read <+: s.transport.2.sent

variable {s : World T.logged W} {s' : World T'.logged W'}

/-- The receiver cannot push a notification and turn it away, or push it twice. -/
theorem Joined.pushed_le {M' : Multiset Duty} (joined : Joined s s') (receives : Receives s' M')
    (id : Nat) : s'.pushed id + tally (Letter.answered false) s'.transport.2.sent id ≤
      tally Letter.noted s.transport.2.sent id := by
  have handled := receives.handled id
  have carried := tally_le (f := Letter.noted) joined.2 id
  omega

theorem Joined.payload {M M' : Multiset Duty} (joined : Joined s s') (sends : Sends s M)
    (receives : Receives s' M') {n : Notification} (pushed : n ∈ s'.pushes) {r : RequestId}
    {payload : Bytes} (told : (r, n.id, payload) ∈ s.numbers) : n.payload = payload := by
  obtain ⟨x, read, number, content⟩ := receives.content n pushed
  obtain ⟨r', told'⟩ := sends.content x (joined.2.subset read) n.id number
  have once := (Nat.le_add_right _ _).trans ((sends.numbers n.id).trans (out_le_one _ _))
  have same := eq_of_countP_le once told told' (by simp) (by simp)
  cases same
  exact content.symm

variable [LaneCost W] [LaneCost W']

/-- What two engines reach whose calls are interleaved, joined all the time. -/
inductive Reached (setup : Setup W) (setup' : Setup W') (s : World T.logged W)
    (s' : World T'.logged W') : Pool Call (World T.logged W) (Answer T.logged) Reply →
    Pool Call (World T'.logged W') (Answer T'.logged) Reply → Prop
  | start : Reached setup setup' s s' (.start s) (.start s')
  | left {p q p'} {a : Interleave.Act Call (Answer T.logged)}
      (before : Reached setup setup' s s' p q)
      (step : p.step (Call.body T.logged setup) a = some p') (joined : Joined p'.shared q.shared) :
      Reached setup setup' s s' p' q
  | right {p q q'} {a : Interleave.Act Call (Answer T'.logged)}
      (before : Reached setup setup' s s' p q)
      (step : q.step (Call.body T'.logged setup') a = some q')
      (joined : Joined p.shared q'.shared) :
      Reached setup setup' s s' p q'

variable {setup : Setup W} {setup' : Setup W'} {dir : Directory W} {dir' : Directory W'}
  {σ : T.State} {σ' : T'.State} {p : Pool Call (World T.logged W) (Answer T.logged) Reply}
  {q : Pool Call (World T'.logged W') (Answer T'.logged) Reply}

/-- Each of the two is on a run of its own. -/
theorem Reached.runs (h : Reached setup setup' s s' p q) :
    Run (Call.body T.logged setup) (fun _ _ => True) s p ∧
      Run (Call.body T'.logged setup') (fun _ _ => True) s' q := by
  induction h with
  | start => exact ⟨.start, .start⟩
  | left _ step _ ih => exact ⟨.step _ ih.1 step trivial, ih.2⟩
  | right _ step _ ih => exact ⟨ih.1, .step _ ih.2 step trivial⟩

theorem Reached.joined (h : Reached setup setup' (World.start dir (σ, ⟨[], []⟩))
    (World.start dir' (σ', ⟨[], []⟩)) p q) : Joined p.shared q.shared := by
  cases h with
  | start => exact ⟨List.prefix_refl _, List.prefix_refl _⟩
  | left _ _ joined | right _ _ joined => exact joined

/-- One of the two goes on while the other stands still. -/
theorem Reached.lefts {p' : Pool Call (World T.logged W) (Answer T.logged) Reply}
    (h : Reached setup setup' s s' p q)
    (on : Onward (Call.body T.logged setup) (fun _ s => Joined s q.shared) p p') :
    Reached setup setup' s s' p' q := by
  induction on with
  | refl => exact h
  | tail _ last ih =>
    obtain ⟨⟨a, step⟩, joined⟩ := last
    exact .left ih step joined

theorem Reached.rights {q' : Pool Call (World T'.logged W') (Answer T'.logged) Reply}
    (h : Reached setup setup' s s' p q)
    (on : Onward (Call.body T'.logged setup') (fun _ s => Joined p.shared s) q q') :
    Reached setup setup' s s' p q' := by
  induction on with
  | refl => exact h
  | tail _ last ih =>
    obtain ⟨⟨a, step⟩, joined⟩ := last
    exact .right ih step joined

/-- What the receiver pushed for the notification is what was answered. -/
theorem notifications_agree
    (reached : Reached setup setup' (World.start dir (σ, ⟨[], []⟩))
      (World.start dir' (σ', ⟨[], []⟩)) p q)
    (few : p.shared.nextNotify ≤ 2 ^ 64) (r : RequestId) :
    ((request (.note r) p.shared).state = .succeeded →
      ∃ id payload n, .numbered r id payload ∈ p.shared.remarks ∧
        q.shared.pushes.filter (·.id = id) = [n] ∧ n.payload = payload) ∧
    ((request (.note r) p.shared).state = .failed →
      (request (.note r) p.shared).error.status = .resourceExhausted →
      ∃ id payload, .numbered r id payload ∈ p.shared.remarks ∧
        ∀ n ∈ q.shared.pushes, n.id ≠ id) ∧
    (∀ id payload id' payload', .numbered r id payload ∈ p.shared.remarks →
      .numbered r id' payload' ∈ p.shared.remarks → id = id' ∧ payload = payload') ∧
    q.shared.notifications.length ≤ setup'.cfg.notifyQueueDepth := by
  have joined := reached.joined
  obtain ⟨run, run'⟩ := reached.runs
  obtain ⟨M, sends⟩ := Run.sends run few
  obtain ⟨M', receives⟩ := Run.receives run'
  refine ⟨?_, ?_, ?_, Run.shallow run'⟩
  · intro succeeded
    obtain ⟨id, payload, told, x, read, answers⟩ := sends.succeeded r succeeded
    have acked := receives.acked id
    have some := tally_pos (joined.1.subset read) answers
    have le := joined.pushed_le receives id
    have once := (sends.sent id).trans (out_le_one _ _)
    have one : (q.shared.pushes.filter (·.id = id)).length = 1 := by
      rw [← List.countP_eq_length_filter]
      change q.shared.pushed id = 1
      omega
    obtain ⟨n, alone⟩ := List.length_eq_one_iff.mp one
    obtain ⟨pushed, number⟩ := List.mem_filter.mp (alone ▸ List.mem_singleton_self n)
    have number : n.id = id := by simpa using number
    subst number
    exact ⟨n.id, payload, n, World.mem_numbers.mp told, alone,
      joined.payload sends receives pushed told⟩
  · intro _ refused
    have none {id : Nat} (none : q.shared.pushed id = 0) : ∀ n ∈ q.shared.pushes, n.id ≠ id := by
      simpa [World.pushed] using List.countP_eq_zero.mp none
    rcases sends.refused r refused with ⟨id, payload, told, x, read, answers⟩ |
      ⟨id, payload, told, unsent⟩
    · have some := tally_pos (joined.1.subset read) answers
      have le := joined.pushed_le receives id
      have once := (sends.sent id).trans (out_le_one _ _)
      exact ⟨id, payload, World.mem_numbers.mp told, none (by omega)⟩
    · have le := joined.pushed_le receives id
      have nothing := unsent.2
      exact ⟨id, payload, World.mem_numbers.mp told, none (by omega)⟩
  · intro id payload id' payload' told told'
    have once := (Nat.le_add_right _ _).trans ((sends.requests r).trans (out_le_one _ _))
    have same := eq_of_countP_le once (World.mem_numbers.mpr told) (World.mem_numbers.mpr told')
      (by simp) (by simp)
    cases same
    exact ⟨rfl, rfl⟩

instance (s : World T.logged W) (s' : World T'.logged W') : Decidable (Joined s s') :=
  inferInstanceAs (Decidable (_ ∧ _))

end

namespace Pair

abbrev mailing : Transport := transport.logged

abbrev Mailers := Pool Call (World mailing ℚ) (Answer mailing) Reply

def start : World mailing ℚ := World.start directory (state, ⟨[], []⟩)

def idle : Mailers := .start start

/-- A letter comes in if the rest of the process has its turn. -/
def mail (x : Letter) : List (Answer mailing) :=
  [.nothing, .transport (.deliver 0 { type := x.1, payload := x.2, conn := some 0 }), .order [],
    .order [1]]

/-- Of two such engines, the first notifies; the second reads that and answers;
the first reads the answer. -/
def exchanges (P : Mailers → Mailers → Bool) : Bool :=
  (idle.play (Call.body mailing setup) (fun _ p => decide (Joined p.shared idle.shared))
    (mail (0, [])) [.spawn (.notify 1 [7]), .run 0 9]).any fun p =>
    (idle.play (Call.body mailing setup) (fun _ q => decide (Joined p.shared q.shared))
      (mail (ControlType.notification.code, encodeU64 1 ++ [7]))
      [.spawn .transportStep, .run 0 1, .spawn .progress, .run 1 12]).any fun q =>
    (p.play (Call.body mailing setup) (fun _ p => decide (Joined p.shared q.shared))
      (mail (ControlType.notificationAck.code, encodeU64 1))
      [.spawn .transportStep, .run 1 1, .spawn .progress, .run 2 13]).any fun p' => P p' q

theorem reached_of_exchanges {P : Mailers → Mailers → Bool} (played : exchanges P = true) :
    ∃ p q, P p q = true ∧
      Reached setup setup start start p q := by
  obtain ⟨p, first, played⟩ := Option.any_eq_true _ _ |>.mp played
  obtain ⟨q, second, played⟩ := Option.any_eq_true _ _ |>.mp played
  obtain ⟨p', third, shown⟩ := Option.any_eq_true _ _ |>.mp played
  refine ⟨p', q, shown, ?_⟩
  apply Reached.lefts
  · apply Reached.rights
    · exact Reached.start.lefts (.play first)
    · exact .play second
  · exact .play third

end Pair

theorem notifications_agree_pair :
    ∃ p q, Reached Pair.setup Pair.setup Pair.start Pair.start p q ∧
      (request (.note 1) p.shared).state = .succeeded ∧
      ∃ id payload n, .numbered 1 id payload ∈ p.shared.remarks ∧
        q.shared.pushes.filter (·.id = id) = [n] ∧ n.payload = payload := by
  obtain ⟨p, q, shown, reached⟩ := Pair.reached_of_exchanges (P := fun p _ =>
    decide ((request (.note 1) p.shared).state = .succeeded ∧ p.shared.nextNotify ≤ 2 ^ 64))
    (by decide +kernel)
  obtain ⟨succeeded, few⟩ := of_decide_eq_true shown
  exact ⟨p, q, reached, succeeded, (notifications_agree reached few 1).1 succeeded⟩

end Hux
