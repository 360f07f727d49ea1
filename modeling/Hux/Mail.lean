import Hux.Letters

/-!
# What an engine reads and sends

The control messages a transport accepted from the engine and handed to it, kept
in order, and how many of which kind there can be of them.

* `Transport.logged`: any transport, with these two lists beside its own state;
* `Letter.noted`, `Letter.answered`: the number in a notification, in an answer;
* `Receives`: as a receiver, the engine pushes no more than it reads and answers
  no more than it pushed or turned away.
-/

namespace Hux
open Interleave (Run Pool weigh weigh_add weigh_singleton)
open Wire (Bytes)
open Multiset (ofList mem_coe mem_add mem_singleton)

/-- The type and the payload of a control message. -/
abbrev Letter := Nat × Bytes

def ControlMessage.letter (m : ControlMessage) : Letter := (m.type, m.payload)

/-- Accepted from the engine, and handed to it. -/
structure Mailbox where
  sent : List Letter
  read : List Letter

/-- The transport, with what it accepts and hands over written down. -/
abbrev Transport.logged (T : Transport) : Transport where
  State := T.State × Mailbox
  Answer := T.Answer
  offer p c op σ a := (T.offer p c op σ.1 a).map fun (r, σ') => (r, σ', σ.2)
  land p c op σ := (T.land p c op σ.1, σ.2)
  finish p c n refused σ a := (T.finish p c n refused σ.1 a).map fun (r, σ') => (r, σ', σ.2)
  poll p n σ a := (T.poll p n σ.1 a).map fun (r, σ') => (r, σ', σ.2)
  sendControl p c k b σ a :=
    (T.sendControl p c k b σ.1 a).map fun (r, σ') =>
      (r, σ', if r = .ok then { σ.2 with sent := σ.2.sent ++ [(k.code, b)] } else σ.2)
  broadcastControl p k b σ a :=
    (T.broadcastControl p k b σ.1 a).map fun (r, σ') =>
      (r, σ', { σ.2 with sent := σ.2.sent ++ List.replicate r.2.1 (k.code, b) })
  pollControl p n σ a :=
    (T.pollControl p n σ.1 a).map fun (r, σ') =>
      (r, σ', { σ.2 with read := σ.2.read ++ r.2.map (·.letter) })
  pollPeerArrivals p n σ a := (T.pollPeerArrivals p n σ.1 a).map fun (r, σ') => (r, σ', σ.2)
  connect p c b σ a := (T.connect p c b σ.1 a).map fun (r, σ') => (r, σ', σ.2)
  disconnect p c σ a := (T.disconnect p c σ.1 a).map fun (r, σ') => (r, σ', σ.2)
  alive p c σ := T.alive p c σ.1
  environment σ a := (T.environment σ.1 a).map fun σ' => (σ', σ.2)

/-! ## Letters -/

/-- The number of the notification it is. -/
def Letter.noted (x : Letter) : Option Nat :=
  if x.1 = ControlType.notification.code ∧ kNotificationHeaderBytes ≤ x.2.length then
    (decodeU64 (x.2.take kNotificationHeaderBytes)).toOption
  else none

/-- The number of the notification it answers. -/
def Letter.answered (ack : Bool) (x : Letter) : Option Nat :=
  if x.1 = (answerType ack).code then (decodeU64 x.2).toOption else none

variable {id : Nat}

theorem ControlMessage.Notifies.noted {m : ControlMessage} (h : m.Notifies id) :
    m.letter.noted = some id := by
  obtain ⟨type, long, decoded⟩ := h
  simp [Letter.noted, ControlMessage.letter, type, long, decoded, Except.toOption]

variable {ack : Bool}

theorem ControlMessage.Answers.answered {m : ControlMessage} (h : m.Answers ack id) :
    m.letter.answered ack = some id := by
  simp [Letter.answered, ControlMessage.letter, h.1, h.2, Except.toOption]

theorem answerType_code (ack : Bool) : (answerType ack).code ≠ ControlType.notification.code := by
  cases ack <;> decide

theorem answerType_inj {ack' : Bool} (h : (answerType ack).code = (answerType ack').code) :
    ack = ack' := by
  revert h
  revert ack ack'
  decide

theorem decodeU64_lt {b : Bytes} (h : decodeU64 b = .ok id) : id < 2 ^ 64 := by
  unfold decodeU64 at h
  split at h
  · cases h
  · cases h
    exact Wire.leAt_lt b 0 8

theorem decodeU64_encodeU64 (small : id < 2 ^ 64) (rest : Bytes) :
    decodeU64 (encodeU64 id ++ rest) = .ok id := by
  have long : ¬(encodeU64 id ++ rest).length < 8 := by simp [encodeU64]
  rw [decodeU64, if_neg long, encodeU64, Wire.leAt_head 8 id rest small]

/-- A notification goes out with its number. -/
theorem noted_note (small : id < 2 ^ 64) (payload : Bytes) :
    Letter.noted (ControlType.notification.code, encodeU64 id ++ payload) = some id := by
  have head : (encodeU64 id ++ payload).take kNotificationHeaderBytes = encodeU64 id ++ [] := by
    simp [encodeU64, kNotificationHeaderBytes]
  have long : kNotificationHeaderBytes ≤ (encodeU64 id ++ payload).length := by
    simp [encodeU64, kNotificationHeaderBytes]
  simp only [Letter.noted, long, and_self, if_true, head, decodeU64_encodeU64 small]
  rfl

theorem answered_answer (small : id < 2 ^ 64) (ack : Bool) :
    Letter.answered ack ((answerType ack).code, encodeU64 id) = some id := by
  have decoded := decodeU64_encodeU64 small []
  rw [List.append_nil] at decoded
  simp [Letter.answered, decoded, Except.toOption]

theorem answered_other {ack' : Bool} (other : ack' ≠ ack) :
    Letter.answered ack' ((answerType ack).code, encodeU64 id) = none := by
  refine if_neg fun same => other (answerType_inj same.symm)

theorem noted_answer (ack : Bool) (b : Bytes) : Letter.noted ((answerType ack).code, b) = none :=
  if_neg fun h => answerType_code ack h.1

theorem answered_note (ack : Bool) (b : Bytes) :
    Letter.answered ack (ControlType.notification.code, b) = none :=
  if_neg fun h => answerType_code ack h.symm

/-- How many letters have a number, as `f` reads it. -/
def tally (f : Letter → Option Nat) (l : List Letter) (id : Nat) : Nat := (l.filterMap f).count id

@[simp] theorem tally_append (f : Letter → Option Nat) (l l' : List Letter) (id : Nat) :
    tally f (l ++ l') id = tally f l id + tally f l' id := by
  simp [tally]

@[simp] theorem tally_singleton (f : Letter → Option Nat) (x : Letter) (id : Nat) :
    tally f [x] id = if f x = some id then 1 else 0 := by
  cases h : f x with
  | none => simp [tally, h]
  | some i => simp [tally, h, List.count_singleton]

variable {f : Letter → Option Nat} {l : List Letter}

theorem tally_eq_zero (none : ∀ x ∈ l, f x = none) (id : Nat) : tally f l id = 0 := by
  have empty : l.filterMap f = [] := List.filterMap_eq_nil_iff.mpr none
  simp [tally, empty]

theorem tally_pos {x : Letter} (hx : x ∈ l) (number : f x = some id) : 0 < tally f l id :=
  List.count_pos_iff.mpr (List.mem_filterMap.mpr ⟨x, hx, number⟩)

theorem tally_le {l' : List Letter} (first : l <+: l') (id : Nat) :
    tally f l id ≤ tally f l' id := by
  obtain ⟨more, rfl⟩ := first
  simp

/-! ## Steps -/

section
variable {T : Transport} {W : Type}

/-- Letters that are no notification and answer none. -/
def Letter.Other (x : Letter) : Prop := x.noted = none ∧ ∀ ack, x.answered ack = none

theorem other_of_type {k : ControlType} (h : k = .readyHandoff ∨ k = .regionInvalidate)
    (b : Bytes) :
    Letter.Other (k.code, b) := by
  have note : k.code ≠ ControlType.notification.code := by
    rcases h with rfl | rfl <;> decide
  have answer (ack : Bool) : k.code ≠ (answerType ack).code := by
    rcases h with rfl | rfl <;> cases ack <;> decide
  exact ⟨if_neg fun same => note same.1, fun ack => if_neg (answer ack)⟩

variable {σ σ' : T.logged.State}

/-- What is none of notifications' business leaves no letter that is. -/
theorem Contact.mailbox (h : Contact T.logged σ σ') :
    σ'.2.read = σ.2.read ∧ ∃ l, σ'.2.sent = σ.2.sent ++ l ∧ ∀ x ∈ l, Letter.Other x := by
  have still {σ' : T.logged.State} (same : σ'.2 = σ.2) : σ'.2.read = σ.2.read ∧
      ∃ l, σ'.2.sent = σ.2.sent ++ l ∧ ∀ x ∈ l, Letter.Other x := by
    rw [same]
    exact ⟨rfl, [], by simp, by simp⟩
  cases h with
  | refl => exact still rfl
  | land => exact still rfl
  | offer answer | finish answer | poll answer | pollPeerArrivals answer | connect answer
  | disconnect answer | environment answer =>
    obtain ⟨x, -, h⟩ := Option.map_eq_some_iff.mp answer
    cases h
    exact still rfl
  | @sendControl _ p c k b a r other answer =>
    obtain ⟨x, -, h⟩ := Option.map_eq_some_iff.mp answer
    cases h
    dsimp only
    split
    · refine ⟨rfl, _, rfl, ?_⟩
      simpa using other_of_type other b
    · exact still rfl
  | @broadcastControl _ p b a r answer =>
    obtain ⟨x, -, h⟩ := Option.map_eq_some_iff.mp answer
    cases h
    refine ⟨rfl, _, rfl, ?_⟩
    intro x hx
    rw [List.eq_of_mem_replicate hx]
    exact other_of_type (.inr rfl) b

theorem sendControl_mailbox {p : ProviderId} {c : Option ConnId} {k : ControlType} {b : Bytes}
    {a : T.Answer} {r : Status} (answer : T.logged.sendControl p c k b σ a = some (r, σ')) :
    σ'.2.read = σ.2.read ∧
      σ'.2.sent = σ.2.sent ++ if r = .ok then [(k.code, b)] else [] := by
  obtain ⟨x, -, h⟩ := Option.map_eq_some_iff.mp answer
  cases h
  dsimp only
  split <;> simp

theorem pollControl_mailbox {p : ProviderId} {n : Nat} {a : T.Answer}
    {r : Status × List ControlMessage} (answer : T.logged.pollControl p n σ a = some (r, σ')) :
    σ'.2.sent = σ.2.sent ∧ σ'.2.read = σ.2.read ++ r.2.map (·.letter) := by
  obtain ⟨x, -, h⟩ := Option.map_eq_some_iff.mp answer
  cases h
  exact ⟨rfl, rfl⟩

/-! ## As a receiver -/

def Remark.pushed : Remark → Option Notification
  | .queued n => some n
  | _ => none

/-- What was pushed onto `notifications_`, newest first. -/
def World.pushes (s : World T W) : List Notification := s.remarks.filterMap Remark.pushed

/-- How many of them have the number. -/
def World.pushed (s : World T W) (id : Nat) : Nat := s.pushes.countP (·.id = id)

theorem NotesUntouched.pushes {s s' : World T W} (h : NotesUntouched s s') :
    s'.pushes = s.pushes := by
  obtain ⟨l, remarks, gates⟩ := h.remarks
  have none : l.filterMap Remark.pushed = [] := by
    refine List.filterMap_eq_nil_iff.mpr fun r hr => ?_
    have := gates r hr
    cases r <;> first | rfl | cases this
  rw [World.pushes, World.pushes, remarks, List.filterMap_append, none, List.nil_append]

/-- Whether it is a notification of the number, still to be handled. -/
def Duty.unhandled (id : Nat) : Duty → Nat
  | .letter m => if m.letter.noted = some id then 1 else 0
  | _ => 0

/-- Whether it is an answer of the number, still to be given. -/
def Duty.owed (ack : Bool) (id : Nat) : Duty → Nat
  | .answer id' ack' => if id' = id ∧ ack' = ack then 1 else 0
  | _ => 0

theorem weigh_unhandled (msgs : List ControlMessage) (id : Nat) :
    weigh (Duty.unhandled id) (ofList (msgs.map .letter)) =
      tally Letter.noted (msgs.map (·.letter)) id := by
  induction msgs with
  | nil => rfl
  | cons m rest ih =>
    rw [List.map_cons, ← Multiset.cons_coe, Interleave.weigh_cons, ih, List.map_cons,
      ← List.singleton_append, tally_append, tally_singleton]
    rfl

theorem weigh_letters {f : Duty → Nat} (none : ∀ m, f (.letter m) = 0)
    (msgs : List ControlMessage) :
    weigh f (ofList (msgs.map .letter)) = 0 := by
  refine Interleave.weigh_eq_zero fun x hx => ?_
  obtain ⟨m, -, rfl⟩ := List.mem_map.mp (mem_coe.mp hx)
  exact none m

/-- With what threads have still to handle and to answer. -/
structure Receives (s : World T.logged W) (M : Multiset Duty) : Prop where
  acked : ∀ id, tally (Letter.answered true) s.transport.2.sent id + weigh (Duty.owed true id) M ≤
    s.pushed id
  handled : ∀ id, s.pushed id + tally (Letter.answered false) s.transport.2.sent id +
      weigh (Duty.owed false id) M + weigh (Duty.unhandled id) M ≤
    tally Letter.noted s.transport.2.read id
  content : ∀ n ∈ s.pushes, ∃ x ∈ s.transport.2.read, x.noted = some n.id ∧
    x.2.drop kNotificationHeaderBytes = n.payload
  letters : ∀ m, .letter m ∈ M → m.letter ∈ s.transport.2.read
  small : ∀ id ack, .answer id ack ∈ M → id < 2 ^ 64

namespace Receives
variable {s s' : World T.logged W} {M M' F : Multiset Duty} {setup : Setup W}
  {m : ControlMessage} {peer : PeerId}

/-- A step that pushes nothing and after which the engine owes no more than
before. -/
theorem step (h : Receives s (F + M)) (pushes : s'.pushes = s.pushes)
    (sent : ∀ ack id,
      tally (Letter.answered ack) s'.transport.2.sent id + weigh (Duty.owed ack id) M' ≤
      tally (Letter.answered ack) s.transport.2.sent id + weigh (Duty.owed ack id) M)
    (read : ∃ l, s'.transport.2.read = s.transport.2.read ++ l ∧
      ∀ id, weigh (Duty.unhandled id) M' ≤ weigh (Duty.unhandled id) M + tally Letter.noted l id)
    (letters : ∀ m, .letter m ∈ M' → m.letter ∈ s'.transport.2.read)
    (small : ∀ id ack, .answer id ack ∈ M' → id < 2 ^ 64) : Receives s' (F + M') := by
  obtain ⟨l, read, unhandled⟩ := read
  have pushed (id : Nat) : s'.pushed id = s.pushed id := by simp [World.pushed, pushes]
  refine ⟨fun id => ?_, fun id => ?_, fun n hn => ?_, fun m hm => ?_, fun id ack held => ?_⟩
  · have before := h.acked id
    have now := sent true id
    rw [weigh_add] at before ⊢
    rw [pushed]
    omega
  · have before := h.handled id
    have now := sent false id
    have more := unhandled id
    rw [weigh_add, weigh_add] at before ⊢
    rw [pushed, read, tally_append]
    omega
  · rw [pushes] at hn
    obtain ⟨x, hx, this⟩ := h.content n hn
    exact ⟨x, by simp [read, hx], this⟩
  · rcases mem_add.mp hm with old | new
    · have this := h.letters m (mem_add.mpr (.inl old))
      simp [read, this]
    · exact letters m new
  · rcases mem_add.mp held with old | new
    · exact h.small id ack (mem_add.mpr (.inl old))
    · exact small id ack new

section
variable (h : Receives s (F + M)) (owed : ∀ ack id, weigh (Duty.owed ack id) M' = 0)
  (unhandled : ∀ id, weigh (Duty.unhandled id) M' = 0) (letters : ∀ m, .letter m ∉ M')
  (small : ∀ id ack, .answer id ack ∉ M')
include h owed unhandled letters small

/-- A step after which the mailbox is as it was, and that takes nothing on. -/
theorem still (pushes : s'.pushes = s.pushes) (transport : s'.transport = s.transport) :
    Receives s' (F + M') := by
  refine h.step pushes (fun ack id => ?_) ⟨[], by simp [transport], fun id => ?_⟩
    (fun m hm => absurd hm (letters m)) fun id ack held => absurd held (small id ack)
  · rw [transport, owed]
    omega
  · rw [unhandled]
    omega

/-- A step that is none of notifications' business, on which the duties change
only to ones that are none of a receiver's. -/
theorem untouched (step : NotesUntouched s s') : Receives s' (F + M') := by
  obtain ⟨read, l, sent, others⟩ := step.contact.mailbox
  refine h.step step.pushes (fun ack id => ?_) ⟨[], by simp [read], fun id => ?_⟩
    (fun m hm => absurd hm (letters m)) fun id ack held => absurd held (small id ack)
  · rw [sent, tally_append, tally_eq_zero (fun x hx => (others x hx).2 ack), owed]
    omega
  · rw [unhandled]
    omega

/-- A notification is sent, or is not. -/
theorem sends {prov : ProviderId} {conn : Option ConnId} {b : Bytes} {a : T.Answer}
    {σ : T.logged.State} {status : Status}
    (answer : T.logged.sendControl prov conn .notification b s.transport a = some (status, σ)) :
    Receives { s with transport := σ } (F + M') := by
  obtain ⟨read, sent⟩ := sendControl_mailbox answer
  refine h.step rfl (fun ack id => ?_) ⟨[], by simp [read], fun id => ?_⟩
    (fun m hm => absurd hm (letters m)) fun id ack held => absurd held (small id ack)
  · dsimp only
    rw [sent, tally_append, owed]
    split
    · rw [tally_singleton, answered_note]
      simp
    · simp [tally]
  · rw [unhandled]
    omega

end

theorem push (h : Receives s (F + {.letter m})) {id : Nat} (notifies : m.Notifies id)
    (remarks : s'.remarks =
      .queued ⟨peer, id, m.payload.drop kNotificationHeaderBytes⟩ :: s.remarks)
    (transport : s'.transport = s.transport) : Receives s' (F + {.answer id true}) := by
  have pushes : s'.pushes = ⟨peer, id, m.payload.drop kNotificationHeaderBytes⟩ :: s.pushes := by
    simp [World.pushes, remarks, Remark.pushed]
  have pushed (i : Nat) : s'.pushed i = s.pushed i + if id = i then 1 else 0 := by
    simp [World.pushed, pushes, List.countP_cons]
  have here := h.letters m (by simp)
  refine ⟨fun i => ?_, fun i => ?_, fun n hn => ?_, fun m' hm => ?_, fun i ack held => ?_⟩
  · have before := h.acked i
    simp only [weigh_add, weigh_singleton, Duty.owed, and_true] at before ⊢
    rw [pushed, transport]
    omega
  · have before := h.handled i
    simp only [weigh_add, weigh_singleton, Duty.owed, Duty.unhandled,
      notifies.noted, Option.some.injEq, Bool.true_eq_false, and_false, if_false] at before ⊢
    rw [pushed, transport]
    omega
  · rw [transport]
    rw [pushes, List.mem_cons] at hn
    rcases hn with rfl | old
    · exact ⟨m.letter, here, notifies.noted, rfl⟩
    · exact h.content n old
  · rw [transport]
    have old : Duty.letter m' ∈ F := by simpa using hm
    exact h.letters m' (by simp [old])
  · simp only [mem_add, mem_singleton, Duty.answer.injEq] at held
    rcases held with old | ⟨rfl, rfl⟩
    · exact h.small i ack (by simp [old])
    · exact decodeU64_lt notifies.2.2

theorem posting (h : Receives s (F + M)) (move : Posting setup s M s' M') :
    Receives s' (F + M') := by
  cases move with
  | nextId | nextNotify | await | heed | succeed | refuse | fail =>
    exact h.still (by simp [Duty.owed]) (by simp [Duty.unhandled]) (by simp) (by simp) rfl rfl
  | untouched step | take _ _ step =>
    exact h.untouched (by simp [Duty.owed]) (by simp [Duty.unhandled]) (by simp) (by simp) step
  | send answer | sendFails _ answer =>
    exact h.sends (by simp [Duty.owed]) (by simp [Duty.unhandled]) (by simp) (by simp) answer
  | @poll _ _ _ r σ answer =>
    obtain ⟨sent, read⟩ := pollControl_mailbox answer
    refine h.step rfl (fun ack id => ?_) ⟨_, read, fun id => ?_⟩ (fun m hm => ?_) (by simp)
    · dsimp only
      rw [sent, weigh_letters fun _ => rfl]
      omega
    · rw [weigh_unhandled]
      omega
    · have hm : m ∈ r.2 := by simpa using hm
      dsimp only
      rw [read]
      exact List.mem_append_right _ (List.mem_map.mpr ⟨m, hm, rfl⟩)
  | push notifies room => exact h.push notifies rfl rfl
  | @turnAway m id notifies =>
    have small : id < 2 ^ 64 := decodeU64_lt notifies.2.2
    refine ⟨fun i => ?_, fun i => ?_, h.content, fun m' hm => ?_, fun i ack held => ?_⟩
    · have before := h.acked i
      simp only [weigh_add, weigh_singleton, Duty.owed] at before ⊢
      simpa using before
    · have before := h.handled i
      simp only [weigh_add, weigh_singleton, Duty.owed, Duty.unhandled,
        notifies.noted, Option.some.injEq, and_true] at before ⊢
      omega
    · have old : Duty.letter m' ∈ F := by simpa using hm
      exact h.letters m' (by simp [old])
    · simp only [mem_add, mem_singleton, Duty.answer.injEq] at held
      rcases held with old | ⟨rfl, rfl⟩
      · exact h.small i ack (by simp [old])
      · exact small
  | @answer id ack _ _ _ _ _ answer =>
    obtain ⟨read, sent⟩ := sendControl_mailbox answer
    have small := h.small id ack (by simp)
    refine h.step rfl (fun ack' i => ?_) ⟨[], by simp [read], by simp⟩ (by simp) (by simp)
    dsimp only
    rw [sent, tally_append, weigh_singleton, Interleave.weigh_zero]
    split
    · by_cases same : ack' = ack
      · subst same
        simp [answered_answer small, Duty.owed]
      · simp [answered_other same]
    · simp [tally]

end Receives

theorem receives_start (dir : Directory W) (σ : T.State) :
    Receives (T := T) (World.start dir (σ, ⟨[], []⟩)) 0 := by
  refine ⟨?_, ?_, ?_, ?_, ?_⟩ <;>
    simp [World.start, World.pushed, World.pushes, tally, weigh]

/-- In every run the engine pushes no more than it reads and answers no more
than it pushed or turned away. -/
theorem Run.receives [LaneCost W] {setup : Setup W} {dir : Directory W} {σ : T.State}
    {ok : World T.logged W → World T.logged W → Prop}
    {p : Pool Call (World T.logged W) (Answer T.logged) Reply}
    (run : Run (Call.body T.logged setup) ok (World.start dir (σ, ⟨[], []⟩)) p) :
    ∃ M, Receives p.shared M := by
  obtain ⟨held, -, receives⟩ := run.invariant Receives (fun c t => dutiful_body setup c t)
    (receives_start dir σ) fun _ _ _ _ _ _ h move _ => h.posting move
  exact ⟨_, receives⟩

end

end Hux
