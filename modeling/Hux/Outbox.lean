import Hux.Scripted
import Hux.Types

/-!
# The control outbox

`transport/control_outbox.{h,cpp}`: messages for a socket that is never waited on. What
the socket does not take is queued, whole messages at a time, up to a bound on the bytes.

`Sound` is what every operation keeps: what was written and what is queued are together
the messages taken.
-/

namespace Hux
open Wire (Bytes)
open Interleave (Scripted)
open Interleave.Scripted (get set loop Does)

/-- What `send` with `MSG_DONTWAIT` returned. -/
inductive Sent
  | took (k : Nat)
  | interrupted
  | again
  | failed
  deriving DecidableEq, Repr

def kDefaultLimit : Nat := 2 ^ 20

structure ControlOutbox where
  fd : Option Nat := none
  limit : Nat := kDefaultLimit
  q : List Bytes := []
  frontOff : Nat := 0
  bytes : Nat := 0
  broken : Bool := false
  /-- Nothing reads what follows. The messages taken since `reset`, oldest first. -/
  accepted : List Bytes := []
  /-- What the socket has taken since then. -/
  written : Bytes := []
  deriving DecidableEq, Repr

namespace ControlOutbox

def reset (fd : Option Nat) (limit : Nat := kDefaultLimit) : ControlOutbox := { fd, limit }

/-- The socket takes `k` bytes of the front. -/
def advance (o : ControlOutbox) (k : Nat) : ControlOutbox :=
  match o.q with
  | [] => o
  | m :: rest =>
    { o with
      q := if o.frontOff + k = m.length then rest else o.q
      frontOff := if o.frontOff + k = m.length then 0 else o.frontOff + k
      bytes := o.bytes - k
      written := o.written ++ (m.drop o.frontOff).take k }

/-- What is queued and not written yet. -/
def pending (o : ControlOutbox) : Bytes := o.q.flatten.drop o.frontOff

end ControlOutbox

section
variable {E : Type} (sent : E → Option Sent)

/-- A turn of `flush_locked`; the front is not written yet. -/
def flushStep (_ : Unit) (o : ControlOutbox) (e : E) : Option ((Unit ⊕ Status) × ControlOutbox) :=
  match o.q, sent e with
  | m :: _, some (.took k) =>
    if k = 0 ∨ m.length - o.frontOff < k then none
    else some (if (o.advance k).q = [] then .inr .ok else .inl (), o.advance k)
  | _ :: _, some .interrupted => some (.inl (), o)
  | _ :: _, some .again => some (.inr .wouldBlock, o)
  | _ :: _, some .failed => some (.inr .peerDisconnected, { o with broken := true })
  | _, _ => none

def flushLocked : Scripted ControlOutbox E Status := do
  let o ← get id
  if o.broken then pure .peerDisconnected
  else if o.fd = none then pure .peerDisconnected
  else if o.q = [] then pure .ok
  else loop (flushStep sent) ()

/-- A turn of the direct write; so much of the message has gone. -/
def writeStep (msg : Bytes) (off : Nat) (o : ControlOutbox) (e : E) :
    Option ((Nat ⊕ Status) × ControlOutbox) :=
  match sent e with
  | some (.took k) =>
    if k = 0 ∨ msg.length - off < k then none
    else if off + k = msg.length then
      some (.inr .ok, { o with
        written := o.written ++ (msg.drop off).take k
        accepted := o.accepted ++ [msg] })
    else some (.inl (off + k), { o with written := o.written ++ (msg.drop off).take k })
  | some .interrupted => some (.inl off, o)
  | some .again =>
    some (.inr .ok, { o with
      bytes := o.bytes + (msg.length - off)
      q := o.q ++ [msg]
      frontOff := off
      accepted := o.accepted ++ [msg] })
  | some .failed => some (.inr .peerDisconnected, { o with broken := true })
  | none => none

def post (msg : Bytes) : Scripted ControlOutbox E Status :=
  if msg = [] then pure .invalidArgument
  else do
    let o ← get id
    if o.broken ∨ o.fd = none then pure .peerDisconnected
    else
      let s ← flushLocked sent
      if s = .peerDisconnected then pure s
      else
        let o ← get id
        if o.q = [] then loop (writeStep sent msg) 0
        else if o.bytes + msg.length > o.limit then pure .wouldBlock
        else
          set fun o => { o with
            bytes := o.bytes + msg.length
            q := o.q ++ [msg]
            accepted := o.accepted ++ [msg] }
          pure .ok

end

/-! ## What the operations keep -/

namespace ControlOutbox

structure Sound (o : ControlOutbox) : Prop where
  stream : o.broken = false → o.written ++ o.pending = o.accepted.flatten
  filled : ∀ m ∈ o.q, m ≠ []
  front : ∀ m ∈ o.q.head?, o.frontOff < m.length
  idle : o.q = [] → o.frontOff = 0
  bytes : o.bytes = o.pending.length
  bound : o.bytes ≤ o.limit ∨ o.q.length = 1

theorem sound_reset (fd : Option Nat) (limit : Nat) : (reset fd limit).Sound where
  stream _ := rfl
  filled := by simp [reset]
  front := by simp [reset]
  idle _ := rfl
  bytes := rfl
  bound := .inl (Nat.zero_le _)

@[simp] theorem advance_fd (o : ControlOutbox) (k : Nat) : (o.advance k).fd = o.fd := by
  unfold advance
  split <;> rfl

@[simp] theorem advance_limit (o : ControlOutbox) (k : Nat) : (o.advance k).limit = o.limit := by
  unfold advance
  split <;> rfl

@[simp] theorem advance_broken (o : ControlOutbox) (k : Nat) :
    (o.advance k).broken = o.broken := by
  unfold advance
  split <;> rfl

@[simp] theorem advance_accepted (o : ControlOutbox) (k : Nat) :
    (o.advance k).accepted = o.accepted := by
  unfold advance
  split <;> rfl

section
variable {o : ControlOutbox} {m : Bytes} {rest : List Bytes} {k : Nat}

theorem advance_cons (queue : o.q = m :: rest) (k : Nat) :
    o.advance k = { o with
      q := if o.frontOff + k = m.length then rest else o.q
      frontOff := if o.frontOff + k = m.length then 0 else o.frontOff + k
      bytes := o.bytes - k
      written := o.written ++ (m.drop o.frontOff).take k } := by
  rw [advance, queue]

theorem pending_cons (queue : o.q = m :: rest) (front : o.frontOff ≤ m.length) :
    o.pending = m.drop o.frontOff ++ rest.flatten := by
  rw [pending, queue, List.flatten_cons, List.drop_append_of_le_length front]

/-- What the socket takes is what was first in line. -/
theorem pending_advance (queue : o.q = m :: rest) (fits : o.frontOff + k ≤ m.length) :
    o.pending = (m.drop o.frontOff).take k ++ (o.advance k).pending := by
  rw [pending_cons queue (by omega), advance_cons queue]
  by_cases whole : o.frontOff + k = m.length
  · rw [pending]
    simp only [if_pos whole, List.drop_zero]
    rw [List.take_of_length_le (by rw [List.length_drop]; omega)]
  · rw [pending]
    simp only [if_neg whole, queue, List.flatten_cons]
    rw [List.drop_append_of_le_length fits, ← List.append_assoc, ← List.drop_drop,
      List.take_append_drop]

theorem Sound.advance (sound : o.Sound) (queue : o.q = m :: rest)
    (fits : o.frontOff + k ≤ m.length) : (o.advance k).Sound := by
  have line := pending_advance queue fits
  have fewer : (o.advance k).bytes = (o.advance k).pending.length := by
    have all := sound.bytes
    rw [line, List.length_append, List.length_take, List.length_drop] at all
    have : (o.advance k).bytes = o.bytes - k := by rw [advance_cons queue]
    omega
  have filled := sound.filled
  have front := sound.front
  rw [queue] at filled front
  obtain ⟨-, filled'⟩ := List.forall_mem_cons.mp filled
  refine ⟨fun going => ?_, ?_, ?_, ?_, fewer, ?_⟩
  · have before := sound.stream (by rwa [advance_broken] at going)
    rw [line, ← List.append_assoc] at before
    rw [advance_accepted, ← before]
    rw [advance_cons queue]
  -- the front is over, or it is still the front
  all_goals
    rw [advance_cons queue]
    dsimp only
    by_cases whole : o.frontOff + k = m.length
  · rwa [if_pos whole]
  · rwa [if_neg whole, queue]
  · rw [if_pos whole, if_pos whole]
    intro m' hm'
    exact List.length_pos_iff.mpr (filled' m' (List.mem_of_mem_head? hm'))
  · rw [if_neg whole, if_neg whole, queue]
    rintro _ ⟨⟩
    omega
  · exact fun _ => if_pos whole
  · rw [if_neg whole, queue]
    rintro ⟨⟩
  · rw [if_pos whole]
    rcases sound.bound with few | one
    · exact .inl (by omega)
    · rw [queue, List.length_cons, Nat.add_eq_right] at one
      obtain rfl := List.eq_nil_of_length_eq_zero one
      rw [advance_cons queue, pending] at fewer
      simp only [if_pos whole, List.flatten_nil, List.drop_nil, List.length_nil] at fewer
      exact .inl (by omega)
  · rw [if_neg whole]
    rcases sound.bound with few | one
    · exact .inl (by omega)
    · exact .inr one

end

/-! ## What they do -/

/-- The same outbox with more written. -/
structure Later (o o' : ControlOutbox) : Prop where
  fd : o'.fd = o.fd
  limit : o'.limit = o.limit
  written : o.written <+: o'.written
  down : o.broken = true ∨ o.fd = none → o' = o

theorem Later.refl (o : ControlOutbox) : Later o o := ⟨rfl, rfl, List.prefix_rfl, fun _ => rfl⟩

theorem Later.trans {o₁ o₂ o₃ : ControlOutbox} (first : Later o₁ o₂) (second : Later o₂ o₃) :
    Later o₁ o₃ where
  fd := second.fd.trans first.fd
  limit := second.limit.trans first.limit
  written := first.written.trans second.written
  down h := by
    have same := first.down h
    rw [second.down (by rw [same]; exact h), same]

/-- What a flush leaves, and what it says. -/
structure Flushed (o₀ : ControlOutbox) (st : Status) (o : ControlOutbox) : Prop where
  sound : o₀.Sound → o.Sound
  later : Later o₀ o
  accepted : o.accepted = o₀.accepted
  bytes : o.bytes ≤ o₀.bytes
  idle : o₀.q = [] → o.q = []
  said : st = .ok ∧ o.q = [] ∧ o.broken = false ∧ o.fd ≠ none ∨
    st = .wouldBlock ∧ o.q ≠ [] ∧ o.broken = false ∧ o.fd ≠ none ∨
    st = .peerDisconnected ∧ (o.broken = true ∨ o.fd = none)

/-- What posting a message leaves, and what it says. -/
structure Posted (o₀ : ControlOutbox) (msg : Bytes) (st : Status) (o : ControlOutbox) : Prop where
  sound : o₀.Sound → o.Sound
  later : Later o₀ o
  said : st = .ok ∧ o.accepted = o₀.accepted ++ [msg] ∧ o.broken = false ∧ o.fd ≠ none ∨
    st = .wouldBlock ∧ o.accepted = o₀.accepted ∧ o.broken = false ∧ o₀.q ≠ [] ∧
      o₀.limit < o₀.bytes + msg.length ∨
    st = .peerDisconnected ∧ o.accepted = o₀.accepted ∧ (o.broken = true ∨ o.fd = none) ∨
    st = .invalidArgument ∧ msg = [] ∧ o = o₀

variable {E : Type} {sent : E → Option Sent} {o o₀ : ControlOutbox}

theorem Flushed.going (so : Flushed o₀ .wouldBlock o) :
    o.q ≠ [] ∧ o.broken = false ∧ o.fd ≠ none := by
  rcases so.said with ⟨⟨⟩, -⟩ | ⟨-, still⟩ | ⟨⟨⟩, -⟩
  exact still

/-- Where an outbox that is down stays as it is, one that is not never was. -/
theorem Later.up (later : Later o₀ o) (going : o.broken = false) (opened : o.fd ≠ none) :
    ¬(o₀.broken = true ∨ o₀.fd = none) := by
  intro down
  rw [later.down down] at going opened
  rcases down with broken | closed
  · exact absurd broken (by simp [going])
  · exact opened closed

theorem Later.advance (later : Later o₀ o) (going : o.broken = false) (opened : o.fd ≠ none)
    (k : Nat) : Later o₀ (o.advance k) where
  fd := (advance_fd o k).trans later.fd
  limit := (advance_limit o k).trans later.limit
  written := by
    refine later.written.trans ?_
    unfold ControlOutbox.advance
    split
    · exact List.prefix_rfl
    · exact List.prefix_append _ _
  down h := absurd h (later.up going opened)

/-- The socket takes so much of the front. -/
theorem Flushed.took (so : Flushed o₀ .wouldBlock o) {m : Bytes} {rest : List Bytes} {k : Nat}
    (queue : o.q = m :: rest) (fits : k ≤ m.length - o.frontOff) :
    Flushed o₀ (if (o.advance k).q = [] then .ok else .wouldBlock) (o.advance k) := by
  obtain ⟨-, going, opened⟩ := so.going
  refine ⟨fun before => ?_, so.later.advance going opened k,
    (advance_accepted o k).trans so.accepted, ?_, ?_, ?_⟩
  · have sound := so.sound before
    have inside := sound.front m (by rw [queue]; rfl)
    exact sound.advance queue (by omega)
  · have := so.bytes
    rw [advance_cons queue]
    dsimp only
    omega
  · intro empty
    rw [so.idle empty] at queue
    cases queue
  · rw [advance_broken, advance_fd]
    by_cases empty : (o.advance k).q = []
    · exact .inl ⟨if_pos empty, empty, going, opened⟩
    · exact .inr (.inl ⟨if_neg empty, empty, going, opened⟩)

theorem Flushed.broke (so : Flushed o₀ .wouldBlock o) :
    Flushed o₀ .peerDisconnected { o with broken := true } := by
  obtain ⟨-, going, opened⟩ := so.going
  refine ⟨fun before => ?_, ⟨so.later.fd, so.later.limit, so.later.written, fun h => ?_⟩,
    so.accepted, so.bytes, so.idle, .inr (.inr ⟨rfl, .inl rfl⟩)⟩
  · have sound := so.sound before
    exact ⟨by simp, sound.filled, sound.front, sound.idle, sound.bytes, sound.bound⟩
  · exact absurd h (so.later.up going opened)

variable {o' : ControlOutbox}

/-- A turn of the loop, and where it ends. -/
theorem Flushed.step (so : Flushed o₀ .wouldBlock o) {e : E} {x : Unit ⊕ Status}
    (h : flushStep sent () o e = some (x, o')) :
    Flushed o₀ (x.elim (fun _ => .wouldBlock) id) o' := by
  unfold flushStep at h
  split at h
  · rename_i m rest k queue _
    split at h
    · cases h
    · rename_i fits
      cases h
      have next := so.took queue (k := k) (by omega)
      by_cases empty : (o.advance k).q = []
      · rwa [if_pos empty] at next ⊢
      · rwa [if_neg empty] at next ⊢
  · cases h
    exact so
  · cases h
    exact so
  · cases h
    exact so.broke
  · cases h

theorem flushLocked_does (o₀ : ControlOutbox) :
    Does (· = o₀) (fun _ _ => True) (flushLocked sent) (Flushed o₀) := by
  have still {st : Status} (said : st = .ok ∧ o₀.q = [] ∧ o₀.broken = false ∧ o₀.fd ≠ none ∨
      st = .wouldBlock ∧ o₀.q ≠ [] ∧ o₀.broken = false ∧ o₀.fd ≠ none ∨
      st = .peerDisconnected ∧ (o₀.broken = true ∨ o₀.fd = none)) : Flushed o₀ st o₀ :=
    ⟨id, .refl o₀, rfl, le_rfl, id, said⟩
  unfold flushLocked
  refine .bind (.get (Q := fun o' o => o' = o₀ ∧ o = o₀) fun o same => ⟨same, same⟩) fun o' => ?_
  refine .ite (fun broken => .pure ?_) fun going => .ite (fun closed => .pure ?_) fun opened =>
    .ite (fun empty => .pure ?_) fun queue => ?_
  · rintro _ ⟨rfl, rfl⟩
    exact still (.inr (.inr ⟨rfl, .inl broken⟩))
  · rintro _ ⟨rfl, rfl⟩
    exact still (.inr (.inr ⟨rfl, .inr closed⟩))
  · rintro _ ⟨rfl, rfl⟩
    exact still (.inl ⟨rfl, empty, by simpa using going, opened⟩)
  · refine .weaken (.loop (I := fun _ o => Flushed o₀ .wouldBlock o) ?_ ?_ ()) ?_ fun _ _ h => h
    · intro _ o e _ o' so h
      exact ⟨trivial, so.step h⟩
    · intro _ o e st o' so h
      exact ⟨trivial, so.step h⟩
    · rintro _ ⟨rfl, rfl⟩
      exact still (.inr (.inl ⟨rfl, queue, by simpa using going, opened⟩))

/-- So much of the message has been written straight out. -/
structure Writing (o₀ : ControlOutbox) (msg : Bytes) (off : Nat) (o : ControlOutbox) : Prop where
  same : o = { o₀ with written := o₀.written ++ msg.take off }
  inside : off < msg.length

variable {msg : Bytes}

theorem Writing.step (empty : o₀.q = []) (going : o₀.broken = false) (opened : o₀.fd ≠ none)
    {off : Nat} (so : Writing o₀ msg off o) {e : E} {x : Nat ⊕ Status}
    (h : writeStep sent msg off o e = some (x, o')) :
    (∃ off', x = .inl off' ∧ Writing o₀ msg off' o') ∨ ∃ st, x = .inr st ∧ Posted o₀ msg st o' := by
  obtain ⟨rfl, inside⟩ := so
  have nothing : o₀.pending = [] := by rw [pending, empty]; simp
  have stream (sound : o₀.Sound) : o₀.written = o₀.accepted.flatten := by
    have stream := sound.stream going
    rwa [nothing, List.append_nil] at stream
  unfold writeStep at h
  split at h
  · rename_i k _
    split at h
    · cases h
    · rename_i fits
      have more : msg.take off ++ (msg.drop off).take k = msg.take (off + k) := List.take_add.symm
      split at h
      · rename_i whole
        cases h
        rw [List.append_assoc, more, List.take_of_length_le whole.ge]
        refine .inr ⟨_, rfl, ⟨fun sound => ⟨fun _ => ?_, sound.filled, sound.front, sound.idle,
          sound.bytes, sound.bound⟩, ⟨rfl, rfl, List.prefix_append _ _, by simp [going, opened]⟩,
          .inl ⟨rfl, rfl, going, opened⟩⟩⟩
        change (o₀.written ++ msg) ++ o₀.pending = (o₀.accepted ++ [msg]).flatten
        simp [nothing, stream sound]
      · rename_i whole
        cases h
        refine .inl ⟨_, rfl, ?_, by omega⟩
        simp only [List.append_assoc, more]
  · cases h
    exact .inl ⟨_, rfl, rfl, inside⟩
  · cases h
    -- what is left of the message is queued, whatever the bound
    refine .inr ⟨_, rfl, ⟨fun sound => ⟨fun _ => ?_, ?_, ?_, ?_, ?_, .inr (by simp [empty])⟩,
      ⟨rfl, rfl, List.prefix_append _ _, by simp [going, opened]⟩, .inl ⟨rfl, rfl, going, opened⟩⟩⟩
    · change (o₀.written ++ msg.take off) ++ pending _ = (o₀.accepted ++ [msg]).flatten
      simp [pending, empty, stream sound]
    · simp only [empty, List.nil_append, List.mem_singleton, forall_eq]
      rintro rfl
      simp at inside
    · simpa [empty] using inside
    · simp
    · have := sound.bytes
      rw [nothing, List.length_nil] at this
      change o₀.bytes + (msg.length - off) = (pending _).length
      simp [pending, empty, this]
  · cases h
    refine .inr ⟨_, rfl, ⟨fun sound => ⟨by simp, sound.filled, sound.front, sound.idle,
      sound.bytes, sound.bound⟩, ⟨rfl, rfl, List.prefix_append _ _, by simp [going, opened]⟩,
      .inr (.inr (.inl ⟨rfl, rfl, .inl rfl⟩))⟩⟩
  · cases h

variable {st : Status}

/-- A flush and then a message. -/
theorem Flushed.posted {o₁ : ControlOutbox} {s : Status} (some : msg ≠ [])
    (flushed : Flushed o₀ s o₁) (posted : Posted o₁ msg st o) : Posted o₀ msg st o := by
  refine ⟨fun before => posted.sound (flushed.sound before), flushed.later.trans posted.later, ?_⟩
  have bytes := flushed.bytes
  rcases posted.said with ⟨is, accepted, up⟩ | ⟨is, accepted, going, queue, full⟩ |
    ⟨is, accepted, down⟩ | ⟨-, empty, -⟩
  · exact .inl ⟨is, by rw [accepted, flushed.accepted], up⟩
  · rw [flushed.later.limit] at full
    refine .inr (.inl ⟨is, accepted.trans flushed.accepted, going, ?_, by omega⟩)
    exact fun empty => queue (flushed.idle empty)
  · exact .inr (.inr (.inl ⟨is, accepted.trans flushed.accepted, down⟩))
  · exact absurd empty some

theorem Sound.push (sound : o.Sound) (some : msg ≠ []) (queue : o.q ≠ [])
    (room : o.bytes + msg.length ≤ o.limit) : { o with
      bytes := o.bytes + msg.length
      q := o.q ++ [msg]
      accepted := o.accepted ++ [msg] : ControlOutbox }.Sound := by
  have front := sound.front
  cases h : o.q with
  | nil => exact absurd h queue
  | cons m rest =>
    have inside := front m (by rw [h]; rfl)
    have longer : (o.q ++ [msg]).flatten.drop o.frontOff = o.pending ++ msg := by
      rw [List.flatten_append, List.drop_append_of_le_length, pending, List.flatten_singleton]
      rw [h, List.flatten_cons, List.length_append]
      omega
    refine ⟨fun going => ?_, ?_, ?_, ?_, ?_, .inl room⟩
    · have stream := sound.stream going
      rw [pending, ← h, longer, ← List.append_assoc, stream]
      simp
    · rw [← h]
      intro m' hm'
      rcases List.mem_append.mp hm' with old | new
      · exact sound.filled m' old
      · rwa [List.mem_singleton.mp new]
    · rintro _ ⟨⟩
      exact inside
    · rintro ⟨⟩
    · rw [pending, ← h, longer, List.length_append, sound.bytes]

theorem post_does (msg : Bytes) (o₀ : ControlOutbox) :
    Does (· = o₀) (fun _ _ => True) (post sent msg) (Posted o₀ msg) := by
  unfold post
  refine .ite (fun none => .pure ?_) fun some => ?_
  · rintro _ rfl
    exact ⟨id, .refl _, .inr (.inr (.inr ⟨rfl, none, rfl⟩))⟩
  refine .bind (.get (Q := fun o' o => o' = o₀ ∧ o = o₀) fun o same => ⟨same, same⟩) fun o' => ?_
  refine .ite (fun down => .pure ?_) fun up => ?_
  · rintro _ ⟨rfl, rfl⟩
    exact ⟨id, .refl _, .inr (.inr (.inl ⟨rfl, rfl, down⟩))⟩
  refine .bind ((flushLocked_does o₀).weaken (fun _ h => h.2) fun _ _ h => h) fun s => ?_
  refine .ite (fun down => .pure ?_) fun running => ?_
  · intro o flushed
    refine ⟨flushed.sound, flushed.later, .inr (.inr (.inl ⟨down, flushed.accepted, ?_⟩))⟩
    rcases flushed.said with ⟨ok, -⟩ | ⟨full, -⟩ | ⟨-, ends⟩
    · exact absurd (down.symm.trans ok) (by decide)
    · exact absurd (down.symm.trans full) (by decide)
    · exact ends
  refine .bind (.get (Q := fun o₁ o => o = o₁ ∧ Flushed o₀ s o₁) fun o h => ⟨rfl, h⟩) fun o₁ => ?_
  have live (flushed : Flushed o₀ s o₁) : o₁.broken = false ∧ o₁.fd ≠ Option.none := by
    rcases flushed.said with ⟨-, -, live⟩ | ⟨-, -, live⟩ | ⟨down, -⟩
    · exact live
    · exact live
    · exact absurd down running
  refine .ite (fun empty => ?_) fun queue => .ite (fun full => .pure ?_) fun room => ?_
  · by_cases flushed : Flushed o₀ s o₁
    · obtain ⟨going, opened⟩ := live flushed
      refine .weaken (.loop (I := Writing o₁ msg) ?_ ?_ 0) ?_
        fun st o posted => flushed.posted some posted
      · intro off o e off' o' so h
        obtain ⟨_, ⟨⟩, next⟩ | ⟨_, ⟨⟩, -⟩ := so.step empty going opened h
        exact ⟨trivial, next⟩
      · intro off o e st o' so h
        obtain ⟨_, ⟨⟩, -⟩ | ⟨_, ⟨⟩, posted⟩ := so.step empty going opened h
        exact ⟨trivial, posted⟩
      · rintro _ ⟨rfl, -⟩
        exact ⟨by simp, List.length_pos_iff.mpr some⟩
    · exact fun o es a o' es' h => absurd h.2 flushed
  · rintro _ ⟨rfl, flushed⟩
    exact flushed.posted some
      ⟨id, .refl _, .inr (.inl ⟨rfl, rfl, (live flushed).1, queue, full⟩)⟩
  · refine .bind (.set (Q := fun _ o => Posted o₀ msg .ok o) ?_) fun _ => .pure fun _ h => h
    rintro _ ⟨rfl, flushed⟩
    obtain ⟨going, opened⟩ := live flushed
    refine ⟨trivial, flushed.posted some
      ⟨fun sound => sound.push some queue (Nat.not_lt.mp room), ?_, ?_⟩⟩
    · exact ⟨rfl, rfl, List.prefix_rfl, by simp [going, opened]⟩
    · exact .inl ⟨rfl, rfl, going, opened⟩

/-! ## Between two resets -/

inductive Op
  | post (msg : Bytes)
  | flush
  deriving DecidableEq, Repr

def Op.perform : Op → Scripted ControlOutbox Sent Status
  | .post msg => Hux.post some msg
  | .flush => flushLocked some

/-- Operations one after the other, each with what the socket answers to it, and what each
of them says. -/
def play : List (Op × List Sent) → ControlOutbox → Option (List (Op × Status) × ControlOutbox)
  | [], o => some ([], o)
  | (op, answers) :: rest, o =>
    match op.perform o answers with
    | some (st, o', []) => (play rest o').map fun x => ((op, st) :: x.1, x.2)
    | _ => none

/-- The message an operation took. -/
def took : Op × Status → Option Bytes
  | (.post msg, .ok) => some msg
  | _ => none

/-- The messages whose `post` said `kOk`. -/
def taken (said : List (Op × Status)) : List Bytes := said.filterMap took

/-- The queue without the beginning of its front that has gone out. -/
def waiting (o : ControlOutbox) : Bytes :=
  match o.q with
  | [] => []
  | m :: rest => m.drop o.frontOff ++ rest.flatten

theorem Sound.waiting_eq (sound : o.Sound) : o.waiting = o.pending := by
  unfold waiting
  split
  · rename_i empty
    rw [pending, empty]
    simp
  · rename_i m rest queue
    have inside := sound.front m (by rw [queue]; rfl)
    rw [pending_cons queue inside.le]

theorem Sound.frontOff_le (sound : o.Sound) : o.frontOff ≤ o.q.flatten.length := by
  cases queue : o.q with
  | nil => rw [sound.idle queue]; exact Nat.zero_le _
  | cons m rest =>
    have inside := sound.front m (by rw [queue]; rfl)
    rw [List.flatten_cons, List.length_append]
    omega

/-- What holds after operations that said this. -/
structure Kept (fd : Option Nat) (limit : Nat) (said : List (Op × Status)) (o : ControlOutbox) :
    Prop where
  sound : o.Sound
  accepted : o.accepted = taken said
  fd : o.fd = fd
  limit : o.limit = limit
  down : ∀ x ∈ said, x.2 = .peerDisconnected → o.broken = true ∨ o.fd = none

/-- What an operation leaves of an outbox that was sound, whichever it is. -/
theorem Op.perform_does (op : Op) (o₀ : ControlOutbox) :
    Does (· = o₀) (fun _ _ => True) op.perform fun st o => (o₀.Sound → o.Sound) ∧ Later o₀ o ∧
      o.accepted = o₀.accepted ++ (took (op, st)).toList ∧
      (st = .peerDisconnected → o.broken = true ∨ o.fd = none) ∧
      (op = .flush → st = .ok → o.q = [] ∧ o.broken = false) := by
  cases op with
  | post msg =>
    refine (post_does msg o₀).weaken (fun _ h => h) fun st o posted => ?_
    refine ⟨posted.sound, posted.later, ?_, fun is => ?_, fun flush => by cases flush⟩
    · rcases posted.said with ⟨rfl, accepted, -⟩ | ⟨rfl, accepted, -⟩ | ⟨rfl, accepted, -⟩ |
        ⟨rfl, -, rfl⟩
      · exact accepted
      · rw [accepted]
        exact (List.append_nil _).symm
      · rw [accepted]
        exact (List.append_nil _).symm
      · exact (List.append_nil _).symm
    · rcases posted.said with ⟨rfl, -⟩ | ⟨rfl, -⟩ | ⟨-, -, down⟩ | ⟨rfl, -⟩
      · cases is
      · cases is
      · exact down
      · cases is
  | flush =>
    refine (flushLocked_does o₀).weaken (fun _ h => h) fun st o flushed => ?_
    refine ⟨flushed.sound, flushed.later, ?_, fun is => ?_, fun _ is => ?_⟩
    · rw [flushed.accepted]
      exact (List.append_nil _).symm
    · rcases flushed.said with ⟨rfl, -⟩ | ⟨rfl, -⟩ | ⟨-, down⟩
      · cases is
      · cases is
      · exact down
    · rcases flushed.said with ⟨-, empty, going, -⟩ | ⟨rfl, -⟩ | ⟨rfl, -⟩
      · exact ⟨empty, going⟩
      · cases is
      · cases is

variable {said : List (Op × Status)} {op : Op}

theorem Kept.step {fd : Option Nat} {limit : Nat} {es es' : List Sent}
    (kept : Kept fd limit said o) (run : op.perform o es = some (st, o', es')) :
    Kept fd limit (said ++ [(op, st)]) o' := by
  obtain ⟨-, sound, later, accepted, down, -⟩ := op.perform_does o o es st o' es' rfl run
  refine ⟨sound kept.sound, ?_, later.fd.trans kept.fd, later.limit.trans kept.limit, ?_⟩
  · rw [accepted, kept.accepted, taken, taken, List.filterMap_append, List.filterMap_cons]
    cases took (op, st) <;> rfl
  · intro x hx is
    rcases List.mem_append.mp hx with old | new
    · have before := kept.down x old is
      rw [later.down before]
      exact before
    · rw [List.mem_singleton.mp new] at is
      exact down is

theorem play_cons {answers : List Sent} {rest : List (Op × List Sent)}
    (run : play ((op, answers) :: rest) o = some (said, o')) :
    ∃ st o₁ more, op.perform o answers = some (st, o₁, []) ∧ play rest o₁ = some (more, o') ∧
      said = (op, st) :: more := by
  rw [play] at run
  split at run
  · rename_i st o₁ done
    obtain ⟨⟨more, o₂⟩, later, eq⟩ := Option.map_eq_some_iff.mp run
    cases eq
    exact ⟨st, o₁, more, done, later, rfl⟩
  · cases run

variable {script : List (Op × List Sent)}

theorem Kept.play {fd : Option Nat} {limit : Nat} {before : List (Op × Status)}
    (kept : Kept fd limit before o) (run : play script o = some (said, o')) :
    Kept fd limit (before ++ said) o' := by
  induction script generalizing before said o with
  | nil =>
    cases run
    rwa [List.append_nil]
  | cons x rest ih =>
    obtain ⟨st, o₁, more, first, later, rfl⟩ := play_cons run
    have next := ih (kept.step first) later
    rwa [List.append_assoc] at next

theorem kept_reset (fd : Option Nat) (limit : Nat) : Kept fd limit [] (reset fd limit) where
  sound := sound_reset fd limit
  accepted := rfl
  fd := rfl
  limit := rfl
  down := by simp

/-- An outbox that is down stays as it is. -/
theorem play_down (down : o.broken = true ∨ o.fd = none) (run : play script o = some (said, o')) :
    o' = o := by
  induction script generalizing said o with
  | nil =>
    cases run
    rfl
  | cons x rest ih =>
    obtain ⟨st, o₁, more, first, later, rfl⟩ := play_cons run
    obtain ⟨-, -, still, -⟩ := x.1.perform_does o o x.2 st o₁ [] rfl first
    obtain rfl := still.down down
    exact ih down later

/-- The last operation, and what was before it. -/
theorem play_concat (run : play script o = some (said ++ [(op, st)], o')) :
    ∃ o₁ es, op.perform o₁ es = some (st, o', []) := by
  induction script generalizing said o with
  | nil =>
    cases said <;> cases run
  | cons x rest ih =>
    obtain ⟨st', o₁, more, first, later, eq⟩ := play_cons run
    cases said with
    | nil =>
      obtain ⟨head, rfl⟩ := List.cons.inj eq
      cases head
      cases rest with
      | nil =>
        cases later
        exact ⟨o, x.2, first⟩
      | cons y rest =>
        obtain ⟨_, _, _, -, -, none⟩ := play_cons later
        cases none
    | cons y said =>
      obtain ⟨-, rfl⟩ := List.cons.inj eq
      exact ih later

/-- Whatever the socket takes and whenever: while the outbox is not broken, what was written
and what waits are together the messages taken; what is counted is what waits; the bound
holds unless a single message is queued; a flush that says `kOk` has written everything; and
once an operation has said that the peer is gone nothing more is written. -/
theorem outbox_keeps_messages (fd : Option Nat) (limit : Nat) (script : List (Op × List Sent))
    (said : List (Op × Status)) (o : ControlOutbox)
    (run : play script (reset fd limit) = some (said, o)) :
    (o.broken = false →
        o.written <+: (taken said).flatten ∧ o.written ++ o.waiting = (taken said).flatten) ∧
      o.frontOff ≤ (o.q.map List.length).sum ∧
      o.bytes = (o.q.map List.length).sum - o.frontOff ∧
      (o.bytes ≤ limit ∨ o.q.length = 1) ∧
      (∀ before, said = before ++ [(.flush, .ok)] → o.written = (taken said).flatten) ∧
      ((∃ x ∈ said, x.2 = .peerDisconnected) → ∀ more said' o', play more o = some (said', o') →
        o'.written = o.written) := by
  have kept : Kept fd limit said o := (kept_reset fd limit).play run
  have whole (going : o.broken = false) : o.written ++ o.waiting = (taken said).flatten := by
    rw [kept.sound.waiting_eq, ← kept.accepted]
    exact kept.sound.stream going
  refine ⟨fun going => ⟨⟨o.waiting, whole going⟩, whole going⟩, ?_, ?_, ?_, ?_, ?_⟩
  · rw [← List.length_flatten]
    exact kept.sound.frontOff_le
  · rw [kept.sound.bytes, pending, List.length_drop, List.length_flatten]
  · rw [← kept.limit]
    exact kept.sound.bound
  · rintro before rfl
    obtain ⟨o₁, es, last⟩ := play_concat run
    obtain ⟨-, -, -, -, -, flushed⟩ := Op.flush.perform_does o₁ o₁ es .ok o [] rfl last
    obtain ⟨empty, going⟩ := flushed rfl rfl
    have nothing : o.waiting = [] := by rw [waiting, empty]
    rw [← whole going, nothing, List.append_nil]
  · rintro ⟨x, hx, is⟩ more said' o' later
    rw [play_down (kept.down x hx is) later]

/-- A bound of four bytes: a message of five that is written in part and queued past the
bound, one that is refused, a flush that ends it, and an error. -/
theorem outbox_keeps_messages_full :
    ∃ said o, play
        [(.post [1, 2, 3, 4, 5], [.took 2, .interrupted, .again]), (.post [6, 7], [.again]),
          (.flush, [.took 1, .took 2]), (.post [8], [.failed])] (reset (some 3) 4) =
        some (said, o) ∧
      said = [(.post [1, 2, 3, 4, 5], .ok), (.post [6, 7], .wouldBlock), (.flush, .ok),
        (.post [8], .peerDisconnected)] ∧ o.written = [1, 2, 3, 4, 5] ∧
      ∀ more said' o', play more o = some (said', o') → o'.written = o.written := by
  have shown : (play
      [(.post [1, 2, 3, 4, 5], [.took 2, .interrupted, .again]), (.post [6, 7], [.again]),
        (.flush, [.took 1, .took 2]), (.post [8], [.failed])] (reset (some 3) 4)).map
        (fun x => (x.1, x.2.written)) =
      some ([(.post [1, 2, 3, 4, 5], .ok), (.post [6, 7], .wouldBlock), (.flush, .ok),
        (.post [8], .peerDisconnected)], [1, 2, 3, 4, 5]) := by decide
  obtain ⟨⟨said, o⟩, run, eq⟩ := Option.map_eq_some_iff.mp shown
  obtain ⟨rfl, written⟩ := Prod.mk.inj eq
  have all := outbox_keeps_messages (some 3) 4 _ _ o run
  exact ⟨_, o, run, rfl, written, all.2.2.2.2.2 ⟨(.post [8], .peerDisconnected), by simp, rfl⟩⟩

end ControlOutbox

end Hux
