import Hux.Ipc

/-!
# What the transport within one host does

Every section of the provider is a sequence of the steps here: `Plain` is what all of them
are made of but the reading of frames, and `Reads` is that.
-/

namespace Hux.Ipc
open Wire (Bytes putLE)
open Interleave (Scripted)
open Interleave.Scripted (loop Does)

/-! ## Sending -/

/-- The outbox after one of its operations. -/
def World.withOutbox (w : World) (o : ControlOutbox) : World :=
  { w with outbox := o, past := { w.past with ended := w.past.ended || o.broken } }

theorem onOutbox_does {m : Scripted ControlOutbox Answer Status}
    {Q : ControlOutbox → Status → ControlOutbox → Prop}
    (spec : ∀ o₀, Does (· = o₀) (fun _ _ => True) m (Q o₀)) (w₀ : World) :
    Does (· = w₀) (fun _ _ => True) (onOutbox m) fun st w =>
      ∃ o, Q w₀.outbox st o ∧ w = w₀.withOutbox o := by
  refine .bind (Does.on _ (spec w₀.outbox)) fun st => ?_
  refine .bind (.set (Q := fun _ w => ∃ o, Q w₀.outbox st o ∧ w = w₀.withOutbox o) ?_) fun _ =>
    .pure fun _ h => h
  rintro _ ⟨o, rfl, done⟩
  exact ⟨trivial, o, done, rfl⟩

/-- What sending a frame leaves. -/
inductive Sends (w : World) (f : Frame) : Status → World → Prop
  | unconnected : w.sock = none → Sends w f .peerDisconnected w
  | posted {st : Status} {o : ControlOutbox} : w.sock ≠ none → w.outbox.Posted f.encode st o →
      Sends w f st (w.withOutbox o)

theorem sendFrame_does (type : Nat) (body : Bytes) (w₀ : World) :
    Does (· = w₀) (fun _ _ => True) (sendFrame w₀.sock type body) (Sends w₀ ⟨type, body⟩) := by
  cases connected : w₀.sock with
  | none =>
    refine .pure ?_
    rintro _ rfl
    exact .unconnected connected
  | some fd =>
    refine .bind (.get (Q := fun sock w => sock = some fd ∧ w = w₀) ?_) fun sock => ?_
    · rintro _ rfl
      exact ⟨connected, rfl⟩
    · refine .ite (fun _ => ?_) fun other => ?_
      · refine .weaken (onOutbox_does (ControlOutbox.post_does _) w₀) (fun _ h => h.2) ?_
        rintro st _ ⟨o, posted, rfl⟩
        exact .posted (by rw [connected]; simp) posted
      · exact fun w es st w' es' h => absurd h.1.symm other

/-! ## The steps -/

/-- What a section is for. -/
inductive Mode
  /-- `disconnect`, or the destructor. -/
  | leaving
  /-- A flush, in a section before it, found that the connection is over. -/
  | told
  | other
  deriving DecidableEq

/-- Why the peer is taken to be gone. -/
inductive Why (w : World) : Prop
  | ended : w.past.ended = true → Why w
  /-- A Publish frame that the outbox had no room for. -/
  | crowded {o : ControlOutbox} {msg : Bytes} : (o, msg) ∈ w.past.offers → o.q ≠ [] →
      o.limit < o.bytes + msg.length → Why w
  | unconnected : w.sock = none → w.past.strays ≠ [] ∨ w.conn ≠ none → Why w
  | closed : w.outbox.fd = none → Why w

def World.withdraws (w : World) (key : Nat) : World :=
  { w with
    exported := w.exported.erase key
    withdrawAcks := w.withdrawAcks.insert key false }

def World.forget (w : World) (key : Nat) : World :=
  { w with withdrawAcks := w.withdrawAcks.erase key }

def withdrawal (key : Nat) : Frame := ⟨kFrameWithdraw, putLE 8 key⟩

/-- `deregister_region` up to its wait: how it ends there, or the socket to wait on. -/
inductive Deregisters (w : World) (key : Nat) : Status ⊕ (Nat × Option Nat) → World → Prop
  | unknown : w.exported.find key = none → Deregisters w key (.inl .notFound) w
  | unconnected : w.exported.find key ≠ none → w.sock = none →
      Deregisters w key (.inl .ok) { w with exported := w.exported.erase key }
  | unsent {st : Status} {w' : World} : w.exported.find key ≠ none → w.sock ≠ none →
      Sends (w.withdraws key) (withdrawal key) st w' → st ≠ .ok →
      Deregisters w key (.inl .ok) (w'.forget key)
  | waits {w' : World} (deadline : Nat) : w.exported.find key ≠ none → w.sock ≠ none →
      Sends (w.withdraws key) (withdrawal key) .ok w' →
      Deregisters w key (.inr (deadline, w.sock)) w'
  | late {w' : World} : w.exported.find key ≠ none → w.sock ≠ none →
      Sends (w.withdraws key) (withdrawal key) .ok w' →
      Deregisters w key (.inl .timeout) (w'.forget key)

/-- A look at the acknowledgement after a pump. -/
inductive Checks (w : World) (key : Nat) : Status ⊕ Option Nat → World → Prop
  | agreed : w.withdrawAcks.find key ≠ some false → Checks w key (.inl .ok) (w.forget key)
  | waits : w.withdrawAcks.find key = some false → Checks w key (.inr w.sock) w
  | late : w.withdrawAcks.find key = some false → Checks w key (.inl .timeout) (w.forget key)

/-- The provider is there, and connected. -/
structure World.Up (w : World) : Prop where
  here : w.destroyed = false
  peer : w.peerGone = false
  sock : w.sock ≠ none

/-- `import_ipc` has returned a mapping for the entry. -/
def Held (w : World) (im : Imported) : Prop :=
  im.mapped ≠ 0 ∨ ∃ base, (im.handle, base) ∈ w.past.imports ∧
    im.mapped = returned (im.handle, base)

/-- Every step but those that read frames. -/
inductive Plain (mode : Mode) (w : World) : World → Prop
  | still : Plain mode w w
  | flushed {st : Status} {o : ControlOutbox} : w.outbox.Flushed st o →
      Plain mode w (w.withOutbox o)
  /-- A control frame. -/
  | sent {f : Frame} {st : Status} {w' : World} : f.type = kFrameControl → Sends w f st w' →
      Plain mode w w'
  | offered (key : Nat) (e : Exported) : Plain mode w (w.note fun p =>
      { p with
        offers := p.offers ++ [(w.outbox, Frame.encode ⟨kFramePublish, publication key e⟩)] })
  | published {key : Nat} {e : Exported} {st : Status} {w' : World} :
      w.exported.find key = some e → Sends w ⟨kFramePublish, publication key e⟩ st w' →
      Plain mode w w'
  | exported (e : Exported) :
      Plain mode w
        { w with nextKey := u64 (w.nextKey + 1), exported := w.exported.insert w.nextKey e }
  | deregisters {key : Nat} {r : Status ⊕ (Nat × Option Nat)} {w' : World} :
      Deregisters w key r w' → Plain mode w w'
  | checks {key : Nat} {r : Status ⊕ Option Nat} {w' : World} : Checks w key r w' →
      Plain mode w w'
  | gone : mode = .told ∨ Why w → Plain mode w { w with peerGone := true }
  /-- `close_ipc` of a mapping that goes with the connection. -/
  | closed {key : Nat} {im : Imported} (n : Nat) : mode = .leaving ∨ w.peerGone = true →
      w.imported.find key = some im → im.mapped ≠ 0 →
      Plain mode w
        { w with
          mappingsNotReleased := n
          imported := w.imported.insert key { im with mapped := 0 }
          past := { w.past with closes := w.past.closes ++ [im.mapped] } }
  | cleared : mode = .leaving ∨ w.peerGone = true → (∀ x ∈ w.imported.entries, x.2.mapped = 0) →
      Plain mode w { w with imported := .empty }
  | dropped : mode = .leaving ∨ w.peerGone = true → Plain mode w w.dropSocket
  | left : mode = .leaving → Plain mode w { w with conn := none }
  | destroyed : mode = .leaving → (∀ x ∈ w.imported.entries, x.2.mapped = 0) →
      Plain mode w { w with destroyed := true }
  | descriptors (l : List Nat) : Plain mode w { w with opened := l }
  | met (peer : Identity) : Plain mode w { w with peerIdentity := peer }
  | established (fd : Nat) (id : ConnId) :
      Plain mode w { w with sock := some fd, outbox := .reset (some fd), conn := some id }
  | stray (id : ConnId) : Plain mode w (w.note fun p =>
      { p with strays := if w.conn = none then p.strays ++ [id] else p.strays })
  | mapped {key : Nat} {im : Imported} {base : Nat} : w.destroyed = false →
      w.imported.find key = some im → im.mapped = 0 → base ≠ 0 →
        base + im.handle.allocationBytes < 2 ^ 64 →
      Plain mode w
        { w with
          imported := w.imported.insert key { im with mapped := u64 (base + im.handle.offset) }
          past := { w.past with imports := w.past.imports ++ [(im.handle, base)] } }
  | copied {im : Imported} {op : SubOp} (cs : Status) : w.Up →
      w.imported.find op.remoteKey = some im → Held w im → im.peerAddr ≤ op.remoteAddr →
      op.remoteAddr - im.peerAddr + op.length ≤ im.length →
      Plain mode w (w.copied im op (u64 (im.mapped + (op.remoteAddr - im.peerAddr))) cs)
  | reported (evs : List CompletionEvent) (stats : ProviderStats) :
      Plain mode w { w with completions := evs, stats := stats }
  | handed (n : Nat) : Plain mode w
      { w with
        control := w.control.drop n
        past := { w.past with handed := w.past.handed ++ w.control.take n } }

/-! ## The sections -/

variable {mode : Mode}

/-- So much of the mappings is still to be closed. -/
structure Closing (mode : Mode) (rest : List (Nat × Imported)) (w : World) : Prop where
  ends : mode = .leaving ∨ w.peerGone = true
  there : ∀ x ∈ rest, w.imported.find x.1 = some x.2
  keys : (rest.map (·.1)).Nodup
  others : ∀ x ∈ w.imported.entries, x.2.mapped ≠ 0 → x ∈ rest

theorem closeMappings_does (entries : List (Nat × Imported)) :
    Does (Closing mode entries) (Plain mode) (closeMappings entries)
      fun _ w => (mode = .leaving ∨ w.peerGone = true) ∧
        ∀ x ∈ w.imported.entries, x.2.mapped = 0 := by
  induction entries with
  | nil =>
    refine .pure fun w closing => ⟨closing.ends, fun x hx => ?_⟩
    by_contra held
    exact absurd (closing.others x hx held) List.not_mem_nil
  | cons x rest ih =>
    obtain ⟨key, im⟩ := x
    rw [closeMappings]
    refine .ite (fun held => ?_) fun null => ?_
    · refine .bind (.ask (Q := fun _ w => Closing mode rest w) ?_) fun _ => ih
      intro w e st w' closing answered
      have there := closing.there (key, im) List.mem_cons_self
      obtain ⟨fresh, keys⟩ := List.nodup_cons.mp closing.keys
      split at answered
      · cases answered
        refine ⟨.closed _ closing.ends there held, ?_, ?_, keys, ?_⟩
        · exact closing.ends
        · intro y hy
          have ne : y.1 ≠ key := by
            rintro rfl
            exact fresh (List.mem_map.mpr ⟨y, hy, rfl⟩)
          rw [Table.find_insert_of_ne ne]
          exact closing.there y (List.mem_cons_of_mem _ hy)
        · rintro ⟨k, im'⟩ hk held'
          rcases Table.mem_insert.mp hk with ⟨-, rfl⟩ | ⟨ne, old⟩
          · exact absurd rfl held'
          · rcases List.mem_cons.mp (closing.others _ old held') with same | later
            · exact absurd (congrArg Prod.fst same) ne
            · exact later
      · cases answered
    · refine ih.weaken (fun w closing => ⟨closing.ends, ?_, ?_, ?_⟩) fun _ _ h => h
      · exact fun y hy => closing.there y (List.mem_cons_of_mem _ hy)
      · exact (List.nodup_cons.mp closing.keys).2
      · intro y hy held'
        rcases List.mem_cons.mp (closing.others y hy held') with rfl | later
        · exact absurd held' null
        · exact later

variable {w : World}

theorem closing_entries (ends : mode = .leaving ∨ w.peerGone = true) :
    Closing mode w.imported.entries w where
  ends := ends
  there _ hx := Table.find_eq_some.mpr hx
  keys := w.imported.nodup_keys
  others _ hx _ := hx

theorem dropMappings_does :
    Does (fun w => mode = .leaving ∨ w.peerGone = true) (Plain mode) dropMappings
      fun _ w => mode = .leaving ∨ w.peerGone = true := by
  refine .bind (.get (Q := Closing mode) fun w => closing_entries) fun entries => ?_
  refine .bind (closeMappings_does entries) fun _ => .set fun w h => ⟨.cleared h.1 h.2, h.1⟩

theorem peerIsGoneLocked_does :
    Does (fun w => mode = .told ∨ Why w) (Plain mode) peerIsGoneLocked fun _ _ => True := by
  refine .bind (.get (Q := fun _ w => mode = .told ∨ Why w) fun _ why => why) fun gone => ?_
  refine .ite (fun _ => .pure fun _ _ => trivial) fun _ => ?_
  refine .bind (.set (Q := fun _ w => mode = .leaving ∨ w.peerGone = true) ?_) fun _ => ?_
  · exact fun w why => ⟨.gone why, .inr rfl⟩
  · exact .bind dropMappings_does fun _ => .set fun w down => ⟨.dropped down, trivial⟩

variable {w' : World} {f : Frame} {st : Status}

/-- A frame that was not sent because there is nowhere to send it to. -/
theorem Sends.why (sends : Sends w f st w')
    (linked : w.sock = none → w.past.strays ≠ [] ∨ w.conn ≠ none) (down : st = .peerDisconnected) :
    Why w' := by
  cases sends with
  | unconnected alone => exact .unconnected alone (linked alone)
  | @posted _ o _ posted =>
    subst down
    rcases posted.said with ⟨⟨⟩, -⟩ | ⟨⟨⟩, -⟩ | ⟨-, -, broken | closed⟩ | ⟨⟨⟩, -⟩
    · exact .ended (by simp [World.withOutbox, broken])
    · exact .closed closed

theorem length_encode (f : Frame) : f.encode.length = 6 + f.body.length := by
  simp [Frame.encode]
  omega

theorem encode_ne_nil (f : Frame) : f.encode ≠ [] := by
  intro empty
  have none := congrArg List.length empty
  rw [length_encode, List.length_nil] at none
  omega

/-- A Publish frame that was not sent. -/
theorem Sends.why_offered (sends : Sends w f st w') (connected : w.sock ≠ none)
    (offered : (w.outbox, f.encode) ∈ w.past.offers) (unsent : st ≠ .ok) : Why w' := by
  cases sends with
  | unconnected alone => exact absurd alone connected
  | @posted _ o _ posted =>
    rcases posted.said with ⟨ok, -⟩ | ⟨-, -, -, queue, full⟩ | ⟨-, -, broken | closed⟩ |
      ⟨-, empty, -⟩
    · exact absurd ok unsent
    · exact .crowded offered queue full
    · exact .ended (by simp [World.withOutbox, broken])
    · exact .closed closed
    · exact absurd empty (encode_ne_nil f)

theorem Sends.sock_eq (sends : Sends w f st w') : w'.sock = w.sock := by
  cases sends <;> rfl

theorem Sends.exported_eq (sends : Sends w f st w') : w'.exported = w.exported := by
  cases sends <;> rfl

/-- A region is published on the socket, or the peer is gone. -/
theorem publish_does (fd : Nat) {t : Table Exported} {key : Nat} {e : Exported}
    (known : t.find key = some e) :
    Does (fun w => w.sock = some fd ∧ w.exported = t) (Plain mode) (publish (some fd) key e)
      fun st w => (st ≠ .ok → Why w) ∧ w.sock = some fd ∧ w.exported = t := by
  refine .bind (.set (Q := fun _ w => w.sock = some fd ∧ w.exported = t ∧
    (w.outbox, Frame.encode ⟨kFramePublish, publication key e⟩) ∈ w.past.offers) ?_) fun _ => ?_
  · rintro w ⟨connected, same⟩
    exact ⟨.offered key e, connected, same, by simp [World.note]⟩
  · refine .once fun w₀ h => ?_
    obtain ⟨connected, same, offered⟩ := h
    have spec := sendFrame_does kFramePublish (publication key e) w₀
    rw [connected] at spec
    refine spec.weaken (fun _ h => h) fun st w sends =>
      ⟨.published (same ▸ known) sends, ?_, ?_, ?_⟩
    · exact fun unsent => sends.why_offered (by rw [connected]; simp) offered unsent
    · rw [sends.sock_eq, connected]
    · rw [sends.exported_eq, same]

theorem publishEntries_does (fd : Nat) {t : Table Exported} {entries : List (Nat × Exported)}
    (known : ∀ x ∈ entries, t.find x.1 = some x.2) :
    Does (fun w => w.sock = some fd ∧ w.exported = t) (Plain mode) (publishEntries fd entries)
      fun _ _ => True := by
  induction entries with
  | nil => exact .pure fun _ _ => trivial
  | cons x rest ih =>
    obtain ⟨first, later⟩ := List.forall_mem_cons.mp known
    refine .bind (publish_does fd first) fun st => .ite (fun unsent => ?_) fun _ => ?_
    · exact peerIsGoneLocked_does.weaken (fun _ h => .inr (h.1 unsent)) fun _ _ h => h
    · exact (ih later).weaken (fun _ h => h.2) fun _ _ h => h

theorem publishAll_does (fd : Nat) :
    Does (fun w => w.sock = some fd) (Plain mode) (publishAll fd) fun _ _ => True := by
  refine .bind (.get (Q := fun entries w => w.sock = some fd ∧ w.exported.entries = entries)
    fun _ connected => ⟨connected, rfl⟩) fun entries => ?_
  intro w es a w' es' h run
  have known : ∀ x ∈ entries, w.exported.find x.1 = some x.2 := by
    intro x hx
    exact Table.find_eq_some.mpr (h.2 ▸ hx)
  exact publishEntries_does fd known w es a w' es' ⟨h.1, rfl⟩ run

/-! ## Connecting -/

/-- A loop that only waits for the socket. -/
theorem loop_does {L α : Type} {f : L → World → Answer → Option ((L ⊕ α) × World)}
    (same : ∀ l w e x w', f l w e = some (x, w') → w' = w) (l : L) :
    Does (fun _ => True) (Plain mode) (loop f l) fun _ _ => True := by
  refine .loop (I := fun _ _ => True) ?_ ?_ l
  · intro l w e l' w' _ h
    obtain rfl := same l w e _ w' h
    exact ⟨.still, trivial⟩
  · intro l w e a w' _ h
    obtain rfl := same l w e _ w' h
    exact ⟨.still, trivial⟩

theorem sendAll_does (bs : Bytes) :
    Does (fun _ => True) (Plain mode) (sendAll bs) fun _ _ => True := by
  refine loop_does (fun rest w e x w' h => ?_) bs
  unfold sendAllStep at h
  split at h
  · split at h <;> cases h
    rfl
  all_goals
    cases h
  all_goals rfl

theorem recvAll_does (n : Nat) : Does (fun _ => True) (Plain mode) (recvAll n) fun _ _ => True := by
  refine loop_does (fun bs w e x w' h => ?_) []
  unfold recvAllStep at h
  split at h
  · split at h <;> cases h
    rfl
  all_goals
    cases h
  all_goals rfl

theorem handshake_does : Does (fun _ => True) (Plain mode) handshake fun _ _ => True := by
  refine .bind (.get (Q := fun _ _ => True) fun _ _ => trivial) fun me => ?_
  refine .bind (sendAll_does _) fun went => .ite (fun _ => .pure fun _ _ => trivial) fun _ => ?_
  refine .bind (recvAll_does _) fun r => ?_
  cases r with
  | error again => exact .pure fun _ _ => trivial
  | ok theirs =>
    refine .ite (fun _ => .pure fun _ _ => trivial) fun _ => ?_
    cases decodeIdentity theirs 4 with
    | error _ => exact .pure fun _ _ => trivial
    | ok peer =>
      refine .ite (fun _ => .pure fun _ _ => trivial) fun _ => ?_
      refine .bind (.set (Q := fun _ _ => True) fun w _ => ⟨.met peer, trivial⟩) fun _ => ?_
      exact .pure fun _ _ => trivial

theorem establish_does (fd : Nat) (id : ConnId) :
    Does (fun _ => True) (Plain mode) (establish fd id) fun _ _ => True := by
  refine .bind handshake_does fun s => .ite (fun _ => ?_) fun _ => ?_
  · refine .bind (.set (Q := fun _ _ => True) fun w _ => ⟨.descriptors _, trivial⟩) fun _ => ?_
    exact .pure fun _ _ => trivial
  · refine .bind (.set (Q := fun _ w => w.sock = some fd) fun w _ => ⟨.established fd id, rfl⟩)
      fun _ => ?_
    exact .bind (publishAll_does fd) fun _ => .pure fun _ _ => trivial

theorem newSocket_does : Does (fun _ => True) (Plain mode) newSocket fun _ _ => True := by
  refine .ask fun w e a w' _ h => ?_
  split at h
  · cases h
    exact ⟨.still, trivial⟩
  · split at h
    · cases h
    · cases h
      exact ⟨.descriptors _, trivial⟩
  · cases h

theorem now_does {P : World → Prop} {R : World → World → Prop} (still : ∀ w, R w w) :
    Does P R now fun _ => P := by
  refine .ask fun w e a w' hp h => ?_
  split at h
  · cases h
    exact ⟨still w, hp⟩
  · cases h

theorem exportIpc_does : Does (fun _ => True) (Plain mode) exportIpc fun _ _ => True := by
  refine .ask fun w e a w' _ h => ?_
  split at h
  · cases h
    exact ⟨.still, trivial⟩
  · cases h

theorem select_does : Does (fun _ => True) (Plain mode) select fun _ _ => True := by
  refine .ask fun w e a w' _ h => ?_
  split at h
  · cases h
    exact ⟨.still, trivial⟩
  · cases h

theorem registerLocked_does (e : Exported) :
    Does (fun _ => True) (Plain mode) (registerLocked e) fun _ _ => True := by
  refine .bind (.get (Q := fun key w => key = w.nextKey) fun _ _ => rfl) fun key => ?_
  refine .bind (.set (Q := fun _ w => w.exported.find key = some e) ?_) fun _ => ?_
  · rintro w rfl
    exact ⟨.exported e, Table.find_insert_self⟩
  refine .bind (.get (Q := fun sock w => w.sock = sock ∧ w.exported.find key = some e)
    fun _ known => ⟨rfl, known⟩) fun sock => ?_
  refine .ite (fun _ => .pure fun _ _ => trivial) fun connected => ?_
  obtain ⟨fd, rfl⟩ := Option.ne_none_iff_exists'.mp connected
  refine .bind (Q := fun st w => st ≠ .ok → Why w) ?_ fun st =>
    .ite (fun unsent => ?_) fun _ => .pure fun _ _ => trivial
  · intro w es st w' es' h run
    obtain ⟨steps, why, -⟩ := publish_does fd h.2 w es st w' es' ⟨h.1, rfl⟩ run
    exact ⟨steps, why⟩
  · refine .bind (peerIsGoneLocked_does.weaken (fun _ h => .inr (h unsent)) fun _ _ h => h)
      fun _ => ?_
    exact .pure fun _ _ => trivial

/-! ## Leaving -/

theorem disconnectLocked_does :
    Does (fun _ => True) (Plain .leaving) disconnectLocked fun _ _ => True := by
  refine .bind (dropMappings_does.weaken (fun _ _ => .inl rfl) fun _ _ h => h) fun _ => ?_
  refine .bind (.set (Q := fun _ _ => True) fun w _ => ⟨.dropped (.inl rfl), trivial⟩) fun _ => ?_
  refine .bind (.set (Q := fun _ _ => True) fun w _ => ⟨.left rfl, trivial⟩) fun _ => ?_
  exact .pure fun _ _ => trivial

theorem destroyAll_does : Does (fun _ => True) (Plain .leaving) destroyAll fun _ _ => True := by
  refine .bind (.get (Q := Closing .leaving) fun w _ => closing_entries (.inl rfl))
    fun entries => ?_
  refine .bind (closeMappings_does entries) fun _ => ?_
  refine .bind (.set (Q := fun _ _ => True) fun w h => ⟨.destroyed rfl h.2, trivial⟩) fun _ => ?_
  exact .set fun w _ => ⟨.dropped (.inl rfl), trivial⟩

/-! ## Withdrawing -/

theorem withdrawFrom_does (key : Nat) (w₀ : World) :
    Does (· = w₀) (fun _ _ => True) (withdrawFrom key) (Deregisters w₀ key) := by
  refine .bind (.get (Q := fun found w => w₀.exported.find key = found ∧ w = w₀) ?_) fun found => ?_
  · rintro _ rfl
    exact ⟨rfl, rfl⟩
  cases found with
  | none =>
    refine .pure ?_
    rintro _ ⟨unknown, rfl⟩
    exact .unknown unknown
  | some e =>
    by_cases known : w₀.exported.find key = some e
    swap
    · exact fun w es a w' es' h => absurd h.1 known
    have here : w₀.exported.find key ≠ none := by rw [known]; simp
    refine .bind (.set (Q := fun _ w => w = { w₀ with exported := w₀.exported.erase key }) ?_)
      fun _ => ?_
    · rintro _ ⟨-, rfl⟩
      exact ⟨trivial, rfl⟩
    refine .bind (.get (Q := fun sock w => sock = w₀.sock ∧
      w = { w₀ with exported := w₀.exported.erase key }) ?_) fun sock => ?_
    · rintro _ rfl
      exact ⟨rfl, rfl⟩
    refine .ite (fun alone => .pure ?_) fun connected => ?_
    · rintro _ ⟨same, rfl⟩
      exact .unconnected here (same ▸ alone)
    by_cases same : sock = w₀.sock
    swap
    · exact fun w es a w' es' h => absurd h.1 same
    subst same
    refine .bind (.set (Q := fun _ w => w = w₀.withdraws key) ?_) fun _ => ?_
    · rintro _ ⟨-, rfl⟩
      exact ⟨trivial, rfl⟩
    refine .bind (sendFrame_does kFrameWithdraw (putLE 8 key) (w₀.withdraws key)) fun st => ?_
    refine .ite (fun unsent => ?_) fun sent => ?_
    · refine .bind (.set (Q := fun _ w => Deregisters w₀ key (.inl .ok) w) ?_) fun _ =>
        .pure fun _ h => h
      exact fun w sends => ⟨trivial, .unsent here connected sends unsent⟩
    · obtain rfl : st = .ok := not_not.mp sent
      refine .bind (now_does fun _ => trivial) fun start => .bind (now_does fun _ => trivial)
        fun t => ?_
      refine .ite (fun _ => .pure fun w sends => .waits _ here connected sends) fun _ => ?_
      refine .bind (.set (Q := fun _ w => Deregisters w₀ key (.inl .timeout) w) ?_) fun _ =>
        .pure fun _ h => h
      exact fun w sends => ⟨trivial, .late here connected sends⟩

theorem checkAck_does (key deadline : Nat) (w₀ : World) :
    Does (· = w₀) (fun _ _ => True) (checkAck key deadline) (Checks w₀ key) := by
  refine .bind (.get (Q := fun ack w => ack = w₀.withdrawAcks.find key ∧ w = w₀) ?_) fun ack => ?_
  · rintro _ rfl
    exact ⟨rfl, rfl⟩
  by_cases same : ack = w₀.withdrawAcks.find key
  swap
  · exact fun w es a w' es' h => absurd h.1 same
  subst same
  refine .ite (fun agreed => ?_) fun waiting => ?_
  · refine .bind (.set (Q := fun _ w => Checks w₀ key (.inl .ok) w) ?_) fun _ =>
      .pure fun _ h => h
    rintro _ ⟨-, rfl⟩
    exact ⟨trivial, .agreed agreed⟩
  have waiting := not_not.mp waiting
  refine .bind (now_does fun _ => trivial) fun t => .ite (fun _ => ?_) fun _ => ?_
  · refine .bind (.get (Q := fun sock w => Checks w₀ key (.inr sock) w) ?_) fun _ =>
      .pure fun _ h => h
    rintro _ ⟨-, rfl⟩
    exact .waits waiting
  · refine .bind (.set (Q := fun _ w => Checks w₀ key (.inl .timeout) w) ?_) fun _ =>
      .pure fun _ h => h
    rintro _ ⟨-, rfl⟩
    exact ⟨trivial, .late waiting⟩

/-! ## Transfers -/

theorem ensureMapped_does (key : Nat) :
    Does World.Up (Plain mode) (ensureMapped key) fun r w => w.Up ∧
      ∀ im, r = .ok im → w.imported.find key = some im ∧ Held w im := by
  refine .bind (.get (Q := fun found w => w.Up ∧ w.imported.find key = found)
    fun _ up => ⟨up, rfl⟩) fun found => ?_
  cases found with
  | none => exact .pure fun w h => ⟨h.1, fun _ none => by cases none⟩
  | some im =>
    refine .ite (fun null => ?_) fun held => .pure ?_
    · refine .ask fun w e r w' h answered => ?_
      split at answered
      · split at answered
        · cases answered
          exact ⟨.still, h.1, fun _ none => by cases none⟩
        · split at answered
          · cases answered
          · rename_i base _ contract
            obtain ⟨there, room⟩ := not_or.mp contract
            cases answered
            refine ⟨.mapped h.1.here h.2 null there (Nat.not_le.mp room),
              ⟨h.1.here, h.1.peer, h.1.sock⟩, ?_⟩
            rintro _ ⟨⟩
            exact ⟨Table.find_insert_self, .inr ⟨base, by simp, rfl⟩⟩
      · cases answered
    · rintro w ⟨up, there⟩
      refine ⟨up, ?_⟩
      rintro _ ⟨⟩
      exact ⟨there, .inl held⟩

theorem transfer_does (ops : List SubOp) (r : SubmitResult) (landed : List CompletionEvent) :
    Does World.Up (Plain mode) (transfer ops r landed) fun _ _ => True := by
  induction ops generalizing r landed with
  | nil => exact .pure fun _ _ => trivial
  | cons op rest ih =>
    refine .bind (ensureMapped_does op.remoteKey) fun found => ?_
    cases found with
    | error s => exact .pure fun _ _ => trivial
    | ok im =>
      refine .ite (fun _ => .pure fun _ _ => trivial) fun above =>
        .ite (fun _ => .pure fun _ _ => trivial) fun inside =>
        .ite (fun _ => .pure fun _ _ => trivial) fun _ => ?_
      refine .bind (.ask (Q := fun _ w => w.Up) ?_) fun _ => ih _ _
      intro w e cs w' h answered
      split at answered
      · cases answered
        obtain ⟨there, held⟩ := h.2 im rfl
        refine ⟨.copied _ h.1 there held (Nat.not_lt.mp above) ?_, ⟨h.1.here, h.1.peer, h.1.sock⟩⟩
        have := not_or.mp inside
        omega
      · cases answered

theorem submitLocked_does (ops : List SubOp) :
    Does (fun w => w.destroyed = false) (Plain mode) (submitLocked ops) fun _ _ => True := by
  refine .bind (.get (Q := fun down w => down = (w.peerGone || w.sock.isNone) ∧
    w.destroyed = false) fun _ here => ⟨rfl, here⟩)
    fun down => .ite (fun _ => .pure fun _ _ => trivial) fun up => ?_
  refine .bind ((transfer_does ops _ _).weaken ?_ fun _ _ h => h) fun x => ?_
  · rintro w ⟨same, here⟩
    simp only [same, Bool.or_eq_true, Option.isNone_iff_eq_none, not_or, Bool.not_eq_true] at up
    exact ⟨here, up.1, up.2⟩
  · refine .ite (fun _ => .pure fun _ _ => trivial) fun _ => ?_
    refine .bind (.ask (Q := fun _ _ => True) ?_) fun ss => ?_
    · intro w e a w' _ answered
      split at answered
      · cases answered
        exact ⟨.still, trivial⟩
      · cases answered
    · refine .bind (.set (Q := fun _ _ => True) fun w _ => ⟨.reported _ _, trivial⟩) fun _ => ?_
      exact .pure fun _ _ => trivial

theorem pollLocked_does (n : Nat) :
    Does (fun _ => True) (Plain mode) (pollLocked n) fun _ _ => True := by
  refine .bind (.get (Q := fun _ _ => True) fun _ _ => trivial) fun out => ?_
  refine .bind (.set (Q := fun _ _ => True) fun w _ => ⟨.reported _ _, trivial⟩) fun _ => ?_
  exact .pure fun _ _ => trivial

/-! ## Control messages -/

theorem sendControlLocked_does (id : ConnId) (type : Nat) (payload : Bytes) :
    Does (fun _ => True) (Plain mode) (sendControlLocked id type payload) fun _ _ => True := by
  refine .bind (.get (Q := fun _ _ => True) fun _ _ => trivial) fun gone =>
    .ite (fun _ => .pure fun _ _ => trivial) fun _ => ?_
  refine .bind (.set (Q := fun _ w => w.past.strays ≠ [] ∨ w.conn ≠ none) ?_) fun _ => ?_
  · intro w _
    refine ⟨.stray id, ?_⟩
    by_cases alone : w.conn = none
    · exact .inl (by simp [World.note, alone])
    · exact .inr alone
  refine .bind (.get (Q := fun sock w => sock = w.sock ∧ (w.past.strays ≠ [] ∨ w.conn ≠ none))
    fun _ h => ⟨rfl, h⟩) fun sock => ?_
  refine .bind (Q := fun st w => st = .peerDisconnected → Why w) (.once fun w₀ h => ?_) fun st =>
    .ite (fun down => ?_) fun _ => .pure fun _ _ => trivial
  · obtain ⟨rfl, linked⟩ := h
    refine (sendFrame_does kFrameControl _ w₀).weaken (fun _ h => h) fun st w sends => ?_
    exact ⟨.sent rfl sends, sends.why fun _ => linked⟩
  · refine .bind (peerIsGoneLocked_does.weaken (fun _ h => .inr (h down)) fun _ _ h => h)
      fun _ => ?_
    exact .pure fun _ _ => trivial

theorem broadcastLocked_does (type : Nat) (payload : Bytes) :
    Does (fun _ => True) (Plain mode) (broadcastLocked type payload) fun _ _ => True := by
  refine .bind (.get (Q := fun sock w => sock = none ∨ sock = w.sock) ?_) fun sock =>
    .ite (fun _ => .pure fun _ _ => trivial) fun connected => ?_
  · intro w _
    by_cases gone : w.peerGone = true
    · exact .inl (if_pos gone)
    · exact .inr (if_neg gone)
  refine .bind (Q := fun st w => st = .peerDisconnected → Why w) (.once fun w₀ h => ?_) fun st =>
    .ite (fun down => ?_) fun _ => .pure fun _ _ => trivial
  · obtain rfl := h.resolve_left connected
    refine (sendFrame_does kFrameControl _ w₀).weaken (fun _ h => h) fun st w sends => ?_
    exact ⟨.sent rfl sends, sends.why fun alone => absurd alone connected⟩
  · refine .bind (peerIsGoneLocked_does.weaken (fun _ h => .inr (h down)) fun _ _ h => h)
      fun _ => ?_
    exact .pure fun _ _ => trivial

theorem takeControl_does (n : Nat) :
    Does (fun _ => True) (Plain mode) (takeControl n) fun _ _ => True := by
  refine .bind (.get (Q := fun _ _ => True) fun _ _ => trivial) fun out => ?_
  refine .bind (.set (Q := fun _ _ => True) fun w _ => ⟨.handed n, trivial⟩) fun _ => ?_
  exact .pure fun _ _ => trivial

end Hux.Ipc
