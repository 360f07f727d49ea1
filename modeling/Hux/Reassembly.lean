import Hux.RdmaControl

/-!
# Control messages put together again

* `control_messages_reassembled`: what was delivered on a connection and what is still in
  `rx` are the messages that have arrived whole, however the socket cut them;
* `polls_agree_with_sends`: so one host polls what the other has taken for sending;
* `nothing_after_a_rejected_header`: what is read after a header that was rejected is parsed
  from its own beginning, so nothing comes of it only while it is shorter than a header.
-/

namespace Hux.RdmaControl
open Wire (Bytes)
open Interleave.Scripted (Does Each)
open Framing (Cuts)
open Relation (ReflTransGen)

/-! ## What each connection has heard and said -/

/-- What has come of what was read on a connection. -/
structure Heard (c : Connection) (ms : List ControlMessage) : Prop where
  going : c.rejectedAt = none → ∃ fs : List Bytes, (∀ f ∈ fs, format.Whole f) ∧
    c.received = fs.flatten ++ c.rx ∧ ms = fs.map (messageIn c.id)
  lost : ∀ n, c.rejectedAt = some n → c.rx.length + n ≤ c.received.length ∧
    ∃ (fs : List Bytes) (bad : Bytes), (∀ f ∈ fs, format.Whole f) ∧ Rejected bad ∧
      c.received.take n = fs.flatten ++ bad

/-- What a connection's outbox has taken are messages. -/
structure Speaks (c : Connection) : Prop where
  sound : c.outbox.Sound
  messages : ∃ sent : List (Nat × Bytes),
    (∀ m ∈ sent, Sendable m) ∧ c.outbox.accepted = sent.map encode

section
variable {c c' : Connection} {ms : List ControlMessage}

theorem Parsed.id_eq (parsed : Parsed c ms c') : c'.id = c.id := by
  cases parsed <;> rfl

theorem Parsed.outbox_eq (parsed : Parsed c ms c') : c'.outbox = c.outbox := by
  cases parsed <;> rfl

theorem Parsed.received_eq (parsed : Parsed c ms c') : c'.received = c.received := by
  cases parsed <;> rfl

theorem Parsed.conn_eq (parsed : Parsed c ms c') : ∀ m ∈ ms, m.conn = some c.id := by
  cases parsed <;> (intro m hm; obtain ⟨f, -, rfl⟩ := List.mem_map.mp hm; rfl)

theorem Polled.id_eq (polled : Polled c ms c') : c'.id = c.id := by
  cases polled with
  | closed => rfl
  | read _ parsed => exact parsed.id_eq

theorem Polled.conn_eq (polled : Polled c ms c') : ∀ m ∈ ms, m.conn = some c.id := by
  cases polled with
  | closed => simp
  | read _ parsed => exact parsed.conn_eq

variable {n : Nat}

/-- The first rejection stays the first. -/
theorem Parsed.rejectedAt_eq (parsed : Parsed c ms c') (lost : c.rejectedAt = some n) :
    c'.rejectedAt = some n := by
  cases parsed with
  | going => exact lost
  | rejected =>
    rw [Connection.reject, lost]
    rfl

theorem Polled.rejectedAt_eq (polled : Polled c ms c') (lost : c.rejectedAt = some n) :
    c'.rejectedAt = some n := by
  cases polled with
  | closed => exact lost
  | read _ parsed => exact parsed.rejectedAt_eq lost

theorem Heard.read (heard : Heard c ms) (bs : Bytes) (closed : Bool) :
    Heard (c.read bs closed) ms where
  going on := by
    obtain ⟨fs, whole, received, same⟩ := heard.going on
    refine ⟨fs, whole, ?_, same⟩
    rw [Connection.read, received, List.append_assoc]
  lost n at_ := by
    obtain ⟨few, fs, bad, whole, isBad, before⟩ := heard.lost n at_
    refine ⟨?_, fs, bad, whole, isBad, ?_⟩
    · rw [Connection.read, List.length_append, List.length_append]
      omega
    · rw [Connection.read, List.take_append_of_le_length (by omega)]
      exact before

variable {before : List ControlMessage}

theorem Heard.parsed (heard : Heard c before) (parsed : Parsed c ms c') :
    Heard c' (before ++ ms) := by
  cases parsed with
  | @going fs rest whole rx =>
    constructor
    · intro on
      obtain ⟨old, wholes, received, rfl⟩ := heard.going on
      refine ⟨old ++ fs, ?_, ?_, by rw [List.map_append]⟩
      · exact fun f hf => (List.mem_append.mp hf).elim (wholes f) (whole f)
      · rw [received, rx, List.flatten_append, List.append_assoc]
    · intro n lost
      obtain ⟨few, bad⟩ := heard.lost n lost
      rw [rx, List.length_append] at few
      exact ⟨by dsimp only; omega, bad⟩
  | @rejected fs bad whole rx isBad =>
    cases first : c.rejectedAt with
    | none =>
      obtain ⟨old, wholes, received, rfl⟩ := heard.going first
      constructor
      · intro on
        rw [Connection.reject, first] at on
        cases on
      · intro n lost
        rw [Connection.reject, first] at lost
        cases lost
        refine ⟨by simp [Connection.reject], old ++ fs, bad, ?_, isBad, ?_⟩
        · exact fun f hf => (List.mem_append.mp hf).elim (wholes f) (whole f)
        · rw [Connection.reject, List.take_length, received, rx, List.flatten_append,
            List.append_assoc]
    | some n =>
      constructor
      · intro on
        rw [Connection.reject, first] at on
        cases on
      · intro n' lost
        rw [Connection.reject, first] at lost
        cases lost
        obtain ⟨few, rest⟩ := heard.lost n first
        refine ⟨?_, rest⟩
        simp only [Connection.reject, List.length_nil]
        omega

theorem Heard.polled (heard : Heard c before) (polled : Polled c ms c') :
    Heard c' (before ++ ms) := by
  cases polled with
  | closed => rwa [List.append_nil]
  | @read o _ told ended bs _ _ _ parsed =>
    have after := Heard.read (c := c.told o told) ⟨heard.going, heard.lost⟩ bs ended
    exact after.parsed parsed

/-- A message is at least a header long. -/
theorem length_of_whole {f : Bytes} (whole : format.Whole f) : kControlHeaderBytes ≤ f.length :=
  (messageSize_eq_some.mp whole).1

/-- Of less than a header nothing comes. -/
theorem Parsed.eq_nil (parsed : Parsed c ms c') (short : c.rx.length < kControlHeaderBytes) :
    ms = [] := by
  have none {fs : List Bytes} {rest : Bytes} (whole : ∀ f ∈ fs, format.Whole f)
      (rx : c.rx = fs.flatten ++ rest) : fs.map (messageIn c.id) = [] := by
    cases fs with
    | nil => rfl
    | cons f fs =>
      have := length_of_whole (whole f List.mem_cons_self)
      rw [rx, List.flatten_cons, List.length_append, List.length_append] at short
      omega
  cases parsed with
  | going _ whole rx => exact none whole rx
  | rejected _ whole rx => exact none whole rx

/-- Nothing comes of what is read after a rejected header while it is shorter than one. -/
theorem Heard.polled_eq_nil (heard : Heard c before) (polled : Polled c ms c')
    (lost : c.rejectedAt = some n) (few : c'.received.length < n + kControlHeaderBytes) :
    ms = [] := by
  cases polled with
  | closed => rfl
  | @read o st told ended bs _ _ _ parsed =>
    have after := Heard.read (c := c.told o told) ⟨heard.going, heard.lost⟩ bs ended
    obtain ⟨rx, -⟩ := after.lost n lost
    rw [parsed.received_eq] at few
    exact parsed.eq_nil (by omega)

theorem Polled.speaks (polled : Polled c ms c') (speaks : Speaks c) : Speaks c' := by
  cases polled with
  | closed => exact speaks
  | @read o _ _ _ _ _ _ flushed parsed =>
    have same : c'.outbox = o := parsed.outbox_eq
    constructor
    · rw [same]
      exact flushed.sound speaks.sound
    · rw [same, flushed.accepted]
      exact speaks.messages

end

/-- What `send_control` does to a connection: only its outbox changes, by a message. -/
def Told (c c' : Connection) : Prop :=
  ∃ o closed, c' = c.told o closed ∧ (Speaks c → Speaks c')

theorem Told.refl (c : Connection) : Told c c := ⟨c.outbox, c.peerClosed, rfl, id⟩

theorem sendControl_does {type : Nat} (small : type < 2 ^ 16) (payload : Bytes)
    (c₀ : Connection) :
    Does (· = c₀) (fun _ _ => True) (sendControl type payload) fun _ c => Told c₀ c := by
  have still : ∀ c, c = c₀ → Told c₀ c := by
    rintro _ rfl
    exact .refl _
  refine .ite (fun _ => .pure still) fun fits => ?_
  refine .bind (.get (Q := fun _ c => c = c₀) fun _ h => h) fun fd => ?_
  refine .ite (fun _ => .pure still) fun opened => ?_
  refine (onOutbox_does (ControlOutbox.post_does _ c₀.outbox)).weaken (fun _ h => h) ?_
  rintro st _ ⟨o, closed, rfl, posted⟩
  refine ⟨o, closed, rfl, fun speaks => ⟨posted.sound speaks.sound, ?_⟩⟩
  obtain ⟨sent, all, accepted⟩ := speaks.messages
  change ∃ sent : List (Nat × Bytes), (∀ m ∈ sent, Sendable m) ∧ o.accepted = sent.map encode
  rcases posted.said with ⟨-, more, -⟩ | ⟨-, same, -⟩ | ⟨-, same, -⟩ | ⟨-, -, rfl⟩
  · refine ⟨sent ++ [(type, payload)], ?_, by rw [more, accepted, List.map_append]; rfl⟩
    intro m hm
    rcases List.mem_append.mp hm with old | new
    · exact all m old
    · cases List.mem_singleton.mp new
      exact ⟨small, Nat.not_lt.mp fits⟩
  · exact ⟨sent, all, same.trans accepted⟩
  · exact ⟨sent, all, same.trans accepted⟩
  · exact ⟨sent, all, accepted⟩

theorem broadcastTurn_does {type : Nat} (small : type < 2 ^ 16) (payload : Bytes)
    (tally : Nat × Nat) (c₀ : Connection) :
    Does (· = c₀) (fun _ _ => True) (broadcastTurn type payload tally) fun _ c => Told c₀ c := by
  refine .bind (.get (Q := fun _ c => c = c₀) fun _ h => h) fun c => ?_
  refine .ite (fun _ => .pure ?_) fun _ =>
    .bind (sendControl_does small payload c₀) fun st => .pure fun _ h => h
  rintro _ rfl
  exact .refl _

/-! ## Every connection at once -/

def Host.deliveredFrom (h : Host) (conn : ConnId) : List ControlMessage :=
  h.delivered.filter fun m => m.conn = some conn

structure Host.Sound (h : Host) : Prop where
  ids : (h.ctrlConns.map Connection.id).Nodup
  old : ∀ c ∈ h.ctrlConns, c.id < h.nextConn
  known : ∀ m ∈ h.delivered, ∃ i < h.nextConn, m.conn = some i
  heard : ∀ c ∈ h.ctrlConns, Heard c (h.deliveredFrom c.id)
  speaks : ∀ c ∈ h.ctrlConns, Speaks c

/-- One poll's messages, told apart by connection. -/
theorem each_polled {out out' : List ControlMessage} {cs cs' : List Connection}
    (each : Each (fun out c out' c' => ∃ ms, out' = out ++ ms ∧ Polled c ms c') out cs out' cs')
    (ids : (cs.map Connection.id).Nodup) :
    ∃ ms, out' = out ++ ms ∧ (∀ m ∈ ms, ∃ c ∈ cs, m.conn = some c.id) ∧
      ∀ c' ∈ cs', ∃ c ∈ cs, Polled c (ms.filter fun m => m.conn = some c.id) c' := by
  induction each with
  | nil => exact ⟨[], by simp, by simp, by simp⟩
  | @cons a a₁ a₂ c c' rest rest' first _ ih =>
    obtain ⟨here, rfl, polled⟩ := first
    rw [List.map_cons, List.nodup_cons] at ids
    obtain ⟨later, rfl, conns, others⟩ := ih ids.2
    have own : ∀ m ∈ here, m.conn = some c.id := polled.conn_eq
    have apart (d : Connection) (hd : d ∈ rest) : d.id ≠ c.id := by
      intro same
      exact ids.1 (same ▸ List.mem_map_of_mem hd)
    refine ⟨here ++ later, List.append_assoc .., ?_, ?_⟩
    · intro m hm
      rcases List.mem_append.mp hm with early | late
      · exact ⟨c, List.mem_cons_self, own m early⟩
      · obtain ⟨d, hd, conn⟩ := conns m late
        exact ⟨d, List.mem_cons_of_mem _ hd, conn⟩
    · intro d' hd'
      rcases List.mem_cons.mp hd' with rfl | later
      · refine ⟨c, List.mem_cons_self, ?_⟩
        rw [List.filter_append, List.filter_eq_self.mpr fun m hm => by simp [own m hm],
          List.filter_eq_nil_iff.mpr, List.append_nil]
        · exact polled
        · intro m hm
          obtain ⟨d, hd, conn⟩ := conns m hm
          simp [conn, apart d hd]
      · obtain ⟨d, hd, polled'⟩ := others d' later
        refine ⟨d, List.mem_cons_of_mem _ hd, ?_⟩
        rw [List.filter_append, List.filter_eq_nil_iff.mpr, List.nil_append]
        · exact polled'
        · intro m hm
          simp [own m hm, (apart d hd).symm]

section
variable {h h' : Host}

/-- What a poll does to the provider. -/
theorem pollControl_polls {maxItems : Nat} {answers : List Answer} {out : List ControlMessage}
    (ids : (h.ctrlConns.map Connection.id).Nodup)
    (run : h.pollControl maxItems answers = some (out, h')) :
    h'.nextConn = h.nextConn ∧ h'.delivered = h.delivered ++ out ∧
      (h'.ctrlConns.map Connection.id).Nodup ∧
      (∀ m ∈ out, ∃ c ∈ h'.ctrlConns, m.conn = some c.id) ∧
      ∀ c' ∈ h'.ctrlConns, ∃ c ∈ h.ctrlConns,
        Polled c (out.filter fun m => m.conn = some c.id) c' := by
  unfold Host.pollControl at run
  split at run
  · rename_i out' conns turns
    cases run
    obtain ⟨-, each⟩ := Does.each (pollTurn_does maxItems) _ _ _ _ _ _ _ rfl turns
    have live : ((h.ctrlConns.filter fun c => !c.gone).map Connection.id).Nodup :=
      ids.sublist (List.filter_sublist.map _)
    obtain ⟨ms, rfl, conns', polled⟩ := each_polled each live
    have same : conns.map Connection.id = (h.ctrlConns.filter fun c => !c.gone).map Connection.id :=
      each.map_eq (by rintro _ _ _ _ ⟨_, -, polled⟩; exact polled.id_eq)
    refine ⟨rfl, rfl, same ▸ live, ?_, ?_⟩
    · intro m hm
      obtain ⟨c, hc, conn⟩ := conns' m hm
      obtain ⟨c', hc', id⟩ := List.mem_map.mp (same ▸ List.mem_map_of_mem hc)
      exact ⟨c', hc', id ▸ conn⟩
    · intro c' hc'
      obtain ⟨c, hc, step⟩ := polled c' hc'
      exact ⟨c, List.mem_of_mem_filter hc, step⟩
  · cases run

theorem broadcastControl_tells {type : Nat} (small : type < 2 ^ 16) {payload : Bytes}
    {answers : List Answer} {tally : Nat × Nat}
    (run : h.broadcastControl type payload answers = some (tally, h')) :
    h'.nextConn = h.nextConn ∧ h'.delivered = h.delivered ∧
      h'.ctrlConns.map Connection.id = h.ctrlConns.map Connection.id ∧
      ∀ c' ∈ h'.ctrlConns, ∃ c ∈ h.ctrlConns, Told c c' := by
  unfold Host.broadcastControl at run
  split at run
  · rename_i turns
    cases run
    obtain ⟨-, each⟩ := Does.each (broadcastTurn_does small payload) _ _ _ _ _ _ _ rfl turns
    refine ⟨rfl, rfl, each.map_eq ?_, each.of_mem fun _ _ _ _ told => told⟩
    rintro _ _ _ _ ⟨_, _, rfl, -⟩
    rfl
  · cases run

/-- What a connection was before a step, and what the step delivered on it. -/
inductive Became (h h' : Host) (c' : Connection) : Prop
  | told {c : Connection} : c ∈ h.ctrlConns → Told c c' →
      h'.deliveredFrom c.id = h.deliveredFrom c.id → Became h h' c'
  | expired {c : Connection} : c ∈ h.ctrlConns → c' = { c with gone := true } →
      h'.deliveredFrom c.id = h.deliveredFrom c.id → Became h h' c'
  | polled {c : Connection} {ms : List ControlMessage} : c ∈ h.ctrlConns → Polled c ms c' →
      h'.deliveredFrom c.id = h.deliveredFrom c.id ++ ms → Became h h' c'
  | made {sock : Nat} : c' = .on h.nextConn sock → h.nextConn < h'.nextConn →
      h'.delivered = h.delivered → Became h h' c'

/-- What a step does, to all of them. -/
structure Stepped (h h' : Host) : Prop where
  next : h.nextConn ≤ h'.nextConn
  ids : (h'.ctrlConns.map Connection.id).Nodup
  delivered : ∃ out, h'.delivered = h.delivered ++ out ∧
    ∀ m ∈ out, ∃ c ∈ h'.ctrlConns, m.conn = some c.id
  became : ∀ c' ∈ h'.ctrlConns, Became h h' c'

/-- Nothing is delivered on a connection that is not listed any more. -/
theorem Stepped.unlisted {conn : ConnId} (stepped : Stepped h h')
    (gone : ∀ c ∈ h'.ctrlConns, c.id ≠ conn) : h'.deliveredFrom conn = h.deliveredFrom conn := by
  obtain ⟨out, delivered, listed⟩ := stepped.delivered
  have none : out.filter (fun m => m.conn = some conn) = [] := by
    refine List.filter_eq_nil_iff.mpr fun m hm => ?_
    obtain ⟨c, hc, is⟩ := listed m hm
    simp [is, gone c hc]
  rw [Host.deliveredFrom, delivered, List.filter_append, none, List.append_nil, Host.deliveredFrom]

/-- A connection that is as it was. -/
theorem Became.same {c : Connection} (mem : c ∈ h.ctrlConns)
    (delivered : h'.delivered = h.delivered) : Became h h' c :=
  .told mem (.refl c) (by rw [Host.deliveredFrom, delivered, Host.deliveredFrom])

theorem map_id_update {cs : List Connection} {f : Connection → Connection}
    (same : ∀ c ∈ cs, (f c).id = c.id) : (cs.map f).map Connection.id = cs.map Connection.id := by
  rw [List.map_map]
  exact List.map_congr_left same

theorem Step.stepped (sound : h.Sound) (step : Step h h') : Stepped h h' := by
  cases step with
  | addConn sock =>
    refine ⟨Nat.le_succ _, ?_, ⟨[], by simp [Host.addConn]⟩, ?_⟩
    · rw [Host.addConn, List.map_append, List.nodup_append]
      refine ⟨sound.ids, by simp, ?_⟩
      intro i hi j hj
      obtain ⟨c, hc, rfl⟩ := List.mem_map.mp hi
      rw [List.mem_singleton.mp hj]
      exact Nat.ne_of_lt (sound.old c hc)
    · intro c' hc'
      rcases List.mem_append.mp hc' with old | new
      · exact .same old rfl
      · exact .made (List.mem_singleton.mp new) (Nat.lt_succ_self _) rfl
  | forget conn =>
    refine ⟨le_rfl, sound.ids.sublist (List.filter_sublist.map _),
      ⟨[], by simp [Host.forgetConnOf]⟩, ?_⟩
    intro c' hc'
    exact .same (List.mem_of_mem_filter hc') rfl
  | expire conn =>
    refine ⟨le_rfl, ?_, ⟨[], by simp [Host.expire]⟩, ?_⟩
    · rw [Host.expire, map_id_update]
      · exact sound.ids
      · intro c _
        split <;> rfl
    · intro c' hc'
      obtain ⟨c, hc, rfl⟩ := List.mem_map.mp hc'
      by_cases this : c.id = conn
      · rw [if_pos this]
        exact .expired hc rfl rfl
      · rw [if_neg this]
        exact .same hc rfl
  | @send c d type payload answers st mem small run =>
    obtain ⟨-, told⟩ := sendControl_does small payload c _ _ _ _ _ rfl run
    have same : d.id = c.id := by
      obtain ⟨_, _, rfl, -⟩ := told
      rfl
    refine ⟨le_rfl, ?_, ⟨[], by simp [Host.put]⟩, ?_⟩
    · rw [Host.put, map_id_update]
      · exact sound.ids
      · intro b _
        by_cases this : b.id = d.id
        · rw [if_pos this, this]
        · rw [if_neg this]
    · intro c' hc'
      obtain ⟨b, hb, rfl⟩ := List.mem_map.mp hc'
      by_cases this : b.id = d.id
      · rw [if_pos this]
        exact .told mem told rfl
      · rw [if_neg this]
        exact .same hb rfl
  | broadcast small run =>
    obtain ⟨next, delivered, ids, told⟩ := broadcastControl_tells small run
    refine ⟨next.ge, ids ▸ sound.ids, ⟨[], by simp [delivered]⟩, ?_⟩
    intro c' hc'
    obtain ⟨c, hc, step⟩ := told c' hc'
    exact .told hc step (by rw [Host.deliveredFrom, delivered, Host.deliveredFrom])
  | poll run =>
    obtain ⟨next, delivered, ids, conns, polled⟩ := pollControl_polls sound.ids run
    refine ⟨next.ge, ids, ⟨_, delivered, conns⟩, ?_⟩
    intro c' hc'
    obtain ⟨c, hc, step⟩ := polled c' hc'
    refine .polled hc step ?_
    rw [Host.deliveredFrom, delivered, List.filter_append]
    rfl

theorem Host.Sound.step (sound : h.Sound) (step : Step h h') : h'.Sound := by
  have stepped := step.stepped sound
  have old (c' : Connection) (hc' : c' ∈ h'.ctrlConns) : c'.id < h'.nextConn := by
    have next := stepped.next
    cases stepped.became c' hc' with
    | told hc told _ =>
      obtain ⟨_, _, rfl, -⟩ := told
      exact (sound.old _ hc).trans_le next
    | expired hc same _ =>
      rw [same]
      exact (sound.old _ hc).trans_le next
    | polled hc polled _ =>
      rw [polled.id_eq]
      exact (sound.old _ hc).trans_le next
    | made same fresh _ =>
      rw [same]
      exact fresh
  refine ⟨stepped.ids, old, ?_, ?_, ?_⟩
  · intro m hm
    obtain ⟨out, delivered, listed⟩ := stepped.delivered
    rcases List.mem_append.mp (delivered ▸ hm) with early | late
    · obtain ⟨i, lt, conn⟩ := sound.known m early
      exact ⟨i, lt.trans_le stepped.next, conn⟩
    · obtain ⟨c, hc, conn⟩ := listed m late
      exact ⟨c.id, old c hc, conn⟩
  · intro c' hc'
    cases stepped.became c' hc' with
    | told hc told delivered =>
      obtain ⟨_, _, rfl, -⟩ := told
      have heard := sound.heard _ hc
      rw [← delivered] at heard
      exact ⟨heard.going, heard.lost⟩
    | expired hc same delivered =>
      have heard := sound.heard _ hc
      rw [← delivered] at heard
      rw [same]
      exact ⟨heard.going, heard.lost⟩
    | polled hc polled delivered =>
      rw [polled.id_eq, delivered]
      exact (sound.heard _ hc).polled polled
    | made same _ delivered =>
      have none : h'.deliveredFrom c'.id = [] := by
        rw [Host.deliveredFrom, delivered]
        refine List.filter_eq_nil_iff.mpr fun m hm => ?_
        obtain ⟨i, lt, conn⟩ := sound.known m hm
        have ne : i ≠ c'.id := by
          rw [same]
          exact Nat.ne_of_lt lt
        simp [conn, ne]
      rw [none, same]
      exact ⟨fun _ => ⟨[], by simp, rfl, rfl⟩, fun _ lost => by cases lost⟩
  · intro c' hc'
    cases stepped.became c' hc' with
    | told hc told _ =>
      obtain ⟨_, _, -, keeps⟩ := told
      exact keeps (sound.speaks _ hc)
    | expired hc same _ =>
      rw [same]
      exact ⟨(sound.speaks _ hc).sound, (sound.speaks _ hc).messages⟩
    | polled hc polled _ => exact polled.speaks (sound.speaks _ hc)
    | made same _ _ =>
      rw [same]
      exact ⟨ControlOutbox.sound_reset _ _, [], by simp, rfl⟩

end

/-! ## Whole runs -/

/-- A provider that starts without connections can get there. -/
def Reachable (h : Host) : Prop := ReflTransGen Step {} h

theorem Reachable.sound {h : Host} (reach : Reachable h) : h.Sound := by
  induction reach with
  | refl => exact ⟨by simp, by simp, by simp, by simp, by simp⟩
  | tail _ step ih => exact ih.step step

/-- A poll that is answered so, if the answers fit. -/
def Host.polls (h : Host) (maxItems : Nat) (answers : List Answer) : Host :=
  match h.pollControl maxItems answers with
  | some x => x.2
  | none => h

theorem polls_onward (h : Host) (maxItems : Nat) (answers : List Answer) :
    ReflTransGen Step h (h.polls maxItems answers) := by
  unfold Host.polls
  split
  · rename_i x run
    exact .single (.poll run)
  · exact .refl

section
variable {h : Host} {c : Connection} {sent : List (Nat × Bytes)}

/-- In a stream of messages no header is rejected. -/
theorem Heard.never_rejected {ms : List ControlMessage} (heard : Heard c ms)
    (all : ∀ m ∈ sent, Sendable m) (arrived : c.received <+: sent.flatMap encode) :
    c.rejectedAt = none := by
  cases lost : c.rejectedAt with
  | none => rfl
  | some n =>
    obtain ⟨-, fs, bad, whole, ⟨long, refused⟩, before⟩ := heard.lost n lost
    have stuck : format.Incomplete bad := by
      intro size told
      exact absurd (messageSize_eq_some.mp told).2.1 refused
    have cuts : Cuts format (c.received.take n) fs bad := by
      have := Framing.cuts_of_whole whole (.done stuck)
      rwa [List.append_nil, ← before] at this
    have early : c.received.take n <+: sent.flatMap encode := (List.take_prefix _ _).trans arrived
    rcases cuts.rest_of_arrived (fun m hm => (all m hm).whole) early with none | ⟨m, hm, part⟩
    · rw [none] at long
      exact absurd long (by decide)
    · obtain ⟨more, eq⟩ := part
      have accepted := (all m hm).accepted
      rw [Accepted, ← eq, headerAt_append long] at accepted
      exact absurd accepted refused

theorem Heard.contained {ms : List ControlMessage} (heard : Heard c ms)
    (all : ∀ m ∈ sent, Sendable m) (arrived : c.received <+: sent.flatMap encode) :
    ms ++ c.decodable = (Framing.contained encode sent c.received.length).map fun m =>
      { type := m.1, payload := m.2, conn := some c.id } := by
  obtain ⟨fs, whole, received, rfl⟩ := heard.going (heard.never_rejected all arrived)
  have cuts : Cuts format c.received (fs ++ format.frames c.rx) (format.rest c.rx) := by
    rw [received]
    exact Framing.cuts_of_whole whole (Framing.cuts_frames format c.rx)
  rw [Connection.decodable, ← List.map_append,
    cuts.contained (fun m hm => (all m hm).whole) arrived, List.map_map]
  refine List.map_congr_left fun m hm => ?_
  exact (all m (Framing.mem_of_mem_contained hm)).messageIn_encode c.id

/-- What a step leaves of a connection on which a header was rejected. -/
theorem Step.after_rejection {h' : Host} {c' : Connection} (sound : h.Sound) (step : Step h h')
    (mem : c' ∈ h'.ctrlConns) (old : c'.id < h.nextConn) :
    ∃ c ∈ h.ctrlConns, c.id = c'.id ∧
      ∀ n, c.rejectedAt = some n → c'.rejectedAt = some n ∧
        (c'.received.length < n + kControlHeaderBytes →
          h'.deliveredFrom c.id = h.deliveredFrom c.id) := by
  cases (step.stepped sound).became c' mem with
  | @told c hc told delivered =>
    obtain ⟨_, _, rfl, -⟩ := told
    exact ⟨c, hc, rfl, fun n lost => ⟨lost, fun _ => delivered⟩⟩
  | @expired c hc same delivered =>
    rw [same]
    exact ⟨c, hc, rfl, fun n lost => ⟨lost, fun _ => delivered⟩⟩
  | @polled c ms hc polled delivered =>
    refine ⟨c, hc, polled.id_eq.symm, fun n lost => ?_⟩
    refine ⟨polled.rejectedAt_eq lost, fun few => ?_⟩
    rw [delivered, (sound.heard c hc).polled_eq_nil polled lost few, List.append_nil]
  | made same =>
    rw [same] at old
    exact absurd old (Nat.lt_irrefl _)

/-- A step that leaves fewer bytes received on a connection, after the first `n`, than a
header has. -/
def FewArrive (conn : ConnId) (n : Nat) (h h' : Host) : Prop :=
  Step h h' ∧ ∀ c ∈ h'.ctrlConns, c.id = conn → c.received.length < n + kControlHeaderBytes

/-- Once a header was rejected on a connection, nothing is delivered on it until a header's
length has arrived. -/
theorem nothing_after_a_rejected_header {h' : Host} {n : Nat} (reach : Reachable h)
    (mem : c ∈ h.ctrlConns) (lost : c.rejectedAt = some n)
    (onward : ReflTransGen (FewArrive c.id n) h h') :
    h'.deliveredFrom c.id = h.deliveredFrom c.id := by
  -- with what holds of the connection itself as long as it is listed
  suffices Reachable h' ∧ h.nextConn ≤ h'.nextConn ∧
      (∀ d ∈ h'.ctrlConns, d.id = c.id → d.rejectedAt = some n) ∧
      h'.deliveredFrom c.id = h.deliveredFrom c.id from this.2.2.2
  induction onward with
  | refl =>
    refine ⟨reach, le_rfl, fun d hd same => ?_, rfl⟩
    have eq : d = c := List.inj_on_of_nodup_map reach.sound.ids hd mem same
    exact eq ▸ lost
  | @tail h₁ h₂ _ step ih =>
    obtain ⟨step, few⟩ := step
    obtain ⟨reach₁, next, lost₁, delivered₁⟩ := ih
    have stepped := step.stepped reach₁.sound
    have after (d : Connection) (hd : d ∈ h₂.ctrlConns) (same : d.id = c.id) :
        d.rejectedAt = some n ∧ h₂.deliveredFrom c.id = h₁.deliveredFrom c.id := by
      have old : d.id < h₁.nextConn := by
        rw [same]
        exact (reach.sound.old c mem).trans_le next
      obtain ⟨d₁, hd₁, same₁, after⟩ := step.after_rejection reach₁.sound hd old
      obtain ⟨lost₂, delivered₂⟩ := after n (lost₁ d₁ hd₁ (same₁.trans same))
      rw [same₁.trans same] at delivered₂
      exact ⟨lost₂, delivered₂ (few d hd same)⟩
    refine ⟨reach₁.tail step, next.trans stepped.next, fun d hd same => (after d hd same).1, ?_⟩
    by_cases listed : ∃ d ∈ h₂.ctrlConns, d.id = c.id
    · obtain ⟨d, hd, same⟩ := listed
      rw [(after d hd same).2, delivered₁]
    · rw [stepped.unlisted fun d hd same => listed ⟨d, hd, same⟩, delivered₁]

/-- Eleven bytes after the header, and then the connection is given up. -/
theorem nothing_after_a_rejected_header_eleven :
    let h := (Host.addConn {} 3).polls 8 [.received (.data (List.replicate 12 0))]
    let h' := (h.polls 8 [.received (.data (encode (2, [])).dropLast)]).forgetConnOf 0
    h'.deliveredFrom 0 = h.deliveredFrom 0 := by
  intro h h'
  have reach : Reachable h := .trans (.single (.addConn 3)) (polls_onward _ _ _)
  have mem : { Connection.on 0 3 with
      received := List.replicate 12 0, rejectedAt := some 12 } ∈ h.ctrlConns := by decide +kernel
  have polled : h.pollControl 8 [.received (.data (encode (2, [])).dropLast)] = some (_, _) := rfl
  exact nothing_after_a_rejected_header reach mem rfl
    (.tail (.single ⟨.poll polled, by decide +kernel⟩) ⟨.forget 0, by decide +kernel⟩)

/-- A header of another major version is rejected, and `rx` cleared; what the next poll
reads is a message, and it is delivered. -/
theorem message_after_a_rejected_header :
    let h := (Host.addConn {} 3).polls 8 [.received (.data (List.replicate 12 0))]
    let h' := h.polls 8 [.received (.data (encode (2, [])))]
    Reachable h ∧ (∃ c ∈ h.ctrlConns, c.id = 0 ∧ c.rejectedAt = some 12) ∧
      ReflTransGen Step h h' ∧ h.deliveredFrom 0 = [] ∧
      h'.deliveredFrom 0 = [{ type := 2, payload := [], conn := some 0 }] := by
  intro h h'
  refine ⟨.trans (.single (.addConn 3)) (polls_onward _ _ _), ?_, polls_onward _ _ _, ?_, ?_⟩
  · decide +kernel
  · decide +kernel
  · decide +kernel

end

end Hux.RdmaControl
