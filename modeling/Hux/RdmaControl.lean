import Hux.Control
import Hux.Framing
import Hux.Outbox

/-!
# Control messages over the bootstrap socket

`RdmaProvider::send_control`, `broadcast_control` and `poll_control`, and the header of
`control/control_message.cpp`. A poll reads what each socket has, keeps what is not a whole
message yet, and takes whole messages out of it while it may return more.

* `format`: the messages as frames of a stream;
* `Polled`: what a poll does to a connection, and what comes of it.
-/

namespace Hux.RdmaControl
open Wire (Bytes putLE leAt)
open Interleave (Scripted Part)
open Interleave.Scripted (get set loop each Does)
open Framing (Format)

/-! ## The header -/

def kControlMajor : Nat := 1
def kControlMinor : Nat := 1
def kControlHeaderBytes : Nat := 12
def kControlMaxPayload : Nat := 64 * 2 ^ 10

structure ControlHeader where
  major : Nat := kControlMajor
  minor : Nat := kControlMinor
  type : Nat := ControlType.invalid.code
  flags : Nat := 0
  payloadLen : Nat := 0
  deriving DecidableEq, Repr

def encodeControlHeader (h : ControlHeader) : Bytes :=
  putLE 2 h.major ++ (putLE 2 h.minor ++ (putLE 2 h.type ++ (putLE 2 h.flags ++
  putLE 4 h.payloadLen)))

/-- The fields as they stand in the first bytes. -/
def headerAt (b : Bytes) : ControlHeader :=
  ⟨leAt b 0 2, leAt b 2 2, leAt b 4 2, leAt b 6 2, leAt b 8 4⟩

def decodeControlHeader (b : Bytes) : Except Status ControlHeader :=
  let h := headerAt b
  if h.major ≠ kControlMajor then .error .unsupported
  else if h.payloadLen > kControlMaxPayload then .error .invalidArgument
  else .ok h

/-- Every field is within the width the source's type gives it. -/
structure ControlHeader.Fits (h : ControlHeader) : Prop where
  major : h.major < 2 ^ 16
  minor : h.minor < 2 ^ 16
  type : h.type < 2 ^ 16
  flags : h.flags < 2 ^ 16
  payloadLen : h.payloadLen < 2 ^ 32

theorem ControlHeader.Fits.headerAt_encode {h : ControlHeader} (fits : h.Fits) (more : Bytes) :
    headerAt (encodeControlHeader h ++ more) = h := by
  obtain ⟨major, minor, type, flags, payloadLen⟩ := fits
  simp [headerAt, encodeControlHeader, Wire.leAt_skip, Wire.leAt_head 2 _ _ major,
    Wire.leAt_head 2 _ _ minor, Wire.leAt_head 2 _ _ type, Wire.leAt_head 2 _ _ flags,
    Wire.leAt_head 4 _ _ payloadLen]

theorem ControlHeader.Fits.decode_encode {h : ControlHeader} (fits : h.Fits)
    (major : h.major = kControlMajor) (small : h.payloadLen ≤ kControlMaxPayload) :
    decodeControlHeader (encodeControlHeader h) = .ok h := by
  have same := fits.headerAt_encode []
  rw [List.append_nil] at same
  simp [decodeControlHeader, same, major, Nat.not_lt.mpr small]

/-- Headers and bodies are read back; what follows a notice with its exporter is not looked
at; and the lengths of the bodies that are read are known, with no read past their end. -/
theorem control_bodies_read_back :
    (∀ h : ControlHeader, h.Fits → h.major = kControlMajor → h.payloadLen ≤ kControlMaxPayload →
      decodeControlHeader (encodeControlHeader h) = .ok h) ∧
    (∀ b : ReadyHandoffBody, b.Fits → decodeReadyHandoff (encodeReadyHandoff b) = .ok b) ∧
    (∀ b : RegionInvalidateBody, b.Fits →
      decodeRegionInvalidate (encodeRegionInvalidate b) = .ok b ∧
      ∀ more : Bytes, b.origin.isSome →
        decodeRegionInvalidate (encodeRegionInvalidate b ++ more) = .ok b) ∧
    ∀ b : Bytes,
      ((∃ body, decodeRegionInvalidate b = .ok body) ↔ b.length = 12 ∨ 36 ≤ b.length) ∧
      ((∃ body, decodeReadyHandoff b = .ok body) ↔ b.length = 36) ∧
      decodeRegionInvalidateWithin b = some (decodeRegionInvalidate b) ∧
      decodeReadyHandoffWithin b = some (decodeReadyHandoff b) := by
  refine ⟨fun h fits => fits.decode_encode, fun b fits => ReadyHandoffBody.decode_encode fits,
    fun b fits => ⟨RegionInvalidateBody.decode_encode fits, fun more origin => ?_⟩,
    fun b => ⟨decodeRegionInvalidate_ok_iff, decodeReadyHandoff_ok_iff,
      decodeRegionInvalidateWithin_eq b, decodeReadyHandoffWithin_eq b⟩⟩
  obtain ⟨id, some⟩ := Option.isSome_iff_exists.mp origin
  exact RegionInvalidateBody.decode_encode_append fits some more

/-- A notice of the region with the greatest number, and what a later sender may append. -/
theorem control_bodies_read_back_notice :
    let b : RegionInvalidateBody := ⟨2 ^ 64 - 1, 3, some ⟨1, 2, 3⟩⟩
    b.Fits ∧ decodeRegionInvalidate (encodeRegionInvalidate b ++ [7, 8]) = .ok b := by
  have fits : RegionInvalidateBody.Fits ⟨2 ^ 64 - 1, 3, some ⟨1, 2, 3⟩⟩ := by
    refine ⟨by decide, by decide, ?_⟩
    rintro _ ⟨⟩
    exact ⟨by decide, by decide, by decide⟩
  exact ⟨fits, (control_bodies_read_back.2.2.1 _ fits).2 [7, 8] rfl⟩

/-- What `send_control` puts into one buffer. -/
def message (type : Nat) (payload : Bytes) : Bytes :=
  encodeControlHeader { type, payloadLen := payload.length } ++ payload

/-! ## The state -/

/-- What a connection has for its control messages. -/
structure Connection where
  id : ConnId
  ctrlFd : Option Nat
  peerClosed : Bool := false
  outbox : ControlOutbox
  rx : Bytes := []
  /-- The object has been destroyed: a weak pointer to it gives nothing. -/
  gone : Bool := false
  /-- Nothing reads what follows. What `recv` has returned. -/
  received : Bytes := []
  /-- How much that was when a header was rejected for the first time. -/
  rejectedAt : Option Nat := none
  deriving DecidableEq, Repr

structure Host where
  ctrlConns : List Connection := []
  /-- Nothing reads what follows. The number of the next connection object. -/
  nextConn : ConnId := 0
  /-- What the polls have returned, in order. -/
  delivered : List ControlMessage := []
  deriving DecidableEq, Repr

/-- What `recv` returned. -/
inductive Received
  | data (bs : Bytes)
  | eof
  | interrupted
  | again
  | failed
  deriving DecidableEq, Repr

inductive Answer
  | sent (s : Sent)
  | received (r : Received)
  deriving DecidableEq, Repr

def Answer.sent? : Answer → Option Sent
  | .sent s => some s
  | .received _ => none

def outboxPart : Part Connection ControlOutbox where
  get c := c.outbox
  put o c := { c with outbox := o }
  get_put _ _ := rfl
  put_get _ := rfl
  put_put _ _ _ := rfl

def Connection.alive (c : Connection) : Bool := !c.peerClosed

def Connection.markPeerClosed (c : Connection) : Connection := { c with peerClosed := true }

/-- A write that fails is the end of the connection. -/
def onOutbox (m : Scripted ControlOutbox Answer Status) : Scripted Connection Answer Status := do
  let s ← m.on outboxPart
  if s = .peerDisconnected then
    set Connection.markPeerClosed
    pure s
  else pure s

/-! ## Sending -/

def sendControl (type : Nat) (payload : Bytes) : Scripted Connection Answer Status :=
  if payload.length > kControlMaxPayload then pure .invalidArgument
  else do
    let fd ← get (·.ctrlFd)
    if fd = none then pure .peerDisconnected
    else onOutbox (post Answer.sent? (message type payload))

/-- A connection's turn in `broadcast_control`, which counts those that took the message and
those that did not. -/
def broadcastTurn (type : Nat) (payload : Bytes) (tally : Nat × Nat) :
    Scripted Connection Answer (Nat × Nat) := do
  let c ← get id
  if c.gone ∨ ¬c.alive then pure tally
  else
    let s ← sendControl type payload
    pure (if s = .ok then (tally.1 + 1, tally.2) else (tally.1, tally.2 + 1))

/-! ## Polling -/

def recvStep (_ : Unit) (c : Connection) (e : Answer) : Option ((Unit ⊕ Unit) × Connection) :=
  match e with
  | .received (.data bs) =>
    if bs = [] ∨ 4096 < bs.length then none
    else some (if bs.length < 4096 then .inr () else .inl (),
      { c with rx := c.rx ++ bs, received := c.received ++ bs })
  | .received .eof => some (.inr (), c.markPeerClosed)
  | .received .interrupted => some (.inl (), c)
  | .received .again => some (.inr (), c)
  | .received .failed => some (.inr (), c.markPeerClosed)
  | .sent _ => none

/-- The stream cannot be resynchronised, and what has been read of it is dropped. -/
def Connection.reject (c : Connection) : Connection :=
  { c with rx := [], rejectedAt := c.rejectedAt.or (some c.received.length) }

/-- A whole message at the head of `rx`, so long, is taken out of it. -/
def Connection.take (c : Connection) (total : Nat) : Connection := { c with rx := c.rx.drop total }

def Connection.messageOf (c : Connection) (type total : Nat) : ControlMessage where
  type := type
  payload := (c.rx.take total).drop kControlHeaderBytes
  conn := some c.id

/-- Every turn that goes on takes at least a header out of `rx`. -/
def parse (maxItems : Nat) : Nat → Connection → List ControlMessage →
    List ControlMessage × Connection
  | 0, c, out => (out, c)
  | fuel + 1, c, out =>
    if c.rx.length ≥ kControlHeaderBytes ∧ out.length < maxItems then
      match decodeControlHeader c.rx with
      | .error _ => (out, c.reject)
      | .ok h =>
        let total := kControlHeaderBytes + h.payloadLen
        if c.rx.length < total then (out, c)
        else parse maxItems fuel (c.take total) (out ++ [c.messageOf h.type total])
    else (out, c)

/-- A connection's turn in `poll_control`. -/
def pollTurn (maxItems : Nat) (out : List ControlMessage) :
    Scripted Connection Answer (List ControlMessage) := do
  let fd ← get (·.ctrlFd)
  if fd = none then pure out
  else
    let _ ← onOutbox (flushLocked Answer.sent?)
    loop recvStep ()
    let parsed ← get fun c => parse maxItems c.rx.length c out
    set fun _ => parsed.2
    pure parsed.1

/-! ## The provider -/

/-- A connection that `build_connection` has given its socket. -/
def Connection.on (id : ConnId) (sock : Nat) : Connection where
  id := id
  ctrlFd := some sock
  outbox := ControlOutbox.reset (some sock)

/-- The end of `build_connection`. -/
def Host.addConn (h : Host) (sock : Nat) : Host :=
  { h with
    ctrlConns := h.ctrlConns ++ [.on h.nextConn sock]
    nextConn := h.nextConn + 1 }

/-- `forget_conn_of`, which drops the expired entries as well. -/
def Host.forgetConnOf (h : Host) (conn : ConnId) : Host :=
  { h with ctrlConns := h.ctrlConns.filter fun c => !c.gone && c.id != conn }

/-- Nobody holds the connection any more. -/
def Host.expire (h : Host) (conn : ConnId) : Host :=
  { h with ctrlConns :=
      h.ctrlConns.map fun c => if c.id = conn then { c with gone := true } else c }

/-- The connection of the same number is now this. -/
def Host.put (h : Host) (c : Connection) : Host :=
  { h with ctrlConns := h.ctrlConns.map fun d => if d.id = c.id then c else d }

def Host.broadcastControl (h : Host) (type : Nat) (payload : Bytes) (answers : List Answer) :
    Option ((Nat × Nat) × Host) :=
  match each (broadcastTurn type payload) (0, 0) h.ctrlConns answers with
  | some (tally, conns, []) => some (tally, { h with ctrlConns := conns })
  | _ => none

def Host.pollControl (h : Host) (maxItems : Nat) (answers : List Answer) :
    Option (List ControlMessage × Host) :=
  match each (pollTurn maxItems) [] (h.ctrlConns.filter fun c => !c.gone) answers with
  | some (out, conns, []) =>
    some (out, { h with ctrlConns := conns, delivered := h.delivered ++ out })
  | _ => none

/-- A call of the provider, or a connection that is made or goes away; `type` is an
argument of 16 bits. -/
inductive Step (h : Host) : Host → Prop
  | addConn (sock : Nat) : Step h (h.addConn sock)
  | forget (conn : ConnId) : Step h (h.forgetConnOf conn)
  | expire (conn : ConnId) : Step h (h.expire conn)
  | send {c c' : Connection} {type : Nat} {payload : Bytes} {answers : List Answer} {st : Status} :
      c ∈ h.ctrlConns → type < 2 ^ 16 → sendControl type payload c answers = some (st, c', []) →
      Step h (h.put c')
  | broadcast {type : Nat} {payload : Bytes} {answers : List Answer} {tally : Nat × Nat}
      {h' : Host} : type < 2 ^ 16 → h.broadcastControl type payload answers = some (tally, h') →
      Step h h'
  | poll {maxItems : Nat} {answers : List Answer} {out : List ControlMessage} {h' : Host} :
      h.pollControl maxItems answers = some (out, h') → Step h h'

/-! ## Messages in a stream -/

/-- A header that is let through. -/
def Accepted (b : Bytes) : Prop :=
  (headerAt b).major = kControlMajor ∧ (headerAt b).payloadLen ≤ kControlMaxPayload

def Rejected (b : Bytes) : Prop := kControlHeaderBytes ≤ b.length ∧ ¬Accepted b

variable {b : Bytes}

theorem decode_eq_ok {h : ControlHeader} :
    decodeControlHeader b = .ok h ↔ Accepted b ∧ headerAt b = h := by
  unfold decodeControlHeader Accepted
  by_cases major : (headerAt b).major = kControlMajor
  · by_cases fits : (headerAt b).payloadLen ≤ kControlMaxPayload
    · simp [major, fits, Nat.not_lt.mpr fits]
    · simp [major, fits, Nat.not_le.mp fits]
  · simp [major]

variable {n : Nat}

theorem headerAt_take (long : kControlHeaderBytes ≤ n) : headerAt (b.take n) = headerAt b := by
  unfold kControlHeaderBytes at long
  unfold headerAt
  rw [Wire.leAt_take (by omega), Wire.leAt_take (by omega), Wire.leAt_take (by omega),
    Wire.leAt_take (by omega), Wire.leAt_take (by omega)]

theorem headerAt_append (long : kControlHeaderBytes ≤ b.length) (more : Bytes) :
    headerAt (b ++ more) = headerAt b := by
  rw [← headerAt_take long, List.take_left]

def messageSize (b : Bytes) : Option Nat :=
  if kControlHeaderBytes ≤ b.length then
    match decodeControlHeader b with
    | .ok h => some (kControlHeaderBytes + h.payloadLen)
    | .error _ => none
  else none

theorem messageSize_eq_some :
    messageSize b = some n ↔
      kControlHeaderBytes ≤ b.length ∧ Accepted b ∧
        kControlHeaderBytes + (headerAt b).payloadLen = n := by
  unfold messageSize
  by_cases long : kControlHeaderBytes ≤ b.length
  · rw [if_pos long]
    cases decoded : decodeControlHeader b with
    | ok h =>
      obtain ⟨accepted, rfl⟩ := decode_eq_ok.mp decoded
      simp [long, accepted]
    | error st =>
      have not : ¬Accepted b := by
        intro accepted
        rw [decode_eq_ok.mpr ⟨accepted, rfl⟩] at decoded
        cases decoded
      simp [not]
  · simp [long]

theorem messageSize_pos (size : messageSize b = some n) : 0 < n := by
  obtain ⟨-, -, rfl⟩ := messageSize_eq_some.mp size
  exact Nat.add_pos_left (by decide) _

theorem messageSize_append (size : messageSize b = some n) (more : Bytes) :
    messageSize (b ++ more) = some n := by
  obtain ⟨long, accepted, rfl⟩ := messageSize_eq_some.mp size
  apply messageSize_eq_some.mpr
  rw [Accepted, headerAt_append long, List.length_append]
  exact ⟨Nat.le_add_right_of_le long, accepted, rfl⟩

theorem messageSize_take (size : messageSize b = some n) (fits : n ≤ b.length) :
    messageSize (b.take n) = some n := by
  obtain ⟨-, accepted, rfl⟩ := messageSize_eq_some.mp size
  apply messageSize_eq_some.mpr
  rw [Accepted, headerAt_take (Nat.le_add_right _ _), List.length_take, Nat.min_eq_left fits]
  exact ⟨Nat.le_add_right _ _, accepted, rfl⟩

def format : Format UInt8 where
  size := messageSize
  pos := messageSize_pos
  stable := messageSize_append
  within := messageSize_take

/-- The message a frame is, on that connection. -/
def messageIn (conn : ConnId) (f : Bytes) : ControlMessage where
  type := (headerAt f).type
  payload := f.drop kControlHeaderBytes
  conn := some conn

/-- The messages that stand whole in `rx`. -/
def Connection.decodable (c : Connection) : List ControlMessage :=
  (format.frames c.rx).map (messageIn c.id)

/-- A type and a payload `send_control` may be called with, if it is to send them. -/
def Sendable (m : Nat × Bytes) : Prop := m.1 < 2 ^ 16 ∧ m.2.length ≤ kControlMaxPayload

def encode (m : Nat × Bytes) : Bytes := message m.1 m.2

section
variable {m : Nat × Bytes}

theorem length_encode (m : Nat × Bytes) : (encode m).length = kControlHeaderBytes + m.2.length := by
  simp only [encode, message, encodeControlHeader, kControlHeaderBytes, List.length_append,
    Wire.length_putLE, Nat.reduceAdd]

theorem drop_encode (m : Nat × Bytes) : (encode m).drop kControlHeaderBytes = m.2 := by
  apply List.drop_left'
  simp [encodeControlHeader, kControlHeaderBytes]

theorem Sendable.headerAt_encode (fits : Sendable m) :
    headerAt (encode m) = { type := m.1, payloadLen := m.2.length } := by
  have len : m.2.length < 2 ^ 32 := by
    have small := fits.2
    unfold kControlMaxPayload at small
    omega
  have header : ControlHeader.Fits { type := m.1, payloadLen := m.2.length } :=
    ⟨Nat.one_lt_two_pow (by decide), Nat.one_lt_two_pow (by decide), fits.1,
      Nat.two_pow_pos 16, len⟩
  exact header.headerAt_encode m.2

theorem Sendable.accepted (fits : Sendable m) : Accepted (encode m) := by
  rw [Accepted, fits.headerAt_encode]
  exact ⟨rfl, fits.2⟩

theorem Sendable.whole (fits : Sendable m) : format.Whole (encode m) := by
  change messageSize (encode m) = some (encode m).length
  apply messageSize_eq_some.mpr
  rw [length_encode, fits.headerAt_encode]
  exact ⟨Nat.le_add_right _ _, fits.accepted, rfl⟩

theorem Sendable.messageIn_encode (fits : Sendable m) (conn : ConnId) :
    messageIn conn (encode m) = { type := m.1, payload := m.2, conn := some conn } := by
  rw [messageIn, fits.headerAt_encode, drop_encode]

end

/-! ## What a poll does -/

/-- What parsing does to a connection, and what comes of it. -/
inductive Parsed (c : Connection) : List ControlMessage → Connection → Prop
  | going (fs : List Bytes) {rest : Bytes} : (∀ f ∈ fs, format.Whole f) →
      c.rx = fs.flatten ++ rest → Parsed c (fs.map (messageIn c.id)) { c with rx := rest }
  | rejected (fs : List Bytes) {bad : Bytes} : (∀ f ∈ fs, format.Whole f) →
      c.rx = fs.flatten ++ bad → Rejected bad → Parsed c (fs.map (messageIn c.id)) c.reject

variable {c : Connection}

/-- A whole message is taken first. -/
theorem Parsed.cons {c' : Connection} {f more : Bytes} {ms : List ControlMessage}
    (whole : format.Whole f) (head : c.rx = f ++ more)
    (later : Parsed { c with rx := more } ms c') : Parsed c (messageIn c.id f :: ms) c' := by
  cases later with
  | @going fs rest all eq =>
    apply Parsed.going (f :: fs) (List.forall_mem_cons.mpr ⟨whole, all⟩)
    rw [head, List.flatten_cons, List.append_assoc]
    exact congrArg _ eq
  | @rejected fs bad all eq isBad =>
    apply Parsed.rejected (f :: fs) (List.forall_mem_cons.mpr ⟨whole, all⟩) _ isBad
    rw [head, List.flatten_cons, List.append_assoc]
    exact congrArg _ eq

theorem parse_parsed (maxItems fuel : Nat) (c : Connection) (out : List ControlMessage) :
    ∃ ms, (parse maxItems fuel c out).1 = out ++ ms ∧
      Parsed c ms (parse maxItems fuel c out).2 := by
  have still : Parsed c [] c := .going [] (by simp) rfl
  induction fuel generalizing c out with
  | zero => exact ⟨[], by simp [parse], still⟩
  | succ fuel ih =>
    rw [parse]
    split
    · rename_i guard
      split
      · rename_i st refused
        refine ⟨[], by simp, .rejected [] (by simp) rfl ⟨guard.1, ?_⟩⟩
        intro accepted
        rw [decode_eq_ok.mpr ⟨accepted, rfl⟩] at refused
        cases refused
      · rename_i h decoded
        obtain ⟨accepted, rfl⟩ := decode_eq_ok.mp decoded
        have size : messageSize c.rx = some (kControlHeaderBytes + (headerAt c.rx).payloadLen) :=
          messageSize_eq_some.mpr ⟨guard.1, accepted, rfl⟩
        generalize total : kControlHeaderBytes + (headerAt c.rx).payloadLen = n at size
        dsimp only
        split
        · exact ⟨[], by simp, still⟩
        · rename_i fits
          have fits := Nat.not_lt.mp fits
          have whole : format.Whole (c.rx.take n) := by
            change messageSize _ = some _
            rw [messageSize_take size fits, List.length_take, Nat.min_eq_left fits]
          have same : c.messageOf (headerAt c.rx).type n = messageIn c.id (c.rx.take n) := by
            rw [messageIn, headerAt_take (total ▸ Nat.le_add_right _ _)]
            rfl
          obtain ⟨ms, outs, later⟩ := ih (c.take n) (out ++ [c.messageOf (headerAt c.rx).type n])
            (.going [] (by simp) rfl)
          refine ⟨_, ?_, later.cons whole (List.take_append_drop n c.rx).symm⟩
          rw [outs, same, List.append_assoc, List.singleton_append]
    · exact ⟨[], by simp, still⟩

/-- The loop ends by itself: it has delivered what it may, or nothing whole is left. -/
theorem parse_ends {maxItems fuel : Nat} (enough : c.rx.length ≤ fuel) (out : List ControlMessage) :
    maxItems ≤ (parse maxItems fuel c out).1.length ∨
      format.Incomplete (parse maxItems fuel c out).2.rx := by
  induction fuel generalizing c out with
  | zero =>
    right
    obtain empty := List.eq_nil_of_length_eq_zero (Nat.le_zero.mp enough)
    intro n size
    rw [parse, empty] at size
    rw [parse, empty]
    exact format.pos size
  | succ fuel ih =>
    rw [parse]
    split
    · rename_i guard
      split
      · right
        intro n size
        exact format.pos size
      · rename_i h decoded
        obtain ⟨accepted, rfl⟩ := decode_eq_ok.mp decoded
        dsimp only
        split
        · rename_i short
          right
          intro n size
          obtain ⟨-, -, rfl⟩ := messageSize_eq_some.mp size
          exact short
        · apply ih
          have : kControlHeaderBytes = 12 := rfl
          rw [Connection.take, List.length_drop]
          omega
    · rename_i guard
      by_cases room : out.length < maxItems
      · right
        intro n size
        obtain ⟨long, -⟩ := messageSize_eq_some.mp size
        exact absurd ⟨long, room⟩ guard
      · exact .inl (Nat.not_lt.mp room)

/-- A message and half a header. -/
theorem parse_ends_message :
    format.Incomplete
      (parse 2 19 { Connection.on 0 3 with rx := message 2 [7] ++ [1, 0, 0, 0, 0, 0] } []).2.rx :=
  (parse_ends (by decide) []).resolve_left (by decide)

/-- A connection with something else queued for its peer, or said of it. -/
def Connection.told (c : Connection) (o : ControlOutbox) (closed : Bool) : Connection :=
  { c with outbox := o, peerClosed := closed }

/-- What an operation of the outbox does to the connection. -/
theorem onOutbox_does {m : Scripted ControlOutbox Answer Status} {c₀ : Connection}
    {Q : Status → ControlOutbox → Prop} (does : Does (· = c₀.outbox) (fun _ _ => True) m Q) :
    Does (· = c₀) (fun _ _ => True) (onOutbox m) fun st c =>
      ∃ o closed, c = c₀.told o closed ∧ Q st o := by
  refine .bind (Does.on outboxPart does) fun st => ?_
  refine .ite (fun ended => ?_) fun on => .pure ?_
  · refine .bind (Q := fun _ c => ∃ o closed, c = c₀.told o closed ∧ Q st o) (.set ?_)
      fun _ => .pure fun _ h => h
    rintro _ ⟨o, rfl, hq⟩
    exact ⟨trivial, o, true, rfl, hq⟩
  · rintro _ ⟨o, rfl, hq⟩
    exact ⟨o, c₀.peerClosed, rfl, hq⟩

/-- A connection that has read so much, and may have come to the end. -/
def Connection.read (c : Connection) (bs : Bytes) (closed : Bool) : Connection :=
  { c with rx := c.rx ++ bs, received := c.received ++ bs, peerClosed := closed }

theorem Connection.read_read (c : Connection) (bs more : Bytes) (closed closed' : Bool) :
    (c.read bs closed).read more closed' = c.read (bs ++ more) closed' := by
  simp [Connection.read]

theorem Connection.read_nil (c : Connection) : c.read [] c.peerClosed = c := by
  simp [Connection.read]

theorem recvStep_reads {c' : Connection} {e : Answer} {x : Unit ⊕ Unit}
    (step : recvStep () c e = some (x, c')) : ∃ bs closed, c' = c.read bs closed := by
  have still : ∃ bs closed, c = c.read bs closed := ⟨[], c.peerClosed, c.read_nil.symm⟩
  have ended : ∃ bs closed, c.markPeerClosed = c.read bs closed :=
    ⟨[], true, by simp [Connection.read, Connection.markPeerClosed]⟩
  unfold recvStep at step
  split at step
  · rename_i bs
    split at step
    · cases step
    · cases (Prod.mk.inj (Option.some.inj step)).2
      exact ⟨bs, c.peerClosed, rfl⟩
  · cases step
    exact ended
  · cases step
    exact still
  · cases step
    exact still
  · cases step
    exact ended
  · cases step

theorem recv_does (c₀ : Connection) :
    Does (· = c₀) (fun _ _ => True) (loop recvStep ()) fun _ c =>
      ∃ bs closed, c = c₀.read bs closed := by
  have goes {c c' : Connection} {e : Answer} {x : Unit ⊕ Unit}
      (before : ∃ bs closed, c = c₀.read bs closed) (step : recvStep () c e = some (x, c')) :
      ∃ bs closed, c' = c₀.read bs closed := by
    obtain ⟨bs, closed, rfl⟩ := before
    obtain ⟨more, closed', rfl⟩ := recvStep_reads step
    exact ⟨bs ++ more, closed', c₀.read_read bs more closed closed'⟩
  refine .weaken (.loop (I := fun _ c => ∃ bs closed, c = c₀.read bs closed)
    (fun _ _ _ _ _ inv step => ⟨trivial, goes inv step⟩)
    (fun _ _ _ _ _ inv step => ⟨trivial, goes inv step⟩) ()) ?_ fun _ _ h => h
  rintro _ rfl
  exact ⟨[], _, (Connection.read_nil _).symm⟩

/-- What a poll does to a connection, and what comes of it. -/
inductive Polled (c : Connection) : List ControlMessage → Connection → Prop
  | closed : Polled c [] c
  | read {o : ControlOutbox} {st : Status} {told ended : Bool} {bs : Bytes}
      {ms : List ControlMessage} {c' : Connection} : c.outbox.Flushed st o →
      Parsed ((c.told o told).read bs ended) ms c' → Polled c ms c'

theorem pollTurn_does (maxItems : Nat) (out : List ControlMessage) (c₀ : Connection) :
    Does (· = c₀) (fun _ _ => True) (pollTurn maxItems out) fun out' c =>
      ∃ ms, out' = out ++ ms ∧ Polled c₀ ms c := by
  refine .bind (.get (Q := fun _ c => c = c₀) fun _ h => h) fun fd => ?_
  refine .ite (fun none => .pure ?_) fun opened => ?_
  · rintro _ rfl
    exact ⟨[], by simp, .closed⟩
  refine .bind (onOutbox_does (ControlOutbox.flushLocked_does c₀.outbox)) fun st => ?_
  refine .bind (Q := fun _ c => ∃ o told bs ended, c₀.outbox.Flushed st o ∧
    c = (c₀.told o told).read bs ended) ?_ fun _ => ?_
  · rintro c es a c' es' ⟨o, told, rfl, flushed⟩ run
    obtain ⟨steps, bs, ended, same⟩ := recv_does _ _ es a c' es' rfl run
    exact ⟨steps, o, told, bs, ended, flushed, same⟩
  refine .bind (Q := fun parsed c => ∃ ms, parsed.1 = out ++ ms ∧ Polled c₀ ms parsed.2) (.get ?_)
    fun parsed => .bind (Q := fun _ c => ∃ ms, parsed.1 = out ++ ms ∧ Polled c₀ ms c) (.set ?_)
      fun _ => .pure fun _ h => h
  · rintro _ ⟨o, told, bs, ended, flushed, rfl⟩
    obtain ⟨ms, outs, parsed⟩ := parse_parsed maxItems _ _ out
    exact ⟨ms, outs, .read flushed parsed⟩
  · exact fun _ h => ⟨trivial, h⟩

end Hux.RdmaControl
