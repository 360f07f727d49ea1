import Hux.Control
import Hux.Outbox
import Hux.Table

/-!
# The transport within one host

`transport/ipc/ipc_provider.{h,cpp}`: the peer's memory is mapped and the bytes are copied
across the mapping. Everything the provider does under `mu_` is one step of a program here;
the outbox has a lock of its own, but nothing is written to the socket except by `post` and
`flush`, and a flush by another thread before a `post` is what that `post` begins with.

The device backend and the sockets answer as they like, within their contracts: a read or
a write takes at least one byte and no more than was asked for, a new descriptor is not an
open one, and `import_ipc` returns the base of a mapping of the whole allocation, plus the
handle's offset.
-/

namespace Hux.Ipc
open Wire (Bytes putLE leAt)
open Interleave (Prog Scripted Part)
open Interleave.Scripted (get set ask loop fail)

def kIpcWireMajor : Nat := 1
def kIpcWireMinor : Nat := 0
def kPublicationWaitMs : Nat := 250

def kFrameControl : Nat := 0
def kFramePublish : Nat := 1
def kFrameWithdraw : Nat := 2
def kFrameWithdrawAck : Nat := 3

structure IpcHandle where
  bytes : Bytes
  offset : Nat
  allocationBytes : Nat
  deriving DecidableEq, Repr

structure Exported where
  addr : Nat
  length : Nat
  handle : IpcHandle
  deriving DecidableEq, Repr

/-- `mapped` is null, 0, until first use. -/
structure Imported where
  peerAddr : Nat
  length : Nat
  handle : IpcHandle
  mapped : Nat := 0
  deriving DecidableEq, Repr

structure ProviderStats where
  subopsPosted : Nat := 0
  subopsCompleted : Nat := 0
  subopsFailed : Nat := 0
  payloadBytes : Nat := 0
  payloadBytesCopied : Nat := 0
  deriving DecidableEq, Repr

structure Frame where
  type : Nat
  body : Bytes
  deriving DecidableEq, Repr

def Frame.encode (f : Frame) : Bytes := putLE 4 f.body.length ++ (putLE 2 f.type ++ f.body)

/-- A call of `copy_nowait`: the entry it went through, the address on the mapped side, and
whether the mapping was still open. -/
structure Copy where
  im : Imported
  op : SubOp
  remote : Nat
  live : Bool
  deriving DecidableEq, Repr

/-- What has happened; nothing in the provider reads it. -/
structure Past where
  /-- Everything read from the sockets after the handshakes, and how much it was each time
  frames were looked for. -/
  read : Bytes := []
  parses : List Nat := []
  /-- The frames taken from the inbox. -/
  frames : List Frame := []
  /-- The reads and the erasures past the end of the inbox: how far, and its size. -/
  faults : List (Nat × Nat) := []
  /-- What `poll_control` has given out. -/
  handed : List ControlMessage := []
  /-- The handles mapped, each with the base of its mapping, and the addresses closed. -/
  imports : List (IpcHandle × Nat) := []
  closes : List Nat := []
  /-- Those of them that a Withdraw frame closed. -/
  withdrawn : List Nat := []
  /-- The keys published again while they were mapped. -/
  replaced : List Nat := []
  copies : List Copy := []
  /-- Whether a read met the end of a stream, or a read or a write failed. -/
  ended : Bool := false
  /-- The outbox each Publish frame was put to. -/
  offers : List (ControlOutbox × Bytes) := []
  /-- The connections `send_control` was called for while there was none. -/
  strays : List ConnId := []
  deriving DecidableEq

structure World where
  /-- `local_identity()`. -/
  identity : Identity
  sock : Option Nat := none
  inbox : Bytes := []
  peerGone : Bool := false
  stats : ProviderStats := {}
  completions : List CompletionEvent := []
  control : List ControlMessage := []
  exported : Table Exported := .empty
  imported : Table Imported := .empty
  withdrawAcks : Table Bool := .empty
  nextKey : Nat := 1
  conn : Option ConnId := none
  peerIdentity : Identity := .zero
  mappingsNotReleased : Nat := 0
  outbox : ControlOutbox := {}
  /-- The descriptors open in this process. -/
  opened : List Nat := []
  /-- Whether the provider is gone, and its locks with it. -/
  destroyed : Bool := false
  past : Past := {}
  deriving DecidableEq

inductive Received
  | data (bs : Bytes)
  /-- The end of the stream, and whether `errno` still says `EAGAIN`. -/
  | eof (again : Bool)
  | interrupted
  | again
  | failed
  deriving DecidableEq, Repr

/-- What the sockets, the device and the clock answer. -/
inductive Answer
  | sent (s : Sent)
  | received (r : Received)
  | time (now : Nat)
  /-- A new descriptor, or none. -/
  | fd (fd : Option Nat)
  | selected (ready : Bool)
  | device (st : Status)
  | mapped (st : Status) (base : Nat)
  | named (st : Status) (handle : IpcHandle)
  deriving DecidableEq

abbrev Region := Scripted World Answer

abbrev Provider := Prog World (List Answer)

def World.note (w : World) (f : Past → Past) : World := { w with past := f w.past }

/-- One step of a method; the provider is still there. -/
def region {α : Type} (m : Region α) : Provider α :=
  .region do
    let dead ← get (·.destroyed)
    if dead then fail else m

/-- Never goes on. -/
def halt {α : Type} : Provider α := .atom (fun _ _ _ => (none : Option (α × World))) .ret

def now : Region Nat := ask fun w e =>
  match e with
  | .time t => some (t, w)
  | _ => none

/-- A call to the device that only says how it went. -/
def device (f : Status → World → World) : Region Status := ask fun w e =>
  match e with
  | .device st => some (st, f st w)
  | _ => none

/-! ## The socket -/

def sendAllStep (rest : Bytes) (w : World) (e : Answer) : Option ((Bytes ⊕ Bool) × World) :=
  match e with
  | .sent (.took k) =>
    if k = 0 ∨ rest.length < k then none
    else some (if k = rest.length then .inr true else .inl (rest.drop k), w)
  | .sent .interrupted => some (.inl rest, w)
  | .sent _ => some (.inr false, w)
  | _ => none

def sendAll (bs : Bytes) : Region Bool := loop sendAllStep bs

/-- Ends with the bytes, or with whether `errno` says that the time is up. -/
def recvAllStep (n : Nat) (bs : Bytes) (w : World) (e : Answer) :
    Option ((Bytes ⊕ (Except Bool Bytes)) × World) :=
  match e with
  | .received (.data more) =>
    if more = [] ∨ n - bs.length < more.length then none
    else
      some (if bs.length + more.length = n then .inr (.ok (bs ++ more)) else .inl (bs ++ more), w)
  | .received .interrupted => some (.inl bs, w)
  | .received (.eof again) => some (.inr (.error again), w)
  | .received .again => some (.inr (.error true), w)
  | .received .failed => some (.inr (.error false), w)
  | _ => none

def recvAll (n : Nat) : Region (Except Bool Bytes) := loop (recvAllStep n) []

def outboxPart : Part World ControlOutbox where
  get w := w.outbox
  put o w := { w with outbox := o }
  get_put _ _ := rfl
  put_get _ := rfl
  put_put _ _ _ := rfl

def Answer.sent? : Answer → Option Sent
  | .sent s => some s
  | _ => none

/-- An operation of the outbox; a write that fails is the end of the connection. -/
def onOutbox (m : Scripted ControlOutbox Answer Status) : Region Status := do
  let s ← m.on outboxPart
  set fun w => w.note fun p => { p with ended := p.ended || w.outbox.broken }
  pure s

def sendFrame (fd : Option Nat) (type : Nat) (body : Bytes) : Region Status :=
  match fd with
  | none => pure .peerDisconnected
  | some fd => do
    let frame := Frame.encode ⟨type, body⟩
    let sock ← get (·.sock)
    if some fd = sock then onOutbox (post Answer.sent? frame)
    else
      let went ← sendAll frame
      pure (if went then .ok else .peerDisconnected)

/-! ## The end of a connection -/

/-- `close_ipc`, entry by entry. -/
def closeMappings : List (Nat × Imported) → Region Unit
  | [] => pure ()
  | (key, im) :: rest =>
    if im.mapped ≠ 0 then do
      let _ ← device fun st w =>
        { w with
          mappingsNotReleased :=
            if st ≠ .ok then w.mappingsNotReleased + 1 else w.mappingsNotReleased
          imported := w.imported.insert key { im with mapped := 0 }
          past := { w.past with closes := w.past.closes ++ [im.mapped] } }
      closeMappings rest
    else closeMappings rest

def World.dropSocket (w : World) : World :=
  match w.sock with
  | some fd => { w with outbox := .reset none, sock := none, opened := w.opened.erase fd }
  | none => w

def dropMappings : Region Unit := do
  let entries ← get (·.imported.entries)
  closeMappings entries
  set fun w => { w with imported := .empty }

def peerIsGoneLocked : Region Unit := do
  let gone ← get (·.peerGone)
  if gone then pure ()
  else
    set fun w => { w with peerGone := true }
    dropMappings
    set World.dropSocket

/-! ## Publishing -/

def publication (key : Nat) (e : Exported) : Bytes :=
  putLE 8 key ++ (putLE 8 e.addr ++ (putLE 8 e.length ++ (putLE 8 e.handle.offset ++
  (putLE 8 e.handle.allocationBytes ++ (putLE 2 e.handle.bytes.length ++ e.handle.bytes)))))

/-- The Publish frame of a region. -/
def publish (fd : Option Nat) (key : Nat) (e : Exported) : Region Status := do
  set fun w => w.note fun p =>
    { p with offers := p.offers ++ [(w.outbox, Frame.encode ⟨kFramePublish, publication key e⟩)] }
  sendFrame fd kFramePublish (publication key e)

def publishEntries (fd : Nat) : List (Nat × Exported) → Region Unit
  | [] => pure ()
  | (key, e) :: rest => do
    let s ← publish (some fd) key e
    if s ≠ .ok then peerIsGoneLocked else publishEntries fd rest

def publishAll (fd : Nat) : Region Unit := do
  let entries ← get (·.exported.entries)
  publishEntries fd entries

def exportIpc : Region (Status × IpcHandle) := ask fun w e =>
  match e with
  | .named st handle => some ((st, handle), w)
  | _ => none

def registerLocked (e : Exported) : Region (Status × Nat) := do
  let key ← get (·.nextKey)
  set fun w => { w with nextKey := u64 (key + 1), exported := w.exported.insert key e }
  let sock ← get (·.sock)
  if sock = none then pure (.ok, key)
  else
    let s ← publish sock key e
    if s ≠ .ok then
      peerIsGoneLocked
      pure (.ok, key)
    else pure (.ok, key)

/-- The caller's pointers are there; `addr` is null for 0. -/
def registerRegion (addr length : Nat) : Provider (Status × Nat) :=
  if addr = 0 ∨ length = 0 then pure (.invalidArgument, 0)
  else do
    let named ← region exportIpc
    if named.1 ≠ .ok then pure (named.1, 0)
    else region (registerLocked ⟨addr, length, named.2⟩)

/-! ## Connecting -/

def handshake : Region Status := do
  let me ← get (·.identity)
  let went ← sendAll (putLE 2 kIpcWireMajor ++ (putLE 2 kIpcWireMinor ++ encodeIdentity me))
  if !went then pure .peerDisconnected
  else
    match ← recvAll (4 + kIdentityBytes) with
    | .error again => pure (if again then .timeout else .peerDisconnected)
    | .ok theirs =>
      if leAt theirs 0 2 ≠ kIpcWireMajor then pure .unsupported
      else
        match decodeIdentity theirs 4 with
        | .error _ => pure .invalidArgument
        | .ok peer =>
          if localityOf me peer = .remote then pure .unsupported
          else
            set fun w => { w with peerIdentity := peer }
            pure .ok

/-- What `connect` and `accept` do with a new socket, under the lock. -/
def establish (fd : Nat) (id : ConnId) : Region (Status × Option ConnId) := do
  let s ← handshake
  if s ≠ .ok then
    set fun w => { w with opened := w.opened.erase fd }
    pure (s, none)
  else
    set fun w => { w with sock := some fd, outbox := .reset (some fd), conn := some id }
    publishAll fd
    pure (.ok, some id)

/-- `dial_abstract`, or `::accept`. -/
def newSocket : Region (Option Nat) := ask fun w e =>
  match e with
  | .fd none => some (none, w)
  | .fd (some fd) =>
    if fd ∈ w.opened then none else some (some fd, { w with opened := fd :: w.opened })
  | _ => none

/-- The connection object it makes is `id`. -/
def connect (peerMetadata : Bytes) (id : ConnId) : Provider (Status × Option ConnId) :=
  if peerMetadata.length < 2 then pure (.invalidArgument, none)
  else if peerMetadata.length ≠ 2 + leAt peerMetadata 0 2 then pure (.invalidArgument, none)
  else do
    match ← region newSocket with
    | none => pure (.peerDisconnected, none)
    | some fd => region (establish fd id)

def select : Region Bool := ask fun w e =>
  match e with
  | .selected ready => some (ready, w)
  | _ => none

/-- The loop, for at most so many rounds: the clock and the socket decide how many there
are. -/
def acceptLoop (timeoutMs : Int) (deadline : Int) (id : ConnId) :
    Nat → Provider (Status × Option ConnId)
  | 0 => halt
  | n + 1 => do
    let ready ← region select
    if ready then
      match ← region newSocket with
      | none => acceptLoop timeoutMs deadline id n
      | some fd => region (establish fd id)
    else if 0 ≤ timeoutMs then
      let t ← region now
      if deadline ≤ (t : Int) then pure (.timeout, none)
      else acceptLoop timeoutMs deadline id n
    else acceptLoop timeoutMs deadline id n

def accept (timeoutMs : Int) (id : ConnId) (rounds : Nat) : Provider (Status × Option ConnId) := do
  let t ← region now
  acceptLoop timeoutMs (t + max timeoutMs 0) id rounds

def disconnectLocked : Region Status := do
  dropMappings
  set World.dropSocket
  set fun w => { w with conn := none }
  pure .ok

def disconnect : Provider Status := region disconnectLocked

def destroyAll : Region Unit := do
  let entries ← get (·.imported.entries)
  closeMappings entries
  set fun w => { w with destroyed := true }
  set World.dropSocket

/-- `~IpcProvider`, by a caller that has no other call under way. -/
def destroy : Provider Unit := region destroyAll

/-! ## Reading frames -/

/-- A read of the inbox up to a place, or an erasure. Past the end of it what follows is
undefined. -/
def reach (upto : Nat) : Region Bool := do
  let size ← get (·.inbox.length)
  if upto ≤ size then pure true
  else
    set fun w => w.note fun p => { p with faults := p.faults ++ [(upto, size)] }
    pure false

def recvStep (_ : Unit) (w : World) (e : Answer) : Option ((Unit ⊕ Bool) × World) :=
  match e with
  | .received (.data bs) =>
    if bs = [] ∨ 4096 < bs.length then none
    else some (.inl (), { w with
      inbox := w.inbox ++ bs
      past := { w.past with read := w.past.read ++ bs } })
  | .received (.eof _) => some (.inr true, w.note fun p => { p with ended := true })
  | .received .interrupted => some (.inl (), w)
  | .received .again => some (.inr false, w)
  | .received .failed => some (.inr true, w.note fun p => { p with ended := true })
  | _ => none

/-- What a Publish frame says of a region, its handle's bytes apart. -/
def publicationOf (body : Bytes) (handle : Bytes) : Imported where
  peerAddr := leAt body 8 8
  length := leAt body 16 8
  handle := ⟨handle, leAt body 24 8, leAt body 32 8⟩

def World.addControl (w : World) (type : Nat) (payload : Bytes) : World :=
  { w with control :=
      w.control ++ [{ peer := w.peerIdentity.process, type, payload, conn := w.conn }] }

/-- Instead of the entry of that key, whatever it was. -/
def World.addImported (w : World) (key : Nat) (im : Imported) : World :=
  { w with
    imported := w.imported.insert key im
    past := { w.past with replaced :=
      if (w.imported.find key).any (·.mapped ≠ 0) then w.past.replaced ++ [key]
      else w.past.replaced } }

/-- A mapping that the peer withdraws is closed, and forgotten. -/
def withdraw (key : Nat) : Region Unit := do
  match ← get (·.imported.find key) with
  | none => pure ()
  | some im =>
    if im.mapped ≠ 0 then
      let _ ← device fun _ w =>
        { w with
          imported := w.imported.erase key
          past := { w.past with
            closes := w.past.closes ++ [im.mapped]
            withdrawn := w.past.withdrawn ++ [im.mapped] } }
    else set fun w => { w with imported := w.imported.erase key }

def World.acknowledge (w : World) (key : Nat) : World :=
  match w.withdrawAcks.find key with
  | some _ => { w with withdrawAcks := w.withdrawAcks.insert key true }
  | none => w

/-- `body` is what the inbox holds from the body on; false after a read past its end. -/
def dispatch (fd type len : Nat) (body : Bytes) : Region Bool := do
  if type = kFrameControl ∧ 2 ≤ len then
    if !(← reach (6 + 2)) then pure false
    else if !(← reach (6 + len)) then pure false
    else
      set fun w => w.addControl (leAt body 0 2) ((body.take len).drop 2)
      pure true
  else if type = kFramePublish ∧ 42 ≤ len then
    if !(← reach (6 + 42)) then pure false
    else
      let hn := leAt body 40 2
      if 42 + hn ≤ len then
        if !(← reach (6 + 42 + hn)) then pure false
        else
          set fun w => w.addImported (leAt body 0 8) (publicationOf body ((body.drop 42).take hn))
          pure true
      else pure true
  else if type = kFrameWithdraw ∧ 8 ≤ len then
    if !(← reach (6 + 8)) then pure false
    else
      withdraw (leAt body 0 8)
      let _ ← sendFrame (some fd) kFrameWithdrawAck (putLE 8 (leAt body 0 8))
      pure true
  else if type = kFrameWithdrawAck ∧ 8 ≤ len then
    if !(← reach (6 + 8)) then pure false
    else
      set fun w => w.acknowledge (leAt body 0 8)
      pure true
  else pure true

/-- One turn of the loop that takes frames from the inbox, and whether there is another.
The bound on the size is computed in 32 bits. -/
def takeFrame (fd : Nat) : Region Bool := do
  let inbox ← get (·.inbox)
  if inbox.length < 6 then pure false
  else
    let len := leAt inbox 0 4
    if inbox.length < u32 (6 + len) then pure false
    else
      let type := leAt inbox 4 2
      let body := inbox.drop 6
      set fun w => w.note fun p => { p with frames := p.frames ++ [⟨type, body.take len⟩] }
      if !(← dispatch fd type len body) then pure false
      else if !(← reach (6 + len)) then pure false
      else
        set fun w => { w with inbox := w.inbox.drop (6 + len) }
        pure true

/-- At most so many frames; each takes at least a byte of the inbox. -/
def parse (fd : Nat) : Nat → Region Unit
  | 0 => pure ()
  | fuel + 1 => do
    if ← takeFrame fd then parse fd fuel else pure ()

def pumpLocked (fd : Nat) : Region Status := do
  let sock ← get (·.sock)
  if some fd ≠ sock then pure .peerDisconnected
  else
    let closed ← loop recvStep ()
    set fun w => w.note fun p => { p with parses := p.parses ++ [p.read.length] }
    let size ← get (·.inbox.length)
    parse fd size
    if closed then
      peerIsGoneLocked
      pure .peerDisconnected
    else pure .ok

def pump (fd : Option Nat) : Provider Status :=
  match fd with
  | none => pure .peerDisconnected
  | some fd => do
    let s ← region (onOutbox (flushLocked Answer.sent?))
    if s = .peerDisconnected then
      region peerIsGoneLocked
      pure .peerDisconnected
    else region (pumpLocked fd)

/-! ## Withdrawing -/

/-- Under the lock, up to where the wait lets it go: how the call ends, or the deadline and
the socket to wait on. -/
def withdrawFrom (localKey : Nat) : Region (Status ⊕ (Nat × Option Nat)) := do
  match ← get (·.exported.find localKey) with
  | none => pure (.inl .notFound)
  | some _ =>
    set fun w => { w with exported := w.exported.erase localKey }
    let sock ← get (·.sock)
    if sock = none then pure (.inl .ok)
    else
      set fun w => { w with withdrawAcks := w.withdrawAcks.insert localKey false }
      let s ← sendFrame sock kFrameWithdraw (putLE 8 localKey)
      if s ≠ .ok then
        set fun w => { w with withdrawAcks := w.withdrawAcks.erase localKey }
        pure (.inl .ok)
      else
        let start ← now
        let t ← now
        if t < start + 2000 then pure (.inr (start + 2000, sock))
        else
          set fun w => { w with withdrawAcks := w.withdrawAcks.erase localKey }
          pure (.inl .timeout)

/-- Under the lock again, after a pump. -/
def checkAck (localKey deadline : Nat) : Region (Status ⊕ Option Nat) := do
  let ack ← get (·.withdrawAcks.find localKey)
  if ack ≠ some false then
    set fun w => { w with withdrawAcks := w.withdrawAcks.erase localKey }
    pure (.inl .ok)
  else
    let t ← now
    if t < deadline then
      let sock ← get (·.sock)
      pure (.inr sock)
    else
      set fun w => { w with withdrawAcks := w.withdrawAcks.erase localKey }
      pure (.inl .timeout)

def awaitAck (localKey deadline : Nat) : Nat → Option Nat → Provider Status
  | 0, _ => halt
  | n + 1, fd => do
    let _ ← pump fd
    match ← region (checkAck localKey deadline) with
    | .inl s => pure s
    | .inr fd => awaitAck localKey deadline n fd

def deregisterRegion (localKey : Nat) (rounds : Nat) : Provider Status := do
  match ← region (withdrawFrom localKey) with
  | .inl s => pure s
  | .inr (deadline, fd) => awaitAck localKey deadline rounds fd

/-! ## Transfers -/

/-- The mapping of a published region, made if it is not there yet. -/
def ensureMapped (key : Nat) : Region (Except Status Imported) := do
  match ← get (·.imported.find key) with
  | none => pure (.error .notFound)
  | some im =>
    if im.mapped = 0 then
      ask fun w e =>
        match e with
        | .mapped st base =>
          if st ≠ .ok then some (.error st, w)
          else if base = 0 ∨ 2 ^ 64 ≤ base + im.handle.allocationBytes then none
          else
            let im := { im with mapped := u64 (base + im.handle.offset) }
            some (.ok im, { w with
              imported := w.imported.insert key im
              past := { w.past with imports := w.past.imports ++ [(im.handle, base)] } })
        | _ => none
    else pure (.ok im)

/-- The address `import_ipc` returned. -/
def returned (x : IpcHandle × Nat) : Nat := u64 (x.2 + x.1.offset)

def World.copied (w : World) (im : Imported) (op : SubOp) (remote : Nat) (cs : Status) : World :=
  { w with
    stats := { w.stats with
      subopsPosted := u64 (w.stats.subopsPosted + 1)
      payloadBytes := u64 (w.stats.payloadBytes + op.length)
      payloadBytesCopied :=
        if cs = .ok then u64 (w.stats.payloadBytesCopied + op.length)
        else w.stats.payloadBytesCopied }
    past := { w.past with copies := w.past.copies ++ [⟨im, op, remote,
      decide (w.past.closes.count im.mapped < (w.past.imports.map returned).count im.mapped)⟩] } }

def landedEvent (op : SubOp) (cs : Status) : CompletionEvent where
  request := op.request
  subId := op.subId
  bytes := if cs = .ok then op.length else 0
  status := cs
  mayHaveModifiedTarget := decide (cs ≠ .ok ∧ op.kind = .write)

/-- The batch, one operation after the other, until one cannot be made. -/
def transfer : List SubOp → SubmitResult → List CompletionEvent →
    Region (SubmitResult × List CompletionEvent)
  | [], r, landed => pure (r, landed)
  | op :: rest, r, landed => do
    match ← ensureMapped op.remoteKey with
    | .error s => pure ({ r with status := s }, landed)
    | .ok im =>
      if op.remoteAddr < im.peerAddr then pure ({ r with status := .invalidArgument }, landed)
      else
        let offset := op.remoteAddr - im.peerAddr
        if offset > im.length ∨ op.length > im.length - offset then
          pure ({ r with status := .invalidArgument }, landed)
        else
          let remote := u64 (im.mapped + offset)
          -- source and destination are this address and the local one, either way
          if remote = op.localAddr then pure ({ r with status := .internal }, landed)
          else
            let cs ← device fun cs w => w.copied im op remote cs
            transfer rest { r with accepted := u32 (r.accepted + 1) }
              (landed ++ [landedEvent op cs])

def settled (ss : Status) (ev : CompletionEvent) : CompletionEvent :=
  if ss ≠ .ok ∧ ev.status = .ok then
    { ev with status := ss, bytes := 0, mayHaveModifiedTarget := true }
  else ev

def submitLocked (ops : List SubOp) : Region SubmitResult := do
  let down ← get fun w => w.peerGone || w.sock.isNone
  if down then pure ⟨0, .peerDisconnected, 0⟩
  else
    let (r, landed) ← transfer ops ⟨0, .ok, 0⟩ []
    if landed = [] then pure r
    else
      let ss ← device fun _ w => w
      set fun w => { w with completions := w.completions ++ landed.map (settled ss) }
      pure (if ss ≠ .ok then { r with status := ss } else r)

/-- Whether the wait is over: the peer is gone, or all keys are there. -/
def haveAll (ops : List SubOp) : Region Bool :=
  get fun w => w.peerGone || w.sock.isNone ||
    ops.all fun op => (w.imported.find op.remoteKey).isSome

def awaitKeys (ops : List SubOp) (fd : Option Nat) (deadline : Nat) : Nat → Provider Unit
  | 0 => halt
  | n + 1 => do
    let _ ← pump fd
    let done ← region (haveAll ops)
    if done then pure ()
    else
      let t ← region now
      if deadline ≤ t then pure () else awaitKeys ops fd deadline n

def submit (conn : Option ConnId) (ops : List SubOp) (rounds : Nat) : Provider SubmitResult :=
  if conn = none then pure ⟨0, .invalidArgument, 0⟩
  else do
    let fd ← region (get (·.sock))
    let t ← region now
    awaitKeys ops fd (t + kPublicationWaitMs) rounds
    region (submitLocked ops)

def pollStats (s : ProviderStats) (ev : CompletionEvent) : ProviderStats :=
  if ev.status = .ok then { s with subopsCompleted := u64 (s.subopsCompleted + 1) }
  else { s with subopsFailed := u64 (s.subopsFailed + 1) }

def pollLocked (maxEvents : Nat) : Region (List CompletionEvent) := do
  let out ← get (·.completions.take maxEvents)
  set fun w => { w with
    completions := w.completions.drop maxEvents
    stats := out.foldl pollStats w.stats }
  pure out

def poll (maxEvents : Nat) : Provider (List CompletionEvent) := region (pollLocked maxEvents)

/-! ## Control messages -/

def controlBody (type : Nat) (payload : Bytes) : Bytes := putLE 2 type ++ payload

def sendControlLocked (id : ConnId) (type : Nat) (payload : Bytes) : Region Status := do
  let gone ← get (·.peerGone)
  if gone then pure .peerDisconnected
  else
    set fun w => w.note fun p =>
      { p with strays := if w.conn = none then p.strays ++ [id] else p.strays }
    let sock ← get (·.sock)
    let s ← sendFrame sock kFrameControl (controlBody type payload)
    if s = .peerDisconnected then
      peerIsGoneLocked
      pure s
    else pure s

def sendControl (conn : Option ConnId) (type : Nat) (payload : Bytes) : Provider Status :=
  match conn with
  | none => pure .invalidArgument
  | some id => region (sendControlLocked id type payload)

/-- How many connections took it, and how many did not. -/
def broadcastLocked (type : Nat) (payload : Bytes) : Region (Nat × Nat) := do
  let sock ← get fun w => if w.peerGone then none else w.sock
  if sock = none then pure (0, 0)
  else
    let s ← sendFrame sock kFrameControl (controlBody type payload)
    if s = .peerDisconnected then
      peerIsGoneLocked
      pure (0, 1)
    else pure (if s = .ok then (1, 0) else (0, 1))

def broadcastControl (type : Nat) (payload : Bytes) : Provider (Nat × Nat) :=
  region (broadcastLocked type payload)

def takeControl (maxItems : Nat) : Region (List ControlMessage) := do
  let out ← get (·.control.take maxItems)
  set fun w => { w with
    control := w.control.drop maxItems
    past := { w.past with handed := w.past.handed ++ w.control.take maxItems } }
  pure out

def pollControl (maxItems : Nat) : Provider (List ControlMessage) := do
  let fd ← region (get (·.sock))
  let _ ← pump fd
  region (takeControl maxItems)

def peerAlive : Provider Bool := region (get fun w => !w.peerGone && w.sock.isSome)

/-! ## Calls -/

inductive Call
  | registerRegion (addr length : Nat)
  | deregisterRegion (localKey rounds : Nat)
  | connect (peerMetadata : Bytes) (id : ConnId)
  | accept (timeoutMs : Int) (id : ConnId) (rounds : Nat)
  | disconnect
  | submit (conn : Option ConnId) (ops : List SubOp) (rounds : Nat)
  | poll (maxEvents : Nat)
  | sendControl (conn : Option ConnId) (type : Nat) (payload : Bytes)
  | broadcastControl (type : Nat) (payload : Bytes)
  | pollControl (maxItems : Nat)
  | peerAlive
  | destroy
  deriving DecidableEq

inductive Reply
  | status (s : Status)
  | registered (s : Status) (key : Nat)
  | connected (s : Status) (conn : Option ConnId)
  | submitted (r : SubmitResult)
  | events (evs : List CompletionEvent)
  | broadcast (sent refused : Nat)
  | messages (ms : List ControlMessage)
  | alive (b : Bool)
  | destroyed
  deriving DecidableEq

def body : Call → Provider Reply
  | .registerRegion addr length => do
    let r ← registerRegion addr length
    pure (.registered r.1 r.2)
  | .deregisterRegion localKey rounds => do
    let s ← deregisterRegion localKey rounds
    pure (.status s)
  | .connect peerMetadata id => do
    let r ← connect peerMetadata id
    pure (.connected r.1 r.2)
  | .accept timeoutMs id rounds => do
    let r ← accept timeoutMs id rounds
    pure (.connected r.1 r.2)
  | .disconnect => do
    let s ← disconnect
    pure (.status s)
  | .submit conn ops rounds => do
    let r ← submit conn ops rounds
    pure (.submitted r)
  | .poll maxEvents => do
    let evs ← poll maxEvents
    pure (.events evs)
  | .sendControl conn type payload => do
    let s ← sendControl conn type payload
    pure (.status s)
  | .broadcastControl type payload => do
    let r ← broadcastControl type payload
    pure (.broadcast r.1 r.2)
  | .pollControl maxItems => do
    let ms ← pollControl maxItems
    pure (.messages ms)
  | .peerAlive => do
    let b ← peerAlive
    pure (.alive b)
  | .destroy => do
    destroy
    pure .destroyed

/-- A provider just created. -/
def World.start (identity : Identity) : World := { identity }

/-! ## A provider to try things on -/

namespace Bench

/-- A process and another on the same host. -/
def me : Identity := ⟨1, 2, 3⟩

def peer : Identity := ⟨1, 5, 6⟩

/-- The answers of a handshake that succeeds. -/
def greeted : List Answer :=
  [.sent (.took 28),
    .received (.data (putLE 2 kIpcWireMajor ++ (putLE 2 kIpcWireMinor ++ encodeIdentity peer)))]

/-- A socket to that peer. -/
def dialled (fd : Nat) : List (List Answer) := [[.fd (some fd)], greeted]

/-- A pump that reads these frames, and then nothing. -/
def reading (fs : List Frame) : List Answer :=
  [.received (.data (fs.flatMap Frame.encode)), .received .again]

/-- A Publish frame with a handle of no bytes. -/
def published (key addr length offset allocationBytes : Nat) : Frame :=
  ⟨kFramePublish, publication key ⟨addr, length, ⟨[], offset, allocationBytes⟩⟩⟩

def read (key remoteAddr length : Nat) : SubOp where
  kind := .read
  request := 0
  subId := 0
  localAddr := 8
  localKey := 0
  remoteAddr := remoteAddr
  remoteKey := key
  length := length

end Bench

end Hux.Ipc
