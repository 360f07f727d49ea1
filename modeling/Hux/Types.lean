import Mathlib.Data.Finset.Basic
import Hux.Wire

/-!
# Public types

The enumerations, spans and identities of `include/hux` and `control/identity.h`.
Integers are `Nat`; where the source's width decides a result the arithmetic
goes through `u32` or `u64`.
-/

namespace Hux
open Wire (Bytes)

def u32 (n : Nat) : Nat := n % 2 ^ 32
def u64 (n : Nat) : Nat := n % 2 ^ 64

theorem u32_of_lt {n : Nat} (h : n < 2 ^ 32) : u32 n = n := Nat.mod_eq_of_lt h

theorem u64_of_lt {n : Nat} (h : n < 2 ^ 64) : u64 n = n := Nat.mod_eq_of_lt h

abbrev PeerId := Nat
abbrev RegionId := Nat
abbrev RequestId := Nat
abbrev Generation := Nat
/-- A transport of the engine, by its place in `providers_`. -/
abbrev ProviderId := Nat
/-- A connection object a transport handed out. -/
abbrev ConnId := Nat
/-- A device event a caller recorded. -/
abbrev EventId := Nat

inductive Status
  | ok | wouldBlock | timeout | cancelled | unsupported | invalidArgument | outOfRange
  | notFound | staleGeneration | peerDisconnected | resourceExhausted | deviceError
  | transportError | internal
  deriving DecidableEq, Repr

structure ErrorInfo where
  status : Status := .ok
  provider : Bytes := []
  peerId : PeerId := 0
  providerErrno : Int := 0
  mayHaveModifiedTarget : Bool := false
  detail : String := ""
  deriving DecidableEq, Repr

def ErrorInfo.ok (e : ErrorInfo) : Bool := e.status == .ok

inductive Stage
  | accepted | sourceReusable | transferComplete | targetReady | failedSafe | cancelledSafe
  deriving DecidableEq, Repr

inductive RequestState
  | queued | waitDependency | inflight | waitTargetReady | waitNotifyAck | draining
  | succeeded | failed | cancelled
  deriving DecidableEq, Repr

def isTerminal (s : RequestState) : Bool :=
  s == .succeeded || s == .failed || s == .cancelled

/-- A bit set, as the wire and the registrations carry it. -/
abbrev AccessFlags := BitVec 32

namespace AccessFlags
def localRead : AccessFlags := 1
def localWrite : AccessFlags := 2
def remoteRead : AccessFlags := 4
def remoteWrite : AccessFlags := 8
end AccessFlags

def hasFlag (set bit : AccessFlags) : Bool := set &&& bit != 0

structure Span where
  offset : Nat
  length : Nat
  deriving DecidableEq, Repr

/-- The source compares before it adds, so nothing can wrap here. -/
def Span.within (s : Span) (total : Nat) : Bool :=
  decide (s.offset ≤ total) && decide (s.length ≤ total - s.offset)

theorem Span.within_iff (s : Span) (total : Nat) :
    s.within total = true ↔ s.offset + s.length ≤ total := by
  simp only [Span.within, Bool.and_eq_true, decide_eq_true_eq]
  omega

structure RegionView where
  region : RegionId
  span : Span
  deriving DecidableEq, Repr

/-- The kind is whatever byte a descriptor carried: the source casts it into
its enumeration unchecked. -/
structure DeviceId where
  kind : UInt8
  index : BitVec 32
  deriving DecidableEq, Repr

/-- The host, the process and the engine a peer is. -/
structure Identity where
  host : Nat
  process : Nat
  engine : Nat
  deriving DecidableEq, Repr

/-- What a peer dialled from a bare provider blob has. -/
def Identity.zero : Identity := ⟨0, 0, 0⟩

inductive Locality
  | sameEngine | sameProcess | sameHost | remote
  deriving DecidableEq, Repr

def localityOf (a b : Identity) : Locality :=
  if a.host ≠ b.host then .remote
  else if a.process ≠ b.process then .sameHost
  else if a.engine ≠ b.engine then .sameProcess
  else .sameEngine

inductive SubOpKind
  | read | write
  deriving DecidableEq, Repr

/-- A piece of a transfer, as handed to a transport. The source's reserved
`signal_peer` and `peer_token` are never set and are left out. -/
structure SubOp where
  kind : SubOpKind
  request : RequestId
  subId : Nat
  localAddr : Nat
  localKey : Nat
  remoteAddr : Nat
  remoteKey : Nat
  length : Nat
  deriving DecidableEq, Repr

structure CompletionEvent where
  request : RequestId
  subId : Nat
  bytes : Nat := 0
  status : Status := .ok
  providerErrno : Int := 0
  mayHaveModifiedTarget : Bool := false
  deriving DecidableEq, Repr

structure SubmitResult where
  accepted : Nat
  status : Status
  providerErrno : Int
  deriving DecidableEq, Repr

end Hux
