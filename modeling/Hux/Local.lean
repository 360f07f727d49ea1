import Hux.Calls

/-!
# The transport between engines in one process

`LocalRegistry` and `LocalProvider`: a remote key is looked up in a registry of
the process, and a transfer is a copy that has happened by the time the
operation is taken. `localTransport` is an engine all of whose providers are
such ones, in a process where others go on registering memory and writing to it.
-/

namespace Hux

abbrev Memory := Nat → UInt8

/-- `memcpy`. -/
def Memory.copy (m : Memory) (dst src length : Nat) : Memory := fun a =>
  if dst ≤ a ∧ a < dst + length then m (src + (a - dst)) else m a

namespace LocalRegistry

structure Entry where
  addr : Nat
  length : Nat
  deriving DecidableEq, Repr

end LocalRegistry

structure LocalRegistry where
  entries : List (Nat × LocalRegistry.Entry)
  next : Nat
  deriving DecidableEq, Repr

namespace LocalRegistry

def publish (r : LocalRegistry) (addr length : Nat) : Nat × LocalRegistry :=
  (r.next, ⟨r.entries ++ [(r.next, ⟨addr, length⟩)], r.next + 1⟩)

def withdraw (r : LocalRegistry) (key : Nat) : LocalRegistry :=
  { r with entries := r.entries.filter (·.1 ≠ key) }

def find (r : LocalRegistry) (key : Nat) : Option Entry :=
  (r.entries.find? (·.1 == key)).map (·.2)

/-- The address itself, if the range belongs to the key. -/
def resolve (r : LocalRegistry) (key address length : Nat) : Option Nat :=
  match r.find key with
  | none => none
  | some e =>
    if address < e.addr then none
    else
      let offset := address - e.addr
      -- compared before adding, so a range that wraps does not fit
      if e.length < offset ∨ e.length - offset < length then none
      else some (e.addr + offset)

end LocalRegistry

/-- The process, with the queues of an engine's providers. -/
structure LocalState where
  registry : LocalRegistry
  memory : Memory
  completions : ProviderId → List CompletionEvent
  control : ProviderId → List ControlMessage
  /-- What went to the provider each is paired with. -/
  delivered : ProviderId → List ControlMessage

namespace LocalState

/-- `LocalRegistry::copy`, for an operation. -/
def copy (σ : LocalState) (op : SubOp) : Option LocalState :=
  (σ.registry.resolve op.remoteKey op.remoteAddr op.length).map fun remote =>
    match op.kind with
    | .read => { σ with memory := σ.memory.copy op.localAddr remote op.length }
    | .write => { σ with memory := σ.memory.copy remote op.localAddr op.length }

/-- The completion of an operation that was copied. -/
def complete (σ : LocalState) (prov : ProviderId) (op : SubOp) : LocalState :=
  let ev : CompletionEvent := { request := op.request, subId := op.subId, bytes := op.length }
  { σ with completions := Function.update σ.completions prov (σ.completions prov ++ [ev]) }

def poll (σ : LocalState) (prov : ProviderId) (maxEvents : Nat) :
    List CompletionEvent × LocalState :=
  ((σ.completions prov).take maxEvents,
    { σ with completions :=
        Function.update σ.completions prov ((σ.completions prov).drop maxEvents) })

/-- To the peer it is paired with, and back to itself where it is not. -/
def deliver (σ : LocalState) (paired : Bool) (prov : ProviderId) (m : ControlMessage) :
    LocalState :=
  if paired then
    { σ with delivered := Function.update σ.delivered prov (σ.delivered prov ++ [m]) }
  else { σ with control := Function.update σ.control prov (σ.control prov ++ [m]) }

def pollControl (σ : LocalState) (prov : ProviderId) (maxItems : Nat) :
    List ControlMessage × LocalState :=
  ((σ.control prov).take maxItems,
    { σ with control := Function.update σ.control prov ((σ.control prov).drop maxItems) })

end LocalState

/-- What the rest of the process does. -/
inductive LocalAct
  | nothing
  | store (addr : Nat) (value : UInt8)
  | publish (addr length : Nat)
  | withdraw (key : Nat)
  | deliver (prov : ProviderId) (m : ControlMessage)

def LocalAct.run (σ : LocalState) : LocalAct → LocalState
  | .nothing => σ
  | .store a v => { σ with memory := Function.update σ.memory a v }
  | .publish addr length => { σ with registry := (σ.registry.publish addr length).2 }
  | .withdraw key => { σ with registry := σ.registry.withdraw key }
  | .deliver prov m => σ.deliver false prov m

def localTransport (paired : ProviderId → Bool) : Transport where
  State := LocalState
  Answer := LocalAct
  offer _ conn op σ _ :=
    match conn with
    | none => some (false, σ)
    | some _ =>
      match σ.copy op with
      | some σ' => some (true, σ')
      | none => some (false, σ)
  land prov _ op σ := σ.complete prov op
  finish _ conn _ refused σ _ :=
    some ((if conn.isNone || refused then .invalidArgument else .ok, 0), σ)
  poll prov maxEvents σ _ :=
    let (evs, σ') := σ.poll prov maxEvents
    some ((.ok, evs), σ')
  sendControl prov conn type payload σ _ :=
    match conn with
    | none => some (.invalidArgument, σ)
    | some c =>
      some (.ok, σ.deliver (paired prov) prov { type := type.code, payload, conn := some c })
  broadcastControl prov type payload σ _ :=
    some ((.ok, 1, 0), σ.deliver (paired prov) prov { type := type.code, payload, conn := none })
  pollControl prov maxItems σ _ :=
    let (msgs, σ') := σ.pollControl prov maxItems
    some ((.ok, msgs), σ')
  pollPeerArrivals _ _ σ _ := some ((.ok, []), σ)
  connect _ _ _ σ _ := some (.ok, σ)
  disconnect _ _ σ _ := some (.ok, σ)
  alive _ _ _ := true
  environment σ act := some (act.run σ)

/-! ## A pair of engines

One engine with eight bytes at 4096 and a peer that exported eight at 8192, over
one provider, in chunks of four. -/

namespace Pair

def setup : Setup ℚ where
  cfg := {
    progress := .explicit
    chunkBytes := 4
    cqBatch := 8
    maxInflightRequests := 4
    schedulerQuantumBytes := 4
    notifyQueueDepth := 4
    notifyMaxPayload := 8
    completionQueueDepth := 4
    readyQueueDepth := 4
    chunk_pos := by decide
    chunk_small := by decide
    cq_pos := by decide
    inflight_pos := by decide
    notify_pos := by decide
    payload_pos := by decide }
  providers := 1
  some_provider := by decide
  caps _ := ⟨nameLocal, 0⟩
  relativeCapacity _ := 1
  identity := ⟨1, 1, 1⟩
  device := false

def here : MemoryRegion where
  origin := ⟨1, 1, 1⟩
  id := 1
  generation := 1
  base := 4096
  length := 8
  device := ⟨0, 0⟩
  access := AccessFlags.localRead ||| AccessFlags.localWrite
  reg := ⟨4096, 8, ⟨0, 0⟩, AccessFlags.localRead ||| AccessFlags.localWrite,
    [⟨nameLocal, 1, 1⟩], 1, 1⟩

def there : RegionDescriptor where
  major := 2
  minor := 0
  origin := ⟨1, 1, 2⟩
  region := 1
  generation := 1
  base := 8192
  length := 8
  remoteKey := 2
  providerKeys := [⟨nameLocal, 2⟩]
  device := ⟨0, 0⟩
  access := AccessFlags.remoteRead ||| AccessFlags.remoteWrite

def directory : Directory ℚ where
  regions := [here]
  remotes := [((1, 1), 0)]
  remoteObjects _ := ⟨there, true⟩
  peers := [1]
  peerObjects _ := ⟨⟨1, 1, 2⟩, [⟨0, some 0, 1⟩]⟩
  connected p := p == 1
  nextRegion := 2
  nextPeer := 2
  nextRemote := 1
  nextConn := 1

/-- Each side's memory is registered; the bytes are their addresses. -/
def state : LocalState where
  registry := ⟨[(1, ⟨4096, 8⟩), (2, ⟨8192, 8⟩)], 3⟩
  memory a := a.toUInt8
  completions _ := []
  control _ := []
  delivered _ := []

abbrev transport : Transport := localTransport fun _ => true

/-- All eight bytes, once the events have happened. -/
def write (after : List (Option EventId)) : Call :=
  .write 1 ⟨1, ⟨0, 8⟩⟩ ⟨1, ⟨0, 8⟩⟩ { after := after, readyHandoff := false }

abbrev Pools := Hux.Pools transport ℚ

abbrev Runs : (World transport ℚ → World transport ℚ → Prop) → Pools → Prop :=
  Hux.Runs setup directory state

/-- A schedule of the engine's calls, every step of it accepted by `check`. What
the rest of the process does when its turn comes is `act`. -/
def play (act : LocalAct) (check : World transport ℚ → World transport ℚ → Bool)
    (cues : List (Interleave.Cue Call)) : Option Pools :=
  (Interleave.Pool.start (World.start directory state)).play (Call.body transport setup)
    (fun p p' => check p.shared p'.shared) [.nothing, .transport act, .order [], .order [1]] cues

/-- What a schedule that plays to its end shows of its last state. -/
theorem played (act : LocalAct) (ok : World transport ℚ → World transport ℚ → Prop)
    [∀ s s', Decidable (ok s s')] (cues : List (Interleave.Cue Call)) (P : Pools → Prop)
    [DecidablePred P]
    (shown : ((play act (fun s s' => decide (ok s s')) cues).any fun p => decide (P p)) = true) :
    ∃ p, play act (fun s s' => decide (ok s s')) cues = some p ∧
      Runs ok p ∧ P p := by
  obtain ⟨p, found, shown⟩ := Option.any_eq_true _ _ |>.mp shown
  exact ⟨p, found, .further .start (Interleave.Onward.play found), of_decide_eq_true shown⟩

theorem run_of_play (act : LocalAct) {ok : World transport ℚ → World transport ℚ → Prop}
    [∀ s s', Decidable (ok s s')] (cues : List (Interleave.Cue Call)) {P : Pools → Prop}
    [DecidablePred P]
    (shown : ((play act (fun s s' => decide (ok s s')) cues).any fun p => decide (P p)) = true) :
    ∃ p, Runs ok p ∧ P p := by
  obtain ⟨p, -, run⟩ := played act ok cues P shown
  exact ⟨p, run⟩

end Pair

end Hux
