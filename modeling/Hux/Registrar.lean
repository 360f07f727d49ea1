import Hux.Interleave
import Hux.Transport

/-!
# Registering memory

`EngineImpl::register_memory` down to the transports, with the cache of
registrations and the pointers that keep each object alive. A `shared_ptr` is an
object's number and a count: a copy adds one, a pointer that goes takes one away,
and the last one to go runs the deleter. Pointers are dropped with no lock held,
so a count can fall while another thread walks the cache.

A request appears here as the regions it holds. Its transfer is the matter of
`Submit`, and the notices that deregistering a region sends are that of `Calls`.
-/

namespace Hux
open Interleave (Prog Tid)

/-! ## State -/

/-- A `Registration` object, by the order in which they are made. -/
abbrev RegistrationId := Nat

/-- A `Registration` behind its `shared_ptr`. -/
structure RegistrationObject where
  reg : Registration
  /-- What the deleter captured: which transport gets which key back. -/
  held : List (ProviderId × Nat)
  useCount : Nat

structure RegionObject where
  region : MemoryRegion
  /-- `reg_`. -/
  registration : RegistrationId
  useCount : Nat

/-- A request that was admitted, and whether somebody still has a pointer to it. -/
structure RequestObject where
  heldRegions : List RegionId
  alive : Bool

/-- A `register_region` call that a transport granted. -/
structure Mint where
  registration : RegistrationId
  provider : ProviderId
  addr : Nat
  length : Nat
  device : DeviceId
  access : AccessFlags
  localKey : Nat
  remoteKey : Nat
  deriving DecidableEq, Repr

/-- What the deleter of its registration is to give back. -/
def Mint.pair (m : Mint) : ProviderId × Nat := (m.provider, m.localKey)

def Mint.key (m : Mint) (caps : ProviderId → ProviderCaps) : RegistrationKey :=
  ⟨(caps m.provider).name, m.localKey, m.remoteKey⟩

/-- The part of an engine that registers memory. -/
structure Registrar where
  /-- The thread that has `mu_`. -/
  mu : Option Tid
  regCache : List RegistrationId
  registrations : RegistrationId → RegistrationObject
  nextRegistration : RegistrationId
  /-- The keys of `regions_`. A region's number is also which object it is. -/
  regions : List RegionId
  regionObjects : RegionId → RegionObject
  retired : RegionId → Bool
  nextRegion : RegionId
  /-- Every request admitted so far, in that order. -/
  requests : List RequestObject
  inflight : List RequestId
  /-- Those in a terminal state. -/
  finished : List RequestId
  /-- How many pointers to a region the application has. -/
  kept : RegionId → Nat
  registrationsReused : Nat
  registrationsCreated : Nat
  /-- The calls that transports had, oldest first; no modelled function reads
  them. -/
  minted : List Mint
  deregistered : List (RegistrationId × ProviderId × Nat)

/-- What the environment adds to a step. -/
inductive Grant
  | nothing
  /-- The device a pointer belongs to, where the backend can tell. -/
  | probed (device : Option DeviceId)
  /-- A transport's answer to `register_region`: the local key and the remote one. -/
  | registered (keys : Except Status (Nat × Nat))
  /-- What the checks of a submission that are not about local regions find. -/
  | verdict (refused : Option Status)

namespace Registrar

/-- What an engine that registers memory is made with, its transports included. -/
structure Config (W : Type) extends Setup W where
  registrationCacheEntries : Nat
  /-- `cfg_.device`. -/
  cfgDevice : DeviceId
  /-- The device backend's cap, 0 if it has none. -/
  maxRegistrationBytes : Nat

def noObject : Registration := ⟨0, 0, ⟨0, 0⟩, 0, [], 0, 0⟩

/-- An engine that has registered nothing. -/
def start : Registrar where
  mu := none
  regCache := []
  registrations _ := ⟨noObject, [], 0⟩
  nextRegistration := 0
  regions := []
  regionObjects _ := ⟨⟨.zero, 0, 0, 0, 0, ⟨0, 0⟩, 0, noObject⟩, 0, 0⟩
  retired _ := false
  nextRegion := 1
  requests := []
  inflight := []
  finished := []
  kept _ := 0
  registrationsReused := 0
  registrationsCreated := 0
  minted := []
  deregistered := []

def registrationUses (s : Registrar) (r : RegistrationId) : Nat := (s.registrations r).useCount

def regionUses (s : Registrar) (id : RegionId) : Nat := (s.regionObjects id).useCount

def putRegistration (s : Registrar) (r : RegistrationId) (o : RegistrationObject) : Registrar :=
  { s with registrations := Function.update s.registrations r o }

def putRegion (s : Registrar) (id : RegionId) (o : RegionObject) : Registrar :=
  { s with regionObjects := Function.update s.regionObjects id o }

def countRegistration (s : Registrar) (r : RegistrationId) (n : Nat) : Registrar :=
  s.putRegistration r { s.registrations r with useCount := n }

def countRegion (s : Registrar) (id : RegionId) (n : Nat) : Registrar :=
  s.putRegion id { s.regionObjects id with useCount := n }

def copyRegistration (s : Registrar) (r : RegistrationId) : Registrar :=
  s.countRegistration r (s.registrationUses r + 1)

def copyRegion (s : Registrar) (id : RegionId) : Registrar :=
  s.countRegion id (s.regionUses id + 1)

/-! ## Atoms -/

abbrev Registering := Prog Registrar Grant

section
variable {α : Type}

/-- An access that needs no lock. -/
def change (f : Registrar → α × Registrar) : Registering α :=
  .atom (fun _ s _ => some (f s)) .ret

def look (f : Registrar → α) : Registering α := change fun s => (f s, s)

/-- An access the caller can only make with something that `f` finds. -/
def change? (f : Registrar → Option (α × Registrar)) : Registering α :=
  .atom (fun _ s _ => f s) .ret

/-- All that is done under `mu_`, where others cannot tell it from one step. -/
def locked (f : Registrar → α × Registrar) : Registering α :=
  .atom (fun _ s _ => if s.mu = none then some (f s) else none) .ret

def lock : Registering Unit :=
  .atom (fun t s _ => if s.mu = none then some ((), { s with mu := some t }) else none) .ret

/-- A step between `lock` and `unlock`. -/
def inside (f : Registrar → α × Registrar) : Registering α :=
  .atom (fun t s _ => if s.mu = some t then some (f s) else none) .ret

def unlock : Registering Unit := inside fun s => ((), { s with mu := none })

end

/-! ## Pointers that go -/

/-- The deleter of a registration. -/
def deregisterRegions (r : RegistrationId) : List (ProviderId × Nat) → Registering Unit
  | [] => pure ()
  | h :: held => do
    change fun s => ((), { s with deregistered := s.deregistered ++ [(r, h)] })
    deregisterRegions r held

def dropRegistrationPtr (r : RegistrationId) : Registering Unit := do
  let held ← change fun s =>
    (if s.registrationUses r = 1 then some (s.registrations r).held else none,
      s.countRegistration r (s.registrationUses r - 1))
  match held with
  | some held => deregisterRegions r held
  | none => pure ()

def dropRegistrationPtrs : List RegistrationId → Registering Unit
  | [] => pure ()
  | r :: rest => do
    dropRegistrationPtr r
    dropRegistrationPtrs rest

/-- A region's last pointer takes its `reg_` along. -/
def dropRegionPtr (id : RegionId) : Registering Unit := do
  let reg ← change fun s =>
    (if s.regionUses id = 1 then some (s.regionObjects id).registration else none,
      s.countRegion id (s.regionUses id - 1))
  match reg with
  | some r => dropRegistrationPtr r
  | none => pure ()

def dropRegionPtrs : List RegionId → Registering Unit
  | [] => pure ()
  | id :: rest => do
    dropRegionPtr id
    dropRegionPtrs rest

/-! ## The cache -/

def findRegistration (addr length : Nat) (device : DeviceId) (access : AccessFlags) :
    Registering (Option RegistrationId) :=
  locked fun s =>
    match s.regCache.find? fun r =>
        registrationCovers (s.registrations r).reg addr length device access with
    | some r => (some r, s.copyRegistration r)
    | none => (none, s)

/-- Whether only the caller's pointer is left, at the time of asking. -/
def unshared (r : RegistrationId) : Registering Bool :=
  inside fun s => (decide (s.registrationUses r = 1), s)

/-- The entry's pointer is moved out. An object is only cached when it is made, so
it has one entry at most. -/
def evict (r : RegistrationId) : Registering Unit :=
  inside fun s => ((), { s with regCache := s.regCache.erase r })

def firstUnshared : List RegistrationId → Registering (Option RegistrationId)
  | [] => pure none
  | r :: rest => do
    if ← unshared r then pure (some r) else firstUnshared rest

/-- The loop that makes room. A turn that is not the last drops an entry, so there
are no more turns than there were entries. -/
def makeRoom (entries : Nat) : Nat → List RegistrationId → Registering (List RegistrationId)
  | 0, evicted => pure evicted
  | turns + 1, evicted => do
    let cache ← inside fun s => (s.regCache, s)
    if cache.length ≤ entries then pure evicted
    else
      match ← firstUnshared cache with
      | some r =>
        evict r
        makeRoom entries turns (evicted ++ [r])
      | none => pure evicted

/-- The argument is a copy, which is moved into the cache. -/
def cacheRegistration (entries : Nat) (r : RegistrationId) : Registering Unit := do
  lock
  let size ← inside fun s =>
    (s.regCache.length + 1, { s.copyRegistration r with regCache := s.regCache ++ [r] })
  let evicted ← makeRoom entries size []
  unlock
  dropRegistrationPtrs evicted

/-- Copied into `dropped` and then erased, with the lock held throughout. -/
def sweep : List RegistrationId → List RegistrationId → Registering (List RegistrationId)
  | [], dropped => pure dropped
  | r :: rest, dropped => do
    if ← unshared r then
      evict r
      sweep rest (dropped ++ [r])
    else sweep rest dropped

/-! ## Making registrations and regions -/

/-- What a handle or a registration is asked for. -/
structure Range where
  addr : Nat
  length : Nat
  device : DeviceId
  access : AccessFlags

section
variable {W : Type} (cfg : Config W)

/-- Asks each transport in turn. A refusal leaves no key, and the first one is what
a registration without any key fails with. -/
def registerWith (a : Range) (r : RegistrationId) :
    List ProviderId → List Mint → Status → Registering (List Mint × Status)
  | [], ms, firstError => pure (ms, firstError)
  | prov :: rest, ms, firstError => do
    let answer ← (.atom (fun _ s e =>
      match e with
      | .registered (.ok (lkey, rkey)) =>
        let m : Mint := ⟨r, prov, a.addr, a.length, a.device, a.access, lkey, rkey⟩
        some (.ok m, { s with minted := s.minted ++ [m] })
      | .registered (.error refused) => some (.error refused, s)
      | _ => none) .ret : Registering (Except Status Mint))
    match answer with
    | .ok m => registerWith a r rest (ms ++ [m]) firstError
    | .error refused =>
      registerWith a r rest ms (if firstError = .ok then refused else firstError)

/-- The keys transports gave, and the first one's again. -/
def registrationOf (a : Range) (first : Mint) (rest : List Mint) : Registration :=
  ⟨a.addr, a.length, a.device, a.access, (first :: rest).map (·.key cfg.caps), first.localKey,
    first.remoteKey⟩

/-- `owned` and the pointer whose deleter gives the keys back. -/
def createRegistration (a : Range) : Registering (Except Status RegistrationId) := do
  let r ← change fun s =>
    (s.nextRegistration, { s with nextRegistration := s.nextRegistration + 1 })
  let (ms, firstError) ← registerWith a r (List.range cfg.providers) [] .ok
  match ms with
  | [] => return .error (if firstError = .ok then .unsupported else firstError)
  | first :: rest =>
    change fun s => ((), s.putRegistration r
      ⟨registrationOf cfg a first rest, (first :: rest).map Mint.pair, 1⟩)
    if 0 < cfg.registrationCacheEntries then cacheRegistration cfg.registrationCacheEntries r
    return .ok r

/-- The caller's range over a registration, which the new region shares. -/
def makeRegion (a : Range) (r : RegistrationId) : Registering RegionId := do
  let id ← change fun s => (s.nextRegion, { s with nextRegion := s.nextRegion + 1 })
  change fun s => ((), (s.copyRegistration r).putRegion id
    ⟨⟨cfg.identity, id, 1, a.addr, a.length, a.device, a.access, (s.registrations r).reg⟩, r, 1⟩)
  locked fun s => ((), { s.copyRegion id with regions := s.regions ++ [id] })
  -- `*out = r`, and the pointer it was copied from goes.
  change fun s => ((), { s with kept := Function.update s.kept id (s.kept id + 1) })
  dropRegistrationPtr r
  return id

/-- The device a range is on, and whether it may be registered whole. -/
def placeRange (length : Nat) : Registering (Except Status DeviceId) :=
  if cfg.device then do
    let probed ← (.atom (fun _ s e =>
      match e with
      | .probed d => some (d, s)
      | _ => none) .ret : Registering (Option DeviceId))
    if cfg.maxRegistrationBytes ≠ 0 ∧ cfg.maxRegistrationBytes < length then
      return .error .resourceExhausted
    return .ok (probed.getD cfg.cfgDevice)
  else pure (.ok cfg.cfgDevice)

def registerMemory (addr length : Nat) (access : AccessFlags) :
    Registering (Status × Option RegionId) := do
  if addr = 0 ∨ length = 0 then return (.invalidArgument, none)
  else
    match ← placeRange cfg length with
    | .error s => return (s, none)
    | .ok device =>
      let a : Range := ⟨addr, length, device, access⟩
      match ← findRegistration addr length device access with
      | some r =>
        change fun s => ((), { s with registrationsReused := s.registrationsReused + 1 })
        let id ← makeRegion cfg a r
        return (.ok, some id)
      | none =>
        change fun s => ((), { s with registrationsCreated := s.registrationsCreated + 1 })
        match ← createRegistration cfg a with
        | .error s => return (s, none)
        | .ok r =>
          let id ← makeRegion cfg a r
          return (.ok, some id)

/-- The results come in the order of the ranges, whatever became of the others. -/
def registerEach (access : AccessFlags) :
    List (Nat × Nat) → List (Status × Option RegionId) →
      Registering (List (Status × Option RegionId))
  | [], out => pure out
  | (addr, length) :: rest, out => do
    let result ← registerMemory cfg addr length access
    registerEach access rest (out ++ [result])

end

/-! ## Regions and requests -/

/-- The application passes on a pointer it has. -/
def borrow (id : RegionId) : Registering Unit :=
  change? fun s => if 0 < s.kept id then some ((), s.copyRegion id) else none

def findRegion (id : RegionId) : Registering Bool :=
  locked fun s => if id ∈ s.regions then (true, s.copyRegion id) else (false, s)

def heldInFlight (s : Registrar) (id : RegionId) : Bool :=
  s.inflight.any fun q => (s.requests[q]?.map (·.heldRegions.contains id)).getD false

/-- Refused while a request in flight uses the region; otherwise `regions_` gives
its pointer up, which is not the last as the caller has one. -/
def unlist (id : RegionId) : Registering Bool :=
  locked fun s =>
    if s.heldInFlight id then (false, s)
    else if id ∈ s.regions then
      (true, { s.countRegion id (s.regionUses id - 1) with regions := s.regions.erase id })
    else (true, s)

/-- The checks that other parts of the engine make of a submission. -/
def otherChecks : Registering (Option Status) :=
  .atom (fun _ s e =>
    match e with
    | .verdict refused => some (refused, s)
    | _ => none) .ret

/-- `build_subops`, as far as it is about local regions: why it stopped, and the
pointers it has taken. -/
def holdRegions : List RegionId → List RegionId → Registering (Option Status × List RegionId)
  | [], held => pure (none, held)
  | id :: rest, held => do
    if ← findRegion id then
      if ← look fun s => s.retired id then return (some .staleGeneration, id :: held)
      else
        match ← otherChecks with
        | some s => return (some s, id :: held)
        | none => holdRegions rest (held ++ [id])
    else return (some .notFound, held)

/-- The last check and the admission, under one lock. -/
def accept (held : List RegionId) : Registering (Option RequestId) :=
  locked fun s =>
    if held.any s.retired then (none, s)
    else
      (some s.requests.length, { s with
        requests := s.requests ++ [⟨held, true⟩]
        inflight := s.requests.length :: s.inflight })

/-! ## Calls -/

inductive Call
  | registerMemory (addr length : Nat) (access : AccessFlags)
  | registerMemoryBatch (addrs lengths : List Nat) (access : AccessFlags)
  | deregisterMemory (id : RegionId)
  | releaseCachedRegistrations
  | submitVector (regions : List RegionId)
  /-- Whoever ends a request takes it out of `inflight_` first. -/
  | finishRequest (q : RequestId)
  /-- The last pointer to a request goes. -/
  | dropRequest (q : RequestId)
  /-- The application copies, or drops, a pointer it has. -/
  | copyHandle (id : RegionId)
  | dropHandle (id : RegionId)
  deriving DecidableEq

inductive Reply
  | status (s : Status)
  | region (s : Status) (id : Option RegionId)
  | regions (s : Status) (results : List (Status × Option RegionId))
  | released (s : Status) (n : Nat)
  | request (s : Status) (q : Option RequestId)
  deriving DecidableEq

def deregisterMemory (id : RegionId) : Registering Reply := do
  borrow id
  change fun s => ((), { s with retired := Function.update s.retired id true })
  let gone ← unlist id
  dropRegionPtr id
  return .status (if gone then .ok else .wouldBlock)

def releaseCachedRegistrations : Registering Reply := do
  lock
  let cache ← inside fun s => (s.regCache, s)
  let dropped ← sweep cache []
  unlock
  dropRegistrationPtrs dropped
  return .released .ok (u32 dropped.length)

def submitVector (regions : List RegionId) : Registering Reply := do
  match ← otherChecks with
  | some s => return .request s none
  | none =>
    match ← holdRegions regions [] with
    | (some s, held) =>
      dropRegionPtrs held
      return .request s none
    | (none, held) =>
      match ← otherChecks with
      | some s =>
        dropRegionPtrs held
        return .request s none
      | none =>
        match ← accept held with
        | some q => return .request .ok (some q)
        | none =>
          dropRegionPtrs held
          return .request .staleGeneration none

def finishRequest (q : RequestId) : Registering Reply := do
  let claimed ← locked fun s =>
    (decide (q ∈ s.inflight), { s with inflight := s.inflight.erase q })
  if claimed then
    change fun s => ((), { s with finished := q :: s.finished })
    return .status .ok
  else return .status .notFound

/-- Only a request that has ended can lose its last pointer: `inflight_` has one, and
so has whoever took it from there to end it. -/
def dropRequest (q : RequestId) : Registering Reply := do
  let held ← change? fun s =>
    match s.requests[q]? with
    | some o =>
      if o.alive ∧ q ∈ s.finished then
        some (o.heldRegions, { s with requests := s.requests.set q ⟨o.heldRegions, false⟩ })
      else none
    | none => none
  dropRegionPtrs held
  return .status .ok

def copyHandle (id : RegionId) : Registering Reply := do
  change? fun s =>
    if 0 < s.kept id then
      some ((), { s.copyRegion id with kept := Function.update s.kept id (s.kept id + 1) })
    else none
  return .status .ok

def dropHandle (id : RegionId) : Registering Reply := do
  change? fun s =>
    if 0 < s.kept id then
      some ((), { s with kept := Function.update s.kept id (s.kept id - 1) })
    else none
  dropRegionPtr id
  return .status .ok

def Call.body {W : Type} (cfg : Config W) : Call → Registering Reply
  | .registerMemory addr length access => do
    let (s, id) ← Registrar.registerMemory cfg addr length access
    return .region s id
  | .registerMemoryBatch addrs lengths access =>
    if addrs.length ≠ lengths.length then return .regions .invalidArgument []
    else do
      let out ← registerEach cfg access (addrs.zip lengths) []
      return .regions .ok out
  | .deregisterMemory id => Registrar.deregisterMemory id
  | .releaseCachedRegistrations => Registrar.releaseCachedRegistrations
  | .submitVector regions => Registrar.submitVector regions
  | .finishRequest q => Registrar.finishRequest q
  | .dropRequest q => Registrar.dropRequest q
  | .copyHandle id => Registrar.copyHandle id
  | .dropHandle id => Registrar.dropHandle id

end Registrar

end Hux
