import Hux.Types

/-!
# Requests

`RequestImpl`: each method is what it does between taking the request's lock
and leaving it. The equations `..._eq` say which fields a method writes.
-/

namespace Hux

/-- A range a write landed on, as its ready handoff names it. -/
structure RemoteTarget where
  region : RegionId
  generation : Generation
  span : Span
  deriving DecidableEq, Repr

/-- Adjacent ranges of one region become one. -/
def addRemoteTarget (targets : List RemoteTarget) (region : RegionId) (generation : Generation)
    (span : Span) : List RemoteTarget :=
  match targets.getLast? with
  | some last =>
    if last.region = region ∧ last.generation = generation ∧
        u64 (last.span.offset + last.span.length) = span.offset then
      targets.dropLast ++ [{ last with
        span := ⟨last.span.offset, u64 (last.span.length + span.length)⟩ }]
    else targets ++ [⟨region, generation, span⟩]
  | none => targets ++ [⟨region, generation, span⟩]

structure Request where
  kind : SubOpKind
  totalSubops : Nat
  peer : PeerId
  heldRegions : List RegionId
  conn : Option ConnId
  provider : Option ProviderId
  remoteTargets : List RemoteTarget
  /-- Whether the object has been constructed: no caller has it before. -/
  made : Bool := true
  state : RequestState := .queued
  completedSubops : Nat := 0
  acceptedSubops : Nat := 0
  sealed : Bool := false
  partsLeft : Nat := 0
  cancelRequested : Bool := false
  /-- One bit per stage in the source. -/
  stages : Finset Stage := {.accepted}
  /-- No error until the first failure records one. -/
  error : ErrorInfo := {}
  deriving DecidableEq

namespace Request

def terminal (r : Request) : Bool := isTerminal r.state

/-- The first error sticks; later ones are dropped. -/
def recordError (r : Request) (e : ErrorInfo) : Request :=
  if e.ok || !r.error.ok then r else { r with error := e }

def setState (r : Request) (s : RequestState) : Request :=
  if r.terminal || r.cancelRequested then r else { r with state := s }

def markStage (r : Request) (s : Stage) : Request := { r with stages := insert s r.stages }

def addAcceptedSubops (r : Request) (n : Nat) : Request :=
  { r with acceptedSubops := u32 (r.acceptedSubops + n) }

def sealAccepted (r : Request) : Request := { r with sealed := true }

def setParts (r : Request) (n : Nat) : Request := { r with partsLeft := n }

/-- Whether this was the last lane with work to post. -/
def partFinished (r : Request) : Bool × Request :=
  let r' := { r with partsLeft := r.partsLeft - 1 }
  (r'.partsLeft == 0, r')

/-- Whatever has not gone out must not go out. -/
def abandoning (r : Request) : Bool := r.terminal || r.cancelRequested || !r.error.ok

def sealIfIdle (r : Request) : Bool × Request :=
  (!r.terminal && decide (r.acceptedSubops ≤ r.completedSubops), { r with sealed := true })

def eventError (ev : CompletionEvent) : ErrorInfo where
  status := ev.status
  providerErrno := ev.providerErrno
  mayHaveModifiedTarget := ev.mayHaveModifiedTarget

/-- Measured against the request's full size while more may be submitted, and
against what was accepted once submission has stopped. -/
def onSubopComplete (r : Request) (ev : CompletionEvent) : Bool × Request :=
  if r.terminal then (false, r)
  else
    let r' := if ev.status ≠ .ok then r.recordError (eventError ev) else r
    let r'' := { r' with completedSubops := u32 (r'.completedSubops + 1) }
    let expected := if r''.sealed then r''.acceptedSubops else r''.totalSubops
    (decide (expected ≤ r''.completedSubops), r'')

def cancel (r : Request) : Status × Request :=
  if r.state = .succeeded then (.invalidArgument, r)
  else if r.terminal then (.ok, r)
  else (.ok, { r with cancelRequested := true, state := .draining })

def noteError (r : Request) (e : ErrorInfo) : Request :=
  if r.terminal then r else r.recordError e

def fail (r : Request) (e : ErrorInfo) : Request :=
  if r.terminal then r
  else
    let r' := r.recordError e
    { r' with stages := insert .failedSafe r'.stages, state := .failed }

def finishSuccess (r : Request) : Request :=
  if r.terminal then r
  else
    { r with
      stages := insert .transferComplete (insert .targetReady (insert .sourceReusable r.stages))
      state := .succeeded }

def finishCancelled (r : Request) : Request :=
  if r.terminal then r
  else { r with stages := insert .cancelledSafe r.stages, state := .cancelled }

/-- What a wait on a request that has ended returns. -/
def outcome (r : Request) : Status :=
  if r.state = .cancelled then .cancelled
  else if !r.error.ok then r.error.status
  else if r.state = .failed then .internal
  else .ok

/-! ## What each method writes -/

variable (r : Request) (e : ErrorInfo) (ev : CompletionEvent)

theorem recordError_eq :
    r.recordError e = { r with error := if e.ok || !r.error.ok then r.error else e } := by
  unfold recordError
  split <;> rfl

theorem setState_eq (s : RequestState) :
    r.setState s =
      { r with state := if r.terminal || r.cancelRequested then r.state else s } := by
  unfold setState
  split <;> rfl

theorem noteError_eq :
    r.noteError e =
      { r with error := if r.terminal || e.ok || !r.error.ok then r.error else e } := by
  unfold noteError
  split <;> simp_all [recordError_eq]

theorem onSubopComplete_live (live : r.terminal = false) :
    (r.onSubopComplete ev).2 =
      { r with
        error := if ev.status = .ok || !r.error.ok then r.error else eventError ev
        completedSubops := u32 (r.completedSubops + 1) } := by
  by_cases ok : ev.status = .ok <;>
    simp [onSubopComplete, live, ok, recordError_eq, ErrorInfo.ok, eventError]

theorem onSubopComplete_last (live : r.terminal = false) :
    (r.onSubopComplete ev).1 =
      decide ((if r.sealed then r.acceptedSubops else r.totalSubops)
        ≤ u32 (r.completedSubops + 1)) := by
  by_cases ok : ev.status = .ok <;> simp [onSubopComplete, live, ok, recordError_eq]

theorem onSubopComplete_terminal (finished : r.terminal = true) :
    r.onSubopComplete ev = (false, r) := by
  simp [onSubopComplete, finished]

theorem onSubopComplete_eq :
    (r.onSubopComplete ev).2 =
      { r with
        error := (r.onSubopComplete ev).2.error
        completedSubops := (r.onSubopComplete ev).2.completedSubops } := by
  cases live : r.terminal with
  | true => rw [r.onSubopComplete_terminal ev live]
  | false => rw [r.onSubopComplete_live ev live]

theorem cancel_live (live : r.terminal = false) :
    r.cancel = (.ok, { r with cancelRequested := true, state := .draining }) := by
  have : r.state ≠ .succeeded := fun h => by simp [terminal, h, isTerminal] at live
  simp [cancel, this, live]

theorem fail_live (live : r.terminal = false) :
    r.fail e =
      { r with
        error := if e.ok || !r.error.ok then r.error else e
        stages := insert .failedSafe r.stages
        state := .failed } := by
  simp [fail, live, recordError_eq]

theorem finishSuccess_live (live : r.terminal = false) :
    r.finishSuccess =
      { r with
        stages := insert .transferComplete (insert .targetReady (insert .sourceReusable r.stages))
        state := .succeeded } := by
  simp [finishSuccess, live]

theorem finishCancelled_live (live : r.terminal = false) :
    r.finishCancelled =
      { r with stages := insert .cancelledSafe r.stages, state := .cancelled } := by
  simp [finishCancelled, live]

end Request

end Hux
