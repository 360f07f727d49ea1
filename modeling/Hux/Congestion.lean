import Hux.Types

/-!
# Congestion control

`transport/cc/controller.h` and its three controllers: no limit, a fixed window
of bytes per direction, and TIMELY. What the rest of the development uses of
them is how each call moves the bytes counted in flight.
-/

namespace Hux

inductive CcDirection
  | write | read
  deriving DecidableEq, Repr

inductive CcVerdict
  | allowed | overBudget | paced
  deriving DecidableEq, Repr

/-- A point of `steady_clock`, in nanoseconds. -/
abbrev CcTime := Int

/-- A duration in nanoseconds. -/
abbrev Nanoseconds := Int

def Nanoseconds.max : Nanoseconds := 2 ^ 63 - 1

/-- An array indexed by direction. -/
structure PerDirection (α : Type) where
  write : α
  read : α
  deriving DecidableEq, Repr

namespace PerDirection
variable {α : Type}

def get (x : PerDirection α) : CcDirection → α
  | .write => x.write
  | .read => x.read

def modify (x : PerDirection α) (d : CcDirection) (f : α → α) : PerDirection α :=
  match d with
  | .write => { x with write := f x.write }
  | .read => { x with read := f x.read }

theorem get_modify (x : PerDirection α) (d d' : CcDirection) (f : α → α) :
    (x.modify d f).get d' = if d' = d then f (x.get d) else x.get d' := by
  cases d <;> cases d' <;> rfl

end PerDirection

/-- The clamped subtraction of `release`. -/
def released (inflight bytes : Nat) : Nat :=
  inflight - if bytes < inflight then bytes else inflight

theorem released_of_le {inflight bytes : Nat} (h : bytes ≤ inflight) :
    released inflight bytes = inflight - bytes := by
  unfold released
  split <;> omega

/-! ## TIMELY -/

/-- The arithmetic `TimelyController` does in `double`. -/
class CcReal (F : Type) where
  ofInt : Int → F
  add : F → F → F
  sub : F → F → F
  mul : F → F → F
  div : F → F → F
  lt : F → F → Bool
  le : F → F → Bool
  /-- `static_cast<uint64_t>`. -/
  toU64 : F → Nat
  /-- `duration_cast<nanoseconds>` of so many seconds. -/
  toNanoseconds : F → Nanoseconds

instance : CcReal ℚ where
  ofInt n := n
  add := (· + ·)
  sub := (· - ·)
  mul := (· * ·)
  div := (· / ·)
  lt a b := decide (a < b)
  le a b := decide (a ≤ b)
  toU64 x := (x.num.tdiv x.den).toNat
  toNanoseconds x := (x * 1000000000).num.tdiv (x * 1000000000).den

/-- The thresholds are in microseconds, the rates in bytes per second. -/
structure TimelyParams (F : Type) where
  tLow : Int
  tHigh : Int
  beta : F
  additiveIncrease : F
  ewmaAlpha : F
  minRate : F
  maxRate : F

/-- `TimelyController::Dir`. -/
structure TimelyDir (F : Type) where
  inflight : Nat
  rate : F
  minDelay : Nanoseconds
  prevDelay : Nanoseconds
  avgDelayDiff : F
  havePrev : Bool
  nextSend : CcTime
  lastUpdate : CcTime
  haveLastUpdate : Bool

section
variable {F : Type} [CcReal F]
open CcReal

namespace TimelyDir

def init (p : TimelyParams F) (now : CcTime) : TimelyDir F where
  inflight := 0
  rate := mul p.additiveIncrease (ofInt 10)
  minDelay := Nanoseconds.max
  prevDelay := 0
  avgDelayDiff := ofInt 0
  havePrev := false
  nextSend := now
  lastUpdate := 0
  haveLastUpdate := false

/-- The smallest delay seen, or a millisecond while there is none. -/
def baseDelay (d : TimelyDir F) : F :=
  if d.minDelay = Nanoseconds.max then ofInt 1000000 else ofInt d.minDelay

def window (d : TimelyDir F) : Nat :=
  let w := toU64 (div (mul d.rate d.baseDelay) (ofInt 1000000000))
  if w < 2 ^ 16 then 2 ^ 16 else w

def allow (d : TimelyDir F) (bytes : Nat) (now : CcTime) : CcVerdict :=
  if now < d.nextSend then .paced
  else if u64 (d.inflight + bytes) ≤ d.window then .allowed
  else if bytes > d.window ∧ d.inflight = 0 then .allowed
  else .overBudget

def onPost (d : TimelyDir F) (bytes : Nat) (now : CcTime) : TimelyDir F :=
  let gap := toNanoseconds (div (ofInt bytes) d.rate)
  let base := if now > d.nextSend then now else d.nextSend
  { d with
    inflight := u64 (d.inflight + bytes)
    nextSend := base + gap }

def roundsSince (d : TimelyDir F) (now : CcTime) : F :=
  if !d.haveLastUpdate then ofInt 1
  else if le d.baseDelay (ofInt 0) then ofInt 1
  else
    let dt : F := ofInt (now - d.lastUpdate)
    if le dt (ofInt 0) then ofInt 0
    else
      let rounds := div dt d.baseDelay
      if lt (ofInt 64) rounds then ofInt 64 else rounds

def clampRate (p : TimelyParams F) (rate : F) : F :=
  let rate := if lt rate p.minRate then p.minRate else rate
  if lt p.maxRate rate then p.maxRate else rate

def updateRate (p : TimelyParams F) (d : TimelyDir F) (rtt : Nanoseconds) (now : CcTime) :
    TimelyDir F :=
  if rtt ≤ 0 then d
  else
    let d := if rtt < d.minDelay then { d with minDelay := rtt } else d
    let rounds := d.roundsSince now
    let d := { d with lastUpdate := now, haveLastUpdate := true }
    let sample : F := div (ofInt rtt) (ofInt 1000)
    if !d.havePrev then { d with prevDelay := rtt, havePrev := true }
    else
      let diff : F := div (ofInt (rtt - d.prevDelay)) (ofInt 1000)
      let avg := add (mul (sub (ofInt 1) p.ewmaAlpha) d.avgDelayDiff) (mul p.ewmaAlpha diff)
      let grown := add d.rate (mul p.additiveIncrease rounds)
      let rate :=
        if lt sample (ofInt p.tLow) then grown
        else if lt (ofInt p.tHigh) sample then
          mul d.rate
            (sub (ofInt 1) (mul p.beta (sub (ofInt 1) (div (ofInt p.tHigh) sample))))
        else
          let least : F := div (ofInt d.minDelay) (ofInt 1000)
          let gradient := div avg (if lt (ofInt 0) least then least else ofInt 1)
          if le gradient (ofInt 0) then grown
          else mul d.rate (sub (ofInt 1) (mul p.beta gradient))
      { d with prevDelay := rtt, avgDelayDiff := avg, rate := clampRate p rate }

def onFeedback (p : TimelyParams F) (d : TimelyDir F) (bytes : Nat) (rtt : Nanoseconds)
    (now : CcTime) : TimelyDir F :=
  updateRate p { d with inflight := released d.inflight bytes } rtt now

def onError (d : TimelyDir F) (bytes : Nat) : TimelyDir F :=
  { d with inflight := released d.inflight bytes }

@[simp] theorem inflight_updateRate (p : TimelyParams F) (d : TimelyDir F) (rtt : Nanoseconds)
    (now : CcTime) : (d.updateRate p rtt now).inflight = d.inflight := by
  unfold updateRate
  split
  · rfl
  · dsimp only
    split <;> split <;> rfl

end TimelyDir

/-! ## Controllers -/

/-- One direction of `FixedWindowController`. -/
structure FixedDir where
  inflight : Nat := 0
  samples : Nat := 0
  lastRtt : Nanoseconds := 0
  deriving DecidableEq, Repr

inductive CongestionController (F : Type)
  | off (inflight : PerDirection Nat)
  | fixedWindow (window : Nat) (dirs : PerDirection FixedDir)
  | timely (p : TimelyParams F) (dirs : PerDirection (TimelyDir F))

def makeCcOff : CongestionController F := .off ⟨0, 0⟩

def makeCcFixedWindow (window : Nat) : CongestionController F := .fixedWindow window ⟨{}, {}⟩

/-- The two directions read the clock one after the other. -/
def makeCcTimely (p : TimelyParams F) (now now' : CcTime) : CongestionController F :=
  .timely p ⟨.init p now, .init p now'⟩

namespace CongestionController

def inflightBytes (cc : CongestionController F) (d : CcDirection) : Nat :=
  match cc with
  | .off inflight => inflight.get d
  | .fixedWindow _ dirs => (dirs.get d).inflight
  | .timely _ dirs => (dirs.get d).inflight

/-- Zero for a controller that does not work in rates. -/
def rateBytesPerSec (cc : CongestionController F) (d : CcDirection) : F :=
  match cc with
  | .off _ | .fixedWindow _ _ => ofInt 0
  | .timely _ dirs => (dirs.get d).rate

def allow (cc : CongestionController F) (d : CcDirection) (bytes : Nat) (now : CcTime) :
    CcVerdict :=
  match cc with
  | .off _ => .allowed
  | .fixedWindow window dirs =>
    let used := (dirs.get d).inflight
    if u64 (used + bytes) ≤ window then .allowed
    else if bytes > window ∧ used = 0 then .allowed
    else .overBudget
  | .timely _ dirs => (dirs.get d).allow bytes now

def onPost (cc : CongestionController F) (d : CcDirection) (bytes : Nat) (now : CcTime) :
    CongestionController F :=
  match cc with
  | .off inflight => .off (inflight.modify d fun n => u64 (n + bytes))
  | .fixedWindow window dirs =>
    .fixedWindow window (dirs.modify d fun x => { x with inflight := u64 (x.inflight + bytes) })
  | .timely p dirs => .timely p (dirs.modify d fun x => x.onPost bytes now)

def onFeedback (cc : CongestionController F) (d : CcDirection) (bytes : Nat) (rtt : Nanoseconds)
    (now : CcTime) : CongestionController F :=
  match cc with
  | .off inflight => .off (inflight.modify d (released · bytes))
  | .fixedWindow window dirs =>
    .fixedWindow window (dirs.modify d fun x =>
      { inflight := released x.inflight bytes, samples := u64 (x.samples + 1), lastRtt := rtt })
  | .timely p dirs => .timely p (dirs.modify d fun x => x.onFeedback p bytes rtt now)

def onError (cc : CongestionController F) (d : CcDirection) (bytes : Nat) :
    CongestionController F :=
  match cc with
  | .off inflight => .off (inflight.modify d (released · bytes))
  | .fixedWindow window dirs =>
    .fixedWindow window (dirs.modify d fun x => { x with inflight := released x.inflight bytes })
  | .timely p dirs => .timely p (dirs.modify d fun x => x.onError bytes)

omit [CcReal F] in
/-- The window, of a controller that has a fixed one. -/
def fixed : CongestionController F → Option Nat
  | .fixedWindow window _ => some window
  | .off _ | .timely _ _ => none

variable (cc : CongestionController F) (d d' : CcDirection) (bytes : Nat)

@[simp] theorem fixed_onPost (now : CcTime) : (cc.onPost d bytes now).fixed = cc.fixed := by
  cases cc <;> rfl

@[simp] theorem fixed_onFeedback (rtt : Nanoseconds) (now : CcTime) :
    (cc.onFeedback d bytes rtt now).fixed = cc.fixed := by
  cases cc <;> rfl

omit [CcReal F] in
@[simp] theorem fixed_onError : (cc.onError d bytes).fixed = cc.fixed := by
  cases cc <;> rfl

theorem inflightBytes_onPost (now : CcTime) :
    (cc.onPost d bytes now).inflightBytes d' =
      if d' = d then u64 (cc.inflightBytes d + bytes) else cc.inflightBytes d' := by
  cases cc <;> simp only [onPost, inflightBytes, PerDirection.get_modify] <;> split <;> rfl

theorem inflightBytes_onFeedback (rtt : Nanoseconds) (now : CcTime) :
    (cc.onFeedback d bytes rtt now).inflightBytes d' =
      if d' = d then released (cc.inflightBytes d) bytes else cc.inflightBytes d' := by
  cases cc <;> simp only [onFeedback, inflightBytes, PerDirection.get_modify] <;> split <;>
    simp [TimelyDir.onFeedback]

omit [CcReal F] in
theorem inflightBytes_onError :
    (cc.onError d bytes).inflightBytes d' =
      if d' = d then released (cc.inflightBytes d) bytes else cc.inflightBytes d' := by
  cases cc <;> simp only [onError, inflightBytes, PerDirection.get_modify] <;> split <;> rfl

/-- With nothing in flight a fixed window lets anything out. -/
theorem allow_of_none {window : Nat} (fixed_ : cc.fixed = some window)
    (none_ : cc.inflightBytes d = 0) (now : CcTime) : cc.allow d bytes now = .allowed := by
  cases cc with
  | fixedWindow window' dirs =>
    have used : (dirs.get d).inflight = 0 := none_
    simp only [allow, used, Nat.zero_add]
    split
    · rfl
    · rename_i larger
      have le : u64 bytes ≤ bytes := Nat.mod_le _ _
      rw [if_pos ⟨by omega, trivial⟩]
  | off | timely => cases fixed_

end CongestionController

end

end Hux
