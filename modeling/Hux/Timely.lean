import Mathlib.Tactic.Linarith
import Mathlib.Tactic.Positivity
import Hux.Congestion

/-!
# TIMELY's rate

Over exact numbers: what a sample does to the rate, and the bounds it stays in.

* `Adjusts`: a sample leaves the rate, or adds to it, or scales it down, and clamps it;
* `timely_rate_bounded_iff`: the bounds hold in every state exactly if the rate begins
  within them.
-/

namespace Hux

@[simp] theorem ccReal_ofInt (n : Int) : (CcReal.ofInt n : ℚ) = n := rfl
@[simp] theorem ccReal_add (a b : ℚ) : CcReal.add a b = a + b := rfl
@[simp] theorem ccReal_sub (a b : ℚ) : CcReal.sub a b = a - b := rfl
@[simp] theorem ccReal_mul (a b : ℚ) : CcReal.mul a b = a * b := rfl
@[simp] theorem ccReal_div (a b : ℚ) : CcReal.div a b = a / b := rfl
@[simp] theorem ccReal_lt (a b : ℚ) : CcReal.lt a b = decide (a < b) := rfl
@[simp] theorem ccReal_le (a b : ℚ) : CcReal.le a b = decide (a ≤ b) := rfl

variable {p : TimelyParams ℚ}

namespace TimelyDir

/-- The rate is within the bounds. -/
def Bounded (p : TimelyParams ℚ) (rate : ℚ) : Prop := p.minRate ≤ rate ∧ rate ≤ p.maxRate

theorem clampRate_eq (rate : ℚ) : clampRate p rate = min (max rate p.minRate) p.maxRate := by
  have low : (if rate < p.minRate then p.minRate else rate) = max rate p.minRate := by
    split
    · rw [max_eq_right (by linarith)]
    · rw [max_eq_left (by linarith)]
  simp only [clampRate, ccReal_lt, decide_eq_true_eq, low]
  split
  · rw [min_eq_right (by linarith)]
  · rw [min_eq_left (by linarith)]

theorem bounded_clampRate (ordered : p.minRate ≤ p.maxRate) (rate : ℚ) :
    Bounded p (clampRate p rate) := by
  rw [clampRate_eq]
  exact ⟨le_min (le_max_right _ _) ordered, min_le_right _ _⟩

theorem roundsSince_nonneg (d : TimelyDir ℚ) (now : CcTime) : 0 ≤ d.roundsSince now := by
  unfold roundsSince
  split
  · simp
  · split
    · simp
    · rename_i base
      simp only [ccReal_le, ccReal_ofInt, Int.cast_zero, decide_eq_true_eq, not_le] at base
      dsimp only
      split
      · simp
      · rename_i passed
        simp only [ccReal_le, ccReal_ofInt, Int.cast_zero, decide_eq_true_eq, not_le] at passed
        split
        · simp
        · rw [ccReal_div, ccReal_ofInt]
          positivity

/-- What a sample does to a rate: below the upper threshold it may add, above the lower one
it may scale down. -/
inductive Adjusts (p : TimelyParams ℚ) (rtt : Int) (rate : ℚ) : ℚ → Prop
  | kept : Adjusts p rtt rate rate
  | grown {g : ℚ} : rtt ≤ p.tHigh * 1000 → 0 ≤ g → Adjusts p rtt rate (clampRate p (rate + g))
  | cut {f : ℚ} : p.tLow * 1000 ≤ rtt → f ≤ 1 → Adjusts p rtt rate (clampRate p (rate * f))

/-- The sample is in microseconds. -/
theorem sample_lt {rtt t : Int} : (rtt : ℚ) / 1000 < t ↔ rtt < t * 1000 := by
  rw [div_lt_iff₀ (by norm_num)]
  exact_mod_cast Iff.rfl

theorem lt_sample {rtt t : Int} : (t : ℚ) < rtt / 1000 ↔ t * 1000 < rtt := by
  rw [lt_div_iff₀ (by norm_num)]
  exact_mod_cast Iff.rfl

/-- A delay above the threshold leaves a part of it. -/
theorem overshoot_nonneg {rtt t : Int} (positive : 0 < rtt) (above : t * 1000 < rtt) :
    0 ≤ 1 - (t : ℚ) / (rtt / 1000) := by
  have sample : (0 : ℚ) < rtt / 1000 := by positivity
  have below : (t : ℚ) < rtt / 1000 := lt_sample.mpr above
  have : (t : ℚ) / (rtt / 1000) < 1 := (div_lt_one sample).mpr below
  linarith

theorem adjusts_updateRate (increase : 0 < p.additiveIncrease) (beta : 0 ≤ p.beta)
    (thresholds : p.tLow ≤ p.tHigh) (d : TimelyDir ℚ) (rtt : Nanoseconds) (now : CcTime) :
    Adjusts p rtt d.rate (d.updateRate p rtt now).rate := by
  unfold updateRate
  split
  · exact .kept
  rename_i positive
  have positive : 0 < rtt := not_le.mp positive
  dsimp only
  generalize hd : (if rtt < d.minDelay then { d with minDelay := rtt } else d) = d'
  have same : d'.rate = d.rate := by
    rw [← hd]
    split <;> rfl
  have grows : 0 ≤ p.additiveIncrease * d'.roundsSince now :=
    mul_nonneg increase.le (roundsSince_nonneg d' now)
  split
  · rw [same]
    exact .kept
  simp only [ccReal_ofInt, ccReal_add, ccReal_sub, ccReal_mul, ccReal_div, ccReal_lt, ccReal_le,
    decide_eq_true_eq, Int.cast_zero, Int.cast_one, Int.cast_ofNat, same]
  split
  · rename_i low
    have below : rtt < p.tLow * 1000 := sample_lt.mp low
    have order : p.tLow * 1000 ≤ p.tHigh * 1000 := by omega
    exact .grown (below.le.trans order) grows
  rename_i low
  have low : p.tLow * 1000 ≤ rtt := not_lt.mp fun h => low (sample_lt.mpr h)
  split
  · rename_i high
    have above := lt_sample.mp high
    refine .cut low ?_
    have := mul_nonneg beta (overshoot_nonneg positive above)
    linarith
  rename_i high
  have high : rtt ≤ p.tHigh * 1000 := not_lt.mp fun h => high (lt_sample.mpr h)
  generalize ((1 - p.ewmaAlpha) * d'.avgDelayDiff +
    p.ewmaAlpha * (((rtt - d'.prevDelay : Int) : ℚ) / 1000)) /
    (if 0 < (d'.minDelay : ℚ) / 1000 then (d'.minDelay : ℚ) / 1000 else 1) = gradient
  split
  · exact .grown high grows
  · rename_i rising
    refine .cut low ?_
    have := mul_nonneg beta (not_le.mp rising).le
    linarith

variable {rtt : Int} {rate rate' : ℚ}

theorem Adjusts.bounded (adjusts : Adjusts p rtt rate rate') (ordered : p.minRate ≤ p.maxRate)
    (bounded : Bounded p rate) : Bounded p rate' := by
  cases adjusts with
  | kept => exact bounded
  | grown => exact bounded_clampRate ordered _
  | cut => exact bounded_clampRate ordered _

/-- A delay above the upper threshold does not raise the rate. -/
theorem Adjusts.above (adjusts : Adjusts p rtt rate rate') (floor : 0 < p.minRate)
    (bounded : Bounded p rate) (above : p.tHigh * 1000 < rtt) : rate' ≤ rate := by
  cases adjusts with
  | kept => exact le_rfl
  | grown below => omega
  | @cut f _ fraction =>
    have positive : 0 ≤ rate := floor.le.trans bounded.1
    have less : rate * f ≤ rate := by
      calc rate * f ≤ rate * 1 := mul_le_mul_of_nonneg_left fraction positive
        _ = rate := mul_one rate
    rw [clampRate_eq]
    exact (min_le_left _ _).trans (max_le less bounded.1)

/-- One below the lower threshold does not lower it. -/
theorem Adjusts.below (adjusts : Adjusts p rtt rate rate') (bounded : Bounded p rate)
    (below : rtt < p.tLow * 1000) : rate ≤ rate' := by
  cases adjusts with
  | kept => exact le_rfl
  | grown _ more =>
    rw [clampRate_eq]
    exact le_min (le_max_of_le_left (le_add_of_nonneg_right more)) bounded.2
  | cut above => omega

end TimelyDir

open TimelyDir (Bounded)

/-! ## Every state -/

inductive CcCall
  | post (d : CcDirection) (bytes : Nat) (now : CcTime)
  | feedback (d : CcDirection) (bytes : Nat) (rtt : Nanoseconds) (now : CcTime)
  | error (d : CcDirection) (bytes : Nat)

def CcCall.apply (cc : CongestionController ℚ) : CcCall → CongestionController ℚ
  | .post d bytes now => cc.onPost d bytes now
  | .feedback d bytes rtt now => cc.onFeedback d bytes rtt now
  | .error d bytes => cc.onError d bytes

/-- TIMELY with these parameters, and within their bounds. -/
def InBounds (p : TimelyParams ℚ) (cc : CongestionController ℚ) : Prop :=
  ∃ dirs, cc = .timely p dirs ∧ ∀ d, Bounded p (dirs.get d).rate

section
variable (floor : 0 < p.minRate) (ordered : p.minRate ≤ p.maxRate)
  (increase : 0 < p.additiveIncrease) (beta : 0 ≤ p.beta) (thresholds : p.tLow ≤ p.tHigh)
  {cc : CongestionController ℚ}
include ordered increase beta thresholds

theorem inBounds_apply (inside : InBounds p cc) (c : CcCall) : InBounds p (c.apply cc) := by
  obtain ⟨dirs, rfl, bounded⟩ := inside
  cases c with
  | post d bytes now =>
    refine ⟨_, rfl, fun d' => ?_⟩
    rw [PerDirection.get_modify]
    split
    · exact bounded d
    · exact bounded d'
  | feedback d bytes rtt now =>
    refine ⟨_, rfl, fun d' => ?_⟩
    rw [PerDirection.get_modify]
    split
    · exact (TimelyDir.adjusts_updateRate increase beta thresholds _ rtt now).bounded ordered
        (bounded d)
    · exact bounded d'
  | error d bytes =>
    refine ⟨_, rfl, fun d' => ?_⟩
    rw [PerDirection.get_modify]
    split
    · exact bounded d
    · exact bounded d'

theorem inBounds_foldl (inside : InBounds p cc) (calls : List CcCall) :
    InBounds p (calls.foldl CcCall.apply cc) := by
  induction calls generalizing cc with
  | nil => exact inside
  | cons c rest ih => exact ih (inBounds_apply ordered increase beta thresholds inside c)

omit ordered in
include floor in
theorem inBounds_sample (inside : InBounds p cc) (d : CcDirection) (bytes : Nat)
    (rtt : Nanoseconds) (now : CcTime) :
    (p.tHigh * 1000 < rtt → (cc.onFeedback d bytes rtt now).rateBytesPerSec d ≤
        cc.rateBytesPerSec d) ∧
      (rtt < p.tLow * 1000 → cc.rateBytesPerSec d ≤
        (cc.onFeedback d bytes rtt now).rateBytesPerSec d) := by
  obtain ⟨dirs, rfl, bounded⟩ := inside
  have adjusts := TimelyDir.adjusts_updateRate increase beta thresholds
    { dirs.get d with inflight := released (dirs.get d).inflight bytes } rtt now
  simp only [CongestionController.onFeedback, CongestionController.rateBytesPerSec,
    PerDirection.get_modify, if_pos]
  exact ⟨adjusts.above floor (bounded d), adjusts.below (bounded d)⟩

end

/-- In every state the rates are within the bounds, no delay above the upper threshold
raises one and no delay below the lower threshold lowers one, exactly if ten times the
additive increase, where the rates begin, is within the bounds. -/
theorem timely_rate_bounded_iff (p : TimelyParams ℚ) (floor : 0 < p.minRate)
    (ordered : p.minRate ≤ p.maxRate) (increase : 0 < p.additiveIncrease) (beta : 0 ≤ p.beta)
    (thresholds : p.tLow ≤ p.tHigh) (now now' : CcTime) :
    (∀ calls : List CcCall, let cc := calls.foldl CcCall.apply (makeCcTimely p now now')
      (∀ d, p.minRate ≤ cc.rateBytesPerSec d ∧ cc.rateBytesPerSec d ≤ p.maxRate) ∧
      ∀ d bytes rtt t,
        (p.tHigh * 1000 < rtt →
          (cc.onFeedback d bytes rtt t).rateBytesPerSec d ≤ cc.rateBytesPerSec d) ∧
        (rtt < p.tLow * 1000 →
          cc.rateBytesPerSec d ≤ (cc.onFeedback d bytes rtt t).rateBytesPerSec d)) ↔
      p.minRate ≤ p.additiveIncrease * 10 ∧ p.additiveIncrease * 10 ≤ p.maxRate := by
  constructor
  · intro always
    exact (always []).1 .write
  · intro first calls
    have start : InBounds p (makeCcTimely p now now') := by
      refine ⟨_, rfl, fun d => ?_⟩
      cases d <;> exact first
    have inside := inBounds_foldl ordered increase beta thresholds start calls
    refine ⟨?_, inBounds_sample floor increase beta thresholds inside⟩
    obtain ⟨dirs, eq, bounded⟩ := inside
    rw [eq]
    exact bounded

/-- The default parameters, in exact numbers, after two samples of which the second is above
the upper threshold. -/
theorem timely_rate_bounded_iff_default :
    ([.feedback .write 1 400000 5, .feedback .write 1 600000 9].foldl CcCall.apply (makeCcTimely
        ⟨50, 500, 8 / 1000, 10000000, 3 / 10, 1000000, 12500000000⟩ 0 0)).rateBytesPerSec .write ≤
      (12500000000 : ℚ) := by
  have all := (timely_rate_bounded_iff
    ⟨50, 500, 8 / 1000, 10000000, 3 / 10, 1000000, 12500000000⟩ (by norm_num) (by norm_num)
    (by norm_num) (by norm_num) (by norm_num) 0 0).mpr ⟨by norm_num, by norm_num⟩
    [.feedback .write 1 400000 5, .feedback .write 1 600000 9]
  exact (all.1 .write).2

/-- An additive increase of two bytes per second and a ceiling of ten: the rate begins at
twenty. -/
theorem timely_begins_above :
    10 < (makeCcTimely (F := ℚ) ⟨50, 500, 0, 2, 0, 1, 10⟩ 0 0).rateBytesPerSec .write := by
  change (10 : ℚ) < 2 * 10
  norm_num

end Hux
