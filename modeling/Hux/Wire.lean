import Mathlib.Data.List.Basic
import Mathlib.Tactic.Ring

/-!
# Little-endian fields in byte strings

`putLE w v` is `v` in `w` bytes, lowest first, and `leAt b i w` the value of
the `w` bytes of `b` from place `i` on.

* `leAt_skip`, `leAt_head`: a field is read back wherever it stands in a string;
* `drop_eq_putLE`: what was read, written again, is what stands there;
* `readLE`, `readBytes`: the same reads, but only within the string.
-/

namespace Wire

abbrev Bytes := List UInt8

def putLE : Nat → Nat → Bytes
  | 0, _ => []
  | w + 1, v => UInt8.ofNat (v % 256) :: putLE w (v / 256)

def getLE : Bytes → Nat
  | [] => 0
  | b :: bs => b.toNat + 256 * getLE bs

def leAt (b : Bytes) (i w : Nat) : Nat := getLE ((b.drop i).take w)

@[simp] theorem length_putLE (w v : Nat) : (putLE w v).length = w := by
  induction w generalizing v with
  | zero => rfl
  | succ w ih => simp [putLE, ih]

theorem getLE_putLE (w v : Nat) : getLE (putLE w v) = v % 256 ^ w := by
  induction w generalizing v with
  | zero => simp [putLE, getLE, Nat.mod_one]
  | succ w ih =>
    have low : (UInt8.ofNat (v % 256)).toNat = v % 256 := by simp
    rw [putLE, getLE, ih, low, pow_succ', Nat.mod_mul]

theorem getLE_lt (b : Bytes) : getLE b < 256 ^ b.length := by
  induction b with
  | nil => simp [getLE]
  | cons x xs ih =>
    have := x.toNat_lt
    rw [getLE, List.length_cons, pow_succ']
    omega

theorem leAt_lt (b : Bytes) (i w : Nat) : leAt b i w < 256 ^ w := by
  refine lt_of_lt_of_le (getLE_lt _) (Nat.pow_le_pow_right (by decide) ?_)
  simp

/-- A field at the head of a string is read back as written. -/
theorem leAt_head (w v : Nat) (c : Bytes) (hv : v < 256 ^ w) : leAt (putLE w v ++ c) 0 w = v := by
  rw [leAt, List.drop_zero, List.take_append_of_le_length (by simp),
    List.take_of_length_le (by simp), getLE_putLE, Nat.mod_eq_of_lt hv]

theorem leAt_putLE (w v : Nat) (hv : v < 256 ^ w) : leAt (putLE w v) 0 w = v := by
  simpa using leAt_head w v [] hv

/-- A field further on is read in what follows the head. -/
theorem leAt_skip (a c : Bytes) (i w : Nat) (hi : a.length ≤ i) :
    leAt (a ++ c) i w = leAt c (i - a.length) w := by
  rw [leAt, List.drop_append, List.drop_eq_nil_of_le hi, List.nil_append, leAt]

variable {b : Bytes} {i w : Nat}

/-- A field that is over before a string is cut off. -/
theorem leAt_take {n : Nat} (before : i + w ≤ n) : leAt (b.take n) i w = leAt b i w := by
  rw [leAt, leAt, List.drop_take, List.take_take, Nat.min_eq_left (by omega)]

variable {a c : Bytes} {v : Nat}

theorem leAt_mid (form : b = a ++ (putLE w v ++ c)) (place : i = a.length) (hv : v < 256 ^ w) :
    leAt b i w = v := by
  rw [form, place, leAt_skip a _ _ _ (Nat.le_refl _), Nat.sub_self]
  exact leAt_head w v c hv

theorem slice_mid {x : Bytes} (form : b = a ++ (x ++ c)) (place : i = a.length) :
    (b.drop i).take x.length = x := by
  rw [form, place, List.drop_left, List.take_left]

theorem putLE_getLE (b : Bytes) : putLE b.length (getLE b) = b := by
  induction b with
  | nil => rfl
  | cons x xs ih =>
    have low : (x.toNat + 256 * getLE xs) % 256 = x.toNat := by
      have := x.toNat_lt
      omega
    have high : (x.toNat + 256 * getLE xs) / 256 = getLE xs := by
      have := x.toNat_lt
      omega
    rw [getLE, List.length_cons, putLE, low, high, ih, UInt8.ofNat_toNat]

/-- The field at a place is what was read there, written again. -/
theorem drop_eq_putLE (inside : i + w ≤ b.length) :
    b.drop i = putLE w (leAt b i w) ++ b.drop (i + w) := by
  have long : ((b.drop i).take w).length = w := by
    rw [List.length_take, List.length_drop]
    omega
  have field := putLE_getLE ((b.drop i).take w)
  rw [long] at field
  rw [leAt, field, ← List.drop_drop, List.take_append_drop]

theorem putLE_inj {v' : Nat} (hv : v < 256 ^ w) (hv' : v' < 256 ^ w)
    (same : putLE w v = putLE w v') : v = v' := by
  have values := congrArg getLE same
  rwa [getLE_putLE, getLE_putLE, Nat.mod_eq_of_lt hv, Nat.mod_eq_of_lt hv'] at values

/-- Fields of one length, at the head of a string and of its beginning. -/
theorem append_prefix {d : Bytes} (same : a.length = c.length) (h : a ++ b <+: c ++ d) :
    a = c ∧ b <+: d := by
  obtain ⟨rest, whole⟩ := h
  rw [List.append_assoc] at whole
  obtain ⟨head, tail⟩ := List.append_inj whole same
  exact ⟨head, rest, tail⟩

/-- A field in two halves. -/
theorem getLE_append (a c : Bytes) : getLE (a ++ c) = getLE a + 256 ^ a.length * getLE c := by
  induction a with
  | nil => simp [getLE]
  | cons x xs ih =>
    rw [List.cons_append, getLE, getLE, ih, List.length_cons, pow_succ']
    ring

theorem leAt_add (inside : i + v ≤ b.length) (w : Nat) :
    leAt b i (v + w) = leAt b i v + 256 ^ v * leAt b (i + v) w := by
  have long : ((b.drop i).take v).length = v := by
    rw [List.length_take, List.length_drop]
    omega
  rw [leAt, List.take_add, getLE_append, long, List.drop_drop, leAt, leAt]

/-! ## Reading within a string -/

/-- None if a byte of the field is past the end. -/
def readLE (b : Bytes) (i w : Nat) : Option Nat :=
  if i + w ≤ b.length then some (leAt b i w) else none

def readBytes (b : Bytes) (i n : Nat) : Option Bytes :=
  if i + n ≤ b.length then some ((b.drop i).take n) else none

theorem readLE_of_le (inside : i + w ≤ b.length) : readLE b i w = some (leAt b i w) := if_pos inside

theorem readBytes_of_le {n : Nat} (inside : i + n ≤ b.length) :
    readBytes b i n = some ((b.drop i).take n) := if_pos inside

end Wire
