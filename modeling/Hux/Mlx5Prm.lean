import Mathlib.Algebra.Order.Ring.Nat
import Mathlib.Data.List.Basic

/-!
# Fields of mlx5 commands

`transport/rdma/mlx5_prm.h`: a field lies inside one big-endian word of a buffer, and
its offset counts the bits before it, the highest bit of the first byte being bit 0.

* `bit_set`: what each bit of a buffer is once a field has been written;
* `getLsbD_get`: what is read of the bits of a field.
-/

namespace Hux.Mlx5Prm

abbrev Buffer := List (BitVec 8)

structure Field where
  off : Nat
  bits : Nat
  deriving DecidableEq, Repr

/-! ## Reading and writing -/

/-- The byte at which the field's word begins. -/
def Field.start (f : Field) : Nat := f.off / 32 * 4

def Field.shift (f : Field) : Nat := 32 - f.off % 32 - f.bits

/-- The mask of a field at the low end of a word. -/
def Field.mask (f : Field) : BitVec 32 :=
  if f.bits = 32 then 0xffffffff#32 else (1#32 <<< f.bits) - 1#32

/-- The four bytes from `p` on, the highest first. -/
def word (buf : Buffer) (p : Nat) : BitVec 32 :=
  (buf.getD p 0).setWidth 32 <<< 24 ||| (buf.getD (p + 1) 0).setWidth 32 <<< 16 |||
    (buf.getD (p + 2) 0).setWidth 32 <<< 8 ||| (buf.getD (p + 3) 0).setWidth 32

def putWord (buf : Buffer) (p : Nat) (w : BitVec 32) : Buffer :=
  (((buf.set p ((w >>> 24).setWidth 8)).set (p + 1) ((w >>> 16).setWidth 8)).set (p + 2)
    ((w >>> 8).setWidth 8)).set (p + 3) (w.setWidth 8)

def set (buf : Buffer) (f : Field) (v : BitVec 32) : Buffer :=
  let mask := f.mask <<< f.shift
  let w := word buf f.start
  putWord buf f.start ((w &&& ~~~mask) ||| ((v <<< f.shift) &&& mask))

def get (buf : Buffer) (f : Field) : BitVec 32 := (word buf f.start >>> f.shift) &&& f.mask

/-! ## Bits -/

/-- A bit of a buffer, as fields number them. -/
def bit (buf : Buffer) (i : Nat) : Bool := (buf.getD (i / 8) 0).getLsbD (7 - i % 8)

def Field.Covers (f : Field) (i : Nat) : Prop := f.off ≤ i ∧ i < f.off + f.bits

instance (f : Field) (i : Nat) : Decidable (f.Covers i) := inferInstanceAs (Decidable (_ ∧ _))

/-- The field lies inside one word of the buffer. -/
structure Field.Inside (f : Field) (buf : Buffer) : Prop where
  pos : 1 ≤ f.bits
  one : f.off % 32 + f.bits ≤ 32
  fits : f.start + 4 ≤ buf.length

variable {buf buf' : Buffer} {f g : Field} {v w : BitVec 32} {i j k : Nat}

theorem eq_of_bit_eq (length : buf.length = buf'.length) (bits : ∀ i, bit buf i = bit buf' i) :
    buf = buf' := by
  refine List.ext_getElem length fun n here there => BitVec.eq_of_getLsbD_eq fun j small => ?_
  have byte := bits (8 * n + (7 - j))
  have place : (8 * n + (7 - j)) / 8 = n := by omega
  have position : 7 - (8 * n + (7 - j)) % 8 = j := by omega
  rw [bit, bit, place, position] at byte
  simpa [here, there] using byte

theorem getLsbD_mask (one : f.bits ≤ 32) : f.mask.getLsbD j = decide (j < f.bits) := by
  have mask : f.mask = BitVec.ofNat 32 (2 ^ f.bits - 1) := by
    unfold Field.mask
    split
    · rename_i all
      rw [all]
      rfl
    · have small : 2 ^ f.bits < 2 ^ 32 := Nat.pow_lt_pow_right (by decide) (by omega)
      have := Nat.two_pow_pos f.bits
      apply BitVec.eq_of_toNat_eq
      rw [BitVec.toNat_sub_of_le]
      · simp [Nat.shiftLeft_eq]
        omega
      · simp [BitVec.le_def, Nat.shiftLeft_eq]
        omega
  rw [mask, BitVec.getLsbD_ofNat, Nat.testBit_two_pow_sub_one]
  by_cases inside : j < f.bits
  · simp [inside, Nat.lt_of_lt_of_le inside one]
  · simp [inside]

/-- One of the bytes a word is put together from. -/
theorem getLsbD_byte (b : BitVec 8) (m : Nat) (small : j < 32) :
    (b.setWidth 32 <<< (8 * m)).getLsbD j = (decide (j / 8 = m) && b.getLsbD (j % 8)) := by
  rw [BitVec.getLsbD_shiftLeft, BitVec.getLsbD_setWidth]
  by_cases here : j / 8 = m
  · have position : j - 8 * m = j % 8 := by omega
    have after : ¬j < 8 * m := by omega
    simp [here, position, after, small]
    omega
  · by_cases before : j < 8 * m
    · simp [here, before]
    · have past : b.getLsbD (j - 8 * m) = false := BitVec.getLsbD_of_ge b _ (by omega)
      simp [here, past]

theorem getLsbD_word (small : j < 32) :
    (word buf (k * 4)).getLsbD j = bit buf (32 * k + (31 - j)) := by
  have place : (32 * k + (31 - j)) / 8 = k * 4 + (3 - j / 8) := by omega
  have position : 7 - (32 * k + (31 - j)) % 8 = j % 8 := by omega
  have first := getLsbD_byte (buf.getD (k * 4) 0) 3 small
  have second := getLsbD_byte (buf.getD (k * 4 + 1) 0) 2 small
  have third := getLsbD_byte (buf.getD (k * 4 + 2) 0) 1 small
  have last := getLsbD_byte (buf.getD (k * 4 + 3) 0) 0 small
  have which : j / 8 = 3 ∨ j / 8 = 2 ∨ j / 8 = 1 ∨ j / 8 = 0 := by omega
  rw [bit, place, position, word, BitVec.getLsbD_or, BitVec.getLsbD_or, BitVec.getLsbD_or, first,
    second, third, ← BitVec.shiftLeft_zero (BitVec.setWidth 32 _), last]
  rcases which with h | h | h | h <;> simp [h]

theorem getD_putWord (fits : k * 4 + 4 ≤ buf.length) (w : BitVec 32) {m : Nat} (small : m < 4) :
    (putWord buf (k * 4) w).getD (k * 4 + m) 0 = (w >>> (8 * (3 - m))).setWidth 8 := by
  have : m = 0 ∨ m = 1 ∨ m = 2 ∨ m = 3 := by omega
  have bound (n : Nat) (small : n < 4) : k * 4 + n < buf.length := by omega
  rcases this with rfl | rfl | rfl | rfl
  all_goals simp [putWord, bound, show k * 4 < buf.length from bound 0 (by decide)]

theorem bit_putWord (fits : k * 4 + 4 ≤ buf.length) (w : BitVec 32) (i : Nat) :
    bit (putWord buf (k * 4) w) i = if i / 32 = k then w.getLsbD (31 - i % 32) else bit buf i := by
  split
  · have place : i / 8 = k * 4 + i / 8 % 4 := by omega
    have position : 31 - i % 32 = 8 * (3 - i / 8 % 4) + (7 - i % 8) := by omega
    have low : 7 - i % 8 < 8 := by omega
    rw [bit, place, getD_putWord fits w (Nat.mod_lt _ (by decide)), position]
    simp [low]
  · have other (m : Nat) (small : m < 4) : k * 4 + m ≠ i / 8 := by omega
    simp [bit, putWord, show k * 4 ≠ i / 8 from other 0 (by decide), other]

theorem bit_set (inside : f.Inside buf) (v : BitVec 32) (i : Nat) :
    bit (set buf f v) i =
      if f.Covers i then v.getLsbD (f.off + f.bits - 1 - i) else bit buf i := by
  obtain ⟨pos, one, fits⟩ := inside
  rw [set, Field.start, bit_putWord fits]
  by_cases same : i / 32 = f.off / 32
  · have small : 31 - i % 32 < 32 := by omega
    have place : 32 * (f.off / 32) + (31 - (31 - i % 32)) = i := by omega
    rw [if_pos same, BitVec.getLsbD_or, BitVec.getLsbD_and, BitVec.getLsbD_and, BitVec.getLsbD_not,
      BitVec.getLsbD_shiftLeft, BitVec.getLsbD_shiftLeft, getLsbD_mask (by omega),
      getLsbD_word small, place]
    by_cases here : f.Covers i
    · obtain ⟨after, before⟩ := here
      have position : f.off + f.bits - 1 - i = 31 - i % 32 - f.shift := by
        unfold Field.shift
        omega
      have high : ¬31 - i % 32 < f.shift := by
        unfold Field.shift
        omega
      have low : 31 - i % 32 - f.shift < f.bits := by
        unfold Field.shift
        omega
      simp [Field.Covers, after, before, position, small, high, low]
    · have out : 31 - i % 32 < f.shift ∨ ¬31 - i % 32 - f.shift < f.bits := by
        unfold Field.Covers at here
        unfold Field.shift
        omega
      rcases out with out | out <;> simp [here, small, out]
  · have out : ¬f.Covers i := by
      unfold Field.Covers
      omega
    rw [if_neg same, if_neg out]

theorem getLsbD_get (inside : f.Inside buf) (j : Nat) :
    (get buf f).getLsbD j = (decide (j < f.bits) && bit buf (f.off + f.bits - 1 - j)) := by
  obtain ⟨pos, one, fits⟩ := inside
  rw [get, BitVec.getLsbD_and, BitVec.getLsbD_ushiftRight, getLsbD_mask (by omega), Bool.and_comm]
  by_cases here : j < f.bits
  · have small : f.shift + j < 32 := by
      unfold Field.shift
      omega
    have place : 32 * (f.off / 32) + (31 - (f.shift + j)) = f.off + f.bits - 1 - j := by
      unfold Field.shift
      omega
    rw [Field.start, getLsbD_word small, place]
  · simp [here]

@[simp] theorem length_set (buf : Buffer) (f : Field) (v : BitVec 32) :
    (set buf f v).length = buf.length := by
  simp [set, putWord]

theorem Field.Inside.set (inside : f.Inside buf) : f.Inside (set buf g v) :=
  ⟨inside.pos, inside.one, by simpa using inside.fits⟩

theorem get_set_self (inside : f.Inside buf) :
    (get (set buf f v) f).toNat = v.toNat % 2 ^ f.bits := by
  have cut : get (set buf f v) f = BitVec.ofNat 32 (v.toNat % 2 ^ f.bits) := by
    refine BitVec.eq_of_getLsbD_eq fun j small => ?_
    rw [getLsbD_get inside.set, BitVec.getLsbD_ofNat, Nat.testBit_mod_two_pow, bit_set inside]
    by_cases here : j < f.bits
    · have covers : f.Covers (f.off + f.bits - 1 - j) := by
        unfold Field.Covers
        omega
      have position : f.off + f.bits - 1 - (f.off + f.bits - 1 - j) = j := by omega
      simp [here, covers, position, small, BitVec.getLsbD]
    · simp [here]
  have small : v.toNat % 2 ^ f.bits < 2 ^ 32 := Nat.lt_of_le_of_lt (Nat.mod_le _ _) v.isLt
  rw [cut, BitVec.toNat_ofNat, Nat.mod_eq_of_lt small]

theorem set_get_self (inside : f.Inside buf) : set buf f (get buf f) = buf := by
  refine eq_of_bit_eq (length_set ..) fun i => ?_
  rw [bit_set inside]
  split
  · rename_i covers
    have position : f.off + f.bits - 1 - (f.off + f.bits - 1 - i) = i := by
      have := covers.2
      omega
    have low : f.off + f.bits - 1 - i < f.bits := by
      have := covers.1
      have := inside.pos
      omega
    simp [getLsbD_get inside, position, low]
  · rfl

theorem set_set_self (inside : f.Inside buf) : set (set buf f v) f w = set buf f w := by
  refine eq_of_bit_eq (by simp) fun i => ?_
  rw [bit_set inside.set, bit_set inside, bit_set inside]
  split <;> rfl

section
variable (apart : ∀ i, ¬(f.Covers i ∧ g.Covers i))
include apart

theorem get_set_other (first : f.Inside buf) (second : g.Inside buf) :
    get (set buf f v) g = get buf g := by
  refine BitVec.eq_of_getLsbD_eq fun j _ => ?_
  rw [getLsbD_get second.set, getLsbD_get second]
  by_cases here : j < g.bits
  · have covers : g.Covers (g.off + g.bits - 1 - j) := by
      unfold Field.Covers
      omega
    rw [bit_set first, if_neg fun other => apart _ ⟨other, covers⟩]
  · simp [here]

theorem set_set_other (first : f.Inside buf) (second : g.Inside buf) :
    set (set buf f v) g w = set (set buf g w) f v := by
  refine eq_of_bit_eq (by simp) fun i => ?_
  rw [bit_set second.set, bit_set first, bit_set first.set, bit_set second]
  by_cases covers : f.Covers i
  · simp [covers, show ¬g.Covers i from fun other => apart i ⟨covers, other⟩]
  · simp [covers]

end

/-- What is written into a field is read back, cut to its width; writing what was read
changes nothing; the last of two writes is the one that counts; and nothing outside a
field is changed, so fields that share no bit do not affect each other. -/
theorem fields_are_independent (buf : Buffer) (f g : Field) (first : f.Inside buf)
    (second : g.Inside buf) (v w : BitVec 32) :
    (get (set buf f v) f).toNat = v.toNat % 2 ^ f.bits ∧
    set buf f (get buf f) = buf ∧
    set (set buf f v) f w = set buf f w ∧
    ((∀ i, ¬(f.Covers i ∧ g.Covers i)) →
      get (set buf f v) g = get buf g ∧ set (set buf f v) g w = set (set buf g w) f v) ∧
    (set buf f v).length = buf.length ∧
    ∀ i, ¬f.Covers i → bit (set buf f v) i = bit buf i :=
  ⟨get_set_self first, set_get_self first, set_set_self first,
    fun apart => ⟨get_set_other apart first second, set_set_other apart first second⟩,
    length_set .., fun i out => by rw [bit_set first, if_neg out]⟩

def kQpcMtu : Field := ⟨0x40, 3⟩
def kQpcLogMsgMax : Field := ⟨0x43, 5⟩

/-- Two fields in one byte of a queue pair's context, one of them written with more bits
than it has. -/
theorem fields_are_independent_mtu :
    (get (set (List.replicate 12 30) kQpcMtu 0xff) kQpcMtu).toNat = 7 ∧
      get (set (List.replicate 12 30) kQpcMtu 0xff) kQpcLogMsgMax = 30 := by
  obtain ⟨own, -, -, other, -⟩ := fields_are_independent (List.replicate 12 30) kQpcMtu
    kQpcLogMsgMax ⟨by decide, by decide, by decide⟩ ⟨by decide, by decide, by decide⟩ 0xff 0
  refine ⟨own, (other fun i => ?_).1.trans (by decide)⟩
  simp only [Field.Covers, kQpcMtu, kQpcLogMsgMax]
  omega

end Hux.Mlx5Prm
