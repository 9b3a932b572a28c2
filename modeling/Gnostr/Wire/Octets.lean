import Gnostr.Wire.Bytes

/-!
# Numbers as octets

A number in memory: `octets` cuts a number into a given count of octets, least significant first,
and `littleEndian` reads such a string back. The two are inverse up to what the octets can hold
(`little_endian_octets`, `octets_little_endian`). The order of a machine decides which end comes
first (`ByteOrder`), and `ByteOrder.write`, `ByteOrder.read` are a store and a load under it.
-/

namespace Wire

/-- The low `k` octets of a number, least significant first. -/
def octets : Nat → Nat → Bytes
  | 0, _ => []
  | k + 1, n => UInt8.ofNat n :: octets k (n >>> 8)

/-- The number an octet string stands for, least significant octet first. -/
def littleEndian (t : Bytes) : Nat :=
  Nat.ofDigits 256 (t.map UInt8.toNat)

/-- As many octets as were asked for. -/
@[simp] theorem length_octets (k n : Nat) : (octets k n).length = k := by
  induction k generalizing n with
  | zero => rfl
  | succ k ih => simp [octets, ih]

/-- One octet more in front. -/
theorem little_endian_cons (b : UInt8) (t : Bytes) :
    littleEndian (b :: t) = b.toNat + 256 * littleEndian t := by
  simp [littleEndian, Nat.ofDigits_cons]

/-- The other order of the octets. -/
theorem little_endian_reverse (t : Bytes) : littleEndian t.reverse = bigEndian t := by
  rw [littleEndian, bigEndian]

/-- A number is bounded by its length. -/
theorem little_endian_lt (t : Bytes) : littleEndian t < 256 ^ t.length := by
  simpa [← little_endian_reverse] using big_endian_lt t.reverse

/-- Reading what was cut gives the number, as far as the octets hold it. -/
theorem little_endian_octets (k n : Nat) : littleEndian (octets k n) = n % 256 ^ k := by
  induction k generalizing n with
  | zero => simp [octets, littleEndian, Nat.mod_one]
  | succ k ih =>
      rw [octets, little_endian_cons, ih, Nat.shiftRight_eq_div_pow, UInt8.toNat_ofNat',
        Nat.pow_succ' (n := k), Nat.mod_mul]

/-- Cutting a number that fits gives the octets it was read from. -/
theorem octets_little_endian (t : Bytes) : octets t.length (littleEndian t) = t := by
  induction t with
  | nil => rfl
  | cons b t ih =>
      have hlow : UInt8.ofNat (littleEndian (b :: t)) = b := by
        refine UInt8.toNat_inj.mp ?_
        rw [UInt8.toNat_ofNat', little_endian_cons, Nat.add_mul_mod_self_left,
          Nat.mod_eq_of_lt b.toNat_lt]
      have hhigh : littleEndian (b :: t) >>> 8 = littleEndian t := by
        have hb := b.toNat_lt
        rw [little_endian_cons, Nat.shiftRight_eq_div_pow]
        omega
      rw [List.length_cons, octets, hlow, hhigh, ih]

/-- An octet is that of a shift. -/
theorem getElem_octets {k n i : Nat} (h : i < (octets k n).length) :
    (octets k n)[i] = UInt8.ofNat (n >>> (8 * i)) := by
  induction k generalizing n i with
  | zero => exact absurd h (Nat.not_lt_zero i)
  | succ k ih =>
      cases i with
      | zero => rfl
      | succ i =>
          simp only [octets, List.getElem_cons_succ]
          rw [ih, ← Nat.shiftRight_add, Nat.mul_add, Nat.mul_one, Nat.add_comm 8]

/-- Two octets are equal when their bits are. -/
theorem of_nat_eq_of_test_bit {m n : Nat} (h : ∀ j < 8, m.testBit j = n.testBit j) :
    UInt8.ofNat m = UInt8.ofNat n := by
  refine UInt8.toNat_inj.mp (Nat.eq_of_testBit_eq fun j => ?_)
  rw [UInt8.toNat_ofNat', UInt8.toNat_ofNat', Nat.testBit_mod_two_pow, Nat.testBit_mod_two_pow]
  by_cases hj : j < 8
  · rw [h j hj]
  · simp [hj]

/-- The octets are reversed when every bit stands in the octet that is as far from the other end,
in the same place. -/
theorem octets_eq_reverse {k m n : Nat}
    (h : ∀ j < 8 * k, m.testBit j = n.testBit (8 * (k - 1 - j / 8) + j % 8)) :
    octets k m = (octets k n).reverse := by
  refine List.ext_getElem (by simp) fun i hi hi' => ?_
  rw [length_octets] at hi
  rw [List.getElem_reverse, getElem_octets, getElem_octets]
  refine of_nat_eq_of_test_bit fun j hj => ?_
  have hdiv : (8 * i + j) / 8 = i := by omega
  have hmod : (8 * i + j) % 8 = j := by omega
  rw [Nat.testBit_shiftRight, Nat.testBit_shiftRight, h _ (by omega), hdiv, hmod, length_octets]

/-! ## Byte order -/

/-- Which end of a number comes first in memory. -/
inductive ByteOrder where
  | little
  | big
  deriving DecidableEq

namespace ByteOrder

/-- A number of `k` octets as it stands in memory. -/
def write (order : ByteOrder) (k n : Nat) : Bytes :=
  match order with
  | little => octets k n
  | big => (octets k n).reverse

/-- The number that stands in memory. -/
def read (order : ByteOrder) (t : Bytes) : Nat :=
  match order with
  | little => littleEndian t
  | big => bigEndian t

/-- As many bytes are written as were asked for. -/
@[simp] theorem length_write (order : ByteOrder) (k n : Nat) : (order.write k n).length = k := by
  cases order <;> simp [write]

/-- A load gives what was stored. -/
theorem read_write (order : ByteOrder) (k n : Nat) :
    order.read (order.write k n) = n % 256 ^ k := by
  cases order with
  | little => exact little_endian_octets k n
  | big =>
      show bigEndian (octets k n).reverse = _
      rw [← little_endian_reverse, List.reverse_reverse, little_endian_octets]

end ByteOrder

end Wire
