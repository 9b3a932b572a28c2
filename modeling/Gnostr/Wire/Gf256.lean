import Gnostr.Wire.Bytes

/-!
# Octets as polynomials

The field with 256 elements: an octet stands for the polynomial whose coefficients are its bits,
sums are taken bit by bit and products modulo `x ^ 8 + x ^ 4 + x ^ 3 + x + 1`. Products distribute
over sums (`gmul_xor`). A property of octets that sums keep holds of every octet when it holds of
the single bits (`octet_induction`).
-/

namespace Wire

/-- The octets with one bit set. -/
def singleBits : List UInt8 :=
  [1, 2, 4, 8, 16, 32, 64, 128]

/-- An octet is the sum of its bits. -/
theorem sum_of_bits (x : UInt8) :
    (x &&& 1) ^^^ (x &&& 2) ^^^ (x &&& 4) ^^^ (x &&& 8) ^^^ (x &&& 16) ^^^ (x &&& 32) ^^^
      (x &&& 64) ^^^ (x &&& 128) = x := by
  refine UInt8.toBitVec_inj.mp (BitVec.eq_of_getLsbD_eq fun i hi => ?_)
  interval_cases i <;> simp

/-- A bit is set or not. -/
theorem and_single_bit : ∀ m ∈ singleBits, ∀ x : UInt8, x &&& m = 0 ∨ x &&& m = m := by
  decide +kernel

/-- What sums keep and single bits have, every octet has. -/
theorem octet_induction {motive : UInt8 → Prop} (zero : motive 0)
    (xor : ∀ x y, motive x → motive y → motive (x ^^^ y)) (bit : ∀ m ∈ singleBits, motive m)
    (x : UInt8) : motive x := by
  have hmask : ∀ m ∈ singleBits, motive (x &&& m) := by
    intro m hm
    rcases and_single_bit m hm x with h | h
    · rw [h]
      exact zero
    · rw [h]
      exact bit m hm
  simp only [singleBits, List.forall_mem_cons] at hmask
  obtain ⟨h0, h1, h2, h3, h4, h5, h6, h7, -⟩ := hmask
  rw [← sum_of_bits x]
  exact xor _ _ (xor _ _ (xor _ _ (xor _ _ (xor _ _ (xor _ _ (xor _ _ h0 h1) h2) h3) h4) h5) h6) h7

/-- What the coefficient of `x ^ 8` stands for. -/
def reduce (bit : Bool) : UInt8 :=
  if bit then 0x1b else 0

/-- The product with `x`. -/
def timesX (a : UInt8) : UInt8 :=
  (a <<< 1) ^^^ reduce a.toBitVec.msb

/-- Zero stays zero. -/
theorem times_x_zero : timesX 0 = 0 := rfl

/-- Multiplication by `x` is additive. -/
theorem times_x_xor (a b : UInt8) : timesX (a ^^^ b) = timesX a ^^^ timesX b := by
  have hreduce : ∀ p q, reduce (p ^^ q) = reduce p ^^^ reduce q := by decide
  simp only [timesX, UInt8.shiftLeft_xor, UInt8.toBitVec_xor, BitVec.msb_xor, hreduce]
  ac_rfl

/-! ## Products -/

/-- A polynomial with octets as coefficients at `x`, from the highest index of a list to the
lowest. -/
def horner (u : Nat → UInt8) (is : List Nat) (acc : UInt8) : UInt8 :=
  is.foldl (fun acc i => timesX acc ^^^ u i) acc

/-- So is the scheme of Horner. -/
theorem horner_xor {u v w : Nat → UInt8} (h : ∀ i, w i = u i ^^^ v i) (is : List Nat)
    (s t : UInt8) : horner w is (s ^^^ t) = horner u is s ^^^ horner v is t := by
  induction is generalizing s t with
  | nil => rfl
  | cons i is ih =>
      have hstep : timesX (s ^^^ t) ^^^ w i = (timesX s ^^^ u i) ^^^ (timesX t ^^^ v i) := by
        rw [times_x_xor, h]
        ac_rfl
      show horner w is (timesX (s ^^^ t) ^^^ w i) = _
      rw [hstep, ih]
      rfl

/-- And it commutes with multiplication by `x`. -/
theorem horner_times_x {u w : Nat → UInt8} (h : ∀ i, w i = timesX (u i)) (is : List Nat)
    (s : UInt8) : horner w is (timesX s) = timesX (horner u is s) := by
  induction is generalizing s with
  | nil => rfl
  | cons i is ih =>
      show horner w is (timesX (timesX s) ^^^ w i) = _
      rw [h, ← times_x_xor, ih]
      rfl

/-- The multiple of an octet by a bit. -/
def bitTimes (bit : Bool) (a : UInt8) : UInt8 :=
  if bit then a else 0

/-- The product of two octets. -/
def gmul (a b : UInt8) : UInt8 :=
  horner (fun i => bitTimes (b.toBitVec.getLsbD i) a) (List.range 8).reverse 0

/-- Products distribute over sums. -/
theorem gmul_xor (a b c : UInt8) : gmul (a ^^^ b) c = gmul a c ^^^ gmul b c := by
  refine horner_xor (fun i => ?_) _ 0 0
  cases c.toBitVec.getLsbD i <;> simp [bitTimes]

/-- The product is additive on the right. -/
theorem gmul_xor_right (a b c : UInt8) : gmul a (b ^^^ c) = gmul a b ^^^ gmul a c := by
  refine horner_xor (fun i => ?_) _ 0 0
  rw [UInt8.toBitVec_xor, BitVec.getLsbD_xor]
  cases b.toBitVec.getLsbD i <;> cases c.toBitVec.getLsbD i <;> simp [bitTimes]

/-- Nothing times something. -/
theorem zero_gmul (a : UInt8) : gmul 0 a = 0 := by
  have hsum := gmul_xor 0 0 a
  rwa [UInt8.xor_self, UInt8.xor_self] at hsum

/-- Something times nothing. -/
theorem gmul_zero (a : UInt8) : gmul a 0 = 0 := by
  have hsum := gmul_xor_right a 0 0
  rwa [UInt8.xor_self, UInt8.xor_self] at hsum

/-- A factor `x` can be taken out. -/
theorem times_x_gmul (a b : UInt8) : gmul (timesX a) b = timesX (gmul a b) := by
  refine horner_times_x (fun i => ?_) _ 0
  cases b.toBitVec.getLsbD i
  · exact times_x_zero.symm
  · rfl

/-- The reduction commutes with products: it does on single bits. -/
theorem gmul_times_x (a b : UInt8) : gmul a (timesX b) = timesX (gmul a b) := by
  have hbits : ∀ m ∈ singleBits, ∀ n ∈ singleBits, gmul m (timesX n) = timesX (gmul m n) := by
    decide +kernel
  induction a using octet_induction with
  | zero => rw [zero_gmul, zero_gmul]; rfl
  | xor a a' ih ih' => rw [gmul_xor, gmul_xor, times_x_xor, ih, ih']
  | bit m hm =>
      induction b using octet_induction with
      | zero => rw [gmul_zero]; exact gmul_zero m
      | xor b b' ih ih' => rw [times_x_xor, gmul_xor_right, gmul_xor_right, times_x_xor, ih, ih']
      | bit n hn => exact hbits m hm n hn

/-- What holds of one and is kept by sums and by the product with `x`, every octet has. -/
theorem polynomial_induction {motive : UInt8 → Prop} (zero : motive 0) (one : motive 1)
    (xor : ∀ x y, motive x → motive y → motive (x ^^^ y))
    (times : ∀ x, motive x → motive (timesX x)) (x : UInt8) : motive x := by
  have h2 := times 1 one
  have h4 := times 2 h2
  have h8 := times 4 h4
  have h16 := times 8 h8
  have h32 := times 16 h16
  have h64 := times 32 h32
  have h128 := times 64 h64
  refine octet_induction zero xor ?_ x
  simp only [singleBits, List.forall_mem_cons]
  exact ⟨one, h2, h4, h8, h16, h32, h64, h128, fun _ h => absurd h List.not_mem_nil⟩

/-- One is neutral on the right. -/
theorem gmul_one (a : UInt8) : gmul a 1 = a := by
  have hbits : (List.range 8).reverse = [7, 6, 5, 4, 3, 2, 1, 0] := rfl
  simp [gmul, horner, bitTimes, hbits, times_x_zero]

/-- And on the left. -/
theorem one_gmul (a : UInt8) : gmul 1 a = a := by
  induction a using polynomial_induction with
  | zero => exact gmul_zero 1
  | one => exact gmul_one 1
  | xor x y ihx ihy => rw [gmul_xor_right, ihx, ihy]
  | times x ih => rw [gmul_times_x, ih]

/-- The product is commutative. -/
theorem gmul_comm (a b : UInt8) : gmul a b = gmul b a := by
  induction a using polynomial_induction with
  | zero => rw [zero_gmul, gmul_zero]
  | one => rw [one_gmul, gmul_one]
  | xor x y ihx ihy => rw [gmul_xor, gmul_xor_right, ihx, ihy]
  | times x ih => rw [times_x_gmul, gmul_times_x, ih]

/-- And associative. -/
theorem gmul_assoc (a b c : UInt8) : gmul (gmul a b) c = gmul a (gmul b c) := by
  induction c using polynomial_induction with
  | zero => rw [gmul_zero, gmul_zero, gmul_zero]
  | one => rw [gmul_one, gmul_one]
  | xor x y ihx ihy => rw [gmul_xor_right, gmul_xor_right, gmul_xor_right, ihx, ihy]
  | times x ih => rw [gmul_times_x, gmul_times_x, gmul_times_x, ih]

/-! ## Inverses -/

/-- All octets. -/
def allOctets : List UInt8 :=
  (List.range 256).map UInt8.ofNat

/-- The list has every byte. -/
theorem mem_all_octets (a : UInt8) : a ∈ allOctets :=
  List.mem_map.mpr ⟨a.toNat, List.mem_range.mpr a.toNat_lt, UInt8.ofNat_toNat⟩

/-- The inverse of an octet; zero, which has none, stands for itself. -/
def ginv (a : UInt8) : UInt8 :=
  (allOctets.find? fun b => gmul a b = 1).getD 0

/-- There is at most one inverse. -/
theorem ginv_eq {a b : UInt8} (h : gmul a b = 1) : ginv a = b := by
  have hfound : (allOctets.find? fun b => gmul a b = 1).isSome :=
    List.find?_isSome.mpr ⟨b, mem_all_octets b, by simpa using h⟩
  obtain ⟨c, hc⟩ := Option.isSome_iff_exists.mp hfound
  have hinv : gmul a c = 1 := by simpa using List.find?_some hc
  rw [ginv, hc, Option.getD_some]
  calc c = gmul c (gmul a b) := by rw [h, gmul_one]
    _ = gmul (gmul a c) b := by rw [← gmul_assoc, gmul_comm c a]
    _ = b := by rw [hinv, one_gmul]

/-- Zero stands for its own inverse. -/
theorem ginv_zero : ginv 0 = 0 := by
  have hnone : (allOctets.find? fun b => gmul 0 b = 1) = none :=
    List.find?_eq_none.mpr fun b _ => by simp [zero_gmul]
  rw [ginv, hnone, Option.getD_none]

end Wire
