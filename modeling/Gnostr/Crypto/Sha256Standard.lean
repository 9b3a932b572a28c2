import Gnostr.Crypto.Sha256

/-!
# The standard SHA-256 follows

The digest of FIPS 180-4, the standard the header comment of `sha256.c` leaves to the code it was
translated from: functions on words, the message schedule by its recurrence, sixty-four rounds
that shift eight variables, padding with the length in bits. `transform_eq` says that `Transform`,
which names the variables of a round differently instead of shifting them and keeps sixteen words
of the schedule, computes the compression function of the standard on every machine.
-/

namespace Gnostr.Sha256

open Wire

namespace Standard

/-! ## The digest -/

/-- A rotation to the right. -/
def rotr (n : Nat) (x : UInt32) : UInt32 :=
  ⟨x.toBitVec.rotateRight n⟩

/-- Choose. -/
def ch (x y z : UInt32) : UInt32 :=
  (x &&& y) ^^^ (~~~x &&& z)

/-- Majority. -/
def maj (x y z : UInt32) : UInt32 :=
  (x &&& y) ^^^ (x &&& z) ^^^ (y &&& z)

/-- The first function on one word of a round. -/
def bigSigma0 (x : UInt32) : UInt32 :=
  rotr 2 x ^^^ rotr 13 x ^^^ rotr 22 x

/-- The second function on one word of a round. -/
def bigSigma1 (x : UInt32) : UInt32 :=
  rotr 6 x ^^^ rotr 11 x ^^^ rotr 25 x

/-- The first function of the message schedule. -/
def sigma0 (x : UInt32) : UInt32 :=
  rotr 7 x ^^^ rotr 18 x ^^^ (x >>> 3)

/-- The second function of the message schedule. -/
def sigma1 (x : UInt32) : UInt32 :=
  rotr 17 x ^^^ rotr 19 x ^^^ (x >>> 10)

/-- The constants of the rounds. -/
def constants : List UInt32 :=
  [0x428a2f98, 0x71374491, 0xb5c0fbcf, 0xe9b5dba5, 0x3956c25b, 0x59f111f1, 0x923f82a4, 0xab1c5ed5,
    0xd807aa98, 0x12835b01, 0x243185be, 0x550c7dc3, 0x72be5d74, 0x80deb1fe, 0x9bdc06a7, 0xc19bf174,
    0xe49b69c1, 0xefbe4786, 0x0fc19dc6, 0x240ca1cc, 0x2de92c6f, 0x4a7484aa, 0x5cb0a9dc, 0x76f988da,
    0x983e5152, 0xa831c66d, 0xb00327c8, 0xbf597fc7, 0xc6e00bf3, 0xd5a79147, 0x06ca6351, 0x14292967,
    0x27b70a85, 0x2e1b2138, 0x4d2c6dfc, 0x53380d13, 0x650a7354, 0x766a0abb, 0x81c2c92e, 0x92722c85,
    0xa2bfe8a1, 0xa81a664b, 0xc24b8b70, 0xc76c51a3, 0xd192e819, 0xd6990624, 0xf40e3585, 0x106aa070,
    0x19a4c116, 0x1e376c08, 0x2748774c, 0x34b0bcb5, 0x391c0cb3, 0x4ed8aa4a, 0x5b9cca4f, 0x682e6ff3,
    0x748f82ee, 0x78a5636f, 0x84c87814, 0x8cc70208, 0x90befffa, 0xa4506ceb, 0xbef9a3f7, 0xc67178f2]

/-- The constant of round `t`. -/
def constant (t : Nat) : UInt32 :=
  constants.getD t 0

/-- The words of a block. -/
def word (b : Block 64) (t : Nat) : UInt32 :=
  UInt32.ofNat (bigEndian ((b.1.drop (4 * t)).take 4))

/-- The message schedule of a block. -/
def schedule (b : Block 64) (t : Nat) : UInt32 :=
  if t < 16 then word b t
  else sigma1 (schedule b (t - 2)) + schedule b (t - 7) + sigma0 (schedule b (t - 15)) +
    schedule b (t - 16)

/-- One round. -/
def step (k w : UInt32) (s : Chain) : Chain :=
  let t1 := s.h + bigSigma1 s.e + ch s.e s.f s.g + k + w
  let t2 := bigSigma0 s.a + maj s.a s.b s.c
  ⟨t1 + t2, s.a, s.b, s.c, s.d + t1, s.e, s.f, s.g⟩

/-- Rounds one after the other, from round `t` on. -/
def rounds (k w : Nat → UInt32) : Nat → Nat → Chain → Chain
  | _, 0, s => s
  | t, n + 1, s => rounds k w (t + 1) n (step (k t) (w t) s)

/-- The compression function. -/
def compress (s : Chain) (b : Block 64) : Chain :=
  s.add (rounds constant (schedule b) 0 64 s)

/-- The words the chain starts with. -/
def initial : Chain :=
  ⟨0x6a09e667, 0xbb67ae85, 0x3c6ef372, 0xa54ff53a, 0x510e527f, 0x9b05688c, 0x1f83d9ab, 0x5be0cd19⟩

/-- What follows a message of some length: a one bit, zeros up to eight bytes before the end of a
block, and the length in bits. -/
def padding (len : Nat) : Bytes :=
  0x80 :: (List.replicate ((64 - (len + 9) % 64) % 64) 0 ++ (octets 8 (8 * len)).reverse)

/-- The words of the chain, most significant byte first. -/
def Chain.bytes (s : Chain) : Bytes :=
  [s.a, s.b, s.c, s.d, s.e, s.f, s.g, s.h].flatMap fun w => (octets 4 w.toNat).reverse

/-- So does the digest of the standard. -/
theorem length_chain_bytes (s : Chain) : (Chain.bytes s).length = 32 := by
  simp [Chain.bytes]

/-- The digest of a message. -/
def digest (t : Bytes) : Block 32 :=
  ⟨Chain.bytes (absorb compress initial (t ++ padding t.length)), length_chain_bytes _⟩

end Standard

open Standard (rounds step schedule word constant)

/-! ## The functions on words -/

/-- The choice is that of the standard, written with one operation less. -/
theorem ch_eq : ch = Standard.ch := by
  funext x y z
  refine UInt32.toBitVec_inj.mp (BitVec.eq_of_getLsbD_eq fun i hi => ?_)
  simp only [ch, Standard.ch, UInt32.toBitVec_xor, UInt32.toBitVec_and, UInt32.toBitVec_not,
    BitVec.getLsbD_xor, BitVec.getLsbD_and, BitVec.getLsbD_not, hi, decide_true, Bool.true_and]
  cases x.toBitVec.getLsbD i <;> cases y.toBitVec.getLsbD i <;> simp

/-- So is the majority. -/
theorem maj_eq : maj = Standard.maj := by
  funext x y z
  refine UInt32.toBitVec_inj.mp (BitVec.eq_of_getLsbD_eq fun i _ => ?_)
  simp only [maj, Standard.maj, UInt32.toBitVec_xor, UInt32.toBitVec_and, UInt32.toBitVec_or,
    BitVec.getLsbD_xor, BitVec.getLsbD_and, BitVec.getLsbD_or]
  cases x.toBitVec.getLsbD i <;> cases y.toBitVec.getLsbD i <;> simp

/-- A rotation is two shifts. -/
theorem big_sigma0_eq : bigSigma0 = Standard.bigSigma0 := rfl

/-- The rotations are the same. -/
theorem big_sigma1_eq : bigSigma1 = Standard.bigSigma1 := rfl

/-- Also in the schedule. -/
theorem sigma0_eq : sigma0 = Standard.sigma0 := rfl

/-- Both of them. -/
theorem sigma1_eq : sigma1 = Standard.sigma1 := rfl

/-- A word of a chunk does not depend on the machine. -/
theorem chunk_word_eq (machine : ByteOrder) (chunk : Block 64) {i : Nat} (h : i < 16) :
    chunkWord machine chunk i = word chunk i := by
  have hlen : ((chunk.1.drop (4 * i)).take 4).length = 4 := by
    rw [List.length_take, List.length_drop, chunk.2]
    omega
  exact be32_to_cpu_read machine hlen

/-! ## The rounds -/

/-- A round of the standard computes what `Round` does and shifts the variables. -/
theorem step_eq (k w a b c d e f g h : UInt32) :
    step k w ⟨a, b, c, d, e, f, g, h⟩ =
      ⟨(round a b c d e f g h k w).2, a, b, c, (round a b c d e f g h k w).1, e, f, g⟩ := by
  simp only [step, round, ch_eq, maj_eq, big_sigma0_eq, big_sigma1_eq]

/-- Sixteen words of a sequence. -/
def window (w : Nat → UInt32) (t : Nat) : Window :=
  ⟨w t, w (t + 1), w (t + 2), w (t + 3), w (t + 4), w (t + 5), w (t + 6), w (t + 7), w (t + 8),
    w (t + 9), w (t + 10), w (t + 11), w (t + 12), w (t + 13), w (t + 14), w (t + 15)⟩

/-- The first sixteen rounds leave the first sixteen words of the schedule. -/
theorem load_rounds_eq (machine : ByteOrder) (chunk : Block 64) (s : Chain) :
    loadRounds machine chunk s =
      (rounds constant (word chunk) 0 16 s, window (word chunk) 0) := by
  obtain ⟨a, b, c, d, e, f, g, h⟩ := s
  simp (disch := omega) only [loadRounds, chunk_word_eq, window, rounds, step_eq, Nat.reduceAdd]
  rfl

/-- Sixteen rounds with the constants behind the first `t + 16`. -/
def mixFrom (k : Nat → UInt32) (t : Nat) : Chain × Window → Chain × Window :=
  mixRounds (k (t + 16)) (k (t + 17)) (k (t + 18)) (k (t + 19)) (k (t + 20)) (k (t + 21))
    (k (t + 22)) (k (t + 23)) (k (t + 24)) (k (t + 25)) (k (t + 26)) (k (t + 27)) (k (t + 28))
    (k (t + 29)) (k (t + 30)) (k (t + 31))

/-- The other rounds move the window on by sixteen words. The words are those of a sequence with
the recurrence the code computes. -/
theorem mix_from_eq {k w : Nat → UInt32}
    (hw : ∀ i, w i + (sigma1 (w (i + 14)) + w (i + 9) + sigma0 (w (i + 1))) = w (i + 16))
    (t : Nat) (s : Chain) :
    mixFrom k t (s, window w t) = (rounds k w (t + 16) 16 s, window w (t + 16)) := by
  obtain ⟨a, b, c, d, e, f, g, h⟩ := s
  simp only [mixFrom, mixRounds, window, rounds, step_eq, hw, Nat.add_assoc, Nat.reduceAdd]

/-- Rounds can be run in two parts. -/
theorem rounds_add (k w : Nat → UInt32) (t m n : Nat) (s : Chain) :
    rounds k w t (m + n) s = rounds k w (t + m) n (rounds k w t m s) := by
  induction m generalizing t s with
  | zero => rw [Nat.zero_add, Nat.add_zero, rounds]
  | succ m ih =>
      rw [Nat.succ_add, rounds, ih, rounds, Nat.add_assoc t 1 m, Nat.add_comm 1 m]

/-- The first words of the schedule are those of the block. -/
theorem schedule_of_lt (b : Block 64) {t : Nat} (h : t < 16) : schedule b t = word b t := by
  rw [schedule, if_pos h]

/-- The recurrence of the schedule, in the order in which the code adds. -/
theorem schedule_add_sixteen (b : Block 64) (i : Nat) :
    schedule b i + (sigma1 (schedule b (i + 14)) + schedule b (i + 9) +
      sigma0 (schedule b (i + 1))) = schedule b (i + 16) := by
  rw [schedule.eq_def b (i + 16), if_neg (by omega), sigma0_eq, sigma1_eq, UInt32.add_comm]
  rfl

/-- Only the words the rounds reach matter. -/
theorem rounds_congr {k w w' : Nat → UInt32} {t n : Nat} (s : Chain)
    (h : ∀ i < t + n, w i = w' i) : rounds k w t n s = rounds k w' t n s := by
  induction n generalizing t s with
  | zero => rfl
  | succ n ih => rw [rounds, rounds, h t (by omega), ih _ fun i hi => h i (by omega)]

/-- The rounds are mixed in sixteen at a time. -/
theorem transform_mix_from (machine : ByteOrder) (s : Chain) (chunk : Block 64) :
    transform machine s chunk =
      s.add (mixFrom constant 32 (mixFrom constant 16 (mixFrom constant 0
        (loadRounds machine chunk s)))).1 :=
  rfl

/-- `Transform` is the compression function of the standard, on every machine. -/
theorem transform_eq (machine : ByteOrder) : transform machine = Standard.compress := by
  funext s chunk
  have hload : loadRounds machine chunk s =
      (rounds constant (schedule chunk) 0 16 s, window (schedule chunk) 0) := by
    rw [load_rounds_eq, rounds_congr s fun i hi => (schedule_of_lt chunk (by omega)).symm]
    simp (disch := omega) only [window, schedule_of_lt]
  have hmix := mix_from_eq (k := constant) (schedule_add_sixteen chunk)
  have hrounds : rounds constant (schedule chunk) 0 64 s = rounds constant (schedule chunk) 48 16
      (rounds constant (schedule chunk) 32 16 (rounds constant (schedule chunk) 16 16
        (rounds constant (schedule chunk) 0 16 s))) := by
    rw [← rounds_add _ _ 0 16 16, ← rounds_add _ _ 0 (16 + 16) 16,
      ← rounds_add _ _ 0 (16 + 16 + 16) 16]
  rw [transform_mix_from, hload, hmix, hmix, hmix, Standard.compress, hrounds]

-- the block of a message of three bytes, against its published digest
example : Standard.Chain.bytes (transform .little Standard.initial
      (Block.first 64 (ascii "abc" ++ Standard.padding 3))) =
    [0xba, 0x78, 0x16, 0xbf, 0x8f, 0x01, 0xcf, 0xea, 0x41, 0x41, 0x40, 0xde, 0x5d, 0xae, 0x22, 0x23,
      0xb0, 0x03, 0x61, 0xa3, 0x96, 0x17, 0x7a, 0x9c, 0xb4, 0x10, 0xff, 0x61, 0xf2, 0x00, 0x15,
      0xad] := by
  decide +kernel

end Gnostr.Sha256
