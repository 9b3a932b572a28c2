import Gnostr.Event.Commitment
import Gnostr.Wire.Action

/-!
# Keys and signatures

The calls of `gnostr.c` and `src/nostril/nostri.c` into libsecp256k1, SHA-256 and the system's
random numbers. The functions of these libraries are given (`Crypto`); a call that can fail
returns an option. Every call of `fill_random` has its own answer (`Random`), so a run of the
program is a function of its inputs. Contexts carry no state a result depends on and are left
out.

The work of a hash is the number of its leading zero bits, `include/proof.h`. It says how small the
number is that the hash stands for (`count_leading_zero_bits_threshold`).
-/

namespace Gnostr

open Wire

/-- The library functions the program calls, by what they compute. -/
structure Crypto where
  sha256 : Bytes → Block 32
  contextRandomize : Block 32 → Bool
  keypairCreate : Block 32 → Option (Block 96)
  keypairXonlyPub : Block 96 → Option (Block 64)
  xonlyPubkeySerialize : Block 64 → Option (Block 32)
  schnorrsigSign32 : Block 32 → Block 96 → Block 32 → Option (Block 64)
  ecSeckeyVerify : Block 32 → Bool
  ecPubkeyParse : Block 33 → Option (Block 64)
  /-- The two coordinates `secp256k1_ecdh` hands to its hash function. -/
  ecdh : Block 64 → Block 32 → Option (Block 32 × Block 32)

/-- What the calls of `fill_random` answer, by the buffer they fill. -/
structure Random where
  randomize : Option (Block 32)
  secret : Option (Block 32)
  iv : Option (Block 16)
  aux : Option (Block 32)

/-- `struct key`. -/
structure Key where
  pair : Block 96
  secret : Block 32
  pubkey : Block 32

/-- A loop without a bound, after some number of rounds. -/
inductive Loop (α : Type) where
  | running
  | done (result : α)

/-- `init_secp_context`. -/
def initSecpContext (c : Crypto) (random : Random) : Bool :=
  match random.randomize with
  | none => false
  | some randomize => c.contextRandomize randomize

/-- `create_key`. -/
def createKey (c : Crypto) (secret : Block 32) : Option Key := do
  let pair ← c.keypairCreate secret
  let pubkey ← c.keypairXonlyPub pair
  let pubkey ← c.xonlyPubkeySerialize pubkey
  some ⟨pair, secret, pubkey⟩

/-- A text that `hex_decode` accepts for a buffer fills the buffer. -/
theorem length_hex_decode {str : Bytes} {bufsize : Nat} (h : (hexDecode str bufsize).1 = true) :
    (hexDecode str bufsize).2.length = bufsize := by
  fun_induction hexDecode str bufsize <;> simp_all

/-- `hex_decode` into an array of `n` bytes. -/
def hexDecodeBlock (n : Nat) (str : CStr) : Option (Block n) :=
  if h : (hexDecode str.bytes n).1 = true then
    some ⟨(hexDecode str.bytes n).2, length_hex_decode h⟩
  else none

/-- `decode_key`. -/
def decodeKey (c : Crypto) (secstr : CStr) : Option Key := do
  let secret ← hexDecodeBlock 32 secstr
  createKey c secret

/-- `zero_bits`: the loop halves the byte until nothing is left of it. -/
def zeroBits (b : UInt8) : Nat :=
  if b = 0 then 8 else 7 - b.toNat.log2

/-- `count_leading_zero_bits`. -/
def countLeadingZeroBits : Bytes → Nat
  | [] => 0
  | b :: hash => if zeroBits b ≠ 8 then zeroBits b else 8 + countLeadingZeroBits hash

/-- `xor_mix`. -/
def xorMix {n : Nat} (a b : Block n) : Block n :=
  ⟨List.zipWith (· ^^^ ·) a.1 b.1, by simp [a.2, b.2]⟩

/-- The mining loop of `generate_key`. -/
def mineKey (c : Crypto) (difficulty : Int32) : Nat → Block 32 → Loop (Option Key)
  | 0, _ => .running
  | fuel + 1, secret =>
      match createKey c secret with
      | none => .done none
      | some key =>
          if difficulty.toInt ≤ countLeadingZeroBits key.pubkey.1 then .done (some key)
          else mineKey c difficulty fuel (xorMix key.secret key.pubkey)

/-- `generate_key`. -/
def generateKey (c : Crypto) (random : Random) (difficulty : Option Int32) (fuel : Nat) :
    Loop (Option Key) :=
  match random.secret with
  | none => .done none
  | some secret =>
      match difficulty with
      | none => .done (createKey c secret)
      | some difficulty => mineKey c difficulty fuel secret

/-- `make_sig`. -/
def makeSig (c : Crypto) (random : Random) (key : Key) (id : Block 32) : Option (Block 64) := do
  let aux ← random.aux
  c.schnorrsigSign32 id key.pair aux

/-- `sign_event`. -/
def signEvent (c : Crypto) (random : Random) (key : Key) (ev : NostrEvent) : Option NostrEvent := do
  let sig ← makeSig c random key ev.id
  some { ev with sig := sig }

/-- Signing sets the signature and nothing else. -/
theorem sign_event_some {c : Crypto} {random : Random} {key : Key} {ev ev' : NostrEvent}
    (h : signEvent c random key ev = some ev') :
    ∃ aux sig, random.aux = some aux ∧ c.schnorrsigSign32 ev.id key.pair aux = some sig ∧
      ev' = { ev with sig := sig } := by
  obtain ⟨sig, hsig, h⟩ := Option.bind_eq_some_iff.mp h
  obtain ⟨aux, haux, hsig⟩ := Option.bind_eq_some_iff.mp hsig
  exact ⟨aux, sig, haux, hsig, (Option.some.inj h).symm⟩

/-- Signing puts in the signature of the library. -/
theorem sign_event_eq {c : Crypto} {random : Random} {key : Key} {aux : Block 32} {sig : Block 64}
    (ev : NostrEvent) (haux : random.aux = some aux)
    (hsig : c.schnorrsigSign32 ev.id key.pair aux = some sig) :
    signEvent c random key ev = some { ev with sig := sig } := by
  simp [signEvent, makeSig, haux, hsig]

/-! ## A key and what the libraries answer for it -/

/-- The bytes of a hexadecimal literal, filled up with zeros. -/
def hexBlock (n : Nat) (s : String) : Block n :=
  Block.first n (hexDecode (ascii s) n).2

/-- An array of 64 bytes, from the literals of its halves. -/
def hexBlock64 (s t : String) : Block 64 :=
  (hexBlock 32 s).append (hexBlock 32 t)

/-- The secret key 3, its key pair, and its public key as the library keeps it and as it writes
it. -/
def sampleSecret : Block 32 :=
  hexBlock 32 "0000000000000000000000000000000000000000000000000000000000000003"

def samplePoint : Block 64 :=
  hexBlock64 "f936e0bc13f10186b0996f8345c831b529529df8854f344910c35892018a30f9"
    "72e6b88475fdb96c1b23c23499a9006556f3372ae637e30f14e82d630f7b8f38"

def samplePair : Block 96 :=
  sampleSecret.append samplePoint

def samplePubkey : Block 32 :=
  hexBlock 32 "f9308a019258c31049344f85f89d5229b531c845836f99b08601f113bce036f9"

/-- The text of a note by the sample key, from the texts of its time and its tags. -/
def sampleText (time tags : String) : Bytes :=
  ascii "[0,\"f9308a019258c31049344f85f89d5229b531c845836f99b08601f113bce036f9\"," ++
    (ascii time ++ (ascii ",1," ++ (ascii tags ++ ascii ",\"hello\"]")))

/-- SHA-256 on four such texts. -/
def sampleSha256 (t : Bytes) : Block 32 :=
  if t = sampleText "1688794190" "[]" then
    hexBlock 32 "7e5b2c762fa6f8e0a217429ae1e8d3084db7c73256165269f2e500fec23b75e3"
  else if t = sampleText "1688794190" "[[\"t\",\"x\"]]" then
    hexBlock 32 "c8beea07b801a83b7caf87fc9827f27de3e476f989f5a504dfb89f9380177bec"
  else if t = sampleText "100000000000000" "[]" then
    hexBlock 32 "fe1668a8aae92eaffdad05b68b07076a64507dca7d41cd8a6027f24a032ccbde"
  else if t = sampleText "1000000000000000" "[]" then
    hexBlock 32 "a128e7bbdbc9106b8aef4fe16984ef63f3cfcb984ad08b9b98c4aa9e5dd15f33"
  else .zeros 32

/-- The signatures of two of these texts, made with the sample key and zeros for `aux`. -/
def sampleSign (id : Block 32) (pair : Block 96) (aux : Block 32) : Option (Block 64) :=
  if pair ≠ samplePair ∨ aux.1 ≠ List.replicate 32 0 then none
  else if id = sampleSha256 (sampleText "1688794190" "[]") then
    some (hexBlock64 "8d32f17086407ca4012a0adf6073cbd016418ba77aa789970762af265fb7cced"
      "f9a6f6a7ad9653cb689ab1d02ab5ba44e37f9845d75486d6fbfff8b14cb1b456")
  else if id = sampleSha256 (sampleText "100000000000000" "[]") then
    some (hexBlock64 "cbed5a54c8648c2cfdce60ff45c5a9b8a15ea8e174398248b7e08ce58e80f847"
      "9864b25973e7a63a755ac8ffd1ee5cbccde6e44a8d1b0817db9cbf2ef2910054")
  else none

/-- The public key of the secret key 4, as the library keeps it. -/
def peerPoint : Block 64 :=
  hexBlock64 "13cdc4e8ab94fa748475e00e90136ccc04140b9304491e58f3800dc1f1db93e4"
    "22997347dc7be9cf40febdbf33ae67d94814a58e09e24256b755d4a03e99ed51"

def peerPubkey : Block 32 :=
  hexBlock 32 "e493dbf1c10d80f3581e4904930b1404cc6c13900ee0758474fa94abe8c4cd13"

/-- The libraries on the sample key. -/
def sampleCrypto : Crypto where
  sha256 := sampleSha256
  contextRandomize _ := true
  keypairCreate secret := if secret = sampleSecret then some samplePair else none
  keypairXonlyPub pair := if pair = samplePair then some samplePoint else none
  xonlyPubkeySerialize pubkey := if pubkey = samplePoint then some samplePubkey else none
  schnorrsigSign32 := sampleSign
  ecSeckeyVerify secret := secret = sampleSecret
  ecPubkeyParse input := if input.1 = 2 :: peerPubkey.1 then some peerPoint else none
  ecdh pubkey secret :=
    if pubkey = peerPoint ∧ secret = sampleSecret then
      some (hexBlock 32 "d01115d548e7561b15c38f004d734633687cf4419620095bc5b0f47070afe85a",
        hexBlock 32 "a9f34ffdc815e0d7a8b64537e17bd81579238c5dd9a86d526b051b13f4062327")
    else none

/-- Random numbers that are all zeros. -/
def sampleRandom : Random where
  randomize := some (.zeros 32)
  secret := some (.zeros 32)
  iv := some (.zeros 16)
  aux := some (.zeros 32)

/-- The sample key. -/
def sampleKey : Key :=
  ⟨samplePair, sampleSecret, samplePubkey⟩

/-- The sample key is that of its secret. -/
theorem create_sample_key : createKey sampleCrypto sampleSecret = some sampleKey := by
  simp [createKey, sampleCrypto, sampleKey]

/-! ## Work -/

/-- `while (b >>= 1) n++`. -/
def countShifts (b : UInt8) (n : Nat) : Nat :=
  if b >>> 1 = 0 then n else countShifts (b >>> 1) (n + 1)
termination_by b.toNat
decreasing_by
  have hhalf : (b >>> 1).toNat = b.toNat / 2 := by simp [Nat.shiftRight_eq_div_pow]
  have hne : b.toNat / 2 ≠ 0 := by
    intro hzero
    rw [← hhalf] at hzero
    exact absurd (UInt8.toNat_inj.mp hzero) ‹_›
  omega

/-- The shifts that are counted are the logarithm. -/
theorem count_shifts_eq (b : UInt8) (n : Nat) : countShifts b n = n + b.toNat.log2 := by
  fun_induction countShifts b n with
  | case1 b n hzero =>
      have hhalf : b.toNat / 2 = 0 := by
        simpa [Nat.shiftRight_eq_div_pow] using congrArg UInt8.toNat hzero
      rw [Nat.log2_def, if_neg (by omega), Nat.add_zero]
  | case2 b n hne ih =>
      have hhalf : (b >>> 1).toNat = b.toNat / 2 := by simp [Nat.shiftRight_eq_div_pow]
      have htwo : 2 ≤ b.toNat := by
        by_contra hlt
        refine hne (UInt8.toNat_inj.mp ?_)
        rw [hhalf]
        show b.toNat / 2 = 0
        omega
      rw [ih, hhalf, Nat.log2_def b.toNat, if_pos htwo]
      omega

/-- `zero_bits` with its loop. -/
theorem zero_bits_loop (b : UInt8) :
    zeroBits b = if b = 0 then 8 else 7 - countShifts b 0 := by
  rw [count_shifts_eq, Nat.zero_add, zeroBits]

/-- Only zero has eight leading zeros. -/
theorem zero_bits_eq_eight {b : UInt8} : zeroBits b = 8 ↔ b = 0 := by
  unfold zeroBits
  split
  · next h => exact iff_of_true rfl h
  · next h => exact iff_of_false (by omega) h

/-- The bits in front of the first one of a byte. -/
theorem le_zero_bits_iff {b : UInt8} (hb : b ≠ 0) {d : Nat} (hd : d ≤ 8) :
    d ≤ zeroBits b ↔ b.toNat < 2 ^ (8 - d) := by
  have hne : b.toNat ≠ 0 := fun h => hb (UInt8.toNat_inj.mp h)
  have hlog : b.toNat.log2 < 8 := (Nat.log2_lt hne).mpr b.toNat_lt
  rw [zeroBits, if_neg hb, ← Nat.log2_lt hne]
  omega

/-- No byte has more. -/
theorem zero_bits_le (b : UInt8) : zeroBits b ≤ 8 := by
  unfold zeroBits
  split <;> omega

/-- A hash has no more leading zeros than bits. -/
theorem count_leading_zero_bits_le (hash : Bytes) :
    countLeadingZeroBits hash ≤ 8 * hash.length := by
  induction hash with
  | nil => exact Nat.le_refl 0
  | cons b hash ih =>
      have hle := zero_bits_le b
      rw [countLeadingZeroBits, List.length_cons]
      split <;> omega

/-- A hash has `d` leading zero bits exactly if its number takes `d` bits less. -/
theorem le_count_leading_zero_bits_iff (hash : Bytes) {d : Nat} (hd : d ≤ 8 * hash.length) :
    d ≤ countLeadingZeroBits hash ↔ bigEndian hash < 2 ^ (8 * hash.length - d) := by
  induction hash generalizing d with
  | nil =>
      obtain rfl : d = 0 := by simpa using hd
      simp [countLeadingZeroBits, bigEndian]
  | cons b hash ih =>
      have hweight : (256 : Nat) ^ hash.length = 2 ^ (8 * hash.length) := by
        rw [pow_mul]
        norm_num
      rw [List.length_cons, Nat.mul_succ] at hd ⊢
      by_cases hsmall : d ≤ 8
      -- the threshold lies in the first byte
      · have hsplit : 2 ^ (8 * hash.length + 8 - d) = 256 ^ hash.length * 2 ^ (8 - d) := by
          rw [hweight, ← pow_add]
          congr 1
          omega
        rw [hsplit, big_endian_cons_lt_iff, countLeadingZeroBits]
        by_cases hb : b = 0
        · rw [if_neg (not_not.mpr (zero_bits_eq_eight.mpr hb)), hb]
          exact iff_of_true (by omega) (Nat.two_pow_pos _)
        · rw [if_pos (mt zero_bits_eq_eight.mp hb), le_zero_bits_iff hb hsmall]
      · rw [countLeadingZeroBits]
        by_cases hb : b = 0
        · have hshift : 8 * hash.length + 8 - d = 8 * hash.length - (d - 8) := by omega
          rw [if_neg (not_not.mpr (zero_bits_eq_eight.mpr hb)), big_endian_cons, hb,
            UInt8.toNat_zero, Nat.mul_zero, Nat.zero_add, hshift, ← ih (by omega)]
          omega
        · have hle := zero_bits_le b
          have hpos : ¬ b.toNat < 1 := fun h => hb (UInt8.toNat_inj.mp (Nat.lt_one_iff.mp h))
          rw [if_pos (mt zero_bits_eq_eight.mp hb)]
          refine iff_of_false (by omega) fun hlt => hpos ?_
          rw [← big_endian_cons_lt_iff b hash, Nat.mul_one, hweight]
          exact hlt.trans_le (Nat.pow_le_pow_right (by decide) (by omega))

/-- The leading zero bits of a hash are counted as the number the hash stands for has them: there
are at least `d` of them exactly if it is below `2 ^ (256 - d)`, and never more than 256. -/
theorem count_leading_zero_bits_threshold (hash : Block 32) (d : Nat) (hd : d ≤ 256) :
    (d ≤ countLeadingZeroBits hash.1 ↔ bigEndian hash.1 < 2 ^ (256 - d)) ∧
      countLeadingZeroBits hash.1 ≤ 256 ∧
      (countLeadingZeroBits hash.1 = 256 ↔ hash.1 = List.replicate 32 0) := by
  have hbits : 8 * hash.1.length = 256 := by rw [hash.2]
  have hle := count_leading_zero_bits_le hash.1
  rw [hbits] at hle
  have hiff : ∀ d ≤ 256,
      (d ≤ countLeadingZeroBits hash.1 ↔ bigEndian hash.1 < 2 ^ (256 - d)) := by
    intro d hd
    rw [le_count_leading_zero_bits_iff hash.1 (by omega), hbits]
  refine ⟨hiff d hd, hle, ?_⟩
  have hfull := hiff 256 (Nat.le_refl _)
  rw [Nat.sub_self, pow_zero, Nat.lt_one_iff, big_endian_eq_zero, hash.2] at hfull
  rw [← hfull]
  omega

/-- A hash with twelve leading zero bits. -/
theorem count_leading_zero_bits_threshold_twelve :
    12 ≤ countLeadingZeroBits (Block.first 32 [0, 15]).1 ∧
      bigEndian (Block.first 32 [0, 15]).1 < 2 ^ (256 - 12) := by
  have hcount : 12 ≤ countLeadingZeroBits (Block.first 32 [0, 15]).1 := by decide
  exact ⟨hcount,
    (count_leading_zero_bits_threshold (Block.first 32 [0, 15]) 12 (by decide)).1.mp hcount⟩

end Gnostr
