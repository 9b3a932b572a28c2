import Gnostr.Wire.BlockMode
import Gnostr.Wire.Gf256

/-!
# The block cipher

`aes.c`, with `include/aes.h`; `src/nostril` has the same file. A state is the sixteen bytes of a
block as four columns. The key size is chosen when the program is compiled: the header asks for
256 bits, and the other two sizes share all but the number of key words and rounds and one step of
the key expansion. Of the modes of operation the header enables only CBC.

The tables are those of the source. `inv_cipher_cipher` and `cipher_inv_cipher` say that `Cipher`
and `InvCipher` undo each other under every schedule of round keys.
-/

namespace Gnostr.Rijndael

open Wire

/-! ## Tables -/

/-- `sbox`. -/
def sboxTable : List UInt8 :=
  [0x63, 0x7c, 0x77, 0x7b, 0xf2, 0x6b, 0x6f, 0xc5, 0x30, 0x01, 0x67, 0x2b, 0xfe, 0xd7, 0xab, 0x76,
    0xca, 0x82, 0xc9, 0x7d, 0xfa, 0x59, 0x47, 0xf0, 0xad, 0xd4, 0xa2, 0xaf, 0x9c, 0xa4, 0x72, 0xc0,
    0xb7, 0xfd, 0x93, 0x26, 0x36, 0x3f, 0xf7, 0xcc, 0x34, 0xa5, 0xe5, 0xf1, 0x71, 0xd8, 0x31, 0x15,
    0x04, 0xc7, 0x23, 0xc3, 0x18, 0x96, 0x05, 0x9a, 0x07, 0x12, 0x80, 0xe2, 0xeb, 0x27, 0xb2, 0x75,
    0x09, 0x83, 0x2c, 0x1a, 0x1b, 0x6e, 0x5a, 0xa0, 0x52, 0x3b, 0xd6, 0xb3, 0x29, 0xe3, 0x2f, 0x84,
    0x53, 0xd1, 0x00, 0xed, 0x20, 0xfc, 0xb1, 0x5b, 0x6a, 0xcb, 0xbe, 0x39, 0x4a, 0x4c, 0x58, 0xcf,
    0xd0, 0xef, 0xaa, 0xfb, 0x43, 0x4d, 0x33, 0x85, 0x45, 0xf9, 0x02, 0x7f, 0x50, 0x3c, 0x9f, 0xa8,
    0x51, 0xa3, 0x40, 0x8f, 0x92, 0x9d, 0x38, 0xf5, 0xbc, 0xb6, 0xda, 0x21, 0x10, 0xff, 0xf3, 0xd2,
    0xcd, 0x0c, 0x13, 0xec, 0x5f, 0x97, 0x44, 0x17, 0xc4, 0xa7, 0x7e, 0x3d, 0x64, 0x5d, 0x19, 0x73,
    0x60, 0x81, 0x4f, 0xdc, 0x22, 0x2a, 0x90, 0x88, 0x46, 0xee, 0xb8, 0x14, 0xde, 0x5e, 0x0b, 0xdb,
    0xe0, 0x32, 0x3a, 0x0a, 0x49, 0x06, 0x24, 0x5c, 0xc2, 0xd3, 0xac, 0x62, 0x91, 0x95, 0xe4, 0x79,
    0xe7, 0xc8, 0x37, 0x6d, 0x8d, 0xd5, 0x4e, 0xa9, 0x6c, 0x56, 0xf4, 0xea, 0x65, 0x7a, 0xae, 0x08,
    0xba, 0x78, 0x25, 0x2e, 0x1c, 0xa6, 0xb4, 0xc6, 0xe8, 0xdd, 0x74, 0x1f, 0x4b, 0xbd, 0x8b, 0x8a,
    0x70, 0x3e, 0xb5, 0x66, 0x48, 0x03, 0xf6, 0x0e, 0x61, 0x35, 0x57, 0xb9, 0x86, 0xc1, 0x1d, 0x9e,
    0xe1, 0xf8, 0x98, 0x11, 0x69, 0xd9, 0x8e, 0x94, 0x9b, 0x1e, 0x87, 0xe9, 0xce, 0x55, 0x28, 0xdf,
    0x8c, 0xa1, 0x89, 0x0d, 0xbf, 0xe6, 0x42, 0x68, 0x41, 0x99, 0x2d, 0x0f, 0xb0, 0x54, 0xbb, 0x16]

/-- `rsbox`. -/
def rsboxTable : List UInt8 :=
  [0x52, 0x09, 0x6a, 0xd5, 0x30, 0x36, 0xa5, 0x38, 0xbf, 0x40, 0xa3, 0x9e, 0x81, 0xf3, 0xd7, 0xfb,
    0x7c, 0xe3, 0x39, 0x82, 0x9b, 0x2f, 0xff, 0x87, 0x34, 0x8e, 0x43, 0x44, 0xc4, 0xde, 0xe9, 0xcb,
    0x54, 0x7b, 0x94, 0x32, 0xa6, 0xc2, 0x23, 0x3d, 0xee, 0x4c, 0x95, 0x0b, 0x42, 0xfa, 0xc3, 0x4e,
    0x08, 0x2e, 0xa1, 0x66, 0x28, 0xd9, 0x24, 0xb2, 0x76, 0x5b, 0xa2, 0x49, 0x6d, 0x8b, 0xd1, 0x25,
    0x72, 0xf8, 0xf6, 0x64, 0x86, 0x68, 0x98, 0x16, 0xd4, 0xa4, 0x5c, 0xcc, 0x5d, 0x65, 0xb6, 0x92,
    0x6c, 0x70, 0x48, 0x50, 0xfd, 0xed, 0xb9, 0xda, 0x5e, 0x15, 0x46, 0x57, 0xa7, 0x8d, 0x9d, 0x84,
    0x90, 0xd8, 0xab, 0x00, 0x8c, 0xbc, 0xd3, 0x0a, 0xf7, 0xe4, 0x58, 0x05, 0xb8, 0xb3, 0x45, 0x06,
    0xd0, 0x2c, 0x1e, 0x8f, 0xca, 0x3f, 0x0f, 0x02, 0xc1, 0xaf, 0xbd, 0x03, 0x01, 0x13, 0x8a, 0x6b,
    0x3a, 0x91, 0x11, 0x41, 0x4f, 0x67, 0xdc, 0xea, 0x97, 0xf2, 0xcf, 0xce, 0xf0, 0xb4, 0xe6, 0x73,
    0x96, 0xac, 0x74, 0x22, 0xe7, 0xad, 0x35, 0x85, 0xe2, 0xf9, 0x37, 0xe8, 0x1c, 0x75, 0xdf, 0x6e,
    0x47, 0xf1, 0x1a, 0x71, 0x1d, 0x29, 0xc5, 0x89, 0x6f, 0xb7, 0x62, 0x0e, 0xaa, 0x18, 0xbe, 0x1b,
    0xfc, 0x56, 0x3e, 0x4b, 0xc6, 0xd2, 0x79, 0x20, 0x9a, 0xdb, 0xc0, 0xfe, 0x78, 0xcd, 0x5a, 0xf4,
    0x1f, 0xdd, 0xa8, 0x33, 0x88, 0x07, 0xc7, 0x31, 0xb1, 0x12, 0x10, 0x59, 0x27, 0x80, 0xec, 0x5f,
    0x60, 0x51, 0x7f, 0xa9, 0x19, 0xb5, 0x4a, 0x0d, 0x2d, 0xe5, 0x7a, 0x9f, 0x93, 0xc9, 0x9c, 0xef,
    0xa0, 0xe0, 0x3b, 0x4d, 0xae, 0x2a, 0xf5, 0xb0, 0xc8, 0xeb, 0xbb, 0x3c, 0x83, 0x53, 0x99, 0x61,
    0x17, 0x2b, 0x04, 0x7e, 0xba, 0x77, 0xd6, 0x26, 0xe1, 0x69, 0x14, 0x63, 0x55, 0x21, 0x0c, 0x7d]

/-- `Rcon`. -/
def rconTable : List UInt8 :=
  [0x8d, 0x01, 0x02, 0x04, 0x08, 0x10, 0x20, 0x40, 0x80, 0x1b, 0x36]

/-- `getSBoxValue`. -/
def getSBoxValue (num : UInt8) : UInt8 :=
  sboxTable.getD num.toNat 0

/-- `getSBoxInvert`. -/
def getSBoxInvert (num : UInt8) : UInt8 :=
  rsboxTable.getD num.toNat 0

/-! ## The state -/

/-- Four bytes: a column of a state, or a word of a key. -/
structure Word where
  b0 : UInt8
  b1 : UInt8
  b2 : UInt8
  b3 : UInt8
  deriving DecidableEq

/-- `state_t`: `(*state)[i][j]` is byte `j` of column `i`. -/
structure State where
  c0 : Word
  c1 : Word
  c2 : Word
  c3 : Word
  deriving DecidableEq

namespace Word

/-- Apply a function to every byte. -/
def map (f : UInt8 → UInt8) (w : Word) : Word :=
  ⟨f w.b0, f w.b1, f w.b2, f w.b3⟩

/-- Mix two words byte by byte. -/
def xor (v w : Word) : Word :=
  ⟨v.b0 ^^^ w.b0, v.b1 ^^^ w.b1, v.b2 ^^^ w.b2, v.b3 ^^^ w.b3⟩

/-- The four bytes. -/
def bytes (w : Word) : Bytes :=
  [w.b0, w.b1, w.b2, w.b3]

end Word

/-- Apply a function to every column. -/
def State.map (f : Word → Word) (s : State) : State :=
  ⟨f s.c0, f s.c1, f s.c2, f s.c3⟩

/-! ## Key expansion -/

/-- The sizes of a key. -/
inductive KeySize where
  | aes128
  | aes192
  | aes256
  deriving DecidableEq

/-- `Nk`, the number of words of a key. -/
def KeySize.nk : KeySize → Nat
  | aes128 => 4
  | aes192 => 6
  | aes256 => 8

/-- `Nr`, the number of rounds. -/
def KeySize.nr : KeySize → Nat
  | aes128 => 10
  | aes192 => 12
  | aes256 => 14

/-- Word `i` of a buffer. -/
def wordAt (buf : Bytes) (i : Nat) : Word :=
  ⟨buf.getD (i * 4 + 0) 0, buf.getD (i * 4 + 1) 0, buf.getD (i * 4 + 2) 0, buf.getD (i * 4 + 3) 0⟩

/-- `RotWord`. -/
def rotWord (tempa : Word) : Word :=
  ⟨tempa.b1, tempa.b2, tempa.b3, tempa.b0⟩

/-- `SubWord`. -/
def subWord (tempa : Word) : Word :=
  tempa.map getSBoxValue

/-- What the loop of `KeyExpansion` does to the word before word `i`. -/
def expandTemp (size : KeySize) (i : Nat) (tempa : Word) : Word :=
  let tempa :=
    if i % size.nk = 0 then
      let tempa := subWord (rotWord tempa)
      { tempa with b0 := tempa.b0 ^^^ rconTable.getD (i / size.nk) 0 }
    else tempa
  if size = .aes256 ∧ i % size.nk = 4 then subWord tempa else tempa

/-- The loop of `KeyExpansion`, from word `i` on. The words are written one after the other, so
what is written is what `RoundKey` holds so far. -/
def expandLoop (size : KeySize) : Nat → Nat → Bytes → Bytes
  | 0, _, roundKey => roundKey
  | n + 1, i, roundKey =>
      let tempa := expandTemp size i (wordAt roundKey (i - 1))
      expandLoop size n (i + 1) (roundKey ++ ((wordAt roundKey (i - size.nk)).xor tempa).bytes)

/-- `KeyExpansion`. -/
def keyExpansion (size : KeySize) (key : Block (4 * size.nk)) : Bytes :=
  expandLoop size (4 * (size.nr + 1) - size.nk) size.nk key.1

/-! ## The steps of a round -/

/-- `AddRoundKey`. -/
def addRoundKey (round : Nat) (roundKey : Bytes) (s : State) : State :=
  ⟨s.c0.xor (wordAt roundKey (round * 4 + 0)), s.c1.xor (wordAt roundKey (round * 4 + 1)),
    s.c2.xor (wordAt roundKey (round * 4 + 2)), s.c3.xor (wordAt roundKey (round * 4 + 3))⟩

/-- `SubBytes`. -/
def subBytes (s : State) : State :=
  s.map (Word.map getSBoxValue)

/-- `InvSubBytes`. -/
def invSubBytes (s : State) : State :=
  s.map (Word.map getSBoxInvert)

/-- `ShiftRows`. -/
def shiftRows (s : State) : State :=
  ⟨⟨s.c0.b0, s.c1.b1, s.c2.b2, s.c3.b3⟩, ⟨s.c1.b0, s.c2.b1, s.c3.b2, s.c0.b3⟩,
    ⟨s.c2.b0, s.c3.b1, s.c0.b2, s.c1.b3⟩, ⟨s.c3.b0, s.c0.b1, s.c1.b2, s.c2.b3⟩⟩

/-- `InvShiftRows`. -/
def invShiftRows (s : State) : State :=
  ⟨⟨s.c0.b0, s.c3.b1, s.c2.b2, s.c1.b3⟩, ⟨s.c1.b0, s.c0.b1, s.c3.b2, s.c2.b3⟩,
    ⟨s.c2.b0, s.c1.b1, s.c0.b2, s.c3.b3⟩, ⟨s.c3.b0, s.c2.b1, s.c1.b2, s.c0.b3⟩⟩

/-- `xtime`. -/
def xtime (x : UInt8) : UInt8 :=
  (x <<< 1) ^^^ (((x >>> 7) &&& 1) * 0x1b)

/-- The body of the loop of `MixColumns`. -/
def mixColumn (c : Word) : Word :=
  let t := c.b0
  let tmp := c.b0 ^^^ c.b1 ^^^ c.b2 ^^^ c.b3
  let b0 := c.b0 ^^^ (xtime (c.b0 ^^^ c.b1) ^^^ tmp)
  let b1 := c.b1 ^^^ (xtime (c.b1 ^^^ c.b2) ^^^ tmp)
  let b2 := c.b2 ^^^ (xtime (c.b2 ^^^ c.b3) ^^^ tmp)
  let b3 := c.b3 ^^^ (xtime (c.b3 ^^^ t) ^^^ tmp)
  ⟨b0, b1, b2, b3⟩

/-- `MixColumns`. -/
def mixColumns (s : State) : State :=
  s.map mixColumn

/-- `Multiply`. -/
def multiply (x y : UInt8) : UInt8 :=
  let bit (i : UInt8) : UInt8 := (y >>> i) &&& 1
  (bit 0 * x) ^^^ (bit 1 * xtime x) ^^^ (bit 2 * xtime (xtime x)) ^^^
    (bit 3 * xtime (xtime (xtime x))) ^^^ (bit 4 * xtime (xtime (xtime (xtime x))))

/-- The body of the loop of `InvMixColumns`. -/
def invMixColumn (col : Word) : Word :=
  let ⟨a, b, c, d⟩ := col
  ⟨multiply a 0x0e ^^^ multiply b 0x0b ^^^ multiply c 0x0d ^^^ multiply d 0x09,
    multiply a 0x09 ^^^ multiply b 0x0e ^^^ multiply c 0x0b ^^^ multiply d 0x0d,
    multiply a 0x0d ^^^ multiply b 0x09 ^^^ multiply c 0x0e ^^^ multiply d 0x0b,
    multiply a 0x0b ^^^ multiply b 0x0d ^^^ multiply c 0x09 ^^^ multiply d 0x0e⟩

/-- `InvMixColumns`. -/
def invMixColumns (s : State) : State :=
  s.map invMixColumn

/-! ## The cipher -/

/-- The loop of `Cipher`, from a round on; `n` rounds are left after it. -/
def cipherRounds (roundKey : Bytes) : Nat → Nat → State → State
  | 0, _, s => shiftRows (subBytes s)
  | n + 1, round, s =>
      cipherRounds roundKey n (round + 1)
        (addRoundKey round roundKey (mixColumns (shiftRows (subBytes s))))

/-- `Cipher`. -/
def cipher (size : KeySize) (roundKey : Bytes) (s : State) : State :=
  addRoundKey size.nr roundKey
    (cipherRounds roundKey (size.nr - 1) 1 (addRoundKey 0 roundKey s))

/-- The loop of `InvCipher`, from a round down to the first. -/
def invCipherRounds (roundKey : Bytes) : Nat → State → State
  | 0, s => addRoundKey 0 roundKey (invSubBytes (invShiftRows s))
  | round + 1, s =>
      invCipherRounds roundKey round
        (invMixColumns (addRoundKey (round + 1) roundKey (invSubBytes (invShiftRows s))))

/-- `InvCipher`. -/
def invCipher (size : KeySize) (roundKey : Bytes) (s : State) : State :=
  invCipherRounds roundKey (size.nr - 1) (addRoundKey size.nr roundKey s)

/-! ## Maps that keep sums -/

/-- The single bits of a column. -/
def singleWords : List Word :=
  singleBits.flatMap fun m => [⟨m, 0, 0, 0⟩, ⟨0, m, 0, 0⟩, ⟨0, 0, m, 0⟩, ⟨0, 0, 0, m⟩]

/-- A map of columns that keeps sums. -/
def Additive (f : Word → Word) : Prop :=
  ∀ v w, f (v.xor w) = (f v).xor (f w)

/-- A word and itself add up to zero. -/
theorem Word.xor_self (w : Word) : w.xor w = ⟨0, 0, 0, 0⟩ := by
  simp [Word.xor]

/-- An additive function keeps zero. -/
theorem Additive.map_zero {f : Word → Word} (hf : Additive f) : f ⟨0, 0, 0, 0⟩ = ⟨0, 0, 0, 0⟩ := by
  have hsum := hf ⟨0, 0, 0, 0⟩ ⟨0, 0, 0, 0⟩
  rwa [Word.xor_self, Word.xor_self] at hsum

/-- Additive functions compose. -/
theorem Additive.comp {f g : Word → Word} (hf : Additive f) (hg : Additive g) :
    Additive fun w => f (g w) := fun v w => by
  show f (g (v.xor w)) = _
  rw [hg, hf]

/-- Two such maps that agree on single bits in one place agree on every byte there. -/
theorem Additive.eq_of_place {f g : Word → Word} (hf : Additive f) (hg : Additive g)
    (place : UInt8 → Word) (hzero : place 0 = ⟨0, 0, 0, 0⟩)
    (hplace : ∀ x y, place (x ^^^ y) = (place x).xor (place y))
    (h : ∀ m ∈ singleBits, f (place m) = g (place m)) (x : UInt8) :
    f (place x) = g (place x) := by
  induction x using octet_induction with
  | zero => rw [hzero, hf.map_zero, hg.map_zero]
  | xor x y ihx ihy => rw [hplace, hf, hg, ihx, ihy]
  | bit m hm => exact h m hm

/-- Two maps that keep sums and agree on single bits are equal. -/
theorem Additive.eq_of_bits {f g : Word → Word} (hf : Additive f) (hg : Additive g)
    (h : ∀ w ∈ singleWords, f w = g w) (w : Word) : f w = g w := by
  have hmem (m : UInt8) (hm : m ∈ singleBits) (v : Word)
      (hv : v ∈ [(⟨m, 0, 0, 0⟩ : Word), ⟨0, m, 0, 0⟩, ⟨0, 0, m, 0⟩, ⟨0, 0, 0, m⟩]) : f v = g v :=
    h v (List.mem_flatMap.mpr ⟨m, hm, hv⟩)
  have h0 := hf.eq_of_place hg (fun x => ⟨x, 0, 0, 0⟩) rfl (by simp [Word.xor])
    (fun m hm => hmem m hm _ (by simp)) w.b0
  have h1 := hf.eq_of_place hg (fun x => ⟨0, x, 0, 0⟩) rfl (by simp [Word.xor])
    (fun m hm => hmem m hm _ (by simp)) w.b1
  have h2 := hf.eq_of_place hg (fun x => ⟨0, 0, x, 0⟩) rfl (by simp [Word.xor])
    (fun m hm => hmem m hm _ (by simp)) w.b2
  have h3 := hf.eq_of_place hg (fun x => ⟨0, 0, 0, x⟩) rfl (by simp [Word.xor])
    (fun m hm => hmem m hm _ (by simp)) w.b3
  have hsplit : w = ((Word.xor ⟨w.b0, 0, 0, 0⟩ ⟨0, w.b1, 0, 0⟩).xor ⟨0, 0, w.b2, 0⟩).xor
      ⟨0, 0, 0, w.b3⟩ := by simp [Word.xor]
  rw [hsplit, hf, hf, hf, hg, hg, hg, h0, h1, h2, h3]

/-! ## The steps and their inverses -/

/-- `xtime` multiplies by `x`. -/
theorem xtime_eq : ∀ x, xtime x = timesX x := by
  decide +kernel

/-- It is additive. -/
theorem xtime_xor (x y : UInt8) : xtime (x ^^^ y) = xtime x ^^^ xtime y := by
  simp only [xtime_eq, times_x_xor]

/-- So is multiplication by a constant. -/
theorem multiply_xor (x y k : UInt8) : multiply (x ^^^ y) k = multiply x k ^^^ multiply y k := by
  have hbit : ∀ b : UInt8, b &&& 1 = 0 ∨ b &&& 1 = 1 := and_single_bit 1 (by decide)
  have hmul (b u v : UInt8) : (b &&& 1) * (u ^^^ v) = (b &&& 1) * u ^^^ (b &&& 1) * v := by
    rcases hbit b with h | h
    · simp [h]
    · simp [h]
  simp only [multiply, xtime_xor, hmul]
  ac_rfl

/-- Mixing a column is additive. -/
theorem additive_mix_column : Additive mixColumn := fun v w => by
  simp only [mixColumn, Word.xor, xtime_xor, Word.mk.injEq]
  refine ⟨?_, ?_, ?_, ?_⟩ <;> ac_rfl

/-- So is its inverse. -/
theorem additive_inv_mix_column : Additive invMixColumn := fun v w => by
  simp only [invMixColumn, Word.xor, multiply_xor, Word.mk.injEq]
  refine ⟨?_, ?_, ?_, ?_⟩ <;> ac_rfl

/-- Unmixing a mixed column: both maps keep sums, and single bits come back. -/
theorem inv_mix_column_mix_column (w : Word) : invMixColumn (mixColumn w) = w :=
  (additive_inv_mix_column.comp additive_mix_column).eq_of_bits (g := id) (fun _ _ => rfl)
    (by decide +kernel) w

/-- Mixing undoes the inverse as well. -/
theorem mix_column_inv_mix_column (w : Word) : mixColumn (invMixColumn w) = w :=
  (additive_mix_column.comp additive_inv_mix_column).eq_of_bits (g := id) (fun _ _ => rfl)
    (by decide +kernel) w

/-- The table has an entry for every byte. -/
theorem length_sbox_table : sboxTable.length = 256 := by
  decide +kernel

/-- What holds of the entries of a table holds of what is looked up. -/
theorem forall_get_s_box_value {P : UInt8 → UInt8 → Prop}
    (h : ∀ p ∈ sboxTable.zipIdx, P (UInt8.ofNat p.2) p.1) (a : UInt8) : P a (getSBoxValue a) := by
  have hlen : a.toNat < sboxTable.length := by
    rw [length_sbox_table]
    exact a.toNat_lt
  have hentry := h (sboxTable[a.toNat], a.toNat)
    (List.mem_zipIdx_iff_getElem?.mpr (List.getElem?_eq_getElem hlen))
  rw [getSBoxValue, List.getD_eq_getElem?_getD, List.getElem?_eq_getElem hlen, Option.getD_some]
  simpa using hentry

/-- The tables undo each other. -/
theorem get_s_box_invert_value (a : UInt8) : getSBoxInvert (getSBoxValue a) = a :=
  forall_get_s_box_value (P := fun a b => getSBoxInvert b = a) (by decide +kernel) a

/-- The two tables are inverse to each other. -/
theorem get_s_box_value_invert (b : UInt8) : getSBoxValue (getSBoxInvert b) = b := by
  have hinj : Function.Injective getSBoxValue :=
    Function.LeftInverse.injective get_s_box_invert_value
  obtain ⟨a, rfl⟩ := Finite.injective_iff_surjective.mp hinj b
  rw [get_s_box_invert_value]

/-- Substitution is undone. -/
@[simp] theorem inv_sub_bytes_sub_bytes (s : State) : invSubBytes (subBytes s) = s := by
  simp [invSubBytes, subBytes, State.map, Word.map, get_s_box_invert_value]

/-- And undoes its inverse. -/
@[simp] theorem sub_bytes_inv_sub_bytes (s : State) : subBytes (invSubBytes s) = s := by
  simp [invSubBytes, subBytes, State.map, Word.map, get_s_box_value_invert]

/-- Shifting rows is undone. -/
@[simp] theorem inv_shift_rows_shift_rows (s : State) : invShiftRows (shiftRows s) = s := rfl

/-- And undoes its inverse. -/
@[simp] theorem shift_rows_inv_shift_rows (s : State) : shiftRows (invShiftRows s) = s := rfl

/-- Mixing all columns is undone. -/
@[simp] theorem inv_mix_columns_mix_columns (s : State) : invMixColumns (mixColumns s) = s := by
  simp [invMixColumns, mixColumns, State.map, inv_mix_column_mix_column]

/-- And undoes its inverse. -/
@[simp] theorem mix_columns_inv_mix_columns (s : State) : mixColumns (invMixColumns s) = s := by
  simp [invMixColumns, mixColumns, State.map, mix_column_inv_mix_column]

/-- Adding a round key twice changes nothing. -/
@[simp] theorem add_round_key_twice (round : Nat) (roundKey : Bytes) (s : State) :
    addRoundKey round roundKey (addRoundKey round roundKey s) = s := by
  simp [addRoundKey, Word.xor]

/-! ## The cipher and its inverse -/

/-- The rounds of `InvCipher` continue with what is left of the rounds of `Cipher` undone: before
round `round` of `n + 1` remaining ones, the last `n` of them are taken back first. -/
theorem inv_cipher_rounds_cipher_rounds (roundKey : Bytes) (n round : Nat) (s : State) :
    invCipherRounds roundKey (n + round)
        (cipherRounds roundKey n (round + 1) (addRoundKey round roundKey s)) =
      invCipherRounds roundKey round (shiftRows (subBytes (addRoundKey round roundKey s))) := by
  induction n generalizing round s with
  | zero => rw [Nat.zero_add, cipherRounds]
  | succ n ih =>
      have hround : n + 1 + round = n + (round + 1) := by omega
      rw [hround, cipherRounds, ih, invCipherRounds]
      simp

/-- `InvCipher` takes back `Cipher`. -/
theorem inv_cipher_cipher (size : KeySize) (roundKey : Bytes) (s : State) :
    invCipher size roundKey (cipher size roundKey s) = s := by
  have hrounds := inv_cipher_rounds_cipher_rounds roundKey (size.nr - 1) 0 s
  rw [Nat.add_zero, Nat.zero_add] at hrounds
  rw [invCipher, cipher, add_round_key_twice, hrounds, invCipherRounds]
  simp

/-- The rounds of `Cipher` take back the rounds of `InvCipher` from the last one on. -/
theorem cipher_rounds_inv_cipher_rounds (roundKey : Bytes) (round n : Nat) (s : State) :
    cipherRounds roundKey (round + n) 1
        (addRoundKey 0 roundKey (invCipherRounds roundKey round s)) =
      cipherRounds roundKey n (round + 1) (invSubBytes (invShiftRows s)) := by
  induction round generalizing n s with
  | zero => rw [Nat.zero_add, invCipherRounds, add_round_key_twice]
  | succ round ih =>
      have hround : round + 1 + n = round + (n + 1) := by omega
      rw [hround, invCipherRounds, ih, cipherRounds]
      simp

/-- `Cipher` takes back `InvCipher`. -/
theorem cipher_inv_cipher (size : KeySize) (roundKey : Bytes) (s : State) :
    cipher size roundKey (invCipher size roundKey s) = s := by
  have hrounds := cipher_rounds_inv_cipher_rounds roundKey (size.nr - 1) 0
    (addRoundKey size.nr roundKey s)
  rw [Nat.add_zero] at hrounds
  rw [invCipher, cipher, hrounds, cipherRounds]
  simp

end Gnostr.Rijndael
