import Gnostr.Codec.Endian
import Gnostr.Wire.Digest

/-!
# SHA-256

`sha256.c`, with `include/sha256.h`; `src/nostril` has the same file. A context holds the eight
words of the chain, a buffer for what does not fill a block and the number of bytes taken.
`add` fills the buffer first, then takes blocks from where they lie, or through the buffer when
the machine cannot read words there, and keeps the rest. `sha256_done` sends the padding and the
length through `add` and makes the context unusable.

Objects carry their address, since the alignment decides which way a block takes. A failed
assertion and a write outside the buffer end a call.
-/

namespace Gnostr.Sha256

open Wire

/-! ## One block -/

/-- Eight words: `s` of a context, or the variables `a` to `h` of `Transform`. -/
structure Chain where
  a : UInt32
  b : UInt32
  c : UInt32
  d : UInt32
  e : UInt32
  f : UInt32
  g : UInt32
  h : UInt32
  deriving DecidableEq

/-- The variables `w0` to `w15` of `Transform`. -/
structure Window where
  w0 : UInt32
  w1 : UInt32
  w2 : UInt32
  w3 : UInt32
  w4 : UInt32
  w5 : UInt32
  w6 : UInt32
  w7 : UInt32
  w8 : UInt32
  w9 : UInt32
  w10 : UInt32
  w11 : UInt32
  w12 : UInt32
  w13 : UInt32
  w14 : UInt32
  w15 : UInt32

/-- `Ch`. -/
def ch (x y z : UInt32) : UInt32 :=
  z ^^^ (x &&& (y ^^^ z))

/-- `Maj`. -/
def maj (x y z : UInt32) : UInt32 :=
  (x &&& y) ||| (z &&& (x ||| y))

/-- `Sigma0`. -/
def bigSigma0 (x : UInt32) : UInt32 :=
  (x >>> 2 ||| x <<< 30) ^^^ (x >>> 13 ||| x <<< 19) ^^^ (x >>> 22 ||| x <<< 10)

/-- `Sigma1`. -/
def bigSigma1 (x : UInt32) : UInt32 :=
  (x >>> 6 ||| x <<< 26) ^^^ (x >>> 11 ||| x <<< 21) ^^^ (x >>> 25 ||| x <<< 7)

/-- `sigma0`. -/
def sigma0 (x : UInt32) : UInt32 :=
  (x >>> 7 ||| x <<< 25) ^^^ (x >>> 18 ||| x <<< 14) ^^^ (x >>> 3)

/-- `sigma1`. -/
def sigma1 (x : UInt32) : UInt32 :=
  (x >>> 17 ||| x <<< 15) ^^^ (x >>> 19 ||| x <<< 13) ^^^ (x >>> 10)

/-- `Round`, with the new values of `*d` and `*h`. -/
def round (a b c d e f g h k w : UInt32) : UInt32 × UInt32 :=
  let t1 := h + bigSigma1 e + ch e f g + k + w
  let t2 := bigSigma0 a + maj a b c
  (d + t1, t1 + t2)

/-- `be32_to_cpu(chunk[i])`. -/
def chunkWord (machine : ByteOrder) (chunk : Block 64) (i : Nat) : UInt32 :=
  be32ToCpu machine (UInt32.ofNat (machine.read ((chunk.1.drop (4 * i)).take 4)))

/-- The sixteen rounds of `Transform` that load the chunk. -/
def loadRounds (machine : ByteOrder) (chunk : Block 64) (s : Chain) : Chain × Window :=
  let ⟨a, b, c, d, e, f, g, h⟩ := s
  let w0 := chunkWord machine chunk 0
  let (d, h) := round a b c d e f g h 0x428a2f98 w0
  let w1 := chunkWord machine chunk 1
  let (c, g) := round h a b c d e f g 0x71374491 w1
  let w2 := chunkWord machine chunk 2
  let (b, f) := round g h a b c d e f 0xb5c0fbcf w2
  let w3 := chunkWord machine chunk 3
  let (a, e) := round f g h a b c d e 0xe9b5dba5 w3
  let w4 := chunkWord machine chunk 4
  let (h, d) := round e f g h a b c d 0x3956c25b w4
  let w5 := chunkWord machine chunk 5
  let (g, c) := round d e f g h a b c 0x59f111f1 w5
  let w6 := chunkWord machine chunk 6
  let (f, b) := round c d e f g h a b 0x923f82a4 w6
  let w7 := chunkWord machine chunk 7
  let (e, a) := round b c d e f g h a 0xab1c5ed5 w7
  let w8 := chunkWord machine chunk 8
  let (d, h) := round a b c d e f g h 0xd807aa98 w8
  let w9 := chunkWord machine chunk 9
  let (c, g) := round h a b c d e f g 0x12835b01 w9
  let w10 := chunkWord machine chunk 10
  let (b, f) := round g h a b c d e f 0x243185be w10
  let w11 := chunkWord machine chunk 11
  let (a, e) := round f g h a b c d e 0x550c7dc3 w11
  let w12 := chunkWord machine chunk 12
  let (h, d) := round e f g h a b c d 0x72be5d74 w12
  let w13 := chunkWord machine chunk 13
  let (g, c) := round d e f g h a b c 0x80deb1fe w13
  let w14 := chunkWord machine chunk 14
  let (f, b) := round c d e f g h a b 0x9bdc06a7 w14
  let w15 := chunkWord machine chunk 15
  let (e, a) := round b c d e f g h a 0xc19bf174 w15
  (⟨a, b, c, d, e, f, g, h⟩,
    ⟨w0, w1, w2, w3, w4, w5, w6, w7, w8, w9, w10, w11, w12, w13, w14, w15⟩)

/-- Sixteen rounds of `Transform` that extend the window, by their constants. Of the last sixteen
the final two compute the new word without storing it; nothing reads it after them. -/
def mixRounds (k0 k1 k2 k3 k4 k5 k6 k7 k8 k9 k10 k11 k12 k13 k14 k15 : UInt32) :
    Chain × Window → Chain × Window
  | (⟨a, b, c, d, e, f, g, h⟩,
      ⟨w0, w1, w2, w3, w4, w5, w6, w7, w8, w9, w10, w11, w12, w13, w14, w15⟩) =>
      let w0 := w0 + (sigma1 w14 + w9 + sigma0 w1)
      let (d, h) := round a b c d e f g h k0 w0
      let w1 := w1 + (sigma1 w15 + w10 + sigma0 w2)
      let (c, g) := round h a b c d e f g k1 w1
      let w2 := w2 + (sigma1 w0 + w11 + sigma0 w3)
      let (b, f) := round g h a b c d e f k2 w2
      let w3 := w3 + (sigma1 w1 + w12 + sigma0 w4)
      let (a, e) := round f g h a b c d e k3 w3
      let w4 := w4 + (sigma1 w2 + w13 + sigma0 w5)
      let (h, d) := round e f g h a b c d k4 w4
      let w5 := w5 + (sigma1 w3 + w14 + sigma0 w6)
      let (g, c) := round d e f g h a b c k5 w5
      let w6 := w6 + (sigma1 w4 + w15 + sigma0 w7)
      let (f, b) := round c d e f g h a b k6 w6
      let w7 := w7 + (sigma1 w5 + w0 + sigma0 w8)
      let (e, a) := round b c d e f g h a k7 w7
      let w8 := w8 + (sigma1 w6 + w1 + sigma0 w9)
      let (d, h) := round a b c d e f g h k8 w8
      let w9 := w9 + (sigma1 w7 + w2 + sigma0 w10)
      let (c, g) := round h a b c d e f g k9 w9
      let w10 := w10 + (sigma1 w8 + w3 + sigma0 w11)
      let (b, f) := round g h a b c d e f k10 w10
      let w11 := w11 + (sigma1 w9 + w4 + sigma0 w12)
      let (a, e) := round f g h a b c d e k11 w11
      let w12 := w12 + (sigma1 w10 + w5 + sigma0 w13)
      let (h, d) := round e f g h a b c d k12 w12
      let w13 := w13 + (sigma1 w11 + w6 + sigma0 w14)
      let (g, c) := round d e f g h a b c k13 w13
      let w14 := w14 + (sigma1 w12 + w7 + sigma0 w15)
      let (f, b) := round c d e f g h a b k14 w14
      let w15 := w15 + (sigma1 w13 + w8 + sigma0 w0)
      let (e, a) := round b c d e f g h a k15 w15
      (⟨a, b, c, d, e, f, g, h⟩,
        ⟨w0, w1, w2, w3, w4, w5, w6, w7, w8, w9, w10, w11, w12, w13, w14, w15⟩)

/-- The additions at the end of `Transform`. -/
def Chain.add (s r : Chain) : Chain :=
  ⟨s.a + r.a, s.b + r.b, s.c + r.c, s.d + r.d, s.e + r.e, s.f + r.f, s.g + r.g, s.h + r.h⟩

/-- `Transform`. -/
def transform (machine : ByteOrder) (s : Chain) (chunk : Block 64) : Chain :=
  let r := loadRounds machine chunk s
  let r := mixRounds 0xe49b69c1 0xefbe4786 0x0fc19dc6 0x240ca1cc
    0x2de92c6f 0x4a7484aa 0x5cb0a9dc 0x76f988da
    0x983e5152 0xa831c66d 0xb00327c8 0xbf597fc7
    0xc6e00bf3 0xd5a79147 0x06ca6351 0x14292967 r
  let r := mixRounds 0x27b70a85 0x2e1b2138 0x4d2c6dfc 0x53380d13
    0x650a7354 0x766a0abb 0x81c2c92e 0x92722c85
    0xa2bfe8a1 0xa81a664b 0xc24b8b70 0xc76c51a3
    0xd192e819 0xd6990624 0xf40e3585 0x106aa070 r
  let r := mixRounds 0x19a4c116 0x1e376c08 0x2748774c 0x34b0bcb5
    0x391c0cb3 0x4ed8aa4a 0x5b9cca4f 0x682e6ff3
    0x748f82ee 0x78a5636f 0x84c87814 0x8cc70208
    0x90befffa 0xa4506ceb 0xbef9a3f7 0xc67178f2 r
  s.add r.1

/-! ## The context -/

/-- Bytes in memory. No object is larger than `PTRDIFF_MAX`. -/
structure Object where
  addr : Nat
  data : Bytes
  small : data.length < 2 ^ 63

/-- How a call ends without returning. -/
inductive Stop where
  | aborted
  | undefined
  deriving DecidableEq

/-- What depends on the machine and on where the compiler puts things. -/
structure Machine where
  order : ByteOrder
  /-- `HAVE_UNALIGNED_ACCESS`. -/
  unalignedAccess : Bool
  padAddr : Nat
  sizedescAddr : Nat

/-- `struct sha256_ctx`. -/
structure Ctx where
  s : Chain
  buf : Block 64
  bytes : UInt64

/-- `alignment_ok`. -/
def alignmentOk (m : Machine) (p n : Nat) : Bool :=
  m.unalignedAccess || p % n == 0

/-- Writing into a buffer keeps its length. -/
theorem length_patched {n at_ : Nat} {buf t : Bytes} (hbuf : buf.length = n)
    (h : at_ + t.length ≤ n) : (buf.take at_ ++ t ++ buf.drop (at_ + t.length)).length = n := by
  simp only [List.length_append, List.length_take, List.length_drop]
  omega

/-- `memcpy` into the buffer of a context. -/
def memcpy (buf : Block 64) (at_ : Nat) (t : Bytes) : Except Stop (Block 64) :=
  if h : at_ + t.length ≤ 64 then
    .ok ⟨buf.1.take at_ ++ t ++ buf.1.drop (at_ + t.length), length_patched buf.2 h⟩
  else .error .undefined

/-- The branch of `add` that fills the buffer, with the pointer and the size after it. -/
def fillBuffer (m : Machine) (ctx : Ctx) (bufsize addr : Nat) (data : Bytes) :
    Except Stop (Ctx × Nat × Bytes) := do
  let buf ← memcpy ctx.buf bufsize (data.take (64 - bufsize))
  let ctx := ⟨transform m.order ctx.s buf, buf, ctx.bytes + UInt64.ofNat (64 - bufsize)⟩
  return (ctx, addr + (64 - bufsize), data.drop (64 - bufsize))

/-- The loop of `add`, with the bytes after it. -/
def addChunks (m : Machine) (ctx : Ctx) (addr : Nat) (data : Bytes) :
    Except Stop (Ctx × Bytes) := do
  if 64 ≤ data.length then
    if alignmentOk m addr 4 then
      let s := transform m.order ctx.s (Block.first 64 data)
      addChunks m { ctx with s := s, bytes := ctx.bytes + 64 } (addr + 64) (data.drop 64)
    else
      let buf ← memcpy ctx.buf 0 (data.take 64)
      let s := transform m.order ctx.s buf
      addChunks m ⟨s, buf, ctx.bytes + 64⟩ (addr + 64) (data.drop 64)
  else return (ctx, data)
termination_by data.length

/-- The end of `add`. -/
def keepRest (ctx : Ctx) (bufsize : Nat) (data : Bytes) : Except Stop Ctx := do
  if data.length ≠ 0 then
    let buf ← memcpy ctx.buf bufsize data
    return { ctx with buf := buf, bytes := ctx.bytes + UInt64.ofNat data.length }
  else return ctx

/-- `add`. -/
def add (m : Machine) (ctx : Ctx) (p : Object) : Except Stop Ctx := do
  let bufsize := ctx.bytes.toNat % 64
  -- the sum is a `size_t`
  if 64 ≤ (bufsize + p.data.length) % 2 ^ 64 then
    let (ctx, addr, data) ← fillBuffer m ctx bufsize p.addr p.data
    let (ctx, data) ← addChunks m ctx addr data
    keepRest ctx 0 data
  else
    let (ctx, data) ← addChunks m ctx p.addr p.data
    keepRest ctx bufsize data

/-- `sha256_init`. -/
def sha256Init : Ctx :=
  { s := ⟨0x6a09e667, 0xbb67ae85, 0x3c6ef372, 0xa54ff53a, 0x510e527f, 0x9b05688c, 0x1f83d9ab,
      0x5be0cd19⟩
    buf := Block.zeros 64
    bytes := 0 }

/-- `(size_t)-1`. -/
def maxSize : UInt64 :=
  0xffffffffffffffff

/-- `invalidate_sha256`. -/
def invalidateSha256 (ctx : Ctx) : Ctx :=
  { ctx with bytes := maxSize }

/-- `check_sha256`. -/
def checkSha256 (ctx : Ctx) : Except Stop Unit :=
  if ctx.bytes ≠ maxSize then .ok () else .error .aborted

/-- `sha256_update`. -/
def sha256Update (m : Machine) (ctx : Ctx) (p : Object) : Except Stop Ctx := do
  checkSha256 ctx
  add m ctx p

/-- `pad` of `sha256_done`. -/
def pad : Bytes :=
  0x80 :: List.replicate 63 0

/-- The padding is short. -/
theorem length_pad_take_lt (n : Nat) : (pad.take n).length < 2 ^ 63 := by
  simp [pad]

/-- So is a number. -/
theorem length_write_lt (k : Fin 9) (order : ByteOrder) (n : Nat) :
    (order.write k n).length < 2 ^ 63 := by
  rw [ByteOrder.length_write]
  omega

/-- A number in memory. -/
def Object.word (m : Machine) (addr : Nat) (k : Fin 9) (n : Nat) : Object :=
  ⟨addr, m.order.write k n, length_write_lt k m.order n⟩

/-- The loop of `sha256_done` that fills the result. -/
def resultBytes (m : Machine) (s : Chain) : Bytes :=
  [s.a, s.b, s.c, s.d, s.e, s.f, s.g, s.h].flatMap fun w =>
    m.order.write 4 (cpuToBe32 m.order w).toNat

/-- A digest has thirty-two bytes. -/
theorem length_result_bytes (m : Machine) (s : Chain) : (resultBytes m s).length = 32 := by
  simp [resultBytes]

/-- `sha256_done`. -/
def sha256Done (m : Machine) (ctx : Ctx) : Except Stop (Block 32 × Ctx) := do
  let sizedesc := cpuToBe64 m.order (ctx.bytes <<< 3)
  let padded := 1 + (128 - 8 - ctx.bytes.toNat % 64 - 1) % 64
  let ctx ← add m ctx ⟨m.padAddr, pad.take padded, length_pad_take_lt padded⟩
  let ctx ← add m ctx (.word m m.sizedescAddr 8 sizedesc.toNat)
  return (⟨resultBytes m ctx.s, length_result_bytes m ctx.s⟩, invalidateSha256 ctx)

/-- `sha256`. -/
def sha256 (m : Machine) (p : Object) : Except Stop (Block 32) := do
  let ctx ← sha256Update m sha256Init p
  let (sha, _) ← sha256Done m ctx
  return sha

/-! ## Numbers

Every function of this family hashes an integer where it stands; `addr` is the address of the
argument or of the converted copy. -/

/-- `sha256_u8`. -/
def sha256U8 (m : Machine) (addr : Nat) (ctx : Ctx) (v : UInt8) : Except Stop Ctx :=
  sha256Update m ctx (.word m addr 1 v.toNat)

/-- `sha256_u16`. -/
def sha256U16 (m : Machine) (addr : Nat) (ctx : Ctx) (v : UInt16) : Except Stop Ctx :=
  sha256Update m ctx (.word m addr 2 v.toNat)

/-- `sha256_u32`. -/
def sha256U32 (m : Machine) (addr : Nat) (ctx : Ctx) (v : UInt32) : Except Stop Ctx :=
  sha256Update m ctx (.word m addr 4 v.toNat)

/-- `sha256_u64`. -/
def sha256U64 (m : Machine) (addr : Nat) (ctx : Ctx) (v : UInt64) : Except Stop Ctx :=
  sha256Update m ctx (.word m addr 8 v.toNat)

/-- `sha256_le16`. -/
def sha256Le16 (m : Machine) (addr : Nat) (ctx : Ctx) (v : UInt16) : Except Stop Ctx :=
  sha256U16 m addr ctx (cpuToLe16 m.order v)

/-- `sha256_le32`. -/
def sha256Le32 (m : Machine) (addr : Nat) (ctx : Ctx) (v : UInt32) : Except Stop Ctx :=
  sha256U32 m addr ctx (cpuToLe32 m.order v)

/-- `sha256_le64`. -/
def sha256Le64 (m : Machine) (addr : Nat) (ctx : Ctx) (v : UInt64) : Except Stop Ctx :=
  sha256U64 m addr ctx (cpuToLe64 m.order v)

/-- `sha256_be16`. -/
def sha256Be16 (m : Machine) (addr : Nat) (ctx : Ctx) (v : UInt16) : Except Stop Ctx :=
  sha256U16 m addr ctx (cpuToBe16 m.order v)

/-- `sha256_be32`. -/
def sha256Be32 (m : Machine) (addr : Nat) (ctx : Ctx) (v : UInt32) : Except Stop Ctx :=
  sha256U32 m addr ctx (cpuToBe32 m.order v)

/-- `sha256_be64`. -/
def sha256Be64 (m : Machine) (addr : Nat) (ctx : Ctx) (v : UInt64) : Except Stop Ctx :=
  sha256U64 m addr ctx (cpuToBe64 m.order v)

end Gnostr.Sha256
