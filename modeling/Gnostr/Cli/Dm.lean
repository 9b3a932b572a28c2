import Gnostr.Codec.Base64
import Gnostr.Event.Keys
import Gnostr.Wire.BlockMode

/-!
# Encrypted direct messages

`make_encrypted_dm` of `gnostr.c`, with `aes_encrypt` and the block chaining of `aes.c`;
`src/nostril/nostri.c` repeats it with `encbuf` on the heap. The content is padded and encrypted
in `encbuf`, and ciphertext, separator, initialisation vector and terminator are written into
`buf` through a cursor.

Both buffers are sized by formulas of the content length in `int` arithmetic. An overflow of that
arithmetic and a store outside an object are undefined behaviour. Of the room behind `encbuf` only
what the implementation leaves unused between it and the next object (`slack`) can be written
without harm.

The event is written in place: content and kind first, then the tag for the recipient, which is
refused when all tags are in use. `make_encrypted_dm_intact_iff` says when a failed call leaves the
event as it was.
-/

namespace Gnostr

open Wire

/-! ## The machine -/

/-- The block cipher of `aes.c`: `Cipher` and `InvCipher` under the schedule of a key. -/
structure Aes where
  cipher : Block 32 → Block 16 → Block 16
  invCipher : Block 32 → Block 16 → Block 16
  inv_cipher_cipher : ∀ key b, invCipher key (cipher key b) = b

/-- What the program finds in its surroundings. -/
structure Env where
  crypto : Crypto
  random : Random
  aes : Aes
  /-- The bytes between the end of `encbuf` and the next object. -/
  slack : Fin 16
  malloc : Nat → Bool

/-- Where `make_encrypted_dm` returns 0. -/
inductive DmError where
  | seckeyVerify
  | pubkeyParse
  | ecdh
  | fillRandom
  | aesEncrypt
  | base64Encrypted
  | bufferTooSmall
  | base64Iv
  | outOfMemory
  | hexEncode
  | tooManyTags
  deriving DecidableEq

/-- What it reports there. -/
def DmError.message : DmError → Bytes
  | seckeyVerify => ascii "make_encrypted_dm: ec_seckey_verify failed\n"
  | pubkeyParse => ascii "make_encrypted_dm: ec_pubkey_parse failed\n"
  | ecdh => ascii "make_encrypted_dm: secp256k1_ecdh failed\n"
  | fillRandom => ascii "make_encrypted_dm: fill_random failed\n"
  | aesEncrypt => ascii "make_encrypted_dm: aes_encrypt failed\n"
  | base64Encrypted => ascii "make_encrypted_dm: base64 encode of encrypted fata failed\n"
  | bufferTooSmall => ascii "make_encrypted_dm: buffer too small\n"
  | base64Iv => ascii "make_encrypted_dm: base64 encode of iv failed\n"
  | outOfMemory => ascii "make_encrypted_dm: out of memory by 1 byte!\n"
  | hexEncode => []
  | tooManyTags => ascii "too many tags\n"

/-- How a call ends other than with 1: undefined behaviour, a failed assertion, or 0 with the
event as it is left. -/
inductive DmStop where
  | undefined
  | aborted
  | failed (error : DmError) (ev : NostrEvent)

/-- A size converted to `int`. -/
def toInt (n : Nat) : Int :=
  Int.bmod n (2 ^ 32)

/-- An `int` converted to `size_t`. -/
def toSize (z : Int) : Nat :=
  (z % 2 ^ 64).toNat

/-- The values of type `int`. -/
def IsInt (z : Int) : Prop :=
  -(2 ^ 31) ≤ z ∧ z < 2 ^ 31

instance (z : Int) : Decidable (IsInt z) :=
  inferInstanceAs (Decidable (_ ∧ _))

/-- An array, with the room behind it that can be written without harm. -/
structure Buffer where
  size : Nat
  slack : Nat
  mem : Mem

/-- A store into an array. -/
def Buffer.store (b : Buffer) (at_ : Nat) (t : Bytes) : Except DmStop Buffer :=
  if at_ + t.length ≤ b.size + b.slack then .ok { b with mem := b.mem.store at_ t }
  else .error .undefined

/-! ## Encryption -/

/-- `AES_CBC_encrypt_buffer`, after `AES_init_ctx_iv`. -/
def aesCbcEncryptBuffer (aes : Aes) (key : Block 32) (iv : Block 16) (buf : Bytes) : Bytes :=
  joined (chainEncrypt xorMix (aes.cipher key) iv (blocks 16 ((buf.length + 15) / 16) buf))

/-- `AES_CBC_decrypt_buffer`, after `AES_init_ctx_iv`. -/
def aesCbcDecryptBuffer (aes : Aes) (key : Block 32) (iv : Block 16) (buf : Bytes) : Bytes :=
  joined (chainDecrypt xorMix (aes.invCipher key) iv (blocks 16 ((buf.length + 15) / 16) buf))

/-- The padding loop of `aes_encrypt`. The cursor ends where the padding is to end, whatever the
size of the buffer. -/
def aesPad (mem : Mem) (buflen : Nat) : Bool × Cursor :=
  let padding := 16 - buflen % 16
  Push.all (List.replicate padding (cursorPushByte (UInt8.ofNat padding)))
    ((makeCursor mem 0 (buflen + padding)).advance buflen)

/-- `aes_encrypt`: the returned length and the buffer. -/
def aesEncrypt (aes : Aes) (key : Block 32) (iv : Block 16) (buf : Buffer) (buflen : Nat) :
    Except DmStop (Int × Buffer) := do
  let (ok, cur) := aesPad buf.mem buflen
  let buf ← buf.store buflen (cur.mem.slice buflen cur.p)
  if ¬ ok then return (0, buf)
  if cur.p ≠ cur.stop ∨ cursorLen cur % 16 ≠ 0 then throw .aborted
  let buf ← buf.store cur.start (aesCbcEncryptBuffer aes key iv cur.text)
  return (toInt (cursorLen cur), buf)

/-! ## The message -/

/-- The sizes of `buf` and `encbuf` for a content of some length. Every intermediate value has to
be an `int`, and an array has to have elements. -/
def dmSizes (inl : Nat) : Except DmStop (Nat × Nat) :=
  let enclen := toInt (inl + 16)
  let buflen := enclen * 3 + 65 * 10
  let contentLen := toInt inl
  let encsize := contentLen + contentLen.tmod 16 + 1
  if IsInt (enclen * 3) ∧ IsInt buflen ∧ IsInt (contentLen + contentLen.tmod 16) ∧
      IsInt encsize ∧ 0 < encsize then
    .ok (toSize buflen, toSize encsize)
  else .error .undefined

/-- The outcome of a library call, or the error reported when it failed. -/
def orFail {α : Type} (error : DmError) (ev : NostrEvent) : Option α → Except DmStop α
  | none => .error (.failed error ev)
  | some a => .ok a

/-- A public key with the byte that says which of its two points is meant. -/
def compressedPubkey (nostrPubkey : Block 32) : Block 33 :=
  ⟨2 :: nostrPubkey.1, by simp [nostrPubkey.2]⟩

/-- The shared secret and the initialisation vector; `copyx` keeps the first coordinate. -/
def dmSecrets (env : Env) (key : Key) (ev : NostrEvent) (nostrPubkey : Block 32) :
    Except DmStop (Block 32 × Block 16) := do
  if ¬ env.crypto.ecSeckeyVerify key.secret then throw (.failed .seckeyVerify ev)
  let pubkey ← orFail .pubkeyParse ev (env.crypto.ecPubkeyParse (compressedPubkey nostrPubkey))
  let (x32, _) ← orFail .ecdh ev (env.crypto.ecdh pubkey key.secret)
  let iv ← orFail .fillRandom ev env.random.iv
  return (x32, iv)

/-- The content, padded and encrypted in `encbuf`. -/
def dmEncrypt (env : Env) (ev : NostrEvent) (sharedSecret : Block 32) (iv : Block 16)
    (encsize : Nat) : Except DmStop Bytes := do
  let encbuf : Buffer := ⟨encsize, env.slack, fun _ => 0⟩
  let encbuf ← encbuf.store 0 ev.content.bytes
  let (enclen, encbuf) ← aesEncrypt env.aes sharedSecret iv encbuf ev.content.strlen
  if enclen = 0 then throw (.failed .aesEncrypt ev)
  return encbuf.mem.slice 0 (toSize enclen)

/-- `base64_encode` into the rest of the buffer, and the advance past the letters. -/
def cursorPushBase64 (src : Bytes) : Push := fun cur =>
  match base64Encode (cur.stop - cur.p) src with
  | none => (false, cur)
  | some (enclen, dest) =>
      (true, { cur with mem := cur.mem.store cur.p dest }.advance enclen)

/-- A push whose failure is reported. -/
def pushOrFail (error : DmError) (ev : NostrEvent) (m : Push) (cur : Cursor) :
    Except DmStop Cursor :=
  if (m cur).1 then .ok (m cur).2 else .error (.failed error ev)

/-- Ciphertext, separator, initialisation vector and terminator in `buf`. -/
def dmWrite (ev : NostrEvent) (encrypted : Bytes) (iv : Block 16) (cur : Cursor) :
    Except DmStop Cursor := do
  let cur ← pushOrFail .base64Encrypted ev (cursorPushBase64 encrypted) cur
  let cur ← pushOrFail .bufferTooSmall ev (cursorPushStr (ascii "?iv=")) cur
  let cur ← pushOrFail .base64Iv ev (cursorPushBase64 iv.1) cur
  pushOrFail .outOfMemory ev (cursorPushByte 0) cur

/-- The element `"p"`. -/
def pTag : CStr :=
  ⟨ascii "p", by decide⟩

/-- Set content and kind and add the recipient, whose key is written behind the text. -/
def dmFinish (ev : NostrEvent) (nostrPubkey : Block 32) (kind : Int32) (cur : Cursor) :
    Except DmStop NostrEvent := do
  -- the last byte pushed is the terminator, so a reader of the content stops within the text
  let ev := { ev with content := CStr.ofBytes cur.text, kind := kind }
  let hex ← orFail .hexEncode ev (hexEncode nostrPubkey.1 (cur.stop - cur.p))
  orFail .tooManyTags ev (nostrAddTag ev pTag (CStr.ofBytes hex))

/-- `make_encrypted_dm`. -/
def makeEncryptedDm (env : Env) (key : Key) (ev : NostrEvent) (nostrPubkey : Block 32)
    (kind : Int32) : Except DmStop NostrEvent := do
  let (buflen, encsize) ← dmSizes ev.content.strlen
  let (sharedSecret, iv) ← dmSecrets env key ev nostrPubkey
  let encrypted ← dmEncrypt env ev sharedSecret iv encsize
  if ¬ env.malloc buflen then throw .undefined
  let cur ← dmWrite ev encrypted iv (makeCursor (fun _ => 0) 0 buflen)
  dmFinish ev nostrPubkey kind cur

/-! ## What is encrypted can be decrypted -/

/-- Mixing twice with the same block does nothing. -/
theorem xor_mix_cancel {n : Nat} (a b : Block n) : xorMix (xorMix a b) b = a := by
  refine Subtype.ext (List.ext_getElem (by simp [xorMix, a.2, b.2]) fun i hi ha => ?_)
  simp [xorMix]

/-- Encryption in whole blocks keeps the length. -/
theorem length_aes_cbc (aes : Aes) (key : Block 32) (iv : Block 16) {buf : Bytes} {k : Nat}
    (h : buf.length = 16 * k) : (aesCbcEncryptBuffer aes key iv buf).length = 16 * k := by
  have hk : (buf.length + 15) / 16 = k := by omega
  rw [aesCbcEncryptBuffer, length_joined, length_chain_encrypt, length_blocks, hk]

/-- Decryption in whole blocks undoes encryption. -/
theorem aes_cbc_decrypt_encrypt (aes : Aes) (key : Block 32) (iv : Block 16) {buf : Bytes} {k : Nat}
    (h : buf.length = 16 * k) :
    aesCbcDecryptBuffer aes key iv (aesCbcEncryptBuffer aes key iv buf) = buf := by
  have hk : (buf.length + 15) / 16 = k := by omega
  have hk' : ((aesCbcEncryptBuffer aes key iv buf).length + 15) / 16 =
      (chainEncrypt xorMix (aes.cipher key) iv (blocks 16 k buf)).length := by
    rw [length_aes_cbc aes key iv h, length_chain_encrypt, length_blocks]
    omega
  rw [aesCbcDecryptBuffer, hk', aesCbcEncryptBuffer, hk, blocks_joined,
    chain_decrypt_encrypt xorMix xor_mix_cancel (aes.inv_cipher_cipher key), joined_blocks h]

/-! ## The steps -/

/-- Behind the end of a buffer there is room for the slack. -/
theorem store_ok {b : Buffer} {at_ : Nat} {t : Bytes} (h : at_ + t.length ≤ b.size + b.slack) :
    b.store at_ t = .ok { b with mem := b.mem.store at_ t } :=
  if_pos h

/-- What does not fit there either is undefined. -/
theorem store_undefined {b : Buffer} {at_ : Nat} {t : Bytes}
    (h : b.size + b.slack < at_ + t.length) : b.store at_ t = .error .undefined :=
  if_neg (by omega)

/-- The cursor after the padding loop stands at its end and holds the padded text. -/
theorem aes_pad_eq {mem : Mem} {t : Bytes} (htext : mem.slice 0 t.length = t) :
    ∃ cur, aesPad mem t.length = (true, cur) ∧ cur.start = 0 ∧ cur.p = (pad 16 t).length ∧
      cur.stop = (pad 16 t).length ∧ cur.text = pad 16 t := by
  have hlen : (pad 16 t).length = t.length + (16 - t.length % 16) := by
    rw [pad, List.length_append, List.length_replicate, padding]
  have hpush := push_bytes_eq
    (List.replicate (16 - t.length % 16) (UInt8.ofNat (16 - t.length % 16)))
    ((makeCursor mem 0 (t.length + (16 - t.length % 16))).advance t.length)
    (by simp [makeCursor, Cursor.advance])
  rw [List.map_replicate] at hpush
  refine ⟨_, hpush, rfl, ?_, ?_, ?_⟩
  · rw [hlen, Cursor.write_p, List.length_replicate, Cursor.advance, makeCursor, Nat.zero_add]
  · rw [hlen]
    rfl
  · rw [(appends_write (Nat.zero_le _) _).text, Cursor.text, Cursor.advance, makeCursor,
      Nat.zero_add, htext, pad, padding]

/-- `aes_encrypt` pads and encrypts the text in the buffer when the padded text fits. -/
theorem aes_encrypt_ok (aes : Aes) (key : Block 32) (iv : Block 16) (buf : Buffer) {t : Bytes}
    (htext : buf.mem.slice 0 t.length = t) (hfit : (pad 16 t).length ≤ buf.size + buf.slack) :
    ∃ buf', aesEncrypt aes key iv buf t.length = .ok (toInt (pad 16 t).length, buf') ∧
      buf'.mem.slice 0 (pad 16 t).length = aesCbcEncryptBuffer aes key iv (pad 16 t) := by
  obtain ⟨cur, hpad, hstart, hp, hstop, hcur⟩ := aes_pad_eq htext
  have hblocks := length_pad (n := 16) (by omega) t
  have hle : t.length ≤ (pad 16 t).length := by simp [pad]
  have hslice : (cur.mem.slice t.length cur.p).length = (pad 16 t).length - t.length := by
    simp [Mem.slice, hp]
  have hlen := length_aes_cbc aes key iv hblocks
  have haligned : ¬ (cur.p ≠ cur.stop ∨ cursorLen cur % 16 ≠ 0) := by
    rw [cursorLen, hp, hstop, hstart, hblocks]
    omega
  have hstore : buf.store t.length (cur.mem.slice t.length cur.p) = _ := store_ok (by omega)
  let mem := buf.mem.store t.length (cur.mem.slice t.length cur.p)
  refine ⟨{ buf with mem := mem.store 0 (aesCbcEncryptBuffer aes key iv (pad 16 t)) }, ?_, ?_⟩
  · have hstore' : ({ buf with mem := mem } : Buffer).store cur.start
        (aesCbcEncryptBuffer aes key iv cur.text) = _ :=
      store_ok (by rw [hstart, hcur, hlen, ← hblocks]; simpa using hfit)
    simp only [aesEncrypt, hpad, hstore, haligned, hstore', bind, Except.bind, pure, Except.pure,
      not_true_eq_false, if_false, mem]
    simp only [cursorLen, hstart, hcur, hp, Nat.sub_zero]
  · rw [hblocks, ← hlen]
    simpa using Mem.slice_store _ 0 (aesCbcEncryptBuffer aes key iv (pad 16 t))

/-- `aes_encrypt` writes past the end of the buffer when the padded text does not fit. -/
theorem aes_encrypt_undefined (aes : Aes) (key : Block 32) (iv : Block 16) (buf : Buffer)
    {t : Bytes} (htext : buf.mem.slice 0 t.length = t)
    (hfit : buf.size + buf.slack < (pad 16 t).length) :
    aesEncrypt aes key iv buf t.length = .error .undefined := by
  obtain ⟨cur, hpad, -, hp, -, -⟩ := aes_pad_eq htext
  have hle : t.length ≤ (pad 16 t).length := by simp [pad]
  have hslice : (cur.mem.slice t.length cur.p).length = (pad 16 t).length - t.length := by
    simp [Mem.slice, hp]
  have hstore : buf.store t.length (cur.mem.slice t.length cur.p) = .error .undefined :=
    store_undefined (by omega)
  simp only [aesEncrypt, hpad, hstore, bind, Except.bind]

/-- Small numbers are kept by the conversion to `int`. -/
theorem to_int_of_lt {n : Nat} (h : n < 2 ^ 31) : toInt n = n :=
  Int.bmod_eq_of_le (by norm_num) (by norm_num; omega)

/-- From `2 ^ 31` on the conversion gives negative numbers. -/
theorem to_int_of_ge {n : Nat} (h : 2 ^ 31 ≤ n) (h' : n < 2 ^ 32) : toInt n = n - 2 ^ 32 := by
  unfold toInt
  simp only [Int.bmod_def]
  norm_num
  omega

/-- And by the conversion back. -/
theorem to_size_natCast {n : Nat} (h : n < 2 ^ 64) : toSize n = n := by
  rw [toSize, Int.emod_eq_of_lt (by omega) (by exact_mod_cast h), Int.toNat_natCast]

/-- The room `make_encrypted_dm` plans for a content of length `n`. -/
def dmRoom (n : Nat) : Nat :=
  3 * (n + 16) + 650

/-- The sizes of the buffers, as long as the arithmetic stays within `int`. -/
theorem dm_sizes_eq {n : Nat} (h : dmRoom n < 2 ^ 31) :
    dmSizes n = .ok (dmRoom n, n + n % 16 + 1) := by
  have hroom : dmRoom n = (n + 16) * 3 + 65 * 10 := by unfold dmRoom; omega
  have hmod : (n : Int).tmod 16 = (n % 16 : Nat) := Int.tmod_eq_emod_of_nonneg (by omega)
  have hbuflen : ((n + 16 : Nat) : Int) * 3 + 65 * 10 = (dmRoom n : Nat) := by rw [hroom]; rfl
  have hencsize : (n : Int) + (n % 16 : Nat) + 1 = (n + n % 16 + 1 : Nat) := rfl
  simp only [dmSizes, to_int_of_lt (n := n) (by omega), to_int_of_lt (n := n + 16) (by omega), hmod,
    hbuflen, hencsize, to_size_natCast (n := dmRoom n) (by omega),
    to_size_natCast (n := n + n % 16 + 1) (by omega)]
  refine if_pos ?_
  unfold IsInt
  omega

/-- A content of an accepted length that fits into `encbuf` and the room behind it is short. -/
theorem dm_room_of_sizes {n buflen encsize : Nat} (h : dmSizes n = .ok (buflen, encsize))
    (hfit : n ≤ encsize + 15) : dmRoom n < 2 ^ 31 := by
  simp only [dmSizes] at h
  split at h
  · next hsizes =>
    obtain ⟨htriple, hbuflen, -, hint, hpos⟩ := hsizes
    have hencsize : (encsize : Int) = toInt n + (toInt n).tmod 16 + 1 := by
      rw [← (Prod.mk.inj (Except.ok.inj h)).2, toSize, Int.emod_eq_of_lt (by omega)
        (hint.2.trans (by norm_num)), Int.toNat_of_nonneg (by omega)]
    have hlt : n < 2 ^ 31 + 15 := by have := hint.2; omega
    by_cases hn : n < 2 ^ 31
    · by_cases hn' : n + 16 < 2 ^ 31
      · rw [to_int_of_lt hn'] at hbuflen
        have := hbuflen.2
        unfold dmRoom
        push_cast at this
        omega
      · -- the padded length is a negative `int`, and three times that is no `int`
        rw [to_int_of_ge (by omega) (by omega)] at htriple
        have := htriple.1
        omega
    · -- the length itself is a negative `int`, and the array would have no elements
      rw [to_int_of_ge (by omega) (by omega)] at hpos
      have hneg : ((n : Int) - 2 ^ 32).tmod 16 ≤ 0 := by
        rw [← neg_neg ((n : Int) - 2 ^ 32), Int.neg_tmod]
        have := Int.tmod_nonneg (a := -((n : Int) - 2 ^ 32)) 16 (by omega)
        omega
      omega
  · cases h

/-- The content is encrypted when the padded content fits into `encbuf` and the room behind it,
and something else is overwritten when it does not. -/
theorem dm_encrypt_eq (env : Env) (ev : NostrEvent) (secret : Block 32) (iv : Block 16)
    (encsize : Nat) (hlen : (pad 16 ev.content.bytes).length < 2 ^ 31) :
    dmEncrypt env ev secret iv encsize =
      if (pad 16 ev.content.bytes).length ≤ encsize + env.slack then
        .ok (aesCbcEncryptBuffer env.aes secret iv (pad 16 ev.content.bytes))
      else .error .undefined := by
  have hle : ev.content.bytes.length ≤ (pad 16 ev.content.bytes).length := by simp [pad]
  have hblocks := length_pad (n := 16) (by omega) ev.content.bytes
  by_cases hcopy : ev.content.bytes.length ≤ encsize + env.slack
  · have hstore : (⟨encsize, env.slack, fun _ => 0⟩ : Buffer).store 0 ev.content.bytes = _ :=
      store_ok (by simpa using hcopy)
    have htext : (Mem.store (fun _ => 0) 0 ev.content.bytes).slice 0 ev.content.bytes.length =
        ev.content.bytes := by
      simpa using Mem.slice_store _ 0 ev.content.bytes
    split
    · next hfit =>
      obtain ⟨encbuf, hencrypt, hslice⟩ := aes_encrypt_ok env.aes secret iv
        ⟨encsize, env.slack, Mem.store (fun _ => 0) 0 ev.content.bytes⟩ htext hfit
      have hne : ¬ ((pad 16 ev.content.bytes).length : Int) = 0 := by omega
      simp only [dmEncrypt, hstore, CStr.strlen, hencrypt, bind, Except.bind, pure, Except.pure,
        to_int_of_lt hlen, hne, if_false, to_size_natCast (hlen.trans (by norm_num)), hslice]
    · next hfit =>
      have hencrypt := aes_encrypt_undefined env.aes secret iv
        ⟨encsize, env.slack, Mem.store (fun _ => 0) 0 ev.content.bytes⟩ htext
        (by simpa using hfit)
      simp only [dmEncrypt, hstore, CStr.strlen, hencrypt, bind, Except.bind]
  · have hstore : (⟨encsize, env.slack, fun _ => 0⟩ : Buffer).store 0 ev.content.bytes =
        .error .undefined := store_undefined (by simpa using hcopy)
    rw [if_neg (by omega)]
    simp only [dmEncrypt, hstore, bind, Except.bind]

/-- The text of a message: ciphertext and initialisation vector with the separator between. -/
def dmText (encrypted iv : Bytes) : Bytes :=
  base64Text encrypted ++ (ascii "?iv=" ++ base64Text iv)

/-- The base64 text is written as far as there is room. -/
theorem writes_base64 (src : Bytes) : Writes (cursorPushBase64 src) (base64Text src) := by
  intro cur hstart hroom
  rw [length_base64_text] at hroom
  have hencode : base64Encode (cur.stop - cur.p) src = _ := if_neg (by omega)
  refine ⟨_, ?_, appends_store hstart (base64Text src)
    (List.replicate (cur.stop - cur.p - (base64Text src).length) 0)⟩
  simp only [cursorPushBase64, hencode]

/-- A push that writes its text is not reported. -/
theorem push_or_fail_ok {m : Push} {t : Bytes} (h : Writes m t) (error : DmError)
    (ev : NostrEvent) {c : Cursor} (hstart : c.start ≤ c.p) (hroom : c.p + t.length < c.stop) :
    ∃ c', pushOrFail error ev m c = .ok c' ∧ Appends c t c' ∧ c'.start ≤ c'.p ∧
      c'.p = c.p + t.length ∧ c'.stop = c.stop := by
  obtain ⟨c', hpush, happends⟩ := h c hstart hroom
  refine ⟨c', ?_, happends, ?_, happends.p, happends.stop⟩
  · rw [pushOrFail, hpush]
    rfl
  · rw [happends.start, happends.p]
    omega

/-- With room for it, the text of the message and a terminator are written. -/
theorem dm_write_eq (ev : NostrEvent) (encrypted : Bytes) (iv : Block 16) (mem : Mem) (buflen : Nat)
    (hroom : base64EncodedLength encrypted.length + 29 < buflen) :
    ∃ cur, dmWrite ev encrypted iv (makeCursor mem 0 buflen) = .ok cur ∧
      cur.text = dmText encrypted iv.1 ++ [0] ∧ cur.stop = buflen ∧
      cur.p = base64EncodedLength encrypted.length + 29 := by
  have hencrypted := length_base64_text encrypted
  have hsep : (ascii "?iv=").length = 4 := rfl
  have hiv : (base64Text iv.1).length = 24 := by rw [length_base64_text, iv.2]; rfl
  have hp0 : (makeCursor mem 0 buflen).p = 0 := rfl
  have hstop0 : (makeCursor mem 0 buflen).stop = buflen := rfl
  obtain ⟨c1, hpush1, h1, hstart, hp1, hstop1⟩ :=
    push_or_fail_ok (writes_base64 encrypted) .base64Encrypted ev (c := makeCursor mem 0 buflen)
      (Nat.le_refl 0) (by omega)
  obtain ⟨c2, hpush2, h2, hstart, hp2, hstop2⟩ :=
    push_or_fail_ok (emits_push_str (ascii "?iv=")).writes .bufferTooSmall ev hstart (by omega)
  obtain ⟨c3, hpush3, h3, hstart, hp3, hstop3⟩ :=
    push_or_fail_ok (writes_base64 iv.1) .base64Iv ev hstart (by omega)
  obtain ⟨c4, hpush4, h4, -, hp4, hstop4⟩ :=
    push_or_fail_ok (emits_push_byte 0).writes .outOfMemory ev hstart
      (by rw [List.length_singleton]; omega)
  rw [List.length_singleton] at hp4
  refine ⟨c4, ?_, ?_, by omega, by omega⟩
  · simp only [dmWrite, hpush1, hpush2, hpush3, hpush4, bind, Except.bind]
  · rw [dmText, List.append_assoc, List.append_assoc, (h1.trans (h2.trans (h3.trans h4))).text]
    rfl

/-- The base64 letters leave out the terminator, so a reader sees the whole text. -/
theorem nul_not_mem_dm_text (encrypted iv : Bytes) : 0 ∉ dmText encrypted iv := by
  intro h
  rcases List.mem_append.mp h with h | h
  · exact (mem_base64_text h).2 rfl
  · rcases List.mem_append.mp h with h | h
    · exact absurd h (by decide)
    · exact (mem_base64_text h).2 rfl

/-- The text of a message as the content of an event. -/
def dmContent (encrypted iv : Bytes) : CStr :=
  ⟨dmText encrypted iv, nul_not_mem_dm_text encrypted iv⟩

/-- The digits of a public key. -/
def hexStr (pubkey : Block 32) : CStr :=
  ⟨hexText pubkey.1, fun h => absurd (mem_hex_text h).1 (by decide)⟩

/-- With room for the digits of a key, only a full array of tags is in the way. -/
theorem dm_finish_eq (ev : NostrEvent) (nostrPubkey : Block 32) (kind : Int32) {cur : Cursor}
    {encrypted iv : Bytes} (htext : cur.text = dmText encrypted iv ++ [0])
    (hroom : cur.p + 65 ≤ cur.stop) :
    dmFinish ev nostrPubkey kind cur =
      let ev := { ev with content := dmContent encrypted iv, kind := kind }
      orFail .tooManyTags ev (nostrAddTag ev pTag (hexStr nostrPubkey)) := by
  have hcontent : CStr.ofBytes cur.text = dmContent encrypted iv :=
    CStr.ext_bytes (by rw [htext, CStr.bytes_of_terminated (nul_not_mem_dm_text encrypted iv)]; rfl)
  have hhex : hexEncode nostrPubkey.1 (cur.stop - cur.p) = _ :=
    hex_encode_eq (by rw [nostrPubkey.2]; omega)
  have hstr : CStr.ofBytes (hexText nostrPubkey.1 ++ [0]) = hexStr nostrPubkey :=
    CStr.ext_bytes (CStr.bytes_of_terminated (hexStr nostrPubkey).nul_free [])
  simp only [dmFinish, hcontent, hhex, orFail, bind, Except.bind, hstr]

/-- The secret both sides of a conversation can compute. -/
def sharedSecret (c : Crypto) (key : Key) (nostrPubkey : Block 32) : Option (Block 32) := do
  let pubkey ← if c.ecSeckeyVerify key.secret then c.ecPubkeyParse (compressedPubkey nostrPubkey)
    else none
  let (x32, _) ← c.ecdh pubkey key.secret
  some x32

/-- The errors that say a buffer is too small. -/
def DmError.buffer : DmError → Bool
  | aesEncrypt | base64Encrypted | bufferTooSmall | base64Iv | outOfMemory | hexEncode => true
  | _ => false

/-- Secret and vector are found, or one of the calls for them fails. -/
theorem dm_secrets_cases (env : Env) (key : Key) (ev : NostrEvent) (nostrPubkey : Block 32) :
    (∃ secret iv, sharedSecret env.crypto key nostrPubkey = some secret ∧
      env.random.iv = some iv ∧ dmSecrets env key ev nostrPubkey = .ok (secret, iv)) ∨
    ((sharedSecret env.crypto key nostrPubkey = none ∨ env.random.iv = none) ∧
      ∃ error, error.buffer = false ∧
        dmSecrets env key ev nostrPubkey = .error (.failed error ev)) := by
  cases hverify : env.crypto.ecSeckeyVerify key.secret with
  | false =>
      exact .inr ⟨.inl (by simp [sharedSecret, hverify]), .seckeyVerify, rfl,
        by simp [dmSecrets, hverify, throw, throwThe, MonadExceptOf.throw, bind, Except.bind]⟩
  | true =>
      cases hparse : env.crypto.ecPubkeyParse (compressedPubkey nostrPubkey) with
      | none =>
          exact .inr ⟨.inl (by simp [sharedSecret, hverify, hparse]), .pubkeyParse, rfl,
            by simp [dmSecrets, hverify, hparse, orFail, bind, Except.bind]⟩
      | some pubkey =>
          cases hecdh : env.crypto.ecdh pubkey key.secret with
          | none =>
              exact .inr ⟨.inl (by simp [sharedSecret, hverify, hparse, hecdh]), .ecdh, rfl,
                by simp [dmSecrets, hverify, hparse, hecdh, orFail, bind, Except.bind]⟩
          | some point =>
              cases hiv : env.random.iv with
              | none =>
                  exact .inr ⟨.inr rfl, .fillRandom, rfl,
                    by simp [dmSecrets, hverify, hparse, hecdh, hiv, orFail, bind, Except.bind]⟩
              | some iv =>
                  exact .inl ⟨point.1, iv, by simp [sharedSecret, hverify, hparse, hecdh], rfl,
                    by simp [dmSecrets, hverify, hparse, hecdh, hiv, orFail, bind, Except.bind,
                      pure, Except.pure]⟩

/-- How a call ends once secret and vector are found: past the end of `encbuf` something else is
overwritten, and otherwise only a full array of tags is in the way. -/
theorem make_encrypted_dm_eq {env : Env} {key : Key} {ev : NostrEvent} {nostrPubkey : Block 32}
    {secret : Block 32} {iv : Block 16} (kind : Int32)
    (hsecret : sharedSecret env.crypto key nostrPubkey = some secret)
    (hiv : env.random.iv = some iv) (hroom : dmRoom ev.content.strlen < 2 ^ 31)
    (hmalloc : env.malloc (dmRoom ev.content.strlen) = true) :
    makeEncryptedDm env key ev nostrPubkey kind =
      if (pad 16 ev.content.bytes).length ≤
          ev.content.strlen + ev.content.strlen % 16 + 1 + env.slack then
        let encrypted := aesCbcEncryptBuffer env.aes secret iv (pad 16 ev.content.bytes)
        let ev := { ev with content := dmContent encrypted iv.1, kind := kind }
        orFail .tooManyTags ev (nostrAddTag ev pTag (hexStr nostrPubkey))
      else .error .undefined := by
  have hsecrets : dmSecrets env key ev nostrPubkey = .ok (secret, iv) := by
    rcases dm_secrets_cases env key ev nostrPubkey with ⟨secret', iv', hs, hv, h⟩ | ⟨h, -⟩
    · rw [h, Option.some.inj (hs.symm.trans hsecret), Option.some.inj (hv.symm.trans hiv)]
    · rw [hsecret, hiv] at h
      simp at h
  have hsizes := dm_sizes_eq hroom
  have hblocks := length_pad (n := 16) (by omega) ev.content.bytes
  have hlen : (pad 16 ev.content.bytes).length ≤ ev.content.strlen + 16 := by
    rw [hblocks, CStr.strlen]
    omega
  have hdm : dmRoom ev.content.strlen = 3 * (ev.content.strlen + 16) + 650 := rfl
  have hencrypt := dm_encrypt_eq env ev secret iv
    (ev.content.strlen + ev.content.strlen % 16 + 1) (by omega)
  have hmalloc' : ¬ ¬ env.malloc (dmRoom ev.content.strlen) = true := not_not.mpr hmalloc
  split at hencrypt
  · next hfit =>
    -- the base64 text stays within twice the padded length, so the cursor has room for all of it
    have hbase : base64EncodedLength
        (aesCbcEncryptBuffer env.aes secret iv (pad 16 ev.content.bytes)).length ≤
          2 * (ev.content.strlen + 16) + 4 := by
      rw [length_aes_cbc env.aes secret iv hblocks, ← hblocks, base64EncodedLength]
      omega
    obtain ⟨cur, hwrite, htext, hstop, hp⟩ := dm_write_eq ev
      (aesCbcEncryptBuffer env.aes secret iv (pad 16 ev.content.bytes)) iv (fun _ => 0)
      (dmRoom ev.content.strlen) (by omega)
    rw [if_pos hfit]
    unfold makeEncryptedDm
    rw [hsizes]
    simp only [hsecrets, hencrypt, hwrite, hmalloc', if_false, bind, Except.bind]
    exact dm_finish_eq ev nostrPubkey kind htext (by omega)
  · next hfit =>
    rw [if_neg hfit]
    unfold makeEncryptedDm
    rw [hsizes]
    simp only [hsecrets, hencrypt, bind, Except.bind]

/-! ## Reading a message -/

/-- A message that its recipient can read: the separator splits the text in one way only, its
parts are base64 for whole blocks of ciphertext and for the vector, and the ciphertext decrypts to
the padded content. -/
def Readable (aes : Aes) (secret : Block 32) (iv : Block 16) (text content : Bytes) : Prop :=
  ∃ front back encrypted, text = front ++ (ascii "?iv=" ++ back) ∧
    (∀ front' back', text = front' ++ (ascii "?iv=" ++ back') → front' = front ∧ back' = back) ∧
    base64Decode (base64DecodedLength front.length) front = some encrypted ∧
    base64Decode (base64DecodedLength back.length) back = some iv.1 ∧
    0 < encrypted.length ∧ 16 ∣ encrypted.length ∧
    unpad 16 (aesCbcDecryptBuffer aes secret iv encrypted) = some content

/-- The separator stands once in a text of base64 letters. -/
theorem dm_text_split {encrypted iv front back : Bytes}
    (h : dmText encrypted iv = front ++ (ascii "?iv=" ++ back)) :
    front = base64Text encrypted ∧ back = base64Text iv := by
  have hfront : 63 ∉ base64Text encrypted := fun hm => (mem_base64_text hm).1 rfl
  have hback : 63 ∉ ascii "iv=" ++ base64Text iv := by
    intro hm
    rcases List.mem_append.mp hm with hm | hm
    · exact absurd hm (by decide)
    · exact (mem_base64_text hm).1 rfl
  obtain ⟨hf, hb⟩ := append_cons_inj_of_once (u := ascii "iv=" ++ back) hfront hback h
  exact ⟨hf.symm, (List.append_cancel_left hb).symm⟩

/-- The recipient can read what was encrypted. -/
theorem readable_dm_text (aes : Aes) (secret : Block 32) (iv : Block 16) (content : Bytes) :
    Readable aes secret iv (dmText (aesCbcEncryptBuffer aes secret iv (pad 16 content)) iv.1)
      content := by
  have hblocks := length_pad (n := 16) (by omega) content
  have hlen := length_aes_cbc aes secret iv hblocks
  refine ⟨_, _, _, rfl, fun _ _ => dm_text_split, base64_decode_encode (Nat.le_refl _),
    base64_decode_encode (Nat.le_refl _), by omega, ⟨_, hlen⟩, ?_⟩
  rw [aes_cbc_decrypt_encrypt aes secret iv hblocks, unpad_pad (by omega) (by omega)]

/-- What was encrypted had been copied into `encbuf` before. -/
theorem dm_encrypt_ok {env : Env} {ev : NostrEvent} {secret : Block 32} {iv : Block 16}
    {encsize : Nat} {encrypted : Bytes}
    (h : dmEncrypt env ev secret iv encsize = .ok encrypted) :
    ev.content.strlen ≤ encsize + env.slack := by
  obtain ⟨buf, hstore, -⟩ := bind_eq_ok h
  unfold Buffer.store at hstore
  split at hstore
  · next hfit => simpa [CStr.strlen] using hfit
  · cases hstore

/-- What is known once the text is encrypted and there is a buffer for the message. -/
theorem dm_passed {env : Env} {key : Key} {ev : NostrEvent} {nostrPubkey secret : Block 32}
    {iv : Block 16} {buflen encsize : Nat} {encrypted : Bytes}
    (hsizes : dmSizes ev.content.strlen = .ok (buflen, encsize))
    (hsecrets : dmSecrets env key ev nostrPubkey = .ok (secret, iv))
    (hencrypt : dmEncrypt env ev secret iv encsize = .ok encrypted)
    (hmalloc : env.malloc buflen = true) :
    ∃ secret iv, sharedSecret env.crypto key nostrPubkey = some secret ∧
      env.random.iv = some iv ∧ dmRoom ev.content.strlen < 2 ^ 31 ∧
      env.malloc (dmRoom ev.content.strlen) = true := by
  have hfit := dm_encrypt_ok hencrypt
  have hroom : dmRoom ev.content.strlen < 2 ^ 31 := dm_room_of_sizes hsizes (by omega)
  have hbuflen : buflen = dmRoom ev.content.strlen := by
    have heq := hsizes.symm.trans (dm_sizes_eq hroom)
    exact (Prod.mk.inj (Except.ok.inj heq)).1
  rcases dm_secrets_cases env key ev nostrPubkey with ⟨secret, iv, hs, hv, -⟩ | ⟨-, error, -, hfail⟩
  · exact ⟨secret, iv, hs, hv, hroom, hbuflen ▸ hmalloc⟩
  · cases hfail.symm.trans hsecrets

/-- A call that returns 1 has passed every step. -/
theorem make_encrypted_dm_ok {env : Env} {key : Key} {ev ev' : NostrEvent} {nostrPubkey : Block 32}
    {kind : Int32} (h : makeEncryptedDm env key ev nostrPubkey kind = .ok ev') :
    ∃ secret iv, sharedSecret env.crypto key nostrPubkey = some secret ∧
      env.random.iv = some iv ∧ dmRoom ev.content.strlen < 2 ^ 31 ∧
      env.malloc (dmRoom ev.content.strlen) = true := by
  obtain ⟨⟨buflen, encsize⟩, hsizes, h⟩ := bind_eq_ok h
  obtain ⟨⟨secret, iv⟩, hsecrets, h⟩ := bind_eq_ok h
  obtain ⟨encrypted, hencrypt, h⟩ := bind_eq_ok h
  have hmalloc : env.malloc buflen = true := by
    by_contra hnull
    simp only [hnull, not_false_eq_true, if_true] at h
    cases h
  exact dm_passed hsizes hsecrets hencrypt hmalloc

/-- A check that fails leaves the event as it was. -/
theorem or_fail_error {α : Type} {error : DmError} {ev : NostrEvent} {x : Option α} {stop : DmStop}
    (h : orFail error ev x = .error stop) : stop = .failed error ev := by
  cases x with
  | none => exact (Except.error.inj h).symm
  | some a => cases h

/-- A tag that is added leaves the content as it was. -/
theorem or_fail_tag_ok {error : DmError} {ev ev' : NostrEvent} {t1 t2 : CStr}
    (h : orFail error ev (nostrAddTag ev t1 t2) = .ok ev') :
    ev' = { ev with tags := ev.tags ++ [⟨[t1, t2]⟩] } := by
  cases htag : nostrAddTag ev t1 t2 with
  | none =>
      rw [htag] at h
      cases h
  | some tagged =>
      rw [htag] at h
      exact (Except.ok.inj h) ▸ nostr_add_tag_n_some htag

/-- A call that returns 1 has set content and kind and added the recipient. -/
theorem make_encrypted_dm_event {env : Env} {key : Key} {ev ev' : NostrEvent}
    {nostrPubkey : Block 32} {kind : Int32}
    (h : makeEncryptedDm env key ev nostrPubkey kind = .ok ev') :
    ∃ secret iv, sharedSecret env.crypto key nostrPubkey = some secret ∧
      env.random.iv = some iv ∧
      ev' = { ev with
        content := dmContent (aesCbcEncryptBuffer env.aes secret iv (pad 16 ev.content.bytes)) iv.1
        kind := kind
        tags := ev.tags ++ [⟨[pTag, hexStr nostrPubkey]⟩] } := by
  obtain ⟨secret, iv, hsecret, hiv, hroom, hmalloc⟩ := make_encrypted_dm_ok h
  refine ⟨secret, iv, hsecret, hiv, ?_⟩
  rw [make_encrypted_dm_eq kind hsecret hiv hroom hmalloc] at h
  split at h
  · exact or_fail_tag_ok h
  · cases h

/-- Every message that is made can be read by its recipient. -/
theorem make_encrypted_dm_readable (env : Env) (key : Key) (ev ev' : NostrEvent)
    (nostrPubkey : Block 32) (kind : Int32)
    (h : makeEncryptedDm env key ev nostrPubkey kind = .ok ev') :
    ∃ secret iv, sharedSecret env.crypto key nostrPubkey = some secret ∧
      env.random.iv = some iv ∧
      Readable env.aes secret iv ev'.content.bytes ev.content.bytes := by
  obtain ⟨secret, iv, hsecret, hiv, rfl⟩ := make_encrypted_dm_event h
  exact ⟨secret, iv, hsecret, hiv, readable_dm_text env.aes secret iv ev.content.bytes⟩

/-! ### A message of eleven characters -/

/-- A padded text and its encryption under the secret the sample keys share. -/
def helloBlock : Block 16 :=
  Block.first 16 (pad 16 (ascii "hello world"))

def helloCipher : Block 16 :=
  hexBlock 16 "6f202c4cd4219e7858163034fa950e68"

/-- AES under that secret, as far as this block goes. -/
def sampleAes : Aes where
  cipher _ := Equiv.swap helloBlock helloCipher
  invCipher _ := Equiv.swap helloBlock helloCipher
  inv_cipher_cipher _ b := Equiv.swap_apply_self helloBlock helloCipher b

/-- Surroundings in which nothing is free behind `encbuf`. -/
def sampleEnv : Env where
  crypto := sampleCrypto
  random := sampleRandom
  aes := sampleAes
  slack := 0
  malloc _ := true

/-- The secret that the sample keys share. -/
theorem sample_secret_shared : sharedSecret sampleCrypto sampleKey peerPubkey =
    some (hexBlock 32 "d01115d548e7561b15c38f004d734633687cf4419620095bc5b0f47070afe85a") := by
  simp [sharedSecret, sampleCrypto, sampleKey, compressedPubkey]

/-- The message is made, and the recipient can read it. -/
theorem make_encrypted_dm_readable_hello :
    ∃ ev', makeEncryptedDm sampleEnv sampleKey (sampleNote 1688794190 (ascii "hello world"))
        peerPubkey 4 = .ok ev' ∧
      ∃ secret iv, sharedSecret sampleCrypto sampleKey peerPubkey = some secret ∧
        sampleRandom.iv = some iv ∧
        Readable sampleAes secret iv ev'.content.bytes (ascii "hello world") := by
  have hmake : ∃ ev', makeEncryptedDm sampleEnv sampleKey
      (sampleNote 1688794190 (ascii "hello world")) peerPubkey 4 = .ok ev' := by
    rw [make_encrypted_dm_eq 4 sample_secret_shared rfl (by decide +kernel) rfl,
      if_pos (by decide +kernel)]
    exact ⟨_, rfl⟩
  obtain ⟨ev', hmake⟩ := hmake
  exact ⟨ev', hmake, make_encrypted_dm_readable _ _ _ _ _ _ hmake⟩

/-- The ways a call can end when a buffer is too small. -/
def DmStop.overrun : DmStop → Bool
  | undefined | aborted => true
  | failed error _ => error.buffer

/-- With nothing free behind `encbuf`, the buffers of a message suffice exactly when at least half
of the last block of the content is in use, or when no message is made. -/
theorem make_encrypted_dm_in_bounds_iff (env : Env) (key : Key) (ev : NostrEvent)
    (nostrPubkey : Block 32) (kind : Int32) (hslack : env.slack = 0)
    (hmalloc : env.malloc (dmRoom ev.content.strlen) = true)
    (hroom : dmRoom ev.content.strlen < 2 ^ 31) :
    (∀ stop, makeEncryptedDm env key ev nostrPubkey kind = .error stop → stop.overrun = false) ↔
      sharedSecret env.crypto key nostrPubkey = none ∨ env.random.iv = none ∨
        8 ≤ ev.content.strlen % 16 := by
  have hpad : (pad 16 ev.content.bytes).length = 16 * (ev.content.strlen / 16 + 1) :=
    length_pad (by omega) ev.content.bytes
  rcases dm_secrets_cases env key ev nostrPubkey with
    ⟨secret, iv, hsecret, hiv, -⟩ | ⟨hnone, error, hbuffer, hfail⟩
  · rw [make_encrypted_dm_eq kind hsecret hiv hroom hmalloc, hpad, hslack]
    by_cases hresidue : 8 ≤ ev.content.strlen % 16
    · refine iff_of_true (fun stop h => ?_) (.inr (.inr hresidue))
      rw [if_pos (by simp; omega)] at h
      rw [or_fail_error h]
      rfl
    · refine iff_of_false (fun h => ?_) (by simp [hsecret, hiv, hresidue])
      have hundefined := h .undefined (if_neg (by simp; omega))
      exact absurd hundefined (by decide)
  · refine iff_of_true (fun stop h => ?_) ?_
    · unfold makeEncryptedDm at h
      rw [dm_sizes_eq hroom] at h
      simp only [hfail, bind, Except.bind] at h
      rw [← Except.error.inj h]
      exact hbuffer
    · rcases hnone with hnone | hnone
      · exact .inl hnone
      · exact .inr (.inl hnone)

/-- Eleven characters are enough of a block for the buffers. -/
theorem make_encrypted_dm_in_bounds_iff_hello :
    (∀ stop, makeEncryptedDm sampleEnv sampleKey (sampleNote 1688794190 (ascii "hello world"))
        peerPubkey 4 = .error stop → stop.overrun = false) ↔
      sharedSecret sampleCrypto sampleKey peerPubkey = none ∨ sampleRandom.iv = none ∨
        8 ≤ (sampleNote 1688794190 (ascii "hello world")).content.strlen % 16 :=
  make_encrypted_dm_in_bounds_iff _ _ _ _ _ rfl rfl (by decide +kernel)

/-- The padding of a short content is written past the end of `encbuf`. -/
theorem make_encrypted_dm_overruns_encbuf :
    sampleEnv.slack = 0 ∧
      dmRoom (sampleNote 1688794190 (ascii "hello")).content.strlen < 2 ^ 31 ∧
      sampleEnv.malloc (dmRoom (sampleNote 1688794190 (ascii "hello")).content.strlen) = true ∧
      makeEncryptedDm sampleEnv sampleKey (sampleNote 1688794190 (ascii "hello")) peerPubkey 4 =
        .error .undefined ∧
      DmStop.overrun .undefined = true := by
  refine ⟨rfl, by decide +kernel, rfl, ?_, rfl⟩
  rw [make_encrypted_dm_eq 4 sample_secret_shared rfl (by decide +kernel) rfl,
    if_neg (by decide +kernel)]

/-! ## What a failed call leaves -/

/-- The calls for the secret and the buffers succeed, and the padded content fits into `encbuf` and
the room behind it. -/
structure DmEncrypts (env : Env) (key : Key) (ev : NostrEvent) (nostrPubkey : Block 32) : Prop where
  secret : ∃ secret, sharedSecret env.crypto key nostrPubkey = some secret
  iv : ∃ iv, env.random.iv = some iv
  room : dmRoom ev.content.strlen < 2 ^ 31
  malloc : env.malloc (dmRoom ev.content.strlen) = true
  fits : (pad 16 ev.content.bytes).length ≤
    ev.content.strlen + ev.content.strlen % 16 + 1 + env.slack

/-- An encrypted content is longer than the content. -/
theorem dm_content_ne (aes : Aes) (secret : Block 32) (iv : Block 16) (content : CStr) :
    dmContent (aesCbcEncryptBuffer aes secret iv (pad 16 content.bytes)) iv.1 ≠ content := by
  intro heq
  have hblocks := length_pad (n := 16) (by omega) content.bytes
  have hlen : (dmText (aesCbcEncryptBuffer aes secret iv (pad 16 content.bytes)) iv.1).length =
      content.bytes.length := congrArg (fun s : CStr => s.bytes.length) heq
  rw [dmText, List.length_append, length_base64_text, length_aes_cbc aes secret iv hblocks,
    base64EncodedLength] at hlen
  omega

/-- With all tags in use, the content is gone by the time the recipient is refused. -/
theorem make_encrypted_dm_full {env : Env} {key : Key} {ev : NostrEvent} {nostrPubkey : Block 32}
    (kind : Int32) (h : DmEncrypts env key ev nostrPubkey) (hfull : maxTags ≤ ev.tags.length) :
    ∃ ev', makeEncryptedDm env key ev nostrPubkey kind = .error (.failed .tooManyTags ev') ∧
      ev'.content ≠ ev.content := by
  obtain ⟨⟨secret, hsecret⟩, ⟨iv, hiv⟩, hroom, hmalloc, hfits⟩ := h
  have hrun := make_encrypted_dm_eq kind hsecret hiv hroom hmalloc
  rw [if_pos hfits] at hrun
  simp only [nostrAddTag, nostrAddTagN, if_pos (Nat.lt_succ_of_le hfull), orFail] at hrun
  exact ⟨_, hrun, dm_content_ne env.aes secret iv ev.content⟩

/-- A size that is no `int` is the one thing that can go wrong with the sizes. -/
theorem dm_sizes_error {n : Nat} {stop : DmStop} (h : dmSizes n = .error stop) :
    stop = .undefined := by
  unfold dmSizes at h
  simp only at h
  split at h
  · cases h
  · exact (Except.error.inj h).symm

/-- With the secret and the vector found, a call that does not encrypt the content has written past
a buffer. -/
theorem make_encrypted_dm_undefined {env : Env} {key : Key} {ev : NostrEvent}
    {nostrPubkey secret : Block 32} {iv : Block 16} (kind : Int32)
    (hsecret : sharedSecret env.crypto key nostrPubkey = some secret)
    (hiv : env.random.iv = some iv) (h : ¬ DmEncrypts env key ev nostrPubkey) :
    makeEncryptedDm env key ev nostrPubkey kind = .error .undefined := by
  have hsecrets : ∃ secrets, dmSecrets env key ev nostrPubkey = .ok secrets := by
    rcases dm_secrets_cases env key ev nostrPubkey with ⟨secret', iv', -, -, hok⟩ | ⟨hnone, -⟩
    · exact ⟨_, hok⟩
    · rw [hsecret, hiv] at hnone
      simp at hnone
  obtain ⟨⟨secret', iv'⟩, hsecrets⟩ := hsecrets
  cases hsizes : dmSizes ev.content.strlen with
  | error stop =>
      obtain rfl := dm_sizes_error hsizes
      unfold makeEncryptedDm
      rw [hsizes]
      rfl
  | ok sizes =>
      obtain ⟨buflen, encsize⟩ := sizes
      by_cases hcopy : ev.content.bytes.length ≤ encsize + env.slack
      · -- the content was short enough to be copied, so the sizes are those that were planned
        have hroom : dmRoom ev.content.strlen < 2 ^ 31 := by
          refine dm_room_of_sizes hsizes ?_
          rw [CStr.strlen]
          omega
        obtain ⟨rfl, rfl⟩ := Prod.mk.inj (Except.ok.inj (hsizes.symm.trans (dm_sizes_eq hroom)))
        cases hmalloc : env.malloc (dmRoom ev.content.strlen) with
        | true =>
            rw [make_encrypted_dm_eq kind hsecret hiv hroom hmalloc, if_neg]
            exact fun hfits => h ⟨⟨secret, hsecret⟩, ⟨iv, hiv⟩, hroom, hmalloc, hfits⟩
        | false =>
            have hblocks := length_pad (n := 16) (by omega) ev.content.bytes
            have hlen : (pad 16 ev.content.bytes).length < 2 ^ 31 := by
              rw [dmRoom, CStr.strlen] at hroom
              omega
            have hencrypt := dm_encrypt_eq env ev secret' iv'
              (ev.content.strlen + ev.content.strlen % 16 + 1) hlen
            unfold makeEncryptedDm
            rw [hsizes]
            split at hencrypt
            · simp only [hsecrets, hencrypt, hmalloc, bind, Except.bind, Bool.false_eq_true,
                not_false_eq_true, if_true]
              rfl
            · simp only [hsecrets, hencrypt, bind, Except.bind]
      · have hencrypt : dmEncrypt env ev secret' iv' encsize = .error .undefined := by
          have hstore : (⟨encsize, env.slack, fun _ => 0⟩ : Buffer).store 0 ev.content.bytes =
              .error .undefined := store_undefined (by simpa using hcopy)
          simp only [dmEncrypt, hstore, bind, Except.bind]
        unfold makeEncryptedDm
        rw [hsizes]
        simp only [hsecrets, hencrypt, bind, Except.bind]

/-- A call for the secret or the vector fails, after sizes that can be computed. -/
structure DmRefused (env : Env) (key : Key) (ev : NostrEvent) (nostrPubkey : Block 32) : Prop where
  sizes : ∃ sizes, dmSizes ev.content.strlen = .ok sizes
  call : sharedSecret env.crypto key nostrPubkey = none ∨ env.random.iv = none

/-- A call that is refused fails before it has touched the event. -/
theorem make_encrypted_dm_refused {env : Env} {key : Key} {ev : NostrEvent}
    {nostrPubkey : Block 32} (kind : Int32) (h : DmRefused env key ev nostrPubkey) :
    ∃ error, makeEncryptedDm env key ev nostrPubkey kind = .error (.failed error ev) := by
  obtain ⟨⟨sizes, hsizes⟩, hcall⟩ := h
  rcases dm_secrets_cases env key ev nostrPubkey with
    ⟨secret, iv, hsecret, hiv, -⟩ | ⟨-, error, -, hfail⟩
  · rw [hsecret, hiv] at hcall
    simp at hcall
  · refine ⟨error, ?_⟩
    unfold makeEncryptedDm
    rw [hsizes]
    simp only [hfail, bind, Except.bind]

/-- With room for a tag, a content that can be encrypted is encrypted. -/
theorem make_encrypted_dm_made {env : Env} {key : Key} {ev : NostrEvent} {nostrPubkey : Block 32}
    (kind : Int32) (h : DmEncrypts env key ev nostrPubkey) (hspace : ev.tags.length < maxTags) :
    ∃ ev', makeEncryptedDm env key ev nostrPubkey kind = .ok ev' := by
  obtain ⟨⟨secret, hsecret⟩, ⟨iv, hiv⟩, hroom, hmalloc, hfits⟩ := h
  have hrun := make_encrypted_dm_eq kind hsecret hiv hroom hmalloc
  rw [if_pos hfits] at hrun
  simp only [nostrAddTag, nostrAddTagN, if_neg (Nat.not_lt.mpr hspace), orFail] at hrun
  exact ⟨_, hrun⟩

/-- The four ways a call goes. -/
theorem make_encrypted_dm_cases (env : Env) (key : Key) (ev : NostrEvent) (nostrPubkey : Block 32) :
    DmRefused env key ev nostrPubkey ∨ DmEncrypts env key ev nostrPubkey ∨
      ∀ kind, makeEncryptedDm env key ev nostrPubkey kind = .error .undefined := by
  by_cases hencrypts : DmEncrypts env key ev nostrPubkey
  · exact .inr (.inl hencrypts)
  · rcases dm_secrets_cases env key ev nostrPubkey with
      ⟨secret, iv, hsecret, hiv, -⟩ | ⟨hcall, -⟩
    · exact .inr (.inr fun kind => make_encrypted_dm_undefined kind hsecret hiv hencrypts)
    · cases hsizes : dmSizes ev.content.strlen with
      | ok sizes => exact .inl ⟨⟨sizes, hsizes⟩, hcall⟩
      | error stop =>
          obtain rfl := dm_sizes_error hsizes
          refine .inr (.inr fun kind => ?_)
          unfold makeEncryptedDm
          rw [hsizes]
          rfl

/-- A call has a defined end, leaves the event as it was when it fails, and sets the kind and adds
the recipient when it succeeds. -/
structure Intact (env : Env) (key : Key) (ev : NostrEvent) (nostrPubkey : Block 32)
    (kind : Int32) : Prop where
  defined : makeEncryptedDm env key ev nostrPubkey kind ≠ .error .undefined
  failed : ∀ error ev', makeEncryptedDm env key ev nostrPubkey kind = .error (.failed error ev') →
    ev'.content = ev.content ∧ ev'.kind = ev.kind ∧ ev'.tags = ev.tags
  made : ∀ ev', makeEncryptedDm env key ev nostrPubkey kind = .ok ev' →
    ev'.kind = kind ∧ ev'.tags = ev.tags ++ [⟨[pTag, hexStr nostrPubkey]⟩]

/-- The event is intact exactly when a call is refused, or when the padded content fits into
`encbuf` and the room behind it and there is room for a tag. -/
theorem make_encrypted_dm_intact_iff (env : Env) (key : Key) (ev : NostrEvent)
    (nostrPubkey : Block 32) (kind : Int32) :
    Intact env key ev nostrPubkey kind ↔
      DmRefused env key ev nostrPubkey ∨
        DmEncrypts env key ev nostrPubkey ∧ ev.tags.length < maxTags := by
  constructor
  · intro h
    rcases make_encrypted_dm_cases env key ev nostrPubkey with hrefused | hencrypts | hundefined
    · exact .inl hrefused
    · refine .inr ⟨hencrypts, ?_⟩
      by_contra hfull
      obtain ⟨ev', hrun, hcontent⟩ := make_encrypted_dm_full kind hencrypts (Nat.not_lt.mp hfull)
      exact hcontent (h.failed _ ev' hrun).1
    · exact absurd (hundefined kind) h.defined
  · rintro (hrefused | ⟨hencrypts, hspace⟩)
    · obtain ⟨error, hrun⟩ := make_encrypted_dm_refused kind hrefused
      refine ⟨by rw [hrun]; nofun, fun error' ev' h => ?_, fun ev' h => ?_⟩
      · rw [hrun] at h
        cases h
        exact ⟨rfl, rfl, rfl⟩
      · rw [hrun] at h
        cases h
    · obtain ⟨made, hrun⟩ := make_encrypted_dm_made kind hencrypts hspace
      refine ⟨by rw [hrun]; nofun, fun error ev' h => ?_, fun ev' h => ?_⟩
      · rw [hrun] at h
        cases h
      · obtain ⟨secret, iv, -, -, rfl⟩ := make_encrypted_dm_event h
        exact ⟨rfl, rfl⟩

/-- A note with 32 tags loses its content and is not sent. -/
theorem make_encrypted_dm_spoils_event :
    ¬ ∀ (env : Env) (key : Key) (ev : NostrEvent) (nostrPubkey : Block 32) (kind : Int32),
      (∀ error ev', makeEncryptedDm env key ev nostrPubkey kind = .error (.failed error ev') →
        ev'.content = ev.content ∧ ev'.kind = ev.kind ∧ ev'.tags = ev.tags) ∧
      ∀ ev', makeEncryptedDm env key ev nostrPubkey kind = .ok ev' →
        ev'.kind = kind ∧ ev'.tags = ev.tags ++ [⟨[pTag, hexStr nostrPubkey]⟩] := by
  intro h
  let note := { sampleNote 1688794190 (ascii "hello world") with
    tags := List.replicate 32 ⟨[pTag, pTag]⟩ }
  have hencrypts : DmEncrypts sampleEnv sampleKey note peerPubkey :=
    ⟨⟨_, sample_secret_shared⟩, ⟨_, rfl⟩, by decide +kernel, rfl, by decide +kernel⟩
  obtain ⟨ev', hrun, hcontent⟩ := make_encrypted_dm_full 4 hencrypts (by simp [note, maxTags])
  exact hcontent ((h _ _ _ _ _).1 _ ev' hrun).1

end Gnostr
