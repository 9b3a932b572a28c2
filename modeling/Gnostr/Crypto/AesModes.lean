import Gnostr.Cli.Dm
import Gnostr.Crypto.AesStandard

/-!
# Encryption of a buffer

The functions of `aes.c` that encrypt and decrypt in place. A context holds the round keys and the
vector for the next block; `AES_CBC_encrypt_buffer` leaves the last block it wrote there and
`AES_CBC_decrypt_buffer` the last it read, so a text may be handed over in any number of calls
(`cbc_calls`). The loops run over the next multiple of the block size, and a buffer that ends before
it is left behind.

With the cipher in place of the one that was given, `make_encrypted_dm` sends the encryption of
the standard (`make_encrypted_dm_standard`).
-/

namespace Gnostr.Rijndael

open Wire

/-! ## Blocks and states -/

/-- The cast of a buffer to `state_t *`. -/
def State.ofBlock (b : Block 16) : State :=
  ⟨wordAt b.1 0, wordAt b.1 1, wordAt b.1 2, wordAt b.1 3⟩

/-- The bytes of a state as they lie in memory. -/
def State.bytes (s : State) : Bytes :=
  s.c0.bytes ++ s.c1.bytes ++ s.c2.bytes ++ s.c3.bytes

/-- A state has sixteen bytes. -/
theorem length_state_bytes (s : State) : s.bytes.length = 16 := rfl

/-- The block that is left in the buffer. -/
def State.block (s : State) : Block 16 :=
  ⟨s.bytes, length_state_bytes s⟩

/-- A state is that of its block. -/
theorem of_block_block (s : State) : State.ofBlock s.block = s := rfl

/-- And a block that of its state. -/
theorem block_of_block (b : Block 16) : (State.ofBlock b).block = b := by
  refine Subtype.ext (List.ext_getElem (by rw [b.2]; rfl) fun i hi hi' => ?_)
  have h16 : i < 16 := hi
  have hget (j : Nat) (hj : j < b.1.length) : b.1.getD j 0 = b.1[j] := by
    rw [List.getD_eq_getElem?_getD, List.getElem?_eq_getElem hj, Option.getD_some]
  rw [← hget i hi']
  interval_cases i <;> rfl

/-- `Cipher` on a buffer. -/
def cipherBlock (size : KeySize) (roundKey : Bytes) (b : Block 16) : Block 16 :=
  (cipher size roundKey (State.ofBlock b)).block

/-- `InvCipher` on a buffer. -/
def invCipherBlock (size : KeySize) (roundKey : Bytes) (b : Block 16) : Block 16 :=
  (invCipher size roundKey (State.ofBlock b)).block

/-- A block that was encrypted is decrypted. -/
theorem inv_cipher_block_cipher_block (size : KeySize) (roundKey : Bytes) (b : Block 16) :
    invCipherBlock size roundKey (cipherBlock size roundKey b) = b := by
  rw [invCipherBlock, cipherBlock, of_block_block, inv_cipher_cipher, block_of_block]

namespace Standard

/-- The bytes of a column. -/
def Matrix.column (s : Matrix) (c : Fin 4) : Bytes :=
  (List.finRange 4).map fun r => s r c

/-- A state in the order in which its bytes are stored: column by column. -/
def Matrix.bytes (s : Matrix) : Bytes :=
  (List.finRange 4).flatMap s.column

/-- A matrix has sixteen bytes. -/
theorem length_matrix_bytes (s : Matrix) : s.bytes.length = 16 := rfl

/-- The block of a state. -/
def Matrix.block (s : Matrix) : Block 16 :=
  ⟨s.bytes, length_matrix_bytes s⟩

/-- The state of a block. -/
def Matrix.ofBlock (b : Block 16) : Matrix :=
  fun r c => b.1.getD (c * 4 + r) 0

/-- The cipher on a block. -/
def cipherBlock (size : KeySize) (key : Bytes) (b : Block 16) : Block 16 :=
  (cipher size key (Matrix.ofBlock b)).block

end Standard

/-- A state and its matrix have the same bytes. -/
theorem matrix_block (s : State) : s.matrix.block = s.block := rfl

/-- They are read from a block in the same way. -/
theorem matrix_of_block (b : Block 16) :
    (State.ofBlock b).matrix = Standard.Matrix.ofBlock b := by
  funext r c
  fin_cases c <;> fin_cases r <;> rfl

/-- `Cipher` under the expanded key is the cipher of the standard, block by block. -/
theorem cipher_block_eq (size : KeySize) (key : Block (4 * size.nk)) (b : Block 16) :
    cipherBlock size (keyExpansion size key) b = Standard.cipherBlock size key.1 b := by
  rw [cipherBlock, ← matrix_block, cipher_eq, matrix_of_block]
  rfl

/-- A block that was decrypted is encrypted again. -/
theorem cipher_block_inv_cipher_block (size : KeySize) (roundKey : Bytes) (b : Block 16) :
    cipherBlock size roundKey (invCipherBlock size roundKey b) = b := by
  rw [cipherBlock, invCipherBlock, of_block_block, cipher_inv_cipher, block_of_block]

/-- Under the expanded key `Cipher` computes the cipher of the standard, and `InvCipher` finds the
one block that cipher takes to a given one. -/
theorem ciphers_standard (size : KeySize) (key : Block (4 * size.nk)) (b c : Block 16) :
    cipherBlock size (keyExpansion size key) b = Standard.cipherBlock size key.1 b ∧
      (invCipherBlock size (keyExpansion size key) c = b ↔
        Standard.cipherBlock size key.1 b = c) := by
  refine ⟨cipher_block_eq size key b, ?_⟩
  rw [← cipher_block_eq]
  constructor
  · intro h
    rw [← h, cipher_block_inv_cipher_block]
  · intro h
    rw [← h, inv_cipher_block_cipher_block]

-- the first block of the test vectors in the comment of the source
example : cipherBlock .aes128
      (keyExpansion .aes128 (hexBlock 16 "2b7e151628aed2a6abf7158809cf4f3c"))
      (hexBlock 16 "6bc1bee22e409f96e93d7e117393172a") =
    hexBlock 16 "3ad77bb40d7a3660a89ecaf32466ef97" := by
  decide +kernel

/-! ## Contexts -/

/-- `struct AES_ctx`. -/
structure Ctx where
  roundKey : Bytes
  iv : Block 16

/-- `AES_init_ctx_iv`. -/
def aesInitCtxIv (size : KeySize) (key : Block (4 * size.nk)) (iv : Block 16) : Ctx :=
  ⟨keyExpansion size key, iv⟩

/-- `AES_ctx_set_iv`. -/
def aesCtxSetIv (ctx : Ctx) (iv : Block 16) : Ctx :=
  { ctx with iv := iv }

/-- The loop of `AES_CBC_encrypt_buffer`, with the block `Iv` points to and the bytes from `buf`
to the end of its object. Outside of the object nothing is defined. -/
def cbcEncryptLoop (size : KeySize) (roundKey : Bytes) :
    Nat → Block 16 → Bytes → Option (Block 16 × Bytes)
  | 0, iv, buf => some (iv, buf)
  | n + 1, iv, buf =>
      if 16 ≤ buf.length then
        let block := cipherBlock size roundKey (xorMix (Block.first 16 buf) iv)
        (cbcEncryptLoop size roundKey n block (buf.drop 16)).map fun after =>
          (after.1, block.1 ++ after.2)
      else none

/-- `AES_CBC_encrypt_buffer`. -/
def aesCbcEncryptBuffer (size : KeySize) (ctx : Ctx) (buf : Bytes) (length : Nat) :
    Option (Ctx × Bytes) :=
  (cbcEncryptLoop size ctx.roundKey ((length + 15) / 16) ctx.iv buf).map fun after =>
    ({ ctx with iv := after.1 }, after.2)

/-- The loop of `AES_CBC_decrypt_buffer`. -/
def cbcDecryptLoop (size : KeySize) (roundKey : Bytes) :
    Nat → Block 16 → Bytes → Option (Block 16 × Bytes)
  | 0, iv, buf => some (iv, buf)
  | n + 1, iv, buf =>
      if 16 ≤ buf.length then
        let storeNextIv := Block.first 16 buf
        let block := xorMix (invCipherBlock size roundKey storeNextIv) iv
        (cbcDecryptLoop size roundKey n storeNextIv (buf.drop 16)).map fun after =>
          (after.1, block.1 ++ after.2)
      else none

/-- `AES_CBC_decrypt_buffer`. -/
def aesCbcDecryptBuffer (size : KeySize) (ctx : Ctx) (buf : Bytes) (length : Nat) :
    Option (Ctx × Bytes) :=
  (cbcDecryptLoop size ctx.roundKey ((length + 15) / 16) ctx.iv buf).map fun after =>
    ({ ctx with iv := after.1 }, after.2)

/-! ## What the loops do -/

/-- The first block of a text that begins with one. -/
theorem block_first_append (b : Block 16) (t : Bytes) : Block.first 16 (b.1 ++ t) = b := by
  refine Subtype.ext ?_
  rw [Block.first_of_le (by simp [b.2]), List.take_left' b.2]

/-- The loop encrypts the blocks at the front of the object and leaves the rest as it is. -/
theorem cbc_encrypt_loop_eq (size : KeySize) (roundKey : Bytes) (iv : Block 16)
    (bs : List (Block 16)) (rest : Bytes) :
    cbcEncryptLoop size roundKey bs.length iv (joined bs ++ rest) =
      some ((chainEncrypt xorMix (cipherBlock size roundKey) iv bs).getLastD iv,
        joined (chainEncrypt xorMix (cipherBlock size roundKey) iv bs) ++ rest) := by
  induction bs generalizing iv with
  | nil => rfl
  | cons b bs ih =>
      have hle : 16 ≤ (b.1 ++ (joined bs ++ rest)).length := by simp [b.2]
      show cbcEncryptLoop size roundKey (bs.length + 1) iv (b.1 ++ joined bs ++ rest) = _
      rw [List.append_assoc, cbcEncryptLoop, if_pos hle, block_first_append,
        List.drop_left' b.2]
      simp only [ih, Option.map_some, chainEncrypt, List.getLastD_cons, joined_cons,
        List.append_assoc]

/-- The loop decrypts the blocks at the front of the object and leaves the rest as it is. -/
theorem cbc_decrypt_loop_eq (size : KeySize) (roundKey : Bytes) (iv : Block 16)
    (cs : List (Block 16)) (rest : Bytes) :
    cbcDecryptLoop size roundKey cs.length iv (joined cs ++ rest) =
      some (cs.getLastD iv,
        joined (chainDecrypt xorMix (invCipherBlock size roundKey) iv cs) ++ rest) := by
  induction cs generalizing iv with
  | nil => rfl
  | cons c cs ih =>
      have hle : 16 ≤ (c.1 ++ (joined cs ++ rest)).length := by simp [c.2]
      show cbcDecryptLoop size roundKey (cs.length + 1) iv (c.1 ++ joined cs ++ rest) = _
      rw [List.append_assoc, cbcDecryptLoop, if_pos hle, block_first_append,
        List.drop_left' c.2]
      simp only [ih, Option.map_some, chainDecrypt, List.getLastD_cons, joined_cons,
        List.append_assoc]

/-! ## Calls one after the other -/

/-- A text in several buffers, handed over with one context. -/
def calls (f : Ctx → Bytes → Nat → Option (Ctx × Bytes)) : Ctx → List Bytes → Option (Ctx × Bytes)
  | ctx, [] => some (ctx, [])
  | ctx, buf :: bufs =>
      (f ctx buf buf.length).bind fun after =>
        (calls f after.1 bufs).map fun last => (last.1, after.2 ++ last.2)

/-- The number of blocks in a joined text. -/
theorem length_joined_div (bs : List (Block 16)) : ((joined bs).length + 15) / 16 = bs.length := by
  rw [length_joined]
  omega

/-- A call encrypts the chain of its blocks and keeps the last one. -/
theorem cbc_encrypt_buffer_eq (size : KeySize) (ctx : Ctx) (bs : List (Block 16)) :
    aesCbcEncryptBuffer size ctx (joined bs) (joined bs).length =
      some ({ ctx with
        iv := (chainEncrypt xorMix (cipherBlock size ctx.roundKey) ctx.iv bs).getLastD ctx.iv },
        joined (chainEncrypt xorMix (cipherBlock size ctx.roundKey) ctx.iv bs)) := by
  have hloop := cbc_encrypt_loop_eq size ctx.roundKey ctx.iv bs []
  simp only [List.append_nil] at hloop
  rw [aesCbcEncryptBuffer, length_joined_div, hloop, Option.map_some]

/-- A call decrypts them and keeps the last one it read. -/
theorem cbc_decrypt_buffer_eq (size : KeySize) (ctx : Ctx) (cs : List (Block 16)) :
    aesCbcDecryptBuffer size ctx (joined cs) (joined cs).length =
      some ({ ctx with iv := cs.getLastD ctx.iv },
        joined (chainDecrypt xorMix (invCipherBlock size ctx.roundKey) ctx.iv cs)) := by
  have hloop := cbc_decrypt_loop_eq size ctx.roundKey ctx.iv cs []
  simp only [List.append_nil] at hloop
  rw [aesCbcDecryptBuffer, length_joined_div, hloop, Option.map_some]

/-- The last of two lists, one behind the other. -/
theorem getLastD_append {α : Type} (as bs : List α) (d : α) :
    (as ++ bs).getLastD d = bs.getLastD (as.getLastD d) := by
  induction as generalizing d with
  | nil => rfl
  | cons a as ih => rw [List.cons_append, List.getLastD_cons, List.getLastD_cons, ih]

/-- Encryption in several calls is the chain over all blocks. -/
theorem cbc_encrypt_calls (size : KeySize) (ctx : Ctx) (ps : List (List (Block 16))) :
    calls (aesCbcEncryptBuffer size) ctx (ps.map joined) =
      some ({ ctx with
        iv := (chainEncrypt xorMix (cipherBlock size ctx.roundKey) ctx.iv ps.flatten).getLastD
          ctx.iv },
        joined (chainEncrypt xorMix (cipherBlock size ctx.roundKey) ctx.iv ps.flatten)) := by
  induction ps generalizing ctx with
  | nil => rfl
  | cons p ps ih =>
      rw [List.map_cons, calls, cbc_encrypt_buffer_eq, Option.bind_some, ih, Option.map_some,
        List.flatten_cons, chain_encrypt_append, joined_append, getLastD_append]

/-- Calls in a row decrypt what one call does. -/
theorem cbc_decrypt_calls (size : KeySize) (ctx : Ctx) (qs : List (List (Block 16))) :
    calls (aesCbcDecryptBuffer size) ctx (qs.map joined) =
      some ({ ctx with iv := qs.flatten.getLastD ctx.iv },
        joined (chainDecrypt xorMix (invCipherBlock size ctx.roundKey) ctx.iv qs.flatten)) := by
  induction qs generalizing ctx with
  | nil => rfl
  | cons q qs ih =>
      rw [List.map_cons, calls, cbc_decrypt_buffer_eq, Option.bind_some, ih, Option.map_some,
        List.flatten_cons, chain_decrypt_append, joined_append, getLastD_append]

/-- A text may be encrypted in any number of calls and decrypted in any other: the calls together
are the chain over all blocks, decryption gives the text back, and both contexts end with the same
vector. -/
theorem cbc_calls (size : KeySize) (ctx : Ctx) (ps : List (List (Block 16))) :
    ∃ ctx' cs, cs = chainEncrypt xorMix (cipherBlock size ctx.roundKey) ctx.iv ps.flatten ∧
      calls (aesCbcEncryptBuffer size) ctx (ps.map joined) = some (ctx', joined cs) ∧
      ∀ qs : List (List (Block 16)), qs.flatten = cs →
        calls (aesCbcDecryptBuffer size) ctx (qs.map joined) =
          some (ctx', joined ps.flatten) := by
  refine ⟨_, _, rfl, cbc_encrypt_calls size ctx ps, fun qs hqs => ?_⟩
  rw [cbc_decrypt_calls, hqs, chain_decrypt_encrypt xorMix xor_mix_cancel
    (inv_cipher_block_cipher_block size ctx.roundKey)]

/-! ## The cipher of direct messages -/

/-- The cipher of `aes.c` as the header configures it. -/
def aes256 : Aes where
  cipher key := cipherBlock .aes256 (keyExpansion .aes256 key)
  invCipher key := invCipherBlock .aes256 (keyExpansion .aes256 key)
  inv_cipher_cipher key := inv_cipher_block_cipher_block .aes256 (keyExpansion .aes256 key)

/-- What `aes_encrypt` is given is what the two calls of `aes.c` compute in a buffer of whole
blocks. -/
theorem aes_cbc_encrypt_buffer_eq (key : Block 32) (iv : Block 16) {buf : Bytes} {k : Nat}
    (h : buf.length = 16 * k) :
    (aesCbcEncryptBuffer .aes256 (aesInitCtxIv .aes256 key iv) buf buf.length).map Prod.snd =
      some (Gnostr.aesCbcEncryptBuffer aes256 key iv buf) := by
  have hk : (buf.length + 15) / 16 = k := by omega
  have hbuf := joined_blocks h
  conv_lhs => rw [← hbuf]
  rw [cbc_encrypt_buffer_eq, Option.map_some, Gnostr.aesCbcEncryptBuffer, hk]
  rfl

/-- The encryption of a padded text by the standard. -/
def Standard.encrypt (secret : Block 32) (iv : Block 16) (text : Bytes) : Bytes :=
  joined (chainEncrypt xorMix (Standard.cipherBlock .aes256 secret.1) iv
    (blocks 16 (text.length / 16 + 1) (pad 16 text)))

/-- The direct message is encrypted as the standards say. -/
theorem encrypt_eq (secret : Block 32) (iv : Block 16) (text : Bytes) :
    Gnostr.aesCbcEncryptBuffer aes256 secret iv (pad 16 text) =
      Standard.encrypt secret iv text := by
  have hcipher : aes256.cipher secret = Standard.cipherBlock .aes256 secret.1 :=
    funext (cipher_block_eq .aes256 secret)
  have hk : ((pad 16 text).length + 15) / 16 = text.length / 16 + 1 := by
    rw [length_pad (by omega)]
    omega
  rw [Gnostr.aesCbcEncryptBuffer, hk, hcipher, Standard.encrypt]

/-- A check that succeeds has its value. -/
theorem or_fail_ok {α : Type} {error : DmError} {ev : NostrEvent} {x : Option α} {a : α}
    (h : orFail error ev x = .ok a) : x = some a := by
  cases x with
  | none => cases h
  | some b => exact congrArg some (Except.ok.inj h)

/-- `make_encrypted_dm` with this cipher sends the encryption of the standard under the shared
secret, and does so exactly when no call before it failed, the arithmetic stays within `int`, the
padded text fits in `encbuf` and what lies behind it, and a tag is free. -/
theorem make_encrypted_dm_standard (env : Env) (key : Key) (ev ev' : NostrEvent)
    (nostrPubkey : Block 32) (kind : Int32) :
    makeEncryptedDm { env with aes := aes256 } key ev nostrPubkey kind = .ok ev' ↔
      ∃ secret iv, sharedSecret env.crypto key nostrPubkey = some secret ∧
        env.random.iv = some iv ∧ dmRoom ev.content.strlen < 2 ^ 31 ∧
        env.malloc (dmRoom ev.content.strlen) = true ∧
        16 * (ev.content.strlen / 16 + 1) ≤
          ev.content.strlen + ev.content.strlen % 16 + 1 + env.slack ∧
        nostrAddTag { ev with
          content := dmContent (Standard.encrypt secret iv ev.content.bytes) iv.1
          kind := kind } pTag (hexStr nostrPubkey) = some ev' := by
  have hlen := length_pad (n := 16) (by omega) ev.content.bytes
  have hrun {secret : Block 32} {iv : Block 16} :=
    @make_encrypted_dm_eq { env with aes := aes256 } key ev nostrPubkey secret iv kind
  constructor
  · intro h
    obtain ⟨secret, iv, hsecret, hiv, hroom, hmalloc⟩ := make_encrypted_dm_ok h
    rw [hrun hsecret hiv hroom hmalloc, hlen] at h
    split at h
    · next hfit =>
      refine ⟨secret, iv, hsecret, hiv, hroom, hmalloc, hfit, ?_⟩
      rw [encrypt_eq] at h
      exact or_fail_ok h
    · cases h
  · rintro ⟨secret, iv, hsecret, hiv, hroom, hmalloc, hfit, htag⟩
    rw [hrun hsecret hiv hroom hmalloc, if_pos (by rw [hlen]; exact hfit)]
    simp only [encrypt_eq, htag]
    rfl

end Gnostr.Rijndael
