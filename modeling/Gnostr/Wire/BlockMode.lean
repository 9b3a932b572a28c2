import Gnostr.Wire.Bytes

/-!
# Chained blocks and padding

A block cipher applied to a text: the text is padded to whole blocks, cut, and every block is
mixed with the block encrypted before it. Padding follows PKCS#7, so that a text always gains at
least one byte and the last byte says how many. `chain_decrypt_encrypt`, `joined_blocks` and
`unpad_pad` undo the three steps.
-/

namespace Wire

/-! ## Chaining -/

section Chaining

variable {β : Type} (xor : β → β → β)

/-- Encrypt blocks one after the other, each mixed with the one before it. -/
def chainEncrypt (cipher : β → β) : β → List β → List β
  | _, [] => []
  | iv, b :: rest => cipher (xor b iv) :: chainEncrypt cipher (cipher (xor b iv)) rest

/-- Decrypt blocks one after the other. -/
def chainDecrypt (invCipher : β → β) : β → List β → List β
  | _, [] => []
  | iv, c :: rest => xor (invCipher c) iv :: chainDecrypt invCipher c rest

/-- Every block is encrypted to one. -/
theorem length_chain_encrypt (cipher : β → β) (iv : β) (bs : List β) :
    (chainEncrypt xor cipher iv bs).length = bs.length := by
  induction bs generalizing iv with
  | nil => rfl
  | cons b bs ih => simp [chainEncrypt, ih]

/-- When mixing and the cipher can be undone on every block, so can the chain. -/
theorem chain_decrypt_encrypt {cipher invCipher : β → β} (hxor : ∀ a b, xor (xor a b) b = a)
    (hinv : ∀ b, invCipher (cipher b) = b) (iv : β) (bs : List β) :
    chainDecrypt xor invCipher iv (chainEncrypt xor cipher iv bs) = bs := by
  induction bs generalizing iv with
  | nil => rfl
  | cons b bs ih =>
      show xor (invCipher (cipher (xor b iv))) iv :: _ = b :: bs
      rw [hinv, hxor, ih]

/-- A chain goes on from the last block encrypted. -/
theorem chain_encrypt_append (cipher : β → β) (iv : β) (as bs : List β) :
    chainEncrypt xor cipher iv (as ++ bs) = chainEncrypt xor cipher iv as ++
      chainEncrypt xor cipher ((chainEncrypt xor cipher iv as).getLastD iv) bs := by
  induction as generalizing iv with
  | nil => rfl
  | cons a as ih =>
      rw [List.cons_append, chainEncrypt, chainEncrypt, List.cons_append, List.getLastD_cons, ih]

/-- Two chains are decrypted one behind the other. -/
theorem chain_decrypt_append (invCipher : β → β) (iv : β) (cs ds : List β) :
    chainDecrypt xor invCipher iv (cs ++ ds) =
      chainDecrypt xor invCipher iv cs ++ chainDecrypt xor invCipher (cs.getLastD iv) ds := by
  induction cs generalizing iv with
  | nil => rfl
  | cons c cs ih =>
      rw [List.cons_append, chainDecrypt, chainDecrypt, List.cons_append, List.getLastD_cons, ih]

end Chaining

/-! ## Cutting a text into blocks -/

/-- The first `k` blocks of a text. -/
def blocks (n : Nat) : Nat → Bytes → List (Block n)
  | 0, _ => []
  | k + 1, t => Block.first n t :: blocks n k (t.drop n)

/-- The text blocks make up. -/
def joined {n : Nat} (bs : List (Block n)) : Bytes :=
  bs.flatMap Subtype.val

/-- As many blocks as were asked for. -/
theorem length_blocks (n k : Nat) (t : Bytes) : (blocks n k t).length = k := by
  induction k generalizing t with
  | zero => rfl
  | succ k ih => simp [blocks, ih]

/-- One block more. -/
theorem joined_cons {n : Nat} (b : Block n) (bs : List (Block n)) :
    joined (b :: bs) = b.1 ++ joined bs :=
  List.flatMap_cons

/-- Two lists of blocks, one behind the other. -/
theorem joined_append {n : Nat} (as bs : List (Block n)) :
    joined (as ++ bs) = joined as ++ joined bs :=
  List.flatMap_append

/-- All blocks have the same length. -/
theorem length_joined {n : Nat} (bs : List (Block n)) : (joined bs).length = n * bs.length := by
  induction bs with
  | nil => rfl
  | cons b bs ih =>
      show (b.1 ++ joined bs).length = n * (bs.length + 1)
      rw [List.length_append, ih, b.2, Nat.mul_add, Nat.mul_one, Nat.add_comm]

/-- A text of whole blocks is made up of its blocks. -/
theorem joined_blocks {n k : Nat} {t : Bytes} (h : t.length = n * k) :
    joined (blocks n k t) = t := by
  induction k generalizing t with
  | zero => exact (List.length_eq_zero_iff.mp (by simpa using h)).symm
  | succ k ih =>
      have hle : n ≤ t.length := by rw [h, Nat.mul_add, Nat.mul_one]; omega
      have hrest : (t.drop n).length = n * k := by
        rw [List.length_drop, h, Nat.mul_add, Nat.mul_one, Nat.add_sub_cancel]
      show (Block.first n t).1 ++ joined (blocks n k (t.drop n)) = t
      rw [ih hrest, Block.first_of_le hle, List.take_append_drop]

/-- Cutting what blocks make up gives the blocks. -/
theorem blocks_joined {n : Nat} (bs : List (Block n)) : blocks n bs.length (joined bs) = bs := by
  induction bs with
  | nil => rfl
  | cons b bs ih =>
      have hfirst : Block.first n (b.1 ++ joined bs) = b := by
        refine Subtype.ext ?_
        rw [Block.first_of_le (by simp [b.2]), List.take_left' b.2]
      show Block.first n (b.1 ++ joined bs) :: blocks n bs.length ((b.1 ++ joined bs).drop n) = _
      rw [hfirst, List.drop_left' b.2, ih]

/-! ## Padding -/

/-- How many bytes padding adds to a text of some length. -/
def padding (n len : Nat) : Nat :=
  n - len % n

/-- A text filled up to whole blocks of `n` bytes. -/
def pad (n : Nat) (t : Bytes) : Bytes :=
  t ++ List.replicate (padding n t.length) (UInt8.ofNat (padding n t.length))

/-- Take padding off a text: as many bytes as the last one says, all of them alike. -/
def unpad (n : Nat) (t : Bytes) : Option Bytes := do
  let p ← t.getLast?
  let text := t.take (t.length - p.toNat)
  if 0 < p.toNat ∧ p.toNat ≤ n ∧ t = text ++ List.replicate p.toNat p then some text else none

/-- There is at least one byte of padding and no more than a block. -/
theorem padding_range {n : Nat} (hn : 0 < n) (len : Nat) :
    0 < padding n len ∧ padding n len ≤ n := by
  have hlt := Nat.mod_lt len hn
  unfold padding
  omega

/-- Padding fills up to the next multiple of the block size. -/
theorem length_pad {n : Nat} (hn : 0 < n) (t : Bytes) :
    (pad n t).length = n * (t.length / n + 1) := by
  have hlt := Nat.mod_lt t.length hn
  have hdiv := Nat.div_add_mod t.length n
  rw [pad, List.length_append, List.length_replicate, Nat.mul_add, Nat.mul_one, padding]
  omega

/-- Taking padding off gives the text that was padded. -/
theorem unpad_pad {n : Nat} (hn : 0 < n) (hbyte : n < 256) (t : Bytes) :
    unpad n (pad n t) = some t := by
  obtain ⟨hpos, hle⟩ := padding_range hn t.length
  have hp : (UInt8.ofNat (padding n t.length)).toNat = padding n t.length :=
    Nat.mod_eq_of_lt (by omega)
  have hlast : (pad n t).getLast? = some (UInt8.ofNat (padding n t.length)) := by
    rw [pad, List.getLast?_append_of_ne_nil _ (by simp; omega)]
    simp [List.getLast?_replicate, Nat.ne_of_gt hpos]
  have htake : (pad n t).take ((pad n t).length - padding n t.length) = t := by
    rw [pad, List.length_append, List.length_replicate, Nat.add_sub_cancel, List.take_left]
  rw [unpad, hlast]
  show (if _ then _ else _) = _
  rw [hp, htake, if_pos ⟨hpos, hle, rfl⟩]

end Wire
