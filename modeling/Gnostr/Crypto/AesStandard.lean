import Gnostr.Crypto.Aes

/-!
# The standard the cipher follows

The cipher of FIPS 197 over the field with 256 elements: the substitution is an affine function of
the inverse, a column is multiplied with a fixed circulant matrix, a row is rotated by its number,
and the words of the key schedule satisfy a recurrence. `cipher_eq` says that `Cipher` under the
round keys of `KeyExpansion` is this function, for every size of key. The tables of the source are
read only here: `get_s_box_value_eq` computes the substitution, `rcon_eq` the round constants.
-/

namespace Gnostr.Rijndael

open Wire

namespace Standard

/-- A state by row and column. -/
abbrev Matrix := Fin 4 → Fin 4 → UInt8

/-- The affine function of the substitution. -/
def affine (b : UInt8) : UInt8 :=
  let v := b.toBitVec
  ⟨v ^^^ v.rotateLeft 1 ^^^ v.rotateLeft 2 ^^^ v.rotateLeft 3 ^^^ v.rotateLeft 4 ^^^ 0x63#8⟩

/-- The substitution of a byte. -/
def subByte (a : UInt8) : UInt8 :=
  affine (ginv a)

def subBytes (s : Matrix) : Matrix :=
  fun r c => subByte (s r c)

def shiftRows (s : Matrix) : Matrix :=
  fun r c => s r (c + r)

/-- The first row of the matrix of `mixColumns`. -/
def mixRow : Fin 4 → UInt8 :=
  ![2, 3, 1, 1]

/-- A row of the matrix times a column: the first row, rotated. -/
def mixEntry (column : Fin 4 → UInt8) (r : Fin 4) : UInt8 :=
  let product (k : Fin 4) := gmul (column k) (mixRow (k - r))
  product 0 ^^^ product 1 ^^^ product 2 ^^^ product 3

def mixColumns (s : Matrix) : Matrix :=
  fun r c => mixEntry (fun k => s k c) r

/-- The round constants are the powers of `x`. -/
def rcon (i : Nat) : UInt8 :=
  timesX^[i - 1] 1

/-- What word `i` of the key schedule adds to word `i - Nk`, from the word before it. -/
def scheduleTemp (size : KeySize) (i : Nat) (temp : Fin 4 → UInt8) : Fin 4 → UInt8 :=
  if i % size.nk = 0 then
    fun r => subByte (temp (r + 1)) ^^^ (if r = 0 then rcon (i / size.nk) else 0)
  else if 6 < size.nk ∧ i % size.nk = 4 then fun r => subByte (temp r)
  else temp

/-- A key has words. -/
theorem nk_pos (size : KeySize) : 0 < size.nk := by
  cases size <;> decide

/-- The words of the key schedule. -/
def schedule (size : KeySize) (key : Bytes) (i : Nat) : Fin 4 → UInt8 :=
  if i < size.nk then fun r => key.getD (i * 4 + r) 0
  else fun r =>
    schedule size key (i - size.nk) r ^^^ scheduleTemp size i (schedule size key (i - 1)) r
termination_by i
decreasing_by all_goals have hnk := nk_pos size; omega

def addRoundKey (w : Nat → Fin 4 → UInt8) (round : Nat) (s : Matrix) : Matrix :=
  fun r c => s r c ^^^ w (round * 4 + c) r

/-- The rounds with all four steps, from a round on. -/
def rounds (w : Nat → Fin 4 → UInt8) : Nat → Nat → Matrix → Matrix
  | 0, _, s => s
  | n + 1, round, s =>
      rounds w n (round + 1) (addRoundKey w round (mixColumns (shiftRows (subBytes s))))

/-- The cipher. -/
def cipher (size : KeySize) (key : Bytes) (s : Matrix) : Matrix :=
  let w := schedule size key
  addRoundKey w size.nr
    (shiftRows (subBytes (rounds w (size.nr - 1) 1 (addRoundKey w 0 s))))

end Standard

/-! ## The tables -/

/-- The inverse of the affine function. -/
def invAffine (s : UInt8) : UInt8 :=
  let v := s.toBitVec
  ⟨v.rotateLeft 1 ^^^ v.rotateLeft 3 ^^^ v.rotateLeft 6 ^^^ 0x05#8⟩

/-- The table of the source is the substitution: what the affine function was applied to is the
inverse. -/
theorem get_s_box_value_eq (a : UInt8) : getSBoxValue a = Standard.subByte a := by
  have haffine : Standard.affine (invAffine (getSBoxValue a)) = getSBoxValue a :=
    forall_get_s_box_value (P := fun _ b => Standard.affine (invAffine b) = b)
      (by decide +kernel) a
  have hinverse : a ≠ 0 → gmul a (invAffine (getSBoxValue a)) = 1 :=
    forall_get_s_box_value (P := fun a b => a ≠ 0 → gmul a (invAffine b) = 1)
      (by decide +kernel) a
  have hzero : invAffine (getSBoxValue 0) = 0 := rfl
  rw [← haffine, Standard.subByte]
  by_cases ha : a = 0
  · rw [ha, hzero, ginv_zero]
  · rw [ginv_eq (hinverse ha)]

/-- The table holds the powers of `x`. -/
theorem rcon_eq : ∀ i < 11, 0 < i → rconTable.getD i 0 = Standard.rcon i := by
  decide +kernel

/-! ## States as matrices -/

/-- A word by its places. -/
def Word.entry (w : Word) : Fin 4 → UInt8 :=
  ![w.b0, w.b1, w.b2, w.b3]

/-- The columns of a state by their places. -/
def State.column (s : State) : Fin 4 → Word :=
  ![s.c0, s.c1, s.c2, s.c3]

/-- A state by row and column. -/
def State.matrix (s : State) : Standard.Matrix :=
  fun r c => (s.column c).entry r

/-- An entry of a mapped word. -/
theorem entry_map (f : UInt8 → UInt8) (w : Word) (r : Fin 4) :
    (w.map f).entry r = f (w.entry r) := by
  fin_cases r <;> rfl

/-- An entry of a sum. -/
theorem entry_xor (v w : Word) (r : Fin 4) : (v.xor w).entry r = v.entry r ^^^ w.entry r := by
  fin_cases r <;> rfl

/-- A column of a mapped state. -/
theorem column_map (f : Word → Word) (s : State) (c : Fin 4) :
    (s.map f).column c = f (s.column c) := by
  fin_cases c <;> rfl

/-- Substitution is that of the standard. -/
theorem matrix_sub_bytes (s : State) : (subBytes s).matrix = Standard.subBytes s.matrix := by
  funext r c
  rw [State.matrix, subBytes, column_map, entry_map, get_s_box_value_eq]
  rfl

/-- So is the shift of rows. -/
theorem matrix_shift_rows (s : State) : (shiftRows s).matrix = Standard.shiftRows s.matrix := by
  funext r c
  fin_cases r <;> fin_cases c <;> rfl

/-- The column the matrix of the standard makes of a column. -/
def mixMatrix (w : Word) : Word :=
  ⟨Standard.mixEntry w.entry 0, Standard.mixEntry w.entry 1, Standard.mixEntry w.entry 2,
    Standard.mixEntry w.entry 3⟩

/-- Multiplication by the matrix is additive. -/
theorem additive_mix_matrix : Additive mixMatrix := fun v w => by
  have hentry (r : Fin 4) : Standard.mixEntry (v.xor w).entry r =
      Standard.mixEntry v.entry r ^^^ Standard.mixEntry w.entry r := by
    simp only [Standard.mixEntry, entry_xor, gmul_xor]
    ac_rfl
  simp only [mixMatrix, hentry]
  rfl

/-- `MixColumns` is the product with the matrix: both keep sums and agree on single bits. -/
theorem mix_column_eq (w : Word) : mixColumn w = mixMatrix w :=
  additive_mix_column.eq_of_bits additive_mix_matrix (by decide +kernel) w

/-- Mixing is that of the standard. -/
theorem matrix_mix_columns (s : State) :
    (mixColumns s).matrix = Standard.mixColumns s.matrix := by
  funext r c
  rw [State.matrix, mixColumns, column_map, mix_column_eq]
  fin_cases r <;> rfl

/-- Words of a buffer of round keys. -/
def roundWords (roundKey : Bytes) (i : Nat) : Fin 4 → UInt8 :=
  (wordAt roundKey i).entry

/-- Adding a round key is that of the standard, with the words of the key. -/
theorem matrix_add_round_key (round : Nat) (roundKey : Bytes) (s : State) :
    (addRoundKey round roundKey s).matrix =
      Standard.addRoundKey (roundWords roundKey) round s.matrix := by
  funext r c
  fin_cases c <;> exact entry_xor _ _ r

/-! ## The key schedule -/

/-- A byte of the first of two texts. -/
theorem getD_append_left {t u : Bytes} {i : Nat} (h : i < t.length) :
    (t ++ u).getD i 0 = t.getD i 0 := by
  rw [List.getD_eq_getElem?_getD, List.getElem?_append_left h, ← List.getD_eq_getElem?_getD]

/-- A word that was written stays. -/
theorem word_at_append {buf more : Bytes} {i : Nat} (h : i * 4 + 4 ≤ buf.length) :
    wordAt (buf ++ more) i = wordAt buf i := by
  simp (disch := omega) only [wordAt, getD_append_left]

/-- The word that was written last. -/
theorem word_at_length {buf : Bytes} {w : Word} {i : Nat} (h : buf.length = i * 4) :
    wordAt (buf ++ w.bytes) i = w := by
  have hget (j : Nat) : (buf ++ w.bytes).getD (i * 4 + j) 0 = w.bytes.getD j 0 := by
    rw [List.getD_eq_getElem?_getD, List.getElem?_append_right (by omega), h,
      Nat.add_sub_cancel_left, ← List.getD_eq_getElem?_getD]
  simp only [wordAt, hget]
  rfl

/-- What the code adds to an earlier word is what the standard adds. -/
theorem expand_temp_eq (size : KeySize) {i : Nat} (hi : size.nk ≤ i) (hround : i / size.nk < 11)
    (tempa : Word) :
    (expandTemp size i tempa).entry = Standard.scheduleTemp size i tempa.entry := by
  have hpos : 0 < i / size.nk := Nat.div_pos hi (Standard.nk_pos size)
  have hlarge : size = .aes256 ↔ 6 < size.nk := by cases size <;> decide
  unfold expandTemp Standard.scheduleTemp
  simp only [rcon_eq _ hround hpos, hlarge]
  by_cases hzero : i % size.nk = 0
  · have hfour : ¬ (6 < size.nk ∧ i % size.nk = 4) := by omega
    rw [if_pos hzero, if_pos hzero, if_neg hfour]
    funext r
    fin_cases r <;> simp [Word.entry, subWord, rotWord, Word.map, get_s_box_value_eq]
  · rw [if_neg hzero, if_neg hzero]
    split
    · funext r
      rw [subWord, entry_map, get_s_box_value_eq]
    · rfl

/-- The buffer of `KeyExpansion` after some words: as many words of the schedule. -/
structure Expanded (size : KeySize) (key roundKey : Bytes) (i : Nat) : Prop where
  length : roundKey.length = i * 4
  words : ∀ j < i, roundWords roundKey j = Standard.schedule size key j

/-- One turn of the loop. -/
theorem expanded_step {size : KeySize} {key roundKey : Bytes} {i : Nat}
    (h : Expanded size key roundKey i) (hi : size.nk ≤ i) (hround : i / size.nk < 11) :
    Expanded size key (roundKey ++ ((wordAt roundKey (i - size.nk)).xor
      (expandTemp size i (wordAt roundKey (i - 1)))).bytes) (i + 1) where
  length := by
    rw [List.length_append, h.length]
    show i * 4 + 4 = _
    omega
  words j hj := by
    have hnk := Standard.nk_pos size
    by_cases hlast : j = i
    · subst hlast
      funext r
      rw [roundWords, word_at_length h.length, entry_xor, expand_temp_eq size hi hround]
      have hback := h.words (j - size.nk) (by omega)
      have hbefore := h.words (j - 1) (by omega)
      rw [roundWords] at hback hbefore
      rw [hback, hbefore, Standard.schedule.eq_def size key j, if_neg (by omega)]
    · rw [roundWords, word_at_append (by rw [h.length]; omega)]
      exact h.words j (by omega)

/-- The loop expands the key word by word. -/
theorem expand_loop_expanded {size : KeySize} {key : Bytes} (n : Nat) {roundKey : Bytes} {i : Nat}
    (h : Expanded size key roundKey i) (hi : size.nk ≤ i) (hround : (i + n - 1) / size.nk < 11) :
    Expanded size key (expandLoop size n i roundKey) (i + n) := by
  induction n generalizing roundKey i with
  | zero => exact h
  | succ n ih =>
      have hle : i / size.nk ≤ (i + (n + 1) - 1) / size.nk :=
        Nat.div_le_div_right (by omega)
      have hnext : i + 1 + n = i + (n + 1) := by omega
      rw [expandLoop, ← hnext]
      exact ih (expanded_step h hi (by omega)) (by omega) (by rw [hnext]; exact hround)

/-- The key is its own beginning. -/
theorem expanded_key (size : KeySize) (key : Block (4 * size.nk)) :
    Expanded size key.1 key.1 size.nk where
  length := by rw [key.2, Nat.mul_comm]
  words j hj := by
    rw [Standard.schedule, if_pos hj]
    funext r
    fin_cases r <;> rfl

/-- `KeyExpansion` fills the buffer with the words of the schedule and nothing else. -/
theorem key_expansion_expanded (size : KeySize) (key : Block (4 * size.nk)) :
    Expanded size key.1 (keyExpansion size key) (4 * (size.nr + 1)) := by
  have hle : size.nk + (4 * (size.nr + 1) - size.nk) = 4 * (size.nr + 1) := by
    cases size <;> rfl
  have hloop := expand_loop_expanded (4 * (size.nr + 1) - size.nk) (expanded_key size key)
    (Nat.le_refl _) (by rw [hle]; cases size <;> decide)
  rwa [hle] at hloop

/-! ## The cipher -/

/-- A round needs the words up to its own. -/
theorem add_round_key_congr {w w' : Nat → Fin 4 → UInt8} (round : Nat)
    (h : ∀ i < 4 * (round + 1), w i = w' i) (s : Standard.Matrix) :
    Standard.addRoundKey w round s = Standard.addRoundKey w' round s := by
  funext r c
  rw [Standard.addRoundKey, Standard.addRoundKey, h _ (by omega)]

/-- The loop of `Cipher`, with the last substitution and rotation after it. -/
theorem matrix_cipher_rounds {w : Nat → Fin 4 → UInt8} (roundKey : Bytes) (n round : Nat)
    (h : ∀ i < 4 * (round + n), roundWords roundKey i = w i) (s : State) :
    (cipherRounds roundKey n round s).matrix =
      Standard.shiftRows (Standard.subBytes (Standard.rounds w n round s.matrix)) := by
  induction n generalizing round s with
  | zero => rw [cipherRounds, matrix_shift_rows, matrix_sub_bytes, Standard.rounds]
  | succ n ih =>
      have hround : round + 1 + n = round + (n + 1) := by omega
      rw [cipherRounds, ih _ (by rwa [hround]), matrix_add_round_key, matrix_mix_columns,
        matrix_shift_rows, matrix_sub_bytes, Standard.rounds,
        add_round_key_congr round fun i hi => h i (by omega)]

/-- `Cipher` under the round keys of `KeyExpansion` is the cipher of the standard. -/
theorem cipher_eq (size : KeySize) (key : Block (4 * size.nk)) (s : State) :
    (cipher size (keyExpansion size key) s).matrix = Standard.cipher size key.1 s.matrix := by
  have hwords := (key_expansion_expanded size key).words
  have hnr : 1 + (size.nr - 1) = size.nr := by cases size <;> rfl
  have hrounds := matrix_cipher_rounds (w := Standard.schedule size key.1) (keyExpansion size key)
    (size.nr - 1) 1 fun i hi => hwords i (by omega)
  rw [cipher, matrix_add_round_key, hrounds, matrix_add_round_key,
    add_round_key_congr size.nr hwords, add_round_key_congr 0 fun i hi => hwords i (by omega)]
  rfl

end Gnostr.Rijndael
