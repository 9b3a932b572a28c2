import Mathlib

/-!
# Byte strings

Octet strings as lists, ASCII literals, fixed-size blocks, NUL-terminated strings,
decimal numerals and big-endian numbers. `decimal` writes a number the way `printf` does,
`decimalValue` reads it back, and `length_decimal_le_iff` says how many digits a number takes.
-/

namespace Wire

/-- A string of octets. -/
abbrev Bytes := List UInt8

/-- The octets of an ASCII literal. -/
def ascii (s : String) : Bytes :=
  s.toList.map fun c => UInt8.ofNat c.toNat

/-- Strings are compared octet by octet. -/
instance : LawfulBEq Bytes :=
  inferInstance

/-- An array of exactly `n` octets. -/
abbrev Block (n : Nat) := { b : Bytes // b.length = n }

/-- An array of zeros. -/
def Block.zeros (n : Nat) : Block n :=
  ⟨List.replicate n 0, List.length_replicate⟩

/-- A block of zeros. -/
@[simp] theorem Block.zeros_val (n : Nat) : (Block.zeros n).1 = List.replicate n 0 := rfl

/-- Two arrays next to each other. -/
def Block.append {m n : Nat} (a : Block m) (b : Block n) : Block (m + n) :=
  ⟨a.1 ++ b.1, by simp [a.2, b.2]⟩

/-- The first `n` octets of a text, filled up with zeros. -/
def Block.first (n : Nat) (t : Bytes) : Block n :=
  ⟨(t ++ List.replicate n 0).take n, by simp⟩

/-- Nothing is filled up when the text is long enough. -/
theorem Block.first_of_le {n : Nat} {t : Bytes} (h : n ≤ t.length) :
    (Block.first n t).1 = t.take n :=
  List.take_append_of_le_length h

/-- The text a NUL-terminated pointer denotes: octets without NUL, the terminator left out. -/
structure CStr where
  bytes : Bytes
  nul_free : 0 ∉ bytes
  deriving DecidableEq

namespace CStr

/-- What a C reader sees of a buffer: everything before the first NUL. -/
def ofBytes (b : Bytes) : CStr :=
  ⟨b.takeWhile (· ≠ 0), fun h => by simpa using List.mem_takeWhile_imp h⟩

/-- `strlen`. -/
def strlen (s : CStr) : Nat :=
  s.bytes.length

/-- A NUL-terminated text is determined by its octets. -/
theorem ext_bytes {s t : CStr} (h : s.bytes = t.bytes) : s = t := by
  cases s
  cases t
  simpa using h

/-- Octets that hold no NUL are seen whole. -/
theorem bytes_of_bytes {b : Bytes} (h : 0 ∉ b) : (ofBytes b).bytes = b := by
  refine List.takeWhile_eq_self_iff.mpr fun x hx => ?_
  have hne : x ≠ 0 := fun hz => h (hz ▸ hx)
  simpa using hne

/-- A terminated text is seen up to the terminator. -/
theorem bytes_of_terminated {b : Bytes} (h : 0 ∉ b) (rest : Bytes) :
    (ofBytes (b ++ 0 :: rest)).bytes = b := by
  have hne : ∀ x ∈ b, decide (x ≠ 0) = true := fun x hx => by
    simpa using fun hz : x = 0 => h (hz ▸ hx)
  show (b ++ 0 :: rest).takeWhile (· ≠ 0) = b
  rw [List.takeWhile_append_of_pos hne, List.takeWhile_cons_of_neg (by simp), List.append_nil]

/-- A C reader sees all of a buffer exactly when the buffer holds no NUL. -/
theorem bytes_of_bytes_iff {b : Bytes} : (ofBytes b).bytes = b ↔ 0 ∉ b :=
  ⟨fun h => h ▸ (ofBytes b).nul_free, bytes_of_bytes⟩

/-! ### Lengths kept in an `int` -/

/-- `int len = strlen(s)`. -/
def intLen (s : CStr) : Int32 :=
  Int32.ofNat s.strlen

/-- The octets a loop up to that length reads: none when it is negative. -/
def counted (s : CStr) : Bytes :=
  s.bytes.take s.intLen.toInt.toNat

/-- The octets such a loop leaves out. -/
def uncounted (s : CStr) : Bytes :=
  s.bytes.drop s.intLen.toInt.toNat

/-- The conversion never gives more than the length. -/
theorem int_len_le (s : CStr) : s.intLen.toInt ≤ s.strlen := by
  rw [intLen, Int32.toInt_ofNat', Int.bmod_def]
  simp only [Int32.size]
  split <;> omega

/-- A length below `2 ^ 31` is kept as it is. -/
theorem int_len_of_lt {s : CStr} (h : s.strlen < 2 ^ 31) : s.intLen.toInt = s.strlen :=
  Int32.toInt_ofNat_of_lt h

/-- As many octets are read as the converted length says. -/
theorem length_counted (s : CStr) : s.counted.length = s.intLen.toInt.toNat := by
  have hle := s.int_len_le
  rw [strlen] at hle
  rw [counted, List.length_take]
  omega

/-- What is counted, and the rest. -/
theorem counted_append_uncounted (s : CStr) : s.counted ++ s.uncounted = s.bytes :=
  List.take_append_drop _ _

/-- A text is read whole exactly if its length fits an `int`. -/
theorem counted_eq_iff {s : CStr} : s.counted = s.bytes ↔ s.strlen < 2 ^ 31 := by
  constructor
  · intro h
    have hlen := s.length_counted
    have hlt := s.intLen.toInt_lt
    rw [h] at hlen
    rw [strlen]
    omega
  · intro h
    rw [counted, int_len_of_lt h]
    exact List.take_of_length_le (by simp [strlen])

/-- Otherwise something is left out. -/
theorem length_counted_lt {s : CStr} (h : ¬ s.strlen < 2 ^ 31) : s.counted.length < s.strlen := by
  have hlt := s.intLen.toInt_lt
  rw [length_counted]
  omega

/-- No octet read is a NUL. -/
theorem nul_not_mem_counted (s : CStr) : 0 ∉ s.counted := fun h =>
  s.nul_free (List.mem_of_mem_take h)

/-- The part of a string that such a loop reads, as a string. -/
def cut (s : CStr) : CStr :=
  ⟨s.counted, s.nul_not_mem_counted⟩

/-- Nothing of a short string is cut. -/
theorem cut_of_lt {s : CStr} (h : s.strlen < 2 ^ 31) : s.cut = s :=
  ext_bytes (counted_eq_iff.mpr h)

end CStr

/-! ## Decimal numerals -/

/-- `'0'` to `'9'`. -/
def isDigit (b : UInt8) : Bool :=
  48 ≤ b && b ≤ 57

/-- The number a digit stands for. -/
def digitValue (b : UInt8) : Nat :=
  b.toNat - 48

/-- The digit that stands for a number below ten. -/
def digitChar (d : Nat) : UInt8 :=
  UInt8.ofNat (48 + d)

/-- A number in base ten, without leading zeros. -/
def decimal (n : Nat) : Bytes :=
  if n = 0 then [digitChar 0] else (Nat.digits 10 n).reverse.map digitChar

/-- A signed number in base ten, as `%d` prints it. -/
def signedDecimal : Int → Bytes
  | .ofNat n => decimal n
  | .negSucc n => 45 :: decimal (n + 1)

/-- The number a run of digits stands for, most significant digit first. -/
def decimalValue (t : Bytes) : Nat :=
  t.foldl (fun acc b => 10 * acc + digitValue b) 0

/-- A digit is written as one. -/
theorem is_digit_digit_char {d : Nat} (h : d < 10) : isDigit (digitChar d) = true := by
  interval_cases d <;> decide

/-- And stands for its value. -/
theorem digit_value_digit_char {d : Nat} (h : d < 10) : digitValue (digitChar d) = d := by
  interval_cases d <;> decide

/-- Only zero is written as zero. -/
theorem digit_char_ne_zero {d : Nat} (h : d < 10) (hd : d ≠ 0) : digitChar d ≠ 48 := by
  interval_cases d <;> first | contradiction | decide

/-- Every number has a digit. -/
theorem decimal_ne_nil (n : Nat) : decimal n ≠ [] := by
  unfold decimal
  split
  · simp
  · next h => simpa using Nat.digits_ne_nil_iff_ne_zero.mpr h

/-- A numeral consists of digits. -/
theorem is_digit_of_mem_decimal {n : Nat} {b : UInt8} (h : b ∈ decimal n) :
    isDigit b = true := by
  unfold decimal at h
  split at h
  · simp only [List.mem_singleton] at h
    exact h ▸ is_digit_digit_char (by omega)
  · simp only [List.mem_map, List.mem_reverse] at h
    obtain ⟨d, hd, rfl⟩ := h
    exact is_digit_digit_char (Nat.digits_lt_base (by omega) hd)

/-- Only zero itself is written with a leading `'0'`. -/
theorem decimal_head {n : Nat} (hn : n ≠ 0) :
    ∃ b rest, decimal n = b :: rest ∧ b ≠ 48 := by
  have hdigits : Nat.digits 10 n ≠ [] := Nat.digits_ne_nil_iff_ne_zero.mpr hn
  refine ⟨digitChar ((Nat.digits 10 n).getLast hdigits),
    ((Nat.digits 10 n).dropLast.reverse).map digitChar, ?_, ?_⟩
  · rw [decimal, if_neg hn]
    nth_rewrite 1 [← List.dropLast_append_getLast hdigits]
    simp
  · exact digit_char_ne_zero (Nat.digits_lt_base (by omega) (List.getLast_mem hdigits))
      (Nat.getLast_digit_ne_zero 10 hn)

/-- Folding digits most significant first is `Nat.ofDigits` on the reversed list. -/
theorem decimal_value_map_reverse (ds : List Nat) (h : ∀ d ∈ ds, d < 10) :
    decimalValue (ds.reverse.map digitChar) = Nat.ofDigits 10 ds := by
  induction ds with
  | nil => rfl
  | cons d ds ih =>
      have hd : d < 10 := h d (by simp)
      have hrest := ih fun x hx => h x (by simp [hx])
      simp only [decimalValue] at hrest ⊢
      simp only [List.reverse_cons, List.map_append, List.map_cons, List.map_nil,
        List.foldl_append, List.foldl_cons, List.foldl_nil, hrest, Nat.ofDigits_cons,
        digit_value_digit_char hd]
      omega

/-- Reading a numeral gives back the number. -/
theorem decimal_value_decimal (n : Nat) : decimalValue (decimal n) = n := by
  unfold decimal
  split
  · next h => subst h; rfl
  · rw [decimal_value_map_reverse _ fun d hd => Nat.digits_lt_base (by omega) hd,
      Nat.ofDigits_digits]

/-- Different numbers have different numerals. -/
theorem decimal_injective : Function.Injective decimal := fun m n h => by
  rw [← decimal_value_decimal m, h, decimal_value_decimal]

/-- A number takes at most `k` digits exactly when it is below `10 ^ k`. -/
theorem length_decimal_le_iff {n k : Nat} (hk : 0 < k) :
    (decimal n).length ≤ k ↔ n < 10 ^ k := by
  unfold decimal
  split
  · next h =>
    subst h
    simp only [List.length_singleton]
    exact ⟨fun _ => Nat.pow_pos (by omega), fun _ => hk⟩
  · simp only [List.length_map, List.length_reverse]
    exact Nat.digits_length_le_iff (by omega) n

/-- A signed numeral consists of digits and the minus sign. -/
theorem mem_signed_decimal {z : Int} {b : UInt8} (h : b ∈ signedDecimal z) :
    b = 45 ∨ isDigit b = true := by
  cases z with
  | ofNat n => exact .inr (is_digit_of_mem_decimal h)
  | negSucc n =>
      rcases List.mem_cons.mp h with h | h
      · exact .inl h
      · exact .inr (is_digit_of_mem_decimal h)

/-- Different integers have different signed numerals. -/
theorem signed_decimal_injective : Function.Injective signedDecimal := by
  have hsign : ∀ m n, decimal m ≠ 45 :: decimal n := fun m n h => by
    have hdigit := is_digit_of_mem_decimal (n := m) (h ▸ List.mem_cons_self)
    exact absurd hdigit (by decide)
  intro x y h
  cases x with
  | ofNat m =>
      cases y with
      | ofNat n => exact congrArg Int.ofNat (decimal_injective h)
      | negSucc n => exact absurd h (hsign m (n + 1))
  | negSucc m =>
      cases y with
      | ofNat n => exact absurd h.symm (hsign n (m + 1))
      | negSucc n =>
          have hmn := decimal_injective (List.cons.inj h).2
          exact congrArg Int.negSucc (Nat.succ.inj hmn)

/-! ## Big-endian numbers -/

/-- The number an octet string stands for, most significant octet first. -/
def bigEndian (t : Bytes) : Nat :=
  Nat.ofDigits 256 (t.reverse.map UInt8.toNat)

/-- One byte more in front. -/
theorem big_endian_cons (b : UInt8) (t : Bytes) :
    bigEndian (b :: t) = 256 ^ t.length * b.toNat + bigEndian t := by
  simp [bigEndian, Nat.ofDigits_append, Nat.ofDigits_singleton, Nat.add_comm]

/-- A number is bounded by its length. -/
theorem big_endian_lt (t : Bytes) : bigEndian t < 256 ^ t.length := by
  have hlt := Nat.ofDigits_lt_base_pow_length (b := 256) (l := t.reverse.map UInt8.toNat)
    (by decide) fun x hx => by
      obtain ⟨b, -, rfl⟩ := List.mem_map.mp hx
      exact b.toNat_lt
  simpa [bigEndian] using hlt

/-- The first octet decides a comparison with a multiple of the weight it has. -/
theorem big_endian_cons_lt_iff (b : UInt8) (t : Bytes) (k : Nat) :
    bigEndian (b :: t) < 256 ^ t.length * k ↔ b.toNat < k := by
  have hrest := big_endian_lt t
  rw [big_endian_cons]
  constructor
  · intro hlt
    exact lt_of_mul_lt_mul_left ((Nat.le_add_right _ _).trans_lt hlt) (Nat.zero_le _)
  · intro hlt
    calc 256 ^ t.length * b.toNat + bigEndian t
        < 256 ^ t.length * b.toNat + 256 ^ t.length := by omega
      _ = 256 ^ t.length * (b.toNat + 1) := (Nat.mul_succ _ _).symm
      _ ≤ 256 ^ t.length * k := Nat.mul_le_mul_left _ hlt

/-- Zero is written with zeros only. -/
theorem big_endian_eq_zero {t : Bytes} : bigEndian t = 0 ↔ t = List.replicate t.length 0 := by
  induction t with
  | nil => simp [bigEndian]
  | cons b t ih =>
      have hpos : 0 < 256 ^ t.length := by positivity
      rw [big_endian_cons, Nat.add_eq_zero_iff, ih, List.length_cons, List.replicate_succ,
        List.cons.injEq, Nat.mul_eq_zero, or_iff_right hpos.ne']
      exact and_congr_left fun _ => ⟨fun h => UInt8.toNat_inj.mp h, fun h => by rw [h]; rfl⟩

end Wire
