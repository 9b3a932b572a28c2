import Gnostr.Wire.Bytes

/-!
# Texts as the C and C++ libraries read them

Searching a text and cutting it as `std::string` does, with positions that wrap around at
`2 ^ 64`, reading it line by line as `std::getline` does, and reading the number it starts with
as `strtol` and `atoi` do. `index_of_skip` moves a search past a piece in which the first octet of
the pattern does not occur; `atoi_decimal` reads back a numeral.
-/

namespace Wire

/-! ## Searching and cutting -/

/-- `std::string::npos`. -/
def npos : Nat :=
  2 ^ 64 - 1

/-- The difference of two sizes. -/
def sizeSub (a b : Nat) : Nat :=
  (a + 2 ^ 64 - b) % 2 ^ 64

/-- Where a pattern occurs first. -/
def indexOf (pat : Bytes) : Bytes → Option Nat
  | [] => if pat = [] then some 0 else none
  | b :: t => if pat <+: b :: t then some 0 else (indexOf pat t).map (· + 1)

/-- `std::string::find`. -/
def find (pat t : Bytes) : Nat :=
  (indexOf pat t).getD npos

/-- `std::string::substr`, or nothing when it throws. -/
def substr (t : Bytes) (pos len : Nat) : Option Bytes :=
  if pos ≤ t.length then some ((t.drop pos).take len) else none

/-- `std::getline`: the line without its end and the rest, or nothing at the end of the text. -/
def getline (t : Bytes) : Option (Bytes × Bytes) :=
  if t = [] then none else some (t.takeWhile (· ≠ 10), (t.dropWhile (· ≠ 10)).drop 1)

/-! ## Numbers -/

/-- `isspace`. -/
def isSpace (b : UInt8) : Bool :=
  b = 32 || (9 ≤ b && b ≤ 13)

/-- The sign and the digits of a numeral behind white space. -/
def numeral (arg : Bytes) : Bool × Bytes :=
  match arg.dropWhile isSpace with
  | 45 :: rest => (true, rest.takeWhile isDigit)
  | 43 :: rest => (false, rest.takeWhile isDigit)
  | rest => (false, rest.takeWhile isDigit)

/-- The number a text starts with, before it is fitted into a `long`. -/
def numeralValue (arg : Bytes) : Int :=
  let (negative, digits) := numeral arg
  if negative then -decimalValue digits else decimalValue digits

/-- `strtol` in base ten: the result. -/
def strtol (arg : Bytes) : Int :=
  max (-(2 ^ 63)) (min (2 ^ 63 - 1) (numeralValue arg))

/-- `atoi` of a C string: `strtol`, cut to an `int`. -/
def atoi (s : CStr) : Int32 :=
  Int32.ofInt (strtol s.bytes)

/-- A decimal numeral, with or without a sign, and the number it stands for. -/
inductive IsNumeral : Bytes → Int → Prop where
  | plain {digits : Bytes} (hne : digits ≠ []) (hdigits : ∀ b ∈ digits, isDigit b = true) :
      IsNumeral digits (decimalValue digits)
  | plus {digits : Bytes} (hne : digits ≠ []) (hdigits : ∀ b ∈ digits, isDigit b = true) :
      IsNumeral (43 :: digits) (decimalValue digits)
  | minus {digits : Bytes} (hne : digits ≠ []) (hdigits : ∀ b ∈ digits, isDigit b = true) :
      IsNumeral (45 :: digits) (-decimalValue digits)

/-! ## Where a pattern occurs -/

/-- A pattern is not found where it does not occur. -/
theorem index_of_eq_none {pat t : Bytes} : indexOf pat t = none ↔ ¬ pat <:+: t := by
  induction t with
  | nil => by_cases h : pat = [] <;> simp [indexOf, h]
  | cons b t ih =>
      by_cases h : pat <+: b :: t
      · simp [indexOf, h, h.isInfix]
      · simp [indexOf, h, ih, List.infix_cons_iff]

/-- Nor does `find` find it. -/
theorem find_eq_npos {pat t : Bytes} (h : ¬ pat <:+: t) : find pat t = npos := by
  rw [find, index_of_eq_none.mpr h, Option.getD_none]

/-- A piece without the first octet of the pattern is skipped. -/
theorem index_of_skip {p : UInt8} {pat piece : Bytes} (h : p ∉ piece) (t : Bytes) :
    indexOf (p :: pat) (piece ++ t) = (indexOf (p :: pat) t).map (· + piece.length) := by
  induction piece with
  | nil => simp
  | cons b piece ih =>
      have hb : p ≠ b := List.ne_of_not_mem_cons h
      have hrest := ih (List.not_mem_of_not_mem_cons h)
      have hno : ¬ p :: pat <+: b :: (piece ++ t) :=
        fun hpre => hb (List.cons_prefix_cons.mp hpre).1
      rw [List.cons_append, indexOf, if_neg hno, hrest, Option.map_map]
      rfl

/-- A beginning is found at the start. -/
theorem index_of_prefix {pat t : Bytes} (h : pat <+: t) : indexOf pat t = some 0 := by
  cases t with
  | nil => simp [indexOf, List.prefix_nil.mp h]
  | cons b t => simp [indexOf, h]

/-- A pattern is found where it stands, or before. -/
theorem index_of_append_le (pat front back : Bytes) :
    ∃ i ≤ front.length, indexOf pat (front ++ (pat ++ back)) = some i := by
  induction front with
  | nil => exact ⟨0, Nat.le_refl 0, index_of_prefix (List.prefix_append pat back)⟩
  | cons b front ih =>
      obtain ⟨i, hi, hindex⟩ := ih
      rw [List.cons_append, indexOf]
      split_ifs with hhere
      · exact ⟨0, Nat.zero_le _, rfl⟩
      · exact ⟨i + 1, Nat.succ_le_succ hi, by rw [hindex]; rfl⟩

/-- Where an octet occurs first. -/
theorem find_octet {b : UInt8} {t : Bytes} (h : b ∉ t) (rest : Bytes) :
    find [b] (t ++ b :: rest) = t.length := by
  have hhere : indexOf [b] (b :: rest) = some 0 :=
    index_of_prefix (List.cons_prefix_cons.mpr ⟨rfl, List.nil_prefix⟩)
  rw [find, index_of_skip h, hhere]
  simp

/-- Nothing is found in a piece framed by octets with which the pattern neither starts nor ends. -/
theorem not_infix_framed {p q c : UInt8} {pat pre t : Bytes} (hp : p ∉ pre) (hq : q ≠ c)
    (h : ¬ p :: pat ++ [q] <:+: t) : ¬ p :: pat ++ [q] <:+: pre ++ (t ++ [c]) := by
  rw [← index_of_eq_none, List.cons_append, index_of_skip hp, Option.map_eq_none_iff,
    index_of_eq_none, List.infix_concat_iff]
  rintro (⟨s, hs⟩ | hin)
  · have hlast := congrArg List.getLast? hs
    rw [← List.cons_append, ← List.append_assoc, List.getLast?_concat,
      List.getLast?_concat] at hlast
    exact hq (Option.some.inj hlast)
  · exact h hin

/-- A line is read up to its end. -/
theorem getline_line {line : Bytes} (h : 10 ∉ line) (rest : Bytes) :
    getline (line ++ 10 :: rest) = some (line, rest) := by
  have hne : ∀ b ∈ line, decide (b ≠ 10) = true := fun b hb => by
    simpa using fun heq : b = 10 => h (heq ▸ hb)
  rw [getline, if_neg (by simp), List.takeWhile_append_of_pos hne, List.dropWhile_append_of_pos hne]
  simp

/-- A line is taken from the text. -/
theorem getline_shorter {t line rest : Bytes} (h : getline t = some (line, rest)) :
    rest.length < t.length := by
  unfold getline at h
  split_ifs at h with hnil
  obtain rfl := (Prod.mk.inj (Option.some.inj h)).2
  have hlen := (List.dropWhile_suffix (l := t) fun b => decide (b ≠ 10)).length_le
  have hpos : 0 < t.length := List.length_pos_iff.mpr hnil
  rw [List.length_drop]
  omega

/-! ## Integers in machine words -/

/-- A negative number wraps around. -/
theorem to_nat_of_int (z : Int) : ((UInt64.ofInt z).toNat : Int) = z % 2 ^ 64 := by
  have hmod : 0 ≤ z % 2 ^ 64 := Int.emod_nonneg z (by decide)
  have hlt : z % 2 ^ 64 < 2 ^ 64 := Int.emod_lt_of_pos z (by decide)
  simp only [UInt64.ofInt, UInt64.toNat_ofNat']
  omega

/-- And so does a large one. -/
theorem to_int_of_int (z : Int) : (UInt64.ofInt z).toUInt32.toInt32.toInt = z.bmod (2 ^ 32) := by
  have hword : (UInt64.ofInt z).toUInt32.toInt32 = Int32.ofInt z := by
    have hbits : BitVec.ofNat 32 (z % 2 ^ 64).toNat = BitVec.ofInt 32 z := by
      apply BitVec.eq_of_toNat_eq
      rw [BitVec.toNat_ofNat, BitVec.toNat_ofInt]
      omega
    refine Int32.toBitVec.inj ?_
    simpa [UInt64.ofInt] using hbits
  exact hword ▸ Int32.toInt_ofInt

/-! ## Reading a numeral -/

/-- A digit is no blank and no sign. -/
theorem not_space_of_is_digit {b : UInt8} (h : isDigit b = true) :
    isSpace b = false ∧ b ≠ 45 ∧ b ≠ 43 := by
  simp only [isDigit, Bool.and_eq_true, decide_eq_true_eq, UInt8.le_iff_toNat_le,
    UInt8.reduceToNat] at h
  have hne : ∀ c : UInt8, c.toNat < 48 → b ≠ c := fun c hc heq => by
    rw [heq] at h
    omega
  have hpast : ¬ b ≤ 13 := by
    simp only [UInt8.le_iff_toNat_le, UInt8.reduceToNat]
    omega
  refine ⟨?_, hne 45 (by decide), hne 43 (by decide)⟩
  simp [isSpace, hne 32 (by decide), hpast]

/-- Taking less of what was taken. -/
theorem take_while_take_while_of_imp {p q : UInt8 → Bool} (h : ∀ b, p b = true → q b = true)
    (t : Bytes) : (t.takeWhile q).takeWhile p = t.takeWhile p := by
  rw [List.takeWhile_takeWhile]
  congr 1
  funext b
  cases hp : p b with
  | false => simp
  | true => simp [h b hp]

/-- Blanks are skipped. -/
theorem numeral_space {b : UInt8} (hb : isSpace b = true) (t : Bytes) :
    numeral (b :: t) = numeral t := by
  simp only [numeral, List.dropWhile_cons_of_pos hb]

/-- A minus counts. -/
theorem numeral_minus (t : Bytes) : numeral (45 :: t) = (true, t.takeWhile isDigit) :=
  rfl

/-- A plus does not. -/
theorem numeral_plus (t : Bytes) : numeral (43 :: t) = (false, t.takeWhile isDigit) :=
  rfl

/-- Without a sign, the digits begin. -/
theorem numeral_unsigned {b : UInt8} (hb : ¬ isSpace b = true) (hminus : b ≠ 45) (hplus : b ≠ 43)
    (t : Bytes) : numeral (b :: t) = (false, (b :: t).takeWhile isDigit) := by
  rw [numeral, List.dropWhile_cons_of_neg hb]
  split
  · next heq => exact absurd (List.cons.inj heq).1 hminus
  · next heq => exact absurd (List.cons.inj heq).1 hplus
  · rfl

/-- A text cut at an octet that no numeral has starts with the same number. -/
theorem numeral_take_while {q : UInt8 → Bool} (hspace : ∀ b, isSpace b = true → q b = true)
    (hdigit : ∀ b, isDigit b = true → q b = true) (hplus : q 43 = true) (hminus : q 45 = true)
    (t : Bytes) : numeral (t.takeWhile q) = numeral t := by
  induction t with
  | nil => rfl
  | cons b t ih =>
      by_cases hb : isSpace b = true
      · rw [List.takeWhile_cons_of_pos (hspace b hb), numeral_space hb, numeral_space hb, ih]
      · by_cases hneg : b = 45
        · rw [hneg, List.takeWhile_cons_of_pos hminus, numeral_minus, numeral_minus,
            take_while_take_while_of_imp hdigit]
        · by_cases hpos : b = 43
          · rw [hpos, List.takeWhile_cons_of_pos hplus, numeral_plus, numeral_plus,
              take_while_take_while_of_imp hdigit]
          · by_cases hq : q b = true
            · have hcut := take_while_take_while_of_imp hdigit (b :: t)
              rw [List.takeWhile_cons_of_pos hq] at hcut ⊢
              rw [numeral_unsigned hb hneg hpos, numeral_unsigned hb hneg hpos, hcut]
            · -- the octet is no digit and no sign, so there is no numeral in either text
              rw [List.takeWhile_cons_of_neg hq, numeral_unsigned hb hneg hpos,
                List.takeWhile_cons_of_neg fun hyes => hq (hdigit b hyes)]
              rfl

/-- A numeral is read up to the first octet that is not a digit. -/
theorem numeral_digits {digits rest : Bytes} (hne : digits ≠ [])
    (hdigits : ∀ b ∈ digits, isDigit b = true) (hrest : rest.takeWhile isDigit = []) :
    numeral (digits ++ rest) = (false, digits) := by
  have htake : (digits ++ rest).takeWhile isDigit = digits := by
    rw [List.takeWhile_append_of_pos hdigits, hrest, List.append_nil]
  obtain ⟨b, bs, rfl⟩ := List.exists_cons_of_ne_nil hne
  obtain ⟨hspace, hminus, hplus⟩ := not_space_of_is_digit (hdigits b List.mem_cons_self)
  rw [List.cons_append] at htake ⊢
  rw [numeral_unsigned (by simp [hspace]) hminus hplus, htake]

/-- A number is read up to what is no digit. -/
theorem numeral_decimal (n : Nat) {c : UInt8} (hc : isDigit c = false) (rest : Bytes) :
    numeral (decimal n ++ c :: rest) = (false, decimal n) :=
  numeral_digits (decimal_ne_nil n) (fun _ hb => is_digit_of_mem_decimal hb)
    (List.takeWhile_cons_of_neg (by simp [hc]))

/-- White space in front of a numeral is skipped. -/
theorem numeral_spaces {lead : Bytes} (h : ∀ b ∈ lead, isSpace b = true) (t : Bytes) :
    numeral (lead ++ t) = numeral t := by
  induction lead with
  | nil => rfl
  | cons b lead ih =>
      rw [List.cons_append, numeral_space (h b List.mem_cons_self),
        ih fun c hc => h c (List.mem_cons_of_mem b hc)]

/-- A numeral consists of digits behind a sign. -/
theorem IsNumeral.not_mem {t : Bytes} {z : Int} (h : IsNumeral t z) {b : UInt8}
    (hdigit : isDigit b = false) (hplus : b ≠ 43) (hminus : b ≠ 45) : b ∉ t := by
  have hno : ∀ {digits : Bytes}, (∀ b ∈ digits, isDigit b = true) → b ∉ digits :=
    fun hdigits hmem => by
      rw [hdigits b hmem] at hdigit
      cases hdigit
  cases h with
  | plus _ hdigits => simp [hplus, hno hdigits]
  | minus _ hdigits => simp [hminus, hno hdigits]
  | plain _ hdigits => exact hno hdigits

/-- What `strtol` finds in a text that starts with a numeral. -/
theorem IsNumeral.read_append {t rest : Bytes} {z : Int} (h : IsNumeral t z)
    (hrest : rest.takeWhile isDigit = []) :
    (numeral (t ++ rest)).2 ≠ [] ∧ numeralValue (t ++ rest) = z := by
  have htake : ∀ {digits : Bytes}, (∀ b ∈ digits, isDigit b = true) →
      (digits ++ rest).takeWhile isDigit = digits := fun hdigits => by
    rw [List.takeWhile_append_of_pos hdigits, hrest, List.append_nil]
  cases h with
  | plus hne hdigits =>
      rw [List.cons_append, numeralValue, numeral_plus, htake hdigits]
      exact ⟨hne, rfl⟩
  | minus hne hdigits =>
      rw [List.cons_append, numeralValue, numeral_minus, htake hdigits]
      exact ⟨hne, rfl⟩
  | plain hne hdigits =>
      rw [numeralValue, numeral_digits hne hdigits hrest]
      exact ⟨hne, rfl⟩

/-- What `strtol` finds in a numeral. -/
theorem IsNumeral.read {t : Bytes} {z : Int} (h : IsNumeral t z) :
    (numeral t).2 ≠ [] ∧ numeralValue t = z := by
  have hread := h.read_append (List.takeWhile_nil (p := isDigit))
  rwa [List.append_nil] at hread

/-- `atoi` reads back the numeral of an `int`. -/
theorem atoi_decimal {n : Nat} (hn : n < 2 ^ 31) {c : UInt8} (hc : isDigit c = false) {s : CStr}
    {rest : Bytes} (hs : s.bytes = decimal n ++ c :: rest) : atoi s = Int32.ofNat n := by
  have hvalue : numeralValue s.bytes = n := by
    simp [numeralValue, hs, numeral_decimal n hc, decimal_value_decimal]
  have hstrtol : strtol s.bytes = n := by
    rw [strtol, hvalue]
    omega
  rw [atoi, hstrtol]
  rfl

end Wire
