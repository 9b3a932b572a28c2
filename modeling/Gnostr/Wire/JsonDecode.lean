import Gnostr.Wire.Json

/-!
# The decoder accepts the grammar

`decode_of_text`: whatever the grammar derives for a text, the decoder returns, so a text stands
for at most one value. `Text.all_legal` bounds the octets a JSON text can hold: no control
character other than white space occurs anywhere in one.
-/

namespace Wire.Json

/-! ## Scanners -/

/-- No octet that could continue a number stands at the front. -/
def ValueEnd : Bytes → Prop
  | [] => True
  | b :: _ => isDigit b = false ∧ b ≠ 46 ∧ b ≠ 101 ∧ b ≠ 69

/-- What cannot belong to a number ends it. -/
theorem value_end_cons {b : UInt8} {s : Bytes} :
    ValueEnd (b :: s) ↔ isDigit b = false ∧ b ≠ 46 ∧ b ≠ 101 ∧ b ≠ 69 :=
  Iff.rfl

/-- White space ends a number. -/
theorem value_end_ws_append {w s : Bytes} (hw : Ws w) (hs : ValueEnd s) : ValueEnd (w ++ s) := by
  cases w with
  | nil => exact hs
  | cons b w =>
      have hb : isWs b = true := hw b (by simp)
      have hcases : b = 32 ∨ b = 9 ∨ b = 10 ∨ b = 13 := by
        simpa [isWs, or_assoc] using hb
      rcases hcases with rfl | rfl | rfl | rfl <;> exact value_end_cons.mpr (by decide)

/-- Skipping white space stops at the first octet that is none. -/
theorem skip_ws_append {w s : Bytes} (hw : Ws w) (hs : ∀ b ∈ s.head?, isWs b = false) :
    skipWs (w ++ s) = s := by
  unfold skipWs
  rw [List.dropWhile_append_of_pos hw]
  cases s with
  | nil => rfl
  | cons b s => exact List.dropWhile_cons_of_neg (by simpa using hs b (by simp))

/-- Nothing is skipped in front of something. -/
theorem skip_ws_cons {b : UInt8} {s : Bytes} (hb : isWs b = false) : skipWs (b :: s) = b :: s :=
  List.dropWhile_cons_of_neg (by simpa using hb)

/-- Blank space is skipped to its end. -/
theorem skip_ws_eq_nil {w : Bytes} (hw : Ws w) : skipWs w = [] := by
  simpa using skip_ws_append (s := []) hw (by simp)

/-! ## Strings -/

/-- An escape of one letter is read. -/
theorem unescape_short {e b : UInt8} {s : Bytes} (h : shortEscape e = some b) :
    unescape (e :: s) = some ([b], s) := by
  simp [unescape, h]

/-- So is one of four digits. -/
theorem unescape_unicode {a b c d : UInt8} {u : Nat} {s : Bytes} (hu : hex4 a b c d = some u)
    (hhigh : isHighSurrogate u = false) (hlow : isLowSurrogate u = false) :
    unescape (117 :: a :: b :: c :: d :: s) = some (utf8Encode u, s) := by
  simp [unescape, shortEscape, hu, hhigh, hlow]

/-- And a pair of them. -/
theorem unescape_pair {a b c d a' b' c' d' : UInt8} {u v : Nat} {s : Bytes}
    (hu : hex4 a b c d = some u) (hhigh : isHighSurrogate u = true)
    (hv : hex4 a' b' c' d' = some v) (hlow : isLowSurrogate v = true) :
    unescape (117 :: a :: b :: c :: d :: 92 :: 117 :: a' :: b' :: c' :: d' :: s) =
      some (utf8Encode (surrogatePair u v), s) := by
  simp [unescape, shortEscape, hu, hhigh, hv, hlow]

/-- The string scanner reads characters of the grammar up to the closing quotation mark. -/
theorem chars_append {raw text : Bytes} (h : Chars raw text) :
    ∀ (fuel : Nat) (s : Bytes), raw.length < fuel →
      chars fuel (raw ++ 34 :: s) = some (text, s) := by
  induction h with
  | nil =>
      intro fuel s hf
      obtain ⟨fuel, rfl⟩ := Nat.exists_eq_succ_of_ne_zero (Nat.ne_of_gt hf)
      simp [chars]
  | @plain b raw text hb hquote hslash _ ih =>
      intro fuel s hf
      obtain ⟨fuel, rfl⟩ := Nat.exists_eq_succ_of_ne_zero (Nat.ne_of_gt (Nat.zero_lt_of_lt hf))
      have hlow : ¬ b < 32 := UInt8.not_lt.mpr hb
      have hrest := ih fuel s (by simpa using hf)
      simp [chars, hquote, hslash, hlow, hrest]
  | @short e b raw text hescape _ ih =>
      intro fuel s hf
      obtain ⟨fuel, rfl⟩ := Nat.exists_eq_succ_of_ne_zero (Nat.ne_of_gt (Nat.zero_lt_of_lt hf))
      have hrest := ih fuel s (by simp only [List.length_cons] at hf; omega)
      simp [chars, unescape_short hescape, hrest]
  | @unicode a b c d u raw text hu hhigh hlow _ ih =>
      intro fuel s hf
      obtain ⟨fuel, rfl⟩ := Nat.exists_eq_succ_of_ne_zero (Nat.ne_of_gt (Nat.zero_lt_of_lt hf))
      have hrest := ih fuel s (by simp only [List.length_cons] at hf; omega)
      simp [chars, unescape_unicode hu hhigh hlow, hrest]
  | @pair a b c d a' b' c' d' u v raw text hu hhigh hv hlow _ ih =>
      intro fuel s hf
      obtain ⟨fuel, rfl⟩ := Nat.exists_eq_succ_of_ne_zero (Nat.ne_of_gt (Nat.zero_lt_of_lt hf))
      have hrest := ih fuel s (by simp only [List.length_cons] at hf; omega)
      simp [chars, unescape_pair hu hhigh hv hlow, hrest]

/-- A string is read up to its quote. -/
theorem string_append {raw text : Bytes} (h : Chars raw text) (hutf8 : Utf8 text) (s : Bytes) :
    string (raw ++ 34 :: s) = some (text, s) := by
  have hchars := chars_append h ((raw ++ 34 :: s).length + 1) s (by simp)
  simp only [string, hchars, bind, Option.bind_some, if_pos hutf8]

/-! ## Numbers -/

/-- A run of digits is read whole when no digit follows. -/
theorem digits_append {ds s : Bytes} (h : Digits ds) (hs : ∀ b ∈ s.head?, isDigit b = false) :
    digits (ds ++ s) = some (ds, s) := by
  have htake : (ds ++ s).takeWhile isDigit = ds := by
    rw [List.takeWhile_append_of_pos h.2]
    cases s with
    | nil => simp
    | cons b s => simp [hs b (by simp)]
  have hdrop : (ds ++ s).dropWhile isDigit = s := by
    rw [List.dropWhile_append_of_pos h.2]
    cases s with
    | nil => rfl
    | cons b s => exact List.dropWhile_cons_of_neg (by simp [hs b (by simp)])
  simp [digits, htake, hdrop, h.1]

/-- No digit comes behind a number. -/
theorem head_not_digit_of_value_end {s : Bytes} (h : ValueEnd s) :
    ∀ b ∈ s.head?, isDigit b = false := by
  cases s with
  | nil => simp
  | cons b s => simpa using (value_end_cons.mp h).1

/-- An exponent is read to its end. -/
theorem exponent_append {et s : Bytes} {exp : Option (Bool × Bytes)} (h : Exp et exp)
    (hs : ValueEnd s) : exponent (et ++ s) = some (exp, s) := by
  cases h with
  | none =>
      cases s with
      | nil => rfl
      | cons b s =>
          obtain ⟨-, -, he, hE⟩ := value_end_cons.mp hs
          simp [exponent, he, hE]
  | @some e sign ds negative he hsign hds =>
      have hdigits := digits_append hds (head_not_digit_of_value_end hs)
      have hread : expSign (sign ++ (ds ++ s)) = (negative, ds ++ s) := by
        cases hsign with
        | none =>
            obtain ⟨b, ds, rfl⟩ := List.exists_cons_of_ne_nil hds.1
            have hb : isDigit b = true := hds.2 b (by simp)
            have hminus : b ≠ 45 := fun heq => absurd (heq ▸ hb) (by decide)
            have hplus : b ≠ 43 := fun heq => absurd (heq ▸ hb) (by decide)
            simp [expSign, hminus, hplus]
        | plus => simp [expSign]
        | minus => simp [expSign]
      simp [exponent, he, hread, hdigits]

/-- What follows the fraction starts neither with a digit nor with a point. -/
theorem exp_append_head {et s : Bytes} {exp : Option (Bool × Bytes)} (h : Exp et exp)
    (hs : ValueEnd s) : ∀ b ∈ (et ++ s).head?, isDigit b = false ∧ b ≠ 46 := by
  cases h with
  | none =>
      cases s with
      | nil => simp
      | cons b s =>
          obtain ⟨hd, hp, -, -⟩ := value_end_cons.mp hs
          simpa using ⟨hd, hp⟩
  | some he _ _ => rcases he with rfl | rfl <;> simp <;> decide

/-- So is a fraction. -/
theorem fraction_append {ft s : Bytes} {frac : Option Bytes} (h : Frac ft frac)
    (hs : ∀ b ∈ s.head?, isDigit b = false ∧ b ≠ 46) :
    fraction (ft ++ s) = some (frac, s) := by
  cases h with
  | none =>
      cases s with
      | nil => rfl
      | cons b s => simp [fraction, (hs b (by simp)).2]
  | some hds =>
      have hdigits := digits_append hds fun b hb => (hs b hb).1
      simp [fraction, hdigits]

/-- What follows the integer part of a number does not start with a digit. -/
theorem frac_append_head {ft s : Bytes} {frac : Option Bytes} (h : Frac ft frac)
    (hs : ∀ b ∈ s.head?, isDigit b = false ∧ b ≠ 46) :
    ∀ b ∈ (ft ++ s).head?, isDigit b = false := by
  cases h with
  | none => exact fun b hb => (hs b hb).1
  | some => simp; decide

/-- And a number. -/
theorem number_append {t s : Bytes} {v : Json} (h : Number t v) (hs : ValueEnd s) :
    number (t ++ s) = some (v, s) := by
  obtain @⟨negative, ds, ft, et, frac, exp, hds, hfrac, hexp⟩ := h
  have hend := exp_append_head hexp hs
  have hint : ¬ (ds ≠ [48] ∧ ds.head? = some 48) := by
    rintro ⟨hne, hhead⟩
    exact hds.2.elim hne fun h => h hhead
  have hread : unsignedNumber negative (ds ++ (ft ++ (et ++ s))) =
      some (numberValue negative ds frac exp, s) := by
    have hdigits := digits_append hds.1 (frac_append_head hfrac hend)
    simp only [unsignedNumber, hdigits, bind, Option.bind_some, if_neg hint,
      fraction_append hfrac hend, exponent_append hexp hs]
  cases negative with
  | true => simpa [number] using hread
  | false =>
      obtain ⟨b, ds, rfl⟩ := List.exists_cons_of_ne_nil hds.1.1
      have hb : b ≠ 45 := fun heq => absurd (heq ▸ hds.1.2 b (by simp)) (by decide)
      simpa [number, hb] using hread

/-- A number starts with a digit or a minus sign. -/
theorem Number.head {t : Bytes} {v : Json} (h : Number t v) :
    ∃ b rest, t = b :: rest ∧ (b = 45 ∨ isDigit b = true) := by
  obtain @⟨negative, ds, ft, et, frac, exp, hds, hfrac, hexp⟩ := h
  cases negative with
  | true => exact ⟨45, ds ++ (ft ++ et), by simp, .inl rfl⟩
  | false =>
      obtain ⟨b, ds, rfl⟩ := List.exists_cons_of_ne_nil hds.1.1
      exact ⟨b, ds ++ (ft ++ et), by simp, .inr (hds.1.2 b (by simp))⟩

/-! ## Values -/

/-- A digit lies between `'0'` and `'9'`. -/
theorem to_nat_of_is_digit {b : UInt8} (h : isDigit b = true) :
    48 ≤ b.toNat ∧ b.toNat ≤ 57 := by
  have hrange : 48 ≤ b ∧ b ≤ 57 := by simpa [isDigit] using h
  exact ⟨hrange.1, hrange.2⟩

/-- The octet a value starts with: no white space, and none of the closing brackets. -/
theorem Value.head {t : Bytes} {v : Json} (h : Value t v) :
    ∃ b rest, t = b :: rest ∧ isWs b = false ∧ b ≠ 93 ∧ b ≠ 125 := by
  cases h with
  | litNull => exact ⟨110, ascii "ull", rfl, by decide⟩
  | litTrue => exact ⟨116, ascii "rue", rfl, by decide⟩
  | litFalse => exact ⟨102, ascii "alse", rfl, by decide⟩
  | number h =>
      obtain ⟨b, rest, rfl, hb⟩ := h.head
      refine ⟨b, rest, rfl, ?_⟩
      rcases hb with rfl | hb
      · decide
      · have hrange := to_nat_of_is_digit hb
        simp only [isWs, Bool.or_eq_false_iff, decide_eq_false_iff_not, ne_eq,
          ← UInt8.toNat_inj, UInt8.reduceToNat]
        omega
  | string => exact ⟨34, _, rfl, by decide⟩
  | arrEmpty => exact ⟨91, _, rfl, by decide⟩
  | arr => exact ⟨91, _, rfl, by decide⟩
  | objEmpty => exact ⟨123, _, rfl, by decide⟩
  | obj => exact ⟨123, _, rfl, by decide⟩

/-- No value is empty. -/
theorem Value.length_pos {t : Bytes} {v : Json} (h : Value t v) : 0 < t.length := by
  obtain ⟨b, rest, rfl, -⟩ := h.head
  simp

/-- White space before a value is skipped up to the value. -/
theorem Value.skip_ws {w t s : Bytes} {v : Json} (h : Value t v) (hw : Ws w) :
    skipWs (w ++ (t ++ s)) = t ++ s := by
  obtain ⟨b, rest, rfl, hb, -⟩ := h.head
  exact skip_ws_append hw (by simpa using hb)

/-- A digit or a minus sign sends the decoder to the number scanner. -/
theorem value_eq_number {b : UInt8} (hb : b = 45 ∨ isDigit b = true) (fuel : Nat) (s : Bytes) :
    value (fuel + 1) (b :: s) = number (b :: s) := by
  have hne : b ≠ 34 ∧ b ≠ 91 ∧ b ≠ 123 ∧ b ≠ 110 ∧ b ≠ 116 ∧ b ≠ 102 := by
    rcases hb with rfl | hb
    · decide
    · have hrange := to_nat_of_is_digit hb
      simp only [ne_eq, ← UInt8.toNat_inj, UInt8.reduceToNat]
      omega
  simp [value, hne]

/-- The separator and the closing brackets end a number. -/
theorem value_end_ws_cons {w s : Bytes} {b : UInt8} (hw : Ws w)
    (hb : isDigit b = false ∧ b ≠ 46 ∧ b ≠ 101 ∧ b ≠ 69) : ValueEnd (w ++ b :: s) :=
  value_end_ws_append hw (value_end_cons.mpr hb)

/-- The element list of an array starts, after white space, with its first value. -/
theorem Elements.head {t : Bytes} {vs : List Json} (h : Elements t vs) (s : Bytes) :
    ∃ b rest, skipWs (t ++ s) = b :: rest ∧ isWs b = false ∧ b ≠ 93 ∧
      skipWs (b :: rest) = skipWs (t ++ s) := by
  have hfirst : ∀ {w t u : Bytes} {v : Json}, Ws w → Value t v →
      ∃ b rest, skipWs (w ++ (t ++ u)) = b :: rest ∧ isWs b = false ∧ b ≠ 93 ∧
        skipWs (b :: rest) = skipWs (w ++ (t ++ u)) := by
    intro w t u v hw hv
    have hskip := hv.skip_ws (s := u) hw
    obtain ⟨b, rest, rfl, hb, hclose, -⟩ := hv.head
    refine ⟨b, rest ++ u, hskip, hb, hclose, ?_⟩
    rw [skip_ws_cons hb, hskip]
    rfl
  cases h with
  | @last w t w' v hw hv _ => simpa using hfirst (u := w' ++ 93 :: s) hw hv
  | @cons w t w' rest v vs hw hv _ _ => simpa using hfirst (u := w' ++ 44 :: (rest ++ s)) hw hv

/-- The member list of an object starts, after white space, with a quotation mark. -/
theorem Members.head {t : Bytes} {ms : List (Bytes × Json)} (h : Members t ms) (s : Bytes) :
    ∃ rest, skipWs (t ++ s) = 34 :: rest := by
  cases h with
  | last hw => exact ⟨_, by
      rw [List.append_assoc, List.cons_append]
      exact skip_ws_append hw (by simp; decide)⟩
  | cons hw => exact ⟨_, by
      rw [List.append_assoc, List.cons_append]
      exact skip_ws_append hw (by simp; decide)⟩

mutual
/-- The decoder reads a value of the grammar off the front of a text. -/
theorem value_append {t : Bytes} {v : Json} (h : Value t v) (fuel : Nat) (s : Bytes)
    (hf : 2 * t.length ≤ fuel) (hs : ValueEnd s) : value fuel (t ++ s) = some (v, s) := by
  -- every call takes one unit off the fuel and at least one of every two takes a byte
  have hpos := h.length_pos
  obtain ⟨fuel, rfl⟩ : ∃ k, fuel = k + 1 := ⟨fuel - 1, by omega⟩
  cases h with
  | litNull => simp [value, ascii, word]
  | litTrue => simp [value, ascii, word]
  | litFalse => simp [value, ascii, word]
  | number h =>
      have hread := number_append h hs
      obtain ⟨b, rest, rfl, hb⟩ := h.head
      rw [List.cons_append, value_eq_number hb]
      exact hread
  | string hchars hutf8 => simp [value, string_append hchars hutf8]
  | @arrEmpty w hw =>
      have hskip : skipWs (w ++ 93 :: s) = 93 :: s := skip_ws_append hw (by simp; decide)
      simp [value, hskip]
  | @arr t vs h =>
      obtain ⟨b, rest, hskip, hb, hclose, hsame⟩ := h.head s
      have hread := elements_append h fuel s (by simp only [List.length_cons] at hf; omega)
      have hrest : elements fuel (b :: rest) = some (vs, s) := by
        obtain ⟨fuel, rfl⟩ : ∃ k, fuel = k + 1 :=
          ⟨fuel - 1, by simp only [List.length_cons] at hf; omega⟩
        simpa only [elements, hsame] using hread
      simp [value, hskip, hclose, hrest]
  | @objEmpty w hw =>
      have hskip : skipWs (w ++ 125 :: s) = 125 :: s := skip_ws_append hw (by simp; decide)
      simp [value, hskip]
  | @obj t ms h =>
      obtain ⟨rest, hskip⟩ := h.head s
      have hread := members_append h fuel s (by simp only [List.length_cons] at hf; omega)
      have hrest : members fuel (34 :: rest) = some (ms, s) := by
        obtain ⟨fuel, rfl⟩ : ∃ k, fuel = k + 1 :=
          ⟨fuel - 1, by simp only [List.length_cons] at hf; omega⟩
        simpa only [members, hskip, skip_ws_cons (show isWs 34 = false by decide)] using hread
      simp [value, hskip, hrest]

/-- The decoder reads the rest of an array. -/
theorem elements_append {t : Bytes} {vs : List Json} (h : Elements t vs) (fuel : Nat) (s : Bytes)
    (hf : 2 * t.length + 1 ≤ fuel) : elements fuel (t ++ s) = some (vs, s) := by
  obtain ⟨fuel, rfl⟩ : ∃ k, fuel = k + 1 := ⟨fuel - 1, by omega⟩
  cases h with
  | @last w t w' v hw hv hw' =>
      simp only [List.length_append, List.length_cons, List.length_nil] at hf
      have hvalue := value_append hv fuel (w' ++ 93 :: s) (by omega)
        (value_end_ws_cons hw' (by decide))
      have hskip : skipWs (w' ++ 93 :: s) = 93 :: s := skip_ws_append hw' (by simp; decide)
      simp [elements, hv.skip_ws hw, hvalue, hskip]
  | @cons w t w' rest v vs hw hv hw' hrest =>
      simp only [List.length_append, List.length_cons] at hf
      have hpos := hv.length_pos
      have hvalue := value_append hv fuel (w' ++ 44 :: (rest ++ s)) (by omega)
        (value_end_ws_cons hw' (by decide))
      have hskip : skipWs (w' ++ 44 :: (rest ++ s)) = 44 :: (rest ++ s) :=
        skip_ws_append hw' (by simp; decide)
      have htail := elements_append hrest fuel s (by omega)
      simp [elements, hv.skip_ws hw, hvalue, hskip, htail]

/-- The decoder reads the rest of an object. -/
theorem members_append {t : Bytes} {ms : List (Bytes × Json)} (h : Members t ms) (fuel : Nat)
    (s : Bytes) (hf : 2 * t.length + 1 ≤ fuel) : members fuel (t ++ s) = some (ms, s) := by
  obtain ⟨fuel, rfl⟩ : ∃ k, fuel = k + 1 := ⟨fuel - 1, by omega⟩
  have hquote : isWs 34 = false := by decide
  have hcolon : isWs 58 = false := by decide
  cases h with
  | @last w raw key w₁ w₂ t w₃ v hw hkey hutf8 hw₁ hw₂ hv hw₃ =>
      simp only [List.length_append, List.length_cons, List.length_nil] at hf
      have hopen : skipWs (w ++ 34 :: (raw ++ 34 :: (w₁ ++ 58 :: (w₂ ++ (t ++ (w₃ ++ 125 :: s))))))
          = 34 :: (raw ++ 34 :: (w₁ ++ 58 :: (w₂ ++ (t ++ (w₃ ++ 125 :: s))))) :=
        skip_ws_append hw (by simpa using hquote)
      have hname : skipWs (w₁ ++ 58 :: (w₂ ++ (t ++ (w₃ ++ 125 :: s)))) =
          58 :: (w₂ ++ (t ++ (w₃ ++ 125 :: s))) := skip_ws_append hw₁ (by simpa using hcolon)
      have hvalue := value_append hv fuel (w₃ ++ 125 :: s) (by omega)
        (value_end_ws_cons hw₃ (by decide))
      have hskip : skipWs (w₃ ++ 125 :: s) = 125 :: s := skip_ws_append hw₃ (by simp; decide)
      simp [members, word, hopen, string_append hkey hutf8, hname, hv.skip_ws hw₂, hvalue, hskip]
  | @cons w raw key w₁ w₂ t w₃ rest v ms hw hkey hutf8 hw₁ hw₂ hv hw₃ hrest =>
      simp only [List.length_append, List.length_cons] at hf
      have hopen :
          skipWs (w ++ 34 :: (raw ++ 34 :: (w₁ ++ 58 :: (w₂ ++ (t ++ (w₃ ++ 44 :: (rest ++ s)))))))
          = 34 :: (raw ++ 34 :: (w₁ ++ 58 :: (w₂ ++ (t ++ (w₃ ++ 44 :: (rest ++ s)))))) :=
        skip_ws_append hw (by simpa using hquote)
      have hname : skipWs (w₁ ++ 58 :: (w₂ ++ (t ++ (w₃ ++ 44 :: (rest ++ s))))) =
          58 :: (w₂ ++ (t ++ (w₃ ++ 44 :: (rest ++ s)))) :=
        skip_ws_append hw₁ (by simpa using hcolon)
      have hvalue := value_append hv fuel (w₃ ++ 44 :: (rest ++ s)) (by omega)
        (value_end_ws_cons hw₃ (by decide))
      have hskip : skipWs (w₃ ++ 44 :: (rest ++ s)) = 44 :: (rest ++ s) :=
        skip_ws_append hw₃ (by simp; decide)
      have htail := members_append hrest fuel s (by omega)
      simp [members, word, hopen, string_append hkey hutf8, hname, hv.skip_ws hw₂, hvalue, hskip,
        htail]
end

/-- The decoder returns the value the grammar derives for a text. -/
theorem decode_of_text {t : Bytes} {v : Json} (h : Text t v) : decode t = some v := by
  obtain ⟨hw, hv, hw'⟩ := h
  rename_i w t w'
  have hread := value_append hv (2 * (w ++ (t ++ w')).length + 2) w' (by simp; omega)
    (by simpa using value_end_ws_append hw' (s := []) trivial)
  simp only [decode, hv.skip_ws hw, hread, bind, Option.bind_some, skip_ws_eq_nil hw', if_true]

/-! ## The octets of a text -/

/-- Not a control character, or white space. -/
def Legal (b : UInt8) : Prop :=
  32 ≤ b ∨ isWs b = true

/-- Every octet of the text is legal. -/
def AllLegal (t : Bytes) : Prop :=
  ∀ b ∈ t, Legal b

/-- The empty text is legal. -/
@[simp] theorem all_legal_nil : AllLegal [] :=
  fun _ h => absurd h List.not_mem_nil

/-- A text is legal when its bytes are. -/
@[simp] theorem all_legal_cons {b : UInt8} {t : Bytes} :
    AllLegal (b :: t) ↔ Legal b ∧ AllLegal t :=
  List.forall_mem_cons

/-- And two texts when both are. -/
@[simp] theorem all_legal_append {s t : Bytes} : AllLegal (s ++ t) ↔ AllLegal s ∧ AllLegal t :=
  List.forall_mem_append

/-- Blank space is legal. -/
theorem Ws.all_legal {w : Bytes} (h : Ws w) : AllLegal w :=
  fun b hb => .inr (h b hb)

/-- Everything but control characters is. -/
theorem legal_of_le {b : UInt8} (h : 32 ≤ b) : Legal b :=
  .inl h

/-- A digit is legal. -/
theorem legal_of_is_digit {b : UInt8} (h : isDigit b = true) : Legal b := by
  have hrange := to_nat_of_is_digit h
  exact legal_of_le (UInt8.le_iff_toNat_le.mpr (by simp; omega))

/-- So is the letter of an escape. -/
theorem legal_of_short_escape {e b : UInt8} (h : shortEscape e = some b) : Legal e := by
  simp only [shortEscape] at h
  split_ifs at h <;> subst_vars <;> exact legal_of_le (by decide)

/-- And a hexadecimal digit. -/
theorem legal_of_hex_value {b : UInt8} {n : Nat} (h : hexValue b = some n) : Legal b := by
  have hle : 48 ≤ b := by
    simp only [hexValue] at h
    split_ifs at h with h₁ h₂ h₃
    · exact h₁.1
    · exact UInt8.le_trans (by decide) h₂.1
    · exact UInt8.le_trans (by decide) h₃.1
  exact legal_of_le (UInt8.le_trans (by decide) hle)

/-- Four of them are. -/
theorem all_legal_of_hex4 {a b c d : UInt8} {u : Nat} (h : hex4 a b c d = some u) :
    AllLegal [a, b, c, d] := by
  simp only [hex4, bind, Option.bind_eq_some_iff] at h
  obtain ⟨_, ha, _, hb, _, hc, _, hd, -⟩ := h
  simp [legal_of_hex_value ha, legal_of_hex_value hb, legal_of_hex_value hc,
    legal_of_hex_value hd]

/-- The characters of a string are legal. -/
theorem Chars.all_legal {raw text : Bytes} (h : Chars raw text) : AllLegal raw := by
  have hslash : Legal 92 := legal_of_le (by decide)
  have hu : Legal 117 := legal_of_le (by decide)
  induction h with
  | nil => exact all_legal_nil
  | plain hb _ _ _ ih => exact all_legal_cons.mpr ⟨legal_of_le hb, ih⟩
  | short hescape _ ih => simp [hslash, legal_of_short_escape hescape, ih]
  | unicode hhex _ _ _ ih =>
      have hdigits := all_legal_of_hex4 hhex
      simp only [all_legal_cons] at hdigits ⊢
      simp [hslash, hu, hdigits, ih]
  | pair hhex _ hhex' _ _ ih =>
      have hdigits := all_legal_of_hex4 hhex
      have hdigits' := all_legal_of_hex4 hhex'
      simp only [all_legal_cons] at hdigits hdigits' ⊢
      simp [hslash, hu, hdigits, hdigits', ih]

/-- So are digits. -/
theorem Digits.all_legal {ds : Bytes} (h : Digits ds) : AllLegal ds :=
  fun b hb => legal_of_is_digit (h.2 b hb)

/-- And numbers. -/
theorem Number.all_legal {t : Bytes} {v : Json} (h : Number t v) : AllLegal t := by
  obtain @⟨negative, ds, ft, et, frac, exp, hds, hfrac, hexp⟩ := h
  have hsign : AllLegal (if negative then [45] else []) := by
    cases negative <;> simp [legal_of_le (show (32 : UInt8) ≤ 45 by decide)]
  have hft : AllLegal ft := by
    cases hfrac with
    | none => exact all_legal_nil
    | some h => simp [legal_of_le (show (32 : UInt8) ≤ 46 by decide), h.all_legal]
  have het : AllLegal et := by
    cases hexp with
    | none => exact all_legal_nil
    | @some e sign ds negative he hs h =>
        have hmark : Legal e := by rcases he with rfl | rfl <;> exact legal_of_le (by decide)
        have hsign : AllLegal sign := by
          cases hs <;> simp [legal_of_le (show (32 : UInt8) ≤ 43 by decide),
            legal_of_le (show (32 : UInt8) ≤ 45 by decide)]
        simp [hmark, hsign, h.all_legal]
  simp [hsign, hds.1.all_legal, hft, het]

/-- Quotes, brackets, commas and colons are legal. -/
theorem legal_structural : Legal 34 ∧ Legal 44 ∧ Legal 58 ∧ Legal 91 ∧ Legal 93 ∧ Legal 123 ∧
    Legal 125 := by
  refine ⟨?_, ?_, ?_, ?_, ?_, ?_, ?_⟩ <;> exact legal_of_le (by decide)

mutual
/-- A value holds no control character outside white space. -/
theorem Value.all_legal {t : Bytes} {v : Json} (h : Value t v) : AllLegal t := by
  cases h with
  | litNull => simp [ascii, Legal]
  | litTrue => simp [ascii, Legal]
  | litFalse => simp [ascii, Legal]
  | number h => exact h.all_legal
  | string h _ => simp [legal_structural, h.all_legal]
  | arrEmpty hw => simp [legal_structural, hw.all_legal]
  | arr h => simp [legal_structural, h.all_legal]
  | objEmpty hw => simp [legal_structural, hw.all_legal]
  | obj h => simp [legal_structural, h.all_legal]

/-- The rest of an array holds no control character outside white space. -/
theorem Elements.all_legal {t : Bytes} {vs : List Json} (h : Elements t vs) : AllLegal t := by
  cases h with
  | last hw hv hw' => simp [legal_structural, hw.all_legal, hv.all_legal, hw'.all_legal]
  | cons hw hv hw' hrest =>
      simp [legal_structural, hw.all_legal, hv.all_legal, hw'.all_legal, hrest.all_legal]

/-- The rest of an object holds no control character outside white space. -/
theorem Members.all_legal {t : Bytes} {ms : List (Bytes × Json)} (h : Members t ms) :
    AllLegal t := by
  cases h with
  | last hw hkey _ hw₁ hw₂ hv hw₃ =>
      simp [legal_structural, hw.all_legal, hkey.all_legal, hw₁.all_legal, hw₂.all_legal,
        hv.all_legal, hw₃.all_legal]
  | cons hw hkey _ hw₁ hw₂ hv hw₃ hrest =>
      simp [legal_structural, hw.all_legal, hkey.all_legal, hw₁.all_legal, hw₂.all_legal,
        hv.all_legal, hw₃.all_legal, hrest.all_legal]
end

/-- A JSON text holds no control character other than white space. -/
theorem Text.all_legal {t : Bytes} {v : Json} (h : Text t v) : AllLegal t := by
  obtain ⟨hw, hv, hw'⟩ := h
  simp [hw.all_legal, hv.all_legal, hw'.all_legal]

/-! ## The strings of a text -/

/-- A string that stands in a value. -/
inductive Holds (s : Bytes) : Json → Prop where
  | str : Holds s (.str s)
  | item {v : Json} {vs : List Json} : v ∈ vs → Holds s v → Holds s (.arr vs)
  | member {key : Bytes} {v : Json} {ms : List (Bytes × Json)} :
      (key, v) ∈ ms → Holds s v → Holds s (.obj ms)

/-- A character takes at most four octets. -/
theorem length_utf8_encode_le (u : Nat) : (utf8Encode u).length ≤ 4 := by
  unfold utf8Encode
  split_ifs <;> simp

/-- The characters of a string take as many octets as the string at least. -/
theorem Chars.length_le {raw text : Bytes} (h : Chars raw text) : text.length ≤ raw.length := by
  induction h with
  | nil => exact Nat.le_refl _
  | plain _ _ _ _ ih => simpa using ih
  | short _ _ ih =>
      simp only [List.length_cons]
      omega
  | @unicode _ _ _ _ u _ _ _ _ _ _ ih =>
      have hlen := length_utf8_encode_le u
      simp only [List.length_append, List.length_cons]
      omega
  | @pair _ _ _ _ _ _ _ _ u v _ _ _ _ _ _ _ ih =>
      have hlen := length_utf8_encode_le (surrogatePair u v)
      simp only [List.length_append, List.length_cons]
      omega

/-- A number holds no string. -/
theorem Number.not_holds {t s : Bytes} {v : Json} (h : Number t v) : ¬ Holds s v := by
  obtain ⟨negative, -, -, -⟩ := h
  intro hs
  unfold numberValue at hs
  simp only at hs
  split at hs
  · cases hs
  · split at hs <;> cases hs

mutual
/-- The strings of a value are no longer than its text. -/
theorem Value.length_of_holds {t s : Bytes} {v : Json} (h : Value t v) (hs : Holds s v) :
    s.length ≤ t.length := by
  cases h with
  | litNull => cases hs
  | litTrue => cases hs
  | litFalse => cases hs
  | number h => exact absurd hs h.not_holds
  | string h _ =>
      have hle := h.length_le
      cases hs
      simp only [List.length_cons, List.length_append]
      omega
  | arrEmpty _ =>
      cases hs with
      | item hv _ => exact absurd hv List.not_mem_nil
  | arr h =>
      cases hs with
      | item hv hs => exact Nat.le_succ_of_le (h.length_of_holds hv hs)
  | objEmpty _ =>
      cases hs with
      | member hv _ => exact absurd hv List.not_mem_nil
  | obj h =>
      cases hs with
      | member hv hs => exact Nat.le_succ_of_le (h.length_of_holds hv hs)

/-- The strings of an item are no longer than the rest of the array. -/
theorem Elements.length_of_holds {t s : Bytes} {v : Json} {vs : List Json} (h : Elements t vs)
    (hv : v ∈ vs) (hs : Holds s v) : s.length ≤ t.length := by
  cases h with
  | last _ hfirst _ =>
      rw [List.mem_singleton.mp hv] at hs
      have hle := hfirst.length_of_holds hs
      simp only [List.length_append]
      omega
  | cons _ hfirst _ hrest =>
      simp only [List.length_append, List.length_cons]
      rcases List.mem_cons.mp hv with hv | hv
      · rw [hv] at hs
        have hle := hfirst.length_of_holds hs
        omega
      · have hle := hrest.length_of_holds hv hs
        omega

/-- The strings of a member are no longer than the rest of the object. -/
theorem Members.length_of_holds {t s key : Bytes} {v : Json} {ms : List (Bytes × Json)}
    (h : Members t ms) (hv : (key, v) ∈ ms) (hs : Holds s v) : s.length ≤ t.length := by
  cases h with
  | last _ _ _ _ _ hfirst _ =>
      rw [(Prod.mk.inj (List.mem_singleton.mp hv)).2] at hs
      have hle := hfirst.length_of_holds hs
      simp only [List.length_append, List.length_cons]
      omega
  | cons _ _ _ _ _ hfirst _ hrest =>
      simp only [List.length_append, List.length_cons]
      rcases List.mem_cons.mp hv with hv | hv
      · rw [(Prod.mk.inj hv).2] at hs
        have hle := hfirst.length_of_holds hs
        omega
      · have hle := hrest.length_of_holds hv hs
        omega
end

/-- A text is as long as any string of its value. -/
theorem Text.length_of_holds {t s : Bytes} {v : Json} (h : Text t v) (hs : Holds s v) :
    s.length ≤ t.length := by
  obtain ⟨-, hv, -⟩ := h
  have hle := hv.length_of_holds hs
  simp only [List.length_append]
  omega

end Wire.Json
