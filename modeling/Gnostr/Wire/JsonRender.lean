import Gnostr.Wire.Delimited
import Gnostr.Wire.JsonDecode

/-!
# Writing JSON texts

Rules for showing that a text is derived by the grammar, one for each way a program writes a
value: plain strings, integers in base ten, bracketed lists and object members. A printer
that writes by hand is checked with them piece by piece.

A printer that puts a string between quotation marks as it is writes a text for that string only
if nothing in it has to be escaped; the last section shows the converse.
-/

namespace Wire.Json

/-- A text that has no quotation mark, backslash or control character. -/
def isRaw (t : Bytes) : Bool :=
  t.all fun b => 32 ≤ b && b ≠ 34 && b ≠ 92

/-- A text without quotes, backslashes and control characters. -/
theorem is_raw_iff {t : Bytes} : isRaw t = true ↔ ∀ b ∈ t, 32 ≤ b ∧ b ≠ 34 ∧ b ≠ 92 := by
  simp [isRaw, and_assoc]

/-- Such a text stands for itself. -/
theorem chars_raw {t : Bytes} (h : isRaw t = true) : Chars t t := by
  rw [is_raw_iff] at h
  induction t with
  | nil => exact .nil
  | cons b t ih =>
      obtain ⟨hle, hquote, hslash⟩ := h b List.mem_cons_self
      exact .plain hle hquote hslash (ih fun c hc => h c (List.mem_cons_of_mem _ hc))

/-- Printable ASCII that needs no escape. -/
def isPlain (t : Bytes) : Bool :=
  t.all fun b => 32 ≤ b && b ≠ 34 && b ≠ 92 && b ≤ 127

/-- And without anything but ASCII. -/
theorem is_plain_iff {t : Bytes} :
    isPlain t = true ↔ ∀ b ∈ t, 32 ≤ b ∧ b ≠ 34 ∧ b ≠ 92 ∧ b ≤ 127 := by
  simp [isPlain, and_assoc]

/-- A plain text is raw. -/
theorem is_raw_plain {t : Bytes} (h : isPlain t = true) : isRaw t = true := by
  refine is_raw_iff.mpr fun b hb => ?_
  obtain ⟨hle, hquote, hslash, -⟩ := is_plain_iff.mp h b hb
  exact ⟨hle, hquote, hslash⟩

/-- Plain text stands for itself. -/
theorem chars_plain {t : Bytes} (h : isPlain t = true) : Chars t t :=
  chars_raw (is_raw_plain h)

/-- And UTF-8. -/
theorem utf8_plain {t : Bytes} (h : isPlain t = true) : Utf8 t :=
  utf8_of_ascii fun b hb => (is_plain_iff.mp h b hb).2.2.2

/-- A plain string between quotation marks. -/
theorem value_plain {t : Bytes} (h : isPlain t = true) : Value (34 :: (t ++ [34])) (.str t) :=
  .string (chars_plain h) (utf8_plain h)

/-- Nothing is blank space. -/
theorem ws_nil : Ws [] :=
  fun _ h => absurd h List.not_mem_nil

/-- A number has no leading zero. -/
theorem int_digits_decimal (n : Nat) : IntDigits (decimal n) := by
  refine ⟨⟨decimal_ne_nil n, fun b hb => is_digit_of_mem_decimal hb⟩, ?_⟩
  by_cases hn : n = 0
  · subst hn
    exact .inl rfl
  · obtain ⟨b, rest, hb, hne⟩ := decimal_head hn
    exact .inr (by simpa [hb] using hne)

/-- An integer in base ten. -/
theorem value_signed_decimal (z : Int) : Value (signedDecimal z) (.int z) := by
  cases z with
  | ofNat n =>
      have h := Number.mk false (int_digits_decimal n) .none .none
      simpa [numberValue, signedDecimal, decimal_value_decimal] using Value.number h
  | negSucc n =>
      have h := Number.mk true (int_digits_decimal (n + 1)) .none .none
      simpa [numberValue, signedDecimal, decimal_value_decimal, Int.negSucc_eq] using
        Value.number h

/-- The rest of an array written with a comma between neighbours. -/
theorem elements_separated {α : Type} {item : α → Bytes} {v : α → Json} (x : α) (xs : List α)
    (h : ∀ y ∈ x :: xs, Value (item y) (v y)) :
    Elements (separated item 44 (x :: xs) ++ [93]) ((x :: xs).map v) := by
  induction xs generalizing x with
  | nil => simpa [separated] using Elements.last ws_nil (h x (by simp)) ws_nil
  | cons y ys ih =>
      have hrest := ih y fun z hz => h z (List.mem_cons_of_mem _ hz)
      simpa [separated] using Elements.cons ws_nil (h x (by simp)) ws_nil hrest

/-- An array written without white space. -/
theorem value_bracketed {α : Type} {item : α → Bytes} {v : α → Json} {xs : List α}
    (h : ∀ x ∈ xs, Value (item x) (v x)) :
    Value (bracketed item 91 44 93 xs) (.arr (xs.map v)) := by
  cases xs with
  | nil => exact .arrEmpty ws_nil
  | cons x xs => exact .arr (elements_separated x xs h)

/-- A member with a plain name, a space after the colon, and further members. -/
theorem Members.plain_cons {key t rest : Bytes} {v : Json} {ms : List (Bytes × Json)}
    (hkey : isPlain key = true) (hv : Value t v) (hrest : Members rest ms) :
    Members (34 :: (key ++ 34 :: 58 :: 32 :: (t ++ 44 :: rest))) ((key, v) :: ms) := by
  have hspace : Ws [32] := by simp [Ws, isWs]
  simpa using Members.cons ws_nil (chars_plain hkey) (utf8_plain hkey) ws_nil hspace hv ws_nil
    hrest

/-- The last member, with a plain name and a space after the colon. -/
theorem Members.plain_last {key t : Bytes} {v : Json} (hkey : isPlain key = true)
    (hv : Value t v) :
    Members (34 :: (key ++ 34 :: 58 :: 32 :: (t ++ [125]))) [(key, v)] := by
  have hspace : Ws [32] := by simp [Ws, isWs]
  simpa using Members.last ws_nil (chars_plain hkey) (utf8_plain hkey) ws_nil hspace hv ws_nil

/-- A bracketed list of texts of values. -/
theorem exists_value_bracketed {ts : List Bytes} (h : ∀ t ∈ ts, ∃ v, Value t v) :
    ∃ v, Value (bracketed id 91 44 93 ts) v := by
  have hall : ∀ t, ∃ v, t ∈ ts → Value t v := by
    intro t
    by_cases ht : t ∈ ts
    · obtain ⟨v, hv⟩ := h t ht
      exact ⟨v, fun _ => hv⟩
    · exact ⟨.null, fun hmem => absurd hmem ht⟩
  choose v hv using hall
  exact ⟨_, value_bracketed hv⟩

/-- The text of a member without white space. -/
def IsMember (t : Bytes) : Prop :=
  ∃ raw key tv v, t = 34 :: (raw ++ 34 :: 58 :: tv) ∧ Chars raw key ∧ Utf8 key ∧ Value tv v

/-- Texts that are members make an object. -/
theorem exists_members {t : Bytes} {ts : List Bytes} (h : ∀ u ∈ t :: ts, IsMember u) :
    ∃ ms, Members (separated id 44 (t :: ts) ++ [125]) ms := by
  induction ts generalizing t with
  | nil =>
      obtain ⟨raw, key, tv, v, rfl, hraw, hkey, hv⟩ := h t List.mem_cons_self
      refine ⟨[(key, v)], ?_⟩
      simpa [separated] using Members.last ws_nil hraw hkey ws_nil ws_nil hv ws_nil
  | cons u ts ih =>
      obtain ⟨raw, key, tv, v, rfl, hraw, hkey, hv⟩ := h t List.mem_cons_self
      obtain ⟨ms, hms⟩ := ih fun x hx => h x (List.mem_cons_of_mem _ hx)
      refine ⟨(key, v) :: ms, ?_⟩
      simpa [separated] using Members.cons ws_nil hraw hkey ws_nil ws_nil hv ws_nil hms

/-- A list of members between braces. -/
theorem exists_value_members {ts : List Bytes} (h : ∀ t ∈ ts, IsMember t) :
    ∃ v, Value (bracketed id 123 44 125 ts) v := by
  cases ts with
  | nil => exact ⟨_, .objEmpty ws_nil⟩
  | cons t ts =>
      obtain ⟨ms, hms⟩ := exists_members h
      exact ⟨_, .obj hms⟩

/-! ## Strings written as they are -/

/-- If it is as long, nothing is escaped. -/
theorem Chars.is_raw {raw text : Bytes} (h : Chars raw text) (hlen : text.length = raw.length) :
    isRaw raw = true := by
  induction h with
  | nil => rfl
  | @plain b raw text hle hquote hslash _ ih =>
      have hrest := ih (by simpa using hlen)
      rw [is_raw_iff] at hrest ⊢
      exact List.forall_mem_cons.mpr ⟨⟨hle, hquote, hslash⟩, hrest⟩
  | short _ hchars _ =>
      have hrest := hchars.length_le
      simp only [List.length_cons] at hlen
      omega
  | @unicode _ _ _ _ u _ _ _ _ _ hchars _ =>
      have hcode := length_utf8_encode_le u
      have hrest := hchars.length_le
      simp only [List.length_cons, List.length_append] at hlen
      omega
  | @pair _ _ _ _ _ _ _ _ u v _ _ _ _ _ _ hchars _ =>
      have hcode := length_utf8_encode_le (surrogatePair u v)
      have hrest := hchars.length_le
      simp only [List.length_cons, List.length_append] at hlen
      omega

/-- A hexadecimal digit is no comma. -/
theorem hex_digits_ne_comma {a b c d : UInt8} {u : Nat} (h : hex4 a b c d = some u) :
    a ≠ 44 ∧ b ≠ 44 ∧ c ≠ 44 ∧ d ≠ 44 := by
  simp only [hex4, bind, Option.bind_eq_some_iff] at h
  obtain ⟨_, ha, _, hb, _, hc, _, hd, -⟩ := h
  refine ⟨?_, ?_, ?_, ?_⟩
  · rintro rfl
    cases ha
  · rintro rfl
    cases hb
  · rintro rfl
    cases hc
  · rintro rfl
    cases hd

/-- A comma is never part of an escape. -/
theorem Chars.count_comma_le {raw text : Bytes} (h : Chars raw text) :
    raw.count 44 ≤ text.count 44 := by
  induction h with
  | nil => exact Nat.le_refl _
  | plain _ _ _ _ ih =>
      rw [List.count_cons, List.count_cons]
      omega
  | @short e b _ _ hescape _ ih =>
      have he : e ≠ 44 := by
        rintro rfl
        cases hescape
      rw [List.count_cons_of_ne (by decide), List.count_cons_of_ne he]
      exact ih.trans (List.count_le_count_cons ..)
  | unicode hhex _ _ _ ih =>
      obtain ⟨ha, hb, hc, hd⟩ := hex_digits_ne_comma hhex
      rw [List.count_append]
      simp only [List.count_cons_of_ne, ha, hb, hc, hd, ne_eq, not_false_eq_true,
        show (92 : UInt8) ≠ 44 by decide, show (117 : UInt8) ≠ 44 by decide]
      omega
  | pair hhex _ hhex' _ _ ih =>
      obtain ⟨ha, hb, hc, hd⟩ := hex_digits_ne_comma hhex
      obtain ⟨ha', hb', hc', hd'⟩ := hex_digits_ne_comma hhex'
      rw [List.count_append]
      simp only [List.count_cons_of_ne, ha, hb, hc, hd, ha', hb', hc', hd', ne_eq,
        not_false_eq_true, show (92 : UInt8) ≠ 44 by decide, show (117 : UInt8) ≠ 44 by decide]
      omega

/-- What is written as a number is one. -/
theorem Number.is_number {t : Bytes} {v : Json} (h : Number t v) :
    (∃ z, v = .int z) ∨ ∃ m e, v = .real m e := by
  obtain @⟨negative, ds, _, _, frac, exp, -, -, -⟩ := h
  rcases frac with _ | frac
  · rcases exp with _ | exp
    · exact .inl ⟨_, rfl⟩
    · exact .inr ⟨_, _, rfl⟩
  · rcases exp with _ | exp
    · exact .inr ⟨_, _, rfl⟩
    · exact .inr ⟨_, _, rfl⟩

/-- A string is written between quotes. -/
theorem Value.str_inv {t text : Bytes} (h : Value t (.str text)) :
    ∃ raw, t = 34 :: (raw ++ [34]) ∧ Chars raw text := by
  generalize hv : Json.str text = v at h
  cases h with
  | number hnumber =>
      rcases hnumber.is_number with ⟨z, rfl⟩ | ⟨m, e, rfl⟩
      · cases hv
      · cases hv
  | string hchars _ =>
      cases hv
      exact ⟨_, rfl, hchars⟩
  | _ => cases hv

/-- An array with an item begins with a bracket. -/
theorem Value.arr_inv {t : Bytes} {v : Json} {vs : List Json} (h : Value t (.arr (v :: vs))) :
    ∃ s, t = 91 :: s ∧ Elements s (v :: vs) := by
  generalize hv : Json.arr (v :: vs) = x at h
  cases h with
  | number hnumber =>
      rcases hnumber.is_number with ⟨z, rfl⟩ | ⟨m, e, rfl⟩
      · cases hv
      · cases hv
  | arr helements =>
      cases hv
      exact ⟨_, rfl, helements⟩
  | _ => cases hv

/-- The first element of the rest of an array, with white space before it. -/
theorem Elements.first {t : Bytes} {v : Json} {vs : List Json} (h : Elements t (v :: vs)) :
    ∃ w tv s, t = w ++ (tv ++ s) ∧ Ws w ∧ Value tv v ∧
      (vs ≠ [] → ∃ w' s', s = w' ++ 44 :: s' ∧ Ws w' ∧ Elements s' vs) := by
  cases h with
  | last hw hvalue _ => exact ⟨_, _, _, rfl, hw, hvalue, fun hne => absurd rfl hne⟩
  | cons hw hvalue hw' hrest => exact ⟨_, _, _, rfl, hw, hvalue, fun _ => ⟨_, _, rfl, hw', hrest⟩⟩

/-- White space in front of a text that does not start with any. -/
theorem ws_append_cons {w s t : Bytes} {b c : UInt8} (hw : Ws w) (hc : isWs c = false)
    (h : w ++ b :: s = c :: t) : b = c ∧ s = t := by
  cases w with
  | nil => exact List.cons.inj h
  | cons a w =>
      obtain ⟨rfl, -⟩ := List.cons.inj h
      rw [hw a List.mem_cons_self] at hc
      cases hc

/-- A string ends at the first quotation mark that is not escaped. -/
theorem Chars.ends_at {raw text raw' text' s s' : Bytes} (h : Chars raw text)
    (h' : Chars raw' text') (heq : raw ++ 34 :: s = raw' ++ 34 :: s') : raw = raw' ∧ s = s' := by
  have hread := chars_append h (raw.length + raw'.length + 1) s (by omega)
  have hread' := chars_append h' (raw.length + raw'.length + 1) s' (by omega)
  rw [heq, hread'] at hread
  obtain rfl : s' = s := (Prod.mk.inj (Option.some.inj hread)).2
  exact ⟨List.append_cancel_right heq, rfl⟩

/-- Where the second string of an array is written. -/
theorem Text.second_string {name text s : Bytes} {rest : List Json} (hname : isPlain name = true)
    (h : Text (91 :: 34 :: (name ++ 34 :: 44 :: s)) (.arr (.str name :: .str text :: rest))) :
    ∃ w raw tail, Ws w ∧ Chars raw text ∧ s = w ++ 34 :: (raw ++ 34 :: tail) := by
  generalize hfull : 91 :: 34 :: (name ++ 34 :: 44 :: s) = full at h
  obtain ⟨hw, hvalue, -⟩ := h
  obtain ⟨inside, rfl, helements⟩ := hvalue.arr_inv
  obtain ⟨w₁, t₁, s₁, rfl, hw₁, hfirst, hmore⟩ := helements.first
  obtain ⟨raw₁, rfl, hchars₁⟩ := hfirst.str_inv
  obtain ⟨w₁', s₂, rfl, hw₁', hrest⟩ := hmore (List.cons_ne_nil _ _)
  obtain ⟨w₂, t₂, s₃, rfl, hw₂, hsecond, -⟩ := hrest.first
  obtain ⟨raw₂, rfl, hchars₂⟩ := hsecond.str_inv
  simp only [List.append_assoc, List.cons_append, List.nil_append] at hfull
  obtain ⟨-, hopen⟩ := ws_append_cons hw rfl hfull.symm
  obtain ⟨-, hquote⟩ := ws_append_cons hw₁ rfl hopen
  obtain ⟨-, hcomma⟩ := hchars₁.ends_at (chars_plain hname) hquote
  obtain ⟨-, hsep⟩ := ws_append_cons hw₁' rfl hcomma
  exact ⟨w₂, raw₂, _, hw₂, hchars₂, hsep.symm⟩

/-- Between quotation marks, a string that is read back has nothing that had to be escaped. -/
theorem is_raw_of_second {name text after : Bytes} {rest : List Json}
    (hname : isPlain name = true) (hafter : after = [93] ∨ ∃ s, after = 44 :: s)
    (h : Text (91 :: 34 :: (name ++ 34 :: 44 :: 32 :: 34 :: (text ++ 34 :: after)))
      (.arr (.str name :: .str text :: rest))) : isRaw text = true := by
  obtain ⟨w, raw, tail, hw, hchars, hs⟩ := h.second_string hname
  have hskip := congrArg skipWs hs
  rw [skip_ws_append hw (by simp [isWs])] at hskip
  have heq : raw ++ 34 :: tail = text ++ 34 :: after := (List.cons.inj hskip).2.symm
  have hlen := hchars.length_le
  rcases List.append_eq_append_iff.mp heq with ⟨more, htext, -⟩ | ⟨more, hraw, hmore⟩
  · rw [htext, List.length_append] at hlen
    have hnil : more = [] := List.length_eq_zero_iff.mp (by omega)
    rw [hnil, List.append_nil] at htext
    rw [htext] at hchars ⊢
    exact hchars.is_raw rfl
  · cases more with
    | nil =>
        rw [List.append_nil] at hraw
        rw [hraw] at hchars
        exact hchars.is_raw rfl
    | cons b more =>
        -- the quotation mark that was meant to end it is escaped, and what follows is part of it
        obtain ⟨-, hbehind⟩ := List.cons.inj hmore
        exfalso
        rcases hafter with rfl | ⟨s, rfl⟩
        · have hquote : (34 : UInt8) ∈ [93] := hbehind ▸ by simp
          simp at hquote
        · have hcount := hchars.count_comma_le
          cases more with
          | nil => cases hbehind
          | cons c more =>
              obtain ⟨rfl, -⟩ := List.cons.inj hbehind
              rw [hraw, List.count_append] at hcount
              have hcomma : 0 < (b :: 44 :: more).count 44 := List.count_pos_iff.mpr (by simp)
              omega

/-- Without quotation marks, a string with a comma behind it is not read back. -/
theorem not_second_of_bare {name text s : Bytes} {rest : List Json} (hname : isPlain name = true) :
    ¬ Text (91 :: 34 :: (name ++ 34 :: 44 :: 32 :: (text ++ 44 :: s)))
      (.arr (.str name :: .str text :: rest)) := by
  intro h
  obtain ⟨w, raw, tail, hw, hchars, hs⟩ := h.second_string hname
  have hlen := hchars.length_le
  have hcount := hchars.count_comma_le
  have hblank : w.count 44 = 0 := by
    refine List.count_eq_zero.mpr fun hmem => ?_
    exact absurd (hw 44 hmem) (by decide)
  have heq : (w ++ 34 :: raw ++ [34]) ++ tail = (32 :: text) ++ 44 :: s := by
    simpa using hs.symm
  rcases List.append_eq_append_iff.mp heq with ⟨more, htext, -⟩ | ⟨more, hraw, hmore⟩
  · -- the string would have to be longer than its own text
    have hlength := congrArg List.length htext
    simp only [List.length_append, List.length_cons, List.length_nil] at hlength
    omega
  · cases more with
    | nil =>
        have hlength := congrArg List.length hraw
        simp only [List.length_append, List.length_cons, List.length_nil] at hlength
        omega
    | cons b more =>
        -- it would have to contain the comma behind it
        obtain ⟨rfl, -⟩ := List.cons.inj hmore
        have hcommas := congrArg (List.count 44) hraw
        simp only [List.count_append, List.count_cons, List.count_nil, hblank] at hcommas
        simp at hcommas
        omega

/-- An array whose second element is such a string. -/
theorem text_of_second {name text after : Bytes} {rest : List Json} (hname : isPlain name = true)
    (htext : isRaw text = true) (hutf8 : Utf8 text)
    (hafter : after = [93] ∧ rest = [] ∨ ∃ s, after = 44 :: s ∧ Elements s rest) :
    Text (91 :: 34 :: (name ++ 34 :: 44 :: 32 :: 34 :: (text ++ 34 :: after)))
      (.arr (.str name :: .str text :: rest)) := by
  have hspace : Ws [32] := by simp [Ws, isWs]
  have hsecond := Value.string (chars_raw htext) hutf8
  have helements : Elements (32 :: 34 :: (text ++ 34 :: after)) (.str text :: rest) := by
    rcases hafter with ⟨rfl, rfl⟩ | ⟨s, rfl, hs⟩
    · simpa using Elements.last hspace hsecond ws_nil
    · simpa using Elements.cons hspace hsecond ws_nil hs
  have hvalue := Value.arr (Elements.cons ws_nil (value_plain hname) ws_nil helements)
  simpa using Text.mk ws_nil hvalue ws_nil

end Wire.Json
