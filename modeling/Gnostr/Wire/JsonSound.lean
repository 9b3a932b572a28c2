import Gnostr.Wire.JsonLib

/-!
# What the decoder reads is JSON

The converse of `Json.decode_of_text`: a text the decoder reads is derived by the grammar, with
the value it returns. Each reader takes a text of its own rule off the front, and so the decoder
decides the grammar (`Json.decode_iff`).

With it goes a further law of a library. `JsonLib.Conforms` says which texts are parsed: every
text of the grammar whose numbers are integers of 64 bits, and of the texts without a NUL none with
a control character that is no white space.
-/

namespace Wire

namespace Json

/-! ## White space, words and strings -/

/-- What is skipped is blank space. -/
theorem ws_take_skip_ws (s : Bytes) : ∃ w, Ws w ∧ s = w ++ skipWs s :=
  ⟨s.takeWhile isWs, fun _ hb => List.mem_takeWhile_imp hb, List.takeWhile_append_dropWhile.symm⟩

/-- A word that is read was there. -/
theorem word_sound {w s rest : Bytes} (h : word w s = some rest) : s = w ++ rest := by
  induction w generalizing s with
  | nil => exact Option.some.inj h
  | cons b w ih =>
      cases s with
      | nil => cases h
      | cons c s =>
          rw [word] at h
          split_ifs at h with hbc
          rw [hbc, ih h, List.cons_append]

/-- What an escape denotes may stand in front of any text. -/
theorem unescape_sound {s x rest : Bytes} (h : unescape s = some (x, rest)) :
    ∃ raw, s = raw ++ rest ∧
      ∀ {raw' text : Bytes}, Chars raw' text → Chars (92 :: (raw ++ raw')) (x ++ text) := by
  cases s with
  | nil => cases h
  | cons e s =>
      simp only [unescape] at h
      split at h
      · next b hescape =>
        obtain ⟨rfl, rfl⟩ := Prod.mk.inj (Option.some.inj h)
        exact ⟨[e], rfl, fun hchars => .short hescape hchars⟩
      · split_ifs at h with hu
        subst hu
        split at h
        · next a b c d s =>
          obtain ⟨u, hhex, h⟩ := Option.bind_eq_some_iff.mp h
          split_ifs at h with hhigh hlow
          · split at h
            · next a' b' c' d' s _ =>
              obtain ⟨v, hhex', h⟩ := Option.bind_eq_some_iff.mp h
              split_ifs at h with hlow
              obtain ⟨rfl, rfl⟩ := Prod.mk.inj (Option.some.inj h)
              exact ⟨[117, a, b, c, d, 92, 117, a', b', c', d'], rfl,
                fun hchars => .pair hhex hhigh hhex' hlow hchars⟩
            · cases h
          · obtain ⟨rfl, rfl⟩ := Prod.mk.inj (Option.some.inj h)
            exact ⟨[117, a, b, c, d], rfl, fun hchars => .unicode hhex (by simpa using hhigh)
              (by simpa using hlow) hchars⟩
        · cases h

/-- The characters that are read were there, up to a quote. -/
theorem chars_sound {fuel : Nat} {s text rest : Bytes} (h : chars fuel s = some (text, rest)) :
    ∃ raw, s = raw ++ 34 :: rest ∧ Chars raw text := by
  induction fuel generalizing s text with
  | zero => cases h
  | succ fuel ih =>
      cases s with
      | nil => cases h
      | cons b s =>
          rw [chars] at h
          split_ifs at h with hquote hslash hlow
          · obtain ⟨rfl, rfl⟩ := Prod.mk.inj (Option.some.inj h)
            exact ⟨[], by rw [hquote]; rfl, .nil⟩
          · obtain ⟨⟨x, s'⟩, hescape, h⟩ := Option.bind_eq_some_iff.mp h
            obtain ⟨⟨text', rest'⟩, hchars, h⟩ := Option.bind_eq_some_iff.mp h
            obtain ⟨rfl, rfl⟩ := Prod.mk.inj (Option.some.inj h)
            obtain ⟨raw, rfl, hput⟩ := unescape_sound hescape
            obtain ⟨raw', rfl, hraw⟩ := ih hchars
            exact ⟨92 :: (raw ++ raw'), by simp [hslash], hput hraw⟩
          · obtain ⟨⟨text', rest'⟩, hchars, h⟩ := Option.bind_eq_some_iff.mp h
            obtain ⟨rfl, rfl⟩ := Prod.mk.inj (Option.some.inj h)
            obtain ⟨raw, rfl, hraw⟩ := ih hchars
            exact ⟨b :: raw, rfl, .plain (UInt8.not_lt.mp hlow) hquote hslash hraw⟩

/-- So was the string. -/
theorem string_sound {s text rest : Bytes} (h : string s = some (text, rest)) :
    ∃ raw, s = raw ++ 34 :: rest ∧ Chars raw text ∧ Utf8 text := by
  obtain ⟨⟨text', rest'⟩, hchars, h⟩ := Option.bind_eq_some_iff.mp h
  simp only at h
  split_ifs at h with hutf8
  obtain ⟨rfl, rfl⟩ := Prod.mk.inj (Option.some.inj h)
  obtain ⟨raw, hs, hraw⟩ := chars_sound hchars
  exact ⟨raw, hs, hraw, hutf8⟩

/-! ## Numbers -/

/-- And the digits. -/
theorem digits_sound {s ds rest : Bytes} (h : digits s = some (ds, rest)) :
    s = ds ++ rest ∧ Digits ds := by
  simp only [digits] at h
  split_ifs at h with hnil
  obtain ⟨rfl, rfl⟩ := Prod.mk.inj (Option.some.inj h)
  exact ⟨List.takeWhile_append_dropWhile.symm, hnil, fun _ hb => List.mem_takeWhile_imp hb⟩

/-- A fraction that is read was there. -/
theorem fraction_sound {s rest : Bytes} {frac : Option Bytes}
    (h : fraction s = some (frac, rest)) : ∃ ft, s = ft ++ rest ∧ Frac ft frac := by
  cases s with
  | nil =>
      obtain ⟨rfl, rfl⟩ := Prod.mk.inj (Option.some.inj h)
      exact ⟨[], rfl, .none⟩
  | cons b s =>
      rw [fraction] at h
      split_ifs at h with hdot
      · obtain ⟨⟨ds, rest'⟩, hdigits, h⟩ := Option.bind_eq_some_iff.mp h
        obtain ⟨rfl, rfl⟩ := Prod.mk.inj (Option.some.inj h)
        obtain ⟨rfl, hds⟩ := digits_sound hdigits
        exact ⟨46 :: ds, by rw [hdot]; rfl, .some hds⟩
      · obtain ⟨rfl, rfl⟩ := Prod.mk.inj (Option.some.inj h)
        exact ⟨[], rfl, .none⟩

/-- So was the sign of an exponent. -/
theorem exp_sign_sound (s : Bytes) :
    ∃ sign, s = sign ++ (expSign s).2 ∧ ExpSign sign (expSign s).1 := by
  cases s with
  | nil => exact ⟨[], rfl, .none⟩
  | cons b s =>
      rw [expSign]
      split_ifs with hminus hplus
      · exact ⟨[45], by rw [hminus]; rfl, .minus⟩
      · exact ⟨[43], by rw [hplus]; rfl, .plus⟩
      · exact ⟨[], rfl, .none⟩

/-- And the exponent. -/
theorem exponent_sound {s rest : Bytes} {exp : Option (Bool × Bytes)}
    (h : exponent s = some (exp, rest)) : ∃ et, s = et ++ rest ∧ Exp et exp := by
  cases s with
  | nil =>
      obtain ⟨rfl, rfl⟩ := Prod.mk.inj (Option.some.inj h)
      exact ⟨[], rfl, .none⟩
  | cons b s =>
      rw [exponent] at h
      split_ifs at h with he
      · obtain ⟨sign, hs, hsign⟩ := exp_sign_sound s
        generalize expSign s = read at h hs hsign
        obtain ⟨⟨ds, rest'⟩, hdigits, h⟩ := Option.bind_eq_some_iff.mp h
        obtain ⟨rfl, rfl⟩ := Prod.mk.inj (Option.some.inj h)
        obtain ⟨hrest, hds⟩ := digits_sound hdigits
        refine ⟨b :: (sign ++ ds), ?_, .some he hsign hds⟩
        rw [hs, hrest, List.cons_append, List.append_assoc]
      · obtain ⟨rfl, rfl⟩ := Prod.mk.inj (Option.some.inj h)
        exact ⟨[], rfl, .none⟩

/-- A number behind its sign was there. -/
theorem unsigned_number_sound {negative : Bool} {s rest : Bytes} {v : Json}
    (h : unsignedNumber negative s = some (v, rest)) :
    ∃ t, s = t ++ rest ∧ Number ((if negative then [45] else []) ++ t) v := by
  obtain ⟨⟨ds, s₁⟩, hdigits, h⟩ := Option.bind_eq_some_iff.mp h
  simp only at h
  split_ifs at h with hzero
  obtain ⟨⟨frac, s₂⟩, hfrac, h⟩ := Option.bind_eq_some_iff.mp h
  obtain ⟨⟨exp, s₃⟩, hexp, h⟩ := Option.bind_eq_some_iff.mp h
  obtain ⟨rfl, rfl⟩ := Prod.mk.inj (Option.some.inj h)
  obtain ⟨rfl, hds⟩ := digits_sound hdigits
  obtain ⟨ft, rfl, hft⟩ := fraction_sound hfrac
  obtain ⟨et, rfl, het⟩ := exponent_sound hexp
  have hint : IntDigits ds := ⟨hds, by tauto⟩
  exact ⟨ds ++ (ft ++ et), by simp only [List.append_assoc], .mk negative hint hft het⟩

/-- So was the number. -/
theorem number_sound {s rest : Bytes} {v : Json} (h : number s = some (v, rest)) :
    ∃ t, s = t ++ rest ∧ Number t v := by
  cases s with
  | nil => cases h
  | cons b s =>
      rw [number] at h
      split_ifs at h with hminus
      · obtain ⟨t, rfl, ht⟩ := unsigned_number_sound h
        exact ⟨45 :: t, by rw [hminus]; rfl, ht⟩
      · exact unsigned_number_sound h

/-! ## Values -/

/-- What a reader of a rule takes off the front of a text. -/
def Reads {α : Type} (rule : Bytes → α → Prop) (read : Bytes → Option (α × Bytes)) : Prop :=
  ∀ {s : Bytes} {v : α} {rest : Bytes}, read s = some (v, rest) → ∃ t, s = t ++ rest ∧ rule t v

/-- Blank space behind blank space. -/
theorem Ws.append {w w' : Bytes} (h : Ws w) (h' : Ws w') : Ws (w ++ w') := fun b hb =>
  (List.mem_append.mp hb).elim (h b) (h' b)

/-- White space in front of an array's elements belongs to the first. -/
theorem Elements.ws {w t : Bytes} {vs : List Json} (h : Elements t vs) (hw : Ws w) :
    Elements (w ++ t) vs := by
  cases h with
  | last hw₀ hv hw₁ =>
      rw [← List.append_assoc]
      exact .last (hw.append hw₀) hv hw₁
  | cons hw₀ hv hw₁ hrest =>
      rw [← List.append_assoc]
      exact .cons (hw.append hw₀) hv hw₁ hrest

/-- White space in front of an object's members belongs to the first. -/
theorem Members.ws {w t : Bytes} {ms : List (Bytes × Json)} (h : Members t ms) (hw : Ws w) :
    Members (w ++ t) ms := by
  cases h with
  | last hw₀ hkey hutf8 hw₁ hw₂ hv hw₃ =>
      rw [← List.append_assoc]
      exact .last (hw.append hw₀) hkey hutf8 hw₁ hw₂ hv hw₃
  | cons hw₀ hkey hutf8 hw₁ hw₂ hv hw₃ hrest =>
      rw [← List.append_assoc]
      exact .cons (hw.append hw₀) hkey hutf8 hw₁ hw₂ hv hw₃ hrest

/-- Values are read as their grammar says when what is in them is. -/
theorem value_reads {fuel : Nat} (helements : Reads Elements (elements fuel))
    (hmembers : Reads Members (members fuel)) : Reads Value (value (fuel + 1)) := by
  intro s v rest h
  cases s with
  | nil => cases h
  | cons b s =>
      rw [value] at h
      split_ifs at h with h₁ h₂ h₃ h₄ h₅ h₆
      · obtain ⟨⟨text, s'⟩, hstring, h⟩ := Option.bind_eq_some_iff.mp h
        obtain ⟨rfl, rfl⟩ := Prod.mk.inj (Option.some.inj h)
        obtain ⟨raw, rfl, hraw, hutf8⟩ := string_sound hstring
        exact ⟨34 :: (raw ++ [34]), by simp [h₁], .string hraw hutf8⟩
      · obtain ⟨w, hw, hs⟩ := ws_take_skip_ws s
        split at h
        · cases h
        · next c s' hskip =>
          rw [hskip] at hs
          split_ifs at h with hclose
          · obtain ⟨rfl, rfl⟩ := Prod.mk.inj (Option.some.inj h)
            exact ⟨91 :: (w ++ [93]), by simp [h₂, hs, hclose], .arrEmpty hw⟩
          · obtain ⟨⟨vs, s''⟩, hread, h⟩ := Option.bind_eq_some_iff.mp h
            obtain ⟨rfl, rfl⟩ := Prod.mk.inj (Option.some.inj h)
            obtain ⟨t, ht, hrule⟩ := helements hread
            exact ⟨91 :: (w ++ t), by simp [h₂, hs, ht], .arr (hrule.ws hw)⟩
      · obtain ⟨w, hw, hs⟩ := ws_take_skip_ws s
        split at h
        · cases h
        · next c s' hskip =>
          rw [hskip] at hs
          split_ifs at h with hclose
          · obtain ⟨rfl, rfl⟩ := Prod.mk.inj (Option.some.inj h)
            exact ⟨123 :: (w ++ [125]), by simp [h₃, hs, hclose], .objEmpty hw⟩
          · obtain ⟨⟨ms, s''⟩, hread, h⟩ := Option.bind_eq_some_iff.mp h
            obtain ⟨rfl, rfl⟩ := Prod.mk.inj (Option.some.inj h)
            obtain ⟨t, ht, hrule⟩ := hmembers hread
            exact ⟨123 :: (w ++ t), by simp [h₃, hs, ht], .obj (hrule.ws hw)⟩
      · obtain ⟨s', hword, h⟩ := Option.bind_eq_some_iff.mp h
        obtain ⟨rfl, rfl⟩ := Prod.mk.inj (Option.some.inj h)
        exact ⟨ascii "null", by rw [h₄, word_sound hword]; rfl, .litNull⟩
      · obtain ⟨s', hword, h⟩ := Option.bind_eq_some_iff.mp h
        obtain ⟨rfl, rfl⟩ := Prod.mk.inj (Option.some.inj h)
        exact ⟨ascii "true", by rw [h₅, word_sound hword]; rfl, .litTrue⟩
      · obtain ⟨s', hword, h⟩ := Option.bind_eq_some_iff.mp h
        obtain ⟨rfl, rfl⟩ := Prod.mk.inj (Option.some.inj h)
        exact ⟨ascii "false", by rw [h₆, word_sound hword]; rfl, .litFalse⟩
      · obtain ⟨t, ht, hnumber⟩ := number_sound h
        exact ⟨t, ht, .number hnumber⟩

/-- So are items. -/
theorem elements_reads {fuel : Nat} (hvalue : Reads Value (value fuel))
    (helements : Reads Elements (elements fuel)) : Reads Elements (elements (fuel + 1)) := by
  intro s vs rest h
  obtain ⟨⟨v, s₁⟩, hread, h⟩ := Option.bind_eq_some_iff.mp h
  obtain ⟨t, ht, hv⟩ := hvalue hread
  obtain ⟨w, hw, hs⟩ := ws_take_skip_ws s
  obtain ⟨w', hw', hs₁⟩ := ws_take_skip_ws s₁
  simp only at h
  split at h
  · cases h
  · next c s₂ hskip =>
    rw [hskip] at hs₁
    rw [ht, hs₁] at hs
    split_ifs at h with hclose hcomma
    · obtain ⟨rfl, rfl⟩ := Prod.mk.inj (Option.some.inj h)
      exact ⟨_, by simp [hs, hclose], .last hw hv hw'⟩
    · obtain ⟨⟨vs', s₃⟩, hrest, h⟩ := Option.bind_eq_some_iff.mp h
      obtain ⟨rfl, rfl⟩ := Prod.mk.inj (Option.some.inj h)
      obtain ⟨t', ht', hvs⟩ := helements hrest
      exact ⟨_, by simp [hs, hcomma, ht'], .cons hw hv hw' hvs⟩

/-- And members. -/
theorem members_reads {fuel : Nat} (hvalue : Reads Value (value fuel))
    (hmembers : Reads Members (members fuel)) : Reads Members (members (fuel + 1)) := by
  intro s ms rest h
  obtain ⟨s₁, hquote, h⟩ := Option.bind_eq_some_iff.mp h
  obtain ⟨⟨key, s₂⟩, hstring, h⟩ := Option.bind_eq_some_iff.mp h
  obtain ⟨s₃, hcolon, h⟩ := Option.bind_eq_some_iff.mp h
  obtain ⟨⟨v, s₄⟩, hread, h⟩ := Option.bind_eq_some_iff.mp h
  obtain ⟨raw, hraw, hkey, hutf8⟩ := string_sound hstring
  obtain ⟨t, ht, hv⟩ := hvalue hread
  obtain ⟨w, hw, hs⟩ := ws_take_skip_ws s
  obtain ⟨w₁, hw₁, hs₂⟩ := ws_take_skip_ws s₂
  obtain ⟨w₂, hw₂, hs₃⟩ := ws_take_skip_ws s₃
  obtain ⟨w₃, hw₃, hs₄⟩ := ws_take_skip_ws s₄
  simp only at h
  split at h
  · cases h
  · next c s₅ hskip =>
    rw [hskip] at hs₄
    rw [ht, hs₄] at hs₃
    rw [word_sound hcolon, hs₃] at hs₂
    rw [word_sound hquote, hraw, hs₂] at hs
    split_ifs at h with hclose hcomma
    · obtain ⟨rfl, rfl⟩ := Prod.mk.inj (Option.some.inj h)
      exact ⟨_, by simp [hs, hclose], .last hw hkey hutf8 hw₁ hw₂ hv hw₃⟩
    · obtain ⟨⟨ms', s₆⟩, hrest, h⟩ := Option.bind_eq_some_iff.mp h
      obtain ⟨rfl, rfl⟩ := Prod.mk.inj (Option.some.inj h)
      obtain ⟨t', ht', hms⟩ := hmembers hrest
      exact ⟨_, by simp [hs, hcomma, ht'], .cons hw hkey hutf8 hw₁ hw₂ hv hw₃ hms⟩

/-- With any fuel the three readers read what their rules derive. -/
theorem readers_sound (fuel : Nat) :
    Reads Value (value fuel) ∧ Reads Elements (elements fuel) ∧ Reads Members (members fuel) := by
  induction fuel with
  | zero =>
      refine ⟨?_, ?_, ?_⟩ <;>
        intro s v rest h <;>
        cases h
  | succ fuel ih =>
      obtain ⟨hvalue, helements, hmembers⟩ := ih
      exact ⟨value_reads helements hmembers, elements_reads hvalue helements,
        members_reads hvalue hmembers⟩

/-- A text that is decoded is JSON. -/
theorem text_of_decode {t : Bytes} {v : Json} (h : decode t = some v) : Text t v := by
  obtain ⟨⟨v', s⟩, hread, h⟩ := Option.bind_eq_some_iff.mp h
  simp only at h
  split_ifs at h with hend
  obtain rfl := Option.some.inj h
  obtain ⟨w, hw, ht⟩ := ws_take_skip_ws t
  obtain ⟨u, hu, hv⟩ := (readers_sound _).1 hread
  obtain ⟨w', hw', hs⟩ := ws_take_skip_ws s
  rw [hend, List.append_nil] at hs
  rw [ht, hu, hs]
  exact .mk hw hv hw'

/-- The decoder decides the grammar. -/
theorem decode_iff {t : Bytes} {v : Json} : decode t = some v ↔ Text t v :=
  ⟨text_of_decode, decode_of_text⟩

end Json

/-! ## Which texts are parsed -/

/-- What a program relies on that reads what others wrote: a text of the grammar is parsed, unless
a number in it is no integer of 64 bits, and a text with a control character is not. Nothing is
said of texts with a NUL, which a parser may take for the end of its input. -/
structure JsonLib.Conforms (lib : JsonLib) : Prop where
  parse_text : ∀ {t : Bytes} {v : Json}, Json.Text t v → v.normalise.isStorable = true →
    v.normalise.isUtf8 = true → lib.parse t = some v.normalise
  parse_legal : ∀ {t : Bytes} {v : Json}, 0 ∉ t → lib.parse t = some v → Json.AllLegal t

/-- The reference reads exactly the texts of the grammar. -/
theorem JsonLib.reference_conforms : JsonLib.reference.Conforms where
  parse_text htext _ hutf8 := by
    simp [reference, Json.decode_iff.mpr htext, hutf8]
  parse_legal {t v} _ h := by
    simp only [reference, Option.filter_eq_some_iff, Option.map_eq_some_iff] at h
    obtain ⟨⟨v', hdecode, -⟩, -⟩ := h
    exact (Json.decode_iff.mp hdecode).all_legal

end Wire
