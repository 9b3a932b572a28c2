import Gnostr.Event.Commitment

/-!
# The text determines the event

The serialisers of `gnostr.c` are uniquely decodable: quotation marks and escapes delimit the
strings, and brackets and commas the lists of them. Two events that are committed to one text have
the same key, the same kind and strings that agree as far as they are read. What is read of a string
is all of it unless its length does not fit an `int` (`event_commitment_unambiguous_iff`).
-/

namespace Gnostr

open Wire

/-- A byte is written as itself or as a two-byte escape that stands for it. -/
theorem escaped_cases (c : UInt8) :
    (escaped c = [c] ∧ c ≠ 34 ∧ c ≠ 92) ∨
      ∃ e, escaped c = [92, e] ∧ Json.shortEscape e = some c := by
  unfold escaped
  split_ifs with h₁ h₂ h₃ h₄ h₅ h₆ h₇
  · exact .inr ⟨34, rfl, by rw [h₁]; rfl⟩
  · exact .inr ⟨92, rfl, by rw [h₂]; rfl⟩
  · exact .inr ⟨98, rfl, h₃ ▸ rfl⟩
  · exact .inr ⟨102, rfl, h₄ ▸ rfl⟩
  · exact .inr ⟨110, rfl, h₅ ▸ rfl⟩
  · exact .inr ⟨114, rfl, h₆ ▸ rfl⟩
  · exact .inr ⟨116, rfl, h₇ ▸ rfl⟩
  · exact .inl ⟨rfl, h₁, h₂⟩

/-- An escape says where it ends. -/
theorem delimited_escaped : Delimited escaped := by
  intro c d r s h
  rcases escaped_cases c with ⟨hc, -, hcslash⟩ | ⟨e, hc, he⟩
  · rcases escaped_cases d with ⟨hd, -, -⟩ | ⟨f, hd, -⟩
    · rw [hc, hd] at h
      exact List.cons.inj h
    · rw [hc, hd] at h
      exact absurd (List.cons.inj h).1 hcslash
  · rcases escaped_cases d with ⟨hd, -, hdslash⟩ | ⟨f, hd, hf⟩
    · rw [hc, hd] at h
      exact absurd (List.cons.inj h).1.symm hdslash
    · rw [hc, hd] at h
      obtain ⟨hef, hrs⟩ := List.cons.inj (List.cons.inj h).2
      rw [hef, hf] at he
      exact ⟨(Option.some.inj he).symm, hrs⟩

/-- A quote is never written as itself. -/
theorem escaped_avoids_quote : Avoids escaped 34 := by
  intro c r s h
  rcases escaped_cases c with ⟨hc, hquote, -⟩ | ⟨e, hc, -⟩
  · rw [hc] at h
    exact hquote (List.cons.inj h).1
  · rw [hc] at h
    exact absurd (List.cons.inj h).1 (by decide)

/-- A quoted string says where it ends. -/
theorem delimited_quoted : Delimited quoted := fun _ _ _ _ h =>
  delimited_flatMap delimited_escaped escaped_avoids_quote (List.cons.inj h).2

/-- Lists of lists of strings, the tags of an event. -/
theorem delimited_tag_lists : Delimited (bracketed (bracketed quoted 91 44 93) 91 44 93) :=
  delimited_bracketed
    (delimited_bracketed delimited_quoted (avoids_of_head (fun _ => rfl) (by decide)) (by decide))
    (avoids_of_head (fun _ => rfl) (by decide)) (by decide)

/-- The strings of the tags as they are read. -/
def NostrEvent.tagsBy (read : CStr → Bytes) (ev : NostrEvent) : List (List Bytes) :=
  ev.tags.map fun tag => tag.strs.map read

/-- The text of tags is that of lists of strings. -/
theorem bracketed_tags_by (read : CStr → Bytes) (tags : List NostrTag) :
    bracketed (tagTextBy read) 91 44 93 tags =
      bracketed (bracketed quoted 91 44 93) 91 44 93 (tags.map fun tag => tag.strs.map read) := by
  simp only [bracketed_map]
  rfl

/-- So do the tags. -/
theorem delimited_tags : Delimited (bracketed tagText 91 44 93) := by
  intro s t r u h
  rw [tagText, bracketed_tags_by, bracketed_tags_by] at h
  obtain ⟨hst, hru⟩ := delimited_tag_lists h
  have hstrs : Function.Injective fun tag : NostrTag => tag.strs.map CStr.bytes := by
    rintro ⟨a⟩ ⟨b⟩ hab
    exact congrArg NostrTag.mk
      (List.map_injective_iff.mpr (fun _ _ => CStr.ext_bytes) hab)
  exact ⟨List.map_injective_iff.mpr hstrs hst, hru⟩

/-- A number has no comma. -/
theorem comma_not_mem_decimal (n : Nat) : 44 ∉ decimal n := fun h =>
  absurd (is_digit_of_mem_decimal h) (by decide)

/-- Nor has a signed one. -/
theorem comma_not_mem_signed_decimal (z : Int) : 44 ∉ signedDecimal z := fun h => by
  rcases mem_signed_decimal h with h | h <;> exact absurd h (by decide)

/-- Nothing is cut off a time of at most 15 digits. -/
theorem time_text_eq_decimal_iff (t : UInt64) :
    timeText t = decimal t.toNat ↔ t.toNat < 10 ^ 15 := by
  show (decimal t.toNat).take 15 = decimal t.toNat ↔ _
  rw [List.take_eq_self_iff, length_decimal_le_iff (by omega)]

/-- Nor has a time. -/
theorem comma_not_mem_time_text (t : UInt64) : 44 ∉ timeText t := fun h =>
  comma_not_mem_decimal _ (List.mem_of_mem_take h)

/-- A commitment can be taken apart: whatever the texts of its parts are, as long as the two
numbers hold no comma, equal commitments have equal keys, equal number texts, and equal
remainders. -/
theorem commitment_inj {pk pk' : Block 32}
    {time time' kind kind' tags tags' content content' : Bytes}
    (htime : 44 ∉ time) (htime' : 44 ∉ time') (hkind : 44 ∉ kind) (hkind' : 44 ∉ kind')
    (h : commitment (hexText pk.1) time kind tags content =
      commitment (hexText pk'.1) time' kind' tags' content') :
    pk = pk' ∧ time = time' ∧ kind = kind' ∧
      tags ++ 44 :: (content ++ [93]) = tags' ++ 44 :: (content' ++ [93]) := by
  have hsplit := List.append_cancel_left h
  obtain ⟨hpk, hrest⟩ := delimited_hex_text 32 hsplit
  obtain ⟨htimes, hrest⟩ := append_cons_inj htime htime' (List.append_cancel_left hrest)
  obtain ⟨hkinds, hrest⟩ := append_cons_inj hkind hkind' hrest
  exact ⟨hpk, htimes, hkinds, hrest⟩

/-- Two events that are committed to one text have the same key and kind, and their strings agree
as far as they are read. -/
theorem committed_agree {e₁ e₂ : NostrEvent} {buf₁ buf₂ : Mem} {len₁ len₂ : Nat} {t : Bytes}
    (htags₁ : e₁.explicitTags = none) (htags₂ : e₂.explicitTags = none)
    (h₁ : committed e₁ buf₁ len₁ = some t) (h₂ : committed e₂ buf₂ len₂ = some t) :
    e₁.pubkey = e₂.pubkey ∧ e₁.kind = e₂.kind ∧
      e₁.tagsBy CStr.counted = e₂.tagsBy CStr.counted ∧
      e₁.content.counted = e₂.content.counted := by
  obtain ⟨-, -, rfl⟩ := (committed_iff e₁ buf₁ len₁ t).mp h₁
  obtain ⟨-, -, heq⟩ := (committed_iff e₂ buf₂ len₂ _).mp h₂
  obtain ⟨hpk, -, hkind, hrest⟩ := commitment_inj (comma_not_mem_time_text _)
    (comma_not_mem_time_text _) (comma_not_mem_signed_decimal _)
    (comma_not_mem_signed_decimal _) heq
  have hkinds : e₁.kind = e₂.kind := Int32.toInt_inj.mp (signed_decimal_injective hkind)
  simp only [tagsTextBy, htags₁, htags₂, bracketed_tags_by] at hrest
  obtain ⟨htags, hrest⟩ := delimited_tag_lists hrest
  obtain ⟨hcontent, -⟩ := delimited_quoted (List.cons.inj hrest).2
  exact ⟨hpk, hkinds, htags, hcontent⟩

/-- Two maps that determine an item together determine a list. -/
theorem eq_of_maps_eq {α β γ : Type} {f : α → β} {g : α → γ}
    (hinj : ∀ x y, f x = f y → g x = g y → x = y) {xs ys : List α} (hf : xs.map f = ys.map f)
    (hg : xs.map g = ys.map g) : xs = ys := by
  induction xs generalizing ys with
  | nil => exact (List.map_eq_nil_iff.mp hf.symm).symm
  | cons x xs ih =>
      cases ys with
      | nil => cases hf
      | cons y ys =>
          obtain ⟨hfx, hfrest⟩ := List.cons.inj hf
          obtain ⟨hgx, hgrest⟩ := List.cons.inj hg
          rw [hinj x y hfx hgx, ih hfrest hgrest]

/-- A string is what is read of it and what is left out. -/
theorem eq_of_counted {s t : CStr} (hcounted : s.counted = t.counted)
    (huncounted : s.uncounted = t.uncounted) : s = t := by
  refine CStr.ext_bytes ?_
  rw [← s.counted_append_uncounted, hcounted, huncounted, t.counted_append_uncounted]

/-- What the serialisers leave out of the strings of an event. -/
def NostrEvent.leftOut (ev : NostrEvent) : Bytes × List (List Bytes) :=
  (ev.content.uncounted, ev.tagsBy CStr.uncounted)

/-- The fields the text of an event is to determine. -/
structure Agree (e₁ e₂ : NostrEvent) : Prop where
  pubkey : e₁.pubkey = e₂.pubkey
  kind : e₁.kind = e₂.kind
  tags : e₁.tags = e₂.tags
  content : e₁.content = e₂.content

/-- Strings that are read whole. -/
theorem tags_by_short {ev : NostrEvent} (htags : ev.explicitTags = none) (h : ev.Short) :
    ev.tagsBy CStr.counted = ev.tagsBy CStr.bytes := by
  refine List.map_congr_left fun tag htag => List.map_congr_left fun s hs => ?_
  refine CStr.counted_eq_iff.mpr (h s (List.mem_cons_of_mem _ ?_))
  rw [NostrEvent.tagStrings, htags]
  exact List.mem_flatMap.mpr ⟨tag, htag, hs⟩

/-- Two events that are committed to one text agree when all their strings fit an `int`, and in any
case exactly when they agree in what is left out of their strings. -/
theorem event_commitment_unambiguous_iff (e₁ e₂ : NostrEvent) (buf₁ buf₂ : Mem) (len₁ len₂ : Nat)
    (t : Bytes) (htags₁ : e₁.explicitTags = none) (htags₂ : e₂.explicitTags = none)
    (h₁ : committed e₁ buf₁ len₁ = some t) (h₂ : committed e₂ buf₂ len₂ = some t) :
    (e₁.Short → e₂.Short → Agree e₁ e₂) ∧ (Agree e₁ e₂ ↔ e₁.leftOut = e₂.leftOut) := by
  obtain ⟨hpk, hkind, htags, hcontent⟩ := committed_agree htags₁ htags₂ h₁ h₂
  have hbytes : ∀ s t : CStr, s.bytes = t.bytes → s = t := fun _ _ => CStr.ext_bytes
  have htag : ∀ read : CStr → Bytes, ∀ a b : NostrTag, a.strs.map read = b.strs.map read →
      (∀ s t : CStr, read s = read t → s = t) → a = b := by
    rintro read ⟨a⟩ ⟨b⟩ hab hread
    exact congrArg NostrTag.mk (List.map_injective_iff.mpr hread hab)
  refine ⟨fun hshort₁ hshort₂ => ⟨hpk, hkind, ?_, ?_⟩, fun h => ?_, fun h => ?_⟩
  · rw [tags_by_short htags₁ hshort₁, tags_by_short htags₂ hshort₂] at htags
    exact List.map_injective_iff.mpr (fun a b hab => htag CStr.bytes a b hab hbytes) htags
  · rw [CStr.counted_eq_iff.mpr (hshort₁ _ List.mem_cons_self),
      CStr.counted_eq_iff.mpr (hshort₂ _ List.mem_cons_self)] at hcontent
    exact CStr.ext_bytes hcontent
  · rw [NostrEvent.leftOut, NostrEvent.leftOut, NostrEvent.tagsBy, NostrEvent.tagsBy, h.tags,
      h.content]
  · obtain ⟨hrest, hrests⟩ := Prod.mk.inj h
    refine ⟨hpk, hkind, eq_of_maps_eq ?_ htags hrests, eq_of_counted hcontent hrest⟩
    rintro ⟨a⟩ ⟨b⟩ hab hab'
    exact congrArg NostrTag.mk (eq_of_maps_eq (fun _ _ => eq_of_counted) hab hab')

/-- Two notes whose times agree in their first 15 digits are committed to one text, and the fields
it is to determine agree. -/
theorem event_commitment_unambiguous_iff_long_times :
    let e₁ := sampleNote 1000000000000000 (ascii "say \"hi\"")
    let e₂ := sampleNote 1000000000000001 (ascii "say \"hi\"")
    ∃ t, committed e₁ (fun _ => 0) 4096 = some t ∧ committed e₂ (fun _ => 0) 4096 = some t ∧
      Agree e₁ e₂ := by
  have h₁ : committed (sampleNote 1000000000000000 (ascii "say \"hi\"")) (fun _ => 0) 4096 =
      some (commitmentText (sampleNote 1000000000000000 (ascii "say \"hi\""))) :=
    (committed_iff _ _ _ _).mpr ⟨by decide +kernel, by decide +kernel, rfl⟩
  have h₂ : committed (sampleNote 1000000000000001 (ascii "say \"hi\"")) (fun _ => 0) 4096 =
      some (commitmentText (sampleNote 1000000000000000 (ascii "say \"hi\""))) :=
    (committed_iff _ _ _ _).mpr ⟨by decide +kernel, by decide +kernel, by decide +kernel⟩
  exact ⟨_, h₁, h₂, (event_commitment_unambiguous_iff _ _ _ _ _ _ _ rfl rfl h₁ h₂).1
    (by decide +kernel) (by decide +kernel)⟩

/-- A note of `2 ^ 31` letters and one without content are committed to one text. -/
theorem endless_note_ambiguous :
    ¬ ∀ (e₁ e₂ : NostrEvent) (buf₁ buf₂ : Mem) (len₁ len₂ : Nat) (t : Bytes),
      e₁.explicitTags = none → e₂.explicitTags = none → committed e₁ buf₁ len₁ = some t →
      committed e₂ buf₂ len₂ = some t → Agree e₁ e₂ := by
  intro h
  have hroom : (commitmentText (sampleNote 1688794190 [])).length < 4096 := by decide +kernel
  have h₁ : committed (sampleNote 1688794190 []) (fun _ => 0) 4096 =
      some (commitmentText (sampleNote 1688794190 [])) :=
    (committed_iff _ _ _ _).mpr ⟨nofun, hroom, rfl⟩
  have h₂ : committed endlessNote (fun _ => 0) 4096 =
      some (commitmentText (sampleNote 1688794190 [])) := by
    refine (committed_iff _ _ _ _).mpr ⟨nofun, ?_, commitment_text_endless_note.symm⟩
    rw [commitment_text_endless_note]
    exact hroom
  have hagree := (h _ _ _ _ _ _ _ rfl rfl h₁ h₂).content
  have hlen : endlessNote.content.strlen = 2 ^ 31 := List.length_replicate
  rw [← hagree] at hlen
  exact absurd hlen (by decide)

end Gnostr
