import Gnostr.Cli.Message

/-!
# What fits the buffers

An event is serialised twice: for its id into the buffer of `generate_event_id`, and for the line
into the buffers of `print_event`. In `gnostr.c` the second buffer is as large as the first and
takes the tags and the content one after the other, so an event with an id can be printed. In
`src/nostril/nostri.c` every piece of the line goes through `str`, which has 1024 bytes.
-/

namespace Gnostr

open Wire

/-! ## `print_event` of `gnostr.c` -/

/-- A run that fails has printed nothing, and never for want of room in `print_event`. -/
theorem main_ends {host : Host} {fuel : Nat} {argv : List CStr} {stop : Exit}
    (h : main host fuel argv = .error stop) : stop.Ends [2, 8, 4, 0, 22, 5, 6] := by
  rcases bind_eq_error h with hread | ⟨st, -, h⟩
  · exact (read_args_ends hread).mono (by decide)
  rcases bind_eq_error h with hkey | ⟨key, -, h⟩
  · exact (main_key_ends hkey).mono (by decide)
  rcases bind_eq_error h with hdm | ⟨dm, -, h⟩
  · exact (main_dm_ends hdm).mono (by decide)
  rcases bind_eq_error h with hid | ⟨ev, hev, h⟩
  · exact (main_id_ends hid).mono (by decide)
  rcases bind_eq_error h with hsign | ⟨signed, hsigned, h⟩
  · exact (main_sign_ends hsign).mono (by decide)
  obtain ⟨-, sig, -, rfl⟩ := main_sign_ok hsigned
  obtain ⟨extra, hgenerate, -⟩ := main_id_ok hev
  have hprint : printEvent { ev with sig := sig } st.args.flags.envelope = _ :=
    print_generated hgenerate ev.id sig st.args.flags.envelope
  simp only [mainPrint, hprint] at h
  cases h

/-- Once an event has its id, neither failure of `print_event` can occur, so a run of `main` that
fails has printed nothing. -/
theorem print_event_cannot_fail :
    (∀ (sha256 : Bytes → Block 32) (ev ev' : NostrEvent),
      generateEventId sha256 ev = some (true, ev') →
      ∀ (id : Block 32) (sig : Block 64) (envelope : Bool),
        ∃ out, printEvent { ev' with id := id, sig := sig } envelope = some (true, out)) ∧
    ∀ (host : Host) (fuel : Nat) (argv : List CStr) (code : Nat) (message out : Bytes),
      main host fuel argv = .error (.failed code message out) → code ≠ 88 ∧ out = [] := by
  constructor
  · intro sha256 ev ev' hid id sig envelope
    exact ⟨_, print_generated hid id sig envelope⟩
  · intro host fuel argv code message out hmain
    obtain ⟨hcode, hout⟩ : code ∈ [2, 8, 4, 0, 22, 5, 6] ∧ out = [] := main_ends hmain
    refine ⟨?_, hout⟩
    rintro rfl
    exact absurd hcode (by decide)

/-- The note of the sample run is printed under any signature. -/
theorem print_event_cannot_fail_hello :
    ∃ out, printEvent { sampleHashed "1688794190" with sig := ⟨List.replicate 64 1, by simp⟩ }
      true = some (true, out) := by
  have hroom : (commitmentText (sampleHashed "1688794190")).length < bufferSize := by
    rw [hashed_sample.1]
    exact sample_text_room.1
  exact print_event_cannot_fail.1 sampleSha256 (sampleHashed "1688794190") _
    (generate_event_id_eq sampleSha256 (tags_defined_of_none rfl) hroom)
    (sampleHashed "1688794190").id _ true

/-! ## `print_event` of `nostri.c` -/

namespace Nostri

/-- Every piece fits `str` with its terminator, and all of them together fit `out` with theirs. -/
def Fits (t : Printed) : Prop :=
  (∀ fragment ∈ fragments t, fragment.length + 1 ≤ 1024) ∧
    (fragments t).flatten.length + 1 ≤ bufferSize

instance (t : Printed) : Decidable (Fits t) :=
  inferInstanceAs (Decidable (_ ∧ _))

/-- What is known of an event with a new id: its tags and its content are short enough for
`print_event`. -/
theorem generate_event_id_room {sha256 : Bytes → Block 32} {null : Bool} {ev ev' : NostrEvent}
    (h : Nostri.generateEventId sha256 null ev = some (true, ev')) :
    ev' = { ev with id := ev'.id } ∧ ev.TagsDefined ∧ (tagsText ev).length < bufferSize ∧
      (contentText null ev).length < bufferSize := by
  rw [(generates_event_id sha256 null).run] at h
  split_ifs at h with htags hroom
  · rw [← (Prod.mk.inj (Option.some.inj h)).2]
    exact ⟨rfl, htags, parts_of_text_fit hroom⟩
  · cases congrArg Prod.fst (Option.some.inj h)

/-- With room in the buffers of the cursors, `print_event` writes the line when its pieces and the
whole of it fit, and runs past a buffer when they do not. -/
theorem print_event_run {null : Bool} {ev : NostrEvent} (hdefined : ev.TagsDefined)
    (htags : (tagsText ev).length < bufferSize)
    (hcontent : (contentText null ev).length < bufferSize) (room : Nat) :
    printEvent null ev room =
      if Fits (printed null ev) ∧ ((printed null ev).line true).length < room then
        .ok (some ((printed null ev).line true))
      else .error .undefined := by
  have htagsRun := (emits_push_tags ev).fits (makeCursor (fun _ => 0) 0 bufferSize)
    (by simpa [makeCursor] using htags)
  have hcontentRun := (emits_push_jsonstr null ev).fits
    (resetCursor ((makeCursor (fun _ => 0) 0 bufferSize).write (tagsText ev)))
    (by simpa [makeCursor, resetCursor, Cursor.write] using hcontent)
  have htext : ((resetCursor ((makeCursor (fun _ => 0) 0 bufferSize).write
      (tagsText ev))).write (contentText null ev)).text = contentText null ev :=
    Mem.slice_store _ 0 _
  -- the content is written over the tags: `reset_cursor` starts the same buffer again
  have hfold : printEvent null ev room = (do
      let out ← (fragments (printed null ev)).foldlM append []
      if room < out.length + 1 then throw .undefined
      return some out) := by
    simp only [printEvent, cursor_push_tags_eq hdefined, htagsRun, hcontentRun, Cursor.text_write,
      htext, printf_precision_eq (nul_not_mem_tags_text ev),
      printf_precision_eq (nul_not_mem_content null ev), Bool.not_true, fragments,
      List.foldlM_append, bind_assoc, Bool.false_eq_true, if_false]
    rfl
  have hpieces : (fragments (printed null ev)).foldlM append [] =
      if Fits (printed null ev) then .ok ((printed null ev).line true)
      else .error .undefined := by
    rw [fold_append _ (by simp [bufferSize]), List.nil_append, flatten_fragments]
    simp only [Fits, flatten_fragments, List.length_nil, Nat.zero_add]
  rw [hfold, hpieces]
  by_cases hfits : Fits (printed null ev)
  · by_cases hroom : ((printed null ev).line true).length < room
    · rw [if_pos hfits, if_pos ⟨hfits, hroom⟩]
      show (if room < ((printed null ev).line true).length + 1 then _ else _) = _
      rw [if_neg (by omega)]
      rfl
    · rw [if_pos hfits, if_neg fun h => hroom h.2]
      show (if room < ((printed null ev).line true).length + 1 then _ else _) = _
      rw [if_pos (by omega)]
      rfl
  · rw [if_neg hfits, if_neg fun h => hfits h.1]
    rfl

/-- What the fixed pieces and the numbers take is known; what is left are the tags and the
content. -/
theorem fits_iff (null : Bool) (ev : NostrEvent) :
    Fits (printed null ev) ↔
      (tagsText ev).length ≤ 1014 ∧ (contentText null ev).length ≤ 1011 := by
  have htime : (decimal ev.createdAt.toNat).length ≤ 20 := by
    have hlt := ev.createdAt.toNat_lt
    exact (length_decimal_le_iff (by omega)).mpr (by omega)
  have hkind : (signedDecimal ev.kind.toInt).length ≤ 15 := by
    rw [← kind_text_fits, snprintf, List.length_take]
    omega
  have hid : (hexText ev.id.1).length = 64 := by rw [length_hex_text, ev.id.2]
  have hpubkey : (hexText ev.pubkey.1).length = 64 := by rw [length_hex_text, ev.pubkey.2]
  have hsig : (hexText ev.sig.1).length = 128 := by rw [length_hex_text, ev.sig.2]
  -- the lengths of the literals, in the order in which they occur
  have hliterals : (ascii "[\"EVENT\",").length = 9 ∧ (ascii "\x7b\"id\": \"").length = 8 ∧
      (ascii "\",").length = 2 ∧ (ascii "\"pubkey\": \"").length = 11 ∧
      (ascii "\"created_at\": ").length = 14 ∧ (ascii ",").length = 1 ∧
      (ascii "\"kind\": ").length = 8 ∧ (ascii "\"tags\": ").length = 8 ∧
      (ascii "\"content\": ").length = 11 ∧ (ascii "\"sig\": \"").length = 8 ∧
      (ascii "\"\x7d").length = 2 ∧ (ascii "]\n").length = 2 := by
    decide
  simp only [Fits, fragments, frontFragments, backFragments, printed, Gnostr.printed,
    List.forall_mem_append, List.forall_mem_cons, List.length_append, List.flatten_append,
    List.flatten_cons, List.flatten_nil, hid, hpubkey, hsig, hliterals, bufferSize]
  constructor
  · rintro ⟨⟨⟨-, -, -, -, -, htags, -⟩, hcontent, -⟩, -⟩
    omega
  · rintro ⟨htags, hcontent⟩
    refine ⟨⟨⟨?_, ?_, ?_, ?_, ?_, ?_, fun _ h => absurd h List.not_mem_nil⟩, ?_, ?_, ?_,
      fun _ h => absurd h List.not_mem_nil⟩, ?_⟩
    all_goals first | omega | (rw [List.length_nil]; omega)

/-- `print_event` runs past a buffer unless every piece fits. -/
theorem print_event_defined_iff {null : Bool} {ev : NostrEvent} (hdefined : ev.TagsDefined)
    (htags : (tagsText ev).length < bufferSize)
    (hcontent : (contentText null ev).length < bufferSize) :
    printEvent null ev bufferSize ≠ .error .undefined ↔ Fits (printed null ev) := by
  have hroom : Fits (printed null ev) → ((printed null ev).line true).length < bufferSize := by
    intro hfits
    rw [← flatten_fragments]
    exact hfits.2
  rw [print_event_run hdefined htags hcontent]
  split
  · next hfits => exact iff_of_true nofun hfits.1
  · next hfits => exact iff_of_false (not_not.mpr rfl) fun h => hfits ⟨h, hroom h⟩

/-- An event with an id is printed within the buffers exactly when its tags take at most 1014
bytes and its content at most 1011, with quotation marks and escapes. -/
theorem print_event_in_bounds_iff (sha256 : Bytes → Block 32) (null : Bool) (ev ev' : NostrEvent)
    (hid : generateEventId sha256 null ev = some (true, ev')) (sig : Block 64) :
    (Fits (printed null { ev' with sig := sig }) ↔
      (tagsText ev).length ≤ 1014 ∧ (contentText null ev).length ≤ 1011) ∧
    (printEvent null { ev' with sig := sig } bufferSize ≠ .error .undefined ↔
      (tagsText ev).length ≤ 1014 ∧ (contentText null ev).length ≤ 1011) := by
  obtain ⟨hev, hdefined, htags, hcontent⟩ := generate_event_id_room hid
  have hfits : Fits (printed null { ev' with sig := sig }) ↔
      (tagsText ev).length ≤ 1014 ∧ (contentText null ev).length ≤ 1011 := by
    rw [fits_iff, hev]
    rfl
  refine ⟨hfits, Iff.trans (print_event_defined_iff ?_ ?_ ?_) hfits⟩
  · rw [hev]
    exact hdefined
  · rw [hev]
    exact htags
  · rw [hev]
    exact hcontent

/-- Both drivers give a note the same id when there is a content. -/
theorem generate_event_id_content (sha256 : Bytes → Block 32) (ev : NostrEvent) :
    generateEventId sha256 false ev = Gnostr.generateEventId sha256 ev :=
  rfl

/-- The note of the sample run has an id and stays within the buffers. -/
theorem print_event_in_bounds_iff_hello :
    Fits (printed false (sampleHashed "1688794190")) ∧
      printEvent false (sampleHashed "1688794190") bufferSize ≠ .error .undefined := by
  have hroom : (commitmentText (sampleHashed "1688794190")).length < bufferSize := by
    rw [hashed_sample.1]
    exact sample_text_room.1
  have hid := (generate_event_id_content (fun _ => (sampleHashed "1688794190").id) _).trans
    (generate_event_id_eq (fun _ => (sampleHashed "1688794190").id) (tags_defined_of_none rfl)
      hroom)
  obtain ⟨hfits, hdefined⟩ := print_event_in_bounds_iff _ false _ _ hid
    (sampleHashed "1688794190").sig
  have hshort : (tagsText (sampleHashed "1688794190")).length ≤ 1014 ∧
      (contentText false (sampleHashed "1688794190")).length ≤ 1011 := by
    decide +kernel
  exact ⟨hfits.mpr hshort, hdefined.mpr hshort⟩

/-- A note of 1010 letters. -/
def longNote : NostrEvent :=
  sampleNote 1688794190 (List.replicate 1010 97)

/-- The note gets an id, and its line overruns `str`. -/
theorem print_event_overruns_str :
    ∃ ev, generateEventId sampleSha256 false longNote = some (true, ev) ∧
      ¬ Fits (printed false ev) ∧ printEvent false ev bufferSize = .error .undefined := by
  have hroom : (commitmentText longNote).length < bufferSize := by decide +kernel
  have hlong : ¬ (contentText false longNote).length ≤ 1011 := by decide +kernel
  have hid := (generate_event_id_content sampleSha256 longNote).trans
    (generate_event_id_eq sampleSha256 (tags_defined_of_none rfl) hroom)
  obtain ⟨-, hdefined, htags, hcontent⟩ := generate_event_id_room hid
  have hfits : ¬ Fits (printed false
      { longNote with id := sampleSha256 (commitmentText longNote) }) := by
    rw [fits_iff]
    exact fun h => hlong h.2
  refine ⟨_, hid, hfits, ?_⟩
  by_contra hrun
  exact hfits ((print_event_defined_iff hdefined htags hcontent).mp hrun)

end Nostri

end Gnostr
