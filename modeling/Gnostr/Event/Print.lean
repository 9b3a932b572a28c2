import Gnostr.Event.Unambiguous
import Gnostr.Wire.JsonRender

/-!
# The printed event

`print_event` of `gnostr.c`. It serialises the tags and the content into its own buffer and
prints one line, an object or `["EVENT",object]`. `print_event_success` gives the line in terms
of the texts it is made of. `print_event_json_iff` compares the line with the JSON grammar: it is
a JSON text for the event exactly when no string holds a control character the escaper leaves
alone or is too long for an `int`.
-/

namespace Gnostr

open Wire

/-- The texts `print_event` emits for the seven fields. -/
structure Printed where
  id : Bytes
  pubkey : Bytes
  createdAt : Bytes
  kind : Bytes
  tags : Bytes
  content : Bytes
  sig : Bytes

/-- Everything printed before the content is serialised. -/
def Printed.front (t : Printed) (envelope : Bool) : Bytes :=
  (if envelope then ascii "[\"EVENT\"," else []) ++ (ascii "\x7b\"id\": \"" ++ (t.id ++
    (ascii "\"," ++ (ascii "\"pubkey\": \"" ++ (t.pubkey ++ (ascii "\"," ++
    (ascii "\"created_at\": " ++ (t.createdAt ++ (ascii "," ++ (ascii "\"kind\": " ++ (t.kind ++
    (ascii "," ++ (ascii "\"tags\": " ++ (t.tags ++ ascii ","))))))))))))))

/-- Everything printed from the content on. -/
def Printed.back (t : Printed) (envelope : Bool) : Bytes :=
  ascii "\"content\": " ++ (t.content ++ (ascii "," ++ (ascii "\"sig\": \"" ++ (t.sig ++
    (ascii "\"\x7d" ++ ((if envelope then ascii "]" else []) ++ ascii "\n"))))))

/-- The printed line. -/
def Printed.line (t : Printed) (envelope : Bool) : Bytes :=
  t.front envelope ++ t.back envelope

/-- What `"%.*s"` prints of a buffer: up to the given length, and no further than a NUL. -/
def printfPrecision (t : Bytes) : Bytes :=
  t.takeWhile (· ≠ 0)

/-- `print_event`: the returned status and the text printed until then. -/
def printEvent (ev : NostrEvent) (envelope : Bool) : Option (Bool × Bytes) := do
  let t : Printed := {
    id := hexText ev.id.1
    pubkey := hexText ev.pubkey.1
    createdAt := decimal ev.createdAt.toNat
    kind := signedDecimal ev.kind.toInt
    tags := []
    content := []
    sig := hexText ev.sig.1 }
  let (ok, cur) ← cursorPushTags ev (makeCursor (fun _ => 0) 0 bufferSize)
  if !ok then return (false, [])
  let t := { t with tags := printfPrecision cur.text }
  let (ok, cur) := cursorPushJsonstr ev.content (resetCursor cur)
  if !ok then return (false, t.front envelope)
  let t := { t with content := printfPrecision cur.text }
  return (true, t.line envelope)

/-- The texts of an event, with its strings as they are serialised. -/
def printed (ev : NostrEvent) : Printed where
  id := hexText ev.id.1
  pubkey := hexText ev.pubkey.1
  createdAt := decimal ev.createdAt.toNat
  kind := signedDecimal ev.kind.toInt
  tags := tagsText ev
  content := quoted ev.content.counted
  sig := hexText ev.sig.1

/-! ## What a successful call prints -/

/-- An escape is made of printable characters. -/
theorem mem_escaped {c b : UInt8} (h : b ∈ escaped c) : b = c ∨ 32 ≤ b := by
  unfold escaped at h
  split_ifs at h <;> simp only [List.mem_cons, List.not_mem_nil, or_false] at h
  all_goals first
    | exact .inl h
    | exact .inr (by rcases h with rfl | rfl <;> decide)

/-- Quoting adds no zero byte. -/
theorem nul_not_mem_quoted {t : Bytes} (ht : 0 ∉ t) : 0 ∉ quoted t := by
  intro h
  rcases List.mem_cons.mp h with h | h
  · exact absurd h (by decide)
  · rcases List.mem_append.mp h with h | h
    · obtain ⟨c, hc, hb⟩ := List.mem_flatMap.mp h
      rcases mem_escaped hb with rfl | hle
      · exact ht hc
      · exact absurd hle (by decide)
    · exact absurd (List.mem_singleton.mp h) (by decide)

/-- Nor do brackets and separators. -/
theorem nul_not_mem_bracketed {α : Type} {item : α → Bytes} (hitem : ∀ x, 0 ∉ item x)
    (xs : List α) : 0 ∉ bracketed item 91 44 93 xs := by
  intro h
  rcases of_mem_bracketed h with h | h | h | ⟨x, -, h⟩
  · exact absurd h (by decide)
  · exact absurd h (by decide)
  · exact absurd h (by decide)
  · exact hitem x h

/-- There is none in the tags. -/
theorem nul_not_mem_tags_text (ev : NostrEvent) : 0 ∉ tagsText ev := by
  unfold tagsText tagsTextBy
  cases ev.explicitTags with
  | some tags => exact tags.nul_not_mem_counted
  | none =>
      exact nul_not_mem_bracketed
        (fun tag => nul_not_mem_bracketed (fun s => nul_not_mem_quoted s.nul_not_mem_counted)
          tag.strs) ev.tags

/-- `printf` writes a text without a zero byte in full. -/
theorem printf_precision_eq {t : Bytes} (h : 0 ∉ t) : printfPrecision t = t :=
  CStr.bytes_of_bytes h

/-- What is known of a call once its tags are pushed. -/
theorem print_event_tags {ev : NostrEvent} (htags : ev.TagsDefined) (envelope : Bool)
    (hpush : (tagsPush ev (makeCursor (fun _ => 0) 0 bufferSize)).1 = true) :
    (tagsText ev).length ≤ bufferSize ∧
      printEvent ev envelope =
        if (cursorPushJsonstr ev.content (resetCursor
            ((makeCursor (fun _ => 0) 0 bufferSize).write (tagsText ev)))).1 then
          some (true, (printed ev).line envelope)
        else some (false, (printed ev).front envelope) := by
  obtain ⟨hcur, hfit⟩ := (emits_push_tags ev).of_success (Nat.zero_le bufferSize) hpush
  have hrun : cursorPushTags ev (makeCursor (fun _ => 0) 0 bufferSize) =
      some (true, (makeCursor (fun _ => 0) 0 bufferSize).write (tagsText ev)) := by
    rw [cursor_push_tags_eq htags, ← hcur, ← hpush]
  refine ⟨by simpa [makeCursor] using hfit, ?_⟩
  rcases hcontent : cursorPushJsonstr ev.content
    (resetCursor ((makeCursor (fun _ => 0) 0 bufferSize).write (tagsText ev))) with ⟨ok, cur⟩
  have htagsText := printf_precision_eq (nul_not_mem_tags_text ev)
  cases ok with
  | false =>
      simp only [printEvent, hrun, bind, Option.bind_some, hcontent, Cursor.text_write, htagsText]
      rfl
  | true =>
      have hok : (cursorPushJsonstr ev.content (resetCursor
          ((makeCursor (fun _ => 0) 0 bufferSize).write (tagsText ev)))).1 = true := by
        rw [hcontent]
      obtain ⟨hcur, -⟩ := (emits_push_jsonstr ev.content).of_success (Nat.zero_le _) hok
      rw [hcontent] at hcur
      subst hcur
      have htext : ((resetCursor ((makeCursor (fun _ => 0) 0 bufferSize).write
          (tagsText ev))).write (quoted ev.content.counted)).text = quoted ev.content.counted :=
        Mem.slice_store _ 0 _
      simp only [printEvent, hrun, bind, Option.bind_some, hcontent, Cursor.text_write, htext,
        htagsText, printf_precision_eq (nul_not_mem_quoted ev.content.nul_not_mem_counted)]
      rfl

/-- A successful call has room for the tags and the content, and prints the line made of the texts
of the event. -/
theorem print_event_success {ev : NostrEvent} {envelope : Bool} {out : Bytes}
    (h : printEvent ev envelope = some (true, out)) :
    (tagsText ev).length ≤ bufferSize ∧ (quoted ev.content.counted).length ≤ bufferSize ∧
      out = (printed ev).line envelope := by
  by_cases htags : ev.TagsDefined
  · cases hpush : (tagsPush ev (makeCursor (fun _ => 0) 0 bufferSize)).1 with
    | false => simp [printEvent, cursor_push_tags_eq htags, hpush] at h
    | true =>
        obtain ⟨hfit, hrun⟩ := print_event_tags htags envelope hpush
        rw [hrun] at h
        split_ifs at h with hok
        · obtain ⟨-, hroom⟩ := (emits_push_jsonstr ev.content).of_success (Nat.zero_le _) hok
          exact ⟨hfit, by simpa [resetCursor, makeCursor, Cursor.write] using hroom,
            (Prod.mk.inj (Option.some.inj h)).2.symm⟩
        · cases congrArg Prod.fst (Option.some.inj h)
  · have hundefined : cursorPushTags ev (makeCursor (fun _ => 0) 0 bufferSize) = none :=
      cursor_push_tags_undefined htags (Nat.zero_le _)
    simp [printEvent, hundefined] at h

/-- Tags and content that fit the buffer are printed. -/
theorem print_event_eq (ev : NostrEvent) (envelope : Bool) (hdefined : ev.TagsDefined)
    (htags : (tagsText ev).length < bufferSize)
    (hcontent : (quoted ev.content.counted).length < bufferSize) :
    printEvent ev envelope = some (true, (printed ev).line envelope) := by
  have htagsRun := (emits_push_tags ev).fits (makeCursor (fun _ => 0) 0 bufferSize)
    (by simpa [makeCursor] using htags)
  have hcontentRun := (emits_push_jsonstr ev.content).fits
    (resetCursor ((makeCursor (fun _ => 0) 0 bufferSize).write (tagsText ev)))
    (by simpa [makeCursor, resetCursor, Cursor.write] using hcontent)
  obtain ⟨-, hrun⟩ := print_event_tags hdefined envelope (by rw [htagsRun])
  rw [hrun, hcontentRun, if_pos rfl]

/-! ## The line as JSON -/

/-- The JSON value of an event. -/
def eventJson (ev : NostrEvent) : Json :=
  .obj [(ascii "id", .str (hexText ev.id.1)), (ascii "pubkey", .str (hexText ev.pubkey.1)),
    (ascii "created_at", .int ev.createdAt.toNat), (ascii "kind", .int ev.kind.toInt),
    (ascii "tags", .arr (ev.tags.map fun tag => .arr (tag.strs.map fun s => .str s.bytes))),
    (ascii "content", .str ev.content.bytes), (ascii "sig", .str (hexText ev.sig.1))]

/-- The JSON value of the line: the event, or a two-element array around it. -/
def lineJson (ev : NostrEvent) (envelope : Bool) : Json :=
  if envelope then .arr [.str (ascii "EVENT"), eventJson ev] else eventJson ev

/-- No control character but those the escaper has an escape for. -/
def Escapable (s : Bytes) : Prop :=
  ∀ b ∈ s, 32 ≤ b ∨ b = 8 ∨ b = 9 ∨ b = 10 ∨ b = 12 ∨ b = 13

/-- Every string of the event, its tag elements and its content. -/
def NostrEvent.strings (ev : NostrEvent) : List CStr :=
  ev.content :: ev.tags.flatMap NostrTag.strs

/-- An escapable string is written as characters of the grammar that stand for it. -/
theorem chars_escaped {s : Bytes} (h : Escapable s) : Json.Chars (s.flatMap escaped) s := by
  induction s with
  | nil => exact .nil
  | cons c s ih =>
      have hrest := ih fun b hb => h b (List.mem_cons_of_mem _ hb)
      rw [List.flatMap_cons]
      rcases escaped_cases c with ⟨hc, hquote, hslash⟩ | ⟨e, hc, he⟩
      · have hle : 32 ≤ c := by
          rcases h c List.mem_cons_self with hle | rfl | rfl | rfl | rfl | rfl
          · exact hle
          all_goals exact absurd hc (by decide)
        rw [hc]
        exact .plain hle hquote hslash hrest
      · rw [hc]
        exact .short he hrest

/-- A quoted string is a JSON string. -/
theorem value_quoted {s : Bytes} (h : Escapable s) (hutf8 : Utf8 s) :
    Json.Value (quoted s) (.str s) :=
  .string (chars_escaped h) hutf8

/-- Hexadecimal text needs no escapes. -/
theorem is_plain_hex_text (buf : Bytes) : Json.isPlain (hexText buf) = true := by
  refine Json.is_plain_iff.mpr fun b hb => ?_
  obtain ⟨hlow, hhigh, hslash⟩ := mem_hex_text hb
  exact ⟨UInt8.le_trans (by decide) hlow, fun heq => absurd (heq ▸ hlow) (by decide), hslash,
    UInt8.le_trans hhigh (by decide)⟩

/-- The strings of an event without explicit tags are those that are serialised. -/
theorem strings_eq {ev : NostrEvent} (htags : ev.explicitTags = none) :
    ev.strings = ev.content :: ev.tagStrings := by
  rw [NostrEvent.strings, NostrEvent.tagStrings, htags]

/-- With strings that fit an `int` the tags and the content are printed whole. -/
theorem printed_of_short {ev : NostrEvent} (h : ev.Short) :
    (printed ev).tags = tagsTextBy CStr.bytes ev ∧
      (printed ev).content = quoted ev.content.bytes := by
  obtain ⟨hcontent, htags⟩ := List.forall_mem_cons.mp h
  refine ⟨tags_text_of_short htags, ?_⟩
  show quoted ev.content.counted = _
  rw [CStr.counted_eq_iff.mpr hcontent]

/-- The tags are an array of arrays of strings. -/
theorem value_tags {ev : NostrEvent} (htags : ev.explicitTags = none) (hshort : ev.Short)
    (h : ∀ s ∈ ev.strings, Escapable s.bytes) (hutf8 : ∀ s ∈ ev.strings, Utf8 s.bytes) :
    Json.Value (printed ev).tags
      (.arr (ev.tags.map fun tag => .arr (tag.strs.map fun s => .str s.bytes))) := by
  rw [(printed_of_short hshort).1, tagsTextBy, htags]
  refine Json.value_bracketed fun tag htag => Json.value_bracketed fun s hs => ?_
  have hmem : s ∈ ev.strings :=
    List.mem_cons_of_mem _ (List.mem_flatMap.mpr ⟨tag, htag, hs⟩)
  exact value_quoted (h s hmem) (hutf8 s hmem)

/-- The object `print_event` prints, without the envelope. -/
def Printed.object (t : Printed) : Bytes :=
  123 :: 34 :: (ascii "id" ++ 34 :: 58 :: 32 :: ((34 :: (t.id ++ [34])) ++ 44 ::
    34 :: (ascii "pubkey" ++ 34 :: 58 :: 32 :: ((34 :: (t.pubkey ++ [34])) ++ 44 ::
    34 :: (ascii "created_at" ++ 34 :: 58 :: 32 :: (t.createdAt ++ 44 ::
    34 :: (ascii "kind" ++ 34 :: 58 :: 32 :: (t.kind ++ 44 ::
    34 :: (ascii "tags" ++ 34 :: 58 :: 32 :: (t.tags ++ 44 ::
    34 :: (ascii "content" ++ 34 :: 58 :: 32 :: (t.content ++ 44 ::
    34 :: (ascii "sig" ++ 34 :: 58 :: 32 :: ((34 :: (t.sig ++ [34])) ++ [125]))))))))))))))

/-- The line is the object, with or without its envelope. -/
theorem Printed.line_eq (t : Printed) (envelope : Bool) :
    t.line envelope =
      if envelope then ascii "[\"EVENT\"," ++ (t.object ++ ascii "]\n")
      else t.object ++ ascii "\n" := by
  cases envelope <;> simp [line, front, back, object, ascii]

/-- The printed object is a JSON object for the event. -/
theorem value_object {ev : NostrEvent} (htags : ev.explicitTags = none) (hshort : ev.Short)
    (h : ∀ s ∈ ev.strings, Escapable s.bytes) (hutf8 : ∀ s ∈ ev.strings, Utf8 s.bytes) :
    Json.Value (printed ev).object (eventJson ev) := by
  have hcontent : ev.content ∈ ev.strings := List.mem_cons_self
  have hvalue := value_quoted (h _ hcontent) (hutf8 _ hcontent)
  rw [← (printed_of_short hshort).2] at hvalue
  refine Json.Value.obj (.plain_cons (by decide) (Json.value_plain (is_plain_hex_text _)) ?_)
  refine .plain_cons (by decide) (Json.value_plain (is_plain_hex_text _)) ?_
  refine .plain_cons (by decide) (Json.value_signed_decimal ev.createdAt.toNat) ?_
  refine .plain_cons (by decide) (Json.value_signed_decimal ev.kind.toInt) ?_
  refine .plain_cons (by decide) (value_tags htags hshort h hutf8) ?_
  refine .plain_cons (by decide) hvalue ?_
  exact .plain_last (by decide) (Json.value_plain (is_plain_hex_text _))

/-- The printed line is a JSON text for the event when every string is escapable. -/
theorem text_line {ev : NostrEvent} (envelope : Bool) (htags : ev.explicitTags = none)
    (hshort : ev.Short) (h : ∀ s ∈ ev.strings, Escapable s.bytes)
    (hutf8 : ∀ s ∈ ev.strings, Utf8 s.bytes) :
    Json.Text ((printed ev).line envelope) (lineJson ev envelope) := by
  have hobject := value_object htags hshort h hutf8
  have hnewline : Json.Ws (ascii "\n") := by simp [Json.Ws, ascii, Json.isWs]
  rw [Printed.line_eq]
  cases envelope with
  | false => exact .mk Json.ws_nil hobject hnewline
  | true =>
      have hlast := Json.Elements.last Json.ws_nil hobject Json.ws_nil
      have hname : Json.Value (34 :: (ascii "EVENT" ++ [34])) (.str (ascii "EVENT")) :=
        Json.value_plain (by decide)
      have harray := Json.Value.arr (.cons Json.ws_nil hname Json.ws_nil hlast)
      simpa [lineJson, ascii] using Json.Text.mk Json.ws_nil harray hnewline

/-- A byte the escaper leaves alone stands in the printed line, when it is read. -/
theorem mem_line {ev : NostrEvent} {s : CStr} {b : UInt8} (envelope : Bool)
    (htags : ev.explicitTags = none) (hs : s ∈ ev.strings) (hb : b ∈ s.counted)
    (hescaped : escaped b = [b]) : b ∈ (printed ev).line envelope := by
  have hquoted : b ∈ quoted s.counted :=
    List.mem_cons_of_mem _ (List.mem_append_left _
      (List.mem_flatMap.mpr ⟨b, hb, by rw [hescaped]; exact List.mem_singleton_self b⟩))
  rcases List.mem_cons.mp hs with rfl | hs
  · simp [Printed.line, Printed.back, printed, hquoted]
  · obtain ⟨tag, htag, hs⟩ := List.mem_flatMap.mp hs
    have htagsText : b ∈ tagsText ev := by
      rw [tagsText, tagsTextBy, htags]
      exact mem_bracketed htag (mem_bracketed hs hquoted)
    simp [Printed.line, Printed.front, printed, htagsText]

/-- The numbers and the fixed parts of a line take little. -/
theorem length_line_le (ev : NostrEvent) (envelope : Bool) :
    ((printed ev).line envelope).length ≤
      (tagsText ev).length + (quoted ev.content.counted).length + 1000 := by
  have htime : (decimal ev.createdAt.toNat).length ≤ 20 := by
    have hlt := ev.createdAt.toNat_lt
    exact (length_decimal_le_iff (by omega)).mpr (by omega)
  have hkind : (signedDecimal ev.kind.toInt).length ≤ 15 := by
    rw [← kind_text_fits, snprintf, List.length_take]
    omega
  have hid : (hexText ev.id.1).length = 64 := by rw [length_hex_text, ev.id.2]
  have hpubkey : (hexText ev.pubkey.1).length = 64 := by rw [length_hex_text, ev.pubkey.2]
  have hsig : (hexText ev.sig.1).length = 128 := by rw [length_hex_text, ev.sig.2]
  rw [Printed.line_eq]
  cases envelope <;> simp [Printed.object, printed, hid, hpubkey, hsig, ascii] <;> omega

/-- Every string of an event stands in the value of its line. -/
theorem holds_line {ev : NostrEvent} {s : CStr} (envelope : Bool) (hs : s ∈ ev.strings) :
    Json.Holds s.bytes (lineJson ev envelope) := by
  have hevent : Json.Holds s.bytes (eventJson ev) := by
    rcases List.mem_cons.mp hs with rfl | hs
    · refine @Json.Holds.member _ (ascii "content") _ _ ?_ .str
      simp
    · obtain ⟨tag, hmem, hs⟩ := List.mem_flatMap.mp hs
      have htag : Json.Holds s.bytes (.arr (tag.strs.map fun s => .str s.bytes)) :=
        .item (List.mem_map_of_mem hs) .str
      have htags : Json.Holds s.bytes
          (.arr (ev.tags.map fun tag => .arr (tag.strs.map fun s => .str s.bytes))) :=
        .item (List.mem_map_of_mem hmem) htag
      refine @Json.Holds.member _ (ascii "tags") _ _ ?_ htags
      simp
  cases envelope with
  | false => exact hevent
  | true => exact .item (by simp) hevent

/-- The line of an event with a string that is too long does not hold that string. -/
theorem short_of_text {ev : NostrEvent} {envelope : Bool} {out : Bytes}
    (htags : ev.explicitTags = none) (hprint : printEvent ev envelope = some (true, out))
    (htext : Json.Text out (lineJson ev envelope)) : ev.Short := by
  obtain ⟨htagsFit, hcontentFit, rfl⟩ := print_event_success hprint
  have hline := length_line_le ev envelope
  have hsize : bufferSize = 102400 := rfl
  intro s hs
  rw [← strings_eq htags] at hs
  have hlen := htext.length_of_holds (holds_line envelope hs)
  rw [CStr.strlen]
  omega

/-- A control character without an escape keeps the line from being a JSON text. -/
theorem escapable_of_text {ev : NostrEvent} {envelope : Bool} (htags : ev.explicitTags = none)
    (hshort : ev.Short) (htext : Json.Text ((printed ev).line envelope) (lineJson ev envelope)) :
    ∀ s ∈ ev.strings, Escapable s.bytes := by
  intro s hs b hb
  by_cases hcontrol : escaped b = [b]
  · have hlen : s.strlen < 2 ^ 31 := hshort s (by rwa [← strings_eq htags])
    rw [← CStr.counted_eq_iff.mpr hlen] at hb
    -- an unescaped byte reaches the line, and a JSON text holds only legal ones
    rcases htext.all_legal b (mem_line envelope htags hs hb hcontrol) with hle | hws
    · exact .inl hle
    · simp only [Json.isWs, Bool.or_eq_true, decide_eq_true_eq] at hws
      rcases hws with ((rfl | rfl) | rfl) | rfl <;> simp
  · unfold escaped at hcontrol
    split_ifs at hcontrol <;> simp_all

/-- What `print_event` prints is a JSON text that decodes to the event exactly when no tag element
and no content is too long for an `int` or holds a control character other than `\b`, `\t`, `\n`,
`\f` and `\r`. -/
theorem print_event_json_iff (ev : NostrEvent) (envelope : Bool) (out : Bytes)
    (htags : ev.explicitTags = none) (hutf8 : ∀ s ∈ ev.strings, Utf8 s.bytes)
    (hprint : printEvent ev envelope = some (true, out)) :
    (Json.Text out (lineJson ev envelope) ∧ Json.decode out = some (lineJson ev envelope)) ↔
      ∀ s ∈ ev.strings, s.strlen < 2 ^ 31 ∧ Escapable s.bytes := by
  obtain ⟨-, -, hout⟩ := print_event_success hprint
  constructor
  · rintro ⟨htext, -⟩ s hs
    have hshort := short_of_text htags hprint htext
    rw [hout] at htext
    exact ⟨hshort s (by rwa [← strings_eq htags]), escapable_of_text htags hshort htext s hs⟩
  · intro h
    have hshort : ev.Short := fun s hs => (h s (by rwa [strings_eq htags])).1
    have htext := text_line envelope htags hshort (fun s hs => (h s hs).2) hutf8
    rw [hout]
    exact ⟨htext, Json.decode_of_text htext⟩

/-- A note with a quotation mark, a line break and a tab decodes to itself. -/
theorem print_event_json_iff_escapes :
    Json.decode ((printed (sampleNote 1688794190 (ascii "say \"hi\"\n\t"))).line true) =
      some (lineJson (sampleNote 1688794190 (ascii "say \"hi\"\n\t")) true) := by
  have hstrings : (sampleNote 1688794190 (ascii "say \"hi\"\n\t")).strings.map CStr.bytes =
      [ascii "say \"hi\"\n\t", ascii "t", ascii "a,]\\b"] := rfl
  have hevery : ∀ {p : Bytes → Prop}, p (ascii "say \"hi\"\n\t") → p (ascii "t") →
      p (ascii "a,]\\b") →
      ∀ s ∈ (sampleNote 1688794190 (ascii "say \"hi\"\n\t")).strings, p s.bytes := by
    intro p h₁ h₂ h₃ s hs
    have hmem := List.mem_map_of_mem (f := CStr.bytes) hs
    rw [hstrings] at hmem
    simp only [List.mem_cons, List.not_mem_nil, or_false] at hmem
    rcases hmem with h | h | h <;> rw [h] <;> assumption
  have hprint := print_event_eq (sampleNote 1688794190 (ascii "say \"hi\"\n\t")) true nofun
    (by decide +kernel) (by decide +kernel)
  exact ((print_event_json_iff _ true _ rfl (hevery (by decide) (by decide) (by decide))
    hprint).mpr (hevery (p := fun t => t.length < 2 ^ 31 ∧ Escapable t)
      (by simp [Escapable, ascii]) (by simp [Escapable, ascii]) (by simp [Escapable, ascii]))).2

/-- A note whose content is the byte 1 is printed as a line that is no JSON text for it. -/
theorem print_event_control_character :
    ¬ ∀ (ev : NostrEvent) (envelope : Bool) (out : Bytes), ev.explicitTags = none →
      (∀ s ∈ ev.strings, Utf8 s.bytes) → printEvent ev envelope = some (true, out) →
      Json.Text out (lineJson ev envelope) ∧ Json.decode out = some (lineJson ev envelope) := by
  intro h
  have hutf8 : ∀ s ∈ (sampleNote 1688794190 [1]).strings, Utf8 s.bytes := by
    have hall : (sampleNote 1688794190 [1]).strings.all fun s => utf8Run .start s.bytes :=
      rfl
    exact fun s hs => List.all_eq_true.mp hall s hs
  have hprint := print_event_eq (sampleNote 1688794190 [1]) false nofun (by decide +kernel)
    (by decide +kernel)
  have htext := (h _ false _ rfl hutf8 hprint).1
  have hmem := mem_line (s := (sampleNote 1688794190 [1]).content) (b := 1) false rfl
    List.mem_cons_self (by decide +kernel) (by decide)
  rcases htext.all_legal 1 hmem with hle | hws
  · exact absurd hle (by decide)
  · exact absurd hws (by decide)

end Gnostr
