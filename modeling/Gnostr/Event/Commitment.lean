import Gnostr.Codec.Cursor
import Gnostr.Codec.Hex
import Gnostr.Wire.Json

/-!
# The committed text of an event

`struct nostr_event`, its serialisers and `event_commitment` of `gnostr.c`, which
`src/nostril/nostri.c` repeats. The string escaper knows seven escapes and copies every other
byte. The time and the kind go through 16-byte buffers, so at most 15 characters of each
reach the text. The length of a string is kept in an `int`: of a string of `2 ^ 31` bytes and more
the escaper reads the part that `CStr.counted` describes, and explicit tags whose length is a
negative `int` are handed to `memcpy`, which leaves a call without an outcome.

`commit_with_fits`, `commit_with_success` and `commit_with_full` describe the function by its text,
`commitmentText`; `event_commitment_all_or_nothing_iff` compares it with the text of the whole
strings, `fullText`.
-/

namespace Gnostr

open Wire

/-- `struct nostr_tag`: the elements in use. -/
structure NostrTag where
  strs : List CStr
  deriving DecidableEq

/-- `struct nostr_event`: the tags in use stand for the array and its count. -/
structure NostrEvent where
  id : Block 32
  pubkey : Block 32
  sig : Block 64
  content : CStr
  createdAt : UInt64
  kind : Int32
  explicitTags : Option CStr
  tags : List NostrTag

/-- `MAX_TAGS`. -/
def maxTags : Nat :=
  32

/-- `nostr_add_tag_n`: nothing when the array of tags is full. -/
def nostrAddTagN (ev : NostrEvent) (ts : List CStr) : Option NostrEvent :=
  if ev.tags.length + 1 > maxTags then none else some { ev with tags := ev.tags ++ [⟨ts⟩] }

/-- `nostr_add_tag`. -/
def nostrAddTag (ev : NostrEvent) (t1 t2 : CStr) : Option NostrEvent :=
  nostrAddTagN ev [t1, t2]

/-- Adding a tag puts it last and changes nothing else. -/
theorem nostr_add_tag_n_some {ev ev' : NostrEvent} {ts : List CStr}
    (h : nostrAddTagN ev ts = some ev') : ev' = { ev with tags := ev.tags ++ [⟨ts⟩] } := by
  unfold nostrAddTagN at h
  split at h
  · cases h
  · exact (Option.some.inj h).symm

/-! ## Serialisers -/

/-- `cursor_push_escaped_char`. -/
def cursorPushEscapedChar (c : UInt8) : Push :=
  if c = 34 then cursorPushStr (ascii "\\\"")
  else if c = 92 then cursorPushStr (ascii "\\\\")
  else if c = 8 then cursorPushStr (ascii "\\b")
  else if c = 12 then cursorPushStr (ascii "\\f")
  else if c = 10 then cursorPushStr (ascii "\\n")
  else if c = 13 then cursorPushStr (ascii "\\r")
  else if c = 9 then cursorPushStr (ascii "\\t")
  -- the source has a TODO here for \u escapes: other control characters go through as they are
  else cursorPushByte c

/-- `cursor_push_jsonstr`. The loop runs to `int len = strlen(str)`. -/
def cursorPushJsonstr (str : CStr) : Push :=
  Push.all [cursorPushByte 34, Push.all (str.counted.map cursorPushEscapedChar), cursorPushByte 34]

/-- The loop both tag serialisers run: every item, and a separator after all but the last. -/
def pushSeparated {α : Type} (item : α → Push) (sep : Push) : List α → Push
  | [] => Push.all []
  | x :: rest =>
      Push.all [item x, if rest.isEmpty then Push.all [] else sep, pushSeparated item sep rest]

/-- `cursor_push_tag`. -/
def cursorPushTag (tag : NostrTag) : Push :=
  Push.all [cursorPushByte 91, pushSeparated cursorPushJsonstr (cursorPushByte 44) tag.strs,
    cursorPushByte 93]

/-- `cursor_push_tags`: undefined when the length of explicit tags is a negative `int`. -/
def cursorPushTags (ev : NostrEvent) (cur : Cursor) : Option (Bool × Cursor) :=
  match ev.explicitTags with
  | some tags => cursorPushStrLen tags cur
  | none =>
      some (Push.all [cursorPushByte 91,
        pushSeparated cursorPushTag (cursorPushStr (ascii ",")) ev.tags, cursorPushByte 93] cur)

/-- `snprintf` into a buffer of `size` bytes: the text, cut short to leave room for the
terminator. -/
def snprintf (size : Nat) (t : Bytes) : Bytes :=
  t.take (size - 1)

/-- `a && b`, where `b` may be undefined. -/
def andThen (run : Bool × Cursor) (m : Cursor → Option (Bool × Cursor)) : Option (Bool × Cursor) :=
  if run.1 then m run.2 else some run

/-- The pushes in front of the tags. -/
def frontPushes (ev : NostrEvent) : List Push :=
  let pubkey := hexText ev.pubkey.1
  let timebuf := snprintf 16 (decimal ev.createdAt.toNat)
  let kindbuf := snprintf 16 (signedDecimal ev.kind.toInt)
  [cursorPushStr (ascii "[0,\""), cursorPushStr pubkey, cursorPushStr (ascii "\","),
    cursorPushStr timebuf, cursorPushStr (ascii ","), cursorPushStr kindbuf,
    cursorPushStr (ascii ",")]

/-- `event_commitment`, as both files have it, with the push of the content: the returned length
and the buffer it leaves behind. -/
def commitWith (content : Push) (ev : NostrEvent) (buf : Mem) (buflen : Nat) :
    Option (Nat × Mem) := do
  let run := Push.all (frontPushes ev) (makeCursor buf 0 buflen)
  let run ← andThen run (cursorPushTags ev)
  let (ok, cur) ← andThen run fun cur =>
    some (Push.all [cursorPushStr (ascii ","), content, cursorPushStr (ascii "]")] cur)
  return (if ok then cursorLen cur else 0, cur.mem)

/-- `event_commitment`. -/
def eventCommitment (ev : NostrEvent) : Mem → Nat → Option (Nat × Mem) :=
  commitWith (cursorPushJsonstr ev.content) ev

/-- The size of the static buffer of `generate_event_id` and of the buffer of `print_event`. -/
def bufferSize : Nat :=
  102400

/-- `generate_event_id`, as both files have it: the id is left alone when the text does not fit. -/
def hashWith (content : Push) (sha256 : Bytes → Block 32) (ev : NostrEvent) :
    Option (Bool × NostrEvent) := do
  let (len, buf) ← commitWith content ev (fun _ => 0) bufferSize
  return if len = 0 then (false, ev) else (true, { ev with id := sha256 (buf.slice 0 len) })

/-- `generate_event_id`. -/
def generateEventId (sha256 : Bytes → Block 32) (ev : NostrEvent) : Option (Bool × NostrEvent) :=
  hashWith (cursorPushJsonstr ev.content) sha256 ev

/-! ## The texts they write -/

/-- A byte as it stands inside a string. -/
def escaped (c : UInt8) : Bytes :=
  if c = 34 then [92, 34]
  else if c = 92 then [92, 92]
  else if c = 8 then [92, 98]
  else if c = 12 then [92, 102]
  else if c = 10 then [92, 110]
  else if c = 13 then [92, 114]
  else if c = 9 then [92, 116]
  else [c]

/-- A string between quotation marks. -/
def quoted (s : Bytes) : Bytes :=
  34 :: (s.flatMap escaped ++ [34])

/-- A tag whose strings are read in some way. -/
def tagTextBy (read : CStr → Bytes) (tag : NostrTag) : Bytes :=
  bracketed (fun s => quoted (read s)) 91 44 93 tag.strs

/-- A tag. -/
def tagText : NostrTag → Bytes :=
  tagTextBy CStr.bytes

/-- The tag list, or the text the user gave in its place. -/
def tagsTextBy (read : CStr → Bytes) (ev : NostrEvent) : Bytes :=
  match ev.explicitTags with
  | some tags => read tags
  | none => bracketed (tagTextBy read) 91 44 93 ev.tags

/-- The tag list as `cursor_push_tags` writes it. -/
def tagsText : NostrEvent → Bytes :=
  tagsTextBy CStr.counted

/-- The first 15 digits of the time. -/
def timeText (t : UInt64) : Bytes :=
  snprintf 16 (decimal t.toNat)

/-- The text between `[0,"` and the content, given the texts of its parts. -/
def commitment (pubkey time kind tags content : Bytes) : Bytes :=
  ascii "[0,\"" ++ (pubkey ++ (ascii "\"," ++ (time ++ (ascii "," ++ (kind ++ (ascii "," ++
    (tags ++ (ascii "," ++ (content ++ ascii "]")))))))))

/-- The text of an event whose strings are read in some way. -/
def commitmentTextBy (read : CStr → Bytes) (ev : NostrEvent) : Bytes :=
  commitment (hexText ev.pubkey.1) (timeText ev.createdAt) (signedDecimal ev.kind.toInt)
    (tagsTextBy read ev) (quoted (read ev.content))

/-- The text `event_commitment` writes. -/
def commitmentText : NostrEvent → Bytes :=
  commitmentTextBy CStr.counted

/-- The text with every string whole. -/
def fullText : NostrEvent → Bytes :=
  commitmentTextBy CStr.bytes

/-- The strings that are serialised for the tags. -/
def NostrEvent.tagStrings (ev : NostrEvent) : List CStr :=
  match ev.explicitTags with
  | some tags => [tags]
  | none => ev.tags.flatMap NostrTag.strs

/-- No string that is serialised is too long for an `int`. -/
def NostrEvent.Short (ev : NostrEvent) : Prop :=
  ∀ s ∈ ev.content :: ev.tagStrings, s.strlen < 2 ^ 31

instance (ev : NostrEvent) : Decidable ev.Short :=
  inferInstanceAs (Decidable (∀ s ∈ _, _))

/-- Explicit tags do not have a negative length. -/
def NostrEvent.TagsDefined (ev : NostrEvent) : Prop :=
  ∀ tags ∈ ev.explicitTags, 0 ≤ tags.intLen.toInt

instance (ev : NostrEvent) : Decidable ev.TagsDefined :=
  inferInstanceAs (Decidable (∀ tags ∈ ev.explicitTags, _))

/-- Without explicit tags nothing can go wrong. -/
theorem tags_defined_of_none {ev : NostrEvent} (h : ev.explicitTags = none) : ev.TagsDefined := by
  intro tags htags
  rw [h] at htags
  cases htags

/-- A character is written with its escape. -/
theorem emits_push_escaped_char (c : UInt8) : Emits (cursorPushEscapedChar c) (escaped c) := by
  unfold cursorPushEscapedChar escaped
  split_ifs <;> first | exact emits_push_str _ | exact emits_push_byte c

/-- Pushes run over a list write the texts of its items. -/
theorem emits_map {α : Type} {f : α → Push} {g : α → Bytes} (h : ∀ x, Emits (f x) (g x))
    (xs : List α) : Emits (Push.all (xs.map f)) (xs.flatMap g) := by
  induction xs with
  | nil => exact emits_nil
  | cons x xs ih => exact (h x).cons ih

/-- A string is written as far as it is counted. -/
theorem emits_push_jsonstr (str : CStr) : Emits (cursorPushJsonstr str) (quoted str.counted) :=
  (emits_push_byte 34).cons ((emits_map emits_push_escaped_char str.counted).cons
    (emits_push_byte 34).single)

/-- Items are written with a separator between them. -/
theorem emits_separated {α : Type} {f : α → Push} {g : α → Bytes} {sep : Push} {s : UInt8}
    (hf : ∀ x, Emits (f x) (g x)) (hsep : Emits sep [s]) (xs : List α) :
    Emits (pushSeparated f sep xs) (separated g s xs) := by
  induction xs with
  | nil => exact emits_nil
  | cons x xs ih =>
      rw [separated_cons]
      refine (hf x).cons (Emits.cons ?_ ih.single)
      cases xs with
      | nil => exact emits_nil
      | cons y ys => exact hsep

/-- A tag is written as an array of its strings. -/
theorem emits_push_tag (tag : NostrTag) :
    Emits (cursorPushTag tag) (tagTextBy CStr.counted tag) :=
  (emits_push_byte 91).cons
    ((emits_separated emits_push_jsonstr (emits_push_byte 44) tag.strs).cons
      (emits_push_byte 93).single)

/-- The push of tags that are defined. -/
def tagsPush (ev : NostrEvent) : Push :=
  match ev.explicitTags with
  | some tags => cursorPushStr tags.counted
  | none =>
      Push.all [cursorPushByte 91, pushSeparated cursorPushTag (cursorPushStr (ascii ",")) ev.tags,
        cursorPushByte 93]

/-- Where tags are defined, `cursorPushTags` writes. -/
theorem cursor_push_tags_eq {ev : NostrEvent} (h : ev.TagsDefined) (cur : Cursor) :
    cursorPushTags ev cur = some (tagsPush ev cur) := by
  unfold cursorPushTags tagsPush
  cases htags : ev.explicitTags with
  | some tags => exact cursor_push_str_counted (h tags htags) cur
  | none => rfl

/-- Wherever the cursor stands, tags of a negative length cannot be pushed. -/
theorem cursor_push_tags_undefined {ev : NostrEvent} (h : ¬ ev.TagsDefined) {cur : Cursor}
    (hcur : cur.p ≤ cur.stop) : cursorPushTags ev cur = none := by
  unfold NostrEvent.TagsDefined at h
  push Not at h
  obtain ⟨tags, htags, hneg⟩ := h
  rw [cursorPushTags, show ev.explicitTags = some tags from htags]
  exact cursor_push_str_negative hneg hcur

/-- It writes their text. -/
theorem emits_push_tags (ev : NostrEvent) : Emits (tagsPush ev) (tagsText ev) := by
  unfold tagsPush tagsText tagsTextBy
  cases ev.explicitTags with
  | some tags => exact emits_push_str tags.counted
  | none =>
      exact (emits_push_byte 91).cons
        ((emits_separated emits_push_tag (emits_push_str [44]) ev.tags).cons
          (emits_push_byte 93).single)

/-- A kind never fills its buffer. -/
theorem kind_text_fits (kind : Int32) :
    snprintf 16 (signedDecimal kind.toInt) = signedDecimal kind.toInt := by
  have hlow := kind.le_toInt
  have hhigh := kind.toInt_lt
  refine List.take_of_length_le ?_
  cases hkind : kind.toInt with
  | ofNat n =>
      have hn : n < 10 ^ 15 := by
        rw [hkind, Int.ofNat_eq_natCast] at hhigh
        omega
      exact (length_decimal_le_iff (by omega)).mpr hn
  | negSucc n =>
      have hn : n + 1 < 10 ^ 14 := by
        rw [hkind, Int.negSucc_eq] at hlow
        omega
      have hlen : (decimal (n + 1)).length ≤ 14 := (length_decimal_le_iff (by omega)).mpr hn
      simp only [signedDecimal, List.length_cons]
      omega

/-! ## `event_commitment` and its text -/

/-- The pushes of `event_commitment`, when the tags are defined. -/
def commitPushes (content : Push) (ev : NostrEvent) : List Push :=
  (frontPushes ev ++ [tagsPush ev, cursorPushStr (ascii ","), content]) ++
    [cursorPushStr (ascii "]")]

/-- What stands in front of the tags. -/
def frontText (ev : NostrEvent) : Bytes :=
  ascii "[0,\"" ++ (hexText ev.pubkey.1 ++ (ascii "\"," ++ (timeText ev.createdAt ++
    (ascii "," ++ (signedDecimal ev.kind.toInt ++ ascii ",")))))

/-- What is in front of the content is written. -/
theorem emits_front (ev : NostrEvent) : Emits (Push.all (frontPushes ev)) (frontText ev) := by
  unfold frontPushes frontText
  rw [kind_text_fits]
  exact (emits_push_str _).cons ((emits_push_str _).cons ((emits_push_str _).cons
    ((emits_push_str _).cons ((emits_push_str _).cons ((emits_push_str _).cons
    (emits_push_str _).single)))))

/-- Everything in front of the tags has a place in the buffers of the program. -/
theorem front_text_room (ev : NostrEvent) : (frontText ev).length < bufferSize := by
  have htime : (timeText ev.createdAt).length ≤ 15 := by
    rw [timeText, snprintf, List.length_take]
    omega
  have hkind : (signedDecimal ev.kind.toInt).length ≤ 15 := by
    rw [← kind_text_fits, snprintf, List.length_take]
    omega
  have hpubkey : (hexText ev.pubkey.1).length = 64 := by rw [length_hex_text, ev.pubkey.2]
  have hliterals : (ascii "[0,\"").length = 4 ∧ (ascii "\",").length = 2 ∧
      (ascii ",").length = 1 := by decide
  simp only [frontText, List.length_append, hpubkey, hliterals, bufferSize]
  omega

/-- The text of an event, given that of its content. -/
def textWith (ev : NostrEvent) (content : Bytes) : Bytes :=
  commitment (hexText ev.pubkey.1) (timeText ev.createdAt) (signedDecimal ev.kind.toInt)
    (tagsText ev) content

/-- The text up to the content, and the closing bracket behind it. -/
theorem commitment_eq_concat (ev : NostrEvent) (content : Bytes) :
    textWith ev content =
      (frontText ev ++ (tagsText ev ++ (ascii "," ++ content))) ++ ascii "]" := by
  simp only [textWith, commitment, frontText, List.append_assoc]

section

variable {content : Push} {text : Bytes}

/-- Whatever writes the content, the pushes in front of the closing bracket write what stands in
front of it. -/
theorem emits_commitment_front (ev : NostrEvent) (hcontent : Emits content text) :
    Emits (Push.all (frontPushes ev ++ [tagsPush ev, cursorPushStr (ascii ","), content]))
      (frontText ev ++ (tagsText ev ++ (ascii "," ++ text))) := by
  have hback : Emits (Push.all [tagsPush ev, cursorPushStr (ascii ","), content])
      (tagsText ev ++ (ascii "," ++ text)) :=
    (emits_push_tags ev).cons ((emits_push_str _).cons hcontent.single)
  have happend : Push.all (frontPushes ev ++ [tagsPush ev, cursorPushStr (ascii ","), content]) =
      Push.all (frontPushes ev ++
        [Push.all [tagsPush ev, cursorPushStr (ascii ","), content]]) := by
    funext cur
    rw [push_all_append, push_all_append]
    rcases hrun : Push.all [tagsPush ev, cursorPushStr (ascii ","), content]
      (Push.all (frontPushes ev) cur).2 with ⟨ok, cur'⟩
    cases ok <;> simp only [Push.all] at hrun ⊢ <;> simp only [hrun]
  rw [happend]
  exact (emits_front ev).concat hback

/-- With the content it makes the commitment. -/
theorem emits_commit (ev : NostrEvent) (hcontent : Emits content text) :
    Emits (Push.all (commitPushes content ev)) (textWith ev text) := by
  rw [commitment_eq_concat]
  exact (emits_commitment_front ev hcontent).concat (emits_push_str _)

/-- With defined tags a commitment is a run of pushes. -/
theorem commit_with_eq {ev : NostrEvent} (htags : ev.TagsDefined) (content : Push) (buf : Mem)
    (buflen : Nat) :
    commitWith content ev buf buflen =
      let run := Push.all (commitPushes content ev) (makeCursor buf 0 buflen)
      some (if run.1 then cursorLen run.2 else 0, run.2.mem) := by
  rcases hfront : Push.all (frontPushes ev) (makeCursor buf 0 buflen) with ⟨ok, cur⟩
  cases ok with
  | false => simp [commitWith, commitPushes, push_all_append, hfront, andThen]
  | true =>
      rcases hpush : tagsPush ev cur with ⟨ok, cur'⟩
      cases ok <;> simp [commitWith, commitPushes, push_all_append, hfront, andThen,
        cursor_push_tags_eq htags, hpush, Push.all]

/-- With undefined tags it either stops in front of them or has no outcome. -/
theorem commit_with_undefined {ev : NostrEvent} (htags : ¬ ev.TagsDefined) (content : Push)
    (buf : Mem) (buflen : Nat) :
    commitWith content ev buf buflen =
      let run := Push.all (frontPushes ev) (makeCursor buf 0 buflen)
      if run.1 then none else some (0, run.2.mem) := by
  obtain ⟨done, -, hfit, hstate, -⟩ :=
    (emits_front ev).bounded (makeCursor buf 0 buflen) (Nat.zero_le buflen)
  rcases hfront : Push.all (frontPushes ev) (makeCursor buf 0 buflen) with ⟨ok, cur⟩
  cases ok with
  | false => simp [commitWith, hfront, andThen]
  | true =>
      rw [hfront] at hstate
      have hcur : cur.p ≤ cur.stop := by
        rw [show cur = _ from hstate]
        simpa [makeCursor] using hfit
      simp [commitWith, hfront, andThen, cursor_push_tags_undefined htags hcur]

/-- With room for the text and one byte more, the whole text is committed. -/
theorem commit_with_fits {ev : NostrEvent} (htags : ev.TagsDefined) (hcontent : Emits content text)
    (buf : Mem) {buflen : Nat} (hroom : (textWith ev text).length < buflen) :
    commitWith content ev buf buflen =
      some ((textWith ev text).length, buf.store 0 (textWith ev text)) := by
  have hrun := (emits_commit ev hcontent).fits (makeCursor buf 0 buflen)
    (by simpa [makeCursor] using hroom)
  rw [commit_with_eq htags]
  simp only [hrun]
  simp [cursorLen, makeCursor, Cursor.write]

/-- A call that reports a length had room for the text and one byte more, and has committed all of
it. -/
theorem commit_with_success {ev : NostrEvent} (hcontent : Emits content text) {buf mem : Mem}
    {buflen len : Nat} (h : commitWith content ev buf buflen = some (len, mem)) (hlen : len ≠ 0) :
    ev.TagsDefined ∧ (textWith ev text).length < buflen ∧ len = (textWith ev text).length ∧
      mem = buf.store 0 (textWith ev text) := by
  by_cases htags : ev.TagsDefined
  · have hrun := h
    rw [commit_with_eq htags] at hrun
    have hok : (Push.all (commitPushes content ev) (makeCursor buf 0 buflen)).1 = true := by
      by_contra hfail
      simp only [if_neg hfail, Option.some.injEq, Prod.mk.injEq] at hrun
      exact hlen hrun.1.symm
    have hroom := (emits_commitment_front ev hcontent).room_of_concat (t := ascii "]")
      (Nat.zero_le buflen) hok
    rw [← commitment_eq_concat] at hroom
    have hroom : (textWith ev text).length < buflen := by simpa [makeCursor] using hroom
    rw [commit_with_fits htags hcontent buf hroom] at h
    obtain ⟨rfl, rfl⟩ := Prod.mk.inj (Option.some.inj h)
    exact ⟨htags, hroom, rfl, rfl⟩
  · rw [commit_with_undefined htags] at h
    simp only at h
    split at h
    · cases h
    · exact absurd (Prod.mk.inj (Option.some.inj h)).1.symm hlen

/-- Without the room the call reports 0. -/
theorem commit_with_full {ev : NostrEvent} (htags : ev.TagsDefined) (hcontent : Emits content text)
    (buf : Mem) {buflen : Nat} (hfull : buflen ≤ (textWith ev text).length) :
    ∃ mem, commitWith content ev buf buflen = some (0, mem) := by
  obtain ⟨⟨len, mem⟩, hrun⟩ : ∃ run, commitWith content ev buf buflen = some run :=
    ⟨_, commit_with_eq htags content buf buflen⟩
  by_cases hlen : len = 0
  · exact ⟨mem, by rw [hrun, hlen]⟩
  · have hroom := (commit_with_success hcontent hrun hlen).2.1
    omega

/-- Whether or not the text fits, nothing behind the buffer is written. -/
theorem commit_with_outside {ev : NostrEvent} (hcontent : Emits content text) {buf mem : Mem}
    {buflen len : Nat} (h : commitWith content ev buf buflen = some (len, mem)) {i : Nat}
    (hi : buflen ≤ i) : mem i = buf i := by
  have hemits : ∀ {ms : List Push} {t : Bytes}, Emits (Push.all ms) t →
      (Push.all ms (makeCursor buf 0 buflen)).2.mem i = buf i := by
    intro ms t hms
    obtain ⟨done, -, hfit, hstate, -⟩ := hms.bounded (makeCursor buf 0 buflen) (Nat.zero_le buflen)
    rw [hstate]
    have hfit : 0 + done.length ≤ buflen := hfit
    exact Mem.store_outside buf 0 done (.inr (by omega))
  by_cases htags : ev.TagsDefined
  · rw [commit_with_eq htags] at h
    rw [← (Prod.mk.inj (Option.some.inj h)).2]
    exact hemits (emits_commit ev hcontent)
  · rw [commit_with_undefined htags] at h
    simp only at h
    split at h
    · cases h
    · rw [← (Prod.mk.inj (Option.some.inj h)).2]
      exact hemits (emits_front ev)

/-- The one thing that leaves `generate_event_id` without an outcome is a negative length of the
tags; otherwise it hashes the whole text when the text fits. -/
theorem hash_with_eq (sha256 : Bytes → Block 32) (ev : NostrEvent)
    (hcontent : Emits content text) :
    hashWith content sha256 ev =
      if ev.TagsDefined then
        some (if (textWith ev text).length < bufferSize then
          (true, { ev with id := sha256 (textWith ev text) }) else (false, ev))
      else none := by
  split
  · next htags =>
    split
    · next hroom =>
      have hne : (textWith ev text).length ≠ 0 := by simp [textWith, commitment, ascii]
      have hslice := Mem.slice_store (fun _ => 0) 0 (textWith ev text)
      rw [Nat.zero_add] at hslice
      simp [hashWith, commit_with_fits htags hcontent _ hroom, hne, hslice]
    · next hfull =>
      obtain ⟨mem, hrun⟩ := commit_with_full htags hcontent (fun _ => 0) (Nat.le_of_not_lt hfull)
      simp [hashWith, hrun]
  · next htags =>
    have hfront := (emits_front ev).fits (makeCursor (fun _ => 0) 0 bufferSize)
      (by simpa [makeCursor] using front_text_room ev)
    simp [hashWith, commit_with_undefined htags, hfront]

end

/-! ### Strings of any length -/

/-- What is left out of a string makes its text shorter. -/
theorem length_quoted_bytes (s : CStr) :
    (quoted s.bytes).length =
      (quoted s.counted).length + (s.uncounted.flatMap escaped).length := by
  rw [← s.counted_append_uncounted]
  simp [quoted]
  omega

/-- What is counted is no longer than the string. -/
theorem length_quoted_le (s : CStr) : (quoted s.counted).length ≤ (quoted s.bytes).length := by
  rw [length_quoted_bytes]
  omega

/-- Every byte takes a byte at least. -/
theorem length_le_escaped (t : Bytes) : t.length ≤ (t.flatMap escaped).length := by
  induction t with
  | nil => exact Nat.le_refl _
  | cons c t ih =>
      have hpos : 1 ≤ (escaped c).length := by
        unfold escaped
        split_ifs <;> simp
      rw [List.flatMap_cons, List.length_append, List.length_cons]
      omega

/-- Of a string of 2^31 bytes it is shorter. -/
theorem length_quoted_lt {s : CStr} (h : ¬ s.strlen < 2 ^ 31) :
    (quoted s.counted).length < (quoted s.bytes).length := by
  have hleft := length_le_escaped s.uncounted
  have hlen : s.counted.length + s.uncounted.length = s.strlen := by
    rw [← List.length_append, s.counted_append_uncounted, CStr.strlen]
  have hlt := CStr.length_counted_lt h
  rw [length_quoted_bytes]
  omega

/-- A tag as counted is no longer than in full. -/
theorem length_tag_text_le (tag : NostrTag) :
    (tagTextBy CStr.counted tag).length ≤ (tagTextBy CStr.bytes tag).length := by
  have hsep := length_separated_le (44 : UInt8) fun s (_ : s ∈ tag.strs) => length_quoted_le s
  simp only [tagTextBy, length_bracketed]
  omega

/-- With a long string it is shorter. -/
theorem length_tag_text_lt {tag : NostrTag} {s : CStr} (hs : s ∈ tag.strs)
    (h : ¬ s.strlen < 2 ^ 31) :
    (tagTextBy CStr.counted tag).length < (tagTextBy CStr.bytes tag).length := by
  have hsep := length_separated_lt (44 : UInt8) (fun s (_ : s ∈ tag.strs) => length_quoted_le s)
    hs (length_quoted_lt h)
  simp only [tagTextBy, length_bracketed]
  omega

/-- Tags as counted are no longer than in full. -/
theorem length_tags_text_le (ev : NostrEvent) :
    (tagsText ev).length ≤ (tagsTextBy CStr.bytes ev).length := by
  unfold tagsText tagsTextBy
  cases ev.explicitTags with
  | some tags => exact List.length_take_le' _ _
  | none =>
      have hsep := length_separated_le (44 : UInt8)
        fun tag (_ : tag ∈ ev.tags) => length_tag_text_le tag
      simp only [length_bracketed]
      omega

/-- With a long string they are shorter. -/
theorem length_tags_text_lt {ev : NostrEvent} {s : CStr} (hs : s ∈ ev.tagStrings)
    (h : ¬ s.strlen < 2 ^ 31) : (tagsText ev).length < (tagsTextBy CStr.bytes ev).length := by
  unfold NostrEvent.tagStrings at hs
  unfold tagsText tagsTextBy
  cases htags : ev.explicitTags with
  | some tags =>
      rw [htags] at hs
      obtain rfl := List.mem_singleton.mp hs
      exact CStr.length_counted_lt h
  | none =>
      rw [htags] at hs
      obtain ⟨tag, htag, hs⟩ := List.mem_flatMap.mp hs
      have hsep := length_separated_lt (44 : UInt8)
        (fun tag (_ : tag ∈ ev.tags) => length_tag_text_le tag) htag (length_tag_text_lt hs h)
      simp only [length_bracketed]
      omega

/-- The text that is written is no longer than the full text, and shorter when a string is cut. -/
theorem length_commitment_text_le (ev : NostrEvent) :
    (commitmentText ev).length ≤ (fullText ev).length := by
  have htags := length_tags_text_le ev
  have hcontent := length_quoted_le ev.content
  simp only [commitmentText, fullText, commitmentTextBy, commitment, List.length_append]
  simp only [tagsText] at htags
  omega

/-- And so is the commitment. -/
theorem length_commitment_text_lt {ev : NostrEvent} (h : ¬ ev.Short) :
    (commitmentText ev).length < (fullText ev).length := by
  have htags := length_tags_text_le ev
  have hcontent := length_quoted_le ev.content
  unfold NostrEvent.Short at h
  push Not at h
  obtain ⟨s, hs, hlong⟩ := h
  simp only [commitmentText, fullText, commitmentTextBy, commitment, List.length_append]
  rcases List.mem_cons.mp hs with rfl | hs
  · have hlt := length_quoted_lt (Nat.not_lt.mpr hlong)
    simp only [tagsText] at htags
    omega
  · have hlt := length_tags_text_lt hs (Nat.not_lt.mpr hlong)
    simp only [tagsText] at hlt
    omega

/-- Two readings of the strings that agree give one text. -/
theorem tags_text_by_congr {read read' : CStr → Bytes} {ev : NostrEvent}
    (h : ∀ s ∈ ev.tagStrings, read s = read' s) : tagsTextBy read ev = tagsTextBy read' ev := by
  unfold NostrEvent.tagStrings at h
  unfold tagsTextBy
  cases htags : ev.explicitTags with
  | some tags =>
      rw [htags] at h
      exact h tags (List.mem_singleton_self tags)
  | none =>
      rw [htags] at h
      have htag : ∀ tag ∈ ev.tags, tag.strs.map read = tag.strs.map read' := fun tag htag =>
        List.map_congr_left fun s hs => h s (List.mem_flatMap.mpr ⟨tag, htag, hs⟩)
      have hread : ∀ read : CStr → Bytes, bracketed (tagTextBy read) 91 44 93 ev.tags =
          bracketed (bracketed quoted 91 44 93) 91 44 93 (ev.tags.map (·.strs.map read)) := by
        intro read
        simp only [bracketed_map]
        rfl
      rw [hread, hread, List.map_congr_left htag]

/-- With tags that fit an `int`, the tags are written whole. -/
theorem tags_text_of_short {ev : NostrEvent} (h : ∀ s ∈ ev.tagStrings, s.strlen < 2 ^ 31) :
    tagsText ev = tagsTextBy CStr.bytes ev :=
  tags_text_by_congr fun s hs => CStr.counted_eq_iff.mpr (h s hs)

/-- With strings that fit an `int`, the full text is written. -/
theorem commitment_text_of_short {ev : NostrEvent} (h : ev.Short) :
    commitmentText ev = fullText ev := by
  obtain ⟨hcontent, htags⟩ := List.forall_mem_cons.mp h
  rw [commitmentText, fullText, commitmentTextBy, commitmentTextBy,
    CStr.counted_eq_iff.mpr hcontent, ← tagsText, tags_text_of_short htags]

/-- Short strings are never undefined. -/
theorem tags_defined_of_short {ev : NostrEvent} (h : ev.Short) : ev.TagsDefined := by
  intro tags htags
  have hlen : tags.strlen < 2 ^ 31 := by
    refine h tags (List.mem_cons_of_mem _ ?_)
    rw [NostrEvent.tagStrings, show ev.explicitTags = some tags from htags]
    exact List.mem_singleton_self tags
  rw [CStr.int_len_of_lt hlen]
  omega

/-! ### `event_commitment` and `generate_event_id` of `gnostr.c` -/

/-- The committed byte string of a call that reports a length. -/
def committed (ev : NostrEvent) (buf : Mem) (buflen : Nat) : Option Bytes :=
  match eventCommitment ev buf buflen with
  | some (len, mem) => if len = 0 then none else some (mem.slice 0 len)
  | none => none

/-- A commitment is not empty. -/
theorem commitment_text_ne_nil (ev : NostrEvent) : commitmentText ev ≠ [] := by
  simp [commitmentText, commitmentTextBy, commitment, ascii]

/-- A text is committed when the tags are defined and there is room for it and one byte more. -/
theorem committed_iff (ev : NostrEvent) (buf : Mem) (buflen : Nat) (t : Bytes) :
    committed ev buf buflen = some t ↔
      ev.TagsDefined ∧ (commitmentText ev).length < buflen ∧ t = commitmentText ev := by
  have hcontent := emits_push_jsonstr ev.content
  have hslice : (buf.store 0 (commitmentText ev)).slice 0 (commitmentText ev).length =
      commitmentText ev := by simpa using Mem.slice_store buf 0 (commitmentText ev)
  unfold committed
  constructor
  · intro h
    split at h
    · next len mem hrun =>
      split at h
      · cases h
      · next hlen =>
        obtain ⟨htags, hroom, rfl, rfl⟩ := commit_with_success hcontent hrun hlen
        exact ⟨htags, hroom, (Option.some.inj h).symm.trans hslice⟩
    · cases h
  · rintro ⟨htags, hroom, rfl⟩
    have hrun : eventCommitment ev buf buflen =
        some ((commitmentText ev).length, buf.store 0 (commitmentText ev)) :=
      commit_with_fits htags hcontent buf hroom
    have hlen : (commitmentText ev).length ≠ 0 := by simpa using commitment_text_ne_nil ev
    simp only [hrun, if_neg hlen, hslice]

/-- What `generate_event_id` does with an event. -/
theorem generate_event_id_run (sha256 : Bytes → Block 32) (ev : NostrEvent) :
    generateEventId sha256 ev =
      if ev.TagsDefined then
        some (if (commitmentText ev).length < bufferSize then
          (true, { ev with id := sha256 (commitmentText ev) }) else (false, ev))
      else none :=
  hash_with_eq sha256 ev (emits_push_jsonstr ev.content)

/-- With room for the text, the id is generated. -/
theorem generate_event_id_eq (sha256 : Bytes → Block 32) {ev : NostrEvent}
    (htags : ev.TagsDefined) (h : (commitmentText ev).length < bufferSize) :
    generateEventId sha256 ev = some (true, { ev with id := sha256 (commitmentText ev) }) := by
  rw [generate_event_id_run, if_pos htags, if_pos h]

/-- A call that succeeds had room for the text, and the id is its hash. -/
theorem generate_event_id_some {sha256 : Bytes → Block 32} {ev ev' : NostrEvent}
    (h : generateEventId sha256 ev = some (true, ev')) :
    ev.TagsDefined ∧ (commitmentText ev).length < bufferSize ∧
      ev' = { ev with id := sha256 (commitmentText ev) } := by
  rw [generate_event_id_run] at h
  split_ifs at h with htags hroom
  · exact ⟨htags, hroom, (Prod.mk.inj (Option.some.inj h)).2.symm⟩
  · cases congrArg Prod.fst (Option.some.inj h)

/-- The id is the hash of the commitment text. -/
theorem generate_event_id_success {sha256 : Bytes → Block 32} {ev ev' : NostrEvent}
    (h : generateEventId sha256 ev = some (true, ev')) :
    ev' = { ev with id := sha256 (commitmentText ev) } :=
  (generate_event_id_some h).2.2

/-- The full text is committed as a whole, and exactly when there is room for one byte more; the
event gets the hash of the full text or is left alone. The length of a buffer is an `int`. -/
structure AllOrNothing (sha256 : Bytes → Block 32) (ev : NostrEvent) : Prop where
  commits : ∀ (buf : Mem) (buflen : Nat), buflen < 2 ^ 31 →
    ∃ len mem, eventCommitment ev buf buflen = some (len, mem) ∧
      (len = (fullText ev).length ∧ mem.slice 0 (fullText ev).length = fullText ev ↔
        (fullText ev).length < buflen) ∧
      (len = 0 ↔ buflen ≤ (fullText ev).length) ∧
      ∀ i, buflen ≤ i → mem i = buf i
  refuses : generateEventId sha256 ev = some (false, ev) ↔ bufferSize ≤ (fullText ev).length
  hashes : generateEventId sha256 ev = some (true, { ev with id := sha256 (fullText ev) }) ↔
    (fullText ev).length < bufferSize

/-- A text that is the full one, or too long for every buffer, is committed as a whole. -/
theorem all_or_nothing_of_text (sha256 : Bytes → Block 32) {ev : NostrEvent}
    (htags : ev.TagsDefined)
    (htext : commitmentText ev = fullText ev ∨ 2 ^ 31 ≤ (commitmentText ev).length + 1) :
    AllOrNothing sha256 ev := by
  have hcontent := emits_push_jsonstr ev.content
  have hle := length_commitment_text_le ev
  have hne : (commitmentText ev).length ≠ 0 := by simpa using commitment_text_ne_nil ev
  have hsize : bufferSize = 102400 := rfl
  refine ⟨fun buf buflen hint => ?_, ?_, ?_⟩
  · by_cases hroom : (fullText ev).length < buflen
    · have heq : commitmentText ev = fullText ev := htext.resolve_right (by omega)
      have hrun : eventCommitment ev buf buflen =
          some ((fullText ev).length, buf.store 0 (fullText ev)) := by
        rw [← heq]
        exact commit_with_fits htags hcontent buf (by show (commitmentText ev).length < _; omega)
      have hslice := Mem.slice_store buf 0 (fullText ev)
      rw [Nat.zero_add] at hslice
      exact ⟨_, _, hrun, iff_of_true ⟨rfl, hslice⟩ hroom, iff_of_false (by omega) (by omega),
        fun i hi => commit_with_outside hcontent hrun hi⟩
    · have hfull : buflen ≤ (commitmentText ev).length := by
        rcases htext with heq | hlong
        · rw [heq]
          omega
        · omega
      obtain ⟨mem, hrun⟩ := commit_with_full htags hcontent buf hfull
      exact ⟨0, mem, hrun, iff_of_false (fun h => by omega) hroom, iff_of_true rfl (by omega),
        fun i hi => commit_with_outside hcontent hrun hi⟩
  · rw [generate_event_id_run, if_pos htags]
    split_ifs with hroom
    · refine iff_of_false (fun h => ?_) ?_
      · cases congrArg Prod.fst (Option.some.inj h)
      · have heq : commitmentText ev = fullText ev := htext.resolve_right (by omega)
        rw [← heq]
        omega
    · exact iff_of_true rfl (by omega)
  · rw [generate_event_id_run, if_pos htags]
    split_ifs with hroom
    · have heq : commitmentText ev = fullText ev := htext.resolve_right (by omega)
      rw [heq]
      exact iff_of_true rfl (heq ▸ hroom)
    · refine iff_of_false (fun h => ?_) (by omega)
      cases congrArg Prod.fst (Option.some.inj h)

/-- A string that is cut without being missed spoils it, and so do undefined tags. -/
theorem short_of_all_or_nothing {sha256 : Bytes → Block 32} {ev : NostrEvent}
    (h : AllOrNothing sha256 ev) :
    ev.Short ∨ ev.TagsDefined ∧ 2 ^ 31 ≤ (commitmentText ev).length + 1 := by
  by_contra hcond
  obtain ⟨hshort, hlong⟩ := not_or.mp hcond
  by_cases htags : ev.TagsDefined
  · -- a buffer with room for the cut text takes it for the full one
    have hlt := length_commitment_text_lt hshort
    have hint : (commitmentText ev).length + 1 < 2 ^ 31 :=
      Nat.lt_of_not_le fun h => hlong ⟨htags, h⟩
    obtain ⟨len, mem, hrun, -, hzero, -⟩ := h.commits (fun _ => 0) _ hint
    have hfits : eventCommitment ev (fun _ => 0) ((commitmentText ev).length + 1) = _ :=
      commit_with_fits htags (emits_push_jsonstr ev.content) (fun _ => 0) (Nat.lt_succ_self _)
    obtain ⟨rfl, -⟩ := Prod.mk.inj (Option.some.inj (hrun.symm.trans hfits))
    have hne : (commitmentText ev).length ≠ 0 := by simpa using commitment_text_ne_nil ev
    exact hne (hzero.mpr hlt)
  · obtain ⟨len, mem, hrun, -⟩ := h.commits (fun _ => 0) bufferSize (by decide)
    have hfront := (emits_front ev).fits (makeCursor (fun _ => 0) 0 bufferSize)
      (by simpa [makeCursor] using front_text_room ev)
    rw [eventCommitment, commit_with_undefined htags, hfront] at hrun
    cases hrun

/-- The text is all or nothing exactly when no string is too long for an `int`, or when what is
left of the strings still takes more than any buffer has. -/
theorem event_commitment_all_or_nothing_iff (sha256 : Bytes → Block 32) (ev : NostrEvent) :
    AllOrNothing sha256 ev ↔
      ev.Short ∨ ev.TagsDefined ∧ 2 ^ 31 ≤ (commitmentText ev).length + 1 := by
  constructor
  · exact short_of_all_or_nothing
  · rintro (hshort | ⟨htags, hlong⟩)
    · exact all_or_nothing_of_text sha256 (tags_defined_of_short hshort)
        (.inl (commitment_text_of_short hshort))
    · exact all_or_nothing_of_text sha256 htags (.inr hlong)

/-- A text note with one tag, at a given time. -/
def sampleNote (t : UInt64) (content : Bytes) : NostrEvent where
  id := .zeros 32
  pubkey := ⟨List.replicate 32 7, by simp⟩
  sig := .zeros 64
  content := CStr.ofBytes content
  createdAt := t
  kind := 1
  explicitTags := none
  tags := [⟨[CStr.ofBytes (ascii "t"), CStr.ofBytes (ascii "a,]\\b")]⟩]

/-- A note of `2 ^ 31` letters. -/
def endlessNote : NostrEvent :=
  { sampleNote 1688794190 [] with
    content := ⟨List.replicate (2 ^ 31) 97, fun h =>
      absurd (List.eq_of_mem_replicate h) (by decide)⟩ }

/-- No letter of it is read. -/
theorem counted_endless_note : endlessNote.content.counted = [] := by
  have hlen : endlessNote.content.strlen = 2 ^ 31 := List.length_replicate
  have hint : (Int32.ofNat (2 ^ 31)).toInt.toNat = 0 := by decide
  rw [CStr.counted, CStr.intLen, hlen, hint, List.take_zero]

/-- It is written like a note without content. -/
theorem commitment_text_endless_note :
    commitmentText endlessNote = commitmentText (sampleNote 1688794190 []) := by
  rw [commitmentText, commitmentTextBy, counted_endless_note]
  rfl

/-- It is committed to although it fits no buffer. -/
theorem endless_note_committed : ¬ ∀ (sha256 : Bytes → Block 32) (ev : NostrEvent),
    AllOrNothing sha256 ev := by
  intro h
  rcases short_of_all_or_nothing (h (fun _ => .zeros 32) endlessNote) with hshort | ⟨-, hlong⟩
  · have hlen := hshort endlessNote.content List.mem_cons_self
    rw [show endlessNote.content.strlen = 2 ^ 31 from List.length_replicate] at hlen
    exact absurd hlen (by decide)
  · rw [commitment_text_endless_note] at hlong
    have hroom : (commitmentText (sampleNote 1688794190 [])).length < 4096 := by decide +kernel
    omega

end Gnostr
