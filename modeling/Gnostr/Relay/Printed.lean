import Gnostr.Event.Print
import Gnostr.Relay.Answers
import Gnostr.Wire.JsonSound

/-!
# Printed events at the relay

A line of `gnostr --envelope` is sent to the relay as it is. `received_line` says what the relay
makes of it: the printed event when every string of it is escapable, no event at all when not,
since the escaper passes the other control characters on and no parser takes them.
`printed_run` follows a relay to which several programs send their lines.
-/

namespace Gnostr.Relay

open Wire

/-- The event of a printed line, as the relay keeps it. The time is read into a `std::time_t`. -/
def relayed (ev : NostrEvent) : EventT where
  id := hexText ev.id.1
  pubkey := hexText ev.pubkey.1
  createdAt := ev.createdAt.toInt64
  kind := ev.kind
  tags := ev.tags.map fun tag => tag.strs.map CStr.bytes
  content := ev.content.bytes
  sig := hexText ev.sig.1

/-- Every string of the event is escapable. -/
def Legible (ev : NostrEvent) : Prop :=
  ∀ s ∈ ev.strings, Escapable s.bytes

instance (s : Bytes) : Decidable (Escapable s) :=
  inferInstanceAs (Decidable (∀ b ∈ s, _))

instance (ev : NostrEvent) : Decidable (Legible ev) :=
  inferInstanceAs (Decidable (∀ s ∈ ev.strings, _))

/-- A line `print_event` printed for the relay: the tags of the event were given one by one, and
its strings are UTF-8 and not too long for an `int`. -/
structure Line where
  ev : NostrEvent
  text : Bytes
  tags : ev.explicitTags = none
  short : ev.Short
  utf8 : ∀ s ∈ ev.strings, Utf8 s.bytes
  printed : printEvent ev true = some (true, text)

/-- The text of a line is the printed event. -/
theorem Line.text_eq (l : Line) : l.text = (Gnostr.printed l.ev).line true :=
  (print_event_success l.printed).2.2

/-- A line is text, so no parser takes a byte of it for the end of its input. -/
theorem Line.nul_not_mem (l : Line) : 0 ∉ l.text := by
  have hhex : ∀ buf : Bytes, 0 ∉ hexText buf := fun buf hmem =>
    absurd (mem_hex_text hmem).1 (by decide)
  have hdecimal : ∀ n : Nat, 0 ∉ decimal n := fun n hmem =>
    absurd (is_digit_of_mem_decimal hmem) (by decide)
  have hkind : 0 ∉ signedDecimal l.ev.kind.toInt := by
    cases l.ev.kind.toInt with
    | ofNat n => exact hdecimal n
    | negSucc n => simp [signedDecimal, hdecimal]
  have htags := nul_not_mem_tags_text l.ev
  have hcontent := nul_not_mem_quoted l.ev.content.nul_not_mem_counted
  rw [l.text_eq]
  simp [Gnostr.Printed.line, Gnostr.Printed.front, Gnostr.Printed.back, Gnostr.printed, hhex,
    hdecimal, hkind, htags, hcontent, ascii]

/-! ## What is parsed -/

/-- The object the relay reads out of a printed line. -/
def relayedJson (ev : NostrEvent) : Json :=
  .obj [(ascii "content", .str ev.content.bytes), (ascii "created_at", .int ev.createdAt.toNat),
    (ascii "id", .str (hexText ev.id.1)), (ascii "kind", .int ev.kind.toInt),
    (ascii "pubkey", .str (hexText ev.pubkey.1)), (ascii "sig", .str (hexText ev.sig.1)),
    (ascii "tags", .arr ((relayed ev).tags.map stringsJson))]

/-- The tags are printed as the relay has them. -/
theorem tags_json_eq (ev : NostrEvent) :
    ev.tags.map (fun tag => Json.arr (tag.strs.map fun s => .str s.bytes)) =
      (relayed ev).tags.map stringsJson := by
  simp [relayed, stringsJson, Function.comp_def]

/-- A time fits into a word. -/
theorem is_word_created_at (t : UInt64) : Json.isWord t.toNat = true := by
  have hlt := t.toNat_lt
  simp only [Json.isWord, Bool.and_eq_true, decide_eq_true_eq]
  omega

/-- So does a kind. -/
theorem is_word_kind (kind : Int32) : Json.isWord kind.toInt = true := by
  have hle := kind.le_toInt
  have hlt := kind.toInt_lt
  simp only [Json.isWord, Bool.and_eq_true, decide_eq_true_eq]
  omega

/-- What is printed can be stored. -/
theorem is_storable_relayed (ev : NostrEvent) : (relayedJson ev).isStorable = true := by
  have hsorted : [ascii "content", ascii "created_at", ascii "id", ascii "kind", ascii "pubkey",
      ascii "sig", ascii "tags"].Pairwise (· < ·) := by decide
  rw [relayedJson, Json.is_storable_obj]
  exact ⟨hsorted, by simp [is_word_created_at, is_word_kind, is_storable_strings]⟩

/-- The parser sorts the members. -/
theorem normalise_line (ev : NostrEvent) :
    (lineJson ev true).normalise = .arr [.str (ascii "EVENT"), relayedJson ev] := by
  have htags := Json.normalise_items_storable ((relayed ev).tags.map stringsJson)
    (by simp [is_storable_strings])
  rw [lineJson, if_pos rfl, eventJson, tags_json_eq]
  simp +decide [Json.normalise, Json.normaliseItems, Json.normaliseMembers, Json.insert, htags,
    is_word_created_at, is_word_kind, relayedJson]

/-- Hexadecimal digits are UTF-8. -/
theorem utf8_hex_text (t : Bytes) : Wire.Utf8 (hexText t) :=
  Json.utf8_plain (is_plain_hex_text t)

/-- The event is UTF-8 when its strings are. -/
theorem utf8_relayed {ev : NostrEvent} (hutf8 : ∀ s ∈ ev.strings, Wire.Utf8 s.bytes) :
    (relayed ev).Utf8 where
  id := utf8_hex_text _
  pubkey := utf8_hex_text _
  tags tag htag t ht := by
    obtain ⟨tag', htag', rfl⟩ := List.mem_map.mp htag
    obtain ⟨s, hs, rfl⟩ := List.mem_map.mp ht
    exact hutf8 s (List.mem_cons_of_mem _ (List.mem_flatMap.mpr ⟨tag', htag', hs⟩))
  content := hutf8 _ List.mem_cons_self
  sig := utf8_hex_text _

/-- So is its object. -/
theorem is_utf8_relayed {ev : NostrEvent} (hutf8 : ∀ s ∈ ev.strings, Wire.Utf8 s.bytes) :
    (relayedJson ev).isUtf8 = true := by
  have hev := utf8_relayed hutf8
  have htags : ∀ tag ∈ (relayed ev).tags, (stringsJson tag).isUtf8 = true := fun tag htag => by
    simpa [stringsJson] using hev.tags tag htag
  have hnames : [ascii "content", ascii "created_at", ascii "id", ascii "kind", ascii "pubkey",
      ascii "sig", ascii "tags"].all fun t => Wire.Utf8 t := by decide
  simp only [List.all_cons, List.all_nil, Bool.and_true, Bool.and_eq_true,
    decide_eq_true_eq] at hnames
  rw [relayedJson]
  simpa [hnames, utf8_hex_text, show Wire.Utf8 ev.content.bytes from hev.content] using htags

/-- Times are converted as the language does it. -/
theorem of_int_to_nat (t : UInt64) : Int64.ofInt t.toNat = t.toInt64 := by
  apply Int64.toBitVec_inj.mp
  simp [Int64.toBitVec_ofInt]

/-- The conversion finds the seven members. -/
theorem reads_relayed (lib : JsonLib) (ev : NostrEvent) :
    Reads lib (relayedJson ev) (relayed ev) := by
  have htags := get_tags_json (relayed ev).tags
  have htime : (relayed ev).createdAt = ev.createdAt.toInt64 := rfl
  have hkind : (relayed ev).kind = ev.kind := rfl
  rw [relayedJson]
  constructor <;> simp +decide [Json.member, Json.toStr, getTime, getInt, Json.toNumber,
    Json.toArithmetic, List.find?_cons_of_neg, htags, htime, hkind, of_int_to_nat]
  all_goals rfl

/-! ## One line -/

/-- A legible line is parsed. -/
theorem parse_line {lib : JsonLib} (hconforms : lib.Conforms) (l : Line) (h : Legible l.ev) :
    lib.parse l.text = some (.arr [.str (ascii "EVENT"), relayedJson l.ev]) := by
  have htext := text_line true l.tags l.short h l.utf8
  have hname : Wire.Utf8 (ascii "EVENT") := by decide
  rw [← l.text_eq] at htext
  have hparse := hconforms.parse_text htext
  rw [normalise_line] at hparse
  exact hparse (by simp [is_storable_relayed]) (by simp [hname, is_utf8_relayed l.utf8])

/-- A control character the escaper leaves alone stands in the line. -/
theorem legible_of_all_legal {l : Line} (h : Json.AllLegal l.text) : Legible l.ev := by
  intro s hs b hb
  have hshort : s.strlen < 2 ^ 31 := l.short s (by rwa [← strings_eq l.tags])
  rw [← CStr.counted_eq_iff.mpr hshort] at hb
  by_cases hescaped : escaped b = [b]
  · have hmem := mem_line true l.tags hs hb hescaped
    rw [← l.text_eq] at hmem
    rcases h b hmem with hle | hws
    · exact .inl hle
    · simp only [Json.isWs, Bool.or_eq_true, decide_eq_true_eq] at hws
      rcases hws with ((rfl | rfl) | rfl) | rfl <;> simp
  · unfold escaped at hescaped
    split_ifs at hescaped <;> simp_all

/-- Any other line is not parsed. -/
theorem parse_line_none {lib : JsonLib} (hconforms : lib.Conforms) (l : Line)
    (h : ¬ Legible l.ev) : lib.parse l.text = none := by
  cases hparse : lib.parse l.text with
  | none => rfl
  | some v =>
      exact absurd (legible_of_all_legal (hconforms.parse_legal l.nul_not_mem hparse)) h

/-- A legible line is accepted, with the printed event. -/
theorem parse_client_event_line {lib : JsonLib} (hconforms : lib.Conforms) (l : Line)
    (h : Legible l.ev) (ev : EventT) :
    parseClientEvent lib l.text ev = (0, relayed l.ev) := by
  have hread := read_message_eq (parse_line hconforms l h)
  have hconvert : fromJson lib (relayedJson l.ev) ev = (true, relayed l.ev) :=
    from_json_iff.mpr (reads_relayed lib l.ev)
  simp [parseClientEvent, hread, Json.element, hconvert, status]

/-- A line is an `EVENT` message when it can be read, and unknown otherwise. -/
theorem message_type_line {lib : JsonLib} (hconforms : lib.Conforms) (l : Line) :
    getMessageType lib l.text = if Legible l.ev then .event else .unknown := by
  split
  · next h => simp [getMessageType, read_message_eq (parse_line hconforms l h)]
  · next h => simp [getMessageType, readMessage, parse_line_none hconforms l h]

/-- The relay receives the printed event or nothing. -/
theorem received_line {lib : JsonLib} (hconforms : lib.Conforms) (now : Int64) (l : Line) :
    received lib (now, l.text) = if Legible l.ev then some (relayed l.ev) else none := by
  rw [received, message_type_line hconforms]
  by_cases h : Legible l.ev
  · simp [h, parse_client_event_line hconforms l h]
  · simp [h]

/-- What a line is answered with. -/
def lineAnswer (ev : NostrEvent) : Json :=
  if Legible ev then .arr [.str (ascii "EOSE"), .str (hexText ev.id.1)]
  else .arr [.str (ascii "NOTICE"), .str (ascii "Error")]

/-- What it is answered with does not depend on the rest. -/
theorem make_response_line {lib : JsonLib} (hconforms : lib.Conforms) (now : Int64) (l : Line)
    (w : World) : (makeResponse lib now l.text w).1 = lib.dump none (lineAnswer l.ev) := by
  have htype := message_type_line hconforms l
  rw [lineAnswer]
  by_cases h : Legible l.ev
  · rw [if_pos h] at htype ⊢
    obtain ⟨hanswer, -, -⟩ := make_response_event w htype
      (congrArg Prod.snd (parse_client_event_line hconforms l h (EventT.new now)))
    exact hanswer
  · rw [if_neg h] at htype ⊢
    obtain ⟨w', -, -, hanswer, -, -⟩ := make_response_eq lib now l.text w
    rw [hanswer]
    simp [respond, htype]

/-! ## Many lines -/

/-- The events of the legible lines. -/
def legible (ls : List (Int64 × Line)) : List EventT :=
  (ls.filter fun l => Legible l.2.ev).map fun l => relayed l.2.ev

/-- The messages of lines. -/
def messages (ls : List (Int64 × Line)) : List (Int64 × Bytes) :=
  ls.map fun l => (l.1, l.2.text)

/-- The relay receives the lines that can be read. -/
theorem received_messages {lib : JsonLib} (hconforms : lib.Conforms) (ls : List (Int64 × Line)) :
    (messages ls).filterMap (received lib) = legible ls := by
  induction ls with
  | nil => rfl
  | cons l ls ih =>
      have hl := received_line hconforms l.1 l.2
      rw [messages, legible] at ih
      by_cases h : Legible l.2.ev
      · rw [if_pos h] at hl
        simp [messages, legible, hl, h, ih]
      · rw [if_neg h] at hl
        simp [messages, legible, hl, h, ih]

/-- Of a list in memory and in a file, what is found first in the one is found first in the
other. -/
theorem Copies.find_run {α : Type} {c : Copies α} {p : α → Bool}
    (h : c.file.find? p = c.memory.find? p) (xs : List α) :
    (xs.foldl receive c).file.find? p = (xs.foldl receive c).memory.find? p := by
  induction xs generalizing c with
  | nil => exact h
  | cons x xs ih =>
      refine ih ?_
      simp only [receive, List.find?_append, h]
      cases c.memory.find? p <;> simp

/-- A relay that has received these events: they are in memory, and the file answers every query
for a first event as they do. -/
structure Tracks (lib : JsonLib) (events : List EventT) (w : World) : Prop where
  memory : w.database = events
  finds : ∀ p : EventT → Bool, (read lib w.disk.databaseJson).find? p = events.find? p
  utf8 : w.Utf8

/-- At the start the relay holds what is in its file. -/
theorem tracks_relay_t {lib : JsonLib} (hlib : lib.Lawful) (disk : Disk) :
    Tracks lib (read lib disk.databaseJson) (relayT lib disk) where
  memory := rfl
  finds _ := rfl
  utf8 := World.Utf8.relay_t hlib disk

/-- A message adds the event it brings. -/
theorem Tracks.step {lib : JsonLib} (hlib : lib.Lawful) {events : List EventT} {w : World}
    (h : Tracks lib events w) (m : Int64 × Bytes) :
    Tracks lib (events ++ (received lib m).toList) (makeResponse lib m.1 m.2 w).2 := by
  obtain ⟨hcopies, hutf8⟩ := copies_step hlib h.utf8 m
  have hmemory := congrArg Copies.memory hcopies
  have hstart : (w.copies lib).memory = events := h.memory
  rw [Copies.memory_run, hstart] at hmemory
  refine ⟨hmemory, fun p => ?_, hutf8⟩
  have hfind := Copies.find_run (c := w.copies lib) (p := p)
    ((h.finds p).trans (congrArg (List.find? p) hstart.symm)) (received lib m).toList
  rw [← hcopies] at hfind
  exact hfind.trans (congrArg (List.find? p) hmemory)

/-- So do messages in a row. -/
theorem Tracks.run {lib : JsonLib} (hlib : lib.Lawful) {events : List EventT} {w : World}
    (h : Tracks lib events w) (msgs : List (Int64 × Bytes)) :
    Tracks lib (events ++ msgs.filterMap (received lib)) (run lib w msgs) := by
  induction msgs generalizing events w with
  | nil => simpa [Relay.run] using h
  | cons m msgs ih =>
      have hrest := ih (h.step hlib m)
      cases hm : received lib m with
      | none => simpa [Relay.run, hm] using hrest
      | some ev => simpa [Relay.run, hm] using hrest

/-- The strings of a sample event are UTF-8 when its content is. -/
theorem utf8_sample_strings {content : Bytes} (h : Wire.Utf8 (CStr.ofBytes content).bytes)
    (t : UInt64) : ∀ s ∈ (sampleNote t content).strings, Wire.Utf8 s.bytes := by
  have htag : [CStr.ofBytes (ascii "t"), CStr.ofBytes (ascii "a,]\\b")].all
      fun s => Wire.Utf8 s.bytes := by decide
  intro s hs
  rcases List.mem_cons.mp hs with rfl | hs
  · exact h
  · simp only [sampleNote, List.flatMap_cons, List.flatMap_nil, List.append_nil] at hs
    simpa using List.all_eq_true.mp htag s hs

/-- The content `hello` is UTF-8. -/
theorem utf8_hello : Wire.Utf8 (CStr.ofBytes (ascii "hello")).bytes := by
  decide

/-- The sample event is printed. -/
theorem print_hello : printEvent (sampleNote 1688794190 (ascii "hello")) true =
    some (true, (Gnostr.printed (sampleNote 1688794190 (ascii "hello"))).line true) :=
  print_event_eq _ true (tags_defined_of_none rfl) (by decide +kernel) (by decide +kernel)

/-- The line of a note. -/
def helloLine : Line where
  ev := sampleNote 1688794190 (ascii "hello")
  text := (Gnostr.printed (sampleNote 1688794190 (ascii "hello"))).line true
  tags := rfl
  short := by decide +kernel
  utf8 := utf8_sample_strings utf8_hello 1688794190
  printed := print_hello

/-- The bell character is UTF-8. -/
theorem utf8_bell : Wire.Utf8 (CStr.ofBytes [7]).bytes := by
  decide

/-- An event with it is printed. -/
theorem print_bell : printEvent (sampleNote 1688794191 [7]) true =
    some (true, (Gnostr.printed (sampleNote 1688794191 [7])).line true) :=
  print_event_eq _ true (tags_defined_of_none rfl) (by decide +kernel) (by decide +kernel)

/-- The line of a note that rings a bell. -/
def bellLine : Line where
  ev := sampleNote 1688794191 [7]
  text := (Gnostr.printed (sampleNote 1688794191 [7])).line true
  tags := rfl
  short := by decide +kernel
  utf8 := utf8_sample_strings utf8_bell 1688794191
  printed := print_bell

end Gnostr.Relay
