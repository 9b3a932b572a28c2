import Gnostr.Relay.Event

/-!
# The database file

`src/database.cc`: the relay keeps its events as one JSON array in `database.json`. A file is the
text it holds, or nothing when there is none; opening, reading and writing do not fail. `read`
answers with no events at all when the text is not an array of events. `save` and `append` dump
the array before they open the file, so a string that is not UTF-8 leaves the file as it was.

`request_eq` says what a query selects, and `parse_well_formed_request` what it selects for a whole
`REQ` message: only the authors of its first filter count.
-/

namespace Gnostr.Relay

open Wire

/-- The JSON of a list of events. -/
def eventsJson (events : List EventT) : Json :=
  .arr (events.map toJson)

/-- `database::read`. -/
def read (lib : JsonLib) (file : Option Bytes) : List EventT :=
  match file >>= lib.parse >>= Json.toList (getEvent lib) with
  | some database => database
  | none => []

/-- `database::save`: the status and the file. -/
def save (lib : JsonLib) (database : List EventT) (file : Option Bytes) : Int × Option Bytes :=
  match lib.dump (some 2) (eventsJson database) with
  | some json => (0, some json)
  | none => (-1, file)

/-- `database::append`: the events are pushed one by one behind those of the file. -/
def append (lib : JsonLib) (events : List EventT) (file : Option Bytes) : Int × Option Bytes :=
  let database := events.foldl (fun database ev => database ++ [ev]) (read lib file)
  save lib database file

/-- The inner loop of `database::request`: the event is added at the first author that is its
key, and the loop is left. -/
def matchAuthors (ev : EventT) (events : List EventT) : List Bytes → List EventT
  | [] => events
  | author :: authors =>
      if ev.pubkey = author then events ++ [ev] else matchAuthors ev events authors

/-- The outer loop of `database::request`. -/
def queryLoop (authors : List Bytes) (events : List EventT) : List EventT → List EventT
  | [] => events
  | ev :: database => queryLoop authors (matchAuthors ev events authors) database

/-- `database::request`. -/
def request (lib : JsonLib) (filter : FilterT) (file : Option Bytes) : List EventT :=
  queryLoop filter.authors [] (read lib file)

/-! ## Reading what was written -/

/-- Events are read back from their array. -/
theorem to_list_events (lib : JsonLib) (events : List EventT) :
    (eventsJson events).toList (getEvent lib) = some events := by
  simp only [eventsJson, Json.toList]
  induction events with
  | nil => rfl
  | cons ev events ih => simp [List.mapM_cons, get_event_to_json, ih]

/-- Events can be stored. -/
theorem is_storable_events (events : List EventT) : (eventsJson events).isStorable = true := by
  simp [eventsJson, is_storable_to_json]

/-- The events a file holds, or nothing when its text is not an array of events. -/
def stored (lib : JsonLib) (file : Option Bytes) : Option (List EventT) :=
  file >>= lib.parse >>= Json.toList (getEvent lib)

/-- Reading a file gives what is stored in it. -/
theorem read_eq (lib : JsonLib) (file : Option Bytes) :
    read lib file = (stored lib file).getD [] := by
  unfold read stored
  split
  · next database hread => rw [hread, Option.getD_some]
  · next hnone => rw [hnone, Option.getD_none]

/-- Events of UTF-8 texts make a UTF-8 array. -/
theorem EventT.Utf8.events_json {events : List EventT} (h : ∀ ev ∈ events, ev.Utf8) :
    (eventsJson events).isUtf8 = true := by
  simpa [eventsJson] using fun ev hev => (h ev hev).to_json

/-- Events whose strings are UTF-8 are dumped, and a file with the text holds them. -/
theorem dump_events {lib : JsonLib} (hlib : lib.Lawful) {events : List EventT}
    (h : ∀ ev ∈ events, ev.Utf8) :
    ∃ json, lib.dump (some 2) (eventsJson events) = some json ∧
      stored lib (some json) = some events := by
  obtain ⟨json, hdump⟩ := hlib.dump_utf8 (some 2) (EventT.Utf8.events_json h)
  have hparse := hlib.round_trip (is_storable_events events) hdump
  exact ⟨json, hdump, by simp [stored, hparse, to_list_events]⟩

/-- Events whose strings are UTF-8 are saved, and the file holds them. -/
theorem stored_save {lib : JsonLib} (hlib : lib.Lawful) {events : List EventT}
    (h : ∀ ev ∈ events, ev.Utf8) (file : Option Bytes) :
    ∃ json, save lib events file = (0, some json) ∧ stored lib (some json) = some events := by
  obtain ⟨json, hdump, hstored⟩ := dump_events hlib h
  exact ⟨json, by simp [save, hdump], hstored⟩

/-- Events whose strings are UTF-8 are saved, and reading the file gives them back. -/
theorem read_save {lib : JsonLib} (hlib : lib.Lawful) {events : List EventT}
    (h : ∀ ev ∈ events, ev.Utf8) (file : Option Bytes) :
    ∃ json, save lib events file = (0, some json) ∧ read lib (some json) = events := by
  obtain ⟨json, hsave, hstored⟩ := stored_save hlib h file
  exact ⟨json, hsave, by rw [read_eq, hstored, Option.getD_some]⟩

/-- Whatever the file holds, the events read from it are UTF-8. -/
theorem EventT.Utf8.read {lib : JsonLib} (hlib : lib.Lawful) (file : Option Bytes) :
    ∀ ev ∈ read lib file, ev.Utf8 := by
  intro ev hev
  unfold Relay.read at hev
  split at hev
  · next database hread =>
    obtain ⟨js, hjs, hlist⟩ := Option.bind_eq_some_iff.mp hread
    obtain ⟨text, -, hparse⟩ := Option.bind_eq_some_iff.mp hjs
    obtain ⟨j, hj, hget⟩ := Json.of_mem_to_list hlist hev (hlib.parse_utf8 hparse)
    exact EventT.Utf8.get_event hj hget
  · exact absurd hev List.not_mem_nil

/-- Pushing events one by one appends them. -/
theorem push_all (events database : List EventT) :
    events.foldl (fun database ev => database ++ [ev]) database = database ++ events := by
  induction events generalizing database with
  | nil => simp
  | cons ev events ih => simp [ih]

/-- Appending UTF-8 events puts them behind those that can be read from the file. -/
theorem stored_append {lib : JsonLib} (hlib : lib.Lawful) {events : List EventT}
    (h : ∀ ev ∈ events, ev.Utf8) (file : Option Bytes) :
    ∃ json, append lib events file = (0, some json) ∧
      stored lib (some json) = some (read lib file ++ events) := by
  have hall : ∀ ev ∈ read lib file ++ events, ev.Utf8 := fun ev hev => by
    rcases List.mem_append.mp hev with hev | hev
    · exact EventT.Utf8.read hlib file ev hev
    · exact h ev hev
  rw [append, push_all]
  exact stored_save hlib hall file

/-- What was appended is read back behind the rest. -/
theorem read_append {lib : JsonLib} (hlib : lib.Lawful) {events : List EventT}
    (h : ∀ ev ∈ events, ev.Utf8) (file : Option Bytes) :
    ∃ json, append lib events file = (0, some json) ∧
      read lib (some json) = read lib file ++ events := by
  obtain ⟨json, happend, hstored⟩ := stored_append hlib h file
  exact ⟨json, happend, by rw [read_eq, hstored, Option.getD_some]⟩

/-! ## Queries -/

/-- An event is taken when its author is listed. -/
theorem match_authors_eq (ev : EventT) (events : List EventT) (authors : List Bytes) :
    matchAuthors ev events authors = if ev.pubkey ∈ authors then events ++ [ev] else events := by
  induction authors with
  | nil => simp [matchAuthors]
  | cons author authors ih =>
      by_cases hauthor : ev.pubkey = author
      · simp [matchAuthors, hauthor]
      · simp [matchAuthors, hauthor, ih]

/-- The loop takes the events whose authors are listed. -/
theorem query_loop_eq (authors : List Bytes) (events database : List EventT) :
    queryLoop authors events database =
      events ++ database.filter fun ev => ev.pubkey ∈ authors := by
  induction database generalizing events with
  | nil => simp [queryLoop]
  | cons ev database ih =>
      rw [queryLoop, ih, match_authors_eq]
      by_cases hev : ev.pubkey ∈ authors
      · simp [hev]
      · simp [hev]

/-- A query selects the stored events whose key is one of the authors. -/
theorem request_eq (lib : JsonLib) (filter : FilterT) (file : Option Bytes) :
    request lib filter file = (read lib file).filter fun ev => ev.pubkey ∈ filter.authors := by
  simp [request, query_loop_eq]

/-- The filter object can be converted: every attribute it has is of its type. -/
def WellFormedFilter (lib : JsonLib) (f : Json) : Prop :=
  ∀ now, (filterFromJson lib f (FilterT.new now)).1 = true

/-- The `authors` attribute of a filter object, empty when there is none. -/
def authorsOf (f : Json) : List Bytes :=
  ((f.member (ascii "authors")).bind getStrings).getD []

/-- An optional field is absent, or it is read. -/
theorem optional_some {α β : Type} {j : Json} {key : String} {get : Json → Option β}
    {set : α → β → α} {s s' : α} (h : optional key get set j s = some s') :
    (j.member (ascii key) = none ∧ s' = s) ∨
      ∃ x, (j.member (ascii key)).bind get = some x ∧ s' = set s x := by
  unfold optional at h
  split at h
  · next hnone => exact .inl ⟨hnone, (Option.some.inj h).symm⟩
  · next v hsome =>
    obtain ⟨x, hx, hset⟩ := Option.map_eq_some_iff.mp h
    exact .inr ⟨x, by simpa [hsome] using hx, hset.symm⟩

/-- Fields are read one behind the other. -/
theorem assign_all_cons {α : Type} {j : Json} {f : Assign α} {fs : List (Assign α)} {s s' : α}
    (h : assignAll j (f :: fs) s = (true, s')) :
    ∃ s₁, f j s = some s₁ ∧ assignAll j fs s₁ = (true, s') := by
  cases hf : f j s with
  | none => simp [assignAll, hf] at h
  | some s₁ => exact ⟨s₁, rfl, by simpa [assignAll, hf] using h⟩

/-- A converted filter has the authors of the object. -/
theorem filter_from_json_authors {lib : JsonLib} {f : Json} {now : Int64} {filter : FilterT}
    (h : filterFromJson lib f (FilterT.new now) = (true, filter)) :
    filter.authors = authorsOf f := by
  obtain ⟨s₁, hids, h⟩ := assign_all_cons h
  obtain ⟨s₂, hauthors, h⟩ := assign_all_cons h
  have hfirst : s₁.authors = [] := by
    rcases optional_some hids with ⟨-, rfl⟩ | ⟨x, -, rfl⟩ <;> rfl
  have hsecond : s₂.authors = authorsOf f := by
    rcases optional_some hauthors with ⟨hnone, rfl⟩ | ⟨x, hx, rfl⟩
    · simp [authorsOf, hnone, hfirst]
    · simp [authorsOf, hx]
  -- the other six assignments leave the authors alone
  have hlast : filter = (assignAll f _ s₂).2 := (congrArg Prod.snd h).symm
  rw [hlast]
  refine assign_all_preserves (P := fun s : FilterT => s.authors = authorsOf f)
    (fun g hg s s' hstep hs => ?_) hsecond
  simp only [List.mem_cons, List.not_mem_nil, or_false] at hg
  rcases hg with rfl | rfl | rfl | rfl | rfl | rfl <;>
    rcases optional_some hstep with ⟨-, rfl⟩ | ⟨x, -, rfl⟩ <;> exact hs

/-- A message that is an array headed by its type is read as such. -/
theorem read_message_eq {lib : JsonLib} {json type : Bytes} {vs : List Json}
    (h : lib.parse json = some (.arr (.str type :: vs))) :
    readMessage lib json = some (type, .arr (.str type :: vs)) := by
  simp [readMessage, h, Json.element, Json.toStr]

/-- A request with a well-formed first filter is accepted, and queries for its authors. -/
theorem parse_well_formed_request {lib : JsonLib} {json id : Bytes} {f : Json}
    {filters : List Json}
    (hjson : lib.parse json = some (.arr (.str (ascii "REQ") :: .str id :: f :: filters)))
    (hf : WellFormedFilter lib f) (oldId : Bytes) (now : Int64) :
    ∃ filter, filterFromJson lib f (FilterT.new now) = (true, filter) ∧
      parseRequest lib json oldId (FilterT.new now) = (0, id, filter) ∧
      ∀ file, request lib filter file =
        (read lib file).filter fun ev => ev.pubkey ∈ authorsOf f := by
  rcases hconvert : filterFromJson lib f (FilterT.new now) with ⟨ok, filter⟩
  have hok : ok = true := by simpa [hconvert] using hf now
  subst hok
  refine ⟨filter, rfl, ?_, fun file => ?_⟩
  · simp [parseRequest, read_message_eq hjson, Json.element, Json.toStr, hconvert, status]
  · rw [request_eq, filter_from_json_authors hconvert]

/-! ## Samples -/

/-- A note whose key is one letter. -/
def storedNote : EventT :=
  { EventT.new 1688794190 with pubkey := ascii "a", content := ascii "hello" }

/-- A file that holds one event. -/
def storedFile (ev : EventT) : Option Bytes :=
  some ((eventsJson [ev]).render (some 2) 0)

/-- The value of a `REQ` message with one filter, and its text. -/
def requestJson (f : Json) : Json :=
  .arr [.str (ascii "REQ"), .str (ascii "sub"), f]

def requestText (f : Json) : Bytes :=
  (requestJson f).render none 0

/-- The sample event is UTF-8. -/
theorem utf8_stored_note : storedNote.Utf8 where
  id := rfl
  pubkey := by decide
  tags := by simp [storedNote, EventT.new]
  content := by decide
  sig := rfl

/-- It is stored in the sample file. -/
theorem stored_file {ev : EventT} (h : ev.Utf8) :
    stored JsonLib.reference (storedFile ev) = some [ev] := by
  have hutf8 : (eventsJson [ev]).isUtf8 = true := by simpa [eventsJson] using h.to_json
  have hparse := JsonLib.reference_parse hutf8 (is_storable_events [ev]) (some 2)
  simp [stored, storedFile, hparse, to_list_events]

/-- And read from it. -/
theorem read_stored_file {ev : EventT} (h : ev.Utf8) :
    read JsonLib.reference (storedFile ev) = [ev] := by
  rw [read_eq, stored_file h, Option.getD_some]

/-- The sample request is read. -/
theorem parse_request_text {f : Json} (hutf8 : f.isUtf8 = true) (hstore : f.isStorable = true) :
    JsonLib.reference.parse (requestText f) = some (requestJson f) := by
  have hnames : Utf8 (ascii "REQ") ∧ Utf8 (ascii "sub") := by decide
  refine JsonLib.reference_parse ?_ ?_ none
  · simp [requestJson, hnames, hutf8]
  · simp [requestJson, hstore]

/-- A filter that asks for one author, and one that asks for kind 1 and names no author. -/
def authorsFilter : Json :=
  .obj [(ascii "authors", .arr [.str (ascii "a")])]

def kindsFilter : Json :=
  .obj [(ascii "kinds", .arr [.int 1])]

/-- Its filters are well formed. -/
theorem well_formed_samples (lib : JsonLib) :
    WellFormedFilter lib authorsFilter ∧ WellFormedFilter lib kindsFilter := by
  constructor <;> intro now <;>
    simp +decide [filterFromJson, filterAssigns, assignAll, optional, authorsFilter, kindsFilter,
      Json.member, getStrings, Json.toList, Json.toStr, getInt, Json.toArithmetic,
      Json.toNumber]

/-! ## Appending to a file that cannot be read -/

/-- Only an event whose strings are UTF-8 can be dumped. -/
theorem EventT.Utf8.of_to_json {ev : EventT} (h : (toJson ev).isUtf8 = true) : ev.Utf8 := by
  rw [to_json_eq] at h
  simp only [Json.is_utf8_obj, List.forall_mem_cons, Json.is_utf8_str, Json.is_utf8_arr,
    List.forall_mem_map, stringsJson] at h
  obtain ⟨⟨-, hcontent⟩, -, ⟨-, hid⟩, -, ⟨-, hpubkey⟩, ⟨-, hsig⟩, ⟨-, htags⟩, -⟩ := h
  exact ⟨hid, hpubkey, htags, hcontent, hsig⟩

/-- Events that cannot be dumped leave the file as it was. -/
theorem append_fails {lib : JsonLib} (hstrict : lib.Strict) {events : List EventT}
    (h : ¬ ∀ ev ∈ events, ev.Utf8) (file : Option Bytes) :
    append lib events file = (-1, file) := by
  have hdump : lib.dump (some 2) (eventsJson (read lib file ++ events)) = none := by
    by_contra hsome
    obtain ⟨json, hjson⟩ := Option.ne_none_iff_exists'.mp hsome
    have hutf8 := hstrict _ _ _ hjson
    rw [eventsJson, Json.is_utf8_arr, List.forall_mem_map] at hutf8
    exact h fun ev hev => .of_to_json (hutf8 ev (List.mem_append_right _ hev))
  rw [append, push_all, save, hdump]

/-- What appending should do: keep a file that cannot be read, and otherwise put the events behind
those it holds. -/
def KeepsStore (lib : JsonLib) (content : Bytes) (events : List EventT) : Prop :=
  match stored lib (some content) with
  | none => append lib events (some content) = (-1, some content)
  | some database => ∃ json, append lib events (some content) = (0, some json) ∧
      stored lib (some json) = some (database ++ events)

/-- Appending does what it should exactly when the file can be read and the events can be dumped,
or neither: a file that cannot be read is overwritten with the events alone. -/
theorem keeps_store_iff (lib : JsonLib) (hlib : lib.Lawful) (hstrict : lib.Strict)
    (content : Bytes) (events : List EventT) :
    KeepsStore lib content events ↔
      ((stored lib (some content)).isSome = true ↔ ∀ ev ∈ events, ev.Utf8) := by
  unfold KeepsStore
  by_cases hutf8 : ∀ ev ∈ events, ev.Utf8
  · obtain ⟨json, happend, hstored⟩ := stored_append hlib hutf8 (some content)
    rw [read_eq] at hstored
    cases hcontent : stored lib (some content) with
    | none =>
        rw [happend]
        exact ⟨fun h => absurd (Prod.mk.inj h).1 (by decide),
          fun h => absurd (h.mpr hutf8) (by simp)⟩
    | some database =>
        rw [hcontent, Option.getD_some] at hstored
        simp only [Option.isSome_some, true_iff]
        exact ⟨fun _ => hutf8, fun _ => ⟨json, happend, hstored⟩⟩
  · have happend := append_fails hstrict hutf8 (some content)
    cases hcontent : stored lib (some content) with
    | none => simp [happend, hutf8]
    | some database => simp [happend, hutf8]

/-- A store of one note takes another. -/
theorem keeps_store_iff_note :
    KeepsStore JsonLib.reference ((eventsJson [storedNote]).render (some 2) 0) [storedNote] := by
  have hutf8 : ∀ ev ∈ [storedNote], ev.Utf8 := by simpa using utf8_stored_note
  have hstored := stored_file utf8_stored_note
  have hiff := keeps_store_iff JsonLib.reference JsonLib.reference_lawful JsonLib.reference_strict
    ((eventsJson [storedNote]).render (some 2) 0) [storedNote]
  rw [storedFile] at hstored
  rw [hiff, hstored]
  exact ⟨fun _ => hutf8, fun _ => rfl⟩

/-- A text that is not JSON is replaced by the events that are appended. -/
theorem append_overwrites_unreadable :
    ¬ ∀ (lib : JsonLib), lib.Lawful → lib.Strict → ∀ (content : Bytes) (events : List EventT),
      KeepsStore lib content events := by
  intro h
  have hkeeps := h _ JsonLib.reference_lawful JsonLib.reference_strict (ascii "x") [storedNote]
  have hunreadable : stored JsonLib.reference (some (ascii "x")) = none := rfl
  rw [KeepsStore, hunreadable] at hkeeps
  have hutf8 : ∀ ev ∈ [storedNote], ev.Utf8 := by simpa using utf8_stored_note
  obtain ⟨json, happend, -⟩ := stored_append JsonLib.reference_lawful hutf8 (some (ascii "x"))
  rw [happend] at hkeeps
  exact absurd (Prod.mk.inj hkeeps).1 (by decide)

end Gnostr.Relay
