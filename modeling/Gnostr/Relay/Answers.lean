import Gnostr.Relay.Server

/-!
# What the relay answers

Every text a client sends, and whatever the file holds, `make_response` returns one of the three
messages of the protocol (`make_response_answers`): each string it dumps came through the parser.
An event that was accepted once is in the file from then on, so a later request for its author is
answered with an event (`published_stays_queryable`).
-/

namespace Gnostr.Relay

open Wire

/-! ## Every input is answered -/

/-- The messages a relay sends. -/
inductive Answer : Json → Prop where
  | event (id : Bytes) (ev : EventT) : Answer (.arr [.str (ascii "EVENT"), .str id, toJson ev])
  | eose (id : Bytes) : Answer (.arr [.str (ascii "EOSE"), .str id])
  | notice (text : Bytes) : Answer (.arr [.str (ascii "NOTICE"), .str text])

/-- The names of the messages. -/
theorem utf8_names : Utf8 (ascii "EVENT") ∧ Utf8 (ascii "EOSE") ∧ Utf8 (ascii "NOTICE") := by
  decide

/-- An event of UTF-8 texts is dumped in an `EVENT` message and read back. -/
theorem dump_event {lib : JsonLib} (hlib : lib.Lawful) {id : Bytes} (hid : Utf8 id) {ev : EventT}
    (hev : ev.Utf8) :
    ∃ json, lib.dump none (.arr [.str (ascii "EVENT"), .str id, toJson ev]) = some json ∧
      lib.parse json = some (.arr [.str (ascii "EVENT"), .str id, toJson ev]) := by
  obtain ⟨json, hdump⟩ := hlib.dump_utf8 none
    (v := .arr [.str (ascii "EVENT"), .str id, toJson ev]) (by simp [utf8_names, hid, hev.to_json])
  exact ⟨json, hdump, hlib.round_trip (by simp [is_storable_to_json]) hdump⟩

/-- Two strings are always sent. -/
theorem dump_strings {lib : JsonLib} (hlib : lib.Lawful) {name text : Bytes} (hname : Utf8 name)
    (htext : Utf8 text) :
    ∃ json, lib.dump none (.arr [.str name, .str text]) = some json ∧
      lib.parse json = some (.arr [.str name, .str text]) := by
  obtain ⟨json, hdump⟩ := hlib.dump_utf8 none (v := .arr [.str name, .str text])
    (by simp [hname, htext])
  exact ⟨json, hdump, hlib.round_trip (by simp) hdump⟩

/-- What a request is answered: the first event found, or the end of the stored events. -/
theorem make_response_req {lib : JsonLib} {msg : Bytes} (now : Int64) (w : World)
    (htype : getMessageType lib msg = .req) :
    (makeResponse lib now msg w).1 =
      match request lib (parseRequest lib msg [] (FilterT.new now)).2.2 w.disk.databaseJson with
      | ev :: _ => lib.dump none (.arr [.str (ascii "EVENT"),
          .str (parseRequest lib msg [] (FilterT.new now)).2.1, toJson ev])
      | [] => lib.dump none (.arr [.str (ascii "EOSE"),
          .str (parseRequest lib msg [] (FilterT.new now)).2.1]) := by
  obtain ⟨w', -, hfile, hanswer, -, -⟩ := make_response_eq lib now msg w
  rw [hanswer, ← hfile]
  simp only [respond, htype]
  cases request lib (parseRequest lib msg [] (FilterT.new now)).2.2 w'.disk.databaseJson with
  | nil => rfl
  | cons ev events => rfl

/-- The events a request selects are UTF-8. -/
theorem EventT.Utf8.request {lib : JsonLib} (hlib : lib.Lawful) (filter : FilterT)
    (file : Option Bytes) : ∀ ev ∈ request lib filter file, ev.Utf8 := by
  intro ev hev
  rw [request_eq] at hev
  exact EventT.Utf8.read hlib file ev (List.mem_of_mem_filter hev)

/-- Whatever the message and the files, the relay answers with a message of the protocol. -/
theorem make_response_answers (lib : JsonLib) (hlib : lib.Lawful) (w : World) (now : Int64)
    (msg : Bytes) :
    ∃ json v, (makeResponse lib now msg w).1 = some json ∧ lib.parse json = some v ∧ Answer v := by
  cases htype : getMessageType lib msg with
  | event =>
      obtain ⟨hanswer, -, -⟩ := make_response_event w htype
        (Eq.refl (parseClientEvent lib msg (EventT.new now)).2)
      have hev : (parseClientEvent lib msg (EventT.new now)).2.Utf8 :=
        .parse_client_event hlib msg (.new now)
      obtain ⟨json, hdump, hparse⟩ := dump_strings hlib utf8_names.2.1 hev.id
      exact ⟨json, _, hanswer.trans hdump, hparse, .eose _⟩
  | req =>
      have hanswer := make_response_req now w htype
      have hid := utf8_request_id hlib msg (show Utf8 [] from rfl) (FilterT.new now)
      split at hanswer
      · next ev rest hrequest =>
        have hev := EventT.Utf8.request hlib _ w.disk.databaseJson ev
          (hrequest ▸ List.mem_cons_self)
        obtain ⟨json, hdump, hparse⟩ := dump_event hlib hid hev
        exact ⟨json, _, hanswer.trans hdump, hparse, .event _ ev⟩
      · obtain ⟨json, hdump, hparse⟩ := dump_strings hlib utf8_names.2.1 hid
        exact ⟨json, _, hanswer.trans hdump, hparse, .eose _⟩
  | _ =>
      obtain ⟨json, hdump, hparse⟩ := dump_strings hlib utf8_names.2.2
        (show Utf8 (ascii "Error") by decide)
      obtain ⟨w', -, -, hanswer, -, -⟩ := make_response_eq lib now msg w
      refine ⟨json, _, ?_, hparse, .notice _⟩
      rw [hanswer]
      simpa [respond, htype] using hdump

/-- Even a text that is not JSON is answered. -/
theorem make_response_answers_noise :
    ∃ json v, (makeResponse JsonLib.reference 1688794200 (ascii "noise")
        (relayT JsonLib.reference emptyDisk)).1 = some json ∧
      JsonLib.reference.parse json = some v ∧ Answer v :=
  make_response_answers JsonLib.reference JsonLib.reference_lawful
    (relayT JsonLib.reference emptyDisk) 1688794200 (ascii "noise")

/-! ## What was published can be queried -/

/-- What the file holds, it keeps. -/
theorem Copies.mem_file_run {α : Type} {c : Copies α} {x : α} (h : x ∈ c.file) (xs : List α) :
    x ∈ (xs.foldl receive c).file := by
  induction xs generalizing c with
  | nil => exact h
  | cons y xs ih => exact ih (List.mem_append_left _ h)

/-- An item that was received is in the file. -/
theorem Copies.mem_file_of_received {α : Type} (c : Copies α) {x : α} {xs : List α} (h : x ∈ xs) :
    x ∈ (xs.foldl receive c).file := by
  induction xs generalizing c with
  | nil => exact absurd h List.not_mem_nil
  | cons y xs ih =>
      rcases List.mem_cons.mp h with rfl | h
      · exact mem_file_run (by simp [receive]) xs
      · exact ih _ h

/-- The events of the well-formed messages of a run are in the file. -/
theorem mem_read_run {lib : JsonLib} (hlib : lib.Lawful) (disk : Disk)
    {msgs : List (Int64 × Bytes)} {m : Int64 × Bytes} {ev : EventT} (hm : m ∈ msgs)
    (hev : accepted lib m = some ev) :
    ev ∈ read lib (run lib (relayT lib disk) msgs).disk.databaseJson := by
  have hreceived : ev ∈ msgs.filterMap (received lib) :=
    List.mem_filterMap.mpr ⟨m, hm, received_of_accepted hev⟩
  have hrun := copies_run hlib (World.Utf8.relay_t hlib disk) msgs
  have hfile := Copies.mem_file_of_received ((relayT lib disk).copies lib) hreceived
  rwa [← hrun] at hfile

/-- A message `parse_request` accepts is a request. -/
theorem message_type_of_request {lib : JsonLib} {msg oldId id : Bytes} {old filter : FilterT}
    (h : parseRequest lib msg oldId old = (0, id, filter)) : getMessageType lib msg = .req := by
  have hstatus : (parseRequest lib msg oldId old).1 = 0 := by rw [h]
  unfold parseRequest at hstatus
  unfold getMessageType
  split at hstatus
  · exact absurd hstatus (by simp)
  · next type message hread =>
    split_ifs at hstatus with hreq
    · have hother : ascii "REQ" ≠ ascii "EVENT" := by decide
      simp [hreq, hother]
    · exact absurd hstatus (by simp)

/-- The identifier of a request that was read is UTF-8. -/
theorem utf8_id_of_request {lib : JsonLib} (hlib : lib.Lawful) {msg id : Bytes} {now : Int64}
    {filter : FilterT} (h : parseRequest lib msg [] (FilterT.new now) = (0, id, filter)) :
    Utf8 id := by
  have hutf8 := utf8_request_id hlib msg (show Utf8 [] from rfl) (FilterT.new now)
  rwa [h] at hutf8

/-- Once an event was accepted, every later request that names its author is answered with an
event of one of the requested authors, whatever comes in between. -/
theorem published_stays_queryable (lib : JsonLib) (hlib : lib.Lawful) (disk : Disk)
    (before between : List (Int64 × Bytes)) (e : Int64 × Bytes) (ev : EventT)
    (he : accepted lib e = some ev) (now : Int64) (msg requestId : Bytes) (filter : FilterT)
    (hreq : parseRequest lib msg [] (FilterT.new now) = (0, requestId, filter))
    (hauthor : ev.pubkey ∈ filter.authors) :
    ∃ json x,
      (makeResponse lib now msg
        (run lib (relayT lib disk) (before ++ e :: between))).1 = some json ∧
      lib.parse json = some (.arr [.str (ascii "EVENT"), .str requestId, toJson x]) ∧
      x.pubkey ∈ filter.authors := by
  have hstored := mem_read_run hlib disk
    (List.mem_append_right before (List.mem_cons_self (a := e) (l := between))) he
  generalize run lib (relayT lib disk) (before ++ e :: between) = w at hstored ⊢
  have hfound : ev ∈ request lib filter w.disk.databaseJson := by
    rw [request_eq]
    exact List.mem_filter.mpr ⟨hstored, by simpa using hauthor⟩
  obtain ⟨x, xs, hrequest⟩ := List.exists_cons_of_ne_nil (List.ne_nil_of_mem hfound)
  have hx : x ∈ request lib filter w.disk.databaseJson := hrequest ▸ List.mem_cons_self
  have hpubkey : x.pubkey ∈ filter.authors := by
    rw [request_eq] at hx
    simpa using (List.mem_filter.mp hx).2
  obtain ⟨json, hdump, hparse⟩ :=
    dump_event hlib (utf8_id_of_request hlib hreq) (EventT.Utf8.request hlib filter _ x hx)
  refine ⟨json, x, ?_, hparse, hpubkey⟩
  rw [make_response_req now w (message_type_of_request hreq), hreq, hrequest]
  exact hdump

/-- The request for one author, as it is read. -/
theorem parse_request_authors (now : Int64) :
    parseRequest JsonLib.reference (requestText authorsFilter) [] (FilterT.new now) =
      (0, ascii "sub", { FilterT.new now with authors := [ascii "a"] }) := by
  have hutf8 : authorsFilter.isUtf8 = true := by decide
  have hstore : authorsFilter.isStorable = true := by decide
  have hread := read_message_eq (parse_request_text hutf8 hstore)
  have hconvert : filterFromJson JsonLib.reference authorsFilter (FilterT.new now) =
      (true, { FilterT.new now with authors := [ascii "a"] }) := by
    simp +decide [filterFromJson, filterAssigns, assignAll, optional, authorsFilter, Json.member,
      getStrings, Json.toList, Json.toStr]
  simp [parseRequest, hread, Json.element, Json.toStr, hconvert, status]

/-- A note is found after a malformed event came in between. -/
theorem published_stays_queryable_note :
    ∃ json x,
      (makeResponse JsonLib.reference 1688794202 (requestText authorsFilter)
        (run JsonLib.reference (relayT JsonLib.reference emptyDisk)
          [(1688794200, eventText [toJson storedNote]), (1688794201, eventText [])])).1 =
            some json ∧
      JsonLib.reference.parse json =
        some (.arr [.str (ascii "EVENT"), .str (ascii "sub"), toJson x]) ∧
      x.pubkey ∈ [ascii "a"] := by
  have haccepted : accepted JsonLib.reference (1688794200, eventText [toJson storedNote]) =
      some storedNote := by
    simp [accepted, parse_client_event_text utf8_stored_note]
  exact published_stays_queryable JsonLib.reference JsonLib.reference_lawful emptyDisk []
    [(1688794201, eventText [])] (1688794200, eventText [toJson storedNote]) storedNote haccepted
    1688794202 (requestText authorsFilter) (ascii "sub") _ (parse_request_authors 1688794202)
    (show storedNote.pubkey ∈ [ascii "a"] by decide)

end Gnostr.Relay
