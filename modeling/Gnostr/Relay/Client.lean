import Gnostr.Relay.Printed
import Gnostr.Relay.Request

/-!
# The client and its pages

`get_follows`, `get_feed` and `get_metadata` of `src/nostr.cc`, with the identifiers of
`src/uuid.cc`, and the two pages of `web/` that show what they return. The web socket is a
parameter: a state and the messages that arrive for a message that is sent. With the relay behind
it, `pages_show` says what a user sees: for each key of a `p` tag in the first event the relay has
of that user, the first event it has of that key. The requests ask for kinds and limits, and the
relay heeds neither.
-/

namespace Gnostr.Relay

open Wire

/-! ## Identifiers -/

/-- What `generate_uuid_v4` draws from its two distributions. -/
structure Draws where
  dis : Nat → Fin 16
  dis2 : Fin 4

/-- `toupper`. -/
def toupper (c : UInt8) : UInt8 :=
  if 97 ≤ c ∧ c ≤ 122 then c - 32 else c

/-- A number below sixteen, written with `std::hex`. -/
def stdHex (n : Nat) : UInt8 :=
  Json.lowerHex (UInt8.ofNat n)

/-- Some draws of `dis`, one behind the other. -/
def Draws.write (d : Draws) (first count : Nat) : Bytes :=
  (List.range count).map fun i => stdHex (d.dis (first + i)).val

/-- `generate_uuid_v4`. -/
def generateUuidV4 (d : Draws) : Bytes :=
  (d.write 0 8 ++ ascii "-" ++ d.write 8 4 ++ ascii "-4" ++ d.write 12 3 ++ ascii "-" ++
    [stdHex (8 + d.dis2.val)] ++ d.write 15 3 ++ ascii "-" ++ d.write 18 12).map toupper

/-! ## Requests of a client -/

/-- A web socket: what arrives before the connection is closed when a text is sent to a relay. -/
def Transport (σ : Type) : Type :=
  Bytes → Bytes → σ → List Bytes × σ

/-- `relay_to`. -/
def relayTo {σ : Type} (net : Transport σ) (uri json : Bytes) (store : List Bytes) (s : σ) :
    Int × List Bytes × σ :=
  let (messages, s) := net uri json s
  (0, store ++ messages, s)

/-- What a request draws and the time it is made at. -/
structure Moment where
  draws : Draws
  now : Int64

/-- The body of the loops over the responses: the event of an `EVENT` message, when nothing
throws. -/
def eventOf (lib : JsonLib) (message : Bytes) : Option EventT :=
  match readMessage lib message with
  | none => none
  | some (type, js) =>
      if type = ascii "EVENT" then js.element 2 >>= getEvent lib else none

/-- `tag.size() > 1 && tag.at(0).compare("p") == 0`, with `tag.at(1)`. -/
def followed : List Bytes → Option Bytes
  | name :: key :: _ => if name = ascii "p" then some key else none
  | _ => none

/-- `get_follows`. -/
def getFollows {σ : Type} (lib : JsonLib) (net : Transport σ) (m : Moment) (uri pubkey : Bytes)
    (pubkeys : List Bytes) (s : σ) : Int × List Bytes × σ :=
  let filter := { FilterT.new m.now with authors := [pubkey], kinds := [3], limit := 1 }
  let json := makeRequest lib (generateUuidV4 m.draws) filter
  let (_, responses, s) := relayTo net uri json [] s
  match responses.filterMap (eventOf lib) with
  | [] => (0, pubkeys, s)
  | ev :: _ => (0, pubkeys ++ ev.tags.filterMap followed, s)

/-- `get_feed`. -/
def getFeed {σ : Type} (lib : JsonLib) (net : Transport σ) (m : Moment) (uri pubkey : Bytes)
    (response : List Bytes) (s : σ) : Int × List Bytes × σ :=
  let filter := { FilterT.new m.now with authors := [pubkey], kinds := [1], limit := 2 }
  let json := makeRequest lib (generateUuidV4 m.draws) filter
  let (_, messages, s) := relayTo net uri json [] s
  (0, response ++ messages.filter fun message => (eventOf lib message).isSome, s)

/-- `get_metadata`, which looks at no message. -/
def getMetadata {σ : Type} (lib : JsonLib) (net : Transport σ) (m : Moment) (uri pubkey : Bytes)
    (response : List Bytes) (s : σ) : Int × List Bytes × σ :=
  let filter := { FilterT.new m.now with authors := [pubkey], kinds := [0] }
  let json := makeRequest lib (generateUuidV4 m.draws) filter
  let (_, messages, s) := relayTo net uri json [] s
  (0, response ++ messages, s)

/-! ## Pages -/

/-- A row of `m_table_messages`: the whole message, or the key and the content. -/
inductive Row where
  | message (json : Bytes)
  | content (pubkey content : Bytes)

/-- What is added to the table for a message, when nothing throws. -/
def tableRow (lib : JsonLib) (raw : Bool) (pubkey message : Bytes) : Option Row :=
  match readMessage lib message with
  | none => none
  | some (type, js) =>
      if type = ascii "EVENT" then do
        let ev ← js.element 2 >>= getEvent lib
        let json ← lib.dump (some 1) js
        some (if raw then .message json else .content pubkey ev.content)
      else none

/-- `relays.at(1)`. -/
def relay : Bytes :=
  ascii "nos.lol"

/-- One of the calls that fetch messages of a key. -/
def Fetch (σ : Type) : Type :=
  Moment → Bytes → Bytes → List Bytes → σ → Int × List Bytes × σ

/-- The loop over the keys; the requests are counted. -/
def tableRows {σ : Type} (lib : JsonLib) (fetch : Fetch σ) (moments : Nat → Moment) (raw : Bool) :
    Nat → List Bytes → σ → List Row × σ
  | _, [], s => ([], s)
  | k, pubkey :: pubkeys, s =>
      let (_, events, s) := fetch (moments k) relay pubkey [] s
      let (rows, s) := tableRows lib fetch moments raw (k + 1) pubkeys s
      (events.filterMap (tableRow lib raw pubkey) ++ rows, s)

/-- A page: the keys that are followed, and the rows of each. -/
def page {σ : Type} (lib : JsonLib) (net : Transport σ) (fetch : Fetch σ)
    (moments : Nat → Moment) (raw : Bool) (pubkey : Bytes) (s : σ) : List Row × σ :=
  let (_, pubkeys, s) := getFollows lib net (moments 0) relay pubkey [] s
  tableRows lib fetch moments raw 1 pubkeys s

/-- `ContainerFeed::get_feed`. -/
def feedPage {σ : Type} (lib : JsonLib) (net : Transport σ) :
    (Nat → Moment) → Bool → Bytes → σ → List Row × σ :=
  page lib net (getFeed lib net)

/-- `ContainerFollows::get_follows`. -/
def followsPage {σ : Type} (lib : JsonLib) (net : Transport σ) :
    (Nat → Moment) → Bool → Bytes → σ → List Row × σ :=
  page lib net (getMetadata lib net)

/-! ## The relay behind the socket -/

/-- A relay with a web socket, as `wss_relay.cc` sets it up: every message is answered with what
`make_response` returns. Before the `k`-th request of the client it handles what others have
sent. -/
def vostro (lib : JsonLib) (others : Nat → List (Int64 × Bytes)) (times : Nat → Int64) :
    Transport (World × Nat) := fun _ json s =>
  let (w, k) := s
  let (answer, w) := makeResponse lib (times k) json (run lib w (others k))
  (answer.toList, (w, k + 1))

/-- The events a relay has received when it handles the `k`-th request. -/
def history (lib : JsonLib) (disk : Disk) (others : Nat → List (Int64 × Bytes)) (k : Nat) :
    List EventT :=
  read lib disk.databaseJson ++ ((List.range k).flatMap others).filterMap (received lib)

/-- The first event with a given key. -/
def firstBy (pubkey : Bytes) (events : List EventT) : Option EventT :=
  events.find? fun ev => ev.pubkey = pubkey

/-- The keys a user follows, by what a relay has received. -/
def followedBy (pubkey : Bytes) (events : List EventT) : List Bytes :=
  match firstBy pubkey events with
  | none => []
  | some ev => ev.tags.filterMap followed

/-- The message that brings an event to a subscription. -/
def delivery (id : Bytes) (ev : EventT) : Json :=
  .arr [.str (ascii "EVENT"), .str id, toJson ev]

/-- The row an event is shown in. -/
def eventRow (lib : JsonLib) (raw : Bool) (pubkey id : Bytes) (ev : EventT) : Option Row :=
  (lib.dump (some 1) (delivery id ev)).map fun json =>
    if raw then .message json else .content pubkey ev.content

/-! ## Requests for one author -/

/-- A hexadecimal digit is ASCII. -/
theorem upper_hex_le (n : Fin 16) : toupper (stdHex n.val) ≤ 0x7F := by
  revert n
  decide

/-- So is the digit of the variant. -/
theorem upper_variant_le (n : Fin 4) : toupper (stdHex (8 + n.val)) ≤ 0x7F := by
  revert n
  decide

/-- An identifier is ASCII, so it is UTF-8. -/
theorem utf8_generate_uuid (d : Draws) : Wire.Utf8 (generateUuidV4 d) := by
  have hwrite : ∀ {first count : Nat}, ∀ b ∈ d.write first count, toupper b ≤ 0x7F := by
    intro first count b hb
    obtain ⟨i, -, rfl⟩ := List.mem_map.mp hb
    exact upper_hex_le _
  have hdash : ∀ b ∈ ascii "-", toupper b ≤ 0x7F := by decide +kernel
  have hversion : ∀ b ∈ ascii "-4", toupper b ≤ 0x7F := by decide +kernel
  refine utf8_of_ascii fun b hb => ?_
  obtain ⟨c, hc, rfl⟩ := List.mem_map.mp hb
  simp only [List.mem_append, List.mem_singleton, or_assoc] at hc
  rcases hc with hc | hc | hc | hc | hc | hc | rfl | hc | hc | hc
  · exact hwrite c hc
  · exact hdash c hc
  · exact hwrite c hc
  · exact hversion c hc
  · exact hwrite c hc
  · exact hdash c hc
  · exact upper_variant_le _
  · exact hwrite c hc
  · exact hdash c hc
  · exact hwrite c hc

/-- A filter for one author. -/
def authorFilter (now : Int64) (pubkey : Bytes) (kinds : List Int32) (limit : UInt64) : FilterT :=
  { FilterT.new now with authors := [pubkey], kinds := kinds, limit := limit }

/-- A filter for an author is UTF-8 when the author is. -/
theorem utf8_author_filter {pubkey : Bytes} (h : Wire.Utf8 pubkey) (now : Int64)
    (kinds : List Int32) (limit : UInt64) : (authorFilter now pubkey kinds limit).Utf8 where
  ids := by simp [authorFilter, FilterT.new]
  authors := by simpa [authorFilter] using h
  e := by simp [authorFilter, FilterT.new]
  p := by simp [authorFilter, FilterT.new]

/-- A request for one author is answered with the first event of that author, if there is one,
whatever kinds and number of events it asks for. -/
theorem make_response_author {lib : JsonLib} (hlib : lib.Lawful) {events : List EventT} {w : World}
    (hw : Tracks lib events w) {id pubkey : Bytes} (hid : Wire.Utf8 id)
    (hpubkey : Wire.Utf8 pubkey) (asked now : Int64) (kinds : List Int32) (limit : UInt64) :
    (makeResponse lib now (makeRequest lib id (authorFilter asked pubkey kinds limit)) w).1 =
        match firstBy pubkey events with
        | some ev => lib.dump none (delivery id ev)
        | none => lib.dump none (.arr [.str (ascii "EOSE"), .str id]) := by
  have hread := read_make_request hlib hid (utf8_author_filter hpubkey asked kinds limit)
  have hconvert := filter_from_json_to_json lib (authorFilter asked pubkey kinds limit) false now
  have hparse : parseRequest lib (makeRequest lib id (authorFilter asked pubkey kinds limit)) []
      (FilterT.new now) =
        (0, id, { authorFilter asked pubkey kinds limit with since := 0, until_ := now }) := by
    simp [parseRequest, hread, Json.element, Json.toStr, hconvert, status]
  have hfound : (request lib { authorFilter asked pubkey kinds limit with
      since := 0, until_ := now } w.disk.databaseJson).head? = firstBy pubkey events := by
    rw [request_eq, List.head?_filter, hw.finds]
    simp [firstBy, authorFilter]
  rw [make_response_req now w (message_type_of_request hparse), hparse, ← hfound]
  simp only
  cases request lib { authorFilter asked pubkey kinds limit with since := 0, until_ := now }
    w.disk.databaseJson with
  | nil => rfl
  | cons ev rest => rfl

/-- A request leaves the relay as it is, as far as events go. -/
theorem Tracks.request {lib : JsonLib} (hlib : lib.Lawful) {events : List EventT} {w : World}
    (h : Tracks lib events w) (now : Int64) {msg : Bytes} (hreq : getMessageType lib msg = .req) :
    Tracks lib events (makeResponse lib now msg w).2 := by
  have hstep := h.step hlib (now, msg)
  have hnone : received lib (now, msg) = none := by simp [received, hreq]
  simpa [hnone] using hstep

/-! ## What the client makes of the answers -/

/-- An `EVENT` message is read as such. -/
theorem read_delivery {lib : JsonLib} {json id : Bytes} {ev : EventT}
    (h : lib.parse json = some (delivery id ev)) :
    readMessage lib json = some (ascii "EVENT", delivery id ev) :=
  read_message_eq h

/-- The event of a delivery is read back from it. -/
theorem event_in_delivery (lib : JsonLib) (id : Bytes) (ev : EventT) :
    (delivery id ev).element 2 >>= getEvent lib = some ev := by
  simp [delivery, Json.element, get_event_to_json]

/-- It holds its event. -/
theorem event_of_delivery {lib : JsonLib} {json id : Bytes} {ev : EventT}
    (h : lib.parse json = some (delivery id ev)) : eventOf lib json = some ev := by
  simp only [eventOf, read_delivery h, if_true, event_in_delivery lib id ev]

/-- It gives a row of the table. -/
theorem table_row_delivery {lib : JsonLib} {json id : Bytes} {ev : EventT}
    (h : lib.parse json = some (delivery id ev)) (raw : Bool) (pubkey : Bytes) :
    tableRow lib raw pubkey json = eventRow lib raw pubkey id ev := by
  simp only [tableRow, read_delivery h, if_true, event_in_delivery lib id ev, eventRow]
  cases lib.dump (some 1) (delivery id ev) <;> rfl

/-- An `EOSE` message is read as such. -/
theorem read_eose {lib : JsonLib} {json id : Bytes}
    (h : lib.parse json = some (.arr [.str (ascii "EOSE"), .str id])) :
    readMessage lib json =
      some (ascii "EOSE", .arr [.str (ascii "EOSE"), .str id]) :=
  read_message_eq h

/-- It holds no event. -/
theorem event_of_eose {lib : JsonLib} {json id : Bytes}
    (h : lib.parse json = some (.arr [.str (ascii "EOSE"), .str id])) :
    eventOf lib json = none := by
  have hother : ascii "EOSE" ≠ ascii "EVENT" := by decide
  simp [eventOf, read_eose h, hother]

/-- It gives no row. -/
theorem table_row_eose {lib : JsonLib} {json id : Bytes}
    (h : lib.parse json = some (.arr [.str (ascii "EOSE"), .str id])) (raw : Bool)
    (pubkey : Bytes) : tableRow lib raw pubkey json = none := by
  have hother : ascii "EOSE" ≠ ascii "EVENT" := by decide
  simp [tableRow, read_eose h, hother]

/-! ## One request after the other -/

section

variable {lib : JsonLib} {disk : Disk} {others : Nat → List (Int64 × Bytes)}

/-- What happened so far and one more step. -/
theorem history_succ (k : Nat) :
    history lib disk others (k + 1) =
      history lib disk others k ++ (others k).filterMap (received lib) := by
  simp [history, List.range_succ]

/-- The first event of an author is one that was stored. -/
theorem utf8_first_by {events : List EventT} {w : World} (h : Tracks lib events w)
    {pubkey : Bytes} {ev : EventT} (hev : firstBy pubkey events = some ev) : ev.Utf8 := by
  refine h.utf8 ev ?_
  rw [h.memory]
  exact List.mem_of_find?_eq_some hev

/-- What a client reads in the answer to a request for one author. -/
def Brings (lib : JsonLib) (json id : Bytes) (ev : Option EventT) : Prop :=
  match ev with
  | some ev => lib.parse json = some (delivery id ev)
  | none => lib.parse json = some (.arr [.str (ascii "EOSE"), .str id])

/-- The event read in the answer is the one that was looked for. -/
theorem Brings.event {json id : Bytes} {ev : Option EventT} (h : Brings lib json id ev) :
    eventOf lib json = ev := by
  cases ev with
  | none => exact event_of_eose h
  | some ev => exact event_of_delivery h

/-- The row of the answer is the row of that event. -/
theorem Brings.row {json id : Bytes} {ev : Option EventT} (h : Brings lib json id ev) (raw : Bool)
    (pubkey : Bytes) : tableRow lib raw pubkey json = ev.bind (eventRow lib raw pubkey id) := by
  cases ev with
  | none => exact table_row_eose h raw pubkey
  | some ev => exact table_row_delivery h raw pubkey

/-- One message is one row, or none. -/
theorem rows_of_message {raw : Bool} {pubkey message : Bytes} {row : Option Row}
    (h : tableRow lib raw pubkey message = row) :
    [message].filterMap (tableRow lib raw pubkey) = row.toList := by
  cases row <;> simp [h]

/-- One request: one answer arrives, with the first event of the author among those the relay has
received until then. -/
theorem exchange_author (hlib : lib.Lawful) (times : Nat → Int64) {w : World} {k : Nat}
    (h : Tracks lib (history lib disk others k) w) {id pubkey : Bytes} (hid : Wire.Utf8 id)
    (hpubkey : Wire.Utf8 pubkey) (asked : Int64) (kinds : List Int32) (limit : UInt64)
    (uri : Bytes) :
    ∃ json w', vostro lib others times uri
          (makeRequest lib id (authorFilter asked pubkey kinds limit)) (w, k) =
        ([json], (w', k + 1)) ∧
      Tracks lib (history lib disk others (k + 1)) w' ∧
      Brings lib json id (firstBy pubkey (history lib disk others (k + 1))) := by
  have hrun := h.run hlib (others k)
  rw [← history_succ] at hrun
  have hanswer := make_response_author hlib hrun hid hpubkey asked (times k) kinds limit
  have hread := read_make_request hlib hid (utf8_author_filter hpubkey asked kinds limit)
  have htype : getMessageType lib (makeRequest lib id (authorFilter asked pubkey kinds limit)) =
      .req := by
    have hother : ascii "REQ" ≠ ascii "EVENT" := by decide
    simp [getMessageType, hread, hother]
  have hkept := hrun.request hlib (times k) htype
  have hdump : ∃ json, (makeResponse lib (times k)
      (makeRequest lib id (authorFilter asked pubkey kinds limit)) (run lib w (others k))).1 =
        some json ∧ Brings lib json id (firstBy pubkey (history lib disk others (k + 1))) := by
    rw [hanswer]
    cases hfirst : firstBy pubkey (history lib disk others (k + 1)) with
    | none => exact dump_strings hlib utf8_names.2.1 hid
    | some ev => exact dump_event hlib hid (utf8_first_by hrun hfirst)
  obtain ⟨json, hjson, hbrings⟩ := hdump
  refine ⟨json, _, ?_, hkept, hbrings⟩
  simp only [vostro, hjson]
  rfl

/-- `get_follows` returns the keys followed by what the relay has received. -/
theorem get_follows_eq (hlib : lib.Lawful) (times : Nat → Int64) {w : World} {k : Nat}
    (h : Tracks lib (history lib disk others k) w) (m : Moment) (uri : Bytes) {pubkey : Bytes}
    (hpubkey : Wire.Utf8 pubkey) :
    ∃ w', getFollows lib (vostro lib others times) m uri pubkey [] (w, k) =
        (0, followedBy pubkey (history lib disk others (k + 1)), (w', k + 1)) ∧
      Tracks lib (history lib disk others (k + 1)) w' := by
  obtain ⟨json, w', hexchange, hkept, hbrings⟩ := exchange_author hlib times h
    (utf8_generate_uuid m.draws) hpubkey m.now [3] 1 uri
  refine ⟨w', ?_, hkept⟩
  rw [authorFilter] at hexchange
  simp only [getFollows, relayTo, hexchange, followedBy, List.nil_append, List.filterMap_cons,
    hbrings.event]
  cases firstBy pubkey (history lib disk others (k + 1)) <;> rfl

/-- What a page needs of a call that fetches messages: the rows of a key are those of its first
event. -/
def Fetches (lib : JsonLib) (disk : Disk) (others : Nat → List (Int64 × Bytes))
    (fetch : Fetch (World × Nat)) : Prop :=
  ∀ (m : Moment) (uri : Bytes) {pubkey : Bytes} {w : World} {k : Nat}, Wire.Utf8 pubkey →
    Tracks lib (history lib disk others k) w →
    ∃ events w', fetch m uri pubkey [] (w, k) = (0, events, (w', k + 1)) ∧
      Tracks lib (history lib disk others (k + 1)) w' ∧
      ∀ raw, events.filterMap (tableRow lib raw pubkey) =
        ((firstBy pubkey (history lib disk others (k + 1))).bind
          (eventRow lib raw pubkey (generateUuidV4 m.draws))).toList

/-- `getFeed` fetches what was stored. -/
theorem get_feed_fetches (hlib : lib.Lawful) (times : Nat → Int64) :
    Fetches lib disk others (getFeed lib (vostro lib others times)) := by
  intro m uri pubkey w k hpubkey h
  obtain ⟨json, w', hexchange, hkept, hbrings⟩ := exchange_author hlib times h
    (utf8_generate_uuid m.draws) hpubkey m.now [1] 2 uri
  refine ⟨[json].filter fun message => (eventOf lib message).isSome, w', ?_, hkept, fun raw => ?_⟩
  · rw [authorFilter] at hexchange
    simp only [getFeed, relayTo, hexchange, List.nil_append]
  · have hrow := rows_of_message (hbrings.row raw pubkey)
    cases hfirst : firstBy pubkey (history lib disk others (k + 1)) with
    | none =>
        -- the message is left out, and would have had no row
        simp [hbrings.event, hfirst]
    | some ev => simpa [hbrings.event, hfirst] using hrow

/-- So does `getMetadata`. -/
theorem get_metadata_fetches (hlib : lib.Lawful) (times : Nat → Int64) :
    Fetches lib disk others (getMetadata lib (vostro lib others times)) := by
  intro m uri pubkey w k hpubkey h
  obtain ⟨json, w', hexchange, hkept, hbrings⟩ := exchange_author hlib times h
    (utf8_generate_uuid m.draws) hpubkey m.now [0] 1 uri
  refine ⟨[json], w', ?_, hkept, fun raw => ?_⟩
  · rw [authorFilter] at hexchange
    have hlimit : ({ FilterT.new m.now with authors := [pubkey], kinds := [0] } : FilterT) =
        { FilterT.new m.now with authors := [pubkey], kinds := [0], limit := 1 } := rfl
    simp only [getMetadata, relayTo, hlimit, hexchange, List.nil_append]
  · exact rows_of_message (hbrings.row raw pubkey)

/-- The row a page shows for a key whose request is the `k`-th. -/
def shown (lib : JsonLib) (disk : Disk) (others : Nat → List (Int64 × Bytes))
    (moments : Nat → Moment) (raw : Bool) (key : Bytes × Nat) : Option Row :=
  (firstBy key.1 (history lib disk others (key.2 + 1))).bind
    (eventRow lib raw key.1 (generateUuidV4 (moments key.2).draws))

/-- The rows are those of the authors, each at its moment. -/
theorem table_rows_eq {fetch : Fetch (World × Nat)} (hfetch : Fetches lib disk others fetch)
    (moments : Nat → Moment) (raw : Bool) {pubkeys : List Bytes}
    (hpubkeys : ∀ pubkey ∈ pubkeys, Wire.Utf8 pubkey) {w : World} {k : Nat}
    (h : Tracks lib (history lib disk others k) w) :
    (tableRows lib fetch moments raw k pubkeys (w, k)).1 =
      (pubkeys.zipIdx k).filterMap (shown lib disk others moments raw) := by
  induction pubkeys generalizing w k with
  | nil => rfl
  | cons pubkey pubkeys ih =>
      obtain ⟨hpubkey, hrest⟩ := List.forall_mem_cons.mp hpubkeys
      obtain ⟨events, w', hcall, hkept, hrows⟩ := hfetch (moments k) relay hpubkey h
      have htail := ih hrest hkept
      simp only [tableRows, hcall, htail, hrows raw]
      rw [List.zipIdx_cons, List.filterMap_cons, shown]
      cases (firstBy pubkey (history lib disk others (k + 1))).bind
        (eventRow lib raw pubkey (generateUuidV4 (moments k).draws)) <;> rfl

/-- The keys of the tags of an event the relay holds are UTF-8. -/
theorem utf8_followed_by {events : List EventT} {w : World} (h : Tracks lib events w)
    (pubkey : Bytes) : ∀ key ∈ followedBy pubkey events, Wire.Utf8 key := by
  intro key hkey
  rw [followedBy] at hkey
  split at hkey
  · cases hkey
  · next ev hev =>
    obtain ⟨tag, htag, hfollowed⟩ := List.mem_filterMap.mp hkey
    have hutf8 := (utf8_first_by h hev).tags tag htag
    rw [followed.eq_def] at hfollowed
    split at hfollowed
    · next name value rest =>
      split_ifs at hfollowed with hp
      obtain rfl := Option.some.inj hfollowed
      exact hutf8 value (by simp)
    · cases hfollowed

/-- The page shows what was stored of everybody the user follows. -/
theorem page_eq (hlib : lib.Lawful) (times : Nat → Int64) {fetch : Fetch (World × Nat)}
    (hfetch : Fetches lib disk others fetch) (moments : Nat → Moment) (raw : Bool) {user : Bytes}
    (huser : Wire.Utf8 user) :
    (page lib (vostro lib others times) fetch moments raw user (relayT lib disk, 0)).1 =
      ((followedBy user (history lib disk others 1)).zipIdx 1).filterMap
        (shown lib disk others moments raw) := by
  have hstart : Tracks lib (history lib disk others 0) (relayT lib disk) := by
    simpa [history] using tracks_relay_t hlib disk
  obtain ⟨w', hfollows, hkept⟩ := get_follows_eq hlib times hstart (moments 0) relay huser
  simp only [page, hfollows]
  exact table_rows_eq hfetch moments raw (utf8_followed_by hkept user) hkept

end

/-- What the two pages show, whatever others send to the relay before and between the requests. The
keys are those of the `p` tags in the first event the relay has of the user, of any kind; a key has
one row, with the first event the relay has of it when the request for the key comes, or none when
it has no event of it. -/
theorem pages_show (lib : JsonLib) (hlib : lib.Lawful) (disk : Disk)
    (others : Nat → List (Int64 × Bytes)) (times : Nat → Int64) (moments : Nat → Moment)
    (raw : Bool) (user : Bytes) (huser : Wire.Utf8 user) :
    let rows := ((followedBy user (history lib disk others 1)).zipIdx 1).filterMap
      (shown lib disk others moments raw)
    (feedPage lib (vostro lib others times) moments raw user (relayT lib disk, 0)).1 = rows ∧
      (followsPage lib (vostro lib others times) moments raw user (relayT lib disk, 0)).1 =
        rows :=
  ⟨page_eq hlib times (get_feed_fetches hlib times) moments raw huser,
    page_eq hlib times (get_metadata_fetches hlib times) moments raw huser⟩

/-- A note of a user who follows herself. -/
def selfNote : EventT :=
  { storedNote with tags := [[ascii "p", ascii "a"]] }

/-- The sample event is UTF-8. -/
theorem utf8_self_note : selfNote.Utf8 where
  id := rfl
  pubkey := utf8_stored_note.pubkey
  tags tag htag t ht := by
    obtain rfl := List.mem_singleton.mp htag
    have hall : [ascii "p", ascii "a"].all fun t => Wire.Utf8 t := by decide
    simpa using List.all_eq_true.mp hall t ht
  content := utf8_stored_note.content
  sig := rfl

/-- The message that brings the note, before the first request. -/
def selfMessages (k : Nat) : List (Int64 × Bytes) :=
  if k = 0 then [(1688794200, eventText [toJson selfNote])] else []

/-- The draws of a generator that is stuck. -/
def stuck : Moment where
  draws := ⟨fun _ => Fin.last 15, Fin.last 3⟩
  now := 1688794201

/-- Her feed shows the note. -/
theorem pages_show_self :
    (feedPage JsonLib.reference
      (vostro JsonLib.reference selfMessages fun _ => 1688794202) (fun _ => stuck) false
      (ascii "a") (relayT JsonLib.reference emptyDisk, 0)).1 =
        [.content (ascii "a") (ascii "hello")] := by
  obtain ⟨htype, hclient⟩ := parse_client_event_text utf8_self_note (EventT.new 1688794200)
  have hreceived : received JsonLib.reference (1688794200, eventText [toJson selfNote]) =
      some selfNote := by simp [received, htype, hclient]
  have hhistory : ∀ k, history JsonLib.reference emptyDisk selfMessages (k + 1) = [selfNote] := by
    intro k
    induction k with
    | zero => simp [history, selfMessages, hreceived, read, emptyDisk]
    | succ k ih => simp [history_succ (k + 1), ih, selfMessages]
  have hkeys : followedBy (ascii "a") [selfNote] = [ascii "a"] := by decide +kernel
  have hutf8 : (delivery (generateUuidV4 stuck.draws) selfNote).isUtf8 = true := by
    simp [delivery, utf8_names, utf8_generate_uuid, utf8_self_note.to_json]
  have hrow : eventRow JsonLib.reference false (ascii "a") (generateUuidV4 stuck.draws) selfNote =
      some (.content (ascii "a") (ascii "hello")) := by
    simp only [eventRow, JsonLib.reference, hutf8, if_true, Option.map_some]
    rfl
  have hfirst : firstBy (ascii "a") [selfNote] = some selfNote := by
    simp [firstBy, selfNote, storedNote]
  have huser : Wire.Utf8 (ascii "a") := by decide
  have hpage := (pages_show JsonLib.reference JsonLib.reference_lawful emptyDisk selfMessages
    (fun _ => 1688794202) (fun _ => stuck) false (ascii "a") huser).1
  rw [hpage, hhistory 0, hkeys]
  simp [shown, hhistory, hfirst, hrow]

end Gnostr.Relay
