import Gnostr.Relay.Answers
import Gnostr.Relay.Http

/-!
# The relay over HTTP

`src/http/http_relay.cc`: the second relay, on the same database file. Its loop accepts a
connection, reads one posted message and writes one response; whatever throws ends the turn
without one. A request is answered with all events that `database::request` finds, where
`relay_t` sends the first: `relays_agree_iff` says when a client can tell the two apart.
-/

namespace Gnostr.Relay

open Wire

/-- The list in memory and the database file. -/
structure HttpRelay where
  database : List EventT
  databaseJson : Option Bytes

/-- The start of `main`: an empty database is saved over the file. -/
def HttpRelay.start (lib : JsonLib) (file : Option Bytes) : HttpRelay where
  database := []
  databaseJson := (save lib [] file).2

/-- The text of an address, as the socket gives it. -/
structure Address where
  text : Bytes
  no_cr : 13 ∉ text
  no_lf : 10 ∉ text

/-- One turn of the loop once the message is there: the response, if one is written. -/
def answer (lib : JsonLib) (now : Int64) (clientIp : Address) (msg : Bytes) (w : HttpRelay) :
    Option Bytes × HttpRelay :=
  match readMessage lib msg with
  | none => (none, w)
  | some (type, message) =>
      if type = ascii "EVENT" then
        match (message.element 1).map fun j => fromJson lib j (EventT.new now) with
        | some (true, ev) =>
            let database := w.database ++ [ev]
            (some (ascii "HTTP/1.1 200 OK\r\n\r\n"),
              { database := database, databaseJson := (append lib database w.databaseJson).2 })
        | _ => (none, w)
      else if type = ascii "REQ" then
        match message.element 1 >>= Json.toStr with
        | none => (none, w)
        | some _ =>
            match (message.element 2).map fun j => filterFromJson lib j (FilterT.new now) with
            | some (true, filter) =>
                let events := request lib filter w.databaseJson
                ((lib.dump (some 2) (eventsJson events)).map (makePost clientIp.text), w)
            | _ => (none, w)
      else (none, w)

/-- One turn of the loop. When reading the post fails, the message is empty. -/
def serve (lib : JsonLib) (now : Int64) (clientIp : Address) (sock : Socket) (w : HttpRelay) :
    Option Bytes × HttpRelay :=
  answer lib now clientIp (parse sock HttpMsg.new).2.msg w

/-! ## What a client receives -/

/-- The events in an answer of `relay_t`: the one `parse_relay_event` reads, if any. -/
def delivered (lib : JsonLib) (now : Int64) (json : Bytes) : List EventT :=
  match parseRelayEvent lib json [] (EventT.new now) with
  | (0, _, ev) => [ev]
  | _ => []

/-- The events in the body of a response: what stands behind the first blank line. -/
def deliveredHttp (lib : JsonLib) (response : Bytes) : List EventT :=
  match indexOf [13, 10, 13, 10] response with
  | none => []
  | some i => read lib (some (response.drop (i + 4)))

/-- A request is answered by `relay_t` with the first of the events. -/
theorem delivered_first {lib : JsonLib} (hlib : lib.Lawful) {msg id : Bytes} {filter : FilterT}
    {now : Int64} (hreq : parseRequest lib msg [] (FilterT.new now) = (0, id, filter)) (w : World)
    (later : Int64) :
    ∃ json, (makeResponse lib now msg w).1 = some json ∧
      delivered lib later json = (request lib filter w.disk.databaseJson).take 1 := by
  have hid := utf8_id_of_request hlib hreq
  have hanswer := make_response_req now w (message_type_of_request hreq)
  rw [hreq] at hanswer
  cases hrequest : request lib filter w.disk.databaseJson with
  | nil =>
      obtain ⟨json, hdump, hparse⟩ := dump_strings hlib utf8_names.2.1 hid
      have hother : ascii "EOSE" ≠ ascii "EVENT" := by decide
      refine ⟨json, ?_, ?_⟩
      · rw [hanswer, hrequest]
        exact hdump
      · simp [delivered, parseRelayEvent, read_message_eq hparse, hother]
  | cons ev events =>
      have hev := EventT.Utf8.request hlib filter w.disk.databaseJson ev
        (hrequest ▸ List.mem_cons_self)
      obtain ⟨json, hdump, hparse⟩ := dump_event hlib hid hev
      refine ⟨json, ?_, ?_⟩
      · rw [hanswer, hrequest]
        exact hdump
      · simp [delivered, parseRelayEvent, read_message_eq hparse, Json.element, Json.toStr,
          from_json_to_json, status]

/-- The body of a post stands behind its first blank line. -/
theorem body_make_post (clientIp : Address) (json : Bytes) :
    ∃ i, indexOf [13, 10, 13, 10] (makePost clientIp.text json) = some i ∧
      (makePost clientIp.text json).drop (i + 4) = json := by
  have hfirst : IsHeaderLine (ascii "POST / HTTP/1.1") := ⟨by decide, by decide, by decide⟩
  have hindex := index_of_blank_line (ascii "POST / HTTP/1.1")
    (postLines clientIp.text json.length) hfirst
    (is_header_line_post clientIp.no_cr clientIp.no_lf _) json
  have hsplit : makePost clientIp.text json =
      (lines (ascii "POST / HTTP/1.1" :: postLines clientIp.text json.length) ++ [13, 10]) ++
        json := by
    simp [make_post_eq]
  rw [← make_post_eq] at hindex
  refine ⟨_, hindex, ?_⟩
  rw [hsplit]
  refine List.drop_left' ?_
  simp only [lines_cons, List.length_append, List.length_cons, List.length_nil]
  omega

/-- A request is answered over HTTP with all of them. -/
theorem delivered_all {lib : JsonLib} (hlib : lib.Lawful) {msg id : Bytes} {f : Json}
    {filters : List Json} {filter : FilterT} {now : Int64}
    (hmsg : lib.parse msg = some (.arr (.str (ascii "REQ") :: .str id :: f :: filters)))
    (hf : filterFromJson lib f (FilterT.new now) = (true, filter)) (clientIp : Address)
    (w : HttpRelay) :
    ∃ response, (answer lib now clientIp msg w).1 = some response ∧
      deliveredHttp lib response = request lib filter w.databaseJson := by
  obtain ⟨json, hdump, hstored⟩ := dump_events hlib
    (EventT.Utf8.request hlib filter w.databaseJson)
  obtain ⟨i, hindex, hbody⟩ := body_make_post clientIp json
  have hother : ascii "REQ" ≠ ascii "EVENT" := by decide
  refine ⟨makePost clientIp.text json, ?_, ?_⟩
  · simp [answer, read_message_eq hmsg, hother, Json.element, Json.toStr, hf, hdump]
  · rw [deliveredHttp, hindex]
    simp only [hbody]
    rw [read_eq, hstored, Option.getD_some]

/-- The two relays deliver the same events, all that match, exactly when at most one stored event
has an author the request asks for. -/
theorem relays_agree_iff (lib : JsonLib) (hlib : lib.Lawful) (msg id : Bytes) (f : Json)
    (filters : List Json)
    (hmsg : lib.parse msg = some (.arr (.str (ascii "REQ") :: .str id :: f :: filters)))
    (hf : WellFormedFilter lib f) (file : Option Bytes) (w : World)
    (hw : w.disk.databaseJson = file) (v : HttpRelay) (hv : v.databaseJson = file)
    (now now' later : Int64) (clientIp : Address) (sock : Socket)
    (hsock : (parse sock HttpMsg.new).2.msg = msg) :
    (∃ json response, (makeResponse lib now msg w).1 = some json ∧
        (serve lib now' clientIp sock v).1 = some response ∧
        delivered lib later json = deliveredHttp lib response ∧
        deliveredHttp lib response =
          request lib (parseRequest lib msg [] (FilterT.new now)).2.2 file) ↔
      (read lib file).countP (fun ev => ev.pubkey ∈ authorsOf f) ≤ 1 := by
  obtain ⟨filter, -, hreq, hrequest⟩ := parse_well_formed_request hmsg hf [] now
  obtain ⟨filter', hconvert, -, hrequest'⟩ := parse_well_formed_request hmsg hf [] now'
  obtain ⟨json, hjson, hfirst⟩ := delivered_first hlib hreq w later
  obtain ⟨response, hresponse, hall⟩ := delivered_all hlib hmsg hconvert clientIp v
  rw [hw, hrequest] at hfirst
  rw [hv, hrequest'] at hall
  rw [← hsock] at hresponse
  rw [hreq, hrequest, List.countP_eq_length_filter]
  constructor
  · rintro ⟨json', response', hjson', hresponse', hsame, -⟩
    obtain rfl := Option.some.inj (hjson.symm.trans hjson')
    obtain rfl := Option.some.inj (hresponse.symm.trans hresponse')
    -- one side is the other cut to its first event
    rw [hfirst, hall] at hsame
    have hlength := congrArg List.length hsame
    rw [List.length_take] at hlength
    omega
  · intro hone
    refine ⟨json, response, hjson, hresponse, ?_, hall⟩
    rw [hfirst, hall, List.take_of_length_le hone]

/-- An address of the local network, and a request for one author posted from it. -/
def loopback : Address where
  text := ascii "127.0.0.1"
  no_cr := by decide
  no_lf := by decide

def requestPost : Socket where
  incoming := makePost loopback.text (requestText authorsFilter)
  ahead := 0

/-- The body of the sample request. -/
theorem msg_request_post :
    (parse requestPost HttpMsg.new).2.msg = requestText authorsFilter := by
  have hhost : ¬ ascii "Content-Length: " <:+: loopback.text := by decide +kernel
  have hbody : (requestText authorsFilter).length < 2 ^ 31 := by decide +kernel
  rw [requestPost, parse_post loopback.no_cr loopback.no_lf hhost hbody]
  rfl

/-- It is read as JSON. -/
theorem parse_request_sample :
    JsonLib.reference.parse (requestText authorsFilter) =
      some (.arr [.str (ascii "REQ"), .str (ascii "sub"), authorsFilter]) :=
  parse_request_text (by decide) (by decide)

/-- A file that holds the given events, and the two relays on it. -/
def eventsFile (events : List EventT) : Option Bytes :=
  some ((eventsJson events).render (some 2) 0)

def relayWith (events : List EventT) : World where
  database := []
  disk := { emptyDisk with databaseJson := eventsFile events }

def httpRelayWith (events : List EventT) : HttpRelay where
  database := []
  databaseJson := eventsFile events

/-- The sample file holds its events. -/
theorem read_events_file (events : List EventT) (h : ∀ ev ∈ events, ev.Utf8) :
    read JsonLib.reference (eventsFile events) = events := by
  have hparse := JsonLib.reference_parse (EventT.Utf8.events_json h) (is_storable_events events)
    (some 2)
  simp [read, eventsFile, hparse, to_list_events]

/-- With one note by the author, both relays deliver it. -/
theorem relays_agree_iff_one :
    ∃ json response,
      (makeResponse JsonLib.reference 1688794200 (requestText authorsFilter)
        (relayWith [storedNote])).1 = some json ∧
      (serve JsonLib.reference 1688794201 loopback requestPost
        (httpRelayWith [storedNote])).1 = some response ∧
      delivered JsonLib.reference 1688794202 json = deliveredHttp JsonLib.reference response ∧
      deliveredHttp JsonLib.reference response =
        request JsonLib.reference (parseRequest JsonLib.reference (requestText authorsFilter) []
          (FilterT.new 1688794200)).2.2 (eventsFile [storedNote]) := by
  have hread := read_events_file [storedNote] (by simpa using utf8_stored_note)
  refine (relays_agree_iff JsonLib.reference JsonLib.reference_lawful (requestText authorsFilter)
    (ascii "sub") authorsFilter [] parse_request_sample (well_formed_samples _).1
    (eventsFile [storedNote]) (relayWith [storedNote]) rfl (httpRelayWith [storedNote]) rfl
    1688794200 1688794201 1688794202 loopback requestPost msg_request_post).mpr ?_
  rw [hread]
  exact List.countP_le_length

/-- With two notes by the author, one relay delivers one and the other both. -/
theorem relays_differ_on_two_notes :
    ¬ ∀ (lib : JsonLib), lib.Lawful → ∀ (msg id : Bytes) (f : Json) (filters : List Json),
      lib.parse msg = some (.arr (.str (ascii "REQ") :: .str id :: f :: filters)) →
      WellFormedFilter lib f → ∀ (file : Option Bytes) (w : World), w.disk.databaseJson = file →
      ∀ v : HttpRelay, v.databaseJson = file →
      ∀ (now now' later : Int64) (clientIp : Address) (sock : Socket),
      (parse sock HttpMsg.new).2.msg = msg →
      ∃ json response, (makeResponse lib now msg w).1 = some json ∧
        (serve lib now' clientIp sock v).1 = some response ∧
        delivered lib later json = deliveredHttp lib response ∧
        deliveredHttp lib response =
          request lib (parseRequest lib msg [] (FilterT.new now)).2.2 file := by
  intro h
  have hread := read_events_file [storedNote, storedNote]
    (by simpa using utf8_stored_note)
  obtain ⟨json, response, hjson, hresponse, hsame, -⟩ := h JsonLib.reference
    JsonLib.reference_lawful (requestText authorsFilter) (ascii "sub") authorsFilter []
    parse_request_sample (well_formed_samples _).1 (eventsFile [storedNote, storedNote])
    (relayWith [storedNote, storedNote]) rfl
    (httpRelayWith [storedNote, storedNote]) rfl 1688794200 1688794200 1688794200 loopback
    requestPost msg_request_post
  obtain ⟨filter, hconvert, hreq, hrequest⟩ := parse_well_formed_request parse_request_sample
    (well_formed_samples _).1 [] 1688794200
  obtain ⟨json', hjson', hfirst⟩ := delivered_first JsonLib.reference_lawful hreq
    (relayWith [storedNote, storedNote]) 1688794200
  obtain ⟨response', hresponse', hall⟩ := delivered_all JsonLib.reference_lawful
    parse_request_sample hconvert loopback (httpRelayWith [storedNote, storedNote])
  rw [serve, msg_request_post] at hresponse
  obtain rfl := Option.some.inj (hjson.symm.trans hjson')
  obtain rfl := Option.some.inj (hresponse.symm.trans hresponse')
  rw [hfirst, hall, hrequest, hrequest] at hsame
  have hfile : (httpRelayWith [storedNote, storedNote]).databaseJson =
      (relayWith [storedNote, storedNote]).disk.databaseJson := rfl
  have hauthor : storedNote.pubkey ∈ authorsOf authorsFilter := by decide
  have hlength := congrArg List.length hsame
  rw [hfile, show (relayWith [storedNote, storedNote]).disk.databaseJson =
    eventsFile [storedNote, storedNote] from rfl, hread] at hlength
  simp [hauthor] at hlength

end Gnostr.Relay
