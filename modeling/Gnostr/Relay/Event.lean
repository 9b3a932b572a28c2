import Gnostr.Wire.JsonLib

/-!
# Events, filters and messages of the relay

`event_t`, `filter_t` and the message parsers of `src/nostr.cc`. A conversion from JSON assigns
the fields one after the other and throws at the first that is missing or has the wrong type,
so what it leaves behind may be filled in part. The parsers turn the exception into `-1` and
leave their output arguments as they are at that moment.
-/

namespace Gnostr.Relay

open Wire

/-- `event_t`. -/
structure EventT where
  id : Bytes
  pubkey : Bytes
  createdAt : Int64
  kind : Int32
  tags : List (List Bytes)
  content : Bytes
  sig : Bytes

/-- The constructor of `event_t`, at a given time. -/
def EventT.new (now : Int64) : EventT where
  id := []
  pubkey := []
  createdAt := now
  kind := 1
  tags := []
  content := []
  sig := []

/-- `filter_t`. -/
structure FilterT where
  ids : List Bytes
  authors : List Bytes
  kinds : List Int32
  e : List Bytes
  p : List Bytes
  since : Int64
  until_ : Int64
  limit : UInt64

/-- The constructor of `filter_t`, at a given time. -/
def FilterT.new (now : Int64) : FilterT where
  ids := []
  authors := []
  kinds := []
  e := []
  p := []
  since := 0
  until_ := now
  limit := 1

/-! ## Conversions -/

/-- A list of strings. -/
def stringsJson (ts : List Bytes) : Json :=
  .arr (ts.map .str)

/-- An object whose members were assigned in the given order. -/
def assigned (ms : List (String × Json)) : Json :=
  .obj (ms.foldl (fun done m => Json.insert (ascii m.1) m.2 done) [])

/-- `to_json` of `event_t`. -/
def toJson (s : EventT) : Json :=
  assigned [("id", .str s.id), ("pubkey", .str s.pubkey), ("created_at", .int s.createdAt.toInt),
    ("kind", .int s.kind.toInt), ("tags", .arr (s.tags.map stringsJson)),
    ("content", .str s.content), ("sig", .str s.sig)]

/-- A statement that may throw, run on the object it assigns to. -/
abbrev Assign (α : Type) := Json → α → Option α

/-- `j.at(key).get_to(field)`. -/
def required {α β : Type} (key : String) (get : Json → Option β) (set : α → β → α) : Assign α :=
  fun j s => (j.member (ascii key) >>= get).map (set s)

/-- `if (j.contains(key)) j.at(key).get_to(field)`. -/
def optional {α β : Type} (key : String) (get : Json → Option β) (set : α → β → α) : Assign α :=
  fun j s =>
    match j.member (ascii key) with
    | none => some s
    | some v => (get v).map (set s)

/-- Run assignments in order up to the first that throws: whether none did, and the object. -/
def assignAll {α : Type} (j : Json) : List (Assign α) → α → Bool × α
  | [], s => (true, s)
  | f :: fs, s =>
      match f j s with
      | some s => assignAll j fs s
      | none => (false, s)

/-- `get<std::time_t>`. -/
def getTime (lib : JsonLib) (j : Json) : Option Int64 :=
  (j.toNumber lib.truncate).map Int64.ofInt

/-- `get<int>`, which takes a truth value for a number too. -/
def getInt (lib : JsonLib) (j : Json) : Option Int32 :=
  (j.toArithmetic lib.truncate).map Int32.ofInt

/-- `get<size_t>`. -/
def getSize (lib : JsonLib) (j : Json) : Option UInt64 :=
  (j.toNumber lib.truncate).map UInt64.ofInt

/-- `get<std::vector<std::string>>`. -/
def getStrings : Json → Option (List Bytes) :=
  Json.toList Json.toStr

/-- The assignments of `from_json` of `event_t`. -/
def eventAssigns (lib : JsonLib) : List (Assign EventT) :=
  [required "id" Json.toStr fun s x => { s with id := x },
    required "pubkey" Json.toStr fun s x => { s with pubkey := x },
    required "created_at" (getTime lib) fun s x => { s with createdAt := x },
    required "kind" (getInt lib) fun s x => { s with kind := x },
    required "tags" (Json.toList getStrings) fun s x => { s with tags := x },
    required "content" Json.toStr fun s x => { s with content := x },
    required "sig" Json.toStr fun s x => { s with sig := x }]

/-- `from_json` of `event_t`. -/
def fromJson (lib : JsonLib) (j : Json) (s : EventT) : Bool × EventT :=
  assignAll j (eventAssigns lib) s

/-- The assignments of `from_json` of `filter_t`. -/
def filterAssigns (lib : JsonLib) : List (Assign FilterT) :=
  [optional "ids" getStrings fun s x => { s with ids := x },
    optional "authors" getStrings fun s x => { s with authors := x },
    optional "kinds" (Json.toList (getInt lib)) fun s x => { s with kinds := x },
    optional "#e" getStrings fun s x => { s with e := x },
    optional "#p" getStrings fun s x => { s with p := x },
    optional "since" (getTime lib) fun s x => { s with since := x },
    optional "until" (getTime lib) fun s x => { s with until_ := x },
    optional "limit" (getSize lib) fun s x => { s with limit := x }]

/-- `from_json` of `filter_t`. -/
def filterFromJson (lib : JsonLib) (j : Json) (s : FilterT) : Bool × FilterT :=
  assignAll j (filterAssigns lib) s

/-- `get<event_t>`: a fresh object, converted to. Every field is assigned, so the time at which
the object is made does not show. -/
def getEvent (lib : JsonLib) (j : Json) : Option EventT :=
  match fromJson lib j (EventT.new 0) with
  | (true, ev) => some ev
  | (false, _) => none

/-! ## Messages -/

/-- `nostr::Type`. -/
inductive MessageType where
  | event
  | req
  | close
  | eose
  | notice
  | unknown
  deriving DecidableEq

/-- The message and the type it names, as every parser reads them first. -/
def readMessage (lib : JsonLib) (json : Bytes) : Option (Bytes × Json) := do
  let message ← lib.parse json
  let head ← message.element 0
  let type ← head.toStr
  some (type, message)

/-- `get_message_type`. -/
def getMessageType (lib : JsonLib) (json : Bytes) : MessageType :=
  match readMessage lib json with
  | none => .unknown
  | some (type, _) =>
      if type = ascii "EVENT" then .event
      else if type = ascii "REQ" then .req
      else if type = ascii "CLOSE" then .close
      else if type = ascii "EOSE" then .eose
      else if type = ascii "NOTICE" then .notice
      else .unknown

/-- `0` or `-1`, as the parsers return them. -/
def status (ok : Bool) : Int :=
  if ok then 0 else -1

/-- `parse_client_event`: the status and the event. -/
def parseClientEvent (lib : JsonLib) (json : Bytes) (ev : EventT) : Int × EventT :=
  match readMessage lib json with
  | none => (-1, ev)
  | some (type, message) =>
      if type = ascii "EVENT" then
        match message.element 1 with
        | none => (-1, ev)
        | some j =>
            let (ok, ev) := fromJson lib j ev
            (status ok, ev)
      else (-1, ev)

/-- `parse_relay_event`: the status, the subscription and the event. -/
def parseRelayEvent (lib : JsonLib) (json subscriptionId : Bytes) (ev : EventT) :
    Int × Bytes × EventT :=
  match readMessage lib json with
  | none => (-1, subscriptionId, ev)
  | some (type, message) =>
      if type = ascii "EVENT" then
        match message.element 1 >>= Json.toStr with
        | none => (-1, subscriptionId, ev)
        | some subscriptionId =>
            match message.element 2 with
            | none => (-1, subscriptionId, ev)
            | some j =>
                let (ok, ev) := fromJson lib j ev
                (status ok, subscriptionId, ev)
      else (-1, subscriptionId, ev)

/-- `parse_request`: the status, the request id and the filter. Only the first filter of the
message is read. -/
def parseRequest (lib : JsonLib) (json requestId : Bytes) (filter : FilterT) :
    Int × Bytes × FilterT :=
  match readMessage lib json with
  | none => (-1, requestId, filter)
  | some (type, message) =>
      if type = ascii "REQ" then
        match message.element 1 >>= Json.toStr with
        | none => (-1, requestId, filter)
        | some requestId =>
            match message.element 2 with
            | none => (-1, requestId, filter)
            | some j =>
                let (ok, filter) := filterFromJson lib j filter
                (status ok, requestId, filter)
      else (-1, requestId, filter)

/-! ## Events survive the conversion -/

/-- Every string of the event is well-formed UTF-8. -/
structure EventT.Utf8 (ev : EventT) : Prop where
  id : Wire.Utf8 ev.id
  pubkey : Wire.Utf8 ev.pubkey
  tags : ∀ tag ∈ ev.tags, ∀ t ∈ tag, Wire.Utf8 t
  content : Wire.Utf8 ev.content
  sig : Wire.Utf8 ev.sig

/-- The members in the order the map keeps them. -/
theorem to_json_eq (s : EventT) :
    toJson s = .obj [(ascii "content", .str s.content),
      (ascii "created_at", .int s.createdAt.toInt), (ascii "id", .str s.id),
      (ascii "kind", .int s.kind.toInt), (ascii "pubkey", .str s.pubkey),
      (ascii "sig", .str s.sig), (ascii "tags", .arr (s.tags.map stringsJson))] := by
  simp +decide [toJson, assigned, Json.insert]

/-- Strings are read back from their array. -/
theorem get_strings_json (ts : List Bytes) : getStrings (stringsJson ts) = some ts := by
  simp only [getStrings, stringsJson, Json.toList]
  induction ts with
  | nil => rfl
  | cons t ts ih => simp [List.mapM_cons, Json.toStr, ih]

/-- So are tags. -/
theorem get_tags_json (tags : List (List Bytes)) :
    (Json.arr (tags.map stringsJson)).toList getStrings = some tags := by
  simp only [Json.toList]
  induction tags with
  | nil => rfl
  | cons tag tags ih => simp [List.mapM_cons, get_strings_json, ih]

/-- What `from_json` must find for an event: seven members of the right types. -/
structure Reads (lib : JsonLib) (j : Json) (ev : EventT) : Prop where
  id : j.member (ascii "id") >>= Json.toStr = some ev.id
  pubkey : j.member (ascii "pubkey") >>= Json.toStr = some ev.pubkey
  createdAt : j.member (ascii "created_at") >>= getTime lib = some ev.createdAt
  kind : j.member (ascii "kind") >>= getInt lib = some ev.kind
  tags : j.member (ascii "tags") >>= Json.toList getStrings = some ev.tags
  content : j.member (ascii "content") >>= Json.toStr = some ev.content
  sig : j.member (ascii "sig") >>= Json.toStr = some ev.sig

/-- A required field is there and is read. -/
theorem assign_all_required {α β : Type} {j : Json} {key : String} {get : Json → Option β}
    {set : α → β → α} {fs : List (Assign α)} {s s' : α} :
    assignAll j (required key get set :: fs) s = (true, s') ↔
      ∃ x, j.member (ascii key) >>= get = some x ∧ assignAll j fs (set s x) = (true, s') := by
  cases hget : j.member (ascii key) >>= get with
  | none => simp [assignAll, required, hget]
  | some x => simp [assignAll, required, hget]

/-- `from_json` succeeds exactly on the objects that hold the event, whatever it assigns to. -/
theorem from_json_iff {lib : JsonLib} {j : Json} {s ev : EventT} :
    fromJson lib j s = (true, ev) ↔ Reads lib j ev := by
  simp only [fromJson, eventAssigns, assign_all_required]
  constructor
  · rintro ⟨id, hid, pubkey, hpubkey, createdAt, htime, kind, hkind, tags, htags, content,
      hcontent, sig, hsig, hdone⟩
    obtain rfl := (Prod.mk.inj hdone).2
    exact ⟨hid, hpubkey, htime, hkind, htags, hcontent, hsig⟩
  · rintro ⟨hid, hpubkey, htime, hkind, htags, hcontent, hsig⟩
    exact ⟨_, hid, _, hpubkey, _, htime, _, hkind, _, htags, _, hcontent, _, hsig, rfl⟩

/-- Every field of an event is read back from its object. -/
theorem reads_to_json (lib : JsonLib) (ev : EventT) : Reads lib (toJson ev) ev := by
  have htags := get_tags_json ev.tags
  rw [to_json_eq]
  constructor <;> simp +decide [Json.member, Json.toStr, getTime, getInt, Json.toNumber,
    Json.toArithmetic, List.find?_cons_of_neg, htags]

/-- Converting an event to JSON and back gives the event. -/
theorem from_json_to_json (lib : JsonLib) (ev s : EventT) :
    fromJson lib (toJson ev) s = (true, ev) :=
  from_json_iff.mpr (reads_to_json lib ev)

/-- And so is the event. -/
theorem get_event_to_json (lib : JsonLib) (ev : EventT) : getEvent lib (toJson ev) = some ev := by
  rw [getEvent, from_json_to_json]

/-- An event is determined by its JSON. -/
theorem to_json_injective : Function.Injective toJson := fun ev ev' h => by
  have hev := get_event_to_json JsonLib.reference ev
  rw [h, get_event_to_json] at hev
  exact (Option.some.inj hev).symm

/-! ## UTF-8 and storability -/

/-- Strings can be stored. -/
theorem is_storable_strings (ts : List Bytes) : (stringsJson ts).isStorable = true := by
  simp [stringsJson]

/-- The JSON of an event can be stored. -/
theorem is_storable_to_json (ev : EventT) : (toJson ev).isStorable = true := by
  have htime := ev.createdAt.le_toInt
  have htime' := ev.createdAt.toInt_lt
  have hkind := ev.kind.le_toInt
  have hkind' := ev.kind.toInt_lt
  have hnumbers : Json.isWord ev.createdAt.toInt = true ∧ Json.isWord ev.kind.toInt = true := by
    simp only [Json.isWord, Bool.and_eq_true, decide_eq_true_eq]
    omega
  have hsorted : [ascii "content", ascii "created_at", ascii "id", ascii "kind", ascii "pubkey",
      ascii "sig", ascii "tags"].Pairwise (· < ·) := by decide
  rw [to_json_eq, Json.is_storable_obj]
  exact ⟨hsorted, by simp [hnumbers, is_storable_strings]⟩

/-- An event whose strings are UTF-8 can be dumped. -/
theorem EventT.Utf8.to_json {ev : EventT} (h : ev.Utf8) : (toJson ev).isUtf8 = true := by
  have htags : ∀ tag ∈ ev.tags, (stringsJson tag).isUtf8 = true := fun tag htag => by
    simpa [stringsJson] using h.tags tag htag
  have hnames : [ascii "content", ascii "created_at", ascii "id", ascii "kind", ascii "pubkey",
      ascii "sig", ascii "tags"].all fun t => Wire.Utf8 t := by decide
  simp only [List.all_cons, List.all_nil, Bool.and_true, Bool.and_eq_true,
    decide_eq_true_eq] at hnames
  rw [to_json_eq]
  simpa [hnames, h.id, h.pubkey, h.content, h.sig] using htags

/-- A fresh event holds no text. -/
theorem EventT.Utf8.new (now : Int64) : (EventT.new now).Utf8 where
  id := rfl
  pubkey := rfl
  tags := by simp [EventT.new]
  content := rfl
  sig := rfl

/-- What every assignment keeps, a conversion keeps, whether it throws or not. -/
theorem assign_all_preserves {α : Type} {P : α → Prop} {j : Json} {fs : List (Assign α)}
    (h : ∀ f ∈ fs, ∀ s s', f j s = some s' → P s → P s') {s : α} (hs : P s) :
    P (assignAll j fs s).2 := by
  induction fs generalizing s with
  | nil => exact hs
  | cons f fs ih =>
      have hrest := fun {s : α} => ih (s := s) fun g hg => h g (List.mem_cons_of_mem _ hg)
      cases hf : f j s with
      | none => simpa [assignAll, hf] using hs
      | some s' =>
          have hs' := h f List.mem_cons_self s s' hf hs
          simpa [assignAll, hf] using hrest hs'

/-- A required field that was assigned is there. -/
theorem required_some {α β : Type} {j : Json} {key : String} {get : Json → Option β}
    {set : α → β → α} {s s' : α} (h : required key get set j s = some s') :
    ∃ v x, j.member (ascii key) = some v ∧ get v = some x ∧ set s x = s' := by
  obtain ⟨x, hx, hset⟩ := Option.map_eq_some_iff.mp h
  obtain ⟨v, hv, hget⟩ := Option.bind_eq_some_iff.mp hx
  exact ⟨v, x, hv, hget, hset⟩

/-- Tags read from UTF-8 texts are UTF-8. -/
theorem utf8_get_tags {j : Json} {tags : List (List Bytes)} (h : j.isUtf8 = true)
    (hget : j.toList getStrings = some tags) : ∀ tag ∈ tags, ∀ t ∈ tag, Wire.Utf8 t := by
  intro tag htag t ht
  obtain ⟨v, hv, htag⟩ := Json.of_mem_to_list hget htag h
  obtain ⟨w, hw, ht⟩ := Json.of_mem_to_list htag ht hv
  exact Json.utf8_to_str hw ht

/-- A conversion from UTF-8 leaves UTF-8 behind, even when it throws half way. -/
theorem EventT.Utf8.from_json {lib : JsonLib} {j : Json} {s : EventT} (hj : j.isUtf8 = true)
    (hs : s.Utf8) : (fromJson lib j s).2.Utf8 := by
  refine assign_all_preserves (fun f hf s s' hstep hs => ?_) hs
  simp only [eventAssigns, List.mem_cons, List.not_mem_nil, or_false] at hf
  rcases hf with rfl | rfl | rfl | rfl | rfl | rfl | rfl <;>
    obtain ⟨v, x, hv, hx, rfl⟩ := required_some hstep
  · exact { hs with id := Json.utf8_to_str (Json.is_utf8_member hj hv) hx }
  · exact { hs with pubkey := Json.utf8_to_str (Json.is_utf8_member hj hv) hx }
  · exact { hs with }
  · exact { hs with }
  · exact { hs with tags := utf8_get_tags (Json.is_utf8_member hj hv) hx }
  · exact { hs with content := Json.utf8_to_str (Json.is_utf8_member hj hv) hx }
  · exact { hs with sig := Json.utf8_to_str (Json.is_utf8_member hj hv) hx }

/-- An event read from them is UTF-8. -/
theorem EventT.Utf8.get_event {lib : JsonLib} {j : Json} {ev : EventT} (hj : j.isUtf8 = true)
    (h : getEvent lib j = some ev) : ev.Utf8 := by
  have hutf8 : (fromJson lib j (EventT.new 0)).2.Utf8 := .from_json hj (.new 0)
  rcases hrun : fromJson lib j (EventT.new 0) with ⟨ok, ev'⟩
  cases ok with
  | false => simp [getEvent, hrun] at h
  | true =>
      simp only [getEvent, hrun, Option.some.injEq] at h
      simpa [hrun, h] using hutf8

/-- A message that was read is UTF-8. -/
theorem is_utf8_read_message {lib : JsonLib} (hlib : lib.Lawful) {json type : Bytes}
    {message : Json} (h : readMessage lib json = some (type, message)) : message.isUtf8 = true := by
  obtain ⟨m, hparse, hrest⟩ := Option.bind_eq_some_iff.mp h
  obtain ⟨head, -, hrest⟩ := Option.bind_eq_some_iff.mp hrest
  obtain ⟨type', -, hmessage⟩ := Option.bind_eq_some_iff.mp hrest
  obtain rfl := (Prod.mk.inj (Option.some.inj hmessage)).2
  exact hlib.parse_utf8 hparse

/-- The event a client sent is UTF-8, well-formed or not. -/
theorem EventT.Utf8.parse_client_event {lib : JsonLib} (hlib : lib.Lawful) (json : Bytes)
    {ev : EventT} (hev : ev.Utf8) : (parseClientEvent lib json ev).2.Utf8 := by
  unfold parseClientEvent
  split
  · exact hev
  · next type message hread =>
    split_ifs
    · split
      · exact hev
      · next j hj =>
        exact EventT.Utf8.from_json (Json.is_utf8_element (is_utf8_read_message hlib hread) hj) hev
    · exact hev

/-- The request id a client sent is UTF-8, whether the request is well formed or not. -/
theorem utf8_request_id {lib : JsonLib} (hlib : lib.Lawful) (json : Bytes) {requestId : Bytes}
    (hid : Wire.Utf8 requestId) (filter : FilterT) :
    Wire.Utf8 (parseRequest lib json requestId filter).2.1 := by
  unfold parseRequest
  split
  · exact hid
  · next type message hread =>
    split_ifs
    · split
      · exact hid
      · next id hstr =>
        obtain ⟨v, hv, hstr⟩ := Option.bind_eq_some_iff.mp hstr
        have hutf8 := Json.utf8_to_str
          (Json.is_utf8_element (is_utf8_read_message hlib hread) hv) hstr
        split
        · exact hutf8
        · exact hutf8
    · exact hid

end Gnostr.Relay
