import Gnostr.Relay.Database

/-!
# The relay

`relay_t` of `src/relay.cc`: the events live twice, in the member `database` and in
`database.json`. Every `EVENT` message pushes one event to the member and then appends the whole
member to the file. `Copies` is this machine on lists alone, `copies_run` says that the relay
follows it on every sequence of messages, and `store_exact_iff` on which sequences the two copies
stay what they should be.
-/

namespace Gnostr.Relay

open Wire

/-! ## Two copies of a list -/

section Copies

variable {α : Type}

/-- A list kept in memory and in a file. -/
structure Copies (α : Type) where
  memory : List α
  file : List α

/-- Push an item to the memory and append all of the memory to the file. -/
def Copies.receive (c : Copies α) (x : α) : Copies α where
  memory := c.memory ++ [x]
  file := c.file ++ (c.memory ++ [x])

/-- The memory holds every item once. -/
theorem Copies.memory_run (c : Copies α) (xs : List α) :
    (xs.foldl receive c).memory = c.memory ++ xs := by
  induction xs generalizing c with
  | nil => simp
  | cons x xs ih => simp [ih, receive]

/-- Once the file is longer than the memory, it stays longer. -/
theorem Copies.longer_run {c : Copies α} (h : c.memory.length < c.file.length) (xs : List α) :
    (xs.foldl receive c).memory.length < (xs.foldl receive c).file.length := by
  induction xs generalizing c with
  | nil => exact h
  | cons x xs ih =>
      refine ih ?_
      simp only [receive, List.length_append, List.length_singleton]
      omega

/-- Two equal copies stay equal only while nothing is received, or when nothing was there before
and one item is. -/
theorem Copies.agree_iff (start xs : List α) :
    (xs.foldl receive ⟨start, start⟩).file = (xs.foldl receive ⟨start, start⟩).memory ↔
      xs = [] ∨ (start = [] ∧ ∃ x, xs = [x]) := by
  cases xs with
  | nil => simp
  | cons x xs =>
      cases xs with
      | nil =>
          simp only [List.foldl_cons, List.foldl_nil, receive]
          constructor
          · intro h
            have hlen := congrArg List.length h
            simp only [List.length_append] at hlen
            exact .inr ⟨List.length_eq_zero_iff.mp (by omega), x, rfl⟩
          · rintro (h | ⟨rfl, -⟩)
            · cases h
            · rfl
      | cons y ys =>
          -- the second item stores the first one again, and no later one makes up for it
          have hlonger := longer_run (c := (Copies.mk start start).receive x |>.receive y)
            (by simp only [receive, List.length_append, List.length_singleton]; omega) ys
          constructor
          · intro h
            have hlen := congrArg List.length h
            simp only [List.foldl_cons] at hlen
            omega
          · rintro (h | ⟨-, z, h⟩) <;> simp at h

end Copies

/-! ## `relay_t` -/

/-- The files the relay writes. -/
structure Disk where
  databaseJson : Option Bytes
  relayMessage : Option Bytes
  relayResponse : Option Bytes

/-- A relay and its files. -/
structure World where
  database : List EventT
  disk : Disk

/-- The constructor of `relay_t`. -/
def relayT (lib : JsonLib) (disk : Disk) : World where
  database := read lib disk.databaseJson
  disk := disk

/-- `comm::json_to_file`. -/
def jsonToFile (lib : JsonLib) (buf : Bytes) (file : Option Bytes) : Option Bytes :=
  match lib.parse buf >>= lib.dump (some 1) with
  | some json => some json
  | none => file

/-- The branches of `make_response`: the text of the answer, or nothing when dumping throws. -/
def respond (lib : JsonLib) (now : Int64) (msg : Bytes) (w : World) : Option Bytes × World :=
  match getMessageType lib msg with
  | .event =>
      -- the status is tested and the branch is empty
      let (_, ev) := parseClientEvent lib msg (EventT.new now)
      let database := w.database ++ [ev]
      let (_, file) := append lib database w.disk.databaseJson
      (lib.dump none (.arr [.str (ascii "EOSE"), .str ev.id]),
        { w with database := database, disk := { w.disk with databaseJson := file } })
  | .req =>
      let (_, requestId, filter) := parseRequest lib msg [] (FilterT.new now)
      match request lib filter w.disk.databaseJson with
      | ev :: _ => (lib.dump none (.arr [.str (ascii "EVENT"), .str requestId, toJson ev]), w)
      | [] => (lib.dump none (.arr [.str (ascii "EOSE"), .str requestId]), w)
  | _ => (lib.dump none (.arr [.str (ascii "NOTICE"), .str (ascii "Error")]), w)

/-- `make_response`: the answer, or nothing when an exception leaves the function. -/
def makeResponse (lib : JsonLib) (now : Int64) (msg : Bytes) (w : World) : Option Bytes × World :=
  let message := jsonToFile lib msg w.disk.relayMessage
  match respond lib now msg { w with disk := { w.disk with relayMessage := message } } with
  | (none, w) => (none, w)
  | (some json, w) =>
      let response := jsonToFile lib json w.disk.relayResponse
      (some json, { w with disk := { w.disk with relayResponse := response } })

/-- The relay after a sequence of messages, each with the time it is handled at. -/
def run (lib : JsonLib) (w : World) (msgs : List (Int64 × Bytes)) : World :=
  msgs.foldl (fun w m => (makeResponse lib m.1 m.2 w).2) w

/-- The event the relay makes of a message: whatever `parse_client_event` leaves behind when the
message calls itself an event. -/
def received (lib : JsonLib) (m : Int64 × Bytes) : Option EventT :=
  if getMessageType lib m.2 = .event then some (parseClientEvent lib m.2 (EventT.new m.1)).2
  else none

/-- The event of a well-formed `EVENT` message. -/
def accepted (lib : JsonLib) (m : Int64 × Bytes) : Option EventT :=
  if (parseClientEvent lib m.2 (EventT.new m.1)).1 = 0 then
    some (parseClientEvent lib m.2 (EventT.new m.1)).2
  else none

/-- The two copies the relay keeps. -/
def World.copies (lib : JsonLib) (w : World) : Copies EventT where
  memory := w.database
  file := read lib w.disk.databaseJson

/-! ## One message -/

/-- What `make_response` adds to its branches: two more files. -/
theorem make_response_eq (lib : JsonLib) (now : Int64) (msg : Bytes) (w : World) :
    ∃ w', w'.database = w.database ∧ w'.disk.databaseJson = w.disk.databaseJson ∧
      (makeResponse lib now msg w).1 = (respond lib now msg w').1 ∧
      (makeResponse lib now msg w).2.database = (respond lib now msg w').2.database ∧
      (makeResponse lib now msg w).2.disk.databaseJson =
        (respond lib now msg w').2.disk.databaseJson := by
  refine ⟨{ w with disk :=
    { w.disk with relayMessage := jsonToFile lib msg w.disk.relayMessage } }, rfl, rfl, ?_⟩
  rcases hrespond : respond lib now msg { w with disk :=
    { w.disk with relayMessage := jsonToFile lib msg w.disk.relayMessage } } with ⟨answer, w'⟩
  cases answer with
  | none => simp [makeResponse, hrespond]
  | some json => simp [makeResponse, hrespond]

/-- An `EVENT` message is answered with `EOSE`, pushed and appended, whatever its status. -/
theorem make_response_event {lib : JsonLib} {now : Int64} {msg : Bytes} {ev : EventT} (w : World)
    (htype : getMessageType lib msg = .event)
    (hev : (parseClientEvent lib msg (EventT.new now)).2 = ev) :
    (makeResponse lib now msg w).1 = lib.dump none (.arr [.str (ascii "EOSE"), .str ev.id]) ∧
      (makeResponse lib now msg w).2.database = w.database ++ [ev] ∧
      (makeResponse lib now msg w).2.disk.databaseJson =
        (append lib (w.database ++ [ev]) w.disk.databaseJson).2 := by
  obtain ⟨w', hdatabase, hfile, hanswer, hmemory, hdisk⟩ := make_response_eq lib now msg w
  rw [hanswer, hmemory, hdisk]
  simp [respond, htype, hev, hdatabase, hfile]

/-- Every other message leaves both copies alone. -/
theorem make_response_other {lib : JsonLib} {msg : Bytes} (now : Int64) (w : World)
    (htype : getMessageType lib msg ≠ .event) :
    (makeResponse lib now msg w).2.database = w.database ∧
      (makeResponse lib now msg w).2.disk.databaseJson = w.disk.databaseJson := by
  obtain ⟨w', hdatabase, hfile, -, hmemory, hdisk⟩ := make_response_eq lib now msg w
  have hsame : (respond lib now msg w').2 = w' := by
    cases hcase : getMessageType lib msg with
    | event => exact absurd hcase htype
    | req =>
        simp only [respond, hcase]
        split <;> rfl
    | _ => simp [respond, hcase]
  rw [hmemory, hdisk, hsame]
  exact ⟨hdatabase, hfile⟩

/-- The strings of every event in memory are UTF-8. -/
def World.Utf8 (w : World) : Prop :=
  ∀ ev ∈ w.database, ev.Utf8

/-- At the start everything is UTF-8. -/
theorem World.Utf8.relay_t {lib : JsonLib} (hlib : lib.Lawful) (disk : Disk) :
    (relayT lib disk).Utf8 :=
  EventT.Utf8.read hlib disk.databaseJson

/-- One message: the relay does what the two copies do with the event it received, and the
memory stays UTF-8. -/
theorem copies_step {lib : JsonLib} (hlib : lib.Lawful) {w : World} (hw : w.Utf8)
    (m : Int64 × Bytes) :
    (makeResponse lib m.1 m.2 w).2.copies lib =
        (received lib m).toList.foldl Copies.receive (w.copies lib) ∧
      (makeResponse lib m.1 m.2 w).2.Utf8 := by
  by_cases htype : getMessageType lib m.2 = .event
  · obtain ⟨-, hmemory, hdisk⟩ :=
      make_response_event w htype (Eq.refl (parseClientEvent lib m.2 (EventT.new m.1)).2)
    have hev : (parseClientEvent lib m.2 (EventT.new m.1)).2.Utf8 :=
      .parse_client_event hlib m.2 (.new m.1)
    have hutf8 : ∀ ev ∈ w.database ++ [(parseClientEvent lib m.2 (EventT.new m.1)).2], ev.Utf8 := by
      intro ev hmem
      rcases List.mem_append.mp hmem with hmem | hmem
      · exact hw ev hmem
      · rw [List.mem_singleton.mp hmem]
        exact hev
    obtain ⟨json, happend, hread⟩ := read_append hlib hutf8 w.disk.databaseJson
    constructor
    · simp [World.copies, hmemory, hdisk, happend, hread, received, htype, Copies.receive]
    · intro ev hmem
      rw [hmemory] at hmem
      exact hutf8 ev hmem
  · obtain ⟨hmemory, hdisk⟩ := make_response_other m.1 w htype
    constructor
    · simp [World.copies, hmemory, hdisk, received, htype]
    · intro ev hmem
      rw [hmemory] at hmem
      exact hw ev hmem

/-! ## Runs -/

/-- The relay follows the two copies along every sequence of messages. -/
theorem copies_run {lib : JsonLib} (hlib : lib.Lawful) {w : World} (hw : w.Utf8)
    (msgs : List (Int64 × Bytes)) :
    (run lib w msgs).copies lib =
      (msgs.filterMap (received lib)).foldl Copies.receive (w.copies lib) := by
  induction msgs generalizing w with
  | nil => rfl
  | cons m msgs ih =>
      obtain ⟨hcopies, hutf8⟩ := copies_step hlib hw m
      have hrest := ih hutf8
      rw [hcopies] at hrest
      cases hm : received lib m with
      | none => simpa [run, hm] using hrest
      | some ev => simpa [run, hm] using hrest

/-- A well-formed message is one the relay receives an event from. -/
theorem received_of_accepted {lib : JsonLib} {m : Int64 × Bytes} {ev : EventT}
    (h : accepted lib m = some ev) : received lib m = some ev := by
  unfold accepted at h
  split_ifs at h with hstatus
  have htype : getMessageType lib m.2 = .event := by
    unfold parseClientEvent at hstatus
    unfold getMessageType
    split at hstatus
    · exact absurd hstatus (by simp)
    · next type message hread =>
      split_ifs at hstatus with hevent
      · simp [hevent]
      · exact absurd hstatus (by simp)
  simpa [received, htype] using h

/-- The messages that call themselves events. -/
def eventMessages (lib : JsonLib) (msgs : List (Int64 × Bytes)) : List (Int64 × Bytes) :=
  msgs.filter fun m => getMessageType lib m.2 = .event

/-- What is received is the events of the `EVENT` messages. -/
theorem received_eq (lib : JsonLib) (msgs : List (Int64 × Bytes)) :
    msgs.filterMap (received lib) =
      (eventMessages lib msgs).map fun m => (parseClientEvent lib m.2 (EventT.new m.1)).2 := by
  induction msgs with
  | nil => rfl
  | cons m msgs ih =>
      by_cases htype : getMessageType lib m.2 = .event
      · simpa [received, eventMessages, htype] using ih
      · simpa [received, eventMessages, htype] using ih

/-- What is accepted comes in with these. -/
theorem accepted_eq (lib : JsonLib) (msgs : List (Int64 × Bytes)) :
    msgs.filterMap (accepted lib) = (eventMessages lib msgs).filterMap (accepted lib) := by
  induction msgs with
  | nil => rfl
  | cons m msgs ih =>
      by_cases htype : getMessageType lib m.2 = .event
      · simp [eventMessages, htype, List.filterMap_cons, ih]
      · have hnone : accepted lib m = none := by
          by_contra hsome
          obtain ⟨ev, hev⟩ := Option.ne_none_iff_exists'.mp hsome
          simpa [received, htype] using received_of_accepted hev
        simpa [eventMessages, htype, hnone] using ih

/-- The store is exactly the initial events followed by those of the well-formed messages, and
equals the memory, if and only if no message calls itself an event, or nothing was stored before
and exactly one does, and it is well formed. -/
theorem store_exact_iff (lib : JsonLib) (hlib : lib.Lawful) (disk : Disk)
    (msgs : List (Int64 × Bytes)) :
    (read lib (run lib (relayT lib disk) msgs).disk.databaseJson =
          read lib disk.databaseJson ++ msgs.filterMap (accepted lib) ∧
        read lib (run lib (relayT lib disk) msgs).disk.databaseJson =
          (run lib (relayT lib disk) msgs).database) ↔
      eventMessages lib msgs = [] ∨
        (read lib disk.databaseJson = [] ∧ ∃ m, eventMessages lib msgs = [m] ∧
          (parseClientEvent lib m.2 (EventT.new m.1)).1 = 0) := by
  have hrun := copies_run hlib (World.Utf8.relay_t hlib disk) msgs
  have hmemory : (run lib (relayT lib disk) msgs).database =
      read lib disk.databaseJson ++ msgs.filterMap (received lib) := by
    have hcopy := congrArg Copies.memory hrun
    rwa [Copies.memory_run] at hcopy
  have hsame : read lib (run lib (relayT lib disk) msgs).disk.databaseJson =
      (run lib (relayT lib disk) msgs).database ↔
      msgs.filterMap (received lib) = [] ∨
        (read lib disk.databaseJson = [] ∧ ∃ x, msgs.filterMap (received lib) = [x]) := by
    have hcopies : (relayT lib disk).copies lib =
      ⟨read lib disk.databaseJson, read lib disk.databaseJson⟩ := rfl
    rw [← Copies.agree_iff, ← hcopies, ← hrun]
    rfl
  rw [received_eq] at hmemory hsame
  rw [accepted_eq]
  constructor
  · rintro ⟨hexact, heq⟩
    rcases hsame.mp heq with hnone | ⟨hempty, x, hone⟩
    · exact .inl (List.map_eq_nil_iff.mp hnone)
    · obtain ⟨m, hm, -⟩ := List.map_eq_singleton_iff.mp hone
      refine .inr ⟨hempty, m, hm, ?_⟩
      -- the one event in memory must be the event of a well-formed message
      rw [heq, hmemory, hm, hempty] at hexact
      by_contra hstatus
      simp [accepted, hstatus] at hexact
  · rintro (hnone | ⟨hempty, m, hm, hstatus⟩)
    · have heq := hsame.mpr (.inl (by simp [hnone]))
      exact ⟨by rw [heq, hmemory, hnone]; rfl, heq⟩
    · have heq := hsame.mpr (.inr ⟨hempty, _, by rw [hm]; rfl⟩)
      exact ⟨by rw [heq, hmemory, hm]; simp [accepted, hstatus], heq⟩

/-- The value of an `EVENT` message, and its text. -/
def eventMessage (vs : List Json) : Json :=
  .arr (.str (ascii "EVENT") :: vs)

def eventText (vs : List Json) : Bytes :=
  (eventMessage vs).render none 0

/-- A disk without any of the files. -/
def emptyDisk : Disk :=
  ⟨none, none, none⟩

/-- The sample message is read. -/
theorem parse_event_text (vs : List Json) (hutf8 : ∀ v ∈ vs, v.isUtf8 = true)
    (hstore : ∀ v ∈ vs, v.isStorable = true) :
    JsonLib.reference.parse (eventText vs) = some (eventMessage vs) := by
  have hname : Utf8 (ascii "EVENT") := by decide
  refine JsonLib.reference_parse ?_ ?_ none
  · simpa [eventMessage, hname] using hutf8
  · simpa [eventMessage] using hstore

/-- The text of a message with one event is an event message, and well formed. -/
theorem parse_client_event_text {ev : EventT} (h : ev.Utf8) (old : EventT) :
    getMessageType JsonLib.reference (eventText [toJson ev]) = .event ∧
      parseClientEvent JsonLib.reference (eventText [toJson ev]) old = (0, ev) := by
  have hread := read_message_eq (parse_event_text [toJson ev] (by simpa using h.to_json)
    (by simpa using is_storable_to_json ev))
  constructor
  · simp [getMessageType, hread]
  · simp [parseClientEvent, hread, Json.element, from_json_to_json, status]

/-- One note sent to an empty relay is stored once. -/
theorem store_exact_iff_one :
    read JsonLib.reference (run JsonLib.reference (relayT JsonLib.reference emptyDisk)
        [(1688794200, eventText [toJson storedNote])]).disk.databaseJson = [storedNote] ∧
      (run JsonLib.reference (relayT JsonLib.reference emptyDisk)
        [(1688794200, eventText [toJson storedNote])]).database = [storedNote] := by
  obtain ⟨htype, hclient⟩ := parse_client_event_text utf8_stored_note (EventT.new 1688794200)
  have hempty : read JsonLib.reference emptyDisk.databaseJson = [] := rfl
  obtain ⟨hfile, hsame⟩ := (store_exact_iff JsonLib.reference JsonLib.reference_lawful emptyDisk
    [(1688794200, eventText [toJson storedNote])]).mpr
    (.inr ⟨hempty, _, by simp [eventMessages, htype]; rfl, by simp [hclient]⟩)
  have haccepted : accepted JsonLib.reference (1688794200, eventText [toJson storedNote]) =
      some storedNote := by simp [accepted, hclient]
  rw [hempty, List.filterMap_cons_some haccepted] at hfile
  exact ⟨hfile, hsame ▸ hfile⟩

/-- The same note sent twice to an empty relay is stored three times. -/
theorem store_duplicates :
    ¬ ∀ (lib : JsonLib), lib.Lawful → ∀ (disk : Disk) (msgs : List (Int64 × Bytes)),
      read lib (run lib (relayT lib disk) msgs).disk.databaseJson =
          read lib disk.databaseJson ++ msgs.filterMap (accepted lib) ∧
        read lib (run lib (relayT lib disk) msgs).disk.databaseJson =
          (run lib (relayT lib disk) msgs).database := by
  intro h
  obtain ⟨htype, hclient⟩ := parse_client_event_text utf8_stored_note (EventT.new 1688794200)
  have hsame := (h _ JsonLib.reference_lawful emptyDisk
    [(1688794200, eventText [toJson storedNote]), (1688794200, eventText [toJson storedNote])]).2
  have hreceived : received JsonLib.reference (1688794200, eventText [toJson storedNote]) =
      some storedNote := by simp [received, htype, hclient]
  have hrun := copies_run JsonLib.reference_lawful
    (World.Utf8.relay_t JsonLib.reference_lawful emptyDisk)
    [(1688794200, eventText [toJson storedNote]), (1688794200, eventText [toJson storedNote])]
  rw [List.filterMap_cons_some hreceived, List.filterMap_cons_some hreceived] at hrun
  have hcopies : (relayT JsonLib.reference emptyDisk).copies JsonLib.reference = ⟨[], []⟩ := rfl
  rw [hcopies] at hrun
  have hmemory := congrArg (List.length ∘ Copies.memory) hrun
  have hfile := congrArg (List.length ∘ Copies.file) hrun
  simp only [Function.comp_apply, World.copies, hsame] at hmemory hfile
  rw [hmemory] at hfile
  exact absurd hfile (by decide)

/-! ## Malformed events -/

/-- The answer is a notice. -/
def IsNotice (lib : JsonLib) (answer : Option Bytes) : Prop :=
  ∃ json text, answer = some json ∧
    lib.dump none (.arr [.str (ascii "NOTICE"), .str text]) = some json

/-- The message is turned down: both copies stay as they were and the answer is a notice. -/
def TurnedDown (lib : JsonLib) (now : Int64) (msg : Bytes) (w : World) : Prop :=
  (makeResponse lib now msg w).2.database = w.database ∧
    (makeResponse lib now msg w).2.disk.databaseJson = w.disk.databaseJson ∧
    IsNotice lib (makeResponse lib now msg w).1

/-- A malformed event is never turned down: what could be read of it is pushed to the memory, and
the answer is the same acknowledgement a well-formed event gets. -/
theorem malformed_event_stored (lib : JsonLib) (hlib : lib.Lawful) (w : World) (now : Int64)
    (msg : Bytes) (ev : EventT) (htype : getMessageType lib msg = .event)
    (hmalformed : parseClientEvent lib msg (EventT.new now) = (-1, ev)) :
    ¬ TurnedDown lib now msg w ∧ (makeResponse lib now msg w).2.database = w.database ++ [ev] ∧
      ¬ IsNotice lib (makeResponse lib now msg w).1 ∧
      ∃ json, (makeResponse lib now msg w).1 = some json ∧
        lib.parse json = some (.arr [.str (ascii "EOSE"), .str ev.id]) := by
  obtain ⟨hanswer, hmemory, -⟩ := make_response_event w htype (congrArg Prod.snd hmalformed)
  have hev : ev.Utf8 := by
    have hclient := EventT.Utf8.parse_client_event hlib msg (EventT.Utf8.new now)
    rwa [hmalformed] at hclient
  have hname : Utf8 (ascii "EOSE") := by decide
  obtain ⟨json, hdump⟩ := hlib.dump_utf8 none
    (v := .arr [.str (ascii "EOSE"), .str ev.id]) (by simp [hname, hev.id])
  have hparse := hlib.round_trip (by simp) hdump
  rw [hdump] at hanswer
  refine ⟨?_, hmemory, ?_, json, hanswer, hparse⟩
  · rintro ⟨hsame, -⟩
    rw [hmemory] at hsame
    simpa using congrArg List.length hsame
  · rintro ⟨json', text, hjson, hnotice⟩
    obtain rfl := Option.some.inj (hanswer.symm.trans hjson)
    rw [hlib.round_trip (by simp) hnotice] at hparse
    simp only [Option.some.injEq, Json.arr.injEq, List.cons.injEq, Json.str.injEq] at hparse
    exact absurd hparse.1 (by decide)

/-- A message that names itself an event and carries none. -/
theorem parse_client_event_bare (old : EventT) :
    getMessageType JsonLib.reference (eventText []) = .event ∧
      parseClientEvent JsonLib.reference (eventText []) old = (-1, old) := by
  have hread := read_message_eq (parse_event_text [] (by simp) (by simp))
  constructor
  · simp [getMessageType, hread]
  · simp [parseClientEvent, hread, Json.element]

/-- The bare message puts an empty event into an empty relay. -/
theorem malformed_event_stored_bare :
    (makeResponse JsonLib.reference 1688794200 (eventText [])
      (relayT JsonLib.reference emptyDisk)).2.database = [EventT.new 1688794200] := by
  obtain ⟨htype, hbare⟩ := parse_client_event_bare (EventT.new 1688794200)
  exact (malformed_event_stored JsonLib.reference JsonLib.reference_lawful
    (relayT JsonLib.reference emptyDisk) 1688794200 (eventText []) _ htype hbare).2.1

/-- The bare message is not turned down. -/
theorem bare_event_not_turned_down :
    ¬ ∀ (lib : JsonLib), lib.Lawful → ∀ (w : World) (now : Int64) (msg : Bytes),
      getMessageType lib msg = .event → (parseClientEvent lib msg (EventT.new now)).1 = -1 →
      TurnedDown lib now msg w := by
  intro h
  obtain ⟨htype, hbare⟩ := parse_client_event_bare (EventT.new 1688794200)
  have hdown := h _ JsonLib.reference_lawful (relayT JsonLib.reference emptyDisk) 1688794200
    (eventText []) htype (by rw [hbare])
  obtain ⟨-, hmemory, -⟩ := make_response_event (relayT JsonLib.reference emptyDisk) htype
    (congrArg Prod.snd hbare)
  have hsame := hdown.1
  rw [hmemory] at hsame
  simpa using congrArg List.length hsame

end Gnostr.Relay
