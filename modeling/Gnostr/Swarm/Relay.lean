import Gnostr.Swarm.Store

/-!
# The swarm relay

`template/swarm.js` and the socket handler of `template/server.js` for one topic: clients publish
events and subscribe, peers broadcast events on the topic, and both are streamed to the
subscriptions. Which documents a query finds is left open: any selection of documents of the
collection. What the handlers do with an event is followed to its end in `Gnostr.Swarm.Handling`,
the subscriptions of different clients in `Gnostr.Swarm.Subscriptions`, the texts of the frames in
`Gnostr.Swarm.Frames`, the databases of other peers in `Gnostr.Swarm.Sync`, what subscriptions are
sent in `Gnostr.Swarm.Deliveries`, and frames of any kind in `Gnostr.Swarm.Messages`.

`step` is what one input does, `run` what a sequence of inputs does.
-/

namespace Gnostr.Swarm

open Wire

/-! ## Streaming -/

/-- `receivedEvents.add(id)`, when an event was sent. -/
def Sub.receive (object : Sub) (id : Value) (event : Json) : Sub :=
  { object with receivedEvents := object.receivedEvents ++ [id], sent := object.sent ++ [event] }

/-- `sendEventTo`: the event that is left, without its `_id` once it was sent. -/
def sendEventTo (platform : Platform) (event : Json) (sub : Nat) (key : Value) : Async Json := do
  let id ← Action.lift (get "id" (some event))
  match ← Action.read fun topic => topic.subs[sub]? with
  | none => return event
  | some object =>
      if object.receivedEvents.any fun received => strictEqual received id then return event
      else do
        -- the identifier is converted before anything is sent
        let _ ← Action.lift (text platform.toEngine key)
        note (.send object.socket (.event key (dropId event)))
        Action.modify fun topic =>
          { topic with subs := topic.subs.set sub (object.receive id (dropId event)) }
        return dropId event

/-- `streamEvent`: to every subscription whose filters let the event through. -/
def streamEvent (platform : Platform) (event : Json) : Async Json := do
  let subscriptions ← Action.read Topic.subscriptions
  subscriptions |> Action.fold (fun event (key, sub) => do
    let object ← Action.read fun topic => topic.subs[sub]?
    let filters := object.map Sub.filters
    if ← Action.lift (validateEvent platform.toEngine (some event) filters) then
      sendEventTo platform event sub key
    else return event) event

/-- `sendEvent`. -/
def sendEvent (platform : Platform) (event : Json) : Async Unit := do
  note (.broadcast event)
  let event ← streamEvent platform event
  if ← Action.lift (isPersistent platform.toEngine (some event)) then
    start (handleEvent platform event)

/-! ## Subscriptions -/

/-- `subscriptions.set`: an identifier keeps its place. -/
def setSubscription (key : Value) (sub : Nat) : List (Value × Nat) → List (Value × Nat)
  | [] => [(key, sub)]
  | entry :: rest =>
      if strictEqual entry.1 key then (entry.1, sub) :: rest
      else entry :: setSubscription key sub rest

/-- A `REQ`: a new subscription object, and a query for it. -/
def subscribe (socket : Nat) (key : Value) (filters : List Json) : Async Unit := do
  let sub ← Action.read fun topic => topic.subs.length
  Action.modify fun topic => { topic with
    subs := topic.subs ++ [⟨filters, socket, [], []⟩]
    subscriptions := setSubscription key sub topic.subscriptions }
  suspend (.query sub key (some socket))

/-- A `CLOSE`. -/
def unsubscribe (key : Value) : Async Unit :=
  .modify fun topic => { topic with
    subscriptions := topic.subscriptions.filter fun entry => ¬ strictEqual entry.1 key }

/-- The socket is gone, and its subscriptions with it. -/
def disconnect (socket : Nat) : Async Unit :=
  .modify fun topic => { topic with
    subscriptions := topic.subscriptions.filter fun entry =>
      topic.subs[entry.2]?.map Sub.socket ≠ some socket }

/-! ## The socket handler -/

/-- An `EVENT` frame. -/
def onEvent (platform : Platform) (socket : Nat) (value : Value) : Async Unit := do
  if ← Action.lift (validateEvent platform.toEngine value none) then
    let kind ← Action.lift (get "kind" value)
    match ← Action.lift (getEventType platform.toEngine kind), value with
    | some _, some event => do
        sendEvent platform event
        let id ← Action.lift (get "id" value)
        let _ ← Action.lift (text platform.toEngine id)
        note (.send socket (.ok id))
    | _, _ => note (.send socket (.notice "Unrecognized event kind"))
  else note (.send socket (.notice "Invalid event"))

/-- A `COUNT`; the identifier is converted before the query is made. -/
def count (platform : Platform) (socket : Nat) (key : Value) (filters : List Json) :
    Async Unit := do
  let _ ← Action.lift (text platform.toEngine key)
  suspend (.count socket key filters)

/-- The handler of the `message` event; a text that is no JSON has no value. -/
def onMessage (platform : Platform) (socket : Nat) (message : Value) : Async Unit := do
  let items ← Action.lift (if message.isNone then .error .syntaxError else iterate message)
  let type := items[0]?
  let value := items[1]?
  let rest := items.drop 2
  if strictEqual type (string "EVENT") then onEvent platform socket value
  else if strictEqual type (string "REQ") then subscribe socket value rest
  else if strictEqual type (string "CLOSE") then unsubscribe value
  else if strictEqual type (string "COUNT") then count platform socket value rest
  else note (.send socket (.notice "Unrecognized event"))

/-- What a message asks for. -/
inductive Message where
  | event (value : Value)
  | req (key : Value) (filters : List Json)
  | close (key : Value)
  | count (key : Value) (filters : List Json)
  | unknown

/-- The items of a message. -/
def messageItems (message : Value) : Except Thrown (List Json) :=
  if message.isNone then .error .syntaxError else iterate message

/-- What a message asks for, by its first item. -/
def readMessage (message : Value) : Except Thrown Message := do
  let items ← messageItems message
  if strictEqual items[0]? (string "EVENT") then return .event items[1]?
  if strictEqual items[0]? (string "REQ") then return .req items[1]? (items.drop 2)
  if strictEqual items[0]? (string "CLOSE") then return .close items[1]?
  if strictEqual items[0]? (string "COUNT") then return .count items[1]? (items.drop 2)
  return .unknown

/-- The branch of the handler for a message. -/
def Message.handle (platform : Platform) (socket : Nat) : Message → Async Unit
  | .event value => onEvent platform socket value
  | .req key filters => subscribe socket key filters
  | .close key => unsubscribe key
  | .count key filters => Swarm.count platform socket key filters
  | .unknown => note (.send socket (.notice "Unrecognized event"))

/-- The handler reads a message and takes its branch. -/
theorem on_message_eq (platform : Platform) (socket : Nat) (message : Value) :
    onMessage platform socket message =
      (Action.lift (readMessage message) >>= Message.handle platform socket) := by
  unfold onMessage readMessage
  rw [← messageItems]
  cases messageItems message with
  | error thrown => rfl
  | ok items =>
      show (if strictEqual items[0]? (string "EVENT") then _ else _ : Async Unit) =
        (Action.lift (if strictEqual items[0]? (string "EVENT") then _ else _) >>= _)
      split_ifs <;> rfl

/-! ## Steps -/

/-- What goes on at a topic. -/
inductive Input where
  /-- A text frame of a client, by its value. -/
  | frame (socket : Nat) (message : Value)
  /-- An event broadcast by a peer. -/
  | peer (event : Json)
  /-- A client disconnects. -/
  | close (socket : Nat)
  /-- A task goes on; if it waits for a query, with the documents found, or with an exception. -/
  | resume (task : Nat) (found : Except Thrown (List Nat))

/-- The documents a query found. -/
def found (keys : List Nat) (topic : Topic) : List Doc :=
  keys.filterMap fun key => topic.events.docs.find? fun doc => doc.key = key

/-- The documents a query read are sent, the oldest first. -/
def deliver (platform : Platform) (sub : Nat) (key : Value) (eose : Option Nat)
    (docs : List Json) : Async Unit := do
  docs.reverse |> Action.each fun doc => do
    let _ ← sendEventTo platform doc sub key
    pure ()
  match eose with
  | some socket => do
      let _ ← Action.lift (text platform.toEngine key)
      note (.send socket (.eose key))
  | none => pure ()

/-- A task goes on. -/
def proceed (platform : Platform) (result : Except Thrown (List Nat)) : Task → Async Unit
  | .findOriginals query event => do
      let docs ← Action.read fun topic => topic.events.docs.filter (query.holds platform)
      overwrite event (docs.map Doc.key)
  | .overwrite keys event => overwrite event keys
  | .findDeleted query event => do
      let docs ← Action.read fun topic => topic.events.docs.filter (query.holds platform)
      let pubkey ← Action.lift (get "pubkey" (some event))
      erase pubkey docs
  | .erase docs pubkey => erase pubkey docs
  | .query sub key eose => do
      let keys ← Action.lift result
      let docs ← Action.read (found keys)
      deliver platform sub key eose (docs.map Doc.event)
  | .count socket key _ => do
      let keys ← Action.lift result
      let docs ← Action.read (found keys)
      note (.send socket (.count key docs.length))

/-- What an input does. -/
def act (platform : Platform) : Input → Async Unit
  | .frame socket message => start (onMessage platform socket message)
  | .peer event => start (do
      let _ ← streamEvent platform event
      pure ())
  | .close socket => disconnect socket
  | .resume i result => do
      match ← Action.read fun topic => topic.tasks[i]? with
      | none => pure ()
      | some task => do
          Action.modify fun topic => { topic with tasks := topic.tasks.eraseIdx i }
          start (proceed platform result task)

/-- One step. -/
def step (platform : Platform) (topic : Topic) (input : Input) : Topic :=
  (act platform input topic).2

/-- A run. -/
def run (platform : Platform) (topic : Topic) (inputs : List Input) : Topic :=
  inputs.foldl (step platform) topic

/-- A topic without clients, over a collection. -/
def Topic.start (events : Collection) : Topic :=
  ⟨events, [], [], [], []⟩

/-! ## Verified events -/

/-- The events an effect shows: those that were written or sent. -/
def Effect.events : Effect → List Json
  | .write event => [event]
  | .send _ (.event _ event) => [event]
  | _ => []

/-- The events a task is going to write. -/
def Task.events : Task → List Json
  | .findOriginals _ event => [event]
  | .overwrite _ event => [event]
  | _ => []

/-- Every event that is stored, was written or sent, or is going to be written passes the checks. -/
structure Verified (engine : Engine) (topic : Topic) : Prop where
  docs : ∀ doc ∈ topic.events.docs, engine.Passes doc.event
  tasks : ∀ task ∈ topic.tasks, ∀ event ∈ task.events, engine.Passes event
  log : ∀ effect ∈ topic.log, ∀ event ∈ effect.events, engine.Passes event

/-- The checks do not look at `_id`. -/
def Engine.IgnoresId (engine : Engine) : Prop :=
  ∀ event, engine.nostrValidate (some (dropId event)) = engine.nostrValidate (some event) ∧
    engine.nostrVerify (some (dropId event)) = engine.nostrVerify (some event)

/-- The events that come in with an input pass the checks. -/
def Input.Passes (engine : Engine) : Input → Prop
  | .frame _ message => ∀ items event, iterate message = .ok items →
      strictEqual items[0]? (string "EVENT") = true → items[1]? = some event → engine.Passes event
  | .peer event => engine.Passes event
  | _ => True

/-- An event passes the checks without `_id` as well. -/
theorem Engine.Passes.drop_id {engine : Engine} (hid : engine.IgnoresId) {event : Json}
    (h : engine.Passes event) : engine.Passes (dropId event) :=
  ⟨(hid event).1.trans h.1, (hid event).2.trans h.2⟩

/-- An action that keeps every event verified. -/
abbrev Safe (platform : Platform) (m : Async Unit) : Prop :=
  Action.Keeps (Verified platform.toEngine) m fun _ => True

/-! ### Each function

What an invariant has to allow so that everything but a change of the subscriptions keeps it. -/

/-- A frame that answers a message. -/
def Frame.isReply : Frame → Bool
  | .ok _ | .count _ _ | .notice _ => true
  | .event _ _ | .eose _ => false

/-- What may happen: the events that are stored, sent and planned, the frames that are sent and are
no events, and the entries events are sent under. -/
structure Rules where
  event : Json → Prop
  frame : Nat → Frame → Prop
  entry : Value × Nat → Prop

namespace Rules

variable (rules : Rules)

/-- What may be noted, apart from events that are sent. -/
def effect : Effect → Prop
  | .write event => rules.event event
  | .send socket frame => rules.frame socket frame
  | .broadcast _ | .rejected _ => True

/-- What may be left to do. -/
def task : Task → Prop
  | .findOriginals _ event | .overwrite _ event => rules.event event
  | .findDeleted _ _ | .erase _ _ => True
  | .query sub key eose =>
      rules.entry (key, sub) ∧ ∀ socket, eose = some socket → rules.frame socket (.eose key)
  | .count socket key _ => ∀ n, rules.frame socket (.count key n)

variable {rules}

/-- Where every answer and every entry is allowed, a task is allowed if its events are. -/
theorem task_iff (hentry : ∀ entry, rules.entry entry)
    (heose : ∀ socket key, rules.frame socket (.eose key))
    (hcount : ∀ socket key n, rules.frame socket (.count key n)) {task : Task} :
    rules.task task ↔ ∀ event ∈ task.events, rules.event event := by
  cases task with
  | query sub key eose => simp [task, Task.events, hentry, heose]
  | count socket key filters => simp [task, Task.events, hcount]
  | _ => simp [task, Task.events]

end Rules

/-- An event was sent through a subscription object. -/
def Topic.delivered (topic : Topic) (sub : Nat) (object : Sub) (key id : Value) (event : Json) :
    Topic :=
  { topic with
    log := topic.log ++ [.send object.socket (.event key event)]
    subs := topic.subs.set sub (object.receive id event) }

/-- What a subscription received changes nothing else of it. -/
theorem map_set_receive {α : Type} {f : Sub → α} {id : Value} {event : Json}
    (hf : ∀ object : Sub, f (object.receive id event) = f object) {subs : List Sub} {sub : Nat}
    {object : Sub} (h : subs[sub]? = some object) :
    (subs.set sub (object.receive id event)).map f = subs.map f := by
  have hsame : (subs.map f)[sub]? = some (f object) := by
    rw [List.getElem?_map, h]
    rfl
  obtain ⟨hlt, hget⟩ := List.getElem?_eq_some_iff.mp hsame
  rw [List.map_set, hf]
  exact hget ▸ List.set_getElem_self hlt

/-- An invariant that is kept by what the rules allow. -/
structure Stable (rules : Rules) (P : Topic → Prop) : Prop where
  drop_id : ∀ event, rules.event event → rules.event (dropId event)
  docs : ∀ topic, P topic → ∀ doc ∈ topic.events.docs, rules.event doc.event
  tasks : ∀ topic, P topic → ∀ task ∈ topic.tasks, rules.task task
  entries : ∀ topic, P topic → ∀ entry ∈ topic.subscriptions, rules.entry entry
  stored : ∀ topic events, P topic → (∀ doc ∈ events.docs, rules.event doc.event) →
    P { topic with events := events }
  noted : ∀ topic effect, P topic → rules.effect effect →
    P { topic with log := topic.log ++ [effect] }
  suspended : ∀ topic task, P topic → rules.task task →
    P { topic with tasks := topic.tasks ++ [task] }
  resumed : ∀ topic i, P topic → P { topic with tasks := topic.tasks.eraseIdx i }
  /-- An event that a subscription did not receive before is sent. -/
  delivered : ∀ topic sub object key event, P topic → rules.entry (key, sub) →
    rules.event event → topic.subs[sub]? = some object →
    (object.receivedEvents.any fun received =>
      strictEqual received (event.member (ascii "id"))) = false →
    P (topic.delivered sub object key (event.member (ascii "id")) (dropId event))

/-- A document behind a replacement was there before or holds the event. -/
theorem mem_replace {p : Doc → Bool} {event : Json} {events : Collection} {doc : Doc}
    (h : doc ∈ (events.replace p event).docs) :
    doc ∈ events.docs ∨ doc.event = dropId event := by
  unfold Collection.replace at h
  split at h
  · obtain ⟨i, hi, rfl⟩ := List.mem_iff_getElem.mp h
    rw [List.getElem_modify]
    split
    · exact .inr rfl
    · exact .inl (List.getElem_mem _)
  · exact .inl h

/-- What a query finds is in the collection. -/
theorem mem_found {keys : List Nat} {topic : Topic} {doc : Doc} (h : doc ∈ found keys topic) :
    doc ∈ topic.events.docs := by
  obtain ⟨key, -, hfind⟩ := List.mem_filterMap.mp h
  exact List.mem_of_find?_eq_some hfind

/-- What is looked at is the member. -/
theorem get_eq_member {key : String} {event : Json} {value : Value}
    (h : get key (some event) = .ok value) : value = event.member (ascii key) := by
  cases event with
  | null => cases h
  | _ => exact (Except.ok.inj h).symm

/-- What becomes of an event and one subscription. -/
theorem send_event_to_eq (platform : Platform) {event : Json}
    (h : get "id" (some event) = .ok (event.member (ascii "id"))) (sub : Nat) (key : Value)
    (topic : Topic) :
    sendEventTo platform event sub key topic = (match topic.subs[sub]? with
      | none => pure event
      | some object =>
          if object.receivedEvents.any fun received =>
            strictEqual received (event.member (ascii "id")) then pure event
          else do
            let _ ← Action.lift (text platform.toEngine key)
            note (.send object.socket (.event key (dropId event)))
            Action.modify fun topic => { topic with
              subs := topic.subs.set sub
                (object.receive (event.member (ascii "id")) (dropId event)) }
            pure (dropId event) : Async Json) topic := by
  rw [sendEventTo, h]
  rfl

/-- `sendEventTo` throws or leaves everything as it is, or it sends an event that the subscription
did not receive before, and remembers that it did. -/
theorem send_event_to_cases (platform : Platform) (event : Json) (sub : Nat) (key : Value)
    (topic : Topic) :
    ((sendEventTo platform event sub key topic).2 = topic ∧
        ∀ left, (sendEventTo platform event sub key topic).1 = .ok left → left = event) ∨
      ∃ object, topic.subs[sub]? = some object ∧
        (object.receivedEvents.any fun received =>
          strictEqual received (event.member (ascii "id"))) = false ∧
        sendEventTo platform event sub key topic = (.ok (dropId event),
          topic.delivered sub object key (event.member (ascii "id")) (dropId event)) := by
  cases hget : get "id" (some event) with
  | error thrown =>
      have hrun : sendEventTo platform event sub key topic = (.error thrown, topic) := by
        rw [sendEventTo, hget]
        rfl
      refine .inl ⟨by rw [hrun], fun left hleft => ?_⟩
      rw [hrun] at hleft
      cases hleft
  | ok id =>
      obtain rfl := get_eq_member hget
      have hrun := send_event_to_eq platform hget sub key topic
      cases hsub : topic.subs[sub]? with
      | none =>
          rw [hsub] at hrun
          refine .inl ⟨by rw [hrun]; rfl, fun left hleft => ?_⟩
          rw [hrun] at hleft
          exact (Except.ok.inj hleft).symm
      | some object =>
          rw [hsub] at hrun
          dsimp only at hrun
          split at hrun
          · refine .inl ⟨by rw [hrun]; rfl, fun left hleft => ?_⟩
            rw [hrun] at hleft
            exact (Except.ok.inj hleft).symm
          · next hnew =>
            cases htext : text platform.toEngine key with
            | error thrown =>
                rw [htext] at hrun
                refine .inl ⟨by rw [hrun]; rfl, fun left hleft => ?_⟩
                rw [hrun] at hleft
                cases hleft
            | ok t =>
                rw [htext] at hrun
                exact .inr ⟨object, rfl, Bool.eq_false_iff.mpr hnew, hrun⟩

section

variable {platform : Platform} {rules : Rules} {P : Topic → Prop}

namespace Stable

variable (hP : Stable rules P)

include hP

/-- Noting an effect keeps the property. -/
theorem keeps_note {effect : Effect} (h : rules.effect effect) :
    Action.Keeps P (note effect) fun _ => True :=
  Action.keeps_modify fun topic htopic => hP.noted topic effect htopic h

/-- So does leaving a task. -/
theorem keeps_suspend {task : Task} (h : rules.task task) :
    Action.Keeps P (suspend task) fun _ => True :=
  Action.keeps_modify fun topic htopic => hP.suspended topic task htopic h

/-- And starting a function that does. -/
theorem keeps_start {m : Async Unit} (hm : Action.Keeps P m fun _ => True) :
    Action.Keeps P (start m) fun _ => True :=
  hm.settle fun thrown topic htopic => hP.noted topic (.rejected thrown) htopic trivial

/-- Inserting an event keeps it. -/
theorem keeps_insert {event : Json} (h : rules.event event) :
    Action.Keeps P (insert event) fun _ => True := by
  have hnote : Action.Keeps P (note (.write event)) fun _ => True := hP.keeps_note h
  refine hnote.bind fun _ _ => ?_
  refine Action.keeps_modify fun topic htopic => hP.stored topic _ htopic fun doc hdoc => ?_
  rcases List.mem_append.mp hdoc with hdoc | hdoc
  · exact hP.docs topic htopic doc hdoc
  · rw [List.mem_singleton.mp hdoc]
    exact hP.drop_id event h

/-- So does writing over a document. -/
theorem keeps_replace {p : Doc → Bool} {event : Json} (h : rules.event event) :
    Action.Keeps P (replace p event) fun _ => True := by
  have hnote : Action.Keeps P (note (.write event)) fun _ => True := hP.keeps_note h
  refine hnote.bind fun _ _ => ?_
  refine Action.keeps_modify fun topic htopic => hP.stored topic _ htopic fun doc hdoc => ?_
  rcases mem_replace hdoc with hdoc | hdoc
  · exact hP.docs topic htopic doc hdoc
  · rw [hdoc]
    exact hP.drop_id event h

/-- And doing one or the other. -/
theorem keeps_upsert {query : Query} {event : Json} (h : rules.event event) :
    Action.Keeps P (upsert platform query event) fun _ => True := by
  refine Action.keeps_read_bind fun _ _ => ?_
  split
  · exact hP.keeps_replace h
  · exact hP.keeps_insert h

/-- So does an update by `_id`. -/
theorem keeps_update_key {key : Nat} {event : Json} (h : rules.event event) :
    Action.Keeps P (updateKey key event) fun _ => True := by
  refine Action.keeps_read_bind fun _ _ => ?_
  split
  · exact hP.keeps_replace h
  · exact Action.keeps_pure trivial

/-- And the loop over the originals. -/
theorem keeps_overwrite {event : Json} (h : rules.event event) (keys : List Nat) :
    Action.Keeps P (overwrite event keys) fun _ => True := by
  cases keys with
  | nil => exact Action.keeps_pure trivial
  | cons key keys =>
      exact (hP.keeps_update_key h).bind fun _ _ =>
        hP.keeps_suspend h

/-- So does the loop over the documents to delete. -/
theorem keeps_erase (pubkey : Value) (docs : List Doc) :
    Action.Keeps P (erase pubkey docs) fun _ => True := by
  induction docs with
  | nil => exact Action.keeps_pure trivial
  | cons doc docs ih =>
      unfold erase
      split
      · refine Action.Keeps.bind (Action.keeps_modify fun topic htopic => ?_) fun _ _ =>
          hP.keeps_suspend trivial
        exact hP.stored topic _ htopic fun d hd =>
          hP.docs topic htopic d (List.mem_filter.mp hd).1
      · exact ih

/-- `handleEvent` keeps the property. -/
theorem keeps_handle_event {event : Json} (h : rules.event event) :
    Action.Keeps P (handleEvent platform event) fun _ => True := by
  refine Action.keeps_lift_bind fun valid _ => ?_
  split
  · refine Action.keeps_lift_bind fun kind _ => ?_
    refine Action.keeps_lift_bind fun type _ => ?_
    split
    · exact hP.keeps_insert h
    · exact Action.keeps_lift_bind fun query _ =>
        hP.keeps_start (hP.keeps_upsert h)
    · refine Action.keeps_lift_bind fun query _ => ?_
      exact Action.keeps_lift_bind fun value _ =>
        hP.keeps_suspend h
    · exact Action.keeps_lift_bind fun ids _ =>
        hP.keeps_suspend trivial
    · exact Action.keeps_throw _
  · exact Action.keeps_pure trivial

/-- An event that was sent is left without its `_id`. -/
theorem keeps_send_event_to {event : Json} (h : rules.event event) {sub : Nat} {key : Value}
    (hentry : rules.entry (key, sub)) :
    Action.Keeps P (sendEventTo platform event sub key) rules.event := by
  intro topic htopic
  rcases send_event_to_cases platform event sub key topic with
    ⟨hstate, hleft⟩ | ⟨object, hsub, hnew, hrun⟩
  · rw [hstate]
    exact ⟨htopic, fun left heq => hleft left heq ▸ h⟩
  · rw [hrun]
    exact ⟨hP.delivered topic sub object key event htopic hentry h hsub hnew,
      fun left heq => Except.ok.inj heq ▸ hP.drop_id event h⟩

/-- Streaming keeps it, and leaves an event that is allowed. -/
theorem keeps_stream_event {event : Json} (h : rules.event event) :
    Action.Keeps P (streamEvent platform event) rules.event := by
  refine Action.keeps_read_bind fun topic htopic =>
    Action.keeps_fold h fun event entry hevent hentry => ?_
  have hallowed := hP.entries topic htopic entry hentry
  refine Action.keeps_read_bind fun topic _ => Action.keeps_lift_bind fun valid _ => ?_
  split
  · exact hP.keeps_send_event_to hevent hallowed
  · exact Action.keeps_pure hevent

/-- So does sending. -/
theorem keeps_send_event {event : Json} (h : rules.event event) :
    Action.Keeps P (sendEvent platform event) fun _ => True := by
  have hnote : Action.Keeps P (note (.broadcast event)) fun _ => True := hP.keeps_note trivial
  refine hnote.bind fun _ _ => ?_
  refine (hP.keeps_stream_event h).bind fun event hevent => ?_
  refine Action.keeps_lift_bind fun persistent _ => ?_
  split
  · exact hP.keeps_start (hP.keeps_handle_event hevent)
  · exact Action.keeps_pure trivial

/-- And the handler of an `EVENT`. -/
theorem keeps_on_event {value : Value} {socket : Nat}
    (h : ∀ event, value = some event → rules.event event)
    (hok : ∀ id, rules.frame socket (.ok id))
    (hnotice : ∀ text, rules.frame socket (.notice text)) :
    Action.Keeps P (onEvent platform socket value) fun _ => True := by
  refine Action.keeps_lift_bind fun valid _ => ?_
  split
  · refine Action.keeps_lift_bind fun kind hkind => Action.keeps_lift_bind fun type _ => ?_
    cases value with
    | none => cases hkind
    | some event =>
        cases type with
        | none => exact hP.keeps_note (hnotice _)
        | some type =>
            refine (hP.keeps_send_event (h event rfl)).bind fun _ _ => ?_
            exact Action.keeps_lift_bind fun id _ => Action.keeps_lift_bind fun _ _ =>
              hP.keeps_note (hok id)
  · exact hP.keeps_note (hnotice _)

/-- Delivering documents keeps it. -/
theorem keeps_deliver {sub : Nat} {key : Value} {eose : Option Nat} {docs : List Json}
    (h : rules.task (.query sub key eose)) (hdocs : ∀ doc ∈ docs, rules.event doc) :
    Action.Keeps P (deliver platform sub key eose docs) fun _ => True := by
  refine (Action.keeps_each fun doc hdoc => ?_).bind fun _ _ => ?_
  · have hevent := hdocs doc (List.mem_reverse.mp hdoc)
    exact (hP.keeps_send_event_to hevent h.1).bind fun _ _ => Action.keeps_pure trivial
  · cases eose with
    | none => exact Action.keeps_pure trivial
    | some socket => exact Action.keeps_lift_bind fun _ _ => hP.keeps_note (h.2 socket rfl)

/-- So does every task that goes on. -/
theorem keeps_proceed {task : Task} (result : Except Thrown (List Nat)) (h : rules.task task) :
    Action.Keeps P (proceed platform result task) fun _ => True := by
  cases task with
  | findOriginals query event =>
      exact Action.keeps_read_bind fun topic _ => hP.keeps_overwrite h _
  | overwrite keys event => exact hP.keeps_overwrite h keys
  | findDeleted query event =>
      exact Action.keeps_read_bind fun topic _ => Action.keeps_lift_bind fun pubkey _ =>
        hP.keeps_erase pubkey _
  | erase docs pubkey => exact hP.keeps_erase pubkey docs
  | query sub key eose =>
      refine Action.keeps_lift_bind fun keys _ => Action.keeps_read_bind fun topic htopic => ?_
      refine hP.keeps_deliver h fun event hevent => ?_
      -- whatever keys the query gives, only stored documents are found under them
      obtain ⟨doc, hdoc, rfl⟩ := List.mem_map.mp hevent
      exact hP.docs topic htopic doc (mem_found hdoc)
  | count socket key filters =>
      exact Action.keeps_lift_bind fun keys _ => Action.keeps_read_bind fun topic _ =>
        hP.keeps_note (h _)

/-- A message is handled by what it asks for. -/
theorem keeps_on_message {socket : Nat} {message : Value}
    (hevent : ∀ event, readMessage message = .ok (.event (some event)) → rules.event event)
    (hreply : ∀ frame : Frame, frame.isReply = true → rules.frame socket frame)
    (hreq : ∀ key filters, readMessage message = .ok (.req key filters) →
      Action.Keeps P (subscribe socket key filters) fun _ => True)
    (hclose : ∀ key, readMessage message = .ok (.close key) →
      Action.Keeps P (unsubscribe key) fun _ => True) :
    Action.Keeps P (onMessage platform socket message) fun _ => True := by
  rw [on_message_eq]
  refine Action.keeps_lift_bind fun request hrequest => ?_
  cases request with
  | event value =>
      refine hP.keeps_on_event (fun event hvalue => hevent event ?_) (fun _ => hreply _ rfl)
        fun _ => hreply _ rfl
      rw [hrequest, hvalue]
  | req key filters => exact hreq key filters hrequest
  | close key => exact hclose key hrequest
  | count key filters =>
      exact Action.keeps_lift_bind fun _ _ => hP.keeps_suspend fun n => hreply (.count key n) rfl
  | unknown => exact hP.keeps_note (hreply (.notice _) rfl)

/-- An event of a peer is streamed. -/
theorem keeps_peer {event : Json} (h : rules.event event) :
    Action.Keeps P (act platform (.peer event)) fun _ => True :=
  hP.keeps_start ((hP.keeps_stream_event h).bind fun _ _ => Action.keeps_pure trivial)

/-- A task is taken off the list before it goes on. -/
theorem keeps_resume (i : Nat) (result : Except Thrown (List Nat)) :
    Action.Keeps P (act platform (.resume i result)) fun _ => True := by
  refine Action.keeps_read_bind fun topic htopic => ?_
  cases htask : topic.tasks[i]? with
  | none => exact Action.keeps_pure trivial
  | some task =>
      have hallowed := hP.tasks topic htopic task (List.mem_of_getElem? htask)
      exact Action.Keeps.bind (Action.keeps_modify fun other hother => hP.resumed other i hother)
        fun _ _ => hP.keeps_start (hP.keeps_proceed result hallowed)

end Stable

end

/-! ### Steps and runs -/

/-- A list that grew by one item. -/
theorem forall_mem_concat {α : Type} {p : α → Prop} {xs : List α} {x : α} (hxs : ∀ y ∈ xs, p y)
    (hx : p x) : ∀ y ∈ xs ++ [x], p y := by
  intro y hy
  rcases List.mem_append.mp hy with hy | hy
  · exact hxs y hy
  · rw [List.mem_singleton.mp hy]
    exact hx

/-- Events that pass the checks are stored, sent and planned. -/
def verifiedRules (engine : Engine) : Rules where
  event := engine.Passes
  frame socket frame := ∀ event ∈ (Effect.send socket frame).events, engine.Passes event
  entry _ := True

/-- What the rules allow to be noted is about verified events. -/
theorem verified_effect {engine : Engine} {effect : Effect}
    (h : (verifiedRules engine).effect effect) : ∀ event ∈ effect.events, engine.Passes event := by
  cases effect with
  | write event => exact List.forall_mem_singleton.mpr h
  | send socket frame => exact h
  | broadcast event => simp [Effect.events]
  | rejected thrown => simp [Effect.events]

/-- What they ask of a task. -/
theorem verified_task {engine : Engine} {task : Task} :
    (verifiedRules engine).task task ↔ ∀ event ∈ task.events, engine.Passes event :=
  Rules.task_iff (fun _ => trivial) (fun _ _ _ h => absurd h List.not_mem_nil)
    fun _ _ _ _ h => absurd h List.not_mem_nil

/-- The parts of a step keep everything verified. -/
theorem stable_verified {platform : Platform} (hid : platform.IgnoresId) :
    Stable (verifiedRules platform.toEngine) (Verified platform.toEngine) where
  drop_id _ h := h.drop_id hid
  docs _ htopic := htopic.docs
  tasks _ htopic task htask := verified_task.mpr (htopic.tasks task htask)
  entries _ _ _ _ := trivial
  stored _ _ htopic hevents := ⟨hevents, htopic.tasks, htopic.log⟩
  noted _ _ htopic heffect :=
    ⟨htopic.docs, htopic.tasks, forall_mem_concat htopic.log (verified_effect heffect)⟩
  suspended _ _ htopic htask :=
    ⟨htopic.docs, forall_mem_concat htopic.tasks (verified_task.mp htask), htopic.log⟩
  resumed _ _ htopic :=
    ⟨htopic.docs, fun task htask => htopic.tasks task (List.mem_of_mem_eraseIdx htask), htopic.log⟩
  delivered _ _ _ _ event htopic _ hevent _ _ := by
    refine ⟨htopic.docs, htopic.tasks, forall_mem_concat htopic.log ?_⟩
    simpa [Effect.events] using Engine.Passes.drop_id hid hevent

/-- An action that changes nothing but the subscriptions. -/
theorem safe_subscriptions {platform : Platform} {f : Topic → Topic}
    (h : ∀ topic, (f topic).events = topic.events ∧
      (f topic).tasks = topic.tasks ∧ (f topic).log = topic.log) :
    Safe platform (Action.modify f) := by
  refine Action.keeps_modify fun topic htopic => ?_
  obtain ⟨hevents, htasks, hlog⟩ := h topic
  exact ⟨by rw [hevents]; exact htopic.docs, by rw [htasks]; exact htopic.tasks,
    by rw [hlog]; exact htopic.log⟩

/-- The event of an `EVENT` frame. -/
theorem items_of_event {message : Value} {event : Json}
    (h : readMessage message = .ok (.event (some event))) :
    ∃ items, iterate message = .ok items ∧
      strictEqual items[0]? (string "EVENT") = true ∧ items[1]? = some event := by
  obtain ⟨items, hitems, h⟩ := bind_eq_ok h
  have hmessage : iterate message = .ok items := by
    unfold messageItems at hitems
    split at hitems
    · cases hitems
    · exact hitems
  refine ⟨items, hmessage, ?_⟩
  split_ifs at h with hname
  · exact ⟨hname, Message.event.inj (Except.ok.inj h)⟩
  all_goals cases h

/-- A message with a verified event keeps it, too. -/
theorem safe_on_message {platform : Platform} (hid : platform.IgnoresId) {message : Value}
    (socket : Nat) (h : (Input.frame socket message).Passes platform.toEngine) :
    Safe platform (onMessage platform socket message) := by
  have hstable := stable_verified hid
  refine hstable.keeps_on_message (fun event hevent => ?_) (fun frame hreply => ?_)
    (fun key filters _ => ?_) fun key _ => ?_
  · obtain ⟨items, hitems, hname, hvalue⟩ := items_of_event hevent
    exact h items event hitems hname hvalue
  · cases frame with
    | event key event => cases hreply
    | _ => exact fun event hevent => absurd hevent List.not_mem_nil
  · refine Action.keeps_read_bind fun topic _ => ?_
    exact Action.Keeps.bind (safe_subscriptions fun topic => ⟨rfl, rfl, rfl⟩) fun _ _ =>
      hstable.keeps_suspend ⟨trivial, fun _ _ _ hevent => absurd hevent List.not_mem_nil⟩
  · exact safe_subscriptions fun topic => ⟨rfl, rfl, rfl⟩

/-- One step keeps every event verified if the events that come in with it are. -/
theorem Verified.step {platform : Platform} (hid : platform.IgnoresId) {topic : Topic}
    (htopic : Verified platform.toEngine topic) {input : Input}
    (hinput : input.Passes platform.toEngine) :
    Verified platform.toEngine (step platform topic input) := by
  have hstable := stable_verified hid
  cases input with
  | frame socket message =>
      exact (hstable.keeps_start (safe_on_message hid socket hinput)).state htopic
  | peer event => exact (hstable.keeps_peer hinput).state htopic
  | close socket =>
      have hclose : Safe platform (disconnect socket) :=
        safe_subscriptions fun topic => ⟨rfl, rfl, rfl⟩
      exact hclose.state htopic
  | resume i result => exact (hstable.keeps_resume i result).state htopic

/-! ### A note -/

/-- A member of an event, compared with a value. -/
def hasMember (event : Json) (key : String) (value : Json) : Bool :=
  strictEqual (event.member (ascii key)) (some value)

/-- A note by the sample key, with some content. -/
def noteWith (content : String) : Json :=
  .obj [(ascii "id",
      .str (ascii "7e5b2c762fa6f8e0a217429ae1e8d3084db7c73256165269f2e500fec23b75e3")),
    (ascii "pubkey",
      .str (ascii "f9308a019258c31049344f85f89d5229b531c845836f99b08601f113bce036f9")),
    (ascii "created_at", .int 1688794190), (ascii "kind", .int 1), (ascii "tags", .arr []),
    (ascii "content", .str (ascii content)),
    (ascii "sig", .str (ascii ("8d32f17086407ca4012a0adf6073cbd016418ba77aa789970762af265fb7cced" ++
      "f9a6f6a7ad9653cb689ab1d02ab5ba44e37f9845d75486d6fbfff8b14cb1b456")))]

/-- A string of 64 hexadecimal digits. -/
def isHexKey : Value → Bool
  | some (.str t) => t.length = 64 && t.all fun b => isDigit b || (97 ≤ b && b ≤ 102)
  | _ => false

/-- An array of arrays without objects in them. -/
def isTagList : Value → Bool
  | some (.arr tags) => tags.all fun
      | .arr items => items.all fun
          | .null | .arr _ | .obj _ => false
          | _ => true
      | _ => false
  | _ => false

/-- The structure check: only objects have members. -/
def sampleValidate : Value → Bool
  | some event =>
      (number (event.member (ascii "kind"))).isSome &&
      (number (event.member (ascii "created_at"))).isSome &&
      ((event.member (ascii "content")).bind Json.toStr).isSome &&
      isHexKey (event.member (ascii "pubkey")) && isTagList (event.member (ascii "tags"))
  | none => false

/-- The signature check on notes with the id and the signature of `hello`. -/
def sampleVerify : Value → Bool
  | some event =>
      hasMember event "content" (.str (ascii "hello")) &&
      hasMember event "created_at" (.int 1688794190) && hasMember event "kind" (.int 1)
  | none => false

def samplePlatform : Platform where
  nostrValidate := sampleValidate
  nostrVerify := sampleVerify
  numberText q := signedDecimal q.num
  textNumber t := if t.all isDigit then some ((decimalValue t : Rat) : WithTop Rat) else none
  satisfies condition field :=
    match condition with
    | .equal value => strictEqual field value
    | .isIn values => values.any (strictEqual field)
    | .all values =>
        match field with
        | some (.arr items) => values.all fun value => items.any fun item =>
            strictEqual (some item) value
        | _ => false

/-- Other members do not depend on `_id`. -/
theorem member_drop_id {key : Bytes} (h : key ≠ ascii "_id") (event : Json) :
    (dropId event).member key = event.member key := by
  cases event with
  | obj ms =>
      show ((ms.filter _).find? _).map Prod.snd = (ms.find? _).map Prod.snd
      rw [List.find?_filter]
      congr 2
      funext m
      by_cases hm : m.1 = key
      · simp [hm, h]
      · simp [hm]
  | _ => rfl

/-- The sample checks do not look at `_id`. -/
theorem ignores_id_sample : samplePlatform.IgnoresId := by
  intro event
  have hkind := member_drop_id (show ascii "kind" ≠ ascii "_id" by decide) event
  have hcreated := member_drop_id (show ascii "created_at" ≠ ascii "_id" by decide) event
  have hcontent := member_drop_id (show ascii "content" ≠ ascii "_id" by decide) event
  have hpubkey := member_drop_id (show ascii "pubkey" ≠ ascii "_id" by decide) event
  have htags := member_drop_id (show ascii "tags" ≠ ascii "_id" by decide) event
  constructor
  · show sampleValidate (some (dropId event)) = sampleValidate (some event)
    simp only [sampleValidate, hkind, hcreated, hcontent, hpubkey, htags]
  · show sampleVerify (some (dropId event)) = sampleVerify (some event)
    simp only [sampleVerify, hasMember, hkind, hcreated, hcontent]

end Gnostr.Swarm
