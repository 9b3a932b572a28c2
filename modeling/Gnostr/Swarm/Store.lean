import Gnostr.Swarm.Events
import Gnostr.Wire.Action

/-!
# The collection of events

The state `template/swarm.js` keeps for one topic, and `handleEvent` of `template/db.js`, which
writes events to the collection. The collection is a list of documents; the database, `hyperdeebee`,
is taken to insert, update and delete as it says, to find the documents that satisfy a query,
whatever it takes for satisfying a condition (`Platform`), and never to reject.

The functions are asynchronous. What they do up to an `await` is one action, and what is left to do
is a task that goes on later, in any order with the other tasks and with what arrives meanwhile. An
exception in an asynchronous function that nobody waits for ends the process in Node 15 and later;
here it is noted, and the runs go on behind it as they do where the process has a handler for such
exceptions.
-/

namespace Gnostr.Swarm

open Wire

/-! ## Documents -/

/-- A document: the `_id` the database gave it and the event without it. -/
structure Doc where
  key : Nat
  event : Json

/-- `delete event._id`. -/
def dropId : Json → Json
  | .obj ms => .obj (ms.filter fun m => m.1 ≠ ascii "_id")
  | v => v

/-- A condition on a field of a document. -/
inductive Condition where
  | equal (value : Value)
  | isIn (values : List Value)
  | all (values : List Value)

/-- A query: conditions on fields, all of which have to hold. -/
abbrev Query := List (String × Condition)

/-- The engine and the database. -/
structure Platform extends Engine where
  /-- Whether the database takes a field to satisfy a condition. -/
  satisfies : Condition → Value → Bool

/-- Whether a document satisfies a query. -/
def Query.holds (platform : Platform) (query : Query) (doc : Doc) : Bool :=
  query.all fun (field, condition) => platform.satisfies condition (doc.event.member (ascii field))

/-- The collection and the next `_id`. Its operations are taken not to reject. -/
structure Collection where
  docs : List Doc
  fresh : Nat

/-- `events.insert`. -/
def Collection.insert (events : Collection) (event : Json) : Collection :=
  ⟨events.docs ++ [⟨events.fresh, dropId event⟩], events.fresh + 1⟩

/-- Replace the first document that `p` selects. -/
def Collection.replace (p : Doc → Bool) (event : Json) (events : Collection) : Collection :=
  match events.docs.findIdx? p with
  | some index =>
      { events with docs := events.docs.modify index fun doc => ⟨doc.key, dropId event⟩ }
  | none => events

/-- `events.delete`. -/
def Collection.delete (key : Nat) (events : Collection) : Collection :=
  { events with docs := events.docs.filter fun doc => doc.key ≠ key }

/-! ## The state of a topic -/

/-- A frame to a client. -/
inductive Frame where
  | event (key : Value) (event : Json)
  | ok (id : Value)
  | eose (key : Value)
  | count (key : Value) (count : Nat)
  | notice (text : String)

/-- What can be seen from outside. -/
inductive Effect where
  /-- An event was inserted or written over a document. -/
  | write (event : Json)
  | broadcast (event : Json)
  | send (socket : Nat) (frame : Frame)
  /-- An exception nobody caught. -/
  | rejected (thrown : Thrown)

/-- A subscription object. -/
structure Sub where
  filters : List Json
  socket : Nat
  receivedEvents : List Value
  /-- For the record: the events sent through it. -/
  sent : List Json

/-- What is left to do behind an `await`. -/
inductive Task where
  /-- The documents with the same parameter are looked up. -/
  | findOriginals (query : Query) (event : Json)
  /-- One of these documents is being written. -/
  | overwrite (keys : List Nat) (event : Json)
  /-- The documents to delete are looked up. -/
  | findDeleted (query : Query) (event : Json)
  /-- One of these documents is being deleted. -/
  | erase (docs : List Doc) (pubkey : Value)
  /-- A query for a subscription, and the socket that waits for its end. -/
  | query (sub : Nat) (key : Value) (eose : Option Nat)
  /-- A query whose results are counted. -/
  | count (socket : Nat) (key : Value) (filters : List Json)

/-- What `createSwarm` keeps for a topic. Every subscription object made so far has its number, and
`subscriptions` maps identifiers to the objects in use. -/
structure Topic where
  events : Collection
  subs : List Sub
  subscriptions : List (Value × Nat)
  tasks : List Task
  log : List Effect

/-- An asynchronous function up to its next `await`. -/
abbrev Async := Action Topic Thrown

/-- Note what happened. -/
def note (effect : Effect) : Async Unit :=
  .modify fun topic => { topic with log := topic.log ++ [effect] }

/-- Go on later. -/
def suspend (task : Task) : Async Unit :=
  .modify fun topic => { topic with tasks := topic.tasks ++ [task] }

/-- Start an asynchronous function without waiting for it. -/
def start (m : Async Unit) : Async Unit :=
  m.settle fun thrown topic => { topic with log := topic.log ++ [.rejected thrown] }

/-! ## Writing events -/

/-- `events.insert(event)`. -/
def insert (event : Json) : Async Unit := do
  note (.write event)
  .modify fun topic => { topic with events := topic.events.insert event }

/-- Write an event over the first document that `p` selects. -/
def replace (p : Doc → Bool) (event : Json) : Async Unit := do
  note (.write event)
  .modify fun topic => { topic with events := topic.events.replace p event }

/-- `events.update(query, event, { upsert: true })`. -/
def upsert (platform : Platform) (query : Query) (event : Json) : Async Unit := do
  if ← Action.read fun topic => topic.events.docs.any (query.holds platform) then
    replace (query.holds platform) event
  else insert event

/-- `events.update({ _id }, event)`: nothing is written when the document is gone. -/
def updateKey (key : Nat) (event : Json) : Async Unit := do
  if ← Action.read fun topic => topic.events.docs.any fun doc => doc.key = key then
    replace (fun doc => doc.key = key) event

/-- The loop over the original events: one document, and the others behind the `await`. -/
def overwrite (event : Json) : List Nat → Async Unit
  | [] => pure ()
  | key :: keys => do
      updateKey key event
      suspend (.overwrite keys event)

/-- The loop over the documents to delete. Those of other authors are passed over. -/
def erase (pubkey : Value) : List Doc → Async Unit
  | [] => pure ()
  | doc :: docs =>
      if strictEqual (doc.event.member (ascii "pubkey")) pubkey then do
        Action.modify fun topic => { topic with events := topic.events.delete doc.key }
        suspend (.erase docs pubkey)
      else erase pubkey docs

/-- `x[i]`; of a string, a code unit. -/
def index (i : Nat) : Value → Except Thrown Value
  | none | some .null => .error .typeError
  | some (.arr vs) => .ok vs[i]?
  | some (.str t) => .ok ((codeUnits t)[i]?.map .str)
  | some v => .ok (v.member (decimal i))

/-- Whether a value counts as true. -/
def truthy : Value → Bool
  | none | some .null => false
  | some (.bool b) => b
  | some (.str t) => t ≠ []
  | some (.arr _) | some (.obj _) => true
  | x => number x ≠ some 0

/-- `tags.find(([tag]) => tag === 'd')`. -/
def findParameter : List Json → Except Thrown Value
  | [] => .ok none
  | item :: items => do
      if strictEqual (← iterate (some item))[0]? (string "d") then return some item
      findParameter items

/-- `event.tags.find(([tag]) => tag === 'd')?.[1] || ''`. -/
def parameter (event : Value) : Except Thrown Value := do
  match ← findParameter (← elements (← get "tags" event)) with
  | none => return string ""
  | some tag =>
      let value ← index 1 (some tag)
      return if truthy value then value else string ""

/-- `event.tags.filter(t => t[0] === 'e').map(t => t[1])`. -/
def references (event : Value) : Except Thrown (List Value) := do
  let tags ← elements (← get "tags" event)
  let named ← tags.filterM fun t => do return strictEqual (← index 0 (some t)) (string "e")
  named.mapM fun t => index 1 (some t)

/-- How a type is written. -/
def typeName : Option EventType → String
  | some .regular => "regular"
  | some .delete => "delete"
  | some .replaceable => "replaceable"
  | some .parameterizedReplaceable => "parameterized replaceable"
  | some .ephemeral => "ephemeral"
  | none => "undefined"

/-- The author and the kind of an event, as conditions. -/
def sameAuthorAndKind (event : Value) : Except Thrown Query := do
  return [("pubkey", .equal (← get "pubkey" event)), ("kind", .equal (← get "kind" event))]

/-- `handleEvent`, up to its first `await`. The list of original events counts as true even when it
is empty, so its other branch is never taken. -/
def handleEvent (platform : Platform) (event : Json) : Async Unit := do
  if ← Action.lift (validateEvent platform.toEngine (some event) none) then
    let kind ← Action.lift (get "kind" (some event))
    let type ← Action.lift (getEventType platform.toEngine kind)
    match type with
    | some .regular => insert event
    | some .replaceable =>
        let query ← Action.lift (sameAuthorAndKind (some event))
        -- the update is not waited for either
        start (upsert platform query event)
    | some .parameterizedReplaceable =>
        let query ← Action.lift (sameAuthorAndKind (some event))
        let value ← Action.lift (parameter (some event))
        suspend (.findOriginals (query ++ [("tags", .all [string "d", value])]) event)
    | some .delete =>
        let ids ← Action.lift (references (some event))
        suspend (.findDeleted [("id", .isIn ids)] event)
    | _ => Action.throw (.error (ascii ("Unrecognized event kind: " ++ typeName type)))

end Gnostr.Swarm
