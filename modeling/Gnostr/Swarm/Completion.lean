import Gnostr.Swarm.Deliveries
import Gnostr.Swarm.Handling

/-!
# What is left to do, to its end

The handlers are asynchronous functions that nobody waits for, so an exception in one of them, or in
what it starts, ends the process in Node 15 and later. `Completes` follows a task to its end,
whatever comes in between of what is allowed to: the task does not throw, and neither does what it
leaves to do. The loops over originals and over documents to delete complete in every state, as the
database is taken not to reject; a query completes when its filters can be turned into queries and
its limits converted, and the times of the documents that are found then can be subtracted
(`Queryable`).
-/

namespace Gnostr.Swarm

open Wire

/-! ## What is left to do -/

/-- The engine and the database, with what queries need of them. -/
structure Host extends Platform where
  /-- `events.find(query).sort('created_at', -1)`, in a collection. -/
  find : Collection → FieldQuery → List Json
  /-- How `sort` leaves documents that it cannot compare. -/
  shuffle : List Json → List Json
  shuffle_perm : ∀ docs, (shuffle docs).Perm docs

/-- What `queryEvents` uses of a host. -/
def Host.finder (host : Host) (events : Collection) : Finder where
  toEngine := host.toEngine
  find := host.find events
  shuffle := host.shuffle
  shuffle_perm := host.shuffle_perm

/-- An exception nobody caught. -/
def Effect.isRejected : Effect → Bool
  | .rejected _ => true
  | _ => false

/-- The number of exceptions nobody caught. -/
def Topic.rejections (topic : Topic) : Nat :=
  topic.log.countP Effect.isRejected

/-- A topic some time later, with nothing in between but what is allowed. -/
def Later (platform : Platform) (allowed : PeerInput → Prop) (topic later : Topic) : Prop :=
  ∃ peer inputs, (∀ input ∈ inputs, allowed input) ∧ peer.topic = topic ∧
    (runPeer platform peer inputs).topic = later

/-- The filters of the query a task waits for, and whether their limits count. -/
def Task.queried (subs : List Sub) : Task → Option (List Json × Bool)
  | .query sub _ eose => subs[sub]?.map fun object => (object.filters, eose.isSome)
  | .count _ _ filters => some (filters, true)
  | _ => none

/-- How a task can go on: with an exception if its query throws one, and not otherwise. -/
def Possible (host : Host) (topic : Topic) (task : Task) (result : Except Thrown (List Nat)) :
    Prop :=
  ∀ query, task.queried topic.subs = some query →
    result.isOk = (queryEvents (host.finder topic.events) (some query.1) query.2).isOk

/-- A task goes on to its end without an exception, and so does what it leaves to do. -/
inductive Completes (host : Host) (allowed : PeerInput → Prop) : Topic → Task → Prop
  | intro {topic : Topic} {task : Task}
      (quiet : ∀ later i result, Later host.toPlatform allowed topic later →
        later.tasks[i]? = some task → Possible host later task result →
        (step host.toPlatform later (.resume i result)).rejections = later.rejections)
      (rest : ∀ later i result, Later host.toPlatform allowed topic later →
        later.tasks[i]? = some task → Possible host later task result →
        ∀ other ∈ (step host.toPlatform later (.resume i result)).tasks.drop
          (later.tasks.length - 1),
        Completes host allowed (step host.toPlatform later (.resume i result)) other) :
      Completes host allowed topic task

/-- An identifier is a string. -/
def IsName (key : Value) : Prop :=
  ∃ t, key = some (.str t)

/-- Unless all filters are empty, their queries can be made and their limits converted, and the
times of the documents that are found can be subtracted, if there are two to compare. -/
def Queryable (finder : Finder) (filters : List Json) : Prop :=
  (∃ filter ∈ filters, hasMembers filter = true) →
    ∃ queries limit, buildQueries finder.toEngine filters = .ok queries ∧
      mathMax finder.toEngine (filters.map limitValue) = .ok limit ∧
      (differentIds (queries.flatMap finder.find) ≤ 1 ∨
        ∀ doc, Remains (queries.flatMap finder.find) doc →
          ∃ time, timeOf finder.toEngine doc = .ok time)

/-- Whenever a task may go on, its filters can be queried. -/
def Asks (host : Host) (allowed : PeerInput → Prop) (topic : Topic) (task : Task)
    (filters : List Json) : Prop :=
  ∀ later, Later host.toPlatform allowed topic later → task ∈ later.tasks →
    Queryable (host.finder later.events) filters

/-! ## Reachable states -/

/-- What is stored or going to be is an event, different identifiers have different subscription
objects, and the objects made so far keep their filters. -/
structure Sound (front : List (List Json)) (topic : Topic) : Prop where
  docs : ∀ doc ∈ topic.events.docs, doc.event ≠ .null
  tasks : ∀ task ∈ topic.tasks, ∀ event ∈ task.events, event ≠ .null
  valid : topic.Valid
  distinct : (topic.subscriptions.map Prod.snd).Nodup
  filters : front <+: topic.subs.map Sub.filters

/-- Everything may happen but with `null` for an event. -/
def soundRules : Rules where
  event event := event ≠ .null
  frame _ _ := True
  entry _ := True

/-- What the rules ask of a task. -/
theorem sound_task {task : Task} : soundRules.task task ↔ ∀ event ∈ task.events, event ≠ .null :=
  Rules.task_iff (fun _ => trivial) (fun _ _ => trivial) fun _ _ _ => trivial

/-- The parts of a step keep a topic sound. -/
theorem stable_sound (front : List (List Json)) : Stable soundRules (Sound front) where
  drop_id event h := by
    cases event with
    | null => exact absurd rfl h
    | _ => exact Json.noConfusion
  docs _ htopic := htopic.docs
  tasks _ htopic task htask := sound_task.mpr (htopic.tasks task htask)
  entries _ _ _ _ := trivial
  stored _ _ htopic hevents :=
    ⟨hevents, htopic.tasks, htopic.valid, htopic.distinct, htopic.filters⟩
  noted _ _ htopic _ := ⟨htopic.docs, htopic.tasks, htopic.valid, htopic.distinct, htopic.filters⟩
  suspended _ _ htopic htask :=
    ⟨htopic.docs, forall_mem_concat htopic.tasks (sound_task.mp htask), htopic.valid,
      htopic.distinct, htopic.filters⟩
  resumed _ _ htopic :=
    ⟨htopic.docs, fun task htask => htopic.tasks task (List.mem_of_mem_eraseIdx htask),
      htopic.valid, htopic.distinct, htopic.filters⟩
  delivered topic sub object key event htopic _ _ hsub _ := by
    refine ⟨htopic.docs, htopic.tasks, fun entry hentry => ?_, htopic.distinct, ?_⟩
    · show entry.2 < (topic.subs.set sub _).length
      rw [List.length_set]
      exact htopic.valid entry hentry
    · show front <+: (topic.subs.set sub _).map Sub.filters
      rw [map_set_receive (fun _ => rfl) hsub]
      exact htopic.filters

section

variable {platform : Platform} {allowed : PeerInput → Prop} {front : List (List Json)}

/-- An entry takes the number of the new object, or comes last with it. -/
theorem set_subscription_nodup {key : Value} {sub : Nat} {subscriptions : List (Value × Nat)}
    (h : (subscriptions.map Prod.snd).Nodup) (hnew : ∀ entry ∈ subscriptions, entry.2 < sub) :
    ((setSubscription key sub subscriptions).map Prod.snd).Nodup := by
  induction subscriptions with
  | nil => exact List.nodup_singleton _
  | cons entry rest ih =>
      rw [List.map_cons, List.nodup_cons] at h
      have hrest : ∀ entry ∈ rest, entry.2 < sub := fun e he => hnew e (List.mem_cons_of_mem _ he)
      unfold setSubscription
      split
      · rw [List.map_cons, List.nodup_cons]
        refine ⟨fun hmem => ?_, h.2⟩
        obtain ⟨other, hother, heq⟩ := List.mem_map.mp hmem
        exact absurd heq (hrest other hother).ne
      · rw [List.map_cons, List.nodup_cons]
        refine ⟨fun hmem => ?_, ih h.2 hrest⟩
        obtain ⟨other, hother, heq⟩ := List.mem_map.mp hmem
        rcases mem_set_subscription hother with hold | ⟨hsub, -⟩
        · exact h.1 (List.mem_map.mpr ⟨other, hold, heq⟩)
        · exact absurd (heq.symm.trans hsub) (hnew entry List.mem_cons_self).ne

/-- A `REQ` makes a new object. -/
theorem Sound.keeps_subscribe (socket : Nat) (key : Value) (filters : List Json) :
    Action.Keeps (Sound front) (subscribe socket key filters) fun _ => True := by
  intro topic h
  refine ⟨⟨h.docs, forall_mem_concat h.tasks fun _ hevent => absurd hevent List.not_mem_nil,
    ?_, set_subscription_nodup h.distinct h.valid, ?_⟩, fun _ _ => trivial⟩
  · exact (directory_subscribe h.valid socket key filters).1
  · refine h.filters.trans ?_
    show topic.subs.map Sub.filters <+: (topic.subs ++ [_]).map Sub.filters
    rw [List.map_append]
    exact List.prefix_append _ _

/-- Entries that are removed from the map do not matter. -/
theorem Sound.keeps_filter (p : Topic → Value × Nat → Bool) :
    Action.Keeps (Sound front) (Action.modify fun topic : Topic =>
      { topic with subscriptions := topic.subscriptions.filter (p topic) } : Async Unit)
      fun _ => True :=
  Action.keeps_modify fun _ h =>
    ⟨h.docs, h.tasks, fun entry hentry => h.valid entry (List.mem_filter.mp hentry).1,
      h.distinct.sublist (List.filter_sublist.map _), h.filters⟩

/-- `null` is not sent to anybody. -/
theorem keeps_stream_null {P : Topic → Prop} :
    Action.Keeps P (streamEvent platform .null) fun event => event = .null := by
  refine Action.keeps_read_bind fun topic _ => Action.keeps_fold rfl fun event entry hevent _ => ?_
  subst hevent
  refine Action.keeps_read_bind fun topic _ => Action.keeps_lift_bind fun passes _ => ?_
  split
  · exact Action.keeps_lift_bind fun id hid => by cases hid
  · exact Action.keeps_pure rfl

/-- Nor is it handled. -/
theorem keeps_on_null {P : Topic → Prop} (socket : Nat) :
    Action.Keeps P (onEvent platform socket (some .null)) fun _ => True := by
  refine Action.keeps_lift_bind fun valid hvalid => ?_
  rw [validate_event_unfiltered] at hvalid
  obtain rfl := Except.ok.inj hvalid
  exact Action.keeps_lift_bind fun kind hkind => by cases hkind

/-- So does a message. -/
theorem Sound.keeps_on_message (socket : Nat) (message : Value) :
    Action.Keeps (Sound front) (onMessage platform socket message) fun _ => True := by
  by_cases hnull : readMessage message = .ok (.event (some .null))
  · rw [on_message_eq, hnull]
    exact keeps_on_null socket
  · refine (stable_sound front).keeps_on_message (fun event hevent => ?_) (fun _ _ => trivial)
      (fun key filters _ => Sound.keeps_subscribe socket key filters)
      fun key _ => Sound.keeps_filter fun _ entry => ¬ strictEqual entry.1 key
    rintro rfl
    exact hnull hevent

/-- So does every step. -/
theorem Sound.step {topic : Topic} (h : Sound front topic) (input : Input) :
    Sound front (step platform topic input) := by
  by_cases hnull : input = .peer .null
  · subst hnull
    have hpeer : Action.Keeps (Sound front) (act platform (.peer .null)) fun _ => True :=
      (stable_sound front).keeps_start
        (keeps_stream_null.bind fun _ _ => Action.keeps_pure trivial)
    exact hpeer.state h
  · refine (stable_sound front).step h
      (fun socket message _ => Sound.keeps_on_message socket message) (fun event hevent => ?_)
      fun socket _ => Sound.keeps_filter fun topic entry =>
        topic.subs[entry.2]?.map Sub.socket ≠ some socket
    rintro rfl
    exact hnull hevent

/-- And every run. -/
theorem Sound.run {peer : Peer} (h : Sound front peer.topic) (inputs : List PeerInput) :
    Sound front (runPeer platform peer inputs).topic := by
  unfold runPeer
  induction inputs generalizing peer with
  | nil => exact h
  | cons input inputs ih =>
      refine ih ?_
      rcases topic_step platform peer input with ⟨i, -, hstep⟩ | hstep | hstep
      · exact hstep ▸ h.step i
      · exact hstep ▸ h
      · exact hstep ▸ (stable_sound front).query_all h

/-- The subscription objects of a topic keep their filters. -/
theorem Sound.later {topic later : Topic} (h : Sound front topic)
    (hlater : Later platform allowed topic later) : Sound (topic.subs.map Sub.filters) later := by
  obtain ⟨peer, inputs, -, rfl, rfl⟩ := hlater
  have hhere : Sound (peer.topic.subs.map Sub.filters) peer.topic :=
    ⟨h.docs, h.tasks, h.valid, h.distinct, List.prefix_refl _⟩
  exact hhere.run inputs

/-- A subscription object is still there, with its filters. -/
theorem Sound.keeps_object {topic later : Topic} (h : Sound front topic)
    (hlater : Later platform allowed topic later) {sub : Nat} {object : Sub}
    (hsub : topic.subs[sub]? = some object) :
    ∃ object', later.subs[sub]? = some object' ∧ object'.filters = object.filters := by
  obtain ⟨hlt, hget⟩ : ∃ hlt : sub < (topic.subs.map Sub.filters).length,
      (topic.subs.map Sub.filters)[sub] = object.filters :=
    List.getElem?_eq_some_iff.mp (by rw [List.getElem?_map, hsub]; rfl)
  have hprefix := List.prefix_iff_getElem?.mp (h.later hlater).filters sub hlt
  rw [List.getElem?_map, hget] at hprefix
  exact Option.map_eq_some_iff.mp hprefix

/-- What a task queries does not change. -/
theorem Sound.keeps_queried {topic later : Topic} (h : Sound front topic)
    (hlater : Later platform allowed topic later) {task : Task} {query : List Json × Bool}
    (hquery : task.queried topic.subs = some query) : task.queried later.subs = some query := by
  cases task with
  | query sub key eose =>
      obtain ⟨object, hobject, rfl⟩ := Option.map_eq_some_iff.mp hquery
      obtain ⟨object', hobject', hsame⟩ := h.keeps_object hlater hobject
      rw [Task.queried, hobject', Option.map_some, hsame]
  | count socket key filters => exact hquery
  | _ => cases hquery

end

/-! ## Tasks that complete -/

/-- Nothing was thrown, and some tasks were left for later. -/
structure Settles (before after : Topic) (added : List Task) : Prop where
  rejections : after.rejections = before.rejections
  tasks : after.tasks = before.tasks ++ added

/-- Nothing happened. -/
theorem Settles.refl (topic : Topic) : Settles topic topic [] :=
  ⟨rfl, (List.append_nil _).symm⟩

/-- Other effects are no exceptions. -/
theorem rejections_concat (topic : Topic) {effect : Effect} (h : effect.isRejected = false) :
    { topic with log := topic.log ++ [effect] }.rejections = topic.rejections := by
  show (topic.log ++ [effect]).countP _ = topic.log.countP _
  rw [List.countP_append, List.countP_singleton, h]
  rfl

/-- An exception is noted. -/
theorem rejections_of_error {m : Async Unit} {topic after : Topic} {thrown : Thrown}
    (h : m topic = (.error thrown, after)) :
    (start m topic).2.rejections = after.rejections + 1 := by
  rw [start, Action.settle, h]
  show (after.log ++ [Effect.rejected thrown]).countP _ = _
  rw [List.countP_append]
  rfl

section

variable {host : Host} {allowed : PeerInput → Prop} {topic : Topic}

/-- A task completes if it settles and what it leaves to do completes. -/
theorem Completes.of_settles {task : Task}
    (h : ∀ later tasks result, Later host.toPlatform allowed topic later → task ∈ later.tasks →
      Possible host later task result → ∃ added, Settles { later with tasks := tasks }
          (start (proceed host.toPlatform result task) { later with tasks := tasks }).2 added ∧
        ∀ other ∈ added, ∀ after, Completes host allowed after other) :
    Completes host allowed topic task := by
  refine ⟨fun later i result hlater htask hresult => ?_,
    fun later i result hlater htask hresult other hother => ?_⟩
  · obtain ⟨added, hsettles, -⟩ := h later (later.tasks.eraseIdx i) result hlater
      (List.mem_of_getElem? htask) hresult
    rw [step_resume host.toPlatform htask]
    exact hsettles.rejections
  · obtain ⟨added, hsettles, hadded⟩ := h later (later.tasks.eraseIdx i) result hlater
      (List.mem_of_getElem? htask) hresult
    have hlt : i < later.tasks.length := (List.getElem?_eq_some_iff.mp htask).1
    rw [step_resume host.toPlatform htask, hsettles.tasks,
      ← List.length_eraseIdx_of_lt hlt, List.drop_left] at hother
    exact hadded other hother _

/-- A loop over a list completes if every round leaves a shorter list to do. -/
theorem completes_loop {α : Type} (task : List α → Task)
    (h : ∀ items result topic, ∃ added,
      Settles topic (start (proceed host.toPlatform result (task items)) topic).2 added ∧
        ∀ other ∈ added, ∃ rest, other = task rest ∧ rest.length < items.length)
    (items : List α) (topic : Topic) : Completes host allowed topic (task items) := by
  induction hlen : items.length using Nat.strong_induction_on generalizing items topic with
  | _ n ih =>
      refine Completes.of_settles fun later tasks result _ _ _ => ?_
      obtain ⟨added, hsettles, hadded⟩ := h items result { later with tasks := tasks }
      refine ⟨added, hsettles, fun other hother after => ?_⟩
      obtain ⟨rest, rfl, hlt⟩ := hadded other hother
      exact ih rest.length (hlen ▸ hlt) rest after rfl

/-- One original is written over, and the others are left for later. -/
theorem settles_overwrite (event : Json) (keys : List Nat) (topic : Topic) :
    ∃ added, Settles topic (start (overwrite event keys) topic).2 added ∧
      ∀ other ∈ added, ∃ rest, other = .overwrite rest event ∧ rest.length < keys.length := by
  cases keys with
  | nil => exact ⟨[], Settles.refl topic, fun other hother => absurd hother List.not_mem_nil⟩
  | cons key keys =>
      refine ⟨[.overwrite keys event], ?_, fun other hother => ⟨keys, ?_, ?_⟩⟩
      · obtain ⟨sent, hsent, hupdate⟩ := update_key_eq key event topic
        have hrun : overwrite event (key :: keys) topic = _ :=
          Action.bind_of_ok hupdate fun _ => suspend (.overwrite keys event)
        rw [start, Action.settle, hrun]
        rcases hsent with rfl | rfl
        · exact ⟨congrArg (List.countP _) (List.append_nil _), rfl⟩
        · exact ⟨rejections_concat topic rfl, rfl⟩
      · exact List.mem_singleton.mp hother
      · exact Nat.lt_succ_self _

/-- The loop over the originals completes. -/
theorem completes_overwrite (keys : List Nat) (event : Json) (topic : Topic) :
    Completes host allowed topic (.overwrite keys event) :=
  completes_loop (Task.overwrite · event)
    (fun keys _ topic => settles_overwrite event keys topic) keys topic

/-- The originals are found and written over. -/
theorem completes_find_originals (query : Query) (event : Json) (topic : Topic) :
    Completes host allowed topic (.findOriginals query event) := by
  refine Completes.of_settles fun later tasks result _ _ _ => ?_
  obtain ⟨added, hsettles, hadded⟩ := settles_overwrite event
    ((later.events.docs.filter (query.holds host.toPlatform)).map Doc.key)
    { later with tasks := tasks }
  refine ⟨added, hsettles, fun other hother after => ?_⟩
  obtain ⟨rest, rfl, -⟩ := hadded other hother
  exact completes_overwrite rest event after

/-- One document is removed, and those behind it are left for later. -/
theorem settles_erase (pubkey : Value) (docs : List Doc) (topic : Topic) :
    ∃ added, Settles topic (start (erase pubkey docs) topic).2 added ∧
      ∀ other ∈ added, ∃ rest, other = .erase rest pubkey ∧ rest.length < docs.length := by
  induction docs with
  | nil =>
      exact ⟨[], Settles.refl topic, fun other hother => absurd hother List.not_mem_nil⟩
  | cons doc docs ih =>
      unfold erase
      split
      · refine ⟨[.erase docs pubkey], ⟨rfl, rfl⟩, fun other hother => ⟨docs, ?_, ?_⟩⟩
        · exact List.mem_singleton.mp hother
        · exact Nat.lt_succ_self _
      · obtain ⟨added, hsettles, hadded⟩ := ih
        refine ⟨added, hsettles, fun other hother => ?_⟩
        obtain ⟨rest, hrest, hlt⟩ := hadded other hother
        exact ⟨rest, hrest, Nat.lt_succ_of_lt hlt⟩

/-- The loop over the documents to delete completes. -/
theorem completes_erase (docs : List Doc) (pubkey : Value) (topic : Topic) :
    Completes host allowed topic (.erase docs pubkey) :=
  completes_loop (Task.erase · pubkey) (fun docs _ topic => settles_erase pubkey docs topic) docs
    topic

/-- Members can be looked at in everything but `null`. -/
theorem get_of_ne_null {event : Json} (h : event ≠ .null) (key : String) :
    get key (some event) = .ok (event.member (ascii key)) := by
  cases event with
  | null => exact absurd rfl h
  | _ => rfl

/-- The documents to delete are found and removed. -/
theorem completes_find_deleted (query : Query) {event : Json} (h : event ≠ .null) (topic : Topic) :
    Completes host allowed topic (.findDeleted query event) := by
  refine Completes.of_settles fun later tasks result _ _ _ => ?_
  have hproceed : proceed host.toPlatform result (.findDeleted query event)
      { later with tasks := tasks } = erase (event.member (ascii "pubkey"))
        (later.events.docs.filter (query.holds host.toPlatform)) { later with tasks := tasks } := by
    show (Action.lift (get "pubkey" (some event)) >>= _ : Async Unit) _ = _
    rw [get_of_ne_null h]
    rfl
  rw [start, Action.settle, hproceed]
  obtain ⟨added, hsettles, hadded⟩ := settles_erase (event.member (ascii "pubkey"))
    (later.events.docs.filter (query.holds host.toPlatform)) { later with tasks := tasks }
  refine ⟨added, hsettles, fun other hother after => ?_⟩
  obtain ⟨rest, rfl, -⟩ := hadded other hother
  exact completes_erase rest _ after

/-- Nothing is thrown, and nothing left for later. -/
def Calm (rejections : Nat) (tasks : List Task) (topic : Topic) : Prop :=
  topic.rejections = rejections ∧ topic.tasks = tasks

/-- A note throws nothing. -/
theorem returns_note {rejections : Nat} {tasks : List Task} {effect : Effect}
    (h : effect.isRejected = false) : Action.Returns (Calm rejections tasks) (note effect) :=
  Action.returns_modify fun topic htopic => ⟨(rejections_concat topic h).trans htopic.1, htopic.2⟩

/-- A function that throws nothing and leaves nothing settles. -/
theorem settles_of_returns {m : Async Unit}
    (h : Action.Returns (Calm topic.rejections topic.tasks) m) :
    Settles topic (start m topic).2 [] := by
  obtain ⟨_, after, hrun, hrejections, htasks⟩ := h topic ⟨rfl, rfl⟩
  rw [start, Action.settle, hrun]
  exact ⟨hrejections, htasks.trans (List.append_nil _).symm⟩

/-- An event is sent under a name that is a string. -/
theorem returns_send_event_to {platform : Platform} {rejections : Nat} {tasks : List Task}
    {event : Json} (h : event ≠ .null) (sub : Nat) {key : Value} (hkey : IsName key) :
    Action.Returns (Calm rejections tasks) (sendEventTo platform event sub key) := by
  obtain ⟨t, rfl⟩ := hkey
  refine Action.returns_lift_bind (get_of_ne_null h "id") (Action.returns_read_bind fun found => ?_)
  cases found with
  | none => exact Action.returns_pure _
  | some object =>
      dsimp only
      split
      · exact Action.returns_pure _
      · refine Action.returns_lift_bind rfl ((returns_note rfl).bind fun _ => ?_)
        have hmodify : Action.Returns (Calm rejections tasks) (Action.modify fun topic =>
            { topic with subs := topic.subs.set sub (object.receive (event.member (ascii "id"))
              (dropId event)) } : Async Unit) := Action.returns_modify fun _ htopic => htopic
        exact hmodify.bind fun _ => Action.returns_pure _

/-- What a query has read is sent. -/
theorem returns_deliver {platform : Platform} {rejections : Nat} {tasks : List Task}
    {docs : List Json} (h : ∀ doc ∈ docs, doc ≠ .null) (sub : Nat) {key : Value}
    (hkey : IsName key) (eose : Option Nat) :
    Action.Returns (Calm rejections tasks) (deliver platform sub key eose docs) := by
  refine (Action.returns_each fun doc hdoc => ?_).bind fun _ => ?_
  · have hnull := h doc (List.mem_reverse.mp hdoc)
    exact (returns_send_event_to hnull sub hkey).bind fun _ => Action.returns_pure ()
  · obtain ⟨t, rfl⟩ := hkey
    cases eose with
    | none => exact Action.returns_pure ()
    | some socket => exact Action.returns_lift_bind rfl (returns_note rfl)

/-- A query throws where its queries cannot be made, its limits not converted or its documents not
compared. -/
theorem query_events_is_ok_iff (finder : Finder) {filters : List Json} (h : AreFilters filters)
    (hasLimit : Bool) :
    (queryEvents finder (some filters) hasLimit).isOk = true ↔ Queryable finder filters := by
  by_cases hkeys : ∃ filter ∈ filters, hasMembers filter = true
  · rw [Queryable, imp_iff_right hkeys, query_events_eq finder h hkeys]
    constructor
    · intro hok
      obtain ⟨answer, hanswer⟩ := is_ok_iff.mp hok
      obtain ⟨queries, hqueries, hanswer⟩ := bind_eq_ok hanswer
      obtain ⟨limit, hlimit, hanswer⟩ := bind_eq_ok hanswer
      obtain ⟨sorted, hsorted, -⟩ := bind_eq_ok hanswer
      have hcompared := sort_newest_ok_iff.mp ⟨sorted, hsorted⟩
      rw [queryResult, (length_foldl_set_result _).1] at hcompared
      refine ⟨queries, limit, hqueries, hlimit, hcompared.imp_right fun htimes doc hdoc => ?_⟩
      exact htimes doc (((foldl_set_result _).2 doc).mpr hdoc)
    · rintro ⟨queries, limit, hqueries, hlimit, hcompared⟩
      obtain ⟨sorted, hsorted⟩ : ∃ sorted, sortNewest finder (queryResult finder queries) =
          .ok sorted := by
        rw [sort_newest_ok_iff, queryResult, (length_foldl_set_result _).1]
        refine hcompared.imp_right fun htimes doc hdoc => htimes doc ?_
        exact ((foldl_set_result _).2 doc).mp hdoc
      rw [hqueries]
      show (mathMax finder.toEngine _ >>= _).isOk = true
      rw [hlimit]
      show (sortNewest finder _ >>= _).isOk = true
      rw [hsorted]
      rfl
  · have hall : ((filters.map hasMembers).all (!·)) = true := by
      simpa using hkeys
    have hrun : queryEvents finder (some filters) hasLimit = .ok (finder.find []) := by
      simp only [queryEvents, has_keys_eq h, hall, bind, Except.bind]
      rfl
    rw [hrun]
    exact iff_of_true rfl fun hsome => absurd hsome hkeys

/-- A query of a well-formed `REQ` completes. -/
theorem completes_query {front : List (List Json)} (h : Sound front topic) {sub : Nat}
    {object : Sub} (hsub : topic.subs[sub]? = some object) (hfilters : AreFilters object.filters)
    {key : Value} (hkey : IsName key) {eose : Option Nat}
    (hasks : Asks host allowed topic (.query sub key eose) object.filters) :
    Completes host allowed topic (.query sub key eose) := by
  refine Completes.of_settles fun later tasks result hlater htask hresult => ⟨[], ?_, ?_⟩
  · have hsound := h.later hlater
    obtain ⟨object', hobject', hsame⟩ := h.keeps_object hlater hsub
    have hok : result.isOk = true := by
      rw [hresult (object'.filters, eose.isSome) (by simp [Task.queried, hobject'])]
      exact (query_events_is_ok_iff _ (hsame ▸ hfilters) _).mpr (hsame ▸ hasks later hlater htask)
    cases result with
    | error thrown => cases hok
    | ok keys =>
        show Settles _ (start (deliver host.toPlatform sub key eose
          ((found keys later).map Doc.event)) { later with tasks := tasks }).2 []
        refine settles_of_returns (returns_deliver (fun event hevent => ?_) sub hkey eose)
        obtain ⟨doc, hdoc, rfl⟩ := List.mem_map.mp hevent
        exact hsound.docs doc (mem_found hdoc)
  · exact fun other hother => absurd hother List.not_mem_nil

/-- So does a `COUNT`. -/
theorem completes_count {filters : List Json} (hfilters : AreFilters filters) {socket : Nat}
    {key : Value} (hasks : Asks host allowed topic (.count socket key filters) filters) :
    Completes host allowed topic (.count socket key filters) := by
  refine Completes.of_settles fun later tasks result hlater htask hresult => ⟨[], ?_, ?_⟩
  · have hok : result.isOk = true := by
      rw [hresult (filters, true) rfl]
      exact (query_events_is_ok_iff _ hfilters _).mpr (hasks later hlater htask)
    cases result with
    | error thrown => cases hok
    | ok keys =>
        refine settles_of_returns (Action.returns_lift_bind rfl ?_)
        exact Action.returns_read_bind fun docs => returns_note rfl
  · exact fun other hother => absurd hother List.not_mem_nil

/-- A query that throws ends with an exception nobody catches. -/
theorem Completes.asks {front : List (List Json)} {task : Task}
    (h : Completes host allowed topic task) (hsound : Sound front topic) {filters : List Json}
    {hasLimit : Bool} (hquery : task.queried topic.subs = some (filters, hasLimit))
    (hfilters : AreFilters filters) : Asks host allowed topic task filters := by
  intro later hlater htask
  by_contra hno
  obtain ⟨quiet, -⟩ := h
  obtain ⟨i, hi⟩ := List.mem_iff_getElem?.mp htask
  have hthrows : (queryEvents (host.finder later.events) (some filters) hasLimit).isOk = false := by
    rw [← Bool.not_eq_true, query_events_is_ok_iff _ hfilters]
    exact hno
  have hpossible : Possible host later task (.error .typeError) := by
    intro query hquery'
    obtain rfl := Option.some.inj ((hsound.keeps_queried hlater hquery).symm.trans hquery')
    exact hthrows.symm
  have hquiet := quiet later i (.error .typeError) hlater hi hpossible
  have hproceed : proceed host.toPlatform (.error .typeError) task
      { later with tasks := later.tasks.eraseIdx i } =
        (.error .typeError, { later with tasks := later.tasks.eraseIdx i }) := by
    cases task with
    | query sub key eose => rfl
    | count socket key filters => rfl
    | _ => cases hquery
  rw [step_resume host.toPlatform hi, rejections_of_error hproceed] at hquiet
  exact absurd hquiet (Nat.succ_ne_self _)

end

end Gnostr.Swarm
