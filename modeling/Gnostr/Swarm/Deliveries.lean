import Gnostr.Swarm.QueryEvents
import Gnostr.Swarm.Subscriptions
import Gnostr.Swarm.Sync

/-!
# What subscriptions are sent

Live events, broadcasts of peers, the query of a `REQ` and the queries that follow a new database
all end in `sendEventTo`, in any order. A query reads the collection while other things happen, and
what it has read it sends later, whatever became of the documents: `SwarmInput` adds this to the
steps of a peer.

`sent_once` says that nothing is sent twice through a subscription object, `closed_for_good` that
nothing is sent behind a `CLOSE`. The first needs ids that a `Set` compares by what they are, the
second that no query is left over from before: a query keeps its subscription object and goes on
when the identifier is gone.
-/

namespace Gnostr.Swarm

open Wire

/-! ## Queries that end later -/

/-- What goes on. -/
inductive SwarmInput where
  | peer (input : PeerInput)
  /-- A query for a subscription ends, with the documents it has read. -/
  | answer (task : Nat) (docs : List Json)

/-- One step. -/
def stepSwarm (platform : Platform) (peer : Peer) : SwarmInput → Peer
  | .peer input => stepPeer platform peer input
  | .answer i docs =>
      match peer.topic.tasks[i]? with
      | some (.query sub key eose) =>
          { peer with
            topic := (start (deliver platform sub key eose docs)
              { peer.topic with tasks := peer.topic.tasks.eraseIdx i }).2 }
      | _ => peer

/-- A run. -/
def runSwarm (platform : Platform) (peer : Peer) (inputs : List SwarmInput) : Peer :=
  inputs.foldl (stepSwarm platform) peer

/-! ## Steps that keep an invariant -/

section

variable {platform : Platform} {rules : Rules} {P : Topic → Prop}

namespace Stable

variable (hP : Stable rules P)

include hP

/-- Several tasks are left for later. -/
theorem suspended_all {topic : Topic} (h : P topic) {tasks : List Task}
    (htasks : ∀ task ∈ tasks, rules.task task) :
    P { topic with tasks := topic.tasks ++ tasks } := by
  induction tasks generalizing topic with
  | nil =>
      rw [List.append_nil]
      exact h
  | cons task tasks ih =>
      have hone := hP.suspended topic task h (htasks task List.mem_cons_self)
      have hall := ih hone fun t ht => htasks t (List.mem_cons_of_mem _ ht)
      dsimp only at hall
      rwa [List.append_assoc] at hall

/-- What every step keeps is kept when all subscriptions are queried. -/
theorem query_all {topic : Topic} (h : P topic) : P (queryAll topic) := by
  refine hP.suspended_all h fun task htask => ?_
  obtain ⟨entry, hentry, rfl⟩ := List.mem_map.mp htask
  exact ⟨hP.entries topic h entry hentry, fun socket hsocket => by cases hsocket⟩

/-- A step of the topic. -/
theorem step {topic : Topic} (h : P topic) {input : Input}
    (hframe : ∀ socket message, input = .frame socket message →
      Action.Keeps P (onMessage platform socket message) fun _ => True)
    (hevent : ∀ event, input = .peer event → rules.event event)
    (hclose : ∀ socket, input = .close socket →
      Action.Keeps P (disconnect socket) fun _ => True) : P (step platform topic input) := by
  cases input with
  | frame socket message => exact (hP.keeps_start (hframe socket message rfl)).state h
  | peer event => exact (hP.keeps_peer (hevent event rfl)).state h
  | close socket => exact (hclose socket rfl).state h
  | resume i result => exact (hP.keeps_resume i result).state h

/-- A step of a peer. -/
theorem step_swarm {peer : Peer} (h : P peer.topic) {input : SwarmInput}
    (htopic : ∀ i, input = .peer (.topic i) → P (Swarm.step platform peer.topic i))
    (hdocs : ∀ i docs, input = .answer i docs → ∀ doc ∈ docs, rules.event doc) :
    P (stepSwarm platform peer input).topic := by
  cases input with
  | peer input =>
      rcases topic_step platform peer input with ⟨i, rfl, hstep⟩ | hstep | hstep
      · exact hstep ▸ htopic i rfl
      · exact hstep ▸ h
      · exact hstep ▸ hP.query_all h
  | answer i docs =>
      unfold stepSwarm
      dsimp only
      split
      · next sub key eose htask =>
        have hallowed := hP.tasks _ h _ (List.mem_of_getElem? htask)
        exact (hP.keeps_start (hP.keeps_deliver hallowed (hdocs i docs rfl))).state
          (hP.resumed _ i h)
      · exact h

end Stable

end

/-! ## Nothing is sent twice -/

/-- An event whose id a `Set` compares by what it is: no array and no object. -/
def ScalarId (event : Json) : Prop :=
  ∃ p, primitive (idOf event) = some p

/-- The events that come in with an input have such ids. -/
def SwarmInput.ScalarIds : SwarmInput → Prop
  | .peer (.topic (.frame _ message)) =>
      ∀ event, readMessage message = .ok (.event (some event)) → ScalarId event
  | .peer (.topic (.peer event)) => ScalarId event
  | .answer _ docs => ∀ doc ∈ docs, ScalarId doc
  | _ => True

/-- The socket and the event of an `EVENT` frame. -/
def Effect.delivery : Effect → Option (Nat × Json)
  | .send socket (.event _ event) => some (socket, event)
  | _ => none

/-- What was sent through a subscription object, and to whom. -/
def Sub.deliveries (object : Sub) : List (Nat × Json) :=
  object.sent.map fun event => (object.socket, event)

/-- The events sent through a subscription object have different ids, and it has received these and
no others. -/
structure Sub.Once (object : Sub) : Prop where
  distinct : object.sent.Pairwise fun a b => ¬ SameKey (idOf a) (idOf b)
  received : object.receivedEvents = object.sent.map idOf

/-- Every subscription object was sent every event once, and every event that was sent went through
one of them. -/
structure SentOnce (topic : Topic) : Prop where
  docs : ∀ doc ∈ topic.events.docs, ScalarId doc.event
  tasks : ∀ task ∈ topic.tasks, ∀ event ∈ task.events, ScalarId event
  scalar : ∀ object ∈ topic.subs, ∀ event ∈ object.sent, ScalarId event
  objects : ∀ object ∈ topic.subs, object.Once
  log : (topic.log.filterMap Effect.delivery).Perm (topic.subs.flatMap Sub.deliveries)

/-- Events with ids that are compared by what they are; no `EVENT` frame is sent but through a
subscription object. -/
def onceRules : Rules where
  event := ScalarId
  frame socket frame := (Effect.send socket frame).delivery = none
  entry _ := True

/-- The id does not depend on `_id`. -/
theorem id_drop_id (event : Json) : idOf (dropId event) = idOf event :=
  member_drop_id (by decide) event

/-- What the rules ask of a task. -/
theorem once_task {task : Task} : onceRules.task task ↔ ∀ event ∈ task.events, ScalarId event :=
  Rules.task_iff (fun _ => trivial) (fun _ _ => rfl) fun _ _ _ => rfl

/-- What they allow to be noted is no delivery. -/
theorem once_effect {effect : Effect} (h : onceRules.effect effect) : effect.delivery = none := by
  cases effect with
  | send socket frame => exact h
  | _ => rfl

/-- Something new about one item of a list. -/
theorem flat_map_set_perm {α β : Type} {f : α → List β} {xs : List α} {i : Nat} {x y : α} {b : β}
    (hx : xs[i]? = some x) (hy : f y = f x ++ [b]) :
    ((xs.set i y).flatMap f).Perm (xs.flatMap f ++ [b]) := by
  induction xs generalizing i with
  | nil => cases hx
  | cons first xs ih =>
      cases i with
      | zero =>
          obtain rfl := Option.some.inj hx
          rw [List.set_cons_zero, List.flatMap_cons, List.flatMap_cons, hy, List.append_assoc,
            List.append_assoc]
          exact List.perm_append_comm.append_left _
      | succ i =>
          rw [List.set_cons_succ, List.flatMap_cons, List.flatMap_cons, List.append_assoc]
          exact (ih hx).append_left _

/-- An item of a list that was changed is an old one or the new one. -/
theorem forall_mem_set {α : Type} {p : α → Prop} {xs : List α} {i : Nat} {y : α}
    (h : ∀ x ∈ xs, p x) (hy : p y) : ∀ x ∈ xs.set i y, p x := by
  intro x hx
  rcases List.mem_or_eq_of_mem_set hx with hold | rfl
  · exact h x hold
  · exact hy

/-- An event that was not received before is not sent twice. -/
theorem Sub.Once.receive {object : Sub} (h : object.Once) {event : Json} (hscalar : ScalarId event)
    (hnew : (object.receivedEvents.any fun received => strictEqual received (idOf event)) = false) :
    (object.receive (idOf event) (dropId event)).Once where
  distinct := by
    refine List.pairwise_append.mpr ⟨h.distinct, List.pairwise_singleton _ _, ?_⟩
    intro old hold new hmem
    rw [List.mem_singleton.mp hmem, id_drop_id]
    have hother : ¬ strictEqual (idOf old) (idOf event) = true := by
      rw [h.received, List.any_map, List.any_eq_false] at hnew
      exact hnew old hold
    rintro (heq | heq)
    · obtain ⟨p, hp⟩ := hscalar
      exact hother ((strict_equal_iff _ _).mpr ⟨p, heq ▸ hp, hp⟩)
    · exact hother heq
  received := by
    show object.receivedEvents ++ [_] = (object.sent ++ [dropId event]).map idOf
    rw [List.map_append, List.map_singleton, id_drop_id, h.received]

/-- The id is as scalar without `_id`. -/
theorem ScalarId.drop_id {event : Json} (h : ScalarId event) : ScalarId (dropId event) := by
  obtain ⟨p, hp⟩ := h
  exact ⟨p, (congrArg primitive (id_drop_id event)).trans hp⟩

/-- The parts of a step send nothing twice. -/
theorem stable_sent_once : Stable onceRules SentOnce where
  drop_id _ h := h.drop_id
  docs _ htopic := htopic.docs
  tasks _ htopic task htask := once_task.mpr (htopic.tasks task htask)
  entries _ _ _ _ := trivial
  stored _ _ htopic hevents :=
    ⟨hevents, htopic.tasks, htopic.scalar, htopic.objects, htopic.log⟩
  noted topic effect htopic heffect := by
    refine ⟨htopic.docs, htopic.tasks, htopic.scalar, htopic.objects, ?_⟩
    show ((topic.log ++ [effect]).filterMap Effect.delivery).Perm _
    rw [List.filterMap_append, List.filterMap_cons_none (once_effect heffect), List.filterMap_nil,
      List.append_nil]
    exact htopic.log
  suspended _ _ htopic htask :=
    ⟨htopic.docs, forall_mem_concat htopic.tasks (once_task.mp htask), htopic.scalar,
      htopic.objects, htopic.log⟩
  resumed _ _ htopic :=
    ⟨htopic.docs, fun task htask => htopic.tasks task (List.mem_of_mem_eraseIdx htask),
      htopic.scalar, htopic.objects, htopic.log⟩
  delivered topic sub object key event htopic _ hscalar hsub hnew := by
    have hmem := List.mem_of_getElem? hsub
    refine ⟨htopic.docs, htopic.tasks, ?_, ?_, ?_⟩
    · exact forall_mem_set htopic.scalar
        (forall_mem_concat (htopic.scalar object hmem) hscalar.drop_id)
    · exact forall_mem_set htopic.objects ((htopic.objects object hmem).receive hscalar hnew)
    · show ((topic.log ++ [_]).filterMap Effect.delivery).Perm ((topic.subs.set sub _).flatMap _)
      rw [List.filterMap_append]
      refine (htopic.log.append_right _).trans (flat_map_set_perm hsub ?_).symm
      exact List.map_append

/-- A `REQ` makes a subscription object that was sent nothing. -/
theorem SentOnce.keeps_subscribe (socket : Nat) (key : Value) (filters : List Json) :
    Action.Keeps SentOnce (subscribe socket key filters) fun _ => True := by
  refine Action.keeps_read_bind fun topic _ => ?_
  have hadded : Action.Keeps SentOnce (Action.modify fun other : Topic => { other with
      subs := other.subs ++ [⟨filters, socket, [], []⟩]
      subscriptions := setSubscription key topic.subs.length other.subscriptions } : Async Unit)
      fun _ => True := by
    refine Action.keeps_modify fun other hother => ⟨hother.docs, hother.tasks, ?_, ?_, ?_⟩
    · exact forall_mem_concat hother.scalar fun event hevent => absurd hevent List.not_mem_nil
    · exact forall_mem_concat hother.objects ⟨List.Pairwise.nil, rfl⟩
    · show (other.log.filterMap Effect.delivery).Perm ((other.subs ++ [_]).flatMap Sub.deliveries)
      rw [List.flatMap_append, List.flatMap_singleton]
      exact (List.append_nil _).symm ▸ hother.log
  exact hadded.bind fun _ _ => stable_sent_once.keeps_suspend ⟨trivial, fun _ _ => rfl⟩

/-- What is changed in the map of subscriptions does not matter. -/
theorem SentOnce.keeps_subscriptions (f : Topic → List (Value × Nat)) :
    Action.Keeps SentOnce (Action.modify fun topic : Topic =>
      { topic with subscriptions := f topic } : Async Unit) fun _ => True :=
  Action.keeps_modify fun _ h => ⟨h.docs, h.tasks, h.scalar, h.objects, h.log⟩

/-- One step sends nothing twice. -/
theorem SentOnce.step {platform : Platform} {peer : Peer} (h : SentOnce peer.topic)
    {input : SwarmInput} (hinput : input.ScalarIds) :
    SentOnce (stepSwarm platform peer input).topic := by
  refine stable_sent_once.step_swarm h (fun i hi => ?_) fun i docs hi => ?_
  · subst hi
    refine stable_sent_once.step h (fun socket message hframe => ?_) (fun event hevent => ?_)
      fun socket _ => SentOnce.keeps_subscriptions _
    · subst hframe
      refine stable_sent_once.keeps_on_message hinput (fun frame hreply => ?_)
        (fun key filters _ => SentOnce.keeps_subscribe socket key filters)
        fun key _ => SentOnce.keeps_subscriptions _
      cases frame with
      | event key event => cases hreply
      | _ => rfl
    · subst hevent
      exact hinput
  · subst hi
    exact hinput

/-- Nor does a run. -/
theorem SentOnce.run {platform : Platform} {peer : Peer} (h : SentOnce peer.topic)
    {inputs : List SwarmInput} (hinputs : ∀ input ∈ inputs, input.ScalarIds) :
    SentOnce (runSwarm platform peer inputs).topic := by
  unfold runSwarm
  induction inputs generalizing peer with
  | nil => exact h
  | cons input inputs ih =>
      exact ih (h.step (hinputs input List.mem_cons_self)) fun i hi =>
        hinputs i (List.mem_cons_of_mem _ hi)

/-- In every run in which no event has an array or an object for an id, the events sent through a
subscription object have different ids, and it has received exactly these; and every `EVENT` frame
was sent through one of the objects. -/
theorem sent_once (platform : Platform) (localUrl : Bytes) (events : Collection)
    (hdocs : ∀ doc ∈ events.docs, ScalarId doc.event) (inputs : List SwarmInput)
    (hinputs : ∀ input ∈ inputs, input.ScalarIds) :
    let topic := (runSwarm platform (Peer.start localUrl (Topic.start events)) inputs).topic
    (∀ object ∈ topic.subs, object.Once) ∧
      (topic.log.filterMap Effect.delivery).Perm (topic.subs.flatMap Sub.deliveries) := by
  have hstart : SentOnce (Peer.start localUrl (Topic.start events)).topic :=
    ⟨hdocs, fun _ h => absurd h List.not_mem_nil, fun _ h => absurd h List.not_mem_nil,
      fun _ h => absurd h List.not_mem_nil, List.Perm.refl _⟩
  have hrun : SentOnce (runSwarm platform _ inputs).topic := hstart.run hinputs
  exact ⟨hrun.objects, hrun.log⟩

/-- An `EVENT` frame. -/
def publish (socket : Nat) (event : Json) : SwarmInput :=
  .peer (.topic (.frame socket (some (.arr [.str (ascii "EVENT"), event]))))

/-- A client subscribes to everything. -/
def subscribeAll : SwarmInput :=
  .peer (.topic (request 0 (.str (ascii "a")) [.obj []]))

/-- Another one sends an event twice. -/
def publishTwice (event : Json) : List SwarmInput :=
  [subscribeAll, publish 1 event, publish 1 event]

/-- The note is sent once. -/
theorem sent_once_hello :
    (runSwarm samplePlatform (Peer.start [] (Topic.start ⟨[], 0⟩))
      (publishTwice (noteWith "hello"))).topic.subs.map Sub.sent = [[noteWith "hello"]] ∧
    ∀ object ∈ (runSwarm samplePlatform (Peer.start [] (Topic.start ⟨[], 0⟩))
      (publishTwice (noteWith "hello"))).topic.subs, object.Once := by
  refine ⟨rfl, ?_⟩
  refine (sent_once samplePlatform [] ⟨[], 0⟩ (fun _ h => absurd h List.not_mem_nil)
    (publishTwice (noteWith "hello")) fun input hinput => ?_).1
  have hnote : (publish 1 (noteWith "hello")).ScalarIds := by
    intro event hevent
    have hread : readMessage (some (.arr [.str (ascii "EVENT"), noteWith "hello"])) =
        .ok (.event (some (noteWith "hello"))) := rfl
    obtain rfl := Option.some.inj (Message.event.inj (Except.ok.inj (hread.symm.trans hevent)))
    exact ⟨_, rfl⟩
  have hrequest : subscribeAll.ScalarIds := by
    intro event hevent
    rw [read_message_req_iff.mpr (requested_request _ _)] at hevent
    cases hevent
  simp only [publishTwice, List.mem_cons, List.not_mem_nil, or_false] at hinput
  rcases hinput with rfl | rfl | rfl
  · exact hrequest
  · exact hnote
  · exact hnote

/-- An event with an array for an id. -/
def listIdEvent : Json :=
  .obj [(ascii "id", .arr [.str (ascii "x")]), (ascii "kind", .int 1)]

/-- An event with an array for an id is sent twice. -/
theorem event_sent_twice :
    ¬ ∀ (platform : Platform) (localUrl : Bytes) (events : Collection) (inputs : List SwarmInput),
      ∀ object ∈ (runSwarm platform (Peer.start localUrl (Topic.start events)) inputs).topic.subs,
        object.Once := by
  intro h
  have hsent : ((runSwarm samplePlatform (Peer.start [] (Topic.start ⟨[], 0⟩))
      (publishTwice listIdEvent)).topic.subs.map Sub.sent) = [[listIdEvent, listIdEvent]] := rfl
  obtain ⟨object, hobject⟩ : ∃ object, (runSwarm samplePlatform
      (Peer.start [] (Topic.start ⟨[], 0⟩)) (publishTwice listIdEvent)).topic.subs = [object] := by
    rw [← List.length_eq_one_iff, ← List.length_map (f := Sub.sent), hsent]
    rfl
  rw [hobject, List.map_singleton, List.singleton_inj] at hsent
  have honce := (h samplePlatform [] ⟨[], 0⟩ (publishTwice listIdEvent) object
    (hobject ▸ List.mem_singleton.mpr rfl)).distinct
  rw [hsent] at honce
  exact (List.pairwise_cons.mp honce).1 _ (List.mem_singleton.mpr rfl) (.inl rfl)

/-! ## Nothing is sent behind a `CLOSE` -/

/-- The socket and the identifier of an `EVENT` or an `EOSE` frame. -/
def Effect.about : Effect → Option (Nat × Value)
  | .send socket (.event key _) => some (socket, key)
  | .send socket (.eose key) => some (socket, key)
  | _ => none

/-- A query that will be answered to a socket under an identifier. -/
def Task.Pending (subs : List Sub) (socket : Nat) (key : Value) : Task → Prop
  | .query sub name eose => SameKey name key ∧
      (subs[sub]?.map Sub.socket = some socket ∨ eose = some socket)
  | _ => False

/-- A client sends a `REQ` under an identifier. -/
def SwarmInput.Opens (socket : Nat) (key : Value) : SwarmInput → Prop
  | .peer (.topic (.frame sender message)) => sender = socket ∧
      ∃ name filters, requested message = some (name, filters) ∧ SameKey name key
  | _ => False

section

variable (allowed : Nat → Value → Prop)

/-- Only some identifiers may be answered to a socket; `owners` has the sockets of the subscription
objects. -/
def ownerRules (owners : List Nat) : Rules where
  event _ := True
  frame socket frame := ∀ about, (Effect.send socket frame).about = some about →
    allowed about.1 about.2
  entry entry := ∃ socket, owners[entry.2]? = some socket ∧ allowed socket entry.1

/-- Nothing else was sent behind `front`, and nothing else is going to be. -/
structure Confined (front : List Effect) (owners : List Nat) (topic : Topic) : Prop where
  sockets : topic.subs.map Sub.socket = owners
  entries : ∀ entry ∈ topic.subscriptions, (ownerRules allowed owners).entry entry
  tasks : ∀ task ∈ topic.tasks, (ownerRules allowed owners).task task
  log : ∃ sent, topic.log = front ++ sent ∧
    ∀ effect ∈ sent, ∀ about, effect.about = some about → allowed about.1 about.2

variable {allowed} {front : List Effect} {owners : List Nat} {topic : Topic}

/-- What may be sent is about an identifier that is allowed. -/
theorem about_of_effect {effect : Effect} (h : (ownerRules allowed owners).effect effect) :
    ∀ about, effect.about = some about → allowed about.1 about.2 := by
  cases effect with
  | send socket frame => exact h
  | _ => exact fun about habout => by cases habout

/-- One more effect. -/
theorem log_concat {log : List Effect} {effect : Effect}
    (h : ∃ sent, log = front ++ sent ∧
      ∀ effect ∈ sent, ∀ about, effect.about = some about → allowed about.1 about.2)
    (heffect : ∀ about, effect.about = some about → allowed about.1 about.2) :
    ∃ sent, log ++ [effect] = front ++ sent ∧
      ∀ effect ∈ sent, ∀ about, effect.about = some about → allowed about.1 about.2 := by
  obtain ⟨sent, hlog, hsent⟩ := h
  exact ⟨sent ++ [effect], by rw [hlog, List.append_assoc], forall_mem_concat hsent heffect⟩

/-- The parts of a step keep to the identifiers that are allowed. -/
theorem stable_confined : Stable (ownerRules allowed owners) (Confined allowed front owners) where
  drop_id _ _ := trivial
  docs _ _ _ _ := trivial
  tasks _ htopic := htopic.tasks
  entries _ htopic := htopic.entries
  stored _ _ htopic _ := ⟨htopic.sockets, htopic.entries, htopic.tasks, htopic.log⟩
  noted _ _ htopic heffect :=
    ⟨htopic.sockets, htopic.entries, htopic.tasks, log_concat htopic.log (about_of_effect heffect)⟩
  suspended _ _ htopic htask :=
    ⟨htopic.sockets, htopic.entries, forall_mem_concat htopic.tasks htask, htopic.log⟩
  resumed _ _ htopic :=
    ⟨htopic.sockets, htopic.entries,
      fun task htask => htopic.tasks task (List.mem_of_mem_eraseIdx htask), htopic.log⟩
  delivered topic sub object key event htopic hentry _ hsub _ := by
    refine ⟨?_, htopic.entries, htopic.tasks, log_concat htopic.log fun about habout => ?_⟩
    · show (topic.subs.set sub _).map Sub.socket = owners
      rw [map_set_receive (fun _ => rfl) hsub]
      exact htopic.sockets
    · obtain ⟨socket, howner, hallowed⟩ := hentry
      obtain rfl := Option.some.inj habout
      rw [← htopic.sockets, List.getElem?_map, hsub] at howner
      obtain rfl := Option.some.inj howner
      exact hallowed

/-- What is allowed of some objects is allowed of them when there are more. -/
theorem owner_entry_append {entry : Value × Nat} (h : (ownerRules allowed owners).entry entry)
    (socket : Nat) : (ownerRules allowed (owners ++ [socket])).entry entry := by
  obtain ⟨owner, howner, hallowed⟩ := h
  have hlt : entry.2 < owners.length := (List.getElem?_eq_some_iff.mp howner).1
  exact ⟨owner, (List.getElem?_append_left hlt).trans howner, hallowed⟩

/-- What a task may do does not depend on objects made later. -/
theorem owner_task_append {task : Task} (h : (ownerRules allowed owners).task task)
    (socket : Nat) : (ownerRules allowed (owners ++ [socket])).task task := by
  cases task with
  | query sub key eose => exact ⟨owner_entry_append h.1 socket, h.2⟩
  | _ => exact h

/-- A `REQ` under an identifier that may be answered. -/
theorem Confined.request (h : Confined allowed front owners topic) (socket : Nat) (key : Value)
    (filters : List Json) (hkey : ∀ name, SameKey name key → allowed socket name) :
    Confined allowed front (owners ++ [socket]) (start (subscribe socket key filters) topic).2 where
  sockets := by
    show (topic.subs ++ [_]).map Sub.socket = _
    rw [List.map_append, h.sockets]
    rfl
  entries := by
    intro entry hentry
    rcases mem_set_subscription hentry with hold | ⟨hsub, hsame⟩
    · exact owner_entry_append (h.entries entry hold) socket
    · refine ⟨socket, ?_, hkey _ hsame⟩
      rw [hsub, ← h.sockets]
      simp
  tasks := by
    refine forall_mem_concat (fun task htask => owner_task_append (h.tasks task htask) socket) ?_
    refine ⟨⟨socket, ?_, hkey key (.inl rfl)⟩, fun other hother about habout => ?_⟩
    · rw [← h.sockets]
      simp
    · obtain rfl := Option.some.inj hother
      obtain rfl := Option.some.inj habout
      exact hkey key (.inl rfl)
  log := h.log

/-- Entries that are removed from the map do not matter. -/
theorem Confined.keeps_filter (p : Topic → Value × Nat → Bool) :
    Action.Keeps (Confined allowed front owners) (Action.modify fun topic : Topic =>
      { topic with subscriptions := topic.subscriptions.filter (p topic) } : Async Unit)
      fun _ => True :=
  Action.keeps_modify fun _ h =>
    ⟨h.sockets, fun entry hentry => h.entries entry (List.mem_filter.mp hentry).1, h.tasks, h.log⟩

/-- One step sends nothing that is not allowed, if it opens no subscription that is not. -/
theorem Confined.step {platform : Platform} {peer : Peer}
    (h : Confined allowed front owners peer.topic) {input : SwarmInput}
    (hinput : ∀ socket message key filters, input = .peer (.topic (.frame socket message)) →
      requested message = some (key, filters) → ∀ name, SameKey name key → allowed socket name) :
    ∃ owners, Confined allowed front owners (stepSwarm platform peer input).topic := by
  by_cases hreq : ∃ socket message key filters,
      input = .peer (.topic (.frame socket message)) ∧ requested message = some (key, filters)
  · obtain ⟨socket, message, key, filters, rfl, hreq⟩ := hreq
    have hrun : onMessage platform socket message = subscribe socket key filters := by
      rw [on_message_eq, read_message_req_iff.mpr hreq]
      rfl
    refine ⟨owners ++ [socket], ?_⟩
    show Confined allowed front _ (start (onMessage platform socket message) peer.topic).2
    rw [hrun]
    exact h.request socket key filters (hinput socket message key filters rfl hreq)
  · refine ⟨owners, stable_confined.step_swarm h (fun i hi => ?_) fun _ _ _ _ _ => trivial⟩
    subst hi
    refine stable_confined.step h (fun socket message hframe => ?_) (fun _ _ => trivial)
      fun socket _ => Confined.keeps_filter fun topic entry =>
        topic.subs[entry.2]?.map Sub.socket ≠ some socket
    subst hframe
    refine stable_confined.keeps_on_message (fun _ _ => trivial) (fun frame hreply => ?_)
      (fun key filters hread => ?_) fun key _ =>
        Confined.keeps_filter fun _ entry => ¬ strictEqual entry.1 key
    · intro about habout
      cases frame with
      | event key event => cases hreply
      | eose key => cases hreply
      | _ => cases habout
    · exact absurd ⟨socket, message, key, filters, rfl, read_message_req_iff.mp hread⟩ hreq

/-- A run keeps to the identifiers that were asked for. -/
theorem Confined.run {platform : Platform} {peer : Peer}
    (h : Confined allowed front owners peer.topic) {inputs : List SwarmInput}
    (hinputs : ∀ socket message key filters, .peer (.topic (.frame socket message)) ∈ inputs →
      requested message = some (key, filters) → ∀ name, SameKey name key → allowed socket name) :
    ∃ owners, Confined allowed front owners (runSwarm platform peer inputs).topic := by
  unfold runSwarm
  induction inputs generalizing peer owners with
  | nil => exact ⟨owners, h⟩
  | cons input inputs ih =>
      obtain ⟨owners', hstep⟩ := h.step fun socket message key filters hinput =>
        hinputs socket message key filters (hinput ▸ List.mem_cons_self)
      exact ih hstep fun socket message key filters hmem =>
        hinputs socket message key filters (List.mem_cons_of_mem _ hmem)

end

/-- Only this identifier is not answered to this socket. -/
def OtherThan (socket : Nat) (key : Value) (other : Nat) (name : Value) : Prop :=
  ¬ (other = socket ∧ SameKey name key)

/-- The same identifier the other way round. -/
theorem SameKey.symm {a b : Value} (h : SameKey a b) : SameKey b a :=
  h.imp Eq.symm strict_equal_symm

/-- And over a third one. -/
theorem SameKey.trans {a b c : Value} (hab : SameKey a b) (hbc : SameKey b c) : SameKey a c := by
  rcases hab with rfl | hab
  · exact hbc
  · rcases hbc with rfl | hbc
    · exact .inr hab
    · exact .inr (strict_equal_trans hab hbc)

/-- A value that a `Map` compares by what it is. -/
theorem SameKey.strict_equal_primitive {a b : Value} (h : SameKey a b) {p : Primitive}
    (hp : primitive b = some p) : strictEqual a b = true := by
  rcases h with rfl | h
  · exact (strict_equal_iff _ _).mpr ⟨p, hp, hp⟩
  · exact h

/-- Behind a `CLOSE`, nothing is under the identifier if no query is left over. -/
theorem Confined.unsubscribe {front : List Effect} {owners : List Nat} {topic : Topic}
    (h : Confined (fun _ _ => True) front owners topic) {socket : Nat} {key : Value}
    {p : Primitive} (hkey : primitive key = some p)
    (htasks : ∀ task ∈ topic.tasks, ¬ task.Pending topic.subs socket key) :
    Confined (OtherThan socket key) topic.log owners (start (unsubscribe key) topic).2 where
  sockets := h.sockets
  entries := by
    intro entry hentry
    obtain ⟨hmem, hother⟩ := List.mem_filter.mp hentry
    obtain ⟨owner, howner, -⟩ := h.entries entry hmem
    refine ⟨owner, howner, fun ⟨_, hsame⟩ => ?_⟩
    exact of_decide_eq_true hother (hsame.strict_equal_primitive hkey)
  tasks := by
    intro task htask
    have hallowed := h.tasks task htask
    have hnot := htasks task htask
    cases task with
    | query sub name eose =>
        obtain ⟨⟨owner, howner, -⟩, -⟩ := hallowed
        refine ⟨⟨owner, howner, fun ⟨hsocket, hsame⟩ => hnot ⟨hsame, .inl ?_⟩⟩, ?_⟩
        · rw [← List.getElem?_map, h.sockets, howner, hsocket]
        · intro other hother about habout
          obtain rfl := Option.some.inj habout
          exact fun ⟨hsocket, hsame⟩ => hnot ⟨hsame, .inr (hsocket ▸ hother)⟩
    | count other name filters => exact fun n about habout => by cases habout
    | _ => trivial
  log := ⟨[], (List.append_nil _).symm, fun _ heffect => absurd heffect List.not_mem_nil⟩

/-- The frame of a client. -/
def clientFrame (socket : Nat) (message : Value) : SwarmInput :=
  .peer (.topic (.frame socket message))

/-- When a `CLOSE` is handled while no query for its identifier and its socket is left over, then
no `EVENT` and no `EOSE` is sent to the socket under the identifier until the socket sends another
`REQ` for it. -/
theorem closed_for_good (platform : Platform) (localUrl : Bytes) (events : Collection)
    (before after : List SwarmInput) (socket : Nat) (message key : Value)
    (hclosed : closed message = some key) (hkey : ∃ p, primitive key = some p)
    (htasks : ∀ task ∈ (runSwarm platform (Peer.start localUrl (Topic.start events))
        before).topic.tasks,
      ¬ task.Pending (runSwarm platform (Peer.start localUrl (Topic.start events))
        before).topic.subs socket key)
    (hafter : ∀ input ∈ after, ¬ input.Opens socket key) :
    ∃ sent, (runSwarm platform (Peer.start localUrl (Topic.start events))
        (before ++ clientFrame socket message :: after)).topic.log =
      (runSwarm platform (Peer.start localUrl (Topic.start events))
        (before ++ [clientFrame socket message])).topic.log ++ sent ∧
      ∀ effect ∈ sent, ∀ name, effect.about = some (socket, name) → ¬ SameKey name key := by
  obtain ⟨p, hp⟩ := hkey
  have hstart : Confined (fun _ _ => True) [] [] (Peer.start localUrl (Topic.start events)).topic :=
    ⟨rfl, fun _ h => absurd h List.not_mem_nil, fun _ h => absurd h List.not_mem_nil,
      [], rfl, fun _ h => absurd h List.not_mem_nil⟩
  have hbefore : ∃ owners,
      Confined (fun _ _ => True) [] owners (runSwarm platform _ before).topic :=
    hstart.run fun _ _ _ _ _ _ _ _ => trivial
  obtain ⟨owners, hbefore⟩ := hbefore
  have hrun : onMessage platform socket message = unsubscribe key := by
    rw [on_message_eq, read_message_close_iff.mpr hclosed]
    rfl
  have hclose : (runSwarm platform (Peer.start localUrl (Topic.start events))
      (before ++ [clientFrame socket message])).topic =
        (start (unsubscribe key) (runSwarm platform (Peer.start localUrl (Topic.start events))
          before).topic).2 := by
    rw [← hrun]
    unfold runSwarm
    rw [List.foldl_append]
    rfl
  have hquiet := hbefore.unsubscribe hp htasks
  rw [← hclose] at hquiet
  -- the rest of the run starts where nothing is under the identifier
  obtain ⟨owners', hend⟩ := hquiet.run fun other message name filters hinput hreq name' hsame
    ⟨hsocket, hkey⟩ => hafter _ hinput ⟨hsocket, name, filters, hreq, hsame.symm.trans hkey⟩
  obtain ⟨sent, hlog, hsent⟩ := hend.log
  refine ⟨sent, ?_, fun effect heffect name habout hsame => ?_⟩
  · rw [hclose]
    show _ = (runSwarm platform (Peer.start localUrl (Topic.start events)) before).topic.log ++ sent
    rw [← hlog]
    unfold runSwarm
    rw [List.foldl_append, List.foldl_append]
    rfl
  · exact hsent effect heffect (socket, name) habout ⟨rfl, hsame⟩

/-- A `CLOSE` of `a`. -/
def closeFrame : Value :=
  some (.arr [.str (ascii "CLOSE"), .str (ascii "a")])

/-- The query has ended when the client closes its subscription, and a note comes in later. -/
theorem closed_for_good_queried :
    ∃ sent, (runSwarm samplePlatform (Peer.start [] (Topic.start ⟨[], 0⟩))
        ([subscribeAll, .answer 0 []] ++
          clientFrame 0 closeFrame :: [publish 1 (noteWith "hello")])).topic.log =
      (runSwarm samplePlatform (Peer.start [] (Topic.start ⟨[], 0⟩))
        ([subscribeAll, .answer 0 []] ++
          [clientFrame 0 closeFrame])).topic.log ++ sent ∧
      ∀ effect ∈ sent, ∀ name, effect.about = some (0, name) →
        ¬ SameKey name (some (.str (ascii "a"))) := by
  refine closed_for_good samplePlatform [] ⟨[], 0⟩ _ _ 0 closeFrame _ rfl ⟨_, rfl⟩ ?_ ?_
  · intro task htask
    exact absurd htask List.not_mem_nil
  · intro input hinput hopens
    rw [List.mem_singleton.mp hinput] at hopens
    cases hopens.1

/-- A client closes its subscription before the query has ended, and is sent `EOSE`. -/
theorem eose_behind_close :
    ¬ ∀ (platform : Platform) (localUrl : Bytes) (events : Collection)
      (before after : List SwarmInput) (socket : Nat) (message key : Value),
      closed message = some key → (∃ p, primitive key = some p) →
      (∀ input ∈ after, ¬ input.Opens socket key) →
      ∃ sent, (runSwarm platform (Peer.start localUrl (Topic.start events))
          (before ++ clientFrame socket message :: after)).topic.log =
        (runSwarm platform (Peer.start localUrl (Topic.start events))
          (before ++ [clientFrame socket message])).topic.log ++ sent ∧
        ∀ effect ∈ sent, ∀ name, effect.about = some (socket, name) → ¬ SameKey name key := by
  intro h
  have hnone : ∀ input ∈ [SwarmInput.peer (.topic (.resume 0 (.ok [])))],
      ¬ input.Opens 0 (some (.str (ascii "a"))) := by
    intro input hinput hopens
    rw [List.mem_singleton.mp hinput] at hopens
    exact hopens
  obtain ⟨sent, hlog, hsent⟩ := h samplePlatform [] ⟨[], 0⟩ [subscribeAll] _ 0 closeFrame _ rfl
    ⟨_, rfl⟩ hnone
  have hsent' : [Effect.send 0 (.eose (some (.str (ascii "a"))))] = sent := hlog
  subst hsent'
  exact hsent _ (List.mem_singleton.mpr rfl) _ rfl (.inl rfl)

end Gnostr.Swarm
