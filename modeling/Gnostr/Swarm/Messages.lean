import Gnostr.Swarm.Completion

/-!
# Frames that the relay survives

The handler of the `message` event takes a frame apart, looks at members of what the client sent
and calls the validation outside any `try`. `handles_frame_iff` says which frames are handled as
they should be: without an exception, now or later, and with a notice and nothing else where the
frame is not well formed. The operations of `hyperdeebee` and the checks of `nostr-tools` are taken
not to throw and not to reject. A query that a frame asks for is made later, when other frames may
have been handled: what can come in between is a parameter.
-/

namespace Gnostr.Swarm

open Wire

/-! ## Frames -/

/-- An event with the structure the library checks, an id and a signature. -/
structure WellFormedEvent (engine : Engine) (event : Json) : Prop where
  structured : engine.nostrValidate (some event) = true
  id : ∃ t, event.member (ascii "id") = some (.str t)
  sig : ∃ t, event.member (ascii "sig") = some (.str t)

/-- What may be asked for. -/
def Message.WellFormed (engine : Engine) : Message → Prop
  | .event value => ∃ event, value = some event ∧ WellFormedEvent engine event
  | .req key filters => IsName key ∧ AreFilters filters
  | .count key filters => IsName key ∧ AreFilters filters
  | .close key => IsName key
  | .unknown => False

/-- A well-formed frame. -/
def WellFormed (engine : Engine) (message : Value) : Prop :=
  ∃ request, readMessage message = .ok request ∧ request.WellFormed engine

/-- A frame is handled as it should be: it ends without an exception, now and later, and if it is
not well formed then nothing is changed and its client gets a notice. -/
structure Handles (host : Host) (allowed : PeerInput → Prop) (topic : Topic) (socket : Nat)
    (message : Value) : Prop where
  quiet : (step host.toPlatform topic (.frame socket message)).rejections = topic.rejections
  completes : ∀ task ∈ (step host.toPlatform topic (.frame socket message)).tasks.drop
    topic.tasks.length,
    Completes host allowed (step host.toPlatform topic (.frame socket message)) task
  refused : ¬ WellFormed host.toEngine message →
    { step host.toPlatform topic (.frame socket message) with log := topic.log } = topic ∧
    ∃ sent text, (step host.toPlatform topic (.frame socket message)).log = topic.log ++ sent ∧
      .send socket (.notice text) ∈ sent

/-! ### When it is -/

/-- An event can be compared with the filters of a subscription and, if they let it through and it
was not received before, the identifier can be converted to a text. -/
def Accepts (engine : Engine) (subs : List Sub) (event : Json) (entry : Value × Nat) : Prop :=
  ∃ passes, validateEvent engine (some event) (subs[entry.2]?.map Sub.filters) = .ok passes ∧
    (passes = true → ∀ object, subs[entry.2]? = some object →
      (object.receivedEvents.any fun received => strictEqual received (idOf event)) = false →
      ∃ t, text engine entry.1 = .ok t)

/-- What can be handled: a message of an unknown type, an event of an unknown kind, and well-formed
messages, if no subscription is in the way of the event and the filters can be queried when they
are. -/
def Message.Manageable (host : Host) (allowed : PeerInput → Prop) (topic : Topic) (socket : Nat) :
    Message → Prop
  | .event value => ∃ event, value = some event ∧
      (eventType host.toPlatform event = .ok none ∨ WellFormedEvent host.toEngine event ∧
        ∀ entry ∈ topic.subscriptions, Accepts host.toEngine topic.subs event entry)
  | .req key filters => IsName key ∧ AreFilters filters ∧
      Asks host allowed (start (subscribe socket key filters) topic).2
        (.query topic.subs.length key (some socket)) filters
  | .count key filters => IsName key ∧ AreFilters filters ∧
      Asks host allowed { topic with tasks := topic.tasks ++ [.count socket key filters] }
        (.count socket key filters) filters
  | .close key => IsName key
  | .unknown => True

/-- A frame that can be read and handled. -/
def Manageable (host : Host) (allowed : PeerInput → Prop) (topic : Topic) (socket : Nat)
    (message : Value) : Prop :=
  ∃ request, readMessage message = .ok request ∧ request.Manageable host allowed topic socket

/-! ## Events that are streamed -/

/-- What the relay relies on: the structure check looks at the kind and the tags, and the checks do
not look at `_id`. -/
structure Engine.Checks (engine : Engine) : Prop where
  ignores : engine.IgnoresId
  kind : ∀ event, engine.nostrValidate (some event) = true →
    ∃ q, number (event.member (ascii "kind")) = some q
  tags : engine.ChecksTags

section

variable {engine : Engine}

/-- Members but `_id` are as they were. -/
theorem get_drop_id {key : String} (h : ascii key ≠ ascii "_id") (event : Json) :
    get key (some (dropId event)) = get key (some event) := by
  cases event with
  | obj ms => exact congrArg Except.ok (member_drop_id h (.obj ms))
  | _ => rfl

/-- The text of an event does not depend on `_id`. -/
theorem text_drop_id (event : Json) :
    text engine (some (dropId event)) = text engine (some event) := by
  cases event with
  | obj ms =>
      have hsame : ((ms.filter fun m => m.1 ≠ ascii "_id").any fun m => m.1 = ascii "toString") =
          ms.any fun m => m.1 = ascii "toString" := by
        rw [List.any_filter]
        refine List.any_congr rfl fun m => ?_
        by_cases hname : m.1 = ascii "toString"
        · simp [hname, show ascii "toString" ≠ ascii "_id" by decide]
        · simp [hname]
      show jsonText engine (.obj _) = jsonText engine (.obj ms)
      rw [jsonText, jsonText, hsame]
  | _ => rfl

/-- So are the tags. -/
theorem hastag_drop_id (event : Json) (filter : Value) (tag : Option Bytes) :
    hastag engine (some (dropId event)) filter tag = hastag engine (some event) filter tag := by
  rw [hastag, get_drop_id (by decide)]
  rfl

/-- And what the handlers say. -/
theorem call_handler_drop_id (key : Bytes) (event : Json) (value : Value) :
    callHandler engine key (some (dropId event)) value =
      callHandler engine key (some event) value := by
  unfold callHandler callInherited
  simp only [get_drop_id (show ascii "id" ≠ ascii "_id" by decide),
    get_drop_id (show ascii "kind" ≠ ascii "_id" by decide),
    get_drop_id (show ascii "pubkey" ≠ ascii "_id" by decide),
    get_drop_id (show ascii "created_at" ≠ ascii "_id" by decide), hastag_drop_id, text_drop_id]

/-- Filters do not look at `_id`. -/
theorem validate_event_drop_id (h : engine.Checks) (event : Json) (filters : Option (List Json)) :
    validateEvent engine (some (dropId event)) filters =
      validateEvent engine (some event) filters := by
  have hfilter : validateFilter engine (some (dropId event)) =
      validateFilter engine (some event) := by
    funext filter
    unfold validateFilter
    simp only [hastag_drop_id, call_handler_drop_id]
  unfold validateEvent
  rw [(h.ignores event).1, (h.ignores event).2, hfilter]

/-- A subscription accepts the event just as well without `_id`. -/
theorem accepts_drop_id (h : engine.Checks) {subs : List Sub} {event : Json} {entry : Value × Nat} :
    Accepts engine subs (dropId event) entry ↔ Accepts engine subs event entry := by
  unfold Accepts
  rw [validate_event_drop_id h, id_drop_id]

/-- What other subscriptions received does not matter. -/
theorem accepts_set {subs : List Sub} {event : Json} {entry : Value × Nat} {sub : Nat}
    (h : entry.2 ≠ sub) (object : Sub) :
    Accepts engine (subs.set sub object) event entry ↔ Accepts engine subs event entry := by
  unfold Accepts
  rw [List.getElem?_set_ne h.symm]

end

/-- An event is sent unless its subscription received it before or the identifier cannot be
converted. -/
theorem send_event_to_returns_iff (platform : Platform) {event : Json} (h : event ≠ .null)
    (sub : Nat) (key : Value) (topic : Topic) :
    (∃ left, (sendEventTo platform event sub key topic).1 = .ok left) ↔
      ∀ object, topic.subs[sub]? = some object →
        (object.receivedEvents.any fun received => strictEqual received (idOf event)) = false →
        ∃ t, text platform.toEngine key = .ok t := by
  rw [send_event_to_eq platform (get_of_ne_null h "id")]
  cases hsub : topic.subs[sub]? with
  | none => exact iff_of_true ⟨event, rfl⟩ fun object hobject => by cases hobject
  | some object =>
      dsimp only
      split
      · next hany =>
        refine iff_of_true ⟨event, rfl⟩ fun other hother hnew => ?_
        obtain rfl := Option.some.inj hother
        exact absurd (hany.symm.trans hnew) (by decide)
      · next hany =>
        cases text platform.toEngine key with
        | error thrown =>
            refine iff_of_false (fun ⟨left, hleft⟩ => by cases hleft) fun hall => ?_
            obtain ⟨t, ht⟩ := hall object rfl (Bool.eq_false_iff.mpr hany)
            cases ht
        | ok t => exact iff_of_true ⟨_, rfl⟩ fun _ _ _ => ⟨t, rfl⟩

/-- The body of `streamEvent`. -/
def streamTo (platform : Platform) (event : Json) (entry : Value × Nat) : Async Json := do
  let object ← Action.read fun topic => topic.subs[entry.2]?
  if ← Action.lift (validateEvent platform.toEngine (some event) (object.map Sub.filters)) then
    sendEventTo platform event entry.2 entry.1
  else return event

/-- Streaming is a loop over the subscriptions. -/
theorem stream_event_eq (platform : Platform) (event : Json) (topic : Topic) :
    streamEvent platform event topic =
      Action.fold (streamTo platform) event topic.subscriptions topic :=
  rfl

section

variable {platform : Platform} {event : Json} {topic : Topic}

/-- One subscription: it stands in the way, or the event is passed on, with or without `_id`. -/
theorem stream_to_cases (hevent : event ≠ .null) (entry : Value × Nat) (topic : Topic) :
    (¬ Accepts platform.toEngine topic.subs event entry ∧
      ∃ thrown, streamTo platform event entry topic = (.error thrown, topic)) ∨
    Accepts platform.toEngine topic.subs event entry ∧
      (streamTo platform event entry topic = (.ok event, topic) ∨
        ∃ object, streamTo platform event entry topic = (.ok (dropId event),
          topic.delivered entry.2 object entry.1 (idOf event) (dropId event))) := by
  have hrun : streamTo platform event entry topic = (Action.lift (validateEvent platform.toEngine
      (some event) (topic.subs[entry.2]?.map Sub.filters)) >>= fun passes =>
        if passes then sendEventTo platform event entry.2 entry.1 else pure event) topic := rfl
  unfold Accepts
  cases hvalidate : validateEvent platform.toEngine (some event)
      (topic.subs[entry.2]?.map Sub.filters) with
  | error thrown =>
      refine .inl ⟨?_, thrown, ?_⟩
      · rintro ⟨passes, hpasses, -⟩
        cases hpasses
      · rw [hrun, hvalidate]
        rfl
  | ok passes =>
      rw [hvalidate] at hrun
      cases passes with
      | false => exact .inr ⟨⟨false, rfl, fun h => by cases h⟩, .inl hrun⟩
      | true =>
          have hsend : streamTo platform event entry topic =
              sendEventTo platform event entry.2 entry.1 topic := hrun
          have hiff := send_event_to_returns_iff platform hevent entry.2 entry.1 topic
          rw [hsend]
          rcases hresult : sendEventTo platform event entry.2 entry.1 topic with ⟨result, after⟩
          rcases send_event_to_cases platform event entry.2 entry.1 topic with
            ⟨hstate, hleft⟩ | ⟨object, -, -, hdelivered⟩
          · rw [hresult] at hstate hleft hiff
            obtain rfl : after = topic := hstate
            cases result with
            | error thrown =>
                refine .inl ⟨fun ⟨passes, hpasses, hall⟩ => ?_, thrown, rfl⟩
                obtain ⟨left, hleft⟩ := hiff.mpr (hall (Except.ok.inj hpasses).symm)
                cases hleft
            | ok left =>
                obtain rfl := hleft left rfl
                exact .inr ⟨⟨true, rfl, fun _ => hiff.mp ⟨left, rfl⟩⟩, .inl rfl⟩
          · rw [hdelivered] at hiff
            rw [← hresult, hdelivered]
            exact .inr ⟨⟨true, rfl, fun _ => hiff.mp ⟨_, rfl⟩⟩, .inr ⟨object, rfl⟩⟩

/-- `_id` is removed once. -/
theorem drop_id_drop_id (event : Json) : dropId (dropId event) = dropId event := by
  cases event with
  | obj ms => simp [dropId]
  | _ => rfl

/-- An event without `_id` is still one. -/
theorem drop_id_ne_null (h : event ≠ .null) : dropId event ≠ .null :=
  (stable_sound []).drop_id event h

/-- The loop ends with the event when every subscription accepts it. -/
theorem stream_fold_cases (hchecks : platform.Checks) (hevent : event ≠ .null)
    {entries : List (Value × Nat)} (hdistinct : (entries.map Prod.snd).Nodup) (topic : Topic) :
    ((¬ ∀ entry ∈ entries, Accepts platform.toEngine topic.subs event entry) ∧
      ∃ thrown after, Action.fold (streamTo platform) event entries topic =
        (.error thrown, after)) ∨
    (∀ entry ∈ entries, Accepts platform.toEngine topic.subs event entry) ∧
      ∃ left after, Action.fold (streamTo platform) event entries topic = (.ok left, after) ∧
        (left = event ∨ left = dropId event) ∧ Settles topic after [] := by
  induction entries generalizing event topic with
  | nil =>
      refine .inr ⟨fun entry hentry => absurd hentry List.not_mem_nil, event, topic, rfl, ?_⟩
      exact ⟨.inl rfl, Settles.refl topic⟩
  | cons entry entries ih =>
      rw [List.map_cons, List.nodup_cons] at hdistinct
      rw [List.forall_mem_cons]
      rcases stream_to_cases hevent entry topic with
        ⟨hno, thrown, hrun⟩ | ⟨haccepts, hrun | ⟨object, hrun⟩⟩
      · exact .inl ⟨fun hall => hno hall.1, thrown, topic, Action.bind_of_error hrun _⟩
      · have hnext : Action.fold (streamTo platform) event (entry :: entries) topic =
            Action.fold (streamTo platform) event entries topic := Action.bind_of_ok hrun _
        rw [hnext]
        rcases ih hevent hdistinct.2 topic with ⟨hno, hthrows⟩ | ⟨hall, hreturns⟩
        · exact .inl ⟨fun hall => hno hall.2, hthrows⟩
        · exact .inr ⟨⟨haccepts, hall⟩, hreturns⟩
      · have hnext : Action.fold (streamTo platform) event (entry :: entries) topic =
            Action.fold (streamTo platform) (dropId event) entries
              (topic.delivered entry.2 object entry.1 (idOf event) (dropId event)) :=
          Action.bind_of_ok hrun _
        -- the others are as they were
        have hsame : (∀ other ∈ entries, Accepts platform.toEngine
            (topic.delivered entry.2 object entry.1 (idOf event) (dropId event)).subs
              (dropId event) other) ↔
            ∀ other ∈ entries, Accepts platform.toEngine topic.subs event other := by
          refine forall₂_congr fun other hother => ?_
          have hne : other.2 ≠ entry.2 := fun heq =>
            hdistinct.1 (List.mem_map.mpr ⟨other, hother, heq⟩)
          exact (accepts_set hne _).trans (accepts_drop_id hchecks)
        rw [hnext]
        rcases ih (drop_id_ne_null hevent) hdistinct.2
          (topic.delivered entry.2 object entry.1 (idOf event) (dropId event)) with
          ⟨hno, hthrows⟩ | ⟨hall, left, after, hfold, hleft, hsettles⟩
        · exact .inl ⟨fun hall => hno (hsame.mpr hall.2), hthrows⟩
        · refine .inr ⟨⟨haccepts, hsame.mp hall⟩, left, after, hfold, .inr ?_, ?_⟩
          · rcases hleft with rfl | rfl
            · rfl
            · exact drop_id_drop_id event
          · exact ⟨hsettles.rejections.trans (rejections_concat topic rfl), hsettles.tasks⟩

end

/-! ## Well-formed events -/

section

variable {platform : Platform} {event : Json} {topic : Topic}

/-- And as well formed as before. -/
theorem WellFormedEvent.drop_id (hchecks : platform.Checks)
    (h : WellFormedEvent platform.toEngine event) :
    WellFormedEvent platform.toEngine (dropId event) where
  structured := (hchecks.ignores event).1.trans h.structured
  id := (member_drop_id (show ascii "id" ≠ ascii "_id" by decide) event).symm ▸ h.id
  sig := (member_drop_id (show ascii "sig" ≠ ascii "_id" by decide) event).symm ▸ h.sig

/-- A well-formed event is not `null`. -/
theorem WellFormedEvent.ne_null (h : WellFormedEvent platform.toEngine event) : event ≠ .null := by
  rintro rfl
  obtain ⟨t, ht⟩ := h.id
  cases ht

/-- The type does not depend on `_id`. -/
theorem event_type_drop_id (event : Json) :
    eventType platform (dropId event) = eventType platform event := by
  rw [eventType, get_drop_id (by decide)]
  rfl

/-- Whether an event is kept is decided by its type. -/
theorem is_persistent_of_type {type : EventType} (h : eventType platform event = .ok (some type)) :
    isPersistent platform.toEngine (some event) = .ok (decide (type ∈ persistentKinds)) := by
  obtain ⟨kind, hkind, htype⟩ := bind_eq_ok h
  rw [isPersistent, hkind]
  show (getEventType platform.toEngine kind >>= _) = _
  rw [htype]
  rfl

/-- Tags that are arrays have a parameter. -/
theorem find_parameter_ok {tags : List Json} (h : ∀ tag ∈ tags, ∃ items, tag = .arr items) :
    ∃ found, findParameter tags = .ok found ∧
      ∀ tag, found = some tag → ∃ items, tag = .arr items := by
  induction tags with
  | nil => exact ⟨none, rfl, fun tag htag => by cases htag⟩
  | cons tag tags ih =>
      obtain ⟨items, rfl⟩ := h tag List.mem_cons_self
      have hrun : findParameter (.arr items :: tags) =
          if strictEqual items[0]? (string "d") then .ok (some (.arr items))
          else findParameter tags := rfl
      rw [hrun]
      split
      · exact ⟨_, rfl, fun tag htag => ⟨items, (Option.some.inj htag).symm⟩⟩
      · exact ih fun other hother => h other (List.mem_cons_of_mem _ hother)

/-- The parameter is looked for in the tags. -/
theorem parameter_eq (h : event ≠ .null) {tags : List Json}
    (hmember : event.member (ascii "tags") = some (.arr tags)) :
    parameter (some event) = (findParameter tags >>= fun found =>
      match found with
      | none => .ok (string "")
      | some tag => do
          let value ← index 1 (some tag)
          return if truthy value then value else string "") := by
  rw [parameter, get_of_ne_null h, hmember]
  rfl

/-- It can be, when the tags are arrays. -/
theorem parameter_ok (h : event ≠ .null) {tags : List Json}
    (hmember : event.member (ascii "tags") = some (.arr tags))
    (htags : ∀ tag ∈ tags, ∃ items, tag = .arr items) :
    ∃ value, parameter (some event) = .ok value := by
  obtain ⟨found, hfound, harray⟩ := find_parameter_ok htags
  rw [parameter_eq h hmember, hfound]
  cases found with
  | none => exact ⟨_, rfl⟩
  | some tag =>
      obtain ⟨items, rfl⟩ := harray tag rfl
      exact ⟨_, rfl⟩

end

/-- An asynchronous function that was started returns. -/
theorem start_returns (m : Async Unit) (topic : Topic) :
    start m topic = (.ok (), (start m topic).2) := by
  unfold start Action.settle
  rcases m topic with ⟨_ | _, _⟩ <;> rfl

section

variable {host : Host} {allowed : PeerInput → Prop} {event : Json} {topic : Topic}

/-- What `handleEvent` leaves to do for a well-formed event completes. -/
theorem settles_handle_event (hchecks : host.Checks) (h : WellFormedEvent host.toEngine event)
    {type : EventType} (htype : eventType host.toPlatform event = .ok (some type))
    (hkept : type ∈ persistentKinds) (topic : Topic) :
    ∃ added, Settles topic (start (handleEvent host.toPlatform event) topic).2 added ∧
      ∀ task ∈ added, ∀ later, Completes host allowed later task := by
  obtain ⟨tags, hmember, harrays⟩ := hchecks.tags event h.structured
  have hnone : ∀ task ∈ ([] : List Task), ∀ later, Completes host allowed later task :=
    fun task htask => absurd htask List.not_mem_nil
  cases type with
  | regular =>
      rw [start_regular htype]
      exact ⟨[], ⟨rejections_concat topic rfl, (List.append_nil _).symm⟩, hnone⟩
  | replaceable =>
      rw [start_replaceable htype]
      exact ⟨[], ⟨rejections_concat topic rfl, (List.append_nil _).symm⟩, hnone⟩
  | parameterizedReplaceable =>
      obtain ⟨value, hvalue⟩ := parameter_ok h.ne_null hmember harrays
      rcases start_parameterized htype topic with ⟨thrown, hquery, -⟩ | ⟨query, -, hstart⟩
      · rw [originalsQuery, same_author_and_kind_eq htype, hvalue] at hquery
        cases hquery
      · rw [hstart]
        refine ⟨[.findOriginals query event], ⟨rfl, rfl⟩, fun task htask later => ?_⟩
        rw [List.mem_singleton.mp htask]
        exact completes_find_originals query event later
  | delete =>
      rw [start_delete htype (references_eq hmember harrays)]
      refine ⟨_, ⟨rfl, rfl⟩, fun task htask later => ?_⟩
      rw [List.mem_singleton.mp htask]
      exact completes_find_deleted _ h.ne_null later
  | ephemeral => exact absurd hkept (by decide)

/-- `sendEvent` for a well-formed event: a subscription is in the way, or the event is streamed and
handled. -/
theorem send_event_cases (hchecks : host.Checks) (h : WellFormedEvent host.toEngine event)
    {type : EventType} (htype : eventType host.toPlatform event = .ok (some type))
    (hdistinct : (topic.subscriptions.map Prod.snd).Nodup) :
    ((¬ ∀ entry ∈ topic.subscriptions, Accepts host.toEngine topic.subs event entry) ∧
      ∃ thrown after, sendEvent host.toPlatform event topic = (.error thrown, after)) ∨
    (∀ entry ∈ topic.subscriptions, Accepts host.toEngine topic.subs event entry) ∧
      ∃ added after, sendEvent host.toPlatform event topic = (.ok (), after) ∧
        Settles topic after added ∧ ∀ task ∈ added, ∀ later, Completes host allowed later task := by
  have hnoted : sendEvent host.toPlatform event topic =
      (streamEvent host.toPlatform event >>= fun event =>
        Action.lift (isPersistent host.toEngine (some event)) >>= fun persistent =>
          if persistent then start (handleEvent host.toPlatform event) else pure ())
      { topic with log := topic.log ++ [.broadcast event] } := rfl
  rcases stream_fold_cases hchecks h.ne_null hdistinct
    { topic with log := topic.log ++ [.broadcast event] } with
    ⟨hno, thrown, after, hfold⟩ | ⟨hall, left, after, hfold, hleft, hsettles⟩
  · refine .inl ⟨hno, thrown, after, ?_⟩
    rw [hnoted]
    exact Action.bind_of_error ((stream_event_eq ..).trans hfold) _
  · have hwell : WellFormedEvent host.toEngine left := by
      rcases hleft with rfl | rfl
      · exact h
      · exact h.drop_id hchecks
    have htype' : eventType host.toPlatform left = .ok (some type) := by
      rcases hleft with rfl | rfl
      · exact htype
      · exact (event_type_drop_id event).trans htype
    have hstream : streamEvent host.toPlatform event { topic with
        log := topic.log ++ [.broadcast event] } = (.ok left, after) :=
      (stream_event_eq ..).trans hfold
    have hrun : sendEvent host.toPlatform event topic = (if decide (type ∈ persistentKinds) then
        start (handleEvent host.toPlatform left) else pure () : Async Unit) after := by
      rw [hnoted, Action.bind_of_ok hstream, is_persistent_of_type htype']
      rfl
    have hrejections : after.rejections = topic.rejections :=
      hsettles.rejections.trans (rejections_concat topic rfl)
    have htasks : after.tasks = topic.tasks := hsettles.tasks.trans (List.append_nil _)
    refine .inr ⟨hall, ?_⟩
    by_cases hkept : type ∈ persistentKinds
    · obtain ⟨added, hadded, hcomplete⟩ := settles_handle_event hchecks hwell htype' hkept after
      refine ⟨added, (start (handleEvent host.toPlatform left) after).2, ?_, ?_, hcomplete⟩
      · rw [hrun, if_pos (decide_eq_true hkept)]
        exact start_returns _ _
      · exact ⟨hadded.rejections.trans hrejections, htasks ▸ hadded.tasks⟩
    · refine ⟨[], after, ?_, ?_, fun task htask => absurd htask List.not_mem_nil⟩
      · rw [hrun, if_neg (by simpa using hkept)]
        rfl
      · exact ⟨hrejections, htasks.trans (List.append_nil _).symm⟩

/-- The handler of an event of a known kind. -/
theorem on_event_of_type {platform : Platform} {type : EventType}
    (h : eventType platform event = .ok (some type)) (socket : Nat) :
    onEvent platform socket (some event) = (do
      sendEvent platform event
      let id ← Action.lift (get "id" (some event))
      let _ ← Action.lift (text platform.toEngine id)
      note (.send socket (.ok id))) := by
  obtain ⟨kind, hkind, htype⟩ := bind_eq_ok h
  unfold onEvent
  rw [validate_event_unfiltered, hkind]
  show (Action.lift (getEventType platform.toEngine kind) >>= _ : Async Unit) = _
  rw [htype]
  rfl

/-- An event of an unknown kind is refused. -/
theorem on_event_of_none {platform : Platform} (h : eventType platform event = .ok none)
    (socket : Nat) : onEvent platform socket (some event) =
      note (.send socket (.notice "Unrecognized event kind")) := by
  obtain ⟨kind, hkind, htype⟩ := bind_eq_ok h
  unfold onEvent
  rw [validate_event_unfiltered, hkind]
  show (Action.lift (getEventType platform.toEngine kind) >>= _ : Async Unit) = _
  rw [htype]
  rfl

/-- A kind that cannot be compared is an exception. -/
theorem on_event_of_error {platform : Platform} {thrown : Thrown}
    (h : eventType platform event = .error thrown) (socket : Nat) (topic : Topic) :
    onEvent platform socket (some event) topic = (.error thrown, topic) := by
  unfold onEvent
  rw [validate_event_unfiltered]
  show (Action.lift (get "kind" (some event)) >>= _ : Async Unit) topic = _
  rcases bind_eq_error h with hkind | ⟨kind, hkind, htype⟩
  · rw [hkind]
    rfl
  · rw [hkind]
    show (Action.lift (getEventType platform.toEngine kind) >>= _ : Async Unit) topic = _
    rw [htype]
    rfl

/-- A well-formed event of a known kind is handled unless a subscription is in the way. -/
theorem on_event_cases (hchecks : host.Checks) (h : WellFormedEvent host.toEngine event)
    {type : EventType} (htype : eventType host.toPlatform event = .ok (some type))
    (hdistinct : (topic.subscriptions.map Prod.snd).Nodup) (socket : Nat) :
    ((¬ ∀ entry ∈ topic.subscriptions, Accepts host.toEngine topic.subs event entry) ∧
      ∃ thrown after, onEvent host.toPlatform socket (some event) topic = (.error thrown, after)) ∨
    (∀ entry ∈ topic.subscriptions, Accepts host.toEngine topic.subs event entry) ∧
      ∃ added, Settles topic (start (onEvent host.toPlatform socket (some event)) topic).2 added ∧
        ∀ task ∈ added, ∀ later, Completes host allowed later task := by
  rw [on_event_of_type htype]
  rcases send_event_cases hchecks h htype hdistinct with
    ⟨hno, thrown, after, hrun⟩ | ⟨hall, added, after, hrun, hsettles, hcomplete⟩
  · exact .inl ⟨hno, thrown, after, Action.bind_of_error hrun _⟩
  · refine .inr ⟨hall, added, ?_, hcomplete⟩
    obtain ⟨t, ht⟩ := h.id
    rw [start, Action.settle, Action.bind_of_ok hrun, get_of_ne_null h.ne_null, ht]
    exact ⟨(rejections_concat after rfl).trans hsettles.rejections, hsettles.tasks⟩

end

/-! ## Frames that are handled -/

/-- The log only grows. -/
theorem stable_log (front : List Effect) : Stable anyRules fun topic => front <+: topic.log where
  drop_id _ _ := trivial
  docs _ _ _ _ := trivial
  tasks _ _ task _ := any_task task
  entries _ _ _ _ := trivial
  stored _ _ htopic _ := htopic
  noted _ _ htopic _ := htopic.trans (List.prefix_append _ _)
  suspended _ _ htopic _ := htopic
  resumed _ _ htopic := htopic
  delivered _ _ _ _ _ htopic _ _ _ _ := htopic.trans (List.prefix_append _ _)

/-- A notice to a client. -/
def Effect.isNotice : Effect → Bool
  | .send _ (.notice _) => true
  | _ => false

/-- Everything may happen but that a notice is sent. -/
def silentRules : Rules where
  event _ := True
  frame socket frame := (Effect.send socket frame).isNotice = false
  entry _ := True

/-- What the rules allow to be noted is no notice. -/
theorem silent_effect {effect : Effect} (h : silentRules.effect effect) :
    effect.isNotice = false := by
  cases effect with
  | send socket frame => exact h
  | _ => rfl

/-- Any task may be left to do. -/
theorem silent_task (task : Task) : silentRules.task task :=
  (Rules.task_iff (fun _ => trivial) (fun _ _ => rfl) fun _ _ _ => rfl).mpr fun _ _ => trivial

/-- No notice is sent where the rules forbid it. -/
theorem stable_silent (notices : Nat) :
    Stable silentRules fun topic => topic.log.countP Effect.isNotice = notices where
  drop_id _ _ := trivial
  docs _ _ _ _ := trivial
  tasks _ _ task _ := silent_task task
  entries _ _ _ _ := trivial
  stored _ _ htopic _ := htopic
  noted topic effect htopic heffect := by
    show (topic.log ++ [effect]).countP _ = notices
    rw [List.countP_append, List.countP_singleton, silent_effect heffect]
    exact htopic
  suspended _ _ htopic _ := htopic
  resumed _ _ htopic := htopic
  delivered topic _ object key event htopic _ _ _ _ := by
    show (topic.log ++ [Effect.send object.socket (.event key (dropId event))]).countP _ = notices
    rw [List.countP_append]
    exact htopic

section

variable {host : Host} {allowed : PeerInput → Prop} {topic : Topic} {socket : Nat}
  {message : Value}

/-- A well-formed frame is handled when it settles and what it leaves completes. -/
theorem handles_of_settles (hwell : WellFormed host.toEngine message) {added : List Task}
    (hsettles : Settles topic (step host.toPlatform topic (.frame socket message)) added)
    (hcomplete : ∀ task ∈ added,
      Completes host allowed (step host.toPlatform topic (.frame socket message)) task) :
    Handles host allowed topic socket message where
  quiet := hsettles.rejections
  completes := by
    rw [hsettles.tasks, List.drop_left]
    exact hcomplete
  refused hbad := absurd hwell hbad

/-- A frame that is answered with a notice, and nothing else, is handled. -/
theorem handles_of_notice {text : String}
    (hrun : onMessage host.toPlatform socket message = note (.send socket (.notice text))) :
    Handles host allowed topic socket message := by
  have hstep : step host.toPlatform topic (.frame socket message) =
      { topic with log := topic.log ++ [.send socket (.notice text)] } := by
    show (start (onMessage host.toPlatform socket message) topic).2 = _
    rw [hrun]
    rfl
  refine ⟨?_, ?_, fun _ => ?_⟩
  · rw [hstep]
    exact rejections_concat topic rfl
  · rw [hstep, List.drop_length]
    exact fun task htask => absurd htask List.not_mem_nil
  · rw [hstep]
    exact ⟨rfl, _, text, rfl, List.mem_singleton.mpr rfl⟩

/-- A frame that throws is not. -/
theorem not_handles_of_error {thrown : Thrown} {after : Topic}
    (hrun : onMessage host.toPlatform socket message topic = (.error thrown, after)) :
    ¬ Handles host allowed topic socket message := by
  intro h
  have hkeeps : Action.Keeps (fun other : Topic => topic.log <+: other.log)
      (onMessage host.toPlatform socket message) fun _ => True :=
    (stable_log topic.log).keeps_on_message (fun _ _ => trivial) (fun _ _ => trivial)
      (fun key filters _ => fun other hother => ⟨hother, fun _ _ => trivial⟩)
      fun key _ => fun other hother => ⟨hother, fun _ _ => trivial⟩
  have hgrows := hkeeps.state (List.prefix_refl topic.log)
  rw [hrun] at hgrows
  have hle : topic.rejections ≤ after.rejections := hgrows.sublist.countP_le
  have hquiet : (start (onMessage host.toPlatform socket message) topic).2.rejections =
      topic.rejections := h.quiet
  rw [rejections_of_error hrun] at hquiet
  omega

/-- A frame that is not well formed is not handled without a notice. -/
theorem not_handles_of_silent (hbad : ¬ WellFormed host.toEngine message)
    (hlog : (step host.toPlatform topic (.frame socket message)).log.countP Effect.isNotice =
      topic.log.countP Effect.isNotice) : ¬ Handles host allowed topic socket message := by
  intro h
  obtain ⟨-, sent, text, hsent, hnotice⟩ := h.refused hbad
  have hpos : 0 < sent.countP Effect.isNotice := List.countP_pos_iff.mpr ⟨_, hnotice, rfl⟩
  rw [hsent, List.countP_append] at hlog
  omega

/-- A well-formed message is a well-formed frame. -/
theorem well_formed_iff {request : Message} (h : readMessage message = .ok request) :
    WellFormed host.toEngine message ↔ request.WellFormed host.toEngine := by
  constructor
  · rintro ⟨other, hother, hwell⟩
    obtain rfl := Except.ok.inj (h.symm.trans hother)
    exact hwell
  · exact fun hwell => ⟨request, h, hwell⟩

/-- Whether a frame can be handled is a matter of its message. -/
theorem manageable_iff {request : Message} (h : readMessage message = .ok request) :
    Manageable host allowed topic socket message ↔
      request.Manageable host allowed topic socket := by
  constructor
  · rintro ⟨other, hother, hmanageable⟩
    obtain rfl := Except.ok.inj (h.symm.trans hother)
    exact hmanageable
  · exact fun hmanageable => ⟨request, h, hmanageable⟩

/-- So is what is done with it. -/
theorem on_message_of_read {request : Message} (h : readMessage message = .ok request) :
    onMessage host.toPlatform socket message = request.handle host.toPlatform socket := by
  rw [on_message_eq, h]
  rfl

/-- An event of a known kind is not answered with a notice. -/
theorem silent_on_event {event : Json} {type : EventType}
    (h : eventType host.toPlatform event = .ok (some type)) :
    (start (onEvent host.toPlatform socket (some event)) topic).2.log.countP Effect.isNotice =
      topic.log.countP Effect.isNotice := by
  have hstable := stable_silent (topic.log.countP Effect.isNotice)
  rw [on_event_of_type h]
  refine (hstable.keeps_start ?_).state rfl
  refine (hstable.keeps_send_event trivial).bind fun _ _ => ?_
  exact Action.keeps_lift_bind fun id _ => Action.keeps_lift_bind fun _ _ => hstable.keeps_note rfl

/-- An `EVENT`. -/
theorem handles_event_iff (hchecks : host.Checks)
    (hdistinct : (topic.subscriptions.map Prod.snd).Nodup) {event : Json}
    (hread : readMessage message = .ok (.event (some event))) :
    Handles host allowed topic socket message ↔
      eventType host.toPlatform event = .ok none ∨ WellFormedEvent host.toEngine event ∧
        ∀ entry ∈ topic.subscriptions, Accepts host.toEngine topic.subs event entry := by
  have hmessage : onMessage host.toPlatform socket message =
      onEvent host.toPlatform socket (some event) := on_message_of_read hread
  have hstep : step host.toPlatform topic (.frame socket message) =
      (start (onEvent host.toPlatform socket (some event)) topic).2 := by
    show (start (onMessage host.toPlatform socket message) topic).2 = _
    rw [hmessage]
  cases htype : eventType host.toPlatform event with
  | error thrown =>
      have hthrows : onMessage host.toPlatform socket message topic = (.error thrown, topic) := by
        rw [hmessage]
        exact on_event_of_error htype socket topic
      refine iff_of_false (not_handles_of_error hthrows) ?_
      rintro (hnone | ⟨hwell, -⟩)
      · cases hnone
      · obtain ⟨q, hq⟩ := hchecks.kind event hwell.structured
        rw [event_type_of_number host.toPlatform hq] at htype
        cases htype
  | ok type =>
      cases type with
      | none =>
          have hnotice := hmessage.trans (on_event_of_none htype socket)
          exact iff_of_true (handles_of_notice hnotice) (.inl rfl)
      | some type =>
          by_cases hwell : WellFormedEvent host.toEngine event
          · rcases on_event_cases hchecks hwell htype hdistinct socket with
              ⟨hno, thrown, after, hrun⟩ | ⟨hall, added, hsettles, hcomplete⟩
            · refine iff_of_false (not_handles_of_error (hmessage ▸ hrun)) ?_
              rintro (hnone | ⟨-, hall⟩)
              · cases hnone
              · exact hno hall
            · have hframe : WellFormed host.toEngine message :=
                (well_formed_iff hread).mpr ⟨event, rfl, hwell⟩
              rw [← hstep] at hsettles
              refine iff_of_true (handles_of_settles hframe hsettles ?_) (.inr ⟨hwell, hall⟩)
              exact fun task htask => hcomplete task htask _
          · -- the event may be streamed and stored, but the client gets no notice
            refine iff_of_false (not_handles_of_silent ?_ (hstep ▸ silent_on_event htype)) ?_
            · rw [well_formed_iff hread]
              rintro ⟨other, hother, hframe⟩
              obtain rfl := Option.some.inj hother
              exact hwell hframe
            · rintro (hnone | ⟨hframe, -⟩)
              · cases hnone
              · exact hwell hframe

/-- A frame that does nothing at once but leave a query to do. -/
theorem handles_query_iff {front : List (List Json)} (h : Sound front topic) {key : Value}
    {filters : List Json}
    (hwell : WellFormed host.toEngine message ↔ IsName key ∧ AreFilters filters) {task : Task}
    (hsettles : Settles topic (step host.toPlatform topic (.frame socket message)) [task])
    (hlog : (step host.toPlatform topic (.frame socket message)).log = topic.log)
    (hquery : task.queried (step host.toPlatform topic (.frame socket message)).subs =
      some (filters, true))
    (hcompletes : IsName key → AreFilters filters →
      Asks host allowed (step host.toPlatform topic (.frame socket message)) task filters →
      Completes host allowed (step host.toPlatform topic (.frame socket message)) task) :
    Handles host allowed topic socket message ↔ IsName key ∧ AreFilters filters ∧
      Asks host allowed (step host.toPlatform topic (.frame socket message)) task filters := by
  by_cases hframe : WellFormed host.toEngine message
  · obtain ⟨hname, hfilters⟩ := hwell.mp hframe
    constructor
    · intro hhandles
      have hmem : task ∈ (step host.toPlatform topic (.frame socket message)).tasks.drop
          topic.tasks.length := by
        rw [hsettles.tasks, List.drop_left]
        exact List.mem_singleton.mpr rfl
      exact ⟨hname, hfilters, (hhandles.completes task hmem).asks (h.step _) hquery hfilters⟩
    · rintro ⟨-, -, hasks⟩
      refine handles_of_settles hframe hsettles fun other hother => ?_
      rw [List.mem_singleton.mp hother]
      exact hcompletes hname hfilters hasks
  · refine iff_of_false (not_handles_of_silent hframe (by rw [hlog])) ?_
    rintro ⟨hname, hfilters, -⟩
    exact hframe (hwell.mpr ⟨hname, hfilters⟩)

/-- A `REQ`. -/
theorem handles_req_iff {front : List (List Json)} (h : Sound front topic) {key : Value}
    {filters : List Json} (hread : readMessage message = .ok (.req key filters)) :
    Handles host allowed topic socket message ↔
      (Message.req key filters).Manageable host allowed topic socket := by
  have hstep : step host.toPlatform topic (.frame socket message) =
      (start (subscribe socket key filters) topic).2 := by
    show (start (onMessage host.toPlatform socket message) topic).2 = _
    rw [on_message_of_read hread]
    rfl
  have hsettles : Settles topic (step host.toPlatform topic (.frame socket message))
      [.query topic.subs.length key (some socket)] := hstep ▸ ⟨rfl, rfl⟩
  have hobject : (step host.toPlatform topic (.frame socket message)).subs[topic.subs.length]? =
      some ⟨filters, socket, [], []⟩ := by
    rw [hstep]
    exact List.getElem?_concat_length
  rw [Message.Manageable, ← hstep]
  refine handles_query_iff h (well_formed_iff hread) hsettles ?_ ?_ ?_
  · rw [hstep]
    rfl
  · rw [Task.queried, hobject]
    rfl
  · exact fun hname hfilters hasks => completes_query (h.step _) hobject hfilters hname hasks

/-- A `COUNT`. -/
theorem handles_count_iff {front : List (List Json)} (h : Sound front topic) {key : Value}
    {filters : List Json} (hread : readMessage message = .ok (.count key filters)) :
    Handles host allowed topic socket message ↔
      (Message.count key filters).Manageable host allowed topic socket := by
  have hmessage : onMessage host.toPlatform socket message =
      Swarm.count host.toPlatform socket key filters := on_message_of_read hread
  cases htext : text host.toEngine key with
  | error thrown =>
      have hthrows : onMessage host.toPlatform socket message topic = (.error thrown, topic) := by
        rw [hmessage, Swarm.count, htext]
        rfl
      refine iff_of_false (not_handles_of_error hthrows) ?_
      rintro ⟨⟨t, rfl⟩, -⟩
      cases htext
  | ok t =>
      have hstep : step host.toPlatform topic (.frame socket message) =
          { topic with tasks := topic.tasks ++ [.count socket key filters] } := by
        show (start (onMessage host.toPlatform socket message) topic).2 = _
        rw [hmessage, Swarm.count, htext]
        rfl
      have hsettles : Settles topic (step host.toPlatform topic (.frame socket message))
          [.count socket key filters] := hstep ▸ ⟨rfl, rfl⟩
      rw [Message.Manageable, ← hstep]
      refine handles_query_iff h (well_formed_iff hread) hsettles (by rw [hstep]) rfl ?_
      exact fun _ hfilters hasks => completes_count hfilters hasks

/-- A `CLOSE`. -/
theorem handles_close_iff {key : Value} (hread : readMessage message = .ok (.close key)) :
    Handles host allowed topic socket message ↔ IsName key := by
  have hstep : step host.toPlatform topic (.frame socket message) =
      (start (unsubscribe key) topic).2 := by
    show (start (onMessage host.toPlatform socket message) topic).2 = _
    rw [on_message_of_read hread]
    rfl
  by_cases hwell : IsName key
  · have hsettles : Settles topic (step host.toPlatform topic (.frame socket message)) [] :=
      hstep ▸ ⟨rfl, (List.append_nil _).symm⟩
    refine iff_of_true (handles_of_settles ((well_formed_iff hread).mpr hwell) hsettles ?_) hwell
    exact fun task htask => absurd htask List.not_mem_nil
  · refine iff_of_false (not_handles_of_silent ?_ ?_) hwell
    · rw [well_formed_iff hread]
      exact hwell
    · rw [hstep]
      rfl

/-- A frame is handled as it should be exactly when it can be read and handled. -/
theorem handles_iff_manageable {front : List (List Json)} (hchecks : host.Checks)
    (h : Sound front topic) :
    Handles host allowed topic socket message ↔ Manageable host allowed topic socket message := by
  cases hread : readMessage message with
  | error thrown =>
      have hthrows : onMessage host.toPlatform socket message topic = (.error thrown, topic) := by
        rw [on_message_eq, hread]
        rfl
      refine iff_of_false (not_handles_of_error hthrows) fun ⟨request, hrequest, _⟩ => ?_
      rw [hread] at hrequest
      cases hrequest
  | ok request =>
      rw [manageable_iff hread]
      cases request with
      | event value =>
          cases value with
          | none =>
              have hthrows : onMessage host.toPlatform socket message topic =
                  (.error .typeError, topic) := by
                rw [on_message_of_read hread]
                show onEvent host.toPlatform socket none topic = _
                rw [onEvent, validate_event_unfiltered]
                rfl
              refine iff_of_false (not_handles_of_error hthrows) fun ⟨event, hevent, _⟩ => ?_
              cases hevent
          | some event =>
              refine (handles_event_iff hchecks h.distinct hread).trans ?_
              constructor
              · exact fun hevent => ⟨event, rfl, hevent⟩
              · rintro ⟨other, hother, hevent⟩
                obtain rfl := Option.some.inj hother
                exact hevent
      | req key filters => exact handles_req_iff h hread
      | count key filters => exact handles_count_iff h hread
      | close key => exact handles_close_iff hread
      | unknown =>
          exact iff_of_true (handles_of_notice (on_message_of_read hread)) trivial

end

/-- The sample engine and its database. -/
def sampleHost : Host where
  toPlatform := samplePlatform
  find events query := (events.docs.map Doc.event).filter (sampleDatabase.matches query)
  shuffle docs := docs
  shuffle_perm docs := List.Perm.refl docs

/-- The sample engine checks what the relay relies on. -/
theorem checks_sample : sampleHost.Checks where
  ignores := ignores_id_sample
  kind event hvalid := by
    have hchecks : sampleValidate (some event) = true := hvalid
    simp only [sampleValidate, Bool.and_eq_true] at hchecks
    exact Option.isSome_iff_exists.mp hchecks.1.1.1.1
  tags := checks_tags_signed

end Gnostr.Swarm
