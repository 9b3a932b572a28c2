import Gnostr.Swarm.Relay

/-!
# What becomes of a handled event

`handleEvent` of `template/db.js`, followed to its end. The function waits for the database inside
its loops; `handled` lets it go on, with nothing else in between, until it has nothing left to wait
for. What it does to the collection then depends on the type of the event: a regular event is
inserted, a replaceable one is written over the document of its author and kind whatever the times
of the two are, a parameterized one is written over the documents the database finds and lost if
there are none, and a deletion removes what it refers to.
-/

namespace Gnostr.Swarm

open Wire

/-! ## To the end -/

/-- Let the tasks behind the first `base` ones go on, one after the other, until none is left. -/
def finish (platform : Platform) (base : Nat) : Nat → Topic → Topic
  | 0, topic => topic
  | fuel + 1, topic =>
      if topic.tasks.length ≤ base then topic
      else finish platform base fuel (step platform topic (.resume base (.ok [])))

/-- `handleEvent` until all that it waits for is done. -/
def handled (platform : Platform) (event : Json) (fuel : Nat) (topic : Topic) : Topic :=
  finish platform topic.tasks.length fuel (start (handleEvent platform event) topic).2

/-- There is nothing to finish when nothing was added. -/
theorem finish_done (platform : Platform) (fuel : Nat) (topic : Topic) :
    finish platform topic.tasks.length fuel topic = topic := by
  cases fuel with
  | zero => rfl
  | succ fuel => rw [finish, if_pos (Nat.le_refl _)]

/-- A task goes on, taken out of the list. -/
theorem step_resume (platform : Platform) {topic : Topic} {i : Nat} {task : Task}
    (h : topic.tasks[i]? = some task) (result : Except Thrown (List Nat)) :
    step platform topic (.resume i result) =
      (start (proceed platform result task)
        { topic with tasks := topic.tasks.eraseIdx i }).2 := by
  have hread : (Action.read fun topic => topic.tasks[i]? : Async (Option Task)) topic =
      (.ok (some task), topic) := by
    rw [Action.read, h]
  have hrun : act platform (.resume i result) topic = _ := Action.bind_of_ok hread _
  rw [step, hrun]
  rfl

/-- A task of one's own goes on. -/
theorem finish_task (platform : Platform) (fuel : Nat) (topic : Topic) (task : Task) :
    finish platform topic.tasks.length (fuel + 1) { topic with tasks := topic.tasks ++ [task] } =
      finish platform topic.tasks.length fuel
        (start (proceed platform (.ok []) task) topic).2 := by
  have hlong : ¬ (topic.tasks ++ [task]).length ≤ topic.tasks.length := by simp
  have htask : (topic.tasks ++ [task])[topic.tasks.length]? = some task :=
    List.getElem?_concat_length
  have herase : (topic.tasks ++ [task]).eraseIdx topic.tasks.length = topic.tasks := by
    simp [List.eraseIdx_append_of_length_le]
  rw [finish, if_neg hlong, step_resume platform htask]
  dsimp only
  rw [herase]

/-! ## The collection after the loops -/

/-- The collection after the loop over the original events. -/
def overwritten (event : Json) (keys : List Nat) (events : Collection) : Collection :=
  keys.foldl (fun events key => events.replace (fun doc => doc.key = key) event) events

/-- Nothing is replaced when no document is selected. -/
theorem replace_of_not_any {p : Doc → Bool} {events : Collection} (h : events.docs.any p = false)
    (event : Json) : events.replace p event = events := by
  have hnone : events.docs.findIdx? p = none := by
    rw [List.findIdx?_eq_none_iff]
    intro doc hdoc
    simpa using List.any_eq_false.mp h doc hdoc
  rw [Collection.replace, hnone]

/-- `updateKey` writes over the document if it is there. -/
theorem update_key_eq (key : Nat) (event : Json) (topic : Topic) :
    ∃ sent, (sent = [] ∨ sent = [.write event]) ∧ updateKey key event topic = (.ok (), { topic with
      events := topic.events.replace (fun doc => doc.key = key) event
      log := topic.log ++ sent }) := by
  by_cases hany : (topic.events.docs.any fun doc => doc.key = key) = true
  · refine ⟨[.write event], .inr rfl, ?_⟩
    show (if topic.events.docs.any fun doc => doc.key = key then _ else _ : Async Unit) topic = _
    rw [if_pos hany]
    rfl
  · refine ⟨[], .inl rfl, ?_⟩
    show (if topic.events.docs.any fun doc => doc.key = key then _ else _ : Async Unit) topic = _
    rw [if_neg hany, replace_of_not_any (Bool.eq_false_iff.mpr hany), List.append_nil]
    rfl

/-- The loop over the original events writes over every one of them. -/
theorem finish_overwrite (platform : Platform) (event : Json) (keys : List Nat) (topic : Topic)
    (fuel : Nat) (h : keys.length ≤ fuel) :
    ∃ log, finish platform topic.tasks.length fuel (start (overwrite event keys) topic).2 =
      { topic with events := overwritten event keys topic.events, log := log } := by
  induction keys generalizing topic fuel with
  | nil => exact ⟨topic.log, finish_done platform fuel topic⟩
  | cons key keys ih =>
      obtain ⟨fuel, rfl⟩ : ∃ k, fuel = k + 1 := ⟨fuel - 1, by simp at h; omega⟩
      obtain ⟨sent, -, hupdate⟩ := update_key_eq key event topic
      have hrun : (start (overwrite event (key :: keys)) topic).2 = { topic with
          events := topic.events.replace (fun doc => doc.key = key) event
          log := topic.log ++ sent
          tasks := topic.tasks ++ [.overwrite keys event] } := by
        have hbind : overwrite event (key :: keys) topic = _ :=
          Action.bind_of_ok hupdate fun _ => suspend (.overwrite keys event)
        rw [start, Action.settle, hbind]
        rfl
      rw [hrun]
      obtain ⟨log, hrest⟩ := ih { topic with
        events := topic.events.replace (fun doc => doc.key = key) event, log := topic.log ++ sent }
        fuel (by simpa using h)
      exact ⟨log, (finish_task platform fuel { topic with
        events := topic.events.replace (fun doc => doc.key = key) event, log := topic.log ++ sent }
        (.overwrite keys event)).trans hrest⟩

/-- The collection after the loop over the documents to delete. -/
def erased (pubkey : Value) (docs : List Doc) (events : Collection) : Collection :=
  docs.foldl (fun events doc =>
    if strictEqual (doc.event.member (ascii "pubkey")) pubkey then events.delete doc.key
    else events) events

/-- The loop over the documents to delete passes over those of other authors. -/
theorem finish_erase (platform : Platform) (pubkey : Value) (docs : List Doc) (topic : Topic)
    (fuel : Nat) (h : docs.length ≤ fuel) :
    finish platform topic.tasks.length fuel (start (erase pubkey docs) topic).2 =
      { topic with events := erased pubkey docs topic.events } := by
  induction docs generalizing topic fuel with
  | nil => exact finish_done platform fuel topic
  | cons doc docs ih =>
      unfold erase erased
      rw [List.foldl_cons]
      split
      · obtain ⟨fuel, rfl⟩ : ∃ k, fuel = k + 1 := ⟨fuel - 1, by simp at h; omega⟩
        have hrest := ih { topic with events := topic.events.delete doc.key } fuel
          (by simpa using h)
        exact (finish_task platform fuel { topic with events := topic.events.delete doc.key }
          (.erase docs pubkey)).trans hrest
      · exact ih topic fuel (by simp at h; omega)

/-! ## The types -/

/-- The type of an event. -/
def eventType (platform : Platform) (event : Json) : Except Thrown (Option EventType) := do
  getEventType platform.toEngine (← get "kind" (some event))

/-- The type of an event whose kind is a number. -/
theorem event_type_of_number (platform : Platform) {event : Json} {q : Rat}
    (h : number (event.member (ascii "kind")) = some q) :
    eventType platform event = .ok (numberType q) := by
  cases event with
  | obj ms => exact get_event_type_of_number platform.toEngine h
  | _ => cases h

/-- The query for the original events of a parameterized event. -/
def originalsQuery (event : Json) : Except Thrown Query := do
  let query ← sameAuthorAndKind (some event)
  let value ← parameter (some event)
  return query ++ [("tags", .all [string "d", value])]

/-- Without filters every event is let through. -/
theorem validate_event_unfiltered (engine : Engine) (event : Value) :
    validateEvent engine event none = .ok true := by
  unfold validateEvent
  split
  · next heq => cases heq
  · rfl

/-- `handleEvent`, by the type of the event. -/
theorem handle_event_of_type {platform : Platform} {event : Json} {type : Option EventType} :
    eventType platform event = .ok type → handleEvent platform event = match type with
      | some .regular => insert event
      | some .replaceable => do
          let query ← Action.lift (sameAuthorAndKind (some event))
          start (upsert platform query event)
      | some .parameterizedReplaceable => do
          let query ← Action.lift (sameAuthorAndKind (some event))
          let value ← Action.lift (parameter (some event))
          suspend (.findOriginals (query ++ [("tags", .all [string "d", value])]) event)
      | some .delete => do
          let ids ← Action.lift (references (some event))
          suspend (.findDeleted [("id", .isIn ids)] event)
      | _ => Action.throw (.error (ascii ("Unrecognized event kind: " ++ typeName type))) := by
  intro h
  obtain ⟨kind, hkind, htype⟩ := bind_eq_ok h
  unfold handleEvent
  rw [validate_event_unfiltered, hkind]
  cases type with
  | none =>
      show (Action.lift (getEventType platform.toEngine kind) >>= _ : Async Unit) = _
      rw [htype]
      rfl
  | some type =>
      show (Action.lift (getEventType platform.toEngine kind) >>= _ : Async Unit) = _
      rw [htype]
      cases type <;> rfl

/-- An event that has a type has members. -/
theorem get_of_event_type {platform : Platform} {event : Json} {type : Option EventType}
    (h : eventType platform event = .ok type) (key : String) :
    get key (some event) = .ok (event.member (ascii key)) := by
  cases event with
  | null => cases h
  | _ => rfl

/-- The query for the author and the kind of an event. -/
def authorAndKind (event : Json) : Query :=
  [("pubkey", .equal (event.member (ascii "pubkey"))),
    ("kind", .equal (event.member (ascii "kind")))]

/-- The author and the kind can be looked at. -/
theorem same_author_and_kind_eq {platform : Platform} {event : Json} {type : Option EventType}
    (h : eventType platform event = .ok type) :
    sameAuthorAndKind (some event) = .ok (authorAndKind event) := by
  rw [sameAuthorAndKind, get_of_event_type h, get_of_event_type h]
  rfl

/-- The collection after an update that inserts what it does not find. -/
def upserted (platform : Platform) (query : Query) (event : Json) (events : Collection) :
    Collection :=
  if events.docs.any (query.holds platform) then events.replace (query.holds platform) event
  else events.insert event

/-- An asynchronous function that was started does not throw. -/
theorem start_start (m : Async Unit) : start (start m) = start m := by
  funext topic
  unfold start Action.settle
  dsimp only
  rcases m topic with ⟨_ | _, _⟩ <;> rfl

/-- The update writes the event once. -/
theorem start_upsert (platform : Platform) (query : Query) (event : Json) (topic : Topic) :
    (start (upsert platform query event) topic).2 = { topic with
      events := upserted platform query event topic.events
      log := topic.log ++ [.write event] } := by
  have hrun : upsert platform query event topic = (if topic.events.docs.any (query.holds platform)
      then replace (query.holds platform) event else insert event : Async Unit) topic := rfl
  unfold start Action.settle upserted
  rw [hrun]
  by_cases hany : topic.events.docs.any (query.holds platform) = true
  · rw [if_pos hany, if_pos hany]
    rfl
  · rw [if_neg hany, if_neg hany]
    rfl

section

variable {platform : Platform} {event : Json}

/-- A regular event is inserted. -/
theorem start_regular (h : eventType platform event = .ok (some .regular)) (topic : Topic) :
    (start (handleEvent platform event) topic).2 = { topic with
      events := topic.events.insert event, log := topic.log ++ [.write event] } := by
  rw [handle_event_of_type h]
  rfl

/-- A replaceable event takes the place of the one its author and kind had, whatever their times
are. -/
theorem start_replaceable (h : eventType platform event = .ok (some .replaceable))
    (topic : Topic) :
    (start (handleEvent platform event) topic).2 = { topic with
      events := upserted platform (authorAndKind event) event topic.events
      log := topic.log ++ [.write event] } := by
  have hevent : handleEvent platform event =
      start (upsert platform (authorAndKind event) event) := by
    rw [handle_event_of_type h, same_author_and_kind_eq h]
    rfl
  rw [hevent, start_start]
  exact start_upsert platform (authorAndKind event) event topic

/-- A parameterized event waits for the original ones. -/
theorem start_parameterized (h : eventType platform event = .ok (some .parameterizedReplaceable))
    (topic : Topic) :
    (∃ thrown, originalsQuery event = .error thrown ∧
      (start (handleEvent platform event) topic).2 =
        { topic with log := topic.log ++ [.rejected thrown] }) ∨
    ∃ query, originalsQuery event = .ok query ∧
      (start (handleEvent platform event) topic).2 =
        { topic with tasks := topic.tasks ++ [.findOriginals query event] } := by
  rw [handle_event_of_type h, originalsQuery, same_author_and_kind_eq h]
  cases hvalue : parameter (some event) with
  | error thrown => exact .inl ⟨thrown, rfl, rfl⟩
  | ok value => exact .inr ⟨_, rfl, rfl⟩

/-- A deletion waits for the documents it refers to. -/
theorem start_delete (htype : eventType platform event = .ok (some .delete)) {ids : List Value}
    (hids : references (some event) = .ok ids) (topic : Topic) :
    (start (handleEvent platform event) topic).2 =
      { topic with tasks := topic.tasks ++ [.findDeleted [("id", .isIn ids)] event] } := by
  rw [handle_event_of_type htype, hids]
  rfl

end

/-! ## Events that are stored -/

/-- A document has the id, the content, the tags and the time of an event. -/
def Stored (events : Collection) (event : Json) : Prop :=
  ∃ doc ∈ events.docs, ∀ name ∈ ["id", "content", "tags", "created_at"],
    doc.event.member (ascii name) = event.member (ascii name)

/-- The database finds a document with the author, the kind and the parameter of an event. -/
def HasOriginal (platform : Platform) (events : Collection) (event : Json) : Prop :=
  ∃ query, originalsQuery event = .ok query ∧ ∃ doc ∈ events.docs, query.holds platform doc = true

/-- An event is stored once a document holds it, with or without its `_id`. -/
theorem stored_of_mem {events : Collection} {event : Json} {key : Nat}
    (h : ⟨key, dropId event⟩ ∈ events.docs) : Stored events event := by
  refine ⟨_, h, fun name hname => member_drop_id ?_ event⟩
  simp only [List.mem_cons, List.not_mem_nil, or_false] at hname
  rcases hname with rfl | rfl | rfl | rfl <;> decide

/-- What is inserted is stored. -/
theorem stored_insert (events : Collection) (event : Json) : Stored (events.insert event) event :=
  stored_of_mem (List.mem_append_right _ List.mem_cons_self)

/-- A list with such an item has a first one. -/
theorem find_idx_of_any {α : Type} {p : α → Bool} {xs : List α} (h : xs.any p = true) :
    ∃ i, xs.findIdx? p = some i := by
  rw [← Option.isSome_iff_exists, List.findIdx?_isSome]
  exact h

/-- What replaces a document is stored. -/
theorem stored_replace {p : Doc → Bool} {events : Collection} (h : events.docs.any p = true)
    (event : Json) : Stored (events.replace p event) event := by
  obtain ⟨index, hindex⟩ := find_idx_of_any h
  obtain ⟨hlt, -, -⟩ := List.findIdx?_eq_some_iff_getElem.mp hindex
  rw [Collection.replace, hindex]
  have hmem : (⟨events.docs[index].key, dropId event⟩ : Doc) ∈
      events.docs.modify index fun doc => ⟨doc.key, dropId event⟩ := by
    refine List.mem_iff_getElem.mpr ⟨index, ?_, ?_⟩
    · rw [List.length_modify]
      exact hlt
    · simp
  exact stored_of_mem hmem

/-- Writing an event over a document does not lose it elsewhere. -/
theorem Stored.replace {events : Collection} {event : Json} (h : Stored events event)
    (p : Doc → Bool) : Stored (events.replace p event) event := by
  by_cases hany : events.docs.any p = true
  · exact stored_replace hany event
  · rw [replace_of_not_any (Bool.eq_false_iff.mpr hany)]
    exact h

/-- It stays stored when others are written over. -/
theorem Stored.overwritten {events : Collection} {event : Json} (h : Stored events event)
    (keys : List Nat) : Stored (overwritten event keys events) event := by
  induction keys generalizing events with
  | nil => exact h
  | cons key keys ih => exact ih (h.replace _)

/-- The loop over the original events stores the event if there is one. -/
theorem stored_overwritten_iff (platform : Platform) (query : Query) (events : Collection)
    (event : Json) :
    Stored (overwritten event ((events.docs.filter (query.holds platform)).map Doc.key) events)
        event ↔
      (∃ doc ∈ events.docs, query.holds platform doc = true) ∨ Stored events event := by
  cases hfound : events.docs.filter (query.holds platform) with
  | nil =>
      have hno : ¬ ∃ doc ∈ events.docs, query.holds platform doc = true := by
        rintro ⟨doc, hdoc, hholds⟩
        exact absurd hholds (List.filter_eq_nil_iff.mp hfound doc hdoc)
      exact (or_iff_right hno).symm
  | cons doc docs =>
      have hdoc : doc ∈ events.docs ∧ query.holds platform doc = true :=
        List.mem_filter.mp (hfound ▸ List.mem_cons_self)
      refine iff_of_true ?_ (.inl ⟨doc, hdoc⟩)
      have hany : (events.docs.any fun d => d.key = doc.key) = true :=
        List.any_eq_true.mpr ⟨doc, hdoc.1, by simp⟩
      exact (stored_replace hany event).overwritten (docs.map Doc.key)

/-- An update stores the event. -/
theorem stored_upserted (platform : Platform) (query : Query) (event : Json)
    (events : Collection) : Stored (upserted platform query event events) event := by
  unfold upserted
  split
  · next hany => exact stored_replace hany event
  · exact stored_insert events event

/-- A parameterized event is stored where there is an original one, and lost otherwise. -/
theorem handled_parameterized {platform : Platform} {event : Json}
    (h : eventType platform event = .ok (some .parameterizedReplaceable)) (topic : Topic)
    {fuel : Nat} (hfuel : topic.events.docs.length < fuel) :
    (handled platform event fuel topic).tasks = topic.tasks ∧
      (Stored (handled platform event fuel topic).events event ↔
        HasOriginal platform topic.events event ∨ Stored topic.events event) := by
  obtain ⟨fuel, rfl⟩ : ∃ k, fuel = k + 1 := ⟨fuel - 1, by omega⟩
  rcases start_parameterized h topic with ⟨thrown, hquery, hstart⟩ | ⟨query, hquery, hstart⟩
  · have hhandled : handled platform event (fuel + 1) topic =
        { topic with log := topic.log ++ [.rejected thrown] } := by
      rw [handled, hstart]
      exact finish_done platform (fuel + 1) { topic with log := topic.log ++ [.rejected thrown] }
    have hno : ¬ HasOriginal platform topic.events event := by
      rintro ⟨query, hok, -⟩
      rw [hquery] at hok
      cases hok
    rw [hhandled]
    exact ⟨rfl, (or_iff_right hno).symm⟩
  · have hlength : ((topic.events.docs.filter (query.holds platform)).map Doc.key).length ≤
        fuel := by
      rw [List.length_map]
      exact (List.length_filter_le _ _).trans (Nat.le_of_lt_succ hfuel)
    obtain ⟨log, hfinish⟩ := finish_overwrite platform event _ topic fuel hlength
    have hhandled : handled platform event (fuel + 1) topic = { topic with
        events := overwritten event
          ((topic.events.docs.filter (query.holds platform)).map Doc.key) topic.events
        log := log } := by
      rw [handled, hstart, finish_task]
      exact hfinish
    have horiginal : HasOriginal platform topic.events event ↔
        ∃ doc ∈ topic.events.docs, query.holds platform doc = true := by
      constructor
      · rintro ⟨query', hquery', hdoc⟩
        obtain rfl := Except.ok.inj (hquery.symm.trans hquery')
        exact hdoc
      · exact fun hdoc => ⟨query, hquery, hdoc⟩
    rw [hhandled, horiginal]
    exact ⟨rfl, stored_overwritten_iff platform query topic.events event⟩

/-- An event of a type that is kept is stored once `handleEvent` is done, except for a
parameterized one without an original: that one is stored only if it was before. -/
theorem handled_stored_iff (platform : Platform) (topic : Topic) (event : Json) (type : EventType)
    (htype : eventType platform event = .ok (some type))
    (hkept : type ∈ [.regular, .replaceable, .parameterizedReplaceable]) :
    ∃ rounds, ∀ fuel, rounds ≤ fuel →
      (handled platform event fuel topic).tasks = topic.tasks ∧
      (Stored (handled platform event fuel topic).events event ↔
        type ≠ .parameterizedReplaceable ∨ HasOriginal platform topic.events event ∨
          Stored topic.events event) := by
  refine ⟨topic.events.docs.length + 1, fun fuel hfuel => ?_⟩
  simp only [List.mem_cons, List.not_mem_nil, or_false] at hkept
  rcases hkept with rfl | rfl | rfl
  · rw [handled, start_regular htype, finish_done platform fuel { topic with
      events := topic.events.insert event, log := topic.log ++ [.write event] }]
    exact ⟨rfl, iff_of_true (stored_insert topic.events event) (.inl (by decide))⟩
  · rw [handled, start_replaceable htype, finish_done platform fuel { topic with
      events := upserted platform (authorAndKind event) event topic.events
      log := topic.log ++ [.write event] }]
    exact ⟨rfl, iff_of_true (stored_upserted platform _ event topic.events) (.inl (by decide))⟩
  · obtain ⟨htasks, hstored⟩ := handled_parameterized htype topic hfuel
    exact ⟨htasks, hstored.trans (or_iff_right (fun h => h rfl)).symm⟩

/-! ### Events of the sample key -/

/-- An event of the sample key; its signature is given in two halves. -/
def signedEvent (id : String) (createdAt kind : Int) (tags : List Json)
    (content r s : String) : Json :=
  .obj [(ascii "id", .str (ascii id)),
    (ascii "pubkey",
      .str (ascii "f9308a019258c31049344f85f89d5229b531c845836f99b08601f113bce036f9")),
    (ascii "created_at", .int createdAt), (ascii "kind", .int kind), (ascii "tags", .arr tags),
    (ascii "content", .str (ascii content)), (ascii "sig", .str (ascii r ++ ascii s))]

/-- A parameterized event. -/
def firstList : Json :=
  signedEvent "05e4a76a73e60d99586951eae11e06409865057baccf9631104e331b7eba6175" 1688794190 30000
    [.arr [.str (ascii "d"), .str (ascii "x")]] "list"
    "bd39ffbaebc8383d39744b98287198fcd7a1d2cc73e15fd540cb9ef4719c0922"
    "6dfb51e13a6e7bf471efc38cd864ffd06b58e7ed150a99cd514352ae1ef08309"

/-- A profile. -/
def oldProfile : Json :=
  signedEvent "f7cf48803cc96e496f00f8838d256a4605961c3c313f08ce473ed4d0aca0d28f" 1688794190 0 []
    "old" "64a879cd6b300bb5f7bb351ef8b554d0be999514fec4662dc5c8963d42864d95"
    "06b4f920cee00f7bca9645d4e1aaeb63391351e2e661ddac118c17b76104d6a3"

/-- A profile of the next second. -/
def newProfile : Json :=
  signedEvent "d139b7d338f96f35763cba2ad55df7b9847757be265f94a5431eaa0030640b03" 1688794191 0 []
    "new" "820cd322e4207fa1fc0250ab067c21a6f00b89af682baf8f2dcbc97ed9fa03b5"
    "25f9a5c1829826b04dc577e0ace9e47da5a11ed16193de2c682aa8ee9969d05d"

/-- The deletion of the note `hello`. -/
def noteDeletion : Json :=
  signedEvent "5a5a34f8f9762bfdf3ca077fb1009057f10bf6b7fdeac14c36d4de2ea0911357" 1688794192 5
    [.arr [.str (ascii "e"),
      .str (ascii "7e5b2c762fa6f8e0a217429ae1e8d3084db7c73256165269f2e500fec23b75e3")]]
    "" "98d182ed722bb4eaa35a73f01ab33f67f96047334f287bc6273064fba7c2f29d"
    "90e013171288482e530ca2ba8dbf6dfadcfb758b60a207cb637e48718de999c9"

/-- The signature check on events with the ids and the signatures of these. -/
def signedVerify : Value → Bool
  | some event => [noteWith "hello", firstList, oldProfile, newProfile, noteDeletion].any
      fun signed => ["created_at", "kind", "content"].all fun name =>
        strictEqual (event.member (ascii name)) (signed.member (ascii name))
  | none => false

def signedPlatform : Platform :=
  { samplePlatform with nostrVerify := signedVerify }

/-- A note is stored. -/
theorem handled_stored_iff_hello :
    eventType signedPlatform (noteWith "hello") = .ok (some .regular) ∧
    ∃ rounds, ∀ fuel, rounds ≤ fuel →
      Stored (handled signedPlatform (noteWith "hello") fuel (Topic.start ⟨[], 0⟩)).events
        (noteWith "hello") := by
  have htype : eventType signedPlatform (noteWith "hello") = .ok (some .regular) := by
    rw [event_type_of_number signedPlatform (q := 1) rfl]
    norm_num [numberType]
  refine ⟨htype, ?_⟩
  obtain ⟨rounds, h⟩ := handled_stored_iff signedPlatform (Topic.start ⟨[], 0⟩) (noteWith "hello")
    .regular htype (by decide)
  exact ⟨rounds, fun fuel hfuel => (h fuel hfuel).2.mpr (.inl (by decide))⟩

/-- The first event with its parameter is lost. -/
theorem first_parameterized_event_lost :
    ¬ ∀ (platform : Platform) (topic : Topic) (event : Json) (type : EventType),
      platform.Passes event → eventType platform event = .ok (some type) →
      type ∈ [.regular, .replaceable, .parameterizedReplaceable] →
      ∃ rounds, ∀ fuel, rounds ≤ fuel →
        Stored (handled platform event fuel topic).events event := by
  intro h
  have htype : eventType signedPlatform firstList = .ok (some .parameterizedReplaceable) := by
    rw [event_type_of_number signedPlatform (q := 30000) rfl]
    norm_num [numberType]
  obtain ⟨rounds, hrounds⟩ := h signedPlatform (Topic.start ⟨[], 0⟩) firstList
    .parameterizedReplaceable ⟨rfl, rfl⟩ htype (by decide)
  have hstored := hrounds (rounds + 1) (Nat.le_succ rounds)
  have hlost := (handled_parameterized htype (Topic.start ⟨[], 0⟩) (Nat.succ_pos rounds)).2
  rcases hlost.mp hstored with ⟨query, -, doc, hdoc, -⟩ | ⟨doc, hdoc, -⟩
  · exact absurd hdoc List.not_mem_nil
  · exact absurd hdoc List.not_mem_nil

/-! ## Replaceable events -/

/-- `handleEvent` for one event after the other. -/
def handleAll (platform : Platform) (events : List Json) (topic : Topic) : Topic :=
  events.foldl (fun topic event => (start (handleEvent platform event) topic).2) topic

/-- The query for an author and a kind. -/
def queryOf (author : Bytes) (kind : Int) : Query :=
  [("pubkey", .equal (some (.str author))), ("kind", .equal (literal kind))]

/-- The documents of an author and a kind. -/
def documentsOf (platform : Platform) (author : Bytes) (kind : Int) (events : Collection) :
    List Doc :=
  events.docs.filter ((queryOf author kind).holds platform)

/-- An event of an author and a kind. -/
def IsOf (author : Bytes) (kind : Int) (event : Json) : Prop :=
  strictEqual (event.member (ascii "pubkey")) (some (.str author)) = true ∧
    strictEqual (event.member (ascii "kind")) (literal kind) = true

/-- How the database compares a field with a value: equal values are the same condition, and a
field that is equal to the value satisfies it. -/
structure Platform.Compares (platform : Platform) : Prop where
  same : ∀ value value' field, strictEqual value value' = true →
    platform.satisfies (.equal value) field = platform.satisfies (.equal value') field
  satisfied : ∀ value field, strictEqual field value = true →
    platform.satisfies (.equal value) field = true

/-- A replaceable kind. -/
def Replaceable (kind : Int) : Prop :=
  kind = 0 ∨ kind = 3 ∨ 10000 ≤ kind ∧ kind < 20000

/-- The type of a replaceable kind. -/
theorem number_type_replaceable {kind : Int} (h : Replaceable kind) :
    numberType kind = some .replaceable := by
  unfold numberType
  rcases h with rfl | rfl | ⟨hlow, hhigh⟩
  · norm_num
  · norm_num
  · have hlow' : (10000 : Rat) ≤ kind := by exact_mod_cast hlow
    have hhigh' : (kind : Rat) < 20000 := by exact_mod_cast hhigh
    have h5 : (kind : Rat) ≠ 5 := by linarith
    have h03 : ¬ ((kind : Rat) = 0 ∨ (kind : Rat) = 3) := by
      rintro (h | h) <;> linarith
    rw [if_neg h5, if_neg h03, if_neg (not_lt.mpr hlow'), if_pos hhigh']

/-- The one item that `p` selects is written over. -/
theorem filter_modify_find_idx {α : Type} {p : α → Bool} {f : α → α} (hf : ∀ x, p (f x) = true)
    {xs : List α} {i : Nat} (hfind : xs.findIdx? p = some i) (hone : (xs.filter p).length ≤ 1) :
    ∃ x, (xs.modify i f).filter p = [f x] := by
  induction xs generalizing i with
  | nil => cases hfind
  | cons x xs ih =>
      rw [List.findIdx?_cons] at hfind
      by_cases hx : p x = true
      · rw [if_pos hx] at hfind
        obtain rfl := Option.some.inj hfind
        rw [List.filter_cons_of_pos hx] at hone
        have hrest : xs.filter p = [] := List.length_eq_zero_iff.mp (by simpa using hone)
        exact ⟨x, by simp [hf, hrest]⟩
      · rw [if_neg hx] at hfind
        obtain ⟨j, hj, rfl⟩ := Option.map_eq_some_iff.mp hfind
        rw [List.filter_cons_of_neg hx] at hone
        obtain ⟨y, hy⟩ := ih hj hone
        refine ⟨y, ?_⟩
        rw [List.modify_succ_cons, List.filter_cons_of_neg hx, hy]

section

variable {platform : Platform} {author : Bytes} {kind : Int} {event : Json}

/-- And of an event of that kind. -/
theorem event_type_replaceable (hkind : Replaceable kind) (h : IsOf author kind event) :
    eventType platform event = .ok (some .replaceable) := by
  rw [event_type_of_number platform (number_of_strict_equal h.2), number_type_replaceable hkind]

/-- The query of an event of the author and the kind. -/
theorem holds_author_and_kind (hcompares : platform.Compares) (h : IsOf author kind event) :
    (authorAndKind event).holds platform = (queryOf author kind).holds platform := by
  funext doc
  simp only [Query.holds, authorAndKind, queryOf, List.all_cons, List.all_nil,
    hcompares.same _ _ _ h.1, hcompares.same _ _ _ h.2]

/-- A document with the event is one of its author and kind. -/
theorem holds_query_of (hcompares : platform.Compares) (h : IsOf author kind event) (key : Nat) :
    (queryOf author kind).holds platform ⟨key, dropId event⟩ = true := by
  have hauthor := hcompares.satisfied _ _ h.1
  have hkind := hcompares.satisfied _ _ h.2
  simp [Query.holds, queryOf, member_drop_id (show ascii "pubkey" ≠ ascii "_id" by decide),
    member_drop_id (show ascii "kind" ≠ ascii "_id" by decide), hauthor, hkind]

/-- An event of the author and the kind takes the place of the one there was. -/
theorem documents_of_replaceable (hcompares : platform.Compares) (hkind : Replaceable kind)
    (h : IsOf author kind event) {topic : Topic}
    (hone : (documentsOf platform author kind topic.events).length ≤ 1) :
    (documentsOf platform author kind
      (start (handleEvent platform event) topic).2.events).map Doc.event = [dropId event] := by
  have hself := holds_query_of hcompares h
  rw [start_replaceable (event_type_replaceable hkind h)]
  dsimp only
  unfold upserted
  rw [holds_author_and_kind hcompares h]
  split
  · next hany =>
    obtain ⟨index, hindex⟩ := find_idx_of_any hany
    obtain ⟨doc, hdoc⟩ := filter_modify_find_idx (fun doc => hself doc.key) hindex hone
    rw [documentsOf, Collection.replace, hindex]
    dsimp only
    rw [hdoc]
    rfl
  · next hany =>
    have hnone : topic.events.docs.filter ((queryOf author kind).holds platform) = [] := by
      refine List.filter_eq_nil_iff.mpr fun doc hdoc hholds => hany ?_
      exact List.any_eq_true.mpr ⟨doc, hdoc, hholds⟩
    rw [documentsOf, Collection.insert, List.filter_append, hnone,
      List.filter_cons_of_pos (hself topic.events.fresh)]
    rfl

/-- However many events of the author and the kind are handled, there is at most one document, and
nothing is left to do. -/
theorem documents_of_handle_all (hcompares : platform.Compares) (hkind : Replaceable kind)
    {events : List Json} (h : ∀ event ∈ events, IsOf author kind event) {topic : Topic}
    (hone : (documentsOf platform author kind topic.events).length ≤ 1) :
    (documentsOf platform author kind (handleAll platform events topic).events).length ≤ 1 ∧
      (handleAll platform events topic).tasks = topic.tasks := by
  unfold handleAll
  induction events generalizing topic with
  | nil => exact ⟨hone, rfl⟩
  | cons event events ih =>
      have hevent := h event List.mem_cons_self
      have hlength := congrArg List.length (documents_of_replaceable hcompares hkind hevent hone)
      rw [List.length_map] at hlength
      have htasks : (start (handleEvent platform event) topic).2.tasks = topic.tasks := by
        rw [start_replaceable (event_type_replaceable hkind hevent)]
      obtain ⟨hrest, htasks'⟩ := ih (fun e he => h e (List.mem_cons_of_mem _ he)) hlength.le
      exact ⟨hrest, htasks'.trans htasks⟩

end

/-- Of the events of an author and a replaceable kind, exactly the one that was handled last is
kept, and nothing is left to do. -/
theorem last_replaceable_kept (platform : Platform) (hcompares : platform.Compares)
    (author : Bytes) (kind : Int) (hkind : Replaceable kind) (events : List Json) (last : Json)
    (h : ∀ event ∈ events ++ [last], IsOf author kind event) (topic : Topic)
    (hone : (documentsOf platform author kind topic.events).length ≤ 1) :
    (documentsOf platform author kind
        (handleAll platform (events ++ [last]) topic).events).map Doc.event = [dropId last] ∧
      (handleAll platform (events ++ [last]) topic).tasks = topic.tasks := by
  have hevents : ∀ event ∈ events, IsOf author kind event := fun event hevent =>
    h event (List.mem_append_left _ hevent)
  have hlast : IsOf author kind last := h last (List.mem_append_right _ List.mem_cons_self)
  have hbefore := documents_of_handle_all hcompares hkind hevents hone
  have hsplit : handleAll platform (events ++ [last]) topic =
      (start (handleEvent platform last) (handleAll platform events topic)).2 :=
    List.foldl_concat ..
  refine ⟨?_, (documents_of_handle_all hcompares hkind h hone).2⟩
  rw [hsplit]
  exact documents_of_replaceable hcompares hkind hlast hbefore.1

/-- The time of a valid event. -/
def createdAt (event : Json) : Rat :=
  (number (event.member (ascii "created_at"))).getD 0

/-- The sample database compares. -/
theorem compares_signed : signedPlatform.Compares where
  same value value' field h := by
    refine Bool.eq_iff_iff.mpr ⟨fun hfield => ?_, fun hfield => ?_⟩
    · exact strict_equal_trans hfield h
    · exact strict_equal_trans hfield (strict_equal_symm h)
  satisfied _ _ h := h

/-- The profile that arrives last is kept. -/
theorem last_replaceable_kept_profile :
    (documentsOf signedPlatform
        (ascii "f9308a019258c31049344f85f89d5229b531c845836f99b08601f113bce036f9") 0
        (handleAll signedPlatform ([oldProfile] ++ [newProfile])
          (Topic.start ⟨[], 0⟩)).events).map Doc.event = [dropId newProfile] := by
  refine (last_replaceable_kept signedPlatform compares_signed _ 0 (.inl rfl) [oldProfile]
    newProfile ?_ (Topic.start ⟨[], 0⟩) (Nat.zero_le _)).1
  intro event hevent
  simp only [List.cons_append, List.nil_append, List.mem_cons, List.not_mem_nil, or_false]
    at hevent
  rcases hevent with rfl | rfl
  · exact ⟨rfl, rfl⟩
  · exact ⟨rfl, rfl⟩

/-- A profile that arrives after a newer one is kept instead of it. -/
theorem older_profile_kept :
    ¬ ∀ (platform : Platform), platform.Compares → ∀ (author : Bytes) (kind : Int),
      Replaceable kind → ∀ events : List Json,
      (∀ event ∈ events, platform.Passes event ∧ IsOf author kind event) →
      (events.Pairwise fun event event' => createdAt event ≠ createdAt event') →
      ∀ newest ∈ events, (∀ event ∈ events, createdAt event ≤ createdAt newest) →
      (documentsOf platform author kind
        (handleAll platform events (Topic.start ⟨[], 0⟩)).events).map Doc.event =
          [dropId newest] := by
  intro h
  have hkept := h signedPlatform compares_signed
    (ascii "f9308a019258c31049344f85f89d5229b531c845836f99b08601f113bce036f9") 0 (.inl rfl)
    [newProfile, oldProfile] ?_ (by decide +kernel) newProfile List.mem_cons_self
    (by decide +kernel)
  · have htimes : ((documentsOf signedPlatform
        (ascii "f9308a019258c31049344f85f89d5229b531c845836f99b08601f113bce036f9") 0
        (handleAll signedPlatform [newProfile, oldProfile]
          (Topic.start ⟨[], 0⟩)).events).map Doc.event).map createdAt = [1688794190] :=
      rfl
    rw [hkept] at htimes
    exact absurd htimes (by decide +kernel)
  · intro event hevent
    simp only [List.mem_cons, List.not_mem_nil, or_false] at hevent
    rcases hevent with rfl | rfl
    · exact ⟨⟨rfl, rfl⟩, rfl, rfl⟩
    · exact ⟨⟨rfl, rfl⟩, rfl, rfl⟩

/-! ## Deletions -/

/-- An `e` tag. -/
def isReference : Json → Bool
  | .arr items => strictEqual items[0]? (string "e")
  | _ => false

/-- The second item of a tag. -/
def secondItem : Json → Value
  | .arr items => items[1]?
  | _ => none

/-- Whether the id of a document is the second item of an `e` tag. -/
def refersTo (deletion : Json) (doc : Doc) : Bool :=
  match deletion.member (ascii "tags") with
  | some (.arr tags) => tags.any fun tag =>
      isReference tag && strictEqual (doc.event.member (ascii "id")) (secondItem tag)
  | _ => false

/-- The collection without the documents of the author that a deletion refers to. -/
def withoutReferenced (deletion : Json) (events : Collection) : Collection :=
  { events with
    docs := events.docs.filter fun doc => !(refersTo deletion doc &&
      strictEqual (doc.event.member (ascii "pubkey")) (deletion.member (ascii "pubkey"))) }

/-- The structure check lets only events through whose tags are arrays. -/
def Engine.ChecksTags (engine : Engine) : Prop :=
  ∀ event : Json, engine.nostrValidate (some event) = true →
    ∃ tags, event.member (ascii "tags") = some (.arr tags) ∧
      ∀ tag ∈ tags, ∃ items, tag = .arr items

/-- The loop picks out the references. -/
theorem filter_references {tags : List Json} (h : ∀ tag ∈ tags, ∃ items, tag = .arr items)
    (acc : List Json) :
    tags.filterAuxM (fun t => do return strictEqual (← index 0 (some t)) (string "e")) acc =
      (.ok ((tags.filter isReference).reverse ++ acc) : Except Thrown (List Json)) := by
  induction tags generalizing acc with
  | nil => rfl
  | cons tag tags ih =>
      obtain ⟨items, rfl⟩ := h tag List.mem_cons_self
      have hrest := ih (fun t ht => h t (List.mem_cons_of_mem _ ht))
      have hstep : List.filterAuxM
          (fun t => do return strictEqual (← index 0 (some t)) (string "e")) (.arr items :: tags)
          acc = List.filterAuxM _ tags (cond (isReference (.arr items)) (.arr items :: acc) acc) :=
        rfl
      rw [hstep, hrest, List.filter_cons]
      cases isReference (.arr items) <;> simp

/-- And takes the second item of each. -/
theorem map_second_items {tags : List Json} (h : ∀ tag ∈ tags, ∃ items, tag = .arr items) :
    tags.mapM (fun t => index 1 (some t)) = .ok (tags.map secondItem) := by
  induction tags with
  | nil => rfl
  | cons tag tags ih =>
      obtain ⟨items, rfl⟩ := h tag List.mem_cons_self
      rw [List.mapM_cons, ih fun t ht => h t (List.mem_cons_of_mem _ ht)]
      rfl

/-- The ids a deletion refers to. -/
theorem references_eq {event : Json} {tags : List Json}
    (htags : event.member (ascii "tags") = some (.arr tags))
    (h : ∀ tag ∈ tags, ∃ items, tag = .arr items) :
    references (some event) = .ok ((tags.filter isReference).map secondItem) := by
  have helements : (get "tags" (some event) >>= elements) = .ok tags := by
    cases event with
    | obj ms =>
        show elements ((Json.obj ms).member (ascii "tags")) = _
        rw [htags]
        rfl
    | _ => cases htags
  have hfilter : tags.filterM (fun t => do
      return strictEqual (← index 0 (some t)) (string "e")) =
      (.ok (tags.filter isReference) : Except Thrown (List Json)) := by
    rw [List.filterM, filter_references h]
    simp [pure, bind, Except.pure, Except.bind]
  unfold references
  rw [← bind_assoc, helements]
  show ((tags.filterM _ : Except Thrown (List Json)) >>= _) = _
  rw [hfilter]
  exact map_second_items fun tag htag => h tag (List.mem_of_mem_filter htag)

/-- The loop over the documents to delete removes those of the author. -/
theorem erased_eq (pubkey : Value) (docs : List Doc) (events : Collection) :
    erased pubkey docs events = { events with
      docs := events.docs.filter fun doc => !(docs.any fun found =>
        strictEqual (found.event.member (ascii "pubkey")) pubkey && found.key = doc.key) } := by
  unfold erased
  induction docs generalizing events with
  | nil => simp
  | cons found docs ih =>
      rw [List.foldl_cons, ih]
      split
      · next hauthor =>
        simp only [Collection.delete, List.filter_filter, List.any_cons, hauthor, Bool.true_and]
        congr 2
        funext doc
        simp [Bool.and_comm, eq_comm]
      · next hauthor => simp [List.any_cons, hauthor]

/-- What the query for the referenced ids finds. -/
theorem holds_references {platform : Platform}
    (hin : ∀ values field, platform.satisfies (.isIn values) field =
      values.any fun value => strictEqual field value)
    {deletion : Json} {tags : List Json}
    (htags : deletion.member (ascii "tags") = some (.arr tags)) (doc : Doc) :
    Query.holds platform [("id", .isIn ((tags.filter isReference).map secondItem))] doc =
      refersTo deletion doc := by
  simp only [Query.holds, List.all_cons, List.all_nil, Bool.and_true, hin, refersTo, htags,
    List.any_map, List.any_filter]
  rfl

/-- With distinct keys, exactly the documents that were found are removed. -/
theorem erased_found {events : Collection} (hkeys : (events.docs.map Doc.key).Nodup)
    {deletion : Json} {docs : List Doc} (hdocs : docs = events.docs.filter (refersTo deletion)) :
    erased (deletion.member (ascii "pubkey")) docs events = withoutReferenced deletion events := by
  subst hdocs
  rw [erased_eq, withoutReferenced]
  congr 1
  refine List.filter_congr fun doc hdoc => congrArg _ ?_
  rw [Bool.eq_iff_iff, List.any_eq_true, Bool.and_eq_true]
  constructor
  · rintro ⟨found, hfound, hmatch⟩
    obtain ⟨hmem, hrefers⟩ := List.mem_filter.mp hfound
    obtain ⟨hauthor, hkey⟩ := Bool.and_eq_true_iff.mp hmatch
    obtain rfl := List.inj_on_of_nodup_map hkeys hmem hdoc (of_decide_eq_true hkey)
    exact ⟨hrefers, hauthor⟩
  · rintro ⟨hrefers, hauthor⟩
    exact ⟨doc, List.mem_filter.mpr ⟨hdoc, hrefers⟩, by simp [hauthor]⟩

/-- A deletion removes exactly the documents of its author that it refers to. -/
theorem deletion_exact (platform : Platform)
    (hin : ∀ values field, platform.satisfies (.isIn values) field =
      values.any fun value => strictEqual field value)
    (htags : platform.ChecksTags) (topic : Topic) (hkeys : (topic.events.docs.map Doc.key).Nodup)
    (deletion : Json) (hvalid : platform.Passes deletion)
    (hkind : strictEqual (deletion.member (ascii "kind")) (literal 5) = true) :
    ∃ rounds, ∀ fuel, rounds ≤ fuel → handled platform deletion fuel topic =
      { topic with events := withoutReferenced deletion topic.events } := by
  obtain ⟨tags, hmember, harrays⟩ := htags deletion hvalid.1
  have htype : eventType platform deletion = .ok (some .delete) := by
    rw [event_type_of_number platform (number_of_strict_equal hkind)]
    rfl
  have hstart := start_delete htype (references_eq hmember harrays) topic
  have hproceed : proceed platform (.ok []) (.findDeleted
      [("id", .isIn ((tags.filter isReference).map secondItem))] deletion) topic =
      erase (deletion.member (ascii "pubkey")) (topic.events.docs.filter (refersTo deletion))
        topic := by
    rw [← funext (holds_references hin hmember)]
    show (Action.lift (get "pubkey" (some deletion)) >>= _ : Async Unit) topic = _
    rw [get_of_event_type htype]
    rfl
  refine ⟨topic.events.docs.length + 1, fun fuel hfuel => ?_⟩
  obtain ⟨fuel, rfl⟩ : ∃ k, fuel = k + 1 := ⟨fuel - 1, by omega⟩
  have hlength : (topic.events.docs.filter (refersTo deletion)).length ≤ fuel :=
    (List.length_filter_le _ _).trans (Nat.le_of_succ_le_succ hfuel)
  rw [handled, hstart, finish_task, start, Action.settle, hproceed, ← erased_found hkeys rfl]
  exact finish_erase platform _ _ topic fuel hlength

/-- The sample check looks at the tags. -/
theorem checks_tags_signed : signedPlatform.ChecksTags := by
  intro event hvalid
  have htags : isTagList (event.member (ascii "tags")) = true :=
    (Bool.and_eq_true_iff.mp hvalid).2
  unfold isTagList at htags
  split at htags
  · next tags hmember =>
    refine ⟨tags, hmember, fun tag htag => ?_⟩
    have hitems := List.all_eq_true.mp htags tag htag
    cases tag with
    | arr items => exact ⟨items, rfl⟩
    | _ => cases hitems
  · cases htags

/-- The note is removed and the profile stays. -/
theorem deletion_exact_note :
    ∃ rounds, ∀ fuel, rounds ≤ fuel → (handled signedPlatform noteDeletion fuel
      (Topic.start ⟨[⟨0, noteWith "hello"⟩, ⟨1, oldProfile⟩], 2⟩)).events.docs.map Doc.key =
        [1] := by
  obtain ⟨rounds, h⟩ := deletion_exact signedPlatform (fun _ _ => rfl) checks_tags_signed
    (Topic.start ⟨[⟨0, noteWith "hello"⟩, ⟨1, oldProfile⟩], 2⟩) (by decide) noteDeletion
    ⟨rfl, rfl⟩ rfl
  refine ⟨rounds, fun fuel hfuel => ?_⟩
  rw [h fuel hfuel]
  rfl

end Gnostr.Swarm
