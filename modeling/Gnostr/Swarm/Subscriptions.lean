import Gnostr.Swarm.Relay

/-!
# Whose subscription it is

The sockets of a topic share one map from identifiers to subscriptions. `Directory` is that map
without the rest of the relay: who is registered under which identifier, with which filters. The
relay follows it on every sequence of inputs (`directory_run`), and `subscription_kept_iff` says
when a subscription stays with its client.

Identifiers are compared as a `Map` compares them: primitive values by what they are, arrays and
objects by identity.
-/

namespace Gnostr.Swarm

open Wire

/-! ## The directory -/

/-- A registered subscription. -/
structure Entry where
  key : Value
  socket : Nat
  filters : List Json

/-- The registered subscriptions. -/
abbrev Directory := List Entry

namespace Directory

/-- Register a subscription; an identifier keeps its place. -/
def register (entry : Entry) : Directory → Directory
  | [] => [entry]
  | other :: rest =>
      if strictEqual other.key entry.key then { entry with key := other.key } :: rest
      else other :: register entry rest

/-- Remove what is registered under an identifier. -/
def remove (key : Value) (directory : Directory) : Directory :=
  directory.filter fun entry => ¬ strictEqual entry.key key

/-- Remove what a socket registered. -/
def leave (socket : Nat) (directory : Directory) : Directory :=
  directory.filter fun entry => entry.socket ≠ socket

end Directory

/-- The identifier and the filters of a `REQ`. -/
def requested (message : Value) : Option (Value × List Json) :=
  match iterate message with
  | .ok items =>
      if strictEqual items[0]? (string "REQ") then some (items[1]?, items.drop 2) else none
  | .error _ => none

/-- The identifier of a `CLOSE`. -/
def closed (message : Value) : Option Value :=
  match iterate message with
  | .ok items => if strictEqual items[0]? (string "CLOSE") then some items[1]? else none
  | .error _ => none

/-- What an input does to the directory. -/
def Directory.step (directory : Directory) : Input → Directory
  | .frame socket message =>
      match requested message, closed message with
      | some (key, filters), _ => directory.register ⟨key, socket, filters⟩
      | none, some key => directory.remove key
      | none, none => directory
  | .close socket => directory.leave socket
  | _ => directory

/-- What a sequence of inputs does to the directory. -/
def Directory.run (directory : Directory) (inputs : List Input) : Directory :=
  inputs.foldl Directory.step directory

/-! ## The relay follows the directory -/

/-- The entry behind an identifier and the number of a subscription object. -/
def entryOf (subs : List Sub) (entry : Value × Nat) : Option Entry :=
  subs[entry.2]?.map fun sub => ⟨entry.1, sub.socket, sub.filters⟩

/-- The directory of a topic. -/
def Topic.directory (topic : Topic) : Directory :=
  topic.subscriptions.filterMap (entryOf topic.subs)

/-- Every identifier stands for a subscription object that was made. -/
def Topic.Valid (topic : Topic) : Prop :=
  ∀ entry ∈ topic.subscriptions, entry.2 < topic.subs.length

/-- An entry does not depend on objects made later. -/
theorem entry_of_append {subs : List Sub} {entry : Value × Nat} (h : entry.2 < subs.length)
    (more : List Sub) : entryOf (subs ++ more) entry = entryOf subs entry := by
  rw [entryOf, List.getElem?_append_left h, entryOf]

/-- What a subscription received is not in the directory. -/
theorem entry_of_received {subs : List Sub} {sub : Nat} {object : Sub}
    (h : subs[sub]? = some object) (id : Value) (event : Json) :
    entryOf (subs.set sub (object.receive id event)) = entryOf subs := by
  funext entry
  unfold entryOf
  rw [← List.getElem?_map, map_set_receive (fun _ => rfl) h, List.getElem?_map]

/-- Registering in the map of the relay. -/
theorem filter_map_set_subscription {subs : List Sub} {subscriptions : List (Value × Nat)}
    (h : ∀ entry ∈ subscriptions, entry.2 < subs.length) (key : Value) (sub : Sub) :
    (setSubscription key subs.length subscriptions).filterMap (entryOf (subs ++ [sub])) =
      Directory.register ⟨key, sub.socket, sub.filters⟩
        (subscriptions.filterMap (entryOf subs)) := by
  have hnew : ∀ name : Value, entryOf (subs ++ [sub]) (name, subs.length) =
      some ⟨name, sub.socket, sub.filters⟩ := by
    intro name
    simp [entryOf]
  induction subscriptions with
  | nil => simp [setSubscription, hnew, Directory.register]
  | cons entry rest ih =>
      have hentry := h entry List.mem_cons_self
      have hrest := ih fun e he => h e (List.mem_cons_of_mem _ he)
      have hkeep : (rest.filterMap (entryOf (subs ++ [sub]))) = rest.filterMap (entryOf subs) :=
        List.filterMap_congr fun e he => entry_of_append (h e (List.mem_cons_of_mem _ he)) _
      obtain ⟨object, hobject⟩ : ∃ object, subs[entry.2]? = some object :=
        ⟨_, List.getElem?_eq_getElem hentry⟩
      have hlook : entryOf subs entry = some ⟨entry.1, object.socket, object.filters⟩ := by
        rw [entryOf, hobject]
        rfl
      have hlook' := (entry_of_append hentry [sub]).trans hlook
      rw [List.filterMap_cons_some hlook]
      unfold setSubscription Directory.register
      by_cases hsame : strictEqual entry.1 key = true
      · rw [if_pos hsame, if_pos hsame, List.filterMap_cons_some (hnew entry.1), hkeep]
      · rw [if_neg hsame, if_neg hsame, List.filterMap_cons_some hlook', hrest]

/-- Entries that are removed are removed from the directory. -/
theorem filter_map_filter {p : Value × Nat → Bool} {q : Entry → Bool} {subs : List Sub}
    (h : ∀ entry found, entryOf subs entry = some found → p entry = q found)
    (subscriptions : List (Value × Nat)) :
    (subscriptions.filter p).filterMap (entryOf subs) =
      (subscriptions.filterMap (entryOf subs)).filter q := by
  rw [List.filterMap_filter, List.filter_filterMap]
  refine List.filterMap_congr fun entry _ => ?_
  cases hentry : entryOf subs entry with
  | none => simp
  | some found =>
      rw [h entry found hentry]
      by_cases hq : q found = true <;> simp [hq, Option.filter]

/-- Rules that forbid nothing. -/
def anyRules : Rules :=
  ⟨fun _ => True, fun _ _ => True, fun _ => True⟩

/-- Any task may be left to do. -/
theorem any_task (task : Task) : anyRules.task task :=
  (Rules.task_iff (fun _ => trivial) (fun _ _ => trivial) fun _ _ _ => trivial).mpr
    fun _ _ => trivial

/-- Everything but a change of the subscriptions keeps the directory. -/
theorem stable_directory (directory : Directory) :
    Stable anyRules fun topic => topic.Valid ∧ topic.directory = directory where
  drop_id _ _ := trivial
  docs _ _ _ _ := trivial
  tasks _ _ task _ := any_task task
  entries _ _ _ _ := trivial
  stored _ _ htopic _ := htopic
  noted _ _ htopic _ := htopic
  suspended _ _ htopic _ := htopic
  resumed _ _ htopic := htopic
  delivered topic sub object key event htopic _ _ hsub _ := by
    refine ⟨fun entry hentry => ?_, ?_⟩
    · show entry.2 < (topic.subs.set sub _).length
      rw [List.length_set]
      exact htopic.1 entry hentry
    · show topic.subscriptions.filterMap (entryOf (topic.subs.set sub _)) = directory
      rw [← htopic.2, Topic.directory, entry_of_received hsub]

/-- Two identifiers are one key of a map; an array or an object is the one that was sent. -/
def SameKey (a b : Value) : Prop :=
  a = b ∨ strictEqual a b = true

/-- A new entry has the number of the new object, under the identifier. -/
theorem mem_set_subscription {key : Value} {sub : Nat} {subscriptions : List (Value × Nat)}
    {entry : Value × Nat} (h : entry ∈ setSubscription key sub subscriptions) :
    entry ∈ subscriptions ∨ entry.2 = sub ∧ SameKey entry.1 key := by
  induction subscriptions with
  | nil =>
      rw [List.mem_singleton.mp h]
      exact .inr ⟨rfl, .inl rfl⟩
  | cons other rest ih =>
      unfold setSubscription at h
      split at h
      · next hsame =>
        rcases List.mem_cons.mp h with rfl | h
        · exact .inr ⟨rfl, .inr hsame⟩
        · exact .inl (List.mem_cons_of_mem _ h)
      · rcases List.mem_cons.mp h with rfl | h
        · exact .inl List.mem_cons_self
        · exact (ih h).imp_left (List.mem_cons_of_mem _)

/-- A message has one type. -/
theorem strict_equal_string_ne {x : Value} {s t : String} (h : strictEqual x (string s) = true)
    (hne : ascii s ≠ ascii t) : ¬ strictEqual x (string t) = true := by
  intro h'
  have hst := strict_equal_trans (strict_equal_symm h) h'
  exact hne (by simpa [string, strictEqual] using hst)

/-- A message is read by its first item. -/
theorem read_message_eq {message : Value} {items : List Json} (h : iterate message = .ok items) :
    readMessage message = if strictEqual items[0]? (string "EVENT") then .ok (.event items[1]?)
      else if strictEqual items[0]? (string "REQ") then .ok (.req items[1]? (items.drop 2))
      else if strictEqual items[0]? (string "CLOSE") then .ok (.close items[1]?)
      else if strictEqual items[0]? (string "COUNT") then .ok (.count items[1]? (items.drop 2))
      else .ok .unknown := by
  have hitems : messageItems message = .ok items := by
    cases message with
    | none => cases h
    | some v => exact h
  rw [readMessage, hitems]
  rfl

/-- One that cannot be taken apart is not read. -/
theorem read_message_error {message : Value} {thrown : Thrown}
    (h : iterate message = .error thrown) : ∃ other, readMessage message = .error other := by
  cases message with
  | none => exact ⟨_, rfl⟩
  | some v =>
      have hitems : messageItems (some v) = .error thrown := h
      rw [readMessage, hitems]
      exact ⟨thrown, rfl⟩

/-- What opens a subscription. -/
theorem read_message_req_iff {message key : Value} {filters : List Json} :
    readMessage message = .ok (.req key filters) ↔ requested message = some (key, filters) := by
  unfold requested
  cases hitems : iterate message with
  | error thrown =>
      obtain ⟨other, hother⟩ := read_message_error hitems
      simp [hother]
  | ok items =>
      rw [read_message_eq hitems]
      by_cases hreq : strictEqual items[0]? (string "REQ") = true
      · simp [hreq, strict_equal_string_ne hreq (show ascii "REQ" ≠ ascii "EVENT" by decide)]
      · dsimp only
        rw [if_neg hreq, if_neg hreq]
        split_ifs <;> simp

/-- What closes one. -/
theorem read_message_close_iff {message key : Value} :
    readMessage message = .ok (.close key) ↔ closed message = some key := by
  unfold closed
  cases hitems : iterate message with
  | error thrown =>
      obtain ⟨other, hother⟩ := read_message_error hitems
      simp [hother]
  | ok items =>
      rw [read_message_eq hitems]
      by_cases hclose : strictEqual items[0]? (string "CLOSE") = true
      · simp [hclose, strict_equal_string_ne hclose (show ascii "CLOSE" ≠ ascii "EVENT" by decide),
          strict_equal_string_ne hclose (show ascii "CLOSE" ≠ ascii "REQ" by decide)]
      · dsimp only
        rw [if_neg hclose, if_neg hclose]
        split_ifs <;> simp

/-- The handler of a message, by what the message asks for. -/
theorem on_message_cases (platform : Platform) (socket : Nat) (message : Value) :
    (∃ key filters, requested message = some (key, filters) ∧
        onMessage platform socket message = subscribe socket key filters) ∨
      (∃ key, requested message = none ∧ closed message = some key ∧
        onMessage platform socket message = unsubscribe key) ∨
      (requested message = none ∧ closed message = none ∧ ∀ directory, Action.Keeps
        (fun topic => topic.Valid ∧ topic.directory = directory)
        (onMessage platform socket message) fun _ => True) := by
  cases hreq : requested message with
  | some request =>
      refine .inl ⟨request.1, request.2, rfl, ?_⟩
      rw [on_message_eq, read_message_req_iff.mpr hreq]
      rfl
  | none =>
      cases hclose : closed message with
      | some key =>
          refine .inr (.inl ⟨key, rfl, rfl, ?_⟩)
          rw [on_message_eq, read_message_close_iff.mpr hclose]
          rfl
      | none =>
          refine .inr (.inr ⟨rfl, rfl, fun directory => ?_⟩)
          refine (stable_directory directory).keeps_on_message (fun _ _ => trivial)
            (fun _ _ => trivial) (fun key filters h => ?_) fun key h => ?_
          · rw [read_message_req_iff.mp h] at hreq
            cases hreq
          · rw [read_message_close_iff.mp h] at hclose
            cases hclose

/-- A `REQ` registers its subscription. -/
theorem directory_subscribe {topic : Topic} (h : topic.Valid) (socket : Nat) (key : Value)
    (filters : List Json) :
    (start (subscribe socket key filters) topic).2.Valid ∧
      (start (subscribe socket key filters) topic).2.directory =
        topic.directory.register ⟨key, socket, filters⟩ := by
  constructor
  · intro entry hentry
    show entry.2 < (topic.subs ++ [_]).length
    rw [List.length_append, List.length_singleton]
    rcases mem_set_subscription hentry with hold | ⟨hnew, -⟩
    · exact Nat.lt_succ_of_lt (h entry hold)
    · rw [hnew]
      exact Nat.lt_succ_self _
  · exact filter_map_set_subscription h key ⟨filters, socket, [], []⟩

/-- A `CLOSE` removes what is registered under its identifier. -/
theorem directory_unsubscribe {topic : Topic} (h : topic.Valid) (key : Value) :
    (start (unsubscribe key) topic).2.Valid ∧
      (start (unsubscribe key) topic).2.directory = topic.directory.remove key := by
  constructor
  · intro entry hentry
    exact h entry (List.mem_filter.mp hentry).1
  · refine filter_map_filter (fun entry found hfound => ?_) topic.subscriptions
    obtain ⟨sub, -, rfl⟩ := Option.map_eq_some_iff.mp hfound
    rfl

/-- Who disconnects takes his subscriptions with him. -/
theorem directory_disconnect {topic : Topic} (h : topic.Valid) (socket : Nat) :
    (disconnect socket topic).2.Valid ∧
      (disconnect socket topic).2.directory = topic.directory.leave socket := by
  constructor
  · intro entry hentry
    exact h entry (List.mem_filter.mp hentry).1
  · refine filter_map_filter (fun entry found hfound => ?_) topic.subscriptions
    obtain ⟨sub, hsub, rfl⟩ := Option.map_eq_some_iff.mp hfound
    have hsub : topic.subs[entry.2]? = some sub := hsub
    simp [hsub]

/-- One input does to the topic what it does to the directory. -/
theorem directory_step (platform : Platform) {topic : Topic} (h : topic.Valid) (input : Input) :
    (step platform topic input).Valid ∧
      (step platform topic input).directory = topic.directory.step input := by
  have hstable := stable_directory topic.directory
  cases input with
  | frame socket message =>
      show (start (onMessage platform socket message) topic).2.Valid ∧
        (start (onMessage platform socket message) topic).2.directory = _
      rcases on_message_cases platform socket message with
        ⟨key, filters, hreq, hrun⟩ | ⟨key, hreq, hclose, hrun⟩ | ⟨hreq, hclose, hkeeps⟩
      · simp only [Directory.step, hreq]
        rw [hrun]
        exact directory_subscribe h socket key filters
      · simp only [Directory.step, hreq, hclose]
        rw [hrun]
        exact directory_unsubscribe h key
      · simp only [Directory.step, hreq, hclose]
        exact (hstable.keeps_start (hkeeps topic.directory)).state ⟨h, rfl⟩
  | peer event =>
      have hpeer : Action.Keeps _ (act platform (.peer event)) _ := hstable.keeps_peer trivial
      exact hpeer.state ⟨h, rfl⟩
  | close socket => exact directory_disconnect h socket
  | resume i result =>
      have hresume : Action.Keeps _ (act platform (.resume i result)) _ :=
        hstable.keeps_resume i result
      exact hresume.state ⟨h, rfl⟩

/-- The relay follows the directory. -/
theorem directory_run (platform : Platform) {topic : Topic} (h : topic.Valid)
    (inputs : List Input) :
    (run platform topic inputs).Valid ∧
      (run platform topic inputs).directory = topic.directory.run inputs := by
  induction inputs generalizing topic with
  | nil => exact ⟨h, rfl⟩
  | cons input inputs ih =>
      obtain ⟨hvalid, hstep⟩ := directory_step platform h input
      obtain ⟨hvalid', hrun⟩ := ih hvalid
      refine ⟨hvalid', hrun.trans ?_⟩
      rw [hstep]
      rfl

/-! ## One entry for an identifier -/

/-- No identifier stands for two subscriptions. -/
def Directory.Distinct (directory : Directory) : Prop :=
  directory.Pairwise fun a b => ¬ strictEqual a.key b.key = true

/-- The entries behind a registration: those from before under other identifiers, and the new
one. -/
theorem mem_register {directory : Directory} (h : directory.Distinct) {entry other : Entry} :
    other ∈ directory.register entry →
      (other ∈ directory ∧ ¬ strictEqual other.key entry.key = true) ∨
        (other.socket = entry.socket ∧ other.filters = entry.filters ∧
          (other.key = entry.key ∨ strictEqual other.key entry.key = true)) := by
  induction directory with
  | nil =>
      intro hother
      rw [List.mem_singleton.mp hother]
      exact .inr ⟨rfl, rfl, .inl rfl⟩
  | cons first rest ih =>
      obtain ⟨hfirst, hrest⟩ := List.pairwise_cons.mp h
      intro hother
      unfold Directory.register at hother
      split at hother
      · next hsame =>
        rcases List.mem_cons.mp hother with rfl | hother
        · exact .inr ⟨rfl, rfl, .inr hsame⟩
        · refine .inl ⟨List.mem_cons_of_mem _ hother, fun heq => hfirst other hother ?_⟩
          exact strict_equal_trans hsame (strict_equal_symm heq)
      · next hsame =>
        rcases List.mem_cons.mp hother with rfl | hother
        · exact .inl ⟨List.mem_cons_self, hsame⟩
        · rcases ih hrest hother with ⟨hmem, hne⟩ | hnew
          · exact .inl ⟨List.mem_cons_of_mem _ hmem, hne⟩
          · exact .inr hnew

/-- Entries under other identifiers stay. -/
theorem mem_register_of_mem {directory : Directory} {entry other : Entry}
    (h : other ∈ directory) (hne : ¬ strictEqual other.key entry.key = true) :
    other ∈ directory.register entry := by
  induction directory with
  | nil => cases h
  | cons first rest ih =>
      unfold Directory.register
      split
      · next hsame =>
        rcases List.mem_cons.mp h with rfl | h
        · exact absurd hsame hne
        · exact List.mem_cons_of_mem _ h
      · rcases List.mem_cons.mp h with rfl | h
        · exact List.mem_cons_self
        · exact List.mem_cons_of_mem _ (ih h)

/-- The new entry is there. -/
theorem exists_mem_register (directory : Directory) (entry : Entry) :
    ∃ other ∈ directory.register entry, other.socket = entry.socket ∧
      other.filters = entry.filters ∧
      (other.key = entry.key ∨ strictEqual other.key entry.key = true) := by
  induction directory with
  | nil => exact ⟨entry, List.mem_singleton.mpr rfl, rfl, rfl, .inl rfl⟩
  | cons first rest ih =>
      unfold Directory.register
      split
      · next hsame => exact ⟨_, List.mem_cons_self, rfl, rfl, .inr hsame⟩
      · obtain ⟨other, hother, hnew⟩ := ih
        exact ⟨other, List.mem_cons_of_mem _ hother, hnew⟩

/-- Registering keeps the names distinct. -/
theorem Directory.Distinct.register {directory : Directory} (h : directory.Distinct)
    (entry : Entry) : (directory.register entry).Distinct := by
  induction directory with
  | nil => exact List.pairwise_singleton _ _
  | cons first rest ih =>
      obtain ⟨hfirst, hrest⟩ := List.pairwise_cons.mp h
      unfold Directory.register
      split
      · exact List.pairwise_cons.mpr ⟨hfirst, hrest⟩
      · next hne =>
        refine List.pairwise_cons.mpr ⟨fun other hother heq => ?_, ih hrest⟩
        rcases mem_register hrest hother with ⟨hmem, -⟩ | ⟨-, -, hkey | hkey⟩
        · exact hfirst other hmem heq
        · exact hne (hkey ▸ heq)
        · exact hne (strict_equal_trans heq hkey)

/-- So does every step. -/
theorem Directory.Distinct.step {directory : Directory} (h : directory.Distinct) (input : Input) :
    (directory.step input).Distinct := by
  cases input with
  | frame socket message =>
      simp only [Directory.step]
      split
      · exact h.register _
      · exact h.filter _
      · exact h
  | peer event => exact h
  | close socket => exact h.filter _
  | resume i result => exact h

/-- And every run. -/
theorem Directory.Distinct.run {directory : Directory} (h : directory.Distinct)
    (inputs : List Input) : (directory.run inputs).Distinct := by
  induction inputs generalizing directory with
  | nil => exact h
  | cons input inputs ih => exact ih (h.step input)

/-! ## Subscriptions that stay -/

/-- A client is registered under an identifier with its filters. -/
def Directory.Registered (directory : Directory) (socket : Nat) (key : Value)
    (filters : List Json) : Prop :=
  ∃ entry ∈ directory, SameKey entry.key key ∧ entry.socket = socket ∧ entry.filters = filters

/-- The same, in the map and the objects of the relay. -/
def Topic.Registered (topic : Topic) (socket : Nat) (key : Value) (filters : List Json) : Prop :=
  ∃ entry ∈ topic.subscriptions, SameKey entry.1 key ∧ ∃ sub, topic.subs[entry.2]? = some sub ∧
    sub.socket = socket ∧ sub.filters = filters

/-- A `REQ` or a `CLOSE` under an identifier, whoever sends it. -/
def Input.Touches (key : Value) : Input → Prop
  | .frame _ message =>
      (∃ name filters, requested message = some (name, filters) ∧ strictEqual name key = true) ∨
        ∃ name, closed message = some name ∧ strictEqual name key = true
  | _ => False

/-- A client ends its subscription: with a `CLOSE`, with a new `REQ`, or because it is gone. -/
def Input.Ends (socket : Nat) (key : Value) : Input → Prop
  | .frame sender message => sender = socket ∧ (Input.frame sender message).Touches key
  | .close sender => sender = socket
  | _ => False

/-- The directory holds what is registered. -/
theorem registered_directory (topic : Topic) (socket : Nat) (key : Value) (filters : List Json) :
    topic.directory.Registered socket key filters ↔ topic.Registered socket key filters := by
  constructor
  · rintro ⟨entry, hentry, hkey, hsocket, hfilters⟩
    obtain ⟨pair, hpair, hlook⟩ := List.mem_filterMap.mp hentry
    obtain ⟨sub, hsub, rfl⟩ := Option.map_eq_some_iff.mp hlook
    exact ⟨pair, hpair, hkey, sub, hsub, hsocket, hfilters⟩
  · rintro ⟨pair, hpair, hkey, sub, hsub, hsocket, hfilters⟩
    refine ⟨⟨pair.1, sub.socket, sub.filters⟩, ?_, hkey, hsocket, hfilters⟩
    exact List.mem_filterMap.mpr ⟨pair, hpair, by rw [entryOf, hsub]; rfl⟩

/-- A message does not both open and close. -/
theorem closed_of_requested {message : Value} {request : Value × List Json}
    (h : requested message = some request) : closed message = none := by
  unfold requested at h
  unfold closed
  cases hitems : iterate message with
  | error thrown => rfl
  | ok items =>
      rw [hitems] at h
      simp only at h ⊢
      split at h
      · next hreq => rw [if_neg (strict_equal_string_ne hreq (by decide))]
      · cases h

section

variable {directory : Directory} {socket : Nat} {key : Value} {filters : List Json}

/-- Two identifiers that are the same for a third one. -/
theorem SameKey.strict_equal {a b c : Value} (h : SameKey a b) (hc : strictEqual c b = true) :
    strictEqual a c = true := by
  rcases h with rfl | h
  · exact strict_equal_symm hc
  · exact strict_equal_trans h (strict_equal_symm hc)

/-- Equal names are equal to the same names. -/
theorem SameKey.strict_equal_of {a b c : Value} (h : SameKey a b) (hc : strictEqual a c = true) :
    strictEqual c b = true := by
  rcases h with rfl | h
  · exact strict_equal_symm hc
  · exact strict_equal_trans (strict_equal_symm hc) h

/-- A step that its owner does not take keeps a registration exactly if it does not use the
identifier. -/
theorem Directory.registered_step_iff (hdistinct : directory.Distinct)
    (h : directory.Registered socket key filters) {input : Input}
    (hown : ¬ input.Ends socket key) :
    (directory.step input).Registered socket key filters ↔ ¬ input.Touches key := by
  obtain ⟨entry, hentry, hkey, hsocket, hfilters⟩ := h
  cases input with
  | peer event => exact iff_of_true ⟨entry, hentry, hkey, hsocket, hfilters⟩ not_false
  | resume i result => exact iff_of_true ⟨entry, hentry, hkey, hsocket, hfilters⟩ not_false
  | close sender =>
      refine iff_of_true ⟨entry, List.mem_filter.mpr ⟨hentry, ?_⟩, hkey, hsocket, hfilters⟩
        not_false
      have hsender : sender ≠ socket := hown
      simpa [hsocket] using hsender.symm
  | frame sender message =>
      have hsender : (Input.frame sender message).Touches key → sender ≠ socket :=
        fun htouch heq => hown ⟨heq, htouch⟩
      cases hreq : requested message with
      | some request =>
          obtain ⟨name, asked⟩ := request
          have hclose := closed_of_requested hreq
          have htouches : (Input.frame sender message).Touches key ↔
              strictEqual name key = true := by
            simp [Input.Touches, hreq, hclose]
          simp only [Directory.step, hreq]
          rw [htouches]
          constructor
          · rintro ⟨other, hother, hsame, hothers, -⟩ hname
            have heq : strictEqual other.key name = true := hsame.strict_equal hname
            rcases mem_register hdistinct hother with ⟨-, hne⟩ | ⟨hnew, -, -⟩
            · exact hne heq
            · exact hsender (htouches.mpr hname) (hnew.symm.trans hothers)
          · intro hname
            refine ⟨entry, mem_register_of_mem hentry fun heq => hname ?_, hkey, hsocket, hfilters⟩
            exact hkey.strict_equal_of heq
      | none =>
          cases hclose : closed message with
          | none =>
              have hno : ¬ (Input.frame sender message).Touches key := by
                simp [Input.Touches, hreq, hclose]
              simp only [Directory.step, hreq, hclose]
              exact iff_of_true ⟨entry, hentry, hkey, hsocket, hfilters⟩ hno
          | some name =>
              have htouches : (Input.frame sender message).Touches key ↔
                  strictEqual name key = true := by
                simp [Input.Touches, hreq, hclose]
              simp only [Directory.step, hreq, hclose]
              rw [htouches]
              constructor
              · rintro ⟨other, hother, hsame, -⟩ hname
                have hne := (List.mem_filter.mp hother).2
                simp [hsame.strict_equal hname] at hne
              · intro hname
                refine ⟨entry, List.mem_filter.mpr ⟨hentry, ?_⟩, hkey, hsocket, hfilters⟩
                simpa using fun heq => hname (hkey.strict_equal_of heq)

/-- The same for a run: the first use of the identifier by somebody else ends the registration. -/
theorem Directory.registered_run_iff (hdistinct : directory.Distinct)
    (h : directory.Registered socket key filters) {inputs : List Input}
    (hown : ∀ input ∈ inputs, ¬ input.Ends socket key) :
    (∀ n, (directory.run (inputs.take n)).Registered socket key filters) ↔
      ∀ input ∈ inputs, ¬ input.Touches key := by
  induction inputs generalizing directory with
  | nil =>
      refine iff_of_true (fun n => ?_) fun _ hinput => absurd hinput List.not_mem_nil
      rw [List.take_nil]
      exact h
  | cons input inputs ih =>
      have hstep := registered_step_iff hdistinct h (hown input List.mem_cons_self)
      have hrest := fun i hi => hown i (List.mem_cons_of_mem _ hi)
      constructor
      · intro hall
        have hone : (directory.step input).Registered socket key filters := hall 1
        have hmore := (ih (hdistinct.step input) hone hrest).mp fun n => hall (n + 1)
        intro i hi
        rcases List.mem_cons.mp hi with rfl | hi
        · exact hstep.mp hone
        · exact hmore i hi
      · intro hno
        have hone := hstep.mpr (hno input List.mem_cons_self)
        have hmore := (ih (hdistinct.step input) hone hrest).mpr
          fun i hi => hno i (List.mem_cons_of_mem _ hi)
        intro n
        cases n with
        | zero => exact h
        | succ n => exact hmore n

end

/-- A `REQ` frame. -/
def request (socket : Nat) (key : Json) (filters : List Json) : Input :=
  .frame socket (some (.arr (.str (ascii "REQ") :: key :: filters)))

/-- What a `REQ` asks for. -/
theorem requested_request (key : Json) (filters : List Json) :
    requested (some (.arr (.str (ascii "REQ") :: key :: filters))) = some (some key, filters) := by
  have hname : strictEqual (some (.str (ascii "REQ"))) (string "REQ") = true := by decide
  simp [requested, iterate, hname]

/-- A client's subscription stays registered with its socket and its filters, until the client
itself ends it, exactly if nobody else sends a `REQ` or a `CLOSE` under the same identifier. -/
theorem subscription_kept_iff (platform : Platform) (events : Collection)
    (before after : List Input) (socket : Nat) (key : Json) (filters : List Json)
    (hown : ∀ input ∈ after, ¬ input.Ends socket (some key)) :
    (∀ n, (run platform (Topic.start events)
        (before ++ request socket key filters :: after.take n)).Registered
          socket (some key) filters) ↔
      ∀ input ∈ after, ¬ input.Touches (some key) := by
  have hstart : (Topic.start events).Valid := fun _ h => absurd h List.not_mem_nil
  have hdistinct : ((Topic.start events).directory.run before).Distinct :=
    Directory.Distinct.run List.Pairwise.nil before
  have hrequest : Directory.Registered (((Topic.start events).directory.run before).step
      (request socket key filters)) socket (some key) filters := by
    simp only [request, Directory.step, requested_request]
    obtain ⟨entry, hentry, hsocket, hfilters, hkey⟩ := exists_mem_register
      ((Topic.start events).directory.run before) ⟨some key, socket, filters⟩
    exact ⟨entry, hentry, hkey, hsocket, hfilters⟩
  have hdirectory : ∀ n, (run platform (Topic.start events)
      (before ++ request socket key filters :: after.take n)).directory =
      (((Topic.start events).directory.run before).step (request socket key filters)).run
        (after.take n) := by
    intro n
    rw [(directory_run platform hstart _).2, Directory.run, List.foldl_append]
    rfl
  simp only [← registered_directory, hdirectory]
  exact Directory.registered_run_iff (hdistinct.step _) hrequest hown

/-- Another client that uses another identifier does no harm. -/
theorem subscription_kept_iff_two_clients :
    (run samplePlatform (Topic.start ⟨[], 0⟩) ([] ++ request 0 (.str (ascii "a")) [] ::
      [request 1 (.str (ascii "b")) []].take 1)).Registered 0 (some (.str (ascii "a"))) [] := by
  have hother : ¬ (request 1 (.str (ascii "b")) []).Touches (some (.str (ascii "a"))) := by
    rintro (⟨name, filters, hname, hsame⟩ | ⟨name, hname, -⟩)
    · obtain ⟨rfl, -⟩ := Prod.mk.inj (Option.some.inj hname)
      exact absurd hsame (by decide)
    · cases hname
  refine (subscription_kept_iff samplePlatform ⟨[], 0⟩ [] [request 1 (.str (ascii "b")) []] 0
    (.str (ascii "a")) [] fun input hinput => ?_).mpr (fun input hinput => ?_) 1
  · rw [List.mem_singleton.mp hinput]
    rintro ⟨hsender, -⟩
    cases hsender
  · rw [List.mem_singleton.mp hinput]
    exact hother

/-- Another client closes the subscription. -/
theorem close_removes_other_client :
    ¬ ∀ (platform : Platform) (events : Collection) (before after : List Input) (socket : Nat)
      (key : Json) (filters : List Json), (∀ input ∈ after, ¬ input.Ends socket (some key)) →
      ∀ n, (run platform (Topic.start events)
        (before ++ request socket key filters :: after.take n)).Registered
          socket (some key) filters := by
  intro h
  obtain ⟨entry, hentry, -⟩ := h samplePlatform ⟨[], 0⟩ []
    [.frame 1 (some (.arr [.str (ascii "CLOSE"), .str (ascii "a")]))] 0 (.str (ascii "a")) []
    (fun input hinput => by
      rw [List.mem_singleton.mp hinput]
      rintro ⟨hsender, -⟩
      cases hsender) 1
  have hempty : (run samplePlatform (Topic.start ⟨[], 0⟩)
      ([] ++ request 0 (.str (ascii "a")) [] ::
        [.frame 1 (some (.arr [.str (ascii "CLOSE"), .str (ascii "a")]))].take 1)
      ).subscriptions.length = 0 :=
    rfl
  rw [List.length_eq_zero_iff.mp hempty] at hentry
  cases hentry

end Gnostr.Swarm
