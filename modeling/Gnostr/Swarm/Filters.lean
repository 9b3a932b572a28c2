import Gnostr.Swarm.Relay

/-!
# Filters of live events

What `validateEvent` of `template/nostr_events.js` makes of the filters of a subscription. A filter
constrains the id, the author, the kind and the time of an event with `ids`, `authors`, `kinds`,
`since` and `until`, and its tags with names that start with `#`. The function asks whether a name
is `in validateEvent`, the function itself, where the table of handlers is meant: of the
constraints only those on tags are looked at, and with them the names of all that a function object
has or inherits. `evaluate_constraint` says what the handlers make of the name and the value of a
constraint, whatever the value is, `evaluate_other` what comes of the other names, and
`validate_event_filters_iff` when the function filters as the handlers do.
-/

namespace Gnostr.Swarm

open Wire

/-! ## Events and filters -/

/-- What the constraints look at in an event. -/
structure Note where
  id : Bytes
  pubkey : Bytes
  kind : Rat
  createdAt : Rat
  tags : List (List Bytes)

/-- An array of strings. -/
def strings (ts : List Bytes) : Json :=
  .arr (ts.map .str)

/-- An event that is formed correctly has these fields. -/
structure Note.Of (note : Note) (event : Json) : Prop where
  id : event.member (ascii "id") = some (.str note.id)
  pubkey : event.member (ascii "pubkey") = some (.str note.pubkey)
  kind : number (event.member (ascii "kind")) = some note.kind
  createdAt : number (event.member (ascii "created_at")) = some note.createdAt
  tags : event.member (ascii "tags") = some (.arr (note.tags.map strings))

/-- The members of a filter object: any names, with any values. -/
abbrev FilterMembers := List (Bytes × Json)

/-- The names that constrain an event. -/
def isConstraint (key : Bytes) : Bool :=
  key.head? = some 35 || key ∈ ["ids", "kinds", "authors", "since", "until"].map ascii

/-- What the handler of a name says. -/
def evaluate (engine : Engine) (event : Value) (entry : Bytes × Json) : Except Thrown Bool :=
  if entry.1.head? = some 35 then hastag engine event (some entry.2) (some entry.1)
  else callHandler engine entry.1 event (some entry.2)

/-- Filtering as a subscription asks for it: an event is let through exactly when the handlers of
all constraints of some filter say so, and the function does not throw where none of these does. -/
structure FiltersEvent (engine : Engine) (event : Json) (filters : List FilterMembers) : Prop where
  met : validateEvent engine (some event) (some (filters.map .obj)) = .ok true ↔
    ∃ filter ∈ filters, ∀ entry ∈ filter, isConstraint entry.1 = true →
      evaluate engine (some event) entry = .ok true
  returns : (∀ filter ∈ filters, ∀ entry ∈ filter, isConstraint entry.1 = true →
      ∃ b, evaluate engine (some event) entry = .ok b) →
    ∃ b, validateEvent engine (some event) (some (filters.map .obj)) = .ok b

/-! ## What constraints ask for -/

/-- Some item of a list is written as the beginning of a text, and those in front of it can be
written. -/
def Begins (engine : Engine) (value : Json) (t : Bytes) : Prop :=
  ∃ front item back s, value = .arr (front ++ item :: back) ∧
    (∀ other ∈ front, ∃ u, jsonText engine other = .ok u) ∧
    jsonText engine item = .ok s ∧ s.isPrefixOf t = true

/-- A list of items that can be written. -/
def Writable (engine : Engine) (value : Json) : Prop :=
  ∃ items, value = .arr items ∧ ∀ item ∈ items, ∃ u, jsonText engine item = .ok u

/-- A value that `includes` looks into. -/
def isListing : Json → Bool
  | .arr _ | .str _ => true
  | _ => false

/-- The value of a tag is listed: as an item of an array, or as a part of a string. -/
def listsText (value : Json) (o : Option Bytes) : Bool :=
  match value with
  | .arr items => items.any fun item => strictEqual (some item) (o.map .str)
  | .str t => (indexOf (o.getD (ascii "undefined")) t).isSome
  | _ => false

/-- A number is listed. -/
def listsNumber (engine : Engine) (value : Json) (q : Rat) : Bool :=
  match value with
  | .arr items => items.any fun item => number (some item) = some q
  | .str t => (indexOf (engine.numberText q) t).isSome
  | _ => false

/-- Whether a constraint can be evaluated, and whether an event satisfies it. -/
structure Reading where
  readable : Prop
  admits : Prop

/-- A constraint on the beginning of a text. -/
def prefixReading (engine : Engine) (value : Json) (t : Bytes) : Reading :=
  ⟨Begins engine value t ∨ Writable engine value, Begins engine value t⟩

/-- A constraint on a time, which is compared with a primitive value. -/
def timeReading (engine : Engine) (value : Json) (p : Primitive → Bool) : Reading :=
  ⟨∃ bound, toPrimitive engine (some value) = .ok bound,
    ∃ bound, toPrimitive engine (some value) = .ok bound ∧ p bound = true⟩

/-- A constraint on the tags of a name. -/
def tagReading (note : Note) (name : Bytes) (value : Json) : Reading :=
  ⟨isListing value = true ∨ ∀ tag ∈ note.tags, tag[0]? ≠ some name,
    ∃ tag ∈ note.tags, tag[0]? = some name ∧ listsText value tag[1]? = true⟩

/-- What a constraint makes of an event, by its name. -/
def reading (engine : Engine) (note : Note) (entry : Bytes × Json) : Reading :=
  if entry.1.head? = some 35 then tagReading note (entry.1.drop 1) entry.2
  else if entry.1 = ascii "ids" then prefixReading engine entry.2 note.id
  else if entry.1 = ascii "kinds" then
    ⟨isListing entry.2 = true, listsNumber engine entry.2 note.kind = true⟩
  else if entry.1 = ascii "authors" then prefixReading engine entry.2 note.pubkey
  else if entry.1 = ascii "since" then
    timeReading engine entry.2 fun bound => bound.less engine (.number note.createdAt)
  else timeReading engine entry.2 fun bound => (Primitive.number note.createdAt).less engine bound

/-! ## When the tags are enough -/

/-- Names of members of a function object under which `validateHandlers` has no function, or one
that wants a function. -/
def throwingNames : List String :=
  ["length", "name", "prototype", "arguments", "caller", "apply", "bind", "call",
    "__defineGetter__", "__defineSetter__", "__proto__"]

/-- Names of inherited methods that take the event for a name and find nothing under it. -/
def lookupNames : List String :=
  ["hasOwnProperty", "propertyIsEnumerable", "__lookupGetter__", "__lookupSetter__"]

/-- Names of inherited methods whose result counts as false. -/
def refusingNames : List String :=
  "isPrototypeOf" :: lookupNames

/-- Names of inherited methods whose result counts as true. -/
def passingNames : List String :=
  ["constructor", "toString", "toLocaleString", "valueOf"]

/-- A call under the name throws: there is nothing to call, or the event has no text. -/
def Throws (event : Json) (name : Bytes) : Prop :=
  name ∈ throwingNames.map ascii ∨
    name ∈ lookupNames.map ascii ∧ (event.member (ascii "toString")).isSome = true

/-- No name in a filter throws. -/
def Callable (event : Json) (filter : FilterMembers) : Prop :=
  ∀ entry ∈ filter, ¬ Throws event entry.1

/-- All constraints of a filter can be evaluated. -/
def Readable (engine : Engine) (note : Note) (filter : FilterMembers) : Prop :=
  ∀ entry ∈ filter, isConstraint entry.1 = true → (reading engine note entry).readable

/-- An event satisfies all constraints of a filter. -/
def Admits (engine : Engine) (note : Note) (filter : FilterMembers) : Prop :=
  ∀ entry ∈ filter, isConstraint entry.1 = true → (reading engine note entry).admits

/-- The constraints on tags can be evaluated. -/
def TagsReadable (engine : Engine) (note : Note) (filter : FilterMembers) : Prop :=
  ∀ entry ∈ filter, entry.1.head? = some 35 → (reading engine note entry).readable

/-- An event has the tags a filter asks for, and no name in the filter counts as false. -/
def TagsAdmit (engine : Engine) (note : Note) (filter : FilterMembers) : Prop :=
  (∀ entry ∈ filter, entry.1.head? = some 35 → (reading engine note entry).admits) ∧
    ∀ entry ∈ filter, entry.1 ∉ refusingNames.map ascii

/-- The tags are enough: no name throws unless a constraint does, and an event that satisfies all
constraints of some filter is one that some filter lets through for its tags. -/
structure TagsDecide (engine : Engine) (event : Json) (note : Note)
    (filters : List FilterMembers) : Prop where
  callable : (∀ filter ∈ filters, Readable engine note filter) →
    ∀ filter ∈ filters, Callable event filter
  decide : ((∀ filter ∈ filters, Callable event filter ∧ TagsReadable engine note filter) ∧
      ∃ filter ∈ filters, TagsAdmit engine note filter) ↔
    ∃ filter ∈ filters, Admits engine note filter

/-! ## What the handlers say -/

section

variable (engine : Engine) {event : Json} {note : Note}

/-- The loop ends at the first item when its test succeeds, and goes on when it fails. -/
theorem any_item_cons_iff {p : Value → Except Thrown Bool} {v : Json} {vs : List Json} {b : Bool} :
    anyItem p (v :: vs) = .ok b ↔
      p (some v) = .ok true ∧ b = true ∨ p (some v) = .ok false ∧ anyItem p vs = .ok b := by
  rw [anyItem]
  cases hv : p (some v) with
  | error thrown =>
      refine iff_of_false (fun h => by cases h) ?_
      rintro (⟨h, -⟩ | ⟨h, -⟩) <;> cases h
  | ok found =>
      cases found with
      | true =>
          show Except.ok true = Except.ok b ↔ _
          simp [eq_comm]
      | false =>
          show anyItem p vs = .ok b ↔ _
          simp

/-- A loop that stops at an item with success has come so far. -/
theorem any_item_true_iff {p : Value → Except Thrown Bool} {vs : List Json} :
    anyItem p vs = .ok true ↔ ∃ front v back, vs = front ++ v :: back ∧
      (∀ u ∈ front, ∃ b, p (some u) = .ok b) ∧ p (some v) = .ok true := by
  induction vs with
  | nil =>
      refine iff_of_false (fun h => by cases h) fun ⟨front, v, back, h, _⟩ => ?_
      exact List.append_ne_nil_of_right_ne_nil front (List.cons_ne_nil v back) h.symm
  | cons v vs ih =>
      rw [any_item_cons_iff, ih]
      constructor
      · rintro (⟨hv, -⟩ | ⟨hv, front, w, back, rfl, hfront, hw⟩)
        · exact ⟨[], v, vs, rfl, fun u hu => absurd hu List.not_mem_nil, hv⟩
        · exact ⟨v :: front, w, back, rfl, List.forall_mem_cons.mpr ⟨⟨false, hv⟩, hfront⟩, hw⟩
      · rintro ⟨front, w, back, h, hfront, hw⟩
        cases front with
        | nil =>
            obtain ⟨rfl, -⟩ := List.cons.inj h
            exact .inl ⟨hw, rfl⟩
        | cons u front =>
            obtain ⟨rfl, hvs⟩ := List.cons.inj h
            obtain ⟨⟨b, hb⟩, hrest⟩ := List.forall_mem_cons.mp hfront
            cases b with
            | true => exact .inl ⟨hb, rfl⟩
            | false => exact .inr ⟨hb, front, w, back, hvs, hrest, hw⟩

/-- It does not throw when it stops so, or when no test throws. -/
theorem any_item_ok_iff {p : Value → Except Thrown Bool} {vs : List Json} :
    (∃ b, anyItem p vs = .ok b) ↔
      anyItem p vs = .ok true ∨ ∀ v ∈ vs, ∃ b, p (some v) = .ok b := by
  induction vs with
  | nil => exact iff_of_true ⟨false, rfl⟩ (.inr fun v hv => by cases hv)
  | cons v vs ih =>
      rw [anyItem, List.forall_mem_cons]
      cases hv : p (some v) with
      | error thrown =>
          refine iff_of_false (fun ⟨b, h⟩ => by cases h) ?_
          rintro (h | ⟨⟨b, h⟩, -⟩) <;> cases h
      | ok b =>
          cases b with
          | true => exact iff_of_true ⟨true, rfl⟩ (.inl rfl)
          | false => exact ih.trans (or_congr_right (and_iff_right ⟨false, rfl⟩).symm)

/-- A loop over items none of which throws. -/
theorem any_item_map {α : Type} {p : Value → Except Thrown Bool} {f : α → Json} {g : α → Bool}
    {xs : List α} (h : ∀ x ∈ xs, p (some (f x)) = .ok (g x)) :
    anyItem p (xs.map f) = .ok (xs.any g) := by
  induction xs with
  | nil => rfl
  | cons x xs ih =>
      have hrest := ih fun y hy => h y (List.mem_cons_of_mem x hy)
      rw [List.map_cons, anyItem, h x List.mem_cons_self, List.any_cons]
      cases g x with
      | true => rfl
      | false => exact hrest

/-- An event with a member is an object, whose members can be looked at. -/
theorem get_of_member {key : String} {value : Json}
    (h : event.member (ascii key) = some value) : get key (some event) = .ok (some value) := by
  cases event with
  | null => cases h
  | _ => exact congrArg Except.ok h

/-- A member that is a number is there. -/
theorem number_of_get {key : String} {q : Rat} (h : number (event.member (ascii key)) = some q) :
    ∃ value, get key (some event) = .ok (some value) ∧ number (some value) = some q := by
  cases hmember : event.member (ascii key) with
  | none =>
      rw [hmember] at h
      cases h
  | some value => exact ⟨value, get_of_member hmember, hmember ▸ h⟩

/-- One of the texts of a list is the beginning of a member. -/
theorem prefix_reading_iff {key : String} {t : Bytes}
    (h : event.member (ascii key) = some (.str t)) (value : Json) :
    ((∃ b, (elements (some value) >>= anyItem fun item => do
        startsWith engine (← get key (some event)) item) = .ok b) ↔
      (prefixReading engine value t).readable) ∧
    ((elements (some value) >>= anyItem fun item => do
        startsWith engine (← get key (some event)) item) = .ok true ↔
      (prefixReading engine value t).admits) := by
  have htest (v : Json) (b : Bool) :
      (do startsWith engine (← get key (some event)) (some v)) = .ok b ↔
        ∃ u, jsonText engine v = .ok u ∧ u.isPrefixOf t = b := by
    rw [get_of_member h]
    show (jsonText engine v >>= fun u => Except.ok (u.isPrefixOf t)) = .ok b ↔ _
    constructor
    · intro hrun
      obtain ⟨u, hu, hb⟩ := bind_eq_ok hrun
      exact ⟨u, hu, Except.ok.inj hb⟩
    · rintro ⟨u, hu, rfl⟩
      rw [hu]
      rfl
  have hreturns (v : Json) : (∃ b, (do startsWith engine (← get key (some event)) (some v)) =
      .ok b) ↔ ∃ u, jsonText engine v = .ok u := by
    simp only [htest]
    exact ⟨fun ⟨_, u, hu, _⟩ => ⟨u, hu⟩, fun ⟨u, hu⟩ => ⟨_, u, hu, rfl⟩⟩
  unfold prefixReading
  cases value with
  | arr items =>
      have hbegins : (anyItem (fun item => do startsWith engine (← get key (some event)) item)
          items) = .ok true ↔ Begins engine (.arr items) t := by
        rw [any_item_true_iff]
        constructor
        · rintro ⟨front, item, back, rfl, hfront, hitem⟩
          obtain ⟨s, hs, hprefix⟩ := (htest item true).mp hitem
          exact ⟨front, item, back, s, rfl, fun u hu => (hreturns u).mp (hfront u hu), hs, hprefix⟩
        · rintro ⟨front, item, back, s, hitems, hfront, hs, hprefix⟩
          exact ⟨front, item, back, Json.arr.inj hitems,
            fun u hu => (hreturns u).mpr (hfront u hu), (htest item true).mpr ⟨s, hs, hprefix⟩⟩
      have hwritable : Writable engine (.arr items) ↔
          ∀ item ∈ items, ∃ u, jsonText engine item = .ok u := by
        constructor
        · rintro ⟨others, hitems, hall⟩
          exact Json.arr.inj hitems ▸ hall
        · exact fun hall => ⟨items, rfl, hall⟩
      refine ⟨any_item_ok_iff.trans ?_, hbegins⟩
      rw [hbegins, hwritable]
      simp only [hreturns]
  | _ =>
      refine ⟨iff_of_false (fun ⟨b, h⟩ => by cases h) ?_, iff_of_false (fun h => by cases h) ?_⟩
      · rintro (⟨front, item, back, s, hvalue, -⟩ | ⟨items, hvalue, -⟩) <;> cases hvalue
      · rintro ⟨front, item, back, s, hvalue, -⟩
        cases hvalue

/-- Strings are compared as such, and no string is `undefined`. -/
theorem strict_equal_strings (o : Option Bytes) (t : Bytes) :
    strictEqual (o.map Json.str) (some (.str t)) = decide (o = some t) := by
  cases o with
  | none => rfl
  | some s => simp [strictEqual]

/-- What `includes` says of the value of a tag. -/
theorem includes_text (value : Json) (o : Option Bytes) :
    includes engine (some value) (o.map .str) =
      if isListing value then .ok (listsText value o) else .error .typeError := by
  cases value with
  | arr items => rfl
  | str t => cases o <;> rfl
  | _ => rfl

/-- Nothing is listed in any other value. -/
theorem lists_text_of_not_listing {value : Json} (h : isListing value = false) (o : Option Bytes) :
    listsText value o = false := by
  cases value with
  | arr items => cases h
  | str t => cases h
  | _ => rfl

/-- A value is equal to a number when it is that number. -/
theorem strict_equal_number {x y : Value} {q : Rat} (h : number y = some q) :
    strictEqual x y = decide (number x = some q) := by
  rw [Bool.eq_iff_iff, strict_equal_iff, decide_eq_true_iff, primitive_of_number h]
  constructor
  · rintro ⟨p, hx, hp⟩
    obtain rfl := Option.some.inj hp
    exact number_of_primitive hx
  · exact fun hx => ⟨_, primitive_of_number hx, rfl⟩

/-- The text of a number. -/
theorem text_of_number {x : Value} {q : Rat} (h : number x = some q) :
    text engine x = .ok (engine.numberText q) := by
  rcases x with _ | x
  · cases h
  · cases x with
    | int z =>
        obtain rfl := Option.some.inj h
        rfl
    | real m e =>
        obtain rfl := Option.some.inj h
        rfl
    | _ => cases h

/-- What `includes` says of a number. -/
theorem includes_number (value : Json) {x : Value} {q : Rat} (h : number x = some q) :
    includes engine (some value) x =
      if isListing value then .ok (listsNumber engine value q) else .error .typeError := by
  cases value with
  | arr items =>
      refine congrArg Except.ok (congrArg items.any (funext fun item => ?_))
      exact strict_equal_number h
  | str t =>
      rw [includes, text_of_number engine h]
      rfl
  | _ => rfl

/-- What `hastag` asks of one tag. -/
def tagTest (value : Json) (name : Bytes) (tag : Value) : Except Thrown Bool := do
  let items ← iterate tag
  if strictEqual items[0]? (some (.str name)) then includes engine (some value) items[1]?
  else return false

/-- The value of a tag of the name is looked up, and other tags fail. -/
theorem tag_test_strings (value : Json) (name : Bytes) (tag : List Bytes) :
    tagTest engine value name (some (strings tag)) =
      if tag[0]? = some name then
        if isListing value then .ok (listsText value tag[1]?) else .error .typeError
      else .ok false := by
  show (if strictEqual (tag.map Json.str)[0]? (some (.str name)) then
    includes engine (some value) (tag.map Json.str)[1]? else .ok false) = _
  rw [List.getElem?_map, List.getElem?_map, strict_equal_strings, includes_text]
  simp only [decide_eq_true_eq]

/-- `hastag` goes over the tags of a note. -/
theorem hastag_eq (h : note.Of event) (key : Bytes) (value : Json) :
    hastag engine (some event) (some value) (some key) =
      anyItem (tagTest engine value (key.drop 1)) (note.tags.map strings) := by
  rw [hastag, get_of_member h.tags]
  rfl

/-- Whether a tag of the name has a value that is listed. -/
theorem tag_reading_iff (h : note.Of event) (key : Bytes) (value : Json) :
    ((∃ b, hastag engine (some event) (some value) (some key) = .ok b) ↔
      (tagReading note (key.drop 1) value).readable) ∧
    (hastag engine (some event) (some value) (some key) = .ok true ↔
      (tagReading note (key.drop 1) value).admits) := by
  have htest := tag_test_strings engine value (key.drop 1)
  rw [hastag_eq engine h]
  unfold tagReading
  cases hlisting : isListing value with
  | true =>
      rw [any_item_map fun tag _ => (htest tag).trans (by
        rw [hlisting, if_pos rfl, ← apply_ite Except.ok])]
      refine ⟨iff_of_true ⟨_, rfl⟩ (.inl rfl), ?_⟩
      simp [List.any_eq_true]
  | false =>
      -- the first tag of the name throws
      have hthrows (tag : List Bytes) := (htest tag).trans (by
        rw [hlisting, if_neg Bool.false_ne_true])
      have hnever : anyItem (tagTest engine value (key.drop 1)) (note.tags.map strings) ≠
          .ok true := by
        intro htrue
        obtain ⟨front, v, back, htags, -, hv⟩ := any_item_true_iff.mp htrue
        obtain ⟨tag, -, rfl⟩ := List.mem_map.mp
          (htags ▸ List.mem_append_right front List.mem_cons_self)
        rw [hthrows] at hv
        split at hv <;> cases hv
      refine ⟨any_item_ok_iff.trans ?_, iff_of_false hnever ?_⟩
      · rw [or_iff_right hnever, or_iff_right Bool.false_ne_true, List.forall_mem_map]
        refine forall₂_congr fun tag _ => ?_
        rw [hthrows]
        by_cases hname : tag[0]? = some (key.drop 1)
        · rw [if_pos hname]
          exact iff_of_false (fun ⟨b, hb⟩ => by cases hb) fun hne => hne hname
        · rw [if_neg hname]
          exact iff_of_true ⟨false, rfl⟩ hname
      · rintro ⟨tag, -, -, hlists⟩
        rw [lists_text_of_not_listing hlisting] at hlists
        cases hlists

/-- A name is called in the table of handlers unless it starts with `#`. -/
theorem evaluate_call {name : Bytes} (h : name.head? ≠ some 35) (value : Json) :
    evaluate engine (some event) (name, value) =
      callHandler engine name (some event) (some value) :=
  if_neg h

/-- What `includes` says of the kind. -/
theorem kind_reading_iff (h : note.Of event) (value : Json) :
    ((∃ b, (do includes engine (some value) (← get "kind" (some event))) = .ok b) ↔
      isListing value = true) ∧
    ((do includes engine (some value) (← get "kind" (some event))) = .ok true ↔
      listsNumber engine value note.kind = true) := by
  obtain ⟨kind, hget, hkind⟩ := number_of_get h.kind
  rw [hget]
  show ((∃ b, includes engine (some value) (some kind) = .ok b) ↔ _) ∧
    (includes engine (some value) (some kind) = .ok true ↔ _)
  rw [includes_number engine value hkind]
  cases value with
  | arr items => simp [isListing]
  | str t => simp [isListing]
  | _ => simp [isListing, listsNumber]

/-- The time of an event is compared with the primitive value of a bound. -/
theorem time_reading_iff (value : Json) {x : Value} {q : Rat} (h : number x = some q) :
    ((∃ b, lessThan engine (some value) x = .ok b) ↔
      (timeReading engine value fun bound => bound.less engine (.number q)).readable) ∧
    (lessThan engine (some value) x = .ok true ↔
      (timeReading engine value fun bound => bound.less engine (.number q)).admits) ∧
    ((∃ b, lessThan engine x (some value) = .ok b) ↔
      (timeReading engine value fun bound => (Primitive.number q).less engine bound).readable) ∧
    (lessThan engine x (some value) = .ok true ↔
      (timeReading engine value fun bound => (Primitive.number q).less engine bound).admits) := by
  have hprimitive : toPrimitive engine x = .ok (.number q) := by
    rw [toPrimitive, primitive_of_number h]
  unfold lessThan timeReading
  rw [hprimitive]
  cases toPrimitive engine (some value) with
  | error thrown => simp [bind, Except.bind]
  | ok bound => simp [bind, Except.bind, pure, Except.pure]

/-- The handlers say of a constraint what its name and its value say. -/
theorem evaluate_constraint (h : note.Of event) {entry : Bytes × Json}
    (hname : isConstraint entry.1 = true) :
    ((∃ b, evaluate engine (some event) entry = .ok b) ↔ (reading engine note entry).readable) ∧
    (evaluate engine (some event) entry = .ok true ↔ (reading engine note entry).admits) := by
  obtain ⟨name, value⟩ := entry
  have hcases : name.head? = some 35 ∨ name = ascii "ids" ∨ name = ascii "kinds" ∨
      name = ascii "authors" ∨ name = ascii "since" ∨ name = ascii "until" := by
    simpa [isConstraint] using hname
  rcases hcases with htag | rfl | rfl | rfl | rfl | rfl
  · rw [reading, if_pos htag, evaluate, if_pos htag]
    exact tag_reading_iff engine h name value
  · rw [evaluate_call engine (by decide)]
    exact prefix_reading_iff engine h.id value
  · rw [evaluate_call engine (by decide)]
    exact kind_reading_iff engine h value
  · rw [evaluate_call engine (by decide)]
    exact prefix_reading_iff engine h.pubkey value
  · obtain ⟨time, hget, htime⟩ := number_of_get h.createdAt
    obtain ⟨hreads, hadmits, -, -⟩ := time_reading_iff engine value htime
    have hcall : callHandler engine (ascii "since") (some event) (some value) =
        (get "created_at" (some event) >>= lessThan engine (some value)) := rfl
    rw [evaluate_call engine (by decide), hcall, hget]
    exact ⟨hreads, hadmits⟩
  · obtain ⟨time, hget, htime⟩ := number_of_get h.createdAt
    obtain ⟨-, -, hreads, hadmits⟩ := time_reading_iff engine value htime
    have hcall : callHandler engine (ascii "until") (some event) (some value) =
        (get "created_at" (some event) >>= fun time => lessThan engine time (some value)) := rfl
    rw [evaluate_call engine (by decide), hcall, hget]
    exact ⟨hreads, hadmits⟩

/-- The text of an object. -/
theorem text_object (h : note.Of event) :
    text engine (some event) =
      if (event.member (ascii "toString")).isSome then .error .typeError
      else .ok (ascii "[object Object]") := by
  cases event with
  | obj ms =>
      have hmember : (ms.any fun m => m.1 = ascii "toString") =
          ((Json.obj ms).member (ascii "toString")).isSome := by
        simp [Json.member, List.isSome_find?]
      rw [text, jsonText, hmember]
  | _ => cases h.id

/-- The names of a function object and of what it inherits from, sorted by what comes of them. -/
theorem function_names_cases {name : Bytes} (h : name ∈ functionNames.map ascii) :
    name ∈ throwingNames.map ascii ∨ name ∈ lookupNames.map ascii ∨
      name = ascii "isPrototypeOf" ∨ name ∈ passingNames.map ascii := by
  have hall : ∀ name ∈ functionNames.map ascii, name ∈ throwingNames.map ascii ∨
      name ∈ lookupNames.map ascii ∨ name = ascii "isPrototypeOf" ∨
        name ∈ passingNames.map ascii := by decide
  exact hall name h

/-- None of these names has a handler of its own. -/
theorem call_handler_inherited {name : Bytes} (h : name ∈ functionNames.map ascii)
    (event value : Value) : callHandler engine name event value =
      callInherited engine name event := by
  have hall : ∀ name ∈ functionNames.map ascii, name ≠ ascii "ids" ∧ name ≠ ascii "kinds" ∧
      name ≠ ascii "authors" ∧ name ≠ ascii "hastag" ∧ name ≠ ascii "since" ∧
        name ≠ ascii "until" := by decide
  obtain ⟨hids, hkinds, hauthors, hhastag, hsince, huntil⟩ := hall name h
  rw [callHandler, if_neg hids, if_neg hkinds, if_neg hauthors, if_neg hhastag, if_neg hsince,
    if_neg huntil]

/-- An inherited method that takes the event for a name. -/
theorem call_lookup (h : note.Of event) {name : Bytes} (hname : name ∈ lookupNames.map ascii) :
    callInherited engine name (some event) =
      if (event.member (ascii "toString")).isSome then .error .typeError else .ok false := by
  have hall : ∀ name ∈ lookupNames.map ascii,
      name ∉ ["constructor", "toString", "toLocaleString", "valueOf"].map ascii ∧
        name ≠ ascii "isPrototypeOf" ∧
        (name ∈ ["hasOwnProperty", "propertyIsEnumerable"].map ascii ∨
          name ∉ ["hasOwnProperty", "propertyIsEnumerable"].map ascii ∧
          name ∈ ["__lookupGetter__", "__lookupSetter__"].map ascii) := by decide
  obtain ⟨hpassing, hprototype, hlookup⟩ := hall name hname
  rw [callInherited, if_neg hpassing, if_neg hprototype, text_object engine h]
  rcases hlookup with hown | ⟨hown, hgetter⟩
  · rw [if_pos hown]
    split_ifs <;> rfl
  · rw [if_neg hown, if_pos hgetter]
    split_ifs <;> rfl

/-- The other names do not throw. -/
theorem not_throws {name : Bytes}
    (h : name ∉ throwingNames.map ascii ∧ name ∉ lookupNames.map ascii) : ¬ Throws event name := by
  rintro (hthrow | ⟨hlookup, -⟩)
  · exact h.1 hthrow
  · exact h.2 hlookup

/-- A name that is no constraint and is looked at throws, or counts as true or as false. -/
theorem evaluate_other (h : note.Of event) {name : Bytes} (value : Json)
    (hname : isConstraint name = false) (hlooked : isFilterKey name = true) :
    (Throws event name → ∀ b, evaluate engine (some event) (name, value) ≠ .ok b) ∧
      (¬ Throws event name → evaluate engine (some event) (name, value) =
        .ok (decide (name ∉ refusingNames.map ascii))) := by
  simp only [isConstraint, Bool.or_eq_false_iff, decide_eq_false_iff_not] at hname
  have hfunction : name ∈ functionNames.map ascii := by
    simp only [isFilterKey, Bool.or_eq_true, decide_eq_true_eq, Bool.and_eq_true] at hlooked
    exact (hlooked.resolve_left hname.1).1
  have hsorted : ∀ name ∈ functionNames.map ascii,
      (name ∈ throwingNames.map ascii → name ∉ lookupNames.map ascii) ∧
      (name ∈ passingNames.map ascii ∨ name = ascii "isPrototypeOf" →
        name ∉ throwingNames.map ascii ∧ name ∉ lookupNames.map ascii) ∧
      (name ∈ passingNames.map ascii → name ∉ refusingNames.map ascii) := by decide
  obtain ⟨hthrowing, hcalled, hpassing⟩ := hsorted name hfunction
  rw [evaluate_call engine hname.1, call_handler_inherited engine hfunction]
  rcases function_names_cases hfunction with hthrow | hlookup | rfl | hpass
  · have hall : ∀ name ∈ throwingNames.map ascii,
        name ∉ ["constructor", "toString", "toLocaleString", "valueOf"].map ascii ∧
          name ≠ ascii "isPrototypeOf" ∧
          name ∉ ["hasOwnProperty", "propertyIsEnumerable"].map ascii ∧
          name ∉ ["__lookupGetter__", "__lookupSetter__"].map ascii := by decide
    obtain ⟨hpassing, hprototype, hown, hgetter⟩ := hall name hthrow
    rw [callInherited, if_neg hpassing, if_neg hprototype, if_neg hown, if_neg hgetter]
    exact ⟨fun _ b => nofun, fun hno => absurd (.inl hthrow) hno⟩
  · have hrefusing : name ∈ refusingNames.map ascii := List.mem_cons_of_mem _ hlookup
    rw [call_lookup engine h hlookup]
    constructor
    · intro hthrows
      have hhidden : (event.member (ascii "toString")).isSome = true := by
        rcases hthrows with hthrow | ⟨-, hhidden⟩
        · exact absurd hlookup (hthrowing hthrow)
        · exact hhidden
      rw [if_pos hhidden]
      exact fun b => nofun
    · intro hno
      rw [if_neg fun hhidden => hno (.inr ⟨hlookup, hhidden⟩)]
      simp [hrefusing]
  · exact ⟨fun hthrows => absurd hthrows (not_throws (hcalled (.inr rfl))), fun _ => rfl⟩
  · refine ⟨fun hthrows => absurd hthrows (not_throws (hcalled (.inl hpass))), fun _ => ?_⟩
    have hcall : callInherited engine name (some event) = .ok true := if_pos hpass
    simp [hcall, hpassing hpass]

/-! ## What is looked at -/

/-- Of the constraints only those on tags are looked at. -/
theorem is_filter_key_constraint {name : Bytes} (h : isConstraint name = true) :
    isFilterKey name = true ↔ name.head? = some 35 := by
  have hcases : name.head? = some 35 ∨ name ∈ ["ids", "kinds", "authors", "since", "until"].map
      ascii := by
    simpa [isConstraint] using h
  refine ⟨fun hlooked => hcases.resolve_right fun hname => ?_, fun htag => ?_⟩
  · have hall : ∀ name ∈ ["ids", "kinds", "authors", "since", "until"].map ascii,
        isFilterKey name = false := by decide
    rw [hall name hname] at hlooked
    cases hlooked
  · rw [isFilterKey, decide_eq_true htag, Bool.true_or]

/-- A name that starts with `#` is a constraint. -/
theorem is_constraint_tag {name : Bytes} (h : name.head? = some 35) : isConstraint name = true := by
  rw [isConstraint, decide_eq_true h, Bool.true_or]

/-- The names that throw and those that count as false are looked at, and constrain nothing. -/
theorem is_filter_key_other {name : Bytes}
    (h : Throws event name ∨ name ∈ refusingNames.map ascii) :
    isFilterKey name = true ∧ isConstraint name = false := by
  have hall : ∀ name ∈ (throwingNames ++ refusingNames).map ascii,
      isFilterKey name = true ∧ isConstraint name = false := by decide
  refine hall name ?_
  rw [List.map_append, List.mem_append]
  rcases h with (hthrow | ⟨hlookup, -⟩) | hrefusing
  · exact .inl hthrow
  · exact .inr (List.mem_cons_of_mem _ hlookup)
  · exact .inr hrefusing

/-- What is looked at in a filter is called without an exception when no name throws and the tags
can be evaluated. -/
theorem evaluates_iff (h : note.Of event) {filter : FilterMembers} :
    (∀ entry ∈ filter, isFilterKey entry.1 = true →
      ∃ b, evaluate engine (some event) entry = .ok b) ↔
      Callable event filter ∧ TagsReadable engine note filter := by
  constructor
  · intro hall
    refine ⟨fun entry hmem hthrows => ?_, fun entry hmem htag => ?_⟩
    · obtain ⟨hlooked, hname⟩ := is_filter_key_other (.inl hthrows)
      obtain ⟨b, hb⟩ := hall entry hmem hlooked
      exact (evaluate_other engine h entry.2 hname hlooked).1 hthrows b hb
    · have hname := is_constraint_tag htag
      exact (evaluate_constraint engine h hname).1.mp
        (hall entry hmem ((is_filter_key_constraint hname).mpr htag))
  · rintro ⟨hcallable, hreadable⟩ entry hmem hlooked
    cases hname : isConstraint entry.1 with
    | true =>
        exact (evaluate_constraint engine h hname).1.mpr
          (hreadable entry hmem ((is_filter_key_constraint hname).mp hlooked))
    | false =>
        exact ⟨_, (evaluate_other engine h entry.2 hname hlooked).2 (hcallable entry hmem)⟩

/-- It all counts as true when the event has the tags and no name counts as false. -/
theorem meets_iff (h : note.Of event) {filter : FilterMembers}
    (hcallable : Callable event filter) :
    (∀ entry ∈ filter, isFilterKey entry.1 = true →
      evaluate engine (some event) entry = .ok true) ↔ TagsAdmit engine note filter := by
  constructor
  · intro hall
    refine ⟨fun entry hmem htag => ?_, fun entry hmem hrefusing => ?_⟩
    · have hname := is_constraint_tag htag
      exact (evaluate_constraint engine h hname).2.mp
        (hall entry hmem ((is_filter_key_constraint hname).mpr htag))
    · have hother : Throws event entry.1 ∨ entry.1 ∈ refusingNames.map ascii := .inr hrefusing
      obtain ⟨hlooked, hname⟩ := is_filter_key_other hother
      have hanswer := (evaluate_other engine h entry.2 hname hlooked).2 (hcallable entry hmem)
      have htrue := Except.ok.inj (hanswer.symm.trans (hall entry hmem hlooked))
      exact of_decide_eq_true htrue hrefusing
  · rintro ⟨htags, hnames⟩ entry hmem hlooked
    cases hname : isConstraint entry.1 with
    | true =>
        exact (evaluate_constraint engine h hname).2.mpr
          (htags entry hmem ((is_filter_key_constraint hname).mp hlooked))
    | false =>
        have hanswer := (evaluate_other engine h entry.2 hname hlooked).2 (hcallable entry hmem)
        exact hanswer.trans (congrArg Except.ok (decide_eq_true (hnames entry hmem)))

/-- What comes of a filter. -/
theorem validate_filter_ok (h : note.Of event) {filter : FilterMembers} {b : Bool} :
    validateFilter engine (some event) (.obj filter) = .ok b ↔
      (Callable event filter ∧ TagsReadable engine note filter) ∧
        (b = true ↔ TagsAdmit engine note filter) := by
  have hchecks : validateFilter engine (some event) (.obj filter) =
      ((filter.filter fun entry => isFilterKey entry.1).mapM (evaluate engine (some event)) >>=
        fun results => .ok (results.all id)) := rfl
  rw [hchecks, map_m_all]
  simp only [List.mem_filter, and_imp, evaluates_iff engine h]
  exact and_congr_right fun hcallable => by rw [meets_iff engine h hcallable.1]

/-- What comes of all filters. -/
theorem validate_event_ok (h : note.Of event) (hpasses : engine.Passes event)
    {filters : List FilterMembers} {b : Bool} :
    validateEvent engine (some event) (some (filters.map .obj)) = .ok b ↔
      (∀ filter ∈ filters, Callable event filter ∧ TagsReadable engine note filter) ∧
        (b = true ↔ ∃ filter ∈ filters, TagsAdmit engine note filter) := by
  have hchecks : validateEvent engine (some event) (some (filters.map .obj)) =
      ((filters.map .obj).mapM (validateFilter engine (some event)) >>=
        fun results => .ok (results.any id)) := by
    unfold validateEvent
    rw [hpasses.1, hpasses.2]
    rfl
  have hreturns : ∀ filter : FilterMembers,
      (∃ b, validateFilter engine (some event) (.obj filter) = .ok b) ↔
        Callable event filter ∧ TagsReadable engine note filter := fun filter => by
    classical
    simp only [validate_filter_ok engine h]
    exact ⟨fun ⟨_, hcallable, _⟩ => hcallable, fun hcallable =>
      ⟨decide (TagsAdmit engine note filter), hcallable, decide_eq_true_iff⟩⟩
  have hmet : (∃ x ∈ filters.map Json.obj, validateFilter engine (some event) x = .ok true) ↔
      ∃ filter ∈ filters, (Callable event filter ∧ TagsReadable engine note filter) ∧
        TagsAdmit engine note filter := by
    simp [validate_filter_ok engine h]
  rw [hchecks, map_m_any, hmet, List.forall_mem_map]
  simp only [hreturns]
  refine and_congr_right fun hcallable => iff_congr Iff.rfl ?_
  exact exists_congr fun filter => and_congr_right fun hmem =>
    and_iff_right (hcallable filter hmem)

end

/-- For a signed event, filters let through what their handlers let through, without throwing,
exactly when the constraints on tags are enough: no name in a filter throws unless a constraint
does, and some filter whose tags the event has is without the names that count as false just when
the event satisfies all constraints of some filter. -/
theorem validate_event_filters_iff (engine : Engine) (event : Json) (note : Note)
    (h : note.Of event) (hpasses : engine.Passes event) (filters : List FilterMembers) :
    FiltersEvent engine event filters ↔ TagsDecide engine event note filters := by
  have hmet : validateEvent engine (some event) (some (filters.map .obj)) = .ok true ↔
      (∀ filter ∈ filters, Callable event filter ∧ TagsReadable engine note filter) ∧
        ∃ filter ∈ filters, TagsAdmit engine note filter := by
    rw [validate_event_ok engine h hpasses, iff_true_left rfl]
  have hasked : (∃ filter ∈ filters, ∀ entry ∈ filter, isConstraint entry.1 = true →
      evaluate engine (some event) entry = .ok true) ↔
        ∃ filter ∈ filters, Admits engine note filter :=
    exists_congr fun filter => and_congr_right fun _ => forall₃_congr fun entry _ hname =>
      (evaluate_constraint engine h hname).2
  have hreadable : (∀ filter ∈ filters, ∀ entry ∈ filter, isConstraint entry.1 = true →
      ∃ b, evaluate engine (some event) entry = .ok b) ↔
        ∀ filter ∈ filters, Readable engine note filter :=
    forall₂_congr fun filter _ => forall₃_congr fun entry _ hname =>
      (evaluate_constraint engine h hname).1
  have hreturns : (∃ b, validateEvent engine (some event) (some (filters.map .obj)) = .ok b) ↔
      ∀ filter ∈ filters, Callable event filter ∧ TagsReadable engine note filter := by
    classical
    simp only [validate_event_ok engine h hpasses]
    exact ⟨fun ⟨_, hcallable, _⟩ => hcallable, fun hcallable =>
      ⟨decide (∃ filter ∈ filters, TagsAdmit engine note filter), hcallable, decide_eq_true_iff⟩⟩
  constructor
  · rintro ⟨hlets, hquiet⟩
    rw [hmet, hasked] at hlets
    rw [hreadable, hreturns] at hquiet
    exact ⟨fun hall filter hfilter => (hquiet hall filter hfilter).1, hlets⟩
  · rintro ⟨hcallable, hdecide⟩
    constructor
    · rw [hmet, hasked, hdecide]
    · rw [hreadable, hreturns]
      refine fun hall filter hfilter => ⟨hcallable hall filter hfilter, fun entry hmem htag => ?_⟩
      exact hall filter hfilter entry hmem (is_constraint_tag htag)

/-- The fields of the note `hello`. -/
def helloNote : Note where
  id := ascii "7e5b2c762fa6f8e0a217429ae1e8d3084db7c73256165269f2e500fec23b75e3"
  pubkey := ascii "f9308a019258c31049344f85f89d5229b531c845836f99b08601f113bce036f9"
  kind := 1
  createdAt := 1688794190
  tags := []

/-- The note `hello` is formed correctly. -/
theorem hello_note_of : helloNote.Of (noteWith "hello") := by
  constructor <;> rfl

/-- A filter for a tag. -/
def tagFilter : FilterMembers :=
  [(ascii "#t", .arr [.str (ascii "x")])]

/-- A filter for reactions. -/
def reactionsFilter : FilterMembers :=
  [(ascii "kinds", .arr [.int 7])]

/-- The note `hello` has no tag, so it is not let through. -/
theorem validate_event_filters_iff_tag :
    FiltersEvent samplePlatform.toEngine (noteWith "hello") [tagFilter] := by
  have hrefused : ¬ (reading samplePlatform.toEngine helloNote
      (ascii "#t", .arr [.str (ascii "x")])).admits := by
    rintro ⟨tag, htag, -⟩
    exact absurd htag List.not_mem_nil
  refine (validate_event_filters_iff samplePlatform.toEngine (noteWith "hello") helloNote
    hello_note_of ⟨rfl, rfl⟩ [tagFilter]).mpr ⟨fun _ => ?_, iff_of_false ?_ ?_⟩
  · intro filter hfilter entry hmem
    rw [List.mem_singleton.mp hfilter] at hmem
    rw [List.mem_singleton.mp hmem]
    exact not_throws (by decide)
  · rintro ⟨-, filter, hfilter, htags, -⟩
    rw [List.mem_singleton.mp hfilter] at htags
    exact hrefused (htags _ List.mem_cons_self rfl)
  · rintro ⟨filter, hfilter, hadmits⟩
    rw [List.mem_singleton.mp hfilter] at hadmits
    exact hrefused (hadmits _ List.mem_cons_self rfl)

/-- The note is sent to a subscription for reactions. -/
theorem validate_event_drops_kinds :
    ¬ ∀ (engine : Engine) (event : Json) (note : Note), note.Of event → engine.Passes event →
      ∀ filters : List FilterMembers, FiltersEvent engine event filters := by
  intro h
  have hmet := (h samplePlatform.toEngine (noteWith "hello") helloNote hello_note_of ⟨rfl, rfl⟩
    [reactionsFilter]).met
  obtain ⟨filter, hfilter, hmeets⟩ := hmet.mp rfl
  rw [List.mem_singleton.mp hfilter] at hmeets
  have hlists : listsNumber samplePlatform.toEngine (.arr [.int 7]) helloNote.kind = true :=
    (evaluate_constraint samplePlatform.toEngine hello_note_of rfl).2.mp
      (hmeets _ List.mem_cons_self rfl)
  cases hlists

end Gnostr.Swarm
