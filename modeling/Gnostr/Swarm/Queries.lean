import Gnostr.Swarm.Filters

/-!
# Queries from filters

`buildQueries` of `template/db.js`. Every recognised name of a filter gives an entry, a field and a
condition on it, and the entries become the members of a query. The names that start with `#` share
one entry, to which each adds its values; `since` and `until` have one each, for the same field, and
of two members with one name the later stays.

A name is recognised when it is `in filtersHandlers`, which is so for every name that objects
inherit. Such a name adds whatever the inherited member returns (`QueryEntry`).
-/

namespace Gnostr.Swarm

open Wire

/-! ## Entries -/

/-- What a handler returns, or a member that `filtersHandlers` inherits. -/
inductive QueryEntry where
  /-- `[field, condition]`. -/
  | pair (field : Bytes) (condition : Json)
  /-- `Object(value)`. -/
  | object (value : Json)
  /-- An object or a function of the program, without items. -/
  | program
  /-- `"[object Object]"`. -/
  | text
  /-- A truth value or `undefined`. -/
  | scalar

/-- The first item, as a destructuring pattern takes it. -/
def QueryEntry.first : QueryEntry → Except Thrown Value
  | pair field _ => .ok (some (.str field))
  | object value => do return (← iterate (some value))[0]?
  | text => .ok (string "[")
  | program | scalar => .error .typeError

/-- `{ $in: filter }` and the like. -/
def operator (name : String) (value : Json) : Json :=
  .obj [(ascii name, value)]

/-- `{ $all: values }`. -/
def allCondition (values : List Json) : Json :=
  operator "$all" (.arr values)

/-- `condition.$all.push(...values)`. -/
def pushAll (values : List Json) : Json → Except Thrown Json
  | .obj ms =>
      match (ms.find? fun m => m.1 = ascii "$all").map Prod.snd with
      | some (.arr old) =>
          .ok (.obj (ms.map fun m =>
            if m.1 = ascii "$all" then (m.1, .arr (old ++ values)) else m))
      | _ => .error .typeError
  | _ => .error .typeError

/-- `entry[1].$all.push(...values)`. -/
def QueryEntry.push (values : List Json) : QueryEntry → Except Thrown QueryEntry
  | pair field condition => do return .pair field (← pushAll values condition)
  | object (.arr (first :: condition :: rest)) => do
      return .object (.arr (first :: (← pushAll values condition) :: rest))
  | _ => .error .typeError

/-- Push to the first entry for `tags`; nothing when there is none. -/
def pushTags (values : List Json) : List QueryEntry → Except Thrown (Option (List QueryEntry))
  | [] => .ok none
  | entry :: entries => do
      if strictEqual (← entry.first) (string "tags") then
        return some ((← entry.push values) :: entries)
      return (← pushTags values entries).map (entry :: ·)

/-! ## `filtersHandlers` -/

/-- The names of `filtersHandlers`. -/
def filtersHandlerNames : List String :=
  ["ids", "kinds", "authors", "hastag", "since", "until"]

/-- The names every object inherits. -/
def objectNames : List String :=
  ["constructor", "toString", "toLocaleString", "valueOf", "hasOwnProperty", "isPrototypeOf",
    "propertyIsEnumerable", "__defineGetter__", "__defineSetter__", "__lookupGetter__",
    "__lookupSetter__", "__proto__"]

/-- The values of `filtersHandlers.hastag(filter, tag)`. -/
def hastagValues (tag : Bytes) (filter : Json) : Except Thrown (List Json) := do
  return .str (tag.drop 1) :: (← iterate (some filter))

/-- A call of a member that `filtersHandlers` inherits. -/
def callObjectMember (engine : Engine) (key : Bytes) (filter : Json) : Except Thrown QueryEntry :=
  if key = ascii "constructor" then .ok (.object filter)
  else if key ∈ ["toString", "toLocaleString"].map ascii then .ok .text
  else if key = ascii "valueOf" then .ok .program
  else if key = ascii "isPrototypeOf" then .ok .scalar
  else if key ∈ ["hasOwnProperty", "propertyIsEnumerable"].map ascii then do
    let _ ← text engine (some filter)
    return .scalar
  else if key ∈ ["__lookupGetter__", "__lookupSetter__"].map ascii then do
    return if (← text engine (some filter)) = ascii "__proto__" then .program else .scalar
  -- the others are no function here, or one that wants a function
  else .error .typeError

/-- `filtersHandlers[key](filter)`. -/
def callFiltersHandler (engine : Engine) (key : Bytes) (filter : Json) : Except Thrown QueryEntry :=
  if key = ascii "ids" then .ok (.pair (ascii "id") (operator "$in" filter))
  else if key = ascii "kinds" then .ok (.pair (ascii "kind") (operator "$in" filter))
  else if key = ascii "authors" then
    .ok (.pair (ascii "pubkey") (operator "$gte" (operator "$in" filter)))
  -- without a tag there is nothing to slice
  else if key = ascii "hastag" then .error .typeError
  else if key = ascii "since" then .ok (.pair (ascii "created_at") (operator "$gt" filter))
  else if key = ascii "until" then .ok (.pair (ascii "created_at") (operator "$lt" filter))
  else callObjectMember engine key filter

/-! ## `buildQueries` -/

/-- A query: the conditions on fields. -/
abbrev FieldQuery := List (Bytes × Value)

/-- Assign a member of an object. -/
def assign (query : FieldQuery) (member : Bytes × Value) : FieldQuery :=
  if query.any fun m => m.1 = member.1 then
    query.map fun m => if m.1 = member.1 then member else m
  else query ++ [member]

/-- The member an entry stands for in `Object.fromEntries`. -/
def QueryEntry.member (engine : Engine) : QueryEntry → Except Thrown (Bytes × Value)
  | pair field condition => .ok (field, some condition)
  | object value => do
      let items : Value × Value :=
        match value with
        | .arr vs => (vs[0]?, vs[1]?)
        | .str t => (((codeUnits t)[0]?).map .str, ((codeUnits t)[1]?).map .str)
        | v => (v.member (ascii "0"), v.member (ascii "1"))
      return (← Swarm.text engine items.1, items.2)
  | program => .ok (ascii "undefined", none)
  | text | scalar => .error .typeError

/-- `Object.fromEntries`. -/
def fromEntries (engine : Engine) (entries : List QueryEntry) : Except Thrown FieldQuery := do
  return (← entries.mapM (QueryEntry.member engine)).foldl assign []

/-- The names `buildQueries` recognises. -/
def isQueryKey (key : Bytes) : Bool :=
  key.head? = some 35 || key ∈ (filtersHandlerNames ++ objectNames).map ascii

/-- One step of the `reduce` in `buildQueries`. -/
def addEntry (engine : Engine) (entries : List QueryEntry) (item : Bytes × Json) :
    Except Thrown (List QueryEntry) :=
  if item.1.head? = some 35 then do
    let values ← hastagValues item.1 item.2
    match ← pushTags values entries with
    | some entries => return entries
    | none => return entries ++ [.pair (ascii "tags") (allCondition values)]
  else do
    return entries ++ [← callFiltersHandler engine item.1 item.2]

/-- The query for one filter. -/
def buildQuery (engine : Engine) (filter : Json) : Except Thrown FieldQuery := do
  let items := (← entries filter).filter fun item => isQueryKey item.1
  fromEntries engine (← items.foldlM (addEntry engine) [])

/-- `buildQueries`. -/
def buildQueries (engine : Engine) (filters : List Json) : Except Thrown (List FieldQuery) :=
  filters.mapM (buildQuery engine)

/-! ## What a query should say -/

/-- A filter: an object, which has no name twice. -/
structure FilterObj where
  members : List (Bytes × Json)
  nodup : (members.map Prod.fst).Nodup

/-- How the database decides whether a field satisfies a condition. -/
structure Database where
  satisfies : Value → Value → Bool

/-- A field satisfies `$all` when it contains every value. -/
def Database.Lawful (db : Database) : Prop :=
  ∃ contains : Value → Json → Bool, ∀ values field,
    db.satisfies (some (allCondition values)) field = values.all (contains field)

/-- A document matches a query when every field satisfies its condition. -/
def Database.matches (db : Database) (query : FieldQuery) (doc : Json) : Bool :=
  query.all fun m => db.satisfies m.2 (doc.member m.1)

/-- The field and the condition a constraint stands for. -/
def conditionOf (item : Bytes × Json) : Except Thrown (Bytes × Json) :=
  if item.1.head? = some 35 then do
    return (ascii "tags", allCondition (← hastagValues item.1 item.2))
  else if item.1 = ascii "ids" then .ok (ascii "id", operator "$in" item.2)
  else if item.1 = ascii "kinds" then .ok (ascii "kind", operator "$in" item.2)
  else if item.1 = ascii "authors" then
    .ok (ascii "pubkey", operator "$gte" (operator "$in" item.2))
  else if item.1 = ascii "since" then .ok (ascii "created_at", operator "$gt" item.2)
  else .ok (ascii "created_at", operator "$lt" item.2)

/-- A document satisfies the condition of a constraint. -/
def Database.meets (db : Database) (doc : Json) (item : Bytes × Json) : Prop :=
  ∃ field condition, conditionOf item = .ok (field, condition) ∧
    db.satisfies (some condition) (doc.member field) = true

/-- A document matches a query exactly when it satisfies all constraints of a filter. -/
def QueryKeeps (filter : FilterObj) (query : FieldQuery) : Prop :=
  ∀ db : Database, db.Lawful → ∀ doc, db.matches query doc = true ↔
    ∀ item ∈ filter.members, isConstraint item.1 = true → db.meets doc item

/-- Every filter has a query that says what the filter says. -/
def KeepsConstraints (engine : Engine) (filters : List FilterObj) : Prop :=
  ∃ queries, buildQueries engine (filters.map fun filter => .obj filter.members) = .ok queries ∧
    List.Forall₂ QueryKeeps filters queries

/-- A filter without a name that objects inherit. -/
def FilterObj.Plain (filter : FilterObj) : Prop :=
  ∀ item ∈ filter.members, item.1 ∉ objectNames.map ascii

/-- Not both bounds, no call of `hastag`, and values that can be listed for every tag. -/
structure FilterObj.Kept (filter : FilterObj) : Prop where
  bounds : ¬ (ascii "since" ∈ filter.members.map Prod.fst ∧
    ascii "until" ∈ filter.members.map Prod.fst)
  hastag : ascii "hastag" ∉ filter.members.map Prod.fst
  values : ∀ item ∈ filter.members, item.1.head? = some 35 →
    ∃ values, iterate (some item.2) = .ok values

/-! ## Pairs -/

/-- Entries that are pairs. -/
def pairs (ps : List (Bytes × Json)) : List QueryEntry :=
  ps.map fun p => .pair p.1 p.2

/-- Values are pushed behind those that are there. -/
theorem push_all_condition (values old : List Json) :
    pushAll values (allCondition old) = .ok (allCondition (old ++ values)) := by
  simp [pushAll, allCondition, operator]

/-- A pair for another field is passed over. -/
theorem push_tags_skip (values : List Json) {field : Bytes} (h : ascii "tags" ≠ field)
    (condition : Json) (entries : List QueryEntry) :
    pushTags values (.pair field condition :: entries) = (pushTags values entries >>=
      fun pushed => .ok (pushed.map (.pair field condition :: ·))) := by
  have hfield : strictEqual (some (.str field)) (string "tags") = false :=
    decide_eq_false (Ne.symm h)
  simp [pushTags, QueryEntry.first, hfield, bind, Except.bind, pure, Except.pure]

/-- Without a condition on tags there is nothing to push to. -/
theorem push_tags_none (values : List Json) {ps : List (Bytes × Json)}
    (h : ascii "tags" ∉ ps.map Prod.fst) : pushTags values (pairs ps) = .ok none := by
  induction ps with
  | nil => rfl
  | cons p ps ih =>
      rw [List.map_cons, List.mem_cons, not_or] at h
      rw [pairs, List.map_cons, push_tags_skip values h.1, ← pairs, ih h.2]
      rfl

/-- With one, the values go into it. -/
theorem push_tags_some (values : List Json) {front : List (Bytes × Json)} (old : List Json)
    (back : List (Bytes × Json)) (h : ascii "tags" ∉ front.map Prod.fst) :
    pushTags values (pairs (front ++ (ascii "tags", allCondition old) :: back)) =
      .ok (some (pairs (front ++ (ascii "tags", allCondition (old ++ values)) :: back))) := by
  induction front with
  | nil =>
      have hfield : strictEqual (some (.str (ascii "tags"))) (string "tags") = true := rfl
      simp [pairs, pushTags, QueryEntry.first, QueryEntry.push, hfield, push_all_condition, bind,
        Except.bind, pure, Except.pure]
  | cons p front ih =>
      rw [List.map_cons, List.mem_cons, not_or] at h
      rw [List.cons_append, pairs, List.map_cons, push_tags_skip values h.1, ← pairs, ih h.2]
      rfl

/-- The members pairs stand for. -/
def members (ps : List (Bytes × Json)) : List (Bytes × Value) :=
  ps.map fun p => (p.1, some p.2)

/-- Of two entries with one name the later counts. -/
theorem from_entries_pairs (engine : Engine) (ps : List (Bytes × Json)) :
    fromEntries engine (pairs ps) = .ok ((members ps).foldl assign []) := by
  have hmembers : (pairs ps).mapM (QueryEntry.member engine) = .ok (members ps) := by
    rw [pairs, List.mapM_map]
    exact map_m_eq_ok fun p _ => rfl
  rw [fromEntries, hmembers]
  rfl

/-! ## Assignments -/

/-- What is assigned, or was there under another name. -/
theorem mem_assign {query : FieldQuery} {member m : Bytes × Value} (h : m ∈ assign query member) :
    m = member ∨ m ∈ query ∧ m.1 ≠ member.1 := by
  unfold assign at h
  split at h
  · obtain ⟨old, hold, heq⟩ := List.mem_map.mp h
    split at heq
    · exact .inl heq.symm
    · next hne => exact .inr (heq ▸ ⟨hold, hne⟩)
  · next hnone =>
    rcases List.mem_append.mp h with hold | hnew
    · refine .inr ⟨hold, fun heq => hnone ?_⟩
      exact List.any_eq_true.mpr ⟨m, hold, decide_eq_true heq⟩
    · exact .inl (List.mem_singleton.mp hnew)

/-- The last value assigned to a name stays. -/
theorem mem_foldl_assign {ms : List (Bytes × Value)} {m : Bytes × Value}
    (h : m ∈ ms.foldl assign []) : (ms.filter fun n => n.1 = m.1).getLast? = some m := by
  induction ms using List.reverseRecOn with
  | nil => cases h
  | append_singleton ms last ih =>
      rw [List.foldl_append] at h
      rw [List.filter_append]
      rcases mem_assign h with rfl | ⟨hm, hne⟩
      · simp
      · rw [List.filter_cons_of_neg (by simpa using Ne.symm hne), List.filter_nil, List.append_nil]
        exact ih hm

/-- Without a name twice, assigning keeps everything. -/
theorem foldl_assign_eq {ms : List (Bytes × Value)} (h : (ms.map Prod.fst).Nodup) :
    ms.foldl assign [] = ms := by
  induction ms using List.reverseRecOn with
  | nil => rfl
  | append_singleton ms last ih =>
      rw [List.map_append, List.map_singleton, List.nodup_append] at h
      rw [List.foldl_append, ih h.1, List.foldl_cons, List.foldl_nil, assign, if_neg]
      rw [List.any_eq_true]
      rintro ⟨m, hm, heq⟩
      exact h.2.2 m.1 (List.mem_map_of_mem hm) last.1 (by simp) (of_decide_eq_true heq)

/-! ## The loop -/

/-- The bounds on the time. -/
def isBound (key : Bytes) : Bool :=
  key ∈ ["since", "until"].map ascii

/-- The field a constraint is on. -/
def fieldName (key : Bytes) : Bytes :=
  if key.head? = some 35 then ascii "tags"
  else if key = ascii "ids" then ascii "id"
  else if key = ascii "kinds" then ascii "kind"
  else if key = ascii "authors" then ascii "pubkey"
  else ascii "created_at"

/-- The condition of a bound. -/
def boundCondition (item : Bytes × Json) : Json :=
  operator (if item.1 = ascii "since" then "$gt" else "$lt") item.2

/-- The names that constrain. -/
theorem constraint_cases {key : Bytes} (h : isConstraint key = true) :
    key.head? = some 35 ∨ key = ascii "ids" ∨ key = ascii "kinds" ∨ key = ascii "authors" ∨
      key = ascii "since" ∨ key = ascii "until" := by
  simpa [isConstraint] using h

/-- A tag is no bound. -/
theorem not_bound_of_tag {key : Bytes} (h : key.head? = some 35) : isBound key = false := by
  rw [Bool.eq_false_iff]
  intro hbound
  simp only [isBound, List.map_cons, List.map_nil, List.mem_cons, List.not_mem_nil, or_false,
    decide_eq_true_eq] at hbound
  rcases hbound with rfl | rfl <;> cases h

/-- It is a condition on the tags. -/
theorem field_name_tag {key : Bytes} (h : key.head? = some 35) : fieldName key = ascii "tags" :=
  if_pos h

/-- Bounds are the constraints on the time. -/
theorem field_name_eq_time {key : Bytes} (h : isConstraint key = true) :
    fieldName key = ascii "created_at" ↔ isBound key = true := by
  rcases constraint_cases h with htag | rfl | rfl | rfl | rfl | rfl
  · rw [field_name_tag htag, not_bound_of_tag htag]
    decide
  all_goals decide

/-- Constraints on one field have one name, are both on tags, or are both bounds. -/
theorem field_name_inj {key key' : Bytes} (h : isConstraint key = true)
    (h' : isConstraint key' = true) (heq : fieldName key = fieldName key') :
    key = key' ∨ fieldName key = ascii "tags" ∨ isBound key = true := by
  rcases constraint_cases h' with htag | hkey'
  · exact .inr (.inl (heq.trans (field_name_tag htag)))
  · rcases constraint_cases h with htag | hkey
    · exact .inr (.inl (field_name_tag htag))
    · rcases hkey with rfl | rfl | rfl | rfl | rfl <;>
        rcases hkey' with rfl | rfl | rfl | rfl | rfl <;>
        first
        | exact absurd heq (by decide)
        | exact .inr (.inr (by decide))
        | exact .inl rfl

/-- Conditions with different operators are different. -/
theorem operator_name_eq {name name' : String} {value value' : Json}
    (h : operator name value = operator name' value') : ascii name = ascii name' :=
  (Prod.mk.inj (List.cons.inj (Json.obj.inj h)).1).1

/-- Only `$gt` and `$lt` make a bound. -/
theorem operator_ne_bound {name : String} (hgt : ascii name ≠ ascii "$gt")
    (hlt : ascii name ≠ ascii "$lt") (value : Json) (bound : Bytes × Json) :
    operator name value ≠ boundCondition bound := by
  intro h
  unfold boundCondition at h
  split_ifs at h
  · exact hgt (operator_name_eq h)
  · exact hlt (operator_name_eq h)

/-- A condition on tags is none on the time. -/
theorem all_condition_ne_bound (values : List Json) (bound : Bytes × Json) :
    allCondition values ≠ boundCondition bound :=
  operator_ne_bound (by decide) (by decide) _ bound

/-- The two bounds are different conditions. -/
theorem bound_condition_ne {item item' : Bytes × Json} (h : item.1 = ascii "since")
    (h' : item'.1 ≠ ascii "since") : boundCondition item ≠ boundCondition item' := by
  intro heq
  rw [boundCondition, boundCondition, if_pos h, if_neg h'] at heq
  exact absurd (operator_name_eq heq) (by decide)

/-- What is known of the condition of a constraint. -/
theorem condition_of_ok {item : Bytes × Json} {field : Bytes} {condition : Json}
    (h : isConstraint item.1 = true) (hok : conditionOf item = .ok (field, condition)) :
    field = fieldName item.1 ∧
      (isBound item.1 = true → condition = boundCondition item) ∧
      (isBound item.1 = false → ∀ bound, condition ≠ boundCondition bound) ∧
      (field = ascii "tags" → ∃ values, condition = allCondition values) := by
  obtain ⟨key, value⟩ := item
  dsimp only at h ⊢
  rcases constraint_cases h with htag | hkey
  · rw [conditionOf, if_pos htag] at hok
    obtain ⟨values, -, hpair⟩ := bind_eq_ok hok
    obtain ⟨rfl, rfl⟩ := Prod.mk.inj (Except.ok.inj hpair)
    refine ⟨(field_name_tag htag).symm, fun hbound => ?_, fun _ => all_condition_ne_bound values,
      fun _ => ⟨values, rfl⟩⟩
    rw [not_bound_of_tag htag] at hbound
    cases hbound
  · rcases hkey with rfl | rfl | rfl | rfl | rfl
    all_goals obtain ⟨rfl, rfl⟩ := Prod.mk.inj (Except.ok.inj hok)
    · exact ⟨rfl, fun hbound => absurd hbound (by decide),
        fun _ => operator_ne_bound (by decide) (by decide) _, fun htag => absurd htag (by decide)⟩
    · exact ⟨rfl, fun hbound => absurd hbound (by decide),
        fun _ => operator_ne_bound (by decide) (by decide) _, fun htag => absurd htag (by decide)⟩
    · exact ⟨rfl, fun hbound => absurd hbound (by decide),
        fun _ => operator_ne_bound (by decide) (by decide) _, fun htag => absurd htag (by decide)⟩
    · exact ⟨rfl, fun _ => rfl, fun hbound => absurd hbound (by decide),
        fun htag => absurd htag (by decide)⟩
    · exact ⟨rfl, fun _ => rfl, fun hbound => absurd hbound (by decide),
        fun htag => absurd htag (by decide)⟩

/-- A document satisfies a constraint when it satisfies its condition. -/
theorem Database.meets_iff {db : Database} {doc : Json} {item : Bytes × Json} {field : Bytes}
    {condition : Json} (hok : conditionOf item = .ok (field, condition)) :
    db.meets doc item ↔ db.satisfies (some condition) (doc.member field) = true := by
  constructor
  · rintro ⟨field', condition', hok', hsat⟩
    obtain ⟨rfl, rfl⟩ := Prod.mk.inj (Except.ok.inj (hok.symm.trans hok'))
    exact hsat
  · exact fun hsat => ⟨_, _, hok, hsat⟩

/-- What holds of the pairs made from the constraints done so far. -/
structure Built (done : List (Bytes × Json)) (ps : List (Bytes × Json)) : Prop where
  origin : ∀ p ∈ ps, ∃ item ∈ done, fieldName item.1 = p.1
  bounds : (ps.filter fun p => p.1 = ascii "created_at").map Prod.snd =
    (done.filter fun item => isBound item.1).map boundCondition
  others : ∀ p ∈ ps, p.1 ≠ ascii "created_at" → ∀ bound, p.2 ≠ boundCondition bound
  fields : ((ps.filter fun p => p.1 ≠ ascii "created_at").map Prod.fst).Nodup
  tags : ∀ p ∈ ps, p.1 = ascii "tags" → ∃ values, p.2 = allCondition values
  meaning : ∀ db : Database, db.Lawful → ∀ doc,
    (∀ p ∈ ps, db.satisfies (some p.2) (doc.member p.1) = true) ↔
      ∀ item ∈ done, db.meets doc item

/-- At first nothing was built. -/
theorem built_nil : Built [] [] where
  origin := by simp
  bounds := rfl
  others := by simp
  fields := List.nodup_nil
  tags := by simp
  meaning := by simp

/-- A condition of its own is added for a constraint on a new field, and for every bound. -/
theorem Built.append {done ps : List (Bytes × Json)} {item : Bytes × Json} {field : Bytes}
    {condition : Json} (h : Built done ps) (hitem : isConstraint item.1 = true)
    (hok : conditionOf item = .ok (field, condition))
    (hnew : field ≠ ascii "created_at" → field ∉ ps.map Prod.fst) :
    Built (done ++ [item]) (ps ++ [(field, condition)]) := by
  obtain ⟨rfl, hbound, hother, htags⟩ := condition_of_ok hitem hok
  have htime := field_name_eq_time hitem
  refine ⟨?_, ?_, ?_, ?_, ?_, ?_⟩
  · intro p hp
    rcases List.mem_append.mp hp with hp | hp
    · obtain ⟨old, hold, hfield⟩ := h.origin p hp
      exact ⟨old, List.mem_append_left _ hold, hfield⟩
    · exact ⟨item, by simp, by rw [List.mem_singleton.mp hp]⟩
  · rw [List.filter_append, List.filter_append, List.map_append, List.map_append, h.bounds]
    cases hb : isBound item.1 with
    | true => simp [htime.mpr hb, hb, hbound hb]
    | false =>
        have hne : fieldName item.1 ≠ ascii "created_at" := fun heq => by
          rw [htime.mp heq] at hb
          cases hb
        simp [hne, hb]
  · intro p hp hne
    rcases List.mem_append.mp hp with hp | hp
    · exact h.others p hp hne
    · rw [List.mem_singleton.mp hp] at hne ⊢
      refine hother ?_
      cases hb : isBound item.1 with
      | true => exact absurd (htime.mpr hb) hne
      | false => rfl
  · rw [List.filter_append, List.map_append]
    by_cases hne : fieldName item.1 = ascii "created_at"
    · simpa [hne] using h.fields
    · have hfresh := hnew hne
      have hlast : ([(fieldName item.1, condition)].filter fun p =>
          p.1 ≠ ascii "created_at").map Prod.fst = [fieldName item.1] := by simp [hne]
      rw [hlast, List.nodup_append]
      refine ⟨h.fields, List.nodup_singleton _, ?_⟩
      rintro a ha b hb rfl
      rw [List.mem_singleton.mp hb] at ha
      exact hfresh ((List.filter_sublist.map Prod.fst).mem ha)
  · intro p hp htag
    rcases List.mem_append.mp hp with hp | hp
    · exact h.tags p hp htag
    · rw [List.mem_singleton.mp hp] at htag ⊢
      exact htags htag
  · intro db hdb doc
    simp only [List.forall_mem_append, List.forall_mem_singleton, h.meaning db hdb doc]
    rw [Database.meets_iff hok]

/-- The values of one more tag join those that are there. -/
theorem Built.push {done front back : List (Bytes × Json)} {old values : List Json}
    {item : Bytes × Json}
    (h : Built done (front ++ (ascii "tags", allCondition old) :: back))
    (htag : item.1.head? = some 35) (hvalues : hastagValues item.1 item.2 = .ok values) :
    Built (done ++ [item]) (front ++ (ascii "tags", allCondition (old ++ values)) :: back) := by
  have hplace : ∀ {P : Bytes × Json → Prop},
      (∀ p ∈ front ++ (ascii "tags", allCondition old) :: back, P p) →
      P (ascii "tags", allCondition (old ++ values)) →
      ∀ p ∈ front ++ (ascii "tags", allCondition (old ++ values)) :: back, P p := by
    intro P hold hnew
    rw [List.forall_mem_append, List.forall_mem_cons] at hold ⊢
    exact ⟨hold.1, hnew, hold.2.2⟩
  have hother : ascii "tags" ≠ ascii "created_at" := by decide
  refine ⟨hplace ?_ ?_, ?_, hplace h.others ?_, ?_, hplace h.tags ?_, ?_⟩
  · intro p hp
    obtain ⟨old, hold, hfield⟩ := h.origin p hp
    exact ⟨old, List.mem_append_left _ hold, hfield⟩
  · exact ⟨item, by simp, field_name_tag htag⟩
  · have hbounds := h.bounds
    rw [List.filter_append, List.filter_cons_of_neg (by simp [hother])] at hbounds ⊢
    rw [hbounds]
    simp [not_bound_of_tag htag]
  · exact fun _ => all_condition_ne_bound _
  · have hfields := h.fields
    rw [List.filter_append, List.filter_cons_of_pos (by simp [hother])] at hfields ⊢
    simpa using hfields
  · exact fun _ => ⟨_, rfl⟩
  · intro db hdb doc
    have hok : conditionOf item = .ok (ascii "tags", allCondition values) := by
      rw [conditionOf, if_pos htag, hvalues]
      rfl
    have hmeaning := h.meaning db hdb doc
    obtain ⟨contains, hall⟩ := hdb
    rw [List.forall_mem_append, List.forall_mem_cons] at hmeaning ⊢
    rw [List.forall_mem_append, List.forall_mem_singleton, ← hmeaning,
      Database.meets_iff hok]
    simp only [hall, List.all_append, Bool.and_eq_true]
    tauto

/-- A constraint that is not on tags has a handler of its name. -/
theorem handler_condition (engine : Engine) {item : Bytes × Json} (h : isConstraint item.1 = true)
    (htag : item.1.head? ≠ some 35) :
    ∃ field condition, conditionOf item = .ok (field, condition) ∧ field ≠ ascii "tags" ∧
      callFiltersHandler engine item.1 item.2 = .ok (.pair field condition) := by
  obtain ⟨key, value⟩ := item
  dsimp only at h htag ⊢
  rcases constraint_cases h with hhead | rfl | rfl | rfl | rfl | rfl
  · exact absurd hhead htag
  all_goals exact ⟨_, _, rfl, by decide, rfl⟩

/-- One entry more. -/
theorem pairs_concat (ps : List (Bytes × Json)) (field : Bytes) (condition : Json) :
    pairs (ps ++ [(field, condition)]) = pairs ps ++ [.pair field condition] := by
  simp [pairs]

/-- A tag adds its values to the condition, or a condition of its own. -/
theorem add_entry_tag (engine : Engine) {entries : List QueryEntry} {item : Bytes × Json}
    {values : List Json} (htag : item.1.head? = some 35)
    (hvalues : hastagValues item.1 item.2 = .ok values) :
    addEntry engine entries item = (pushTags values entries >>= fun pushed =>
      .ok (pushed.getD (entries ++ [.pair (ascii "tags") (allCondition values)]))) := by
  rw [addEntry, if_pos htag, hvalues]
  show (pushTags values entries >>= _) = _
  congr 1
  funext pushed
  cases pushed <;> rfl

/-- There is one pair for `tags`. -/
theorem Built.tags_once {done front back : List (Bytes × Json)} {condition : Json}
    (h : Built done (front ++ (ascii "tags", condition) :: back)) :
    ascii "tags" ∉ front.map Prod.fst := by
  intro hin
  obtain ⟨p, hp, hfield⟩ := List.mem_map.mp hin
  have hother : ascii "tags" ≠ ascii "created_at" := by decide
  have hfields := h.fields
  rw [List.filter_append, List.filter_cons_of_pos (by simp [hother]), List.map_append,
    List.nodup_append] at hfields
  refine hfields.2.2 p.1 (List.mem_map_of_mem (List.mem_filter.mpr ⟨hp, ?_⟩)) p.1 ?_ rfl
  · simp [hfield, hother]
  · rw [hfield]
    exact List.mem_cons_self

/-- One step of the loop. -/
theorem Built.step (engine : Engine) {done ps : List (Bytes × Json)} {item : Bytes × Json}
    (h : Built done ps) (hitem : isConstraint item.1 = true)
    (hdone : ∀ old ∈ done, isConstraint old.1 = true ∧ old.1 ≠ item.1)
    (hvalues : item.1.head? = some 35 → ∃ values, iterate (some item.2) = .ok values) :
    ∃ ps', addEntry engine (pairs ps) item = .ok (pairs ps') ∧ Built (done ++ [item]) ps' := by
  by_cases htag : item.1.head? = some 35
  · obtain ⟨listed, hlisted⟩ := hvalues htag
    have hhastag : hastagValues item.1 item.2 = .ok (.str (item.1.drop 1) :: listed) := by
      rw [hastagValues, hlisted]
      rfl
    have hok : conditionOf item =
        .ok (ascii "tags", allCondition (.str (item.1.drop 1) :: listed)) := by
      rw [conditionOf, if_pos htag, hhastag]
      rfl
    by_cases hin : ascii "tags" ∈ ps.map Prod.fst
    · obtain ⟨p, hp, hfield⟩ := List.mem_map.mp hin
      obtain ⟨old, hold⟩ := h.tags p hp hfield
      obtain ⟨front, back, hps⟩ := List.append_of_mem hp
      obtain rfl : p = (ascii "tags", allCondition old) := Prod.ext hfield hold
      subst hps
      refine ⟨_, ?_, h.push htag hhastag⟩
      rw [add_entry_tag engine htag hhastag, push_tags_some _ old back h.tags_once]
      rfl
    · refine ⟨_, ?_, h.append hitem hok fun _ => hin⟩
      rw [add_entry_tag engine htag hhastag, push_tags_none _ hin]
      exact congrArg Except.ok (pairs_concat ps _ _).symm
  · obtain ⟨field, condition, hok, hne, hcall⟩ := handler_condition engine hitem htag
    refine ⟨_, ?_, h.append hitem hok fun htime hin => ?_⟩
    · rw [addEntry, if_neg htag, hcall]
      exact congrArg Except.ok (pairs_concat ps _ _).symm
    · obtain ⟨rfl, -⟩ := condition_of_ok hitem hok
      obtain ⟨p, hp, hfield⟩ := List.mem_map.mp hin
      obtain ⟨old, hold, hname⟩ := h.origin p hp
      obtain ⟨hconstraint, hkey⟩ := hdone old hold
      rcases field_name_inj hitem hconstraint (hfield.symm.trans hname.symm) with heq | htags | hb
      · exact hkey heq.symm
      · exact hne htags
      · exact htime ((field_name_eq_time hitem).mpr hb)

/-- The pairs and the query of a filter without names to trip over. -/
theorem build_query_built (engine : Engine) {filter : FilterObj} (hplain : filter.Plain)
    (hhastag : ascii "hastag" ∉ filter.members.map Prod.fst)
    (hvalues : ∀ item ∈ filter.members, item.1.head? = some 35 →
      ∃ values, iterate (some item.2) = .ok values) :
    ∃ ps, buildQuery engine (.obj filter.members) = .ok ((members ps).foldl assign []) ∧
      Built (filter.members.filter fun item => isConstraint item.1) ps := by
  have hrecognised : (filter.members.filter fun item => isQueryKey item.1) =
      filter.members.filter fun item => isConstraint item.1 := by
    refine List.filter_congr fun item hitem => ?_
    have hno : item.1 ≠ ascii "hastag" := fun heq => hhastag (heq ▸ List.mem_map_of_mem hitem)
    have hinherited := hplain item hitem
    rw [Bool.eq_iff_iff]
    simp only [isQueryKey, isConstraint, filtersHandlerNames, List.map_append, List.mem_append,
      hinherited, or_false, List.map_cons, List.map_nil, List.mem_cons, List.not_mem_nil, hno,
      false_or]
  have hnodup : ((filter.members.filter fun item => isConstraint item.1).map Prod.fst).Nodup :=
    filter.nodup.sublist (List.filter_sublist.map Prod.fst)
  have hloop : ∃ entries, (filter.members.filter fun item => isConstraint item.1).foldlM
      (addEntry engine) [] = .ok entries ∧ ∃ ps, entries = pairs ps ∧
        Built (filter.members.filter fun item => isConstraint item.1) ps := by
    refine foldl_m_invariant (fun done entries => ∃ ps, entries = pairs ps ∧ Built done ps)
      ⟨[], rfl, built_nil⟩ ?_
    rintro done item rest _ hitems ⟨ps, rfl, hdone⟩
    have hmem : ∀ old ∈ done ++ item :: rest, old ∈ filter.members ∧ isConstraint old.1 = true :=
      fun old hold => List.mem_filter.mp (hitems ▸ hold)
    have hitem := hmem item (by simp)
    have hold : ∀ old ∈ done, isConstraint old.1 = true ∧ old.1 ≠ item.1 := by
      intro old hold
      refine ⟨(hmem old (List.mem_append_left _ hold)).2, fun heq => ?_⟩
      rw [hitems, List.map_append, List.nodup_append] at hnodup
      exact hnodup.2.2 old.1 (List.mem_map_of_mem hold) item.1 (by simp) heq
    obtain ⟨ps', hadd, hbuilt⟩ := hdone.step engine hitem.2 hold (hvalues item hitem.1)
    exact ⟨_, hadd, ps', rfl, hbuilt⟩
  obtain ⟨_, hfold, ps, rfl, hbuilt⟩ := hloop
  refine ⟨ps, ?_, hbuilt⟩
  show (List.foldlM (addEntry engine) [] (filter.members.filter fun item => isQueryKey item.1) >>=
    fromEntries engine) = _
  rw [hrecognised, hfold]
  exact from_entries_pairs engine ps

/-! ## When a query says it -/

/-- A document matches when it satisfies every condition. -/
theorem matches_members (db : Database) (ps : List (Bytes × Json)) (doc : Json) :
    db.matches (members ps) doc = true ↔
      ∀ p ∈ ps, db.satisfies (some p.2) (doc.member p.1) = true := by
  simp [Database.matches, members]

/-- The bounds of a filter. -/
def FilterObj.bounds (filter : FilterObj) : List (Bytes × Json) :=
  (filter.members.filter fun item => isConstraint item.1).filter fun item => isBound item.1

/-- The bounds of a filter. -/
theorem FilterObj.mem_bounds {filter : FilterObj} {item : Bytes × Json} :
    item ∈ filter.bounds ↔
      item ∈ filter.members ∧ (item.1 = ascii "since" ∨ item.1 = ascii "until") := by
  have hsince : isConstraint (ascii "since") = true := by decide
  have huntil : isConstraint (ascii "until") = true := by decide
  simp only [FilterObj.bounds, List.mem_filter, isBound, List.map_cons, List.map_nil,
    List.mem_cons, List.not_mem_nil, or_false, decide_eq_true_eq]
  constructor
  · exact fun h => ⟨h.1.1, h.2⟩
  · rintro ⟨hitem, hkey⟩
    refine ⟨⟨hitem, ?_⟩, hkey⟩
    rcases hkey with hkey | hkey
    · rw [hkey, hsince]
    · rw [hkey, huntil]

/-- Without both of them there is at most one. -/
theorem FilterObj.bounds_le_one {filter : FilterObj}
    (h : ¬ (ascii "since" ∈ filter.members.map Prod.fst ∧
      ascii "until" ∈ filter.members.map Prod.fst)) : filter.bounds.length ≤ 1 := by
  have hnodup : (filter.bounds.map Prod.fst).Nodup :=
    filter.nodup.sublist ((List.filter_sublist.trans List.filter_sublist).map Prod.fst)
  have hkeys : ∀ item ∈ filter.bounds, item.1 ∈ filter.members.map Prod.fst ∧
      (item.1 = ascii "since" ∨ item.1 = ascii "until") := fun item hitem =>
    ⟨List.mem_map_of_mem (FilterObj.mem_bounds.mp hitem).1, (FilterObj.mem_bounds.mp hitem).2⟩
  match hbounds : filter.bounds with
  | [] => simp
  | [_] => simp
  | x :: y :: rest =>
      rw [hbounds] at hnodup hkeys
      have hne : x.1 ≠ y.1 := fun heq => by simp [heq] at hnodup
      obtain ⟨hx, hxkey⟩ := hkeys x (by simp)
      obtain ⟨hy, hykey⟩ := hkeys y (by simp)
      rcases hxkey with hxkey | hxkey <;> rcases hykey with hykey | hykey
      · exact absurd (hxkey.trans hykey.symm) hne
      · exact absurd ⟨hxkey ▸ hx, hykey ▸ hy⟩ h
      · exact absurd ⟨hykey ▸ hy, hxkey ▸ hx⟩ h
      · exact absurd (hxkey.trans hykey.symm) hne

/-- With at most one bound no field is there twice. -/
theorem Built.nodup {done ps : List (Bytes × Json)} (h : Built done ps)
    (hone : (done.filter fun item => isBound item.1).length ≤ 1) : (ps.map Prod.fst).Nodup := by
  have hbounds : (ps.filter fun p => p.1 = ascii "created_at").length ≤ 1 := by
    have hlen := congrArg List.length h.bounds
    rw [List.length_map, List.length_map] at hlen
    rwa [hlen]
  have hfields := List.nodup_iff_count_le_one.mp h.fields
  rw [List.nodup_iff_count_le_one]
  intro field
  by_cases htime : field = ascii "created_at"
  · rw [List.count, List.countP_map, List.countP_eq_length_filter, htime]
    refine le_of_eq_of_le (congrArg List.length (List.filter_congr fun p _ => ?_)) hbounds
    rw [Bool.eq_iff_iff, Function.comp_apply, beq_iff_eq, decide_eq_true_eq]
  · have hcount := hfields field
    rw [List.count, List.countP_map, List.countP_filter] at hcount
    rw [List.count, List.countP_map]
    refine le_trans (List.countP_mono_left fun p _ hp => ?_) hcount
    simp only [Function.comp_apply, beq_iff_eq] at hp
    simp [hp, htime]

/-- The query of a filter that has not both bounds says what the filter says. -/
theorem query_keeps_of_kept (engine : Engine) {filter : FilterObj} (hplain : filter.Plain)
    (h : filter.Kept) :
    ∃ query, buildQuery engine (.obj filter.members) = .ok query ∧ QueryKeeps filter query := by
  obtain ⟨ps, hquery, hbuilt⟩ := build_query_built engine hplain h.hastag h.values
  have hnodup := hbuilt.nodup (FilterObj.bounds_le_one h.bounds)
  have hmembers : ((members ps).map Prod.fst).Nodup := by
    rwa [members, List.map_map]
  rw [foldl_assign_eq hmembers] at hquery
  refine ⟨_, hquery, fun db hdb doc => ?_⟩
  rw [matches_members, hbuilt.meaning db hdb doc]
  simp only [List.mem_filter, and_imp]

/-- What the query of a filter does not say: with both bounds, only the later one is in it. -/
theorem Built.lost {filter : FilterObj} {ps : List (Bytes × Json)}
    (h : Built (filter.members.filter fun item => isConstraint item.1) ps)
    (hsince : ascii "since" ∈ filter.members.map Prod.fst)
    (huntil : ascii "until" ∈ filter.members.map Prod.fst) :
    ∃ item ∈ filter.bounds,
      ∀ m ∈ (members ps).foldl assign [], m.2 ≠ some (boundCondition item) := by
  obtain ⟨s, hs, hskey⟩ := List.mem_map.mp hsince
  obtain ⟨u, hu, hukey⟩ := List.mem_map.mp huntil
  have hsbound : s ∈ filter.bounds := FilterObj.mem_bounds.mpr ⟨hs, .inl hskey⟩
  have hubound : u ∈ filter.bounds := FilterObj.mem_bounds.mpr ⟨hu, .inr hukey⟩
  obtain ⟨last, hlast⟩ : ∃ last, filter.bounds.getLast? = some last :=
    ⟨_, List.getLast?_eq_some_getLast (List.ne_nil_of_mem hsbound)⟩
  -- one of the two bounds is not the last one, and its condition is another
  obtain ⟨item, hitem, hother⟩ :
      ∃ item ∈ filter.bounds, boundCondition item ≠ boundCondition last := by
    by_cases hkey : last.1 = ascii "since"
    · exact ⟨u, hubound, (bound_condition_ne hkey (by rw [hukey]; decide)).symm⟩
    · exact ⟨s, hsbound, bound_condition_ne hskey hkey⟩
  refine ⟨item, hitem, fun m hm heq => ?_⟩
  have hstays := mem_foldl_assign hm
  have hfilter : (members ps).filter (fun n => n.1 = m.1) =
      members (ps.filter fun p => p.1 = m.1) := by
    simp [members, List.filter_map, Function.comp_def]
  rw [hfilter, members, List.getLast?_map] at hstays
  obtain ⟨p, hp, hpm⟩ := Option.map_eq_some_iff.mp hstays
  obtain ⟨hmem, hfield⟩ := List.mem_filter.mp (List.mem_of_getLast? hp)
  have hcondition : p.2 = boundCondition item := by
    rw [← hpm] at heq
    exact Option.some.inj heq
  by_cases htime : p.1 = ascii "created_at"
  · have hpkey : p.1 = m.1 := by simpa using hfield
    rw [← hpkey, htime] at hp
    have hbounds := congrArg List.getLast? h.bounds
    rw [List.getLast?_map, hp, List.getLast?_map] at hbounds
    have hend : filter.bounds.getLast? = _ := hlast
    rw [FilterObj.bounds] at hend
    rw [hend] at hbounds
    exact hother (hcondition.symm.trans (Option.some.inj hbounds))
  · exact h.others p hmem htime item hcondition

/-- A database that refuses one condition, and no other. -/
noncomputable def refusing (condition : Json) : Database where
  satisfies c _ := by classical exact decide (c ≠ some condition)

/-- A database may refuse everything under one condition. -/
theorem lawful_refusing (bound : Bytes × Json) : (refusing (boundCondition bound)).Lawful := by
  refine ⟨fun _ _ => true, fun values field => ?_⟩
  have hne : some (allCondition values) ≠ some (boundCondition bound) := fun h =>
    all_condition_ne_bound values bound (Option.some.inj h)
  simp [refusing, hne]

/-- The steps for `hastag` and for a tag without values throw. -/
theorem steps_of_query {engine : Engine} {filter : FilterObj} {query : FieldQuery}
    (h : buildQuery engine (.obj filter.members) = .ok query) :
    ascii "hastag" ∉ filter.members.map Prod.fst ∧
      ∀ item ∈ filter.members, item.1.head? = some 35 →
        ∃ values, iterate (some item.2) = .ok values := by
  have hloop : ((filter.members.filter fun item => isQueryKey item.1).foldlM (addEntry engine)
      [] >>= fromEntries engine) = .ok query := h
  obtain ⟨_, hfold, -⟩ := bind_eq_ok hloop
  have hsteps : ∀ item ∈ filter.members, isQueryKey item.1 = true →
      ∃ a b, addEntry engine a item = .ok b := fun item hitem hkey =>
    ok_of_foldl_m hfold item (List.mem_filter.mpr ⟨hitem, hkey⟩)
  constructor
  · intro hin
    obtain ⟨item, hitem, hkey⟩ := List.mem_map.mp hin
    obtain ⟨a, b, hstep⟩ := hsteps item hitem (by rw [hkey]; decide)
    rw [addEntry, hkey] at hstep
    cases hstep
  · intro item hitem htag
    obtain ⟨a, b, hstep⟩ := hsteps item hitem (by simp [isQueryKey, htag])
    rw [addEntry, if_pos htag] at hstep
    obtain ⟨values, hvalues, -⟩ := bind_eq_ok hstep
    obtain ⟨listed, hlisted, -⟩ := bind_eq_ok hvalues
    exact ⟨listed, hlisted⟩

/-- A filter whose query says what it says has not both bounds. -/
theorem kept_of_query_keeps {engine : Engine} {filter : FilterObj} (hplain : filter.Plain)
    {query : FieldQuery} (hquery : buildQuery engine (.obj filter.members) = .ok query)
    (hkeeps : QueryKeeps filter query) : filter.Kept := by
  obtain ⟨hhastag, hvalues⟩ := steps_of_query hquery
  refine ⟨?_, hhastag, hvalues⟩
  rintro ⟨hsince, huntil⟩
  obtain ⟨ps, hbuild, hbuilt⟩ := build_query_built engine hplain hhastag hvalues
  obtain rfl := Except.ok.inj (hbuild.symm.trans hquery)
  obtain ⟨item, hitem, hlost⟩ := hbuilt.lost hsince huntil
  have hmatches : (refusing (boundCondition item)).matches ((members ps).foldl assign []) .null =
      true := by
    refine List.all_eq_true.mpr fun m hm => ?_
    simp [refusing, hlost m hm]
  have hmem := List.mem_filter.mp hitem
  obtain ⟨hmembers, hconstraint⟩ := List.mem_filter.mp hmem.1
  obtain ⟨field, condition, hok, hsat⟩ :=
    (hkeeps _ (lawful_refusing item) .null).mp hmatches item hmembers hconstraint
  have hcondition := (condition_of_ok hconstraint hok).2.1 hmem.2
  simp [refusing, hcondition] at hsat

/-- Each filter has its query. -/
theorem keeps_constraints_iff {engine : Engine} {filters : List FilterObj} :
    KeepsConstraints engine filters ↔ ∀ filter ∈ filters,
      ∃ query, buildQuery engine (.obj filter.members) = .ok query ∧ QueryKeeps filter query := by
  rw [KeepsConstraints, buildQueries, List.mapM_map]
  exact map_m_forall_iff

/-- Every query says what its filter says when no filter has both bounds, the name `hastag`, a name
that objects inherit, or a tag without values to list; and of filters without inherited names, only
then. -/
theorem build_queries_keeps_iff (engine : Engine) (filters : List FilterObj) :
    ((∀ filter ∈ filters, filter.Plain ∧ filter.Kept) → KeepsConstraints engine filters) ∧
      ((∀ filter ∈ filters, filter.Plain) → KeepsConstraints engine filters →
        ∀ filter ∈ filters, filter.Kept) := by
  rw [keeps_constraints_iff]
  constructor
  · intro h filter hfilter
    exact query_keeps_of_kept engine (h filter hfilter).1 (h filter hfilter).2
  · intro hplain h filter hfilter
    obtain ⟨query, hquery, hkeeps⟩ := h filter hfilter
    exact kept_of_query_keeps (hplain filter hfilter) hquery hkeeps

/-- A filter for notes with two tags. -/
def tagsFilter : FilterObj where
  members := [(ascii "kinds", .arr [.int 1]), (ascii "#t", .arr [.str (ascii "x")]),
    (ascii "since", .int 1688794190), (ascii "#e", .arr [.str (ascii "y")])]
  nodup := by decide

/-- Both tags and the bound are in its query. -/
theorem build_queries_keeps_iff_tags : KeepsConstraints samplePlatform.toEngine [tagsFilter] := by
  refine (build_queries_keeps_iff samplePlatform.toEngine [tagsFilter]).1 ?_
  rw [List.forall_mem_singleton]
  have hplain : tagsFilter.Plain := by
    unfold FilterObj.Plain
    decide
  refine ⟨hplain, by decide, by decide, fun item hitem htag => ?_⟩
  simp only [tagsFilter, List.mem_cons, List.not_mem_nil, or_false] at hitem
  rcases hitem with rfl | rfl | rfl | rfl
  · cases htag
  · exact ⟨_, rfl⟩
  · cases htag
  · exact ⟨_, rfl⟩

/-- A filter for a day. -/
def dayFilter : FilterObj where
  members := [(ascii "since", .int 1688774400), (ascii "until", .int 1688860800)]
  nodup := by decide

/-- The first of two bounds is not in the query. -/
theorem build_queries_drops_since :
    ¬ ∀ (engine : Engine) (filters : List FilterObj), KeepsConstraints engine filters := by
  intro h
  have hplain : dayFilter.Plain := by
    unfold FilterObj.Plain
    decide
  obtain ⟨query, hquery, hkeeps⟩ :=
    keeps_constraints_iff.mp (h samplePlatform.toEngine [dayFilter]) dayFilter (by simp)
  exact (kept_of_query_keeps hplain hquery hkeeps).bounds ⟨by decide, by decide⟩

end Gnostr.Swarm
